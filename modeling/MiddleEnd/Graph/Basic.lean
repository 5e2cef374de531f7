import MiddleEnd.Vertex
import MiddleEnd.VertexSet

/-!
The graph of one function. Vertices and variables are numbered in the order of their creation and
keep their number for good: a vertex that left the graph can still be looked at. The graph is plain
data, so that damaged graphs can be stored; which graphs are well formed is said elsewhere.
-/
namespace MiddleEnd

/-- The control-flow graph of a function. -/
structure Graph where
  name : String
  sig : Signature
  entry : VertexId
  exit : VertexId
  /-- Every vertex ever created, by number. -/
  store : Array Vertex
  /-- The vertices in the graph, in the order of their creation. -/
  listed : List VertexId
  vars : Array Variable
  /-- Changes with every change of the structure made by the operations below. -/
  epoch : Nat
  /-- The vertices found reachable, and the epoch they were found at. -/
  reach : Option (Nat × VertexSet)

namespace Graph

variable (g : Graph)

def vertex (v : VertexId) : Vertex :=
  g.store.getD v default

def var (x : VarId) : Variable :=
  g.vars.getD x default

def op (v : VertexId) : Op :=
  (g.vertex v).op

def succs (v : VertexId) : List VertexId :=
  (g.vertex v).succs

def preds (v : VertexId) : List VertexId :=
  (g.vertex v).preds

/-- The parameters in the order of their declaration. -/
def params : List (Option VarId) :=
  (g.vertex g.entry).args

/-- Whether a vertex belongs to the graph. -/
def contains (v : VertexId) : Bool :=
  (g.vertex v).owned

/-- Changes one vertex. -/
def modifyVertex (v : VertexId) (change : Vertex → Vertex) : Graph :=
  { g with store := g.store.modify v change }

/-- Changes one variable. -/
def modifyVar (x : VarId) (change : Variable → Variable) : Graph :=
  { g with vars := g.vars.modify x change }

/-- Notes that the structure changed. -/
def touch : Graph :=
  { g with epoch := g.epoch + 1 }

/-- The number of the next vertex. -/
def nextVertex : VertexId :=
  g.store.size

/-- The number of the next variable. -/
def nextVar : VarId :=
  g.vars.size

/-- Adds a vertex without edges; its number is `nextVertex`. -/
def addVertex (op : Op) (result : Option VarId) (args : List (Option VarId)) : Graph :=
  { g with
    store := g.store.push { op, result, args, owned := true }
    listed := g.listed ++ [g.nextVertex]
    epoch := g.epoch + 1 }

/-- Adds a variable; its number is `nextVar`. A missing type becomes unknown. -/
def addVar (name : String) (type : Option Ty) : Graph :=
  { g with vars := g.vars.push { name, type := some (type.getD .unknown) } }

/-- Adds a constant; its number is `nextVar`. -/
def addConst (value : Literal) : Graph :=
  { g with vars := g.vars.push { type := some value.ty, value := some value } }

/-- Adds a parameter; its number is `nextVar`. -/
def addParam (name : String) (type : Option Ty) : Graph :=
  (g.addVar name type).modifyVertex g.entry fun v => { v with args := v.args ++ [some g.nextVar] }

def setVarType (x : VarId) (type : Option Ty) : Graph :=
  g.modifyVar x fun v => { v with type }

/-- The graph of a function with an entry and an exit and nothing between them. -/
def empty (name : String) (sig : Signature) : Graph :=
  let blank : Graph :=
    { name, sig, entry := 0, exit := 1, store := #[], listed := [], vars := #[], epoch := 0, reach := none }
  (blank.addVertex .function none []).addVertex .finish none []

/-- A variable as listings show it. -/
def varText (x : VarId) : String :=
  (g.var x).text x

/-- A variable that may be missing, as listings show it. -/
def varTextOf : Option VarId → String
  | none => "<nil>"
  | some x => g.varText x

/-- The vertices that read or write a variable, in order. -/
def references (x : Option VarId) : List VertexId :=
  g.listed.filter fun v => (g.vertex v).references x

/-- The vertices that write a variable, in order. -/
def definitions (x : Option VarId) : List VertexId :=
  g.listed.filter fun v => (g.vertex v).writesVar x

/-- The vertices that perform an operation, in order. -/
def verticesOf (op : Op) : List VertexId :=
  g.listed.filter fun v => g.op v = op

/-- The variables, constants left out, that the graph references, in the order of their IDs; none when an
operand is missing. -/
def mentioned? : Option (List VarId) :=
  if g.listed.any fun v => (g.vertex v).args.contains none then none
  else some <| sortById <| (List.range g.vars.size).filter fun x =>
    !(g.var x).isConst && g.listed.any fun v => (g.vertex v).references (some x)

theorem mem_of_mentioned? {g : Graph} {xs : List VarId} {x : VarId} (mentioned : g.mentioned? = some xs) :
    x ∈ xs ↔ x < g.vars.size ∧ (g.var x).isConst = false ∧
      ∃ v ∈ g.listed, (g.vertex v).references (some x) = true := by
  rw [mentioned?] at mentioned
  split at mentioned
  · simp at mentioned
  · obtain rfl := Option.some.inj mentioned
    simp

theorem nodup_of_mentioned? {g : Graph} {xs : List VarId} (mentioned : g.mentioned? = some xs) : xs.Nodup := by
  rw [mentioned?] at mentioned
  split at mentioned
  · simp at mentioned
  · obtain rfl := Option.some.inj mentioned
    exact nodup_sortById.mpr (List.nodup_range.filter _)

/-- Puts `new` in place of every reference to `old`. -/
def replaceVariable (old new : Option VarId) : Graph :=
  g.listed.foldl (fun g v => g.modifyVertex v (·.replaceVariable old new)) g

/-- How many of the vertices change when `new` is put in place of `old` in one after the other. -/
def countReplaced (old new : Option VarId) : Graph → List VertexId → Nat
  | _, [] => 0
  | g, v :: vs =>
    (if (g.vertex v).changesVariable old new then 1 else 0)
      + countReplaced old new (g.modifyVertex v (·.replaceVariable old new)) vs

/-- How many vertices putting `new` in place of `old` changes. -/
def replaceCount (old new : Option VarId) : Nat :=
  countReplaced old new g g.listed

end Graph

end MiddleEnd
