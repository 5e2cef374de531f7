import MiddleEnd.Graph.Edit

/-!
Building a graph statement by statement, the way a front end lowers a function body. After a jump or a
return the insertion point is gone, and what is emitted then is unreachable until a label is bound.
-/
namespace MiddleEnd

/-- A graph under construction. -/
structure Builder where
  graph : Graph
  /-- The vertex emitted last; none when the point is unreachable. -/
  point : Option VertexId
  /-- The source variables by name. -/
  names : List (String × VarId)

namespace Builder

/-- The statement's text when the parameter names do not match the signature. -/
def nameCountText (names params : Nat) : String :=
  s!"ir.NewBuilder: {names} parameter names for {params} parameters"

/-- A builder at the entry of a function whose parameters are named in order. -/
def start (name : String) (sig : Signature) (params : List String) : Except Fault Builder :=
  if params.length ≠ sig.params.length then
    .error (.stated (nameCountText params.length sig.params.length))
  else
    let g := Graph.empty name sig
    let b : Builder := ⟨g, some g.entry, []⟩
    .ok <| (params.zip sig.params).foldl
      (fun b (name, type) => ⟨b.graph.addParam name type, b.point, (name, b.graph.nextVar) :: b.names⟩) b

def reachable (b : Builder) : Bool :=
  b.point.isSome

/-- The source variable with a name, made on first use. -/
def var (b : Builder) (name : String) : VarId × Builder :=
  match b.names.lookup name with
  | some x => (x, b)
  | none => (b.graph.nextVar, ⟨b.graph.addVar name none, b.point, (name, b.graph.nextVar) :: b.names⟩)

/-- The source variable with a name, given a declared type. -/
def typedVar (b : Builder) (name : String) (type : Option Ty) : VarId × Builder :=
  let (x, b) := b.var name
  (x, { b with graph := b.graph.setVarType x type })

/-- A fresh temporary. -/
def temp (b : Builder) : VarId × Builder :=
  (b.graph.nextVar, { b with graph := b.graph.addVar "" none })

/-- A new constant. -/
def const (b : Builder) (value : Literal) : VarId × Builder :=
  (b.graph.nextVar, { b with graph := b.graph.addConst value })

/-- Appends an unconnected vertex at the insertion point. -/
def emit (b : Builder) (v : VertexId) : Builder :=
  { b with
    graph := match b.point with
      | some last => b.graph.addEdge last v
      | none => b.graph
    point := some v }

/-- Makes a vertex and appends it. -/
def append (b : Builder) (op : Op) (result : Option VarId) (args : List (Option VarId)) : VertexId × Builder :=
  (b.graph.nextVertex, { b with graph := b.graph.addVertex op result args }.emit b.graph.nextVertex)

def assign (b : Builder) (dst src : Option VarId) : VertexId × Builder :=
  b.append .assign dst [src]

def binaryInto (b : Builder) (dst : Option VarId) (op : BinOp) (x y : Option VarId) : VertexId × Builder :=
  let v := b.graph.nextVertex
  let g := (b.graph.addVertex .binary dst [x, y]).modifyVertex v fun w => { w with binOp := op }
  (v, { b with graph := g }.emit v)

/-- A binary operation into a fresh temporary. -/
def binary (b : Builder) (op : BinOp) (x y : Option VarId) : VarId × Builder :=
  let (t, b) := b.temp
  (t, (b.binaryInto (some t) op x y).2)

/-- A negation or complement into a fresh temporary. -/
def unary (b : Builder) (op : Op) (x : Option VarId) : VarId × Builder :=
  let (t, b) := b.temp
  (t, (b.append op (some t) [x]).2)

/-- A call into a fresh temporary. -/
def call (b : Builder) (callee : String) (args : List (Option VarId)) : VarId × Builder :=
  let (t, b) := b.temp
  let v := b.graph.nextVertex
  let g := (b.graph.addVertex .call (some t) args).modifyVertex v fun w => { w with callee }
  (t, { b with graph := g }.emit v)

def echo (b : Builder) (args : List (Option VarId)) : VertexId × Builder :=
  b.append .echo none args

/-- A label that is not placed yet. -/
def label (b : Builder) : VertexId × Builder :=
  (b.graph.nextVertex, { b with graph := b.graph.addVertex .label none [] })

/-- Places a label; control falls through into it from a reachable point. -/
def bind (b : Builder) (l : VertexId) : Builder :=
  b.emit l

/-- Appends a vertex with edges to `targets` and leaves the point unreachable; nothing at an unreachable
point. -/
def leave (b : Builder) (op : Op) (args : List (Option VarId)) (targets : List VertexId) : Builder :=
  if b.reachable then
    let (v, b) := b.append op none args
    { b with graph := targets.foldl (fun g t => g.addEdge v t) b.graph, point := none }
  else b

def jump (b : Builder) (target : VertexId) : Builder :=
  b.leave .jump [] [target]

def jumpIf (b : Builder) (cond : Option VarId) (thenTo elseTo : VertexId) : Builder :=
  b.leave .jumpIf [cond] [thenTo, elseTo]

/-- Returns a variable, or nothing. -/
def ret (b : Builder) (x : Option VarId) : Builder :=
  b.leave .ret (if x.isSome then [x] else []) [b.graph.exit]

/-- Closes the function: an open point returns nothing, and labels that were never connected go. -/
def finish (b : Builder) : Builder :=
  let b := b.ret none
  let unplaced := b.graph.listed.filter fun v =>
    let w := b.graph.vertex v
    w.op = .label && w.preds.isEmpty && w.succs.isEmpty
  { b with graph := unplaced.foldl Graph.drop b.graph }

end Builder

end MiddleEnd
