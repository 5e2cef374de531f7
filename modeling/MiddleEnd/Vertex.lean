import MiddleEnd.Failure
import MiddleEnd.Literal.Basic
import MiddleEnd.Operation

/-!
Variables and vertices. A vertex names its operands, successors and predecessors by number; an
operand may be missing (`none`), which no well-formed vertex has.
-/
namespace MiddleEnd

/-- A typed storage location. A constant has a value, which fixes its type. -/
structure Variable where
  /-- The source-level name, empty for a temporary. -/
  name : String := ""
  type : Option Ty := none
  value : Option Literal := none
  deriving DecidableEq

namespace Variable

instance : Inhabited Variable := ⟨{}⟩

def isConst (x : Variable) : Bool :=
  x.value.isSome

def kind (x : Variable) : Kind :=
  Ty.kindOf x.type

/-- The literal of a constant, `name.ID` for a named variable, `tID` for a temporary. -/
def text (n : VarId) (x : Variable) : String :=
  match x.value with
  | some value => value.text
  | none => if x.name = "" then s!"t{idOf n}" else s!"{x.name}.{idOf n}"

end Variable

/-- One operation of a graph. -/
structure Vertex where
  op : Op := .invalid
  /-- The operator of a binary operation. -/
  binOp : BinOp := .invalid
  /-- The function that a call calls. -/
  callee : String := ""
  /-- The variable written. -/
  result : Option VarId := none
  /-- The operands; those of a phi are a set, those of the entry are the parameters. -/
  args : List (Option VarId) := []
  /-- The successors; a conditional jump has the truthy one first. -/
  succs : List VertexId := []
  preds : List VertexId := []
  /-- Whether the vertex belongs to its graph. -/
  owned : Bool := false
  deriving DecidableEq

namespace Vertex

instance : Inhabited Vertex := ⟨{}⟩

/-- The variables read: the operands, except of the entry. -/
def reads (v : Vertex) : List (Option VarId) :=
  if v.op = .function then [] else v.args

/-- The variables written: the result, and the parameters for the entry. -/
def writes (v : Vertex) : List (Option VarId) :=
  if v.op = .function then v.args else if v.result.isSome then [v.result] else []

/-- Every variable referenced, operands first. -/
def mentioned (v : Vertex) : List (Option VarId) :=
  if v.result.isSome then v.args ++ [v.result] else v.args

def references (v : Vertex) (x : Option VarId) : Bool :=
  v.result = x || v.args.contains x

def readsVar (v : Vertex) (x : Option VarId) : Bool :=
  v.reads.contains x

def writesVar (v : Vertex) (x : Option VarId) : Bool :=
  v.writes.contains x

def isBranch (v : Vertex) : Bool :=
  v.op.info.branch

/-- Whether `x` can become a further input of a phi: it is a variable, not the result, and not an input yet. -/
def takesPhiInput (v : Vertex) (x : Option VarId) : Bool :=
  x.isSome && x != v.result && !v.args.contains x

/-- Adds an input to a phi; what it does not take is ignored. -/
def addPhiInput (v : Vertex) (x : Option VarId) : Vertex :=
  if v.takesPhiInput x then { v with args := v.args ++ [x] } else v

/-- Removes an input of a phi. -/
def removePhiInput (v : Vertex) (x : Option VarId) : Vertex :=
  { v with args := v.args.erase x }

/-- Whether putting another variable in place of `old` changes the operands. -/
def changesArgs (v : Vertex) (old new : Option VarId) : Bool :=
  old != new && v.args.contains old

/-- Puts `new` in place of the operand `old`; the inputs of a phi stay a set without the result. -/
def replaceArgs (v : Vertex) (old new : Option VarId) : Vertex :=
  if v.changesArgs old new then
    if v.op = .phi then (v.removePhiInput old).addPhiInput new
    else { v with args := v.args.map fun a => if a = old then new else a }
  else v

/-- Whether putting another variable in place of `old` changes the vertex. -/
def changesVariable (v : Vertex) (old new : Option VarId) : Bool :=
  old != new && v.references old

/-- Puts `new` in place of every reference to `old`, the result included. -/
def replaceVariable (v : Vertex) (old new : Option VarId) : Vertex :=
  let w := v.replaceArgs old new
  if w.result = old ∧ old ≠ new then
    let w := { w with result := new }
    if w.op = .phi then w.removePhiInput new else w
  else w

end Vertex

end MiddleEnd
