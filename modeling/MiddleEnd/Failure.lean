import MiddleEnd.Fault
import MiddleEnd.Text.Quoted

/-!
Why a function is not compiled. A failure is a value with its cause; a fault is an operation on
something that is not there, or a broken precondition. Both stop the work and leave the state as it
was reached.
-/
namespace MiddleEnd

/-- A vertex, by how many were created before it. -/
abbrev VertexId := Nat

/-- A variable, by how many were created before it. -/
abbrev VarId := Nat

/-- The ID of what was created after `n` others. It has 32 bits: the counter that it is taken from goes on with the
least number after the greatest. IDs are there to be shown and to sort by; they do not tell vertices apart. -/
def idOf (n : Nat) : Int32 :=
  Int32.ofNat n

/-- The counter goes on by one. -/
theorem idOf_succ (n : Nat) : idOf (n + 1) = idOf n + 1 :=
  Int32.ofNat_add n 1

/-- Before the first number comes again, IDs follow creation. -/
theorem idOf_lt_idOf {m n : Nat} (before : m < n) (inRange : n < 1 <<< 31) : idOf m < idOf n := by
  rw [Int32.lt_iff_toInt_lt, idOf, idOf, Int32.toInt_ofNat_of_lt inRange,
    Int32.toInt_ofNat_of_lt (Nat.lt_trans before inRange)]
  exact Int.ofNat_lt.mpr before

/-- In the order of the IDs. -/
def sortById (ns : List Nat) : List Nat :=
  ns.mergeSort fun a b => decide (idOf a ≤ idOf b)

theorem sortById_perm (ns : List Nat) : (sortById ns).Perm ns :=
  List.mergeSort_perm _ _

@[simp]
theorem mem_sortById {n : Nat} {ns : List Nat} : n ∈ sortById ns ↔ n ∈ ns :=
  (sortById_perm ns).mem_iff

@[simp]
theorem nodup_sortById {ns : List Nat} : (sortById ns).Nodup ↔ ns.Nodup :=
  (sortById_perm ns).nodup_iff

theorem sortById_of_pairwise {ns : List Nat} (sorted : ns.Pairwise fun a b => idOf a ≤ idOf b) : sortById ns = ns :=
  List.mergeSort_of_pairwise (by simpa using sorted)

/-- A vertex in listings and messages. -/
def vertexText (v : VertexId) : String :=
  s!"v{idOf v}"

/-- An invariant of graphs that does not hold. Variables and operations appear by their text. -/
inductive Corruption where
  | entryNotFunction
  | exitNotEnd
  | entryHasPreds (entry : VertexId) (count : Nat)
  | endsNotListed
  | invalidOp (v : VertexId) (code : Int)
  | foreignVertex (v : VertexId)
  | succCount (v : VertexId) (op : String) (count want : Nat)
  | returnElsewhere (v : VertexId)
  | secondFunction (v : VertexId)
  | secondEnd (v : VertexId)
  | missingResult (v : VertexId) (op : String)
  | unexpectedResult (v : VertexId) (op result : String)
  | writesConstant (v : VertexId) (result : String)
  | argCount (v : VertexId) (op : String) (count want : Nat)
  | returnValues (v : VertexId) (count : Nat)
  | missingArg (v : VertexId) (index : Nat)
  | invalidOperator (v : VertexId)
  | phiOwnResult (v : VertexId) (x : String)
  | phiTwice (v : VertexId) (x : String)
  | succNotListed (v succ : VertexId)
  | succUnaware (v succ : VertexId)
  | predNotListed (v pred : VertexId)
  | predUnaware (v pred : VertexId)
  | definedTwice (x : String) (first second : VertexId)
  | cannotRemove (v : VertexId) (op : String)
  | cannotSplice (v : VertexId) (op : String) (succs : Nat)
  | noCommonDominator (rounds : Nat)
  | frontierNotLabel (v : VertexId) (x op : String)
  | phisShareResult (x : String) (first second : VertexId)
  | fault (text : String)
  deriving DecidableEq, Repr

namespace Corruption

/-- What is wrong, after the name of the function. -/
def detail : Corruption → String
  | entryNotFunction => ": entry is not a Function vertex"
  | exitNotEnd => ": exit is not an End vertex"
  | entryHasPreds entry count => s!": entry {vertexText entry} has {count} predecessors, want 0"
  | endsNotListed => ": entry or exit not in vertex list"
  | invalidOp v code => s!", {vertexText v}: invalid op {code}"
  | foreignVertex v => s!", {vertexText v}: vertex Graph pointer mismatch"
  | succCount v op count want => s!", {vertexText v} ({op}): {count} successors, want {want}"
  | returnElsewhere v => s!", {vertexText v}: return does not lead to End"
  | secondFunction v => s!", {vertexText v}: second Function vertex"
  | secondEnd v => s!", {vertexText v}: second End vertex"
  | missingResult v op => s!", {vertexText v} ({op}): missing result"
  | unexpectedResult v op result => s!", {vertexText v} ({op}): unexpected result {result}"
  | writesConstant v result => s!", {vertexText v}: writes constant {result}"
  | argCount v op count want => s!", {vertexText v} ({op}): {count} args, want {want}"
  | returnValues v count => s!", {vertexText v}: return with {count} values"
  | missingArg v index => s!", {vertexText v}: arg[{index}] is nil"
  | invalidOperator v => s!", {vertexText v}: invalid binary operator"
  | phiOwnResult v x => s!", {vertexText v}: phi lists its own result {x}"
  | phiTwice v x => s!", {vertexText v}: phi lists {x} twice"
  | succNotListed v succ => s!", {vertexText v}: successor {vertexText succ} not in graph"
  | succUnaware v succ =>
    s!", {vertexText v}: successor {vertexText succ} does not list {vertexText v} as predecessor"
  | predNotListed v pred => s!", {vertexText v}: predecessor {vertexText pred} not in graph"
  | predUnaware v pred =>
    s!", {vertexText v}: predecessor {vertexText pred} does not list {vertexText v} as successor"
  | definedTwice x first second =>
    s!": {x} defined by both {vertexText first} and {vertexText second}"
  | cannotRemove v op => s!": cannot remove {op} {vertexText v}"
  | cannotSplice v op succs => s!": cannot splice {op} {vertexText v} with {succs} successors"
  | noCommonDominator rounds => s!": no common dominator after {rounds} rounds"
  | frontierNotLabel v x op =>
    s!": frontier vertex {vertexText v} for {x} is a {op}, not a label"
  | phisShareResult x first second =>
    s!": {x} defined by phis {vertexText first} and {vertexText second}"
  | fault text => s!": panic: {text}"

/-- The violation with the function it was found in. -/
def message (function : String) (c : Corruption) : String :=
  "func " ++ function ++ c.detail ++ ": graph corruption"

end Corruption

/-- Something a program may contain and the middle-end has no rule for. Types and signatures appear
by their text. -/
inductive Unsupported where
  | operands (symbol left right : String)
  | operator (symbol : String)
  | complement (operand : String)
  | unknownCallee (function callee : String)
  | argumentCount (function : String) (v : VertexId) (count : Nat) (callee signature : String)
  | argumentType (function : String) (v : VertexId) (type : String) (index : Nat) (callee signature : String)
  | returnsFromVoid (function : String) (v : VertexId)
  | returnType (function : String) (v : VertexId) (type declared : String)
  deriving DecidableEq, Repr

namespace Unsupported

def detail : Unsupported → String
  | operands symbol left right => s!"operator {symbol} on {left} and {right}"
  | operator symbol => s!"operator {symbol}"
  | complement operand => s!"operator ~ on {operand}"
  | unknownCallee function callee => s!"func {function}: call of unknown function {quoted callee}"
  | argumentCount function v count callee signature =>
    s!"func {function}: {vertexText v} passes {count} arguments to {callee}{signature}"
  | argumentType function v type index callee signature =>
    s!"func {function}: {vertexText v} passes {type} as parameter {index} of {callee}{signature}"
  | returnsFromVoid function v => s!"func {function}: {vertexText v} returns a value from a void function"
  | returnType function v type declared => s!"func {function}: {vertexText v} returns {type}, want {declared}"

end Unsupported

/-- Where in the work a failure arose. -/
inductive Place where
  | rule (name : String) (v : VertexId)
  | pass (name : String)
  | verifyBefore (next : String)
  | verifyAfter (last : String)
  | singleDefinition
  deriving DecidableEq, Repr

def Place.text : Place → String
  | rule name v => s!"rule {name} on {vertexText v}"
  | pass name => s!"pass {name}"
  | verifyBefore next => s!"verify before {next}"
  | verifyAfter last => s!"verify after {last}"
  | singleDefinition => "single definition"

/-- The three families of causes. -/
inductive FailureKind where
  | corrupt
  | unsupported
  | noFixpoint
  deriving DecidableEq, Repr

/-- Why a function is not compiled. -/
inductive Failure where
  /-- All violations found in a function. -/
  | corrupt (function : String) (first : Corruption) (more : List Corruption)
  /-- An operation without operands to negate. -/
  | notUnary (op : String)
  | unsupported (cause : Unsupported)
  | noFixpoint (function : String) (sweeps : Nat)
  | within (place : Place) (inner : Failure)
  deriving DecidableEq, Repr

namespace Failure

def kind : Failure → FailureKind
  | corrupt _ _ _ => .corrupt
  | notUnary _ => .corrupt
  | unsupported _ => .unsupported
  | noFixpoint _ _ => .noFixpoint
  | within _ inner => inner.kind

def message : Failure → String
  | corrupt function first more => "; ".intercalate ((first :: more).map (Corruption.message function))
  | notUnary op => s!"{op} is not a unary operation: graph corruption"
  | unsupported cause => cause.detail ++ ": unsupported input"
  | noFixpoint function sweeps =>
    s!"func {function}: still changing after {sweeps} sweeps: optimizer did not reach a fixpoint"
  | within place inner => place.text ++ ": " ++ inner.message

/-- The failure for a list of violations, if there are any. -/
def ofViolations (function : String) : List Corruption → Option Failure
  | [] => none
  | first :: more => some (corrupt function first more)

end Failure

/-- Why work stopped early. -/
inductive Stop where
  | failure (cause : Failure)
  | fault (cause : Fault)
  deriving DecidableEq, Repr

/-- Work on a state that may stop early; the state reached is kept either way. -/
abbrev Action (σ α : Type) := ExceptT Stop (StateM σ) α

namespace Action

variable {σ τ α : Type}

def fail (cause : Failure) : Action σ α :=
  throw (.failure cause)

def missing : Action σ α :=
  throw (.fault .missing)

/-- The value, or the fault of a missing one. -/
def need : Option α → Action σ α
  | some a => pure a
  | none => missing

/-- Adds the place where a failure arose; faults pass unchanged. -/
def within (place : Place) (work : Action σ α) : Action σ α :=
  tryCatch work fun
    | .failure cause => throw (.failure (.within place cause))
    | .fault cause => throw (.fault cause)

/-- Work on a part of the state. -/
def on (get : τ → σ) (put : τ → σ → τ) (work : Action σ α) : Action τ α :=
  ExceptT.mk fun t =>
    let (result, s) := work.run (get t)
    (result, put t s)

end Action

end MiddleEnd
