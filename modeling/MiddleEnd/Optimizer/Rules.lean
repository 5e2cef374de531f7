import MiddleEnd.Graph.Order
import MiddleEnd.Literal.Fold
import MiddleEnd.Optimizer.TypeUnion

/-!
The rules of the optimizer. A rule looks at one vertex, may change it, replace it or take it out of the
graph, and says whether it changed anything.
-/
namespace MiddleEnd

/-- A local change of the graph at one vertex. -/
structure Rule where
  name : String
  apply : VertexId → Action Graph Bool

namespace Rule

/-- Takes a variable out of the inputs of every phi but `v`. -/
def forget (v : VertexId) (g : Graph) (x : Option VarId) : Graph :=
  ((g.references x).filter fun u => g.op u = .phi ∧ u ≠ v).foldl
    (fun g u => g.modifyVertex u (·.removePhiInput x)) g

/-- Detaches a vertex that cannot be reached from the entry; phis forget what it wrote. -/
def pruneUnreachable (v : VertexId) : Action Graph Bool := do
  let g ← get
  if v = g.entry ∨ v = g.exit then return false
  let (g, reached) := g.withReach
  set g
  if v ∈ reached then return false
  set (((g.vertex v).writes.foldl (forget v) g).detach v)
  return true

/-- Turns a conditional jump on a constant into a jump to the successor that it always takes. -/
def foldBranch (v : VertexId) : Action Graph Bool := do
  let g ← get
  let w := g.vertex v
  if w.op ≠ .jumpIf then return false
  match w.succs with
  | [thenTo, elseTo] =>
    let x ← operand w 0
    match (g.var x).value with
    | none => return false
    | some value =>
      let dead := if value.truthy then elseTo else thenTo
      set ((g.removeEdge v dead).modifyVertex v fun w => { w with op := .jump, args := [] })
      return true
  | _ => return false

/-- Copies the known type of the source of an assignment to its untyped result. -/
def inferAssign (v : VertexId) : Action Graph Bool := do
  let g ← get
  let w := g.vertex v
  if w.op ≠ .assign then return false
  let result ← Action.need w.result
  if Ty.isKnown (g.var result).type then return false
  let source ← operand w 0
  if !Ty.isKnown (g.var source).type then return false
  refineType (some result) (g.var source).type

/-- Types the result of a binary operation. -/
def inferBinaryOp (v : VertexId) : Action Graph Bool := do
  let g ← get
  let w := g.vertex v
  if w.op ≠ .binary then return false
  let x ← operand w 0
  let y ← operand w 1
  match inferBinary w.binOp (g.var x).type (g.var y).type with
  | .error why => Action.fail why
  | .ok t => refineType w.result t

/-- Types the untyped result of a negation or complement. -/
def inferUnaryOp (v : VertexId) : Action Graph Bool := do
  let g ← get
  let w := g.vertex v
  if w.op ≠ .boolNot ∧ w.op ≠ .bitNot then return false
  let result ← Action.need w.result
  if Ty.isKnown (g.var result).type then return false
  let x ← operand w 0
  match inferUnary w.op (g.var x).type with
  | .error why => Action.fail why
  | .ok t => refineType (some result) t

/-- The value of an operation on constants, if it has one. -/
def constantValue (w : Vertex) : Action Graph (Option Literal) := do
  let g ← get
  match w.op with
  | .binary =>
    let x ← operand w 0
    match (g.var x).value with
    | none => return none
    | some a =>
      let y ← operand w 1
      match (g.var y).value with
      | none => return none
      | some b => return Literal.foldBinary w.binOp a b
  | .boolNot | .bitNot =>
    let x ← operand w 0
    match (g.var x).value with
    | none => return none
    | some a => return Literal.foldUnary w.op a
  | _ => return none

/-- Replaces an operation on constants by an assignment of its value to the same result. -/
def foldConstants (v : VertexId) : Action Graph Bool := do
  let w := (← get).vertex v
  match ← constantValue w with
  | none => return false
  | some value =>
    let c := (← get).nextVar
    modify (·.addConst value)
    let _ ← refineType w.result (some value.ty)
    let n := (← get).nextVertex
    modify fun g => (g.addVertex .assign w.result [some c]).replace v n
    return true

/-- Takes out a vertex without effects whose result nothing else references. -/
def removeDead (v : VertexId) : Action Graph Bool := do
  let g ← get
  let w := g.vertex v
  if !w.op.info.idempotent || w.result.isNone then return false
  if (g.references w.result).length > 1 then return false
  spliceOut v
  return true

/-- Gives the result of a phi the type its inputs agree on: the one they all have, or long, double or bool
beside numeric. Numeric inputs beside long and double take that type too. -/
def unifyPhi (w : Vertex) (result : VarId) : Action Graph Bool := do
  let inputs ← Action.need (w.args.mapM id)
  let g ← get
  let types := g.distinctTypes inputs
  match types with
  | [t] =>
    if t = .unknown then return false
    modify (·.setVarType result (some t))
    return true
  | _ =>
    match Graph.pairedWithNumeric? types with
    | none => return false
    | some t =>
      if t = .long ∨ t = .double then
        modify (·.setVarType result (some t))
        inputs.forM fun x => do
          if ((← get).var x).kind = .numeric then
            let _ ← refineType (some x) (some t)
        return true
      else if t = .bool then
        modify (·.setVarType result (some t))
        return true
      else return false

/-- Types an untyped phi and takes out a phi with a single input, which stands for its result from then on. -/
def simplifyPhi (v : VertexId) : Action Graph Bool := do
  let g ← get
  let w := g.vertex v
  if w.op ≠ .phi then return false
  let result ← Action.need w.result
  let changed ← if Ty.isKnown (g.var result).type then pure false else unifyPhi w result
  match w.args with
  | [input] =>
    let input ← Action.need input
    let g ← get
    let source := g.var input
    let type := (g.var result).type
    if !Ty.isKnown source.type && Ty.isKnown type && !source.isConst then
      set (g.setVarType input type)
    spliceOut v
    modify (·.replaceVariable (some result) (some input))
    return true
  | _ => return changed

/-- Gives untyped arguments the types of the parameters and checks the others, the index first. -/
def checkArguments (v : VertexId) (callee : String) (sig : Signature) :
    Nat → List (Option VarId × Option Ty) → Action Graph Bool
  | _, [] => return false
  | i, (arg, param) :: rest => do
    let x ← Action.need arg
    let g ← get
    let type := (g.var x).type
    if !Ty.isKnown type && Ty.isKnown param && Ty.kindOf param != .zval then
      let changed ← refineType (some x) param
      let more ← checkArguments v callee sig (i + 1) rest
      return changed || more
    else if Ty.compatible param type then checkArguments v callee sig (i + 1) rest
    else Action.fail (.unsupported (.argumentType g.name v (Ty.textOf type) i callee sig.text))

/-- Types a call from the signature of its callee. -/
def checkCall (v : VertexId) (sig : Signature) : Action Graph Bool := do
  let g ← get
  let w := g.vertex v
  if w.args.length ≠ sig.params.length then
    Action.fail (.unsupported (.argumentCount g.name v w.args.length w.callee sig.text))
  else
    let changed ← checkArguments v w.callee sig 0 (w.args.zip sig.params)
    let typed ← refineType w.result (some sig.result)
    return changed || typed

/-- Types calls. A call of the function itself becomes a recursive call and is checked against its own
signature; other callees are looked up. -/
def checkCallee (sigs : Signatures) (v : VertexId) : Action Graph Bool := do
  let g ← get
  let w := g.vertex v
  match w.op with
  | .call =>
    if w.callee = g.name then
      set (g.modifyVertex v fun w => { w with op := .selfCall })
      return true
    else
      match sigs.lookup w.callee with
      | none => Action.fail (.unsupported (.unknownCallee g.name w.callee))
      | some sig => checkCall v sig
  | .selfCall => checkCall v g.sig
  | _ => return false

/-- Narrows a returned value to the declared result and rejects what cannot be returned. -/
def checkReturn (v : VertexId) : Action Graph Bool := do
  let g ← get
  let w := g.vertex v
  if w.op ≠ .ret then return false
  match w.args with
  | [] => return false
  | arg :: _ =>
    let declared := g.sig.result
    match declared.kind with
    | .unknown | .zval => return false
    | .void => Action.fail (.unsupported (.returnsFromVoid g.name v))
    | _ =>
      let x ← Action.need arg
      let type := (g.var x).type
      if Ty.compatible (some declared) type then refineType (some x) (some declared)
      else Action.fail (.unsupported (.returnType g.name v (Ty.textOf type) declared.text))

/-- The rules in the order of their application. -/
def all (sigs : Signatures) : List Rule :=
  [⟨"unreachable", pruneUnreachable⟩, ⟨"constbranch", foldBranch⟩, ⟨"assign", inferAssign⟩,
    ⟨"binaryop", inferBinaryOp⟩, ⟨"unaryop", inferUnaryOp⟩, ⟨"constfold", foldConstants⟩,
    ⟨"deadassign", removeDead⟩, ⟨"phi", simplifyPhi⟩, ⟨"call", checkCallee sigs⟩, ⟨"return", checkReturn⟩]

end Rule

end MiddleEnd
