import MiddleEnd.Graph.Components
import MiddleEnd.Optimizer.TypeUnion

/-!
Elimination of phis. A phi whose inputs agree on a type is taken out and its inputs are merged into its
result, so that the writes of the inputs become writes of the result. Phis that only feed each other are
typed together.
-/
namespace MiddleEnd

/-- A graph, and how many phis have been eliminated so far. -/
structure Coalescing where
  graph : Graph
  resolved : Nat

namespace PhiElimination

/-- Whether a constant is found among the inputs before a missing one. -/
def hasConstant : List (Option VarId) → Action Graph Bool
  | [] => return false
  | a :: rest => do
    let x ← Action.need a
    if ((← get).var x).isConst then return true
    hasConstant rest

/-- The type that the result of a phi takes, or none if the inputs do not agree. A phi without inputs is
content with the type it has. -/
def winner? (g : Graph) (inputs : List VarId) : Option (Option Ty) :=
  if inputs.isEmpty then some none
  else
    match g.distinctTypes inputs with
    | [t] => if t = .unknown then none else some (some t)
    | types =>
      match Graph.pairedWithNumeric? types with
      | some t => if t = .long ∨ t = .double ∨ t = .bool then some (some t) else none
      | none => none

/-- Eliminates a phi if its inputs agree, and says whether it did. -/
def eliminate (phi : VertexId) : Action Graph Bool := do
  let w := (← get).vertex phi
  if w.op ≠ .phi || !w.owned then return false
  if ← hasConstant w.args then return false
  match winner? (← get) (w.args.filterMap id) with
  | none => return false
  | some winner =>
    spliceOut phi
    if let some t := winner then
      let result ← Action.need w.result
      let v := (← get).var result
      if v.type ≠ some t ∧ v.kind.isRefinable then
        modify (·.setVarType result (some t))
    w.args.forM fun input => modify (·.replaceVariable input w.result)
    return true

/-- Eliminates a phi and counts it. -/
def resolve (phi : VertexId) : Action Coalescing Bool := do
  let done ← (eliminate phi).on Coalescing.graph fun s g => { s with graph := g }
  if done then modify fun s => { s with resolved := s.resolved + 1 }
  return done

/-- The phi that defines a variable. -/
abbrev PhiDefs := List (Option VarId × VertexId)

/-- The phis by the variables they define; no two may define the same. -/
def phiDefs (g : Graph) : List VertexId → PhiDefs → Except Failure PhiDefs
  | [], defs => .ok defs
  | phi :: rest, defs =>
    let result := (g.vertex phi).result
    match defs.lookup result with
    | some first => .error (.corrupt g.name (.phisShareResult (g.varTextOf result) first phi) [])
    | none => phiDefs g rest (defs ++ [(result, phi)])

/-- The phis that feed a phi, once for each input. -/
def feeders (g : Graph) (defs : PhiDefs) (phi : VertexId) : List VertexId :=
  (g.vertex phi).args.filterMap fun a => defs.lookup a

/-- The phis that a phi feeds, once for each input. -/
def fed (g : Graph) (defs : PhiDefs) (phis : List VertexId) (phi : VertexId) : List VertexId :=
  phis.flatMap fun reader => ((feeders g defs reader).filter (· = phi)).map fun _ => reader

/-- Whether a phi among the members of a cycle is typed already. -/
def anyTyped : List VertexId → Action Graph Bool
  | [] => return false
  | phi :: rest => do
    let g ← get
    let result ← Action.need (g.vertex phi).result
    if Ty.isKnown (g.var result).type then return true
    anyTyped rest

/-- The type of the values that enter a cycle of phis from outside, if they agree. -/
def inboundType? (g : Graph) (inbound : List VarId) : Option Ty :=
  match g.distinctTypes inbound with
  | [t] => if t = .unknown then none else some t
  | types =>
    match Graph.pairedWithNumeric? types with
    | some t => if t = .long ∨ t = .double then some t else none
    | none => none

/-- Types an untyped cycle of phis from the values that enter it, and says whether it did. -/
def typeCycle (defs : PhiDefs) (cycle : List VertexId) : Action Graph Bool := do
  if cycle.length < 2 then return false
  if ← anyTyped cycle then return false
  let g ← get
  let entering := cycle.flatMap fun phi => (g.vertex phi).args.filter fun a =>
    !(defs.lookup a).any cycle.contains
  let inbound ← Action.need (entering.mapM id)
  match inboundType? g inbound with
  | none => return false
  | some t =>
    cycle.forM fun phi => do
      let result ← Action.need ((← get).vertex phi).result
      modify (·.setVarType result (some t))
    return true

/-- Types the cycles of phis that feed each other. -/
def typeCycles : Action Graph Bool := do
  let g ← get
  let phis := g.verticesOf .phi
  match phiDefs g phis [] with
  | .error why => Action.fail why
  | .ok defs =>
    let cycles := stronglyConnected phis (fed g defs phis) (feeders g defs)
    cycles.foldlM (fun changed cycle => return (← typeCycle defs cycle) || changed) false

/-- Eliminates every phi that can be, then types cycles; says whether anything changed. -/
def run : Action Coalescing Bool := do
  let phis := (← get).graph.verticesOf .phi
  let progress ← phis.foldlM (fun progress phi => return (← resolve phi) || progress) false
  let typed ← typeCycles.on Coalescing.graph fun s g => { s with graph := g }
  return progress || typed

end PhiElimination

end MiddleEnd
