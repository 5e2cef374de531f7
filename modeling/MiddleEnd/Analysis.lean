import MiddleEnd.Dominators

/-!
A graph with its dominance analyses. Each is computed on first use and kept until the epoch of the graph
changes.
-/
namespace MiddleEnd

/-- Dominators, and the epoch they were computed at. -/
structure DatedDominators where
  epoch : Nat
  dominators : Dominators

/-- A graph with the analyses computed so far. -/
structure Analysis where
  graph : Graph
  forward : Option DatedDominators := none
  backward : Option DatedDominators := none

namespace Analysis

/-- Whether kept dominators still belong to the epoch of the graph. -/
def isCurrent (a : Analysis) (kept : Option DatedDominators) : Bool :=
  kept.any (·.epoch == a.graph.epoch)

/-- Kept dominators if they are current, else new ones from `root`. -/
def current (a : Analysis) (kept : Option DatedDominators) (root : VertexId) (reversed : Bool) : DatedDominators :=
  match kept with
  | some d => if d.epoch = a.graph.epoch then d else ⟨a.graph.epoch, .ofGraph a.graph root reversed⟩
  | none => ⟨a.graph.epoch, .ofGraph a.graph root reversed⟩

/-- The dominators from the entry. -/
def dominators (a : Analysis) : Dominators × Analysis :=
  let d := a.current a.forward a.graph.entry false
  (d.dominators, { a with forward := some d })

/-- The post-dominators from the exit. -/
def postDominators (a : Analysis) : Dominators × Analysis :=
  let d := a.current a.backward a.graph.exit true
  (d.dominators, { a with backward := some d })

/-- Forgets both analyses. -/
def invalidate (a : Analysis) : Analysis :=
  { a with forward := none, backward := none }

end Analysis

end MiddleEnd
