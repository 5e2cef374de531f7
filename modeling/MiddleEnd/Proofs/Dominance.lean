import MiddleEnd.Dominators
import MiddleEnd.Proofs.Search

/-!
The computed dominators are those that paths define. The loop over the equations comes to its end (`settles_solve`),
since steps only take members away; it ends in sets that are their own meets (`Settles.fixed`). A member of such a set lies
on every path, by induction along the path, and a vertex on every path is never taken out of a set, by induction over the
rounds.
-/
namespace MiddleEnd

namespace Graph

/-- The lists of successors and of predecessors describe the same edges. -/
def SameEdges (g : Graph) : Prop :=
  ∀ u v, v ∈ g.succs u ↔ u ∈ g.preds v

variable {g : Graph}

/-- Along the paths from `root` in a direction, edges are written down at both ends. -/
def EdgesAgreeFrom (g : Graph) (reversed : Bool) (root : VertexId) : Prop :=
  ∀ u, Reachable (g.along reversed) root u →
    (∀ s ∈ g.along reversed u, s < g.store.size ∧ u ∈ g.against reversed s) ∧
    ∀ p ∈ g.against reversed u, Reachable (g.along reversed) root p → u ∈ g.along reversed p

theorem against_of_ge {v : VertexId} (reversed : Bool) (outside : g.store.size ≤ v) : g.against reversed v = [] := by
  cases reversed
  · exact preds_of_ge outside
  · exact succs_of_ge outside

theorem along_iff_against (same : g.SameEdges) (reversed : Bool) (u v : VertexId) :
    v ∈ g.along reversed u ↔ u ∈ g.against reversed v := by
  cases reversed
  · exact same u v
  · exact (same v u).symm

/-- No edge leaves the vertices there are. -/
theorem along_lt (same : g.SameEdges) (reversed : Bool) (u s : VertexId) (edge : s ∈ g.along reversed u) :
    s < g.store.size := by
  rcases Nat.lt_or_ge s g.store.size with inside | outside
  · exact inside
  · rw [along_iff_against same, against_of_ge reversed outside] at edge
    simp at edge

theorem SameEdges.agreeFrom (same : g.SameEdges) (reversed : Bool) (root : VertexId) :
    g.EdgesAgreeFrom reversed root :=
  fun u _ => ⟨fun s edge => ⟨along_lt same reversed u s edge, (along_iff_against same reversed u s).mp edge⟩,
    fun p edge _ => (along_iff_against same reversed p u).mpr edge⟩

/-- Only the vertices there are need to be looked at. -/
theorem sameEdges_iff : g.SameEdges ↔
    ∀ u < g.store.size, (∀ v ∈ g.succs u, v < g.store.size ∧ u ∈ g.preds v) ∧
      ∀ p ∈ g.preds u, p < g.store.size ∧ u ∈ g.succs p := by
  constructor
  · intro same u _
    exact ⟨fun v edge => ⟨along_lt same false u v edge, (same u v).mp edge⟩,
      fun p edge => ⟨along_lt same true u p edge, (same p u).mpr edge⟩⟩
  · intro local' u v
    constructor
    · intro edge
      rcases Nat.lt_or_ge u g.store.size with inside | outside
      · exact ((local' u inside).1 v edge).2
      · simp [succs_of_ge outside] at edge
    · intro edge
      rcases Nat.lt_or_ge v g.store.size with inside | outside
      · exact ((local' v inside).2 u edge).2
      · simp [preds_of_ge outside] at edge

instance : Decidable g.SameEdges :=
  decidable_of_iff _ sameEdges_iff.symm

end Graph

namespace Dominators

variable {tracked : VertexSet} {incoming : Array (List VertexId)} {order : List VertexId} {sets : Array VertexSet}
  {v c : VertexId}

theorem refine_cons : refine tracked incoming (v :: order) sets =
    refine tracked incoming order (refineAt tracked incoming sets v) :=
  rfl

namespace Within

theorem antisymm {s t : List VertexSet} (first : Within s t) (second : Within t s) : s = t := by
  induction first with
  | nil => rfl
  | @cons a b s t le _ ih =>
    cases second with
    | cons le' rest =>
      have same : a = b := congrArg VertexSet.mk (Nat.le_antisymm le le')
      rw [ih rest, same]

end Within

/-- Where a round changes nothing, no step of it does: steps only take away. -/
theorem refineAt_of_refine (descending : Descending tracked incoming order sets) {vs : List VertexId}
    (among : ∀ v ∈ vs, v ∈ order) (fixed : refine tracked incoming vs sets = sets) :
    ∀ v ∈ vs, refineAt tracked incoming sets v = sets := by
  induction vs with
  | nil => simp
  | cons w vs ih =>
    rw [refine_cons] at fixed
    have member := among w List.mem_cons_self
    have later : ∀ v ∈ vs, v ∈ order := fun v isLater => among v (List.mem_cons_of_mem _ isLater)
    have back := (descending.refineAt member).within_refine later
    rw [fixed] at back
    have unchanged : refineAt tracked incoming sets w = sets :=
      Array.ext' ((descending.within_refineAt member).antisymm back)
    rw [unchanged] at fixed
    exact List.forall_mem_cons.mpr ⟨unchanged, ih later fixed⟩

/-- A round changes nothing just if every set is the meet already. -/
theorem refine_eq_self_iff (descending : Descending tracked incoming order sets) :
    refine tracked incoming order sets = sets ↔ ∀ v ∈ order, refineAt tracked incoming sets v = sets := by
  refine ⟨refineAt_of_refine descending fun _ => id, fun unchanged => ?_⟩
  have fixed {vs : List VertexId} (among : ∀ v ∈ vs, v ∈ order) : refine tracked incoming vs sets = sets := by
    induction vs with
    | nil => rfl
    | cons v vs ih =>
      rw [refine_cons, unchanged v (among v List.mem_cons_self)]
      exact ih fun w later => among w (List.mem_cons_of_mem _ later)
  exact fixed fun _ => id

/-- A run of the loop that starts from `sets`: rounds are made as long as a vertex has a set other than its meet. -/
inductive Settles (tracked : VertexSet) (incoming : Array (List VertexId)) (order : List VertexId) :
    Array VertexSet → Array VertexSet → Prop
  | done {sets : Array VertexSet} (unchanged : ∀ v ∈ order, refineAt tracked incoming sets v = sets) :
    Settles tracked incoming order sets sets
  | again {sets last : Array VertexSet} (changes : ∃ v ∈ order, refineAt tracked incoming sets v ≠ sets)
    (rest : Settles tracked incoming order (refine tracked incoming order sets) last) :
    Settles tracked incoming order sets last

/-- The loop ends, with the answer of `solve`. -/
theorem settles_solve (descending : Descending tracked incoming order sets) :
    Settles tracked incoming order sets (solve tracked incoming order sets descending) := by
  fun_induction solve tracked incoming order sets descending with
  | case1 sets descending refined fixed => exact .done ((refine_eq_self_iff descending).mp fixed)
  | case2 sets descending refined changed ih =>
    have changes := mt (refine_eq_self_iff descending).mpr changed
    exact .again (by simpa using changes) ih

/-- The answer of the loop is the meet of itself everywhere. -/
theorem Settles.fixed {last : Array VertexSet} (settles : Settles tracked incoming order sets last) :
    ∀ v ∈ order, refineAt tracked incoming last v = last := by
  induction settles with
  | done unchanged => exact unchanged
  | again _ _ ih => exact ih

/-- What no step takes from the sets stays in them to the end. -/
theorem Settles.induct {last : Array VertexSet} (settles : Settles tracked incoming order sets last)
    {P : Array VertexSet → Prop} (descending : Descending tracked incoming order sets) (begins : P sets)
    (keeps : ∀ sets, ∀ v ∈ order, Descending tracked incoming order sets → P sets → P (refineAt tracked incoming sets v)) :
    P last := by
  induction settles with
  | done => exact begins
  | again _ _ ih =>
    obtain ⟨descending', holds⟩ := descending.foldl_induct begins keeps fun _ member => member
    exact ih descending' holds

/-- Two rounds are enough if the second one changes nothing. -/
theorem solve_of_settled {refined : Array VertexSet} {descending : Descending tracked incoming order sets}
    (round : refine tracked incoming order sets = refined) (settled : refine tracked incoming order refined = refined) :
    solve tracked incoming order sets descending = refined := by
  subst round
  rw [solve]
  split
  · exact Eq.symm ‹_›
  · rw [solve]
    exact if_pos settled

/-! ### The equations of a graph -/

section
variable {g : Graph} {root : VertexId} {reversed : Bool}

/-- The loop over the equations of a graph comes to its end. -/
theorem settles_ofGraph : Settles (ofGraph g root reversed).tracked (ofGraph g root reversed).incoming
    (roundOrder (reversePostOrderFrom (g.along reversed) g.store.size root) root)
    (startSets g.store.size root (ofGraph g root reversed).tracked) (ofGraph g root reversed).sets :=
  settles_solve _

theorem descending_ofGraph : Descending (ofGraph g root reversed).tracked (ofGraph g root reversed).incoming
    (roundOrder (reversePostOrderFrom (g.along reversed) g.store.size root) root)
    (startSets g.store.size root (ofGraph g root reversed).tracked) :=
  descending_startSets fun _ => mem_tracked_of_mem_roundOrder

theorem getD_incoming (v : VertexId) : (ofGraph g root reversed).incoming.getD v [] = g.against reversed v := by
  simp only [ofGraph, Array.getD_eq_getD_getElem?, List.getElem?_toArray, List.getElem?_map]
  rcases Nat.lt_or_ge v g.store.size with inside | outside
  · simp [List.getElem?_range inside]
  · rw [Graph.against_of_ge reversed outside, List.getElem?_eq_none (by simpa using outside)]
    rfl

theorem mem_tracked (agree : g.EdgesAgreeFrom reversed root) :
    v ∈ (ofGraph g root reversed).tracked ↔ Reachable (g.along reversed) root v := by
  simp only [ofGraph, VertexSet.mem_ofList]
  exact mem_reversePostOrderFrom fun u reached s edge => ((agree u reached).1 s edge).1

theorem mem_roundOrder (agree : g.EdgesAgreeFrom reversed root) :
    v ∈ roundOrder (reversePostOrderFrom (g.along reversed) g.store.size root) root ↔
      Reachable (g.along reversed) root v ∧ v ≠ root := by
  rw [roundOrder, List.mem_filter,
    mem_reversePostOrderFrom fun u reached s edge => ((agree u reached).1 s edge).1]
  simp

/-- The root starts with itself, the other tracked vertices with all tracked ones. -/
theorem mem_startSets {size : Nat} (inside : root < size) : c ∈ (startSets size root tracked).getD v ∅ ↔
    (v = root ∧ c = root) ∨ (v ≠ root ∧ v < size ∧ v ∈ tracked ∧ c ∈ tracked) := by
  have empty : c ∉ VertexSet.empty := VertexSet.not_mem_empty c
  rcases Nat.lt_or_ge v size with below | outside
  · rw [getD_startSets below]
    by_cases atRoot : v = root
    · simp [atRoot, empty]
    · by_cases member : v ∈ tracked
      · simp [atRoot, member, below]
      · simp [atRoot, member]
  · rw [Array.getD_eq_getD_getElem?, Array.getElem?_eq_none (by simpa using outside)]
    have other : v ≠ root := Nat.ne_of_gt (Nat.lt_of_lt_of_le inside outside)
    simp [other, Nat.not_lt.mpr outside]

/-- The computed sets lie in the sets they started from. -/
theorem mem_startSets_of_mem (member : c ∈ (ofGraph g root reversed).set v) :
    c ∈ (startSets g.store.size root (ofGraph g root reversed).tracked).getD v ∅ :=
  settles_ofGraph.induct (P := fun sets => ∀ v c, c ∈ sets.getD v ∅ →
      c ∈ (startSets g.store.size root (ofGraph g root reversed).tracked).getD v ∅)
    descending_ofGraph (fun _ _ member => member)
    (fun _ _ ordered descending holds v c member => holds v c (descending.refineAt_subset ordered v c member)) v c member

/-- A computed set satisfies its equation: a member other than the vertex is in the sets of all tracked
predecessors. -/
theorem mem_set_of_edge (agree : g.EdgesAgreeFrom reversed root) {u : VertexId} (member : c ∈ (ofGraph g root reversed).set v)
    (other : c ≠ v) (notRoot : v ≠ root) (reached : Reachable (g.along reversed) root u)
    (edge : v ∈ g.along reversed u) : c ∈ (ofGraph g root reversed).set u := by
  have unchanged := settles_ofGraph.fixed v ((mem_roundOrder agree).mpr ⟨reached.step edge, notRoot⟩)
  have inside : v < (ofGraph g root reversed).sets.size := by
    rcases Nat.lt_or_ge v (ofGraph g root reversed).sets.size with inside | outside
    · exact inside
    · rw [set, Array.getD_eq_getD_getElem?, Array.getElem?_eq_none outside] at member
      exact absurd member (VertexSet.not_mem_empty c)
  rw [set, ← unchanged, getD_refineAt, if_pos ⟨rfl, inside⟩] at member
  rcases mem_meet.mp member with is | ⟨_, all⟩
  · exact absurd is other
  · refine all u ?_ ((mem_tracked agree).mpr reached)
    rw [getD_incoming]
    exact ((agree u reached).1 v edge).2

/-- A member of a computed set lies on every path. -/
theorem dominates_of_mem (agree : g.EdgesAgreeFrom reversed root) (inside : root < g.store.size)
    (member : c ∈ (ofGraph g root reversed).set v) : Dominates (g.along reversed) root c v := by
  intro past trail
  induction trail with
  | start =>
    rcases (mem_startSets inside).mp (mem_startSets_of_mem member) with ⟨_, is⟩ | ⟨other, _⟩
    · exact .inr is
    · exact absurd rfl other
  | @step past u v before edge ih =>
    by_cases atRoot : v = root
    · rcases (mem_startSets inside).mp (mem_startSets_of_mem member) with ⟨_, is⟩ | ⟨other, _⟩
      · exact .inr (is.trans atRoot.symm)
      · exact absurd atRoot other
    · by_cases is : c = v
      · exact .inr is
      · rcases ih (mem_set_of_edge agree member is atRoot before.reachable edge) with passed | rfl
        · exact .inl (List.mem_append_left _ passed)
        · exact .inl (by simp)

/-- The vertices on every path are in the sets, at the start and after every refinement. -/
theorem mem_of_dominates (agree : g.EdgesAgreeFrom reversed root) (inside : root < g.store.size)
    (reached : Reachable (g.along reversed) root v) (dom : Dominates (g.along reversed) root c v) :
    c ∈ (ofGraph g root reversed).set v := by
  refine settles_ofGraph.induct (P := fun sets => ∀ v c, Reachable (g.along reversed) root v →
    Dominates (g.along reversed) root c v → c ∈ sets.getD v ∅) descending_ofGraph ?_ ?_ v c reached dom
  · intro v c reached dom
    rw [mem_startSets inside, mem_tracked agree, mem_tracked agree]
    by_cases atRoot : v = root
    · subst atRoot
      exact .inl ⟨rfl, dom.eq_root⟩
    · have below : v < g.store.size := by
        rcases reached.last_edge with is | ⟨u, reachedU, edge⟩
        · exact absurd is atRoot
        · exact ((agree u reachedU).1 v edge).1
      exact .inr ⟨atRoot, below, reached, dom.reachable reached⟩
  · intro sets w ordered _ holds v c reached dom
    rw [getD_refineAt]
    by_cases other : ¬ (v = w ∧ w < sets.size)
    · rw [if_neg other]
      exact holds v c reached dom
    obtain ⟨rfl, inside⟩ := Decidable.not_not.mp other
    rw [if_pos ⟨rfl, inside⟩]
    obtain ⟨_, notRoot⟩ := (mem_roundOrder agree).mp ordered
    rw [mem_meet]
    by_cases is : c = v
    · exact .inl is
    · -- A reachable vertex other than the root has a tracked predecessor, so the meet is over something.
      obtain ⟨u, reachedU, edge⟩ : ∃ u, Reachable (g.along reversed) root u ∧ v ∈ g.along reversed u := by
        rcases reached.last_edge with atRoot | found
        · exact absurd atRoot notRoot
        · exact found
      simp only [getD_incoming, mem_tracked agree]
      exact .inr ⟨⟨u, ((agree u reachedU).1 v edge).2, reachedU⟩,
        fun p edge reachedP => holds p c reachedP (dom.of_edge ((agree v reached).2 p edge reachedP) is)⟩

theorem reachable_of_mem (agree : g.EdgesAgreeFrom reversed root) (inside : root < g.store.size)
    (member : c ∈ (ofGraph g root reversed).set v) : Reachable (g.along reversed) root v := by
  rcases (mem_startSets inside).mp (mem_startSets_of_mem member) with ⟨rfl, _⟩ | ⟨_, _, tracked, _⟩
  · exact .refl
  · exact (mem_tracked agree).mp tracked

theorem isTracked_iff (agree : g.EdgesAgreeFrom reversed root) :
    (ofGraph g root reversed).isTracked v = true ↔ Reachable (g.along reversed) root v :=
  mem_tracked agree

theorem dominatedBy_iff (agree : g.EdgesAgreeFrom reversed root) (inside : root < g.store.size) :
    (ofGraph g root reversed).dominatedBy v c = true ↔
      Reachable (g.along reversed) root v ∧ Dominates (g.along reversed) root c v :=
  ⟨fun member => ⟨reachable_of_mem agree inside member, dominates_of_mem agree inside member⟩,
    fun ⟨reached, dom⟩ => mem_of_dominates agree inside reached dom⟩

end

/-- The loop over the equations comes to its end, with the sets that are the answer. A vertex is tracked iff a path
from the root arrives at it, and `c` dominates it iff moreover every such path passes through `c`. Over reversed edges
from the exit this says the same of post-dominators. -/
theorem ofGraph_is_path_dominance (g : Graph) (same : g.SameEdges) (root : VertexId) (inside : root < g.store.size)
    (reversed : Bool) :
    let d := ofGraph g root reversed
    let order := reversePostOrderFrom (g.along reversed) g.store.size root
    Settles d.tracked d.incoming (roundOrder order root) (startSets g.store.size root d.tracked) d.sets ∧
    (∀ v, d.isTracked v = true ↔ Reachable (g.along reversed) root v) ∧
    ∀ v c, d.dominatedBy v c = true ↔
      Reachable (g.along reversed) root v ∧ ∀ past, Trail (g.along reversed) root past v → c ∈ past ∨ c = v := by
  intro d order
  have agree := same.agreeFrom reversed root
  exact ⟨settles_ofGraph, fun v => isTracked_iff agree, fun v c => dominatedBy_iff agree inside⟩

/-- Two vertices that jump to each other, both entered from the entry by a parallel pair of edges, a vertex that
jumps to itself, and one that is not reachable but leads into the loop. -/
def tangled : Graph where
  name := "f"
  sig := .empty
  entry := 0
  exit := 4
  store := #[
    { op := .function, succs := [1, 2, 2], owned := true },
    { op := .label, succs := [2, 4], preds := [0, 2, 3], owned := true },
    { op := .label, succs := [1, 2], preds := [0, 0, 1, 2], owned := true },
    { op := .label, succs := [1], owned := true },
    { op := .finish, preds := [1], owned := true }]
  listed := [0, 1, 2, 3, 4]
  vars := #[]
  epoch := 0
  reach := none

theorem tangled_path_dominance :
    Settles (ofGraph tangled 0 false).tracked (ofGraph tangled 0 false).incoming
      (roundOrder (reversePostOrderFrom (tangled.along false) 5 0) 0)
      (startSets 5 0 (ofGraph tangled 0 false).tracked) (ofGraph tangled 0 false).sets ∧
    ((ofGraph tangled 0 false).isTracked 3 = true ↔ Reachable (tangled.along false) 0 3) ∧
    ((ofGraph tangled 4 true).dominatedBy 2 1 = true ↔ Reachable (tangled.along true) 4 2 ∧
      ∀ past, Trail (tangled.along true) 4 past 2 → 1 ∈ past ∨ 1 = 2) := by
  have same : tangled.SameEdges := by decide
  have forward := ofGraph_is_path_dominance tangled same 0 (by decide) false
  have backward := ofGraph_is_path_dominance tangled same 4 (by decide) true
  obtain ⟨settles, tracked, _⟩ := forward
  exact ⟨settles, tracked 3, backward.2.2 2 1⟩

end Dominators

end MiddleEnd
