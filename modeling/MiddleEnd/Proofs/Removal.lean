import Mathlib.Data.List.Basic
import MiddleEnd.Optimizer.TypeUnion
import MiddleEnd.Proofs.Action
import MiddleEnd.Proofs.Editing
import MiddleEnd.Proofs.Verified

/-!
What becomes of a graph when a vertex is spliced out. First its predecessors are connected to its successor, then the edges
that it still has are taken away. It still has some in one case, that of a vertex which is its own successor: turned to its
successor, the edges into it stay where they are, so that they are taken away altogether
(`Graph.Wired.succs_splice_self`). A graph that passes the integrity check does so afterwards unless an edge was lost that
way (`Graph.Spliced.verify_iff`, `Graph.Verified.verify_splice_self`).
-/
namespace MiddleEnd

namespace Graph

variable {g h : Graph} {s v w : VertexId}

/-! ### Edges that are taken away -/

theorem diff_replicate_count (l : List VertexId) : l.diff (List.replicate (l.count v) v) = l.filter (· ≠ v) := by
  induction l with
  | nil => simp
  | cons a l ih =>
    by_cases same : a = v
    · subst same
      simpa [List.replicate_succ, List.diff_cons] using ih
    · have absent : a ∉ List.replicate (l.count v) v := fun member => same (List.eq_of_mem_replicate member)
      rw [List.count_cons_of_ne same, List.cons_diff_of_not_mem absent, ih]
      simp [same]

/-- A source loses one edge for each of its places in the list. -/
theorem succs_foldl_removeEdge {sources : List VertexId} (inside : ∀ p ∈ sources, p < g.store.size) :
    (sources.foldl (fun g p => g.removeEdge p v) g).succs w =
      (g.succs w).diff (List.replicate (sources.count w) v) := by
  induction sources generalizing g with
  | nil => simp
  | cons p sources ih =>
    obtain ⟨first, rest⟩ := List.forall_mem_cons.mp inside
    have size : (g.removeEdge p v).store.size = g.store.size := rewired_removeEdge.size
    rw [List.foldl_cons, ih (by rwa [size]), succs_removeEdge first]
    by_cases same : w = p
    · subst same
      rw [if_pos rfl, List.count_cons_self, List.replicate_succ, List.diff_cons]
    · rw [if_neg same, List.count_cons_of_ne (Ne.symm same)]

theorem Wired.succs_detach (wired : g.Wired) (member : v ∈ g.listed) (listed : w ∈ g.listed) (other : w ≠ v) :
    (g.detach v).succs w = (g.succs w).filter (· ≠ v) := by
  obtain ⟨wired₁, succs₁⟩ := wired.foldl_removeEdge_from member (wired.succs_listed v member)
  have rewired₁ : g.Rewired ((g.succs v).foldl (fun g s => g.removeEdge v s) g) := .foldl (fun _ _ => rewired_removeEdge) _
  rw [Graph.detach, succs_drop]
  generalize (g.succs v).foldl (fun g s => g.removeEdge v s) g = h at wired₁ succs₁ rewired₁ ⊢
  have member₁ : v ∈ h.listed := rewired₁.listed ▸ member
  have listed₁ : w ∈ h.listed := rewired₁.listed ▸ listed
  have kept : h.succs w = g.succs w := by rw [succs₁, if_neg other]
  rw [succs_foldl_removeEdge fun p isPred => wired₁.listed_lt p (wired₁.preds_listed v member₁ p isPred),
    wired₁.count_preds member₁, edgeCount_of_mem listed₁, diff_replicate_count, kept]

/-- Turned to itself, the edges into a vertex stay where they are until they are taken away. -/
theorem Wired.succs_splice_self (wired : g.Wired) (member : v ∈ g.listed) (only : g.succs v = [v]) (listed : w ∈ g.listed)
    (other : w ≠ v) : (g.splice v).succs w = (g.succs w).filter (· ≠ v) := by
  have passed : g.bypassed v = (g.redirectAll (g.preds v) v v).removeEdge v v := by simp [Graph.bypassed, only]
  have same : (g.bypassed v).listed = g.listed := rewired_bypassed.listed
  have size : (g.redirectAll (g.preds v) v v).store.size = g.store.size := (rewired_redirectAll _).size
  rw [splice_eq, (wired.bypassed member).succs_detach (same ▸ member) (same ▸ listed) other, passed,
    succs_removeEdge (by rw [size]; exact wired.listed_lt v member), if_neg other,
    wired.redirectAll_preds member member listed, turned_self]

theorem Wired.without_splice (wired : g.Wired) (member : v ∈ g.listed) (notEntry : v ≠ g.entry) :
    (g.splice v).Wired ∧ g.Without (g.splice v) v := by
  have rewired : g.Rewired (g.bypassed v) := rewired_bypassed
  obtain ⟨detached, without, _⟩ := (wired.bypassed member).detach (rewired.listed ▸ member) (rewired.entry ▸ notEntry)
  rw [splice_eq]
  exact ⟨detached, rewired.without without⟩

/-! ### Integrity -/

/-- A graph stays sound when a vertex goes and its successor is put in its place in all lists of successors. -/
theorem Without.verified (without : g.Without h v) (verified : g.Verified) (wired : h.Wired) (member : v ∈ g.listed)
    (gone : v ∉ h.listed) (notExit : v ≠ g.exit) (only : g.succs v = [s])
    (succs : ∀ w ∈ h.listed, h.succs w = turned v s (g.succs w)) : h.Verified := by
  have sound := verified.sound
  have apart {w : VertexId} (listed : w ∈ h.listed) : w ≠ v := fun same => gone (same ▸ listed)
  have before {w : VertexId} (listed : w ∈ h.listed) : w ∈ g.listed := List.mem_of_mem_erase (without.listed ▸ listed)
  have exitListed : h.exit ∈ h.listed := by
    rw [without.exit, without.listed]
    exact (List.mem_erase_of_ne (Ne.symm notExit)).mpr sound.exitListed
  have entryOp := (Vertex.body_eq_iff.mp (without.body h.entry (apart wired.entry_listed))).op
  have exitOp := (Vertex.body_eq_iff.mp (without.body h.exit (apart exitListed))).op
  refine ⟨⟨?_, ?_, ?_, exitListed, fun w listed => ?_, wired⟩, fun w listed isPhi => ?_⟩
  · rw [op, entryOp, without.entry]; exact sound.entryOp
  · rw [op, exitOp, without.exit]; exact sound.exitOp
  · -- an edge to the entry would have been there before, from the same vertex or from the one that goes
    refine wired.preds_eq_nil wired.entry_listed fun u listed edge => ?_
    rw [succs u listed, without.entry] at edge
    obtain ⟨t, edge', same⟩ := List.mem_map.mp edge
    split at same
    · exact sound.entry_notMem_succs member (by simp [only, same])
    · exact sound.entry_notMem_succs (before listed) (same ▸ edge')
  · have vertex := sound.vertices w (before listed)
    refine vertex.congr (without.body w (apart listed)) without.entry without.exit (fun x => ?_) ?_ fun isRet => ?_
    · rw [var, without.vars]
      rfl
    · rw [succs w listed, turned, List.length_map]
    · rw [succs w listed, turned, List.head?_map, vertex.returns isRet]
      simp [Ne.symm notExit]
  · obtain ⟨op, _, _, result, args, _⟩ := Vertex.body_eq_iff.mp (without.body w (apart listed))
    exact (verified.phiSets w (before listed) (op.symm.trans isPhi)).congr result args

/-- What is listed still belongs to a graph that passes the check. -/
theorem Without.notMem_of_verified (without : g.Without h v) (verified : h.Verified) : v ∉ h.listed := by
  intro listed
  have owned := (verified.sound.vertices v listed).owned
  simp [contains, without.gone] at owned

/-- A vertex that lost an edge has too few. -/
theorem Without.not_verified (without : g.Without h v) (verified : g.Verified) (listed : w ∈ h.listed) (edge : v ∈ g.succs w)
    (succs : h.succs w = (g.succs w).filter (· ≠ v)) : ¬ h.Verified := by
  intro verified'
  have after := verified'.sound.vertices w listed
  have apart : w ≠ v := fun same => without.notMem_of_verified verified' (same ▸ listed)
  have before := (verified.sound.vertices w (List.mem_of_mem_erase (without.listed ▸ listed))).succCount
  have op : h.op w = g.op w := (Vertex.body_eq_iff.mp (without.body w apart)).op
  have shorter : ((g.succs w).filter (· ≠ v)).length < (g.succs w).length :=
    List.length_filter_lt_length_iff_exists.mpr ⟨v, edge, by simp⟩
  have same := after.succCount
  rw [succs, op, ← before] at same
  exact Nat.ne_of_lt shorter same

theorem Without.notMem_listed_iff (without : g.Without h v) (member : v ∈ g.listed) :
    v ∉ h.listed ↔ g.listed.count v = 1 := by
  have occurs : 0 < g.listed.count v := List.count_pos_iff.mpr member
  rw [without.listed, ← List.count_eq_zero, List.count_erase_self]
  omega

/-- Spliced out between two others, a vertex that is listed once takes nothing with it. -/
theorem Spliced.verify_iff (spliced : g.Spliced h v s) (verified : g.Verified) (member : v ∈ g.listed)
    (notExit : v ≠ g.exit) : h.verify = none ↔ g.listed.count v = 1 := by
  rw [verify_eq_none_iff, ← spliced.notMem_listed_iff member]
  refine ⟨spliced.notMem_of_verified, fun gone => ?_⟩
  refine spliced.toWithout.verified verified spliced.wired member gone notExit spliced.only fun w listed => ?_
  exact spliced.succs (List.mem_of_mem_erase (spliced.listed ▸ listed)) fun same => gone (same ▸ listed)

/-- Splicing out a vertex that is its own successor takes the edges from all others into it away. -/
theorem Verified.verify_splice_self (verified : g.Verified) (member : v ∈ g.listed) (notEntry : v ≠ g.entry)
    (notExit : v ≠ g.exit) (only : g.succs v = [v]) :
    (g.splice v).verify = none ↔ g.listed.count v = 1 ∧ ∀ w ∈ (g.splice v).listed, v ∉ g.succs w := by
  have wired := verified.sound.wired
  obtain ⟨wired', without⟩ := wired.without_splice member notEntry
  have before {w : VertexId} (listed : w ∈ (g.splice v).listed) : w ∈ g.listed :=
    List.mem_of_mem_erase (without.listed ▸ listed)
  have succs {w : VertexId} (listed : w ∈ (g.splice v).listed) (other : w ≠ v) :=
    wired.succs_splice_self member only (before listed) other
  rw [verify_eq_none_iff, ← without.notMem_listed_iff member]
  constructor
  · intro verified'
    have gone := without.notMem_of_verified verified'
    refine ⟨gone, fun w listed edge => ?_⟩
    exact without.not_verified verified listed edge (succs listed fun same => gone (same ▸ listed)) verified'
  · rintro ⟨gone, apart⟩
    refine without.verified verified wired' member gone notExit only fun w listed => ?_
    rw [succs listed fun same => gone (same ▸ listed), turned_self, List.filter_eq_self]
    rintro t edge
    rw [decide_eq_true_iff]
    rintro rfl
    exact apart w listed edge

/-! ### Splicing out or refusing -/

theorem outcome_spliceOut_of_error {why : Failure} (refused : g.remove v = .error why) :
    (spliceOut v).outcome g = (.error (.failure why), g) := by
  have read : (get : Action Graph Graph).outcome g = (.ok g, g) := rfl
  simp only [spliceOut, Action.outcome_bind, read, refused]
  rfl

theorem outcome_spliceOut_of_ok (removed : g.remove v = .ok h) : (spliceOut v).outcome g = (.ok (), h) := by
  have read : (get : Action Graph Graph).outcome g = (.ok g, g) := rfl
  simp only [spliceOut, Action.outcome_bind, read, removed]
  rfl

theorem removeObstacle_eq_none_iff :
    g.removeObstacle v = none ↔ ¬ (v = g.entry ∨ v = g.exit ∨ 1 < (g.succs v).length) := by
  rw [removeObstacle, ← or_assoc]
  split
  · simp [*]
  · split <;> simp [*]

/-- A vertex within a graph that passes the check has a successor, and only one unless it branches. -/
theorem VertexSound.exists_succs_eq (sound : g.VertexSound v) (notExit : v ≠ g.exit) (few : (g.succs v).length ≤ 1) :
    ∃ s, g.succs v = [s] := by
  have count := sound.succCount
  apply sound.succs_eq_singleton
  cases isOp : g.op v
  case finish => exact absurd (sound.onlyExit isOp) notExit
  case jumpIf =>
    rw [isOp, Op.numSuccs] at count
    omega
  all_goals rfl

/-- An end of the graph or a branch is refused and nothing changes. Any other vertex has one successor, which takes its place
in the lists of all others, and the graph still passes the check. The exception is a vertex that is its own successor: it is
taken out of those lists, and the graph passes the check only if no other vertex leads to it. -/
theorem remove_refuses_or_splices (passes : g.verify = none) (member : v ∈ g.listed) :
    ((v = g.entry ∨ v = g.exit ∨ 1 < (g.succs v).length) ∧
      ∃ why, g.remove v = .error why ∧ (spliceOut v).outcome g = (.error (.failure why), g)) ∨
    (¬ (v = g.entry ∨ v = g.exit ∨ 1 < (g.succs v).length) ∧
      ∃ s h, g.succs v = [s] ∧ g.remove v = .ok h ∧ (spliceOut v).outcome g = (.ok (), h) ∧ g.Without h v ∧
        (∀ w ∈ h.listed, w ≠ v →
          h.succs w = if s = v then (g.succs w).filter (· ≠ v) else (g.succs w).map fun t => if t = v then s else t) ∧
        (h.verify = none ↔ g.listed.count v = 1 ∧ (s = v → ∀ w ∈ h.listed, v ∉ g.succs w))) := by
  have verified := verify_eq_none_iff.mp passes
  have wired := verified.sound.wired
  cases obstacle : g.removeObstacle v with
  | some why =>
    have refused : g.remove v = .error (.corrupt g.name why []) := by rw [remove, obstacle]
    refine .inl ⟨?_, _, refused, outcome_spliceOut_of_error refused⟩
    by_contra free
    simp [removeObstacle_eq_none_iff.mpr free] at obstacle
  | none =>
    have free := removeObstacle_eq_none_iff.mp obstacle
    obtain ⟨notEntry, notExit, few⟩ : v ≠ g.entry ∧ v ≠ g.exit ∧ (g.succs v).length ≤ 1 := by
      simpa only [not_or, Nat.not_lt] using free
    obtain ⟨s, only⟩ := (verified.sound.vertices v member).exists_succs_eq notExit few
    have removed : g.remove v = .ok (g.splice v) := by rw [remove, obstacle]
    refine .inr ⟨free, s, g.splice v, only, removed, outcome_spliceOut_of_ok removed,
      (wired.without_splice member notEntry).2, ?_⟩
    have before {w : VertexId} (listed : w ∈ (g.splice v).listed) : w ∈ g.listed :=
      List.mem_of_mem_erase ((wired.without_splice member notEntry).2.listed ▸ listed)
    by_cases same : s = v
    · subst same
      simp only [if_true, forall_const]
      exact ⟨fun w listed other => wired.succs_splice_self member only (before listed) other,
        verified.verify_splice_self member notEntry notExit only⟩
    · have spliced := wired.splice member notEntry only (Ne.symm same)
      simp only [same, if_false, false_implies, and_true]
      exact ⟨fun w listed other => spliced.succs (before listed) other, spliced.verify_iff verified member notExit⟩

/-- Both ways of a branch lead to one label. -/
def joining : Graph where
  name := "f"
  sig := .empty
  entry := 0
  exit := 4
  store := #[
    { op := .function, succs := [1], owned := true },
    { op := .jumpIf, args := [some 0], succs := [2, 2], preds := [0], owned := true },
    { op := .label, succs := [3], preds := [1, 1], owned := true },
    { op := .ret, succs := [4], preds := [2], owned := true },
    { op := .finish, preds := [3], owned := true }]
  listed := [0, 1, 2, 3, 4]
  vars := #[{ name := "c", type := none }]
  epoch := 0
  reach := none

theorem joining_splices : joining.verify = none ∧ 2 ∈ joining.listed ∧
    ∃ h, joining.remove 2 = .ok h ∧ h.listed = [0, 1, 3, 4] ∧ h.succs 1 = [3, 3] ∧ h.verify = none := by
  have passes : joining.verify = none := by decide
  have member : 2 ∈ joining.listed := by decide
  refine ⟨passes, member, ?_⟩
  obtain ⟨refused, _⟩ | ⟨_, s, h, only, done, _, without, succs, verify⟩ := remove_refuses_or_splices passes member
  · exact absurd refused (by decide)
  · obtain rfl : 3 = s := by simpa [joining, Graph.succs, vertex] using only
    have listed : h.listed = [0, 1, 3, 4] := without.listed
    exact ⟨h, done, listed, succs 1 (by simp [listed]) (by decide), verify.mpr ⟨by decide, by simp⟩⟩

/-- A label that leads to itself, entered from the entry. -/
def revolving : Graph where
  name := "f"
  sig := .empty
  entry := 0
  exit := 1
  store := #[
    { op := .function, succs := [2], owned := true },
    { op := .finish, owned := true },
    { op := .label, succs := [2], preds := [0, 2], owned := true }]
  listed := [0, 2, 1]
  vars := #[]
  epoch := 0
  reach := none

/-- The label is spliced out, but the entry is left without a successor. -/
theorem revolving_fails_after_splicing : revolving.verify = none ∧ 2 ∈ revolving.listed ∧
    ∃ h, revolving.remove 2 = .ok h ∧ h.succs 0 = [] ∧ h.verify ≠ none :=
  ⟨by decide, by decide, revolving.splice 2, rfl, by decide, by decide⟩

end Graph

end MiddleEnd
