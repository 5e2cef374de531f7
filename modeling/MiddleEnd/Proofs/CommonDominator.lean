import MiddleEnd.Proofs.ImmediateDominators

/-!
The nearest common dominator. A round of the search drops candidates and moves the others up, but it keeps the vertices
that dominate all candidates (`Answers.dominates_raised_iff`): no candidate climbs past one of them as long as two are left
that do not dominate each other. When one is left, it is the nearest; and since every round makes the candidates less deep,
there are no more rounds than tracked vertices (`Answers.common_nearest`).
-/
namespace MiddleEnd

namespace Dominators

/-- `c` dominates all candidates, and is dominated by all that do. -/
def IsNearest (d : Dominators) (candidates : List VertexId) (c : VertexId) : Prop :=
  ∀ a, (∀ v ∈ candidates, d.dominatedBy v a = true) ↔ d.dominatedBy c a = true

/-- The candidates of the next round: the immediate dominators of those that no other one dominates. -/
def raised (d : Dominators) (candidates : List VertexId) : List VertexId :=
  ((d.undominated candidates).filterMap d.immediate?).eraseDups

variable {d : Dominators} {next : VertexId → List VertexId} {root a k v c o : VertexId} {candidates : List VertexId}

theorem mem_undominated : k ∈ d.undominated candidates ↔
    k ∈ candidates ∧ ∀ o ∈ candidates, d.strictlyDominatedBy k o = false := by
  simp [undominated]

theorem mem_raised : o ∈ d.raised candidates ↔ ∃ k ∈ d.undominated candidates, d.immediate? k = some o := by
  rw [raised, List.mem_eraseDups, List.mem_filterMap]

/-- A round ends the search when one candidate is left that no other one dominates. -/
theorem common_of_single {rounds : Nat} (nonempty : candidates ≠ []) (only : d.undominated candidates = [c]) :
    d.common (rounds + 1) candidates = some (some c) := by
  rw [common, if_neg (by simpa using nonempty)]
  simp only [only]

/-- Otherwise it goes on further up. -/
theorem common_of_several {rounds : Nat} (nonempty : candidates ≠ []) (several : ∀ c, d.undominated candidates ≠ [c]) :
    d.common (rounds + 1) candidates = d.common rounds (d.raised candidates) := by
  rw [common, if_neg (by simpa using nonempty)]
  split
  · rename_i only
    exact absurd only (several _)
  · rfl

namespace Answers

variable (answers : d.Answers next root)
include answers

/-- What dominates a vertex strictly dominates its immediate dominator. -/
theorem dominatedBy_immediate? (found : d.immediate? v = some c) (strict : d.strictlyDominatedBy v a = true) :
    d.dominatedBy c a = true := by
  by_cases isImmediate : a = c
  · subst isImmediate
    exact answers.refl (answers.tracked_right (strictlyDominatedBy_iff.mp strict).2)
  · exact isClosest_iff.mp (closest_of_immediate? found) a strict isImmediate

omit answers in
/-- A candidate that dominates all that are left is the only one left. -/
theorem undominated_eq_singleton (distinct : candidates.Nodup) (kept : k ∈ d.undominated candidates)
    (above : ∀ v ∈ d.undominated candidates, d.dominatedBy v k = true) : d.undominated candidates = [k] := by
  have only (v : VertexId) (member : v ∈ d.undominated candidates) : v = k := by
    by_contra other
    have strict := strictlyDominatedBy_iff.mpr ⟨other, above v member⟩
    simp [(mem_undominated.mp member).2 k (mem_undominated.mp kept).1] at strict
  have same : (d.undominated candidates).Perm [k] := by
    apply (List.perm_ext_iff_of_nodup (distinct.filter _) (List.nodup_singleton k)).mpr
    intro v
    rw [List.mem_singleton]
    exact ⟨only v, fun isK => isK ▸ kept⟩
  exact List.perm_singleton.mp same

/-- What dominates all that are left dominates all candidates. -/
theorem dominates_of_undominated (tracked : ∀ v ∈ candidates, d.isTracked v = true)
    (above : ∀ k ∈ d.undominated candidates, d.dominatedBy k a = true) : ∀ v ∈ candidates, d.dominatedBy v a = true := by
  intro v member
  obtain ⟨k, kept, dominated⟩ := answers.exists_undominated member (answers.refl (tracked v member))
  exact answers.trans dominated (above k kept)

section
variable (distinct : candidates.Nodup) (nonempty : candidates ≠ []) (tracked : ∀ v ∈ candidates, d.isTracked v = true)
  (several : ∀ c, d.undominated candidates ≠ [c])
include distinct tracked several

/-- While two or more are left, none of them is the root, so each moves up. -/
theorem exists_raised (kept : k ∈ d.undominated candidates) : ∃ o, d.immediate? k = some o := by
  refine answers.exists_immediate? (tracked k (mem_undominated.mp kept).1) ?_
  rintro rfl
  refine several k (undominated_eq_singleton distinct kept fun v member => ?_)
  exact answers.dominated.mpr ⟨answers.tracked.mp (tracked v (mem_undominated.mp member).1), .of_root⟩

/-- While two or more are left, moving all of them up changes nothing about what dominates all of them. -/
theorem dominates_raised_iff (a : VertexId) :
    (∀ v ∈ d.raised candidates, d.dominatedBy v a = true) ↔ ∀ v ∈ candidates, d.dominatedBy v a = true := by
  constructor
  · intro above
    refine answers.dominates_of_undominated tracked fun k kept => ?_
    obtain ⟨o, up⟩ := answers.exists_raised distinct tracked several kept
    exact answers.trans (strictlyDominatedBy_iff.mp (strict_of_immediate? up)).2 (above o (mem_raised.mpr ⟨k, kept, up⟩))
  · intro above o isRaised
    obtain ⟨k, kept, up⟩ := mem_raised.mp isRaised
    have dominates (v : VertexId) (member : v ∈ d.undominated candidates) : d.dominatedBy v a = true :=
      above v (mem_undominated.mp member).1
    refine answers.dominatedBy_immediate? up (strictlyDominatedBy_iff.mpr ⟨?_, dominates k kept⟩)
    -- a candidate that dominates all others would be left alone
    rintro rfl
    exact several k (undominated_eq_singleton distinct kept dominates)

include nonempty in
theorem raised_ne_nil : d.raised candidates ≠ [] := by
  obtain ⟨v, member⟩ := List.exists_mem_of_ne_nil _ nonempty
  obtain ⟨k, kept, _⟩ := answers.exists_undominated member (answers.refl (tracked v member))
  obtain ⟨o, up⟩ := answers.exists_raised distinct tracked several kept
  exact List.ne_nil_of_mem (mem_raised.mpr ⟨k, kept, up⟩)

end

/-- As many rounds as the deepest candidate is deep are enough to find the nearest common dominator. -/
theorem common_nearest {rounds : Nat} (distinct : candidates.Nodup) (nonempty : candidates ≠ [])
    (tracked : ∀ v ∈ candidates, d.isTracked v = true) (low : ∀ v ∈ candidates, d.depth v ≤ rounds) :
    ∃ c, d.common rounds candidates = some (some c) ∧ d.IsNearest candidates c := by
  induction rounds generalizing candidates with
  | zero =>
    obtain ⟨v, member⟩ := List.exists_mem_of_ne_nil _ nonempty
    have := answers.depth_pos (tracked v member)
    have := low v member
    omega
  | succ rounds ih =>
    by_cases single : ∃ c, d.undominated candidates = [c]
    · obtain ⟨c, only⟩ := single
      have kept : c ∈ d.undominated candidates := by simp [only]
      refine ⟨c, common_of_single nonempty only, fun a => ⟨fun above => above c (mem_undominated.mp kept).1, fun above => ?_⟩⟩
      refine answers.dominates_of_undominated tracked fun k isKept => ?_
      rw [only, List.mem_singleton] at isKept
      exact isKept ▸ above
    · have several : ∀ c, d.undominated candidates ≠ [c] := not_exists.mp single
      rw [common_of_several nonempty several]
      have higher (o : VertexId) (isRaised : o ∈ d.raised candidates) : d.isTracked o = true ∧ d.depth o ≤ rounds := by
        obtain ⟨k, kept, up⟩ := mem_raised.mp isRaised
        have strict := strict_of_immediate? up
        have less := answers.depth_lt strict
        have := low k (mem_undominated.mp kept).1
        exact ⟨answers.tracked_right (strictlyDominatedBy_iff.mp strict).2, by omega⟩
      obtain ⟨c, found, nearest⟩ := ih (nodup_eraseDups _) (answers.raised_ne_nil distinct nonempty tracked several)
        (fun o isRaised => (higher o isRaised).1) (fun o isRaised => (higher o isRaised).2)
      exact ⟨c, found, fun a => (answers.dominates_raised_iff distinct tracked several a).symm.trans (nearest a)⟩

/-- There is one nearest common dominator. -/
theorem nearest_unique (nonempty : candidates ≠ []) (tracked : ∀ v ∈ candidates, d.isTracked v = true)
    (first : d.IsNearest candidates c) (second : d.IsNearest candidates o) : c = o := by
  obtain ⟨v, member⟩ := List.exists_mem_of_ne_nil _ nonempty
  have isTracked {c : VertexId} (nearest : d.IsNearest candidates c) : d.isTracked c = true := by
    have rootAbove := (nearest root).mp fun v member =>
      answers.dominated.mpr ⟨answers.tracked.mp (tracked v member), .of_root⟩
    exact answers.tracked_left rootAbove
  have firstAbove := (first c).mpr (answers.refl (isTracked first))
  have secondAbove := (second o).mpr (answers.refl (isTracked second))
  exact answers.antisymm ((first o).mp secondAbove) ((second c).mp firstAbove)

end Answers

/-- The search for the vertex that dominates some tracked vertices finds the nearest one there is. It takes no more rounds
than there are tracked vertices, so it never comes to the limit. -/
theorem ofGraph_nearestCommon (g : Graph) (same : g.SameEdges) (root : VertexId) (inside : root < g.store.size)
    (reversed : Bool) (function : String) (vs : List VertexId) (nonempty : vs ≠ [])
    (tracked : ∀ v ∈ vs, (ofGraph g root reversed).isTracked v = true) :
    let d := ofGraph g root reversed
    ∃ c, d.nearestCommon function vs = .ok (some c) ∧ d.common d.size vs.eraseDups = some (some c) ∧
      (∀ v ∈ vs, Dominates (g.along reversed) root c v) ∧
      ∀ a, (∀ v ∈ vs, Dominates (g.along reversed) root a v) → Dominates (g.along reversed) root a c := by
  intro d
  have agree := same.agreeFrom reversed root
  have answers : d.Answers (g.along reversed) root := ⟨isTracked_iff agree, dominatedBy_iff agree inside⟩
  have nonempty' : vs.eraseDups ≠ [] := by
    obtain ⟨v, member⟩ := List.exists_mem_of_ne_nil _ nonempty
    exact List.ne_nil_of_mem (List.mem_eraseDups.mpr member)
  have tracked' : ∀ v ∈ vs.eraseDups, d.isTracked v = true := fun v member => tracked v (List.mem_eraseDups.mp member)
  have enough : ∀ v ∈ vs.eraseDups, d.depth v ≤ d.size := fun v _ => answers.depth_le_size v
  have spare : ∀ v ∈ vs.eraseDups, d.depth v ≤ d.size + 2 := fun v member => Nat.le_add_right_of_le (enough v member)
  obtain ⟨c, early, nearest⟩ := answers.common_nearest (nodup_eraseDups vs) nonempty' tracked' enough
  obtain ⟨c', found, nearest'⟩ := answers.common_nearest (nodup_eraseDups vs) nonempty' tracked' spare
  obtain rfl := answers.nearest_unique nonempty' tracked' nearest nearest'
  have above (a : VertexId) : (∀ v ∈ vs, d.dominatedBy v a = true) ↔ d.dominatedBy c a = true := by
    simpa only [List.mem_eraseDups] using nearest a
  have dominates {v a : VertexId} (member : v ∈ vs) : d.dominatedBy v a = true ↔ Dominates (g.along reversed) root a v := by
    rw [answers.dominated, and_iff_right (answers.tracked.mp (tracked v member))]
  have rootAbove := (above root).mp fun v member => (dominates member).mpr .of_root
  have self := answers.refl (answers.tracked_left rootAbove)
  refine ⟨c, by simp [nearestCommon, found], early, fun v member => (dominates member).mp ((above c).mpr self v member), ?_⟩
  intro a dominatesAll
  exact (answers.dominated.mp ((above a).mp fun v member => (dominates member).mpr (dominatesAll v member))).2

/-- In the tangled graph the exit and the second of the two vertices that jump to each other stand at different depths, so
that the candidates of the second round dominate each other. Over reversed edges, all other vertices meet before the exit. -/
theorem tangled_nearestCommon :
    tangled.SameEdges ∧ (∀ v ∈ [4, 2, 4], (ofGraph tangled 0 false).isTracked v = true) ∧
    (ofGraph tangled 0 false).raised [4, 2] = [1, 0] ∧
    (ofGraph tangled 0 false).nearestCommon "f" [4, 2, 4] = .ok (some 0) ∧
    (∀ a, (∀ v ∈ [4, 2, 4], Dominates (tangled.along false) 0 a v) → Dominates (tangled.along false) 0 a 0) ∧
    (∀ v ∈ [0, 3, 0], (ofGraph tangled 4 true).isTracked v = true) ∧
    (ofGraph tangled 4 true).nearestCommon "f" [0, 3, 0] = .ok (some 1) ∧
    ∀ v ∈ [0, 3, 0], Dominates (tangled.along true) 4 1 v := by
  have same : tangled.SameEdges := by decide
  have tracked : ∀ v ∈ [4, 2, 4], (ofGraph tangled 0 false).isTracked v = true := by
    rw [List.forall_mem_cons, List.forall_mem_cons, List.forall_mem_singleton]
    exact ⟨by cbv, by cbv, by cbv⟩
  have trackedBack : ∀ v ∈ [0, 3, 0], (ofGraph tangled 4 true).isTracked v = true := by
    rw [List.forall_mem_cons, List.forall_mem_cons, List.forall_mem_singleton]
    exact ⟨by cbv, by cbv, by cbv⟩
  have found : (ofGraph tangled 0 false).nearestCommon "f" [4, 2, 4] = .ok (some 0) := by cbv
  have foundBack : (ofGraph tangled 4 true).nearestCommon "f" [0, 3, 0] = .ok (some 1) := by cbv
  obtain ⟨c, isFound, _, _, nearest⟩ := ofGraph_nearestCommon tangled same 0 (by decide) false "f" [4, 2, 4]
    (by decide) tracked
  obtain ⟨b, isFoundBack, _, dominates, _⟩ := ofGraph_nearestCommon tangled same 4 (by decide) true "f" [0, 3, 0]
    (by decide) trackedBack
  obtain rfl : c = 0 := by simpa [found, eq_comm] using isFound
  obtain rfl : b = 1 := by simpa [foundBack, eq_comm] using isFoundBack
  exact ⟨same, tracked, by cbv, found, nearest, trackedBack, foundBack, dominates⟩

end Dominators

end MiddleEnd
