import Mathlib.Data.Finset.Max
import MiddleEnd.Proofs.Dominance

/-!
The tree that dominators form. The dominators of a vertex are a chain (`Dominates.total`), so one of its strict
dominators is nearest to it, and moving up from vertex to nearest strict dominator ends at the root. The search for a
common dominator moves all its candidates up at once; it never runs out of rounds, because every round lowers their
depth, and what it finds dominates every candidate that can be reached (`nearestCommon_spec`).
-/
namespace MiddleEnd

namespace VertexSet

variable {v : VertexId} {s t : VertexSet}

@[simp] theorem mem_toList : v ∈ s.toList ↔ v ∈ s := by
  simp only [toList, List.mem_filter, List.mem_range, mem_def, contains, and_iff_right_iff_imp]
  intro member
  have large : 2 ^ v ≤ s.bits := Nat.ge_two_pow_of_testBit member
  have nonzero : s.bits ≠ 0 := by
    have := Nat.two_pow_pos v
    omega
  have := (Nat.le_log2 nonzero).mpr large
  omega

theorem isSubset_iff : s.isSubset t = true ↔ ∀ v ∈ s, v ∈ t := by
  simp only [isSubset, decide_eq_true_eq]
  constructor
  · intro same v member
    rw [← same] at member
    exact (mem_inter.mp member).2
  · intro sub
    refine ext fun v => ?_
    rw [mem_inter, and_iff_left_iff_imp]
    exact sub v

end VertexSet

/-- Of two dominators of a vertex, one dominates the other. Otherwise a path could come to either of them without the
other, and go on from there to the vertex without the other. -/
theorem Dominates.total {next : VertexId → List VertexId} {root a b v : VertexId} (reached : Reachable next root v)
    (first : Dominates next root a v) (second : Dominates next root b v) :
    Dominates next root a b ∨ Dominates next root b a := by
  by_contra neither
  rw [not_or] at neither
  obtain ⟨notA, notB⟩ := neither
  have other : a ≠ b := by
    rintro rfl
    exact notA .refl
  -- a path to one of them without the other cannot go on to the vertex
  have stuck {a b : VertexId} (first : Dominates next root a v) (second : Dominates next root b v) (other : a ≠ b)
      (notA : ¬ Dominates next root a b) (notB : ¬ Dominates next root b a) {later : List VertexId}
      (trail : Trail next a later v) : ∃ shorter, Trail next b shorter v ∧ shorter.length < later.length := by
    obtain ⟨past, toA, absent⟩ : ∃ past, Trail next root past a ∧ ¬ (b ∈ past ∨ b = a) := by
      simpa [Dominates] using notB
    rw [not_or] at absent
    rcases second _ (toA.trans trail) with passed | rfl
    · have inLater : b ∈ later := (List.mem_append.mp passed).resolve_left absent.1
      obtain ⟨before, shorter, rfl, toB, onward, _⟩ := trail.cut inLater
      refine ⟨shorter, onward, ?_⟩
      have nonempty : before ≠ [] := by
        rintro rfl
        exact other (toB.eq_root)
      have := List.length_pos_iff.mpr nonempty
      rw [List.length_append]
      omega
    · exact absurd first notA
  have never : ∀ n later, later.length = n → ¬ Trail next a later v ∧ ¬ Trail next b later v := by
    intro n
    induction n using Nat.strongRecOn with
    | _ n ih =>
      intro later size
      constructor
      · intro trail
        obtain ⟨shorter, onward, less⟩ := stuck first second other notA notB trail
        exact (ih shorter.length (size ▸ less) shorter rfl).2 onward
      · intro trail
        obtain ⟨shorter, onward, less⟩ := stuck second first other.symm notB notA trail
        exact (ih shorter.length (size ▸ less) shorter rfl).1 onward
  obtain ⟨past, trail⟩ := reached
  rcases first past trail with passed | rfl
  · obtain ⟨_, later, _, _, onward, _⟩ := trail.cut passed
    exact (never later.length later rfl).1 onward
  · exact (never 0 [] rfl).1 .start

namespace Dominators

/-- Dominators that answer for the paths from `root`. -/
structure Answers (d : Dominators) (next : VertexId → List VertexId) (root : VertexId) : Prop where
  tracked : ∀ {v}, d.isTracked v = true ↔ Reachable next root v
  dominated : ∀ {v c}, d.dominatedBy v c = true ↔ Reachable next root v ∧ Dominates next root c v

/-- How many vertices dominate `v`. -/
def depth (d : Dominators) (v : VertexId) : Nat :=
  (List.range d.sets.size).countP (d.dominatedBy v)

variable {d : Dominators} {next : VertexId → List VertexId} {root u v w c o : VertexId}

theorem lt_of_dominatedBy (dominated : d.dominatedBy v c = true) : v < d.sets.size := by
  rcases Nat.lt_or_ge v d.sets.size with inside | outside
  · exact inside
  · rw [dominatedBy, set, Array.getD_eq_getD_getElem?, Array.getElem?_eq_none outside] at dominated
    exact absurd dominated (VertexSet.not_mem_empty c)

theorem strictlyDominatedBy_iff : d.strictlyDominatedBy v c = true ↔ v ≠ c ∧ d.dominatedBy v c = true := by
  simp [strictlyDominatedBy]

theorem isClosest_iff : d.isClosest v c = true ↔ ∀ o, d.strictlyDominatedBy v o = true → o ≠ c → d.dominatedBy c o = true := by
  rw [isClosest, VertexSet.isSubset_iff]
  refine forall_congr' fun o => ?_
  rw [VertexSet.mem_erase, VertexSet.mem_erase, strictlyDominatedBy_iff]
  constructor
  · intro inside strict other
    exact inside ⟨⟨strict.2, strict.1.symm⟩, other⟩
  · rintro inside ⟨⟨dominated, notSelf⟩, other⟩
    exact inside ⟨notSelf.symm, dominated⟩ other

theorem strict_of_immediate? (found : d.immediate? v = some c) : d.strictlyDominatedBy v c = true := by
  have member := List.mem_of_find?_eq_some found
  rw [VertexSet.mem_toList, VertexSet.mem_erase] at member
  exact strictlyDominatedBy_iff.mpr ⟨member.2.symm, member.1⟩

namespace Answers

variable (answers : d.Answers next root)
include answers

theorem refl (tracked : d.isTracked v = true) : d.dominatedBy v v = true :=
  answers.dominated.mpr ⟨answers.tracked.mp tracked, .refl⟩

theorem tracked_left (dominated : d.dominatedBy v c = true) : d.isTracked v = true :=
  answers.tracked.mpr (answers.dominated.mp dominated).1

theorem tracked_right (dominated : d.dominatedBy v c = true) : d.isTracked c = true := by
  obtain ⟨reached, dom⟩ := answers.dominated.mp dominated
  exact answers.tracked.mpr (dom.reachable reached)

theorem trans (first : d.dominatedBy u v = true) (second : d.dominatedBy v w = true) : d.dominatedBy u w = true := by
  obtain ⟨reached, dom⟩ := answers.dominated.mp first
  exact answers.dominated.mpr ⟨reached, (answers.dominated.mp second).2.trans dom⟩

theorem antisymm (first : d.dominatedBy u v = true) (second : d.dominatedBy v u = true) : u = v := by
  obtain ⟨reached, dom⟩ := answers.dominated.mp first
  exact (Dominates.antisymm (dom.reachable reached) dom (answers.dominated.mp second).2).symm

theorem total (first : d.dominatedBy v c = true) (second : d.dominatedBy v o = true) :
    d.dominatedBy o c = true ∨ d.dominatedBy c o = true := by
  obtain ⟨reached, domC⟩ := answers.dominated.mp first
  obtain ⟨_, domO⟩ := answers.dominated.mp second
  rcases Dominates.total reached domC domO with dom | dom
  · exact .inl (answers.dominated.mpr ⟨domO.reachable reached, dom⟩)
  · exact .inr (answers.dominated.mpr ⟨domC.reachable reached, dom⟩)

/-! ### Depths -/

/-- A strict dominator is less deep: all that dominates it dominates the vertex, and so does the vertex itself. -/
theorem depth_lt (strict : d.strictlyDominatedBy v c = true) : d.depth c < d.depth v := by
  obtain ⟨other, dominated⟩ := strictlyDominatedBy_iff.mp strict
  have tracked := answers.tracked_left dominated
  have notUp : ¬ d.dominatedBy c v = true := fun up => other (answers.antisymm dominated up)
  rw [depth, depth, List.countP_eq_length_filter, List.countP_eq_length_filter]
  have sub : (List.range d.sets.size).filter (d.dominatedBy c) =
      ((List.range d.sets.size).filter (d.dominatedBy v)).filter (d.dominatedBy c) := by
    rw [List.filter_filter]
    refine List.filter_congr fun w _ => ?_
    cases holds : d.dominatedBy c w with
    | false => rfl
    | true => simp [answers.trans dominated holds]
  rw [sub]
  refine List.length_filter_lt_length_iff_exists.mpr ⟨v, ?_, notUp⟩
  rw [List.mem_filter, List.mem_range]
  exact ⟨lt_of_dominatedBy dominated, answers.refl tracked⟩

theorem depth_le_size (v : VertexId) : d.depth v ≤ d.size :=
  List.countP_mono_left fun _ _ dominated => answers.tracked_right dominated

theorem depth_pos (tracked : d.isTracked v = true) : 0 < d.depth v := by
  have self := answers.refl tracked
  exact List.countP_pos_iff.mpr ⟨v, List.mem_range.mpr (lt_of_dominatedBy self), self⟩

/-! ### Nearest strict dominators -/

/-- Every tracked vertex but the root has a nearest strict dominator: the deepest one. -/
theorem exists_immediate? (tracked : d.isTracked v = true) (notRoot : v ≠ root) : ∃ c, d.immediate? v = some c := by
  have reached := answers.tracked.mp tracked
  have rootStrict : d.strictlyDominatedBy v root = true :=
    strictlyDominatedBy_iff.mpr ⟨notRoot, answers.dominated.mpr ⟨reached, .of_root⟩⟩
  have mem_strict (o : VertexId) : o ∈ ((d.set v).erase v).toList ↔ d.strictlyDominatedBy v o = true := by
    rw [VertexSet.mem_toList, VertexSet.mem_erase, strictlyDominatedBy_iff, and_comm, ne_comm]
    rfl
  obtain ⟨c, isStrict, deepest⟩ := Finset.exists_max_image ((d.set v).erase v).toList.toFinset d.depth
    ⟨root, by rw [List.mem_toFinset, mem_strict]; exact rootStrict⟩
  rw [List.mem_toFinset, mem_strict] at isStrict
  rw [← Option.isSome_iff_exists, immediate?, List.find?_isSome]
  refine ⟨c, (mem_strict c).mpr isStrict, isClosest_iff.mpr fun o strict other => ?_⟩
  obtain ⟨_, domC⟩ := strictlyDominatedBy_iff.mp isStrict
  obtain ⟨_, domO⟩ := strictlyDominatedBy_iff.mp strict
  refine (answers.total domC domO).resolve_left fun above => ?_
  have deeper := answers.depth_lt (strictlyDominatedBy_iff.mpr ⟨other, above⟩)
  have := deepest o (by rw [List.mem_toFinset, mem_strict]; exact strict)
  omega

/-! ### Common dominators -/

/-- Every tracked candidate is dominated by one that no other strictly dominates. -/
theorem exists_undominated {candidates : List VertexId} (member : v ∈ candidates) (above : d.dominatedBy u v = true) :
    ∃ c ∈ d.undominated candidates, d.dominatedBy u c = true := by
  obtain ⟨c, found, highest⟩ := Finset.exists_min_image (candidates.toFinset.filter fun c => d.dominatedBy u c = true) d.depth
    ⟨v, by simp [member, above]⟩
  rw [Finset.mem_filter, List.mem_toFinset] at found
  refine ⟨c, List.mem_filter.mpr ⟨found.1, ?_⟩, found.2⟩
  simp only [Bool.not_eq_eq_eq_not, Bool.not_true, List.any_eq_false]
  intro o isCandidate strict
  have less := answers.depth_lt strict
  have := highest o (by simp [isCandidate, answers.trans found.2 (strictlyDominatedBy_iff.mp strict).2])
  omega

/-- If the root is among those that no other strictly dominates, all others of them are not tracked. -/
theorem undominated_root {candidates : List VertexId} (isRoot : root ∈ d.undominated candidates)
    (member : v ∈ d.undominated candidates) (tracked : d.isTracked v = true) : v = root := by
  by_contra other
  have strict : d.strictlyDominatedBy v root = true :=
    strictlyDominatedBy_iff.mpr ⟨other, answers.dominated.mpr ⟨answers.tracked.mp tracked, .of_root⟩⟩
  have none := (List.mem_filter.mp member).2
  simp only [Bool.not_eq_eq_eq_not, Bool.not_true, List.any_eq_false] at none
  exact none root (List.mem_filter.mp isRoot).1 strict

/-- What the search finds dominates all that a candidate dominates. -/
theorem common_dominates {rounds : Nat} {candidates : List VertexId} (found : d.common rounds candidates = some (some c))
    (member : v ∈ candidates) (above : d.dominatedBy u v = true) : d.dominatedBy u c = true := by
  induction rounds generalizing candidates v with
  | zero =>
    rw [common] at found
    split at found <;> simp at found
  | succ rounds ih =>
    rw [common] at found
    split at found
    · simp at found
    obtain ⟨k, kept, dominated⟩ := answers.exists_undominated member above
    split at found
    · rename_i only
      obtain rfl : c = _ := by simpa using found.symm
      rw [only, List.mem_singleton] at kept
      exact kept ▸ dominated
    · have tracked := answers.tracked_right dominated
      by_cases isRoot : k = root
      · -- the root has nowhere to go, and nothing else that is kept does
        subst isRoot
        have none : (d.undominated candidates).filterMap d.immediate? = [] := by
          rw [List.filterMap_eq_nil_iff]
          intro w keptW
          by_contra some
          obtain ⟨o, isSome⟩ := Option.ne_none_iff_exists'.mp some
          have strict := strict_of_immediate? isSome
          have trackedW := answers.tracked_left (strictlyDominatedBy_iff.mp strict).2
          rw [answers.undominated_root kept keptW trackedW] at strict
          obtain ⟨other, dom⟩ := strictlyDominatedBy_iff.mp strict
          exact other (answers.dominated.mp dom).2.eq_root.symm
        rw [none] at found
        cases rounds <;> simp [common] at found
      · obtain ⟨o, up⟩ := answers.exists_immediate? tracked isRoot
        have strict := strict_of_immediate? up
        refine ih found ?_ (answers.trans dominated (strictlyDominatedBy_iff.mp strict).2)
        exact List.mem_eraseDups.mpr (List.mem_filterMap.mpr ⟨k, kept, up⟩)

/-- What the search finds is a candidate or above one. -/
theorem common_mem {rounds : Nat} {candidates : List VertexId} (found : d.common rounds candidates = some (some c)) :
    c ∈ candidates ∨ d.isTracked c = true := by
  induction rounds generalizing candidates with
  | zero =>
    rw [common] at found
    split at found <;> simp at found
  | succ rounds ih =>
    rw [common] at found
    split at found
    · simp at found
    split at found
    · rename_i only
      obtain rfl : c = _ := by simpa using found.symm
      have kept : c ∈ d.undominated candidates := by simp [only]
      exact .inl (List.mem_filter.mp kept).1
    · rcases ih found with member | tracked
      · obtain ⟨v, _, up⟩ := List.mem_filterMap.mp (List.mem_eraseDups.mp member)
        exact .inr (answers.tracked_right (strictlyDominatedBy_iff.mp (strict_of_immediate? up)).2)
      · exact .inr tracked

/-- The search does not run out of as many rounds as its candidates are deep, and one more. -/
theorem common_isSome {rounds bound : Nat} {candidates : List VertexId} (low : ∀ c ∈ candidates, d.depth c ≤ bound)
    (enough : bound < rounds) : (d.common rounds candidates).isSome = true := by
  induction rounds generalizing candidates bound with
  | zero => omega
  | succ rounds ih =>
    rw [common]
    split
    · rfl
    split
    · rfl
    -- what moves up gets less deep, and from depth zero nothing moves
    have higher : ∀ o ∈ ((d.undominated candidates).filterMap d.immediate?).eraseDups, d.depth o + 1 ≤ bound := by
      intro o member
      obtain ⟨c, kept, up⟩ := List.mem_filterMap.mp (List.mem_eraseDups.mp member)
      have := answers.depth_lt (strict_of_immediate? up)
      have := low c (List.mem_filter.mp kept).1
      omega
    cases bound with
    | zero =>
      have none : ((d.undominated candidates).filterMap d.immediate?).eraseDups = [] := by
        rw [List.eq_nil_iff_forall_not_mem]
        intro o member
        have := higher o member
        omega
      rw [none]
      cases rounds <;> rfl
    | succ bound =>
      refine ih (fun o member => ?_) (Nat.lt_of_succ_lt_succ enough)
      have := higher o member
      omega

/-- The search for a common dominator has an answer, and a vertex that it finds dominates all that are tracked. -/
theorem nearestCommon_spec (function : String) (vs : List VertexId) :
    ∃ found, d.nearestCommon function vs = .ok found ∧ ∀ c, found = some c →
      (c ∈ vs ∨ d.isTracked c = true) ∧ ∀ v ∈ vs, d.isTracked v = true → d.dominatedBy v c = true := by
  have ends : (d.common (d.size + 2) vs.eraseDups).isSome = true :=
    answers.common_isSome (fun c _ => answers.depth_le_size c) (by omega)
  obtain ⟨found, isFound⟩ := Option.isSome_iff_exists.mp ends
  refine ⟨found, by simp [nearestCommon, isFound], ?_⟩
  rintro c rfl
  refine ⟨(answers.common_mem isFound).imp_left List.mem_eraseDups.mp, fun v member tracked => ?_⟩
  exact answers.common_dominates isFound (List.mem_eraseDups.mpr member) (answers.refl tracked)

end Answers

end Dominators

end MiddleEnd
