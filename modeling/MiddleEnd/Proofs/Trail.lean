import MiddleEnd.Graph.Order

/-!
Paths through a graph and what lies on all of them. A trail keeps the vertices that a path passed before it
arrived, so that statements about what happened "strictly before" a vertex speak of one list. Dominance is
said over trails alone; that it is antisymmetric is what makes a nearest dominator possible
(`Dominates.antisymm`).
-/
namespace MiddleEnd

/-- A path from `root` arrives at `v`, having passed the vertices in `past`, in this order. -/
inductive Trail (next : VertexId → List VertexId) (root : VertexId) : List VertexId → VertexId → Prop
  | start : Trail next root [] root
  | step {past : List VertexId} {u v : VertexId} (before : Trail next root past u) (edge : v ∈ next u) :
    Trail next root (past ++ [u]) v

/-- Some path from `root` arrives at `v`. -/
def Reachable (next : VertexId → List VertexId) (root v : VertexId) : Prop :=
  ∃ past, Trail next root past v

variable {next : VertexId → List VertexId} {root u v w : VertexId} {past : List VertexId}

namespace Trail

/-- A trail goes on where another one arrives. -/
theorem trans {later : List VertexId} (first : Trail next root past u) (second : Trail next u later v) :
    Trail next root (past ++ later) v := by
  induction second with
  | start => simpa using first
  | step _ edge ih => simpa using ih.step edge

/-- A trail through `u` is a trail to `u` and one from there. -/
theorem cut (trail : Trail next root past v) (passed : u ∈ past) :
    ∃ before later, past = before ++ later ∧ Trail next root before u ∧ Trail next u later v ∧ later ≠ [] := by
  induction trail with
  | start => simp at passed
  | @step past w v trail edge ih =>
    rcases List.mem_append.mp passed with earlier | last
    · obtain ⟨before, later, rfl, first, second, _⟩ := ih earlier
      exact ⟨before, later ++ [w], by simp, first, second.step edge, by simp⟩
    · obtain rfl := List.mem_singleton.mp last
      exact ⟨past, [u], rfl, trail, Trail.start.step edge, by simp⟩

/-- A trail divides at each of its places. -/
theorem split {before later : List VertexId} (trail : Trail next root (before ++ u :: later) v) :
    Trail next root before u ∧ Trail next u (u :: later) v := by
  generalize whole : before ++ u :: later = past at trail
  induction trail generalizing later with
  | start => simp at whole
  | @step past w v trail edge ih =>
    rcases List.eq_nil_or_concat later with rfl | ⟨later, last, rfl⟩
    · obtain ⟨rfl, same⟩ := List.append_inj' whole rfl
      obtain rfl : u = w := by simpa using same
      exact ⟨trail, Trail.start.step edge⟩
    · rw [List.concat_eq_append, ← List.cons_append, ← List.append_assoc] at whole
      obtain ⟨front, same⟩ := List.append_inj' whole rfl
      obtain rfl : last = w := by simpa using same
      obtain ⟨first, second⟩ := ih front
      exact ⟨first, by simpa using second.step edge⟩

/-- A trail that has passed nothing is where it starts. -/
theorem eq_root (trail : Trail next root [] v) : root = v := by
  generalize nothing : [] = past at trail
  cases trail with
  | start => rfl
  | step => simp at nothing

/-- An edge may come before a trail. -/
theorem cons (edge : u ∈ next root) (trail : Trail next u past v) : Trail next root (root :: past) v :=
  (start.step edge).trans trail

/-- A trail that has passed something has passed its root first. -/
theorem exists_next (trail : Trail next root past v) (nonempty : past ≠ []) :
    ∃ s later, past = root :: later ∧ s ∈ next root ∧ Trail next s later v := by
  induction trail with
  | start => exact absurd rfl nonempty
  | @step past u v trail edge ih =>
    by_cases first : past = []
    · subst first
      obtain rfl := trail.eq_root
      exact ⟨v, [], rfl, edge, .start⟩
    · obtain ⟨s, later, rfl, begins, rest⟩ := ih first
      exact ⟨s, later ++ [u], rfl, begins, rest.step edge⟩

theorem nil_iff : Trail next root [] v ↔ root = v := by
  constructor
  · exact eq_root
  · rintro rfl
    exact .start

theorem cons_iff : Trail next root (u :: past) v ↔ u = root ∧ ∃ s ∈ next root, Trail next s past v := by
  constructor
  · intro trail
    obtain ⟨s, later, same, edge, rest⟩ := trail.exists_next (by simp)
    obtain ⟨rfl, rfl⟩ := List.cons.inj same
    exact ⟨rfl, s, edge, rest⟩
  · rintro ⟨rfl, s, edge, rest⟩
    exact rest.cons edge

/-- Whether a path passes given vertices can be followed up. -/
instance decidable (next : VertexId → List VertexId) :
    (root : VertexId) → (past : List VertexId) → (v : VertexId) → Decidable (Trail next root past v)
  | _, [], _ => decidable_of_iff _ nil_iff.symm
  | _, _ :: past, v =>
    have := fun s => decidable next s past v
    decidable_of_iff _ cons_iff.symm

theorem root_mem (trail : Trail next root past v) (nonempty : past ≠ []) : root ∈ past := by
  obtain ⟨_, _, rfl, _⟩ := trail.exists_next nonempty
  exact List.mem_cons_self

/-- The last vertex that a trail has passed has an edge to where it arrives. -/
theorem exists_last (trail : Trail next root past v) (nonempty : past ≠ []) :
    ∃ before u, past = before ++ [u] ∧ Trail next root before u ∧ v ∈ next u := by
  cases trail with
  | start => exact absurd rfl nonempty
  | @step past u _ before edge => exact ⟨past, u, rfl, before, edge⟩

/-- Against edges that can be turned round there is a trail back over the same vertices. -/
theorem reverse {back : VertexId → List VertexId} (trail : Trail next root past v)
    (turn : ∀ u s, u ∈ past → s ∈ next u → u ∈ back s) :
    ∃ past', Trail back v past' root ∧ ∀ w, w ∈ past' ∨ w = root ↔ w ∈ past ∨ w = v := by
  induction trail with
  | start => exact ⟨[], .start, by simp⟩
  | @step past u v _ edge ih =>
    obtain ⟨past', trail', same⟩ := ih fun w s member => turn w s (List.mem_append_left _ member)
    refine ⟨v :: past', trail'.cons (turn u v (by simp) edge), fun w => ?_⟩
    rw [List.mem_cons, or_assoc, same, List.mem_append, List.mem_singleton, or_comm]

/-- A trail to a vertex that no edge leads to has passed nothing. -/
theorem eq_nil_of_no_edge (trail : Trail next root past v) (none : ∀ u, Reachable next root u → v ∉ next u) :
    past = [] := by
  cases trail with
  | start => rfl
  | step before edge => exact absurd edge (none _ ⟨_, before⟩)

/-- What holds at the root and along every edge holds where a trail arrives. -/
theorem invariant {P : VertexId → Prop} (trail : Trail next root past v) (atRoot : P root)
    (along : ∀ u v, P u → v ∈ next u → P v) : P v := by
  induction trail with
  | start => exact atRoot
  | step _ edge ih => exact along _ _ ih edge

/-- A trail only depends on the edges out of what it passed. -/
theorem mono {next' : VertexId → List VertexId} (trail : Trail next root past v)
    (kept : ∀ u ∈ past, ∀ s ∈ next u, s ∈ next' u) : Trail next' root past v := by
  induction trail with
  | start => exact .start
  | @step past u v _ edge ih =>
    exact (ih fun w member => kept w (List.mem_append_left _ member)).step (kept u (by simp) v edge)

theorem reachable (trail : Trail next root past v) : Reachable next root v :=
  ⟨past, trail⟩

/-- Everything that a trail passed is reachable. -/
theorem reachable_past (trail : Trail next root past v) (passed : u ∈ past) : Reachable next root u := by
  obtain ⟨before, _, _, first, _, _⟩ := trail.cut passed
  exact first.reachable

end Trail

namespace Reachable

theorem refl : Reachable next root root :=
  ⟨[], .start⟩

theorem step (reached : Reachable next root u) (edge : v ∈ next u) : Reachable next root v := by
  obtain ⟨past, trail⟩ := reached
  exact ⟨past ++ [u], trail.step edge⟩

theorem trans (first : Reachable next root u) (second : Reachable next u v) : Reachable next root v := by
  obtain ⟨past, trail⟩ := first
  obtain ⟨later, more⟩ := second
  exact ⟨past ++ later, trail.trans more⟩

/-- What is reachable is arrived at for the first time on some path. -/
theorem exists_first (reached : Reachable next root v) : ∃ past, Trail next root past v ∧ v ∉ past := by
  obtain ⟨past, trail⟩ := reached
  induction size : past.length using Nat.strongRecOn generalizing past with
  | _ n ih =>
    by_cases again : v ∈ past
    · obtain ⟨before, later, rfl, earlier, _, nonempty⟩ := trail.cut again
      have shorter : before.length < n := by
        have := List.length_pos_iff.mpr nonempty
        rw [List.length_append] at size
        omega
      exact ih before.length shorter before earlier rfl
    · exact ⟨past, trail, again⟩

/-- What is reachable is the root, or the end of an edge from something reachable. -/
theorem last_edge (reached : Reachable next root v) :
    v = root ∨ ∃ u, Reachable next root u ∧ v ∈ next u := by
  obtain ⟨past, trail⟩ := reached
  cases trail with
  | start => exact .inl rfl
  | step before edge => exact .inr ⟨_, before.reachable, edge⟩

end Reachable

/-- Every path from `root` to `v` passes through `c`, which may be `v` itself. -/
def Dominates (next : VertexId → List VertexId) (root c v : VertexId) : Prop :=
  ∀ past, Trail next root past v → c ∈ past ∨ c = v

namespace Dominates

theorem refl : Dominates next root v v :=
  fun _ _ => .inr rfl

/-- The root dominates everything. -/
theorem of_root : Dominates next root root v := by
  intro past trail
  induction trail with
  | start => exact .inr rfl
  | step _ _ ih =>
    rcases ih with earlier | rfl
    · exact .inl (List.mem_append_left _ earlier)
    · exact .inl (by simp)

/-- Only the root dominates the root. -/
theorem eq_root {c : VertexId} (dom : Dominates next root c root) : c = root := by
  rcases dom [] .start with passed | same
  · simp at passed
  · exact same

theorem trans {a b c : VertexId} (first : Dominates next root a b) (second : Dominates next root b c) :
    Dominates next root a c := by
  intro past trail
  rcases second past trail with passed | rfl
  · obtain ⟨before, later, rfl, toB, _, nonempty⟩ := trail.cut passed
    rcases first before toB with earlier | rfl
    · exact .inl (List.mem_append_left _ earlier)
    · exact .inl passed
  · exact first past trail

/-- A dominator of the end of an edge, other than that end, dominates its source. -/
theorem of_edge {c : VertexId} (dom : Dominates next root c v) (edge : v ∈ next u) (other : c ≠ v) :
    Dominates next root c u := by
  intro past trail
  rcases dom _ (trail.step edge) with passed | same
  · rcases List.mem_append.mp passed with earlier | last
    · exact .inl earlier
    · exact .inr (List.mem_singleton.mp last)
  · exact absurd same other

/-- What dominates every source of an edge into `v` dominates `v`, if paths do not start there. -/
theorem of_sources {c : VertexId} (other : v ≠ root) (dom : ∀ u, v ∈ next u → Dominates next root c u) :
    Dominates next root c v := by
  intro past trail
  cases trail with
  | start => exact absurd rfl other
  | @step past u _ before edge =>
    rcases dom u edge past before with passed | rfl
    · exact .inl (List.mem_append_left _ passed)
    · exact .inl (by simp)

/-- Two reachable vertices that dominate each other are the same: the shorter of their shortest trails
would have to pass the other one. -/
theorem antisymm {a b : VertexId} (reached : Reachable next root a) (first : Dominates next root a b)
    (second : Dominates next root b a) : a = b := by
  obtain ⟨past, trail⟩ := reached
  induction size : past.length using Nat.strongRecOn generalizing past with
  | _ n ih =>
    rcases second past trail with passed | same
    · obtain ⟨before, later, rfl, toB, _, nonempty⟩ := trail.cut passed
      rcases first before toB with earlier | same
      · obtain ⟨before', later', rfl, toA, _, _⟩ := toB.cut earlier
        have shorter : before'.length < n := by
          have := List.length_pos_iff.mpr nonempty
          simp only [List.length_append] at size
          omega
        exact ih _ shorter before' toA rfl
      · exact same
    · exact same.symm

/-- A dominator of a reachable vertex is reachable. -/
theorem reachable {c : VertexId} (dom : Dominates next root c v) (reached : Reachable next root v) :
    Reachable next root c := by
  obtain ⟨past, trail⟩ := reached
  rcases dom past trail with passed | rfl
  · exact trail.reachable_past passed
  · exact trail.reachable

end Dominates

end MiddleEnd
