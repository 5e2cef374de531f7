import MiddleEnd.Metrics

/-!
Counters do not depend on the order in which functions are counted (`Metrics.foldl_observe_perm`), and the one for
functions counts each of them (`Metrics.total_foldl_observe`).
-/
namespace MiddleEnd

/-- A fold over a list in another order is related to it, if the order of two neighbours makes no difference. -/
theorem foldl_perm {α β : Type} {R : β → β → Prop} {f : β → α → β} (refl : ∀ b, R b b)
    (trans : ∀ {a b c}, R a b → R b c → R a c) (congr : ∀ {b c} a, R b c → R (f b a) (f c a))
    (comm : ∀ b a a', R (f (f b a) a') (f (f b a') a)) {l l' : List α} (perm : l.Perm l') {b c : β} (same : R b c) :
    R (l.foldl f b) (l'.foldl f c) := by
  induction perm generalizing b c with
  | nil => exact same
  | cons a _ ih => exact ih (congr a same)
  | swap a a' l =>
    -- the rest of the list starts from related values
    have rest : ∀ {l : List α} {b c : β}, R b c → R (l.foldl f b) (l.foldl f c) := by
      intro l
      induction l with
      | nil => exact id
      | cons a l ih => exact fun same => ih (congr a same)
    exact rest (trans (comm b a' a) (congr a' (congr a same)))
  | trans _ _ first second => exact trans (first same) (second (refl c))

namespace CounterSeries

variable {s t u : CounterSeries} {label other : String} {m n : Nat}

theorem lookup_cons_of_ne {c : Counter} (differ : other ≠ label) :
    List.lookup other ((label, c) :: s) = List.lookup other s := by
  rw [List.lookup_cons, show (other == label) = false by simpa using differ]

theorem lookup_add :
    (s.add label n).lookup other = if other = label then some ((s.get label).add n) else s.lookup other := by
  induction s with
  | nil =>
    by_cases here : other = label
    · simp [add, get, here]
    · simp [add, here, lookup_cons_of_ne here]
  | cons entry s ih =>
    obtain ⟨first, c⟩ := entry
    by_cases isFirst : first = label
    · subst isFirst
      by_cases here : other = first
      · simp [add, get, here]
      · simp [add, here, lookup_cons_of_ne here]
    · rw [add, if_neg isFirst, get, lookup_cons_of_ne (Ne.symm isFirst)]
      by_cases here : other = first
      · simp [here, isFirst]
      · rw [lookup_cons_of_ne here, lookup_cons_of_ne here, ih, get]

/-- Two series with the same counters, in whatever order. -/
def Same (s t : CounterSeries) : Prop :=
  ∀ label, s.lookup label = t.lookup label

theorem Same.trans (first : s.Same t) (second : t.Same u) : s.Same u :=
  fun label => (first label).trans (second label)

theorem Same.add (same : s.Same t) : (s.add label n).Same (t.add label n) := by
  intro other
  rw [lookup_add, lookup_add, get, get, same label, same other]

theorem add_comm : ((s.add label m).add other n).Same ((s.add other n).add label m) := by
  intro l
  simp only [lookup_add, get]
  by_cases equal : other = label
  · subst equal
    by_cases here : l = other
    · simp only [here, ↓reduceIte, Option.getD_some, Counter.add, Option.some.injEq, Counter.mk.injEq]
      ac_rfl
    · simp [here]
  · by_cases here : l = other
    · subst here
      simp [equal]
    · by_cases there : l = label
      · subst there
        simp [here]
      · simp [here, there]

/-- Adding amounts in another order comes to the same. -/
theorem foldl_add_perm {amounts amounts' : List (String × Nat)} (perm : amounts.Perm amounts') (same : s.Same t) :
    Same (amounts.foldl (fun s entry => s.add entry.1 entry.2) s)
      (amounts'.foldl (fun s entry => s.add entry.1 entry.2) t) :=
  foldl_perm (R := Same) (f := fun s entry => s.add entry.1 entry.2) (fun _ _ => rfl) Same.trans (fun _ => Same.add)
    (fun _ _ _ => add_comm) perm same

/-- All counters of a series together. -/
def total : CounterSeries → UInt64
  | [] => 0
  | (_, c) :: rest => c.total + total rest

theorem total_add : (s.add label n).total = s.total + (Float.ofNat n).toUInt64 := by
  induction s with
  | nil => simp [add, total, Counter.add]
  | cons entry s ih =>
    obtain ⟨first, c⟩ := entry
    rw [add]
    split
    · simp only [total, Counter.add]
      ac_rfl
    · simp only [total] at ih ⊢
      rw [ih, UInt64.add_assoc]

end CounterSeries

namespace Metrics

variable {m m' : Metrics} {o o' : Observation}

/-- Metrics with the same counters. -/
structure SameCounters (m m' : Metrics) : Prop where
  functions : m.functions.Same m'.functions
  rewrites : m.rewrites.Same m'.rewrites
  phisResolved : m.phisResolved = m'.phisResolved
  frees : m.frees = m'.frees

theorem SameCounters.refl (m : Metrics) : m.SameCounters m :=
  ⟨fun _ => rfl, fun _ => rfl, rfl, rfl⟩

theorem SameCounters.trans {m₁ m₂ m₃ : Metrics} (first : m₁.SameCounters m₂) (second : m₂.SameCounters m₃) :
    m₁.SameCounters m₃ :=
  ⟨first.functions.trans second.functions, first.rewrites.trans second.rewrites,
    first.phisResolved.trans second.phisResolved, first.frees.trans second.frees⟩

theorem SameCounters.observe (same : m.SameCounters m') : (m.observe o).SameCounters (m'.observe o) := by
  refine ⟨same.functions.add, CounterSeries.foldl_add_perm (.refl _) same.rewrites, ?_, ?_⟩
  · simp only [Metrics.observe, same.phisResolved]
  · simp only [Metrics.observe, same.frees]

theorem observe_comm : ((m.observe o).observe o').SameCounters ((m.observe o').observe o) := by
  refine ⟨CounterSeries.add_comm, ?_, ?_, ?_⟩
  · have perm : (o.rewrites ++ o'.rewrites).Perm (o'.rewrites ++ o.rewrites) := List.perm_append_comm
    have same := CounterSeries.foldl_add_perm perm (s := m.rewrites) fun _ => rfl
    rwa [List.foldl_append, List.foldl_append] at same
  · simp only [Metrics.observe, Counter.add, Counter.mk.injEq]
    ac_rfl
  · simp only [Metrics.observe, Counter.add, Counter.mk.injEq]
    ac_rfl

/-- The order in which functions are counted makes no difference to the counters. -/
theorem foldl_observe_perm {observations observations' : List Observation} (perm : observations.Perm observations') :
    (observations.foldl observe m).SameCounters (observations'.foldl observe m) :=
  foldl_perm .refl .trans (fun _ => SameCounters.observe) (fun _ _ _ => observe_comm) perm (.refl m)

/-- Every function is counted once. -/
theorem total_foldl_observe (observations : List Observation) :
    (observations.foldl observe {}).functions.total = UInt64.ofNat observations.length := by
  have counts (m : Metrics) :
      (observations.foldl observe m).functions.total = m.functions.total + UInt64.ofNat observations.length := by
    induction observations generalizing m with
    | nil => simp
    | cons o rest ih =>
      have one : (Float.ofNat 1).toUInt64 = 1 := by decide
      rw [List.foldl_cons, ih, List.length_cons, show (m.observe o).functions = m.functions.add o.outcome 1 from rfl,
        CounterSeries.total_add, one, UInt64.add_assoc, UInt64.ofNat_add, UInt64.add_comm (UInt64.ofNat rest.length)]
      rfl
  rw [counts]
  have none : CounterSeries.total ({} : Metrics).functions = 0 := by decide
  rw [none, UInt64.zero_add]

end Metrics

end MiddleEnd
