import MiddleEnd.Failure

/-!
How work that came to its end got there. For each way of combining actions there is one equivalence that takes a
successful run apart into the runs of its parts, so that no proof has to unfold the monad. For work that stops there is
one rule each, which gives the reasons of the whole from those of its parts (`Action.StopsWith`). What work leaves behind
in either case has rules of its own (`Action.Leaves`).
-/
namespace MiddleEnd

namespace Action

variable {σ τ α β : Type} {s s' s'' : σ}

/-- What running the work on `s` ends with. -/
def outcome (work : Action σ α) (s : σ) : Except Stop α × σ :=
  work.run s

/-- The work succeeds on `s` with the value `a`, and leaves `s'`. -/
def Succeeds (work : Action σ α) (s : σ) (a : α) (s' : σ) : Prop :=
  work.outcome s = (.ok a, s')

theorem outcome_bind (work : Action σ α) (next : α → Action σ β) (s : σ) :
    (work >>= next).outcome s =
      match work.outcome s with
      | (.ok a, s') => (next a).outcome s'
      | (.error why, s') => (.error why, s') := by
  show ExceptT.bindCont next (work.outcome s).1 (work.outcome s).2 = _
  rcases work.outcome s with ⟨_ | a, s'⟩ <;> rfl

theorem bind_succeeds {work : Action σ α} {next : α → Action σ β} {b : β} :
    (work >>= next).Succeeds s b s'' ↔ ∃ a s', work.Succeeds s a s' ∧ (next a).Succeeds s' b s'' := by
  rw [Succeeds, outcome_bind]
  constructor
  · intro ends
    cases first : work.outcome s with
    | mk result s' =>
      rw [first] at ends
      cases result with
      | error why => simp at ends
      | ok a => exact ⟨a, s', first, ends⟩
  · rintro ⟨a, s', first, second⟩
    rw [first]
    exact second

@[simp] theorem pure_succeeds {a b : α} : (pure a : Action σ α).Succeeds s b s' ↔ a = b ∧ s = s' := by
  show ((Except.ok a, s) : Except Stop α × σ) = _ ↔ _
  simp

@[simp] theorem get_succeeds {a : σ} : (get : Action σ σ).Succeeds s a s' ↔ s = a ∧ s = s' := by
  show ((Except.ok s, s) : Except Stop σ × σ) = _ ↔ _
  simp

@[simp] theorem set_succeeds {t : σ} {u : PUnit} : (set t : Action σ PUnit).Succeeds s u s' ↔ t = s' := by
  show ((Except.ok (), t) : Except Stop PUnit × σ) = _ ↔ _
  simp

@[simp] theorem modify_succeeds {change : σ → σ} {u : PUnit} :
    (modify change : Action σ PUnit).Succeeds s u s' ↔ change s = s' := by
  show ((Except.ok (), change s) : Except Stop PUnit × σ) = _ ↔ _
  simp

@[simp] theorem not_fail_succeeds {why : Failure} {a : α} : ¬ (fail why : Action σ α).Succeeds s a s' := by
  show ¬ ((Except.error _, s) : Except Stop α × σ) = _
  simp

@[simp] theorem need_succeeds {value : Option α} {a : α} :
    (need value : Action σ α).Succeeds s a s' ↔ value = some a ∧ s = s' := by
  cases value with
  | none =>
    show ((Except.error _, s) : Except Stop α × σ) = _ ↔ _
    simp
  | some b =>
    show (pure b : Action σ α).Succeeds s a s' ↔ _
    simp

theorem get_bind_succeeds {next : σ → Action σ β} {b : β} :
    (get >>= next).Succeeds s b s' ↔ (next s).Succeeds s b s' := by
  simp [bind_succeeds, and_assoc]

theorem set_bind_succeeds {t : σ} {next : PUnit → Action σ β} {b : β} :
    (set t >>= next).Succeeds s b s' ↔ (next ⟨⟩).Succeeds t b s' := by
  simpa [bind_succeeds] using ⟨fun ⟨_, rest⟩ => rest, fun rest => ⟨⟨⟩, rest⟩⟩

theorem modify_bind_succeeds {change : σ → σ} {next : PUnit → Action σ β} {b : β} :
    (modify change >>= next).Succeeds s b s' ↔ (next ⟨⟩).Succeeds (change s) b s' := by
  simpa [bind_succeeds] using ⟨fun ⟨_, rest⟩ => rest, fun rest => ⟨⟨⟩, rest⟩⟩

theorem need_bind_succeeds {value : Option α} {next : α → Action σ β} {b : β} :
    (need value >>= next).Succeeds s b s' ↔ ∃ a, value = some a ∧ (next a).Succeeds s b s' := by
  simp [bind_succeeds, and_assoc]

/-- What is done after both branches is done after the choice. -/
theorem ite_bind_succeeds {c : Prop} [Decidable c] {first second : Action σ α} {next : α → Action σ β} {b : β} :
    (if c then first >>= next else second >>= next).Succeeds s b s' ↔
      ((if c then first else second) >>= next).Succeeds s b s' := by
  split <;> rfl

theorem outcome_within (place : Place) (work : Action σ α) (s : σ) :
    (work.within place).outcome s =
      match work.outcome s with
      | (.ok a, s') => (.ok a, s')
      | (.error (.failure cause), s') => (.error (.failure (.within place cause)), s')
      | (.error (.fault cause), s') => (.error (.fault cause), s') := by
  simp only [outcome, within, tryCatch, tryCatchThe, MonadExceptOf.tryCatch, ExceptT.tryCatch, ExceptT.run, ExceptT.mk,
    bind, StateT.bind]
  rcases work s with ⟨(_ | _) | a, s'⟩ <;> rfl

@[simp] theorem within_succeeds {place : Place} {work : Action σ α} {a : α} :
    (work.within place).Succeeds s a s' ↔ work.Succeeds s a s' := by
  rw [Succeeds, Succeeds, outcome_within]
  rcases work.outcome s with ⟨(_ | _) | a, s'⟩ <;> simp

@[simp] theorem on_succeeds {view : τ → σ} {put : τ → σ → τ} {work : Action σ α} {a : α} {t t' : τ} :
    (work.on view put).Succeeds t a t' ↔ ∃ s', work.Succeeds (view t) a s' ∧ put t s' = t' := by
  show ((work.outcome (view t)).1, put t (work.outcome (view t)).2) = _ ↔ ∃ s', work.outcome (view t) = _ ∧ _
  rcases work.outcome (view t) with ⟨_ | _, s'⟩
  · simp
  · simp [and_assoc, eq_comm]

@[simp] theorem forM_nil_succeeds {act : α → Action σ PUnit} {u : PUnit} :
    (List.forM [] act).Succeeds s u s' ↔ s = s' := by
  show (pure PUnit.unit : Action σ PUnit).Succeeds s u s' ↔ _
  simp

theorem forM_cons_succeeds {act : α → Action σ PUnit} {a : α} {as : List α} {u : PUnit} :
    (List.forM (a :: as) act).Succeeds s u s'' ↔ ∃ s', (act a).Succeeds s ⟨⟩ s' ∧ (List.forM as act).Succeeds s' u s'' := by
  show (act a >>= fun _ => List.forM as act).Succeeds s u s'' ↔ _
  rw [bind_succeeds]
  exact ⟨fun ⟨_, s', first, rest⟩ => ⟨s', first, rest⟩, fun ⟨s', first, rest⟩ => ⟨⟨⟩, s', first, rest⟩⟩

/-- Changes made for each element of a list are made in turn. -/
theorem forM_modify_succeeds {change : α → σ → σ} {as : List α} {u : PUnit} :
    (List.forM as fun a => (modify (change a) : Action σ PUnit)).Succeeds s u s' ↔ as.foldl (fun s a => change a s) s = s' := by
  induction as generalizing s with
  | nil => exact forM_nil_succeeds
  | cons a as ih => simp only [forM_cons_succeeds, modify_succeeds, ih, exists_eq_left', List.foldl_cons]

section each
variable {act : α → Action σ Bool} {as : List α} {before changed : Bool}

theorem foldlM_cons_succeeds {a : α} :
    ((a :: as).foldlM (fun changed a => return (← act a) || changed) before).Succeeds s changed s'' ↔
      ∃ now s', (act a).Succeeds s now s' ∧
        (as.foldlM (fun changed a => return (← act a) || changed) (now || before)).Succeeds s' changed s'' := by
  simp only [List.foldlM_cons, bind_succeeds, pure_succeeds]
  constructor
  · rintro ⟨_, _, ⟨now, _, first, rfl, rfl⟩, rest⟩
    exact ⟨now, _, first, rest⟩
  · rintro ⟨now, s', first, rest⟩
    exact ⟨_, s', ⟨now, s', first, rfl, rfl⟩, rest⟩

/-- What the work on each element keeps, the work on all of them does. -/
theorem foldlM_invariant {P : σ → Prop} (start : P s)
    (step : ∀ a ∈ as, ∀ {s changed s'}, P s → (act a).Succeeds s changed s' → P s')
    (done : (as.foldlM (fun changed a => return (← act a) || changed) before).Succeeds s changed s') : P s' := by
  induction as generalizing s before with
  | nil =>
    obtain ⟨_, rfl⟩ := pure_succeeds.mp done
    exact start
  | cons a as ih =>
    obtain ⟨now, t, first, rest⟩ := foldlM_cons_succeeds.mp done
    exact ih (step a List.mem_cons_self start first) (fun b later => step b (List.mem_cons_of_mem _ later)) rest

/-- If every yes takes some of `μ`, a yes in the end does. -/
theorem foldlM_lowers {P : σ → Prop} {μ : σ → Nat} (start : P s)
    (step : ∀ a ∈ as, ∀ {s changed s'}, P s → (act a).Succeeds s changed s' → P s' ∧ μ s' + changed.toNat ≤ μ s)
    (done : (as.foldlM (fun changed a => return (← act a) || changed) before).Succeeds s changed s') :
    P s' ∧ μ s' + changed.toNat ≤ μ s + before.toNat := by
  induction as generalizing s before with
  | nil =>
    obtain ⟨rfl, rfl⟩ := pure_succeeds.mp done
    exact ⟨start, Nat.le_refl _⟩
  | cons a as ih =>
    obtain ⟨now, t, first, rest⟩ := foldlM_cons_succeeds.mp done
    obtain ⟨holds, lower⟩ := step a List.mem_cons_self start first
    obtain ⟨ends, lowers⟩ := ih holds (fun b later => step b (List.mem_cons_of_mem _ later)) rest
    have either : (now || before).toNat ≤ now.toNat + before.toNat := by cases now <;> cases before <;> decide
    exact ⟨ends, by omega⟩

/-- A yes is not taken back. -/
theorem foldlM_false (done : (as.foldlM (fun changed a => return (← act a) || changed) before).Succeeds s false s') :
    before = false := by
  induction as generalizing s before with
  | nil => exact (pure_succeeds.mp done).1
  | cons a as ih =>
    obtain ⟨now, t, _, rest⟩ := foldlM_cons_succeeds.mp done
    exact (Bool.or_eq_false_iff.mp (ih rest)).2

/-- If the work on all elements says no, that on each of them did. -/
theorem foldlM_declines {P : σ → Prop} {Q : α → Prop} (start : P s)
    (step : ∀ a ∈ as, ∀ {s s'}, P s → (act a).Succeeds s false s' → P s' ∧ Q a)
    (done : (as.foldlM (fun changed a => return (← act a) || changed) before).Succeeds s false s') :
    P s' ∧ ∀ a ∈ as, Q a := by
  induction as generalizing s before with
  | nil =>
    obtain ⟨_, rfl⟩ := pure_succeeds.mp done
    exact ⟨start, by simp⟩
  | cons a as ih =>
    obtain ⟨now, t, first, rest⟩ := foldlM_cons_succeeds.mp done
    obtain rfl : now = false := (Bool.or_eq_false_iff.mp (foldlM_false rest)).1
    obtain ⟨holds, declined⟩ := step a List.mem_cons_self start first
    obtain ⟨ends, others⟩ := ih holds (fun b later => step b (List.mem_cons_of_mem _ later)) rest
    exact ⟨ends, List.forall_mem_cons.mpr ⟨declined, others⟩⟩

/-- If the work on each element says no and changes nothing, that on all of them does. -/
theorem foldlM_unchanged (declines : ∀ a ∈ as, (act a).Succeeds s false s) :
    (as.foldlM (fun changed a => return (← act a) || changed) false).Succeeds s false s := by
  induction as with
  | nil => exact pure_succeeds.mpr ⟨rfl, rfl⟩
  | cons a as ih =>
    exact foldlM_cons_succeeds.mpr
      ⟨false, s, declines a List.mem_cons_self, ih fun b later => declines b (List.mem_cons_of_mem _ later)⟩

end each

/-- Work that returns a value succeeds. -/
theorem succeeds_of_ok {work : Action σ α} {a : α} (ok : (work.outcome s).1 = .ok a) :
    work.Succeeds s a (work.outcome s).2 :=
  Prod.ext ok rfl

theorem exists_outcome {work : Action σ α} {result : Except Stop α} (ends : (work.outcome s).1 = result) :
    ∃ s', work.outcome s = (result, s') :=
  ⟨_, Prod.ext ends rfl⟩

/-! ### Work that stops -/

/-- If the work stops on `s`, the reason and what it leaves satisfy `P`. -/
def StopsWith (work : Action σ α) (s : σ) (P : Stop → σ → Prop) : Prop :=
  ∀ ⦃why t⦄, work.outcome s = (.error why, t) → P why t

namespace StopsWith

variable {P : Stop → σ → Prop} {work : Action σ α} {next : α → Action σ β}

theorem mono {Q : Stop → σ → Prop} (stops : work.StopsWith s P) (implies : ∀ {why t}, P why t → Q why t) :
    work.StopsWith s Q :=
  fun _ _ ends => implies (stops ends)

theorem of_succeeds {a : α} (done : work.Succeeds s a s') : work.StopsWith s P := by
  intro why t ends
  rw [show work.outcome s = _ from done] at ends
  simp at ends

theorem pure {a : α} : (Pure.pure a : Action σ α).StopsWith s P :=
  of_succeeds (pure_succeeds.mpr ⟨rfl, rfl⟩)

theorem set {t : σ} : (MonadStateOf.set t : Action σ PUnit).StopsWith s P :=
  of_succeeds (a := ⟨⟩) (set_succeeds.mpr rfl)

theorem fail {why : Failure} (holds : P (.failure why) s) : (Action.fail why : Action σ α).StopsWith s P := by
  intro why' t ends
  have ends : ((Except.error (.failure why), s) : Except Stop α × σ) = _ := ends
  obtain ⟨rfl, rfl⟩ : Stop.failure why = why' ∧ s = t := by simpa using ends
  exact holds

theorem missing (holds : P (.fault .missing) s) : (Action.missing : Action σ α).StopsWith s P := by
  intro why t ends
  have ends : ((Except.error (.fault .missing), s) : Except Stop α × σ) = _ := ends
  obtain ⟨rfl, rfl⟩ : Stop.fault .missing = why ∧ s = t := by simpa using ends
  exact holds

theorem bind (first : work.StopsWith s P) (rest : ∀ {a t}, work.Succeeds s a t → (next a).StopsWith t P) :
    (work >>= next).StopsWith s P := by
  intro why t ends
  rw [outcome_bind] at ends
  split at ends
  · rename_i a s' done
    exact rest done ends
  · rename_i why' s' stopped
    obtain ⟨rfl, rfl⟩ : why' = why ∧ s' = t := by simpa using ends
    exact first stopped

theorem get {next : σ → Action σ β} (rest : (next s).StopsWith s P) : (MonadState.get >>= next).StopsWith s P := by
  refine bind (of_succeeds (get_succeeds.mpr ⟨rfl, rfl⟩)) fun {a t} done => ?_
  obtain ⟨rfl, rfl⟩ := get_succeeds.mp done
  exact rest

theorem set_bind {t : σ} {next : PUnit → Action σ β} (rest : (next ⟨⟩).StopsWith t P) :
    (MonadStateOf.set t >>= next).StopsWith s P := by
  refine bind set fun {a t'} done => ?_
  obtain rfl := set_succeeds.mp done
  exact rest

theorem modify_bind {change : σ → σ} {next : PUnit → Action σ β} (rest : (next ⟨⟩).StopsWith (change s) P) :
    (modify change >>= next).StopsWith s P := by
  refine bind (of_succeeds (a := ⟨⟩) (modify_succeeds.mpr rfl)) fun {a t} done => ?_
  obtain rfl := modify_succeeds.mp done
  exact rest

theorem modify {change : σ → σ} : (modify change : Action σ PUnit).StopsWith s P :=
  of_succeeds (a := ⟨⟩) (modify_succeeds.mpr rfl)

theorem need {value : Option α} (absent : P (.fault .missing) s) (rest : ∀ {a}, value = some a → (next a).StopsWith s P) :
    (Action.need value >>= next).StopsWith s P := by
  refine bind ?_ fun {a t} done => ?_
  · cases value with
    | some a => exact pure
    | none => exact missing absent
  · obtain ⟨isA, rfl⟩ := need_succeeds.mp done
    exact rest isA

/-- What is there is not missed. -/
theorem need_some {a : α} {value : Option α} (present : value = some a) (rest : (next a).StopsWith s P) :
    (Action.need value >>= next).StopsWith s P := by
  subst present
  refine bind pure fun {b t} done => ?_
  obtain ⟨rfl, rfl⟩ := pure_succeeds.mp done
  exact rest

theorem ite {c : Prop} [Decidable c] {first second : Action σ α} (yes : c → first.StopsWith s P)
    (no : ¬ c → second.StopsWith s P) : (if c then first else second).StopsWith s P := by
  split
  · exact yes ‹_›
  · exact no ‹_›

/-- What is done after both branches is done after the choice. -/
theorem ite_bind {c : Prop} [Decidable c] {first second : Action σ α}
    (stops : ((if c then first else second) >>= next).StopsWith s P) :
    (if c then first >>= next else second >>= next).StopsWith s P := by
  by_cases yes : c
  · rwa [if_pos yes] at stops ⊢
  · rwa [if_neg yes] at stops ⊢

theorem within {place : Place} (fails : ∀ {cause t}, work.outcome s = (.error (.failure cause), t) →
      P (.failure (.within place cause)) t) (faults : ∀ {cause t}, work.outcome s = (.error (.fault cause), t) →
      P (.fault cause) t) : (work.within place).StopsWith s P := by
  intro why t ends
  rw [outcome_within] at ends
  split at ends
  · simp at ends
  · rename_i cause t' stopped
    obtain ⟨rfl, rfl⟩ : Stop.failure (.within place cause) = why ∧ t' = t := by simpa using ends
    exact fails stopped
  · rename_i cause t' stopped
    obtain ⟨rfl, rfl⟩ : Stop.fault cause = why ∧ t' = t := by simpa using ends
    exact faults stopped

theorem on {view : τ → σ} {put : τ → σ → τ} {t : τ} {P : Stop → τ → Prop}
    (stops : work.StopsWith (view t) fun why s => P why (put t s)) : (work.on view put).StopsWith t P := by
  intro why t' ends
  have ends : ((work.outcome (view t)).1, put t (work.outcome (view t)).2) = (.error why, t') := ends
  obtain ⟨stopped, rfl⟩ := Prod.mk.inj ends
  exact stops (Prod.ext stopped rfl)

/-- If the work on each element keeps `I`, the work on all of them only stops as that on one of them. -/
theorem foldlM {I : σ → Prop} {act : α → Action σ Bool} {as : List α} {before : Bool} (start : I s)
    (step : ∀ a ∈ as, ∀ {s changed s'}, I s → (act a).Succeeds s changed s' → I s')
    (stops : ∀ a ∈ as, ∀ {s}, I s → (act a).StopsWith s P) :
    (as.foldlM (fun changed a => return (← act a) || changed) before).StopsWith s P := by
  induction as generalizing s before with
  | nil => exact pure
  | cons a as ih =>
    rw [List.foldlM_cons]
    refine bind (bind (stops a List.mem_cons_self start) fun _ => pure) fun {now t} done => ?_
    obtain ⟨now, t', first, done⟩ := bind_succeeds.mp done
    obtain ⟨_, rfl⟩ := pure_succeeds.mp done
    exact ih (step a List.mem_cons_self start first) (fun b later => step b (List.mem_cons_of_mem _ later))
      fun b later => stops b (List.mem_cons_of_mem _ later)

theorem forM {act : α → Action σ PUnit} {as : List α} (each : ∀ a ∈ as, ∀ s, (act a).StopsWith s P) :
    (as.forM act).StopsWith s P := by
  induction as generalizing s with
  | nil => exact pure
  | cons a as ih => exact bind (each a List.mem_cons_self s) fun _ => ih fun b later => each b (List.mem_cons_of_mem _ later)

end StopsWith

/-! ### What work leaves -/

/-- However the work ends on `s`, what it leaves satisfies `P`. -/
def Leaves (work : Action σ α) (s : σ) (P : σ → Prop) : Prop :=
  P (work.outcome s).2

namespace Leaves

variable {P Q : σ → Prop} {work : Action σ α} {next : α → Action σ β}

theorem mono (leaves : work.Leaves s P) (implies : ∀ {t}, P t → Q t) : work.Leaves s Q :=
  implies leaves

theorem of_succeeds {a : α} (leaves : work.Leaves s P) (done : work.Succeeds s a s') : P s' := by
  rwa [Leaves, show work.outcome s = _ from done] at leaves

theorem of_stops {why : Stop} (leaves : work.Leaves s P) (stopped : work.outcome s = (.error why, s')) : P s' := by
  rwa [Leaves, stopped] at leaves

/-- What holds of successful work and of work that stops. -/
theorem of_ends (ends : ∀ {a t}, work.Succeeds s a t → P t) (stops : work.StopsWith s fun _ t => P t) : work.Leaves s P := by
  rw [Leaves]
  cases ended : work.outcome s with
  | mk result t =>
    cases result with
    | ok a => exact ends ended
    | error why => exact stops ended

theorem pure {a : α} (holds : P s) : (Pure.pure a : Action σ α).Leaves s P :=
  holds

theorem bind (leaves : work.Leaves s P) (rest : ∀ {a t}, work.Succeeds s a t → P t → (next a).Leaves t P) :
    (work >>= next).Leaves s P := by
  rw [Leaves, outcome_bind]
  cases ends : work.outcome s with
  | mk result t =>
    rw [Leaves, ends] at leaves
    cases result with
    | ok a => exact rest ends leaves
    | error why => exact leaves

theorem get {next : σ → Action σ β} (rest : (next s).Leaves s P) : (MonadState.get >>= next).Leaves s P :=
  rest

theorem modify {change : σ → σ} (holds : P (change s)) : (modify change : Action σ PUnit).Leaves s P :=
  holds

theorem need {value : Option α} (holds : P s) (rest : ∀ {a}, value = some a → (next a).Leaves s P) :
    (Action.need value >>= next).Leaves s P := by
  cases value with
  | none => exact holds
  | some a => exact rest rfl

end Leaves

end Action

end MiddleEnd
