import MiddleEnd.Proofs.Optimizing.Outcomes
import MiddleEnd.Proofs.Optimizing.Lowering
import MiddleEnd.Proofs.Optimizing.Sweeps

/-!
The optimizer comes to its end on its own. A turn of its loop that asks for another one took some of the effort
(`Optimizer.turn_lowers`), so that as many sweeps as there is effort are enough; with more of them allowed, the run is the
same (`Optimizer.process_settles`).
-/
namespace MiddleEnd

namespace Optimizer

open MiddleEnd.Action (Spares)

variable {S : List VertexId} {rules : List Rule} {sigs : Signatures} {v : VertexId} {s s' : Optimizing} {changed : Bool}

theorem applyRules_lowers (lowers : ∀ r ∈ rules, r.Lowers) (fit : Graph.Fit S s.graph) (known : v ∈ S)
    (done : (applyRules v rules).Succeeds s changed s') : Graph.Lowered S s.graph s'.graph changed.toNat := by
  induction rules generalizing s changed with
  | nil =>
    obtain ⟨rfl, rfl⟩ := Action.pure_succeeds.mp done
    exact .refl fit
  | cons r rules ih =>
    rcases applyRules_cons_succeeds done with ⟨_, rfl, rfl⟩ | ⟨owned, first, more, t, applied, rest, rfl⟩
    · exact .refl fit
    · have lowered := lowers r List.mem_cons_self fit (fit.listed v known owned) applied
      have later := ih (fun r member => lowers r (List.mem_cons_of_mem _ member)) lowered.fit rest
      refine (lowered.trans later).mono ?_
      cases first <;> cases more <;> decide

theorem sweep_lowers (lowers : ∀ r ∈ rules, r.Lowers) (done : (sweep rules).Succeeds s changed s')
    (fit : Graph.Fit s.graph.listed s.graph) : Graph.Lowered s.graph.listed s.graph s'.graph changed.toNat := by
  rw [sweep, Action.get_bind_succeeds] at done
  have step : ∀ v ∈ s.graph.listed, ∀ {t changed t'}, Graph.Fit s.graph.listed t.graph →
      (applyRules v rules).Succeeds t changed t' →
      Graph.Fit s.graph.listed t'.graph ∧ t'.graph.effort + changed.toNat ≤ t.graph.effort := by
    intro v member t changed t' fit done
    have lowered := applyRules_lowers lowers fit member done
    exact ⟨lowered.fit, lowered.effort⟩
  obtain ⟨fit', lower⟩ := Action.foldlM_lowers (P := fun t => Graph.Fit s.graph.listed t.graph)
    (μ := fun t => t.graph.effort) fit step done
  exact ⟨fit', by simpa using lower⟩

/-- A turn that asks for another one took some of the effort. -/
theorem turn_lowers (lowers : ∀ r ∈ rules, r.Lowers) (fit : Graph.Fit s.graph.listed s.graph)
    (done : (turn rules).Succeeds s changed s') : Graph.Lowered s'.graph.listed s.graph s'.graph changed.toNat := by
  obtain ⟨r, swept, t, same, sweeps, went⟩ := turn_succeeds done
  have lowered := sweep_lowers lowers sweeps (same ▸ fit)
  rw [same] at lowered
  rcases went with ⟨rfl, rfl, ended⟩ | ⟨rfl, c, c', started, runs, ended⟩
  · rw [ended]
    exact ⟨lowered.fit.restart, lowered.effort⟩
  · have eliminates := PhiElimination.run_lowers (started ▸ lowered.fit) runs
    rw [ended]
    refine ⟨eliminates.fit.restart, ?_⟩
    have := lowered.effort
    have := eliminates.effort
    rw [started] at this
    omega

theorem spares_applyRules (spares : ∀ r ∈ rules, ∀ v, Spares (r.apply v)) : Spares (applyRules v rules) := by
  induction rules with
  | nil => exact fun _ => .pure
  | cons r rules ih =>
    have later := ih fun r member => spares r (List.mem_cons_of_mem _ member)
    have applied (s : Optimizing) : (onGraph (r.apply v)).StopsWith s fun why _ => why.Spared :=
      .on (spares r List.mem_cons_self v s.graph)
    refine fun s => .get (.ite (fun _ => .pure) fun _ => .bind (.within (fun stopped => ?_) (applied s ·)) fun _ => ?_)
    · exact (applied s stopped).within
    · exact .ite (fun _ => .modify_bind (.bind (later _) fun _ => .pure)) fun _ => .bind (later _) fun _ => .pure

theorem spares_turn (spares : ∀ r ∈ rules, ∀ v, Spares (r.apply v)) : Spares (turn rules) := by
  have sweeps : Spares (sweep rules) := fun s =>
    .get (.foldlM (I := fun _ => True) trivial (fun _ _ _ _ _ _ _ => trivial) fun _ _ t _ => spares_applyRules spares t)
  refine fun s => .modify_bind (.bind (sweeps _) fun _ => .modify_bind (.ite (fun _ => .pure) fun _ => ?_))
  exact .bind (.on (PhiElimination.spares_run _)) fun _ => .ite (fun _ => .modify_bind .pure) fun _ => .pure

/-! ### The loop -/

theorem outcome_loop (limit : Nat) {remaining : Nat} (some : remaining ≠ 0) :
    (loop rules limit remaining).outcome s = match (turn rules).outcome s with
      | (.ok true, t) => (loop rules limit (remaining - 1)).outcome t
      | (.ok false, t) => (.ok (), t)
      | (.error why, t) => (.error why, t) := by
  obtain ⟨rest, rfl⟩ := Nat.exists_eq_add_one_of_ne_zero some
  rw [loop_succ, Action.outcome_bind]
  rcases (turn rules).outcome s with ⟨why | goesOn, t⟩
  · rfl
  · cases goesOn <;> rfl

/-- However many sweeps are allowed beyond the effort, and whatever the ceiling that would be reported, the loop ends the
same. -/
theorem loop_settles (lowers : ∀ r ∈ rules, r.Lowers) (spares : ∀ r ∈ rules, ∀ v, Spares (r.apply v)) {bound : Nat}
    (fit : Graph.Fit s.graph.listed s.graph) (enough : s.graph.effort ≤ bound) :
    ∃ ending, (∀ limit remaining, bound < remaining → (loop rules limit remaining).outcome s = ending) ∧
      ∀ cause, ending.1 = .error (.failure cause) → cause.kind ≠ .noFixpoint := by
  induction bound using Nat.strongRecOn generalizing s with
  | ind bound ih =>
    rcases ended : (turn rules).outcome s with ⟨why | goesOn, t⟩
    · refine ⟨(.error why, t), fun limit remaining more => ?_, fun cause isCause => ?_⟩
      · rw [outcome_loop limit (Nat.ne_zero_of_lt more), ended]
      · obtain rfl : why = .failure cause := by simpa using isCause
        exact spares_turn spares s ended cause rfl
    · cases goesOn with
      | false =>
        refine ⟨(.ok (), t), fun limit remaining more => ?_, by simp⟩
        rw [outcome_loop limit (Nat.ne_zero_of_lt more), ended]
      | true =>
        have lowered := turn_lowers lowers fit ended
        have less : t.graph.effort + 1 ≤ s.graph.effort := lowered.effort
        obtain ⟨ending, ends, spared⟩ := ih t.graph.effort (by omega) lowered.fit (Nat.le_refl _)
        refine ⟨ending, fun limit remaining more => ?_, spared⟩
        rw [outcome_loop limit (Nat.ne_zero_of_lt more), ended]
        exact ends limit (remaining - 1) (by omega)

/-- A run ends as its loop does, with the phis counted that were eliminated since its start. -/
theorem outcome_process (maxSweeps : Int) : (process rules maxSweeps).outcome s =
    let (result, t) := (loop rules (sweepLimit maxSweeps) (sweepLimit maxSweeps)).outcome s
    (result, { t with stats := { t.stats with phisResolved := t.resolved - s.resolved } }) :=
  rfl

/-- From some ceiling on, a run of the optimizer ends the same whatever the ceiling, and never for want of sweeps. -/
theorem process_settles (inScope : s.graph.Scoped) (declared : s.graph.sig.result.kind ≠ .unknown)
    (resolved : ∀ callee sig, sigs.lookup callee = some sig → sig.result.kind ≠ .unknown) :
    ∃ (sweeps : Nat) (ending : Except Stop Unit × Optimizing),
      (∀ maxSweeps : Int, sweeps ≤ maxSweeps → (process (Rule.all sigs) maxSweeps).outcome s = ending) ∧
      ∀ cause, ending.1 = .error (.failure cause) → cause.kind ≠ .noFixpoint := by
  have fit : Graph.Fit s.graph.listed s.graph := ⟨inScope, fun _ member _ => member, declared⟩
  obtain ⟨⟨result, t⟩, ends, spared⟩ := loop_settles (fun _ => Rule.lowers_of_mem resolved)
    (fun _ member _ _ => (Rule.stops_of_mem member).mono (·.spared)) fit (Nat.le_refl _)
  refine ⟨s.graph.effort + 1, (result, { t with stats := { t.stats with phisResolved := t.resolved - s.resolved } }),
    fun maxSweeps enough => ?_, spared⟩
  have limit : s.graph.effort < sweepLimit maxSweeps := by
    rw [sweepLimit, if_neg (by omega)]
    omega
  rw [outcome_process, ends _ _ limit]

/-- Prints the sum of two numbers and returns it. -/
def printing : Graph where
  name := "printing"
  sig := ⟨[], .long⟩
  entry := 0
  exit := 1
  store := #[
    { op := .function, succs := [2], owned := true },
    { op := .finish, preds := [4], owned := true },
    { op := .binary, binOp := .plus, result := some 2, args := [some 0, some 1], succs := [3], preds := [0], owned := true },
    { op := .call, callee := "print", result := some 3, args := [some 2], succs := [4], preds := [2], owned := true },
    { op := .ret, args := [some 2], succs := [1], preds := [3], owned := true }]
  listed := [0, 1, 2, 3, 4]
  vars := #[{ type := some .long, value := some (.long 1) }, { type := some .long, value := some (.long 2) },
    { name := "sum" }, {}]
  epoch := 0
  reach := none

theorem printing_settles :
    printing.verify = none ∧ ∃ (sweeps : Nat) (ending : Except Stop Unit × Optimizing),
      (∀ maxSweeps : Int, sweeps ≤ maxSweeps →
        (process (Rule.all [("print", ⟨[some .long], .void⟩)]) maxSweeps).outcome { graph := printing } = ending) ∧
      ∀ cause, ending.1 = .error (.failure cause) → cause.kind ≠ .noFixpoint := by
  refine ⟨by decide +kernel, process_settles (by decide) (by decide) fun callee sig found => ?_⟩
  simp only [List.lookup] at found
  split at found
  · obtain rfl := Option.some.inj found
    decide
  · simp at found

end Optimizer

end MiddleEnd
