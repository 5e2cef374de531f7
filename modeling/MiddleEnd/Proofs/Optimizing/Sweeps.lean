import MiddleEnd.Optimizer
import MiddleEnd.Proofs.Optimizing.Rules
import MiddleEnd.Proofs.PhiCycles

/-!
Runs of the optimizer. Every step leaves a graph that behaves as before (`process_succeeds`). Phis are eliminated only
after a sweep that changed nothing; then every rule declined at every vertex, so that nothing is left to prune and no
jump is left to decide, and the elimination of phis keeps it so.
-/
namespace MiddleEnd

namespace Optimizer

open MiddleEnd.Graph

variable {α : Type} {src : VarId → VarId} {v : VertexId} {rules : List Rule} {sigs : Signatures} {s s' : Optimizing}
  {changed : Bool}

theorem onGraph_succeeds {work : Action Graph α} {a : α} (done : (onGraph work).Succeeds s a s') :
    work.Succeeds s.graph a s'.graph := by
  obtain ⟨g, worked, rfl⟩ := Action.on_succeeds.mp done
  exact worked

/-- The rules are applied one after the other as long as the vertex is in the graph. -/
theorem applyRules_cons_succeeds {r : Rule} (done : (applyRules v (r :: rules)).Succeeds s changed s') :
    (s.graph.contains v = false ∧ changed = false ∧ s' = s) ∨
      (s.graph.contains v = true ∧ ∃ first more t, (r.apply v).Succeeds s.graph first t.graph ∧
        (applyRules v rules).Succeeds t more s' ∧ changed = (first || more)) := by
  rw [applyRules, Action.get_bind_succeeds] at done
  cases contains : s.graph.contains v with
  | false =>
    simp only [contains] at done
    obtain ⟨rfl, rfl⟩ := Action.pure_succeeds.mp done
    exact .inl ⟨rfl, rfl, rfl⟩
  | true =>
    simp only [contains] at done
    obtain ⟨first, t, applied, done⟩ := Action.bind_succeeds.mp done
    have applied := onGraph_succeeds (Action.within_succeeds.mp applied)
    have rest {t' : Optimizing}
        (done : (do let more ← applyRules v rules; return first || more : Action Optimizing Bool).Succeeds t' changed s')
        (same : t'.graph = t.graph) :
        ∃ first more t, (r.apply v).Succeeds s.graph first t.graph ∧ (applyRules v rules).Succeeds t more s' ∧
          changed = (first || more) := by
      obtain ⟨more, _, more_done, done⟩ := Action.bind_succeeds.mp done
      obtain ⟨rfl, rfl⟩ := Action.pure_succeeds.mp done
      exact ⟨first, more, t', same ▸ applied, more_done, rfl⟩
    refine .inr ⟨rfl, ?_⟩
    split at done
    · rw [Action.modify_bind_succeeds] at done
      exact rest done rfl
    · exact rest done rfl

/-- Rules that rewrite keep what the optimizer relies on, and if they say no, each of them declined. -/
theorem applyRules_succeeds (rewrites : ∀ r ∈ rules, r.Rewrites) (sweepable : Sweepable src s.graph)
    (alive : s.graph.contains v = true → s.graph.Alive v) (done : (applyRules v rules).Succeeds s changed s') :
    Improved src v s.graph s'.graph ∧ (changed = false → s'.graph = s.graph ∧
      (s.graph.contains v = true → ∀ r ∈ rules, (r.apply v).Succeeds s.graph false s.graph)) := by
  induction rules generalizing s changed with
  | nil =>
    obtain ⟨rfl, rfl⟩ := Action.pure_succeeds.mp done
    exact ⟨⟨sweepable, fun _ _ => .refl _, alive⟩, fun _ => ⟨rfl, by simp⟩⟩
  | cons r rules ih =>
    rcases applyRules_cons_succeeds done with ⟨absent, rfl, rfl⟩ | ⟨owned, first, more, t, applied, rest, rfl⟩
    · exact ⟨⟨sweepable, fun _ _ => .refl _, alive⟩, fun _ => ⟨rfl, by simp [absent]⟩⟩
    · obtain ⟨rewritten, same⟩ := rewrites r List.mem_cons_self sweepable.optimizable.toRouted owned (alive owned) applied
      have improved := rewritten.improved sweepable owned (alive owned)
      obtain ⟨later, declined⟩ := ih (fun r member => rewrites r (List.mem_cons_of_mem _ member)) improved.sweepable
        improved.alive rest
      refine ⟨improved.trans later, fun neither => ?_⟩
      obtain ⟨rfl, rfl⟩ := Bool.or_eq_false_iff.mp neither
      obtain ⟨unchanged, others⟩ := declined rfl
      have same := same rfl
      rw [same] at unchanged others applied
      exact ⟨unchanged, fun _ => List.forall_mem_cons.mpr ⟨applied, others owned⟩⟩

/-- A graph that is fit for the optimizer and behaves as `g`. -/
structure Preserves (src : VarId → VarId) (g h : Graph) : Prop where
  sweepable : Sweepable src h
  runs : ∀ {V : Type} (m : Meaning V) (arguments : Nat → V), SameRuns m arguments g h

theorem Preserves.trans {g h k : Graph} (first : Preserves src g h) (second : Preserves src h k) : Preserves src g k :=
  ⟨second.sweepable, fun m arguments => (first.runs m arguments).trans (second.runs m arguments)⟩

/-- What pruning at a vertex keeps; a vertex that is still there is not to be pruned. -/
theorem prune_improves {g h : Graph} (sweepable : Sweepable src g) (owned : g.contains v = true)
    (done : (Rule.pruneUnreachable v).Succeeds g changed h) :
    Improved src v g h ∧ (changed = false → g.Alive v ∧ ∃ found, h = { g with reach := found }) := by
  obtain ⟨inv, phase⟩ := sweepable
  obtain ⟨found, cached, ⟨rfl, rfl, alive⟩ | ⟨rfl, pruned⟩⟩ := Rule.prunes inv.toRouted owned done
  · refine ⟨⟨⟨inv.noted cached, phase.imp OneWriter.noted Trimmed.noted⟩, fun _ _ => sameRuns_noted, fun _ => alive⟩, fun _ => ?_⟩
    exact ⟨alive, found, rfl⟩
  · have once : g.OneWriter := by
      refine phase.resolve_right fun trimmed => ?_
      exact (trimmed.reachable owned).elim pruned.notExit pruned.unreachable
    have inv' := inv.noted cached
    have narrowed := pruned.narrowed inv' once.noted
    exact ⟨⟨⟨narrowed.optimizable inv', .inl (narrowed.oneWriter inv' once.noted)⟩,
      fun _ _ => sameRuns_noted.trans (pruned.sameRuns inv' once.noted),
      fun contains => absurd rfl (pruned.ne_of_contains contains)⟩, by simp⟩

/-- All rules at a vertex. If they say no, the vertex is neither to be pruned nor a jump to be decided. -/
theorem applyRules_all_succeeds (sweepable : Sweepable src s.graph)
    (done : (applyRules v (Rule.all sigs)).Succeeds s changed s') :
    Preserves src s.graph s'.graph ∧ (changed = false → (∃ found, s'.graph = { s.graph with reach := found }) ∧
      (s.graph.contains v = true → s.graph.Alive v ∧ ¬ s.graph.Decided v)) := by
  rcases applyRules_cons_succeeds done with ⟨absent, rfl, rfl⟩ | ⟨owned, first, more, t, pruned, rest, rfl⟩
  · exact ⟨⟨sweepable, fun _ _ => .refl _⟩, fun _ => ⟨⟨_, rfl⟩, by simp [absent]⟩⟩
  · obtain ⟨improved, noted⟩ := prune_improves sweepable owned pruned
    obtain ⟨later, declined⟩ :=
      applyRules_succeeds (fun r member => Rule.rewrites_of_mem member) improved.sweepable improved.alive rest
    have whole := improved.trans later
    refine ⟨⟨whole.sweepable, whole.runs⟩, fun neither => ?_⟩
    obtain ⟨rfl, rfl⟩ := Bool.or_eq_false_iff.mp neither
    obtain ⟨alive, found, same⟩ := noted rfl
    obtain ⟨unchanged, others⟩ := declined rfl
    refine ⟨⟨found, unchanged.trans same⟩, fun _ => ⟨alive, ?_⟩⟩
    have owned' : t.graph.contains v = true := by rwa [same]
    have folds := others owned' ⟨"constbranch", Rule.foldBranch⟩ (by simp [Rule.all])
    rcases Rule.foldBranch_succeeds folds with ⟨_, _, undecided⟩ | ⟨yes, _⟩
    · rwa [same] at undecided
    · simp at yes

theorem sweep_succeeds (done : (sweep (Rule.all sigs)).Succeeds s changed s') (sweepable : Sweepable src s.graph) :
    Preserves src s.graph s'.graph ∧ (changed = false → s'.graph.Trimmed) := by
  rw [sweep, Action.get_bind_succeeds] at done
  constructor
  · refine Action.foldlM_invariant (P := fun t => Preserves src s.graph t.graph) ⟨sweepable, fun _ _ => .refl _⟩ ?_ done
    intro v _ t changed t' before applied
    exact before.trans (applyRules_all_succeeds before.sweepable applied).1
  · rintro rfl
    have declined := Action.foldlM_declines
      (P := fun t => Sweepable src t.graph ∧ ∃ found, t.graph = { s.graph with reach := found })
      (Q := fun v => s.graph.contains v = true → s.graph.Alive v ∧ ¬ s.graph.Decided v) ⟨sweepable, _, rfl⟩ ?_ done
    · obtain ⟨⟨_, found, same⟩, settled⟩ := declined
      rw [same]
      have settled {v : VertexId} (owned : s.graph.contains v = true) :=
        settled v (sweepable.optimizable.owned owned) owned
      exact ⟨fun owned => (settled owned).1, fun owned => (settled owned).2⟩
    · rintro v _ t t' ⟨fit, found, same⟩ applied
      obtain ⟨preserves, declined⟩ := applyRules_all_succeeds fit applied
      obtain ⟨⟨found', same'⟩, settled⟩ := declined rfl
      rw [same] at same' settled
      exact ⟨⟨preserves.sweepable, found', same'⟩, settled⟩

/-! ### Phis that go -/

/-- Where nothing is left to prune, taking out a phi keeps it so. -/
theorem eliminate_preserves {g h : Graph} {phi : VertexId} (inv : Optimizable src g) (trimmed : g.Trimmed)
    (done : (PhiElimination.eliminate phi).Succeeds g changed h) : Preserves src g h ∧ h.Trimmed := by
  rcases PhiElimination.eliminate_succeeds done with ⟨_, rfl⟩ | ⟨_, eliminated⟩
  · exact ⟨⟨⟨inv, .inr trimmed⟩, fun _ _ => .refl _⟩, trimmed⟩
  have idempotent : (g.op phi).info.idempotent = true := by simp [eliminated.isPhi, Op.info]
  have reached := (trimmed.reachable eliminated.contains).resolve_left (inv.toRouted.ne_exit idempotent)
  obtain ⟨s, only, other⟩ := inv.toRouted.exists_next reached idempotent
  obtain ⟨r, result⟩ := inv.phiResult reached eliminated.isPhi
  obtain ⟨ρ, coalesced⟩ := coalesced_of_eliminated inv.wired (inv.listed reached) only other
    (inv.coherent.inputs reached eliminated.isPhi) result eliminated
  have trimmed := coalesced.trimmed inv trimmed
  exact ⟨⟨⟨coalesced.optimizable inv, .inr trimmed⟩, fun m arguments => coalesced.sameRuns inv⟩, trimmed⟩

theorem run_preserves {c c' : Coalescing} (inv : Optimizable src c.graph) (trimmed : c.graph.Trimmed)
    (done : PhiElimination.run.Succeeds c changed c') : Preserves src c.graph c'.graph := by
  obtain ⟨progress, typed, t, resolved, cycles, _⟩ := PhiElimination.run_succeeds done
  have eliminated : Preserves src c.graph t.graph ∧ t.graph.Trimmed := by
    refine Action.foldlM_invariant (P := fun t => Preserves src c.graph t.graph ∧ t.graph.Trimmed)
      ⟨⟨⟨inv, .inr trimmed⟩, fun _ _ => .refl _⟩, trimmed⟩ ?_ resolved
    rintro phi _ t changed t' ⟨before, trimmed⟩ done
    obtain ⟨after, trimmed⟩ := eliminate_preserves before.sweepable.optimizable trimmed (PhiElimination.resolve_succeeds done)
    exact ⟨before.trans after, trimmed⟩
  have retyped := (PhiElimination.typeCycles_refined cycles).retyped
  refine eliminated.1.trans ⟨⟨retyped.optimizable eliminated.1.sweepable.optimizable, .inr (retyped.trimmed eliminated.2)⟩, ?_⟩
  exact fun _ _ => retyped.sameRuns

/-! ### The loop -/

/-- What the loop does once; says whether it goes on. -/
def turn (rules : List Rule) : Action Optimizing Bool := do
  modify fun s => { s with stats := { s.stats with sweeps := s.stats.sweeps + 1 } }
  let changed ← sweep rules
  modify fun s => { s with log := s.log ++ [sweepEntry s.graph.name s.stats.sweeps changed] }
  if changed then return true
  let progress ← PhiElimination.run.on (fun s => ⟨s.graph, s.resolved⟩)
    fun s c => { s with graph := c.graph, resolved := c.resolved }
  if progress then
    modify fun s => { s with stats := { s.stats with phiRounds := s.stats.phiRounds + 1 } }
  return progress

theorem loop_succ (limit remaining : Nat) :
    loop rules limit (remaining + 1) = (do if ← turn rules then loop rules limit remaining) := by
  simp only [loop, turn, bind_assoc]
  refine bind_congr fun _ => bind_congr fun changed => bind_congr fun _ => ?_
  cases changed with
  | true => simp
  | false =>
    simp only [Bool.false_eq_true, ↓reduceIte, bind_assoc]
    refine bind_congr fun progress => ?_
    cases progress with
    | true => simp
    | false => simp

/-- A turn sweeps, and if that changed nothing, eliminates phis. -/
theorem turn_succeeds {goesOn : Bool} (done : (turn rules).Succeeds s goesOn s') :
    ∃ r swept t, r.graph = s.graph ∧ (sweep rules).Succeeds r swept t ∧
      ((swept = true ∧ goesOn = true ∧ s'.graph = t.graph) ∨
        (swept = false ∧ ∃ c c' : Coalescing, c.graph = t.graph ∧ PhiElimination.run.Succeeds c goesOn c' ∧
          s'.graph = c'.graph)) := by
  rw [turn, Action.modify_bind_succeeds] at done
  obtain ⟨swept, t, sweeps, done⟩ := Action.bind_succeeds.mp done
  refine ⟨_, swept, t, ?_, sweeps, ?_⟩
  · rfl
  rw [Action.modify_bind_succeeds] at done
  split at done
  · rename_i isSwept
    obtain ⟨rfl, rfl⟩ := Action.pure_succeeds.mp done
    exact .inl ⟨isSwept, rfl, rfl⟩
  · rename_i unchanged
    obtain ⟨progress, t', eliminated, done⟩ := Action.bind_succeeds.mp done
    obtain ⟨c, runs, rfl⟩ := Action.on_succeeds.mp eliminated
    refine .inr ⟨by simpa using unchanged, ⟨t.graph, t.resolved⟩, c, rfl, ?_⟩
    split at done
    · rw [Action.modify_bind_succeeds] at done
      obtain ⟨rfl, rfl⟩ := Action.pure_succeeds.mp done
      exact ⟨runs, rfl⟩
    · obtain ⟨rfl, rfl⟩ := Action.pure_succeeds.mp done
      exact ⟨runs, rfl⟩

/-- What every turn keeps true of the state holds when the loop is over. The turn before that did not ask for another. -/
theorem loop_induct {P : Optimizing → Prop} {limit remaining : Nat} (done : (loop rules limit remaining).Succeeds s () s')
    (start : P s) (step : ∀ t goesOn t', P t → (turn rules).Succeeds t goesOn t' → P t') :
    P s' ∧ ∃ t, (turn rules).Succeeds t false s' := by
  induction remaining generalizing s with
  | zero =>
    rw [loop, Action.get_bind_succeeds] at done
    exact absurd done Action.not_fail_succeeds
  | succ remaining ih =>
    rw [loop_succ] at done
    obtain ⟨goesOn, t, turned, done⟩ := Action.bind_succeeds.mp done
    have kept := step s goesOn t start turned
    cases goesOn with
    | true => exact ih done kept
    | false =>
      obtain ⟨_, rfl⟩ := Action.pure_succeeds.mp done
      exact ⟨kept, s, turned⟩

/-- What every turn keeps true of the graph holds at the end of a run, which is where a turn did not ask for another. -/
theorem process_induct {P : Graph → Prop} {maxSweeps : Int} (done : (process rules maxSweeps).Succeeds s () s')
    (start : P s.graph) (step : ∀ t goesOn t', P t.graph → (turn rules).Succeeds t goesOn t' → P t'.graph) :
    P s'.graph ∧ ∃ t t', (turn rules).Succeeds t false t' ∧ t'.graph = s'.graph := by
  have done : (((loop rules (sweepLimit maxSweeps) (sweepLimit maxSweeps)).outcome s).1, _) = (Except.ok (), s') := done
  obtain ⟨ok, rfl⟩ := Prod.mk.inj done
  obtain ⟨kept, t, turned⟩ := loop_induct (P := fun t => P t.graph) (Prod.ext ok rfl) start step
  exact ⟨kept, t, _, turned, rfl⟩

theorem turn_preserves {goesOn : Bool} (done : (turn (Rule.all sigs)).Succeeds s goesOn s')
    (sweepable : Sweepable src s.graph) : Preserves src s.graph s'.graph := by
  obtain ⟨r, swept, t, same, sweeps, went⟩ := turn_succeeds done
  obtain ⟨preserves, trimmed⟩ := sweep_succeeds sweeps (same ▸ sweepable)
  rw [same] at preserves
  rcases went with ⟨_, _, ended⟩ | ⟨unchanged, c, c', started, runs, ended⟩
  · exact ended ▸ preserves
  · have run := run_preserves (started ▸ preserves.sweepable.optimizable) (started ▸ trimmed unchanged) runs
    rw [started, ← ended] at run
    exact preserves.trans run

/-- A whole run leaves a graph that behaves as before. -/
theorem process_succeeds {maxSweeps : Int} (sweepable : Sweepable src s.graph)
    (done : (process (Rule.all sigs) maxSweeps).Succeeds s () s') : Preserves src s.graph s'.graph := by
  refine (process_induct (P := Preserves src s.graph) done ⟨sweepable, fun _ _ => .refl _⟩ ?_).1
  intro t goesOn t' preserves turned
  exact preserves.trans (turn_preserves turned preserves.sweepable)

end Optimizer

end MiddleEnd
