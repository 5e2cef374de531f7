import MiddleEnd.Proofs.Optimizing.Upkeep

/-!
When the optimizer finds a graph corrupt. On an intact graph no rule does: what it takes out can be taken out, and an operation
that it types as unary is unary. A rule that stops leaves all vertices as they are. The elimination of phis goes through too;
only then, when cycles are typed, two phis may be found to have the same result (`Graph.Clash`), and that is the one reason
there is (`Optimizer.stops_process`).
-/
namespace MiddleEnd

namespace Graph

variable {g h k : Graph} {u v : VertexId}

/-- Two phis with the same result. -/
structure Clash (g : Graph) (u v : VertexId) : Prop where
  first : u ∈ g.listed
  second : v ∈ g.listed
  other : u ≠ v
  firstPhi : g.op u = .phi
  secondPhi : g.op v = .phi
  result : (g.vertex u).result = (g.vertex v).result

theorem PhisApart.noClash (apart : g.PhisApart) (intact : g.Intact) : ¬ g.Clash u v := by
  rintro ⟨first, second, other, firstPhi, secondPhi, result⟩
  exact other (apart (intact.contained u first) (intact.contained v second) firstPhi secondPhi result)

theorem Clash.of_same (same : g.SameVertices h) (clash : h.Clash u v) : g.Clash u v := by
  obtain ⟨first, second, other, firstPhi, secondPhi, result⟩ := clash
  rw [same.listed] at first second
  rw [Graph.op, same.vertex] at firstPhi secondPhi
  rw [same.vertex, same.vertex] at result
  exact ⟨first, second, other, firstPhi, secondPhi, result⟩

/-- What is reported of two phis with the same result. -/
def clashFailure (g : Graph) (u v : VertexId) : Failure :=
  .corrupt g.name (.phisShareResult (g.varTextOf (g.vertex u).result) u v) []

/-- A vertex without effects that can be reached can be taken out. -/
theorem Intact.removeObstacle (intact : g.Intact) (alive : g.Alive v) (idempotent : (g.op v).info.idempotent = true)
    (retyped : g.Retyped k) : k.removeObstacle v = none := by
  have reached := alive.resolve_left (intact.ne_exit idempotent)
  obtain ⟨s, only, _⟩ := intact.exists_next reached idempotent
  rw [Graph.removeObstacle, retyped.entry, retyped.exit, retyped.succs, only,
    if_neg (not_or.mpr ⟨intact.ne_entry idempotent, intact.ne_exit idempotent⟩), if_neg (by simp)]

end Graph

open MiddleEnd.Graph

namespace Stop

variable {nested : Prop} {g h k : Graph} {why : Stop} {place : Place} {cause : Failure}

/-- The work stopped with the vertices as they were, and not because it found the graph corrupt. -/
structure Harmless (g : Graph) (why : Stop) (h : Graph) : Prop where
  same : g.SameVertices h
  kind : ∀ cause, why = .failure cause → cause.kind ≠ .corrupt

theorem Harmless.within (harmless : Harmless g (.failure cause) h) : Harmless g (.failure (.within place cause)) h := by
  refine ⟨harmless.same, ?_⟩
  rintro _ ⟨⟩
  exact harmless.kind cause rfl

/-- Where a vertex of an intact graph is not to be pruned, rules stop harmlessly. -/
theorem harmless_of_stopped {v : VertexId} (stopped : Rule.Stopped g v why h) (intact : g.Intact) (alive : g.Alive v) :
    Harmless g why h := by
  refine ⟨stopped.same, ?_⟩
  rcases stopped.reason with refusal | ⟨idempotent, retyped, _, found, _⟩
  · exact refusal.notCorrupt
  · simp [intact.removeObstacle alive idempotent retyped] at found

/-- The work stopped because two phis have the same result, which they can only get if phis may be `nested`, or for another
reason, and no two do. -/
def Explained (nested : Prop) (why : Stop) (h : Graph) : Prop :=
  (nested ∧ ∃ u v, h.Clash u v ∧ why = .failure (h.clashFailure u v)) ∨
    (∀ u v, ¬ h.Clash u v) ∧ ∀ cause, why = .failure cause → cause.kind ≠ .corrupt

theorem Harmless.explained (harmless : Harmless g why h) (noClash : ∀ u v, ¬ g.Clash u v) : Explained nested why h :=
  .inr ⟨fun u v clash => noClash u v (clash.of_same harmless.same), harmless.kind⟩

end Stop

open MiddleEnd.Stop

/-! ### Phis -/

namespace PhiElimination

variable {nested : Prop} {g : Graph} {phi : VertexId}

/-- Where nothing is left to prune, phis can be taken out. -/
theorem not_blocked {why : Stop} (intact : g.Intact) (swept : g.Swept) (isPhi : g.op phi = .phi)
    (contains : g.contains phi = true) : ¬ Blocked g phi why := by
  have proper := intact.proper contains
  rintro (absent | absent | found)
  · exact proper.operands absent
  · have writes := proper.result
    simp [isPhi, absent, Op.info] at writes
  · simp [intact.removeObstacle (swept contains) (by simp [isPhi, Op.info]) .refl] at found

/-- If the phis are not found by their results, two of them have the same. -/
theorem clash_of_phiDefs {phis : List VertexId} {defs : PhiDefs} {why : Failure} (fails : phiDefs g phis defs = .error why)
    (listed : ∀ phi ∈ phis, phi ∈ g.verticesOf .phi) (nodup : phis.Nodup)
    (found : ∀ p ∈ defs, p.2 ∈ g.verticesOf .phi ∧ p.2 ∉ phis ∧ (g.vertex p.2).result = p.1) :
    ∃ u v, g.Clash u v ∧ why = g.clashFailure u v := by
  induction phis generalizing defs with
  | nil => simp [phiDefs] at fails
  | cons phi phis ih =>
    have isPhi {u : VertexId} (member : u ∈ g.verticesOf .phi) : u ∈ g.listed ∧ g.op u = .phi := by
      simpa using List.mem_filter.mp member
    obtain ⟨fresh, nodup⟩ := List.nodup_cons.mp nodup
    have here := listed phi List.mem_cons_self
    rw [phiDefs] at fails
    split at fails
    · rename_i first earlier
      obtain rfl := Except.error.inj fails
      obtain ⟨_, _, isPair⟩ := List.lookup_eq_some_iff.mp earlier
      have member : ((g.vertex phi).result, first) ∈ defs := by simp [isPair.1]
      obtain ⟨isFirst, later, result⟩ := found _ member
      refine ⟨first, phi, ⟨(isPhi isFirst).1, (isPhi here).1, ?_, (isPhi isFirst).2, (isPhi here).2, result⟩, ?_⟩
      · rintro rfl
        exact later List.mem_cons_self
      · rw [clashFailure, result]
    · refine ih fails (fun other member => listed other (List.mem_cons_of_mem _ member)) nodup fun p member => ?_
      rcases List.mem_append.mp member with old | new
      · obtain ⟨isPhi, later, result⟩ := found p old
        exact ⟨isPhi, fun member => later (List.mem_cons_of_mem _ member), result⟩
      · obtain rfl := List.mem_singleton.mp new
        exact ⟨here, fresh, rfl⟩

theorem explained_typeCycles (intact : g.Intact) (apart : nested ∨ g.PhisApart) :
    typeCycles.StopsWith g (Explained nested) := by
  refine stops_typeCycles.mono ?_
  rintro _ h (⟨_, fails, rfl, rfl⟩ | ⟨⟨defs, ok⟩, rfl, refined⟩)
  · obtain ⟨u, v, clash, rfl⟩ := clash_of_phiDefs fails (fun _ => id) (intact.nodup.filter _) (by simp)
    exact .inl ⟨apart.resolve_right fun apart => apart.noClash intact clash, u, v, clash, rfl⟩
  · have harmless : Harmless g (.fault .missing) h := ⟨refined.retyped.sameVertices, by simp⟩
    exact harmless.explained fun u v => (phisApart_of_phiDefs intact ok).noClash intact

theorem explained_run {c : Coalescing} (tidy : c.graph.Tidy nested) (swept : c.graph.Swept) :
    run.StopsWith c fun why c' => why.Explained nested c'.graph := by
  refine stops_run (eliminable_of_tidy tidy swept) (·.eliminate) (fun {g phi} eliminable => ?_) fun eliminable => ?_
  · refine stops_eliminate.mono ?_
    rintro _ _ ⟨isPhi, contains, blocked, _⟩
    exact absurd blocked (not_blocked eliminable.intact eliminable.swept isPhi contains)
  · exact explained_typeCycles eliminable.intact (eliminable.tidy.imp_right (·.apart))

end PhiElimination

/-! ### Runs -/

namespace Optimizer

variable {nested : Prop} {rules : List Rule} {sigs : Signatures} {v : VertexId} {s : Optimizing}

theorem stops_applyRules (known : ∀ r ∈ rules, r ∈ (Rule.all sigs).tail) (tidy : s.graph.Tidy nested)
    (alive : s.graph.contains v = true → s.graph.Alive v) :
    (applyRules v rules).StopsWith s fun why t => why.Explained nested t.graph := by
  induction rules generalizing s with
  | nil => exact .pure
  | cons r rules ih =>
    refine .get (.ite (fun _ => .pure) fun owned => ?_)
    have owned : s.graph.contains v = true := by simpa using owned
    have member := known r List.mem_cons_self
    have noClash (u w : VertexId) : ¬ s.graph.Clash u w := tidy.apart.noClash tidy.toIntact
    have stops : (onGraph (r.apply v)).StopsWith s fun why t => why.Harmless s.graph t.graph :=
      .on ((Rule.stops_of_mem (List.mem_of_mem_tail member)).mono fun stopped =>
        harmless_of_stopped stopped tidy.toIntact (alive owned))
    refine .bind (.within (fun stopped => (stops stopped).within.explained noClash)
      fun stopped => (stops stopped).explained noClash) fun {changed t} applied => ?_
    obtain ⟨rewritten, _⟩ := Rule.rewrites_of_mem member tidy.toRouted owned (alive owned)
      (onGraph_succeeds (Action.within_succeeds.mp applied))
    have later {t' : Optimizing} (same : t'.graph = t.graph) :
        (applyRules v rules).StopsWith t' fun why t => why.Explained nested t.graph := by
      refine ih (fun r member => known r (List.mem_cons_of_mem _ member)) ?_ ?_
      · exact same ▸ rewritten.tidy tidy (alive owned)
      · exact same ▸ rewritten.alive tidy.toRouted (alive owned)
    exact .ite (fun _ => .modify_bind (.bind (later rfl) fun _ => .pure)) fun _ => .bind (later rfl) fun _ => .pure

theorem stops_applyRules_all (tidy : s.graph.Tidy nested) :
    (applyRules v (Rule.all sigs)).StopsWith s fun why t => why.Explained nested t.graph := by
  refine .get (.ite (fun _ => .pure) fun owned => ?_)
  have owned : s.graph.contains v = true := by simpa using owned
  have stops : (onGraph (Rule.pruneUnreachable v)).StopsWith s fun _ _ => False := .on Rule.stops_pruneUnreachable
  refine .bind (.within (fun stopped => (stops stopped).elim) fun stopped => (stops stopped).elim) fun {changed t} pruned => ?_
  obtain ⟨tidy, alive⟩ := tidy.prune owned (onGraph_succeeds (Action.within_succeeds.mp pruned))
  have later {t' : Optimizing} (same : t'.graph = t.graph) :
      (applyRules v (Rule.all sigs).tail).StopsWith t' fun why t => why.Explained nested t.graph :=
    stops_applyRules (fun _ => id) (same ▸ tidy) (same ▸ alive)
  exact .ite (fun _ => .modify_bind (.bind (later rfl) fun _ => .pure)) fun _ => .bind (later rfl) fun _ => .pure

theorem stops_turn (tidy : s.graph.Tidy nested) :
    (turn (Rule.all sigs)).StopsWith s fun why t => why.Explained nested t.graph := by
  have sweeps {s : Optimizing} (tidy : s.graph.Tidy nested) :
      (sweep (Rule.all sigs)).StopsWith s fun why t => why.Explained nested t.graph :=
    .get (.foldlM (I := fun t => t.graph.Tidy nested) tidy
      (fun v _ t changed t' tidy applied => applyRules_all_tidy tidy applied) fun v _ t tidy => stops_applyRules_all tidy)
  refine .modify_bind (.bind (sweeps tidy) fun {changed t} done => .modify_bind (.ite (fun _ => .pure) fun unchanged => ?_))
  obtain ⟨tidy, swept⟩ := sweep_tidy (by exact tidy) done
  refine .bind (.on (PhiElimination.explained_run tidy (swept (by simpa using unchanged)))) fun _ =>
    .ite (fun _ => .modify_bind .pure) fun _ => .pure

theorem stops_loop {limit remaining : Nat} (tidy : s.graph.Tidy nested) :
    (loop (Rule.all sigs) limit remaining).StopsWith s fun why t => why.Explained nested t.graph := by
  induction remaining generalizing s with
  | zero =>
    refine .get (.fail (.inr ⟨fun u v => tidy.apart.noClash tidy.toIntact, ?_⟩))
    rintro _ ⟨⟩
    simp [Failure.kind]
  | succ remaining ih =>
    rw [loop_succ]
    exact .bind (stops_turn tidy) fun turned => .ite (fun _ => ih (turn_tidy tidy turned)) fun _ => .pure

/-- A run on a tidy graph that stops because it finds the graph corrupt has found two phis with the same result, and phis were
nested; if it stops for another reason, there are no such phis. -/
theorem stops_process {maxSweeps : Int} (tidy : s.graph.Tidy nested) :
    (process (Rule.all sigs) maxSweeps).StopsWith s fun why t => why.Explained nested t.graph := by
  intro why t ends
  rw [outcome_process] at ends
  obtain ⟨stopped, rfl⟩ := Prod.mk.inj ends
  exact (stops_loop tidy (Prod.ext stopped rfl) :)

end Optimizer

end MiddleEnd
