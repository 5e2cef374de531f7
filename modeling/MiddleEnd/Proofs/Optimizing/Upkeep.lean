import MiddleEnd.Proofs.Optimizing.Fixpoint
import MiddleEnd.Proofs.Optimizing.Intact

/-!
Runs of the optimizer keep graphs intact. Between the turns of its loop no two phis have the same result either
(`Graph.Tidy`). A sweep keeps that; the elimination of phis does not, unless no phi takes the result of another one
(`Graph.Flat`), but the typing of cycles, which ends a turn, only succeeds where it holds again. What a run leaves passes the
integrity check (`Optimizer.process_verified`).
-/
namespace MiddleEnd

namespace Graph

variable {nested : Prop} {sigs : Signatures} {g h : Graph} {v : VertexId}

/-- No two phis have the same result. -/
def PhisApart (g : Graph) : Prop :=
  ∀ ⦃u v⦄, g.contains u = true → g.contains v = true → g.op u = .phi → g.op v = .phi →
    (g.vertex u).result = (g.vertex v).result → u = v

/-- No phi takes the result of another one. -/
def Flat (g : Graph) : Prop :=
  ∀ u ∈ g.listed, ∀ v ∈ g.listed, u ≠ v → g.op u = .phi → g.op v = .phi → (g.vertex u).result ∉ (g.vertex v).args

instance : Decidable g.Flat :=
  inferInstanceAs (Decidable (∀ u ∈ g.listed, ∀ v ∈ g.listed, u ≠ v → g.op u = .phi → g.op v = .phi →
    (g.vertex u).result ∉ (g.vertex v).args))

/-- An intact graph in which no two phis have the same result. Unless phis may be `nested`, no phi takes the result of another
one either. -/
structure Tidy (nested : Prop) (g : Graph) : Prop extends Intact g where
  apart : g.PhisApart
  flat : nested ∨ g.Flat

/-- Where each phi was one with the same result before, none are brought together. -/
theorem PhisApart.of_kept (apart : g.PhisApart)
    (kept : ∀ {u}, h.contains u = true → h.op u = .phi →
      g.contains u = true ∧ g.op u = .phi ∧ (h.vertex u).result = (g.vertex u).result) : h.PhisApart := by
  intro u v containsU containsV isPhiU isPhiV same
  obtain ⟨beforeU, wasPhiU, resultU⟩ := kept containsU isPhiU
  obtain ⟨beforeV, wasPhiV, resultV⟩ := kept containsV isPhiV
  exact apart beforeU beforeV wasPhiU wasPhiV (resultU.symm.trans (same.trans resultV))

/-- Where phis are kept with their results and get no new inputs, a graph stays tidy. -/
theorem Tidy.of_kept (tidy : g.Tidy nested) (intact : h.Intact)
    (kept : ∀ {u}, h.contains u = true → h.op u = .phi → (g.contains u = true ∧ g.op u = .phi ∧
      (h.vertex u).result = (g.vertex u).result) ∧ (h.vertex u).args ⊆ (g.vertex u).args) : h.Tidy nested := by
  refine ⟨intact, tidy.apart.of_kept fun contains isPhi => (kept contains isPhi).1, tidy.flat.imp_right fun flat => ?_⟩
  intro u listedU v listedV other isPhiU isPhiV input
  obtain ⟨⟨containsU, wasPhiU, result⟩, _⟩ := kept (intact.contained u listedU) isPhiU
  obtain ⟨⟨containsV, wasPhiV, _⟩, inputs⟩ := kept (intact.contained v listedV) isPhiV
  exact flat u (tidy.owned containsU) v (tidy.owned containsV) other wasPhiU wasPhiV (inputs (result ▸ input))

/-- A graph stays tidy as long as its vertices stay as they are. -/
theorem Tidy.congr (tidy : g.Tidy nested) (intact : h.Intact) (store : h.store = g.store) : h.Tidy nested := by
  have vertex (u : VertexId) : h.vertex u = g.vertex u := by rw [Graph.vertex, Graph.vertex, store]
  refine tidy.of_kept intact fun {u} contains isPhi => ?_
  rw [Graph.contains, vertex] at contains
  rw [Graph.op, vertex] at isPhi
  rw [vertex]
  exact ⟨⟨contains, isPhi, rfl⟩, List.Subset.refl _⟩

/-! ### Phis that are taken out -/

/-- The classes of the variables that the phi `v` joins; each other variable is alone in its class. -/
def joinedBy (g : Graph) (v : VertexId) (x : VarId) : VarId :=
  if some x ∈ (g.vertex v).args then (g.vertex v).result.getD x else x

theorem joinedBy_result {r y : VarId} (result : (g.vertex v).result = some r) (input : some y ∈ (g.vertex v).args) :
    g.joinedBy v y = g.joinedBy v r := by
  simp [joinedBy, result, input]

/-- In a tidy graph without nested phis, the result of a phi is not joined to anything by another one. -/
theorem Tidy.alone (tidy : g.Tidy False) {u : VertexId} {x y : VarId} (containsU : g.contains u = true)
    (containsV : g.contains v = true) (isPhiU : g.op u = .phi) (isPhiV : g.op v = .phi) (other : u ≠ v)
    (result : (g.vertex u).result = some x) (same : g.joinedBy v y = g.joinedBy v x) : y = x := by
  have notInput : some x ∉ (g.vertex v).args :=
    result ▸ tidy.flat.resolve_left id u (tidy.owned containsU) v (tidy.owned containsV) other isPhiU isPhiV
  obtain ⟨r, written⟩ := tidy.exists_result containsV isPhiV
  rw [joinedBy, joinedBy, if_neg notInput, written] at same
  split at same
  · obtain rfl : r = x := same
    exact absurd (tidy.apart containsU containsV isPhiU isPhiV (result.trans written.symm)) other
  · exact same

/-- Where phis are not nested, taking one out leaves the results of the others as they are. -/
theorem Coalesced.tidy {ρ : VarId → VarId} (coalesced : Coalesced (g.joinedBy v) ρ g h v) (tidy : g.Tidy False)
    (owned : g.contains v = true) (intact : h.Intact) : h.Tidy False := by
  have before {u : VertexId} (contains : h.contains u = true) (isPhi : h.op u = .phi) :
      g.contains u = true ∧ g.op u = .phi ∧ u ≠ v := by
    have other := coalesced.shortened.ne_of_contains contains
    rw [coalesced.contains other] at contains
    exact ⟨contains, (coalesced.vertex (tidy.owned contains) other).op.symm.trans isPhi, other⟩
  have kept {u : VertexId} (contains : h.contains u = true) (isPhi : h.op u = .phi) :
      g.contains u = true ∧ g.op u = .phi ∧ (h.vertex u).result = (g.vertex u).result := by
    obtain ⟨contains, isPhi, other⟩ := before contains isPhi
    refine ⟨contains, isPhi, ?_⟩
    obtain ⟨x, result⟩ := tidy.exists_result contains isPhi
    rw [(coalesced.vertex (tidy.owned contains) other).result, result, Option.map_some]
    exact congrArg some (tidy.alone contains owned isPhi coalesced.isPhi other result (coalesced.classes x))
  refine ⟨intact, tidy.apart.of_kept kept, .inr fun u listedU w listedW different isPhiU isPhiW input => ?_⟩
  obtain ⟨containsU, wasPhiU, result⟩ := kept (intact.contained u listedU) isPhiU
  obtain ⟨_, _, otherU⟩ := before (intact.contained u listedU) isPhiU
  obtain ⟨containsW, wasPhiW, otherW⟩ := before (intact.contained w listedW) isPhiW
  obtain ⟨x, written⟩ := tidy.exists_result containsU wasPhiU
  rw [result, written] at input
  obtain ⟨y, mentioned, same⟩ := (coalesced.vertex (tidy.owned containsW) otherW).inputs wasPhiW input
  obtain rfl := tidy.alone containsU owned wasPhiU coalesced.isPhi otherU written same.symm
  rcases mentioned with isResult | isInput
  · exact different (tidy.apart containsU containsW wasPhiU wasPhiW (written.trans isResult.symm))
  · have flat := tidy.flat.resolve_left id
    exact flat u (tidy.owned containsU) w (tidy.owned containsW) different wasPhiU wasPhiW (written ▸ isInput)

theorem Tidy.simplified (tidy : g.Tidy nested) (reached : Reachable g.succs g.entry v) (simplified : Rule.Simplified g h v) :
    h.Tidy nested := by
  have intact := tidy.toIntact
  have owned := intact.present reached
  have intact' := intact.simplified reached simplified
  rcases tidy.flat with isNested | flat
  · obtain ⟨r, input, result, _, coalesced⟩ := intact.coalesced_simplified reached simplified
      (intact.sameStanding owned simplified.isPhi)
    refine ⟨intact', tidy.apart.of_kept fun {u} contains isPhi => ?_, .inl isNested⟩
    have other := coalesced.shortened.ne_of_contains contains
    rw [coalesced.contains other] at contains
    have relabeled := coalesced.vertex (intact.owned contains) other
    have isPhi := relabeled.op.symm.trans isPhi
    refine ⟨contains, isPhi, relabeled.result.trans ?_⟩
    -- no other phi has the result that is renamed
    obtain ⟨y, written⟩ := intact.exists_result contains isPhi
    have differs : y ≠ r := by
      rintro rfl
      exact other (tidy.apart contains owned isPhi simplified.isPhi (written.trans result.symm))
    simp [written, mergeInto, differs]
  · obtain ⟨_, _, _, _, coalesced⟩ := intact.coalesced_simplified reached simplified joinedBy_result
    have tidy' := coalesced.tidy ⟨intact, tidy.apart, .inr flat⟩ owned intact'
    exact ⟨intact', tidy'.apart, .inr (tidy'.flat.resolve_left id)⟩

theorem Tidy.eliminated (tidy : g.Tidy False) (reached : Reachable g.succs g.entry v)
    (eliminated : PhiElimination.Eliminated g h v) : h.Tidy False := by
  obtain ⟨ρ, coalesced⟩ := tidy.toIntact.coalesced_eliminated reached eliminated joinedBy_result
  exact coalesced.tidy tidy (tidy.present reached) (tidy.toIntact.eliminated reached eliminated)

/-! ### Rules -/

theorem Pruned.tidy (pruned : g.Pruned h v) (tidy : g.Tidy nested) : h.Tidy nested := by
  refine tidy.of_kept (pruned.intact tidy.toIntact) fun {u} contains isPhi => ?_
  have other := pruned.ne_of_contains contains
  obtain ⟨args, body, _, fewer, _⟩ := pruned.vertex other
  obtain ⟨_, _, _, result, same, _⟩ := Vertex.body_eq_iff.mp body
  rw [same]
  exact ⟨⟨pruned.contains other ▸ contains, pruned.op other ▸ isPhi, result⟩, fewer.subset⟩

theorem Rewritten.tidy (rewritten : g.Rewritten v h) (tidy : g.Tidy nested) (alive : g.Alive v) : h.Tidy nested := by
  have intact := rewritten.intact tidy.toIntact alive
  cases rewritten with
  | retyped retyped => exact tidy.congr intact retyped.store
  | recalled recalled =>
    refine tidy.of_kept intact fun {u} contains isPhi => ?_
    rw [recalled.contains] at contains
    rw [recalled.op_eq_iff u (by decide)] at isPhi
    obtain ⟨op, _, vertex⟩ := recalled.vertex u
    rw [vertex]
    exact ⟨⟨contains, isPhi, rfl⟩, List.Subset.refl _⟩
  | branchFolded folded =>
    refine tidy.of_kept intact fun {u} contains isPhi => ?_
    rw [folded.contains] at contains
    have other : u ≠ v := by
      rintro rfl
      simp [folded.isJump] at isPhi
    obtain ⟨_, _, _, result, args, _⟩ := Vertex.body_eq_iff.mp (folded.others other).1
    rw [args]
    exact ⟨⟨contains, (folded.op_eq_iff u (by decide)).mp isPhi, result⟩, List.Subset.refl _⟩
  | constantFolded folded =>
    refine tidy.of_kept intact fun {u} contains isPhi => ?_
    have other := folded.ne_of_contains contains
    have old : u ≠ g.store.size := by
      rintro rfl
      simp [folded.newOp] at isPhi
    obtain ⟨op, _, _, result, args, _⟩ := Vertex.body_eq_iff.mp (folded.body other old)
    rw [args]
    exact ⟨⟨folded.contains other old ▸ contains, op.symm.trans isPhi, result⟩, List.Subset.refl _⟩
  | deadRemoved dead =>
    refine tidy.of_kept intact fun {u} contains isPhi => ?_
    have other := dead.short.ne_of_contains contains
    obtain ⟨op, _, _, result, args, _⟩ := Vertex.body_eq_iff.mp (dead.body other)
    rw [args]
    exact ⟨⟨dead.short.contains other ▸ contains, op.symm.trans isPhi, result⟩, List.Subset.refl _⟩
  | simplified simplified =>
    exact tidy.simplified (alive.resolve_left (tidy.ne_exit (by simp [simplified.isPhi, Op.info]))) simplified

theorem Tidy.prune {changed : Bool} (tidy : g.Tidy nested) (owned : g.contains v = true)
    (done : (Rule.pruneUnreachable v).Succeeds g changed h) : h.Tidy nested ∧ (h.contains v = true → h.Alive v) := by
  obtain ⟨found, cached, ⟨_, rfl, alive⟩ | ⟨_, pruned⟩⟩ := Rule.prunes tidy.toRouted owned done
  · exact ⟨tidy.congr (tidy.toIntact.noted cached) rfl, fun _ => alive⟩
  · exact ⟨pruned.tidy (tidy.congr (tidy.toIntact.noted cached) rfl),
      fun contains => absurd rfl (pruned.ne_of_contains contains)⟩

/-- Nothing is left to prune. -/
def Swept (g : Graph) : Prop :=
  ∀ ⦃v⦄, g.contains v = true → g.Alive v

theorem Settled.alive (settled : g.Settled sigs v) (routed : g.Routed) (owned : g.contains v = true) : g.Alive v := by
  have declined := settled ⟨"unreachable", Rule.pruneUnreachable⟩ (by simp [Rule.all])
  obtain ⟨_, _, ⟨_, _, alive⟩ | ⟨yes, _⟩⟩ := Rule.prunes routed owned declined
  · exact alive
  · simp at yes

theorem Shortened.swept (short : g.Shortened h v) (swept : g.Swept) : h.Swept := by
  intro u contains
  have other := short.ne_of_contains contains
  rw [short.contains other] at contains
  exact (swept contains).imp (short.exit ▸ ·) fun reached => short.after reached other

end Graph

open MiddleEnd.Graph

/-! ### Phis -/

namespace PhiElimination

variable {nested : Prop} {g h : Graph} {phi : VertexId} {changed : Bool}

/-- The phis that are taken out can be reached where nothing is left to prune. -/
theorem reachable_of_eliminated (intact : g.Intact) (swept : g.Swept) (eliminated : Eliminated g h phi) :
    Reachable g.succs g.entry phi :=
  (swept eliminated.contains).resolve_left (intact.ne_exit (by simp [eliminated.isPhi, Op.info]))

/-- What taking out one phi after the other keeps: nothing is left to prune, and unless phis may be `nested`, their results
stay apart. -/
structure Eliminable (nested : Prop) (g : Graph) : Prop where
  intact : g.Intact
  swept : g.Swept
  tidy : nested ∨ g.Tidy False

theorem eliminable_of_tidy (tidy : g.Tidy nested) (swept : g.Swept) : Eliminable nested g :=
  ⟨tidy.toIntact, swept, tidy.flat.imp_right fun flat => ⟨tidy.toIntact, tidy.apart, .inr flat⟩⟩

theorem Eliminable.eliminate (eliminable : Eliminable nested g) (done : (eliminate phi).Succeeds g changed h) :
    Eliminable nested h := by
  obtain ⟨intact, swept, tidy⟩ := eliminable
  rcases eliminate_succeeds done with ⟨_, rfl⟩ | ⟨_, eliminated⟩
  · exact ⟨intact, swept, tidy⟩
  · have reached := reachable_of_eliminated intact swept eliminated
    obtain ⟨_, coalesced⟩ := intact.coalesced_eliminated reached eliminated
      (intact.sameStanding eliminated.contains eliminated.isPhi)
    exact ⟨intact.eliminated reached eliminated, coalesced.shortened.swept swept,
      tidy.imp_right fun tidy => tidy.eliminated reached eliminated⟩

/-- The phis that are found by their results are those that were looked at, and no two of them have the same. -/
theorem phiDefs_ok {phis : List VertexId} {defs found : PhiDefs} (ok : phiDefs g phis defs = .ok found) :
    (phis.map fun phi => (g.vertex phi).result).Nodup ∧
      ∀ phi ∈ phis, defs.lookup (g.vertex phi).result = none := by
  induction phis generalizing defs with
  | nil => simp
  | cons phi phis ih =>
    rw [phiDefs] at ok
    split at ok
    · simp at ok
    · rename_i new
      obtain ⟨nodup, fresh⟩ := ih ok
      have fresh {other : VertexId} (member : other ∈ phis) :
          defs.lookup (g.vertex other).result = none ∧ (g.vertex other).result ≠ (g.vertex phi).result := by
        have absent := fresh other member
        rw [List.lookup_append, Option.or_eq_none_iff] at absent
        exact ⟨absent.1, fun same => by simp [same, List.lookup] at absent⟩
      refine ⟨List.nodup_cons.mpr ⟨?_, nodup⟩, List.forall_mem_cons.mpr ⟨new, fun other member => (fresh member).1⟩⟩
      rw [List.mem_map]
      rintro ⟨other, member, same⟩
      exact (fresh member).2 same

/-- If the phis are found by their results, no two of them have the same. -/
theorem phisApart_of_phiDefs {defs : PhiDefs} (intact : g.Intact) (ok : phiDefs g (g.verticesOf .phi) [] = .ok defs) :
    g.PhisApart := by
  intro u v containsU containsV isPhiU isPhiV same
  have isPhi {u : VertexId} (contains : g.contains u = true) (isPhi : g.op u = .phi) : u ∈ g.verticesOf .phi :=
    List.mem_filter.mpr ⟨intact.owned contains, by simpa using isPhi⟩
  exact List.inj_on_of_nodup_map (phiDefs_ok ok).1 (isPhi containsU isPhiU) (isPhi containsV isPhiV) same

theorem typeCycles_phisApart (intact : g.Intact) (done : typeCycles.Succeeds g changed h) : g.PhisApart := by
  simp only [typeCycles, Action.get_bind_succeeds] at done
  split at done
  · exact absurd done Action.not_fail_succeeds
  · exact phisApart_of_phiDefs intact ‹_›

/-- A turn of phi elimination that succeeds leaves a tidy graph. -/
theorem run_tidy {c c' : Coalescing} (tidy : c.graph.Tidy nested) (swept : c.graph.Swept) (done : run.Succeeds c changed c') :
    c'.graph.Tidy nested := by
  obtain ⟨progress, typed, t, resolved, cycles, _⟩ := run_succeeds done
  have eliminable := Action.foldlM_invariant (P := fun c : Coalescing => Eliminable nested c.graph)
    (eliminable_of_tidy tidy swept) (fun _ _ _ _ _ eliminable done => eliminable.eliminate (resolve_succeeds done)) resolved
  have intact := eliminable.intact
  have retyped := (typeCycles_refined cycles).retyped
  have tidy : t.graph.Tidy nested := ⟨intact, typeCycles_phisApart intact cycles,
    eliminable.tidy.imp_right fun tidy => tidy.flat.resolve_left id⟩
  exact tidy.congr (retyped.intact intact) retyped.store

end PhiElimination

/-! ### Runs -/

namespace Optimizer

variable {nested : Prop} {rules : List Rule} {sigs : Signatures} {v : VertexId} {s s' : Optimizing} {changed : Bool}
  {maxSweeps : Int}

theorem applyRules_tidy (rewrites : ∀ r ∈ rules, r.Rewrites) (tidy : s.graph.Tidy nested)
    (alive : s.graph.contains v = true → s.graph.Alive v) (done : (applyRules v rules).Succeeds s changed s') :
    s'.graph.Tidy nested := by
  induction rules generalizing s changed with
  | nil =>
    obtain ⟨_, rfl⟩ := Action.pure_succeeds.mp done
    exact tidy
  | cons r rules ih =>
    rcases applyRules_cons_succeeds done with ⟨_, _, rfl⟩ | ⟨owned, first, more, t, applied, rest, _⟩
    · exact tidy
    · obtain ⟨rewritten, _⟩ := rewrites r List.mem_cons_self tidy.toRouted owned (alive owned) applied
      exact ih (fun r member => rewrites r (List.mem_cons_of_mem _ member)) (rewritten.tidy tidy (alive owned))
        (rewritten.alive tidy.toRouted (alive owned)) rest

/-- The rule that prunes comes first, so the others only meet vertices that stay. -/
theorem applyRules_all_tidy (tidy : s.graph.Tidy nested) (done : (applyRules v (Rule.all sigs)).Succeeds s changed s') :
    s'.graph.Tidy nested := by
  rcases applyRules_cons_succeeds done with ⟨_, _, rfl⟩ | ⟨owned, first, more, t, pruned, rest, _⟩
  · exact tidy
  · obtain ⟨tidy, alive⟩ := tidy.prune owned pruned
    exact applyRules_tidy (fun r member => Rule.rewrites_of_mem member) tidy alive rest

theorem sweep_tidy (tidy : s.graph.Tidy nested) (done : (sweep (Rule.all sigs)).Succeeds s changed s') :
    s'.graph.Tidy nested ∧ (changed = false → s'.graph.Swept) := by
  rw [sweep, Action.get_bind_succeeds] at done
  have tidy' : s'.graph.Tidy nested := Action.foldlM_invariant (P := fun t => t.graph.Tidy nested) tidy
    (fun v _ t changed t' tidy applied => applyRules_all_tidy tidy applied) done
  refine ⟨tidy', ?_⟩
  rintro rfl v contains
  obtain ⟨noted, settled⟩ := sweep_settles done
  have listed : s'.graph.listed = s.graph.listed := by
    rcases noted with same | same
    · rw [same]
    · obtain ⟨found, eq⟩ := withReach_eq (g := s.graph)
      rw [same, eq]
  exact (settled v (listed ▸ tidy'.owned contains) contains).alive tidy'.toRouted contains

theorem turn_tidy {goesOn : Bool} (tidy : s.graph.Tidy nested) (done : (turn (Rule.all sigs)).Succeeds s goesOn s') :
    s'.graph.Tidy nested := by
  obtain ⟨r, swept, t, same, sweeps, went⟩ := turn_succeeds done
  obtain ⟨tidy, swept⟩ := sweep_tidy (same ▸ tidy) sweeps
  rcases went with ⟨_, _, ended⟩ | ⟨unchanged, c, c', started, runs, ended⟩
  · exact ended ▸ tidy
  · rw [ended]
    exact PhiElimination.run_tidy (started ▸ tidy) (started ▸ swept unchanged) runs

theorem process_tidy (tidy : s.graph.Tidy nested) (done : (process (Rule.all sigs) maxSweeps).Succeeds s () s') :
    s'.graph.Tidy nested :=
  (process_induct (P := fun g => g.Tidy nested) done tidy fun _ _ _ tidy turned => turn_tidy tidy turned).1

/-- What a whole run leaves passes the integrity check. -/
theorem process_verified (tidy : s.graph.Tidy nested) (done : (process (Rule.all sigs) maxSweeps).Succeeds s () s') :
    s'.graph.Verified := by
  have finished := finished_of_process done
  have tidy := process_tidy tidy done
  exact tidy.verified fun contains => (finished.settled _ (tidy.owned contains) contains).alive tidy.toRouted contains

end Optimizer

end MiddleEnd
