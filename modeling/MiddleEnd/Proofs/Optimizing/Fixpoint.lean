import MiddleEnd.Proofs.Optimizing.Sweeps
import MiddleEnd.Proofs.Optimizing.Termination

/-!
Where the optimizer stops. Its loop ends only after a sweep in which every rule declined at every vertex, followed by an
elimination of phis that found nothing to do. A rule that declines leaves the graph alone (`Rule.quiet_of_mem`), but for what
the one that prunes notes about reachability, and what is noted makes no difference to the others (`Steady`). So all rules
decline on the graph that is left, and another run does nothing (`Optimizer.process_fixpoint`).
-/
namespace MiddleEnd

/-- If `first` returns `a` and leaves `g` alone, so does `second` where `found` is noted about reachability. What one run of a
rule does says nothing about a second run elsewhere, so the rules are gone through for this as well. -/
def Steady {α : Type} (found : Option (Nat × VertexSet)) (g : Graph) (a : α) (first second : Action Graph α) : Prop :=
  first.Succeeds g a g → second.Succeeds { g with reach := found } a { g with reach := found }

namespace Steady

variable {α β : Type} {found : Option (Nat × VertexSet)} {g : Graph} {a : α}

theorem pure {b : α} : Steady found g a (pure b) (pure b) := by
  intro done
  exact Action.pure_succeeds.mpr ⟨(Action.pure_succeeds.mp done).1, rfl⟩

theorem fail {why : Failure} {second : Action Graph α} : Steady found g a (Action.fail why) second :=
  fun done => absurd done Action.not_fail_succeeds

theorem get {next : Graph → Action Graph α} (steady : Steady found g a (next g) (next { g with reach := found })) :
    Steady found g a (MonadState.get >>= next) (MonadState.get >>= next) :=
  fun done => Action.get_bind_succeeds.mpr (steady (Action.get_bind_succeeds.mp done))

theorem need {value : Option β} {next next' : β → Action Graph α} (steady : ∀ b, Steady found g a (next b) (next' b)) :
    Steady found g a (Action.need value >>= next) (Action.need value >>= next') := by
  intro done
  obtain ⟨b, isB, done⟩ := Action.need_bind_succeeds.mp done
  exact Action.need_bind_succeeds.mpr ⟨b, isB, steady b done⟩

theorem ite {c : Prop} [Decidable c] {first first' second second' : Action Graph α} (yes : Steady found g a first first')
    (no : Steady found g a second second') :
    Steady found g a (if c then first else second) (if c then first' else second') := by
  split
  · exact yes
  · exact no

/-- The first part is done without a change, then the second. -/
theorem bind {first first' : Action Graph β} {next next' : β → Action Graph α}
    (unchanged : ∀ {b h}, first.Succeeds g b h → (next b).Succeeds h a g → h = g ∧ Steady found g b first first')
    (steady : ∀ b, Steady found g a (next b) (next' b)) : Steady found g a (first >>= next) (first' >>= next') := by
  intro done
  obtain ⟨b, h, done, rest⟩ := Action.bind_succeeds.mp done
  obtain ⟨rfl, steadily⟩ := unchanged done rest
  exact Action.bind_succeeds.mpr ⟨b, _, steadily done, steady b rest⟩

section declines
variable {first first' second second' : Action Graph Bool}

/-- Work that never says no. -/
theorem yes (always : ∀ {h changed}, first.Succeeds g changed h → changed = true) : Steady found g false first second :=
  fun done => absurd (always done) Bool.false_ne_true

theorem refine {x : Option VarId} {t : Option Ty} : Steady found g false (refineType x t) (refineType x t) := by
  cases t with
  | none => exact .pure
  | some t =>
    refine .need fun x => .get <| .ite .pure (.yes fun done => ?_)
    rw [Action.modify_bind_succeeds] at done
    exact (Action.pure_succeeds.mp done).1.symm

/-- Both parts decline. -/
theorem either (honest : ∀ {h}, first.Succeeds g false h → h = g) (steady : Steady found g false first first')
    (steady' : Steady found g false second second') :
    Steady found g false (do let changed ← first; let more ← second; return changed || more)
      (do let changed ← first'; let more ← second'; return changed || more) := by
  intro done
  obtain ⟨changed, k, done, rest⟩ := Action.bind_succeeds.mp done
  obtain ⟨more, k', done', rest⟩ := Action.bind_succeeds.mp rest
  obtain ⟨neither, rfl⟩ := Action.pure_succeeds.mp rest
  obtain ⟨rfl, rfl⟩ := Bool.or_eq_false_iff.mp neither
  obtain rfl := honest done
  refine Action.bind_succeeds.mpr ⟨false, _, steady done, Action.bind_succeeds.mpr ⟨false, _, steady' done', ?_⟩⟩
  exact Action.pure_succeeds.mpr ⟨rfl, rfl⟩

end declines

end Steady

/-! ### What is noted makes no difference -/

theorem Graph.vertex_noted {g : Graph} {found : Option (Nat × VertexSet)} (v : VertexId) :
    ({ g with reach := found } : Graph).vertex v = g.vertex v :=
  rfl

theorem Graph.var_noted {g : Graph} {found : Option (Nat × VertexSet)} (x : VarId) :
    ({ g with reach := found } : Graph).var x = g.var x :=
  rfl

namespace Rule

variable {found : Option (Nat × VertexSet)} {g h : Graph} {v : VertexId}

theorem steady_foldBranch : Steady found g false (foldBranch v) (foldBranch v) := by
  refine .get (.ite .pure ?_)
  simp only [Graph.vertex_noted, Graph.var_noted]
  split
  · refine .need fun x => ?_
    split
    · exact .pure
    · refine .yes fun done => ?_
      rw [Action.set_bind_succeeds] at done
      exact (Action.pure_succeeds.mp done).1.symm
  · exact .pure

theorem steady_inferAssign : Steady found g false (inferAssign v) (inferAssign v) :=
  .get <| .ite .pure <| .need fun _ => .ite .pure <| .need fun _ => .ite .pure .refine

theorem steady_inferBinaryOp : Steady found g false (inferBinaryOp v) (inferBinaryOp v) := by
  refine .get <| .ite .pure <| .need fun x => .need fun y => ?_
  simp only [Graph.vertex_noted, Graph.var_noted]
  split
  · exact .fail
  · exact .refine

theorem steady_inferUnaryOp : Steady found g false (inferUnaryOp v) (inferUnaryOp v) := by
  refine .get <| .ite .pure <| .need fun result => .ite .pure <| .need fun x => ?_
  simp only [Graph.vertex_noted, Graph.var_noted]
  split
  · exact .fail
  · exact .refine

theorem steady_constantValue {w : Vertex} {value : Option Literal} :
    Steady found g value (constantValue w) (constantValue w) := by
  refine .get ?_
  simp only [Graph.var_noted]
  split
  · refine .need fun x => ?_
    split
    · exact .pure
    · refine .need fun y => ?_
      split
      · exact .pure
      · exact .pure
  · refine .need fun x => ?_
    split
    · exact .pure
    · exact .pure
  · refine .need fun x => ?_
    split
    · exact .pure
    · exact .pure
  · exact .pure

theorem steady_foldConstants : Steady found g false (foldConstants v) (foldConstants v) := by
  refine .get <| .bind (fun done _ => ⟨(constantValue_succeeds done).1.symm, steady_constantValue⟩) fun value => ?_
  cases value with
  | none => exact .pure
  | some c =>
    refine .yes fun done => ?_
    rw [Action.get_bind_succeeds, Action.modify_bind_succeeds] at done
    obtain ⟨_, _, _, done⟩ := Action.bind_succeeds.mp done
    rw [Action.get_bind_succeeds, Action.modify_bind_succeeds] at done
    exact (Action.pure_succeeds.mp done).1.symm

theorem steady_removeDead : Steady found g false (removeDead v) (removeDead v) := by
  refine .get <| .ite .pure <| .ite .pure <| .yes fun done => ?_
  obtain ⟨_, _, _, done⟩ := Action.bind_succeeds.mp done
  exact (Action.pure_succeeds.mp done).1.symm

theorem steady_unifyPhi {w : Vertex} {result : VarId} : Steady found g false (unifyPhi w result) (unifyPhi w result) := by
  have typed {t : Ty} {second : Action Graph Bool} :
      Steady found g false (do modify (·.setVarType result (some t)); return true) second := by
    refine .yes fun done => ?_
    rw [Action.modify_bind_succeeds] at done
    exact (Action.pure_succeeds.mp done).1.symm
  refine .need fun inputs => .get ?_
  have types : ({ g with reach := found } : Graph).distinctTypes inputs = g.distinctTypes inputs := rfl
  simp only [types]
  split
  · exact .ite .pure typed
  · split
    · exact .pure
    · refine .ite (.yes fun done => ?_) (.ite typed .pure)
      rw [Action.modify_bind_succeeds] at done
      obtain ⟨_, _, _, done⟩ := Action.bind_succeeds.mp done
      exact (Action.pure_succeeds.mp done).1.symm

theorem steady_simplifyPhi : Steady found g false (simplifyPhi v) (simplifyPhi v) := by
  refine .get <| .ite .pure <| .need fun result => ?_
  simp only [Graph.vertex_noted, Graph.var_noted]
  -- a phi with one input goes, any other says whether it was typed
  rcases (g.vertex v).args with _ | ⟨input, _ | ⟨second, rest⟩⟩
  · simp only [bind_pure]
    exact .ite .pure steady_unifyPhi
  · refine .yes fun {h changed} done => ?_
    obtain ⟨_, _, _, done⟩ := Action.bind_succeeds.mp (Action.ite_bind_succeeds.mp done)
    obtain ⟨input, _, done⟩ := Action.need_bind_succeeds.mp done
    rw [Action.get_bind_succeeds] at done
    have spliced {k : Graph} {changed : Bool} (done : (do
        spliceOut v
        modify (·.replaceVariable (some result) (some input))
        return true : Action Graph Bool).Succeeds k changed h) : changed = true := by
      obtain ⟨_, _, _, done⟩ := Action.bind_succeeds.mp done
      rw [Action.modify_bind_succeeds] at done
      exact (Action.pure_succeeds.mp done).1.symm
    split at done
    · exact spliced (Action.set_bind_succeeds.mp done)
    · exact spliced done
  · simp only [bind_pure]
    exact .ite .pure steady_unifyPhi

theorem steady_checkArguments {callee : String} {sig : Signature} (i : Nat) (args : List (Option VarId × Option Ty)) :
    Steady found g false (checkArguments v callee sig i args) (checkArguments v callee sig i args) := by
  induction args generalizing i with
  | nil => exact .pure
  | cons pair rest ih =>
    exact .need fun x => .get <| .ite (.either (fun done => (typing_refineType done).unchanged) .refine (ih _)) (.ite (ih _) .fail)

theorem steady_checkCall {sig : Signature} : Steady found g false (checkCall v sig) (checkCall v sig) :=
  .get <| .ite .fail <| .either (fun done => (types_arguments.ends done).unchanged) (steady_checkArguments _ _) .refine

theorem steady_checkCallee {sigs : Signatures} : Steady found g false (checkCallee sigs v) (checkCallee sigs v) := by
  refine .get ?_
  simp only [Graph.vertex_noted]
  split
  · refine .ite (.yes fun done => ?_) ?_
    · rw [Action.set_bind_succeeds] at done
      exact (Action.pure_succeeds.mp done).1.symm
    · split
      · exact .fail
      · exact steady_checkCall
  · exact steady_checkCall
  · exact .pure

theorem steady_checkReturn : Steady found g false (checkReturn v) (checkReturn v) := by
  refine .get <| .ite .pure ?_
  simp only [Graph.vertex_noted, Graph.var_noted]
  split
  · exact .pure
  · split
    · exact .pure
    · exact .pure
    · exact .fail
    · exact .need fun x => .ite .refine .fail

/-- A rule that declines leaves the graph alone, and it declines whatever is noted about reachability. -/
structure Quiet (r : Rule) : Prop where
  same : ∀ {g v h}, (r.apply v).Succeeds g false h → h = g
  steady : ∀ {found g v}, Steady found g false (r.apply v) (r.apply v)

/-- All rules but the one that prunes. -/
theorem quiet_of_mem {sigs : Signatures} {r : Rule} (member : r ∈ (all sigs).tail) : r.Quiet := by
  simp only [all, List.tail_cons, List.mem_cons, List.not_mem_nil, or_false] at member
  rcases member with rfl | rfl | rfl | rfl | rfl | rfl | rfl | rfl | rfl
  · refine ⟨fun done => ?_, steady_foldBranch⟩
    rcases foldBranch_succeeds done with ⟨_, same, _⟩ | ⟨yes, _⟩
    · exact same
    · simp at yes
  · exact ⟨fun done => (types_inferAssign.ends done).unchanged, steady_inferAssign⟩
  · exact ⟨fun done => (types_inferBinaryOp.ends done).unchanged, steady_inferBinaryOp⟩
  · exact ⟨fun done => (types_inferUnaryOp.ends done).unchanged, steady_inferUnaryOp⟩
  · refine ⟨fun done => ?_, steady_foldConstants⟩
    rcases foldConstants_succeeds done with ⟨_, same⟩ | ⟨yes, _⟩
    · exact same
    · simp at yes
  · refine ⟨fun done => ?_, steady_removeDead⟩
    rcases removeDead_succeeds done with ⟨_, same⟩ | ⟨yes, _⟩
    · exact same
    · simp at yes
  · refine ⟨fun done => ?_, steady_simplifyPhi⟩
    rcases simplifyPhi_succeeds done with ⟨_, same⟩ | ⟨yes, _⟩
    · exact same
    · simp at yes
  · refine ⟨fun done => ?_, steady_checkCallee⟩
    rcases rewrites_checkCallee done with ⟨_, same⟩ | ⟨yes, _⟩
    · exact same rfl
    · simp at yes
  · exact ⟨fun done => (types_checkReturn.ends done).unchanged, steady_checkReturn⟩

end Rule

/-! ### Vertices where nothing is left to do -/

namespace Graph

variable {sigs : Signatures} {g : Graph} {v : VertexId}

theorem withReach_eq : ∃ found, g.withReach.1 = { g with reach := found } := by
  unfold withReach
  split
  · split
    · exact ⟨g.reach, rfl⟩
    · exact ⟨_, rfl⟩
  · exact ⟨_, rfl⟩

/-- What is found about reachability is noted once. -/
theorem withReach_withReach : g.withReach.1.withReach = g.withReach := by
  rcases noted : g.reach with _ | ⟨epoch, found⟩
  · simp [withReach, noted]
  · by_cases current : epoch = g.epoch
    · simp [withReach, noted, current]
    · simp [withReach, noted, current]

/-- Every rule declines at the vertex and leaves the graph as it is. -/
def Settled (sigs : Signatures) (g : Graph) (v : VertexId) : Prop :=
  ∀ r ∈ Rule.all sigs, (r.apply v).Succeeds g false g

/-- Asked again, the rule that prunes declines again. -/
theorem prune_again {h : Graph} (done : (Rule.pruneUnreachable v).Succeeds g false h) :
    (h = g ∨ h = g.withReach.1) ∧ (Rule.pruneUnreachable v).Succeeds h false h ∧
      (Rule.pruneUnreachable v).Succeeds h.withReach.1 false h.withReach.1 := by
  have ends {k : Graph} (isEnd : v = k.entry ∨ v = k.exit) : (Rule.pruneUnreachable v).Succeeds k false k := by
    simp [Rule.pruneUnreachable, Action.get_bind_succeeds, isEnd]
  have reaches {k : Graph} (noted : k.withReach.1 = k) (reached : v ∈ k.withReach.2) :
      (Rule.pruneUnreachable v).Succeeds k false k := by
    rw [Rule.pruneUnreachable, Action.get_bind_succeeds]
    split
    · exact Action.pure_succeeds.mpr ⟨rfl, rfl⟩
    · simp only [noted, Action.set_bind_succeeds, reached, ↓reduceIte]
      exact Action.pure_succeeds.mpr ⟨rfl, rfl⟩
  rcases Rule.pruneUnreachable_succeeds done with ⟨_, isEnd, rfl⟩ | ⟨_, reached, rfl⟩ | ⟨yes, _⟩
  · obtain ⟨found, noted⟩ := withReach_eq (g := h)
    exact ⟨.inl rfl, ends isEnd, noted ▸ ends isEnd⟩
  · have noted : g.withReach.1.withReach.1 = g.withReach.1 := by rw [withReach_withReach]
    have again := reaches noted (by rwa [withReach_withReach])
    exact ⟨.inr rfl, again, noted.symm ▸ again⟩
  · simp at yes

theorem Settled.withReach (settled : g.Settled sigs v) : g.withReach.1.Settled sigs v := by
  intro r member
  rcases List.mem_cons.mp member with rfl | later
  · exact (prune_again (settled _ member)).2.2
  · obtain ⟨found, noted⟩ := withReach_eq (g := g)
    rw [noted]
    exact (Rule.quiet_of_mem later).steady (settled r member)

end Graph

namespace Optimizer

variable {rules : List Rule} {sigs : Signatures} {v : VertexId} {s s' : Optimizing}

/-- If quiet rules say no, each of them declined. -/
theorem applyRules_declines (quiet : ∀ r ∈ rules, r.Quiet) (done : (applyRules v rules).Succeeds s false s') :
    s'.graph = s.graph ∧ (s.graph.contains v = true → ∀ r ∈ rules, (r.apply v).Succeeds s.graph false s.graph) := by
  induction rules generalizing s with
  | nil =>
    obtain ⟨_, rfl⟩ := Action.pure_succeeds.mp done
    exact ⟨rfl, by simp⟩
  | cons r rules ih =>
    rcases applyRules_cons_succeeds done with ⟨absent, _, rfl⟩ | ⟨owned, first, more, t, applied, rest, neither⟩
    · exact ⟨rfl, by simp [absent]⟩
    · obtain ⟨rfl, rfl⟩ := Bool.or_eq_false_iff.mp neither.symm
      have same := (quiet r List.mem_cons_self).same applied
      obtain ⟨unchanged, others⟩ := ih (fun r member => quiet r (List.mem_cons_of_mem _ member)) rest
      rw [same] at unchanged others applied
      exact ⟨unchanged, fun _ => List.forall_mem_cons.mpr ⟨applied, others owned⟩⟩

/-- If all rules say no, the vertex is settled in the graph they leave. -/
theorem applyRules_settles (done : (applyRules v (Rule.all sigs)).Succeeds s false s') :
    (s'.graph = s.graph ∨ s'.graph = s.graph.withReach.1) ∧ (s'.graph.contains v = true → s'.graph.Settled sigs v) := by
  rcases applyRules_cons_succeeds done with ⟨absent, _, rfl⟩ | ⟨owned, first, more, t, pruned, rest, neither⟩
  · exact ⟨.inl rfl, by simp [absent]⟩
  · obtain ⟨rfl, rfl⟩ := Bool.or_eq_false_iff.mp neither.symm
    obtain ⟨noted, again, _⟩ := Graph.prune_again pruned
    obtain ⟨same, others⟩ := applyRules_declines (fun r member => Rule.quiet_of_mem member) rest
    rw [same]
    exact ⟨noted, fun owned => List.forall_mem_cons.mpr ⟨again, others owned⟩⟩

/-- After a sweep that changed nothing, all vertices it met are settled. -/
theorem sweep_settles {vs : List VertexId} {before : Bool}
    (done : (vs.foldlM (fun changed v => return (← applyRules v (Rule.all sigs)) || changed) before).Succeeds s false s') :
    (s'.graph = s.graph ∨ s'.graph = s.graph.withReach.1) ∧
      ∀ v ∈ vs, s'.graph.contains v = true → s'.graph.Settled sigs v := by
  induction vs generalizing s before with
  | nil =>
    obtain ⟨_, rfl⟩ := Action.pure_succeeds.mp done
    exact ⟨.inl rfl, by simp⟩
  | cons v vs ih =>
    obtain ⟨now, t, applied, rest⟩ := Action.foldlM_cons_succeeds.mp done
    obtain rfl : now = false := (Bool.or_eq_false_iff.mp (Action.foldlM_false rest)).1
    obtain ⟨noted, settled⟩ := applyRules_settles applied
    obtain ⟨later, others⟩ := ih rest
    have twice : t.graph.withReach.1 = s.graph.withReach.1 := by
      rcases noted with same | same
      · rw [same]
      · rw [same, Graph.withReach_withReach]
    refine ⟨?_, List.forall_mem_cons.mpr ⟨fun owned => ?_, others⟩⟩
    · rcases later with same | same
      · rw [same]
        exact noted
      · exact .inr (same.trans twice)
    · -- what a later vertex notes does not unsettle this one
      rcases later with same | same
      · rw [same] at owned ⊢
        exact settled owned
      · rw [same] at owned ⊢
        obtain ⟨found, noted⟩ := Graph.withReach_eq (g := t.graph)
        rw [noted] at owned
        exact (settled owned).withReach

end Optimizer

/-! ### Phis that stay -/

namespace PhiElimination

variable {g h : Graph} {phi : VertexId}

theorem eliminate_declines (done : (eliminate phi).Succeeds g false h) : h = g := by
  rcases eliminate_succeeds done with ⟨_, same⟩ | ⟨yes, _⟩
  · exact same
  · simp at yes

theorem typeCycles_declines (done : typeCycles.Succeeds g false h) : h = g := by
  obtain ⟨defs, cycles, _, done⟩ := typeCycles_succeeds done
  refine (Action.foldlM_declines (P := fun k => k = g) (Q := fun _ => True) rfl ?_ done).1
  rintro cycle _ k k' rfl done
  rcases typeCycle_succeeds done with ⟨_, same⟩ | ⟨yes, _⟩
  · exact ⟨same, trivial⟩
  · simp at yes

/-- A turn that says no changed nothing, and says so again however many phis were counted. -/
theorem run_declines {c c' : Coalescing} (done : run.Succeeds c false c') :
    c'.graph = c.graph ∧ ∀ resolved, run.Succeeds ⟨c.graph, resolved⟩ false ⟨c.graph, resolved⟩ := by
  obtain ⟨progress, typed, t, resolves, cycles, neither⟩ := run_succeeds done
  obtain ⟨rfl, rfl⟩ := Bool.or_eq_false_iff.mp neither.symm
  have declined := Action.foldlM_declines (P := fun t => t.graph = c.graph)
    (Q := fun phi => (eliminate phi).Succeeds c.graph false c.graph) rfl ?_ resolves
  · obtain ⟨same, stays⟩ := declined
    have untyped := typeCycles_declines cycles
    rw [untyped, same] at cycles
    refine ⟨untyped.trans same, fun resolved => ?_⟩
    have stay : ∀ phi ∈ c.graph.verticesOf .phi, (resolve phi).Succeeds ⟨c.graph, resolved⟩ false ⟨c.graph, resolved⟩ := by
      intro phi isPhi
      refine Action.bind_succeeds.mpr ⟨false, _, Action.on_succeeds.mpr ⟨_, stays phi isPhi, rfl⟩, ?_⟩
      exact Action.pure_succeeds.mpr ⟨rfl, rfl⟩
    rw [run, Action.get_bind_succeeds]
    refine Action.bind_succeeds.mpr ⟨false, _, Action.foldlM_unchanged stay, ?_⟩
    refine Action.bind_succeeds.mpr ⟨false, _, Action.on_succeeds.mpr ⟨_, cycles, rfl⟩, ?_⟩
    exact Action.pure_succeeds.mpr ⟨rfl, rfl⟩
  · intro phi _ t t' same resolves
    have eliminates := resolve_succeeds resolves
    have unchanged := eliminate_declines eliminates
    rw [unchanged, same] at eliminates
    exact ⟨unchanged.trans same, eliminates⟩

end PhiElimination

/-! ### The end of a run -/

namespace Optimizer

variable {rules : List Rule} {sigs : Signatures} {v : VertexId} {s s' : Optimizing} {maxSweeps : Int}

/-- Nothing is left to do in a graph. -/
structure Finished (sigs : Signatures) (g : Graph) : Prop where
  settled : ∀ v ∈ g.listed, g.contains v = true → g.Settled sigs v
  phis : ∀ resolved, PhiElimination.run.Succeeds ⟨g, resolved⟩ false ⟨g, resolved⟩

theorem finished_of_turn (done : (turn (Rule.all sigs)).Succeeds s false s') : Finished sigs s'.graph := by
  obtain ⟨r, swept, t, _, sweeps, ⟨_, yes, _⟩ | ⟨rfl, c, c', started, runs, ended⟩⟩ := turn_succeeds done
  · simp at yes
  rw [sweep, Action.get_bind_succeeds] at sweeps
  obtain ⟨noted, settled⟩ := sweep_settles sweeps
  obtain ⟨same, declines⟩ := PhiElimination.run_declines runs
  have unchanged : s'.graph = t.graph := ended.trans (same.trans started)
  have listed : s'.graph.listed = r.graph.listed := by
    rw [unchanged]
    rcases noted with same | same
    · rw [same]
    · obtain ⟨found, eq⟩ := Graph.withReach_eq (g := r.graph)
      rw [same, eq]
  refine ⟨fun v member owned => ?_, started.trans unchanged.symm ▸ declines⟩
  rw [unchanged] at owned ⊢
  exact settled v (listed ▸ member) owned

theorem finished_of_process (done : (process (Rule.all sigs) maxSweeps).Succeeds s () s') : Finished sigs s'.graph := by
  obtain ⟨_, t, t', turned, ended⟩ := process_induct (P := fun _ => True) done trivial fun _ _ _ _ _ => trivial
  exact ended ▸ finished_of_turn turned

/-! ### Another run -/

/-- Rules that decline are all that happens at a vertex. -/
theorem applyRules_unchanged
    (declines : s.graph.contains v = true → ∀ r ∈ rules, (r.apply v).Succeeds s.graph false s.graph) :
    (applyRules v rules).Succeeds s false s := by
  induction rules with
  | nil => exact Action.pure_succeeds.mpr ⟨rfl, rfl⟩
  | cons r rules ih =>
    rw [applyRules, Action.get_bind_succeeds]
    cases owned : s.graph.contains v with
    | false => exact Action.pure_succeeds.mpr ⟨rfl, rfl⟩
    | true =>
      have first := declines owned r List.mem_cons_self
      have later := ih fun owned r member => declines owned r (List.mem_cons_of_mem _ member)
      refine Action.bind_succeeds.mpr ⟨false, s, Action.within_succeeds.mpr (Action.on_succeeds.mpr ⟨_, first, rfl⟩), ?_⟩
      refine Action.bind_succeeds.mpr ⟨false, s, later, Action.pure_succeeds.mpr ⟨rfl, rfl⟩⟩

/-- What a sweep that changes nothing leaves. -/
def swept (s : Optimizing) : Optimizing :=
  { s with
    stats := { s.stats with sweeps := s.stats.sweeps + 1 }
    log := s.log ++ [sweepEntry s.graph.name (s.stats.sweeps + 1) false] }

theorem turn_of_finished (finished : Finished sigs s.graph) : (turn (Rule.all sigs)).Succeeds s false (swept s) := by
  have sweeps {t : Optimizing} (same : t.graph = s.graph) : (sweep (Rule.all sigs)).Succeeds t false t := by
    rw [sweep, Action.get_bind_succeeds]
    refine Action.foldlM_unchanged fun v member => applyRules_unchanged ?_
    rw [same] at member ⊢
    exact finished.settled v member
  rw [turn, Action.modify_bind_succeeds]
  refine Action.bind_succeeds.mpr ⟨false, _, sweeps rfl, ?_⟩
  rw [Action.modify_bind_succeeds]
  refine Action.bind_succeeds.mpr ⟨false, _, Action.on_succeeds.mpr ⟨_, finished.phis _, rfl⟩, ?_⟩
  exact Action.pure_succeeds.mpr ⟨rfl, rfl⟩

theorem process_of_finished (finished : Finished sigs s.graph) :
    (process (Rule.all sigs) maxSweeps).outcome s =
      (.ok (), { swept s with stats := { (swept s).stats with phisResolved := 0 } }) := by
  have limited : sweepLimit maxSweeps ≠ 0 := by
    rw [sweepLimit]
    split
    · decide
    · omega
  have turned : (turn (Rule.all sigs)).outcome s = (.ok false, swept s) := turn_of_finished finished
  rw [outcome_process, outcome_loop _ limited, turned]
  simp [swept]

/-- A run that succeeds ends where nothing is left to do: every rule declines at every vertex and leaves the graph as it
is, and so does the elimination of phis. Another run makes one sweep, counts no change, and leaves the graph as it is. -/
theorem process_fixpoint (done : (process (Rule.all sigs) maxSweeps).Succeeds s () s') :
    (∀ v ∈ s'.graph.listed, s'.graph.contains v = true → ∀ r ∈ Rule.all sigs,
      (r.apply v).Succeeds s'.graph false s'.graph) ∧
    (∀ resolved, PhiElimination.run.Succeeds ⟨s'.graph, resolved⟩ false ⟨s'.graph, resolved⟩) ∧
    ∀ (again : Int) (resolved : Nat), ∃ t : Optimizing,
      (process (Rule.all sigs) again).Succeeds { graph := s'.graph, resolved } () t ∧
      t.graph = s'.graph ∧ t.resolved = resolved ∧ t.stats.sweeps = 1 ∧ t.stats.changes = 0 := by
  have finished := finished_of_process done
  exact ⟨finished.settled, finished.phis, fun again resolved => ⟨_, process_of_finished finished, rfl, rfl, rfl, rfl⟩⟩

/-- Returns one or two, joined by a phi, with an assignment behind the return. -/
def joining : Graph where
  name := "joining"
  sig := ⟨[some .bool], .long⟩
  entry := 0
  exit := 1
  store := #[
    { op := .function, args := [some 0], succs := [2], owned := true },
    { op := .finish, preds := [9], owned := true },
    { op := .jumpIf, args := [some 0], succs := [3, 4], preds := [0], owned := true },
    { op := .label, succs := [5], preds := [2], owned := true },
    { op := .label, succs := [6], preds := [2], owned := true },
    { op := .assign, result := some 3, args := [some 1], succs := [7], preds := [3], owned := true },
    { op := .assign, result := some 4, args := [some 2], succs := [7], preds := [4], owned := true },
    { op := .label, succs := [8], preds := [5, 6], owned := true },
    { op := .phi, result := some 5, args := [some 3, some 4], succs := [9], preds := [7], owned := true },
    { op := .ret, args := [some 5], succs := [1], preds := [8, 10], owned := true },
    { op := .assign, result := some 6, args := [some 5], succs := [9], owned := true }]
  listed := [0, 1, 2, 3, 4, 5, 6, 7, 8, 9, 10]
  vars := #[{ name := "c", type := some .bool }, { type := some .long, value := some (.long 1) },
    { type := some .long, value := some (.long 2) }, { name := "x" }, { name := "x" }, { name := "x" }, { name := "y" }]
  epoch := 0
  reach := none

theorem joining_fixpoint : ∃ s' : Optimizing,
    (process (Rule.all []) 8).Succeeds { graph := joining } () s' ∧
    (∀ v ∈ s'.graph.listed, s'.graph.contains v = true → ∀ r ∈ Rule.all [], (r.apply v).Succeeds s'.graph false s'.graph) ∧
    (∀ resolved, PhiElimination.run.Succeeds ⟨s'.graph, resolved⟩ false ⟨s'.graph, resolved⟩) ∧
    ∀ (again : Int) (resolved : Nat), ∃ t : Optimizing,
      (process (Rule.all []) again).Succeeds { graph := s'.graph, resolved } () t ∧
      t.graph = s'.graph ∧ t.resolved = resolved ∧ t.stats.sweeps = 1 ∧ t.stats.changes = 0 := by
  have ok : ((process (Rule.all []) 8).outcome { graph := joining }).1 = .ok () := by cbv
  have done : (process (Rule.all []) 8).Succeeds { graph := joining } ()
      ((process (Rule.all []) 8).outcome { graph := joining }).2 := Action.succeeds_of_ok ok
  exact ⟨_, done, process_fixpoint done⟩

end Optimizer

end MiddleEnd
