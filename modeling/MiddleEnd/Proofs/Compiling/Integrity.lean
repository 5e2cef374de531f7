import MiddleEnd.Proofs.Compiling.Preservation
import MiddleEnd.Proofs.Optimizing.Upkeep
import MiddleEnd.Proofs.Release.Integrity
import MiddleEnd.Proofs.Renaming.Inputs

/-!
The graph of a function passes the integrity check before and after every pass (`PassConfig.compile_upholds_integrity`). What
is built does, single assignment form is tidy, from there on the optimizer keeps it so, and releases are put in without harm.
-/
namespace MiddleEnd

open MiddleEnd.Graph

namespace Graph.Complete

variable {g : Graph} {src : VarId → VarId} {a : Analysis}

theorem verified (complete : g.Complete) : g.Verified :=
  ⟨complete.sound, fun v member isPhi => absurd isPhi (complete.noPhi v member)⟩

/-- The phis of the single assignment form are new, and can be reached. -/
theorem reachable_phi (complete : g.Complete) (stage : Stage g src [] a) {v : VertexId} (member : v ∈ a.graph.listed)
    (isPhi : a.graph.op v = .phi) : Reachable a.graph.succs a.graph.entry v := by
  rcases stage.versioned.listed.mp member with old | ⟨new, inside⟩
  · exact absurd ((stage.versioned.old old).op.symm.trans isPhi) (complete.noPhi v old)
  · exact (stage.versioned.new new inside).2

/-- Single assignment form passes the integrity check, is intact, and no two of its phis have the same result. -/
theorem toSingleAssignment (complete : g.Complete) (done : Analysis.toSingleAssignment.Succeeds { graph := g } () a) :
    a.graph.Verified ∧ a.graph.Intact ∧ a.graph.PhisApart := by
  have dated : Analysis.Dated { graph := g } := nofun
  have stage := Analysis.stage_toSingleAssignment complete.sound complete.inScope complete.noPhi dated done
  obtain ⟨nodup, verified⟩ := Analysis.toSingleAssignment_verified complete.sound complete.inScope complete.noPhi dated
    complete.nodup done
  have versioned := stage.versioned
  have routed := (versioned.optimizable complete.sound complete.owned complete.fresh complete.onward).toRouted
  have result {v : VertexId} (member : v ∈ a.graph.listed) (isPhi : a.graph.op v = .phi) :
      ∃ r, (a.graph.vertex v).result = some r := by
    have writes := (verified.sound.vertices v member).result
    rw [isPhi] at writes
    exact Option.isSome_iff_exists.mp writes
  refine ⟨verified, verified.intact routed nodup versioned.inScope fun {v x} member isPhi input => ?_, ?_⟩
  · -- an input is a version of the same variable as the result
    obtain ⟨r, written⟩ := result member isPhi
    have sameSource := versioned.coherent.inputs (complete.reachable_phi stage member isPhi) isPhi written input
    have varies := (verified.sound.vertices v member).writesVariable r written
    rw [← versioned.value x, sameSource, versioned.value r]
    simpa [Variable.isConst] using varies
  · intro u v containsU containsV isPhiU isPhiV same
    have memberU := routed.owned containsU
    have memberV := routed.owned containsV
    obtain ⟨r, written⟩ := result memberU isPhiU
    have writes {w : VertexId} (isPhi : a.graph.op w = .phi) (written : (a.graph.vertex w).result = some r) :
        r ∈ (a.graph.vertex w).targets := by
      rw [Vertex.targets_of_op (by rw [← Graph.op, isPhi]; simp), written]
      simp
    exact stage.once r (by simp) (complete.reachable_phi stage memberU isPhiU) (complete.reachable_phi stage memberV isPhiV)
      (writes isPhiU written) (writes isPhiV (same ▸ written))

end Graph.Complete

/-- The graph passes the integrity check, and it does after each of the passes that succeeds. -/
def Upheld : List Pass → Analysis → Prop
  | [], a => a.graph.verify = none
  | pass :: passes, a => a.graph.verify = none ∧
    ∀ {t t'}, t.analysis = a → pass.run.Succeeds t () t' → Upheld passes t'.analysis

namespace Upheld

variable {passes : List Pass} {config : PassConfig} {s s' : PassState}

theorem verify {a : Analysis} (upheld : Upheld passes a) : a.graph.verify = none := by
  cases passes with
  | nil => exact upheld
  | cons pass passes => exact upheld.1

theorem take (upheld : Upheld passes s.analysis) (n : Nat) (done : (config.run (passes.take n)).Succeeds s () s') :
    s'.analysis.graph.verify = none := by
  induction passes generalizing s n with
  | nil =>
    rw [List.take_nil, PassConfig.run] at done
    exact Action.forM_nil_succeeds.mp done ▸ upheld
  | cons pass passes ih =>
    cases n with
    | zero =>
      rw [List.take_zero, PassConfig.run] at done
      exact Action.forM_nil_succeeds.mp done ▸ upheld.1
    | succ n =>
      rw [List.take_succ_cons, PassConfig.run] at done
      obtain ⟨middle, first, rest⟩ := Action.forM_cons_succeeds.mp done
      obtain ⟨t, t', ran, begun, ended⟩ := PassConfig.runPass_succeeds first
      exact ih (ended ▸ upheld.2 begun ran) n rest

end Upheld

/-! ### Failures -/

/-- A failure that a pass reports itself. -/
def Stop.FromPass (passes : List Pass) (why : Stop) : Prop :=
  ∀ cause, why = .failure cause → ∃ pass ∈ passes, ∃ inner, cause = .within (.pass pass.name) inner

theorem Stop.fromPass_fault {passes : List Pass} {cause : Fault} : Stop.FromPass passes (.fault cause) :=
  nofun

namespace PassConfig

variable {passes : List Pass} {config : PassConfig} {pass : Pass} {s : PassState}

theorem stops_dumpGraph {heading : String} : (dumpGraph heading).StopsWith s fun why _ => why.FromPass passes := by
  refine .get (.modify_bind ?_)
  split
  · exact .modify
  · exact .modify_bind (.missing Stop.fromPass_fault)

/-- A check that passes does not stop anything. -/
theorem stops_check {P : Stop → PassState → Prop} {place : Place} {next : Action PassState Unit}
    (verified : s.analysis.graph.verify = none) (rest : next.StopsWith s P) :
    (get >>= fun s => (Pass.failIf s.analysis.graph.verify).within place >>= fun _ => next).StopsWith s P := by
  have passed : ((Pass.failIf s.analysis.graph.verify).within place).Succeeds s () s := by
    rw [Action.within_succeeds, verified]
    exact Action.pure_succeeds.mpr ⟨rfl, rfl⟩
  refine .get (.bind (.of_succeeds passed) fun {_ t} done => ?_)
  obtain ⟨_, rfl⟩ := Prod.mk.inj (passed.symm.trans done)
  exact rest

theorem stops_before {name function : String} (verified : s.analysis.graph.verify = none) :
    (config.before name function).StopsWith s fun why _ => why.FromPass passes := by
  have checks {s : PassState} (verified : s.analysis.graph.verify = none) :
      (if config.verify then
        (do (Pass.failIf (← get).analysis.graph.verify).within (.verifyBefore name); note "pass start" name [])
      else note "pass start" name []).StopsWith s fun why _ => why.FromPass passes := by
    split
    · exact stops_check verified .modify
    · exact .modify
  rw [before]
  split
  · refine .bind stops_dumpGraph fun {_ t} done => checks ?_
    rwa [looks_dumpGraph done]
  · exact checks verified

theorem stops_after {name function : String} (verified : s.analysis.graph.verify = none) :
    (config.after name function).StopsWith s fun why _ => why.FromPass passes := by
  have dumps {s : PassState} : (if config.dumps config.dumpAfter name function then dumpGraph s!"after {name}"
      else pure ()).StopsWith s fun why _ => why.FromPass passes :=
    .ite (fun _ => stops_dumpGraph) fun _ => .pure
  refine .modify_bind ?_
  by_cases checks : config.verify = true
  · rw [if_pos checks]
    exact stops_check verified dumps
  · rw [if_neg checks]
    exact dumps

/-- Between checks that pass, only the pass itself can fail. -/
theorem stops_runPass (member : pass ∈ passes) (verified : s.analysis.graph.verify = none)
    (upheld : ∀ {t t'}, t.analysis = s.analysis → pass.run.Succeeds t () t' → t'.analysis.graph.verify = none) :
    (config.runPass pass).StopsWith s fun why _ => why.FromPass passes := by
  rw [runPass_eq]
  refine .get (.bind (stops_before verified) fun {_ t} begun => .bind (.within ?_ ?_) fun {_ t'} ran => stops_after ?_)
  · intro inner _ _ cause isCause
    exact ⟨pass, member, inner, (Stop.failure.inj isCause).symm⟩
  · exact fun _ => Stop.fromPass_fault
  · exact upheld (looks_before begun) (Action.within_succeeds.mp ran)

theorem stops_run (upheld : Upheld passes s.analysis) :
    (config.run passes).StopsWith s fun why _ => why.FromPass passes := by
  suffices each : ∀ rest : List Pass, (∀ pass ∈ rest, pass ∈ passes) → ∀ {s : PassState}, Upheld rest s.analysis →
      (config.run rest).StopsWith s fun why _ => why.FromPass passes from each passes (fun _ => id) upheld
  intro rest included s upheld
  induction rest generalizing s with
  | nil => exact .pure
  | cons pass rest ih =>
    refine .bind (stops_runPass (included pass List.mem_cons_self) upheld.1 fun same ran => (upheld.2 same ran).verify)
      fun {_ t} done => ?_
    obtain ⟨u, u', ran, begun, ended⟩ := runPass_succeeds done
    exact ih (fun pass member => included pass (List.mem_cons_of_mem _ member)) (ended ▸ upheld.2 begun ran)

end PassConfig

/-! ### The standard passes -/

theorem upheld_frees {a : Analysis} (verified : a.graph.Verified) (dated : a.DatedBackward) : Upheld [Pass.frees] a := by
  refine ⟨verify_eq_none_iff.mpr verified, fun {t t'} same ran => ?_⟩
  obtain ⟨count, u, inserted, noted⟩ := Action.bind_succeeds.mp ran
  obtain ⟨b, released, rfl⟩ := Action.on_succeeds.mp inserted
  obtain rfl := Action.modify_succeeds.mp noted
  exact verify_eq_none_iff.mpr (Analysis.insertReleases_verified (same ▸ verified) (same ▸ dated) released)

theorem upheld_standard {g : Graph} (complete : g.Complete) (options : PassOptions) :
    Upheld (Pass.standard options) { graph := g } := by
  refine ⟨verify_eq_none_iff.mpr complete.verified, fun {t t'} same ran => ?_⟩
  have split := Pass.singleAssignment_succeeds ran
  rw [same] at split
  obtain ⟨verified, intact, apart⟩ := complete.toSingleAssignment split
  have tidy : t'.analysis.graph.Tidy True := ⟨intact, apart, .inl trivial⟩
  refine ⟨verify_eq_none_iff.mpr verified, fun {u u'} same ran => ?_⟩
  rw [Pass.optimize, Action.on_succeeds] at ran
  obtain ⟨o, optimized, rfl⟩ := ran
  have verified := Optimizer.process_verified (same ▸ tidy) optimized
  split
  · exact upheld_frees verified (by simp [Analysis.DatedBackward, Analysis.invalidate])
  · exact verify_eq_none_iff.mpr verified

namespace PassConfig

/-- The graph passes the integrity check as it is built and after each of the standard passes that succeeds, whatever can be
called, however many sweeps are allowed and whether or not variables are released. So a compilation that checks the graph
around the passes never fails in a check: its failures are those of the passes. -/
theorem compile_upholds_integrity (source : Source) (wellFormed : source.WellFormed) (g : Graph)
    (built : source.graph? = some g) (config : PassConfig) (options : PassOptions) :
    (∀ n s, (config.run ((Pass.standard options).take n)).Succeeds { analysis := { graph := g } } () s →
      s.analysis.graph.verify = none) ∧
    ∀ cause, ((config.compile options).outcome { analysis := { graph := g } }).1 = .error (.failure cause) →
      ∃ pass ∈ Pass.standard options, ∃ inner, cause = .within (.pass pass.name) inner := by
  have upheld := upheld_standard (Source.complete_graph wellFormed built) options
  refine ⟨fun n s done => Upheld.take (s := { analysis := { graph := g } }) upheld n done, fun cause fails => ?_⟩
  exact stops_run (s := { analysis := { graph := g } }) upheld (Prod.ext fails rfl) cause rfl

theorem countingDown_upholds_integrity :
    countingDown.WellFormed ∧ countingDown.graph? = some countingDownGraph ∧
    (∃ s, (run {} ((Pass.standard { freeMarkers := true }).take 3)).Succeeds { analysis := { graph := countingDownGraph } } () s ∧
      s.analysis.graph.verify = none) ∧
    ∀ cause, ((compile { verify := true } { freeMarkers := true }).outcome
        { analysis := { graph := countingDownGraph } }).1 = .error (.failure cause) →
      ∃ pass ∈ Pass.standard { freeMarkers := true }, ∃ inner, cause = .within (.pass pass.name) inner := by
  have wellFormed : countingDown.WellFormed := by decide
  have built : countingDown.graph? = some countingDownGraph := by cbv
  have ok : ((run {} ((Pass.standard { freeMarkers := true }).take 3)).outcome
      { analysis := { graph := countingDownGraph } }).1 = .ok () := by cbv
  have done := Action.succeeds_of_ok ok
  exact ⟨wellFormed, built,
    ⟨_, done, (compile_upholds_integrity countingDown wellFormed _ built {} { freeMarkers := true }).1 3 _ done⟩,
    (compile_upholds_integrity countingDown wellFormed _ built { verify := true } { freeMarkers := true }).2⟩

end PassConfig

end MiddleEnd
