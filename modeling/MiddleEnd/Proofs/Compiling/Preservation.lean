import MiddleEnd.Pipeline
import MiddleEnd.Proofs.Compiling.Construction
import MiddleEnd.Proofs.Compiling.Versions
import MiddleEnd.Proofs.Optimizing.Sweeps

/-!
The passes keep what a function does. Around a pass the graph is only looked at (`PassConfig.runPass_succeeds`), single
assignment form behaves as its source, and the optimizer keeps the runs of what is fit for it.
-/
namespace MiddleEnd

open MiddleEnd.Graph

/-! ### What is done around a pass -/

/-- Work that leaves the graph and what is known about it alone. -/
def Action.Looks (work : Action PassState Unit) : Prop :=
  ∀ ⦃s s'⦄, work.Succeeds s () s' → s'.analysis = s.analysis

namespace Action.Looks

variable {first next : Action PassState Unit}

theorem nothing : Looks (pure ()) :=
  fun _ _ done => (Action.pure_succeeds.mp done).2 ▸ rfl

theorem bind (looks : Looks first) (after : Looks next) : Looks (first >>= fun _ => next) := by
  intro s s' done
  obtain ⟨_, t, done, rest⟩ := Action.bind_succeeds.mp done
  exact (after rest).trans (looks done)

theorem change {f : PassState → PassState} (kept : ∀ s, (f s).analysis = s.analysis) : Looks (modify f) :=
  fun s _ done => Action.modify_succeeds.mp done ▸ kept s

/-- A check that passes changes nothing. -/
theorem failIf {why : Option Failure} : Looks (Pass.failIf why) := by
  cases why with
  | some why => exact fun _ _ done => absurd done Action.not_fail_succeeds
  | none => exact nothing

theorem verify {place : Place} (after : Looks next) :
    Looks (get >>= fun s => (Pass.failIf s.analysis.graph.verify).within place >>= fun _ => next) := by
  intro s s' done
  obtain ⟨_, t, passed, rest⟩ := Action.bind_succeeds.mp (Action.get_bind_succeeds.mp done)
  exact (after rest).trans (failIf (Action.within_succeeds.mp passed))

end Action.Looks

namespace PassConfig

variable {config : PassConfig} {s s' : PassState}

theorem looks_dumpGraph {heading : String} : (dumpGraph heading).Looks := by
  intro s s' done
  simp only [dumpGraph, Action.get_bind_succeeds, Action.modify_bind_succeeds] at done
  split at done
  · exact Action.modify_succeeds.mp done ▸ rfl
  · rw [Action.modify_bind_succeeds] at done
    have missing : (Action.need (none : Option Unit)).Succeeds _ () s' := done
    simp at missing

/-- What is done before a pass. -/
def before (config : PassConfig) (pass function : String) : Action PassState Unit := do
  if config.dumps config.dumpBefore pass function then dumpGraph s!"before {pass}"
  if config.verify then
    (Pass.failIf (← get).analysis.graph.verify).within (.verifyBefore pass)
  note "pass start" pass []

/-- What is done after a pass. -/
def after (config : PassConfig) (pass function : String) : Action PassState Unit := do
  note "pass done" pass [("elapsed", .elapsed)]
  if config.verify then
    (Pass.failIf (← get).analysis.graph.verify).within (.verifyAfter pass)
  if config.dumps config.dumpAfter pass function then dumpGraph s!"after {pass}"

theorem runPass_eq (pass : Pass) : config.runPass pass = (do
    let function := (← get).analysis.graph.name
    config.before pass.name function
    pass.run.within (.pass pass.name)
    config.after pass.name function) := by
  simp only [runPass, before, after]
  congr 1
  funext s
  split <;> split <;> simp only [bind_assoc]

theorem looks_note {message pass : String} {more : List (String × LogValue)} : (note message pass more).Looks :=
  .change fun _ => rfl

theorem looks_before {pass function : String} : (config.before pass function).Looks := by
  rw [before]
  split
  · refine looks_dumpGraph.bind ?_
    split
    · exact .verify looks_note
    · exact looks_note
  · split
    · exact .verify looks_note
    · exact looks_note

theorem looks_after {pass function : String} : (config.after pass function).Looks := by
  have dumped : (if config.dumps config.dumpAfter pass function then dumpGraph s!"after {pass}" else pure ()).Looks := by
    split
    · exact looks_dumpGraph
    · exact .nothing
  refine looks_note.bind ?_
  dsimp only
  by_cases verified : config.verify = true
  · rw [if_pos verified]
    exact .verify dumped
  · rw [if_neg verified]
    exact dumped

/-- Around a pass the graph is only looked at. -/
theorem runPass_succeeds {pass : Pass} (done : (config.runPass pass).Succeeds s () s') :
    ∃ t t', pass.run.Succeeds t () t' ∧ t.analysis = s.analysis ∧ s'.analysis = t'.analysis := by
  rw [runPass_eq, Action.get_bind_succeeds] at done
  obtain ⟨_, t, begun, rest⟩ := Action.bind_succeeds.mp done
  obtain ⟨_, t', ran, ended⟩ := Action.bind_succeeds.mp rest
  exact ⟨t, t', Action.within_succeeds.mp ran, looks_before begun, looks_after ended⟩

end PassConfig

/-! ### What the passes keep -/

namespace Pass

variable {s s' : PassState}

theorem singleAssignment_succeeds {checkSingle : Bool} (done : (singleAssignment checkSingle).run.Succeeds s () s') :
    Analysis.toSingleAssignment.Succeeds s.analysis () s'.analysis := by
  obtain ⟨_, t, split, checked⟩ := Action.bind_succeeds.mp done
  obtain ⟨a, split, rfl⟩ := Action.on_succeeds.mp split
  have same : s'.analysis = a := by
    split at checked
    · rw [Action.get_bind_succeeds, Action.within_succeeds] at checked
      exact Action.Looks.failIf checked
    · exact Action.Looks.nothing checked
  rwa [same]

theorem optimize_succeeds {signatures : Signatures} {maxSweeps : Int}
    (done : (optimize signatures maxSweeps).run.Succeeds s () s') :
    ∃ o, (Optimizer.process (Rule.all signatures) maxSweeps).Succeeds { graph := s.analysis.graph } () o ∧
      s'.analysis.graph = o.graph := by
  rw [optimize, Action.on_succeeds] at done
  obtain ⟨o, ran, rfl⟩ := done
  exact ⟨o, ran, rfl⟩

end Pass

namespace Graph.Complete

variable {g : Graph} {a : Analysis}

/-- A complete graph in single assignment form is fit for the optimizer. -/
theorem sweepable (complete : g.Complete) (spares : g.SparesParams) {src : VarId → VarId} (stage : Stage g src [] a) :
    Sweepable src a.graph where
  optimizable := stage.versioned.optimizable complete.sound complete.owned complete.fresh complete.onward
  phase := .inl (stage.oneWriter complete.inScope complete.sound.wired.entry_listed complete.owned spares)

end Graph.Complete

namespace PassConfig

/-- Running the standard passes, without the release of variables, is splitting and then optimizing. -/
theorem compile_succeeds {config : PassConfig} {options : PassOptions} {s s' : PassState}
    (noFrees : options.freeMarkers = false) (done : (config.compile options).Succeeds s () s') :
    ∃ a o, Analysis.toSingleAssignment.Succeeds s.analysis () a ∧
      (Optimizer.process (Rule.all options.signatures) options.maxSweeps).Succeeds { graph := a.graph } () o ∧
      s'.analysis.graph = o.graph := by
  have passes : Pass.standard options =
      [Pass.singleAssignment options.checkSingle, Pass.optimize options.signatures options.maxSweeps] := by
    simp [Pass.standard, noFrees]
  rw [compile, run, passes, Action.forM_cons_succeeds] at done
  obtain ⟨middle, first, rest⟩ := done
  obtain ⟨last, second, ended⟩ := Action.forM_cons_succeeds.mp rest
  obtain rfl := Action.forM_nil_succeeds.mp ended
  obtain ⟨t, t', split, begun, splitEnd⟩ := runPass_succeeds first
  obtain ⟨u, u', optimized, resumed, optimizedEnd⟩ := runPass_succeeds second
  obtain ⟨o, ran, graph⟩ := Pass.optimize_succeeds optimized
  refine ⟨t'.analysis, o, begun ▸ Pass.singleAssignment_succeeds split, ?_, by rw [optimizedEnd, graph]⟩
  rwa [← splitEnd, ← resumed]

/-- The passes keep what a function does, as long as its unreachable code writes no parameter: when they succeed, the
graph they leave shows the same outputs and calls in the same order and returns the same as the one that was built,
whatever operators and calls mean and whatever the arguments are. -/
theorem compile_sameRuns (source : Source) (wellFormed : source.WellFormed) (g : Graph) (built : source.graph? = some g)
    (spares : g.SparesParams) (config : PassConfig) (options : PassOptions) (noFrees : options.freeMarkers = false)
    (s : PassState) (done : (config.compile options).Succeeds { analysis := { graph := g } } () s) {V : Type}
    (m : Meaning V) (arguments : Nat → V) : SameRuns m arguments g s.analysis.graph := by
  have complete := Source.complete_graph wellFormed built
  obtain ⟨a, o, split, optimized, graph⟩ := compile_succeeds noFrees done
  have dated : Analysis.Dated { graph := g } := nofun
  have stage := Analysis.stage_toSingleAssignment complete.sound complete.inScope complete.noPhi dated split
  have optimizing := Optimizer.process_succeeds (complete.sweepable spares stage) optimized
  rw [graph]
  exact (stage.versioned.sameRuns complete.sound complete.noPhi).trans (optimizing.runs m arguments)

/-- Counts down to zero, with code behind the return that writes another variable. -/
def countingDown : Source where
  name := "f"
  sig := ⟨[some .long], .long⟩
  params := ["n"]
  statements := [.label, .label, .const (.long 1), .bind 2, .binaryInto 0 .minus 0 1, .jumpIf 0 2 3, .bind 3, .ret (some 0),
    .var "m", .assign 2 1]

def countingDownGraph : Graph where
  name := "f"
  sig := ⟨[some .long], .long⟩
  entry := 0
  exit := 1
  store := #[
    { op := .function, args := [some 0], succs := [2], owned := true },
    { op := .finish, preds := [6, 8], owned := true },
    { op := .label, succs := [4], preds := [0, 5], owned := true },
    { op := .label, succs := [6], preds := [5], owned := true },
    { op := .binary, binOp := .minus, result := some 0, args := [some 0, some 1], succs := [5], preds := [2],
      owned := true },
    { op := .jumpIf, args := [some 0], succs := [2, 3], preds := [4], owned := true },
    { op := .ret, args := [some 0], succs := [1], preds := [3], owned := true },
    { op := .assign, result := some 2, args := [some 1], succs := [8], owned := true },
    { op := .ret, succs := [1], preds := [7], owned := true }]
  listed := [0, 1, 2, 3, 4, 5, 6, 7, 8]
  vars := #[{ name := "n", type := some .long }, { type := some .long, value := some (.long 1) },
    { name := "m", type := some .unknown }]
  epoch := 18
  reach := none

theorem countingDown_sameRuns :
    countingDown.WellFormed ∧ countingDown.graph? = some countingDownGraph ∧ countingDownGraph.SparesParams ∧
    ∃ s, (compile {} {}).Succeeds { analysis := { graph := countingDownGraph } } () s ∧
      ∀ {V : Type} (m : Meaning V) (arguments : Nat → V), SameRuns m arguments countingDownGraph s.analysis.graph := by
  have wellFormed : countingDown.WellFormed := by decide
  have built : countingDown.graph? = some countingDownGraph := by cbv
  have spares : countingDownGraph.SparesParams := by
    intro u x member param writes
    have isN : x = 0 := by simpa [params, countingDownGraph, vertex] using param
    subst isN
    -- besides the entry only the loop writes the parameter
    have writers : ∀ u ∈ countingDownGraph.listed, 0 ∈ (countingDownGraph.vertex u).targets → u = 0 ∨ u = 4 := by decide
    rcases writers u member writes with rfl | rfl
    · exact .refl
    · exact (Reachable.refl.step (u := 0) (v := 2) (by decide)).step (by decide)
  have ok : ((compile {} {}).outcome { analysis := { graph := countingDownGraph } }).1 = .ok () := by cbv
  have done : (compile {} {}).Succeeds { analysis := { graph := countingDownGraph } } () _ := Prod.ext ok rfl
  exact ⟨wellFormed, built, spares, _, done, fun m arguments =>
    compile_sameRuns countingDown wellFormed _ built spares {} {} rfl _ done m arguments⟩

/-! ### Unreachable code that writes a parameter -/

/-- Literals as values: operators do what folding them does. -/
def literals : Meaning Literal where
  undefined := .null
  literal := id
  truthy := Literal.truthy
  binary op a b := (Literal.foldBinary op a b).getD .null
  unary op a := (Literal.foldUnary op a).getD .null
  answer _ _ _ := .null
  truthy_literal _ := rfl
  binary_literal folds := by simp [folds]
  unary_literal folds := by simp [folds]

/-- Returns one if the argument is not zero and the argument otherwise, with code behind the return that writes the
parameter. -/
def normalizing : Source where
  name := "f"
  sig := ⟨[some .long], .long⟩
  params := ["x"]
  statements := [.label, .label, .jumpIf 0 2 3, .bind 2, .const (.long 1), .assign 0 1, .bind 3, .ret (some 0),
    .const (.long 2), .assign 0 2]

def normalizingGraph : Graph where
  name := "f"
  sig := ⟨[some .long], .long⟩
  entry := 0
  exit := 1
  store := #[
    { op := .function, args := [some 0], succs := [4], owned := true },
    { op := .finish, preds := [6, 8], owned := true },
    { op := .label, succs := [5], preds := [4], owned := true },
    { op := .label, succs := [6], preds := [4, 5], owned := true },
    { op := .jumpIf, args := [some 0], succs := [2, 3], preds := [0], owned := true },
    { op := .assign, result := some 0, args := [some 1], succs := [3], preds := [2], owned := true },
    { op := .ret, args := [some 0], succs := [1], preds := [3], owned := true },
    { op := .assign, result := some 0, args := [some 2], succs := [8], owned := true },
    { op := .ret, succs := [1], preds := [7], owned := true }]
  listed := [0, 1, 2, 3, 4, 5, 6, 7, 8]
  vars := #[{ name := "x", type := some .long }, { type := some .long, value := some (.long 1) },
    { type := some .long, value := some (.long 2) }]
  epoch := 18
  reach := none

/-- What the passes make of it. The phi that joined the argument and one was left with one alone, and went. -/
def normalizingCompiled : Graph where
  name := "f"
  sig := ⟨[some .long], .long⟩
  entry := 0
  exit := 1
  store := #[
    { op := .function, args := [some 0], succs := [4], owned := true },
    { op := .finish, preds := [6], owned := true },
    { op := .label, succs := [5], preds := [4], owned := true },
    { op := .label, succs := [6], preds := [4, 5], owned := true },
    { op := .jumpIf, args := [some 0], succs := [2, 3], preds := [0], owned := true },
    { op := .assign, result := some 3, args := [some 1], succs := [3], preds := [2], owned := true },
    { op := .ret, args := [some 3], succs := [1], preds := [3], owned := true },
    { op := .assign, result := some 0, args := [some 2] },
    { op := .ret },
    { op := .phi, result := some 4, args := [some 3] }]
  listed := [0, 1, 2, 3, 4, 5, 6]
  vars := #[{ name := "x", type := some .long }, { type := some .long, value := some (.long 1) },
    { type := some .long, value := some (.long 2) }, { name := "x", type := some .long }, { name := "x", type := some .long }]
  epoch := 27
  reach := some (27, .ofList [0, 1, 2, 3, 4, 5, 6])

theorem graph?_normalizing : normalizing.graph? = some normalizingGraph := by
  cbv

theorem ok_normalizing : ((compile {} {}).outcome { analysis := { graph := normalizingGraph } }).1 = .ok () := by
  cbv

theorem graph_normalizing :
    ((compile {} {}).outcome { analysis := { graph := normalizingGraph } }).2.analysis.graph = normalizingCompiled := by
  cbv

/-- The argument zero is returned as it is. -/
theorem ends_normalizing : normalizingGraph.Ends literals (fun _ => .long 0) [.returned (some (.long 0))] := by
  have visits : normalizingGraph.Visits literals (fun _ => .long 0)
      ⟨1, [(0, .long 0)], [.returned (some (.long 0))]⟩ := by
    refine .tail (b := ⟨6, [(0, .long 0)], []⟩) (.tail (b := ⟨3, [(0, .long 0)], []⟩)
      (.tail (b := ⟨4, [(0, .long 0)], []⟩) (.tail .refl ?_) ?_) ?_) ?_
    all_goals rfl
  exact ⟨_, visits, rfl, rfl⟩

/-- Compiled, a variable is returned that nothing wrote. -/
theorem ends_normalizingCompiled : normalizingCompiled.Ends literals (fun _ => .long 0) [.returned (some .null)] := by
  have visits : normalizingCompiled.Visits literals (fun _ => .long 0) ⟨1, [(0, .long 0)], [.returned (some .null)]⟩ := by
    refine .tail (b := ⟨6, [(0, .long 0)], []⟩) (.tail (b := ⟨3, [(0, .long 0)], []⟩)
      (.tail (b := ⟨4, [(0, .long 0)], []⟩) (.tail .refl ?_) ?_) ?_) ?_
    all_goals rfl
  exact ⟨_, visits, rfl, rfl⟩

/-- Unreachable code that writes a parameter changes what the compiled function returns. -/
theorem normalizing_differs :
    normalizing.WellFormed ∧ normalizing.graph? = some normalizingGraph ∧
    ∃ s, (compile {} {}).Succeeds { analysis := { graph := normalizingGraph } } () s ∧
      ¬ SameRuns literals (fun _ => .long 0) normalizingGraph s.analysis.graph := by
  have done : (compile {} {}).Succeeds { analysis := { graph := normalizingGraph } } () _ := Prod.ext ok_normalizing rfl
  refine ⟨by decide, graph?_normalizing, _, done, fun same => ?_⟩
  rw [graph_normalizing] at same
  have returned := ends_normalizingCompiled.unique ((same.ends _).mp ends_normalizing)
  simp at returned

end PassConfig

end MiddleEnd
