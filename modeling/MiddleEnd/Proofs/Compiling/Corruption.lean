import MiddleEnd.Proofs.Compiling.Integrity
import MiddleEnd.Proofs.Optimizing.Corruption

/-!
When the graph of a function that was built is reported to be corrupt by the optimizer: if the elimination of phis gave two
phis that are left the same result, which takes phis that feed each other, and in no other case
(`Optimizer.process_corrupt_only_on_clash`). It does happen, where phis that cannot be eliminated feed one that can
(`Optimizer.merging_corrupt`).
-/
namespace MiddleEnd

open MiddleEnd.Graph

namespace Optimizer

open MiddleEnd.Analysis (toSingleAssignment)

/-- If the optimizer reports the single assignment form of a graph that was built as corrupt, some phi of it took the result of
another one, and the failure names two phis that have the same result by then. If there are two such phis in the end, it does
report that. -/
theorem process_corrupt_only_on_clash (source : Source) (wellFormed : source.WellFormed) (g : Graph)
    (built : source.graph? = some g) (a : Analysis) (split : toSingleAssignment.Succeeds { graph := g } () a)
    (signatures : Signatures) (maxSweeps : Int) (result : Except Stop Unit) (s : Optimizing)
    (ends : (process (Rule.all signatures) maxSweeps).outcome { graph := a.graph } = (result, s)) :
    (∀ cause, result = .error (.failure cause) → cause.kind = .corrupt →
      ¬ a.graph.Flat ∧ ∃ u v, s.graph.Clash u v ∧ cause = s.graph.clashFailure u v) ∧
    ((∃ u v, s.graph.Clash u v) → ∃ cause, result = .error (.failure cause) ∧ cause.kind = .corrupt) := by
  obtain ⟨_, intact, apart⟩ := (Source.complete_graph wellFormed built).toSingleAssignment split
  have tidy : ({ graph := a.graph } : Optimizing).graph.Tidy (¬ a.graph.Flat) := ⟨intact, apart, Decidable.not_or_of_imp id⟩
  rcases result with why | ⟨⟩
  · rcases stops_process tidy ends with ⟨nested, u, v, clash, rfl⟩ | ⟨noClash, other⟩
    · refine ⟨fun cause isCause _ => ⟨nested, u, v, clash, ?_⟩, fun _ => ⟨_, rfl, rfl⟩⟩
      exact (Stop.failure.inj (Except.error.inj isCause)).symm
    · refine ⟨fun cause isCause corrupt => ?_, fun ⟨u, v, clash⟩ => absurd clash (noClash u v)⟩
      exact absurd corrupt (other cause (Except.error.inj isCause))
  · have tidy := process_tidy tidy ends
    exact ⟨nofun, fun ⟨u, v, clash⟩ => absurd clash (tidy.apart.noClash tidy.toIntact)⟩

/-- Passes on its argument or a number, in one of two places, and returns it. -/
def merging : Source where
  name := "f"
  sig := ⟨[some .unknown], .long⟩
  params := ["x"]
  statements := [.label, .label, .label, .label, .label, .const (.long 1), .jumpIf 0 2 3,
    .bind 2, .jumpIf 0 4 5, .bind 3, .assign 0 1, .jumpIf 0 4 5,
    .bind 4, .call "h" [0], .jump 6, .bind 5, .call "h" [0], .bind 6, .ret (some 0)]

def mergingGraph : Graph where
  name := "f"
  sig := ⟨[some .unknown], .long⟩
  entry := 0
  exit := 1
  store := #[
    { op := .function, args := [some 0], succs := [7], owned := true },
    { op := .finish, preds := [14], owned := true },
    { op := .label, succs := [8], preds := [7], owned := true },
    { op := .label, succs := [9], preds := [7], owned := true },
    { op := .label, succs := [11], preds := [8, 10], owned := true },
    { op := .label, succs := [13], preds := [8, 10], owned := true },
    { op := .label, succs := [14], preds := [12, 13], owned := true },
    { op := .jumpIf, args := [some 0], succs := [2, 3], preds := [0], owned := true },
    { op := .jumpIf, args := [some 0], succs := [4, 5], preds := [2], owned := true },
    { op := .assign, result := some 0, args := [some 1], succs := [10], preds := [3], owned := true },
    { op := .jumpIf, args := [some 0], succs := [4, 5], preds := [9], owned := true },
    { op := .call, callee := "h", result := some 2, args := [some 0], succs := [12], preds := [4], owned := true },
    { op := .jump, succs := [6], preds := [11], owned := true },
    { op := .call, callee := "h", result := some 3, args := [some 0], succs := [6], preds := [5], owned := true },
    { op := .ret, args := [some 0], succs := [1], preds := [6], owned := true }]
  listed := List.range 15
  vars := #[{ name := "x", type := some .unknown }, { type := some .long, value := some (.long 1) },
    { type := some .unknown }, { type := some .unknown }]
  epoch := 32
  reach := none

/-- What `merging` passes its values on to takes a number. -/
def mergingSignatures : Signatures :=
  [("h", ⟨[some .long], .long⟩)]

/-- The single assignment form of `mergingGraph`. Two phis merge the argument and the number, and a third one these two. -/
def mergedGraph : Graph where
  name := "f"
  sig := ⟨[some .unknown], .long⟩
  entry := 0
  exit := 1
  store := #[
    { op := .function, args := [some 0], succs := [7], owned := true },
    { op := .finish, preds := [14], owned := true },
    { op := .label, succs := [8], preds := [7], owned := true },
    { op := .label, succs := [9], preds := [7], owned := true },
    { op := .label, succs := [15], preds := [8, 10], owned := true },
    { op := .label, succs := [17], preds := [8, 10], owned := true },
    { op := .label, succs := [16], preds := [12, 13], owned := true },
    { op := .jumpIf, args := [some 0], succs := [2, 3], preds := [0], owned := true },
    { op := .jumpIf, args := [some 0], succs := [4, 5], preds := [2], owned := true },
    { op := .assign, result := some 7, args := [some 1], succs := [10], preds := [3], owned := true },
    { op := .jumpIf, args := [some 7], succs := [4, 5], preds := [9], owned := true },
    { op := .call, callee := "h", result := some 2, args := [some 4], succs := [12], preds := [15], owned := true },
    { op := .jump, succs := [6], preds := [11], owned := true },
    { op := .call, callee := "h", result := some 3, args := [some 6], succs := [6], preds := [17], owned := true },
    { op := .ret, args := [some 5], succs := [1], preds := [16], owned := true },
    { op := .phi, result := some 4, args := [some 0, some 7], succs := [11], preds := [4], owned := true },
    { op := .phi, result := some 5, args := [some 4, some 6], succs := [14], preds := [6], owned := true },
    { op := .phi, result := some 6, args := [some 0, some 7], succs := [13], preds := [5], owned := true }]
  listed := List.range 18
  vars := mergingGraph.vars ++ Array.replicate 4 { name := "x", type := some .unknown }
  epoch := 38
  reach := none

theorem merging_built : merging.graph? = some mergingGraph := by
  cbv

theorem merging_phiLabels : mergingGraph.phiLabels (.ofGraph mergingGraph 0 false) 0 [0, 9] = .ok [4, 5, 6] := by
  -- one round finds the dominators: there is no way back to an earlier vertex
  let sets : Array VertexSet := #[⟨1⟩, ⟨16579⟩, ⟨133⟩, ⟨137⟩, ⟨145⟩, ⟨161⟩, ⟨193⟩, ⟨129⟩, ⟨389⟩, ⟨649⟩, ⟨1673⟩, ⟨2193⟩, ⟨6289⟩,
    ⟨8353⟩, ⟨16577⟩]
  simp only [Dominators.ofGraph]
  rw [Dominators.solve_of_settled (show _ = sets by cbv) (by cbv)]
  cbv

theorem merging_split : toSingleAssignment.Succeeds { graph := mergingGraph } ()
    { graph := mergedGraph, forward := some ⟨32, .ofGraph mergingGraph 0 false⟩ } := by
  have keeps {x : VarId} {a : Analysis} (few : (a.graph.definitions (some x)).length < 2) :
      (Analysis.singleAssignmentOf x).Succeeds a () a := by
    rw [Analysis.singleAssignmentOf, Action.get_bind_succeeds, if_pos few]
    exact Action.pure_succeeds.mpr ⟨rfl, rfl⟩
  have splits : (Analysis.singleAssignmentOf 0).Succeeds { graph := mergingGraph } ()
      { graph := mergedGraph, forward := some ⟨32, .ofGraph mergingGraph 0 false⟩ } := by
    have defs : mergingGraph.definitions (some 0) = [0, 9] := by cbv
    have split : mergingGraph.splitVariable 0 [4, 5, 6] = mergedGraph := by cbv
    simp only [Analysis.singleAssignmentOf, Action.get_bind_succeeds, Analysis.dominators, Analysis.current, defs]
    rw [if_neg (by decide), Action.set_bind_succeeds, show mergingGraph.entry = 0 from rfl, merging_phiLabels]
    exact Action.set_succeeds.mpr (by rw [split]; rfl)
  have second : (mergedGraph.definitions (some 2)).length < 2 := by decide +kernel
  have third : (mergedGraph.definitions (some 3)).length < 2 := by decide +kernel
  rw [toSingleAssignment, Action.get_bind_succeeds, Action.need_bind_succeeds]
  refine ⟨[0, 2, 3], by cbv, Action.forM_cons_succeeds.mpr ⟨_, splits, Action.forM_cons_succeeds.mpr ⟨_, keeps second, ?_⟩⟩⟩
  exact Action.forM_cons_succeeds.mpr ⟨_, keeps third, Action.forM_nil_succeeds.mpr rfl⟩

set_option maxRecDepth 2048 in
theorem merging_reports : ∃ s, (process (Rule.all mergingSignatures) 0).outcome { graph := mergedGraph } =
    (.error (.failure (.corrupt "f" (.phisShareResult "x.5" 15 17) [])), s) := by
  refine Action.exists_outcome ?_
  cbv

theorem merging_clash :
    merging.WellFormed ∧ merging.graph? = some mergingGraph ∧
    ∃ a, toSingleAssignment.Succeeds { graph := mergingGraph } () a ∧
      ∃ cause s, (process (Rule.all mergingSignatures) 0).outcome { graph := a.graph } = (.error (.failure cause), s) ∧
        cause.kind = .corrupt ∧ ¬ a.graph.Flat ∧ ∃ u v, s.graph.Clash u v ∧ cause = s.graph.clashFailure u v := by
  have wellFormed : merging.WellFormed := by decide
  obtain ⟨s, ends⟩ := merging_reports
  obtain ⟨found, _⟩ := process_corrupt_only_on_clash merging wellFormed _ merging_built _ merging_split mergingSignatures 0 _ s
    ends
  exact ⟨wellFormed, merging_built, _, merging_split, _, _, ends, rfl, found _ rfl rfl⟩

/-- All of `mergingGraph` can be reached, and yet its single assignment form is reported to be corrupt. -/
theorem merging_corrupt :
    merging.WellFormed ∧ merging.graph? = some mergingGraph ∧
    (∀ v ∈ mergingGraph.listed, Reachable mergingGraph.succs mergingGraph.entry v) ∧
    ∃ a, toSingleAssignment.Succeeds { graph := mergingGraph } () a ∧
      ∃ s, (process (Rule.all mergingSignatures) 0).outcome { graph := a.graph } =
        (.error (.failure (.corrupt "f" (.phisShareResult "x.5" 15 17) [])), s) := by
  have wellFormed : merging.WellFormed := by decide
  have wired := (Source.complete_graph wellFormed merging_built).sound.wired
  have order : mergingGraph.reversePostOrder = [0, 7, 3, 9, 10, 2, 8, 5, 13, 4, 11, 12, 6, 14, 1] := by cbv
  have covered : ∀ v ∈ mergingGraph.listed, v ∈ [0, 7, 3, 9, 10, 2, 8, 5, 13, 4, 11, 12, 6, 14, 1] := by decide
  refine ⟨wellFormed, merging_built, fun v listed => ?_, _, merging_split, merging_reports⟩
  rw [← order, Graph.reversePostOrder] at covered
  exact (mem_reversePostOrderFrom fun u reached s edge => wired.lt_of_reachable (reached.step edge)).mp (covered v listed)

end Optimizer

end MiddleEnd
