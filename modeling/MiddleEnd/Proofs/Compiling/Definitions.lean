import MiddleEnd.Proofs.Compiling.Preservation
import MiddleEnd.Proofs.Renaming.Inputs

/-!
Which variables are written twice in single assignment form. Splitting a variable gives every write of it that can be reached
a version of its own, but for that of a parameter by the entry; code that cannot be reached is not renamed. So a variable
is still written twice exactly if it is by the entry and such code, or by such code alone
(`Analysis.toSingleAssignment_defines_once_iff`).
-/
namespace MiddleEnd

theorem Vertex.writes_eq {w : Vertex} (operands : none ∉ w.args) : w.writes = w.targets.map some := by
  have all (args : List (Option VarId)) (operands : none ∉ args) : args = (args.filterMap id).map some := by
    induction args with
    | nil => rfl
    | cons a args ih =>
      obtain ⟨present, others⟩ : a ≠ none ∧ none ∉ args := by simpa [eq_comm] using operands
      obtain ⟨x, rfl⟩ := Option.ne_none_iff_exists'.mp present
      exact congrArg (some x :: ·) (ih others)
  refine all w.writes fun missing => ?_
  rw [writes] at missing
  split at missing
  · exact operands missing
  · split at missing
    · rename_i isSome
      rw [List.mem_singleton] at missing
      simp [← missing] at isSome
    · simp at missing

namespace Graph

variable {g : Graph}

/-! ### The check -/

/-- No variable is written by two vertices. -/
def SingleDefinition (g : Graph) : Prop :=
  ∀ ⦃u v x⦄, u ∈ g.listed → v ∈ g.listed → x ∈ (g.vertex u).targets → x ∈ (g.vertex v).targets → u = v

theorem repeatedDefinitions_eq_nil {seen pairs : List (Option VarId × VertexId)} :
    g.repeatedDefinitions seen pairs = [] ↔
      (pairs.map Prod.fst).Nodup ∧ ∀ p ∈ pairs, seen.lookup p.1 = none := by
  induction pairs generalizing seen with
  | nil => simp [repeatedDefinitions]
  | cons p pairs ih =>
    obtain ⟨x, v⟩ := p
    rw [repeatedDefinitions]
    cases found : seen.lookup x with
    | some first =>
      refine iff_of_false (by simp) fun ⟨_, unseen⟩ => ?_
      have absent : seen.lookup x = none := unseen (x, v) List.mem_cons_self
      simp [found] at absent
    | none =>
      have later (p : Option VarId × VertexId) :
          List.lookup p.1 ((x, v) :: seen) = none ↔ p.1 ≠ x ∧ seen.lookup p.1 = none := by
        by_cases same : p.1 = x
        · simp [same]
        · simp [List.lookup_cons, same, beq_false_of_ne same]
      simp only [ih, later, List.map_cons, List.nodup_cons, List.forall_mem_cons, found, true_and, List.mem_map, not_exists,
        not_and]
      grind

/-- A graph that passes the integrity check and has no parameter twice passes this one if no variable is written by two
vertices. -/
theorem verifySingleDefinition_eq_none_iff (verified : g.Verified) (nodup : g.listed.Nodup) (params : g.params.Nodup) :
    g.verifySingleDefinition = none ↔ g.SingleDefinition := by
  have sound := verified.sound
  have mem_writes {v : VertexId} {a : Option VarId} (member : v ∈ g.listed) :
      a ∈ (g.vertex v).writes ↔ ∃ x ∈ (g.vertex v).targets, some x = a := by
    rw [Vertex.writes_eq (sound.vertices v member).operands, List.mem_map]
  have once {v : VertexId} (member : v ∈ g.listed) : (g.vertex v).writes.Nodup := by
    rw [Vertex.writes]
    split
    · rename_i isFunction
      rw [(sound.vertices v member).onlyEntry isFunction]
      exact params
    · split <;> simp
  have checked : g.verifySingleDefinition = Failure.ofViolations g.name (g.repeatedDefinitions [] g.definitionPairs) := by
    rw [verifySingleDefinition, verify_eq_none_iff.mpr verified]
  have none (violations : List Corruption) : Failure.ofViolations g.name violations = none ↔ violations = [] := by
    cases violations <;> simp [Failure.ofViolations]
  have keys : g.definitionPairs.map Prod.fst = g.listed.flatMap fun v => (g.vertex v).writes := by
    simp [definitionPairs, List.map_flatMap, Function.comp_def]
  rw [checked, none, repeatedDefinitions_eq_nil, keys, List.nodup_flatMap]
  constructor
  · rintro ⟨⟨_, apart⟩, _⟩ u v x listedU listedV writesU writesV
    by_contra other
    have : Std.Symm (Function.onFun List.Disjoint fun v => (g.vertex v).writes) := ⟨fun _ _ disjoint => disjoint.symm⟩
    have disjoint := apart.forall listedU listedV other
    exact disjoint ((mem_writes listedU).mpr ⟨x, writesU, rfl⟩) ((mem_writes listedV).mpr ⟨x, writesV, rfl⟩)
  · intro single
    refine ⟨⟨fun v member => once member, nodup.pairwise_of_forall_ne fun u listedU v listedV other => ?_⟩, by simp⟩
    intro a byU byV
    obtain ⟨x, writesU, rfl⟩ := (mem_writes listedU).mp byU
    obtain ⟨y, writesV, same⟩ := (mem_writes listedV).mp byV
    obtain rfl := Option.some.inj same
    exact other (single listedU listedV writesU writesV)

/-! ### What is renamed -/

/-- What splitting variables does not rename: the entry, and what cannot be reached. -/
def Spared (g : Graph) (v : VertexId) : Prop :=
  v = g.entry ∨ ¬ Reachable g.succs g.entry v

/-- No two vertices that are not renamed write the same variable. -/
def SparedApart (g : Graph) : Prop :=
  ∀ u ∈ g.listed, ∀ v ∈ g.listed, g.Spared u → g.Spared v →
    ∀ x, x ∈ (g.vertex u).targets → x ∈ (g.vertex v).targets → u = v

end Graph

/-- What cannot be reached writes what it wrote. -/
theorem Renaming.WalkInvariant.targets_unreached {g : Graph} {x : VarId} {labels : List VertexId} {s : Renaming} {u : VertexId}
    (split : Splitting g x labels) (inv : WalkInvariant g x labels s []) (member : u ∈ g.listed)
    (unreached : ¬ Reachable g.succs g.entry u) : (s.graph.vertex u).targets = (g.vertex u).targets := by
  have old := split.sound.wired.listed_lt u member
  by_cases unvisited : u ∈ s.unvisited
  · exact Vertex.targets_congr (inv.layout.untouched old unvisited)
  · have settled : s.Settled u := ⟨Nat.lt_of_lt_of_le old inv.layout.size, unvisited⟩
    cases found : s.phis.lookup u with
    | some phi => exact absurd (split.placed.reachable u (inv.layout.phi found).1) unreached
    | none =>
      obtain ⟨past, visited⟩ := inv.visited u settled found
      have trail := (inv.expands split).project_kept (inv.layout.entry ▸ visited.trail.1) (by simpa using old)
      exact absurd trail.reachable unreached

/-- Who writes what in `h`, where the variables of `g` but those of `rest` are split. -/
structure Rewritings (g : Graph) (rest : List VarId) (h : Graph) : Prop where
  fresh : ∀ {u v y}, g.vars.size ≤ y → u ∈ h.listed → v ∈ h.listed → y ∈ (h.vertex u).targets → y ∈ (h.vertex v).targets → u = v
  before : ∀ {u y}, y < g.vars.size → u ∈ h.listed → y ∈ (h.vertex u).targets → u ∈ g.listed ∧ y ∈ (g.vertex u).targets
  spared : ∀ {u}, u ∈ g.listed → g.Spared u → (h.vertex u).targets = (g.vertex u).targets
  split : ∀ {y}, y < g.vars.size → y ∉ rest →
    (∀ {u v}, u ∈ h.listed → v ∈ h.listed → y ∈ (h.vertex u).targets → y ∈ (h.vertex v).targets → u = v) ∨
    ∀ {u}, u ∈ h.listed → y ∈ (h.vertex u).targets → g.Spared u

namespace Rewritings

variable {g : Graph} {src : VarId → VarId} {x : VarId} {rest : List VarId} {a : Analysis}

/-- What is not to be split is written by the entry at most. -/
theorem start (sound : g.Sound) (inScope : g.Scoped) {xs : List VarId} (mentioned : g.mentioned? = some xs) :
    Rewritings g xs g where
  fresh unknown listed _ writes _ :=
    absurd (inScope _ listed _ (Vertex.references_of_mem_targets writes)) (Nat.not_lt.mpr unknown)
  before _ listed writes := ⟨listed, writes⟩
  spared _ _ := rfl
  split {y} known notXs := by
    refine .inr fun {u} listed writes => .inl ?_
    have vertex := sound.vertices u listed
    by_cases isFunction : g.op u = .function
    · exact vertex.onlyEntry isFunction
    · have result : (g.vertex u).result = some y := by simpa [Vertex.targets_of_op isFunction] using writes
      have member : y ∈ xs := (Graph.mem_of_mentioned? mentioned).mpr
        ⟨known, vertex.writesVariable y result, u, listed, Vertex.references_of_mem_targets writes⟩
      exact absurd member notXs

/-- A variable with one definition has one in the whole graph. -/
theorem keep (rewritings : Rewritings g (x :: rest) a.graph) (few : (a.graph.definitions (some x)).length < 2) :
    Rewritings g rest a.graph where
  fresh := rewritings.fresh
  before := rewritings.before
  spared := rewritings.spared
  split {y} known notRest := by
    by_cases isX : y = x
    · subst isX
      refine .inl fun {u v} listedU listedV writesU writesV => ?_
      have defines {w : VertexId} (listed : w ∈ a.graph.listed) (writes : y ∈ (a.graph.vertex w).targets) :
          w ∈ a.graph.definitions (some y) := List.mem_filter.mpr ⟨listed, Vertex.mem_targets.mp writes⟩
      have first := defines listedU writesU
      have second := defines listedV writesV
      match found : a.graph.definitions (some y), few with
      | [], _ => simp [found] at first
      | [w], _ => simp_all
    · exact rewritings.split known (by simp [isX, notRest])

/-- Splitting a variable leaves its name to what is spared. -/
theorem splitVariable (rewritings : Rewritings g (x :: rest) a.graph) (wired : g.Wired) (stage : Stage g src (x :: rest) a)
    {labels : List VertexId}
    (chosen : a.graph.phiLabels a.dominators.1 x (a.graph.definitions (some x)) = .ok labels) :
    Rewritings g rest (a.graph.splitVariable x labels) := by
  have versioned := stage.versioned
  have unsplit := stage.unsplit x List.mem_cons_self
  have splitting := stage.splitting chosen
  obtain ⟨s, graph, inv⟩ := Renaming.walkInvariant_splitVariable splitting
  rw [← graph]
  have entry : a.graph.entry = g.entry := versioned.expands.entry
  -- vertices of the source can be reached as they could
  have reachable {u : VertexId} (member : u ∈ g.listed) :
      Reachable a.graph.succs a.graph.entry u ↔ Reachable g.succs g.entry u := by
    refine ⟨fun ⟨past, trail⟩ => (versioned.expands.project_kept trail ?_).reachable, versioned.expands.reachable⟩
    simpa using wired.listed_lt u member
  have known {y : VarId} (old : y < g.vars.size) : y < a.graph.vars.size := Nat.lt_of_lt_of_le old versioned.vars
  refine ⟨?_, ?_, ?_, ?_⟩
  · intro u v y new listedU listedV writesU writesV
    rcases Nat.lt_or_ge y a.graph.vars.size with old | fresh
    · obtain ⟨listedU, writesU⟩ := inv.writes_old splitting listedU old writesU
      obtain ⟨listedV, writesV⟩ := inv.writes_old splitting listedV old writesV
      exact rewritings.fresh new listedU listedV writesU writesV
    · exact inv.writers u listedU v listedV y fresh writesU writesV
  · intro u y old listed writes
    obtain ⟨listed, writes⟩ := inv.writes_old splitting listed (known old) writes
    exact rewritings.before old listed writes
  · intro u member spared
    rw [← rewritings.spared member spared]
    rcases spared with rfl | unreached
    · rw [← entry, inv.targets_entry splitting]
    · exact inv.targets_unreached splitting (versioned.listed.mpr (.inl member)) (mt (reachable member).mp unreached)
  · intro y old notRest
    have before {u : VertexId} (listed : u ∈ s.graph.listed) (writes : y ∈ (s.graph.vertex u).targets) :
        u ∈ a.graph.listed ∧ y ∈ (a.graph.vertex u).targets := inv.writes_old splitting listed (known old) writes
    by_cases isX : y = x
    · subst isX
      refine .inr fun {u} listed writes => or_iff_not_imp_right.mpr fun notUnreached => ?_
      obtain ⟨member, _⟩ := rewritings.before old (before listed writes).1 (before listed writes).2
      have reached := (reachable member).mpr (not_not.mp notUnreached)
      rw [← entry]
      exact inv.eq_entry_of_writes splitting unsplit (inv.layout.entry ▸ (inv.expands splitting).reachable reached) writes
    · refine (rewritings.split old (by simp [isX, notRest])).imp (fun once {u v} listedU listedV writesU writesV => ?_)
        fun spared {u} listed writes => spared (before listed writes).1 (before listed writes).2
      exact once (before listedU writesU).1 (before listedV writesV).1 (before listedU writesU).2 (before listedV writesV).2

theorem forM {a' : Analysis} (rewritings : Rewritings g rest a.graph) (wired : g.Wired) (stage : Stage g src rest a)
    (distinct : rest.Nodup) (done : (rest.forM Analysis.singleAssignmentOf).Succeeds a () a') : Rewritings g [] a'.graph := by
  refine Analysis.forM_induct (P := fun rest b => Rewritings g rest b.graph) stage distinct done rewritings ?_ ?_
  · exact fun x rest b few rewritings => rewritings.keep few
  · exact fun src x rest b labels stage chosen rewritings => rewritings.splitVariable wired stage chosen

/-- When all variables are split, what is written twice is what two spared vertices write. -/
theorem singleDefinition_iff {h : Graph} (rewritings : Rewritings g [] h) (kept : ∀ {v}, v ∈ g.listed → v ∈ h.listed) :
    h.SingleDefinition ↔ g.SparedApart := by
  constructor
  · intro single u listedU v listedV sparedU sparedV x writesU writesV
    rw [← rewritings.spared listedU sparedU] at writesU
    rw [← rewritings.spared listedV sparedV] at writesV
    exact single (kept listedU) (kept listedV) writesU writesV
  · intro apart u v x listedU listedV writesU writesV
    rcases Nat.lt_or_ge x g.vars.size with old | new
    · rcases rewritings.split old (by simp) with once | spared
      · exact once listedU listedV writesU writesV
      · obtain ⟨beforeU, wroteU⟩ := rewritings.before old listedU writesU
        obtain ⟨beforeV, wroteV⟩ := rewritings.before old listedV writesV
        exact apart u beforeU v beforeV (spared listedU writesU) (spared listedV writesV) x wroteU wroteV
    · exact rewritings.fresh new listedU listedV writesU writesV

end Rewritings

/-- The pass with its check succeeds if the check does. -/
theorem Pass.ok_singleAssignment_iff {s : PassState} {a : Analysis}
    (done : Analysis.toSingleAssignment.Succeeds s.analysis () a) :
    ((singleAssignment true).run.outcome s).1 = .ok () ↔ a.graph.verifySingleDefinition = none := by
  have split : (onAnalysis Analysis.toSingleAssignment).Succeeds s () { s with analysis := a } :=
    Action.on_succeeds.mpr ⟨a, done, rfl⟩
  have outcome : ((singleAssignment true).run.outcome s).1 =
      (((failIf a.graph.verifySingleDefinition).within .singleDefinition).outcome { s with analysis := a }).1 := by
    rw [singleAssignment, Action.outcome_bind, show _ = _ from split]
    rfl
  rw [outcome]
  cases a.graph.verifySingleDefinition with
  | none => exact iff_of_true rfl rfl
  | some why =>
    refine iff_of_false (fun ok => ?_) (by simp)
    have ok : (Except.error (.failure (.within .singleDefinition why)) : Except Stop Unit) = .ok () := ok
    simp at ok

namespace Analysis

open MiddleEnd.PassConfig (countingDown countingDownGraph)

/-- Single assignment form of a graph that was built passes the check for single definitions exactly if no variable is written
by two of the vertices that are not renamed: the entry, which writes the parameters, and code that cannot be reached. So the
pass with its check succeeds in this case and in no other. -/
theorem toSingleAssignment_defines_once_iff (source : Source) (wellFormed : source.WellFormed) (g : Graph)
    (built : source.graph? = some g) (a : Analysis) (done : toSingleAssignment.Succeeds { graph := g } () a) :
    (a.graph.verifySingleDefinition = none ↔ g.SparedApart) ∧
    (((Pass.singleAssignment true).run.outcome { analysis := { graph := g } }).1 = .ok () ↔ g.SparedApart) := by
  have complete := Source.complete_graph wellFormed built
  have dated : Analysis.Dated { graph := g } := nofun
  have versioned := (stage_toSingleAssignment complete.sound complete.inScope complete.noPhi dated done).versioned
  obtain ⟨nodup, verified⟩ :=
    toSingleAssignment_verified complete.sound complete.inScope complete.noPhi dated complete.nodup done
  obtain ⟨xs, mentioned, distinct, splits⟩ := toSingleAssignment_succeeds done
  have stage := stage_start (a := { graph := g }) complete.sound complete.inScope complete.noPhi dated mentioned
  have rewritings := (Rewritings.start complete.sound complete.inScope mentioned).forM complete.sound.wired stage distinct splits
  have once : a.graph.verifySingleDefinition = none ↔ g.SparedApart :=
    (Graph.verifySingleDefinition_eq_none_iff verified nodup (versioned.params ▸ complete.params)).trans
      (rewritings.singleDefinition_iff fun member => versioned.listed.mpr (.inl member))
  exact ⟨once, (Pass.ok_singleAssignment_iff done).trans once⟩

theorem countingDown_defines_once :
    countingDown.WellFormed ∧ countingDown.graph? = some countingDownGraph ∧
    ∃ a, toSingleAssignment.Succeeds { graph := countingDownGraph } () a ∧ countingDownGraph.SparedApart ∧
      a.graph.verifySingleDefinition = none ∧
      ((Pass.singleAssignment true).run.outcome { analysis := { graph := countingDownGraph } }).1 = .ok () := by
  have wellFormed : countingDown.WellFormed := by decide
  have built : countingDown.graph? = some countingDownGraph := by cbv
  have ok : (toSingleAssignment.outcome { graph := countingDownGraph }).1 = .ok () := by cbv
  have done := Action.succeeds_of_ok ok
  have apart : countingDownGraph.SparedApart := by
    -- the loop writes the parameter too, but it can be reached
    have writers : ∀ u ∈ countingDownGraph.listed, ∀ v ∈ countingDownGraph.listed, ∀ x ∈ (countingDownGraph.vertex u).targets,
        x ∈ (countingDownGraph.vertex v).targets → u = v ∨ u = 4 ∨ v = 4 := by decide
    have renamed : ¬ countingDownGraph.Spared 4 := by
      rintro (isEntry | unreached)
      · exact absurd isEntry (by decide)
      · exact unreached ((Reachable.refl.step (u := 0) (v := 2) (by decide)).step (by decide))
    intro u listedU v listedV sparedU sparedV x writesU writesV
    rcases writers u listedU v listedV x writesU writesV with same | rfl | rfl
    · exact same
    · exact absurd sparedU renamed
    · exact absurd sparedV renamed
  have once := toSingleAssignment_defines_once_iff countingDown wellFormed _ built _ done
  exact ⟨wellFormed, built, _, done, apart, once.1.mpr apart, once.2.mpr apart⟩

/-- Returns its argument, with code behind the return that writes the parameter. -/
def overwriting : Source where
  name := "f"
  sig := ⟨[some .long], .long⟩
  params := ["x"]
  statements := [.ret (some 0), .const (.long 1), .assign 0 1]

def overwritingGraph : Graph where
  name := "f"
  sig := ⟨[some .long], .long⟩
  entry := 0
  exit := 1
  store := #[
    { op := .function, args := [some 0], succs := [2], owned := true },
    { op := .finish, preds := [2, 4], owned := true },
    { op := .ret, args := [some 0], succs := [1], preds := [0], owned := true },
    { op := .assign, result := some 0, args := [some 1], succs := [4], owned := true },
    { op := .ret, succs := [1], preds := [3], owned := true }]
  listed := [0, 1, 2, 3, 4]
  vars := #[{ name := "x", type := some .long }, { type := some .long, value := some (.long 1) }]
  epoch := 9
  reach := none

/-- In single assignment form the parameter is still written by the entry and by the code behind the return. -/
theorem overwriting_definedTwice :
    overwriting.WellFormed ∧ overwriting.graph? = some overwritingGraph ∧
    ∃ a, toSingleAssignment.Succeeds { graph := overwritingGraph } () a ∧
      a.graph.verifySingleDefinition = some (.corrupt "f" (.definedTwice "x.0" 0 3) []) := by
  have ok : (toSingleAssignment.outcome { graph := overwritingGraph }).1 = .ok () := by cbv
  refine ⟨by decide, by cbv, _, Action.succeeds_of_ok ok, by cbv⟩

end Analysis

end MiddleEnd
