import MiddleEnd.Proofs.Compiling.Construction
import MiddleEnd.Proofs.SingleAssignment
import MiddleEnd.Proofs.Verified

/-!
Where paths meet. In what the builder makes, only labels and the exit are entered by more than one edge
(`Graph.MergesAtLabels`): a vertex gets one edge when it is emitted, and all other edges come from jumps and returns. A
vertex in a dominance frontier is always entered by more than one edge, so phis are only ever asked for at labels; and
splitting a variable leaves the number of edges into a vertex as it was. So single assignment form can be made of every
function that was built (`Source.graph_merges_at_labels`).
-/
namespace MiddleEnd

open MiddleEnd.Graph

namespace Graph

/-- Only at labels and at the exit does more than one edge arrive. -/
def MergesAtLabels (g : Graph) : Prop :=
  ∀ v ∈ g.listed, 1 < (g.preds v).length → g.op v = .label ∨ g.op v = .finish

namespace MergesAtLabels

variable {g h : Graph} {v t : VertexId}

theorem congr (merges : g.MergesAtLabels) (listed : ∀ v ∈ h.listed, v ∈ g.listed) (op : ∀ v ∈ h.listed, h.op v = g.op v)
    (preds : ∀ v ∈ h.listed, (h.preds v).length = (g.preds v).length) : h.MergesAtLabels := by
  intro v member many
  rw [op v member]
  exact merges v (listed v member) (preds v member ▸ many)

theorem modifyVertex {f : Vertex → Vertex} (merges : g.MergesAtLabels) (op : ∀ w, (f w).op = w.op)
    (preds : ∀ w, (f w).preds = w.preds) : (g.modifyVertex v f).MergesAtLabels :=
  merges.congr (fun _ member => member) (fun w _ => congr_modifyVertex Vertex.op op w)
    fun w _ => congrArg List.length (congr_modifyVertex Vertex.preds preds w)

/-- An edge may be added to a label, to the exit, and to what no edge leads to yet. -/
theorem addEdge (merges : g.MergesAtLabels) (free : g.op t = .label ∨ g.op t = .finish ∨ g.preds t = []) :
    (g.addEdge v t).MergesAtLabels := by
  have op (w : VertexId) : (g.addEdge v t).op w = g.op w := (Vertex.body_eq_iff.mp (rewired_addEdge.body w)).op
  intro w member many
  rw [rewired_addEdge.listed] at member
  rw [op]
  by_cases isTarget : w = t
  · subst isTarget
    rcases free with isLabel | isFinish | none
    · exact .inl isLabel
    · exact .inr isFinish
    · have before : ((g.modifyVertex v fun u => { u with succs := u.succs ++ [w] }).vertex w).preds = [] := by
        rw [congr_modifyVertex Vertex.preds]
        · exact none
        · exact fun _ => rfl
      rw [Graph.addEdge, Graph.preds, vertex_touch, vertex_modifyVertex] at many
      split at many <;> simp [before] at many
  · have same : (g.addEdges v [t]).preds w = g.preds w := preds_addEdges_of_notMem [t] (by simpa using isTarget)
    exact merges w member (same ▸ many)

theorem addEdges (merges : g.MergesAtLabels) {targets : List VertexId}
    (free : ∀ t ∈ targets, g.op t = .label ∨ g.op t = .finish) : (g.addEdges v targets).MergesAtLabels := by
  induction targets generalizing g with
  | nil => exact merges
  | cons t targets ih =>
    refine ih (merges.addEdge ((free t List.mem_cons_self).imp_right .inl)) fun s member => ?_
    rw [Graph.op, (Vertex.body_eq_iff.mp (rewired_addEdge.body s)).op]
    exact free s (List.mem_cons_of_mem _ member)

/-- No edge leads to a vertex that was just put down. -/
theorem gains {w : Vertex} (merges : g.MergesAtLabels) (gains : g.Gains h w) (apart : w.preds = []) :
    h.MergesAtLabels := by
  intro v member many
  by_cases isNew : v = g.store.size
  · rw [Graph.preds, isNew, gains.new, apart] at many
    simp at many
  · rw [gains.listed, List.mem_append, List.mem_singleton, or_iff_left isNew] at member
    rw [Graph.preds, gains.old isNew] at many
    rw [Graph.op, gains.old isNew]
    exact merges v member many

theorem foldl_drop (merges : g.MergesAtLabels) (gone : List VertexId) : (gone.foldl drop g).MergesAtLabels := by
  refine List.foldlRecOn (motive := MergesAtLabels) _ _ merges fun g merges v _ => ?_
  refine merges.congr (fun w member => List.mem_of_mem_erase member) (fun w _ => ?_) fun w _ => by rw [preds_drop]
  rw [Graph.op, drop, vertex_touch, congr_modifyVertex Vertex.op]
  · rfl
  · exact fun _ => rfl

end MergesAtLabels

end Graph

/-! ### What the builder makes -/

namespace Builder

variable {b : Builder} {bound jumped : List VertexId} {v : VertexId}

theorem mergesAtLabels_emit (merges : b.graph.MergesAtLabels) (free : b.graph.op v = .label ∨ b.graph.preds v = []) :
    (b.emit v).graph.MergesAtLabels := by
  rw [emit]
  cases b.point with
  | none => exact merges
  | some last => exact merges.addEdge (free.imp_right .inr)

/-- A vertex that is put down gets its edge when it is emitted. -/
theorem mergesAtLabels_append (merges : b.graph.MergesAtLabels) {h : Graph} {w : Vertex} (gains : b.graph.Gains h w)
    (apart : w.preds = []) : ({ b with graph := h }.emit b.graph.store.size).graph.MergesAtLabels := by
  refine mergesAtLabels_emit (b := { b with graph := h }) (merges.gains gains apart) (.inr ?_)
  exact (congrArg Vertex.preds gains.new).trans apart

/-- Jumps and returns lead to labels and the exit. -/
theorem mergesAtLabels_leave (merges : b.graph.MergesAtLabels) {op : Op} {args : List (Option VarId)}
    {targets : List VertexId} (free : ∀ t ∈ targets, b.graph.op t = .label ∨ b.graph.op t = .finish) :
    (b.leave op args targets).graph.MergesAtLabels := by
  rw [leave]
  split
  · have gains : b.graph.Gains (b.graph.addVertex op none args) { op, args, owned := true } := gains_addVertex
    refine (mergesAtLabels_append merges gains rfl).addEdges fun t member => ?_
    have inside : t < b.graph.store.size :=
      lt_of_op (by rcases free t member with isOp | isOp <;> rw [isOp] <;> rfl)
    rw [op_emit, gains.op_old inside]
    exact free t member
  · exact merges

theorem mergesAtLabels_ret (merges : b.graph.MergesAtLabels) (standing : Standing b bound jumped) {x : Option VarId} :
    (b.ret x).graph.MergesAtLabels :=
  mergesAtLabels_leave merges (by simpa using .inr standing.laid.exitOp)

theorem mergesAtLabels_var (merges : b.graph.MergesAtLabels) (name : String) : (b.var name).2.graph.MergesAtLabels := by
  rw [var]
  split <;> exact merges

theorem mergesAtLabels_run (merges : b.graph.MergesAtLabels) (standing : Standing b bound jumped) {st : Statement}
    (allowed : st.Allowed b.graph bound) : (st.run b).graph.MergesAtLabels := by
  cases st with
  | var name => exact mergesAtLabels_var merges name
  | typedVar name type => exact mergesAtLabels_var merges name
  | temp => exact merges
  | const value => exact merges
  | assign dst src => exact mergesAtLabels_append merges gains_addVertex rfl
  | binaryInto dst op x y =>
    exact mergesAtLabels_append merges
      (gains_addVertex.modify (f := fun w => { w with binOp := op }) (fun _ => rfl) fun _ => rfl) rfl
  | binary op x y =>
    exact mergesAtLabels_append (b := b.temp.2) merges
      (gains_addVertex.modify (f := fun w => { w with binOp := op }) (fun _ => rfl) fun _ => rfl) rfl
  | unary op x => exact mergesAtLabels_append (b := b.temp.2) merges gains_addVertex rfl
  | call callee args =>
    exact mergesAtLabels_append (b := b.temp.2) merges
      (gains_addVertex.modify (f := fun w => { w with callee }) (fun _ => rfl) fun _ => rfl) rfl
  | echo args => exact mergesAtLabels_append merges gains_addVertex rfl
  | label => exact merges.gains gains_addVertex rfl
  | bind l => exact mergesAtLabels_emit merges (.inl allowed.1)
  | jump target => exact mergesAtLabels_leave merges (by simpa using .inl allowed)
  | jumpIf cond thenTo elseTo =>
    obtain ⟨_, thenLabel, elseLabel⟩ := allowed
    exact mergesAtLabels_leave merges (by simp [thenLabel, elseLabel])
  | ret x => exact mergesAtLabels_ret merges standing

theorem mergesAtLabels_start {name : String} {sig : Signature} {params : List String}
    (begun : start name sig params = .ok b) : b.graph.MergesAtLabels := by
  rw [start] at begun
  split at begun
  · simp at begun
  · obtain rfl := Except.ok.inj begun
    have blank : (Graph.empty name sig).MergesAtLabels := by
      intro v member many
      rw [show (Graph.empty name sig).listed = [0, 1] from rfl, List.mem_pair] at member
      rcases member with rfl | rfl
      all_goals simp [Graph.empty, addVertex, Graph.preds, Graph.vertex] at many
    refine List.foldlRecOn (motive := fun b : Builder => b.graph.MergesAtLabels) _ _ blank fun b merges p _ => ?_
    exact merges.congr (fun v member => member) (fun v _ => congr_addParam Vertex.op (fun _ _ => rfl) v)
      fun v _ => congrArg List.length (congr_addParam Vertex.preds (fun _ _ => rfl) v)

/-- From one statement to the next, up to the end. -/
theorem mergesAtLabels_of_accepts {statements : List Statement} (merges : b.graph.MergesAtLabels)
    (standing : Standing b bound jumped) (accepts : b.Accepts bound jumped statements) :
    (statements.foldl (fun b st => st.run b) b).finish.graph.MergesAtLabels := by
  induction statements generalizing b bound jumped with
  | nil => exact (mergesAtLabels_ret merges standing).foldl_drop _
  | cons st rest ih => exact ih (mergesAtLabels_run merges standing accepts.1) (standing.run accepts.1) accepts.2

end Builder

/-! ### Frontiers -/

/-- What dominates the only source of edges to a vertex strictly dominates the vertex. -/
theorem Dominates.strict_of_only_source {next : VertexId → List VertexId} {root c p v : VertexId} (other : v ≠ root)
    (reached : Reachable next root v) (only : ∀ u, Reachable next root u → v ∈ next u → u = p)
    (dom : Dominates next root c p) : c ≠ v ∧ Dominates next root c v := by
  refine ⟨?_, .of_sources other fun u edge past trail => ?_⟩
  · -- the first arrival at `v` comes from `p`, where `c` has been passed before
    rintro rfl
    obtain ⟨past, trail, first⟩ := reached.exists_first
    obtain ⟨before, u, rfl, toU, edge⟩ := trail.exists_last fun none => other (none ▸ trail).eq_root.symm
    obtain rfl := only u toU.reachable edge
    rcases dom before toU with passed | same
    · exact first (List.mem_append_left _ passed)
    · exact first (by simp [same])
  · obtain rfl := only u trail.reachable edge
    exact dom past trail

/-- More than one edge leads to a vertex of a frontier. -/
theorem Dominators.Faithful.merges_of_mem_frontier {d : Dominators} {g : Graph} (faithful : d.Faithful g)
    (sound : g.Sound) {v w : VertexId} (member : w ∈ d.frontier g v) : 1 < (g.preds w).length := by
  have reached := faithful.reachable_of_mem_frontier member
  have listed := sound.wired.listed_of_reachable reached
  obtain ⟨_, _, _, notStrict, p, back, dominated⟩ := Dominators.mem_frontier.mp member
  have back : p ∈ g.preds w := by simpa [against, faithful.forward] using back
  have inner : w ≠ g.entry := by
    rintro rfl
    simp [sound.entryPreds] at back
  by_contra few
  obtain ⟨q, single⟩ := List.length_eq_one_iff.mp
    (Nat.le_antisymm (Nat.le_of_not_lt few) (List.length_pos_of_mem back))
  obtain rfl : p = q := by simpa [single] using back
  have only (u : VertexId) (from_u : Reachable g.succs g.entry u) (edge : w ∈ g.succs u) : u = p := by
    have source := (sound.wired.mem_preds_iff (sound.wired.listed_of_reachable from_u) listed).mp edge
    simpa [single] using source
  obtain ⟨other, inside⟩ := Dominates.strict_of_only_source inner reached only (faithful.dominated.mp dominated).2
  have strict : d.strictlyDominatedBy w v = true := by
    simpa [strictlyDominatedBy, Ne.symm other] using faithful.dominated.mpr ⟨reached, inside⟩
  simp [strict] at notStrict

namespace Graph

variable {g : Graph} {x : VarId} {d : Dominators}

theorem exists_labelsFor {ws : List VertexId} (all : ∀ w ∈ ws, g.op w = .label ∨ g.op w = .finish) :
    ∃ labels, g.labelsFor x ws = .ok labels := by
  induction ws with
  | nil => exact ⟨[], rfl⟩
  | cons w ws ih =>
    obtain ⟨labels, rest⟩ := ih fun v member => all v (List.mem_cons_of_mem _ member)
    rw [labelsFor]
    rcases all w List.mem_cons_self with isLabel | isFinish
    · rw [isLabel, rest]
      exact ⟨_, rfl⟩
    · rw [isFinish]
      exact ⟨labels, rest⟩

/-- Phis can be placed for every variable. -/
theorem exists_phiLabels (sound : g.Sound) (faithful : d.Faithful g) (merges : g.MergesAtLabels) (defs : List VertexId) :
    ∃ labels, g.phiLabels d x defs = .ok labels := by
  refine exists_labelsFor fun w member => ?_
  rcases mem_iteratedFrontier member with none | ⟨v, inFrontier⟩
  · simp at none
  · exact merges w (sound.wired.listed_of_reachable (faithful.reachable_of_mem_frontier inFrontier))
      (faithful.merges_of_mem_frontier sound inFrontier)

end Graph

/-! ### Splitting variables -/

namespace Renaming

variable {g : Graph} {x : VarId} {labels : List VertexId} {s : Renaming} {f : RenameFrame} {stack : List RenameFrame}

/-- A phi takes over the edges out of its label, and has one edge itself. -/
theorem mergesAtLabels_placePhi (merges : s.graph.MergesAtLabels) (wired : s.graph.Wired)
    (member : f.vertex ∈ s.graph.listed) : (s.placePhi x f).1.graph.MergesAtLabels := by
  have inside := wired.listed_lt _ member
  have other := Nat.ne_of_lt inside
  have insideLabel : f.vertex < (s.withPhi x f).store.size := by simpa using Nat.lt_succ_of_lt inside
  have insidePhi : s.graph.store.size < (s.withPhi x f).store.size := by simp
  intro v listed many
  rw [graph_placePhi, listed_insertAfter, listed_withPhi, List.mem_append, List.mem_singleton] at listed
  by_cases isNew : v = s.graph.store.size
  · rw [isNew, graph_placePhi, preds_insertAfter_new insideLabel insidePhi other] at many
    simp at many
  · have old : v ∈ s.graph.listed := listed.resolve_right isNew
    have preds : (s.withPhi x f).preds v = s.graph.preds v := by rw [Graph.preds, vertex_withPhi_of_ne isNew, Graph.preds]
    have op : (s.placePhi x f).1.graph.op v = s.graph.op v := by
      by_cases isLabel : v = f.vertex
      · subst isLabel
        exact (Vertex.core_eq_iff.mp (core_placePhi_label (x := x) inside)).op
      · exact (Vertex.core_eq_iff.mp (core_placePhi_of_ne (x := x) inside isLabel isNew)).op
    rw [op]
    refine merges v old ?_
    rw [graph_placePhi, preds_insertAfter_of_ne insideLabel insidePhi other isNew
      (by simpa using Nat.lt_succ_of_lt (wired.listed_lt v old)) ?_, List.length_map, preds] at many
    · exact many
    · rw [preds, Graph.succs, vertex_withPhi_of_ne other]
      exact mt (wired.mem_preds_iff member old).mpr

theorem mergesAtLabels_visit (merges : g.MergesAtLabels) : (visit g x f).1.MergesAtLabels := by
  have read : (if g.op f.vertex ≠ .phi ∧ g.op f.vertex ≠ .function ∧ f.value ≠ x then
      g.modifyVertex f.vertex (·.replaceArgs (some x) (some f.value)) else g).MergesAtLabels := by
    split
    · exact merges.modifyVertex (by simp) (by simp)
    · exact merges
  rw [visit]
  dsimp only
  generalize (if g.op f.vertex ≠ .phi ∧ g.op f.vertex ≠ .function ∧ f.value ≠ x then
    g.modifyVertex f.vertex (·.replaceArgs (some x) (some f.value)) else g) = h at read ⊢
  split
  · exact MergesAtLabels.modifyVertex (g := h.addVar _ _) read (fun _ => rfl) fun _ => rfl
  · exact read

theorem mergesAtLabels_walk (split : Splitting g x labels) (inv : WalkInvariant g x labels s stack)
    (merges : s.graph.MergesAtLabels) : (walk x s stack).MergesAtLabels := by
  fun_induction walk x s stack with
  | case1 s => exact merges
  | case2 s f stack waits placed ih =>
    obtain ⟨past, trail, _⟩ := (inv.frames f List.mem_cons_self).path
    have listed := inv.layout.wired.listed_of_reachable (inv.layout.reachable trail)
    exact ih (inv.placePhi split waits) (mergesAtLabels_placePhi merges inv.layout.wired listed)
  | case3 s f stack quiet phi found h ih =>
    refine ih (inv.join split found) ?_
    cases defined : f.defined with
    | false => simpa [h, defined] using merges
    | true => simpa [h, defined] using merges.modifyVertex (by simp) (by simp)
  | case4 s f stack quiet noPhi unvisited h value defined made ih =>
    have visit := inv.visitMade split unvisited
    rw [made] at visit
    refine ih (visit.walkInvariant split inv quiet noPhi unvisited) ?_
    rw [show h = (Renaming.visit s.graph x f).1 by rw [made]]
    exact mergesAtLabels_visit merges
  | case5 s f stack quiet noPhi visited ih => exact ih (inv.skip noPhi visited) merges

end Renaming

namespace Stage

variable {g : Graph} {src : VarId → VarId} {x : VarId} {rest : List VarId} {a : Analysis}

/-- The next variable can be split. -/
theorem exists_next (stage : Stage g src (x :: rest) a) (fresh : x ∉ rest) (merges : a.graph.MergesAtLabels) :
    ∃ src' a', (Analysis.singleAssignmentOf x).Succeeds a () a' ∧ Stage g src' rest a' ∧ a'.graph.MergesAtLabels := by
  have sound := stage.versioned.sound
  by_cases few : (a.graph.definitions (some x)).length < 2
  · refine ⟨_, a, ?_, stage.keep few, merges⟩
    rw [Analysis.singleAssignmentOf, Action.get_bind_succeeds, if_pos few, Action.pure_succeeds]
    exact ⟨rfl, rfl⟩
  · obtain ⟨labels, chosen⟩ := exists_phiLabels (x := x) sound (Analysis.dominators_faithful sound.wired stage.dated)
      merges (a.graph.definitions (some x))
    have splitting := stage.splitting chosen
    refine ⟨_, _, ?_, stage.split fresh chosen,
      Renaming.mergesAtLabels_walk splitting (Renaming.walkInvariant_start splitting) merges⟩
    have graph : a.dominators.2.graph = a.graph := rfl
    rw [Analysis.singleAssignmentOf, Action.get_bind_succeeds, if_neg few, Action.set_bind_succeeds, graph, chosen,
      Action.set_succeeds]

/-- All variables can be split, one after the other. -/
theorem exists_forM (stage : Stage g src rest a) (distinct : rest.Nodup) (merges : a.graph.MergesAtLabels) :
    ∃ a', (rest.forM Analysis.singleAssignmentOf).Succeeds a () a' := by
  induction rest generalizing a src with
  | nil => exact ⟨a, Action.forM_nil_succeeds.mpr rfl⟩
  | cons x rest ih =>
    obtain ⟨fresh, distinct⟩ := List.nodup_cons.mp distinct
    obtain ⟨_, next, first, stage, merges⟩ := stage.exists_next fresh merges
    obtain ⟨a', others⟩ := ih stage distinct merges
    exact ⟨a', Action.forM_cons_succeeds.mpr ⟨next, first, others⟩⟩

end Stage

/-- Single assignment form can be made of a complete graph whose paths meet at labels. -/
theorem Graph.Complete.exists_toSingleAssignment {g : Graph} (complete : g.Complete) (merges : g.MergesAtLabels) :
    ∃ a, Analysis.toSingleAssignment.Succeeds { graph := g } () a := by
  obtain ⟨xs, mentioned, distinct⟩ := complete.sound.exists_mentioned
  have stage := Analysis.stage_start (a := { graph := g }) complete.sound complete.inScope complete.noPhi nofun mentioned
  obtain ⟨a, done⟩ := stage.exists_forM distinct merges
  refine ⟨a, ?_⟩
  rw [Analysis.toSingleAssignment, Action.get_bind_succeeds, Action.need_bind_succeeds]
  exact ⟨xs, mentioned, done⟩

namespace Source

/-- Every well formed function is built into a graph that passes the integrity check, where only labels and the exit are
entered by more than one edge, and of which single assignment form can be made. -/
theorem graph_merges_at_labels (s : Source) (named : s.params.length = s.sig.params.length) (wellFormed : s.WellFormed) :
    ∃ g, s.graph? = some g ∧ g.verify = none ∧
      (∀ v ∈ g.listed, 1 < (g.preds v).length → g.op v = .label ∨ v = g.exit) ∧
      ∃ a, Analysis.toSingleAssignment.Succeeds { graph := g } () a := by
  obtain ⟨b, begun⟩ : ∃ b, Builder.start s.name s.sig s.params = .ok b := ⟨_, if_neg (not_not.mpr named)⟩
  have built : s.graph? = some (s.statements.foldl (fun b st => st.run b) b).finish.graph := by
    rw [graph?, begun]
    rfl
  have complete := s.complete_graph wellFormed built
  have merges := Builder.mergesAtLabels_of_accepts (Builder.mergesAtLabels_start begun) (Builder.standing_start begun)
    (wellFormed b (by rw [begun]; rfl))
  refine ⟨_, built, verify_eq_none_iff.mpr ⟨complete.sound, fun v member isPhi => absurd isPhi (complete.noPhi v member)⟩,
    fun v member many => (merges v member many).imp_right (complete.sound.vertices v member).onlyExit,
    complete.exists_toSingleAssignment merges⟩

/-- A loop with unreachable code that jumps into it. The variable `m` is written three times, more than one edge leads to
the loop, to what follows it and to the exit, and one label is never placed. -/
def straying : Source where
  name := "f"
  sig := ⟨[some .long], .long⟩
  params := ["n"]
  statements := [.label, .label, .label, .const (.long 1), .var "m", .assign 2 0, .bind 2, .binaryInto 2 .minus 2 1,
    .jumpIf 2 2 3, .assign 2 1, .jumpIf 2 2 3, .jump 3, .bind 3, .ret (some 2), .echo [2]]

theorem straying_merges_at_labels : straying.params.length = straying.sig.params.length ∧ straying.WellFormed ∧
    ∃ g, straying.graph? = some g ∧ g.verify = none ∧
      (∀ v ∈ g.listed, 1 < (g.preds v).length → g.op v = .label ∨ v = g.exit) ∧
      ∃ a, Analysis.toSingleAssignment.Succeeds { graph := g } () a :=
  have wellFormed : straying.WellFormed := by decide
  ⟨rfl, wellFormed, straying.graph_merges_at_labels rfl wellFormed⟩

end Source

end MiddleEnd
