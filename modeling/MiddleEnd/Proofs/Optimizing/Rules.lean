import MiddleEnd.Proofs.Optimizing.ConstantFolding
import MiddleEnd.Proofs.Optimizing.Outcomes
import MiddleEnd.Proofs.Optimizing.Pruning
import MiddleEnd.Proofs.Optimizing.Shortening

/-!
What the rules of the optimizer do to a graph at a vertex that can be reached (`Graph.Rewritten`). A rule that says
it changed nothing left the graph as it was, so a sweep that says so met only rules that decline.
-/
namespace MiddleEnd

/-- A vertex that is not pruned. -/
def Graph.Alive (g : Graph) (v : VertexId) : Prop :=
  v = g.exit ∨ Reachable g.succs g.entry v

namespace Rule

variable {src : VarId → VarId} {g h : Graph} {v : VertexId} {changed : Bool}

theorem rewrites_checkCallee {sigs : Signatures} (done : (checkCallee sigs v).Succeeds g changed h) :
    (g.Retyped h ∧ (changed = false → h = g)) ∨ (changed = true ∧ g.Recalled h) := by
  rcases checkCallee_succeeds done with ⟨_, rfl⟩ | ⟨rfl, isCall, rfl⟩ | ⟨sig, _, done⟩
  · exact .inl ⟨.refl, fun _ => rfl⟩
  · exact .inr ⟨rfl, Graph.recalled_modifyVertex isCall⟩
  · have typing := typing_checkCall done
    exact .inl ⟨typing.retyped, by rintro rfl; exact typing.unchanged⟩

/-! ### Constants -/

end Rule

namespace Graph.Computes

variable {g : Graph} {v : VertexId} {c : Literal}

theorem idempotent (computes : g.Computes v c) : (g.op v).info.idempotent = true := by
  rcases computes.op with is | is | is <;> simp [is, Op.info]

theorem ordinary (computes : g.Computes v c) : g.op v ≠ .phi := by
  rcases computes.op with is | is | is <;> simp [is]

/-- Whatever operators mean, the vertex computes the constant. -/
theorem value (computes : g.Computes v c) {V : Type} (m : Meaning V) {t : Machine V} (at_v : t.vertex = v) :
    g.computed m t = m.literal c := by
  subst at_v
  cases computes with
  | binary isBinary first second isA isB folds =>
    rw [Graph.op] at isBinary
    simp only [computed, isBinary, getD_operands first isA, getD_operands second isB, m.binary_literal folds]
  | unary isUnary first isA folds =>
    have computed : g.computed m t = m.unary (g.vertex t.vertex).op ((g.operands m t).getD 0 m.undefined) := by
      rcases isUnary with is | is <;> rw [Graph.op] at is <;> simp only [computed, is]
    rw [computed, getD_operands first isA, m.unary_literal folds]

end Graph.Computes

namespace Rule

variable {src : VarId → VarId} {g h : Graph} {v : VertexId} {changed : Bool}

theorem folds_branch (routed : g.Routed) (owned : g.contains v = true)
    (done : (foldBranch v).Succeeds g changed h) :
    (changed = false ∧ h = g) ∨ (changed = true ∧ ∃ taken, g.BranchFolded h v taken) := by
  rcases foldBranch_succeeds done with ⟨rfl, rfl, _⟩ | ⟨rfl, isJumpIf, x, c, thenTo, elseTo, arg, value, succs, rfl⟩
  · exact .inl ⟨rfl, rfl⟩
  · exact .inr ⟨rfl, _, Graph.branchFolded_removeEdge routed.wired (routed.owned owned) isJumpIf arg value succs⟩

theorem folds_constants (routed : g.Routed) (alive : g.Alive v)
    (done : (foldConstants v).Succeeds g changed h) :
    (changed = false ∧ h = g) ∨ (changed = true ∧ ∃ s value, g.ConstantFolded h v s value) := by
  rcases foldConstants_succeeds done with same | ⟨rfl, c, typed, k, computes, refined, rfl⟩
  · exact .inl same
  · have reached : Reachable g.succs g.entry v := alive.resolve_left (routed.ne_exit computes.idempotent)
    obtain ⟨s, folded⟩ := Graph.constantFolded_replace routed reached computes.idempotent computes.ordinary computes.value
      (refineType_retyped refined)
    exact .inr ⟨rfl, s, c, folded⟩

/-! ### Vertices to take out -/

theorem removes_dead (routed : g.Routed) (alive : g.Alive v) (done : (removeDead v).Succeeds g changed h) :
    (changed = false ∧ h = g) ∨ (changed = true ∧ ∃ y, g.DeadRemoved h v y) := by
  rcases removeDead_succeeds done with same | ⟨rfl, idempotent, ⟨y, result⟩, few, _, rfl⟩
  · exact .inl same
  have reached : Reachable g.succs g.entry v := alive.resolve_left (routed.ne_exit idempotent)
  obtain ⟨s, only, other⟩ := routed.exists_next reached idempotent
  have member := routed.listed reached
  have spliced := routed.wired.splice member (routed.ne_entry idempotent) only other
  refine .inr ⟨rfl, y, idempotent, result, fun {u} listed isOther => ?_, spliced.shortened routed.wired (routed.ne_entry idempotent),
    fun {u} isOther => spliced.body u isOther⟩
  -- a second vertex that references the result would have kept this one in the graph
  rw [← Bool.not_eq_true]
  intro references
  have first : v ∈ g.references (g.vertex v).result := List.mem_filter.mpr ⟨member, Vertex.references_iff.mpr (.inl rfl)⟩
  have second : u ∈ g.references (g.vertex v).result := List.mem_filter.mpr ⟨listed, result ▸ references⟩
  rcases found : g.references (g.vertex v).result with _ | ⟨a, _ | ⟨b, rest⟩⟩
  · simp [found] at first
  · rw [found, List.mem_singleton] at first second
    exact isOther (second.trans first.symm)
  · simp [found] at few

/-- A vertex is pruned unless it can be reached or ends the graph. -/
theorem prunes (routed : g.Routed) (owned : g.contains v = true)
    (done : (pruneUnreachable v).Succeeds g changed h) :
    ∃ found, ({ g with reach := found } : Graph).Cached ∧
      ((changed = false ∧ h = { g with reach := found } ∧ g.Alive v) ∨
        (changed = true ∧ ({ g with reach := found } : Graph).Pruned h v)) := by
  obtain ⟨found, noted, cached, reachable⟩ := Graph.withReach_spec
    (fun u reached s edge => routed.wired.lt_of_reachable (reached.step edge)) routed.cached
  rcases pruneUnreachable_succeeds done with ⟨rfl, isEnd, rfl⟩ | ⟨rfl, reached, rfl⟩ | ⟨rfl, notEntry, notExit, unreached, rfl⟩
  · refine ⟨h.reach, routed.cached, .inl ⟨rfl, rfl, ?_⟩⟩
    rcases isEnd with rfl | rfl
    · exact .inr .refl
    · exact .inl rfl
  · exact ⟨found, cached, .inl ⟨rfl, noted, .inr ((reachable v).mp reached)⟩⟩
  · rw [noted]
    refine ⟨found, cached, .inr ⟨rfl, ?_⟩⟩
    exact Graph.pruned_detach (routed.noted cached) owned notEntry notExit (mt (reachable v).mpr unreached)

end Rule

namespace Graph

variable {V : Type} {m : Meaning V} {arguments : Nat → V} {src : VarId → VarId} {g h k : Graph} {v : VertexId}

/-- `h` is `g` after a rule was applied at `v`, other than the one that prunes. -/
inductive Rewritten (g : Graph) (v : VertexId) (h : Graph) : Prop
  | retyped (retyped : g.Retyped h)
  | recalled (recalled : g.Recalled h)
  | branchFolded {taken : VertexId} (folded : g.BranchFolded h v taken)
  | constantFolded {s : VertexId} {value : Literal} (folded : g.ConstantFolded h v s value)
  | deadRemoved {y : VarId} (dead : g.DeadRemoved h v y)
  | simplified (simplified : Rule.Simplified g h v)

/-- What holds throughout the work of the optimizer. -/
structure Sweepable (src : VarId → VarId) (g : Graph) : Prop where
  optimizable : Optimizable src g
  phase : g.OneWriter ∨ g.Trimmed

/-- `h` is still fit for the optimizer and behaves as `g`, and the vertex `v` is not to be pruned. -/
structure Improved (src : VarId → VarId) (v : VertexId) (g h : Graph) : Prop where
  sweepable : Sweepable src h
  runs : ∀ {V : Type} (m : Meaning V) (arguments : Nat → V), SameRuns m arguments g h
  alive : h.contains v = true → h.Alive v

theorem Improved.trans (first : Improved src v g h) (second : Improved src v h k) : Improved src v g k :=
  ⟨second.sweepable, fun m arguments => (first.runs m arguments).trans (second.runs m arguments), second.alive⟩

/-- A vertex that a rule leaves in the graph is still not to be pruned. -/
theorem Rewritten.alive (rewritten : g.Rewritten v h) (routed : g.Routed) (alive : g.Alive v) (contains : h.contains v = true) :
    h.Alive v := by
  cases rewritten with
  | retyped retyped => rwa [Alive, retyped.exit, retyped.succs, retyped.entry]
  | recalled recalled => rwa [Alive, recalled.exit, recalled.succs, recalled.entry]
  | branchFolded folded =>
    refine .inr (folded.reachable_self (alive.resolve_left ?_))
    rintro rfl
    have isJumpIf := folded.isJumpIf
    simp [routed.exitOp] at isJumpIf
  | constantFolded folded => exact absurd rfl (folded.ne_of_contains contains)
  | deadRemoved dead => exact absurd rfl (dead.short.ne_of_contains contains)
  | simplified simplified =>
    have idempotent : (g.op v).info.idempotent = true := by simp [simplified.isPhi, Op.info]
    have reached := alive.resolve_left (routed.ne_exit idempotent)
    obtain ⟨s, only, other⟩ := routed.exists_next reached idempotent
    obtain ⟨_, _, _, _, coalesced⟩ : ∃ result input, _ ∧ _ ∧ Coalesced (fun _ => 0) (mergeInto [result] input) g h v :=
      coalesced_of_simplified routed.wired (routed.listed reached) only other (fun _ _ => rfl) simplified
    exact absurd rfl (coalesced.shortened.ne_of_contains contains)

theorem Rewritten.improved (rewritten : g.Rewritten v h) (sweepable : Sweepable src g) (owned : g.contains v = true)
    (alive : g.Alive v) : Improved src v g h := by
  have still := rewritten.alive sweepable.optimizable.toRouted alive
  obtain ⟨inv, phase⟩ := sweepable
  have reached (idempotent : (g.op v).info.idempotent = true) : Reachable g.succs g.entry v :=
    alive.resolve_left (inv.toRouted.ne_exit idempotent)
  cases rewritten with
  | retyped retyped =>
    exact ⟨⟨retyped.optimizable inv, phase.imp retyped.oneWriter retyped.trimmed⟩, fun m arguments => retyped.sameRuns, still⟩
  | recalled recalled =>
    have narrowed : Narrowed src g h := recalled.narrowed inv.toRouted
    exact ⟨⟨narrowed.optimizable inv, phase.imp (narrowed.oneWriter inv) recalled.trimmed⟩,
      fun m arguments => recalled.sameRuns, still⟩
  | branchFolded folded =>
    have narrowed : Narrowed src g h := folded.narrowed inv.toRouted
    have once : g.OneWriter := phase.resolve_right fun trimmed => trimmed.branches owned folded.decided
    exact ⟨⟨narrowed.optimizable inv, .inl (narrowed.oneWriter inv once)⟩, fun m arguments => folded.sameRuns, still⟩
  | constantFolded folded =>
    have reached := reached folded.idempotent
    exact ⟨⟨folded.optimizable inv reached, phase.imp (folded.oneWriter inv reached) (folded.trimmed inv reached)⟩,
      fun m arguments => folded.sameRuns inv, still⟩
  | deadRemoved dead =>
    exact ⟨⟨dead.optimizable inv, phase.imp (dead.oneWriter inv) (dead.trimmed inv)⟩,
      fun m arguments => dead.sameRuns inv, still⟩
  | simplified simplified =>
    have idempotent : (g.op v).info.idempotent = true := by simp [simplified.isPhi, Op.info]
    have reached := reached idempotent
    obtain ⟨s, only, other⟩ := inv.toRouted.exists_next reached idempotent
    obtain ⟨_, _, _, _, coalesced⟩ := coalesced_of_simplified inv.wired (inv.listed reached) only other
      (inv.coherent.inputs reached simplified.isPhi) simplified
    exact ⟨⟨coalesced.optimizable inv, phase.imp (fun once => oneWriter_of_simplified inv once reached simplified)
      (coalesced.trimmed inv)⟩, fun m arguments => coalesced.sameRuns inv, still⟩

end Graph

namespace Rule

/-- A rule rewrites the graph at a vertex, and if it says no, leaves it alone. -/
def Rewrites (r : Rule) : Prop :=
  ∀ ⦃g v changed h⦄, Graph.Routed g → g.contains v = true → g.Alive v → (r.apply v).Succeeds g changed h →
    g.Rewritten v h ∧ (changed = false → h = g)

theorem rewrites_of_types {r : Rule} (types : ∀ {g v}, Types (g.Tells v) g (r.apply v)) : r.Rewrites := by
  intro g v changed h _ _ _ done
  have typing := types.ends done
  exact ⟨.retyped typing.retyped, by rintro rfl; exact typing.unchanged⟩

/-- All rules but the one that prunes rewrite the graph. -/
theorem rewrites_of_mem {sigs : Signatures} {r : Rule} (member : r ∈ (all sigs).tail) : r.Rewrites := by
  simp only [all, List.tail_cons, List.mem_cons, List.not_mem_nil, or_false] at member
  rcases member with rfl | rfl | rfl | rfl | rfl | rfl | rfl | rfl | rfl
  · intro g v changed h routed owned _ done
    rcases folds_branch routed owned done with ⟨_, rfl⟩ | ⟨rfl, _, folded⟩
    · exact ⟨.retyped .refl, fun _ => rfl⟩
    · exact ⟨.branchFolded folded, by simp⟩
  · exact rewrites_of_types types_inferAssign
  · exact rewrites_of_types types_inferBinaryOp
  · exact rewrites_of_types types_inferUnaryOp
  · intro g v changed h routed _ alive done
    rcases folds_constants routed alive done with ⟨_, rfl⟩ | ⟨rfl, _, _, folded⟩
    · exact ⟨.retyped .refl, fun _ => rfl⟩
    · exact ⟨.constantFolded folded, by simp⟩
  · intro g v changed h routed _ alive done
    rcases removes_dead routed alive done with ⟨_, rfl⟩ | ⟨rfl, _, dead⟩
    · exact ⟨.retyped .refl, fun _ => rfl⟩
    · exact ⟨.deadRemoved dead, by simp⟩
  · intro g v changed h _ _ _ done
    rcases simplifyPhi_succeeds done with ⟨_, rfl⟩ | ⟨rfl, unified | simplified⟩
    · exact ⟨.retyped .refl, fun _ => rfl⟩
    · exact ⟨.retyped unified.refined.retyped, by simp⟩
    · exact ⟨.simplified simplified, by simp⟩
  · intro g v changed h _ _ _ done
    rcases rewrites_checkCallee done with ⟨retyped, same⟩ | ⟨rfl, recalled⟩
    · exact ⟨.retyped retyped, same⟩
    · exact ⟨.recalled recalled, by simp⟩
  · exact rewrites_of_types types_checkReturn

end Rule

end MiddleEnd
