import MiddleEnd.Proofs.Optimizing.Outcomes

/-!
Every change that a rule or the elimination of phis reports takes some of the effort (`Rule.lowers_of_mem`,
`PhiElimination.run_lowers`): it makes a type more precise, takes a vertex out or closes an open one.
-/
namespace MiddleEnd

namespace Graph

variable {S : List VertexId} {g h k : Graph} {v n : VertexId} {x : VarId}

/-- `h` is still fit, with `n` of the effort taken. -/
structure Lowered (S : List VertexId) (g h : Graph) (n : Nat) : Prop where
  fit : Fit S h
  effort : h.effort + n ≤ g.effort

namespace Lowered

theorem refl (fit : Fit S g) : Lowered S g g 0 :=
  ⟨fit, Nat.le_refl _⟩

theorem trans {m n : Nat} (first : Lowered S g h m) (second : Lowered S h k n) : Lowered S g k (m + n) :=
  ⟨second.fit, by have := first.effort; have := second.effort; omega⟩

theorem mono {m n : Nat} (lowered : Lowered S g h m) (le : n ≤ m) : Lowered S g h n :=
  ⟨lowered.fit, by have := lowered.effort; omega⟩

end Lowered

theorem Refined.lowered {n : Nat} (refined : g.Refined h n) (fit : Fit S g) : Lowered S g h n :=
  ⟨refined.fit fit, refined.effort⟩

theorem Frames.lowered (frames : g.Frames h) (fit : Fit S g) : Lowered S g h 0 :=
  ⟨frames.fit fit, Nat.le_of_eq frames.effort⟩

/-! ### Vertices that go -/

theorem Drops.lowered (drops : g.Drops v h) (fit : Fit S g) (member : v ∈ g.listed) :
    Lowered S g h (1 + (g.op v).isOpen.toNat) := by
  obtain ⟨k, frames, rfl⟩ := drops
  refine ⟨(frames.fit fit).drop, ?_⟩
  have dropped := effort_drop (frames.listed ▸ member)
  rw [frames.op, frames.effort] at dropped
  omega

theorem Drops.lowered_one (drops : g.Drops v h) (fit : Fit S g) (member : v ∈ g.listed) : Lowered S g h 1 :=
  (drops.lowered fit member).mono (Nat.le_add_right _ _)

theorem lt_of_isOpen (isOpen : (g.op v).isOpen = true) : v < g.store.size := by
  by_contra outside
  simp [op, vertex_of_ge (Nat.le_of_not_lt outside), show (default : Vertex).op = .invalid from rfl, Op.isOpen] at isOpen

/-- An open vertex that is closed takes its part of the effort with it. -/
theorem lowered_close {f : Vertex → Vertex} (fit : Fit S g) (member : v ∈ g.listed) (isOpen : (g.op v).isOpen = true)
    (closes : ∀ w, (f w).op.isOpen = false) (owned : ∀ w, (f w).owned = w.owned)
    (references : ∀ w x, (f w).references (some x) = true → w.references (some x) = true) :
    Lowered S g (g.modifyVertex v f) 1 := by
  refine ⟨⟨fun w listed x named => ?_, fun w listed contains => ?_, fit.declared⟩, ?_⟩
  · rw [vertex_modifyVertex] at named
    split at named
    · exact fit.inScope w listed x (references _ x named)
    · exact fit.inScope w listed x named
  · rw [Graph.contains, congr_modifyVertex Vertex.owned owned] at contains
    exact fit.listed w listed contains
  · have ops (w : VertexId) (still : ((g.modifyVertex v f).op w).isOpen = true) : (g.op w).isOpen = true := by
      rw [op, vertex_modifyVertex] at still
      split at still
      · simp [closes] at still
      · exact still
    have closed : ((g.modifyVertex v f).op v).isOpen = false := by
      rw [op, vertex_modifyVertex_self (lt_of_isOpen isOpen)]
      exact closes _
    have perm := List.perm_cons_erase member
    have others := List.countP_mono_left (l := g.listed.erase v) fun w _ => ops w
    show g.listed.length + g.listed.countP (fun w => ((g.modifyVertex v f).op w).isOpen) + g.slack + 1 ≤ g.effort
    rw [effort, perm.countP_eq, perm.countP_eq, List.countP_cons_of_neg (by simp [closed]),
      List.countP_cons_of_pos (by simp [isOpen])]
    omega

end Graph

namespace Rule

variable {S : List VertexId} {g h : Graph} {v : VertexId} {changed : Bool}

/-! ### Rules -/

theorem frames_forget (a : Option VarId) : g.Frames (forget v g a) := by
  refine .foldl _ fun h _ u _ => .modifyVertex (fun _ => rfl) (fun _ => rfl) fun w x named => .inl ?_
  rw [Vertex.references_iff] at named ⊢
  exact named.imp_right List.mem_of_mem_erase

theorem frames_withReach : g.Frames g.withReach.1 := by
  have noted (found : Option (Nat × VertexSet)) : g.Frames { g with reach := found } :=
    ⟨rfl, rfl, rfl, fun _ => rfl, fun _ => rfl, id⟩
  unfold Graph.withReach
  split
  · split
    · exact .refl
    · exact noted _
  · exact noted _

/-- What the rule changes at a listed vertex takes some of the effort. -/
def Lowers (r : Rule) : Prop :=
  ∀ ⦃S g v changed h⦄, Graph.Fit S g → v ∈ g.listed → (r.apply v).Succeeds g changed h →
    Graph.Lowered S g h changed.toNat

theorem lowers_of_types {r : Rule} (types : ∀ {g v}, Types (g.Tells v) g (r.apply v)) : r.Lowers :=
  fun _ _ v _ _ fit member done =>
    ((types.ends done).refined (fun _ _ tells => tells.2) fun x _ tells => fit.inScope v member x tells.1).lowered fit

theorem pruneUnreachable_lowers (fit : Graph.Fit S g) (member : v ∈ g.listed)
    (done : (pruneUnreachable v).Succeeds g changed h) : Graph.Lowered S g h changed.toNat := by
  rcases pruneUnreachable_succeeds done with ⟨rfl, _, rfl⟩ | ⟨rfl, _, rfl⟩ | ⟨rfl, _, _, _, rfl⟩
  · exact .refl fit
  · exact frames_withReach.lowered fit
  · have frames := frames_withReach.trans
      (.foldl (g := g.withReach.1) (g.withReach.1.vertex v).writes fun h _ a _ => frames_forget (g := h) (v := v) a)
    exact (frames.lowered fit).trans (Graph.drops_detach.lowered_one (frames.fit fit) (frames.listed ▸ member))

theorem foldBranch_lowers (fit : Graph.Fit S g) (member : v ∈ g.listed)
    (done : (foldBranch v).Succeeds g changed h) : Graph.Lowered S g h changed.toNat := by
  rcases foldBranch_succeeds done with ⟨rfl, rfl, _⟩ | ⟨rfl, isJumpIf, x, c, thenTo, elseTo, _, _, _, rfl⟩
  · exact .refl fit
  · have frames : g.Frames (g.removeEdge v (if c.truthy then elseTo else thenTo)) := .removeEdge ..
    refine (frames.lowered fit).trans (Graph.lowered_close (frames.fit fit) (frames.listed ▸ member) ?_ ?_ ?_ ?_)
    · rw [frames.op, isJumpIf]
      rfl
    · exact fun _ => rfl
    · exact fun _ => rfl
    · intro w x named
      rw [Vertex.references_iff] at named ⊢
      exact .inl (named.resolve_right (by simp))

theorem foldConstants_lowers (fit : Graph.Fit S g) (member : v ∈ g.listed)
    (done : (foldConstants v).Succeeds g changed h) : Graph.Lowered S g h changed.toNat := by
  rcases foldConstants_succeeds done with ⟨rfl, rfl⟩ | ⟨rfl, c, typed, k, computes, refined, rfl⟩
  · exact .refl fit
  have isOpen : (g.op v).isOpen = true := by rcases computes.op with is | is | is <;> rw [is] <;> rfl
  have size : (g.addConst c).vars.size = g.vars.size + 1 := by simp [Graph.addConst]
  have result (y : VarId) (isResult : (g.vertex v).result = some y) : y < (g.addConst c).vars.size :=
    size ▸ Nat.lt_succ_of_lt (fit.inScope v member y (Vertex.references_iff.mpr (.inl isResult)))
  have refined : (g.addConst c).Refined k typed.toNat := by
    refine (typing_refineType refined).refined ?_ fun y _ given => result y given.1
    rintro _ _ ⟨_, ⟨⟩⟩
    exact c.kind_ty
  have typed : Graph.Lowered S (g.addConst c) k 0 := (refined.lowered fit.addConst).mono (Nat.zero_le _)
  generalize isAdded : k.addVertex .assign (g.vertex v).result [some g.vars.size] = k'
  have fit' : Graph.Fit S k' := by
    rw [← isAdded]
    refine typed.fit.addVertex fun x named => ?_
    rw [refined.retyped.vars]
    rcases named with isResult | isConst
    · exact result x isResult
    · obtain rfl : x = g.vars.size := by simpa using isConst
      exact size ▸ Nat.lt_succ_self _
  have member' : v ∈ k'.listed := by
    rw [← isAdded, Graph.listed_addVertex, refined.retyped.listed]
    exact List.mem_append_left _ member
  have old : v ≠ k.store.size := by
    rw [refined.retyped.store]
    exact Nat.ne_of_lt (Graph.lt_of_isOpen isOpen)
  have stays : (k'.op v).isOpen = true := by
    rwa [← isAdded, Graph.op, Graph.vertex_addVertex_of_ne old, refined.retyped.vertex]
  have replaced := (Graph.drops_replace (n := g.store.size)).lowered fit' member'
  rw [stays] at replaced
  refine ⟨replaced.fit, ?_⟩
  have added : k'.effort ≤ k.effort + 1 := isAdded ▸ Graph.effort_addVertex rfl
  have constant : (g.addConst c).effort = g.effort := Graph.effort_addConst
  have := replaced.effort
  have := typed.effort
  simp only [Bool.toNat_true] at *
  omega

theorem removeDead_lowers (fit : Graph.Fit S g) (member : v ∈ g.listed)
    (done : (removeDead v).Succeeds g changed h) : Graph.Lowered S g h changed.toNat := by
  rcases removeDead_succeeds done with ⟨rfl, rfl⟩ | ⟨rfl, _, _, _, _, rfl⟩
  · exact .refl fit
  · exact Graph.drops_splice.lowered_one fit member

theorem Unified.lowered (unified : Unified g h v) (fit : Graph.Fit S g) (member : v ∈ g.listed) :
    Graph.Lowered S g h 1 := by
  obtain ⟨result, t, isResult, unknown, known, refined⟩ := unified.typed
  have typed : g.Refined (g.setVarType result (some t)) 1 := by
    refine .setVarType_lt (fit.inScope v member result (Vertex.references_iff.mpr (.inl isResult))) ?_
    rw [Ty.slack_of_unknown unknown]
    exact Nat.lt_succ_of_le (Ty.slack_le (by simpa [Ty.isKnown, Ty.kindOf] using known))
  exact (typed.trans refined).lowered fit

theorem simplifyPhi_lowers (fit : Graph.Fit S g) (member : v ∈ g.listed)
    (done : (simplifyPhi v).Succeeds g changed h) : Graph.Lowered S g h changed.toNat := by
  rcases simplifyPhi_succeeds done with ⟨rfl, rfl⟩ | ⟨rfl, unified | simplified⟩
  · exact .refl fit
  · exact unified.lowered fit member
  · obtain ⟨result, input, k, _, args, refined, _, rfl⟩ := simplified.renamed
    have typed := refined.lowered fit
    have spliced := Graph.drops_splice.lowered_one typed.fit (refined.retyped.listed ▸ member)
    have input_lt : input < (k.splice v).vars.size := by
      rw [Graph.drops_splice.vars, refined.retyped.vars]
      exact fit.inScope v member input (Vertex.references_iff.mpr (.inr (by simp [args])))
    exact (typed.trans spliced).trans ((Graph.Frames.replaceVariable input_lt).lowered spliced.fit)

theorem checkCallee_lowers {sigs : Signatures}
    (resolved : ∀ callee sig, sigs.lookup callee = some sig → sig.result.kind ≠ .unknown) (fit : Graph.Fit S g)
    (member : v ∈ g.listed) (done : (checkCallee sigs v).Succeeds g changed h) : Graph.Lowered S g h changed.toNat := by
  rcases checkCallee_succeeds done with ⟨rfl, rfl⟩ | ⟨rfl, isCall, rfl⟩ | ⟨sig, isSig, done⟩
  · exact .refl fit
  · exact Graph.lowered_close fit member (by rw [isCall]; rfl) (fun _ => rfl) (fun _ => rfl) fun _ _ => id
  · have declared : sig.result.kind ≠ .unknown := by
      rcases Graph.lookup_of_signatureAt? isSig with rfl | ⟨callee, found⟩
      · exact fit.declared
      · exact resolved callee sig found
    have typing : g.Typing (g.Tells v) changed h := (typing_checkCall done).mono fun x t given =>
      given.elim id fun ⟨isResult, isType⟩ => Graph.tells_result isResult (isType ▸ declared)
    exact (typing.refined (fun _ _ tells => tells.2) fun x _ tells => fit.inScope v member x tells.1).lowered fit

theorem lowers_of_mem {sigs : Signatures} (resolved : ∀ callee sig, sigs.lookup callee = some sig → sig.result.kind ≠ .unknown)
    {r : Rule} (member : r ∈ all sigs) : r.Lowers := by
  simp only [all, List.mem_cons, List.not_mem_nil, or_false] at member
  rcases member with rfl | rfl | rfl | rfl | rfl | rfl | rfl | rfl | rfl | rfl
  · exact fun _ _ _ _ _ => pruneUnreachable_lowers
  · exact fun _ _ _ _ _ => foldBranch_lowers
  · exact lowers_of_types types_inferAssign
  · exact lowers_of_types types_inferBinaryOp
  · exact lowers_of_types types_inferUnaryOp
  · exact fun _ _ _ _ _ => foldConstants_lowers
  · exact fun _ _ _ _ _ => removeDead_lowers
  · exact fun _ _ _ _ _ => simplifyPhi_lowers
  · exact fun _ _ _ _ _ => checkCallee_lowers resolved
  · exact lowers_of_types types_checkReturn

end Rule

namespace PhiElimination

variable {S : List VertexId} {g h : Graph} {phi : VertexId} {changed : Bool}

theorem eliminate_lowers (fit : Graph.Fit S g) (known : phi ∈ S) (done : (eliminate phi).Succeeds g changed h) :
    Graph.Lowered S g h changed.toNat := by
  rcases eliminate_succeeds done with ⟨rfl, rfl⟩ | ⟨rfl, eliminated⟩
  · exact .refl fit
  have member := fit.listed phi known eliminated.contains
  obtain ⟨inputs, k, args, refined, rfl⟩ := eliminated.renamed
  have spliced := Graph.drops_splice.lowered_one fit member
  have typed := spliced.trans (refined.lowered spliced.fit)
  refine typed.trans (Graph.Frames.lowered (.foldl _ fun k' same y isInput => ?_) typed.fit)
  -- a phi with inputs has a result, which is in scope as long as the variables are the same
  obtain ⟨r, result⟩ := eliminated.result.resolve_left (by simpa [args] using List.ne_nil_of_mem isInput)
  rw [result]
  refine .replaceVariable ?_
  rw [same, refined.retyped.vars, Graph.drops_splice.vars]
  exact fit.inScope phi member r (Vertex.references_iff.mpr (.inl result))

theorem typeCycles_lowers (fit : Graph.Fit S g) (done : typeCycles.Succeeds g changed h) :
    Graph.Lowered S g h changed.toNat := by
  obtain ⟨defs, cycles, arePhis, done⟩ := typeCycles_succeeds done
  have step : ∀ cycle ∈ cycles, ∀ {k changed k'}, g.Retyped k ∧ Graph.Fit S k →
      (typeCycle defs cycle).Succeeds k changed k' →
      (g.Retyped k' ∧ Graph.Fit S k') ∧ k'.effort + changed.toNat ≤ k.effort := by
    rintro cycle isCycle k changed k' ⟨retyped, fit⟩ done
    rcases typeCycle_succeeds done with ⟨rfl, rfl⟩ | ⟨rfl, phi, inCycle, unified⟩
    · exact ⟨⟨retyped, fit⟩, Nat.le_refl _⟩
    · have listed : phi ∈ g.listed := (List.mem_filter.mp (arePhis cycle isCycle phi inCycle)).1
      have lowered := unified.lowered fit (retyped.listed ▸ listed)
      exact ⟨⟨retyped.trans unified.refined.retyped, lowered.fit⟩, lowered.effort⟩
  obtain ⟨⟨_, fit'⟩, lower⟩ := Action.foldlM_lowers (P := fun k => g.Retyped k ∧ Graph.Fit S k) (μ := Graph.effort)
    ⟨.refl, fit⟩ step done
  exact ⟨fit', by simpa using lower⟩

theorem run_lowers {s s' : Coalescing} (fit : Graph.Fit S s.graph) (done : run.Succeeds s changed s') :
    Graph.Lowered s.graph.listed s.graph s'.graph changed.toNat := by
  obtain ⟨progress, typed, t, resolved, cycles, rfl⟩ := run_succeeds done
  have step : ∀ phi ∈ s.graph.verticesOf .phi, ∀ {t changed t'}, Graph.Fit s.graph.listed t.graph →
      (resolve phi).Succeeds t changed t' →
      Graph.Fit s.graph.listed t'.graph ∧ t'.graph.effort + changed.toNat ≤ t.graph.effort := by
    intro phi isPhi t changed t' fit done
    have lowered := eliminate_lowers fit (List.mem_filter.mp isPhi).1 (resolve_succeeds done)
    exact ⟨lowered.fit, lowered.effort⟩
  obtain ⟨fit', lower⟩ := Action.foldlM_lowers (P := fun t => Graph.Fit s.graph.listed t.graph)
    (μ := fun t => t.graph.effort) fit.restart step resolved
  have lowered := typeCycles_lowers fit' cycles
  have either : (progress || typed).toNat ≤ progress.toNat + typed.toNat := by
    cases progress <;> cases typed <;> decide
  refine ⟨lowered.fit, ?_⟩
  have := lowered.effort
  simp only [Bool.toNat_false] at lower
  omega

end PhiElimination

end MiddleEnd
