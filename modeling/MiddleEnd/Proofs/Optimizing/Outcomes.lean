import MiddleEnd.Optimizer
import MiddleEnd.Proofs.Optimizing.Effort
import MiddleEnd.Proofs.Optimizing.Steps
import MiddleEnd.Proofs.PhiCycles

/-!
How the rules and the elimination of phis end. What they do when they succeed is said in `Proofs.Optimizing.Steps` and
`Proofs.Coalescing`, but for the rules that only give types to variables: what these can do is said here once, for those
that fail halfway too (`Types`).

A rule that stops leaves the vertices as they were, with types that advanced at most, and there are three reasons for it: an
operand is missing, something is not supported, or a vertex to take out cannot be taken out (`Rule.Stopped`). In the
elimination of phis there is also the case that two phis have the same result. That there were too many sweeps is for the
loop alone to say (`Action.Spares`).
-/
namespace MiddleEnd

namespace Stop

/-- What work on any graph may be stopped by. -/
inductive Refusal : Stop → Prop
  | missing : Refusal (.fault .missing)
  | unsupported (cause : Unsupported) : Refusal (.failure (.unsupported cause))

/-- Not for want of sweeps. -/
def Spared (why : Stop) : Prop :=
  ∀ cause, why = .failure cause → cause.kind ≠ .noFixpoint

theorem spared_missing : Spared (.fault .missing) := by
  simp [Spared]

theorem spared_corrupt {function : String} {first : Corruption} {more : List Corruption} :
    Spared (.failure (.corrupt function first more)) := by
  simp [Spared, Failure.kind]

theorem Spared.within {cause : Failure} {place : Place} (spared : Spared (.failure cause)) :
    Spared (.failure (.within place cause)) := by
  rintro _ ⟨⟩
  exact spared cause rfl

theorem Refusal.spared {why : Stop} (refusal : why.Refusal) : why.Spared := by
  cases refusal with
  | missing => exact spared_missing
  | unsupported cause => simp [Spared, Failure.kind]

theorem Refusal.notCorrupt {why : Stop} (refusal : why.Refusal) : ∀ cause, why = .failure cause → cause.kind ≠ .corrupt := by
  cases refusal with
  | missing => simp
  | unsupported cause => simp [Failure.kind]

end Stop

open MiddleEnd.Stop (Refusal Spared)

/-- Work that never stops for want of sweeps. -/
def Action.Spares {σ α : Type} (work : Action σ α) : Prop :=
  ∀ s, work.StopsWith s fun why _ => why.Spared

/-! ### Types that are given -/

namespace Graph

variable {gives gives' : VarId → Ty → Prop} {g h k : Graph} {v : VertexId} {changed more : Bool}

/-- `h` has the vertices of `g`. -/
structure SameVertices (g h : Graph) : Prop where
  store : h.store = g.store
  listed : h.listed = g.listed

theorem SameVertices.vertex (same : g.SameVertices h) (v : VertexId) : h.vertex v = g.vertex v := by
  rw [Graph.vertex, Graph.vertex, same.store]

theorem Retyped.sameVertices (retyped : g.Retyped h) : g.SameVertices h :=
  ⟨retyped.store, retyped.listed⟩

/-- `h` is `g` with types given one after the other to variables that were still open, each as `gives` allows; `changed`
says whether there was any. -/
inductive Typing (gives : VarId → Ty → Prop) (g : Graph) : Bool → Graph → Prop
  | nothing : Typing gives g false g
  | given {changed : Bool} {h : Graph} {x : VarId} {t : Ty} (before : Typing gives g changed h) (allowed : gives x t)
    (refinable : (h.var x).kind.isRefinable = true) (other : (h.var x).type ≠ some t) :
    Typing gives g true (h.setVarType x (some t))

namespace Typing

theorem trans (first : g.Typing gives changed h) (second : h.Typing gives more k) : g.Typing gives (changed || more) k := by
  induction second with
  | nothing => exact (Bool.or_false changed).symm ▸ first
  | given _ allowed refinable other ih => exact (Bool.or_true changed).symm ▸ .given ih allowed refinable other

theorem mono (typing : g.Typing gives changed h) (implies : ∀ x t, gives x t → gives' x t) : g.Typing gives' changed h := by
  induction typing with
  | nothing => exact .nothing
  | given _ allowed refinable other ih => exact .given ih (implies _ _ allowed) refinable other

theorem retyped (typing : g.Typing gives changed h) : g.Retyped h := by
  induction typing with
  | nothing => exact .refl
  | given _ _ _ _ ih => exact ih.trans (.setVarType _ _)

theorem unchanged (typing : g.Typing gives false h) : h = g := by
  cases typing
  rfl

theorem advanced (typing : g.Typing gives changed h) (known : ∀ x t, gives x t → t.kind ≠ .unknown) : g.Advanced h := by
  induction typing with
  | nothing => exact .refl
  | given _ allowed refinable other ih =>
    exact ih.trans (.setVarType (.of_slack (Ty.slack_lt (known _ _ allowed) refinable other)))

theorem refined (typing : g.Typing gives changed h) (known : ∀ x t, gives x t → t.kind ≠ .unknown)
    (inside : ∀ x t, gives x t → x < g.vars.size) : g.Refined h changed.toNat := by
  induction typing with
  | nothing => exact .refl
  | given before allowed refinable other ih =>
    have less := Ty.slack_lt (known _ _ allowed) refinable other
    have step := Refined.setVarType_lt (before.retyped.vars ▸ inside _ _ allowed) less
    exact (ih.trans step).mono (Nat.le_add_left _ _)

end Typing

/-- What a vertex tells about the type of a variable that it mentions. -/
def Tells (g : Graph) (v : VertexId) (x : VarId) (t : Ty) : Prop :=
  (g.vertex v).references (some x) = true ∧ t.kind ≠ .unknown

theorem tells_result {x : VarId} {t : Ty} (isResult : (g.vertex v).result = some x) (known : t.kind ≠ .unknown) :
    g.Tells v x t :=
  ⟨Vertex.references_iff.mpr (.inl isResult), known⟩

theorem tells_arg {x : VarId} {t : Ty} (isArg : some x ∈ (g.vertex v).args) (known : t.kind ≠ .unknown) : g.Tells v x t :=
  ⟨Vertex.references_iff.mpr (.inr isArg), known⟩

theorem Typing.advanced_of_tells (typing : g.Typing (g.Tells v) changed h) : g.Advanced h :=
  typing.advanced fun _ _ tells => tells.2

end Graph

/-- Work that gives types as `gives` allows, and if it stops has done nothing else either. -/
structure Types (gives : VarId → Ty → Prop) (g : Graph) (work : Action Graph Bool) : Prop where
  ends : ∀ {changed h}, work.Succeeds g changed h → g.Typing gives changed h
  stops : work.StopsWith g fun why h => why.Refusal ∧ ∃ changed, g.Typing gives changed h

theorem typing_refineType {g h : Graph} {x : Option VarId} {t : Option Ty} {changed : Bool}
    (done : (refineType x t).Succeeds g changed h) : g.Typing (fun y u => x = some y ∧ t = some u) changed h := by
  rcases refineType_succeeds done with ⟨rfl, rfl⟩ | ⟨rfl, y, u, isY, isU, refinable, other, rfl⟩
  · exact .nothing
  · exact .given .nothing ⟨isY, isU⟩ refinable other

theorem stops_refineType {g : Graph} {x : Option VarId} {t : Option Ty} :
    (refineType x t).StopsWith g fun why h => why = .fault .missing ∧ h = g := by
  cases t with
  | none => exact .pure
  | some t => exact .need ⟨rfl, rfl⟩ fun _ => .get (.ite (fun _ => .pure) fun _ => .modify_bind .pure)

theorem stops_spliceOut {g : Graph} {v : VertexId} : (spliceOut v).StopsWith g fun why h =>
    h = g ∧ ∃ obstacle, g.removeObstacle v = some obstacle ∧ why = .failure (.corrupt g.name obstacle []) := by
  refine .get ?_
  cases obstacle : g.removeObstacle v with
  | some c => simpa only [Graph.remove, obstacle] using .fail ⟨rfl, c, rfl, rfl⟩
  | none => simpa only [Graph.remove, obstacle] using .set

namespace Types

variable {α : Type} {gives : VarId → Ty → Prop} {g : Graph} {first second : Action Graph Bool}

theorem no : Types gives g (pure false) := by
  refine ⟨fun done => ?_, .pure⟩
  obtain ⟨rfl, rfl⟩ := Action.pure_succeeds.mp done
  exact .nothing

theorem fail {cause : Unsupported} : Types gives g (Action.fail (.unsupported cause)) :=
  ⟨fun done => absurd done Action.not_fail_succeeds, .fail ⟨.unsupported cause, false, .nothing⟩⟩

theorem refine {x : Option VarId} {t : Option Ty} (allowed : ∀ y u, x = some y → t = some u → gives y u) :
    Types gives g (refineType x t) := by
  refine ⟨fun done => (typing_refineType done).mono fun y u given => allowed y u given.1 given.2, stops_refineType.mono ?_⟩
  rintro _ _ ⟨rfl, rfl⟩
  exact ⟨.missing, false, .nothing⟩

theorem get {next : Graph → Action Graph Bool} (types : Types gives g (next g)) : Types gives g (MonadState.get >>= next) :=
  ⟨fun done => types.ends (Action.get_bind_succeeds.mp done), .get types.stops⟩

theorem need {value : Option α} {next : α → Action Graph Bool} (types : ∀ a, value = some a → Types gives g (next a)) :
    Types gives g (Action.need value >>= next) := by
  refine ⟨fun done => ?_, .need ⟨.missing, false, .nothing⟩ fun isA => (types _ isA).stops⟩
  obtain ⟨a, isA, done⟩ := Action.need_bind_succeeds.mp done
  exact (types a isA).ends done

theorem ite {c : Prop} [Decidable c] (yes : c → Types gives g first) (no : ¬ c → Types gives g second) :
    Types gives g (if c then first else second) := by
  split
  · exact yes ‹_›
  · exact no ‹_›

/-- Both parts are done, and the answer is yes if either says so. -/
theorem either (types : Types gives g first) (types' : ∀ {h}, g.Retyped h → Types gives h second) :
    Types gives g (do let changed ← first; let more ← second; return changed || more) := by
  refine ⟨fun done => ?_, .bind types.stops fun {changed k} done => .bind ?_ fun _ => .pure⟩
  · obtain ⟨changed, k, done₁, done⟩ := Action.bind_succeeds.mp done
    obtain ⟨more, k', done₂, done⟩ := Action.bind_succeeds.mp done
    obtain ⟨rfl, rfl⟩ := Action.pure_succeeds.mp done
    have typed := types.ends done₁
    exact typed.trans ((types' typed.retyped).ends done₂)
  · have typed := types.ends done
    refine (types' typed.retyped).stops.mono ?_
    rintro why h ⟨refusal, more, later⟩
    exact ⟨refusal, _, typed.trans later⟩

end Types

/-! ### Rules -/

namespace Rule

variable {gives : VarId → Ty → Prop} {g h : Graph} {v : VertexId} {changed : Bool}

theorem types_inferAssign : Types (g.Tells v) g (inferAssign v) := by
  refine .get (.ite (fun _ => .no) fun _ => .need fun result isResult => .ite (fun _ => .no) fun _ => .need fun source _ =>
    .ite (fun _ => .no) fun known => .refine ?_)
  rintro _ u ⟨⟩ isType
  exact Graph.tells_result isResult (Ty.kind_ne_unknown_of_isKnown (by simpa using known) u isType)

theorem types_inferBinaryOp : Types (g.Tells v) g (inferBinaryOp v) := by
  refine .get (.ite (fun _ => .no) fun _ => .need fun x _ => .need fun y _ => ?_)
  split
  · rename_i fails
    obtain ⟨cause, rfl⟩ := inferBinary_error fails
    exact .fail
  · rename_i infers
    exact .refine fun x t isResult isType => Graph.tells_result isResult (inferBinary_known infers t isType)

theorem types_inferUnaryOp : Types (g.Tells v) g (inferUnaryOp v) := by
  refine .get (.ite (fun _ => .no) fun notOther => .need fun result isResult => .ite (fun _ => .no) fun _ =>
    .need fun x _ => ?_)
  split
  · rename_i fails
    obtain ⟨cause, rfl⟩ := inferUnary_error (by rwa [not_and_or, not_not, not_not] at notOther) fails
    exact .fail
  · rename_i infers
    refine .refine ?_
    rintro _ t ⟨⟩ isType
    exact Graph.tells_result isResult (inferUnary_known infers t isType)

theorem types_checkArguments {callee : String} {sig : Signature} (i : Nat) (args : List (Option VarId × Option Ty))
    (allowed : ∀ p ∈ args, ∀ x t, p.1 = some x → t.kind ≠ .unknown → gives x t) :
    Types gives g (checkArguments v callee sig i args) := by
  induction args generalizing i g with
  | nil => exact .no
  | cons pair rest ih =>
    have later {h : Graph} (j : Nat) : Types gives h (checkArguments v callee sig j rest) :=
      ih j fun p member => allowed p (List.mem_cons_of_mem _ member)
    refine .need fun x isX => .get (.ite (fun known => .either (.refine ?_) fun _ => later _) fun _ =>
      .ite (fun _ => later _) fun _ => .fail)
    rintro _ t ⟨⟩ isType
    simp only [Bool.and_eq_true] at known
    exact allowed pair List.mem_cons_self x t isX (Ty.kind_ne_unknown_of_isKnown known.1.2 t isType)

theorem types_arguments {callee : String} {sig : Signature} {params : List (Option Ty)} :
    Types (g.Tells v) g (checkArguments v callee sig 0 ((g.vertex v).args.zip params)) := by
  refine types_checkArguments _ _ ?_
  rintro ⟨a, _⟩ member x t rfl known
  exact Graph.tells_arg (List.of_mem_zip member).1 known

theorem checkCall_succeeds {sig : Signature} (done : (checkCall v sig).Succeeds g changed h) :
    ∃ (first second : Bool) (k : Graph), g.Typing (g.Tells v) first k ∧
      (refineType (g.vertex v).result (some sig.result)).Succeeds k second h ∧ changed = (first || second) := by
  simp only [checkCall, Action.get_bind_succeeds] at done
  split at done
  · exact absurd done Action.not_fail_succeeds
  · obtain ⟨first, k, checked, done⟩ := Action.bind_succeeds.mp done
    obtain ⟨second, k', typed, done⟩ := Action.bind_succeeds.mp done
    obtain ⟨rfl, rfl⟩ := Action.pure_succeeds.mp done
    exact ⟨first, second, k, types_arguments.ends checked, typed, rfl⟩

/-- A call tells about its arguments, and gives its result the type that is declared, known or not. -/
theorem typing_checkCall {sig : Signature} (done : (checkCall v sig).Succeeds g changed h) :
    g.Typing (fun x t => g.Tells v x t ∨ (g.vertex v).result = some x ∧ sig.result = t) changed h := by
  obtain ⟨first, second, k, arguments, typed, rfl⟩ := checkCall_succeeds done
  exact (arguments.mono fun _ _ => .inl).trans ((typing_refineType typed).mono fun _ _ given =>
    .inr ⟨given.1, Option.some.inj given.2⟩)

theorem types_checkReturn : Types (g.Tells v) g (checkReturn v) := by
  refine .get (.ite (fun _ => .no) fun _ => ?_)
  split
  · exact .no
  · rename_i arg rest args
    dsimp only
    split
    · exact .no
    · exact .no
    · exact .fail
    · rename_i known _ _
      refine .need fun x isX => .ite (fun _ => .refine ?_) fun _ => .fail
      rintro _ _ ⟨⟩ ⟨⟩
      exact Graph.tells_arg (by simp [args, isX]) known

/-- How a rule stops at `v`: the vertices are as they were, and types advanced at most. If the graph is to blame, then `v` has
no effects and still cannot be taken out. -/
structure Stopped (g : Graph) (v : VertexId) (why : Stop) (h : Graph) : Prop where
  same : g.SameVertices h
  advanced : g.Advanced h
  reason : why.Refusal ∨ (g.op v).info.idempotent = true ∧ g.Retyped h ∧
    ∃ obstacle, h.removeObstacle v = some obstacle ∧ why = .failure (.corrupt h.name obstacle [])

namespace Stopped

theorem missing (refined : g.Refined h 0) : Stopped g v (.fault .missing) h :=
  ⟨refined.retyped.sameVertices, refined.advanced, .inl .missing⟩

theorem spared {why : Stop} (stopped : Stopped g v why h) : why.Spared := by
  rcases stopped.reason with refusal | ⟨_, _, _, _, rfl⟩
  · exact refusal.spared
  · exact Stop.spared_corrupt

end Stopped

theorem stops_of_types {work : Action Graph Bool} (types : Types (g.Tells v) g work) : work.StopsWith g (Stopped g v) := by
  refine types.stops.mono ?_
  rintro why h ⟨refusal, _, typing⟩
  exact ⟨typing.retyped.sameVertices, typing.advanced_of_tells, .inl refusal⟩

theorem stops_spliceOut_of_idempotent (idempotent : (g.op v).info.idempotent = true) (refined : g.Refined h 0) :
    (spliceOut v).StopsWith h (Stopped g v) := by
  refine stops_spliceOut.mono ?_
  rintro _ _ ⟨rfl, obstacle, found, rfl⟩
  exact ⟨refined.retyped.sameVertices, refined.advanced, .inr ⟨idempotent, refined.retyped, obstacle, found, rfl⟩⟩

theorem stops_pruneUnreachable {P : Stop → Graph → Prop} : (pruneUnreachable v).StopsWith g P :=
  .get (.ite (fun _ => .pure) fun _ => .set_bind (.ite (fun _ => .pure) fun _ => .set_bind .pure))

theorem stops_foldBranch : (foldBranch v).StopsWith g (Stopped g v) := by
  refine .get (.ite (fun _ => .pure) fun _ => ?_)
  split
  · refine .need (.missing .refl) fun _ => ?_
    split
    · exact .pure
    · exact .set_bind .pure
  · exact .pure

theorem stops_constantValue {w : Vertex} : (constantValue w).StopsWith g (Stopped g v) := by
  refine .get ?_
  split
  · refine .need (.missing .refl) fun _ => ?_
    split
    · exact .pure
    · refine .need (.missing .refl) fun _ => ?_
      split <;> exact .pure
  · refine .need (.missing .refl) fun _ => ?_
    split <;> exact .pure
  · refine .need (.missing .refl) fun _ => ?_
    split <;> exact .pure
  · exact .pure

theorem stops_foldConstants : (foldConstants v).StopsWith g (Stopped g v) := by
  refine .get (.bind stops_constantValue fun {value h} known => ?_)
  obtain ⟨rfl, _⟩ := constantValue_succeeds known
  split
  · exact .pure
  · refine .get (.modify_bind (.bind (stops_refineType.mono ?_) fun _ => .get (.modify_bind .pure)))
    rintro _ _ ⟨rfl, rfl⟩
    exact ⟨⟨rfl, rfl⟩, .addConst, .inl .missing⟩

theorem stops_removeDead : (removeDead v).StopsWith g (Stopped g v) := by
  refine .get (.ite (fun _ => .pure) fun computes => .ite (fun _ => .pure) fun _ =>
    .bind (stops_spliceOut_of_idempotent ?_ .refl) fun _ => .pure)
  rw [Bool.or_eq_true, not_or] at computes
  simpa [Graph.op] using computes.1

/-- Once the inputs are known to be there, nothing is missed. -/
theorem stops_unifyPhi {w : Vertex} {result : VarId} : (unifyPhi w result).StopsWith g (Stopped g v) := by
  refine .need (.missing .refl) fun _ => .get ?_
  dsimp only
  split
  · exact .ite (fun _ => .pure) fun _ => .modify_bind .pure
  · split
    · exact .pure
    · refine .ite (fun _ => .modify_bind (.bind (.forM fun x _ k => .get (.ite (fun _ => ?_) fun _ => .pure)) fun _ => .pure))
        fun _ => .ite (fun _ => .modify_bind .pure) fun _ => .pure
      exact .bind (.need_some rfl (.get (.ite (fun _ => .pure) fun _ => .modify_bind .pure))) fun _ => .pure

theorem stops_simplifyPhi : (simplifyPhi v).StopsWith g (Stopped g v) := by
  refine .get (.ite (fun _ => .pure) fun isPhi => .need (.missing .refl) fun {result} isResult => ?_)
  have idempotent : (g.op v).info.idempotent = true := by
    rw [Graph.op, Decidable.of_not_not isPhi]
    rfl
  have splices {k : Graph} (refined : g.Refined k 0) {input : VarId} : (do
      spliceOut v
      modify (·.replaceVariable (some result) (some input))
      return true : Action Graph Bool).StopsWith k (Stopped g v) :=
    .bind (stops_spliceOut_of_idempotent idempotent refined) fun _ => .modify_bind .pure
  refine .ite_bind (.bind (.ite (fun _ => .pure) fun _ => stops_unifyPhi) fun {_ k} typed => ?_)
  have refined : g.Refined k 0 := by
    split at typed
    · obtain ⟨_, rfl⟩ := Action.pure_succeeds.mp typed
      exact .refl
    · rename_i unknown
      rcases unifyPhi_succeeds typed with ⟨_, rfl⟩ | ⟨_, t, known, refined⟩
      · exact .refl
      · have unified : Unified g k v := ⟨result, t, isResult, by simpa using unknown, known, refined⟩
        exact unified.refined
  split
  · refine .need (.missing refined) fun {input} _ => .get (.ite (fun untyped => .set_bind (splices ?_)) fun _ => splices refined)
    obtain ⟨⟨unknown, _⟩, _⟩ : (Ty.isKnown (k.var input).type = false ∧ Ty.isKnown (k.var result).type = true) ∧
        (k.var input).isConst = false := by simpa using untyped
    exact refined.trans (.setVarType (.of_unknown unknown))
  · exact .pure

theorem stops_checkCall {sig : Signature} : (checkCall v sig).StopsWith g (Stopped g v) := by
  refine .get (.ite (fun _ => .fail ⟨⟨rfl, rfl⟩, .refl, .inl (.unsupported _)⟩) fun _ =>
    .bind (stops_of_types types_arguments) fun checked => .bind (stops_refineType.mono ?_) fun _ => .pure)
  have typing := types_arguments.ends checked
  rintro _ _ ⟨rfl, rfl⟩
  exact ⟨typing.retyped.sameVertices, typing.advanced_of_tells, .inl .missing⟩

theorem stops_checkCallee {sigs : Signatures} : (checkCallee sigs v).StopsWith g (Stopped g v) := by
  refine .get ?_
  dsimp only
  split
  · refine .ite (fun _ => .set_bind .pure) fun _ => ?_
    split
    · exact .fail ⟨⟨rfl, rfl⟩, .refl, .inl (.unsupported _)⟩
    · exact stops_checkCall
  · exact stops_checkCall
  · exact .pure

theorem stops_of_mem {sigs : Signatures} {r : Rule} (member : r ∈ all sigs) : (r.apply v).StopsWith g (Stopped g v) := by
  simp only [all, List.mem_cons, List.not_mem_nil, or_false] at member
  rcases member with rfl | rfl | rfl | rfl | rfl | rfl | rfl | rfl | rfl | rfl
  · exact stops_pruneUnreachable
  · exact stops_foldBranch
  · exact stops_of_types types_inferAssign
  · exact stops_of_types types_inferBinaryOp
  · exact stops_of_types types_inferUnaryOp
  · exact stops_foldConstants
  · exact stops_removeDead
  · exact stops_simplifyPhi
  · exact stops_checkCallee
  · exact stops_of_types types_checkReturn

end Rule

/-! ### Phis -/

namespace PhiElimination

variable {g h : Graph} {phi : VertexId}

/-- What the elimination of a phi is stopped by. -/
inductive Blocked (g : Graph) (phi : VertexId) : Stop → Prop
  | input (absent : none ∈ (g.vertex phi).args) : Blocked g phi (.fault .missing)
  | result (absent : (g.vertex phi).result = none) : Blocked g phi (.fault .missing)
  | obstacle {obstacle : Corruption} (found : g.removeObstacle phi = some obstacle) :
    Blocked g phi (.failure (.corrupt g.name obstacle []))

theorem Blocked.spared {why : Stop} (blocked : Blocked g phi why) : why.Spared := by
  cases blocked with
  | input => exact Stop.spared_missing
  | result => exact Stop.spared_missing
  | obstacle => exact Stop.spared_corrupt

theorem stops_hasConstant {args : List (Option VarId)} :
    (hasConstant args).StopsWith g fun why h => none ∈ args ∧ why = .fault .missing ∧ h = g := by
  induction args with
  | nil => exact .pure
  | cons a args ih =>
    refine .bind ?_ fun {x k} present => ?_
    · cases a with
      | none => exact .missing ⟨List.mem_cons_self, rfl, rfl⟩
      | some x => exact .pure
    · obtain ⟨_, rfl⟩ := Action.need_succeeds.mp present
      exact .get (.ite (fun _ => .pure) fun _ => ih.mono (And.imp_left (List.mem_cons_of_mem _)))

/-- If only the result is missing, the phi is gone already. -/
theorem stops_eliminate : (eliminate phi).StopsWith g fun why h =>
    g.op phi = .phi ∧ g.contains phi = true ∧ Blocked g phi why ∧ (h = g ∨ h = g.splice phi) := by
  refine .get (.ite (fun _ => .pure) fun belongs => ?_)
  obtain ⟨isPhi, contains⟩ : g.op phi = .phi ∧ g.contains phi = true := by simpa [Graph.op, Graph.contains] using belongs
  have renames {k : Graph} {P : Stop → Graph → Prop} : (do
      (g.vertex phi).args.forM fun input => modify (·.replaceVariable input (g.vertex phi).result)
      return true : Action Graph Bool).StopsWith k P :=
    .bind (.forM fun _ _ _ => .modify) fun _ => .pure
  refine .bind (stops_hasConstant.mono ?_) fun {found k} looked => ?_
  · rintro _ _ ⟨absent, rfl, rfl⟩
    exact ⟨isPhi, contains, .input absent, .inl rfl⟩
  obtain ⟨rfl, _⟩ := hasConstant_succeeds looked
  refine .ite (fun _ => .pure) fun _ => .get ?_
  split
  · exact .pure
  · refine .bind (stops_spliceOut.mono ?_) fun {_ k} removed => ?_
    · rintro _ _ ⟨rfl, _, found, rfl⟩
      exact ⟨isPhi, contains, .obstacle found, .inl rfl⟩
    obtain ⟨_, rfl⟩ := spliceOut_succeeds removed
    split
    · refine .bind ?_ fun {_ k} present => ?_
      · cases result : (g.vertex phi).result with
        | none => exact .missing ⟨isPhi, contains, .result result, .inr rfl⟩
        | some r => exact .pure
      · obtain ⟨_, rfl⟩ := Action.need_succeeds.mp present
        exact .get (.ite (fun _ => .modify_bind renames) fun _ => renames)
    · exact renames

theorem stops_anyTyped {phis : List VertexId} :
    (anyTyped phis).StopsWith g fun why h => why = .fault .missing ∧ h = g := by
  induction phis with
  | nil => exact .pure
  | cons phi phis ih => exact .get (.need ⟨rfl, rfl⟩ fun _ => .ite (fun _ => .pure) fun _ => ih)

theorem stops_typeCycle {defs : PhiDefs} {cycle : List VertexId} :
    (typeCycle defs cycle).StopsWith g fun why h => why = .fault .missing ∧ g.Refined h 0 := by
  refine .ite (fun _ => .pure) fun _ => .bind (stops_anyTyped.mono ?_) fun {found k} looked => ?_
  · rintro _ _ ⟨rfl, rfl⟩
    exact ⟨rfl, .refl⟩
  obtain ⟨rfl, untyped⟩ := anyTyped_succeeds looked
  refine .ite (fun _ => .pure) fun notFound => .get (.need ⟨rfl, .refl⟩ fun _ => ?_)
  have untyped := untyped (by simpa using notFound)
  split
  · exact .pure
  · rename_i t _
    refine .bind (fun why h stopped => ⟨?_, ?_⟩) fun _ => .pure
    · exact Action.StopsWith.forM (P := fun why _ => why = .fault .missing)
        (fun _ _ _ => .get (.need rfl fun _ => .modify)) stopped
    · exact (leaves_setTypes fun phi member r isResult => .of_unknown (untyped phi member r isResult)).of_stops stopped

/-- The phis are not found by their results, or a cycle lacks an operand. -/
theorem stops_typeCycles : typeCycles.StopsWith g fun why h =>
    (∃ cause, phiDefs g (g.verticesOf .phi) [] = .error cause ∧ why = .failure cause ∧ h = g) ∨
      (∃ defs, phiDefs g (g.verticesOf .phi) [] = .ok defs) ∧ why = .fault .missing ∧ g.Refined h 0 := by
  refine .get ?_
  dsimp only
  split
  · rename_i cause fails
    exact .fail (.inl ⟨cause, fails, rfl, rfl⟩)
  · rename_i defs found
    refine .foldlM (I := fun k => g.Refined k 0) .refl (fun cycle _ k changed k' refined typed => ?_)
      fun cycle _ k refined => stops_typeCycle.mono fun stopped => .inr ⟨⟨defs, found⟩, stopped.1, refined.trans stopped.2⟩
    rcases typeCycle_succeeds typed with ⟨_, rfl⟩ | ⟨_, phi, _, unified⟩
    · exact refined
    · exact refined.trans unified.refined

theorem phiDefs_error {phis : List VertexId} {defs : PhiDefs} {why : Failure} (fails : phiDefs g phis defs = .error why) :
    ∃ first, why = .corrupt g.name first [] := by
  induction phis generalizing defs with
  | nil => simp [phiDefs] at fails
  | cons phi phis ih =>
    simp only [phiDefs] at fails
    split at fails
    · exact ⟨_, (Except.error.inj fails).symm⟩
    · exact ih fails

/-- If the elimination of each phi keeps `I`, a turn only stops as the work on one phi does, or as the work on cycles. -/
theorem stops_run {I : Graph → Prop} {P : Stop → Graph → Prop} {c : Coalescing} (start : I c.graph)
    (step : ∀ {g phi changed h}, I g → (eliminate phi).Succeeds g changed h → I h)
    (phis : ∀ {g phi}, I g → (eliminate phi).StopsWith g P) (cycles : ∀ {g}, I g → typeCycles.StopsWith g P) :
    run.StopsWith c fun why c' => P why c'.graph := by
  refine .get (.bind (.foldlM (I := fun c => I c.graph) start (fun phi _ c changed c' holds done => ?_)
    fun phi _ c holds => ?_) fun {_ t} resolved => .bind (.on (cycles ?_)) fun _ => .pure)
  · exact step holds (resolve_succeeds done)
  · exact .bind (.on (phis holds)) fun _ => .ite (fun _ => .modify_bind .pure) fun _ => .pure
  · exact Action.foldlM_invariant (P := fun c : Coalescing => I c.graph) start
      (fun phi _ c changed c' holds done => step holds (resolve_succeeds done)) resolved

theorem spares_run : run.Spares := by
  refine fun c => stops_run (I := fun _ => True) (P := fun why _ => why.Spared) trivial (fun _ _ => trivial) (fun _ => ?_) fun _ => ?_
  · exact stops_eliminate.mono fun stopped => stopped.2.2.1.spared
  · refine stops_typeCycles.mono ?_
    rintro _ _ (⟨_, fails, rfl, _⟩ | ⟨_, rfl, _⟩)
    · obtain ⟨_, rfl⟩ := phiDefs_error fails
      exact Stop.spared_corrupt
    · exact Stop.spared_missing

end PhiElimination

end MiddleEnd
