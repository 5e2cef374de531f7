import MiddleEnd.Proofs.Optimizing.Lowering

/-!
In which direction types change. A type goes from unknown over numeric to any other and then stays (`Ty.Advances`), in
every variable and whatever rules are applied where and in which order, also when a rule fails halfway
(`Turn.types_advance`).

With one exception: a call gives its result the type that the signature of the callee declares, and that may be unknown.
A result that was found to be numeric then becomes unknown again (`Graph.Unlearns`). Arguments and returned values are not
affected, because unknown parameters and results are left out there.
-/
namespace MiddleEnd

namespace Graph

variable {g h k : Graph} {x : VarId} {t : Option Ty} {v : VertexId}

theorem Frames.advanced (frames : g.Frames h) : g.Advanced h :=
  .of_vars frames.sig frames.vars

theorem Drops.advanced (drops : g.Drops v h) : g.Advanced h := by
  obtain ⟨k, frames, rfl⟩ := drops
  exact .of_vars frames.sig frames.vars

theorem advanced_replaceVariable {old new : Option VarId} : g.Advanced (g.replaceVariable old new) :=
  .of_vars (kept_foldl_modifyVertex Graph.sig (fun _ _ => rfl) _) (kept_foldl_modifyVertex Graph.vars (fun _ _ => rfl) _)

end Graph

/-! ### Rules -/

namespace Rule

variable {g h : Graph} {v : VertexId} {changed : Bool}

theorem advanced_pruneUnreachable (done : (pruneUnreachable v).Succeeds g changed h) : g.Advanced h := by
  have noted : g.Advanced g.withReach.1 := frames_withReach.advanced
  rcases pruneUnreachable_succeeds done with ⟨_, _, rfl⟩ | ⟨_, _, rfl⟩ | ⟨_, _, _, _, rfl⟩
  · exact .refl
  · exact noted
  · have forgot : g.withReach.1.Frames ((g.withReach.1.vertex v).writes.foldl (forget v) g.withReach.1) :=
      .foldl _ fun h _ a _ => frames_forget a
    exact (noted.trans forgot.advanced).trans Graph.drops_detach.advanced

theorem advanced_foldBranch (done : (foldBranch v).Succeeds g changed h) : g.Advanced h := by
  rcases foldBranch_succeeds done with ⟨_, rfl, _⟩ | ⟨_, _, _, _, _, _, _, _, _, rfl⟩
  · exact .refl
  · exact (Graph.Frames.removeEdge ..).advanced.trans (.of_vars rfl rfl)

theorem advanced_foldConstants (done : (foldConstants v).Succeeds g changed h) : g.Advanced h := by
  rcases foldConstants_succeeds done with ⟨_, rfl⟩ | ⟨_, c, typed, k, _, refined, rfl⟩
  · exact .refl
  have typed : (g.addConst c).Advanced k := by
    refine (typing_refineType refined).advanced ?_
    rintro _ _ ⟨_, ⟨⟩⟩
    exact c.kind_ty
  have added : k.Advanced (k.addVertex .assign (g.vertex v).result [some g.vars.size]) := .of_vars rfl rfl
  exact ((Graph.Advanced.addConst.trans typed).trans added).trans Graph.drops_replace.advanced

theorem advanced_removeDead (done : (removeDead v).Succeeds g changed h) : g.Advanced h := by
  rcases removeDead_succeeds done with ⟨_, rfl⟩ | ⟨_, _, _, _, _, rfl⟩
  · exact .refl
  · exact Graph.drops_splice.advanced

theorem advanced_simplifyPhi (done : (simplifyPhi v).Succeeds g changed h) : g.Advanced h := by
  rcases simplifyPhi_succeeds done with ⟨_, rfl⟩ | ⟨_, unified | simplified⟩
  · exact .refl
  · exact unified.refined.advanced
  · obtain ⟨_, _, _, _, _, refined, _, rfl⟩ := simplified.renamed
    exact (refined.advanced.trans Graph.drops_splice.advanced).trans Graph.advanced_replaceVariable

end Rule

/-! ### Calls -/

namespace Graph

variable {g h : Graph}

/-- A call whose signature leaves the result open writes it to `x`, which is numeric so far. -/
def Unlearns (sigs : Signatures) (g : Graph) (v : VertexId) (x : VarId) : Prop :=
  (g.vertex v).result = some x ∧ (g.var x).type = some .numeric ∧
    ∃ sig, g.signatureAt? sigs v = some sig ∧ sig.result = .unknown

/-- From `g` to `h` all types advance, unless one of the variables with `P` became unknown. -/
structure AdvancedUnless (g h : Graph) (P : VarId → Prop) : Prop where
  sig : h.sig = g.sig
  types : ∀ x, Ty.Advances (g.var x).type (h.var x).type ∨ P x ∧ (h.var x).type = some .unknown

theorem Advanced.weaken {P : VarId → Prop} (advanced : g.Advanced h) : g.AdvancedUnless h P :=
  ⟨advanced.sig, fun x => .inl (advanced.types x)⟩

theorem AdvancedUnless.mono {P Q : VarId → Prop} (types : g.AdvancedUnless h P) (implies : ∀ x, P x → Q x) :
    g.AdvancedUnless h Q :=
  ⟨types.sig, fun x => (types.types x).imp_right (And.imp_left (implies x))⟩

/-- What a variable loses when it becomes unknown is that it was numeric. -/
theorem Advanced.setUnknown {y : VarId} (advanced : g.Advanced h) (refinable : (h.var y).kind.isRefinable = true) :
    g.AdvancedUnless (h.setVarType y (some .unknown)) fun x => y = x ∧ (g.var x).type = some .numeric := by
  refine ⟨advanced.sig, fun x => ?_⟩
  rw [type_setVarType]
  split
  · rename_i same
    obtain rfl := same.1
    cases known : Ty.isKnown (g.var y).type with
    | false => exact .inl (.of_unknown known)
    | true =>
      have advances := advanced.types y
      have stillKnown := advances.isKnown_of_isKnown known
      have numeric : (h.var y).type = some .numeric := Ty.eq_numeric_of_isRefinable refinable stillKnown
      exact .inr ⟨⟨rfl, (numeric ▸ advances).eq_numeric known⟩, rfl⟩
  · exact .inl (advanced.types x)

end Graph

namespace Rule

variable {sigs : Signatures} {g h : Graph} {v : VertexId} {changed : Bool}

theorem unless_checkCall {sig : Signature} (isSig : g.signatureAt? sigs v = some sig)
    (done : (checkCall v sig).Succeeds g changed h) : g.AdvancedUnless h (g.Unlearns sigs v) := by
  obtain ⟨_, _, k, arguments, typed, _⟩ := checkCall_succeeds done
  have advanced := arguments.advanced_of_tells
  rcases refineType_succeeds typed with ⟨_, rfl⟩ | ⟨_, y, _, isResult, ⟨⟩, refinable, other, rfl⟩
  · exact advanced.weaken
  by_cases result : sig.result = .unknown
  · rw [result]
    refine (advanced.setUnknown refinable).mono ?_
    rintro _ ⟨rfl, numeric⟩
    exact ⟨isResult, numeric, sig, isSig, result⟩
  · have less := Ty.slack_lt (Ty.kind_ne_unknown result) refinable other
    exact (advanced.trans (.setVarType (.of_slack less))).weaken

theorem unless_checkCallee (done : (checkCallee sigs v).Succeeds g changed h) :
    g.AdvancedUnless h (g.Unlearns sigs v) := by
  rcases checkCallee_succeeds done with ⟨_, rfl⟩ | ⟨_, _, rfl⟩ | ⟨sig, isSig, done⟩
  · exact Graph.Advanced.refl.weaken
  · exact Graph.Advanced.weaken (.of_vars rfl rfl)
  · exact unless_checkCall isSig done

/-- What a rule does to types when it succeeds. -/
theorem unless_of_mem {r : Rule} (member : r ∈ all sigs) (done : (r.apply v).Succeeds g changed h) :
    g.AdvancedUnless h fun x => r.name = "call" ∧ g.Unlearns sigs v x := by
  simp only [all, List.mem_cons, List.not_mem_nil, or_false] at member
  rcases member with rfl | rfl | rfl | rfl | rfl | rfl | rfl | rfl | rfl | rfl
  · exact (advanced_pruneUnreachable done).weaken
  · exact (advanced_foldBranch done).weaken
  · exact (types_inferAssign.ends done).advanced_of_tells.weaken
  · exact (types_inferBinaryOp.ends done).advanced_of_tells.weaken
  · exact (types_inferUnaryOp.ends done).advanced_of_tells.weaken
  · exact (advanced_foldConstants done).weaken
  · exact (advanced_removeDead done).weaken
  · exact (advanced_simplifyPhi done).weaken
  · exact (unless_checkCallee done).mono fun _ => .intro rfl
  · exact (types_checkReturn.ends done).advanced_of_tells.weaken

theorem leaves_of_mem {r : Rule} (member : r ∈ all sigs) :
    (r.apply v).Leaves g (g.AdvancedUnless · fun x => r.name = "call" ∧ g.Unlearns sigs v x) :=
  .of_ends (unless_of_mem member) ((stops_of_mem member).mono (·.advanced.weaken))

end Rule

/-! ### Phis -/

namespace PhiElimination

variable {g h : Graph} {phi : VertexId} {changed : Bool}

theorem advanced_eliminate (done : (eliminate phi).Succeeds g changed h) : g.Advanced h := by
  rcases eliminate_succeeds done with ⟨_, rfl⟩ | ⟨_, eliminated⟩
  · exact .refl
  · obtain ⟨inputs, k, _, refined, rfl⟩ := eliminated.renamed
    have typed : g.Advanced k := Graph.drops_splice.advanced.trans refined.advanced
    exact List.foldlRecOn inputs _ typed fun _ before _ _ => before.trans Graph.advanced_replaceVariable

theorem leaves_run {s : Coalescing} : run.Leaves s fun s' => s.graph.Advanced s'.graph := by
  refine .of_ends (fun done => ?_) (stops_run (I := s.graph.Advanced) (P := fun _ => s.graph.Advanced) .refl ?_ ?_ ?_)
  · obtain ⟨_, _, t, resolved, cycles, _⟩ := run_succeeds done
    have before := Action.foldlM_invariant (P := fun t : Coalescing => s.graph.Advanced t.graph) .refl
      (fun _ _ _ _ _ before done => before.trans (advanced_eliminate (resolve_succeeds done))) resolved
    exact before.trans (typeCycles_refined cycles).advanced
  · exact fun before done => before.trans (advanced_eliminate done)
  · refine fun before => stops_eliminate.mono ?_
    rintro _ _ ⟨_, _, _, rfl | rfl⟩
    · exact before
    · exact before.trans Graph.drops_splice.advanced
  · refine fun before => stops_typeCycles.mono ?_
    rintro _ _ (⟨_, _, _, rfl⟩ | ⟨_, _, refined⟩)
    · exact before
    · exact before.trans refined.advanced

end PhiElimination

/-! ### Rules and phis in turn -/

/-- A rule applied at a vertex, or a turn of the elimination of phis. -/
inductive Turn
  | rule (r : Rule) (v : VertexId)
  | phis

namespace Turn

variable {sigs : Signatures} {s : Coalescing} {x : VarId}

/-- What a turn leaves, whether it comes to its end or not. -/
def run (s : Coalescing) : Turn → Coalescing
  | .rule r v => { s with graph := ((r.apply v).outcome s.graph).2 }
  | .phis => (PhiElimination.run.outcome s).2

/-- The type of `x` after some turns. -/
def typeAfter (s : Coalescing) (turns : List Turn) (x : VarId) : Option Ty :=
  ((turns.foldl run s).graph.var x).type

/-- The rules are those of the optimizer. -/
def Among (sigs : Signatures) : Turn → Prop
  | .rule r _ => r ∈ Rule.all sigs
  | .phis => True

/-- The turn is at a call whose signature leaves its result open, and takes its numeric type from the result `x`. -/
def Resets (sigs : Signatures) (s : Coalescing) (x : VarId) : Turn → Prop
  | .rule r v => r.name = "call" ∧ s.graph.Unlearns sigs v x ∧ typeAfter s [.rule r v] x = some .unknown
  | .phis => False

/-- What one turn does to types. -/
theorem run_types {turn : Turn} (among : turn.Among sigs) : (turn.run s).graph.sig = s.graph.sig ∧
    ∀ x, Ty.Advances (s.graph.var x).type ((turn.run s).graph.var x).type ∨ turn.Resets sigs s x := by
  cases turn with
  | rule r v =>
    have left := Rule.leaves_of_mem (g := s.graph) (v := v) among
    exact ⟨left.sig, fun x => (left.types x).imp_right fun ⟨⟨isCall, unlearns⟩, unknown⟩ => ⟨isCall, unlearns, unknown⟩⟩
  | phis =>
    have left := PhiElimination.leaves_run (s := s)
    exact ⟨left.sig, fun x => .inl (left.types x)⟩

theorem sig_foldl_run {turns : List Turn} (among : ∀ turn ∈ turns, turn.Among sigs) :
    (turns.foldl run s).graph.sig = s.graph.sig := by
  induction turns generalizing s with
  | nil => rfl
  | cons turn turns ih =>
    exact (ih fun t later => among t (List.mem_cons_of_mem _ later)).trans (run_types (among turn List.mem_cons_self)).1

/-- What turns do to the type of a variable. -/
theorem typeAfter_advances {turns : List Turn} (among : ∀ turn ∈ turns, turn.Among sigs) (x : VarId) :
    Ty.Advances (s.graph.var x).type (typeAfter s turns x) ∨
      ∃ before turn rest, turns = before ++ turn :: rest ∧ turn.Resets sigs (before.foldl run s) x := by
  induction turns generalizing s with
  | nil => exact .inl .refl
  | cons turn turns ih =>
    rcases (run_types (s := s) (among turn List.mem_cons_self)).2 x with first | resets
    · rcases ih (s := turn.run s) fun t later => among t (List.mem_cons_of_mem _ later) with rest | ⟨before, t, rest, rfl, resets⟩
      · exact .inl (first.trans rest)
      · exact .inr ⟨turn :: before, t, rest, rfl, resets⟩
    · exact .inr ⟨[], turn, turns, rfl, resets⟩

/-- Types only advance, except that a call with an open result takes a numeric type from it. Where all signatures declare
their results, types only advance. -/
theorem types_advance (sigs : Signatures) (s : Coalescing) (turns : List Turn) (among : ∀ turn ∈ turns, turn.Among sigs)
    (x : VarId) :
    (Ty.Advances (s.graph.var x).type (typeAfter s turns x) ∨
      ∃ before turn rest, turns = before ++ turn :: rest ∧ turn.Resets sigs (before.foldl run s) x) ∧
    (s.graph.sig.result ≠ .unknown → (∀ callee sig, sigs.lookup callee = some sig → sig.result ≠ .unknown) →
      Ty.Advances (s.graph.var x).type (typeAfter s turns x)) := by
  have advances := typeAfter_advances (s := s) among x
  refine ⟨advances, fun own others => advances.resolve_right ?_⟩
  rintro ⟨before, turn, rest, rfl, resets⟩
  cases turn with
  | phis => exact resets
  | rule r v =>
    obtain ⟨_, ⟨_, _, sig, isSig, unknown⟩, _⟩ := resets
    rcases Graph.lookup_of_signatureAt? isSig with rfl | ⟨callee, found⟩
    · rw [sig_foldl_run fun t earlier => among t (List.mem_append_left _ earlier)] at unknown
      exact own unknown
    · exact others callee sig found unknown

/-- The result of a call with an open result is passed on to a function of a number. -/
def passedOn : Graph where
  name := "f"
  sig := ⟨[], .void⟩
  entry := 0
  exit := 1
  store := #[
    { op := .function, succs := [2], owned := true },
    { op := .finish, preds := [4], owned := true },
    { op := .call, callee := "h", result := some 0, succs := [3], preds := [0], owned := true },
    { op := .call, callee := "k", result := some 1, args := [some 0], succs := [4], preds := [2], owned := true },
    { op := .ret, succs := [1], preds := [3], owned := true }]
  listed := [0, 1, 2, 3, 4]
  vars := #[{ type := some .unknown }, { type := some .unknown }]
  epoch := 9
  reach := none

/-- The rule for calls, applied to both calls. -/
def calls (sigs : Signatures) : List Turn :=
  [.rule ⟨"call", Rule.checkCallee sigs⟩ 2, .rule ⟨"call", Rule.checkCallee sigs⟩ 3]

theorem among_calls {sigs : Signatures} : ∀ turn ∈ calls sigs, turn.Among sigs := by
  simp [calls, Among, Rule.all]

/-- Both functions declare their results. -/
def declared : Signatures :=
  [("h", ⟨[], .double⟩), ("k", ⟨[some .numeric], .void⟩)]

/-- The first result is known to be numeric. -/
def numeric : Coalescing :=
  ⟨passedOn.setVarType 0 (some .numeric), 0⟩

theorem numeric_advances : (∀ turn ∈ calls declared ++ [.phis], turn.Among declared) ∧
    numeric.graph.sig.result ≠ .unknown ∧
    (∀ callee sig, declared.lookup callee = some sig → sig.result ≠ .unknown) ∧
    (numeric.graph.var 0).type = some .numeric ∧
    Ty.Advances (numeric.graph.var 0).type (typeAfter numeric (calls declared ++ [.phis]) 0) := by
  have among : ∀ turn ∈ calls declared ++ [.phis], turn.Among declared := by
    rw [List.forall_mem_append]
    exact ⟨among_calls, by simp [Among]⟩
  have known : ∀ callee sig, declared.lookup callee = some sig → sig.result ≠ .unknown := by
    intro callee sig found
    simp only [declared, List.lookup] at found
    grind
  have own : numeric.graph.sig.result ≠ .unknown := by decide
  have advances := (types_advance declared numeric (calls declared ++ [.phis]) among 0).2 own known
  exact ⟨among, own, known, by decide, advances⟩

/-- The first function leaves its result open, and the second one takes a number. -/
def undeclared : Signatures :=
  [("h", ⟨[], .unknown⟩), ("k", ⟨[some .numeric], .void⟩)]

/-- The second call finds that the result of the first is numeric, which is lost when the rule is applied there again. -/
theorem passedOn_forgets : passedOn.verify = none ∧ (passedOn.references (some 0)).length = 2 ∧
    typeAfter ⟨passedOn, 0⟩ (calls undeclared) 0 = some .numeric ∧
    typeAfter ⟨passedOn, 0⟩ (calls undeclared ++ (calls undeclared).take 1) 0 = some .unknown ∧
    ¬ Ty.Advances (some .numeric) (some .unknown) := by
  decide

end Turn

end MiddleEnd
