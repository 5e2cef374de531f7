import MiddleEnd.Optimizer.Rules
import MiddleEnd.Proofs.Relabeling

/-!
What the rules that change the shape of a graph can do to it, whatever the graph is. Each lemma takes a successful
application apart once: either the rule declined, and the graph is as before, or it says under which conditions it did
what. The rules for phis are taken apart in `Proofs.Coalescing`.
-/
namespace MiddleEnd

namespace Graph

/-- A conditional jump on a constant. -/
def Decided (g : Graph) (v : VertexId) : Prop :=
  g.op v = .jumpIf ∧ (g.succs v).length = 2 ∧ ∃ x, ((g.vertex v).args[0]?).join = some x ∧ (g.var x).value ≠ none

/-- A vertex that computes the constant `c` from constants. -/
inductive Computes (g : Graph) (v : VertexId) (c : Literal) : Prop
  | binary {x y : VarId} {a b : Literal} (isBinary : g.op v = .binary) (first : ((g.vertex v).args[0]?).join = some x)
    (second : ((g.vertex v).args[1]?).join = some y) (isA : (g.var x).value = some a) (isB : (g.var y).value = some b)
    (folds : Literal.foldBinary (g.vertex v).binOp a b = some c)
  | unary {x : VarId} {a : Literal} (isUnary : g.op v = .boolNot ∨ g.op v = .bitNot)
    (first : ((g.vertex v).args[0]?).join = some x) (isA : (g.var x).value = some a)
    (folds : Literal.foldUnary (g.vertex v).op a = some c)

theorem Computes.op {g : Graph} {v : VertexId} {c : Literal} (computes : g.Computes v c) :
    g.op v = .binary ∨ g.op v = .boolNot ∨ g.op v = .bitNot := by
  cases computes with
  | binary isBinary => exact .inl isBinary
  | unary isUnary => exact .inr isUnary

/-- The signature that a call is checked against. -/
def signatureAt? (sigs : Signatures) (g : Graph) (v : VertexId) : Option Signature :=
  match g.op v with
  | .call => if (g.vertex v).callee = g.name then none else sigs.lookup (g.vertex v).callee
  | .selfCall => some g.sig
  | _ => none

theorem lookup_of_signatureAt? {sigs : Signatures} {g : Graph} {v : VertexId} {sig : Signature}
    (isSig : g.signatureAt? sigs v = some sig) : sig = g.sig ∨ ∃ callee, sigs.lookup callee = some sig := by
  rw [signatureAt?] at isSig
  split at isSig
  · split at isSig
    · simp at isSig
    · exact .inr ⟨_, isSig⟩
  · exact .inl (Option.some.inj isSig).symm
  · simp at isSig

end Graph

namespace Rule

variable {g h : Graph} {v : VertexId} {changed : Bool}

/-- To know whether a vertex can be reached, what can be is noted. -/
theorem pruneUnreachable_succeeds (done : (pruneUnreachable v).Succeeds g changed h) :
    (changed = false ∧ (v = g.entry ∨ v = g.exit) ∧ h = g) ∨
      (changed = false ∧ v ∈ g.withReach.2 ∧ h = g.withReach.1) ∨
      (changed = true ∧ v ≠ g.entry ∧ v ≠ g.exit ∧ v ∉ g.withReach.2 ∧
        h = ((g.withReach.1.vertex v).writes.foldl (forget v) g.withReach.1).detach v) := by
  simp only [pruneUnreachable, Action.get_bind_succeeds] at done
  split at done
  · rename_i isEnd
    obtain ⟨rfl, rfl⟩ := Action.pure_succeeds.mp done
    exact .inl ⟨rfl, isEnd, rfl⟩
  · rename_i between
    rw [not_or] at between
    rw [Action.set_bind_succeeds] at done
    split at done
    · rename_i reached
      obtain ⟨rfl, rfl⟩ := Action.pure_succeeds.mp done
      exact .inr (.inl ⟨rfl, reached, rfl⟩)
    · rename_i unreached
      rw [Action.set_bind_succeeds] at done
      obtain ⟨rfl, rfl⟩ := Action.pure_succeeds.mp done
      exact .inr (.inr ⟨rfl, between.1, between.2, unreached, rfl⟩)

theorem foldBranch_succeeds (done : (foldBranch v).Succeeds g changed h) :
    (changed = false ∧ h = g ∧ ¬ g.Decided v) ∨
      (changed = true ∧ g.op v = .jumpIf ∧ ∃ x c thenTo elseTo, ((g.vertex v).args[0]?).join = some x ∧
        (g.var x).value = some c ∧ g.succs v = [thenTo, elseTo] ∧
        h = (g.removeEdge v (if c.truthy then elseTo else thenTo)).modifyVertex v
          fun w => { w with op := .jump, args := [] }) := by
  simp only [foldBranch, Action.get_bind_succeeds] at done
  split at done
  · rename_i notJumpIf
    obtain ⟨rfl, rfl⟩ := Action.pure_succeeds.mp done
    exact .inl ⟨rfl, rfl, fun decided => notJumpIf decided.1⟩
  rename_i isJumpIf
  split at done
  · rename_i thenTo elseTo succs
    obtain ⟨x, arg, done⟩ := Action.need_bind_succeeds.mp done
    split at done
    · rename_i unknown
      obtain ⟨rfl, rfl⟩ := Action.pure_succeeds.mp done
      refine .inl ⟨rfl, rfl, ?_⟩
      rintro ⟨_, _, y, arg', known⟩
      obtain rfl : x = y := Option.some.inj (arg.symm.trans arg')
      exact known unknown
    · rename_i c value
      rw [Action.set_bind_succeeds] at done
      obtain ⟨rfl, rfl⟩ := Action.pure_succeeds.mp done
      exact .inr ⟨rfl, Decidable.of_not_not isJumpIf, x, c, thenTo, elseTo, arg, value, succs, rfl⟩
  · rename_i notTwo
    obtain ⟨rfl, rfl⟩ := Action.pure_succeeds.mp done
    refine .inl ⟨rfl, rfl, ?_⟩
    rintro ⟨_, two, _⟩
    rcases succs : g.succs v with _ | ⟨thenTo, _ | ⟨elseTo, _ | _⟩⟩ <;> simp [succs] at two
    exact notTwo thenTo elseTo succs

theorem constantValue_succeeds {value : Option Literal} (done : (constantValue (g.vertex v)).Succeeds g value h) :
    g = h ∧ ∀ c, value = some c → g.Computes v c := by
  simp only [constantValue, Action.get_bind_succeeds] at done
  have no (done : (pure none : Action Graph (Option Literal)).Succeeds g value h) :
      g = h ∧ ∀ c, value = some c → g.Computes v c := by
    obtain ⟨rfl, rfl⟩ := Action.pure_succeeds.mp done
    exact ⟨rfl, by simp⟩
  have unary {x : VarId} {a : Literal} (isUnary : g.op v = .boolNot ∨ g.op v = .bitNot)
      (first : ((g.vertex v).args[0]?).join = some x) (isA : (g.var x).value = some a)
      (done : (pure (Literal.foldUnary (g.vertex v).op a) : Action Graph (Option Literal)).Succeeds g value h) :
      g = h ∧ ∀ c, value = some c → g.Computes v c := by
    obtain ⟨rfl, rfl⟩ := Action.pure_succeeds.mp done
    exact ⟨rfl, fun c folds => .unary isUnary first isA folds⟩
  split at done
  · rename_i isBinary
    obtain ⟨x, first, done⟩ := Action.need_bind_succeeds.mp done
    split at done
    · exact no done
    · rename_i a isA
      obtain ⟨y, second, done⟩ := Action.need_bind_succeeds.mp done
      split at done
      · exact no done
      · rename_i b isB
        obtain ⟨rfl, rfl⟩ := Action.pure_succeeds.mp done
        exact ⟨rfl, fun c folds => .binary isBinary first second isA isB folds⟩
  · rename_i isNot
    obtain ⟨x, first, done⟩ := Action.need_bind_succeeds.mp done
    split at done
    · exact no done
    · rename_i isA
      exact unary (.inl isNot) first isA done
  · rename_i isNot
    obtain ⟨x, first, done⟩ := Action.need_bind_succeeds.mp done
    split at done
    · exact no done
    · rename_i isA
      exact unary (.inr isNot) first isA done
  · exact no done

/-- The constant becomes a new variable, and the assignment of it a new vertex. -/
theorem foldConstants_succeeds (done : (foldConstants v).Succeeds g changed h) :
    (changed = false ∧ h = g) ∨
      (changed = true ∧ ∃ (c : Literal) (typed : Bool) (k : Graph), g.Computes v c ∧
        (refineType (g.vertex v).result (some c.ty)).Succeeds (g.addConst c) typed k ∧
        h = (k.addVertex .assign (g.vertex v).result [some g.vars.size]).replace v g.store.size) := by
  simp only [foldConstants, Action.get_bind_succeeds] at done
  obtain ⟨value, k, known, done⟩ := Action.bind_succeeds.mp done
  obtain ⟨rfl, computes⟩ := constantValue_succeeds known
  split at done
  · obtain ⟨rfl, rfl⟩ := Action.pure_succeeds.mp done
    exact .inl ⟨rfl, rfl⟩
  · rename_i c
    rw [Action.get_bind_succeeds, Action.modify_bind_succeeds] at done
    obtain ⟨typed, k, refined, done⟩ := Action.bind_succeeds.mp done
    rw [Action.get_bind_succeeds, Action.modify_bind_succeeds] at done
    obtain ⟨rfl, rfl⟩ := Action.pure_succeeds.mp done
    have next : k.nextVertex = g.store.size := by
      rw [Graph.nextVertex, (refineType_retyped refined).store]
      rfl
    exact .inr ⟨rfl, c, typed, k, computes c rfl, refined, by rw [next]; rfl⟩

theorem removeDead_succeeds (done : (removeDead v).Succeeds g changed h) :
    (changed = false ∧ h = g) ∨
      (changed = true ∧ (g.op v).info.idempotent = true ∧ (∃ y, (g.vertex v).result = some y) ∧
        (g.references (g.vertex v).result).length ≤ 1 ∧ g.removeObstacle v = none ∧ h = g.splice v) := by
  simp only [removeDead, Action.get_bind_succeeds] at done
  split at done
  · obtain ⟨rfl, rfl⟩ := Action.pure_succeeds.mp done
    exact .inl ⟨rfl, rfl⟩
  rename_i computes
  obtain ⟨idempotent, result⟩ : (g.op v).info.idempotent = true ∧ ∃ y, (g.vertex v).result = some y := by
    simpa [Graph.op, Option.ne_none_iff_exists'] using computes
  split at done
  · obtain ⟨rfl, rfl⟩ := Action.pure_succeeds.mp done
    exact .inl ⟨rfl, rfl⟩
  rename_i few
  obtain ⟨_, k, spliced, done⟩ := Action.bind_succeeds.mp done
  obtain ⟨rfl, rfl⟩ := Action.pure_succeeds.mp done
  obtain ⟨free, rfl⟩ := spliceOut_succeeds spliced
  exact .inr ⟨rfl, idempotent, result, Nat.le_of_not_lt few, free, rfl⟩

/-- A call of the function itself is noted as such; any other is checked. -/
theorem checkCallee_succeeds {sigs : Signatures} (done : (checkCallee sigs v).Succeeds g changed h) :
    (changed = false ∧ h = g) ∨
      (changed = true ∧ g.op v = .call ∧ h = g.modifyVertex v fun w => { w with op := .selfCall }) ∨
      ∃ sig, g.signatureAt? sigs v = some sig ∧ (checkCall v sig).Succeeds g changed h := by
  simp only [checkCallee, Action.get_bind_succeeds] at done
  split at done
  · rename_i isCall
    split at done
    · rw [Action.set_bind_succeeds] at done
      obtain ⟨rfl, rfl⟩ := Action.pure_succeeds.mp done
      exact .inr (.inl ⟨rfl, isCall, rfl⟩)
    · rename_i other
      split at done
      · exact absurd done Action.not_fail_succeeds
      · rename_i sig found
        exact .inr (.inr ⟨sig, by rw [Graph.signatureAt?, Graph.op, isCall]; exact (if_neg other).trans found, done⟩)
  · rename_i isCall
    exact .inr (.inr ⟨g.sig, by rw [Graph.signatureAt?, Graph.op, isCall], done⟩)
  · obtain ⟨rfl, rfl⟩ := Action.pure_succeeds.mp done
    exact .inl ⟨rfl, rfl⟩

end Rule

end MiddleEnd
