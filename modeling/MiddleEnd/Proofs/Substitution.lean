import Mathlib.Data.Finset.Card
import MiddleEnd.Proofs.Relabeling
import MiddleEnd.Proofs.Renaming.Invariant
import MiddleEnd.Proofs.Verified

/-!
Putting one variable in place of another. The operands of most vertices are a list, in which every occurrence is replaced;
the inputs of a phi are a set without the result, and stay one. Where they are a set, replacing is complete: nothing mentions
the old variable afterwards, whatever mentioned it mentions the new one, and nothing else changes.
-/
namespace MiddleEnd

namespace Vertex

variable {v : Vertex} {old new a : Option VarId}

/-! ### One vertex -/

/-- `w` is `v` with the variable `new` in place of `old`. -/
structure Substituted (v w : Vertex) (old new : VarId) : Prop where
  gone : w.references (some old) = false
  /-- A phi has no input that is its result, or becomes it. -/
  reads : w.readsVar (some new) = true ↔ (v.readsVar (some old) = true ∨ v.readsVar (some new) = true) ∧
    ¬(v.op = .phi ∧ (v.result = some old ∨ v.result = some new))
  writes : w.writesVar (some new) = true ↔ v.writesVar (some old) = true ∨ v.writesVar (some new) = true
  otherReferences : ∀ a, a ≠ some old → a ≠ some new → w.references a = v.references a
  otherReads : ∀ a, a ≠ some old → a ≠ some new → w.readsVar a = v.readsVar a
  otherWrites : ∀ a, a ≠ some old → a ≠ some new → w.writesVar a = v.writesVar a
  /-- The other operands are the same, in the same order. -/
  otherArgs : (w.args.filter fun a => a ≠ some old ∧ a ≠ some new) = v.args.filter fun a => a ≠ some old ∧ a ≠ some new

theorem readsVar_iff : v.readsVar a = true ↔ v.op ≠ .function ∧ a ∈ v.args := by
  simp only [readsVar, Vertex.reads]
  split <;> simp [*]

theorem writesVar_iff : v.writesVar a = true ↔
    v.op = .function ∧ a ∈ v.args ∨ v.op ≠ .function ∧ v.result = a ∧ a.isSome = true := by
  simp only [writesVar, Vertex.writes]
  grind

/-- The inputs of a phi after the operand `old` has given way to `new`. -/
theorem mem_args_replaceArgs_phi (isPhi : v.op = .phi) (nodup : v.args.Nodup) (other : old ≠ new) (isSome : new.isSome = true) :
    a ∈ (v.replaceArgs old new).args ↔ a ≠ old ∧ a ∈ v.args ∨ a = new ∧ old ∈ v.args ∧ (new ∈ v.args ∨ v.result ≠ new) := by
  by_cases mentioned : old ∈ v.args
  · have erased (b : Option VarId) : b ∈ v.args.erase old ↔ b ≠ old ∧ b ∈ v.args := nodup.mem_erase_iff
    simp only [replaceArgs, changesArgs, addPhiInput, removePhiInput, takesPhiInput]
    grind
  · simp only [replaceArgs, changesArgs]
    grind

/-- A phi whose result becomes `new` loses the input `new`. -/
theorem args_replaceVariable_phi (isPhi : v.op = .phi) (other : old ≠ new) : (v.replaceVariable old new).args =
    if v.result = old then (v.replaceArgs old new).args.erase new else (v.replaceArgs old new).args := by
  obtain ⟨args, eq⟩ := v.replaceArgs_eq old new
  simp only [replaceVariable, eq, other, ne_eq, not_false_eq_true, and_true, isPhi, ↓reduceIte]
  split <;> rfl

theorem mem_args_replaceVariable_iff (apart : v.op = .phi → v.InputsApart) (other : old ≠ new) (isSome : new.isSome = true) :
    a ∈ (v.replaceVariable old new).args ↔ a ≠ old ∧ (a ∈ v.args ∨ a = new ∧ old ∈ v.args) ∧
      ¬(a = new ∧ v.op = .phi ∧ (v.result = old ∨ v.result = new)) := by
  by_cases isPhi : v.op = .phi
  · obtain ⟨nodup, notResult⟩ := apart isPhi
    have inputs (b : Option VarId) := mem_args_replaceArgs_phi (a := b) isPhi nodup other isSome
    have nodup' : (v.replaceArgs old new).args.Nodup := ((apart isPhi).replaceArgs isPhi old new).1
    have erased (b : Option VarId) : b ∈ (v.replaceArgs old new).args.erase new ↔ b ≠ new ∧ b ∈ (v.replaceArgs old new).args :=
      nodup'.mem_erase_iff
    rw [args_replaceVariable_phi isPhi other]
    grind
  · rw [args_replaceVariable_of_op isPhi, List.mem_map]
    grind

theorem filter_erase_of_not {p : Option VarId → Bool} (fails : p a = false) (l : List (Option VarId)) :
    (l.erase a).filter p = l.filter p := by
  rw [← List.erase_filter]
  exact List.erase_of_not_mem (by simp [fails])

/-- The operands that are neither of the two variables stay as they are. -/
theorem filter_args_replaceVariable (other : old ≠ new) {p : Option VarId → Bool} (notOld : p old = false) (notNew : p new = false) :
    (v.replaceVariable old new).args.filter p = v.args.filter p := by
  by_cases isPhi : v.op = .phi
  · have operands : (v.replaceArgs old new).args.filter p = v.args.filter p := by
      simp only [replaceArgs, isPhi, ↓reduceIte, addPhiInput, removePhiInput]
      split
      · split
        · simp [List.filter_append, notNew, filter_erase_of_not notOld]
        · exact filter_erase_of_not notOld _
      · rfl
    rw [args_replaceVariable_phi isPhi other]
    split
    · rw [filter_erase_of_not notNew, operands]
    · exact operands
  · rw [args_replaceVariable_of_op isPhi]
    induction v.args with
    | nil => rfl
    | cons b l ih =>
      by_cases isOld : b = old
      · simpa [isOld, notOld, notNew] using ih
      · simp only [List.map_cons, isOld, ↓reduceIte, List.filter_cons, ih]

theorem substituted_replaceVariable {y z : VarId} (apart : v.op = .phi → v.InputsApart) (other : y ≠ z) :
    v.Substituted (v.replaceVariable (some y) (some z)) y z := by
  have different : some y ≠ some z := by simpa using other
  have args (a : Option VarId) := mem_args_replaceVariable_iff (a := a) apart different rfl
  obtain ⟨_, eq⟩ := v.replaceVariable_eq (some y) (some z)
  have op : (v.replaceVariable (some y) (some z)).op = v.op := by rw [eq]
  have result : (v.replaceVariable (some y) (some z)).result = if v.result = some y then some z else v.result := by rw [eq]
  refine ⟨?_, ?_, ?_, fun a notOld notNew => ?_, fun a notOld notNew => ?_, fun a notOld notNew => ?_, ?_⟩
  · simp only [references, result]
    grind
  · simp only [readsVar_iff, op, args]
    grind
  · simp only [writesVar_iff, op, args, result]
    grind
  · simp only [references, result]
    grind
  · rw [Bool.eq_iff_iff, readsVar_iff, readsVar_iff, op, args]
    grind
  · rw [Bool.eq_iff_iff, writesVar_iff, writesVar_iff, op, args, result]
    grind
  · exact filter_args_replaceVariable different (by simp) (by simp)

theorem op_replaceVariable : (v.replaceVariable old new).op = v.op := by
  obtain ⟨_, eq⟩ := v.replaceVariable_eq old new
  rw [eq]

/-- What does not mention `old` is left alone. -/
theorem replaceVariable_of_unreferenced (unreferenced : v.references old = false) : v.replaceVariable old new = v := by
  obtain ⟨notResult, notArg⟩ : v.result ≠ old ∧ old ∉ v.args := by simpa [references] using unreferenced
  simp [replaceVariable, replaceArgs, changesArgs, notResult, notArg]

end Vertex

/-! ### All vertices -/

namespace Graph

variable {g : Graph} {y z : VarId} {v w : VertexId} {vs : List VertexId}

/-- `h` is `g` with the variable `new` in place of `old`, for which `count` vertices had to change. -/
structure Substituted (g h : Graph) (old new : VarId) (count : Nat) : Prop where
  listed : h.listed = g.listed
  vertex : ∀ v ∈ g.listed, (g.vertex v).Substituted (h.vertex v) old new
  count : count = (g.references (some old)).toFinset.card

theorem vertex_modifyVertex_replaceVariable {new : Option VarId} :
    (g.modifyVertex v (·.replaceVariable (some y) new)).vertex w =
      if w = v then (g.vertex w).replaceVariable (some y) new else g.vertex w := by
  rw [vertex_modifyVertex]
  by_cases same : w = v
  · subst same
    rcases Nat.lt_or_ge w g.store.size with inside | outside
    · rw [if_pos ⟨rfl, inside⟩, if_pos rfl]
    · have blank : g.vertex w = {} := by simp [vertex, Array.getD, Nat.not_lt.mpr outside, default]
      rw [if_neg (fun inside => Nat.not_lt.mpr outside inside.2), if_pos rfl, blank]
      exact (Vertex.replaceVariable_of_unreferenced rfl).symm
  · rw [if_neg (fun both => same both.1), if_neg same]

/-- The phis among some vertices have inputs that are sets. -/
def SetsAmong (g : Graph) (vs : List VertexId) : Prop :=
  ∀ v ∈ vs, g.op v = .phi → (g.vertex v).InputsApart

theorem SetsAmong.modifyVertex {f : Vertex → Vertex} (sets : g.SetsAmong vs) (op : ∀ w, (f w).op = w.op)
    (apart : ∀ w, w.op = .phi → w.InputsApart → (f w).InputsApart) : (g.modifyVertex v f).SetsAmong vs := by
  intro u member isPhi
  rw [Graph.op, congr_modifyVertex Vertex.op op] at isPhi
  rw [vertex_modifyVertex]
  split
  · exact apart _ isPhi (sets u member isPhi)
  · exact sets u member isPhi

theorem SetsAmong.replaceStep {old new : Option VarId} (sets : g.SetsAmong vs) :
    (g.modifyVertex v (·.replaceVariable old new)).SetsAmong vs :=
  sets.modifyVertex (fun _ => Vertex.op_replaceVariable) fun _ isPhi apart => apart.replaceVariable isPhi old new

theorem SetsAmong.replaceVariable {old new : Option VarId} (sets : g.SetsAmong vs) : (g.replaceVariable old new).SetsAmong vs := by
  rw [Graph.replaceVariable]
  induction g.listed generalizing g with
  | nil => exact sets
  | cons u us ih => exact ih sets.replaceStep

theorem listed_replaceVariable {old new : Option VarId} : (g.replaceVariable old new).listed = g.listed :=
  kept_foldl_modifyVertex (·.listed) (fun _ _ => rfl) g.listed

/-- A vertex that is listed twice is not changed twice. -/
theorem vertex_foldl_replaceVariable (sets : g.SetsAmong vs) (other : y ≠ z) :
    (vs.foldl (fun g v => g.modifyVertex v (·.replaceVariable (some y) (some z))) g).vertex w =
      if w ∈ vs then (g.vertex w).replaceVariable (some y) (some z) else g.vertex w := by
  induction vs generalizing g with
  | nil => simp
  | cons v vs ih =>
    have rest : g.SetsAmong vs := fun u member => sets u (List.mem_cons_of_mem _ member)
    rw [List.foldl_cons, ih rest.replaceStep, vertex_modifyVertex_replaceVariable]
    by_cases first : w = v
    · subst first
      have gone := (Vertex.substituted_replaceVariable (sets w List.mem_cons_self) other).gone
      simp [Vertex.replaceVariable_of_unreferenced gone]
    · simp [first]

theorem countReplaced_eq_card (sets : g.SetsAmong vs) (other : y ≠ z) : countReplaced (some y) (some z) g vs =
    (vs.filter fun v => (g.vertex v).references (some y)).toFinset.card := by
  induction vs generalizing g with
  | nil => rfl
  | cons v vs ih =>
    have rest : g.SetsAmong vs := fun u member => sets u (List.mem_cons_of_mem _ member)
    have gone := (Vertex.substituted_replaceVariable (sets v List.mem_cons_self) other).gone
    -- once it has had its turn, a vertex is not counted again, even if it is listed again
    have later : (vs.filter fun u => ((g.modifyVertex v (·.replaceVariable (some y) (some z))).vertex u).references
        (some y)).toFinset = (vs.filter fun u => (g.vertex u).references (some y)).toFinset.erase v := by
      ext u
      simp only [List.mem_toFinset, List.mem_filter, Finset.mem_erase, vertex_modifyVertex_replaceVariable]
      by_cases first : u = v
      · subst first
        simp [gone]
      · simp [first]
    rw [countReplaced, ih rest.replaceStep, later]
    by_cases named : (g.vertex v).references (some y) = true
    · have changes : (g.vertex v).changesVariable (some y) (some z) = true := by simp [Vertex.changesVariable, other, named]
      rw [if_pos changes, List.filter_cons, if_pos named, List.toFinset_cons, ← Finset.erase_insert_eq_erase, Nat.add_comm]
      exact Finset.card_erase_add_one (Finset.mem_insert_self ..)
    · have same : ¬(g.vertex v).changesVariable (some y) (some z) = true := by simp [Vertex.changesVariable, named]
      rw [if_neg same, List.filter_cons, if_neg named, Finset.erase_eq_of_notMem (by simp [named]), Nat.zero_add]

theorem substituted_replaceVariable (sets : g.PhiSets) (other : y ≠ z) :
    g.Substituted (g.replaceVariable (some y) (some z)) y z (g.replaceCount (some y) (some z)) where
  listed := listed_replaceVariable
  vertex := fun v member => by
    rw [replaceVariable, vertex_foldl_replaceVariable sets other, if_pos member]
    exact Vertex.substituted_replaceVariable (sets v member) other
  count := countReplaced_eq_card sets other

end Graph

/-! ### Sequences of changes -/

/-- A change of the variables that vertices mention. -/
inductive Substitution
  | addPhiInput (v : VertexId) (x : VarId)
  | removePhiInput (v : VertexId) (x : VarId)
  | replaceArgs (v : VertexId) (old new : VarId)
  | replaceIn (v : VertexId) (old new : VarId)
  | replace (old new : VarId)

/-- Makes a change. -/
def Substitution.run (g : Graph) : Substitution → Graph
  | .addPhiInput v x => g.modifyVertex v (·.addPhiInput (some x))
  | .removePhiInput v x => g.modifyVertex v (·.removePhiInput (some x))
  | .replaceArgs v old new => g.modifyVertex v (·.replaceArgs (some old) (some new))
  | .replaceIn v old new => g.modifyVertex v (·.replaceVariable (some old) (some new))
  | .replace old new => g.replaceVariable (some old) (some new)

namespace Graph

variable {g : Graph}

theorem PhiSets.run (sets : g.PhiSets) (step : Substitution) : (step.run g).PhiSets := by
  have sets : g.SetsAmong g.listed := sets
  cases step with
  | addPhiInput v x => exact sets.modifyVertex (fun _ => Vertex.op_addPhiInput) fun _ _ apart => apart.addPhiInput
  | removePhiInput v x => exact sets.modifyVertex (fun _ => rfl) fun _ _ apart => apart.removePhiInput
  | replaceArgs v old new =>
    exact sets.modifyVertex (fun _ => Vertex.op_replaceArgs) fun _ isPhi apart => apart.replaceArgs isPhi _ _
  | replaceIn v old new => exact sets.replaceStep
  | replace old new =>
    intro v member
    exact sets.replaceVariable v (listed_replaceVariable ▸ member)

theorem PhiSets.foldl_run (sets : g.PhiSets) (steps : List Substitution) : (steps.foldl Substitution.run g).PhiSets := by
  induction steps generalizing g with
  | nil => exact sets
  | cons step steps ih => exact ih (sets.run step)

/-- Wherever the inputs of phis are sets without the result, they stay so under every sequence of changes, and then putting one
variable in place of another is complete. -/
theorem substitution_complete (sets : g.PhiSets) (steps : List Substitution) :
    (steps.foldl Substitution.run g).PhiSets ∧ ∀ old new, old ≠ new →
      (steps.foldl Substitution.run g).Substituted
        ((steps.foldl Substitution.run g).replaceVariable (some old) (some new)) old new
        ((steps.foldl Substitution.run g).replaceCount (some old) (some new)) :=
  ⟨sets.foldl_run steps, fun _ _ other => substituted_replaceVariable (sets.foldl_run steps) other⟩

/-- A phi of two variables. -/
def choosing : Graph :=
  (Graph.empty "f" .empty).addVertex .phi (some 2) [some 0, some 1]

/-- Its inputs become one, and that one its result, which leaves no input. -/
theorem choosing_substitution :
    choosing.PhiSets ∧ ((Substitution.replaceArgs 2 0 1).run choosing).PhiSets ∧
      ((Substitution.replaceArgs 2 0 1).run choosing).Substituted
        (((Substitution.replaceArgs 2 0 1).run choosing).replaceVariable (some 2) (some 1)) 2 1 1 ∧
      (((Substitution.replaceArgs 2 0 1).run choosing).vertex 2).args = [some 1] ∧
      ((((Substitution.replaceArgs 2 0 1).run choosing).replaceVariable (some 2) (some 1)).vertex 2).args = [] := by
  have sets : choosing.PhiSets := by
    unfold PhiSets Vertex.InputsApart
    decide
  obtain ⟨after, complete⟩ := substitution_complete sets [.replaceArgs 2 0 1]
  exact ⟨sets, after, complete 2 1 (by decide), by decide, by decide⟩

end Graph

end MiddleEnd
