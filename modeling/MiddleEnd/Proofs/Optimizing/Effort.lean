import MiddleEnd.Optimizer.Rules
import MiddleEnd.Proofs.Integrity
import MiddleEnd.Proofs.Refinement

/-!
How often the optimizer can still change a graph. A vertex can be taken out once; before that an operation can be folded
to an assignment, a branch to a jump and a call to a recursive one, once; and a type goes from unknown over numeric to any
other, and never back. The sum of all that is the `effort` left. Edits of the edges, of the inputs of phis and of the names
of variables do not change it (`Graph.Frames`).
-/
namespace MiddleEnd

theorem Literal.slack_ty (c : Literal) : Ty.slack (some c.ty) = 0 := by
  cases c <;> rfl

/-- Whether a vertex can be given another operation. -/
def Op.isOpen : Op → Bool
  | .binary | .boolNot | .bitNot | .call | .jumpIf => true
  | _ => false

namespace Graph

variable {S : List VertexId} {g h k : Graph} {v n : VertexId} {x : VarId} {t : Option Ty} {f : Vertex → Vertex}

/-- How often the graph can still be changed. -/
def effort (g : Graph) : Nat :=
  g.listed.length + g.listed.countP (fun v => (g.op v).isOpen) + g.slack

/-- What the rules need for the effort to count: variables that are there, vertices of `S` that are listed as long as they
are in the graph, and a declared result. -/
structure Fit (S : List VertexId) (g : Graph) : Prop where
  inScope : g.Scoped
  listed : ∀ v ∈ S, g.contains v = true → v ∈ g.listed
  declared : g.sig.result.kind ≠ .unknown

theorem Fit.restart (fit : Fit S g) : Fit g.listed g :=
  ⟨fit.inScope, fun _ member _ => member, fit.declared⟩

/-! ### Types -/

namespace Refined

theorem fit {n : Nat} (refined : g.Refined h n) (fit : Fit S g) : Fit S h where
  inScope v member x references := by
    rw [refined.retyped.listed] at member
    rw [refined.retyped.vertex] at references
    rw [refined.retyped.vars]
    exact fit.inScope v member x references
  listed v member contains := by
    rw [refined.retyped.listed]
    rw [Graph.contains, refined.retyped.vertex] at contains
    exact fit.listed v member contains
  declared := by
    rw [refined.retyped.sig]
    exact fit.declared

theorem effort {n : Nat} (refined : g.Refined h n) : h.effort + n ≤ g.effort := by
  have ops : (fun v => (h.op v).isOpen) = fun v => (g.op v).isOpen :=
    funext fun v => by rw [Graph.op, Graph.op, refined.retyped.vertex]
  have := refined.slack
  rw [Graph.effort, Graph.effort, refined.retyped.listed, ops]
  omega

end Refined

/-! ### Edges, inputs and names -/

/-- `h` differs from `g` in nothing that counts. -/
structure Frames (g h : Graph) : Prop where
  sig : h.sig = g.sig
  listed : h.listed = g.listed
  vars : h.vars = g.vars
  op : ∀ v, h.op v = g.op v
  contains : ∀ v, h.contains v = g.contains v
  inScope : g.Scoped → h.Scoped

namespace Frames

theorem refl : g.Frames g :=
  ⟨rfl, rfl, rfl, fun _ => rfl, fun _ => rfl, id⟩

theorem trans (first : g.Frames h) (second : h.Frames k) : g.Frames k :=
  ⟨second.sig.trans first.sig, second.listed.trans first.listed, second.vars.trans first.vars,
    fun v => (second.op v).trans (first.op v), fun v => (second.contains v).trans (first.contains v),
    second.inScope ∘ first.inScope⟩

theorem fit (frames : g.Frames h) (fit : Fit S g) : Fit S h where
  inScope := frames.inScope fit.inScope
  listed v member contains := by
    rw [frames.listed]
    rw [frames.contains] at contains
    exact fit.listed v member contains
  declared := by
    rw [frames.sig]
    exact fit.declared

theorem effort (frames : g.Frames h) : h.effort = g.effort := by
  simp only [Graph.effort, slack, frames.listed, frames.vars, frames.op]

/-- A vertex may be changed in ways that do not count. -/
theorem modifyVertex (op : ∀ w, (f w).op = w.op) (owned : ∀ w, (f w).owned = w.owned)
    (references : ∀ w x, (f w).references (some x) = true → w.references (some x) = true ∨ x < g.vars.size) :
    g.Frames (g.modifyVertex v f) := by
  refine ⟨rfl, rfl, rfl, fun w => congr_modifyVertex Vertex.op op w, fun w => congr_modifyVertex Vertex.owned owned w, ?_⟩
  intro inScope w member x named
  rw [vertex_modifyVertex] at named
  split at named
  · rcases references _ x named with before | inside
    · exact inScope w member x before
    · exact inside
  · exact inScope w member x named

theorem modifyEdges (body : ∀ w, (f w).body = w.body) : g.Frames (g.modifyVertex v f) := by
  refine modifyVertex (fun w => (Vertex.body_eq_iff.mp (body w)).op) (fun w => (Vertex.body_eq_iff.mp (body w)).owned) ?_
  intro w x named
  obtain ⟨_, _, _, result, args, _⟩ := Vertex.body_eq_iff.mp (body w)
  rw [Vertex.references, result, args] at named
  exact .inl named

theorem touch : g.Frames g.touch :=
  ⟨rfl, rfl, rfl, fun _ => rfl, fun _ => rfl, id⟩

theorem ends (entry exit : VertexId) : g.Frames { g with entry := entry, exit := exit } :=
  ⟨rfl, rfl, rfl, fun _ => rfl, fun _ => rfl, id⟩

/-- Changes in turn that do not count. -/
theorem foldl {α : Type} {edit : Graph → α → Graph} (as : List α)
    (each : ∀ (h : Graph), h.vars = g.vars → ∀ a ∈ as, h.Frames (edit h a)) : g.Frames (as.foldl edit g) := by
  induction as generalizing g with
  | nil => exact .refl
  | cons a as ih =>
    have first := each g rfl a List.mem_cons_self
    exact first.trans (ih fun h same b later => each h (same.trans first.vars) b (List.mem_cons_of_mem _ later))

theorem removeEdge (u w : VertexId) : g.Frames (g.removeEdge u w) := by
  rw [Graph.removeEdge]
  split
  · refine .trans (.trans (h := g.modifyVertex u fun v => { v with succs := v.succs.erase w }) ?_ ?_) .touch
    · exact .modifyEdges fun _ => rfl
    · exact .modifyEdges fun _ => rfl
  · exact .refl

theorem movePred (u old new : VertexId) : g.Frames (g.movePred u old new) := by
  refine .trans (h := g.modifyVertex old fun v => { v with preds := v.preds.erase u }) ?_ ?_
  · exact .modifyEdges fun _ => rfl
  · exact .modifyEdges fun _ => rfl

theorem redirect (u old new : VertexId) : g.Frames (g.redirect u old new) := by
  have moves (edges : Nat) (h : Graph) : h.Frames (Nat.repeat (Graph.movePred · u old new) edges h) := by
    induction edges with
    | zero => exact .refl
    | succ edges ih => exact ih.trans (.movePred u old new)
  refine .trans (h := g.modifyVertex u fun v => { v with succs := turned old new v.succs }) (.modifyEdges fun _ => rfl) ?_
  exact (moves _ _).trans .touch

theorem redirectAll (sources : List VertexId) (old new : VertexId) : g.Frames (g.redirectAll sources old new) :=
  .foldl _ fun _ _ _ _ => .redirect ..

theorem replaceVariable {y z : VarId} (inside : z < g.vars.size) : g.Frames (g.replaceVariable (some y) (some z)) := by
  refine .foldl _ fun h same v _ => .modifyVertex (fun w => ?_) (fun w => ?_) fun w x named => ?_
  · obtain ⟨_, eq⟩ := w.replaceVariable_eq (some y) (some z)
    rw [eq]
  · obtain ⟨_, eq⟩ := w.replaceVariable_eq (some y) (some z)
    rw [eq]
  · rcases Vertex.references_replaceVariable named with before | ⟨rfl, _⟩
    · exact .inl before
    · exact .inr (same ▸ inside)

end Frames

/-! ### Vertices that come and go -/

theorem contains_drop : (g.drop v).contains n = (!decide (n = v) && g.contains n) := by
  show ((Graph.modifyVertex { g with listed := g.listed.erase v } v fun w => { w with owned := false }).vertex n).owned = _
  rw [vertex_modifyVertex]
  by_cases same : n = v
  · subst same
    split
    · simp
    · rename_i outside
      have absent : ¬ n < g.store.size := by simpa using outside
      show (g.vertex n).owned = _
      simp [vertex_of_ge (Nat.le_of_not_lt absent)]
      rfl
  · simp [same]
    rfl

theorem body_drop : ((g.drop v).vertex n).op = (g.vertex n).op ∧ ((g.drop v).vertex n).result = (g.vertex n).result ∧
    ((g.drop v).vertex n).args = (g.vertex n).args := by
  show ((Graph.modifyVertex { g with listed := g.listed.erase v } v fun w => { w with owned := false }).vertex n).op = _ ∧
    ((Graph.modifyVertex { g with listed := g.listed.erase v } v fun w => { w with owned := false }).vertex n).result = _ ∧
    ((Graph.modifyVertex { g with listed := g.listed.erase v } v fun w => { w with owned := false }).vertex n).args = _
  rw [vertex_modifyVertex]
  split
  · exact ⟨rfl, rfl, rfl⟩
  · exact ⟨rfl, rfl, rfl⟩

theorem Fit.drop (fit : Fit S g) : Fit S (g.drop v) where
  inScope w member x references := by
    obtain ⟨_, result, args⟩ := body_drop (g := g) (v := v) (n := w)
    rw [Vertex.references, result, args] at references
    exact fit.inScope w (List.mem_of_mem_erase member) x references
  listed w member contains := by
    rw [contains_drop, Bool.and_eq_true] at contains
    have other : w ≠ v := by simpa using contains.1
    exact (List.mem_erase_of_ne other).mpr (fit.listed w member contains.2)
  declared := fit.declared

/-- A vertex that goes takes its part of the effort with it. -/
theorem effort_drop (member : v ∈ g.listed) : (g.drop v).effort + 1 + (g.op v).isOpen.toNat = g.effort := by
  have ops : (fun w => ((g.drop v).op w).isOpen) = fun w => (g.op w).isOpen :=
    funext fun w => by rw [Graph.op, body_drop.1]; rfl
  have length := List.length_erase_of_mem member
  have positive := List.length_pos_of_mem member
  have perm := List.perm_cons_erase member
  have count : g.listed.countP (fun w => (g.op w).isOpen) =
      (g.listed.erase v).countP (fun w => (g.op w).isOpen) + (g.op v).isOpen.toNat := by
    rw [perm.countP_eq, List.countP_cons]
    cases (g.op v).isOpen <;> rfl
  rw [effort, effort, ops]
  show (g.listed.erase v).length + (g.listed.erase v).countP _ + g.slack + 1 + _ = _
  omega

/-- `h` is `g` without `v`, with other edges. -/
def Drops (g : Graph) (v : VertexId) (h : Graph) : Prop :=
  ∃ k, g.Frames k ∧ h = k.drop v

theorem Drops.vars (drops : g.Drops v h) : h.vars = g.vars := by
  obtain ⟨k, frames, rfl⟩ := drops
  exact frames.vars

theorem drops_detach : g.Drops v (g.detach v) :=
  ⟨_, (Frames.foldl _ fun _ _ _ _ => .removeEdge ..).trans (.foldl _ fun _ _ _ _ => .removeEdge ..), rfl⟩

theorem drops_splice : g.Drops v (g.splice v) := by
  rw [splice]
  split
  · exact drops_detach
  · rename_i s _ _
    have turned : g.Frames ((g.redirectAll (g.preds v) v s).removeEdge v s) := (Frames.redirectAll ..).trans (.removeEdge ..)
    obtain ⟨k, frames, detached⟩ := drops_detach (g := (g.redirectAll (g.preds v) v s).removeEdge v s) (v := v)
    exact ⟨k, turned.trans frames, detached⟩

theorem drops_replace : g.Drops v (g.replace v n) := by
  have hands (h : Graph) (s : VertexId) :
      h.Frames ((h.modifyVertex n fun w => { w with succs := w.succs ++ [s] }).renamePred s v n) := by
    refine .trans (h := h.modifyVertex n fun w => { w with succs := w.succs ++ [s] }) ?_ ?_
    · exact .modifyEdges fun _ => rfl
    · exact .modifyEdges fun _ => rfl
  have handed : g.Frames (((g.redirectAll (g.preds v) v n).succs v).foldl (fun g s =>
      (g.modifyVertex n fun w => { w with succs := w.succs ++ [s] }).renamePred s v n) (g.redirectAll (g.preds v) v n)) :=
    .trans (.redirectAll ..) (.foldl _ fun h _ s _ => hands h s)
  have emptied := handed.trans (.modifyEdges (v := v) (f := fun w => { w with succs := [] }) fun _ => rfl)
  exact ⟨_, emptied.trans (.ends _ _), rfl⟩

theorem Fit.addVertex {op : Op} {result : Option VarId} {args : List (Option VarId)} (fit : Fit S g)
    (inScope : ∀ x, result = some x ∨ some x ∈ args → x < g.vars.size) : Fit S (g.addVertex op result args) where
  inScope w member x references := by
    rw [vertex_addVertex] at references
    split at references
    · exact inScope x (by simpa [Vertex.references] using references)
    · rename_i old
      rw [listed_addVertex, List.mem_append, List.mem_singleton] at member
      exact fit.inScope w (member.resolve_right old) x references
  listed w member contains := by
    rw [listed_addVertex, List.mem_append, List.mem_singleton]
    by_cases isNew : w = g.store.size
    · exact .inr isNew
    · rw [Graph.contains, vertex_addVertex_of_ne isNew] at contains
      exact .inl (fit.listed w member contains)
  declared := fit.declared

theorem effort_addVertex {op : Op} {result : Option VarId} {args : List (Option VarId)} (closed : op.isOpen = false) :
    (g.addVertex op result args).effort ≤ g.effort + 1 := by
  have ops (w : VertexId) : ((g.addVertex op result args).op w).isOpen = true → (g.op w).isOpen = true := by
    rw [Graph.op, vertex_addVertex]
    split
    · simp [closed]
    · exact id
  have count : (g.listed ++ [g.store.size]).countP (fun w => ((g.addVertex op result args).op w).isOpen) ≤
      g.listed.countP (fun w => (g.op w).isOpen) := by
    rw [List.countP_append, List.countP_singleton]
    have new : ((g.addVertex op result args).op g.store.size).isOpen = false := by
      rw [Graph.op, vertex_addVertex_new]
      exact closed
    have := List.countP_mono_left (l := g.listed) fun w _ => ops w
    simp only [new]
    simpa using this
  rw [effort, listed_addVertex, effort, List.length_append]
  show g.listed.length + 1 + _ + g.slack ≤ _
  omega

theorem Fit.addConst {value : Literal} (fit : Fit S g) : Fit S (g.addConst value) where
  inScope w member x references := by
    have inside : x < g.vars.size := fit.inScope w member x references
    simp only [Graph.addConst, Array.size_push]
    exact Nat.lt_succ_of_lt inside
  listed := fit.listed
  declared := fit.declared

theorem effort_addConst {value : Literal} : (g.addConst value).effort = g.effort := by
  have slack : (g.addConst value).slack = g.slack := by
    simp [Graph.slack, Graph.addConst, Literal.slack_ty]
  rw [effort, effort, slack]
  rfl

end Graph

end MiddleEnd
