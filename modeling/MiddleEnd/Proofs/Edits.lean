import MiddleEnd.Graph.Edit
import MiddleEnd.Graph.Integrity
import MiddleEnd.Proofs.Search

/-!
What the elementary edits do to the vertices of a graph. Most edits are told from the outside by the successors,
operands and results they leave behind, so `Vertex.core` takes the predecessors away and one equation between
cores says that everything else is unchanged. `Graph.Wired` is what the lists of edges of a graph have to satisfy
for the edits to do what their names say.
-/
namespace MiddleEnd

namespace Vertex

/-- A vertex but for its predecessors. -/
def core (v : Vertex) : Vertex :=
  { v with preds := [] }

/-- Two vertices differ at most in their predecessors. -/
structure SameCore (v w : Vertex) : Prop where
  op : v.op = w.op
  binOp : v.binOp = w.binOp
  callee : v.callee = w.callee
  result : v.result = w.result
  args : v.args = w.args
  succs : v.succs = w.succs
  owned : v.owned = w.owned

theorem core_eq_iff {v w : Vertex} : v.core = w.core ↔ v.SameCore w := by
  constructor
  · intro same
    cases v; cases w
    obtain ⟨⟩ := same
    exact ⟨rfl, rfl, rfl, rfl, rfl, rfl, rfl⟩
  · rintro ⟨op, binOp, callee, result, args, succs, owned⟩
    simp [core, op, binOp, callee, result, args, succs, owned]

theorem writes_congr {v w : Vertex} (same : v.core = w.core) : v.writes = w.writes := by
  obtain ⟨op, _, _, result, args, _⟩ := core_eq_iff.mp same
  simp [writes, op, result, args]

end Vertex

namespace Graph

variable {g : Graph} {v w n : VertexId} {f : Vertex → Vertex}

/-! ### Single vertices -/

@[simp] theorem size_modifyVertex : (g.modifyVertex v f).store.size = g.store.size := by
  simp [modifyVertex]

@[simp] theorem listed_modifyVertex : (g.modifyVertex v f).listed = g.listed := rfl
@[simp] theorem entry_modifyVertex : (g.modifyVertex v f).entry = g.entry := rfl
@[simp] theorem exit_modifyVertex : (g.modifyVertex v f).exit = g.exit := rfl
@[simp] theorem vars_modifyVertex : (g.modifyVertex v f).vars = g.vars := rfl
@[simp] theorem epoch_modifyVertex : (g.modifyVertex v f).epoch = g.epoch := rfl
@[simp] theorem reach_modifyVertex : (g.modifyVertex v f).reach = g.reach := rfl
@[simp] theorem var_modifyVertex (x : VarId) : (g.modifyVertex v f).var x = g.var x := rfl

theorem vertex_modifyVertex : (g.modifyVertex v f).vertex w =
    if w = v ∧ v < g.store.size then f (g.vertex w) else g.vertex w := by
  simp only [vertex, modifyVertex, Array.getD_eq_getD_getElem?, Array.getElem?_modify]
  by_cases same : w = v
  · subst same
    rcases Nat.lt_or_ge w g.store.size with inside | outside
    · simp [inside]
    · simp [Nat.not_lt.mpr outside]
  · simp [same, Ne.symm same]

@[simp] theorem vertex_modifyVertex_self (inside : v < g.store.size) :
    (g.modifyVertex v f).vertex v = f (g.vertex v) := by
  simp [vertex_modifyVertex, inside]

@[simp] theorem vertex_modifyVertex_of_ne (other : w ≠ v) : (g.modifyVertex v f).vertex w = g.vertex w := by
  simp [vertex_modifyVertex, other]

/-- What a change of a vertex leaves alone is the same everywhere. -/
theorem congr_modifyVertex {α : Type} (field : Vertex → α) (kept : ∀ w, field (f w) = field w) (w : VertexId) :
    field ((g.modifyVertex v f).vertex w) = field (g.vertex w) := by
  rw [vertex_modifyVertex]
  split
  · exact kept _
  · rfl

@[simp] theorem vertex_touch : g.touch.vertex w = g.vertex w := rfl
@[simp] theorem size_touch : g.touch.store.size = g.store.size := rfl
@[simp] theorem listed_touch : g.touch.listed = g.listed := rfl
@[simp] theorem entry_touch : g.touch.entry = g.entry := rfl
@[simp] theorem exit_touch : g.touch.exit = g.exit := rfl
@[simp] theorem vars_touch : g.touch.vars = g.vars := rfl
@[simp] theorem epoch_touch : g.touch.epoch = g.epoch + 1 := rfl
@[simp] theorem reach_touch : g.touch.reach = g.reach := rfl
@[simp] theorem var_touch (x : VarId) : g.touch.var x = g.var x := rfl

/-! ### New vertices and variables -/

section
variable {op : Op} {result : Option VarId} {args : List (Option VarId)}

@[simp] theorem size_addVertex : (g.addVertex op result args).store.size = g.store.size + 1 := by
  simp [addVertex]

@[simp] theorem listed_addVertex : (g.addVertex op result args).listed = g.listed ++ [g.store.size] := rfl
@[simp] theorem entry_addVertex : (g.addVertex op result args).entry = g.entry := rfl
@[simp] theorem exit_addVertex : (g.addVertex op result args).exit = g.exit := rfl
@[simp] theorem vars_addVertex : (g.addVertex op result args).vars = g.vars := rfl
@[simp] theorem epoch_addVertex : (g.addVertex op result args).epoch = g.epoch + 1 := rfl
@[simp] theorem reach_addVertex : (g.addVertex op result args).reach = g.reach := rfl
@[simp] theorem var_addVertex (x : VarId) : (g.addVertex op result args).var x = g.var x := rfl

theorem vertex_addVertex : (g.addVertex op result args).vertex w =
    if w = g.store.size then { op, result, args, owned := true } else g.vertex w := by
  simp only [vertex, addVertex, Array.getD_eq_getD_getElem?, Array.getElem?_push]
  by_cases new : w = g.store.size
  · simp [new]
  · simp [new]

@[simp] theorem vertex_addVertex_new :
    (g.addVertex op result args).vertex g.store.size = { op, result, args, owned := true } := by
  simp [vertex_addVertex]

@[simp] theorem vertex_addVertex_of_ne (old : w ≠ g.store.size) :
    (g.addVertex op result args).vertex w = g.vertex w := by
  simp [vertex_addVertex, old]

end

section
variable {name : String} {type : Option Ty} {x : VarId}

@[simp] theorem vertex_addVar : (g.addVar name type).vertex w = g.vertex w := rfl
@[simp] theorem store_addVar : (g.addVar name type).store = g.store := rfl
@[simp] theorem listed_addVar : (g.addVar name type).listed = g.listed := rfl
@[simp] theorem entry_addVar : (g.addVar name type).entry = g.entry := rfl
@[simp] theorem exit_addVar : (g.addVar name type).exit = g.exit := rfl

@[simp] theorem epoch_addVar : (g.addVar name type).epoch = g.epoch := rfl
@[simp] theorem reach_addVar : (g.addVar name type).reach = g.reach := rfl

@[simp] theorem size_vars_addVar : (g.addVar name type).vars.size = g.vars.size + 1 := by
  simp [addVar]

theorem var_addVar : (g.addVar name type).var x =
    if x = g.vars.size then { name, type := some (type.getD .unknown) } else g.var x := by
  simp only [var, addVar, Array.getD_eq_getD_getElem?, Array.getElem?_push]
  by_cases new : x = g.vars.size
  · simp [new]
  · simp [new]

/-- A new variable is no constant. -/
theorem value_addVar : ((g.addVar name type).var x).value = (g.var x).value := by
  rw [var_addVar]
  split
  · rename_i new
    subst new
    simp [var, Array.getD_eq_getD_getElem?]
    rfl
  · rfl

end

/-! ### Edges -/

/-- The edges between the listed vertices are written down at both ends, as often. -/
structure Wired (g : Graph) : Prop where
  entry_listed : g.entry ∈ g.listed
  listed_lt : ∀ v ∈ g.listed, v < g.store.size
  succs_listed : ∀ v ∈ g.listed, ∀ s ∈ g.succs v, s ∈ g.listed
  preds_listed : ∀ v ∈ g.listed, ∀ p ∈ g.preds v, p ∈ g.listed
  counts : ∀ u ∈ g.listed, ∀ v ∈ g.listed, (g.succs u).count v = (g.preds v).count u

namespace Wired

variable {u : VertexId}

theorem mem_preds_iff (wired : g.Wired) (source : u ∈ g.listed) (target : v ∈ g.listed) :
    v ∈ g.succs u ↔ u ∈ g.preds v := by
  rw [← List.count_pos_iff, ← List.count_pos_iff, wired.counts u source v target]

/-- Where no listed vertex leads, nothing arrives. -/
theorem preds_eq_nil (wired : g.Wired) (target : v ∈ g.listed) (none : ∀ u ∈ g.listed, v ∉ g.succs u) :
    g.preds v = [] := by
  rw [List.eq_nil_iff_forall_not_mem]
  intro u isPred
  have source := wired.preds_listed v target u isPred
  exact none u source ((wired.mem_preds_iff source target).mpr isPred)

theorem listed_of_reachable (wired : g.Wired) (reached : Reachable g.succs g.entry v) : v ∈ g.listed := by
  obtain ⟨past, trail⟩ := reached
  exact trail.invariant wired.entry_listed fun u s listed edge => wired.succs_listed u listed s edge

theorem lt_of_reachable (wired : g.Wired) (reached : Reachable g.succs g.entry v) : v < g.store.size :=
  wired.listed_lt v (wired.listed_of_reachable reached)

end Wired

/-- Two graphs with the same lists of edges are wired alike. -/
theorem Wired.congr {g' : Graph} (wired : g.Wired) (entry : g'.entry = g.entry) (listed : g'.listed = g.listed)
    (size : g.store.size ≤ g'.store.size) (succs : ∀ v ∈ g.listed, g'.succs v = g.succs v)
    (preds : ∀ v ∈ g.listed, g'.preds v = g.preds v) : g'.Wired where
  entry_listed := by rw [entry, listed]; exact wired.entry_listed
  listed_lt v member := Nat.lt_of_lt_of_le (wired.listed_lt v (listed ▸ member)) size
  succs_listed v member s edge := by
    rw [listed] at member ⊢
    rw [succs v member] at edge
    exact wired.succs_listed v member s edge
  preds_listed v member p edge := by
    rw [listed] at member ⊢
    rw [preds v member] at edge
    exact wired.preds_listed v member p edge
  counts u source v target := by
    rw [listed] at source target
    rw [succs u source, preds v target]
    exact wired.counts u source v target

theorem Wired.modifyVertex (wired : g.Wired) (succs : ∀ w, (f w).succs = w.succs)
    (preds : ∀ w, (f w).preds = w.preds) : (g.modifyVertex v f).Wired :=
  wired.congr rfl rfl (by simp) (fun w _ => congr_modifyVertex Vertex.succs succs w)
    (fun w _ => congr_modifyVertex Vertex.preds preds w)

theorem Wired.addVar {name : String} {type : Option Ty} (wired : g.Wired) : (g.addVar name type).Wired :=
  wired.congr rfl rfl (Nat.le_refl _) (fun _ _ => rfl) (fun _ _ => rfl)

/-- A vertex without edges may be added. -/
theorem Wired.addVertex {op : Op} {result : Option VarId} {args : List (Option VarId)} (wired : g.Wired) :
    (g.addVertex op result args).Wired := by
  have old (v : VertexId) (member : v ∈ g.listed) : v ≠ g.store.size := Nat.ne_of_lt (wired.listed_lt v member)
  have newSuccs : (g.addVertex op result args).succs g.store.size = [] := by simp [succs]
  have newPreds : (g.addVertex op result args).preds g.store.size = [] := by simp [preds]
  have oldSuccs (v : VertexId) (member : v ∈ g.listed) : (g.addVertex op result args).succs v = g.succs v := by
    simp [succs, old v member]
  have oldPreds (v : VertexId) (member : v ∈ g.listed) : (g.addVertex op result args).preds v = g.preds v := by
    simp [preds, old v member]
  refine ⟨?_, ?_, ?_, ?_, ?_⟩
  · simp [wired.entry_listed]
  · intro v member
    rw [listed_addVertex, List.mem_append, List.mem_singleton] at member
    rcases member with earlier | rfl
    · rw [size_addVertex]
      exact Nat.lt_succ_of_lt (wired.listed_lt v earlier)
    · simp
  · intro v member s edge
    rw [listed_addVertex, List.mem_append, List.mem_singleton] at member ⊢
    rcases member with earlier | rfl
    · rw [oldSuccs v earlier] at edge
      exact .inl (wired.succs_listed v earlier s edge)
    · simp [newSuccs] at edge
  · intro v member p edge
    rw [listed_addVertex, List.mem_append, List.mem_singleton] at member ⊢
    rcases member with earlier | rfl
    · rw [oldPreds v earlier] at edge
      exact .inl (wired.preds_listed v earlier p edge)
    · simp [newPreds] at edge
  · intro u source v target
    rw [listed_addVertex, List.mem_append, List.mem_singleton] at source target
    rcases source with source | rfl
    · rcases target with target | rfl
      · rw [oldSuccs u source, oldPreds v target]
        exact wired.counts u source v target
      · rw [oldSuccs u source, newPreds, List.count_nil, List.count_eq_zero]
        exact fun edge => old _ (wired.succs_listed u source _ edge) rfl
    · rcases target with target | rfl
      · rw [newSuccs, oldPreds v target, List.count_nil, eq_comm, List.count_eq_zero]
        exact fun edge => old _ (wired.preds_listed v target _ edge) rfl
      · rw [newSuccs, newPreds]

/-! ### Inserting a vertex behind another -/

/-- One change made at the vertices of a list, if it makes no difference to make it twice. -/
theorem vertex_foldl_modifyVertex (twice : ∀ w, f (f w) = f w) (vs : List VertexId) (w : VertexId) :
    (vs.foldl (fun g v => g.modifyVertex v f) g).vertex w =
      if w ∈ vs ∧ w < g.store.size then f (g.vertex w) else g.vertex w := by
  induction vs generalizing g with
  | nil => simp
  | cons v vs ih =>
    rw [List.foldl_cons, ih, size_modifyVertex, vertex_modifyVertex]
    by_cases inside : w < g.store.size
    · by_cases first : w = v
      · subst first
        simp only [inside, and_self, ↓reduceIte, List.mem_cons, true_or, and_true, twice]
        split <;> rfl
      · simp [first]
    · by_cases first : w = v
      · subst first
        simp [inside]
      · simp [first]

theorem kept_foldl_modifyVertex {α : Type} (field : Graph → α)
    (kept : ∀ g v, field (g.modifyVertex v f) = field g) (vs : List VertexId) :
    field (vs.foldl (fun g v => g.modifyVertex v f) g) = field g := by
  induction vs generalizing g with
  | nil => rfl
  | cons v vs ih => rw [List.foldl_cons, ih, kept]

/-- A predecessor list in which `n` has taken the place of `v`. -/
def handOver (v n : VertexId) (w : Vertex) : Vertex :=
  { w with preds := w.preds.map fun p => if p = v then n else p }

theorem handOver_twice (other : v ≠ n) (w : Vertex) : handOver v n (handOver v n w) = handOver v n w := by
  simp only [handOver, List.map_map]
  congr 1
  apply List.map_congr_left
  intro p _
  by_cases same : p = v
  · simp [same, Ne.symm other]
  · simp [same]

section insertAfter
variable (inside : v < g.store.size) (insideNew : n < g.store.size) (other : v ≠ n)
include inside insideNew other

private theorem vertex_insertAfter (w : VertexId) : (g.insertAfter v n).vertex w =
    if w = n then { (if n ∈ g.succs v then handOver v n { g.vertex n with succs := g.succs v }
        else { g.vertex n with succs := g.succs v }) with preds := [v] }
    else if w = v then { (if v ∈ g.succs v then handOver v n (g.vertex v) else g.vertex v) with succs := [n] }
    else if w ∈ g.succs v ∧ w < g.store.size then handOver v n (g.vertex w) else g.vertex w := by
  have size : ((g.succs v).foldl (fun g s => g.modifyVertex s (handOver v n))
      (g.modifyVertex n fun w => { w with succs := g.succs v })).store.size = g.store.size := by
    rw [kept_foldl_modifyVertex (fun g => g.store.size) (fun _ _ => size_modifyVertex), size_modifyVertex]
  have folded := vertex_foldl_modifyVertex (g := g.modifyVertex n fun w => { w with succs := g.succs v })
    (handOver_twice other) (g.succs v)
  show (((((g.succs v).foldl (fun g s => g.modifyVertex s (handOver v n))
      (g.modifyVertex n fun w => { w with succs := g.succs v })).modifyVertex v
        fun w => { w with succs := [n] }).modifyVertex n fun w => { w with preds := [v] }).touch).vertex w = _
  rw [vertex_touch]
  by_cases isNew : w = n
  · subst isNew
    rw [vertex_modifyVertex_self (by simpa [size] using insideNew), vertex_modifyVertex_of_ne (Ne.symm other),
      folded, size_modifyVertex, vertex_modifyVertex_self insideNew]
    simp [insideNew]
  · rw [vertex_modifyVertex_of_ne isNew]
    by_cases isOld : w = v
    · subst isOld
      rw [vertex_modifyVertex_self (by simpa [size] using inside), folded, size_modifyVertex,
        vertex_modifyVertex_of_ne other]
      simp [inside, isNew]
    · rw [vertex_modifyVertex_of_ne isOld, folded, size_modifyVertex, vertex_modifyVertex_of_ne isNew]
      simp [isNew, isOld]

theorem core_insertAfter_new :
    ((g.insertAfter v n).vertex n).core = { g.vertex n with succs := g.succs v }.core := by
  rw [vertex_insertAfter inside insideNew other]
  simp only [↓reduceIte, Vertex.core]
  split <;> rfl

theorem core_insertAfter_old :
    ((g.insertAfter v n).vertex v).core = { g.vertex v with succs := [n] }.core := by
  rw [vertex_insertAfter inside insideNew other]
  simp only [other, ↓reduceIte, Vertex.core]
  split <;> rfl

theorem core_insertAfter_of_ne (notOld : w ≠ v) (notNew : w ≠ n) :
    ((g.insertAfter v n).vertex w).core = (g.vertex w).core := by
  rw [vertex_insertAfter inside insideNew other]
  simp only [notOld, notNew, ↓reduceIte]
  split <;> rfl

theorem vertex_insertAfter_of_notMem (notOld : w ≠ v) (notNew : w ≠ n) (noEdge : w ∉ g.succs v) :
    (g.insertAfter v n).vertex w = g.vertex w := by
  rw [vertex_insertAfter inside insideNew other, if_neg notNew, if_neg notOld, if_neg fun edge => noEdge edge.1]

theorem succs_insertAfter : (g.insertAfter v n).succs w =
    if w = n then g.succs v else if w = v then [n] else g.succs w := by
  by_cases isNew : w = n
  · subst isNew
    have core := Vertex.core_eq_iff.mp (core_insertAfter_new inside insideNew other)
    simpa [succs] using core.succs
  · by_cases isOld : w = v
    · subst isOld
      have core := Vertex.core_eq_iff.mp (core_insertAfter_old inside insideNew other)
      simpa [succs, other] using core.succs
    · have core := Vertex.core_eq_iff.mp (core_insertAfter_of_ne inside insideNew other isOld isNew)
      simpa [succs, isNew, isOld] using core.succs

theorem preds_insertAfter_new : (g.insertAfter v n).preds n = [v] := by
  rw [preds, vertex_insertAfter inside insideNew other]
  simp

theorem preds_insertAfter_of_ne (notNew : w ≠ n) (below : w < g.store.size) (absent : w ∉ g.succs v → v ∉ g.preds w) :
    (g.insertAfter v n).preds w = (g.preds w).map fun p => if p = v then n else p := by
  have unchanged (gone : v ∉ g.preds w) : g.preds w = (g.preds w).map fun p => if p = v then n else p := by
    have same : (g.preds w).map (fun p => if p = v then n else p) = (g.preds w).map id := by
      apply List.map_congr_left
      intro p member
      have notOld : p ≠ v := fun same => gone (same ▸ member)
      simp [notOld]
    rw [same, List.map_id]
  rw [preds, vertex_insertAfter inside insideNew other]
  by_cases isOld : w = v
  · subst isOld
    simp only [notNew, ↓reduceIte]
    split
    · rfl
    · exact unchanged (absent ‹_›)
  · simp only [notNew, isOld, ↓reduceIte, below, and_true]
    split
    · rfl
    · exact unchanged (absent ‹_›)

end insertAfter

@[simp] theorem size_insertAfter : (g.insertAfter v n).store.size = g.store.size := by
  rw [insertAfter]
  simp only [size_touch, size_modifyVertex]
  rw [kept_foldl_modifyVertex (fun g => g.store.size) (fun _ _ => size_modifyVertex), size_modifyVertex]

@[simp] theorem name_insertAfter : (g.insertAfter v n).name = g.name := by
  rw [insertAfter]
  exact kept_foldl_modifyVertex (fun g => g.name) (fun _ _ => rfl) _

@[simp] theorem sig_insertAfter : (g.insertAfter v n).sig = g.sig := by
  rw [insertAfter]
  exact kept_foldl_modifyVertex (fun g => g.sig) (fun _ _ => rfl) _

@[simp] theorem listed_insertAfter : (g.insertAfter v n).listed = g.listed := by
  rw [insertAfter]
  simp only [listed_touch, listed_modifyVertex]
  rw [kept_foldl_modifyVertex (fun g => g.listed) (fun _ _ => rfl), listed_modifyVertex]

@[simp] theorem entry_insertAfter : (g.insertAfter v n).entry = g.entry := by
  rw [insertAfter]
  simp only [entry_touch, entry_modifyVertex]
  rw [kept_foldl_modifyVertex (fun g => g.entry) (fun _ _ => rfl), entry_modifyVertex]

@[simp] theorem exit_insertAfter : (g.insertAfter v n).exit = g.exit := by
  rw [insertAfter]
  simp only [exit_touch, exit_modifyVertex]
  rw [kept_foldl_modifyVertex (fun g => g.exit) (fun _ _ => rfl), exit_modifyVertex]

@[simp] theorem vars_insertAfter : (g.insertAfter v n).vars = g.vars := by
  rw [insertAfter]
  simp only [vars_touch, vars_modifyVertex]
  rw [kept_foldl_modifyVertex (fun g => g.vars) (fun _ _ => rfl), vars_modifyVertex]

@[simp] theorem epoch_insertAfter : (g.insertAfter v n).epoch = g.epoch + 1 := by
  rw [insertAfter]
  simp only [epoch_touch, epoch_modifyVertex]
  rw [kept_foldl_modifyVertex (fun g => g.epoch) (fun _ _ => rfl), epoch_modifyVertex]

@[simp] theorem reach_insertAfter : (g.insertAfter v n).reach = g.reach := by
  rw [insertAfter]
  simp only [reach_touch, reach_modifyVertex]
  rw [kept_foldl_modifyVertex (fun g => g.reach) (fun _ _ => rfl), reach_modifyVertex]

theorem count_handOver {l : List VertexId} {u : VertexId} (other : v ≠ n) :
    (l.map fun p => if p = v then n else p).count u =
      if u = n then l.count v + l.count n else if u = v then 0 else l.count u := by
  induction l with
  | nil => simp
  | cons p l ih =>
    rw [List.map_cons, List.count_cons, ih]
    simp only [List.count_cons, beq_iff_eq]
    by_cases isOld : p = v
    · subst isOld
      by_cases toNew : u = n
      · subst toNew
        simp [other]
        omega
      · by_cases toOld : u = p
        · simp [toOld, other, Ne.symm other]
        · simp [toNew, toOld, Ne.symm toNew, Ne.symm toOld]
    · by_cases toNew : u = n
      · subst toNew
        by_cases isNew : p = u
        · simp [isNew, Ne.symm other]
          omega
        · simp [isNew, isOld]
      · by_cases toOld : u = v
        · subst toOld
          simp [isOld, other]
        · simp [isOld, toNew, toOld]

/-- Inserting an unconnected vertex keeps the lists of edges in agreement. -/
theorem Wired.insertAfter (wired : g.Wired) (member : v ∈ g.listed) (memberNew : n ∈ g.listed) (other : v ≠ n)
    (noSuccs : g.succs n = []) (noPreds : g.preds n = []) : (g.insertAfter v n).Wired := by
  have inside := wired.listed_lt v member
  have insideNew := wired.listed_lt n memberNew
  have succs (w : VertexId) := succs_insertAfter (w := w) inside insideNew other
  have predsNew := preds_insertAfter_new inside insideNew other
  have preds (w : VertexId) (listed : w ∈ g.listed) (notNew : w ≠ n) :
      (g.insertAfter v n).preds w = (g.preds w).map fun p => if p = v then n else p :=
    preds_insertAfter_of_ne inside insideNew other notNew (wired.listed_lt w listed)
      fun absent edge => absent ((wired.mem_preds_iff member listed).mpr edge)
  have notIntoNew (u : VertexId) (listed : u ∈ g.listed) : n ∉ g.succs u := by
    rw [wired.mem_preds_iff listed memberNew, noPreds]
    simp
  refine ⟨?_, ?_, ?_, ?_, ?_⟩
  · simpa using wired.entry_listed
  · intro w listed
    rw [listed_insertAfter] at listed
    simpa using wired.listed_lt w listed
  · intro w listed s edge
    rw [listed_insertAfter] at listed ⊢
    rw [succs] at edge
    split at edge
    · exact wired.succs_listed v member s edge
    · split at edge
      · exact List.mem_singleton.mp edge ▸ memberNew
      · exact wired.succs_listed w listed s edge
  · intro w listed p edge
    rw [listed_insertAfter] at listed ⊢
    by_cases isNew : w = n
    · rw [isNew, predsNew] at edge
      exact List.mem_singleton.mp edge ▸ member
    · rw [preds w listed isNew, List.mem_map] at edge
      obtain ⟨q, source, rfl⟩ := edge
      split
      · exact memberNew
      · exact wired.preds_listed w listed q source
  · intro u source w target
    rw [listed_insertAfter] at source target
    rw [succs]
    by_cases isNew : w = n
    · rw [isNew, predsNew]
      by_cases fromNew : u = n
      · simp [fromNew, List.count_eq_zero.mpr (notIntoNew v member), other]
      · by_cases fromOld : u = v
        · simp [fromOld, other]
        · simp [fromNew, fromOld, List.count_eq_zero.mpr (notIntoNew u source), Ne.symm fromOld]
    · rw [preds w target isNew, count_handOver other]
      by_cases fromNew : u = n
      · have none : (g.preds w).count n = 0 := by
          rw [← wired.counts n memberNew w target, noSuccs]
          rfl
        simp [fromNew, none, wired.counts v member w target]
      · by_cases fromOld : u = v
        · simp [fromOld, other, Ne.symm isNew]
        · simp [fromNew, fromOld, wired.counts u source w target]

end Graph

end MiddleEnd
