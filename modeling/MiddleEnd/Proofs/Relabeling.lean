import MiddleEnd.Optimizer.TypeUnion
import MiddleEnd.Proofs.Action
import MiddleEnd.Proofs.Coherence
import MiddleEnd.Proofs.Rewiring

/-!
Edits that leave the shape of a graph alone. Some give variables other types and nothing else (`Graph.Retyped`).
Others put variables in place of others: `Graph.Relabeled` says what that means for each vertex, where `ρ` is the
renaming. A phi keeps its inputs as a set without its result, so of a phi it only says that nothing it joined is
lost, and that nothing of another class comes in.
-/
namespace MiddleEnd

namespace Graph

/-- `h` is `g` with other types of variables. -/
structure Retyped (g h : Graph) : Prop where
  name : h.name = g.name
  sig : h.sig = g.sig
  entry : h.entry = g.entry
  exit : h.exit = g.exit
  store : h.store = g.store
  listed : h.listed = g.listed
  epoch : h.epoch = g.epoch
  reach : h.reach = g.reach
  vars : h.vars.size = g.vars.size
  value : ∀ x, (h.var x).value = (g.var x).value

namespace Retyped

variable {g h k : Graph}

theorem refl : g.Retyped g :=
  ⟨rfl, rfl, rfl, rfl, rfl, rfl, rfl, rfl, rfl, fun _ => rfl⟩

theorem trans (first : g.Retyped h) (second : h.Retyped k) : g.Retyped k :=
  ⟨second.name.trans first.name, second.sig.trans first.sig, second.entry.trans first.entry,
    second.exit.trans first.exit, second.store.trans first.store, second.listed.trans first.listed,
    second.epoch.trans first.epoch, second.reach.trans first.reach, second.vars.trans first.vars,
    fun x => (second.value x).trans (first.value x)⟩

theorem vertex (retyped : g.Retyped h) (v : VertexId) : h.vertex v = g.vertex v := by
  rw [Graph.vertex, Graph.vertex, retyped.store]

theorem succs (retyped : g.Retyped h) : h.succs = g.succs := by
  funext v
  rw [Graph.succs, Graph.succs, retyped.vertex]

theorem wired (retyped : g.Retyped h) (wired : g.Wired) : h.Wired :=
  wired.congr retyped.entry retyped.listed (by rw [retyped.store]) (fun v _ => by rw [retyped.succs])
    (fun v _ => by rw [Graph.preds, Graph.preds, retyped.vertex])

theorem coherent {src : VarId → VarId} (retyped : g.Retyped h) (coherent : g.Coherent src) : h.Coherent src := by
  have latest (p : VarId → Bool) (past : List VertexId) : h.latest p past = g.latest p past := by
    have written : h.written past = g.written past := written_congr fun v _ => by rw [retyped.vertex]
    rw [Graph.latest, Graph.latest, written]
  have op (v : VertexId) : h.op v = g.op v := by rw [Graph.op, Graph.op, retyped.vertex]
  constructor <;> simp only [retyped.succs, retyped.entry, retyped.vertex, op, latest]
  · exact coherent.reads
  · exact coherent.joins
  · exact coherent.inputs

theorem setVarType (x : VarId) (type : Option Ty) : g.Retyped (g.setVarType x type) := by
  refine ⟨rfl, rfl, rfl, rfl, rfl, rfl, rfl, rfl, by simp [Graph.setVarType, Graph.modifyVar], fun y => ?_⟩
  simp only [Graph.setVarType, Graph.modifyVar, Graph.var, Array.getD_eq_getD_getElem?, Array.getElem?_modify]
  split
  · cases g.vars[y]? <;> rfl
  · rfl

end Retyped

end Graph

/-- A type is given to a variable whose own is still open, and to no other. -/
theorem refineType_succeeds {x : Option VarId} {t : Option Ty} {g h : Graph} {changed : Bool}
    (done : (refineType x t).Succeeds g changed h) :
    (changed = false ∧ h = g) ∨ (changed = true ∧ ∃ (y : VarId) (u : Ty), x = some y ∧ t = some u ∧
      (g.var y).kind.isRefinable = true ∧ (g.var y).type ≠ some u ∧ h = g.setVarType y (some u)) := by
  cases t with
  | none =>
    obtain ⟨rfl, rfl⟩ := Action.pure_succeeds.mp done
    exact .inl ⟨rfl, rfl⟩
  | some u =>
    obtain ⟨y, isY, done⟩ := Action.need_bind_succeeds.mp done
    simp only [Action.get_bind_succeeds] at done
    split at done
    · obtain ⟨rfl, rfl⟩ := Action.pure_succeeds.mp done
      exact .inl ⟨rfl, rfl⟩
    · rename_i free
      rw [Action.modify_bind_succeeds] at done
      obtain ⟨rfl, rfl⟩ := Action.pure_succeeds.mp done
      obtain ⟨⟨_, refinable⟩, other⟩ : ((g.var y).isConst = false ∧ (g.var y).kind.isRefinable = true) ∧
          (g.var y).type ≠ some u := by simpa using free
      exact .inr ⟨rfl, y, u, isY, rfl, refinable, other, rfl⟩

theorem refineType_retyped {x : Option VarId} {t : Option Ty} {g h : Graph} {changed : Bool}
    (done : (refineType x t).Succeeds g changed h) : g.Retyped h := by
  rcases refineType_succeeds done with ⟨_, rfl⟩ | ⟨_, y, u, _, _, _, _, rfl⟩
  · exact .refl
  · exact .setVarType y (some u)

/-- A vertex is spliced out unless something is in the way. -/
theorem spliceOut_succeeds {v : VertexId} {g h : Graph} (done : (spliceOut v).Succeeds g () h) :
    g.removeObstacle v = none ∧ h = g.splice v := by
  simp only [spliceOut, Action.bind_succeeds, Action.get_succeeds, Graph.remove] at done
  obtain ⟨_, _, ⟨rfl, rfl⟩, done⟩ := done
  cases obstacle : g.removeObstacle v with
  | some why => simp [obstacle] at done
  | none =>
    simp only [obstacle, Action.set_succeeds] at done
    exact ⟨rfl, done.symm⟩

/-! ### Putting variables in place of others -/

/-- The renaming that puts `b` in place of each of the variables in `ys`. -/
def mergeInto (ys : List VarId) (b : VarId) (y : VarId) : VarId :=
  if y ∈ ys then b else y

theorem mergeInto_target (ys : List VarId) (b : VarId) : mergeInto ys b b = b := by
  rw [mergeInto]
  split <;> rfl

theorem mergeInto_of_mem {ys : List VarId} {b y : VarId} (member : y ∈ ys) : mergeInto ys b y = b :=
  if_pos member

theorem mergeInto_cons (y : VarId) (ys : List VarId) (b : VarId) :
    mergeInto (y :: ys) b = mergeInto ys b ∘ mergeInto [y] b := by
  funext z
  by_cases first : z = y
  · simp [mergeInto, first]
  · simp [mergeInto, first]

theorem source_mergeInto {src : VarId → VarId} {ys : List VarId} {b : VarId} (same : ∀ y ∈ ys, src y = src b) (y : VarId) :
    src (mergeInto ys b y) = src y := by
  rw [mergeInto]
  split
  · rename_i member
    exact (same y member).symm
  · rfl

/-- `w` is `v` with its variables renamed by `ρ`, which keeps the classes of `src`; the edges do not matter. -/
structure Vertex.Relabeled (src ρ : VarId → VarId) (v w : Vertex) : Prop where
  op : w.op = v.op
  binOp : w.binOp = v.binOp
  callee : w.callee = v.callee
  owned : w.owned = v.owned
  result : w.result = v.result.map ρ
  args : v.op ≠ .phi → w.args = v.args.map (Option.map ρ)
  joins : v.op = .phi → ∀ {a}, v.result = some a ∨ some a ∈ v.args → w.result = some (ρ a) ∨ some (ρ a) ∈ w.args
  inputs : v.op = .phi → ∀ {a}, some a ∈ w.args → ∃ b, (v.result = some b ∨ some b ∈ v.args) ∧ src a = src b

namespace Vertex.Relabeled

variable {src ρ σ : VarId → VarId} {v w x : Vertex}

theorem trans (same : ∀ y, src (ρ y) = src y) (first : v.Relabeled src ρ w) (second : w.Relabeled src σ x) :
    v.Relabeled src (σ ∘ ρ) x where
  op := second.op.trans first.op
  binOp := second.binOp.trans first.binOp
  callee := second.callee.trans first.callee
  owned := second.owned.trans first.owned
  result := by rw [second.result, first.result, Option.map_map]
  args ordinary := by
    rw [second.args (first.op ▸ ordinary), first.args ordinary, List.map_map]
    refine List.map_congr_left fun a _ => ?_
    cases a <;> rfl
  joins isPhi _ mentioned := second.joins (first.op.trans isPhi) (first.joins isPhi mentioned)
  inputs isPhi a input := by
    obtain ⟨b, result | input, toB⟩ := second.inputs (first.op.trans isPhi) input
    · rw [first.result, Option.map_eq_some_iff] at result
      obtain ⟨c, result, rfl⟩ := result
      exact ⟨c, .inl result, toB.trans (same c)⟩
    · obtain ⟨c, mentioned, toC⟩ := first.inputs isPhi input
      exact ⟨c, mentioned, toB.trans toC⟩

/-- Edges do not matter. -/
theorem of_body {v' : Vertex} (relabeled : v.Relabeled src ρ w) (same : v.body = v'.body) : v'.Relabeled src ρ w := by
  obtain ⟨op, binOp, callee, result, args, owned⟩ := Vertex.body_eq_iff.mp same
  exact ⟨relabeled.op.trans op, relabeled.binOp.trans binOp, relabeled.callee.trans callee,
    relabeled.owned.trans owned, result ▸ relabeled.result, op ▸ args ▸ relabeled.args,
    op ▸ result ▸ args ▸ relabeled.joins, op ▸ result ▸ args ▸ relabeled.inputs⟩

/-- What is written is renamed. -/
theorem targets (relabeled : v.Relabeled src ρ w) : w.targets = v.targets.map ρ := by
  by_cases isFunction : v.op = .function
  · rw [Vertex.targets, Vertex.targets, Vertex.writes, Vertex.writes, if_pos (relabeled.op.trans isFunction),
      if_pos isFunction, relabeled.args (by simp [isFunction]), List.filterMap_map, List.map_filterMap]
    rfl
  · rw [targets_of_op isFunction, targets_of_op (relabeled.op ▸ isFunction), relabeled.result]
    cases v.result <;> rfl

end Vertex.Relabeled

namespace Vertex

theorem replaceArgs_eq (v : Vertex) (old new : Option VarId) : ∃ args, v.replaceArgs old new = { v with args } := by
  rw [replaceArgs]
  split
  · split
    · rw [addPhiInput]
      split
      · exact ⟨_, rfl⟩
      · exact ⟨_, rfl⟩
    · exact ⟨_, rfl⟩
  · exact ⟨v.args, rfl⟩

/-- Putting a variable in place of another changes operands and result only. -/
theorem replaceVariable_eq (v : Vertex) (old new : Option VarId) :
    ∃ args, v.replaceVariable old new =
      { v with args, result := if v.result = old then new else v.result } := by
  obtain ⟨args, eq⟩ := v.replaceArgs_eq old new
  rw [replaceVariable, eq]
  by_cases changes : v.result = old ∧ old ≠ new
  · rw [if_pos changes, if_pos changes.1]
    dsimp only
    split
    · exact ⟨_, rfl⟩
    · exact ⟨_, rfl⟩
  · rw [if_neg changes]
    refine ⟨args, ?_⟩
    split
    · rename_i isOld
      have : old = new := by simpa [isOld] using changes
      rw [← this, ← isOld]
    · rfl

theorem args_replaceVariable_of_op {v : Vertex} (ordinary : v.op ≠ .phi) {old new : Option VarId} :
    (v.replaceVariable old new).args = v.args.map fun a => if a = old then new else a := by
  have operands : v.replaceArgs old new = { v with args := v.args.map fun a => if a = old then new else a } := by
    rw [replaceArgs]
    split
    · rfl
    · rename_i same
      have same : old = new ∨ old ∉ v.args := by
        simpa [changesArgs, Classical.or_iff_not_imp_left] using same
      have kept : v.args.map (fun a => if a = old then new else a) = v.args := by
        conv_rhs => rw [← List.map_id v.args]
        refine List.map_congr_left fun a member => ?_
        rcases same with same | absent
        · grind
        · grind
      rw [kept]
  rw [replaceVariable, operands]
  split
  · dsimp only
    rw [if_neg ordinary]
  · rfl

theorem mem_args_replaceVariable {v : Vertex} (isPhi : v.op = .phi) {old new : Option VarId} (other : old ≠ new)
    {a : Option VarId} : a ∈ (v.replaceVariable old new).args → a ∈ v.args ∨ a = new ∧ old ∈ v.args := by
  simp only [replaceVariable, replaceArgs, changesArgs, addPhiInput, removePhiInput, takesPhiInput]
  grind [List.mem_of_mem_erase]

theorem joins_replaceVariable {v : Vertex} (isPhi : v.op = .phi) {old new : Option VarId} (other : old ≠ new)
    (isSome : new.isSome = true) {a : Option VarId} (mentioned : v.result = a ∨ a ∈ v.args) :
    (v.replaceVariable old new).result = (if a = old then new else a) ∨
      (if a = old then new else a) ∈ (v.replaceVariable old new).args := by
  simp only [replaceVariable, replaceArgs, changesArgs, addPhiInput, removePhiInput, takesPhiInput]
  grind

/-- No other variable comes in. -/
theorem references_replaceVariable {v : Vertex} {y z x : VarId}
    (references : (v.replaceVariable (some y) (some z)).references (some x) = true) :
    v.references (some x) = true ∨ x = z ∧ v.references (some y) = true := by
  by_cases same : y = z
  · subst same
    exact .inl (by simpa [replaceVariable, replaceArgs, changesArgs] using references)
  · simp only [references_iff] at references ⊢
    rcases references with result | arg
    · obtain ⟨_, eq⟩ := v.replaceVariable_eq (some y) (some z)
      rw [eq] at result
      grind
    · by_cases isPhi : v.op = .phi
      · have := mem_args_replaceVariable isPhi (by simpa using same) arg
        grind
      · rw [args_replaceVariable_of_op isPhi, List.mem_map] at arg
        grind

/-- Putting a variable in place of another of its class. -/
theorem relabeled_replaceVariable {src : VarId → VarId} {y z : VarId} (same : src y = src z) (v : Vertex) :
    v.Relabeled src (mergeInto [y] z) (v.replaceVariable (some y) (some z)) := by
  have renamed (a : Option VarId) : a.map (mergeInto [y] z) = if a = some y then some z else a := by
    cases a with
    | none => rfl
    | some b => by_cases isY : b = y <;> simp [mergeInto, isY]
  obtain ⟨args, eq⟩ := v.replaceVariable_eq (some y) (some z)
  have phi (isPhi : v.op = .phi) (different : y = z) : v.replaceVariable (some y) (some z) = v := by
    subst different
    simp [replaceVariable, replaceArgs, changesArgs]
  refine ⟨by rw [eq], by rw [eq], by rw [eq], by rw [eq], by rw [eq, renamed], ?_, ?_, ?_⟩
  · intro ordinary
    rw [args_replaceVariable_of_op ordinary]
    exact List.map_congr_left fun a _ => (renamed a).symm
  · intro isPhi a mentioned
    by_cases different : y = z
    · have fixed : mergeInto [y] z a = a := by
        subst different
        by_cases isY : a = y <;> simp [mergeInto, isY]
      rw [phi isPhi different, fixed]
      exact mentioned
    · rw [← Option.map_some, renamed]
      exact joins_replaceVariable isPhi (by simpa using different) rfl mentioned
  · intro isPhi a input
    by_cases different : y = z
    · rw [phi isPhi different] at input
      exact ⟨a, .inr input, rfl⟩
    · rcases mem_args_replaceVariable isPhi (by simpa using different) input with kept | ⟨isZ, replaced⟩
      · exact ⟨a, .inr kept, rfl⟩
      · obtain rfl : a = z := by simpa using isZ
        exact ⟨y, .inr replaced, same.symm⟩

end Vertex

namespace Graph

/-- `h` is `g` with the variables of its vertices renamed by `ρ`, which keeps the classes of `src`. -/
structure Relabeled (src ρ : VarId → VarId) (g h : Graph) : Prop where
  name : h.name = g.name
  sig : h.sig = g.sig
  entry : h.entry = g.entry
  exit : h.exit = g.exit
  size : h.store.size = g.store.size
  listed : h.listed = g.listed
  epoch : h.epoch = g.epoch
  reach : h.reach = g.reach
  vars : h.vars = g.vars
  succs : ∀ v, h.succs v = g.succs v
  preds : ∀ v, h.preds v = g.preds v
  contains : ∀ v, h.contains v = g.contains v
  vertex : ∀ {v}, v ∈ g.listed → (g.vertex v).Relabeled src ρ (h.vertex v)

namespace Relabeled

variable {src ρ σ : VarId → VarId} {g h k : Graph}

theorem refl : Relabeled src id g g :=
  ⟨rfl, rfl, rfl, rfl, rfl, rfl, rfl, rfl, rfl, fun _ => rfl, fun _ => rfl, fun _ => rfl, fun _ => ⟨rfl, rfl, rfl, rfl, by simp,
    fun _ => by simp, fun _ _ mentioned => mentioned, fun _ a input => ⟨a, .inr input, rfl⟩⟩⟩

theorem trans (same : ∀ y, src (ρ y) = src y) (first : Relabeled src ρ g h) (second : Relabeled src σ h k) :
    Relabeled src (σ ∘ ρ) g k :=
  ⟨second.name.trans first.name, second.sig.trans first.sig, second.entry.trans first.entry,
    second.exit.trans first.exit, second.size.trans first.size, second.listed.trans first.listed,
    second.epoch.trans first.epoch, second.reach.trans first.reach, second.vars.trans first.vars,
    fun v => (second.succs v).trans (first.succs v), fun v => (second.preds v).trans (first.preds v),
    fun v => (second.contains v).trans (first.contains v),
    fun member => (first.vertex member).trans same (second.vertex (first.listed ▸ member))⟩

theorem wired (relabeled : Relabeled src ρ g h) (wired : g.Wired) : h.Wired :=
  wired.congr relabeled.entry relabeled.listed (Nat.le_of_eq relabeled.size.symm) (fun v _ => relabeled.succs v)
    (fun v _ => relabeled.preds v)

end Relabeled

variable {src : VarId → VarId} {g : Graph} {y z : VarId}

/-- A vertex that is named more than once is renamed more than once, which makes no difference. -/
private theorem relabeled_foldl (same : src y = src z) {vs : List VertexId} (inside : ∀ v ∈ vs, v < g.store.size)
    (w : VertexId) :
    (w ∉ vs → (vs.foldl (fun g v => g.modifyVertex v (·.replaceVariable (some y) (some z))) g).vertex w = g.vertex w) ∧
    (w ∈ vs → (g.vertex w).Relabeled src (mergeInto [y] z)
      ((vs.foldl (fun g v => g.modifyVertex v (·.replaceVariable (some y) (some z))) g).vertex w)) := by
  have twice : mergeInto [y] z ∘ mergeInto [y] z = mergeInto [y] z := by
    funext b
    by_cases isY : b = y
    · simp [mergeInto, isY]
    · simp [mergeInto, isY]
  have classes : ∀ b, src (mergeInto [y] z b) = src b := source_mergeInto (by simpa using same)
  induction vs generalizing g with
  | nil => simp
  | cons v vs ih =>
    obtain ⟨others, named⟩ := ih (g := g.modifyVertex v (·.replaceVariable (some y) (some z)))
      fun u member => by simpa using inside u (List.mem_cons_of_mem _ member)
    by_cases first : w = v
    · subst first
      have once : (g.vertex w).Relabeled src (mergeInto [y] z)
          ((g.modifyVertex w (·.replaceVariable (some y) (some z))).vertex w) := by
        rw [vertex_modifyVertex_self (inside w List.mem_cons_self)]
        exact Vertex.relabeled_replaceVariable same _
      refine ⟨fun absent => absurd List.mem_cons_self absent, fun _ => ?_⟩
      rw [List.foldl_cons]
      by_cases again : w ∈ vs
      · exact twice ▸ once.trans classes (named again)
      · rw [others again]
        exact once
    · rw [vertex_modifyVertex_of_ne first] at others named
      exact ⟨fun absent => others fun later => absent (List.mem_cons_of_mem _ later),
        fun member => named ((List.mem_cons.mp member).resolve_left first)⟩

/-- Putting a variable in place of another of its class. -/
theorem relabeled_replaceVariable (same : src y = src z) (inside : ∀ v ∈ g.listed, v < g.store.size) :
    Relabeled src (mergeInto [y] z) g (g.replaceVariable (some y) (some z)) := by
  have kept {α : Type} (field : Graph → α) (keeps : ∀ g v f, field (Graph.modifyVertex g v f) = field g) :
      field (g.replaceVariable (some y) (some z)) = field g :=
    kept_foldl_modifyVertex field (fun g v => keeps g v _) g.listed
  have edges {α : Type} (field : Vertex → α) (keeps : ∀ w, field (w.replaceVariable (some y) (some z)) = field w)
      (v : VertexId) : field ((g.replaceVariable (some y) (some z)).vertex v) = field (g.vertex v) :=
    kept_foldl_modifyVertex (fun g => field (g.vertex v)) (fun _ _ => congr_modifyVertex field keeps v) g.listed
  exact ⟨kept (·.name) fun _ _ _ => rfl, kept (·.sig) fun _ _ _ => rfl, kept (·.entry) fun _ _ _ => rfl,
    kept (·.exit) fun _ _ _ => rfl, kept (·.store.size) fun _ _ _ => size_modifyVertex, kept (·.listed) fun _ _ _ => rfl,
    kept (·.epoch) fun _ _ _ => rfl, kept (·.reach) fun _ _ _ => rfl, kept (·.vars) fun _ _ _ => rfl,
    edges Vertex.succs fun w => by obtain ⟨_, eq⟩ := w.replaceVariable_eq (some y) (some z); rw [eq],
    edges Vertex.preds fun w => by obtain ⟨_, eq⟩ := w.replaceVariable_eq (some y) (some z); rw [eq],
    edges Vertex.owned fun w => by obtain ⟨_, eq⟩ := w.replaceVariable_eq (some y) (some z); rw [eq],
    fun {v} member => (relabeled_foldl same inside v).2 member⟩

theorem references_replaceVariable {w : VertexId} {x : VarId}
    (references : ((g.replaceVariable (some y) (some z)).vertex w).references (some x) = true) :
    (g.vertex w).references (some x) = true ∨ x = z ∧ (g.vertex w).references (some y) = true := by
  have each (vs : List VertexId) (k : Graph)
      (references : ((vs.foldl (fun g v => g.modifyVertex v (·.replaceVariable (some y) (some z))) k).vertex w).references
        (some x) = true) : (k.vertex w).references (some x) = true ∨ x = z ∧ (k.vertex w).references (some y) = true := by
    induction vs generalizing k with
    | nil => exact .inl references
    | cons v vs ih =>
      have once {b : VarId} (references : ((k.modifyVertex v (·.replaceVariable (some y) (some z))).vertex w).references
          (some b) = true) : (k.vertex w).references (some b) = true ∨ b = z ∧ (k.vertex w).references (some y) = true := by
        rw [vertex_modifyVertex] at references
        split at references
        · exact Vertex.references_replaceVariable references
        · exact .inl references
      rcases ih _ references with named | ⟨isZ, named⟩
      · exact once named
      · rcases once named with named | ⟨_, named⟩
        · exact .inr ⟨isZ, named⟩
        · exact .inr ⟨isZ, named⟩
  exact each g.listed g references

/-- Putting one variable in place of several of its class, in turn. -/
theorem relabeled_mergeInto {ys : List VarId} (same : ∀ y ∈ ys, src y = src z)
    (inside : ∀ v ∈ g.listed, v < g.store.size) :
    Relabeled src (mergeInto ys z) g (ys.foldl (fun g y => g.replaceVariable (some y) (some z)) g) := by
  induction ys generalizing g with
  | nil =>
    have fixed : mergeInto [] z = id := funext fun b => by simp [mergeInto]
    exact fixed ▸ .refl
  | cons y ys ih =>
    have first : Relabeled src (mergeInto [y] z) g (g.replaceVariable (some y) (some z)) :=
      relabeled_replaceVariable (same y List.mem_cons_self) inside
    rw [List.foldl_cons, mergeInto_cons]
    refine first.trans (source_mergeInto (by simpa using same y List.mem_cons_self)) (ih ?_ ?_)
    · exact fun b member => same b (List.mem_cons_of_mem _ member)
    · rw [first.listed, first.size]
      exact inside

end Graph

end MiddleEnd
