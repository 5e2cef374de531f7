import MiddleEnd.Graph.Builder
import MiddleEnd.Proofs.Insertion
import MiddleEnd.Proofs.Optimizing.Invariant

/-!
Graphs under construction. A vertex is put down without edges, and gets all its successors at once later. `Graph.Laid`
says that everything is in order but for the vertices that still wait for their successors; putting down a vertex and
closing one keep it. When none waits any more the graph is complete (`Graph.Complete`): it passes the integrity
check, has no phis, and the way from a vertex without effects leads on to one that has some, because until the next
label the vertices stand in the order they were put down in.
-/
namespace MiddleEnd

namespace Graph

variable {g h : Graph} {v w : VertexId} {opened opened' : VertexId → Prop}

/-- What a vertex has to be like by itself. -/
structure Shaped (g : Graph) (w : Vertex) : Prop where
  valid : w.op.isValid = true
  ordinary : w.op ≠ .phi
  owned : w.owned = true
  result : w.result.isSome = w.op.info.hasResult
  writesVariable : ∀ x, w.result = some x → (g.var x).isConst = false
  argCount : ∀ n, w.op.info.numArgs = some n → w.args.length = n
  returnCount : w.op = .ret → w.args.length ≤ 1
  operands : none ∉ w.args
  operator : w.op = .binary → w.binOp.isValid = true
  inScope : ∀ x, w.references (some x) = true → x < g.vars.size

/-- The edges do not matter, nor do further variables. -/
theorem Shaped.mono {w w' : Vertex} (shaped : g.Shaped w) (body : w'.body = w.body) (size : g.vars.size ≤ h.vars.size)
    (constant : ∀ x < g.vars.size, (h.var x).isConst = (g.var x).isConst) : h.Shaped w' := by
  obtain ⟨op, binOp, callee, result, args, owned⟩ := Vertex.body_eq_iff.mp body
  have references (a : Option VarId) : w'.references a = w.references a := by
    rw [Vertex.references, Vertex.references, result, args]
  refine ⟨?_, ?_, ?_, ?_, ?_, ?_, ?_, ?_, ?_, ?_⟩
  · rw [op]; exact shaped.valid
  · rw [op]; exact shaped.ordinary
  · rw [owned]; exact shaped.owned
  · rw [op, result]; exact shaped.result
  · intro x isX
    rw [result] at isX
    rw [constant x (shaped.inScope x (Vertex.references_iff.mpr (.inl isX)))]
    exact shaped.writesVariable x isX
  · rw [op, args]; exact shaped.argCount
  · rw [op, args]; exact shaped.returnCount
  · rw [args]; exact shaped.operands
  · rw [op, binOp]; exact shaped.operator
  · intro x mentions
    exact Nat.lt_of_lt_of_le (shaped.inScope x (references _ ▸ mentions)) size

/-- Everything is in order but for the vertices in `opened`, which have no successors yet. -/
structure Laid (g : Graph) (opened : VertexId → Prop) : Prop where
  wired : g.Wired
  listed : g.listed = List.range g.store.size
  fresh : g.reach = none
  entryOp : g.op g.entry = .function
  exitOp : g.op g.exit = .finish
  entryPreds : g.preds g.entry = []
  onlyEntry : ∀ {v}, g.op v = .function → v = g.entry
  onlyExit : ∀ {v}, g.op v = .finish → v = g.exit
  shaped : ∀ {v}, v < g.store.size → g.Shaped (g.vertex v)
  waits : ∀ {v}, opened v → v < g.store.size ∧ g.succs v = []
  closed : ∀ {v}, v < g.store.size → ¬ opened v →
    (g.succs v).length = (g.op v).numSuccs ∧ (g.op v = .ret → (g.succs v).head? = some g.exit)
  ahead : ∀ {v t}, t ∈ g.succs v → (g.op v).info.idempotent = true → g.op t = .label ∨ v < t
  params : g.params.Nodup

/-- What is outside of the store has no operation. -/
theorem lt_of_op (valid : (g.op v).isValid = true) : v < g.store.size := by
  rw [← Nat.not_le]
  intro outside
  rw [op, vertex_of_ge outside] at valid
  exact absurd valid (by decide)

/-- A parameter changes no more of a vertex than its operands. -/
theorem congr_addParam {α : Type} {name : String} {type : Option Ty} (field : Vertex → α)
    (kept : ∀ w args, field { w with args } = field w) (v : VertexId) :
    field ((g.addParam name type).vertex v) = field (g.vertex v) := by
  rw [addParam, congr_modifyVertex field fun w => kept w _]
  rfl

namespace Laid

theorem congr (laid : g.Laid opened) (same : ∀ v, opened' v ↔ opened v) : g.Laid opened' := by
  rwa [funext fun v => propext (same v)]

theorem mem_listed (laid : g.Laid opened) : v ∈ g.listed ↔ v < g.store.size := by
  rw [laid.listed, List.mem_range]

theorem lt_exit (laid : g.Laid opened) : g.exit < g.store.size :=
  lt_of_op (by rw [laid.exitOp]; rfl)

/-- Variables may be added and get types. -/
theorem withVars (laid : g.Laid opened) {vars : Array Variable} (size : g.vars.size ≤ vars.size)
    (constant : ∀ x < g.vars.size, ({ g with vars }.var x).isConst = (g.var x).isConst) :
    { g with vars }.Laid opened where
  wired := laid.wired.congr rfl rfl (Nat.le_refl _) (fun _ _ => rfl) (fun _ _ => rfl)
  listed := laid.listed
  fresh := laid.fresh
  entryOp := laid.entryOp
  exitOp := laid.exitOp
  entryPreds := laid.entryPreds
  onlyEntry := laid.onlyEntry
  onlyExit := laid.onlyExit
  shaped inside := (laid.shaped inside).mono rfl size constant
  waits := laid.waits
  closed := laid.closed
  ahead := laid.ahead
  params := laid.params

/-- The entry may get a parameter. -/
theorem addParam (laid : g.Laid opened) {name : String} {type : Option Ty} : (g.addParam name type).Laid opened := by
  have grown : (g.addVar name type).Laid opened := by
    refine laid.withVars (by simp) fun x _ => ?_
    have value : ((g.addVar name type).var x).value = (g.var x).value := value_addVar
    exact congrArg Option.isSome value
  have op (v : VertexId) : (g.addParam name type).op v = g.op v := congr_addParam Vertex.op (fun _ _ => rfl) v
  have succs (v : VertexId) : (g.addParam name type).succs v = g.succs v := congr_addParam Vertex.succs (fun _ _ => rfl) v
  have preds (v : VertexId) : (g.addParam name type).preds v = g.preds v := congr_addParam Vertex.preds (fun _ _ => rfl) v
  have size : (g.addParam name type).store.size = g.store.size := size_modifyVertex
  refine ⟨?_, ?_, laid.fresh, ?_, ?_, ?_, ?_, ?_, ?_, ?_, ?_, ?_, ?_⟩
  · exact grown.wired.modifyVertex (fun _ => rfl) fun _ => rfl
  · rw [size]; exact laid.listed
  · exact (op _).trans laid.entryOp
  · exact (op _).trans laid.exitOp
  · exact (preds _).trans laid.entryPreds
  · exact fun isFunction => laid.onlyEntry ((op _).symm.trans isFunction)
  · exact fun isFinish => laid.onlyExit ((op _).symm.trans isFinish)
  · intro v below
    rw [size] at below
    by_cases isEntry : v = g.entry
    · subst isEntry
      have isFunction : (g.vertex g.entry).op = .function := laid.entryOp
      have before := grown.shaped below
      rw [vertex_addVar] at before
      have inside : g.entry < (g.addVar name type).store.size := below
      rw [Graph.addParam, vertex_modifyVertex_self inside, vertex_addVar]
      refine ⟨before.valid, before.ordinary, before.owned, before.result, before.writesVariable, ?_, ?_, ?_,
        before.operator, ?_⟩
      · simp [isFunction, Op.info]
      · simp [isFunction]
      · simpa using before.operands
      · intro x mentions
        rcases Vertex.references_iff.mp mentions with isResult | isArg
        · exact before.inScope x (Vertex.references_iff.mpr (.inl isResult))
        · rcases List.mem_append.mp isArg with old | new
          · exact before.inScope x (Vertex.references_iff.mpr (.inr old))
          · obtain rfl : x = g.nextVar := by simpa using new
            simp [nextVar]
    · rw [Graph.addParam, vertex_modifyVertex_of_ne isEntry]
      exact (grown.shaped below).mono rfl (Nat.le_refl _) fun _ _ => rfl
  · intro v isOpen
    rw [size, succs]
    exact laid.waits isOpen
  · intro v below notOpen
    rw [size] at below
    rw [succs, op]
    exact laid.closed below notOpen
  · intro v t edge idempotent
    rw [succs] at edge
    rw [op] at idempotent ⊢
    exact laid.ahead edge idempotent
  · have inside : g.entry < g.store.size := laid.wired.listed_lt _ laid.wired.entry_listed
    have params : (g.addParam name type).params = g.params ++ [some g.nextVar] :=
      congrArg Vertex.args (vertex_modifyVertex_self (g := g.addVar name type) inside)
    rw [params]
    refine List.nodup_append.mpr ⟨laid.params, by simp, ?_⟩
    rintro a member b isNew rfl
    obtain rfl := List.mem_singleton.mp isNew
    exact Nat.lt_irrefl _ ((laid.shaped inside).inScope _ (Vertex.references_iff.mpr (.inr member)))

end Laid

/-- At the start there are the entry, which waits, and the exit. -/
theorem laid_empty {name : String} {sig : Signature} : (empty name sig).Laid (· = 0) := by
  have vertex (v : VertexId) : (empty name sig).vertex v =
      if v = 0 then { op := .function, owned := true } else if v = 1 then { op := .finish, owned := true } else default := by
    rcases v with _ | _ | v <;> rfl
  have succs (v : VertexId) : (empty name sig).succs v = [] := by
    rw [Graph.succs, vertex]
    split_ifs <;> rfl
  have preds (v : VertexId) : (empty name sig).preds v = [] := by
    rw [Graph.preds, vertex]
    split_ifs <;> rfl
  have listed : (empty name sig).listed = [0, 1] := rfl
  have size : (empty name sig).store.size = 2 := rfl
  have two {v : VertexId} (inside : v < 2) : v = 0 ∨ v = 1 :=
    Nat.le_one_iff_eq_zero_or_eq_one.mp (Nat.le_of_lt_succ inside)
  have only {v : VertexId} {o : Op} (valid : o.isValid = true) (isO : (empty name sig).op v = o) :
      v = 0 ∧ o = .function ∨ v = 1 ∧ o = .finish := by
    have inside : v < 2 := lt_of_op (g := empty name sig) (by rw [isO, valid])
    rcases two inside with rfl | rfl
    · exact .inl ⟨rfl, isO.symm⟩
    · exact .inr ⟨rfl, isO.symm⟩
  refine ⟨⟨?_, ?_, ?_, ?_, ?_⟩, rfl, rfl, rfl, rfl, preds _, ?_, ?_, ?_, ?_, ?_, ?_, .nil⟩
  · rw [listed]; exact List.mem_cons_self
  · rw [listed, size]; simp
  · intro v _ s edge; simp [succs] at edge
  · intro v _ p edge; simp [preds] at edge
  · intro u _ v _; rw [succs, preds]; rfl
  · intro v isFunction
    rcases only rfl isFunction with ⟨rfl, _⟩ | ⟨_, other⟩
    · rfl
    · simp at other
  · intro v isFinish
    rcases only rfl isFinish with ⟨_, other⟩ | ⟨rfl, _⟩
    · simp at other
    · rfl
  · intro v inside
    rcases two inside with rfl | rfl
    all_goals exact ⟨rfl, by simp [vertex], rfl, rfl, by simp [vertex], by simp [vertex, Op.info], by simp [vertex],
      by simp [vertex], by simp [vertex], by simp [vertex, Vertex.references]⟩
  · rintro v rfl
    exact ⟨by rw [size]; decide, succs 0⟩
  · intro v inside notEntry
    obtain rfl : v = 1 := (two inside).resolve_left notEntry
    exact ⟨rfl, fun isRet => by simp [op, vertex] at isRet⟩
  · intro v t edge; simp [succs] at edge

/-! ### Putting down a vertex -/

/-- `h` is `g` with the vertex `w` at the end. -/
structure Gains (g h : Graph) (w : Vertex) : Prop where
  wired : g.Wired → h.Wired
  size : h.store.size = g.store.size + 1
  listed : h.listed = g.listed ++ [g.store.size]
  entry : h.entry = g.entry
  exit : h.exit = g.exit
  vars : h.vars = g.vars
  reach : h.reach = g.reach
  new : h.vertex g.store.size = w
  old : ∀ {v}, v ≠ g.store.size → h.vertex v = g.vertex v

theorem gains_addVertex {op : Op} {result : Option VarId} {args : List (Option VarId)} :
    g.Gains (g.addVertex op result args) { op, result, args, owned := true } :=
  ⟨.addVertex, size_addVertex, rfl, rfl, rfl, rfl, rfl, vertex_addVertex_new, vertex_addVertex_of_ne⟩

/-- What was put down last can be completed. -/
theorem Gains.modify {w : Vertex} {f : Vertex → Vertex} (gains : g.Gains h w) (succs : ∀ w, (f w).succs = w.succs)
    (preds : ∀ w, (f w).preds = w.preds) : g.Gains (h.modifyVertex g.store.size f) (f w) where
  wired wired := (gains.wired wired).modifyVertex succs preds
  size := by rw [size_modifyVertex, gains.size]
  listed := gains.listed
  entry := gains.entry
  exit := gains.exit
  vars := gains.vars
  reach := gains.reach
  new := by rw [vertex_modifyVertex_self (by rw [gains.size]; exact Nat.lt_succ_self _), gains.new]
  old other := by rw [vertex_modifyVertex_of_ne other, gains.old other]

namespace Gains

variable {w : Vertex} (gains : g.Gains h w)
include gains

theorem op_old (inside : v < g.store.size) : h.op v = g.op v := by
  rw [Graph.op, gains.old (Nat.ne_of_lt inside), Graph.op]

theorem succs_old (inside : v < g.store.size) : h.succs v = g.succs v := by
  rw [Graph.succs, gains.old (Nat.ne_of_lt inside), Graph.succs]

theorem preds_old (inside : v < g.store.size) : h.preds v = g.preds v := by
  rw [Graph.preds, gains.old (Nat.ne_of_lt inside), Graph.preds]

theorem cases_lt (inside : v < h.store.size) : v = g.store.size ∨ v < g.store.size := by
  rw [gains.size] at inside
  exact (Nat.lt_succ_iff_lt_or_eq.mp inside).symm

theorem laid (laid : g.Laid opened) (shaped : g.Shaped w) (succs : w.succs = [])
    (inner : w.op ≠ .function ∧ w.op ≠ .finish) : h.Laid fun v => v = g.store.size ∨ opened v := by
  have newOp : h.op g.store.size = w.op := by rw [Graph.op, gains.new]
  have newSuccs : h.succs g.store.size = [] := by rw [Graph.succs, gains.new, succs]
  have constant (x : VarId) : h.var x = g.var x := by rw [var, var, gains.vars]
  have entry := laid.wired.listed_lt _ laid.wired.entry_listed
  have only {v : VertexId} {o : Op} (other : w.op ≠ o) (valid : o.isValid = true) (isO : h.op v = o) : g.op v = o := by
    rcases gains.cases_lt (lt_of_op (isO ▸ valid)) with rfl | inside
    · exact absurd (newOp.symm.trans isO) other
    · exact (gains.op_old inside).symm.trans isO
  refine ⟨gains.wired laid.wired, ?_, gains.reach.trans laid.fresh, ?_, ?_, ?_, ?_, ?_, ?_, ?_, ?_, ?_, ?_⟩
  · rw [gains.listed, gains.size, laid.listed, List.range_succ]
  · rw [gains.entry, gains.op_old entry, laid.entryOp]
  · rw [gains.exit, gains.op_old laid.lt_exit, laid.exitOp]
  · rw [gains.entry, gains.preds_old entry, laid.entryPreds]
  · intro v isFunction
    rw [gains.entry]
    exact laid.onlyEntry (only inner.1 rfl isFunction)
  · intro v isFinish
    rw [gains.exit]
    exact laid.onlyExit (only inner.2 rfl isFinish)
  · intro v inside
    refine Shaped.mono (g := g) ?_ rfl (Nat.le_of_eq (by rw [gains.vars])) fun x _ => by rw [constant]
    rcases gains.cases_lt inside with rfl | inside
    · rw [gains.new]; exact shaped
    · rw [gains.old (Nat.ne_of_lt inside)]; exact laid.shaped inside
  · rintro v (rfl | isOpen)
    · exact ⟨by rw [gains.size]; exact Nat.lt_succ_self _, newSuccs⟩
    · obtain ⟨inside, none⟩ := laid.waits isOpen
      exact ⟨by rw [gains.size]; exact Nat.lt_succ_of_lt inside, by rw [gains.succs_old inside, none]⟩
  · intro v inside notOpen
    rcases gains.cases_lt inside with rfl | inside
    · exact absurd (.inl rfl) notOpen
    · rw [gains.succs_old inside, gains.op_old inside, gains.exit]
      exact laid.closed inside fun isOpen => notOpen (.inr isOpen)
  · intro v t edge idempotent
    rcases gains.cases_lt (lt_of_mem_succs edge) with rfl | inside
    · simp [newSuccs] at edge
    · rw [gains.succs_old inside] at edge
      rw [gains.op_old inside] at idempotent
      have target := laid.wired.listed_lt t (laid.wired.succs_listed v (laid.mem_listed.mpr inside) t edge)
      rw [gains.op_old target]
      exact laid.ahead edge idempotent
  · rw [Graph.params, gains.entry, gains.old (Nat.ne_of_lt entry)]
    exact laid.params

end Gains

/-! ### Closing a vertex -/

/-- Edges from one vertex to others, in order. -/
def addEdges (g : Graph) (v : VertexId) (targets : List VertexId) : Graph :=
  targets.foldl (fun g t => g.addEdge v t) g

theorem rewired_addEdges (targets : List VertexId) : g.Rewired (g.addEdges v targets) :=
  .foldl (fun _ _ => rewired_addEdge) targets

theorem succs_addEdges (inside : v < g.store.size) (targets : List VertexId) : (g.addEdges v targets).succs w =
    if w = v then g.succs v ++ targets else g.succs w := by
  induction targets generalizing g with
  | nil => by_cases same : w = v <;> simp [addEdges, same]
  | cons t targets ih =>
    have next : (g.addEdges v (t :: targets)) = (g.addEdge v t).addEdges v targets := rfl
    rw [next, ih (by rw [rewired_addEdge.size]; exact inside), succs_addEdge inside, succs_addEdge inside]
    by_cases same : w = v <;> simp [same]

theorem preds_addEdges_of_notMem (targets : List VertexId) (away : w ∉ targets) :
    (g.addEdges v targets).preds w = g.preds w := by
  induction targets generalizing g with
  | nil => rfl
  | cons t targets ih =>
    obtain ⟨other, away⟩ : w ≠ t ∧ w ∉ targets := by simpa using away
    have next : (g.addEdges v (t :: targets)) = (g.addEdge v t).addEdges v targets := rfl
    rw [next, ih away, addEdge, preds, vertex_touch, vertex_modifyVertex_of_ne other, preds,
      congr_modifyVertex Vertex.preds]
    exact fun _ => rfl

theorem Wired.addEdges (wired : g.Wired) (source : v ∈ g.listed) {targets : List VertexId}
    (listed : ∀ t ∈ targets, t ∈ g.listed) : (g.addEdges v targets).Wired := by
  induction targets generalizing g with
  | nil => exact wired
  | cons t targets ih =>
    have kept : (g.addEdge v t).listed = g.listed := rewired_addEdge.listed
    refine ih (wired.addEdge source (listed t List.mem_cons_self)) (kept ▸ source) fun s member => ?_
    rw [kept]
    exact listed s (List.mem_cons_of_mem _ member)

theorem Laid.addEdges (laid : g.Laid opened) (isOpen : opened v) {targets : List VertexId}
    (count : targets.length = (g.op v).numSuccs) (returns : g.op v = .ret → targets.head? = some g.exit)
    (inside : ∀ t ∈ targets, t < g.store.size ∧ t ≠ g.entry)
    (ahead : ∀ t ∈ targets, (g.op v).info.idempotent = true → g.op t = .label ∨ v < t) :
    (g.addEdges v targets).Laid fun u => u ≠ v ∧ opened u := by
  obtain ⟨source, none⟩ := laid.waits isOpen
  have rewired : g.Rewired (g.addEdges v targets) := rewired_addEdges targets
  have op (u : VertexId) : (g.addEdges v targets).op u = g.op u := (Vertex.body_eq_iff.mp (rewired.body u)).op
  have succs (u : VertexId) : (g.addEdges v targets).succs u = if u = v then targets else g.succs u := by
    rw [succs_addEdges source, none, List.nil_append]
  refine ⟨?_, ?_, rewired.reach.trans laid.fresh, ?_, ?_, ?_, ?_, ?_, ?_, ?_, ?_, ?_, ?_⟩
  · exact laid.wired.addEdges (laid.mem_listed.mpr source) fun t member => laid.mem_listed.mpr (inside t member).1
  · rw [rewired.listed, rewired.size, laid.listed]
  · rw [rewired.entry, op, laid.entryOp]
  · rw [rewired.exit, op, laid.exitOp]
  · rw [rewired.entry, preds_addEdges_of_notMem, laid.entryPreds]
    exact fun member => (inside _ member).2 rfl
  · intro u isFunction
    rw [op] at isFunction
    rw [rewired.entry]
    exact laid.onlyEntry isFunction
  · intro u isFinish
    rw [op] at isFinish
    rw [rewired.exit]
    exact laid.onlyExit isFinish
  · intro u below
    rw [rewired.size] at below
    refine (laid.shaped below).mono (rewired.body u) (Nat.le_of_eq (by rw [rewired.vars])) fun x _ => ?_
    rw [var, var, rewired.vars]
  · rintro u ⟨other, waiting⟩
    rw [rewired.size, succs, if_neg other]
    exact laid.waits waiting
  · intro u below notOpen
    rw [rewired.size] at below
    rw [succs, op, rewired.exit]
    split
    · rename_i isV
      subst isV
      exact ⟨count, returns⟩
    · rename_i other
      exact laid.closed below fun waiting => notOpen ⟨other, waiting⟩
  · intro u t edge idempotent
    rw [succs] at edge
    rw [op] at idempotent ⊢
    split at edge
    · rename_i isV
      subst isV
      exact ahead t edge idempotent
    · exact laid.ahead edge idempotent
  · rw [Graph.params, rewired.entry, (Vertex.body_eq_iff.mp (rewired.body _)).args]
    exact laid.params

/-! ### Complete graphs -/

/-- A graph as the passes take it: nothing waits, nothing is a phi, and nothing was worked out about it yet. -/
structure Complete (g : Graph) : Prop where
  sound : g.Sound
  inScope : g.Scoped
  nodup : g.listed.Nodup
  params : g.params.Nodup
  noPhi : ∀ v ∈ g.listed, g.op v ≠ .phi
  owned : ∀ {v}, g.contains v = true → v ∈ g.listed
  fresh : g.reach = none
  onward : ∀ {v}, Reachable g.succs g.entry v → ∃ s, g.Leads g.isEffective v s

/-- From a closed vertex without effects the way leads on, to a label or to what was put down later. -/
theorem exists_leads (ahead : ∀ {v t}, t ∈ g.succs v → (g.op v).info.idempotent = true → g.op t = .label ∨ v < t)
    (closed : ∀ {v}, v ∈ g.listed → (g.succs v).length = (g.op v).numSuccs) (wired : g.Wired) (member : v ∈ g.listed) :
    ∃ s, g.Leads g.isEffective v s := by
  -- the number of a vertex grows along the way, and it is below the size of the store
  induction distance : g.store.size - v using Nat.strong_induction_on generalizing v with
  | _ n ih =>
    cases effective : g.isEffective v with
    | true => exact ⟨v, .here effective⟩
    | false =>
      have idempotent : (g.op v).info.idempotent = true := by simpa [isEffective] using effective
      have one : (g.op v).numSuccs = 1 := by
        cases isOp : g.op v <;> simp [isOp, Op.info] at idempotent <;> rfl
      obtain ⟨t, only⟩ := List.length_eq_one_iff.mp ((closed member).trans one)
      have edge : t ∈ g.succs v := by simp [only]
      have target := wired.succs_listed v member t edge
      rcases ahead edge idempotent with isLabel | later
      · exact ⟨t, .skip effective only (.here (by simp [isEffective, isLabel, Op.info]))⟩
      · have below := wired.listed_lt t target
        have closer : g.store.size - t < n := distance ▸ Nat.sub_lt_sub_left (Nat.lt_trans later below) later
        obtain ⟨s, leads⟩ := ih (g.store.size - t) closer target rfl
        exact ⟨s, .skip effective only leads⟩

end Graph

end MiddleEnd
