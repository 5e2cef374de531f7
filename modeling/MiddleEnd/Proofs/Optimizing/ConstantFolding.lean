import MiddleEnd.Proofs.Optimizing.Narrowing
import MiddleEnd.Proofs.Replacing

/-!
Operations on constants. The operation is replaced by an assignment, which is a new vertex: runs of the two graphs go
in lockstep, with the one vertex in the place of the other.
-/
namespace MiddleEnd

namespace Graph

variable {V : Type} {m : Meaning V} {arguments : Nat → V} {src : VarId → VarId} {g h k : Graph} {v n old s w : VertexId}

/-! ### A vertex in the place of another -/

/-- `h` is `g` with the unconnected vertex `n` in the place of `old`, whose successor is `s`. -/
structure Replaced (g h : Graph) (old n s : VertexId) : Prop extends g.Without h old where
  wired : h.Wired
  new : h.succs n = [s]
  succs : ∀ {w}, w ∈ g.listed → w ≠ old → w ≠ n → h.succs w = turned old n (g.succs w)

theorem Wired.replace (wired : g.Wired) (old_listed : old ∈ g.listed) (new_listed : n ∈ g.listed) (other : old ≠ n)
    (notEntry : old ≠ g.entry) (notExit : old ≠ g.exit) (only : g.succs old = [s]) (notOld : s ≠ old)
    (noSuccs : g.succs n = []) : g.Replaced (g.replace old n) old n s := by
  have superseded := wired.supersede old_listed new_listed other noSuccs
  refine { superseded with
    entry := superseded.entry.trans (if_neg (Ne.symm notEntry))
    exit := superseded.exit.trans (if_neg (Ne.symm notExit))
    new := ?_
    succs := fun {w} listed notOld notNew => ?_ }
  · rw [superseded.succs new_listed (Ne.symm other), if_pos rfl, only, turned]
    simp [notOld]
  · rw [superseded.succs listed notOld, if_neg notNew]

/-! ### An assignment in the place of an operation -/

/-- `h` is `g` with an assignment of a constant in the place of the vertex `v`, which computes that constant. -/
structure ConstantFolded (g h : Graph) (v s : VertexId) (value : Literal) : Prop where
  idempotent : (g.op v).info.idempotent = true
  ordinary : g.op v ≠ .phi
  computes : ∀ {V : Type} (m : Meaning V) {t : Machine V}, t.vertex = v → g.computed m t = m.literal value
  only : g.succs v = [s]
  other : v ≠ s
  entry : h.entry = g.entry
  exit : h.exit = g.exit
  listed : h.listed = (g.listed ++ [g.store.size]).erase v
  vars : h.vars.size = g.vars.size + 1
  oldValue : ∀ {x}, x ≠ g.vars.size → (h.var x).value = (g.var x).value
  newValue : (h.var g.vars.size).value = some value
  reach : h.reach = g.reach
  epoch : g.epoch < h.epoch
  wired : h.Wired
  gone : h.contains v = false
  body : ∀ {u}, u ≠ v → u ≠ g.store.size → (h.vertex u).body = (g.vertex u).body
  succs : ∀ {u}, u ∈ g.listed → u ≠ v → h.succs u = turned v g.store.size (g.succs u)
  newBody : (h.vertex g.store.size).body =
    ({ op := .assign, result := (g.vertex v).result, args := [some g.vars.size], owned := true } : Vertex).body
  newSuccs : h.succs g.store.size = [s]

theorem value_addConst {value : Literal} {x : VarId} : ((g.addConst value).var x).value =
    if x = g.vars.size then some value else (g.var x).value := by
  simp only [var, addConst, Array.getD_eq_getD_getElem?, Array.getElem?_push]
  by_cases new : x = g.vars.size
  · simp [new]
  · simp [new]

theorem constantFolded_replace {value : Literal} (routed : g.Routed) (reached : Reachable g.succs g.entry v)
    (idempotent : (g.op v).info.idempotent = true) (ordinary : g.op v ≠ .phi)
    (computes : ∀ {V : Type} (m : Meaning V) {t : Machine V}, t.vertex = v → g.computed m t = m.literal value)
    (retyped : (g.addConst value).Retyped k) :
    ∃ s, g.ConstantFolded ((k.addVertex .assign (g.vertex v).result [some g.vars.size]).replace v g.store.size) v s value := by
  obtain ⟨s, only, other⟩ := routed.exists_next reached idempotent
  have member := routed.listed reached
  have inside := routed.wired.listed_lt v member
  have size : k.store.size = g.store.size := by rw [retyped.store]; rfl
  have vertex (u : VertexId) : k.vertex u = g.vertex u := retyped.vertex u
  have wired : k.Wired := retyped.wired (routed.wired.congr rfl rfl (Nat.le_refl _) (fun _ _ => rfl) fun _ _ => rfl)
  generalize isAdded : k.addVertex .assign (g.vertex v).result [some g.vars.size] = k'
  have wired' : k'.Wired := isAdded ▸ wired.addVertex
  have listed : k'.listed = g.listed ++ [g.store.size] := by
    rw [← isAdded, listed_addVertex, size, retyped.listed]
    rfl
  have old {u : VertexId} (isOld : u ≠ g.store.size) : k'.vertex u = g.vertex u := by
    rw [← isAdded, vertex_addVertex_of_ne (size.symm ▸ isOld), vertex]
  have new : k'.vertex g.store.size = { op := .assign, result := (g.vertex v).result, args := [some g.vars.size], owned := true } := by
    rw [← isAdded, ← size, vertex_addVertex_new]
  have isOld : v ≠ g.store.size := Nat.ne_of_lt inside
  have entry : k'.entry = g.entry := by rw [← isAdded, entry_addVertex, retyped.entry]; rfl
  have exit : k'.exit = g.exit := by rw [← isAdded, exit_addVertex, retyped.exit]; rfl
  have oldSuccs {u : VertexId} (isOld : u ≠ g.store.size) : k'.succs u = g.succs u := by
    rw [Graph.succs, old isOld, Graph.succs]
  have replaced : k'.Replaced (k'.replace v g.store.size) v g.store.size s := by
    refine wired'.replace ?_ ?_ isOld ?_ ?_ ((oldSuccs isOld).trans only) (Ne.symm other) ?_
    · rw [listed]
      exact List.mem_append_left _ member
    · rw [listed]
      exact List.mem_append_right _ List.mem_cons_self
    · rw [entry]
      exact routed.ne_entry idempotent
    · rw [exit]
      exact routed.ne_exit idempotent
    · rw [Graph.succs, new]
  have vars : k'.vars = k.vars := by rw [← isAdded, vars_addVertex]
  have value' (x : VarId) : ((k'.replace v g.store.size).var x).value = ((g.addConst value).var x).value := by
    rw [var, replaced.vars, vars, ← var, retyped.value]
  exact ⟨s, {
    idempotent, ordinary, computes, only, other
    entry := replaced.entry.trans entry
    exit := replaced.exit.trans exit
    listed := by rw [replaced.listed, listed]
    vars := by
      rw [replaced.vars, vars, retyped.vars]
      simp [addConst]
    oldValue := fun {x} isOld => by rw [value', value_addConst, if_neg isOld]
    newValue := by rw [value', value_addConst, if_pos rfl]
    reach := by
      rw [replaced.reach, ← isAdded, reach_addVertex, retyped.reach]
      rfl
    epoch := by
      have later := replaced.epoch
      rw [← isAdded, epoch_addVertex, retyped.epoch] at later
      exact Nat.lt_of_succ_lt (isAdded ▸ later)
    wired := replaced.wired
    gone := replaced.gone
    body := fun {u} notV isOld => by rw [replaced.body u notV, old isOld]
    succs := fun {u} listed' notV => by
      have isOld : u ≠ g.store.size := Nat.ne_of_lt (routed.wired.listed_lt u listed')
      rw [replaced.succs (listed ▸ List.mem_append_left _ listed') notV isOld, oldSuccs isOld]
    newBody := by
      rw [replaced.body _ (Ne.symm isOld), new]
    newSuccs := replaced.new }⟩

/-- Where the new vertex stands for the old one. -/
def moved (v n u : VertexId) : VertexId :=
  if u = v then n else u

/-- Where the old vertex stood for the new one. -/
def restored (v n u : VertexId) : VertexId :=
  if u = n then v else u

theorem moved_restored {u : VertexId} (notOld : u ≠ v) : moved v n (restored v n u) = u := by
  by_cases isNew : u = n
  · simp [moved, restored, isNew]
  · simp [moved, restored, isNew, notOld]

theorem restored_moved {u : VertexId} (notNew : u ≠ n) : restored v n (moved v n u) = u := by
  by_cases isOld : u = v
  · simp [moved, restored, isOld]
  · simp [moved, restored, isOld, notNew]

namespace ConstantFolded

variable {u : VertexId} {value : Literal} (folded : g.ConstantFolded h v s value) (inv : Optimizable src g)
include folded

theorem newOp : h.op g.store.size = .assign :=
  (Vertex.body_eq_iff.mp folded.newBody).op

theorem newResult : (h.vertex g.store.size).result = (g.vertex v).result :=
  (Vertex.body_eq_iff.mp folded.newBody).result

theorem newArgs : (h.vertex g.store.size).args = [some g.vars.size] :=
  (Vertex.body_eq_iff.mp folded.newBody).args

theorem ne_of_contains (contains : h.contains u = true) : u ≠ v := by
  rintro rfl
  simp [folded.gone] at contains

theorem notFunction : (g.vertex v).op ≠ .function := by
  intro isFunction
  have idempotent := folded.idempotent
  rw [op, isFunction] at idempotent
  simp [Op.info] at idempotent

/-- The new vertex writes what the old one wrote, and the others what they did. -/
theorem targets (notOld : u ≠ v) : (h.vertex u).targets = (g.vertex (restored v g.store.size u)).targets := by
  by_cases isNew : u = g.store.size
  · subst isNew
    have isAssign : (h.vertex g.store.size).op = .assign := folded.newOp
    rw [Vertex.targets_of_op (by simp [isAssign]), folded.newResult, restored, if_pos rfl,
      Vertex.targets_of_op folded.notFunction]
  · obtain ⟨op, _, _, result, args, _⟩ := Vertex.body_eq_iff.mp (folded.body notOld isNew)
    rw [restored, if_neg isNew, Vertex.targets, Vertex.targets, Vertex.writes, Vertex.writes, op, result, args]

theorem isPhi_iff (notOld : u ≠ v) : h.op u = .phi ↔ g.op (restored v g.store.size u) = .phi := by
  by_cases isNew : u = g.store.size
  · subst isNew
    rw [restored, if_pos rfl, folded.newOp]
    simp [folded.ordinary]
  · rw [restored, if_neg isNew, op, op, (Vertex.body_eq_iff.mp (folded.body notOld isNew)).op]

theorem isEffective_eq (notOld : u ≠ v) : h.isEffective u = g.isEffective (restored v g.store.size u) := by
  by_cases isNew : u = g.store.size
  · subst isNew
    rw [restored, if_pos rfl, isEffective, isEffective, folded.newOp, folded.idempotent]
    rfl
  · rw [restored, if_neg isNew, isEffective, isEffective, op, op, (Vertex.body_eq_iff.mp (folded.body notOld isNew)).op]

theorem contains (notOld : u ≠ v) (notNew : u ≠ g.store.size) : h.contains u = g.contains u :=
  (Vertex.body_eq_iff.mp (folded.body notOld notNew)).owned

theorem mem_listed (listed : u ∈ g.listed) (notOld : u ≠ v) : u ∈ h.listed := by
  rw [folded.listed, List.mem_erase_of_ne notOld]
  exact List.mem_append_left _ listed

/-- Successors move with the vertices. -/
theorem succs_moved (listed : u ∈ g.listed) :
    h.succs (moved v g.store.size u) = (g.succs u).map (moved v g.store.size) := by
  by_cases isOld : u = v
  · subst isOld
    rw [moved, if_pos rfl, folded.newSuccs, folded.only, List.map_singleton, moved, if_neg (Ne.symm folded.other)]
  · rw [moved, if_neg isOld, folded.succs listed isOld]
    rfl

/-- The new vertex assigns what the old one computed. -/
theorem step_new {t : Machine V} (at_v : t.vertex = v) : h.step m arguments { t with vertex := moved v g.store.size t.vertex } =
    (g.step m arguments t).map fun t' => { t' with vertex := moved v g.store.size t'.vertex } := by
  subst at_v
  have isAssign : (h.vertex g.store.size).op = .assign := folded.newOp
  have computed : h.computed m { t with vertex := g.store.size } = g.computed m t := by
    rw [folded.computes m rfl]
    simp [Graph.computed, isAssign, operands, folded.newArgs, valueOf, folded.newValue]
  have writing : h.writing m arguments { t with vertex := g.store.size } = g.writing m arguments t := by
    simp [Graph.writing, isAssign, folded.notFunction, folded.newResult, computed]
  have stepped : g.step m arguments t = some ⟨s, g.writing m arguments t ++ t.memory, t.trace⟩ :=
    step_of_isQuiet (Op.isQuiet_of_idempotent folded.idempotent) folded.only
  have stepped' : h.step m arguments { t with vertex := g.store.size } =
      some ⟨s, h.writing m arguments { t with vertex := g.store.size } ++ t.memory, t.trace⟩ :=
    step_of_isQuiet (by simp [folded.newOp, Op.isQuiet]) folded.newSuccs
  rw [moved, if_pos rfl, stepped', stepped, writing, Option.map_some, moved, if_neg (Ne.symm folded.other)]

section
variable (routed : g.Routed)
include routed

/-- The vertices that can be reached are moved ones. -/
theorem before (reached : Reachable h.succs h.entry u) :
    ∃ w, Reachable g.succs g.entry w ∧ u = moved v g.store.size w := by
  obtain ⟨past, trail⟩ := reached
  induction trail with
  | start =>
    refine ⟨g.entry, .refl, ?_⟩
    rw [folded.entry, moved, if_neg (Ne.symm (routed.ne_entry folded.idempotent))]
  | @step past u t _ edge ih =>
    obtain ⟨w, reached, rfl⟩ := ih
    rw [folded.succs_moved (routed.listed reached), List.mem_map] at edge
    obtain ⟨t, edge, rfl⟩ := edge
    exact ⟨t, reached.step edge, rfl⟩

theorem after (reached : Reachable g.succs g.entry u) : Reachable h.succs h.entry (moved v g.store.size u) := by
  obtain ⟨past, trail⟩ := reached
  induction trail with
  | start =>
    rw [moved, if_neg (Ne.symm (routed.ne_entry folded.idempotent)), ← folded.entry]
    exact .refl
  | @step past u t before edge ih =>
    refine ih.step ?_
    rw [folded.succs_moved (routed.listed before.reachable)]
    exact List.mem_map_of_mem edge

theorem ne_of_reachable (reachedV : Reachable g.succs g.entry v) (reached : Reachable h.succs h.entry u) : u ≠ v := by
  obtain ⟨w, reached, rfl⟩ := folded.before routed reached
  rw [moved]
  split
  · exact Ne.symm (routed.ne_size reachedV)
  · assumption

/-- What can be reached, but for the new vertex, is what it was. -/
theorem body_of_reachable (reachedV : Reachable g.succs g.entry v) (reached : Reachable h.succs h.entry u)
    (notNew : u ≠ g.store.size) : restored v g.store.size u = u ∧ (h.vertex u).body = (g.vertex u).body :=
  ⟨if_neg notNew, folded.body (folded.ne_of_reachable routed reachedV reached) notNew⟩

theorem body_of_phi (reachedV : Reachable g.succs g.entry v) (reached : Reachable h.succs h.entry u)
    (isPhi : h.op u = .phi) : restored v g.store.size u = u ∧ (h.vertex u).body = (g.vertex u).body := by
  refine folded.body_of_reachable routed reachedV reached ?_
  rintro rfl
  simp [folded.newOp] at isPhi

/-- The ways on move with the vertices. -/
theorem leads {t : VertexId} (leads : g.Leads g.isEffective u t) (reached : Reachable g.succs g.entry u)
    (reachedV : Reachable g.succs g.entry v) :
    h.Leads h.isEffective (moved v g.store.size u) (moved v g.store.size t) := by
  have effective {u : VertexId} (reached : Reachable g.succs g.entry u) :
      h.isEffective (moved v g.store.size u) = g.isEffective u := by
    rw [folded.isEffective_eq (folded.ne_of_reachable routed reachedV (folded.after routed reached)),
      restored_moved (routed.ne_size reached)]
  induction leads with
  | here isEffective => exact .here ((effective reached).trans isEffective)
  | skip extra only _ ih =>
    refine .skip ((effective reached).trans extra) ?_ (ih (reached.step (by simp [only])))
    rw [folded.succs_moved (routed.listed reached), only, List.map_singleton]

/-- A vertex of the graph stands for one of the graph before, which writes the same. -/
theorem contains_restored (reachedV : Reachable g.succs g.entry v) (contains : h.contains u = true) :
    g.contains (restored v g.store.size u) = true ∧
      (h.vertex u).targets = (g.vertex (restored v g.store.size u)).targets := by
  have notOld := folded.ne_of_contains contains
  refine ⟨?_, folded.targets notOld⟩
  rw [restored]
  split
  · exact routed.present reachedV
  · rename_i notNew
    rwa [folded.contains notOld notNew] at contains

end

theorem routed (routed : g.Routed) (reachedV : Reachable g.succs g.entry v) : h.Routed where
  wired := folded.wired
  owned {u} contains := by
    have notOld := folded.ne_of_contains contains
    by_cases isNew : u = g.store.size
    · subst isNew
      rw [folded.listed, List.mem_erase_of_ne notOld]
      simp
    · exact folded.mem_listed (routed.owned (folded.contains notOld isNew ▸ contains)) notOld
  present {u} reached := by
    obtain ⟨w, reachedW, rfl⟩ := folded.before routed reached
    rw [moved]
    split
    · exact (Vertex.body_eq_iff.mp folded.newBody).owned
    · rename_i notOld
      rw [folded.contains notOld (routed.ne_size reachedW)]
      exact routed.present reachedW
  entryOp := by
    rw [folded.entry, op, (Vertex.body_eq_iff.mp (folded.body (Ne.symm (routed.ne_entry folded.idempotent))
      (routed.ne_size .refl))).op]
    exact routed.entryOp
  exitOp := by
    have notNew : g.exit ≠ g.store.size := Nat.ne_of_lt (routed.wired.listed_lt _ routed.exitListed)
    rw [folded.exit, op, (Vertex.body_eq_iff.mp (folded.body (Ne.symm (routed.ne_exit folded.idempotent)) notNew)).op]
    exact routed.exitOp
  exitListed := by
    rw [folded.exit]
    exact folded.mem_listed routed.exitListed (Ne.symm (routed.ne_exit folded.idempotent))
  onward reached := by
    obtain ⟨w, reachedW, rfl⟩ := folded.before routed reached
    obtain ⟨t, leads⟩ := routed.onward reachedW
    exact ⟨_, folded.leads routed leads reachedW reachedV⟩
  cached := routed.cached.later folded.reach folded.epoch

include inv

/-- Nothing writes a variable of the class of the new constant. -/
theorem unwritten (reachedV : Reachable g.succs g.entry v) {z : VarId} (reached : Reachable h.succs h.entry u)
    (writes : z ∈ (h.vertex u).targets) : src z ≠ src g.vars.size := by
  obtain ⟨w, reachedW, rfl⟩ := folded.before inv.toRouted reached
  rw [folded.targets (folded.ne_of_reachable inv.toRouted reachedV reached), restored_moved (inv.toRouted.ne_size reachedW)] at writes
  have known := inv.inScope (inv.present reachedW) (Vertex.references_of_mem_targets writes)
  have lt := inv.srcLt known
  rw [inv.srcGe (Nat.le_refl _)]
  exact Nat.ne_of_lt lt

theorem follows (reachedV : Reachable g.succs g.entry v) : Follows src (restored v g.store.size) g h where
  entry := by rw [folded.entry, restored, if_neg (inv.toRouted.ne_size .refl)]
  edges {u} reached t edge := by
    obtain ⟨w, reachedW, rfl⟩ := folded.before inv.toRouted reached
    rw [folded.succs_moved (inv.listed reachedW), List.mem_map] at edge
    obtain ⟨t, edge, rfl⟩ := edge
    rw [restored_moved (inv.toRouted.ne_size reachedW), restored_moved (inv.toRouted.ne_size (reachedW.step edge))]
    exact edge
  targets reached := folded.targets (folded.ne_of_reachable inv.toRouted reachedV reached)
  isPhi reached := folded.isPhi_iff (folded.ne_of_reachable inv.toRouted reachedV reached)
  result reached isPhi := by
    obtain ⟨back, body⟩ := folded.body_of_phi inv.toRouted reachedV reached isPhi
    rw [back]
    exact (Vertex.body_eq_iff.mp body).result
  reads {u y} reached _ read := by
    by_cases isNew : u = g.store.size
    · subst isNew
      have isAssign : (h.vertex g.store.size).op = .assign := folded.newOp
      obtain rfl : y = g.vars.size := by simpa [Vertex.reads, isAssign, folded.newArgs] using read
      exact .inr fun t z reached writes => folded.unwritten inv reachedV reached writes
    · obtain ⟨back, body⟩ := folded.body_of_reachable inv.toRouted reachedV reached isNew
      obtain ⟨op, _, _, _, args, _⟩ := Vertex.body_eq_iff.mp body
      rw [back]
      rw [Vertex.reads, op, args] at read
      exact .inl read
  inputs reached isPhi input := by
    obtain ⟨back, body⟩ := folded.body_of_phi inv.toRouted reachedV reached isPhi
    rw [back]
    exact (Vertex.body_eq_iff.mp body).args ▸ input
  joins reached isPhi input _ _ := by
    obtain ⟨back, body⟩ := folded.body_of_phi inv.toRouted reachedV reached isPhi
    rw [back] at input
    exact (Vertex.body_eq_iff.mp body).args ▸ input

theorem inScope (reachedV : Reachable g.succs g.entry v) {x : VarId} (contains : h.contains u = true)
    (references : (h.vertex u).references (some x) = true) : x < h.vars.size := by
  rw [folded.vars]
  by_cases isNew : u = g.store.size
  · subst isNew
    rw [Vertex.references_iff, folded.newResult, folded.newArgs] at references
    rcases references with result | arg
    · exact Nat.lt_succ_of_lt (inv.inScope (inv.present reachedV) (Vertex.references_iff.mpr (.inl result)))
    · obtain rfl : x = g.vars.size := by simpa using arg
      exact Nat.lt_succ_self _
  · have notOld := folded.ne_of_contains contains
    rw [folded.contains notOld isNew] at contains
    rw [(Vertex.SameAction.of_body (folded.body notOld isNew)).references] at references
    exact Nat.lt_succ_of_lt (inv.inScope contains references)

theorem value_src (y : VarId) : (h.var (src y)).value = (h.var y).value := by
  by_cases isConst : y = g.vars.size
  · rw [isConst, inv.srcGe (Nat.le_refl _)]
  · have other : src y ≠ g.vars.size := by
      rcases Nat.lt_or_ge y g.vars.size with lt | ge
      · exact Nat.ne_of_lt (inv.srcLt lt)
      · rwa [inv.srcGe ge]
    rw [folded.oldValue isConst, folded.oldValue other, inv.value]

theorem optimizable (reachedV : Reachable g.succs g.entry v) : Optimizable src h :=
  { folded.routed inv.toRouted reachedV with
    inScope := folded.inScope inv reachedV
    coherent := (folded.follows inv reachedV).coherent inv.coherent
    value := folded.value_src inv
    srcLt := fun {y} lt => by
      rw [folded.vars] at lt ⊢
      rcases Nat.lt_or_eq_of_le (Nat.le_of_lt_succ lt) with lt | rfl
      · exact Nat.lt_succ_of_lt (inv.srcLt lt)
      · rw [inv.srcGe (Nat.le_refl _)]
        exact Nat.lt_succ_self _
    srcGe := fun {y} ge => by
      rw [folded.vars] at ge
      exact inv.srcGe (Nat.le_of_succ_le ge)
    phiResult := (folded.follows inv reachedV).phiResult inv }

theorem sameRuns : SameRuns m arguments g h := by
  refine sameRuns_of_lockstep (moved v g.store.size) ?_ fun {s} visits => ?_
  · rw [folded.entry, moved, if_neg (Ne.symm (inv.toRouted.ne_entry folded.idempotent))]
  · have succs := folded.succs_moved (inv.listed visits.reachable)
    by_cases at_v : s.vertex = v
    · exact folded.step_new at_v
    · have place : moved v g.store.size s.vertex = s.vertex := if_neg at_v
      have notNew := inv.toRouted.ne_size visits.reachable
      refine step_of_sameAction (place.symm ▸ .of_body (folded.body at_v notNew)) (fun x references => ?_) succs
      have known := inv.inScope (inv.present visits.reachable) references
      exact folded.oldValue (Nat.ne_of_lt known)

theorem oneWriter (reachedV : Reachable g.succs g.entry v) (once : g.OneWriter) : h.OneWriter := by
  intro phi y u w reached isPhi references containsU containsW writesU writesW
  have follows := folded.follows inv reachedV
  obtain ⟨back, body⟩ := folded.body_of_phi inv.toRouted reachedV reached isPhi
  obtain ⟨ownedU, targetsU⟩ := folded.contains_restored inv.toRouted reachedV containsU
  obtain ⟨ownedW, targetsW⟩ := folded.contains_restored inv.toRouted reachedV containsW
  have same : restored v g.store.size u = restored v g.store.size w := by
    refine once (follows.reachable reached) ((follows.isPhi reached).mp isPhi) ?_ ownedU ownedW (targetsU ▸ writesU)
      (targetsW ▸ writesW)
    rwa [back, ← (Vertex.SameAction.of_body body).references]
  rw [← moved_restored (n := g.store.size) (folded.ne_of_contains containsU), same,
    moved_restored (folded.ne_of_contains containsW)]

theorem trimmed (reachedV : Reachable g.succs g.entry v) (trimmed : g.Trimmed) : h.Trimmed where
  reachable {u} contains := by
    have notOld := folded.ne_of_contains contains
    rw [folded.exit]
    rcases trimmed.reachable (folded.contains_restored inv.toRouted reachedV contains).1 with isExit | reached
    · left
      rw [← moved_restored (n := g.store.size) notOld, isExit, moved, if_neg (Ne.symm (inv.toRouted.ne_exit folded.idempotent))]
    · have after := folded.after inv.toRouted reached
      rw [moved_restored notOld] at after
      exact .inr after
  branches {u} contains := by
    rintro ⟨isJump, two, x, arg, const⟩
    have notOld := folded.ne_of_contains contains
    have notNew : u ≠ g.store.size := by
      rintro rfl
      simp [folded.newOp] at isJump
    have owned := folded.contains notOld notNew ▸ contains
    obtain ⟨sameOp, _, _, _, args, _⟩ := Vertex.body_eq_iff.mp (folded.body notOld notNew)
    rw [args] at arg
    refine trimmed.branches owned ⟨by rwa [op, sameOp] at isJump, ?_, x, arg, ?_⟩
    · rw [folded.succs (inv.owned owned) notOld] at two
      simpa [turned] using two
    · have known : x < g.vars.size := by
        refine inv.inScope owned (Vertex.references_iff.mpr (.inr ?_))
        exact List.mem_of_getElem? (Option.join_eq_some_iff.mp arg)
      rwa [folded.oldValue (Nat.ne_of_lt known)] at const

end ConstantFolded

end Graph

end MiddleEnd
