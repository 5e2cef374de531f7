import MiddleEnd.Optimizer.Rules
import MiddleEnd.Proofs.Optimizing.Invariant

/-!
Edits that close ways and open none: unreachable vertices are pruned, and a jump on a constant keeps one of its ways.
The paths of the new graph are paths of the old one, and the vertices on them write the same (`Graph.Narrowed`). A phi
may lose an input, but none that is still written.
-/
namespace MiddleEnd

namespace Graph

variable {V : Type} {m : Meaning V} {arguments : Nat → V} {src : VarId → VarId} {g h k : Graph} {v : VertexId}

/-- The paths of `h` are paths of `g`, read by `back`. The vertices on them write the same and read no more than before,
but for variables whose class nothing writes, and phis join what is still written. -/
structure Follows (src : VarId → VarId) (back : VertexId → VertexId) (g h : Graph) : Prop where
  entry : back h.entry = g.entry
  edges : ∀ {u}, Reachable h.succs h.entry u → ∀ t ∈ h.succs u, back t ∈ g.succs (back u)
  targets : ∀ {u}, Reachable h.succs h.entry u → (h.vertex u).targets = (g.vertex (back u)).targets
  isPhi : ∀ {u}, Reachable h.succs h.entry u → (h.op u = .phi ↔ g.op (back u) = .phi)
  result : ∀ {u}, Reachable h.succs h.entry u → h.op u = .phi → (h.vertex u).result = (g.vertex (back u)).result
  reads : ∀ {u y}, Reachable h.succs h.entry u → h.op u ≠ .phi → some y ∈ (h.vertex u).reads →
    some y ∈ (g.vertex (back u)).reads ∨ ∀ t z, Reachable h.succs h.entry t → z ∈ (h.vertex t).targets → src z ≠ src y
  inputs : ∀ {u a}, Reachable h.succs h.entry u → h.op u = .phi → a ∈ (h.vertex u).args → a ∈ (g.vertex (back u)).args
  joins : ∀ {u t w}, Reachable h.succs h.entry u → h.op u = .phi → some w ∈ (g.vertex (back u)).args →
    Reachable h.succs h.entry t → w ∈ (h.vertex t).targets → some w ∈ (h.vertex u).args

namespace Follows

variable {back : VertexId → VertexId} {past : List VertexId} {u : VertexId} (follows : Follows src back g h)
include follows

theorem trail (trail : Trail h.succs h.entry past u) : Trail g.succs g.entry (past.map back) (back u) := by
  induction trail with
  | start => exact follows.entry ▸ .start
  | @step past u t before edge ih => simpa using ih.step (follows.edges before.reachable t edge)

theorem reachable (reached : Reachable h.succs h.entry u) : Reachable g.succs g.entry (back u) := by
  obtain ⟨past, trail⟩ := reached
  exact (follows.trail trail).reachable

theorem latest (trail : Trail h.succs h.entry past u) (p : VarId → Bool) :
    h.latest p past = g.latest p (past.map back) := by
  induction trail with
  | start => rfl
  | @step past u t before _ ih =>
    rw [List.map_append, List.map_singleton, latest_concat, latest_concat, ih, follows.targets before.reachable]

/-- Coherence is a matter of paths. -/
theorem coherent (coherent : g.Coherent src) : h.Coherent src where
  reads {past u y w} trail ordinary read last := by
    rcases follows.reads trail.reachable ordinary read with before | unwritten
    · exact coherent.reads (follows.trail trail) (mt (follows.isPhi trail.reachable).mpr ordinary) before
        (follows.latest trail _ ▸ last)
    · obtain ⟨t, passed, writes⟩ := writer_of_latest last
      exact absurd (of_decide_eq_true (latest_holds last)) (unwritten t w (trail.reachable_past passed) writes)
  joins {past u r w} trail isPhi result last := by
    obtain ⟨t, passed, writes⟩ := writer_of_latest last
    have before := coherent.joins (follows.trail trail) ((follows.isPhi trail.reachable).mp isPhi)
      (follows.result trail.reachable isPhi ▸ result) (follows.latest trail _ ▸ last)
    exact before.imp_right fun input => follows.joins trail.reachable isPhi input (trail.reachable_past passed) writes
  inputs {u r y} reached isPhi result input :=
    coherent.inputs (follows.reachable reached) ((follows.isPhi reached).mp isPhi)
      (follows.result reached isPhi ▸ result) (follows.inputs reached isPhi input)

theorem phiResult (inv : Optimizable src g) (reached : Reachable h.succs h.entry u) (isPhi : h.op u = .phi) :
    ∃ r, (h.vertex u).result = some r := by
  rw [follows.result reached isPhi]
  exact inv.phiResult (follows.reachable reached) ((follows.isPhi reached).mp isPhi)

end Follows

/-- Ways over vertices without effects stay open, if such vertices keep their successors. -/
theorem Leads.carry {s : VertexId} (leads : g.Leads g.isEffective v s) (reached : Reachable h.succs h.entry v)
    (effective : ∀ {v}, Reachable h.succs h.entry v → h.isEffective v = g.isEffective v)
    (ways : ∀ {v}, Reachable h.succs h.entry v → g.isEffective v = false → h.succs v = g.succs v) :
    h.Leads h.isEffective v s := by
  induction leads with
  | here isEffective => exact .here ((effective reached).trans isEffective)
  | skip extra only _ ih =>
    have only' := (ways reached extra).trans only
    exact .skip ((effective reached).trans extra) only' (ih (reached.step (by simp [only'])))

/-- `h` is `g` with some ways closed, and perhaps without what cannot be reached any more. -/
structure Narrowed (src : VarId → VarId) (g h : Graph) : Prop extends Follows src id g h where
  wired : h.Wired
  owned : ∀ {v}, h.contains v = true → v ∈ h.listed
  present : ∀ {v}, Reachable h.succs h.entry v → g.contains v = true → h.contains v = true
  exit : h.exit = g.exit
  exitListed : h.exit ∈ h.listed
  entryOp : h.op h.entry = .function
  exitOp : h.op h.exit = .finish
  vars : h.vars = g.vars
  contains : ∀ {v}, h.contains v = true → g.contains v = true
  references : ∀ {v x}, h.contains v = true → (h.vertex v).references (some x) = true →
    (g.vertex v).references (some x) = true
  writes : ∀ {v}, h.contains v = true → (h.vertex v).targets = (g.vertex v).targets
  effective : ∀ {v}, Reachable h.succs h.entry v → h.isEffective v = g.isEffective v
  ways : ∀ {v}, Reachable h.succs h.entry v → g.isEffective v = false → h.succs v = g.succs v
  cached : h.Cached

namespace Narrowed

variable (narrowed : Narrowed src g h)
include narrowed

theorem routed (routed : g.Routed) : h.Routed :=
  { narrowed with
    present := fun reached => narrowed.present reached (routed.present (narrowed.reachable reached))
    onward := fun reached => by
      obtain ⟨s, leads⟩ := routed.onward (narrowed.reachable reached)
      exact ⟨s, leads.carry reached narrowed.effective narrowed.ways⟩ }

theorem optimizable (inv : Optimizable src g) : Optimizable src h :=
  { narrowed.routed inv.toRouted with
    inScope := fun {w x} contains references => by
      rw [narrowed.vars]
      exact inv.inScope (narrowed.contains contains) (narrowed.references contains references)
    coherent := narrowed.coherent inv.coherent
    value := fun y => by
      rw [var, var, narrowed.vars]
      exact inv.value y
    srcLt := by
      rw [narrowed.vars]
      exact inv.srcLt
    srcGe := by
      rw [narrowed.vars]
      exact inv.srcGe
    phiResult := narrowed.phiResult inv }

theorem oneWriter (inv : Optimizable src g) (once : g.OneWriter) : h.OneWriter := by
  intro phi y u w reached isPhi references containsU containsW writesU writesW
  have present := narrowed.present reached (inv.present (narrowed.reachable reached))
  exact once (narrowed.reachable reached) ((narrowed.isPhi reached).mp isPhi) (narrowed.references present references)
    (narrowed.contains containsU) (narrowed.contains containsW) (narrowed.writes containsU ▸ writesU)
    (narrowed.writes containsW ▸ writesW)

end Narrowed

/-! ### Noting what can be reached -/

section noting
variable {found : Option (Nat × VertexSet)}

theorem Routed.noted (routed : g.Routed) (cached : ({ g with reach := found } : Graph).Cached) :
    ({ g with reach := found } : Graph).Routed where
  wired := routed.wired.congr rfl rfl (Nat.le_refl _) (fun _ _ => rfl) (fun _ _ => rfl)
  owned := routed.owned
  present := routed.present
  entryOp := routed.entryOp
  exitOp := routed.exitOp
  exitListed := routed.exitListed
  onward reached := by
    obtain ⟨s, leads⟩ := routed.onward reached
    exact ⟨s, leads.congr fun _ => rfl⟩
  cached := cached

theorem Optimizable.noted (inv : Optimizable src g) (cached : ({ g with reach := found } : Graph).Cached) :
    Optimizable src { g with reach := found } :=
  { inv.toRouted.noted cached, inv with
    coherent := ⟨inv.coherent.reads, inv.coherent.joins, inv.coherent.inputs⟩ }

theorem OneWriter.noted (once : g.OneWriter) : ({ g with reach := found } : Graph).OneWriter :=
  once

theorem Trimmed.noted (trimmed : g.Trimmed) : ({ g with reach := found } : Graph).Trimmed :=
  ⟨trimmed.reachable, trimmed.branches⟩

theorem sameRuns_noted : SameRuns m arguments g { g with reach := found } :=
  sameRuns_of_sameAction rfl (fun _ => rfl) fun _ => ⟨.of_body rfl, rfl⟩

end noting

/-! ### Calls that turn out to be recursive -/

/-- `h` is `g` with a call noted as recursive. -/
structure Recalled (g h : Graph) : Prop where
  entry : h.entry = g.entry
  exit : h.exit = g.exit
  size : h.store.size = g.store.size
  listed : h.listed = g.listed
  vars : h.vars = g.vars
  epoch : h.epoch = g.epoch
  reach : h.reach = g.reach
  vertex : ∀ u, ∃ op, (g.op u).Alike op ∧ h.vertex u = { g.vertex u with op }

theorem recalled_modifyVertex (isCall : g.op v = .call) :
    g.Recalled (g.modifyVertex v fun w => { w with op := .selfCall }) := by
  refine ⟨rfl, rfl, size_modifyVertex, rfl, rfl, rfl, rfl, fun u => ?_⟩
  rw [vertex_modifyVertex]
  split
  · rename_i here
    exact ⟨.selfCall, .inr ⟨here.1 ▸ isCall, rfl⟩, rfl⟩
  · exact ⟨g.op u, .inl rfl, rfl⟩

namespace Recalled

variable (recalled : g.Recalled h)
include recalled

theorem op (u : VertexId) : (g.op u).Alike (h.op u) := by
  obtain ⟨op, alike, vertex⟩ := recalled.vertex u
  rw [Graph.op, Graph.op, vertex]
  exact alike

/-- Nothing but calls changes. -/
theorem op_eq_iff (u : VertexId) {o : Op} (visible : o ≠ .call ∧ o ≠ .selfCall) : h.op u = o ↔ g.op u = o := by
  rcases recalled.op u with same | ⟨isCall, isSelfCall⟩
  · rw [same]
  · simp [isCall, isSelfCall, visible.1.symm, visible.2.symm]

theorem succs : h.succs = g.succs := by
  funext u
  obtain ⟨op, _, vertex⟩ := recalled.vertex u
  rw [Graph.succs, Graph.succs, vertex]

theorem contains (u : VertexId) : h.contains u = g.contains u := by
  obtain ⟨op, _, vertex⟩ := recalled.vertex u
  rw [Graph.contains, Graph.contains, vertex]

theorem action (u : VertexId) : (g.vertex u).SameAction (h.vertex u) := by
  obtain ⟨op, alike, vertex⟩ := recalled.vertex u
  rw [vertex]
  exact ⟨alike, rfl, rfl, rfl, rfl⟩

theorem writes_reads (u : VertexId) :
    (h.vertex u).targets = (g.vertex u).targets ∧ (h.vertex u).reads = (g.vertex u).reads := by
  have functions : (h.vertex u).op = .function ↔ (g.vertex u).op = .function := recalled.op_eq_iff u (by decide)
  have same := recalled.action u
  rw [Vertex.targets, Vertex.targets, Vertex.writes, Vertex.writes, Vertex.reads, Vertex.reads, same.result, same.args]
  simp only [functions, and_self]

theorem narrowed (routed : g.Routed) : Narrowed src g h where
  entry := recalled.entry
  edges {u} _ t edge := recalled.succs ▸ edge
  targets {u} _ := (recalled.writes_reads u).1
  isPhi {u} _ := recalled.op_eq_iff u (by decide)
  result {u} _ _ := (recalled.action u).result
  reads {u y} _ _ read := .inl ((recalled.writes_reads u).2 ▸ read)
  inputs {u a} _ _ input := (recalled.action u).args ▸ input
  joins {u t w} _ _ input _ _ := (recalled.action u).args ▸ input
  wired := routed.wired.congr recalled.entry recalled.listed (Nat.le_of_eq recalled.size.symm)
    (fun u _ => congrFun recalled.succs u) fun u _ => by
      obtain ⟨op, _, vertex⟩ := recalled.vertex u
      rw [preds, preds, vertex]
  owned {u} contains := by
    rw [recalled.listed]
    exact routed.owned (recalled.contains u ▸ contains)
  present {u} _ contains := recalled.contains u ▸ contains
  exit := recalled.exit
  exitListed := by
    rw [recalled.exit, recalled.listed]
    exact routed.exitListed
  entryOp := by
    rw [recalled.entry, recalled.op_eq_iff _ (by decide)]
    exact routed.entryOp
  exitOp := by
    rw [recalled.exit, recalled.op_eq_iff _ (by decide)]
    exact routed.exitOp
  vars := recalled.vars
  contains {u} contains := recalled.contains u ▸ contains
  references {u x} _ references := (recalled.action u).references _ ▸ references
  writes {u} _ := (recalled.writes_reads u).1
  effective {u} _ := by
    rw [isEffective, isEffective]
    rcases recalled.op u with same | ⟨isCall, isSelfCall⟩
    · rw [same]
    · rw [isCall, isSelfCall]
      rfl
  ways {u} _ _ := congrFun recalled.succs u
  cached := routed.cached.same recalled.reach recalled.epoch fun u => by rw [recalled.succs, recalled.entry]

theorem sameRuns : SameRuns m arguments g h :=
  sameRuns_of_sameAction recalled.entry (fun x => by rw [var, var, recalled.vars])
    fun {u} _ => ⟨recalled.action u, congrFun recalled.succs u⟩

theorem trimmed (trimmed : g.Trimmed) : h.Trimmed where
  reachable {u} contains := by
    rw [recalled.succs, recalled.entry, recalled.exit]
    exact trimmed.reachable (recalled.contains u ▸ contains)
  branches {u} contains := by
    rw [Decided, recalled.op_eq_iff u (by decide), recalled.succs, (recalled.action u).args]
    simp only [var, recalled.vars]
    exact trimmed.branches (recalled.contains u ▸ contains)

end Recalled

/-! ### Jumps on constants -/

/-- `h` is `g` with the jump at `v`, which was conditional on a constant, going to `taken`. -/
structure BranchFolded (g h : Graph) (v taken : VertexId) : Prop where
  isJumpIf : g.op v = .jumpIf
  decides : ∃ x c thenTo elseTo, ((g.vertex v).args[0]?).join = some x ∧ (g.var x).value = some c ∧
    g.succs v = [thenTo, elseTo] ∧ taken = if c.truthy then thenTo else elseTo
  entry : h.entry = g.entry
  exit : h.exit = g.exit
  listed : h.listed = g.listed
  vars : h.vars = g.vars
  reach : h.reach = g.reach
  epoch : g.epoch < h.epoch
  wired : h.Wired
  isJump : h.op v = .jump
  result : (h.vertex v).result = (g.vertex v).result
  args : (h.vertex v).args = []
  owned : h.contains v = g.contains v
  only : h.succs v = [taken]
  others : ∀ {u}, u ≠ v → (h.vertex u).body = (g.vertex u).body ∧ h.succs u = g.succs u

theorem branchFolded_removeEdge {x : VarId} {c : Literal} {thenTo elseTo : VertexId} (wired : g.Wired) (member : v ∈ g.listed)
    (isJumpIf : g.op v = .jumpIf) (arg : ((g.vertex v).args[0]?).join = some x) (value : (g.var x).value = some c)
    (succs : g.succs v = [thenTo, elseTo]) :
    g.BranchFolded ((g.removeEdge v (if c.truthy then elseTo else thenTo)).modifyVertex v
      fun w => { w with op := .jump, args := [] }) v (if c.truthy then thenTo else elseTo) := by
  generalize isDead : (if c.truthy then elseTo else thenTo) = dead
  have edge : dead ∈ g.succs v := by
    rw [succs, ← isDead]
    split <;> simp
  have rewired : g.Rewired (g.removeEdge v dead) := rewired_removeEdge
  have wired' : (g.removeEdge v dead).Wired := wired.removeEdge member (wired.succs_listed v member dead edge)
  have inside : v < (g.removeEdge v dead).store.size := by
    rw [rewired.size]
    exact wired.listed_lt v member
  have succs' (u : VertexId) : (g.removeEdge v dead).succs u = if u = v then (g.succs v).erase dead else g.succs u :=
    succs_removeEdge (wired.listed_lt v member)
  have epoch : g.epoch < (g.removeEdge v dead).epoch := by
    rw [removeEdge, if_pos (by simpa [hasEdge] using edge)]
    exact Nat.lt_succ_self _
  generalize g.removeEdge v dead = k at rewired wired' inside succs' epoch ⊢
  have sameSuccs (u : VertexId) : (k.modifyVertex v fun w => { w with op := .jump, args := [] }).succs u = k.succs u := by
    rw [Graph.succs, congr_modifyVertex Vertex.succs]
    · rfl
    · exact fun _ => rfl
  have samePreds (u : VertexId) : (k.modifyVertex v fun w => { w with op := .jump, args := [] }).preds u = k.preds u := by
    rw [Graph.preds, congr_modifyVertex Vertex.preds]
    · rfl
    · exact fun _ => rfl
  have atV : (k.modifyVertex v fun w => { w with op := .jump, args := [] }).vertex v =
      { k.vertex v with op := .jump, args := [] } := vertex_modifyVertex_self inside
  obtain ⟨_, _, _, result, _, owned⟩ := Vertex.body_eq_iff.mp (rewired.body v)
  refine ⟨isJumpIf, ⟨x, c, thenTo, elseTo, arg, value, succs, rfl⟩, rewired.entry, rewired.exit, rewired.listed, rewired.vars,
    rewired.reach, epoch, ?_, ?_, ?_, ?_, ?_, ?_, ?_⟩
  · exact wired'.congr rfl rfl (by simp) (fun u _ => sameSuccs u) fun u _ => samePreds u
  · rw [op, atV]
  · rw [atV, result]
  · rw [atV]
  · rw [contains, atV, contains, owned]
  · rw [sameSuccs, succs', if_pos rfl, succs, ← isDead]
    by_cases truthy : c.truthy = true
    · by_cases same : thenTo = elseTo <;> simp [truthy, same]
    · simp [truthy]
  · intro u other
    rw [sameSuccs, succs', if_neg other, vertex_modifyVertex_of_ne other]
    exact ⟨rewired.body u, rfl⟩

namespace BranchFolded

variable {taken : VertexId} (folded : g.BranchFolded h v taken)
include folded

theorem taken_mem : taken ∈ g.succs v := by
  obtain ⟨_, c, thenTo, elseTo, _, _, succs, is⟩ := folded.decides
  rw [succs, is]
  split <;> simp

theorem decided : g.Decided v := by
  obtain ⟨x, c, thenTo, elseTo, arg, value, succs, _⟩ := folded.decides
  exact ⟨folded.isJumpIf, by rw [succs]; rfl, x, arg, by simp [value]⟩

/-- No way is opened. -/
theorem edges {u t : VertexId} (edge : t ∈ h.succs u) : t ∈ g.succs u := by
  by_cases isV : u = v
  · subst isV
    rw [folded.only, List.mem_singleton] at edge
    exact edge ▸ folded.taken_mem
  · exact (folded.others isV).2 ▸ edge

theorem contains (u : VertexId) : h.contains u = g.contains u := by
  by_cases isV : u = v
  · exact isV ▸ folded.owned
  · exact (Vertex.body_eq_iff.mp (folded.others isV).1).owned

theorem op_eq_iff (u : VertexId) {o : Op} (visible : o ≠ .jump ∧ o ≠ .jumpIf) : h.op u = o ↔ g.op u = o := by
  by_cases isV : u = v
  · subst isV
    simp [folded.isJump, folded.isJumpIf, visible.1.symm, visible.2.symm]
  · rw [Graph.op, Graph.op, (Vertex.body_eq_iff.mp (folded.others isV).1).op]

theorem targets (u : VertexId) : (h.vertex u).targets = (g.vertex u).targets := by
  by_cases isV : u = v
  · subst isV
    have isJump : (h.vertex u).op = .jump := folded.isJump
    have isJumpIf : (g.vertex u).op = .jumpIf := folded.isJumpIf
    rw [Vertex.targets_of_op (by simp [isJump]), Vertex.targets_of_op (by simp [isJumpIf]), folded.result]
  · obtain ⟨op, _, _, result, args, _⟩ := Vertex.body_eq_iff.mp (folded.others isV).1
    rw [Vertex.targets, Vertex.targets, Vertex.writes, Vertex.writes, op, result, args]

theorem mem_args (u : VertexId) {a : Option VarId} (member : a ∈ (h.vertex u).args) : a ∈ (g.vertex u).args := by
  by_cases isV : u = v
  · simp [isV, folded.args] at member
  · rwa [(Vertex.body_eq_iff.mp (folded.others isV).1).args] at member

theorem result_eq (u : VertexId) : (h.vertex u).result = (g.vertex u).result := by
  by_cases isV : u = v
  · exact isV ▸ folded.result
  · exact (Vertex.body_eq_iff.mp (folded.others isV).1).result

theorem args_of_phi {u : VertexId} (isPhi : h.op u = .phi) : (h.vertex u).args = (g.vertex u).args := by
  by_cases isV : u = v
  · simp [isV, folded.isJump] at isPhi
  · exact (Vertex.body_eq_iff.mp (folded.others isV).1).args

theorem narrowed (routed : g.Routed) : Narrowed src g h where
  entry := folded.entry
  edges _ _ edge := folded.edges edge
  targets {u} _ := folded.targets u
  isPhi {u} _ := folded.op_eq_iff u (by decide)
  result {u} _ _ := folded.result_eq u
  reads {u y} _ _ read := by
    have functions : (h.vertex u).op = .function ↔ (g.vertex u).op = .function := folded.op_eq_iff u (by decide)
    rw [Vertex.reads] at read
    split at read
    · simp at read
    · rename_i ordinary
      refine .inl ?_
      rw [id, Vertex.reads, if_neg (mt functions.mpr ordinary)]
      exact folded.mem_args u read
  inputs {u a} _ _ input := folded.mem_args u input
  joins {u t w} _ isPhi input _ _ := by
    rw [folded.args_of_phi isPhi]
    exact input
  wired := folded.wired
  owned {u} contains := by
    rw [folded.listed]
    exact routed.owned (folded.contains u ▸ contains)
  present {u} _ contains := folded.contains u ▸ contains
  exit := folded.exit
  exitListed := by
    rw [folded.exit, folded.listed]
    exact routed.exitListed
  entryOp := by
    rw [folded.entry, folded.op_eq_iff _ (by decide)]
    exact routed.entryOp
  exitOp := by
    rw [folded.exit, folded.op_eq_iff _ (by decide)]
    exact routed.exitOp
  vars := folded.vars
  contains {u} contains := folded.contains u ▸ contains
  references {u x} _ references := by
    rw [Vertex.references_iff] at references ⊢
    rw [← folded.result_eq u]
    exact references.imp_right (folded.mem_args u)
  writes {u} _ := folded.targets u
  effective {u} _ := by
    by_cases isV : u = v
    · subst isV
      rw [isEffective, isEffective, folded.isJump, folded.isJumpIf]
      rfl
    · rw [isEffective, isEffective, Graph.op, Graph.op, (Vertex.body_eq_iff.mp (folded.others isV).1).op]
  ways {u} _ extra := by
    refine (folded.others ?_).2
    rintro rfl
    simp [isEffective, folded.isJumpIf, Op.info] at extra
  cached := routed.cached.later folded.reach folded.epoch

/-- The jump goes where the constant sent it. -/
theorem choice {s : Machine V} (at_v : s.vertex = v) : (g.succs v)[g.choice m s]? = some taken := by
  obtain ⟨x, c, thenTo, elseTo, arg, value, succs, rfl⟩ := folded.decides
  subst at_v
  rw [Graph.choice, getD_operands arg value, m.truthy_literal, succs, folded.isJumpIf]
  cases c.truthy <;> rfl

/-- The jump itself can still be reached. -/
theorem reachable_self (reached : Reachable g.succs g.entry v) : Reachable h.succs h.entry v := by
  obtain ⟨past, trail, first⟩ := reached.exists_first
  rw [folded.entry]
  refine (trail.mono fun u passed t edge => ?_).reachable
  rwa [(folded.others (by rintro rfl; exact first passed)).2]

theorem sameRuns : SameRuns m arguments g h := by
  refine sameRuns_of_lockstep id folded.entry fun {s} _ => ?_
  by_cases at_v : s.vertex = v
  · have isJump : (h.vertex s.vertex).op = .jump := at_v ▸ folded.isJump
    have isJumpIf : (g.vertex s.vertex).op = .jumpIf := at_v ▸ folded.isJumpIf
    have writing : h.writing m arguments s = g.writing m arguments s := by
      simp only [Graph.writing, computed, isJump, isJumpIf, folded.result_eq]
      rfl
    have stepped : h.step m arguments s = some ⟨taken, h.writing m arguments s ++ s.memory, s.trace⟩ :=
      step_of_isQuiet (by rw [at_v, folded.isJump]; rfl) (at_v ▸ folded.only)
    have stepped' : g.step m arguments s = some ⟨taken, g.writing m arguments s ++ s.memory, s.trace⟩ := by
      have chosen := folded.choice (m := m) at_v
      rw [← at_v] at chosen
      rw [step, chosen]
      simp [showing, isJumpIf]
    exact stepped.trans (by rw [stepped', writing]; rfl)
  · obtain ⟨body, succs⟩ := folded.others at_v
    exact step_of_sameAction (.of_body body) (fun x _ => by rw [var, var, folded.vars]) (by simpa using succs)

end BranchFolded

end Graph

end MiddleEnd
