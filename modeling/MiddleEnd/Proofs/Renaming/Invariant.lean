import MiddleEnd.Proofs.Coherence
import MiddleEnd.Proofs.Expansion
import MiddleEnd.Proofs.PhiPlacement

/-!
The walk that renames the versions of a variable. It visits each vertex once, on the first path that arrives
there, while phis are put into the graph around it. What makes this come out right is that the graph behind the
walk does not change any more: a vertex that was visited keeps its edges and its writes, so the path that the walk
took to it stays a path with the same last version (`Renaming.Grows`).
-/
namespace MiddleEnd

namespace Vertex

variable {v : Vertex} {x y : VarId} {a : Option VarId}

@[simp] theorem succs_addPhiInput : (v.addPhiInput a).succs = v.succs := by
  rw [addPhiInput]; split <;> rfl

@[simp] theorem preds_addPhiInput : (v.addPhiInput a).preds = v.preds := by
  rw [addPhiInput]; split <;> rfl

@[simp] theorem result_addPhiInput : (v.addPhiInput a).result = v.result := by
  rw [addPhiInput]; split <;> rfl

@[simp] theorem op_addPhiInput : (v.addPhiInput a).op = v.op := by
  rw [addPhiInput]; split <;> rfl

@[simp] theorem owned_addPhiInput : (v.addPhiInput a).owned = v.owned := by
  rw [addPhiInput]; split <;> rfl

theorem mem_addPhiInput_of_mem (member : a ∈ v.args) {b : Option VarId} : a ∈ (v.addPhiInput b).args := by
  rw [addPhiInput]
  split
  · exact List.mem_append_left _ member
  · exact member

theorem mem_of_mem_addPhiInput {b : Option VarId} (member : a ∈ (v.addPhiInput b).args) : a ∈ v.args ∨ a = b := by
  rw [addPhiInput] at member
  split at member
  · exact (List.mem_append.mp member).imp_right List.mem_singleton.mp
  · exact .inl member

theorem targets_addPhiInput (isPhi : v.op = .phi) : (v.addPhiInput a).targets = v.targets := by
  rw [targets_of_op (by simp [isPhi]), targets_of_op (by simp [isPhi]), result_addPhiInput]

/-- What is added to a phi is an input afterwards, unless it is the result. -/
theorem mem_addPhiInput_self : some y ∈ (v.addPhiInput (some y)).args ∨ v.result = some y := by
  rw [addPhiInput]
  split
  · exact .inl (by simp)
  · rename_i refused
    by_cases isResult : v.result = some y
    · exact .inr isResult
    · exact .inl (by simpa [takesPhiInput, Ne.symm isResult] using refused)

@[simp] theorem succs_replaceArgs {b : Option VarId} : (v.replaceArgs a b).succs = v.succs := by
  simp only [replaceArgs]
  split
  · split
    · simp [removePhiInput]
    · rfl
  · rfl

@[simp] theorem preds_replaceArgs {b : Option VarId} : (v.replaceArgs a b).preds = v.preds := by
  simp only [replaceArgs]
  split
  · split
    · simp [removePhiInput]
    · rfl
  · rfl

@[simp] theorem op_replaceArgs {b : Option VarId} : (v.replaceArgs a b).op = v.op := by
  simp only [replaceArgs]
  split
  · split
    · simp [removePhiInput]
    · rfl
  · rfl

/-- Replacing an operand of anything but a phi puts the new one in each of its places. -/
theorem replaceArgs_of_op {b : Option VarId} (ordinary : v.op ≠ .phi) :
    v.replaceArgs a b = { v with args := v.args.map fun c => if c = a then b else c } := by
  rw [replaceArgs]
  split
  · rfl
  · rename_i unchanged
    have same : v.args.map (fun c => if c = a then b else c) = v.args := by
      rw [List.map_congr_left (g := id) ?_, List.map_id]
      intro c member
      by_cases here : c = a
      · subst here
        simp only [changesArgs, Bool.and_eq_true, bne_iff_ne, List.contains_iff_mem, not_and] at unchanged
        by_cases equal : c = b
        · simp [equal]
        · exact absurd member (unchanged equal)
      · simp [here]
    rw [same]

end Vertex

/-! ### What the walk keeps true -/

/-- The variables that stand for `x` once `g` was split: itself and everything new. -/
def Graph.isVersion (g : Graph) (x y : VarId) : Bool :=
  y = x || g.vars.size ≤ y

theorem Graph.isVersion_iff {g : Graph} {x y : VarId} : g.isVersion x y = true ↔ y = x ∨ g.vars.size ≤ y := by
  simp [isVersion]

/-- The version that a frame brings along, if one was written on its way. -/
def RenameFrame.carried (f : RenameFrame) : Option VarId :=
  if f.defined then some f.value else none

/-- Puts `y` in place of `x`. -/
def renameTo (x y : VarId) (a : Option VarId) : Option VarId :=
  if a = some x then some y else a

namespace Renaming

/-- A variable that can be split: no phi has to do with it yet, and its phis are placed. -/
structure Splitting (g : Graph) (x : VarId) (labels : List VertexId) : Prop where
  sound : g.Sound
  inScope : g.Scoped
  known : x < g.vars.size
  noPhi : ∀ v ∈ g.listed, g.op v = .phi → (g.vertex v).references (some x) = false
  placed : g.Placed x labels

/-- Nothing will happen to the edges and writes of this vertex any more. -/
def Settled (s : Renaming) (v : VertexId) : Prop :=
  v < s.graph.store.size ∧ v ∉ s.unvisited

/-- A new phi, and the label that it stands behind. -/
structure PhiPlaced (g : Graph) (x : VarId) (s : Renaming) (l phi : VertexId) : Prop where
  new : g.store.size ≤ phi
  inside : phi < s.graph.store.size
  label : (s.graph.vertex l).core = { g.vertex l with succs := [phi] }.core
  op : s.graph.op phi = .phi
  owned : s.graph.contains phi = true
  succs : s.graph.succs phi = g.succs l
  result : ∃ r, (s.graph.vertex phi).result = some r ∧ g.vars.size ≤ r
  args : ∀ a ∈ (s.graph.vertex phi).args, ∃ y, a = some y ∧ g.isVersion x y = true
  param : some x ∈ (s.graph.vertex phi).args → some x ∈ g.params

/-- A new phi writes one new version. -/
theorem PhiPlaced.exists_target {g : Graph} {x : VarId} {s : Renaming} {l phi : VertexId}
    (placed : PhiPlaced g x s l phi) :
    ∃ r, (s.graph.vertex phi).result = some r ∧ (s.graph.vertex phi).targets = [r] ∧ g.vars.size ≤ r := by
  obtain ⟨r, result, fresh⟩ := placed.result
  have isPhi : (s.graph.vertex phi).op = .phi := placed.op
  exact ⟨r, result, by rw [Vertex.targets_of_op (by simp [isPhi]), result]; rfl, fresh⟩

/-- `h` has everything that `g` has, further listed vertices, and further variables that are copies of `x`. -/
structure Extended (g : Graph) (x : VarId) (h : Graph) : Prop where
  entry : h.entry = g.entry
  exit : h.exit = g.exit
  size : g.store.size ≤ h.store.size
  listed : ∀ {v}, v ∈ h.listed ↔ v ∈ g.listed ∨ g.store.size ≤ v ∧ v < h.store.size
  wired : h.Wired
  vars : g.vars.size ≤ h.vars.size
  oldVar : ∀ {y}, y < g.vars.size → h.var y = g.var y
  newVar : ∀ {y}, g.vars.size ≤ y → y < h.vars.size →
    h.var y = { name := (g.var x).name, type := some ((g.var x).type.getD .unknown) }
  inScope : h.Scoped
  epoch : g.epoch ≤ h.epoch
  reach : h.reach = g.reach

/-- What is listed and was there before was listed before. -/
theorem Extended.mem_old {g h : Graph} {x : VarId} {v : VertexId} (ext : Extended g x h) (listed : v ∈ h.listed)
    (old : v < g.store.size) : v ∈ g.listed := by
  rcases ext.listed.mp listed with member | ⟨new, _⟩
  · exact member
  · exact absurd old (Nat.not_lt.mpr new)

/-- Where the walk is with its labels and phis. -/
structure Layout (g : Graph) (x : VarId) (labels : List VertexId) (s : Renaming) : Prop
    extends Extended g x s.graph where
  sameEpoch : s.graph.epoch = g.epoch → s.phis = []
  pending : ∀ {l}, l ∈ s.pending → l ∈ labels ∧ l ∈ s.unvisited
  marked : ∀ {l}, l ∈ labels → l ∈ s.pending ∨ ∃ phi, s.phis.lookup l = some phi
  phi : ∀ {l phi}, s.phis.lookup l = some phi → l ∈ labels ∧ s.Settled l ∧ PhiPlaced g x s l phi
  new : ∀ {v}, g.store.size ≤ v → v < s.graph.store.size → ∃ l, s.phis.lookup l = some v
  untouched : ∀ {u}, u < g.store.size → u ∈ s.unvisited → (s.graph.vertex u).core = (g.vertex u).core

/-- A visited vertex of the original graph: its reads of `x` name the version that arrived, and a write of `x` has
become one of a new variable. -/
structure Renamed (g h : Graph) (x : VarId) (u : VertexId) (arriving : Option VarId) : Prop where
  core : ∃ r, (h.vertex u).core =
    { g.vertex u with args := (g.vertex u).args.map (renameTo x (arriving.getD x)), result := r }.core ∧
    (if (g.vertex u).result = some x then ∃ y, r = some y ∧ g.vars.size ≤ y else r = (g.vertex u).result)

/-- What arrived at `t` is taken care of: `t` was visited, and its phi knows the version. -/
def Done (s : Renaming) (t : VertexId) (arriving : Option VarId) : Prop :=
  s.Settled t ∧ ∀ phi, s.phis.lookup t = some phi → ∀ w, arriving = some w →
    some w ∈ (s.graph.vertex phi).args ∨ (s.graph.vertex phi).result = some w

/-- What arrived at `t` waits on the stack, or is taken care of. -/
def Arrived (s : Renaming) (stack : List RenameFrame) (t : VertexId) (arriving : Option VarId) : Prop :=
  (∃ f ∈ stack, f.vertex = t ∧ f.carried = arriving) ∨ s.Done t arriving

/-- A path through settled vertices. -/
def SettledTrail (g : Graph) (s : Renaming) (past : List VertexId) (v : VertexId) : Prop :=
  Trail s.graph.succs g.entry past v ∧ ∀ p ∈ past, s.Settled p

/-- The version that counts at `v` on a path: at the entry and at a new phi what they write is counted in. -/
def arrivingAt (g : Graph) (x : VarId) (h : Graph) (past : List VertexId) (v : VertexId) : Option VarId :=
  if v = g.entry ∨ g.store.size ≤ v then h.latest (g.isVersion x) (past ++ [v]) else h.latest (g.isVersion x) past

/-- A frame carries the last version of some path to its vertex. -/
structure FrameOk (g : Graph) (x : VarId) (s : Renaming) (f : RenameFrame) : Prop where
  path : ∃ past, SettledTrail g s past f.vertex ∧ arrivingAt g x s.graph past f.vertex = f.carried
  undefined : f.defined = false → f.value = x
  version : g.isVersion x f.value = true
  inside : f.value < s.graph.vars.size
  param : f.defined = true → f.value = x → some x ∈ g.params

/-- A visited vertex was visited on some path, and all its successors heard of it. -/
structure Visited (g : Graph) (x : VarId) (s : Renaming) (stack : List RenameFrame) (u : VertexId)
    (past : List VertexId) : Prop where
  trail : SettledTrail g s past u
  renamed : u < g.store.size → Renamed g s.graph x u (s.graph.latest (g.isVersion x) past)
  onward : ∀ t ∈ s.graph.succs u, s.Arrived stack t (s.graph.latest (g.isVersion x) (past ++ [u]))

/-- Each new variable is written by one vertex. -/
def FreshOnce (g h : Graph) : Prop :=
  ∀ u ∈ h.listed, ∀ v ∈ h.listed, ∀ y, g.vars.size ≤ y →
    y ∈ (h.vertex u).targets → y ∈ (h.vertex v).targets → u = v

/-- One vertex may come to write a variable that was not there before. -/
theorem FreshOnce.update {g h h' : Graph} (once : FreshOnce g h) (inScope : h.Scoped) (n : VertexId)
    (others : ∀ v ∈ h'.listed, v ≠ n → v ∈ h.listed ∧ (h'.vertex v).targets = (h.vertex v).targets)
    (fresh : ∀ y ∈ (h'.vertex n).targets, h.vars.size ≤ y) : FreshOnce g h' := by
  have apart {v y} (member : v ∈ h'.listed) (other : v ≠ n) (writes : y ∈ (h'.vertex v).targets)
      (new : y ∈ (h'.vertex n).targets) : False := by
    obtain ⟨listed, same⟩ := others v member other
    have below := inScope v listed y (Vertex.references_of_mem_targets (same ▸ writes))
    exact Nat.not_lt.mpr (fresh y new) below
  intro u member v member' y new writes writes'
  by_cases atU : u = n
  · by_cases atV : v = n
    · rw [atU, atV]
    · exact (apart member' atV writes' (atU ▸ writes)).elim
  · by_cases atV : v = n
    · exact (apart member atU writes (atV ▸ writes')).elim
    · obtain ⟨listed, same⟩ := others u member atU
      obtain ⟨listed', same'⟩ := others v member' atV
      exact once u listed v listed' y new (same ▸ writes) (same' ▸ writes')

/-- What the walk keeps true. -/
structure WalkInvariant (g : Graph) (x : VarId) (labels : List VertexId) (s : Renaming) (stack : List RenameFrame) :
    Prop where
  layout : Layout g x labels s
  frames : ∀ f ∈ stack, FrameOk g x s f
  root : ∃ arriving, s.Arrived stack g.entry arriving
  phis : ∀ {l phi}, s.phis.lookup l = some phi → ∃ arriving, s.Arrived stack phi arriving
  visited : ∀ u, s.Settled u → s.phis.lookup u = none → ∃ past, Visited g x s stack u past
  writers : FreshOnce g s.graph

/-! ### The graph behind the walk does not change -/

/-- What no step of the walk takes back. -/
structure Grows (g : Graph) (s s' : Renaming) : Prop where
  settled : ∀ {v}, s.Settled v → s'.Settled v
  core : ∀ {v}, s.Settled v → v < g.store.size → (s'.graph.vertex v).core = (s.graph.vertex v).core
  succs : ∀ {v}, s.Settled v → s'.graph.succs v = s.graph.succs v
  targets : ∀ {v}, s.Settled v ∨ v = g.entry ∨ g.store.size ≤ v ∧ v < s.graph.store.size →
    (s'.graph.vertex v).targets = (s.graph.vertex v).targets
  vars : s.graph.vars.size ≤ s'.graph.vars.size
  lookup : ∀ {l phi}, s.phis.lookup l = some phi → s'.phis.lookup l = some phi
  noLookup : ∀ {v}, s.Settled v → s.phis.lookup v = none → s'.phis.lookup v = none
  inputs : ∀ {l phi a}, s.phis.lookup l = some phi → a ∈ (s.graph.vertex phi).args → a ∈ (s'.graph.vertex phi).args
  results : ∀ {l phi}, s.phis.lookup l = some phi → (s'.graph.vertex phi).result = (s.graph.vertex phi).result

namespace Grows

variable {g : Graph} {x : VarId} {s s' : Renaming} {stack : List RenameFrame} {past : List VertexId} {u v : VertexId}
  {c : Option VarId}

theorem refl : Grows g s s :=
  ⟨id, fun _ _ => rfl, fun _ => rfl, fun _ => rfl, Nat.le_refl _, id, fun _ => id, fun _ => id, fun _ => rfl⟩

theorem settledTrail (grows : Grows g s s') (trail : SettledTrail g s past v) : SettledTrail g s' past v :=
  ⟨trail.1.mono fun p member t edge => by rwa [grows.succs (trail.2 p member)],
    fun p member => grows.settled (trail.2 p member)⟩

theorem latest (grows : Grows g s s') (settled : ∀ p ∈ past, s.Settled p) :
    s'.graph.latest (g.isVersion x) past = s.graph.latest (g.isVersion x) past := by
  rw [Graph.latest, Graph.latest, Graph.written_congr fun p member => grows.targets (.inl (settled p member))]

theorem done (grows : Grows g s s') (done : s.Done v c) : s'.Done v c := by
  refine ⟨grows.settled done.1, fun phi found w is => ?_⟩
  cases before : s.phis.lookup v with
  | none => rw [grows.noLookup done.1 before] at found; simp at found
  | some phi' =>
    obtain rfl : phi' = phi := by rw [grows.lookup before] at found; simpa using found
    rcases done.2 phi' before w is with input | result
    · exact .inl (grows.inputs before input)
    · exact .inr (by rw [grows.results before, result])

theorem renamed (grows : Grows g s s') (settled : s.Settled u) (old : u < g.store.size)
    (renamed : Renamed g s.graph x u c) : Renamed g s'.graph x u c := by
  obtain ⟨r, core, result⟩ := renamed.core
  exact ⟨r, by rw [grows.core settled old, core], result⟩

/-- A frame below the top of the stack stays a good one. -/
theorem frameOk (grows : Grows g s s') {f : RenameFrame} (inside : f.vertex < s.graph.store.size)
    (ok : FrameOk g x s f) : FrameOk g x s' f := by
  obtain ⟨past, trail, carries⟩ := ok.path
  refine ⟨⟨past, grows.settledTrail trail, ?_⟩, ok.undefined, ok.version,
    Nat.lt_of_lt_of_le ok.inside grows.vars, ok.param⟩
  rw [← carries, arrivingAt, arrivingAt]
  split
  · rename_i special
    rw [Graph.latest_concat, Graph.latest_concat, grows.latest trail.2,
      grows.targets (.inr (special.imp_right fun new => ⟨new, inside⟩))]
  · exact grows.latest trail.2

end Grows

section
variable {g : Graph} {x : VarId} {labels : List VertexId} {s s' : Renaming} {f : RenameFrame}
  {stack : List RenameFrame} {past : List VertexId} {u v : VertexId}

theorem Layout.reachable (layout : Layout g x labels s) (trail : SettledTrail g s past v) :
    Reachable s.graph.succs s.graph.entry v := by
  rw [layout.entry]
  exact trail.1.reachable

theorem Layout.lt (layout : Layout g x labels s) (trail : SettledTrail g s past v) : v < s.graph.store.size :=
  layout.wired.lt_of_reachable (layout.reachable trail)

/-- A frame is taken from the stack: what it brought is taken care of, and `more` takes its place. -/
theorem WalkInvariant.advance (inv : WalkInvariant g x labels s (f :: stack)) (more : List RenameFrame) (grows : Grows g s s')
    (layout : Layout g x labels s') (done : s'.Done f.vertex f.carried) (frames : ∀ f ∈ more, FrameOk g x s' f)
    (phis : ∀ {l phi}, s'.phis.lookup l = some phi → s.phis.lookup l = none →
      ∃ arriving, s'.Arrived (more ++ stack) phi arriving)
    (visited : ∀ u, s'.Settled u → ¬ s.Settled u → s'.phis.lookup u = none →
      ∃ past, Visited g x s' (more ++ stack) u past)
    (writers : FreshOnce g s'.graph) : WalkInvariant g x labels s' (more ++ stack) := by
  have arrived {t : VertexId} {c : Option VarId} (before : s.Arrived (f :: stack) t c) :
      s'.Arrived (more ++ stack) t c := by
    rcases before with ⟨f', member, rfl, rfl⟩ | finished
    · rcases List.mem_cons.mp member with rfl | below
      · exact .inr done
      · exact .inl ⟨f', List.mem_append_right _ below, rfl, rfl⟩
    · exact .inr (grows.done finished)
  refine ⟨layout, ?_, ?_, ?_, ?_, writers⟩
  · intro f' member
    rcases List.mem_append.mp member with new | below
    · exact frames f' new
    · have ok := inv.frames f' (List.mem_cons_of_mem _ below)
      obtain ⟨past, trail, _⟩ := ok.path
      exact grows.frameOk (inv.layout.lt trail) ok
  · obtain ⟨c, before⟩ := inv.root
    exact ⟨c, arrived before⟩
  · intro l phi found
    cases before : s.phis.lookup l with
    | none => exact phis found before
    | some phi' =>
      obtain rfl : phi' = phi := by rw [grows.lookup before] at found; simpa using found
      obtain ⟨c, waiting⟩ := inv.phis before
      exact ⟨c, arrived waiting⟩
  · intro u settled noPhi
    by_cases before : s.Settled u
    · have noPhiBefore : s.phis.lookup u = none := by
        cases found : s.phis.lookup u with
        | none => rfl
        | some phi => rw [grows.lookup found] at noPhi; simp at noPhi
      obtain ⟨past, ok⟩ := inv.visited u before noPhiBefore
      refine ⟨past, grows.settledTrail ok.trail, fun old => ?_, fun t edge => ?_⟩
      · rw [grows.latest ok.trail.2]
        exact grows.renamed before old (ok.renamed old)
      · rw [grows.latest (by simpa [or_imp, forall_and] using ⟨ok.trail.2, before⟩)]
        exact arrived (ok.onward t (grows.succs before ▸ edge))
    · exact visited u settled before noPhi

/-- A frame for a vertex that was visited before is dropped. -/
theorem WalkInvariant.skip (inv : WalkInvariant g x labels s (f :: stack)) (noPhi : s.phis.lookup f.vertex = none)
    (old : f.vertex ∉ s.unvisited) : WalkInvariant g x labels s stack := by
  obtain ⟨past, trail, _⟩ := (inv.frames f List.mem_cons_self).path
  have done : s.Done f.vertex f.carried := ⟨⟨inv.layout.lt trail, old⟩, by simp [noPhi]⟩
  exact inv.advance [] .refl inv.layout done (by simp) (fun found none => by simp [none] at found)
    (fun u settled before => absurd settled before) inv.writers

end

end Renaming

end MiddleEnd
