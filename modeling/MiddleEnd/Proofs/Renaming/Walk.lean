import MiddleEnd.Proofs.Renaming.Invariant

/-!
The steps of the renaming walk keep its invariant: a phi is put behind a label, gets a further input, or a vertex is
visited. So the walk ends with every path taken care of (`Renaming.walkInvariant_walk`).
-/
namespace MiddleEnd

namespace Renaming

section
variable {g : Graph} {x : VarId} {labels : List VertexId} {s s' : Renaming} {f : RenameFrame}
  {stack : List RenameFrame} {past : List VertexId} {u v : VertexId}

/-! ### A further input of a phi -/

theorem Splitting.label_lt (split : Splitting g x labels) {l : VertexId} (member : l ∈ labels) : l < g.store.size :=
  split.sound.wired.lt_of_reachable (split.placed.reachable l member)

/-- An operand after a phi got a further input was there before, or is that input. -/
theorem mem_args_addInput {h : Graph} {phi : VertexId} {a b : Option VarId} (inside : phi < h.store.size)
    (member : a ∈ ((h.modifyVertex phi (·.addPhiInput b)).vertex v).args) : a ∈ (h.vertex v).args ∨ a = b := by
  by_cases isPhi : v = phi
  · subst isPhi
    rw [Graph.vertex_modifyVertex_self inside] at member
    exact Vertex.mem_of_mem_addPhiInput member
  · rw [Graph.vertex_modifyVertex_of_ne isPhi] at member
    exact .inl member

theorem Layout.addInput (split : Splitting g x labels) (layout : Layout g x labels s) {l phi : VertexId} {y : VarId}
    (found : s.phis.lookup l = some phi) (version : g.isVersion x y = true) (inside : y < s.graph.vars.size)
    (param : y = x → some x ∈ g.params) :
    Layout g x labels { s with graph := s.graph.modifyVertex phi (·.addPhiInput (some y)) } := by
  have placed := (layout.phi found).2.2
  have old {v : VertexId} (lt : v < g.store.size) : v ≠ phi := Nat.ne_of_lt (Nat.lt_of_lt_of_le lt placed.new)
  have kept {α : Type} (field : Vertex → α) (same : ∀ w, field (Vertex.addPhiInput w (some y)) = field w) :=
    Graph.congr_modifyVertex (g := s.graph) (v := phi) field same
  refine { layout with
    size := by simpa using layout.size
    listed := fun {v} => by simpa using layout.listed (v := v)
    wired := layout.wired.modifyVertex (by simp) (by simp)
    inScope := ?_
    phi := ?_
    new := fun {v} => by simpa using layout.new (v := v)
    untouched := ?_ }
  · intro v member z mentions
    rcases Vertex.references_iff.mp mentions with result | arg
    · rw [kept Vertex.result (by simp) v] at result
      exact layout.inScope v member z (Vertex.references_iff.mpr (.inl result))
    · rcases mem_args_addInput placed.inside arg with earlier | same
      · exact layout.inScope v member z (Vertex.references_iff.mpr (.inr earlier))
      · exact Option.some.inj same ▸ inside
  · intro l' phi' found'
    obtain ⟨isLabel, settled, placed'⟩ := layout.phi found'
    refine ⟨isLabel, by simpa [Settled] using settled, ?_⟩
    refine ⟨placed'.new, by simpa using placed'.inside, ?_, ?_, ?_, ?_, ?_, ?_, ?_⟩
    · rw [Graph.vertex_modifyVertex_of_ne (old (split.label_lt isLabel))]
      exact placed'.label
    · exact (kept Vertex.op (by simp) phi').trans placed'.op
    · exact (kept Vertex.owned (by simp) phi').trans placed'.owned
    · exact (kept Vertex.succs (by simp) phi').trans placed'.succs
    · obtain ⟨r, result, fresh⟩ := placed'.result
      exact ⟨r, (kept Vertex.result (by simp) phi').trans result, fresh⟩
    · intro a member
      rcases mem_args_addInput placed.inside member with earlier | same
      · exact placed'.args a earlier
      · exact ⟨y, same, version⟩
    · intro member
      rcases mem_args_addInput placed.inside member with earlier | same
      · exact placed'.param earlier
      · exact param (Option.some.inj same).symm
  · intro u lt unvisited
    rw [Graph.vertex_modifyVertex_of_ne (old lt)]
    exact layout.untouched lt unvisited

theorem PhiPlaced.targets_addInput {l phi : VertexId} {a : Option VarId} (placed : PhiPlaced g x s l phi) (v : VertexId) :
    ((s.graph.modifyVertex phi (·.addPhiInput a)).vertex v).targets = (s.graph.vertex v).targets := by
  by_cases isPhi : v = phi
  · subst isPhi
    rw [Graph.vertex_modifyVertex_self placed.inside, Vertex.targets_addPhiInput placed.op]
  · rw [Graph.vertex_modifyVertex_of_ne isPhi]

theorem Grows.addInput (layout : Layout g x labels s) {l phi : VertexId} {a : Option VarId}
    (found : s.phis.lookup l = some phi) :
    Grows g s { s with graph := s.graph.modifyVertex phi (·.addPhiInput a) } := by
  have placed := (layout.phi found).2.2
  have kept {α : Type} (field : Vertex → α) (same : ∀ w, field (Vertex.addPhiInput w a) = field w) :=
    Graph.congr_modifyVertex (g := s.graph) (v := phi) field same
  refine ⟨fun settled => by simpa [Settled] using settled, fun _ old => ?_, fun _ => kept Vertex.succs (by simp) _,
    fun _ => placed.targets_addInput _, Nat.le_refl _, id, fun _ => id, ?_, fun _ => kept Vertex.result (by simp) _⟩
  · rw [Graph.vertex_modifyVertex_of_ne (Nat.ne_of_lt (Nat.lt_of_lt_of_le old placed.new))]
  · intro l' phi' b found' member
    by_cases isPhi : phi' = phi
    · subst isPhi
      rw [Graph.vertex_modifyVertex_self placed.inside]
      exact Vertex.mem_addPhiInput_of_mem member
    · rwa [Graph.vertex_modifyVertex_of_ne isPhi]

/-- What arrives at a label with a phi becomes an input of the phi. -/
theorem WalkInvariant.join (split : Splitting g x labels) (inv : WalkInvariant g x labels s (f :: stack))
    {phi : VertexId} (found : s.phis.lookup f.vertex = some phi) :
    WalkInvariant g x labels
      { s with graph := if f.defined then s.graph.modifyVertex phi (·.addPhiInput (some f.value)) else s.graph }
      stack := by
  obtain ⟨isLabel, settled, placed⟩ := inv.layout.phi found
  have ok := inv.frames f List.mem_cons_self
  cases defined : f.defined with
  | false =>
    refine inv.advance [] .refl inv.layout ⟨settled, ?_⟩ (by simp) (fun found none => by simp [none] at found)
      (fun u settled before => absurd settled before) inv.writers
    simp [RenameFrame.carried, defined]
  | true =>
    refine inv.advance [] (.addInput inv.layout found) (inv.layout.addInput split found ok.version ok.inside (ok.param defined))
      ⟨by simpa [Settled] using settled, ?_⟩ (by simp) (fun found none => by simp [none] at found)
      (fun u now before => ?_) ?_
    · intro phi' found' w carried
      obtain rfl : phi = phi' := by simpa [found] using found'
      obtain rfl : f.value = w := by simpa [RenameFrame.carried, defined] using carried
      simp only [↓reduceIte, Graph.vertex_modifyVertex_self placed.inside, Vertex.result_addPhiInput]
      exact Vertex.mem_addPhiInput_self
    · exact absurd (by simpa [Settled] using now) before
    · simp only [FreshOnce, ↓reduceIte, placed.targets_addInput]
      exact inv.writers

/-! ### A new phi -/

/-- The phi that is made for a frame, before it gets its place. -/
def withPhi (s : Renaming) (x : VarId) (f : RenameFrame) : Graph :=
  let g := (s.graph.addVar (s.graph.var x).name (s.graph.var x).type).addVertex .phi (some s.graph.vars.size) []
  if f.defined then g.modifyVertex s.graph.store.size (·.addPhiInput (some f.value)) else g

theorem graph_placePhi : (s.placePhi x f).1.graph = (s.withPhi x f).insertAfter f.vertex s.graph.store.size := rfl

@[simp] theorem size_withPhi : (s.withPhi x f).store.size = s.graph.store.size + 1 := by
  rw [withPhi]; split <;> simp

@[simp] theorem listed_withPhi : (s.withPhi x f).listed = s.graph.listed ++ [s.graph.store.size] := by
  rw [withPhi]; split <;> simp

@[simp] theorem entry_withPhi : (s.withPhi x f).entry = s.graph.entry := by
  rw [withPhi]; split <;> simp

@[simp] theorem exit_withPhi : (s.withPhi x f).exit = s.graph.exit := by
  rw [withPhi]; split <;> simp

@[simp] theorem epoch_withPhi : (s.withPhi x f).epoch = s.graph.epoch + 1 := by
  rw [withPhi]; split <;> simp

@[simp] theorem reach_withPhi : (s.withPhi x f).reach = s.graph.reach := by
  rw [withPhi]; split <;> simp

@[simp] theorem vars_withPhi :
    (s.withPhi x f).vars = (s.graph.addVar (s.graph.var x).name (s.graph.var x).type).vars := by
  rw [withPhi]; split <;> simp

theorem vertex_withPhi_of_ne (old : v ≠ s.graph.store.size) : (s.withPhi x f).vertex v = s.graph.vertex v := by
  rw [withPhi]
  split
  · rw [Graph.vertex_modifyVertex_of_ne old]
    exact Graph.vertex_addVertex_of_ne old
  · exact Graph.vertex_addVertex_of_ne old

theorem vertex_withPhi_new (apart : f.value < s.graph.vars.size) :
    (s.withPhi x f).vertex s.graph.store.size =
      { op := .phi, result := some s.graph.vars.size, args := f.carried.toList.map some, owned := true } := by
  have other : f.value ≠ s.graph.vars.size := Nat.ne_of_lt apart
  have new : ((s.graph.addVar (s.graph.var x).name (s.graph.var x).type).addVertex .phi (some s.graph.vars.size)
      []).vertex s.graph.store.size = { op := .phi, result := some s.graph.vars.size, owned := true } :=
    Graph.vertex_addVertex_new
  rw [withPhi]
  split
  · rename_i defined
    rw [Graph.vertex_modifyVertex_self (by simp), new]
    simp [Vertex.addPhiInput, Vertex.takesPhiInput, RenameFrame.carried, defined, other]
  · rename_i undefined
    rw [new]
    simp [RenameFrame.carried, undefined]

section placePhi
variable (inside : f.vertex < s.graph.store.size)
include inside

theorem core_placePhi_new (apart : f.value < s.graph.vars.size) :
    ((s.placePhi x f).1.graph.vertex s.graph.store.size).core =
      { op := .phi, result := some s.graph.vars.size, args := f.carried.toList.map some,
        succs := s.graph.succs f.vertex, owned := true : Vertex }.core := by
  have other := Nat.ne_of_lt inside
  rw [graph_placePhi, Graph.core_insertAfter_new (by simpa using Nat.lt_succ_of_lt inside) (by simp) other,
    vertex_withPhi_new apart, Graph.succs, vertex_withPhi_of_ne other]
  rfl

theorem core_placePhi_label : ((s.placePhi x f).1.graph.vertex f.vertex).core =
    { s.graph.vertex f.vertex with succs := [s.graph.store.size] }.core := by
  have other := Nat.ne_of_lt inside
  rw [graph_placePhi, Graph.core_insertAfter_old (by simpa using Nat.lt_succ_of_lt inside) (by simp) other,
    vertex_withPhi_of_ne other]

theorem core_placePhi_of_ne (notLabel : v ≠ f.vertex) (notNew : v ≠ s.graph.store.size) :
    ((s.placePhi x f).1.graph.vertex v).core = (s.graph.vertex v).core := by
  rw [graph_placePhi, Graph.core_insertAfter_of_ne (by simpa using Nat.lt_succ_of_lt inside) (by simp)
    (Nat.ne_of_lt inside) notLabel notNew, vertex_withPhi_of_ne notNew]

theorem wired_placePhi (wired : s.graph.Wired) (member : f.vertex ∈ s.graph.listed) (apart : f.value < s.graph.vars.size) :
    (s.placePhi x f).1.graph.Wired := by
  have built : (s.withPhi x f).Wired := by
    rw [withPhi]
    split
    · exact wired.addVar.addVertex.modifyVertex (by simp) (by simp)
    · exact wired.addVar.addVertex
  rw [graph_placePhi]
  refine built.insertAfter (by simp [member]) (by simp) (Nat.ne_of_lt inside) ?_ ?_
  · rw [Graph.succs, vertex_withPhi_new apart]
  · rw [Graph.preds, vertex_withPhi_new apart]

end placePhi

/-- Only the label, the phi and the number of vertices matter. -/
theorem PhiPlaced.congr {l phi : VertexId} (placed : PhiPlaced g x s l phi)
    (size : s.graph.store.size ≤ s'.graph.store.size)
    (label : (s'.graph.vertex l).core = (s.graph.vertex l).core)
    (same : (s'.graph.vertex phi).core = (s.graph.vertex phi).core) : PhiPlaced g x s' l phi := by
  obtain ⟨op, _, _, result, args, succs, owned⟩ := Vertex.core_eq_iff.mp same
  refine ⟨placed.new, Nat.lt_of_lt_of_le placed.inside size, label.trans placed.label, op.trans placed.op,
    owned.trans placed.owned, succs.trans placed.succs, ?_, ?_, ?_⟩
  · rw [result]
    exact placed.result
  · rw [args]
    exact placed.args
  · rw [args]
    exact placed.param

/-- Only labels have phis, and only after they were visited. -/
theorem Layout.lookup_eq_none (layout : Layout g x labels s) (later : v ∈ labels → v ∈ s.unvisited) :
    s.phis.lookup v = none := by
  cases found : s.phis.lookup v with
  | none => rfl
  | some phi =>
    obtain ⟨isLabel, settled, _⟩ := layout.phi found
    exact absurd (later isLabel) settled.2

theorem lookup_placePhi (t : VertexId) : (s.placePhi x f).1.phis.lookup t =
    if t = f.vertex then some s.graph.store.size else s.phis.lookup t := by
  show List.lookup t ((f.vertex, s.graph.store.size) :: s.phis) = _
  by_cases same : t = f.vertex
  · simp [same]
  · rw [List.lookup_cons, show (t == f.vertex) = false by simpa using same, if_neg same]

theorem settled_placePhi (inside : f.vertex < s.graph.store.size) :
    (s.placePhi x f).1.Settled v ↔ s.Settled v ∨ v = f.vertex := by
  have size : (s.placePhi x f).1.graph.store.size = s.graph.store.size + 1 := by simp [graph_placePhi]
  show v < (s.placePhi x f).1.graph.store.size ∧ v ∉ (s.unvisited.erase f.vertex).insert s.graph.store.size ↔
    (v < s.graph.store.size ∧ v ∉ s.unvisited) ∨ v = f.vertex
  rw [size, VertexSet.mem_insert, VertexSet.mem_erase, Nat.lt_succ_iff_lt_or_eq]
  have other := Nat.ne_of_lt inside
  grind

theorem Extended.placePhi (split : Splitting g x labels) (ext : Extended g x s.graph)
    (member : f.vertex ∈ s.graph.listed) (apart : f.value < s.graph.vars.size) :
    Extended g x (s.placePhi x f).1.graph := by
  have inside : f.vertex < s.graph.store.size := ext.wired.listed_lt f.vertex member
  have size : (s.placePhi x f).1.graph.store.size = s.graph.store.size + 1 := by simp [graph_placePhi]
  have vars : (s.placePhi x f).1.graph.vars.size = s.graph.vars.size + 1 := by simp [graph_placePhi]
  have var (y : VarId) : (s.placePhi x f).1.graph.var y =
      if y = s.graph.vars.size then { name := (s.graph.var x).name, type := some ((s.graph.var x).type.getD .unknown) }
      else s.graph.var y := by
    rw [← Graph.var_addVar]
    simp [graph_placePhi, Graph.var]
  refine {
    entry := by simpa [graph_placePhi] using ext.entry
    exit := by simpa [graph_placePhi] using ext.exit
    size := by rw [size]; exact Nat.le_succ_of_le ext.size
    listed := ?_
    wired := wired_placePhi inside ext.wired member apart
    vars := by rw [vars]; exact Nat.le_succ_of_le ext.vars
    oldVar := ?_
    newVar := ?_
    inScope := ?_
    epoch := by simpa [graph_placePhi] using Nat.le_add_right_of_le (k := 2) ext.epoch
    reach := by simpa [graph_placePhi] using ext.reach }
  · intro v
    have listed : (s.placePhi x f).1.graph.listed = s.graph.listed ++ [s.graph.store.size] := by simp [graph_placePhi]
    rw [listed, size, List.mem_append, List.mem_singleton, ext.listed, Nat.lt_succ_iff_lt_or_eq]
    have := ext.size
    grind
  · intro y known
    rw [var, if_neg (Nat.ne_of_lt (Nat.lt_of_lt_of_le known ext.vars))]
    exact ext.oldVar known
  · intro y fresh below
    rw [var]
    split
    · rw [ext.oldVar split.known]
    · rename_i other
      rw [vars] at below
      exact ext.newVar fresh (Nat.lt_of_le_of_ne (Nat.le_of_lt_succ below) other)
  · intro v member' y mentions
    rw [vars]
    by_cases isNew : v = s.graph.store.size
    · subst isNew
      rw [Vertex.references_congr (core_placePhi_new inside apart)] at mentions
      simp only [Vertex.references, Bool.or_eq_true, decide_eq_true_eq, Option.some.injEq, List.contains_iff_mem,
        List.mem_map, Option.mem_toList, exists_eq_right] at mentions
      rcases mentions with rfl | input
      · exact Nat.lt_succ_self _
      · obtain ⟨_, rfl⟩ : f.defined = true ∧ f.value = y := by simpa [RenameFrame.carried] using input
        exact Nat.lt_succ_of_lt apart
    · have listed : v ∈ s.graph.listed := by
        simpa [graph_placePhi, isNew] using member'
      refine Nat.lt_succ_of_lt (ext.inScope v listed y ?_)
      by_cases isLabel : v = f.vertex
      · subst isLabel
        rw [Vertex.references_congr (core_placePhi_label inside)] at mentions
        exact mentions
      · rwa [Vertex.references_congr (core_placePhi_of_ne inside isLabel isNew)] at mentions

/-- The phi that a label gets is in its place, with what the frame carries as its input. -/
theorem Layout.phiPlaced_new (layout : Layout g x labels s) (ok : FrameOk g x s f) (old : f.vertex < g.store.size)
    (unvisited : f.vertex ∈ s.unvisited) : PhiPlaced g x (s.placePhi x f).1 f.vertex s.graph.store.size := by
  have inside : f.vertex < s.graph.store.size := Nat.lt_of_lt_of_le old layout.size
  have same := Vertex.core_eq_iff.mp (layout.untouched old unvisited)
  have made := Vertex.core_eq_iff.mp (core_placePhi_new (x := x) inside ok.inside)
  have carries {y : VarId} (arg : some y ∈ ((s.placePhi x f).1.graph.vertex s.graph.store.size).args) :
      f.defined = true ∧ f.value = y := by
    rw [made.args, List.mem_map] at arg
    obtain ⟨z, carried, isY⟩ := arg
    obtain rfl := Option.some.inj isY
    simpa [RenameFrame.carried] using carried
  refine ⟨layout.size, by simp [graph_placePhi], ?_, made.op, made.owned, made.succs.trans same.succs,
    ⟨_, made.result, layout.vars⟩, ?_, ?_⟩
  · rw [core_placePhi_label inside, Vertex.core_eq_iff]
    exact { same with succs := rfl }
  · intro a arg
    obtain ⟨y, _, rfl⟩ := List.mem_map.mp (made.args ▸ arg)
    obtain ⟨_, rfl⟩ := carries arg
    exact ⟨f.value, rfl, ok.version⟩
  · intro arg
    obtain ⟨defined, isX⟩ := carries arg
    exact ok.param defined isX

theorem Layout.placePhi (split : Splitting g x labels) (layout : Layout g x labels s)
    (ok : FrameOk g x s f) (waits : f.vertex ∈ s.pending) : Layout g x labels (s.placePhi x f).1 := by
  obtain ⟨isLabel, unvisited⟩ := layout.pending waits
  have old : f.vertex < g.store.size := split.label_lt isLabel
  have inside : f.vertex < s.graph.store.size := Nat.lt_of_lt_of_le old layout.size
  have noPhi := layout.lookup_eq_none fun _ => unvisited
  have size : (s.placePhi x f).1.graph.store.size = s.graph.store.size + 1 := by simp [graph_placePhi]
  have notLabel {v : VertexId} (le : g.store.size ≤ v) : v ≠ f.vertex := Nat.ne_of_gt (Nat.lt_of_lt_of_le old le)
  obtain ⟨past, trail, _⟩ := ok.path
  refine { layout.toExtended.placePhi split (layout.wired.listed_of_reachable (layout.reachable trail)) ok.inside with
    sameEpoch := ?_
    pending := ?_
    marked := ?_
    phi := ?_
    new := ?_
    untouched := ?_ }
  · intro same
    have := layout.epoch
    simp only [graph_placePhi, Graph.epoch_insertAfter, epoch_withPhi] at same
    omega
  · intro l waits'
    obtain ⟨waits', other⟩ := VertexSet.mem_erase.mp waits'
    obtain ⟨isLabel', unvisited'⟩ := layout.pending waits'
    exact ⟨isLabel', VertexSet.mem_insert.mpr (.inl (VertexSet.mem_erase.mpr ⟨unvisited', other⟩))⟩
  · intro l isLabel'
    rw [lookup_placePhi]
    by_cases here : l = f.vertex
    · exact .inr ⟨_, if_pos here⟩
    · rw [if_neg here]
      exact (layout.marked isLabel').imp_left fun waits' => VertexSet.mem_erase.mpr ⟨waits', here⟩
  · intro l phi found
    rw [lookup_placePhi] at found
    rw [settled_placePhi inside]
    split at found
    · rename_i here
      subst here
      obtain rfl : s.graph.store.size = phi := by simpa using found
      exact ⟨isLabel, .inr rfl, layout.phiPlaced_new ok old unvisited⟩
    · rename_i other
      obtain ⟨isLabel', settled, placed⟩ := layout.phi found
      refine ⟨isLabel', .inl settled, placed.congr (by rw [size]; exact Nat.le_succ _) ?_ ?_⟩
      · exact core_placePhi_of_ne inside other (Nat.ne_of_lt settled.1)
      · exact core_placePhi_of_ne inside (notLabel placed.new) (Nat.ne_of_lt placed.inside)
  · intro v isNew below
    rw [size] at below
    simp only [lookup_placePhi]
    by_cases last : v = s.graph.store.size
    · exact ⟨f.vertex, by simp [last]⟩
    · obtain ⟨l, found⟩ := layout.new isNew (Nat.lt_of_le_of_ne (Nat.le_of_lt_succ below) last)
      refine ⟨l, ?_⟩
      rw [if_neg, found]
      intro here
      rw [here, noPhi] at found
      simp at found
  · intro u lt unvisited'
    rcases VertexSet.mem_insert.mp unvisited' with erased | isNew
    · obtain ⟨unvisited', other⟩ := VertexSet.mem_erase.mp erased
      rw [core_placePhi_of_ne inside other (Nat.ne_of_lt (Nat.lt_of_lt_of_le lt layout.size))]
      exact layout.untouched lt unvisited'
    · exact absurd lt (Nat.not_lt.mpr (isNew ▸ layout.size))

theorem Grows.placePhi (split : Splitting g x labels) (layout : Layout g x labels s) (waits : f.vertex ∈ s.pending) :
    Grows g s (s.placePhi x f).1 := by
  obtain ⟨isLabel, unvisited⟩ := layout.pending waits
  have old : f.vertex < g.store.size := split.label_lt isLabel
  have inside : f.vertex < s.graph.store.size := Nat.lt_of_lt_of_le old layout.size
  have noPhi := layout.lookup_eq_none fun _ => unvisited
  have other {v : VertexId} (settled : s.Settled v) : v ≠ f.vertex := fun same => settled.2 (same ▸ unvisited)
  have core {v : VertexId} (settled : s.Settled v) :=
    core_placePhi_of_ne (x := x) inside (other settled) (Nat.ne_of_lt settled.1)
  have corePhi {l phi : VertexId} (found : s.phis.lookup l = some phi) :
      ((s.placePhi x f).1.graph.vertex phi).core = (s.graph.vertex phi).core := by
    have placed := (layout.phi found).2.2
    exact core_placePhi_of_ne inside (Nat.ne_of_gt (Nat.lt_of_lt_of_le old placed.new)) (Nat.ne_of_lt placed.inside)
  refine ⟨fun settled => (settled_placePhi inside).mpr (.inl settled), fun settled _ => core settled,
    fun settled => (Vertex.core_eq_iff.mp (core settled)).succs, ?_, by simp [graph_placePhi], ?_, ?_, ?_, ?_⟩
  · intro v known
    apply Vertex.targets_congr
    rcases known with settled | rfl | ⟨isNew, below⟩
    · exact core settled
    · have atEntry : f.vertex ≠ g.entry := by
        intro same
        have isFunction := split.sound.entryOp
        rw [← same, split.placed.label _ isLabel] at isFunction
        simp at isFunction
      have below : g.entry < s.graph.store.size :=
        Nat.lt_of_lt_of_le (split.sound.wired.listed_lt _ split.sound.wired.entry_listed) layout.size
      exact core_placePhi_of_ne inside (Ne.symm atEntry) (Nat.ne_of_lt below)
    · exact core_placePhi_of_ne inside (Nat.ne_of_gt (Nat.lt_of_lt_of_le old isNew)) (Nat.ne_of_lt below)
  · intro l phi found
    rw [lookup_placePhi, if_neg, found]
    exact other (layout.phi found).2.1
  · intro v settled none
    rw [lookup_placePhi, if_neg (other settled), none]
  · intro l phi a found member
    rwa [(Vertex.core_eq_iff.mp (corePhi found)).args]
  · intro l phi found
    exact (Vertex.core_eq_iff.mp (corePhi found)).result

/-- A label that waits for its phi gets it, with what arrived first as its input. -/
theorem WalkInvariant.placePhi (split : Splitting g x labels) (inv : WalkInvariant g x labels s (f :: stack))
    (waits : f.vertex ∈ s.pending) : WalkInvariant g x labels (s.placePhi x f).1 ((s.placePhi x f).2 :: stack) := by
  obtain ⟨isLabel, unvisited⟩ := inv.layout.pending waits
  have old : f.vertex < g.store.size := split.label_lt isLabel
  have inside : f.vertex < s.graph.store.size := Nat.lt_of_lt_of_le old inv.layout.size
  have ok := inv.frames f List.mem_cons_self
  have layout := inv.layout.placePhi split ok waits
  have grows := Grows.placePhi split inv.layout waits
  have coreNew := core_placePhi_new (x := x) inside ok.inside
  have targetsNew : ((s.placePhi x f).1.graph.vertex s.graph.store.size).targets = [s.graph.vars.size] :=
    Vertex.targets_congr coreNew
  have settled : (s.placePhi x f).1.Settled f.vertex := (settled_placePhi inside).mpr (.inr rfl)
  have version : g.isVersion x s.graph.vars.size = true := Graph.isVersion_iff.mpr (.inr inv.layout.vars)
  refine inv.advance [(s.placePhi x f).2] grows layout ⟨settled, ?_⟩ ?_ ?_ ?_ ?_
  · intro phi found w carried
    obtain rfl : s.graph.store.size = phi := by simpa [lookup_placePhi] using found
    rw [(Vertex.core_eq_iff.mp coreNew).args, carried]
    exact .inl (by simp)
  · intro f' member
    rw [List.mem_singleton] at member
    subst member
    obtain ⟨past, trail, _⟩ := ok.path
    have trail := grows.settledTrail trail
    have toPhi : SettledTrail g (s.placePhi x f).1 (past ++ [f.vertex]) s.graph.store.size := by
      refine ⟨trail.1.step ?_, fun p member => ?_⟩
      · rw [Graph.succs, (Vertex.core_eq_iff.mp (core_placePhi_label inside)).succs]
        simp
      · rcases List.mem_append.mp member with earlier | last
        · exact trail.2 p earlier
        · exact List.mem_singleton.mp last ▸ settled
    have known : s.graph.vars.size < (s.placePhi x f).1.graph.vars.size :=
      Nat.lt_of_lt_of_eq (Nat.lt_succ_self _) (by simp [graph_placePhi])
    have defined : (s.placePhi x f).2.defined = true := rfl
    refine ⟨⟨_, toPhi, ?_⟩, fun undefined => absurd (defined.symm.trans undefined) (by simp), version, known,
      fun _ isX => ?_⟩
    · show arrivingAt g x _ _ s.graph.store.size = some s.graph.vars.size
      rw [arrivingAt, if_pos (.inr inv.layout.size), Graph.latest_concat_of_target targetsNew version]
    · exact absurd isX (Nat.ne_of_gt (Nat.lt_of_lt_of_le split.known inv.layout.vars))
  · intro l phi found none
    rw [lookup_placePhi] at found
    split at found
    · obtain rfl : s.graph.store.size = phi := by simpa using found
      exact ⟨_, .inl ⟨(s.placePhi x f).2, by simp, rfl, rfl⟩⟩
    · rw [none] at found
      simp at found
  · intro u now before noPhi
    rcases (settled_placePhi inside).mp now with earlier | rfl
    · exact absurd earlier before
    · simp [lookup_placePhi] at noPhi
  · refine inv.writers.update inv.layout.inScope s.graph.store.size ?_ (by simp [targetsNew])
    intro v member other
    have listed : v ∈ s.graph.listed := by simpa [graph_placePhi, other] using member
    refine ⟨listed, ?_⟩
    by_cases isLabel : v = f.vertex
    · subst isLabel
      exact (Vertex.targets_congr (core_placePhi_label inside)).trans rfl
    · exact Vertex.targets_congr (core_placePhi_of_ne inside isLabel other)

/-! ### A visit -/

/-- Where the edges of a vertex lead while the walk is under way. -/
theorem WalkInvariant.succs_cases (inv : WalkInvariant g x labels s stack) (inside : u < s.graph.store.size) :
    (∃ phi, s.phis.lookup u = some phi ∧ s.graph.succs u = [phi]) ∨
    (∃ l, s.phis.lookup l = some u ∧ s.graph.succs u = g.succs l) ∨
    (u < g.store.size ∧ s.phis.lookup u = none ∧ s.graph.succs u = g.succs u) := by
  rcases Nat.lt_or_ge u g.store.size with old | new
  · cases found : s.phis.lookup u with
    | some phi =>
      exact .inl ⟨phi, rfl, (Vertex.core_eq_iff.mp (inv.layout.phi found).2.2.label).succs⟩
    | none =>
      refine .inr (.inr ⟨old, rfl, ?_⟩)
      by_cases unvisited : u ∈ s.unvisited
      · exact (Vertex.core_eq_iff.mp (inv.layout.untouched old unvisited)).succs
      · obtain ⟨past, ok⟩ := inv.visited u ⟨inside, unvisited⟩ found
        obtain ⟨r, core, _⟩ := (ok.renamed old).core
        exact (Vertex.core_eq_iff.mp core).succs
  · obtain ⟨l, found⟩ := inv.layout.new new inside
    exact .inr (.inl ⟨l, found, (inv.layout.phi found).2.2.succs⟩)

/-- No edge leads to the entry, and one from a vertex without a phi behind it leads to an original vertex. -/
theorem WalkInvariant.succ_old (split : Splitting g x labels) (inv : WalkInvariant g x labels s stack)
    (member : u ∈ s.graph.listed) {t : VertexId} (edge : t ∈ s.graph.succs u) :
    t ≠ g.entry ∧ (s.phis.lookup u = none → t < g.store.size) := by
  have original {w : VertexId} (member : w ∈ g.listed) (edge : t ∈ g.succs w) :
      t ≠ g.entry ∧ (s.phis.lookup u = none → t < g.store.size) :=
    ⟨fun same => split.sound.entry_notMem_succs member (same ▸ edge),
      fun _ => split.sound.wired.listed_lt t (split.sound.wired.succs_listed w member t edge)⟩
  have inside := inv.layout.wired.listed_lt u member
  rcases inv.succs_cases inside with ⟨phi, found, succs⟩ | ⟨l, found, succs⟩ | ⟨old, _, succs⟩
  · obtain rfl : t = phi := by simpa [succs] using edge
    have entryLt := split.sound.wired.listed_lt _ split.sound.wired.entry_listed
    exact ⟨Nat.ne_of_gt (Nat.lt_of_lt_of_le entryLt (inv.layout.phi found).2.2.new), by simp [found]⟩
  · have isLabel := (inv.layout.phi found).1
    exact original (split.sound.wired.listed_of_reachable (split.placed.reachable l isLabel)) (succs ▸ edge)
  · have listed : u ∈ g.listed := inv.layout.mem_old member old
    exact original listed (succs ▸ edge)

/-- What a visit does to the graph, which becomes `h`, and what it sends to the successors. -/
structure VisitMade (g : Graph) (x : VarId) (s : Renaming) (f : RenameFrame) (h : Graph) (value : VarId)
    (defined : Bool) : Prop where
  ext : Extended g x h
  epoch : h.epoch = s.graph.epoch
  size : h.store.size = s.graph.store.size
  vars : s.graph.vars.size ≤ h.vars.size
  others : ∀ w, w ≠ f.vertex → h.vertex w = s.graph.vertex w
  succs : h.succs f.vertex = s.graph.succs f.vertex
  special : f.vertex = g.entry ∨ g.store.size ≤ f.vertex → h.vertex f.vertex = s.graph.vertex f.vertex
  renamed : ∀ past, SettledTrail g s past f.vertex → arrivingAt g x s.graph past f.vertex = f.carried →
    f.vertex < g.store.size → Renamed g h x f.vertex (s.graph.latest (g.isVersion x) past)
  leaves : ∀ past, (∀ p ∈ past, s.Settled p) → arrivingAt g x s.graph past f.vertex = f.carried →
    h.latest (g.isVersion x) (past ++ [f.vertex]) = if defined then some value else none
  undefined : defined = false → value = x
  version : g.isVersion x value = true
  inside : value < h.vars.size
  param : defined = true → value = x → some x ∈ g.params
  writers : FreshOnce g h

section
variable {h : Graph} {value : VarId} {defined : Bool} (made : VisitMade g x s f h value defined)
include made

theorem VisitMade.settled_iff (trail : SettledTrail g s past f.vertex) (layout : Layout g x labels s) :
    Settled { s with graph := h, unvisited := s.unvisited.erase f.vertex } v ↔ s.Settled v ∨ v = f.vertex := by
  have inside := layout.lt trail
  simp only [Settled, made.size, VertexSet.mem_erase]
  grind

theorem VisitMade.layout (layout : Layout g x labels s) (trail : SettledTrail g s past f.vertex)
    (quiet : f.vertex ∉ s.pending) (unvisited : f.vertex ∈ s.unvisited) :
    Layout g x labels { s with graph := h, unvisited := s.unvisited.erase f.vertex } := by
  have noPhi := layout.lookup_eq_none fun _ => unvisited
  refine { made.ext with
    sameEpoch := fun same => layout.sameEpoch (made.epoch ▸ same)
    pending := ?_
    marked := layout.marked
    phi := ?_
    new := ?_
    untouched := ?_ }
  · intro l waits
    obtain ⟨isLabel, unvisited'⟩ := layout.pending waits
    exact ⟨isLabel, VertexSet.mem_erase.mpr ⟨unvisited', fun same => quiet (same ▸ waits)⟩⟩
  · intro l phi found
    obtain ⟨isLabel, settled, placed⟩ := layout.phi found
    have other : l ≠ f.vertex := fun same => settled.2 (same ▸ unvisited)
    refine ⟨isLabel, (made.settled_iff trail layout).mpr (.inl settled), placed.congr ?_ ?_ ?_⟩
    · exact Nat.le_of_eq made.size.symm
    · exact congrArg Vertex.core (made.others l other)
    · by_cases here : phi = f.vertex
      · exact congrArg Vertex.core (here ▸ made.special (.inr (here ▸ placed.new)))
      · exact congrArg Vertex.core (made.others phi here)
  · intro v new below
    exact layout.new new (made.size ▸ below)
  · intro u lt unvisited'
    obtain ⟨unvisited', other⟩ := VertexSet.mem_erase.mp unvisited'
    show (h.vertex u).core = _
    rw [made.others u other]
    exact layout.untouched lt unvisited'

theorem VisitMade.grows (layout : Layout g x labels s) (trail : SettledTrail g s past f.vertex)
    (unvisited : f.vertex ∈ s.unvisited) :
    Grows g s { s with graph := h, unvisited := s.unvisited.erase f.vertex } := by
  have other {v : VertexId} (settled : s.Settled v) : v ≠ f.vertex := fun same => settled.2 (same ▸ unvisited)
  have same {v : VertexId} (known : s.Settled v ∨ v = g.entry ∨ g.store.size ≤ v) : h.vertex v = s.graph.vertex v := by
    by_cases here : v = f.vertex
    · rcases known with settled | special
      · exact absurd here (other settled)
      · exact here ▸ made.special (here ▸ special)
    · exact made.others v here
  have samePhi {l phi : VertexId} (found : s.phis.lookup l = some phi) : h.vertex phi = s.graph.vertex phi :=
    same (.inr (.inr (layout.phi found).2.2.new))
  refine ⟨fun settled => (made.settled_iff trail layout).mpr (.inl settled), fun settled _ => ?_, fun settled => ?_,
    fun known => ?_, made.vars, id, fun _ => id, fun found member => ?_, fun found => ?_⟩
  · rw [same (.inl settled)]
  · rw [Graph.succs, Graph.succs, same (.inl settled)]
  · rw [same (known.imp_right fun special => special.imp_right And.left)]
  · rwa [samePhi found]
  · rw [samePhi found]

/-- A visited vertex sends what it leaves behind to all its successors. -/
theorem VisitMade.walkInvariant (split : Splitting g x labels) (inv : WalkInvariant g x labels s (f :: stack))
    (quiet : f.vertex ∉ s.pending) (noPhi : s.phis.lookup f.vertex = none) (unvisited : f.vertex ∈ s.unvisited) :
    WalkInvariant g x labels { s with graph := h, unvisited := s.unvisited.erase f.vertex }
      ((h.succs f.vertex).map (⟨·, value, defined⟩) ++ stack) := by
  obtain ⟨past, trail, carries⟩ := (inv.frames f List.mem_cons_self).path
  have layout := made.layout inv.layout trail quiet unvisited
  have grows := made.grows inv.layout trail unvisited
  have settled := (made.settled_iff (v := f.vertex) trail inv.layout).mpr (.inr rfl)
  have trail' := grows.settledTrail trail
  have leaves := made.leaves past trail.2 carries
  have listed := inv.layout.wired.listed_of_reachable (inv.layout.reachable trail)
  refine inv.advance _ grows layout ⟨settled, by simp [noPhi]⟩ ?_ (fun found none => by simp [none] at found) ?_
    made.writers
  · intro f' member
    obtain ⟨t, edge, rfl⟩ := List.mem_map.mp member
    obtain ⟨inner, original⟩ := inv.succ_old split listed (made.succs ▸ edge)
    have old := original noPhi
    refine ⟨⟨past ++ [f.vertex], ⟨trail'.1.step edge, ?_⟩, ?_⟩, made.undefined, made.version, made.inside, made.param⟩
    · intro p member
      rcases List.mem_append.mp member with earlier | last
      · exact trail'.2 p earlier
      · exact List.mem_singleton.mp last ▸ settled
    · rw [arrivingAt, if_neg (by simp [inner, Nat.not_le.mpr old])]
      exact leaves
  · intro u now before _
    rcases (made.settled_iff trail inv.layout).mp now with earlier | rfl
    · exact absurd earlier before
    · refine ⟨past, trail', fun old => ?_, fun t edge => .inl ⟨⟨t, value, defined⟩, ?_, rfl, ?_⟩⟩
      · rw [grows.latest trail.2]
        exact made.renamed past trail carries old
      · exact List.mem_append_left _ (List.mem_map.mpr ⟨t, edge, rfl⟩)
      · exact leaves.symm

end

theorem WalkInvariant.past_eq_nil (split : Splitting g x labels) (inv : WalkInvariant g x labels s stack)
    (trail : SettledTrail g s past g.entry) : past = [] := by
  refine trail.1.eq_nil_of_no_edge fun u reached edge => ?_
  have listed := inv.layout.wired.listed_of_reachable (inv.layout.entry ▸ reached)
  exact (inv.succ_old split listed edge).1 rfl

theorem map_renameTo_of_notMem {y : VarId} {args : List (Option VarId)} (absent : y = x ∨ some x ∉ args) :
    args.map (renameTo x y) = args := by
  rw [List.map_congr_left (g := id) ?_, List.map_id]
  intro a member
  by_cases here : a = some x
  · rcases absent with same | absent
    · simp [renameTo, here, same]
    · exact absurd (here ▸ member) absent
  · simp [renameTo, here]

/-- A vertex that stays as it is, is renamed if there was nothing to rename. -/
theorem Renamed.of_untouched {h : Graph} {c : Option VarId} (same : (h.vertex u).core = (g.vertex u).core)
    (result : (g.vertex u).result ≠ some x) (absent : c.getD x = x ∨ some x ∉ (g.vertex u).args) :
    Renamed g h x u c := by
  refine ⟨(g.vertex u).result, ?_, by rw [if_neg result]⟩
  rw [same, map_renameTo_of_notMem absent]

/-- A visit of the entry or of a phi changes nothing. -/
theorem visit_of_special (special : s.graph.op f.vertex = .phi ∨ s.graph.op f.vertex = .function)
    (result : (s.graph.vertex f.vertex).result ≠ some x) : visit s.graph x f = (s.graph, f.value, f.defined) := by
  rcases special with isPhi | isFunction
  · simp [visit, isPhi, result]
  · simp [visit, isFunction]

/-- What the walk needs to know of a visit that changes nothing. -/
theorem VisitMade.unchanged (inv : WalkInvariant g x labels s (f :: stack))
    (renamed : ∀ past, SettledTrail g s past f.vertex → f.vertex < g.store.size →
      Renamed g s.graph x f.vertex (s.graph.latest (g.isVersion x) past))
    (silent : f.vertex ≠ g.entry → f.vertex < g.store.size →
      ∀ y ∈ (s.graph.vertex f.vertex).targets, g.isVersion x y = false) :
    VisitMade g x s f s.graph f.value f.defined := by
  have ok := inv.frames f List.mem_cons_self
  refine ⟨inv.layout.toExtended, rfl, rfl, Nat.le_refl _, fun _ _ => rfl, rfl, fun _ => rfl,
    fun past trail _ => renamed past trail, ?_, ok.undefined, ok.version, ok.inside, ok.param, inv.writers⟩
  intro past settled carries
  show _ = f.carried
  rw [← carries, arrivingAt]
  split
  · rfl
  · rename_i ordinary
    obtain ⟨inner, old⟩ := not_or.mp ordinary
    exact Graph.latest_concat_of_silent (silent inner (Nat.lt_of_not_le old))

/-- The graph after a visit has renamed the reads of a vertex. -/
def withReads (h : Graph) (x : VarId) (f : RenameFrame) : Graph :=
  if f.value ≠ x then h.modifyVertex f.vertex (·.replaceArgs (some x) (some f.value)) else h

/-- The graph after a visit has also given the write of a vertex its own variable. -/
def withWrite (h : Graph) (x : VarId) (f : RenameFrame) : Graph :=
  ((withReads h x f).addVar (h.var x).name (h.var x).type).modifyVertex f.vertex
    fun w => { w with result := some h.vars.size }

section ordinary
variable {h : Graph} (inside : f.vertex < h.store.size) (notPhi : h.op f.vertex ≠ .phi)
  (notFunction : h.op f.vertex ≠ .function)

theorem vertex_withReads_of_ne (other : v ≠ f.vertex) : (withReads h x f).vertex v = h.vertex v := by
  rw [withReads]
  split
  · exact Graph.vertex_modifyVertex_of_ne other
  · rfl

theorem vars_withReads : (withReads h x f).vars = h.vars := by
  rw [withReads]; split <;> rfl

theorem size_withReads : (withReads h x f).store.size = h.store.size := by
  rw [withReads]; split <;> simp

theorem epoch_withReads : (withReads h x f).epoch = h.epoch := by
  rw [withReads]; split <;> rfl

theorem listed_withReads : (withReads h x f).listed = h.listed := by
  rw [withReads]; split <;> rfl

include inside notPhi in
theorem vertex_withReads_self : (withReads h x f).vertex f.vertex =
    { h.vertex f.vertex with args := (h.vertex f.vertex).args.map (renameTo x f.value) } := by
  rw [withReads]
  split
  · rw [Graph.vertex_modifyVertex_self inside, Vertex.replaceArgs_of_op notPhi]
    rfl
  · rename_i same
    rw [map_renameTo_of_notMem (.inl (by simpa using same))]

include inside notPhi in
theorem vertex_withWrite_self : (withWrite h x f).vertex f.vertex =
    { h.vertex f.vertex with
      args := (h.vertex f.vertex).args.map (renameTo x f.value), result := some h.vars.size } := by
  rw [withWrite, Graph.vertex_modifyVertex_self (by simpa [size_withReads] using inside), Graph.vertex_addVar,
    vertex_withReads_self inside notPhi]

theorem vertex_withWrite_of_ne (other : v ≠ f.vertex) : (withWrite h x f).vertex v = h.vertex v := by
  rw [withWrite, Graph.vertex_modifyVertex_of_ne other, Graph.vertex_addVar, vertex_withReads_of_ne other]

include inside notPhi notFunction in
theorem visit_of_ordinary : visit h x f =
    if (h.vertex f.vertex).result = some x then (withWrite h x f, h.vars.size, true)
    else (withReads h x f, f.value, f.defined) := by
  have reads : (if h.op f.vertex ≠ .phi ∧ h.op f.vertex ≠ .function ∧ f.value ≠ x then
      h.modifyVertex f.vertex (·.replaceArgs (some x) (some f.value)) else h) = withReads h x f := by
    simp [withReads, notPhi, notFunction]
  have result : ((withReads h x f).vertex f.vertex).result = (h.vertex f.vertex).result := by
    rw [vertex_withReads_self inside notPhi]
  simp only [visit]
  rw [reads, result]
  simp only [ne_eq, notFunction, not_false_eq_true, true_and, Graph.nextVar, withWrite, vars_withReads, Graph.var]

end ordinary

/-- A vertex may change in anything but its edges, within the variables there are. -/
theorem Extended.modifyVertex {h : Graph} {change : Vertex → Vertex} (ext : Extended g x h)
    (succs : ∀ w, (change w).succs = w.succs) (preds : ∀ w, (change w).preds = w.preds)
    (inScope : ∀ y, (change (h.vertex v)).references (some y) = true → v ∈ h.listed → y < h.vars.size) :
    Extended g x (h.modifyVertex v change) := by
  refine { ext with
    size := by simpa using ext.size
    listed := fun {v} => by simpa using ext.listed (v := v)
    wired := ext.wired.modifyVertex succs preds
    inScope := ?_ }
  intro w member y mentions
  by_cases here : w = v
  · subst here
    rw [Graph.vertex_modifyVertex_self (ext.wired.listed_lt w member)] at mentions
    exact inScope y mentions member
  · rw [Graph.vertex_modifyVertex_of_ne here] at mentions
    exact ext.inScope w member y mentions

/-- A copy of `x` may be added. -/
theorem Extended.addCopy {h : Graph} (ext : Extended g x h) (known : x < g.vars.size) :
    Extended g x (h.addVar (h.var x).name (h.var x).type) := by
  refine { ext with
    wired := ext.wired.addVar
    vars := by rw [Graph.size_vars_addVar]; exact Nat.le_succ_of_le ext.vars
    oldVar := fun below => ?_
    newVar := fun fresh below => ?_
    inScope := fun v member y mentions => ?_ }
  · rw [Graph.var_addVar, if_neg (Nat.ne_of_lt (Nat.lt_of_lt_of_le below ext.vars))]
    exact ext.oldVar below
  · rw [Graph.var_addVar]
    split
    · rw [ext.oldVar known]
    · rename_i other
      rw [Graph.size_vars_addVar] at below
      exact ext.newVar fresh (Nat.lt_of_le_of_ne (Nat.le_of_lt_succ below) other)
  · rw [Graph.size_vars_addVar]
    exact Nat.lt_succ_of_lt (ext.inScope v member y mentions)

theorem references_map_renameTo {w : Vertex} {y z : VarId}
    (mentions : ({ w with args := w.args.map (renameTo x z) } : Vertex).references (some y) = true) :
    w.references (some y) = true ∨ y = z := by
  simp only [Vertex.references, Bool.or_eq_true, decide_eq_true_eq, List.contains_iff_mem, List.mem_map] at mentions ⊢
  rcases mentions with result | ⟨a, member, renamed⟩
  · exact .inl (.inl result)
  · rw [renameTo] at renamed
    split at renamed
    · exact .inr (by simpa using renamed.symm)
    · exact .inl (.inr (renamed ▸ member))

theorem Extended.withReads {h : Graph} (ext : Extended g x h) (inside : f.value < h.vars.size)
    (notPhi : h.op f.vertex ≠ .phi) : Extended g x (withReads h x f) := by
  rw [Renaming.withReads]
  split
  · refine ext.modifyVertex (by simp) (by simp) fun y mentions member => ?_
    rw [Vertex.replaceArgs_of_op notPhi] at mentions
    rcases references_map_renameTo (x := x) (z := f.value) mentions with earlier | rfl
    · exact ext.inScope f.vertex member y earlier
    · exact inside
  · exact ext

theorem Extended.withWrite {h : Graph} (split : Splitting g x labels) (ext : Extended g x h)
    (inside : f.value < h.vars.size) (notPhi : h.op f.vertex ≠ .phi) : Extended g x (withWrite h x f) := by
  have reads := ext.withReads inside notPhi
  have copied := reads.addCopy split.known
  have var : (Renaming.withReads h x f).var x = h.var x := by simp [Graph.var, vars_withReads]
  rw [var] at copied
  refine copied.modifyVertex (fun _ => rfl) (fun _ => rfl) fun y mentions member => ?_
  rw [Graph.size_vars_addVar, vars_withReads]
  simp only [Vertex.references, Graph.vertex_addVar, Bool.or_eq_true, decide_eq_true_eq, Option.some.injEq,
    List.contains_iff_mem] at mentions
  rcases mentions with rfl | arg
  · exact Nat.lt_succ_self _
  · have := reads.inScope f.vertex member y (by simp [Vertex.references, arg])
    rw [vars_withReads] at this
    exact Nat.lt_succ_of_lt this

theorem targets_withReads {h : Graph} (inside : f.vertex < h.store.size) (notPhi : h.op f.vertex ≠ .phi)
    (notFunction : h.op f.vertex ≠ .function) (v : VertexId) :
    ((withReads h x f).vertex v).targets = (h.vertex v).targets := by
  by_cases here : v = f.vertex
  · subst here
    rw [vertex_withReads_self inside notPhi, Vertex.targets_of_op (v := h.vertex f.vertex) notFunction]
    exact Vertex.targets_of_op notFunction
  · rw [vertex_withReads_of_ne here]

/-- The version that a good frame carries is its value, if that is not just `x` itself. -/
theorem FrameOk.getD_carried (ok : FrameOk g x s f) : f.carried.getD x = f.value := by
  rw [RenameFrame.carried]
  split
  · rfl
  · rename_i undefined
    exact (ok.undefined (by simpa using undefined)).symm

/-- An unvisited vertex of the original graph that does something with variables. -/
structure Ordinary (g : Graph) (s : Renaming) (v : VertexId) : Prop where
  old : v < g.store.size
  inner : v ≠ g.entry
  listed : v ∈ s.graph.listed
  same : (s.graph.vertex v).core = (g.vertex v).core
  notPhi : s.graph.op v ≠ .phi
  notFunction : s.graph.op v ≠ .function
  unvisited : v ∈ s.unvisited

namespace Ordinary

variable (ordinary : Ordinary g s f.vertex)
include ordinary

theorem latest {h : Graph} (others : ∀ w, w ≠ f.vertex → h.vertex w = s.graph.vertex w)
    (settled : ∀ p ∈ past, s.Settled p) (carries : arrivingAt g x s.graph past f.vertex = f.carried) :
    h.latest (g.isVersion x) past = f.carried := by
  rw [arrivingAt, if_neg (by simp [ordinary.inner, Nat.not_le.mpr ordinary.old])] at carries
  rw [← carries, Graph.latest, Graph.latest, Graph.written_congr]
  intro p member
  rw [others p fun same => (settled p member).2 (same ▸ ordinary.unvisited)]

variable (split : Splitting g x labels) (inv : WalkInvariant g x labels s (f :: stack))
include split inv

/-- A visit of a vertex that does not write `x`. -/
theorem visitMade_reads (result : (s.graph.vertex f.vertex).result ≠ some x) :
    VisitMade g x s f (withReads s.graph x f) f.value f.defined := by
  have ok := inv.frames f List.mem_cons_self
  have inside := inv.layout.wired.listed_lt _ ordinary.listed
  have self := vertex_withReads_self (x := x) inside ordinary.notPhi
  have others (w : VertexId) (other : w ≠ f.vertex) := vertex_withReads_of_ne (h := s.graph) (x := x) other
  have targets := targets_withReads (x := x) inside ordinary.notPhi ordinary.notFunction
  have core := Vertex.core_eq_iff.mp ordinary.same
  refine ⟨inv.layout.toExtended.withReads ok.inside ordinary.notPhi, epoch_withReads, size_withReads,
    Nat.le_of_eq (by rw [vars_withReads]), others, ?_, ?_, ?_, ?_, ok.undefined, ok.version,
    by rw [vars_withReads]; exact ok.inside, ok.param, ?_⟩
  · rw [Graph.succs, self]
    rfl
  · rintro (atEntry | new)
    · exact absurd atEntry ordinary.inner
    · exact absurd ordinary.old (Nat.not_lt.mpr new)
  · intro past trail carries _
    rw [ordinary.latest (fun _ _ => rfl) trail.2 carries]
    refine ⟨(g.vertex f.vertex).result, ?_, ?_⟩
    · rw [self, ok.getD_carried, Vertex.core_eq_iff]
      exact { core with args := by rw [core.args] }
    · rw [if_neg (core.result ▸ result)]
  · intro past settled carries
    rw [Graph.latest_concat_of_silent, ordinary.latest others settled carries]
    · rfl
    · intro y writes
      rw [targets, Vertex.targets_of_op ordinary.notFunction] at writes
      have isResult : (s.graph.vertex f.vertex).result = some y := by simpa using writes
      have listed : f.vertex ∈ g.listed := inv.layout.mem_old ordinary.listed ordinary.old
      have known : y < g.vars.size :=
        split.inScope f.vertex listed y (by simp [Vertex.references, ← core.result, isResult])
      have other : y ≠ x := fun same => result (same ▸ isResult)
      simp [Graph.isVersion, other, known]
  · simp only [FreshOnce, targets, listed_withReads]
    exact inv.writers

/-- A visit of a vertex that writes `x`. -/
theorem visitMade_write (result : (s.graph.vertex f.vertex).result = some x) :
    VisitMade g x s f (withWrite s.graph x f) s.graph.vars.size true := by
  have ok := inv.frames f List.mem_cons_self
  have inside := inv.layout.wired.listed_lt _ ordinary.listed
  have self := vertex_withWrite_self (x := x) inside ordinary.notPhi
  have others (w : VertexId) (other : w ≠ f.vertex) := vertex_withWrite_of_ne (h := s.graph) (x := x) other
  have core := Vertex.core_eq_iff.mp ordinary.same
  have vars : (withWrite s.graph x f).vars.size = s.graph.vars.size + 1 := by simp [withWrite, vars_withReads]
  have version : g.isVersion x s.graph.vars.size = true := Graph.isVersion_iff.mpr (.inr inv.layout.vars)
  have targets : ((withWrite s.graph x f).vertex f.vertex).targets = [s.graph.vars.size] := by
    rw [self]
    exact Vertex.targets_of_op ordinary.notFunction
  refine ⟨inv.layout.toExtended.withWrite split ok.inside ordinary.notPhi, epoch_withReads,
    by simp [withWrite, size_withReads], by rw [vars]; exact Nat.le_succ _, others, ?_, ?_, ?_, ?_, nofun, version,
    by rw [vars]; exact Nat.lt_succ_self _,
    fun _ isX => absurd isX (Nat.ne_of_gt (Nat.lt_of_lt_of_le split.known inv.layout.vars)), ?_⟩
  · rw [Graph.succs, self]
    rfl
  · rintro (atEntry | new)
    · exact absurd atEntry ordinary.inner
    · exact absurd ordinary.old (Nat.not_lt.mpr new)
  · intro past trail carries _
    rw [ordinary.latest (fun _ _ => rfl) trail.2 carries]
    refine ⟨some s.graph.vars.size, ?_, ?_⟩
    · rw [self, ok.getD_carried, Vertex.core_eq_iff]
      exact { core with result := rfl, args := by rw [core.args] }
    · rw [if_pos (core.result ▸ result)]
      exact ⟨_, rfl, inv.layout.vars⟩
  · intro past settled carries
    rw [Graph.latest_concat_of_target targets version, if_pos rfl]
  · refine inv.writers.update inv.layout.inScope f.vertex (fun v member other => ?_) (by simp [targets])
    exact ⟨by simpa [withWrite, listed_withReads] using member, by rw [others v other]⟩

end Ordinary

/-- Every visit is one of these. -/
theorem WalkInvariant.visitMade (split : Splitting g x labels) (inv : WalkInvariant g x labels s (f :: stack))
    (unvisited : f.vertex ∈ s.unvisited) :
    VisitMade g x s f (visit s.graph x f).1 (visit s.graph x f).2.1 (visit s.graph x f).2.2 := by
  obtain ⟨past, trail, _⟩ := (inv.frames f List.mem_cons_self).path
  have listed := inv.layout.wired.listed_of_reachable (inv.layout.reachable trail)
  have inside := inv.layout.wired.listed_lt _ listed
  rcases Nat.lt_or_ge f.vertex g.store.size with old | new
  · have same := inv.layout.untouched old unvisited
    obtain ⟨op, _, _, result, args, _⟩ := Vertex.core_eq_iff.mp same
    have member : f.vertex ∈ g.listed := inv.layout.mem_old listed old
    have sound := split.sound.vertices f.vertex member
    by_cases isFunction : g.op f.vertex = .function
    · -- the entry, where no path has written anything
      have atEntry : f.vertex = g.entry := sound.onlyEntry isFunction
      have noResult : (g.vertex f.vertex).result = none := sound.result_eq_none (by rw [isFunction]; rfl)
      rw [visit_of_special (.inr (op.trans isFunction)) (by simp [result, noResult])]
      refine .unchanged inv (fun past trail _ => ?_) fun inner => absurd atEntry inner
      have nothing : past = [] := inv.past_eq_nil split (by rw [← atEntry]; exact trail)
      rw [nothing]
      exact .of_untouched same (by simp [noResult]) (.inl rfl)
    · by_cases isPhi : g.op f.vertex = .phi
      · -- a phi of another variable
        have apart := Vertex.references_eq_false_iff.mp (split.noPhi f.vertex member isPhi)
        rw [visit_of_special (.inl (op.trans isPhi)) (result ▸ apart.1)]
        refine .unchanged inv (fun past _ _ => .of_untouched same apart.1 (.inr apart.2)) fun _ _ y writes => ?_
        rw [Vertex.targets_congr same, Vertex.targets_of_op isFunction] at writes
        have isResult : (g.vertex f.vertex).result = some y := by simpa using writes
        have known : y < g.vars.size := split.inScope f.vertex member y (by simp [Vertex.references, isResult])
        have other : y ≠ x := fun same => apart.1 (same ▸ isResult)
        simp [Graph.isVersion, other, known]
      · have ordinary : Ordinary g s f.vertex :=
          ⟨old, fun atEntry => isFunction (atEntry ▸ split.sound.entryOp), listed, same,
            fun is => isPhi (op.symm.trans is), fun is => isFunction (op.symm.trans is), unvisited⟩
        rw [visit_of_ordinary inside ordinary.notPhi ordinary.notFunction]
        split
        · exact ordinary.visitMade_write split inv ‹_›
        · exact ordinary.visitMade_reads split inv ‹_›
  · obtain ⟨l, found⟩ := inv.layout.new new inside
    have placed := (inv.layout.phi found).2.2
    obtain ⟨r, result, fresh⟩ := placed.result
    have other : r ≠ x := Nat.ne_of_gt (Nat.lt_of_lt_of_le split.known fresh)
    rw [visit_of_special (.inl placed.op) (by simp [result, other])]
    exact .unchanged inv (fun _ _ old => absurd old (Nat.not_lt.mpr new)) fun _ old => absurd old (Nat.not_lt.mpr new)

/-! ### The whole walk -/

/-- The walk ends with everything taken care of. -/
theorem walkInvariant_walk (split : Splitting g x labels) (inv : WalkInvariant g x labels s stack) :
    ∃ s', s'.graph = walk x s stack ∧ WalkInvariant g x labels s' [] := by
  fun_induction walk x s stack with
  | case1 s => exact ⟨s, rfl, inv⟩
  | case2 s f stack waits placed ih => exact ih (inv.placePhi split waits)
  | case3 s f stack quiet phi found h ih => exact ih (inv.join split found)
  | case4 s f stack quiet noPhi unvisited h value defined made ih =>
    have visit := inv.visitMade split unvisited
    rw [made] at visit
    exact ih (visit.walkInvariant split inv quiet noPhi unvisited)
  | case5 s f stack quiet noPhi visited ih => exact ih (inv.skip noPhi visited)

end

end Renaming

end MiddleEnd
