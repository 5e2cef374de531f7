import MiddleEnd.Proofs.Edits

/-!
What the edits that move edges do. None of them touches anything of a vertex but its edges (`Graph.Rewired`), and
each keeps the lists of edges in agreement, so that a claim about an edit only has to say where successors go. A
vertex that is spliced out leaves every list of successors at its length, with its own successor in its place
(`Graph.Spliced`).
-/
namespace MiddleEnd

/-- A vertex but for its edges. -/
def Vertex.body (v : Vertex) : Vertex :=
  { v with succs := [], preds := [] }

/-- Two vertices differ at most in their edges. -/
structure Vertex.SameBody (v w : Vertex) : Prop where
  op : v.op = w.op
  binOp : v.binOp = w.binOp
  callee : v.callee = w.callee
  result : v.result = w.result
  args : v.args = w.args
  owned : v.owned = w.owned

theorem Vertex.body_eq_iff {v w : Vertex} : v.body = w.body ↔ v.SameBody w := by
  constructor
  · intro same
    cases v; cases w
    obtain ⟨⟩ := same
    exact ⟨rfl, rfl, rfl, rfl, rfl, rfl⟩
  · rintro ⟨op, binOp, callee, result, args, owned⟩
    simp [body, op, binOp, callee, result, args, owned]

namespace Graph

variable {g h k : Graph} {v w n source target old new : VertexId} {f : Vertex → Vertex}

/-- `h` is `g` with other edges between the same vertices. -/
structure Rewired (g h : Graph) : Prop where
  size : h.store.size = g.store.size
  entry : h.entry = g.entry
  exit : h.exit = g.exit
  listed : h.listed = g.listed
  vars : h.vars = g.vars
  reach : h.reach = g.reach
  epoch : g.epoch ≤ h.epoch
  body : ∀ w, (h.vertex w).body = (g.vertex w).body

namespace Rewired

theorem refl : g.Rewired g :=
  ⟨rfl, rfl, rfl, rfl, rfl, rfl, Nat.le_refl _, fun _ => rfl⟩

theorem trans (first : g.Rewired h) (second : h.Rewired k) : g.Rewired k :=
  ⟨second.size.trans first.size, second.entry.trans first.entry, second.exit.trans first.exit,
    second.listed.trans first.listed, second.vars.trans first.vars, second.reach.trans first.reach,
    Nat.le_trans first.epoch second.epoch, fun w => (second.body w).trans (first.body w)⟩

theorem modifyVertex (kept : ∀ w, (f w).body = w.body) : g.Rewired (g.modifyVertex v f) :=
  ⟨by simp, rfl, rfl, rfl, rfl, rfl, Nat.le_refl _, fun w => congr_modifyVertex Vertex.body kept w⟩

theorem touch : g.Rewired g.touch :=
  ⟨rfl, rfl, rfl, rfl, rfl, rfl, Nat.le_succ _, fun _ => rfl⟩

/-- Edits in turn leave the same alone. -/
theorem foldl {α : Type} {edit : Graph → α → Graph} (each : ∀ (g : Graph) a, g.Rewired (edit g a)) (as : List α) :
    g.Rewired (as.foldl edit g) := by
  induction as generalizing g with
  | nil => exact .refl
  | cons a as ih => exact (each g a).trans ih

end Rewired

/-! ### Edges in agreement -/

/-- How many edges lead from a listed vertex to another. -/
def edgeCount (g : Graph) (u v : VertexId) : Nat :=
  if u ∈ g.listed then (g.succs u).count v else 0

theorem edgeCount_of_mem (member : v ∈ g.listed) : g.edgeCount v w = (g.succs v).count w :=
  if_pos member

/-- The predecessors are the sources of the edges. -/
theorem Wired.count_preds (wired : g.Wired) (member : v ∈ g.listed) (u : VertexId) :
    (g.preds v).count u = g.edgeCount u v := by
  rw [edgeCount]
  split
  · rename_i source
    exact (wired.counts u source v member).symm
  · rename_i foreign
    exact List.count_eq_zero.mpr fun edge => foreign (wired.preds_listed v member u edge)

theorem wired_of_count_preds (entry : g.entry ∈ g.listed) (below : ∀ v ∈ g.listed, v < g.store.size)
    (succs : ∀ v ∈ g.listed, ∀ s ∈ g.succs v, s ∈ g.listed)
    (preds : ∀ v ∈ g.listed, ∀ u, (g.preds v).count u = g.edgeCount u v) : g.Wired where
  entry_listed := entry
  listed_lt := below
  succs_listed := succs
  preds_listed v member p edge := by
    have counted := preds v member p
    rw [edgeCount] at counted
    split at counted
    · assumption
    · exact absurd edge (List.count_eq_zero.mp counted)
  counts u source v target := by rw [preds v target u, edgeCount_of_mem source]

/-- Edges that lead from listed to listed vertices and are written down at both ends make a rewired graph wired. -/
theorem Wired.rewired (wired : g.Wired) (rewired : g.Rewired h)
    (succs : ∀ v ∈ g.listed, ∀ s ∈ h.succs v, s ∈ g.listed)
    (preds : ∀ v ∈ g.listed, ∀ u, (h.preds v).count u = h.edgeCount u v) : h.Wired := by
  refine wired_of_count_preds ?_ ?_ ?_ ?_
  · rw [rewired.entry, rewired.listed]; exact wired.entry_listed
  · rw [rewired.listed, rewired.size]; exact wired.listed_lt
  · rw [rewired.listed]; exact succs
  · rw [rewired.listed]; exact preds

/-! ### Redirecting edges -/

section redirect

theorem rewired_movePred : g.Rewired (g.movePred source old new) := by
  refine Rewired.trans (h := g.modifyVertex old fun v => { v with preds := v.preds.erase source }) ?_ ?_
  · exact .modifyVertex fun _ => rfl
  · exact .modifyVertex fun _ => rfl

theorem succs_movePred : (g.movePred source old new).succs w = g.succs w := by
  rw [movePred, succs, succs]
  refine (congr_modifyVertex Vertex.succs ?_ w).trans (congr_modifyVertex Vertex.succs ?_ w)
  all_goals exact fun _ => rfl

theorem count_preds_movePred (inside : old < g.store.size) (insideNew : new < g.store.size) (u : VertexId) :
    ((g.movePred source old new).preds w).count u =
      (g.preds w).count u - (if w = old ∧ u = source then 1 else 0) + (if w = new ∧ u = source then 1 else 0) := by
  have erased (w : VertexId) : ((g.modifyVertex old fun v => { v with preds := v.preds.erase source }).vertex w).preds.count u =
      (g.preds w).count u - (if w = old ∧ u = source then 1 else 0) := by
    by_cases isOld : w = old
    · subst isOld
      rw [vertex_modifyVertex_self inside, List.count_erase]
      simp [preds, @eq_comm _ u]
    · rw [vertex_modifyVertex_of_ne isOld]
      simp [preds, isOld]
  rw [movePred, preds]
  by_cases isNew : w = new
  · subst isNew
    rw [vertex_modifyVertex_self (by simpa using insideNew), List.count_append, erased]
    simp [List.count_singleton, beq_iff_eq, @eq_comm _ u]
  · rw [vertex_modifyVertex_of_ne isNew, erased]
    simp [isNew]

theorem rewired_repeat_movePred (edges : Nat) : g.Rewired (Nat.repeat (movePred · source old new) edges g) := by
  induction edges with
  | zero => exact .refl
  | succ edges ih => exact ih.trans rewired_movePred

theorem succs_repeat_movePred (edges : Nat) :
    (Nat.repeat (movePred · source old new) edges g).succs w = g.succs w := by
  induction edges with
  | zero => rfl
  | succ edges ih => exact succs_movePred.trans ih

/-- As long as `old` knows enough edges from `source`, all of them are handed over. -/
theorem count_preds_repeat_movePred (inside : old < g.store.size) (insideNew : new < g.store.size) {edges : Nat}
    (enough : edges ≤ (g.preds old).count source) (u : VertexId) :
    ((Nat.repeat (movePred · source old new) edges g).preds w).count u =
      (g.preds w).count u - (if w = old ∧ u = source then edges else 0) +
        (if w = new ∧ u = source then edges else 0) := by
  induction edges with
  | zero => simp [Nat.repeat]
  | succ edges ih =>
    have size : (Nat.repeat (movePred · source old new) edges g).store.size = g.store.size :=
      (rewired_repeat_movePred edges).size
    rw [Nat.repeat, count_preds_movePred (size ▸ inside) (size ▸ insideNew), ih (Nat.le_of_succ_le enough)]
    by_cases fromSource : u = source
    · subst fromSource
      by_cases isOld : w = old
      · subst isOld
        simp only [and_self, and_true, ↓reduceIte]
        split <;> omega
      · simp only [isOld, and_true, ↓reduceIte, Nat.sub_zero]
        split <;> omega
    · simp [fromSource]

/-- The edges of `source` into `old`, turned to `new`. -/
def turned (old new : VertexId) (succs : List VertexId) : List VertexId :=
  succs.map fun s => if s = old then new else s

theorem turned_of_notMem {l : List VertexId} (absent : old ∉ l) : turned old new l = l := by
  have same : turned old new l = l.map id :=
    List.map_congr_left fun s member => if_neg fun (same : s = old) => absent (same ▸ member)
  rw [same, List.map_id]

theorem turned_self {l : List VertexId} : turned old old l = l := by
  have same : turned old old l = l.map id := List.map_congr_left fun s _ => by
    by_cases isOld : s = old
    · simp [isOld]
    · simp [isOld]
  rw [same, List.map_id]

theorem turned_turned {l : List VertexId} : turned old new (turned old new l) = turned old new l := by
  rw [turned, turned, List.map_map]
  refine List.map_congr_left fun s _ => ?_
  by_cases isOld : s = old
  · simp [isOld]
  · simp [isOld]

theorem notMem_turned {l : List VertexId} (other : old ≠ new) : old ∉ turned old new l := by
  intro member
  obtain ⟨s, _, same⟩ := List.mem_map.mp member
  split at same
  · exact other same.symm
  · contradiction

theorem count_turned (l : List VertexId) : (turned old new l).count w =
    l.count w - (if w = old then l.count old else 0) + (if w = new then l.count old else 0) := by
  by_cases other : old = new
  · subst other
    rw [turned_self]
    by_cases isOld : w = old
    · simp [isOld]
    · simp [isOld]
  · rw [turned, count_handOver other]
    by_cases isOld : w = old
    · simp [isOld, other]
    · by_cases isNew : w = new
      · simp [isNew, Ne.symm other, Nat.add_comm]
      · simp [isOld, isNew]

theorem rewired_redirect : g.Rewired (g.redirect source old new) := by
  refine Rewired.trans (Rewired.trans (h := g.modifyVertex source fun v => { v with succs := turned old new v.succs })
    ?_ (rewired_repeat_movePred _)) .touch
  exact .modifyVertex fun _ => rfl

theorem succs_redirect (inside : source < g.store.size) : (g.redirect source old new).succs w =
    if w = source then turned old new (g.succs source) else g.succs w := by
  refine (succs_repeat_movePred _).trans ?_
  rw [succs, vertex_modifyVertex]
  by_cases same : w = source
  · subst same
    simp [inside, turned, succs]
  · simp [same, succs]

theorem count_preds_redirect (inside : old < g.store.size) (insideNew : new < g.store.size)
    (enough : (g.succs source).count old ≤ (g.preds old).count source) (u : VertexId) :
    ((g.redirect source old new).preds w).count u =
      (g.preds w).count u - (if w = old ∧ u = source then (g.succs source).count old else 0) +
        (if w = new ∧ u = source then (g.succs source).count old else 0) := by
  have same (w : VertexId) : (g.modifyVertex source fun v => { v with succs := turned old new v.succs }).preds w =
      g.preds w := by
    rw [preds, congr_modifyVertex Vertex.preds]
    · rfl
    · exact fun _ => rfl
  refine (count_preds_repeat_movePred (by simpa using inside) (by simpa using insideNew) ?_ u).trans ?_
  · exact same old ▸ enough
  · exact same w ▸ rfl

theorem Wired.redirect (wired : g.Wired) (source_listed : source ∈ g.listed) (old_listed : old ∈ g.listed)
    (new_listed : new ∈ g.listed) : (g.redirect source old new).Wired := by
  have succs (w : VertexId) : (g.redirect source old new).succs w =
      if w = source then turned old new (g.succs source) else g.succs w :=
    succs_redirect (wired.listed_lt source source_listed)
  refine wired.rewired rewired_redirect ?_ ?_
  · intro v member s edge
    rw [succs] at edge
    split at edge
    · obtain ⟨t, edge', rfl⟩ := List.mem_map.mp edge
      split
      · exact new_listed
      · exact wired.succs_listed source source_listed t edge'
    · exact wired.succs_listed v member s edge
  · intro v member u
    have enough := Nat.le_of_eq (wired.counts source source_listed old old_listed)
    rw [count_preds_redirect (wired.listed_lt old old_listed) (wired.listed_lt new new_listed) enough,
      wired.count_preds member, edgeCount, edgeCount, rewired_redirect.listed, succs]
    by_cases fromSource : u = source
    · subst fromSource
      rw [if_pos source_listed, if_pos source_listed, if_pos rfl, count_turned]
      simp only [and_true]
    · simp [fromSource]

theorem rewired_redirectAll (sources : List VertexId) : g.Rewired (g.redirectAll sources old new) :=
  .foldl (fun _ _ => rewired_redirect) _

private theorem Wired.foldl_redirect (wired : g.Wired) {sources : List VertexId}
    (sources_listed : ∀ source ∈ sources, source ∈ g.listed) (old_listed : old ∈ g.listed) (new_listed : new ∈ g.listed) :
    (sources.foldl (fun g source => g.redirect source old new) g).Wired ∧
      ∀ w, (sources.foldl (fun g source => g.redirect source old new) g).succs w =
        if w ∈ sources then turned old new (g.succs w) else g.succs w := by
  induction sources generalizing g with
  | nil => simp [wired]
  | cons source sources ih =>
    have source_listed := sources_listed source List.mem_cons_self
    have listed : (g.redirect source old new).listed = g.listed := rewired_redirect.listed
    obtain ⟨wired', succs'⟩ := ih (wired.redirect source_listed old_listed new_listed)
      (fun w member => listed ▸ sources_listed w (List.mem_cons_of_mem _ member)) (listed ▸ old_listed)
      (listed ▸ new_listed)
    refine ⟨wired', fun w => ?_⟩
    rw [List.foldl_cons, succs', succs_redirect (wired.listed_lt source source_listed)]
    by_cases first : w = source
    · subst first
      simp [turned_turned]
    · simp [first]

/-- Every edge from one of the sources is turned. -/
theorem Wired.redirectAll (wired : g.Wired) {sources : List VertexId}
    (sources_listed : ∀ source ∈ sources, source ∈ g.listed) (old_listed : old ∈ g.listed) (new_listed : new ∈ g.listed) :
    (g.redirectAll sources old new).Wired ∧ ∀ w, (g.redirectAll sources old new).succs w =
      if w ∈ sources then turned old new (g.succs w) else g.succs w := by
  obtain ⟨wired', succs'⟩ := wired.foldl_redirect
    (fun source member => sources_listed source (List.mem_eraseDups.mp member)) old_listed new_listed
  refine ⟨wired', fun w => ?_⟩
  rw [Graph.redirectAll, succs']
  simp only [List.mem_eraseDups]

/-- Turning the edges from all predecessors turns all edges. -/
theorem Wired.redirectAll_preds (wired : g.Wired) (old_listed : old ∈ g.listed) (new_listed : new ∈ g.listed)
    (member : w ∈ g.listed) :
    (g.redirectAll (g.preds old) old new).succs w = turned old new (g.succs w) := by
  obtain ⟨_, succs⟩ := wired.redirectAll (wired.preds_listed old old_listed) old_listed new_listed
  rw [succs]
  split
  · rfl
  · rename_i absent
    rw [← wired.mem_preds_iff member old_listed] at absent
    exact (turned_of_notMem absent).symm

end redirect

/-! ### Removing edges -/

theorem rewired_removeEdge : g.Rewired (g.removeEdge source target) := by
  rw [removeEdge]
  split
  · refine Rewired.trans (Rewired.trans (h := g.modifyVertex source fun v => { v with succs := v.succs.erase target })
      ?_ ?_) .touch
    · exact .modifyVertex fun _ => rfl
    · exact .modifyVertex fun _ => rfl
  · exact .refl

theorem succs_removeEdge (inside : source < g.store.size) : (g.removeEdge source target).succs w =
    if w = source then (g.succs source).erase target else g.succs w := by
  rw [removeEdge]
  split
  · rw [succs, vertex_touch, congr_modifyVertex Vertex.succs, vertex_modifyVertex]
    · by_cases same : w = source
      · subst same
        simp [inside, succs]
      · simp [same, succs]
    · exact fun _ => rfl
  · rename_i absent
    split
    · rename_i same
      subst same
      exact (List.erase_of_not_mem (by simpa [hasEdge] using absent)).symm
    · rfl

theorem count_preds_removeEdge (inside : target < g.store.size) (u : VertexId) :
    ((g.removeEdge source target).preds w).count u =
      (g.preds w).count u - (if w = target ∧ u = source ∧ target ∈ g.succs source then 1 else 0) := by
  rw [removeEdge]
  split
  · rename_i edge
    have edge : target ∈ g.succs source := by simpa [hasEdge] using edge
    rw [preds, vertex_touch, vertex_modifyVertex]
    by_cases same : w = target
    · subst same
      simp only [size_modifyVertex, inside, and_self, ↓reduceIte, List.count_erase, edge, and_true, true_and]
      rw [congr_modifyVertex Vertex.preds]
      · simp [preds, @eq_comm _ u]
      · exact fun _ => rfl
    · simp only [same, false_and, ↓reduceIte, Nat.sub_zero]
      rw [congr_modifyVertex Vertex.preds, preds]
      exact fun _ => rfl
  · rename_i absent
    have absent : target ∉ g.succs source := by simpa [hasEdge] using absent
    simp [absent]

theorem Wired.removeEdge (wired : g.Wired) (source_listed : source ∈ g.listed) (target_listed : target ∈ g.listed) :
    (g.removeEdge source target).Wired := by
  have succs (w : VertexId) : (g.removeEdge source target).succs w =
      if w = source then (g.succs source).erase target else g.succs w :=
    succs_removeEdge (wired.listed_lt source source_listed)
  refine wired.rewired rewired_removeEdge ?_ ?_
  · intro v member s edge
    rw [succs] at edge
    split at edge
    · exact wired.succs_listed source source_listed s (List.mem_of_mem_erase edge)
    · exact wired.succs_listed v member s edge
  · intro v member u
    rw [count_preds_removeEdge (wired.listed_lt target target_listed), wired.count_preds member, edgeCount, edgeCount,
      rewired_removeEdge.listed, succs]
    by_cases fromSource : u = source
    · subst fromSource
      rw [if_pos source_listed, if_pos source_listed, if_pos rfl, List.count_erase]
      by_cases toTarget : v = target
      · subst toTarget
        by_cases edge : v ∈ g.succs u
        · simp [edge]
        · simp [edge, List.count_eq_zero.mpr edge]
      · simp [toTarget, Ne.symm toTarget]
    · simp [fromSource]

/-! ### Taking vertices out -/

/-- `h` is `g` without the vertex `v`, and with other edges between what is left. -/
structure Without (g h : Graph) (v : VertexId) : Prop where
  size : h.store.size = g.store.size
  entry : h.entry = g.entry
  exit : h.exit = g.exit
  listed : h.listed = g.listed.erase v
  vars : h.vars = g.vars
  reach : h.reach = g.reach
  epoch : g.epoch < h.epoch
  body : ∀ w, w ≠ v → (h.vertex w).body = (g.vertex w).body
  gone : (h.vertex v).owned = false

theorem Rewired.without (rewired : g.Rewired h) (without : h.Without k v) : g.Without k v where
  size := without.size.trans rewired.size
  entry := without.entry.trans rewired.entry
  exit := without.exit.trans rewired.exit
  listed := by rw [without.listed, rewired.listed]
  vars := without.vars.trans rewired.vars
  reach := without.reach.trans rewired.reach
  epoch := Nat.lt_of_le_of_lt rewired.epoch without.epoch
  body w other := (without.body w other).trans (rewired.body w)
  gone := without.gone

theorem vertex_drop (other : w ≠ v) : (g.drop v).vertex w = g.vertex w :=
  vertex_modifyVertex_of_ne other

theorem succs_drop : (g.drop v).succs w = g.succs w := by
  rw [drop, succs, vertex_touch, congr_modifyVertex Vertex.succs]
  · rfl
  · exact fun _ => rfl

theorem preds_drop : (g.drop v).preds w = g.preds w := by
  rw [drop, preds, vertex_touch, congr_modifyVertex Vertex.preds]
  · rfl
  · exact fun _ => rfl

theorem without_drop : g.Without (g.drop v) v where
  size := size_modifyVertex
  entry := rfl
  exit := rfl
  listed := rfl
  vars := rfl
  reach := rfl
  epoch := Nat.lt_succ_self _
  body w other := by rw [vertex_drop other]
  gone := by
    rw [drop, vertex_touch, vertex_modifyVertex]
    split
    · rfl
    · rename_i outside
      have outside : g.store.size ≤ v := by simpa using outside
      exact congrArg Vertex.owned (vertex_of_ge outside)

/-- A vertex without edges may go. -/
theorem Wired.drop (wired : g.Wired) (member : v ∈ g.listed) (notEntry : v ≠ g.entry) (noSuccs : g.succs v = [])
    (noPreds : g.preds v = []) : (g.drop v).Wired := by
  have notInto {u : VertexId} (listed : u ∈ g.listed) : v ∉ g.succs u := by
    rw [wired.mem_preds_iff listed member, noPreds]
    simp
  refine wired_of_count_preds ?_ ?_ ?_ ?_
  · exact (List.mem_erase_of_ne (Ne.symm notEntry)).mpr wired.entry_listed
  · intro w listed
    rw [without_drop.size]
    exact wired.listed_lt w (List.mem_of_mem_erase listed)
  · intro w listed s edge
    rw [succs_drop] at edge
    have before : w ∈ g.listed := List.mem_of_mem_erase listed
    refine (List.mem_erase_of_ne ?_).mpr (wired.succs_listed w before s edge)
    rintro rfl
    exact notInto before edge
  · intro w listed u
    rw [preds_drop, wired.count_preds (List.mem_of_mem_erase listed), edgeCount, edgeCount, succs_drop,
      without_drop.listed]
    by_cases isV : u = v
    · subst isV
      simp [noSuccs]
    · simp only [List.mem_erase_of_ne isV]

theorem foldl_erase_self (l : List VertexId) : l.foldl List.erase l = [] := by
  induction l with
  | nil => rfl
  | cons a l ih => simpa using ih

theorem Wired.foldl_removeEdge_from (wired : g.Wired) (member : v ∈ g.listed) {targets : List VertexId}
    (listed : ∀ t ∈ targets, t ∈ g.listed) :
    (targets.foldl (fun g t => g.removeEdge v t) g).Wired ∧
      ∀ w, (targets.foldl (fun g t => g.removeEdge v t) g).succs w =
        if w = v then targets.foldl List.erase (g.succs v) else g.succs w := by
  induction targets generalizing g with
  | nil => exact ⟨wired, fun w => by split <;> simp_all⟩
  | cons t targets ih =>
    have same : (g.removeEdge v t).listed = g.listed := rewired_removeEdge.listed
    obtain ⟨wired', succs'⟩ := ih (wired.removeEdge member (listed t List.mem_cons_self)) (same ▸ member)
      fun s later => same ▸ listed s (List.mem_cons_of_mem _ later)
    refine ⟨wired', fun w => ?_⟩
    rw [List.foldl_cons, succs', succs_removeEdge (wired.listed_lt v member),
      succs_removeEdge (wired.listed_lt v member)]
    simp only [↓reduceIte, List.foldl_cons]
    split <;> rfl

private theorem Wired.foldl_removeEdge_into (wired : g.Wired) (member : v ∈ g.listed) {sources : List VertexId}
    (listed : ∀ p ∈ sources, p ∈ g.listed) :
    (sources.foldl (fun g p => g.removeEdge p v) g).Wired ∧
      (∀ u, (sources.foldl (fun g p => g.removeEdge p v) g).edgeCount u v = g.edgeCount u v - sources.count u) ∧
      ∀ w, v ∉ g.succs w → (sources.foldl (fun g p => g.removeEdge p v) g).succs w = g.succs w := by
  induction sources generalizing g with
  | nil => exact ⟨wired, fun u => rfl, fun _ _ => rfl⟩
  | cons p sources ih =>
    have same : (g.removeEdge p v).listed = g.listed := rewired_removeEdge.listed
    have source := listed p List.mem_cons_self
    have succs (w : VertexId) : (g.removeEdge p v).succs w = if w = p then (g.succs p).erase v else g.succs w :=
      succs_removeEdge (wired.listed_lt p source)
    obtain ⟨wired', counts', succs'⟩ := ih (wired.removeEdge source member) (same ▸ member)
      fun s later => same ▸ listed s (List.mem_cons_of_mem _ later)
    refine ⟨wired', fun u => ?_, fun w absent => ?_⟩
    · rw [List.foldl_cons, counts', edgeCount, edgeCount, same, succs, List.count_cons]
      by_cases isP : u = p
      · subst isP
        rw [if_pos source, if_pos source, if_pos rfl, List.count_erase_self]
        simp
        omega
      · simp [isP, Ne.symm isP]
    · have kept : (g.removeEdge p v).succs w = g.succs w := by
        rw [succs]
        split
        · rename_i isP
          rw [← isP, List.erase_of_not_mem absent]
        · rfl
      rw [List.foldl_cons, succs' w (kept ▸ absent), kept]

/-- A detached vertex is gone, and what had no edge to it keeps its successors. -/
theorem Wired.detach (wired : g.Wired) (member : v ∈ g.listed) (notEntry : v ≠ g.entry) :
    (g.detach v).Wired ∧ g.Without (g.detach v) v ∧ (g.detach v).succs v = [] ∧
      ∀ w, w ≠ v → v ∉ g.succs w → (g.detach v).succs w = g.succs w := by
  obtain ⟨wired₁, succs₁⟩ := wired.foldl_removeEdge_from member (wired.succs_listed v member)
  have rewired₁ : g.Rewired ((g.succs v).foldl (fun g s => g.removeEdge v s) g) := .foldl (fun _ _ => rewired_removeEdge) _
  rw [Graph.detach]
  generalize (g.succs v).foldl (fun g s => g.removeEdge v s) g = h at wired₁ succs₁ rewired₁ ⊢
  have member₁ : v ∈ h.listed := rewired₁.listed ▸ member
  have noSuccs₁ : h.succs v = [] := by rw [succs₁, if_pos rfl, foldl_erase_self]
  obtain ⟨wired₂, counts₂, succs₂⟩ := wired₁.foldl_removeEdge_into member₁ (wired₁.preds_listed v member₁)
  have rewired₂ : h.Rewired ((h.preds v).foldl (fun g p => g.removeEdge p v) h) := .foldl (fun _ _ => rewired_removeEdge) _
  generalize (h.preds v).foldl (fun g p => g.removeEdge p v) h = k at wired₂ counts₂ succs₂ rewired₂ ⊢
  have member₂ : v ∈ k.listed := rewired₂.listed ▸ member₁
  have noSuccs₂ : k.succs v = [] := by rw [succs₂ v (by simp [noSuccs₁]), noSuccs₁]
  have noPreds₂ : k.preds v = [] := by
    rw [List.eq_nil_iff_forall_not_mem]
    intro u edge
    have counted := counts₂ u
    rw [← wired₂.count_preds member₂, wired₁.count_preds member₁, Nat.sub_self] at counted
    exact List.count_eq_zero.mp counted edge
  have notEntry₂ : v ≠ k.entry := by rw [rewired₂.entry, rewired₁.entry]; exact notEntry
  refine ⟨wired₂.drop member₂ notEntry₂ noSuccs₂ noPreds₂, (rewired₁.trans rewired₂).without without_drop, ?_, ?_⟩
  · rw [succs_drop, noSuccs₂]
  · intro w other absent
    have kept : h.succs w = g.succs w := by rw [succs₁, if_neg other]
    rw [succs_drop, succs₂ w (kept ▸ absent), kept]

/-- `h` is `g` with `v` spliced out and its successor `s` in its place. -/
structure Spliced (g h : Graph) (v s : VertexId) : Prop extends g.Without h v where
  wired : h.Wired
  other : v ≠ s
  only : g.succs v = [s]
  noSuccs : h.succs v = []
  succs : ∀ {w}, w ∈ g.listed → w ≠ v → h.succs w = turned v s (g.succs w)

theorem Wired.splice (wired : g.Wired) (member : v ∈ g.listed) (notEntry : v ≠ g.entry) {s : VertexId}
    (only : g.succs v = [s]) (other : v ≠ s) : g.Spliced (g.splice v) v s := by
  have target : s ∈ g.listed := wired.succs_listed v member s (by simp [only])
  obtain ⟨wired₁, _⟩ := wired.redirectAll (wired.preds_listed v member) member target
  have rewired₁ : g.Rewired (g.redirectAll (g.preds v) v s) := rewired_redirectAll _
  have succs₁ {w : VertexId} (listed : w ∈ g.listed) := wired.redirectAll_preds member target listed
  rw [Graph.splice, only]
  show g.Spliced (((g.redirectAll (g.preds v) v s).removeEdge v s).detach v) v s
  generalize g.redirectAll (g.preds v) v s = h at wired₁ rewired₁ succs₁ ⊢
  have member₁ : v ∈ h.listed := rewired₁.listed ▸ member
  have rewired₂ : h.Rewired (h.removeEdge v s) := rewired_removeEdge
  have wired₂ : (h.removeEdge v s).Wired := wired₁.removeEdge member₁ (rewired₁.listed ▸ target)
  have succs₂ (w : VertexId) : (h.removeEdge v s).succs w = if w = v then (h.succs v).erase s else h.succs w :=
    succs_removeEdge (wired₁.listed_lt v member₁)
  generalize h.removeEdge v s = k at wired₂ rewired₂ succs₂ ⊢
  have notEntry₂ : v ≠ k.entry := by rw [rewired₂.entry, rewired₁.entry]; exact notEntry
  obtain ⟨wired₃, without, noSuccs, succs₃⟩ := wired₂.detach (rewired₂.listed ▸ member₁) notEntry₂
  refine ⟨(rewired₁.trans rewired₂).without without, wired₃, other, only, noSuccs, fun {w} listed isOther => ?_⟩
  have kept : k.succs w = turned v s (g.succs w) := by rw [succs₂, if_neg isOther, succs₁ listed]
  rw [succs₃ w isOther (kept ▸ notMem_turned other), kept]

/-- What can be spliced out is no end of the graph. -/
theorem ne_ends_of_removeObstacle (free : g.removeObstacle v = none) : v ≠ g.entry ∧ v ≠ g.exit := by
  rw [removeObstacle] at free
  split at free
  · simp at free
  · rename_i inside
    exact not_or.mp inside

end Graph

end MiddleEnd
