import MiddleEnd.Proofs.Rewiring

/-!
What happens when a vertex is put on edges. The three insertions differ only in which edges they take: those out of a
vertex, those into it, or those between two vertices. An edge that gets the new vertex keeps its place among the
successors, and the lists of edges stay in agreement.

For paths, a graph with further vertices on its edges is a padded one (`Graph.Padded`): a path through it leaves a path of
the original graph behind when the further vertices are left out, and every path of that one comes about so. Unlike an
expansion this speaks of paths from anywhere, also from what cannot be reached and from the further vertices themselves.
-/
namespace MiddleEnd

namespace Graph

variable {g h k : Graph} {u v w n source target : VertexId}

/-! ### Adding edges -/

theorem rewired_addEdge : g.Rewired (g.addEdge source target) := by
  refine Rewired.trans (Rewired.trans (h := g.modifyVertex source fun v => { v with succs := v.succs ++ [target] })
    ?_ ?_) .touch
  · exact .modifyVertex fun _ => rfl
  · exact .modifyVertex fun _ => rfl

theorem succs_addEdge (inside : source < g.store.size) : (g.addEdge source target).succs w =
    if w = source then g.succs source ++ [target] else g.succs w := by
  rw [addEdge, succs, vertex_touch, congr_modifyVertex Vertex.succs, vertex_modifyVertex]
  · by_cases same : w = source
    · subst same
      simp [inside, succs]
    · simp [same, succs]
  · exact fun _ => rfl

theorem count_preds_addEdge (inside : target < g.store.size) (u : VertexId) :
    ((g.addEdge source target).preds w).count u = (g.preds w).count u + if w = target ∧ u = source then 1 else 0 := by
  have unmoved (w : VertexId) : ((g.modifyVertex source fun v => { v with succs := v.succs ++ [target] }).vertex w).preds =
      g.preds w := by
    rw [preds, congr_modifyVertex Vertex.preds]
    exact fun _ => rfl
  rw [addEdge, preds, vertex_touch, vertex_modifyVertex]
  by_cases same : w = target
  · subst same
    have ends : List.count u [source] = if u = source then 1 else 0 := by
      by_cases fromSource : u = source
      · simp [fromSource]
      · simp [fromSource, Ne.symm fromSource]
    simp [inside, unmoved, List.count_append, ends]
  · simp [same, unmoved]

theorem Wired.addEdge (wired : g.Wired) (source_listed : source ∈ g.listed) (target_listed : target ∈ g.listed) :
    (g.addEdge source target).Wired := by
  have inside := wired.listed_lt source source_listed
  refine wired.rewired rewired_addEdge ?_ ?_
  · intro v member s edge
    rw [succs_addEdge inside] at edge
    split at edge
    · rcases List.mem_append.mp edge with old | new
      · exact wired.succs_listed source source_listed s old
      · exact List.mem_singleton.mp new ▸ target_listed
    · exact wired.succs_listed v member s edge
  · intro v member u
    rw [count_preds_addEdge (wired.listed_lt target target_listed), wired.count_preds member, edgeCount, edgeCount,
      rewired_addEdge.listed, succs_addEdge inside]
    by_cases fromSource : u = source
    · subst fromSource
      by_cases toTarget : v = target
      · simp [source_listed, toTarget]
      · simp [source_listed, toTarget, Ne.symm toTarget]
    · simp [fromSource]

/-! ### Inserting a vertex before another, or on the edges between two -/

theorem turned_nil {old new : VertexId} : turned old new [] = [] :=
  rfl

/-- On the edges between two vertices. -/
theorem Wired.insertOnEdge (wired : g.Wired) (source_listed : source ∈ g.listed) (target_listed : target ∈ g.listed)
    (n_listed : n ∈ g.listed) (notSource : source ≠ n) (noSuccs : g.succs n = []) :
    (g.insertOnEdge source target n).Wired ∧ ∀ w, (g.insertOnEdge source target n).succs w =
      if w = n then [target] else if w = source then turned target n (g.succs source) else g.succs w := by
  have listed : (g.redirect source target n).listed = g.listed := rewired_redirect.listed
  have redirected := wired.redirect source_listed target_listed n_listed
  refine ⟨redirected.addEdge (listed ▸ n_listed) (listed ▸ target_listed), fun w => ?_⟩
  have succs (w : VertexId) : (g.redirect source target n).succs w =
      if w = source then turned target n (g.succs source) else g.succs w :=
    succs_redirect (wired.listed_lt source source_listed)
  rw [Graph.insertOnEdge, succs_addEdge (redirected.listed_lt n (listed ▸ n_listed)), succs, succs]
  simp [Ne.symm notSource, noSuccs]

/-- On all edges into a vertex. -/
theorem Wired.insertBefore (wired : g.Wired) (listed : v ∈ g.listed) (n_listed : n ∈ g.listed) (noSuccs : g.succs n = []) :
    (g.insertBefore v n).Wired ∧ ∀ w ∈ g.listed, (g.insertBefore v n).succs w =
      if w = n then [v] else turned v n (g.succs w) := by
  have same : (g.redirectAll (g.preds v) v n).listed = g.listed := (rewired_redirectAll _).listed
  obtain ⟨redirected, _⟩ := wired.redirectAll (wired.preds_listed v listed) listed n_listed
  refine ⟨redirected.addEdge (same ▸ n_listed) (same ▸ listed), fun w member => ?_⟩
  rw [Graph.insertBefore, succs_addEdge (redirected.listed_lt n (same ▸ n_listed)),
    wired.redirectAll_preds listed n_listed n_listed, wired.redirectAll_preds listed n_listed member]
  simp [noSuccs, turned_nil]

theorem rewired_insertOnEdge : g.Rewired (g.insertOnEdge source target n) :=
  rewired_redirect.trans rewired_addEdge

theorem rewired_insertBefore : g.Rewired (g.insertBefore v n) :=
  (rewired_redirectAll _).trans rewired_addEdge

theorem rewired_insertAfter (inside : v < g.store.size) (insideNew : n < g.store.size) (other : v ≠ n) :
    g.Rewired (g.insertAfter v n) where
  size := size_insertAfter
  entry := entry_insertAfter
  exit := exit_insertAfter
  listed := listed_insertAfter
  vars := vars_insertAfter
  reach := reach_insertAfter
  epoch := by rw [epoch_insertAfter]; exact Nat.le_succ _
  body w := by
    have core : ∃ succs, ((g.insertAfter v n).vertex w).core = { g.vertex w with succs }.core := by
      by_cases isNew : w = n
      · rw [isNew]
        exact ⟨g.succs v, core_insertAfter_new inside insideNew other⟩
      · by_cases isOld : w = v
        · rw [isOld]
          exact ⟨[n], core_insertAfter_old inside insideNew other⟩
        · exact ⟨g.succs w, core_insertAfter_of_ne inside insideNew other isOld isNew⟩
    obtain ⟨succs, same⟩ := core
    obtain ⟨op, binOp, callee, result, args, _, owned⟩ := Vertex.core_eq_iff.mp same
    exact Vertex.body_eq_iff.mpr ⟨op, binOp, callee, result, args, owned⟩

/-! ### Padded graphs -/

/-- Whether `v` is a vertex that `g` has, or had. -/
def knows (g : Graph) (v : VertexId) : Bool :=
  v < g.store.size

@[simp] theorem knows_iff : g.knows v = true ↔ v < g.store.size := by
  simp [knows]

theorem Wired.listed_of_trail {r : VertexId} {past : List VertexId} (wired : g.Wired) (member : r ∈ g.listed)
    (trail : Trail g.succs r past v) : v ∈ g.listed :=
  trail.invariant member fun u s listed edge => wired.succs_listed u listed s edge

theorem Wired.filter_knows {r : VertexId} {past : List VertexId} (wired : g.Wired) (member : r ∈ g.listed)
    (trail : Trail g.succs r past v) : past.filter g.knows = past := by
  rw [List.filter_eq_self]
  intro w passed
  obtain ⟨before, _, _, first, _⟩ := trail.cut passed
  exact knows_iff.mpr (wired.listed_lt w (wired.listed_of_trail member first))

/-- `h` is `g` with further vertices on its edges; following the edges from such a vertex, `back` is the first vertex of
`g`. -/
structure Padded (g h : Graph) (back : VertexId → VertexId) : Prop where
  wired : h.Wired
  entry : h.entry = g.entry
  exit : h.exit = g.exit
  size : g.store.size ≤ h.store.size
  listed : ∀ v, g.knows v = true → (v ∈ h.listed ↔ v ∈ g.listed)
  body : ∀ v, g.knows v = true → (h.vertex v).body = (g.vertex v).body
  degree : ∀ v ∈ g.listed, (h.succs v).length = (g.succs v).length
  back_known : ∀ v, g.knows v = true → back v = v
  back_listed : ∀ v ∈ h.listed, back v ∈ g.listed
  project : ∀ {r past v}, r ∈ h.listed → Trail h.succs r past v →
    Trail g.succs (back r) (past.filter g.knows) (back v)
  lift : ∀ {r past v}, r ∈ g.listed → Trail g.succs r past v →
    ∃ past', Trail h.succs r past' v ∧ past'.filter g.knows = past

namespace Padded

variable {back back' : VertexId → VertexId} {past : List VertexId}

theorem refl (wired : g.Wired) : g.Padded g id where
  wired := wired
  entry := rfl
  exit := rfl
  size := Nat.le_refl _
  listed _ _ := .rfl
  body _ _ := rfl
  degree _ _ := rfl
  back_known _ _ := rfl
  back_listed _ member := member
  project member trail := (wired.filter_knows member trail).symm ▸ trail
  lift member trail := ⟨_, trail, wired.filter_knows member trail⟩

theorem knows_of_knows (padded : g.Padded h back) (old : g.knows v = true) : h.knows v = true :=
  knows_iff.mpr (Nat.lt_of_lt_of_le (knows_iff.mp old) padded.size)

/-- Leaving out the further vertices of both kinds leaves out those of the first. -/
theorem filter_filter (padded : g.Padded h back) (past : List VertexId) :
    (past.filter h.knows).filter g.knows = past.filter g.knows := by
  rw [List.filter_filter]
  refine List.filter_congr fun v _ => ?_
  cases old : g.knows v with
  | false => rfl
  | true => simp [padded.knows_of_knows old]

theorem listed_of_listed (padded : g.Padded h back) (wired : g.Wired) (member : v ∈ g.listed) : v ∈ h.listed :=
  (padded.listed v (knows_iff.mpr (wired.listed_lt v member))).mpr member

/-- Padding follows padding. -/
theorem trans (first : g.Padded h back) (wired : g.Wired) (second : h.Padded k back') : g.Padded k (back ∘ back') where
  wired := second.wired
  entry := second.entry.trans first.entry
  exit := second.exit.trans first.exit
  size := Nat.le_trans first.size second.size
  listed v old := (second.listed v (first.knows_of_knows old)).trans (first.listed v old)
  body v old := (second.body v (first.knows_of_knows old)).trans (first.body v old)
  degree v member := by
    rw [second.degree v (first.listed_of_listed wired member), first.degree v member]
  back_known v old := by
    rw [Function.comp_apply, second.back_known v (first.knows_of_knows old), first.back_known v old]
  back_listed v member := first.back_listed _ (second.back_listed v member)
  project {r past v} member trail := by
    rw [← first.filter_filter]
    exact first.project (second.back_listed r member) (second.project member trail)
  lift {r past v} member trail := by
    obtain ⟨past', trail', rfl⟩ := first.lift member trail
    obtain ⟨past'', trail'', rfl⟩ := second.lift (first.listed_of_listed wired member) trail'
    exact ⟨past'', trail'', (first.filter_filter past'').symm⟩

theorem project_known (padded : g.Padded h back) {r : VertexId} (member : r ∈ h.listed) (trail : Trail h.succs r past v)
    (old : g.knows v = true) : Trail g.succs (back r) (past.filter g.knows) v :=
  padded.back_known v old ▸ padded.project member trail

end Padded

/-! ### One more vertex -/

/-- `h` is `g` with one more vertex, on the edges into `target` from the sources in `via`. -/
structure Interposed (g h : Graph) (target : VertexId) (via : VertexId → Prop) [DecidablePred via] : Prop where
  wired : h.Wired
  entry : h.entry = g.entry
  exit : h.exit = g.exit
  size : h.store.size = g.store.size + 1
  listed : h.listed = g.listed ++ [g.store.size]
  body : ∀ v, g.knows v = true → (h.vertex v).body = (g.vertex v).body
  target_listed : target ∈ g.listed
  onward : h.succs g.store.size = [target]
  succs : ∀ v ∈ g.listed, h.succs v = if via v then turned target g.store.size (g.succs v) else g.succs v

namespace Interposed

variable {via : VertexId → Prop} [DecidablePred via] {past : List VertexId}

/-- Where the edges lead when the new vertex is left out. -/
theorem edge_cases (inter : g.Interposed h target via) (listed : u ∈ g.listed) (edge : v ∈ h.succs u) :
    v = g.store.size ∧ via u ∧ target ∈ g.succs u ∨ v ∈ g.succs u ∧ (via u → v ≠ target) := by
  rw [inter.succs u listed] at edge
  split at edge
  · rename_i passes
    obtain ⟨s, edge', same⟩ := List.mem_map.mp edge
    split at same
    · rename_i isTarget
      exact .inl ⟨same.symm, passes, isTarget ▸ edge'⟩
    · rename_i other
      exact .inr ⟨same ▸ edge', fun _ => same ▸ other⟩
  · rename_i passes
    exact .inr ⟨edge, fun holds => absurd holds passes⟩

/-- A path through the new vertex goes on to its target, so it may be taken to be there already. -/
theorem project (inter : g.Interposed h target via) (wired : g.Wired) (member : source ∈ h.listed)
    (trail : Trail h.succs source past v) : Trail g.succs (if source = g.store.size then target else source)
      (past.filter g.knows) (if v = g.store.size then target else v) := by
  induction trail with
  | start => exact .start
  | @step past u v before edge ih =>
    have listed : u ∈ g.listed ∨ u = g.store.size := by
      have := inter.wired.listed_of_trail member before
      rwa [inter.listed, List.mem_append, List.mem_singleton] at this
    rw [List.filter_append, List.filter_cons, List.filter_nil]
    rcases listed with listed | rfl
    · have inside := wired.listed_lt u listed
      have notNew : u ≠ g.store.size := Nat.ne_of_lt inside
      rw [if_pos (knows_iff.mpr inside)]
      rw [if_neg notNew] at ih
      refine ih.step ?_
      rcases inter.edge_cases listed edge with ⟨rfl, _, edge'⟩ | ⟨edge', _⟩
      · rwa [if_pos rfl]
      · rwa [if_neg (Nat.ne_of_lt (wired.listed_lt v (wired.succs_listed u listed v edge')))]
    · rw [inter.onward, List.mem_singleton] at edge
      subst edge
      have known : v ≠ g.store.size := Nat.ne_of_lt (wired.listed_lt v inter.target_listed)
      rw [if_pos rfl] at ih
      simpa [known, knows] using ih

/-- Every path there was can still be taken, with the new vertex on the edges that it was put on. -/
theorem lift (inter : g.Interposed h target via) (wired : g.Wired) (member : source ∈ g.listed)
    (trail : Trail g.succs source past v) : ∃ past', Trail h.succs source past' v ∧ past'.filter g.knows = past := by
  induction trail with
  | start => exact ⟨[], .start, rfl⟩
  | @step past u v before edge ih =>
    obtain ⟨past', trail', rfl⟩ := ih
    have listed := wired.listed_of_trail member before
    have old : g.knows u = true := knows_iff.mpr (wired.listed_lt u listed)
    by_cases moved : via u ∧ v = target
    · obtain ⟨passes, rfl⟩ := moved
      have first : g.store.size ∈ h.succs u := by
        rw [inter.succs u listed, if_pos passes]
        exact List.mem_map.mpr ⟨v, edge, if_pos rfl⟩
      refine ⟨_, (trail'.step first).step (by simp [inter.onward]), ?_⟩
      have new : g.knows g.store.size = false := by simp [knows]
      simp [old, new]
    · have kept : v ∈ h.succs u := by
        rw [inter.succs u listed]
        split
        · exact List.mem_map.mpr ⟨v, edge, if_neg fun same => moved ⟨‹_›, same⟩⟩
        · exact edge
      exact ⟨_, trail'.step kept, by simp [old]⟩

theorem padded (inter : g.Interposed h target via) (wired : g.Wired) :
    g.Padded h fun v => if v = g.store.size then target else v where
  wired := inter.wired
  entry := inter.entry
  exit := inter.exit
  size := by rw [inter.size]; exact Nat.le_succ _
  listed v old := by
    have notNew : v ≠ g.store.size := Nat.ne_of_lt (knows_iff.mp old)
    simp [inter.listed, notNew]
  body := inter.body
  degree v member := by
    rw [inter.succs v member]
    split
    · rw [turned, List.length_map]
    · rfl
  back_known v old := if_neg (Nat.ne_of_lt (knows_iff.mp old))
  back_listed v member := by
    rw [inter.listed, List.mem_append, List.mem_singleton] at member
    split
    · exact inter.target_listed
    · exact member.resolve_right ‹_›
  project := inter.project wired
  lift := inter.lift wired

end Interposed

end Graph

end MiddleEnd
