import MiddleEnd.Proofs.Renaming.Outcome

/-!
How the walk threads its phis into the graph. The lists of predecessors keep their order: where a label stood, its phi
stands now, and the phi has the label as its only predecessor (`Renaming.Threaded`). New vertices are listed behind the
old ones.
-/
namespace MiddleEnd

namespace Renaming

variable {g : Graph} {x : VarId} {labels : List VertexId} {s : Renaming} {f : RenameFrame} {stack : List RenameFrame}
  {v : VertexId}

/-- The vertex that the edges out of `p` start from now: the phi behind `p`, if there is one. -/
def outlet (s : Renaming) (p : VertexId) : VertexId :=
  (s.phis.lookup p).getD p

/-- What the walk does to lists of predecessors and to the list of vertices; what is not listed, it leaves alone. -/
structure Threaded (g : Graph) (s : Renaming) : Prop where
  name : s.graph.name = g.name
  sig : s.graph.sig = g.sig
  listed : ∃ new, s.graph.listed = g.listed ++ new ∧ ∀ v ∈ new, g.store.size ≤ v
  unlisted : ∀ {v}, v < g.store.size → v ∉ g.listed → s.graph.vertex v = g.vertex v
  old : ∀ {v}, v ∈ g.listed → s.graph.preds v = (g.preds v).map s.outlet
  new : ∀ {l phi}, s.phis.lookup l = some phi → s.graph.preds phi = [l]

/-- Changes of one vertex that leave the edges and the phis alone. -/
theorem Threaded.update {h : Graph} {n : VertexId} (threaded : Threaded g s) (name : h.name = s.graph.name)
    (sig : h.sig = s.graph.sig) (listed : h.listed = s.graph.listed) (member : n ∈ g.listed ∨ g.store.size ≤ n)
    (others : ∀ v, v ≠ n → h.vertex v = s.graph.vertex v) (here : h.preds n = s.graph.preds n)
    {unvisited : VertexSet} : Threaded g { s with graph := h, unvisited := unvisited } := by
  have preds (v : VertexId) : h.preds v = s.graph.preds v := by
    by_cases isN : v = n
    · rw [isN, here]
    · rw [Graph.preds, others v isN]
      rfl
  refine ⟨name.trans threaded.name, sig.trans threaded.sig, ?_, ?_, ?_, ?_⟩
  · rw [listed]
    exact threaded.listed
  · intro v inside absent
    have other : v ≠ n := by
      rintro rfl
      rcases member with known | new
      · exact absent known
      · exact absurd inside (Nat.not_lt.mpr new)
    rw [others v other]
    exact threaded.unlisted inside absent
  · intro v known
    exact (preds v).trans (threaded.old known)
  · intro l phi found
    exact (preds phi).trans (threaded.new found)

@[simp] theorem name_withPhi : (s.withPhi x f).name = s.graph.name := by
  rw [withPhi]; split <;> rfl

@[simp] theorem sig_withPhi : (s.withPhi x f).sig = s.graph.sig := by
  rw [withPhi]; split <;> rfl

theorem preds_placePhi_new (inside : f.vertex < s.graph.store.size) :
    (s.placePhi x f).1.graph.preds s.graph.store.size = [f.vertex] := by
  rw [graph_placePhi]
  exact Graph.preds_insertAfter_new (by simpa using Nat.lt_succ_of_lt inside) (by simp) (Nat.ne_of_lt inside)

/-- The new phi takes the place of its label among the predecessors. -/
theorem preds_placePhi (wired : s.graph.Wired) (listed : f.vertex ∈ s.graph.listed) (member : v ∈ s.graph.listed) :
    (s.placePhi x f).1.graph.preds v =
      (s.graph.preds v).map fun p => if p = f.vertex then s.graph.store.size else p := by
  have inside := wired.listed_lt _ listed
  have below := wired.listed_lt _ member
  have notNew := Nat.ne_of_lt below
  have same : (s.withPhi x f).vertex v = s.graph.vertex v := vertex_withPhi_of_ne notNew
  have sameLabel : (s.withPhi x f).vertex f.vertex = s.graph.vertex f.vertex := vertex_withPhi_of_ne (Nat.ne_of_lt inside)
  rw [graph_placePhi, Graph.preds_insertAfter_of_ne (by simpa using Nat.lt_succ_of_lt inside) (by simp)
    (Nat.ne_of_lt inside) notNew (by simpa using Nat.lt_succ_of_lt below), Graph.preds, same]
  · rfl
  · intro noEdge back
    rw [Graph.succs, sameLabel] at noEdge
    rw [Graph.preds, same] at back
    exact noEdge ((wired.mem_preds_iff listed member).mpr back)

theorem Threaded.placePhi (split : Splitting g x labels) (inv : WalkInvariant g x labels s (f :: stack))
    (threaded : Threaded g s) (waits : f.vertex ∈ s.pending) : Threaded g (s.placePhi x f).1 := by
  obtain ⟨isLabel, unvisited⟩ := inv.layout.pending waits
  have old := split.label_lt isLabel
  have inside := Nat.lt_of_lt_of_le old inv.layout.size
  have listed : f.vertex ∈ s.graph.listed := by
    rw [inv.layout.listed]
    exact .inl (split.sound.wired.listed_of_reachable (split.placed.reachable _ isLabel))
  have noPhi := inv.layout.lookup_eq_none fun _ => unvisited
  refine ⟨?_, ?_, ?_, ?_, ?_, ?_⟩
  · rw [graph_placePhi, Graph.name_insertAfter, name_withPhi, threaded.name]
  · rw [graph_placePhi, Graph.sig_insertAfter, sig_withPhi, threaded.sig]
  · obtain ⟨new, all, fresh⟩ := threaded.listed
    refine ⟨new ++ [s.graph.store.size], ?_, ?_⟩
    · rw [graph_placePhi, Graph.listed_insertAfter, listed_withPhi, all, List.append_assoc]
    · intro v member
      rcases List.mem_append.mp member with earlier | last
      · exact fresh v earlier
      · rw [List.mem_singleton.mp last]
        exact inv.layout.size
  · intro v below absent
    have belowNow := Nat.lt_of_lt_of_le below inv.layout.size
    have notListed : v ∉ s.graph.listed := fun member => absent (inv.layout.mem_old member below)
    have notLabel : v ≠ f.vertex := fun same => notListed (same ▸ listed)
    have sameLabel : (s.withPhi x f).vertex f.vertex = s.graph.vertex f.vertex :=
      vertex_withPhi_of_ne (Nat.ne_of_lt inside)
    rw [graph_placePhi, Graph.vertex_insertAfter_of_notMem (by simpa using Nat.lt_succ_of_lt inside) (by simp)
      (Nat.ne_of_lt inside) notLabel (Nat.ne_of_lt belowNow), vertex_withPhi_of_ne (Nat.ne_of_lt belowNow)]
    · exact threaded.unlisted below absent
    · rw [Graph.succs, sameLabel]
      exact fun edge => notListed (inv.layout.wired.succs_listed _ listed v edge)
  · intro v member
    rw [preds_placePhi inv.layout.wired listed (inv.layout.listed.mpr (.inl member)), threaded.old member, List.map_map]
    apply List.map_congr_left
    intro p _
    rw [Function.comp_apply, outlet, outlet, lookup_placePhi]
    by_cases isLabel : p = f.vertex
    · rw [if_pos isLabel, isLabel, noPhi, Option.getD_none, if_pos rfl, Option.getD_some]
    · rw [if_neg isLabel]
      generalize found : s.phis.lookup p = behind
      cases behind with
      | none => exact if_neg isLabel
      | some phi =>
        -- a phi is new, so it is not the label
        have new := (inv.layout.phi found).2.2.new
        have other : phi ≠ f.vertex := by grind
        exact if_neg other
  · intro l phi found
    rw [lookup_placePhi] at found
    split at found
    · rename_i isLabel
      obtain rfl := Option.some.inj found
      rw [preds_placePhi_new inside, isLabel]
    · rename_i other
      have placed := (inv.layout.phi found).2.2
      have member : phi ∈ s.graph.listed := inv.layout.listed.mpr (.inr ⟨placed.new, placed.inside⟩)
      rw [preds_placePhi inv.layout.wired listed member, threaded.new found]
      simp [other]

theorem Threaded.visit (threaded : Threaded g s) (member : f.vertex ∈ g.listed ∨ g.store.size ≤ f.vertex)
    (unvisited : VertexSet) :
    Threaded g { s with graph := (Renaming.visit s.graph x f).1, unvisited := unvisited } := by
  refine threaded.update (n := f.vertex) ?_ ?_ ?_ member (fun v other => ?_) ?_
  · simp only [Renaming.visit]
    split <;> split <;> rfl
  · simp only [Renaming.visit]
    split <;> split <;> rfl
  · simp only [Renaming.visit]
    split <;> split <;> rfl
  · have reads : (s.graph.modifyVertex f.vertex (·.replaceArgs (some x) (some f.value))).vertex v = s.graph.vertex v :=
      Graph.vertex_modifyVertex_of_ne other
    simp only [Renaming.visit]
    split
    · split
      · exact (Graph.vertex_modifyVertex_of_ne other).trans reads
      · exact reads
    · split
      · exact Graph.vertex_modifyVertex_of_ne other
      · rfl
  · -- neither renaming reads nor splitting off a write touches edges
    have reads : (s.graph.modifyVertex f.vertex (·.replaceArgs (some x) (some f.value))).preds f.vertex =
        s.graph.preds f.vertex :=
      Graph.congr_modifyVertex Vertex.preds (fun _ => Vertex.preds_replaceArgs) f.vertex
    have writes {h : Graph} {y : VarId} :
        (h.modifyVertex f.vertex fun w => { w with result := some y }).preds f.vertex = h.preds f.vertex :=
      Graph.congr_modifyVertex (f := fun w => { w with result := some y }) Vertex.preds (fun _ => rfl) f.vertex
    simp only [Renaming.visit]
    split
    · split
      · exact writes.trans reads
      · exact reads
    · split
      · exact writes
      · rfl

/-- The whole walk threads its phis in. -/
theorem threaded_walk (split : Splitting g x labels) (inv : WalkInvariant g x labels s stack) (threaded : Threaded g s) :
    ∃ s', s'.graph = walk x s stack ∧ WalkInvariant g x labels s' [] ∧ Threaded g s' := by
  fun_induction walk x s stack with
  | case1 s => exact ⟨s, rfl, inv, threaded⟩
  | case2 s f stack waits placed ih => exact ih (inv.placePhi split waits) (threaded.placePhi split inv waits)
  | case3 s f stack quiet phi found h ih =>
    refine ih (inv.join split found) ?_
    have new := (inv.layout.phi found).2.2.new
    cases defined : f.defined with
    | false => simpa [h, defined] using threaded
    | true =>
      have joined : Threaded g { s with graph := s.graph.modifyVertex phi (·.addPhiInput (some f.value)) } := by
        refine threaded.update ?_ ?_ ?_ (.inr new) (fun v other => Graph.vertex_modifyVertex_of_ne other) ?_
        · rfl
        · rfl
        · rfl
        · exact Graph.congr_modifyVertex Vertex.preds (fun _ => Vertex.preds_addPhiInput) phi
      simpa [h, defined] using joined
  | case4 s f stack quiet noPhi unvisited h value defined made ih =>
    have visit := inv.visitMade split unvisited
    obtain ⟨past, trail, _⟩ := (inv.frames f List.mem_cons_self).path
    have member := inv.layout.listed.mp (inv.layout.wired.listed_of_reachable (inv.layout.reachable trail))
    have visited := threaded.visit (x := x) (member.imp_right And.left) (s.unvisited.erase f.vertex)
    rw [made] at visit visited
    exact ih (visit.walkInvariant split inv quiet noPhi unvisited) visited
  | case5 s f stack quiet noPhi visited ih => exact ih (inv.skip noPhi visited) threaded

/-- Splitting a variable ends with everything taken care of, and the phis threaded in. -/
theorem threaded_splitVariable (split : Splitting g x labels) :
    ∃ s, s.graph = g.splitVariable x labels ∧ WalkInvariant g x labels s [] ∧ Threaded g s := by
  refine threaded_walk split (walkInvariant_start split) ⟨rfl, rfl, ⟨[], by simp, by simp⟩, fun _ _ => rfl, ?_, ?_⟩
  · intro v _
    exact (List.map_id _).symm
  · intro l phi found
    simp at found

end Renaming

end MiddleEnd
