import MiddleEnd.Proofs.SingleAssignment
import MiddleEnd.Proofs.Verified

/-!
The phis that splitting variables makes. The walk adds an input only where it is not one yet and not the result, and visits
never touch a phi, so inputs stay sets (`Analysis.toSingleAssignment_verified`).
-/
namespace MiddleEnd

namespace Renaming

variable {g : Graph} {x : VarId} {labels : List VertexId} {s : Renaming} {f : RenameFrame} {stack : List RenameFrame}

/-- What the walk for `x` keeps true of lists: no vertex is listed twice, the inputs of phis are sets, and no phi writes
`x`. -/
structure Orderly (x : VarId) (h : Graph) : Prop where
  nodup : h.listed.Nodup
  phis : ∀ v ∈ h.listed, h.op v = .phi → (h.vertex v).InputsApart ∧ (h.vertex v).result ≠ some x

/-- A vertex may change, as long as a phi keeps its result and its inputs apart. -/
theorem Orderly.update {h h' : Graph} {n : VertexId} (orderly : Orderly x h) (listed : h'.listed = h.listed)
    (others : ∀ v, v ≠ n → h'.vertex v = h.vertex v)
    (here : h'.op n = .phi → h.op n = .phi ∧ (h'.vertex n).result = (h.vertex n).result ∧
      ((h.vertex n).InputsApart → (h'.vertex n).InputsApart)) : Orderly x h' := by
  refine ⟨listed ▸ orderly.nodup, fun v member isPhi => ?_⟩
  rw [listed] at member
  by_cases isN : v = n
  · subst isN
    obtain ⟨wasPhi, result, apart⟩ := here isPhi
    obtain ⟨before, notX⟩ := orderly.phis v member wasPhi
    exact ⟨apart before, by rwa [result]⟩
  · rw [Graph.op, others v isN] at isPhi
    rw [others v isN]
    exact orderly.phis v member isPhi

theorem Orderly.placePhi (orderly : Orderly x s.graph) (wired : s.graph.Wired) (inside : f.vertex < s.graph.store.size)
    (value : f.value < s.graph.vars.size) (known : x < s.graph.vars.size) : Orderly x (s.placePhi x f).1.graph := by
  have listed : (s.placePhi x f).1.graph.listed = s.graph.listed ++ [s.graph.store.size] := by
    rw [graph_placePhi, Graph.listed_insertAfter, listed_withPhi]
  have new : s.graph.store.size ∉ s.graph.listed := fun member => Nat.lt_irrefl _ (wired.listed_lt _ member)
  refine ⟨?_, fun v member isPhi => ?_⟩
  · rw [listed]
    refine List.nodup_append.mpr ⟨orderly.nodup, by simp, ?_⟩
    rintro v member w isNew rfl
    exact new (List.mem_singleton.mp isNew ▸ member)
  · rw [listed, List.mem_append, List.mem_singleton] at member
    rcases member with old | rfl
    · -- of the vertices that were there, one gets another successor
      have same : ((s.placePhi x f).1.graph.vertex v).op = (s.graph.vertex v).op ∧
          ((s.placePhi x f).1.graph.vertex v).result = (s.graph.vertex v).result ∧
          ((s.placePhi x f).1.graph.vertex v).args = (s.graph.vertex v).args := by
        by_cases isLabel : v = f.vertex
        · subst isLabel
          obtain ⟨op, _, _, result, args, _⟩ := Vertex.core_eq_iff.mp (core_placePhi_label (x := x) inside)
          exact ⟨op, result, args⟩
        · have notNew : v ≠ s.graph.store.size := fun isNew => new (isNew ▸ old)
          obtain ⟨op, _, _, result, args, _⟩ := Vertex.core_eq_iff.mp (core_placePhi_of_ne (x := x) inside isLabel notNew)
          exact ⟨op, result, args⟩
      obtain ⟨op, result, args⟩ := same
      obtain ⟨apart, notX⟩ := orderly.phis v old (op.symm.trans isPhi)
      exact ⟨apart.congr result args, by rwa [result]⟩
    · obtain ⟨_, _, _, result, args, _⟩ := Vertex.core_eq_iff.mp (core_placePhi_new (x := x) inside value)
      refine ⟨?_, by simpa [result] using Nat.ne_of_gt known⟩
      rw [Vertex.InputsApart, result, args, RenameFrame.carried]
      split
      · simpa using Nat.ne_of_gt value
      · simp

theorem Orderly.join {phi : VertexId} {a : Option VarId} (orderly : Orderly x s.graph) (inside : phi < s.graph.store.size) :
    Orderly x (s.graph.modifyVertex phi (·.addPhiInput a)) := by
  refine orderly.update (n := phi) rfl (fun v other => Graph.vertex_modifyVertex_of_ne other) ?_
  rw [Graph.op, Graph.vertex_modifyVertex_self inside]
  exact fun isPhi => ⟨by simpa [Graph.op] using isPhi, by simp, .addPhiInput⟩

theorem Orderly.visit (orderly : Orderly x s.graph) (listed : f.vertex ∈ s.graph.listed)
    (inside : f.vertex < s.graph.store.size) : Orderly x (Renaming.visit s.graph x f).1 := by
  by_cases isPhi : s.graph.op f.vertex = .phi
  · rw [visit_of_special (.inl isPhi) (orderly.phis _ listed isPhi).2]
    exact orderly
  by_cases isFunction : s.graph.op f.vertex = .function
  · simpa [Renaming.visit, isFunction] using orderly
  · rw [visit_of_ordinary inside isPhi isFunction]
    split
    · refine orderly.update (n := f.vertex) (by simp [withWrite, listed_withReads]) (fun v => vertex_withWrite_of_ne) ?_
      rw [Graph.op, vertex_withWrite_self inside isPhi]
      exact fun is => absurd is isPhi
    · refine orderly.update (n := f.vertex) listed_withReads (fun v => vertex_withReads_of_ne) ?_
      rw [Graph.op, vertex_withReads_self inside isPhi]
      exact fun is => absurd is isPhi

theorem orderly_walk (split : Splitting g x labels) (inv : WalkInvariant g x labels s stack) (orderly : Orderly x s.graph) :
    Orderly x (walk x s stack) := by
  fun_induction walk x s stack with
  | case1 s => exact orderly
  | case2 s f stack waits placed ih =>
    have ok := inv.frames f List.mem_cons_self
    obtain ⟨past, trail, _⟩ := ok.path
    have known : x < s.graph.vars.size := Nat.lt_of_lt_of_le split.known inv.layout.vars
    exact ih (inv.placePhi split waits) (orderly.placePhi inv.layout.wired (inv.layout.lt trail) ok.inside known)
  | case3 s f stack quiet phi found h ih =>
    refine ih (inv.join split found) ?_
    cases defined : f.defined with
    | false => simpa [h, defined] using orderly
    | true => simpa [h, defined] using orderly.join (inv.layout.phi found).2.2.inside
  | case4 s f stack quiet noPhi unvisited h value defined made ih =>
    have visit := inv.visitMade split unvisited
    obtain ⟨past, trail, _⟩ := (inv.frames f List.mem_cons_self).path
    have listed := inv.layout.wired.listed_of_reachable (inv.layout.reachable trail)
    have visited := orderly.visit listed (inv.layout.wired.listed_lt _ listed)
    rw [made] at visit visited
    exact ih (visit.walkInvariant split inv quiet noPhi unvisited) visited
  | case5 s f stack quiet noPhi visited ih => exact ih (inv.skip noPhi visited) orderly

end Renaming

namespace Analysis

variable {g : Graph} {src : VarId → VarId} {rest : List VarId} {a a' : Analysis}

/-- What splitting the variables in turn keeps true of lists. -/
theorem orderly_forM (stage : Stage g src rest a) (distinct : rest.Nodup) (nodup : a.graph.listed.Nodup)
    (phiSets : a.graph.PhiSets) (done : (rest.forM singleAssignmentOf).Succeeds a () a') :
    a'.graph.listed.Nodup ∧ a'.graph.PhiSets := by
  refine forM_induct (P := fun _ b => b.graph.listed.Nodup ∧ b.graph.PhiSets) stage distinct done ⟨nodup, phiSets⟩
    (fun _ _ _ _ kept => kept) ?_
  rintro src x rest b labels stage chosen ⟨nodup, phiSets⟩
  have splitting := stage.splitting chosen
  have start : Renaming.Orderly x b.graph := ⟨nodup, fun v member isPhi =>
    ⟨phiSets v member isPhi, (Vertex.references_eq_false_iff.mp (splitting.noPhi v member isPhi)).1⟩⟩
  have orderly := Renaming.orderly_walk splitting (Renaming.walkInvariant_start splitting) start
  exact ⟨orderly.nodup, fun v member isPhi => (orderly.phis v member isPhi).1⟩

/-- Single assignment form passes the integrity check. -/
theorem toSingleAssignment_verified (sound : a.graph.Sound) (inScope : a.graph.Scoped)
    (noPhi : ∀ v ∈ a.graph.listed, a.graph.op v ≠ .phi) (dated : a.Dated) (nodup : a.graph.listed.Nodup)
    (done : toSingleAssignment.Succeeds a () a') : a'.graph.listed.Nodup ∧ a'.graph.Verified := by
  have stage := stage_toSingleAssignment sound inScope noPhi dated done
  obtain ⟨xs, mentioned, distinct, done⟩ := toSingleAssignment_succeeds done
  obtain ⟨nodup, phiSets⟩ := orderly_forM (stage_start sound inScope noPhi dated mentioned) distinct nodup
    (fun v member isPhi => absurd isPhi (noPhi v member)) done
  exact ⟨nodup, stage.versioned.sound, phiSets⟩

end Analysis

end MiddleEnd
