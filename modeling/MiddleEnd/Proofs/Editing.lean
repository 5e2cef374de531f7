import MiddleEnd.Proofs.Insertion
import MiddleEnd.Proofs.Replacing

/-!
Runs of edits. Whatever order the changes of a graph are made in, as long as they name vertices of the graph, the list of
vertices stays in the order of their creation, the vertices keep to the list, and both ends of every edge know it
(`Graph.Consistent`).

The order of creation is that of the IDs only while there is an ID for every vertex that was ever created
(`Graph.Consistent.ascendingIds`). Edits that create and detach do not enlarge the graph and still use IDs up, so that in
the end a vertex gets one that is lower than those before it (`Graph.recreated_of_idOf`).

One change has a loop that nothing bounds from outside: the edges of a detached vertex are taken away as long as there are
any. It comes to its end because each edge in one list is found in the other (`Graph.Wired.drains`).
-/
namespace MiddleEnd

/-- A change of the structure of a graph. -/
inductive Edit
  | addVertex (op : Op) (result : Option VarId) (args : List (Option VarId))
  | addEdge (source target : VertexId)
  | removeEdge (source target : VertexId)
  | insertAfter (v n : VertexId)
  | insertBefore (v n : VertexId)
  | insertOnEdge (source target n : VertexId)
  | replace (old n : VertexId)
  | remove (v : VertexId)
  | detach (v : VertexId)

/-- Only new vertices take an ID. -/
def Edit.creates : Edit → Bool
  | .addVertex .. => true
  | _ => false

/-- Makes a change. A vertex that cannot be spliced out stays. -/
def Edit.run (g : Graph) : Edit → Graph
  | .addVertex op result args => g.addVertex op result args
  | .addEdge source target => g.addEdge source target
  | .removeEdge source target => g.removeEdge source target
  | .insertAfter v n => g.insertAfter v n
  | .insertBefore v n => g.insertBefore v n
  | .insertOnEdge source target n => g.insertOnEdge source target n
  | .replace old n => g.replace old n
  | .remove v => (g.remove v).toOption.getD g
  | .detach v => g.detach v

namespace Graph

/-- A vertex of the graph without edges. -/
def Unconnected (g : Graph) (n : VertexId) : Prop :=
  n ∈ g.listed ∧ g.succs n = [] ∧ g.preds n = []

instance (g : Graph) (n : VertexId) : Decidable (g.Unconnected n) :=
  inferInstanceAs (Decidable (_ ∧ _ ∧ _))

end Graph

/-- Edits are about vertices of the graph; what is put between others is without edges so far, and the ends of the graph
are not detached. -/
def Edit.Allowed (g : Graph) : Edit → Prop
  | .addVertex .. => True
  | .addEdge source target | .removeEdge source target => source ∈ g.listed ∧ target ∈ g.listed
  | .insertAfter v n | .insertBefore v n | .replace v n => v ∈ g.listed ∧ g.Unconnected n ∧ v ≠ n
  | .insertOnEdge source target n =>
    (source ∈ g.listed ∧ target ∈ g.listed) ∧ g.Unconnected n ∧ source ≠ n ∧ target ≠ n
  | .remove v => v ∈ g.listed
  | .detach v => v ∈ g.listed ∧ v ≠ g.entry ∧ v ≠ g.exit

instance (g : Graph) : DecidablePred (Edit.Allowed g)
  | .addVertex .. => inferInstanceAs (Decidable True)
  | .addEdge .. | .removeEdge .. => inferInstanceAs (Decidable (_ ∧ _))
  | .insertAfter .. | .insertBefore .. | .replace .. => inferInstanceAs (Decidable (_ ∧ _ ∧ _))
  | .insertOnEdge .. => inferInstanceAs (Decidable ((_ ∧ _) ∧ _ ∧ _ ∧ _))
  | .remove v => inferInstanceAs (Decidable (v ∈ g.listed))
  | .detach .. => inferInstanceAs (Decidable (_ ∧ _ ∧ _))

namespace Graph

variable {g h : Graph} {v n source target : VertexId}

/-- The graph after a run of edits. -/
def edited (g : Graph) (edits : List Edit) : Graph :=
  edits.foldl Edit.run g

/-- Every edit of the run is allowed where it is made. -/
def Admits (g : Graph) : List Edit → Prop
  | [] => True
  | e :: edits => e.Allowed g ∧ (e.run g).Admits edits

instance decidableAdmits (g : Graph) : (edits : List Edit) → Decidable (g.Admits edits)
  | [] => inferInstanceAs (Decidable True)
  | e :: edits =>
    have := decidableAdmits (e.run g) edits
    inferInstanceAs (Decidable (_ ∧ _))

theorem edited_append {edits more : List Edit} : g.edited (edits ++ more) = (g.edited edits).edited more :=
  List.foldl_append

theorem admits_append {edits more : List Edit} :
    g.Admits (edits ++ more) ↔ g.Admits edits ∧ (g.edited edits).Admits more := by
  induction edits generalizing g with
  | nil => exact (iff_of_eq (true_and _)).symm
  | cons e edits ih => rw [List.cons_append, Admits, ih, Admits, and_assoc]; rfl

/-! ### Taking the edges of a vertex away -/

/-- Takes the edges of `v` away one at a time, those out of it first, until none is left: `Drains v g h` is a run of that
loop which ends in `h`. -/
inductive Drains (v : VertexId) : Graph → Graph → Prop
  | out {g h : Graph} {s : VertexId} {rest : List VertexId} (next : g.succs v = s :: rest)
      (later : Drains v (g.removeEdge v s) h) : Drains v g h
  | into {g h : Graph} {p : VertexId} {rest : List VertexId} (noSuccs : g.succs v = []) (next : g.preds v = p :: rest)
      (later : Drains v (g.removeEdge p v) h) : Drains v g h
  | done {g : Graph} (noSuccs : g.succs v = []) (noPreds : g.preds v = []) : Drains v g g

theorem preds_removeEdge (inside : target < g.store.size) (edge : target ∈ g.succs source) :
    (g.removeEdge source target).preds target = (g.preds target).erase source := by
  rw [removeEdge, if_pos (by simpa [hasEdge] using edge), preds, vertex_touch,
    vertex_modifyVertex_self (by simpa using inside), preds, congr_modifyVertex Vertex.preds]
  exact fun _ => rfl

theorem Drains.of_out (inside : v < g.store.size)
    (later : Drains v ((g.succs v).foldl (fun g s => g.removeEdge v s) g) h) : Drains v g h := by
  generalize targets : g.succs v = l at later
  induction l generalizing g with
  | nil => exact later
  | cons s l ih =>
    refine .out targets (ih ?_ ?_ later)
    · rw [rewired_removeEdge.size]; exact inside
    · rw [succs_removeEdge inside, if_pos rfl, targets, List.erase_cons_head]

/-- Each predecessor has the edge that it is known by, so it leaves the list with it. -/
theorem Wired.drains_into (wired : g.Wired) (member : v ∈ g.listed) (noSuccs : g.succs v = []) :
    Drains v g ((g.preds v).foldl (fun g p => g.removeEdge p v) g) := by
  generalize sources : g.preds v = l
  induction l generalizing g with
  | nil => exact .done noSuccs sources
  | cons p l ih =>
    have known : p ∈ g.preds v := by simp [sources]
    have source : p ∈ g.listed := wired.preds_listed v member p known
    have edge : v ∈ g.succs p := (wired.mem_preds_iff source member).mpr known
    refine .into noSuccs sources (ih (wired.removeEdge source member) ?_ ?_ ?_)
    · rw [rewired_removeEdge.listed]; exact member
    · rw [succs_removeEdge (wired.listed_lt p source)]
      split
      · rename_i isP
        rw [← isP, noSuccs]; rfl
      · exact noSuccs
    · rw [preds_removeEdge (wired.listed_lt v member) edge, sources, List.erase_cons_head]

theorem Wired.drains (wired : g.Wired) (member : v ∈ g.listed) : ∃ h, Drains v g h ∧ g.detach v = h.drop v := by
  obtain ⟨wired₁, succs₁⟩ := wired.foldl_removeEdge_from member (wired.succs_listed v member)
  have rewired₁ : g.Rewired ((g.succs v).foldl (fun g s => g.removeEdge v s) g) := .foldl (fun _ _ => rewired_removeEdge) _
  refine ⟨_, Drains.of_out (wired.listed_lt v member) (wired₁.drains_into (rewired₁.listed ▸ member) ?_), rfl⟩
  rw [succs₁, if_pos rfl, foldl_erase_self]

/-! ### Splicing out -/

/-- The predecessors of `v` connected to its successor, if it has one. -/
def bypassed (g : Graph) (v : VertexId) : Graph :=
  match g.succs v with
  | [] => g
  | s :: _ => (g.redirectAll (g.preds v) v s).removeEdge v s

theorem splice_eq : g.splice v = (g.bypassed v).detach v := by
  rw [splice, bypassed]
  cases g.succs v <;> rfl

theorem rewired_bypassed : g.Rewired (g.bypassed v) := by
  rw [bypassed]
  split
  · exact .refl
  · exact (rewired_redirectAll _).trans rewired_removeEdge

/-- This includes a vertex that is its own successor. -/
theorem Wired.bypassed (wired : g.Wired) (member : v ∈ g.listed) : (g.bypassed v).Wired := by
  rw [Graph.bypassed]
  split
  · exact wired
  · rename_i s rest succs
    have target : s ∈ g.listed := wired.succs_listed v member s (by simp [succs])
    have same : (g.redirectAll (g.preds v) v s).listed = g.listed := (rewired_redirectAll _).listed
    obtain ⟨redirected, _⟩ := wired.redirectAll (wired.preds_listed v member) member target
    exact redirected.removeEdge (same ▸ member) (same ▸ target)

/-! ### What edits keep -/

/-- The vertices of the graph are listed in the order of their creation, they are those that belong to it, both ends are
among them, and edges are between them and known at both ends. -/
structure Consistent (g : Graph) : Prop extends g.Wired where
  exit_listed : g.exit ∈ g.listed
  ascending : g.listed.Pairwise (· < ·)
  owned : ∀ v, g.contains v = true ↔ v ∈ g.listed

/-- The vertices of the graph are listed in the order of their IDs. -/
def AscendingIds (g : Graph) : Prop :=
  g.listed.Pairwise fun u v => idOf u < idOf v

namespace Consistent

theorem rewired (consistent : g.Consistent) (rewired : g.Rewired h) (wired : h.Wired) : h.Consistent where
  toWired := wired
  exit_listed := by rw [rewired.exit, rewired.listed]; exact consistent.exit_listed
  ascending := rewired.listed ▸ consistent.ascending
  owned v := by
    obtain ⟨_, _, _, _, _, owned⟩ := Vertex.body_eq_iff.mp (rewired.body v)
    rw [contains, owned, rewired.listed]
    exact consistent.owned v

theorem addVertex {op : Op} {result : Option VarId} {args : List (Option VarId)} (consistent : g.Consistent) :
    (g.addVertex op result args).Consistent where
  toWired := consistent.toWired.addVertex
  exit_listed := List.mem_append_left _ consistent.exit_listed
  ascending := by
    rw [listed_addVertex, List.pairwise_append]
    refine ⟨consistent.ascending, List.pairwise_singleton _ _, fun v member n isNew => ?_⟩
    rw [List.mem_singleton.mp isNew]
    exact consistent.listed_lt v member
  owned v := by
    rw [contains, vertex_addVertex, listed_addVertex, List.mem_append, List.mem_singleton]
    by_cases isNew : v = g.store.size
    · simp [isNew]
    · simpa [isNew, contains] using consistent.owned v

/-- One vertex less. -/
private theorem erase (consistent : g.Consistent) (wired : h.Wired) (listed : h.listed = g.listed.erase v)
    (exit : h.exit ∈ h.listed) (body : ∀ w, w ≠ v → (h.vertex w).body = (g.vertex w).body)
    (gone : (h.vertex v).owned = false) : h.Consistent where
  toWired := wired
  exit_listed := exit
  ascending := listed ▸ consistent.ascending.sublist List.erase_sublist
  owned w := by
    have nodup : g.listed.Nodup := consistent.ascending.imp Nat.ne_of_lt
    rw [contains, listed, nodup.mem_erase_iff]
    by_cases isV : w = v
    · simp [isV, gone]
    · obtain ⟨_, _, _, _, _, owned⟩ := Vertex.body_eq_iff.mp (body w isV)
      rw [owned]
      simpa [isV, contains] using consistent.owned w

theorem detach (consistent : g.Consistent) (member : v ∈ g.listed) (notEntry : v ≠ g.entry) (notExit : v ≠ g.exit) :
    (g.detach v).Consistent := by
  obtain ⟨wired, without, _⟩ := consistent.toWired.detach member notEntry
  refine consistent.erase wired without.listed ?_ without.body without.gone
  rw [without.exit, without.listed]
  exact (List.mem_erase_of_ne (Ne.symm notExit)).mpr consistent.exit_listed

theorem replace (consistent : g.Consistent) (member : v ∈ g.listed) (memberNew : n ∈ g.listed) (other : v ≠ n)
    (noSuccs : g.succs n = []) : (g.replace v n).Consistent := by
  have superseded := consistent.toWired.supersede member memberNew other noSuccs
  refine consistent.erase superseded.wired superseded.listed ?_ superseded.body superseded.gone
  rw [superseded.exit, superseded.listed]
  split
  · exact (List.mem_erase_of_ne (Ne.symm other)).mpr memberNew
  · exact (List.mem_erase_of_ne ‹_›).mpr consistent.exit_listed

theorem splice (consistent : g.Consistent) (member : v ∈ g.listed) (free : g.removeObstacle v = none) :
    (g.splice v).Consistent := by
  obtain ⟨notEntry, notExit⟩ := ne_ends_of_removeObstacle free
  have rewired : g.Rewired (g.bypassed v) := rewired_bypassed
  have bypassed := consistent.rewired rewired (consistent.toWired.bypassed member)
  rw [splice_eq]
  refine bypassed.detach ?_ ?_ ?_
  · rw [rewired.listed]; exact member
  · rw [rewired.entry]; exact notEntry
  · rw [rewired.exit]; exact notExit

theorem remove (consistent : g.Consistent) (member : v ∈ g.listed) : ((g.remove v).toOption.getD g).Consistent := by
  rw [Graph.remove]
  split
  · exact consistent
  · exact consistent.splice member ‹_›

/-- What one edit keeps. -/
theorem run (consistent : g.Consistent) {e : Edit} (allowed : e.Allowed g) : (e.run g).Consistent := by
  have wired := consistent.toWired
  cases e with
  | addVertex op result args => exact consistent.addVertex
  | addEdge source target => exact consistent.rewired rewired_addEdge (wired.addEdge allowed.1 allowed.2)
  | removeEdge source target => exact consistent.rewired rewired_removeEdge (wired.removeEdge allowed.1 allowed.2)
  | insertAfter v n =>
    obtain ⟨member, ⟨memberNew, noSuccs, noPreds⟩, other⟩ := allowed
    have rewired := rewired_insertAfter (wired.listed_lt v member) (wired.listed_lt n memberNew) other
    exact consistent.rewired rewired (wired.insertAfter member memberNew other noSuccs noPreds)
  | insertBefore v n =>
    obtain ⟨member, ⟨memberNew, noSuccs, _⟩, _⟩ := allowed
    exact consistent.rewired rewired_insertBefore (wired.insertBefore member memberNew noSuccs).1
  | insertOnEdge source target n =>
    obtain ⟨⟨sourceMember, targetMember⟩, ⟨memberNew, noSuccs, _⟩, notSource, _⟩ := allowed
    exact consistent.rewired rewired_insertOnEdge
      (wired.insertOnEdge sourceMember targetMember memberNew notSource noSuccs).1
  | replace old n =>
    obtain ⟨member, ⟨memberNew, noSuccs, _⟩, other⟩ := allowed
    exact consistent.replace member memberNew other noSuccs
  | remove v => exact consistent.remove allowed
  | detach v => exact consistent.detach allowed.1 allowed.2.1 allowed.2.2

/-- What a run of edits keeps. -/
theorem edited (consistent : g.Consistent) {edits : List Edit} (admitted : g.Admits edits) :
    (g.edited edits).Consistent := by
  induction edits generalizing g with
  | nil => exact consistent
  | cons e edits ih => exact ih (consistent.run admitted.1) admitted.2

/-! ### IDs -/

theorem size_remove (consistent : g.Consistent) (member : v ∈ g.listed) :
    ((g.remove v).toOption.getD g).store.size = g.store.size := by
  rw [Graph.remove]
  split
  · rfl
  · rename_i free
    have rewired : g.Rewired (g.bypassed v) := rewired_bypassed
    have notEntry : v ≠ (g.bypassed v).entry := by rw [rewired.entry]; exact (ne_ends_of_removeObstacle free).1
    have listed : v ∈ (g.bypassed v).listed := by rw [rewired.listed]; exact member
    obtain ⟨_, without, _⟩ := (consistent.toWired.bypassed member).detach listed notEntry
    rw [Except.toOption, Option.getD_some, splice_eq, without.size, rewired.size]

/-- An edit keeps every vertex that was ever created, also those that leave the graph. -/
theorem size_run (consistent : g.Consistent) {e : Edit} (allowed : e.Allowed g) :
    (e.run g).store.size = g.store.size + if e.creates then 1 else 0 := by
  have wired := consistent.toWired
  cases e with
  | addVertex op result args => exact size_addVertex
  | addEdge source target => exact rewired_addEdge.size
  | removeEdge source target => exact rewired_removeEdge.size
  | insertAfter v n =>
    obtain ⟨member, ⟨memberNew, _⟩, other⟩ := allowed
    exact (rewired_insertAfter (wired.listed_lt v member) (wired.listed_lt n memberNew) other).size
  | insertBefore v n => exact rewired_insertBefore.size
  | insertOnEdge source target n => exact rewired_insertOnEdge.size
  | replace old n =>
    obtain ⟨member, ⟨memberNew, noSuccs, _⟩, other⟩ := allowed
    exact (wired.supersede member memberNew other noSuccs).size
  | remove v => exact consistent.size_remove allowed
  | detach v => exact (wired.detach allowed.1 allowed.2.1).2.1.size

theorem size_edited (consistent : g.Consistent) {edits : List Edit} (admitted : g.Admits edits) :
    (g.edited edits).store.size = g.store.size + edits.countP Edit.creates := by
  induction edits generalizing g with
  | nil => rfl
  | cons e edits ih =>
    have rest : ((e.run g).edited edits).store.size = (e.run g).store.size + edits.countP Edit.creates :=
      ih (consistent.run admitted.1) admitted.2
    rw [List.countP_cons, Nat.add_comm (edits.countP _), ← Nat.add_assoc, ← consistent.size_run admitted.1]
    exact rest

/-- As long as there is an ID for each vertex, creation goes with the IDs. -/
theorem ascendingIds (consistent : g.Consistent) (enough : g.store.size ≤ 1 <<< 31) : g.AscendingIds :=
  consistent.ascending.imp_of_mem fun _ member before =>
    idOf_lt_idOf before (Nat.lt_of_lt_of_le (consistent.listed_lt _ member) enough)

end Consistent

theorem consistent_empty (name : String) (sig : Signature) : (empty name sig).Consistent := by
  have succs (v : VertexId) : (empty name sig).succs v = [] := by rcases v with _ | _ | v <;> rfl
  have preds (v : VertexId) : (empty name sig).preds v = [] := by rcases v with _ | _ | v <;> rfl
  have listed : (empty name sig).listed = [0, 1] := rfl
  have size : (empty name sig).store.size = 2 := rfl
  refine ⟨⟨?_, ?_, ?_, ?_, ?_⟩, ?_, ?_, ?_⟩
  · exact List.mem_cons_self
  · rw [listed, size]; decide
  · intro v _ s edge; simp [succs] at edge
  · intro v _ p edge; simp [preds] at edge
  · intro u _ v _; rw [succs, preds]; rfl
  · exact List.mem_cons_of_mem _ List.mem_cons_self
  · rw [listed]; decide
  · intro v
    rw [listed]
    rcases v with _ | _ | v
    · exact iff_of_true rfl (by simp)
    · exact iff_of_true rfl (by simp)
    · exact iff_of_false Bool.false_ne_true (by simp)

end Graph

/-- The loop of an edit, if it has one that takes edges away, comes to its end, and the result of the edit is what is left
then. All other loops are over lists that are fixed when they begin. -/
def Edit.Ends (g : Graph) : Edit → Prop
  | .detach v => ∃ h, Graph.Drains v g h ∧ g.detach v = h.drop v
  | .remove v => g.removeObstacle v = none → ∃ h, Graph.Drains v (g.bypassed v) h ∧ g.remove v = .ok (h.drop v)
  | _ => True

theorem Graph.Consistent.ends {g : Graph} (consistent : g.Consistent) {e : Edit} (allowed : e.Allowed g) : e.Ends g := by
  cases e with
  | detach v => exact consistent.toWired.drains allowed.1
  | remove v =>
    intro free
    have listed : (g.bypassed v).listed = g.listed := rewired_bypassed.listed
    obtain ⟨h, drains, detached⟩ := (consistent.toWired.bypassed allowed).drains (by rw [listed]; exact allowed)
    refine ⟨h, drains, ?_⟩
    rw [Graph.remove, free, splice_eq, detached]
  | _ => trivial

namespace Graph

/-- A graph that was built by edits is consistent, and every further edit ends. If there was an ID for each vertex that the
edits created besides the two of the empty graph, the vertices are listed in the order of their IDs. -/
theorem consistent_of_edits (name : String) (sig : Signature) (edits : List Edit)
    (admitted : (empty name sig).Admits edits) :
    ((empty name sig).edited edits).Consistent ∧
      (edits.countP Edit.creates + 2 ≤ 1 <<< 31 → ((empty name sig).edited edits).AscendingIds) ∧
      ∀ e : Edit, e.Allowed ((empty name sig).edited edits) → e.Ends ((empty name sig).edited edits) := by
  have consistent := (consistent_empty name sig).edited admitted
  refine ⟨consistent, fun enough => consistent.ascendingIds ?_, fun e allowed => consistent.ends allowed⟩
  rw [(consistent_empty name sig).size_edited admitted, Nat.add_comm]
  exact enough

/-- Every kind of edit: a loop and parallel edges are put in and taken out, the entry gets another vertex in its place, and
one vertex with two successors cannot be spliced out. -/
def tangle : List Edit :=
  [.addVertex .assign none [], .addVertex .label none [], .addEdge 0 2, .addEdge 2 2, .addEdge 2 3, .addEdge 2 3,
    .addEdge 3 1, .addVertex .assign none [], .insertOnEdge 2 3 4, .addVertex .label none [], .insertAfter 2 5,
    .addVertex .label none [], .insertBefore 2 6, .remove 5, .addVertex .function none [], .replace 0 7, .removeEdge 5 4,
    .addVertex .assign none [], .replace 5 8, .addVertex .assign none [], .addEdge 9 9, .remove 9, .detach 8, .remove 4]

theorem consistent_tangle : (empty "f" ⟨[], .void⟩).Admits tangle ∧ tangle.countP Edit.creates + 2 ≤ 1 <<< 31 ∧
    ((empty "f" ⟨[], .void⟩).edited tangle).Consistent ∧ ((empty "f" ⟨[], .void⟩).edited tangle).AscendingIds ∧
    ∀ e : Edit, e.Allowed ((empty "f" ⟨[], .void⟩).edited tangle) → e.Ends ((empty "f" ⟨[], .void⟩).edited tangle) := by
  obtain ⟨consistent, ascending, ends⟩ := consistent_of_edits "f" ⟨[], .void⟩ tangle (by decide)
  exact ⟨by decide, by decide, consistent, ascending (by decide), ends⟩

/-! ### Running out of IDs -/

/-- Creates a label and detaches it, `n` times. -/
def discarding (n : Nat) : List Edit :=
  (List.range n).flatMap fun i => [.addVertex .label none [], .detach (i + 2)]

theorem discarding_succ (n : Nat) :
    discarding (n + 1) = discarding n ++ [.addVertex .label none [], .detach (n + 2)] := by
  simp [discarding, List.range_succ]

/-- What was discarded leaves nothing but its numbers. -/
theorem edited_discarding (name : String) (sig : Signature) (n : Nat) :
    (empty name sig).Admits (discarding n) ∧ ((empty name sig).edited (discarding n)).listed = [0, 1] ∧
      ((empty name sig).edited (discarding n)).entry = 0 ∧ ((empty name sig).edited (discarding n)).exit = 1 ∧
      ((empty name sig).edited (discarding n)).store.size = n + 2 := by
  induction n with
  | zero => exact ⟨trivial, rfl, rfl, rfl, rfl⟩
  | succ n ih =>
    obtain ⟨admitted, listed, entry, exit, size⟩ := ih
    rw [discarding_succ, edited_append, admits_append]
    have consistent := (consistent_empty name sig).edited admitted
    generalize (empty name sig).edited (discarding n) = g at *
    have created : (g.addVertex .label none []).Consistent := consistent.addVertex
    have listed₁ : (g.addVertex .label none []).listed = [0, 1, n + 2] := by rw [listed_addVertex, listed, size]; rfl
    have member : n + 2 ∈ (g.addVertex .label none []).listed := by rw [listed₁]; simp
    have notEntry : n + 2 ≠ (g.addVertex .label none []).entry := by
      rw [show (g.addVertex .label none []).entry = 0 from entry]; omega
    have notExit : n + 2 ≠ (g.addVertex .label none []).exit := by
      rw [show (g.addVertex .label none []).exit = 1 from exit]; omega
    obtain ⟨_, without, _⟩ := created.toWired.detach member notEntry
    refine ⟨⟨admitted, trivial, ⟨member, notEntry, notExit⟩, trivial⟩, without.listed.trans ?_, without.entry.trans entry,
      without.exit.trans exit, without.size.trans ?_⟩
    · rw [listed₁]; simp
    · rw [size_addVertex, size]

/-- What is created after that stands behind the entry and the exit, whatever ID it gets. -/
theorem recreated_of_idOf (name : String) (sig : Signature) {n : Nat} {id : Int32} (next : idOf (n + 2) = id)
    (low : ¬ 1 < id) :
    (empty name sig).Admits (discarding n ++ [.addVertex .label none []]) ∧
      ((empty name sig).edited (discarding n ++ [.addVertex .label none []])).listed.map idOf = [0, 1, id] ∧
      ¬ ((empty name sig).edited (discarding n ++ [.addVertex .label none []])).AscendingIds := by
  obtain ⟨admitted, listed, _, _, size⟩ := edited_discarding name sig n
  rw [edited_append, admits_append]
  generalize (empty name sig).edited (discarding n) = g at *
  have created : (g.edited [.addVertex .label none []]).listed = [0, 1, n + 2] := by
    rw [show g.edited [.addVertex .label none []] = g.addVertex .label none [] from rfl, listed_addVertex, listed, size]
    rfl
  refine ⟨⟨admitted, trivial, trivial⟩, ?_, fun ascending => low ?_⟩
  · rw [created, ← next]; rfl
  · rw [AscendingIds, created] at ascending
    simp only [List.pairwise_cons, List.mem_cons, List.not_mem_nil, or_false, forall_eq_or_imp, forall_eq] at ascending
    exact next ▸ ascending.2.1

/-- After the greatest ID comes the least one, at the end of the list; as many vertices later, the entry is not the only one
with its ID. -/
theorem recreated_descends :
    ((empty "f" ⟨[], .void⟩).Admits (discarding (1 <<< 31 - 2) ++ [.addVertex .label none []]) ∧
      ((empty "f" ⟨[], .void⟩).edited (discarding (1 <<< 31 - 2) ++ [.addVertex .label none []])).listed.map idOf =
        [0, 1, -2147483648] ∧
      ¬ ((empty "f" ⟨[], .void⟩).edited (discarding (1 <<< 31 - 2) ++ [.addVertex .label none []])).AscendingIds) ∧
    (empty "f" ⟨[], .void⟩).Admits (discarding (1 <<< 32 - 2) ++ [.addVertex .label none []]) ∧
      ((empty "f" ⟨[], .void⟩).edited (discarding (1 <<< 32 - 2) ++ [.addVertex .label none []])).listed.map idOf =
        [0, 1, 0] ∧
      ¬ ((empty "f" ⟨[], .void⟩).edited (discarding (1 <<< 32 - 2) ++ [.addVertex .label none []])).AscendingIds :=
  ⟨recreated_of_idOf "f" ⟨[], .void⟩ (by decide) (by decide), recreated_of_idOf "f" ⟨[], .void⟩ (by decide) (by decide)⟩

end Graph

end MiddleEnd
