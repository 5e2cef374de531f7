import MiddleEnd.Proofs.Rewiring

/-!
A vertex in the place of another, with all its edges. The edges into the old vertex are redirected; those out of it are
handed over one by one, at both ends (`Graph.takeEdge`), so that in between neither vertex agrees with its successors and
only the counts of predecessors can be followed. In the end the old vertex has no edges, and the lists agree again
(`Graph.Wired.supersede`). This holds of loops at the old vertex too, and of the ends of the graph.
-/
namespace MiddleEnd

namespace Graph

variable {g h : Graph} {old n s w : VertexId}

/-! ### Handing over edges -/

/-- Handing one edge over is counted at both names. -/
theorem count_renamePred (inside : s < g.store.size) (edge : old ∈ g.preds s) (u : VertexId) :
    ((g.renamePred s old n).preds w).count u =
      if w = s then (g.preds s).count u - (if old = u then 1 else 0) + (if n = u then 1 else 0) else (g.preds w).count u := by
  rw [renamePred, preds, vertex_modifyVertex]
  by_cases isS : w = s
  · subst isS
    have contains : (g.vertex w).preds.contains old = true := by simpa [preds] using edge
    have bound : (g.vertex w).preds.idxOf old < (g.vertex w).preds.length := List.idxOf_lt_length_of_mem edge
    simp only [inside, and_self, ↓reduceIte, contains]
    rw [List.count_set bound, List.getElem_idxOf bound]
    simp [preds]
  · simp only [isS, false_and, ↓reduceIte]
    rfl

theorem rewired_renamePred : g.Rewired (g.renamePred s old n) :=
  .modifyVertex fun _ => rfl

theorem succs_renamePred : (g.renamePred s old n).succs w = g.succs w := by
  rw [renamePred, succs, congr_modifyVertex Vertex.succs]
  · rfl
  · exact fun _ => rfl

/-- Gives `n` an edge to `s`, under which `s` knows one of the edges of `old` from then on. -/
def takeEdge (old n : VertexId) (g : Graph) (s : VertexId) : Graph :=
  (g.modifyVertex n fun w => { w with succs := w.succs ++ [s] }).renamePred s old n

theorem rewired_takeEdge : g.Rewired (takeEdge old n g s) := by
  have first : g.Rewired (g.modifyVertex n fun w => { w with succs := w.succs ++ [s] }) := .modifyVertex fun _ => rfl
  exact first.trans rewired_renamePred

theorem succs_takeEdge (inside : n < g.store.size) :
    (takeEdge old n g s).succs w = if w = n then g.succs n ++ [s] else g.succs w := by
  rw [takeEdge, succs_renamePred, succs, vertex_modifyVertex]
  by_cases isNew : w = n
  · subst isNew
    simp [inside, succs]
  · simp [isNew, succs]

theorem count_preds_takeEdge (inside : s < g.store.size) (edge : old ∈ g.preds s) (u : VertexId) :
    ((takeEdge old n g s).preds w).count u =
      if w = s then (g.preds s).count u - (if old = u then 1 else 0) + (if n = u then 1 else 0) else (g.preds w).count u := by
  have same (w : VertexId) : (g.modifyVertex n fun w => { w with succs := w.succs ++ [s] }).preds w = g.preds w := by
    rw [preds, congr_modifyVertex Vertex.preds]
    · rfl
    · exact fun _ => rfl
  rw [takeEdge, count_renamePred (by simpa using inside) (same s ▸ edge), same, same]

theorem succs_foldl_takeEdge (inside : n < g.store.size) (targets : List VertexId) :
    (targets.foldl (takeEdge old n) g).succs w = if w = n then g.succs n ++ targets else g.succs w := by
  induction targets generalizing g with
  | nil => by_cases isNew : w = n <;> simp [isNew]
  | cons s targets ih =>
    rw [List.foldl_cons, ih (by rw [rewired_takeEdge.size]; exact inside), succs_takeEdge inside, succs_takeEdge inside]
    by_cases isNew : w = n <;> simp [isNew]

/-- As long as the targets know enough edges of `old`, each of them finds one to hand over. -/
theorem count_preds_foldl_takeEdge (other : old ≠ n) {targets : List VertexId} (inside : ∀ s ∈ targets, s < g.store.size)
    (enough : ∀ w, targets.count w ≤ (g.preds w).count old) (u : VertexId) :
    ((targets.foldl (takeEdge old n) g).preds w).count u =
      (g.preds w).count u - (if u = old then targets.count w else 0) + (if u = n then targets.count w else 0) := by
  induction targets generalizing g with
  | nil => simp
  | cons s targets ih =>
    have edge : old ∈ g.preds s := by
      rw [← List.count_pos_iff]
      exact Nat.lt_of_lt_of_le (by simp) (enough s)
    have handed (w u : VertexId) := count_preds_takeEdge (n := n) (w := w) (inside s List.mem_cons_self) edge u
    have size : (takeEdge old n g s).store.size = g.store.size := rewired_takeEdge.size
    have still (w : VertexId) : targets.count w ≤ ((takeEdge old n g s).preds w).count old := by
      have before := enough w
      rw [List.count_cons] at before
      rw [handed]
      by_cases isS : w = s
      · subst isS
        simp only [↓reduceIte, Ne.symm other, BEq.rfl, Nat.add_zero] at before ⊢
        omega
      · simpa [isS, Ne.symm isS] using before
    rw [List.foldl_cons, ih (fun t later => size ▸ inside t (List.mem_cons_of_mem _ later)) still, handed, List.count_cons]
    have before := enough w
    rw [List.count_cons] at before
    by_cases isS : w = s
    · subst isS
      by_cases isOld : u = old
      · subst isOld
        simp [other, Ne.symm other]
        omega
      · by_cases isNew : u = n
        · subst isNew
          simp [other, isOld]
          omega
        · simp [isOld, isNew, Ne.symm isOld, Ne.symm isNew]
    · simp [isS, Ne.symm isS]

/-! ### Taking the place of a vertex -/

/-- `h` is `g` with the unconnected vertex `n` in the place of `old`. -/
structure Superseded (g h : Graph) (old n : VertexId) : Prop where
  wired : h.Wired
  size : h.store.size = g.store.size
  entry : h.entry = if g.entry = old then n else g.entry
  exit : h.exit = if g.exit = old then n else g.exit
  listed : h.listed = g.listed.erase old
  vars : h.vars = g.vars
  reach : h.reach = g.reach
  epoch : g.epoch < h.epoch
  body : ∀ w, w ≠ old → (h.vertex w).body = (g.vertex w).body
  gone : (h.vertex old).owned = false
  succs : ∀ {w}, w ∈ g.listed → w ≠ old → h.succs w = turned old n (g.succs (if w = n then old else w))

/-- All edges out of `old` handed over to `n`. -/
def handedOver (g : Graph) (old n : VertexId) : Graph :=
  ((g.succs old).foldl (takeEdge old n) g).modifyVertex old fun w => { w with succs := [] }

theorem rewired_handedOver : g.Rewired (g.handedOver old n) := by
  have last (k : Graph) : k.Rewired (k.modifyVertex old fun w => { w with succs := [] }) := .modifyVertex fun _ => rfl
  exact (Rewired.foldl (fun _ _ => rewired_takeEdge) _).trans (last _)

theorem replace_eq : g.replace old n =
    let h := (g.redirectAll (g.preds old) old n).handedOver old n
    drop { h with
      entry := if h.entry = old then n else h.entry
      exit := if h.exit = old then n else h.exit } old :=
  rfl

theorem succs_handedOver (inside : old < g.store.size) (insideNew : n < g.store.size) (other : old ≠ n)
    (noSuccs : g.succs n = []) :
    (g.handedOver old n).succs w = if w = old then [] else if w = n then g.succs old else g.succs w := by
  have size : ((g.succs old).foldl (takeEdge old n) g).store.size = g.store.size :=
    (Rewired.foldl (fun _ _ => rewired_takeEdge) _).size
  rw [handedOver, succs]
  by_cases isOld : w = old
  · subst isOld
    rw [vertex_modifyVertex_self (by rw [size]; exact inside), if_pos rfl]
  · rw [vertex_modifyVertex_of_ne isOld, if_neg isOld, ← succs, succs_foldl_takeEdge insideNew, noSuccs, List.nil_append]

theorem preds_handedOver : (g.handedOver old n).preds w = ((g.succs old).foldl (takeEdge old n) g).preds w := by
  rw [handedOver, preds, congr_modifyVertex Vertex.preds]
  · rfl
  · exact fun _ => rfl

theorem Wired.handedOver (wired : g.Wired) (old_listed : old ∈ g.listed) (new_listed : n ∈ g.listed) (other : old ≠ n)
    (noSuccs : g.succs n = []) : (g.handedOver old n).Wired := by
  have succs (w : VertexId) : (g.handedOver old n).succs w =
      if w = old then [] else if w = n then g.succs old else g.succs w :=
    succs_handedOver (wired.listed_lt old old_listed) (wired.listed_lt n new_listed) other noSuccs
  have preds {w : VertexId} (listed : w ∈ g.listed) (u : VertexId) : ((g.handedOver old n).preds w).count u =
      (g.preds w).count u - (if u = old then (g.succs old).count w else 0) +
        (if u = n then (g.succs old).count w else 0) := by
    rw [preds_handedOver]
    refine count_preds_foldl_takeEdge other (fun s edge => ?_) (fun t => ?_) u
    · exact wired.listed_lt s (wired.succs_listed old old_listed s edge)
    · by_cases listed : t ∈ g.listed
      · exact Nat.le_of_eq (wired.counts old old_listed t listed)
      · rw [List.count_eq_zero.mpr fun edge => listed (wired.succs_listed old old_listed t edge)]
        exact Nat.zero_le _
  refine wired.rewired rewired_handedOver ?_ ?_
  · intro w listed t edge
    rw [succs] at edge
    split at edge
    · simp at edge
    · split at edge
      · exact wired.succs_listed old old_listed t edge
      · exact wired.succs_listed w listed t edge
  · intro w listed u
    have before := wired.count_preds listed u
    rw [preds listed, edgeCount, rewired_handedOver.listed, succs]
    rw [edgeCount] at before
    by_cases isOld : u = old
    · subst isOld
      simp only [old_listed, ↓reduceIte] at before ⊢
      simp [before, other]
    · by_cases isNew : u = n
      · subst isNew
        simp only [new_listed, ↓reduceIte, noSuccs, isOld] at before ⊢
        simp [before]
      · simpa [isOld, isNew] using before

/-- When the edges into `old` were turned and those out of it handed over, it has none. -/
theorem Wired.cleared (wired : g.Wired) (old_listed : old ∈ g.listed) (new_listed : n ∈ g.listed) (other : old ≠ n)
    (noSuccs : g.succs n = []) :
    ((g.redirectAll (g.preds old) old n).handedOver old n).succs old = [] ∧
      ((g.redirectAll (g.preds old) old n).handedOver old n).preds old = [] := by
  obtain ⟨wired₁, _⟩ := wired.redirectAll (wired.preds_listed old old_listed) old_listed new_listed
  have listed₁ : (g.redirectAll (g.preds old) old n).listed = g.listed := (rewired_redirectAll _).listed
  have succs₁ {w : VertexId} (listed : w ∈ g.listed) := wired.redirectAll_preds old_listed new_listed listed
  generalize g.redirectAll (g.preds old) old n = h at wired₁ listed₁ succs₁ ⊢
  have old₁ : old ∈ h.listed := listed₁ ▸ old_listed
  have new₁ : n ∈ h.listed := listed₁ ▸ new_listed
  have noSuccs₁ : h.succs n = [] := by rw [succs₁ new_listed, noSuccs]; rfl
  have succs (w : VertexId) : (h.handedOver old n).succs w =
      if w = old then [] else if w = n then h.succs old else h.succs w :=
    succs_handedOver (wired₁.listed_lt old old₁) (wired₁.listed_lt n new₁) other noSuccs₁
  have listed₂ : (h.handedOver old n).listed = g.listed := rewired_handedOver.listed.trans listed₁
  refine ⟨by rw [succs, if_pos rfl], ?_⟩
  refine (wired₁.handedOver old₁ new₁ other noSuccs₁).preds_eq_nil (listed₂ ▸ old_listed) fun u source edge => ?_
  rw [listed₂] at source
  rw [succs] at edge
  split at edge
  · simp at edge
  · split at edge
    · exact notMem_turned other (succs₁ old_listed ▸ edge)
    · exact notMem_turned other (succs₁ source ▸ edge)

/-- Other ends may be chosen among the listed vertices. -/
theorem Wired.withEnds (wired : g.Wired) {entry : VertexId} (listed : entry ∈ g.listed) (exit : VertexId) :
    { g with entry := entry, exit := exit }.Wired :=
  ⟨listed, wired.listed_lt, wired.succs_listed, wired.preds_listed, wired.counts⟩

theorem Wired.supersede (wired : g.Wired) (old_listed : old ∈ g.listed) (new_listed : n ∈ g.listed) (other : old ≠ n)
    (noSuccs : g.succs n = []) : g.Superseded (g.replace old n) old n := by
  obtain ⟨noSuccs₂, noPreds₂⟩ := wired.cleared old_listed new_listed other noSuccs
  obtain ⟨wired₁, _⟩ := wired.redirectAll (wired.preds_listed old old_listed) old_listed new_listed
  have rewired₁ : g.Rewired (g.redirectAll (g.preds old) old n) := rewired_redirectAll _
  have succs₁ {w : VertexId} (listed : w ∈ g.listed) := wired.redirectAll_preds old_listed new_listed listed
  rw [replace_eq]
  generalize g.redirectAll (g.preds old) old n = h at wired₁ rewired₁ succs₁ noSuccs₂ noPreds₂ ⊢
  have old₁ : old ∈ h.listed := rewired₁.listed ▸ old_listed
  have new₁ : n ∈ h.listed := rewired₁.listed ▸ new_listed
  have noSuccs₁ : h.succs n = [] := by rw [succs₁ new_listed, noSuccs]; rfl
  have wired₂ : (h.handedOver old n).Wired := wired₁.handedOver old₁ new₁ other noSuccs₁
  have rewired₂ : g.Rewired (h.handedOver old n) := rewired₁.trans rewired_handedOver
  have succs₂ (w : VertexId) : (h.handedOver old n).succs w =
      if w = old then [] else if w = n then h.succs old else h.succs w :=
    succs_handedOver (wired₁.listed_lt old old₁) (wired₁.listed_lt n new₁) other noSuccs₁
  generalize h.handedOver old n = k at wired₂ rewired₂ succs₂ noSuccs₂ noPreds₂ ⊢
  dsimp only
  have entry₂ : (if k.entry = old then n else k.entry) ∈ k.listed := by
    rw [rewired₂.listed]
    split
    · exact new_listed
    · rw [rewired₂.entry]; exact wired.entry_listed
  have notOld {v : VertexId} : old ≠ if v = old then n else v := by
    split
    · exact other
    · exact Ne.symm ‹_›
  have ended := wired₂.withEnds entry₂ (if k.exit = old then n else k.exit)
  have without := without_drop (v := old)
    (g := { k with entry := if k.entry = old then n else k.entry, exit := if k.exit = old then n else k.exit })
  exact {
    wired := ended.drop (rewired₂.listed ▸ old_listed) notOld noSuccs₂ noPreds₂
    size := without.size.trans rewired₂.size
    entry := by rw [without.entry, rewired₂.entry]
    exit := by rw [without.exit, rewired₂.exit]
    listed := by rw [without.listed, rewired₂.listed]
    vars := without.vars.trans rewired₂.vars
    reach := without.reach.trans rewired₂.reach
    epoch := Nat.lt_of_le_of_lt rewired₂.epoch without.epoch
    body := fun w isOther => (without.body w isOther).trans (rewired₂.body w)
    gone := without.gone
    succs := fun {w} listed isOther => by
      refine succs_drop.trans ((succs₂ w).trans ?_)
      rw [if_neg isOther]
      split
      · exact succs₁ old_listed
      · exact succs₁ listed }

/-- The old vertex keeps no edges. -/
theorem Wired.edges_replace_old (wired : g.Wired) (old_listed : old ∈ g.listed) (new_listed : n ∈ g.listed) (other : old ≠ n)
    (noSuccs : g.succs n = []) : (g.replace old n).succs old = [] ∧ (g.replace old n).preds old = [] := by
  obtain ⟨succs, preds⟩ := wired.cleared old_listed new_listed other noSuccs
  rw [replace_eq]
  generalize (g.redirectAll (g.preds old) old n).handedOver old n = h at succs preds ⊢
  exact ⟨succs_drop.trans succs, preds_drop.trans preds⟩

end Graph

end MiddleEnd
