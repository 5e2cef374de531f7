import Mathlib.Data.List.Forall2
import MiddleEnd.Proofs.Edits

/-!
A graph with further vertices on its edges. From a further vertex there is one way on, and it leads back to a
vertex of the original graph (`Graph.Leads`). Paths of the two graphs then correspond: leaving the further
vertices out of a path gives a path of the original graph, and every path of that one comes about so
(`Expands.project`, `Expands.lift`).
-/
namespace MiddleEnd

theorem exists_right_of_forall₂ {α β : Type} {R : α → β → Prop} {l : List α} {l' : List β} {a : α}
    (related : List.Forall₂ R l l') (member : a ∈ l) : ∃ b ∈ l', R a b := by
  induction related with
  | nil => simp at member
  | @cons a' b l l' head _ ih =>
    rcases List.mem_cons.mp member with rfl | later
    · exact ⟨b, List.mem_cons_self, head⟩
    · obtain ⟨b, found, holds⟩ := ih later
      exact ⟨b, List.mem_cons_of_mem _ found, holds⟩

theorem exists_left_of_forall₂ {α β : Type} {R : α → β → Prop} {l : List α} {l' : List β} {b : β}
    (related : List.Forall₂ R l l') (member : b ∈ l') : ∃ a ∈ l, R a b :=
  exists_right_of_forall₂ (R := flip R) related.flip member

theorem forall₂_comp {α β γ : Type} {R : α → β → Prop} {S : β → γ → Prop} {T : α → γ → Prop} {l : List α}
    {l' : List β} {l'' : List γ} (first : List.Forall₂ R l l') (second : List.Forall₂ S l' l'')
    (compose : ∀ {a b c}, b ∈ l' → R a b → S b c → T a c) : List.Forall₂ T l l'' := by
  induction first generalizing l'' with
  | nil => rw [List.forall₂_nil_left_iff.mp second]; exact .nil
  | cons head _ ih =>
    obtain ⟨c, rest, head', tail', rfl⟩ := List.forall₂_cons_left_iff.mp second
    exact .cons (compose List.mem_cons_self head head')
      (ih tail' fun member => compose (List.mem_cons_of_mem _ member))

namespace Graph

/-- The way from `v` over vertices that are not kept ends at `s`, the first one that is. -/
inductive Leads (h : Graph) (kept : VertexId → Bool) : VertexId → VertexId → Prop
  | here {v : VertexId} (isKept : kept v = true) : Leads h kept v v
  | skip {v t s : VertexId} (extra : kept v = false) (only : h.succs v = [t]) (rest : Leads h kept t s) :
    Leads h kept v s

namespace Leads

variable {h k : Graph} {kept kept' : VertexId → Bool} {v t s : VertexId}

theorem eq_of_kept (leads : h.Leads kept v s) (isKept : kept v = true) : s = v := by
  cases leads with
  | here => rfl
  | skip extra => simp [isKept] at extra

theorem isKept (leads : h.Leads kept v s) : kept s = true := by
  induction leads with
  | here isKept => exact isKept
  | skip _ _ _ ih => exact ih

/-- The way goes on where a way over fewer vertices ends. -/
theorem trans (first : h.Leads kept v t) (le : ∀ v, kept' v = true → kept v = true) (second : h.Leads kept' t s) :
    h.Leads kept' v s := by
  induction first with
  | here => exact second
  | @skip v _ _ extra only _ ih =>
    refine .skip ?_ only (ih second)
    rw [← Bool.not_eq_true]
    exact fun isKept => by simp [le v isKept] at extra

/-- A trail that arrives at a further vertex goes on to where that one leads. -/
theorem extend {root : VertexId} {past : List VertexId} (leads : h.Leads kept v s) (trail : Trail h.succs root past v) :
    ∃ skipped, Trail h.succs root (past ++ skipped) s ∧ ∀ w ∈ skipped, kept w = false := by
  induction leads generalizing past with
  | here => exact ⟨[], by simpa using trail, by simp⟩
  | @skip v t s extra only _ ih =>
    obtain ⟨skipped, arrives, inserted⟩ := ih (trail.step (by simp [only]))
    refine ⟨v :: skipped, by simpa using arrives, ?_⟩
    intro w member
    rcases List.mem_cons.mp member with rfl | later
    · exact extra
    · exact inserted w later

/-- From a further vertex there is one way on, and it does not lead straight back. -/
theorem exists_next (leads : h.Leads kept v s) (extra : kept v = false) : ∃ t, h.succs v = [t] ∧ v ≠ t := by
  induction leads with
  | here isKept => simp [isKept] at extra
  | @skip v t s _ only _ ih =>
    refine ⟨t, only, ?_⟩
    rintro rfl
    obtain ⟨t, only', other⟩ := ih extra
    exact other (by simpa [only] using only')

/-- Only what can be reached matters. -/
theorem congr_kept {root : VertexId} (leads : h.Leads kept v s) (reached : Reachable h.succs root v)
    (same : ∀ u, Reachable h.succs root u → kept' u = kept u) : h.Leads kept' v s := by
  induction leads with
  | here isKept => exact .here ((same _ reached).trans isKept)
  | skip extra only _ ih => exact .skip ((same _ reached).trans extra) only (ih (reached.step (by simp [only])))

/-- Only the successors matter. -/
theorem congr (leads : h.Leads kept v s) (same : ∀ v, k.succs v = h.succs v) : k.Leads kept v s := by
  induction leads with
  | here isKept => exact .here isKept
  | skip extra only _ ih => exact .skip extra ((same _).trans only) ih

end Leads

/-- `h` is `g` with further vertices, those not kept, on its edges: each edge of `g` is a way over such vertices. -/
structure Expands (g h : Graph) (kept : VertexId → Bool) : Prop where
  entry : h.entry = g.entry
  entry_kept : kept g.entry = true
  edges : ∀ {u}, Reachable g.succs g.entry u → List.Forall₂ (h.Leads kept) (h.succs u) (g.succs u)

namespace Expands

variable {g h k : Graph} {kept kept' : VertexId → Bool} {past : List VertexId} {u v s : VertexId}

/-- A path leaves a path of the original graph behind when the further vertices are left out. -/
theorem project (expands : g.Expands h kept) (trail : Trail h.succs h.entry past u) :
    ∃ s, h.Leads kept u s ∧ Trail g.succs g.entry (past.filter kept) s := by
  induction trail with
  | start => exact ⟨h.entry, .here (expands.entry ▸ expands.entry_kept), expands.entry ▸ .start⟩
  | @step past u v _ edge ih =>
    obtain ⟨s, leads, arrives⟩ := ih
    cases leads with
    | here isKept =>
      obtain ⟨t, edge', leads'⟩ := exists_right_of_forall₂ (expands.edges arrives.reachable) edge
      refine ⟨t, leads', ?_⟩
      rw [List.filter_append, List.filter_singleton]
      simpa [isKept] using arrives.step edge'
    | @skip _ t _ extra only rest =>
      obtain rfl : v = t := by simpa [only] using edge
      refine ⟨s, rest, ?_⟩
      simpa [List.filter_append, extra] using arrives

theorem project_kept (expands : g.Expands h kept) (trail : Trail h.succs h.entry past u) (isKept : kept u = true) :
    Trail g.succs g.entry (past.filter kept) u := by
  obtain ⟨s, leads, arrives⟩ := expands.project trail
  exact leads.eq_of_kept isKept ▸ arrives

theorem kept_of_reachable (expands : g.Expands h kept) (reached : Reachable g.succs g.entry u) : kept u = true := by
  rcases reached.last_edge with rfl | ⟨p, before, edge⟩
  · exact expands.entry_kept
  · obtain ⟨v, _, leads⟩ := exists_left_of_forall₂ (expands.edges before) edge
    exact leads.isKept

/-- Every path of the original graph is what such a path leaves behind. -/
theorem lift (expands : g.Expands h kept) (trail : Trail g.succs g.entry past u) :
    ∃ past', Trail h.succs h.entry past' u ∧ past'.filter kept = past := by
  induction trail with
  | start => exact ⟨[], expands.entry ▸ .start, rfl⟩
  | @step past u s before edge ih =>
    obtain ⟨past', trail', rfl⟩ := ih
    obtain ⟨v, edge', leads⟩ := exists_left_of_forall₂ (expands.edges before.reachable) edge
    obtain ⟨skipped, arrives, extra⟩ := leads.extend (trail'.step edge')
    refine ⟨_, arrives, ?_⟩
    have gone : skipped.filter kept = [] := by
      rw [List.filter_eq_nil_iff]
      exact fun w member => by simp [extra w member]
    rw [List.filter_append, List.filter_append, gone, List.filter_singleton]
    simp [expands.kept_of_reachable before.reachable]

theorem reachable (expands : g.Expands h kept) (reached : Reachable g.succs g.entry u) :
    Reachable h.succs h.entry u := by
  obtain ⟨past, trail⟩ := reached
  obtain ⟨past', trail', _⟩ := expands.lift trail
  exact trail'.reachable

theorem reachable_of_kept (expands : g.Expands h kept) (reached : Reachable h.succs h.entry u)
    (isKept : kept u = true) : Reachable g.succs g.entry u := by
  obtain ⟨past, trail⟩ := reached
  exact (expands.project_kept trail isKept).reachable

theorem refl (all : ∀ u, Reachable g.succs g.entry u → kept u = true) : g.Expands g kept where
  entry := rfl
  entry_kept := all g.entry .refl
  edges reached := List.forall₂_same.mpr fun s edge => .here (all s (reached.step edge))

/-- Only the entry and the successors matter. -/
theorem congr {g' h' : Graph} (expands : g.Expands h kept) (entry : g'.entry = g.entry)
    (succs : ∀ v, g'.succs v = g.succs v) (entry' : h'.entry = h.entry) (succs' : ∀ v, h'.succs v = h.succs v) :
    g'.Expands h' kept where
  entry := by rw [entry', entry, expands.entry]
  entry_kept := entry ▸ expands.entry_kept
  edges {u} reached := by
    rw [funext succs, entry] at reached
    rw [succs, succs']
    exact (expands.edges reached).imp fun _ _ leads => leads.congr succs'

/-- Expansions follow one another. -/
theorem trans (first : g.Expands h kept) (second : h.Expands k kept') (le : ∀ v, kept v = true → kept' v = true) :
    g.Expands k kept where
  entry := second.entry.trans first.entry
  entry_kept := first.entry_kept
  edges {u} reached := by
    -- a way in the first expansion is a way of ways in the second
    have compose : ∀ {t s}, h.Leads kept t s → Reachable h.succs h.entry t →
        ∀ {v}, k.Leads kept' v t → k.Leads kept v s := by
      intro t s leads
      induction leads with
      | here isKept => exact fun _ _ way => way.trans le (.here isKept)
      | @skip t t' s extra only rest ih =>
        intro reached v way
        have edges := second.edges reached
        rw [only, List.forall₂_cons_right_iff] at edges
        obtain ⟨v', rest', way', none, only'⟩ := edges
        rw [List.forall₂_nil_right_iff.mp none] at only'
        have onward := ih (reached.step (show t' ∈ h.succs t by simp [only])) way'
        exact way.trans le (.skip extra only' onward)
    have reached' := first.reachable reached
    exact forall₂_comp (second.edges reached') (first.edges reached)
      fun edge way leads => compose leads (reached'.step edge) way

/-- A way goes over those of the further vertices that are left. -/
theorem leads (expands : k.Expands h kept') (le : ∀ v, kept v = true → kept' v = true) {t : VertexId}
    (leads : h.Leads kept t s) (reached : Reachable h.succs h.entry t) (way : h.Leads kept' t v) : k.Leads kept v s := by
  induction leads generalizing v with
  | here isKept =>
    rw [way.eq_of_kept (le _ isKept)]
    exact .here isKept
  | @skip t t' s extra only rest ih =>
    have reached' : Reachable h.succs h.entry t' := reached.step (by simp [only])
    cases way with
    | here isKept =>
      have edges := expands.edges (expands.reachable_of_kept reached isKept)
      rw [only, List.forall₂_cons_left_iff] at edges
      obtain ⟨v', rest', way', none, only'⟩ := edges
      rw [List.forall₂_nil_left_iff.mp none] at only'
      exact .skip extra only' (ih reached' way')
    | skip _ only' rest' =>
      obtain rfl : _ = t' := by simpa [only] using only'.symm
      exact ih reached' rest'

/-- Some of the further vertices may be taken away again. -/
theorem cancel (first : g.Expands h kept) (second : k.Expands h kept') (le : ∀ v, kept v = true → kept' v = true) :
    g.Expands k kept where
  entry := second.entry.symm.trans first.entry
  entry_kept := first.entry_kept
  edges {u} reached := by
    have reached' := first.reachable reached
    have isKept := le u (first.kept_of_reachable reached)
    exact forall₂_comp (second.edges (second.reachable_of_kept reached' isKept)).flip (first.edges reached)
      fun edge way leads => second.leads le leads (reached'.step edge) way

end Expands

end Graph

end MiddleEnd
