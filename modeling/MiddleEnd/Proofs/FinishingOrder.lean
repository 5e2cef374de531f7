import Mathlib.Data.List.Nodup
import MiddleEnd.Proofs.Search

/-!
The order in which depth-first search finishes vertices. While a vertex is open, all that is finished later is reached from
it or was not reached before; hence what leads to a vertex through vertices that were finished before it can be reached back
from it (`FinishOrder`). The search keeps this true step by step (`FinishInvariant`), whichever vertices it is started from.
-/
namespace MiddleEnd

/-- Of vertices in the reverse order of their finish: what leads to one of them through those finished before it can be
reached from it. -/
def FinishOrder (next : VertexId → List VertexId) : List VertexId → Prop
  | [] => True
  | v :: earlier =>
    (∀ u past, Trail next u past v → (∀ w ∈ past, w ∈ earlier) → Reachable next v u) ∧ FinishOrder next earlier

/-- What a depth-first search keeps true about the order in which it finishes. -/
structure FinishInvariant (next : VertexId → List VertexId) (start pool : VertexSet) (stack : List SearchFrame)
    (done : List VertexId) : Prop extends SearchInvariant next start pool stack done where
  order : FinishOrder next done
  /-- What leads to an open vertex through finished ones can be reached from it. -/
  back : ∀ f ∈ stack, ∀ u past, Trail next u past f.1 → (∀ w ∈ past, w ∈ done) → Reachable next f.1 u
  /-- An open vertex can be reached from those that were opened before it. -/
  chain : stack.Pairwise fun f below => Reachable next below.1 f.1
  ahead : ∀ f ∈ stack, ∀ s ∈ f.2, s ∈ next f.1
  distinct : (done ++ stack.map Prod.fst).Nodup
  seen : ∀ v ∈ done ++ stack.map Prod.fst, v ∈ start ∧ v ∉ pool
  unseen : ∀ v ∈ pool, v ∈ start

variable {next : VertexId → List VertexId} {start pool : VertexSet} {stack : List SearchFrame}
  {done rest roots : List VertexId} {s u v root : VertexId}

namespace FinishInvariant

theorem initial (start : VertexSet) : FinishInvariant next start start [] [] where
  taken _ member gone := absurd member gone
  finished := by simp
  opened := by simp
  order := trivial
  back := by simp
  chain := .nil
  ahead := by simp
  distinct := .nil
  seen := by simp
  unseen _ member := member

/-- No finished vertex has an edge to what is left in the pool, so no path through finished vertices leads there. -/
theorem back_of_mem_pool (inv : FinishInvariant next start pool stack done) (inPool : s ∈ pool) {past : List VertexId}
    (trail : Trail next u past s) (through : ∀ w ∈ past, w ∈ done) : Reachable next s u := by
  by_cases nothing : past = []
  · subst nothing
    obtain rfl := trail.eq_root
    exact .refl
  · obtain ⟨before, w, rfl, _, edge⟩ := trail.exists_last nothing
    exact absurd inPool (inv.finished w (through w (by simp)) s edge)

/-- A vertex of the pool may be opened next. -/
theorem distinct_push (inv : FinishInvariant next start pool stack done) (inPool : s ∈ pool) :
    (done ++ s :: stack.map Prod.fst).Nodup := by
  rw [List.nodup_middle, List.nodup_cons]
  exact ⟨fun old => (inv.seen s old).2 inPool, inv.distinct⟩

theorem seen_push (inv : FinishInvariant next start pool stack done) (inPool : s ∈ pool) :
    ∀ w ∈ done ++ s :: stack.map Prod.fst, w ∈ start ∧ w ∉ pool.erase s := by
  intro w member
  rw [List.mem_append, List.mem_cons] at member
  by_cases isNew : w = s
  · exact ⟨isNew ▸ inv.unseen s inPool, by simp [isNew]⟩
  · obtain ⟨inStart, gone⟩ := inv.seen w (List.mem_append.mpr (member.imp_right (·.resolve_left isNew)))
    exact ⟨inStart, fun still => gone (VertexSet.mem_erase.mp still).1⟩

theorem close (inv : FinishInvariant next start pool ((v, []) :: stack) done) :
    FinishInvariant next start pool stack (v :: done) where
  toSearchInvariant := inv.toSearchInvariant.close
  order := ⟨inv.back _ List.mem_cons_self, inv.order⟩
  back f member u past trail through := by
    by_cases passed : v ∈ past
    · -- up to its first visit of `v`, the path is one to an open vertex
      obtain ⟨before, later, rfl, first⟩ := List.eq_append_cons_of_mem passed
      obtain ⟨toV, _⟩ := trail.split
      have returns : Reachable next v u := by
        refine inv.back _ List.mem_cons_self u before toV fun w early => ?_
        refine (List.mem_cons.mp (through w (List.mem_append_left _ early))).resolve_left ?_
        rintro rfl
        exact first early
      exact (List.rel_of_pairwise_cons inv.chain member).trans returns
    · refine inv.back f (List.mem_cons_of_mem _ member) u past trail fun w isPast => ?_
      refine (List.mem_cons.mp (through w isPast)).resolve_left ?_
      rintro rfl
      exact passed isPast
  chain := inv.chain.of_cons
  ahead f member := inv.ahead f (List.mem_cons_of_mem _ member)
  distinct := by simpa using List.nodup_middle.mp inv.distinct
  seen w member := inv.seen w (by simpa [or_left_comm] using member)
  unseen := inv.unseen

theorem enter (inv : FinishInvariant next start pool ((v, s :: rest) :: stack) done) (inPool : s ∈ pool) :
    FinishInvariant next start (pool.erase s) ((s, next s) :: (v, rest) :: stack) done where
  toSearchInvariant := inv.toSearchInvariant.enter
  order := inv.order
  back f member u past trail through := by
    rcases List.mem_cons.mp member with rfl | member
    · exact inv.back_of_mem_pool inPool trail through
    · rcases List.mem_cons.mp member with rfl | deeper
      · exact inv.back _ List.mem_cons_self u past trail through
      · exact inv.back f (List.mem_cons_of_mem _ deeper) u past trail through
  chain := by
    have edge : s ∈ next v := inv.ahead _ List.mem_cons_self s List.mem_cons_self
    obtain ⟨below, rest⟩ := List.pairwise_cons.mp inv.chain
    refine .cons (List.forall_mem_cons.mpr ⟨Reachable.refl.step edge, fun f deeper => ?_⟩) (.cons below rest)
    exact (below f deeper).step edge
  ahead f member t isNext := by
    rcases List.mem_cons.mp member with rfl | member
    · exact isNext
    · rcases List.mem_cons.mp member with rfl | deeper
      · exact inv.ahead _ List.mem_cons_self t (List.mem_cons_of_mem _ isNext)
      · exact inv.ahead f (List.mem_cons_of_mem _ deeper) t isNext
  distinct := inv.distinct_push inPool
  seen := inv.seen_push inPool
  unseen w member := inv.unseen w (VertexSet.mem_erase.mp member).1

theorem pass (inv : FinishInvariant next start pool ((v, s :: rest) :: stack) done) (gone : s ∉ pool) :
    FinishInvariant next start pool ((v, rest) :: stack) done where
  toSearchInvariant := inv.toSearchInvariant.pass gone
  order := inv.order
  back f member u past trail through := by
    rcases List.mem_cons.mp member with rfl | deeper
    · exact inv.back _ List.mem_cons_self u past trail through
    · exact inv.back f (List.mem_cons_of_mem _ deeper) u past trail through
  chain := .cons (List.pairwise_cons.mp inv.chain).1 inv.chain.of_cons
  ahead f member t isNext := by
    rcases List.mem_cons.mp member with rfl | deeper
    · exact inv.ahead _ List.mem_cons_self t (List.mem_cons_of_mem _ isNext)
    · exact inv.ahead f (List.mem_cons_of_mem _ deeper) t isNext
  distinct := inv.distinct
  seen := inv.seen
  unseen := inv.unseen

/-- A search may be started from any vertex of the pool. -/
theorem begin (inv : FinishInvariant next start pool [] done) (inPool : root ∈ pool) :
    FinishInvariant next start (pool.erase root) [(root, next root)] done where
  taken t member gone := by
    by_cases isRoot : t = root
    · exact .inr ⟨_, List.mem_cons_self, isRoot.symm⟩
    · rcases inv.taken t member (fun still => gone (by simp [still, isRoot])) with finished | ⟨f, none, _⟩
      · exact .inl finished
      · simp at none
  finished u member t edge inPool := inv.finished u member t edge (VertexSet.mem_erase.mp inPool).1
  opened f member t edge _ := by
    obtain rfl := List.mem_singleton.mp member
    exact edge
  order := inv.order
  back f member u past trail through := by
    obtain rfl := List.mem_singleton.mp member
    exact inv.back_of_mem_pool inPool trail through
  chain := List.pairwise_singleton _ _
  ahead f member t isNext := by
    obtain rfl := List.mem_singleton.mp member
    exact isNext
  distinct := inv.distinct_push inPool
  seen := inv.seen_push inPool
  unseen w member := inv.unseen w (VertexSet.mem_erase.mp member).1

/-- What one search keeps. -/
theorem depthFirst (inv : FinishInvariant next start pool stack done) :
    FinishInvariant next start (depthFirst next pool stack done).2 [] (depthFirst next pool stack done).1 := by
  fun_induction MiddleEnd.depthFirst next pool stack done with
  | case1 pool done => exact inv
  | case2 pool done v stack ih => exact ih inv.close
  | case3 pool done v s rest stack inPool ih => exact ih (inv.enter inPool)
  | case4 pool done v s rest stack gone ih => exact ih (inv.pass gone)

end FinishInvariant

end MiddleEnd
