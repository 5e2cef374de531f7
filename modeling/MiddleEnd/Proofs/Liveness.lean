import MiddleEnd.Graph.Liveness
import MiddleEnd.Proofs.Trail

/-!
Liveness is about paths: a variable is live where a path leads to a read of it that passes no write
(`liveAt_iff`). A search that answers no has looked at everything up to the writes, and found no read there.
-/
namespace MiddleEnd

namespace Graph

/-- Some path from `v` arrives at a vertex that reads `x`, and no vertex before that one writes `x`. -/
def Live (g : Graph) (x : VarId) (v : VertexId) : Prop :=
  ∃ past u, Trail g.succs v past u ∧ (g.vertex u).readsVar (some x) = true ∧
    ∀ w ∈ past, (g.vertex w).writesVar (some x) = false

variable {g : Graph} {x : VarId} {v : VertexId}

theorem live_of_reads (reads : (g.vertex v).readsVar (some x) = true) : g.Live x v :=
  ⟨[], v, .start, reads, by simp⟩

/-- A variable that is live at the end of a path without writes is live at its start. -/
theorem Live.of_trail {u : VertexId} {past : List VertexId} (live : g.Live x u) (trail : Trail g.succs v past u)
    (silent : ∀ w ∈ past, (g.vertex w).writesVar (some x) = false) : g.Live x v := by
  obtain ⟨later, r, onward, reads, quiet⟩ := live
  refine ⟨past ++ later, r, trail.trans onward, reads, fun w member => ?_⟩
  rcases List.mem_append.mp member with first | second
  · exact silent w first
  · exact quiet w second

theorem Live.of_succ {s : VertexId} (live : g.Live x s) (edge : s ∈ g.succs v)
    (silent : (g.vertex v).writesVar (some x) = false) : g.Live x v :=
  live.of_trail (Trail.start.step edge) (by simpa using silent)

/-- What a search for reads keeps true; `start` is the pool that it began with. -/
structure QuietInvariant (g : Graph) (x : VarId) (start pool : VertexSet) (work : List VertexId) : Prop where
  quiet : ∀ u ∈ start, u ∉ pool → (g.vertex u).readsVar (some x) = false
  passed : ∀ u ∈ start, u ∉ pool → (g.vertex u).writesVar (some x) = false →
    ∀ s ∈ g.succs u, s ∈ pool → s ∈ work

variable {start pool : VertexSet} {work : List VertexId}

/-- A visited vertex without a read leaves the pool, and its successors follow it unless it writes. -/
theorem QuietInvariant.visit (inv : g.QuietInvariant x start pool (v :: work)) (more : List VertexId)
    (silent : (g.vertex v).readsVar (some x) = false)
    (next : (g.vertex v).writesVar (some x) = false → ∀ s ∈ g.succs v, s ∈ more) :
    g.QuietInvariant x start (pool.erase v) (more ++ work) := by
  have before : ∀ {u}, u ≠ v → u ∉ pool.erase v → u ∉ pool := fun other gone kept => gone (by simp [kept, other])
  refine ⟨?_, ?_⟩
  · intro u member gone
    by_cases same : u = v
    · exact same ▸ silent
    · exact inv.quiet u member (before same gone)
  · intro u member gone quiet s edge kept
    obtain ⟨kept, other⟩ := VertexSet.mem_erase.mp kept
    by_cases same : u = v
    · exact List.mem_append_left _ (next (same ▸ quiet) s (same ▸ edge))
    · rcases List.mem_cons.mp (inv.passed u member (before same gone) quiet s edge kept) with is | later
      · exact absurd is other
      · exact List.mem_append_right _ later

/-- A vertex met outside the pool adds nothing. -/
theorem QuietInvariant.skip (inv : g.QuietInvariant x start pool (v :: work)) (gone : v ∉ pool) :
    g.QuietInvariant x start pool work := by
  refine ⟨inv.quiet, fun u member out quiet s edge kept => ?_⟩
  rcases List.mem_cons.mp (inv.passed u member out quiet s edge kept) with rfl | later
  · exact absurd kept gone
  · exact later

/-- A search without an answer ends with all work done and every read still ahead in the pool. -/
theorem quiet_of_liveFrom_false (inv : g.QuietInvariant x start pool work)
    (answer : g.liveFrom x pool work = false) :
    ∃ rest, g.QuietInvariant x start rest [] ∧ (∀ w ∈ work, w ∉ rest) ∧ ∀ u ∈ rest, u ∈ pool := by
  -- both visiting cases go on with a smaller pool, in which the visited vertex is not
  have visited : ∀ {pool : VertexSet} {v : VertexId} {work : List VertexId} (more : List VertexId) {rest : VertexSet},
      (∀ w ∈ more ++ work, w ∉ rest) → (∀ u ∈ rest, u ∈ pool.erase v) →
      (∀ w ∈ v :: work, w ∉ rest) ∧ ∀ u ∈ rest, u ∈ pool := by
    intro pool v work more rest done less
    refine ⟨?_, fun u member => (VertexSet.mem_erase.mp (less u member)).1⟩
    intro w member kept
    rcases List.mem_cons.mp member with rfl | later
    · exact (VertexSet.mem_erase.mp (less _ kept)).2 rfl
    · exact done w (List.mem_append_right _ later) kept
  fun_induction liveFrom g x pool work with
  | case1 pool => exact ⟨pool, inv, by simp, fun _ member => member⟩
  | case2 => simp at answer
  | case3 pool v work inPool silent writes ih =>
    obtain ⟨rest, final, done, less⟩ := ih (inv.visit [] (by simpa using silent) (by simp [writes])) answer
    exact ⟨rest, final, visited [] done less⟩
  | case4 pool v work inPool silent writes ih =>
    obtain ⟨rest, final, done, less⟩ := ih (inv.visit (g.succs v) (by simpa using silent) fun _ _ edge => edge) answer
    exact ⟨rest, final, visited (g.succs v) done less⟩
  | case5 pool v work gone ih =>
    obtain ⟨rest, final, done, less⟩ := ih (inv.skip gone) answer
    refine ⟨rest, final, ?_, less⟩
    intro w member kept
    rcases List.mem_cons.mp member with rfl | later
    · exact gone (less _ kept)
    · exact done w later kept

/-- A search that finds a read has a path to it. -/
theorem live_of_liveFrom (answer : g.liveFrom x pool work = true) : ∃ w ∈ work, g.Live x w := by
  fun_induction liveFrom g x pool work with
  | case1 pool => simp at answer
  | case2 pool v work inPool reads => exact ⟨v, List.mem_cons_self, live_of_reads reads⟩
  | case3 pool v work inPool silent writes ih =>
    obtain ⟨w, member, live⟩ := ih answer
    exact ⟨w, List.mem_cons_of_mem _ member, live⟩
  | case4 pool v work inPool silent quiet ih =>
    obtain ⟨w, member, live⟩ := ih answer
    rcases List.mem_append.mp member with edge | later
    · exact ⟨v, List.mem_cons_self, live.of_succ edge (by simpa using quiet)⟩
    · exact ⟨w, List.mem_cons_of_mem _ later, live⟩
  | case5 pool v work gone ih =>
    obtain ⟨w, member, live⟩ := ih answer
    exact ⟨w, List.mem_cons_of_mem _ member, live⟩

/-- The computed liveness is the one that paths define, where paths stay among the vertices there are. -/
theorem liveAt_iff (inside : ∀ u, Reachable g.succs v u → u < g.store.size) :
    g.liveAt v x = true ↔ g.Live x v := by
  constructor
  · intro answer
    obtain ⟨w, member, live⟩ := live_of_liveFrom answer
    exact List.mem_singleton.mp member ▸ live
  · rintro ⟨past, u, trail, reads, quiet⟩
    cases answer : g.liveAt v x with
    | true => rfl
    | false =>
      have begins : g.QuietInvariant x (VertexSet.below g.store.size) (VertexSet.below g.store.size) [v] :=
        ⟨fun u member gone => absurd member gone, fun u member gone => absurd member gone⟩
      obtain ⟨rest, final, done, _⟩ := quiet_of_liveFrom_false begins answer
      have out : ∀ {past u}, Trail g.succs v past u → (∀ w ∈ past, (g.vertex w).writesVar (some x) = false) →
          u ∉ rest := by
        intro past u trail
        induction trail with
        | start => exact fun _ => done v (by simp)
        | @step past u s before edge ih =>
          intro quiet kept
          have outside := ih fun w member => quiet w (List.mem_append_left _ member)
          simpa using final.passed u (VertexSet.mem_below.mpr (inside u before.reachable)) outside
            (quiet u (by simp)) s edge kept
      rw [final.quiet u (VertexSet.mem_below.mpr (inside u trail.reachable)) (out trail quiet)] at reads
      exact absurd reads (by simp)

end Graph

end MiddleEnd
