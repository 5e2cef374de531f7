import Mathlib.Computability.StateTransition
import MiddleEnd.Proofs.Dominance
import MiddleEnd.Proofs.FinishingOrder

/-!
Reverse post-order. The search takes vertices from a pool, so that it ends on its own. The loop it stands for (`Traversal`) has no
pool: it knows the vertices it has seen, and for each open vertex the place among the neighbours that it looks at next. On
finitely many vertices the loop ends too, and has then finished the same vertices in the same order (`Traversal.Tracks.ends`).
The order begins with the root, and an edge that leads back in it lies on a cycle (`FinishOrder.reachable_of_edge`).
-/
namespace MiddleEnd

/-- A depth-first traversal at work. The open vertices are those it came through, the current one first. -/
structure Traversal where
  seen : VertexSet
  /-- Each open vertex, with the place of the neighbour that is looked at next. -/
  stack : List (VertexId × Nat)
  /-- The finished vertices, the first one first. -/
  order : List VertexId

namespace Traversal

def start (root : VertexId) : Traversal :=
  { seen := VertexSet.empty.insert root, stack := [(root, 0)], order := [] }

/-- One round: the current vertex looks at its next neighbour, which is opened if it is new, or is finished when it has looked
at all of them. -/
def step (next : VertexId → List VertexId) (t : Traversal) : Option Traversal :=
  match t.stack with
  | [] => none
  | (v, i) :: stack =>
    match (next v)[i]? with
    | none => some { t with stack, order := t.order ++ [v] }
    | some s =>
      if s ∈ t.seen then some { t with stack := (v, i + 1) :: stack }
      else some { t with seen := t.seen.insert s, stack := (s, 0) :: (v, i + 1) :: stack }

/-- The loop ends, with the vertices finished in this order. -/
def Finishes (next : VertexId → List VertexId) (t : Traversal) (order : List VertexId) : Prop :=
  ∃ last, StateTransition.Reaches (step next) t last ∧ last.stack = [] ∧ last.order = order

/-- The traversal is where the search is: the pool holds what has not been seen, of the vertices below `size`. -/
structure Tracks (next : VertexId → List VertexId) (root : VertexId) (size : Nat) (t : Traversal) (pool : VertexSet)
    (stack : List SearchFrame) (done : List VertexId) : Prop where
  pool : ∀ s, s < size → (s ∈ pool ↔ s ∉ t.seen)
  stack : stack = t.stack.map fun f => (f.1, (next f.1).drop f.2)
  done : done = t.order.reverse
  reached : ∀ f ∈ t.stack, Reachable next root f.1

variable {next : VertexId → List VertexId} {root v s : VertexId} {size : Nat} {t t' : Traversal} {pool : VertexSet}
  {stack : List SearchFrame} {done rest order : List VertexId}

theorem Finishes.of_step (stepped : t.step next = some t') (finishes : t'.Finishes next order) : t.Finishes next order := by
  obtain ⟨last, reaches, stopped⟩ := finishes
  exact ⟨last, .head stepped reaches, stopped⟩

namespace Tracks

theorem start (next : VertexId → List VertexId) (root : VertexId) (size : Nat) :
    Tracks next root size (.start root) ((VertexSet.below size).erase root) [(root, next root)] [] where
  pool s inside := by
    have empty : s ∉ VertexSet.empty := VertexSet.not_mem_empty s
    simp [Traversal.start, inside, empty]
  stack := rfl
  done := rfl
  reached f member := by
    obtain rfl := List.mem_singleton.mp member
    exact .refl

/-- The current vertex of the search is the one of the traversal. -/
theorem exists_current (tracks : Tracks next root size t pool ((v, rest) :: stack) done) :
    ∃ i below, t.stack = (v, i) :: below ∧ (next v).drop i = rest ∧
      stack = below.map (fun f => (f.1, (next f.1).drop f.2)) ∧ Reachable next root v ∧
      ∀ f ∈ below, Reachable next root f.1 := by
  have frames := tracks.stack
  have reached := tracks.reached
  cases isStack : t.stack with
  | nil => simp [isStack] at frames
  | cons f below =>
    obtain ⟨u, i⟩ := f
    rw [isStack, List.map_cons, List.cons.injEq, Prod.mk.injEq] at frames
    obtain ⟨⟨rfl, remaining⟩, deeper⟩ := frames
    rw [isStack, List.forall_mem_cons] at reached
    exact ⟨i, below, rfl, remaining.symm, deeper, reached⟩

theorem close (tracks : Tracks next root size t pool ((v, []) :: stack) done) :
    ∃ t', t.step next = some t' ∧ Tracks next root size t' pool stack (v :: done) := by
  obtain ⟨i, below, isStack, remaining, deeper, _, reached⟩ := tracks.exists_current
  have atEnd : (next v)[i]? = none := List.getElem?_eq_none (List.drop_eq_nil_iff.mp remaining)
  refine ⟨{ t with stack := below, order := t.order ++ [v] }, by simp [step, isStack, atEnd], tracks.pool, deeper, ?_, reached⟩
  rw [tracks.done, List.reverse_append]
  rfl

/-- What the current vertex looks at next, and what it has yet to look at then. -/
theorem next_eq {i : Nat} (remaining : (next v).drop i = s :: rest) : (next v)[i]? = some s ∧ (next v).drop (i + 1) = rest := by
  constructor
  · rw [← List.head?_drop, remaining, List.head?_cons]
  · rw [← List.tail_drop, remaining, List.tail_cons]

section
variable (finite : ∀ u, Reachable next root u → ∀ s ∈ next u, s < size)
include finite

theorem enter (tracks : Tracks next root size t pool ((v, s :: rest) :: stack) done) (inPool : s ∈ pool) :
    ∃ t', t.step next = some t' ∧ Tracks next root size t' (pool.erase s) ((s, next s) :: (v, rest) :: stack) done := by
  obtain ⟨i, below, isStack, remaining, deeper, here, reached⟩ := tracks.exists_current
  obtain ⟨looksAt, remaining⟩ := next_eq remaining
  have edge : s ∈ next v := List.mem_of_getElem? looksAt
  have fresh : s ∉ t.seen := (tracks.pool s (finite v here s edge)).mp inPool
  refine ⟨{ t with seen := t.seen.insert s, stack := (s, 0) :: (v, i + 1) :: below },
    by simp [step, isStack, looksAt, fresh], ?_, ?_, tracks.done, ?_⟩
  · intro w inside
    rw [VertexSet.mem_erase, VertexSet.mem_insert, tracks.pool w inside, not_or]
  · simp [remaining, deeper]
  · exact List.forall_mem_cons.mpr ⟨here.step edge, List.forall_mem_cons.mpr ⟨here, reached⟩⟩

theorem pass (tracks : Tracks next root size t pool ((v, s :: rest) :: stack) done) (gone : s ∉ pool) :
    ∃ t', t.step next = some t' ∧ Tracks next root size t' pool ((v, rest) :: stack) done := by
  obtain ⟨i, below, isStack, remaining, deeper, here, reached⟩ := tracks.exists_current
  obtain ⟨looksAt, remaining⟩ := next_eq remaining
  have inside : s < size := finite v here s (List.mem_of_getElem? looksAt)
  have old : s ∈ t.seen := by
    by_contra fresh
    exact gone ((tracks.pool s inside).mpr fresh)
  refine ⟨{ t with stack := (v, i + 1) :: below }, by simp [step, isStack, looksAt, old], tracks.pool, ?_, tracks.done, ?_⟩
  · simp [remaining, deeper]
  · exact List.forall_mem_cons.mpr ⟨here, reached⟩

/-- The loop ends where the search does. -/
theorem ends (tracks : Tracks next root size t pool stack done) :
    t.Finishes next (depthFirst next pool stack done).1.reverse := by
  -- each call of the search is one round of the loop
  fun_induction depthFirst next pool stack done generalizing t with
  | case1 pool done =>
    have stopped : t.stack = [] := List.map_eq_nil_iff.mp tracks.stack.symm
    exact ⟨t, .refl, stopped, by rw [tracks.done, List.reverse_reverse]⟩
  | case2 pool done v stack ih =>
    obtain ⟨t', stepped, tracks⟩ := tracks.close
    exact (ih tracks).of_step stepped
  | case3 pool done v s rest stack inPool ih =>
    obtain ⟨t', stepped, tracks⟩ := tracks.enter finite inPool
    exact (ih tracks).of_step stepped
  | case4 pool done v s rest stack gone ih =>
    obtain ⟨t', stepped, tracks⟩ := tracks.pass finite gone
    exact (ih tracks).of_step stepped

end

end Tracks

end Traversal

variable {next : VertexId → List VertexId} {root u w : VertexId} {pool : VertexSet} {stack : List SearchFrame}
  {done order : List VertexId} {i j : Nat}

/-- The vertex that was opened first is finished last. -/
theorem head?_depthFirst (next : VertexId → List VertexId) (pool : VertexSet) (stack : List SearchFrame)
    (done : List VertexId) :
    (depthFirst next pool stack done).1.head? = (stack.getLast?.map Prod.fst).or done.head? := by
  fun_induction depthFirst next pool stack done with
  | case1 pool done => rfl
  | case2 pool done v stack ih =>
    rw [ih]
    cases stack with
    | nil => rfl
    | cons f stack => rw [List.getLast?_cons_cons, List.getLast?_cons]; rfl
  | case3 pool done v s rest stack inPool ih =>
    rw [ih, List.getLast?_cons_cons]
    cases stack <;> simp
  | case4 pool done v s rest stack gone ih =>
    rw [ih]
    cases stack <;> simp

/-- An edge to a vertex that was finished no earlier can be gone back. -/
theorem FinishOrder.reachable_of_edge (finish : FinishOrder next order) (atU : order[i]? = some u) (atW : order[j]? = some w)
    (edge : w ∈ next u) (back : j ≤ i) : Reachable next w u := by
  induction order generalizing i j with
  | nil => simp at atU
  | cons v earlier ih =>
    cases j with
    | zero =>
      obtain rfl : v = w := by simpa using atW
      cases i with
      | zero =>
        obtain rfl : v = u := by simpa using atU
        exact .refl
      | succ i =>
        have before : u ∈ earlier := List.mem_of_getElem? (by simpa using atU)
        exact finish.1 u [u] (Trail.start.step edge) (List.forall_mem_singleton.mpr before)
    | succ j =>
      cases i with
      | zero => omega
      | succ i => exact ih finish.2 (by simpa using atU) (by simpa using atW) (by omega)

/-- The search from one root lists vertices once, in the order of their finish. -/
theorem finishOrder_reversePostOrderFrom (next : VertexId → List VertexId) (size : Nat) (root : VertexId) :
    FinishOrder next (reversePostOrderFrom next size root) ∧ (reversePostOrderFrom next size root).Nodup := by
  -- the root need not be below `size`, so it is put into the pool that the search is said to begin with
  have pool : ((VertexSet.below size).insert root).erase root = (VertexSet.below size).erase root := by
    apply VertexSet.ext
    intro v
    simp only [VertexSet.mem_erase, VertexSet.mem_insert]
    tauto
  have begins : FinishInvariant next ((VertexSet.below size).insert root) ((VertexSet.below size).erase root)
      [(root, next root)] [] := by
    rw [← pool]
    exact (FinishInvariant.initial _).begin (by simp)
  have final := begins.depthFirst
  exact ⟨final.order, by simpa [reversePostOrderFrom] using final.distinct⟩

/-- Reverse post-order. On finitely many vertices the traversal from a root ends, and the order in which it finished, turned
round, has each vertex that the root reaches once and no others. The root comes first, and where an edge does not lead
onwards its target reaches its source; so without cycles all edges lead onwards. -/
theorem reversePostOrderFrom_sorts (next : VertexId → List VertexId) (size : Nat) (root : VertexId)
    (finite : ∀ u, Reachable next root u → ∀ s ∈ next u, s < size) :
    let order := reversePostOrderFrom next size root
    (Traversal.start root).Finishes next order.reverse ∧
    (order.Nodup ∧ ∀ v, v ∈ order ↔ Reachable next root v) ∧
    order.head? = some root ∧
    (∀ (i j : Nat) (u w : VertexId), order[i]? = some u → order[j]? = some w → w ∈ next u → j ≤ i → Reachable next w u) ∧
    ((∀ v past, Reachable next root v → Trail next v past v → past = []) →
      ∀ (i j : Nat) (u w : VertexId), order[i]? = some u → order[j]? = some w → w ∈ next u → i < j) := by
  intro order
  obtain ⟨finish, once⟩ := finishOrder_reversePostOrderFrom next size root
  have listed (v : VertexId) : v ∈ order ↔ Reachable next root v := mem_reversePostOrderFrom finite
  have back (i j : Nat) (u w : VertexId) (atU : order[i]? = some u) (atW : order[j]? = some w) (edge : w ∈ next u)
      (notLater : j ≤ i) : Reachable next w u := finish.reachable_of_edge atU atW edge notLater
  refine ⟨(Traversal.Tracks.start next root size).ends finite, ⟨once, listed⟩, ?_, back, ?_⟩
  · exact head?_depthFirst next _ _ _
  · intro acyclic i j u w atU atW edge
    by_contra notLater
    obtain ⟨past, trail⟩ := back i j u w atU atW edge (Nat.le_of_not_lt notLater)
    have none := acyclic u (u :: past) ((listed u).mp (List.mem_of_getElem? atU)) (trail.cons edge)
    simp at none

/-- Where every edge goes up, no path comes back to where it was. -/
theorem Trail.eq_nil_of_rising {rank : VertexId → Nat} (rising : ∀ u, ∀ s ∈ next u, rank u < rank s) {past : List VertexId}
    (cycle : Trail next u past u) : past = [] := by
  have climbs (v : VertexId) (past : List VertexId) (trail : Trail next u past v) : rank u + past.length ≤ rank v := by
    induction trail with
    | start => simp
    | @step past w v _ edge ih =>
      have up := rising w v edge
      rw [List.length_append, List.length_singleton]
      omega
  have level := climbs u past cycle
  exact List.eq_nil_of_length_eq_zero (by omega)

open Dominators (tangled)

/-- In the tangled graph one edge leads back, from the last vertex to the second. Without cycles the third vertex comes before
the second, which it leads to. -/
theorem tangled_sorts :
    let next : VertexId → List VertexId := fun v => [[1, 2, 1], [3], [1], []].getD v []
    (tangled.reversePostOrder = [0, 1, 4, 2] ∧ (Traversal.start 0).Finishes tangled.succs [2, 4, 1, 0] ∧
      (3 ∈ tangled.reversePostOrder ↔ Reachable tangled.succs 0 3) ∧ Reachable tangled.succs 1 2) ∧
    reversePostOrderFrom next 4 0 = [0, 2, 1, 3] ∧
    ∀ (i j : Nat) (u w : VertexId), (reversePostOrderFrom next 4 0)[i]? = some u →
      (reversePostOrderFrom next 4 0)[j]? = some w → w ∈ next u → i < j := by
  intro next
  have same : tangled.SameEdges := by decide
  have order : tangled.reversePostOrder = [0, 1, 4, 2] := by cbv
  obtain ⟨finishes, ⟨_, members⟩, _, back, _⟩ := reversePostOrderFrom_sorts tangled.succs 5 0
    fun u _ s edge => Graph.lt_of_mem_preds ((same u s).mp edge)
  change (Traversal.start 0).Finishes tangled.succs tangled.reversePostOrder.reverse at finishes
  change ∀ i j u w, tangled.reversePostOrder[i]? = some u → tangled.reversePostOrder[j]? = some w → _ at back
  rw [order] at finishes back
  have listed : ∀ u < 4, ∀ s ∈ next u, s < 4 ∧ [0, 2, 1, 3].getD u 4 < [0, 2, 1, 3].getD s 4 := by decide
  have inside (u s : VertexId) (edge : s ∈ next u) : s < 4 ∧ [0, 2, 1, 3].getD u 4 < [0, 2, 1, 3].getD s 4 := by
    rcases Nat.lt_or_ge u 4 with small | large
    · exact listed u small s edge
    · simp [next, large] at edge
  obtain ⟨_, _, _, _, onwards⟩ := reversePostOrderFrom_sorts next 4 0 fun u _ s edge => (inside u s edge).1
  refine ⟨⟨order, finishes, members 3, back 3 1 2 1 rfl rfl (by decide) (by decide)⟩, by cbv, onwards ?_⟩
  intro v past _ cycle
  exact cycle.eq_nil_of_rising fun u s edge => (inside u s edge).2

end MiddleEnd
