import MiddleEnd.Graph.Order

/-!
Strongly connected components: a depth-first order over the successors, then a gathering over the
predecessors from the vertices in that order. The components come out in topological order.
-/
namespace MiddleEnd

/-- Depth-first search from each root that is still in the pool. -/
def depthFirstAll (next : VertexId → List VertexId) : List VertexId → VertexSet → List VertexId → List VertexId
  | [], _, done => done
  | root :: roots, pool, done =>
    if root ∈ pool then
      let (done, pool) := depthFirst next (pool.erase root) [(root, next root)] done
      depthFirstAll next roots pool done
    else depthFirstAll next roots pool done

/-- Adds to `members` the vertices in the queue and all that can be reached from them through the pool,
nearest first; with them comes what is left of the pool. -/
def gather (next : VertexId → List VertexId) (pool : VertexSet) (queue members : List VertexId) :
    List VertexId × VertexSet :=
  match queue with
  | [] => (members, pool)
  | v :: queue =>
    let fresh := pool.takeFresh (next v)
    gather next fresh.1 (queue ++ fresh.2) (members ++ [v])
termination_by (pool.bits, queue.length)
decreasing_by
  by_cases none : fresh.2 = []
  · have le := VertexSet.takeFresh_bits_le pool (next v)
    rw [none]
    rcases Nat.lt_or_eq_of_le le with lt | eq
    · exact Prod.Lex.left _ _ lt
    · simp only [eq]
      exact Prod.Lex.right _ (by simp)
  · exact Prod.Lex.left _ _ (VertexSet.takeFresh_bits_lt pool (next v) none)

/-- The components led by the vertices of an order that are still in the pool. -/
def gatherAll (next : VertexId → List VertexId) : List VertexId → VertexSet → List (List VertexId)
  | [], _ => []
  | leader :: order, pool =>
    if leader ∈ pool then
      let (members, pool) := gather next (pool.erase leader) [leader] []
      members :: gatherAll next order pool
    else gatherAll next order pool

/-- The strongly connected components of the vertices `vs`. -/
def stronglyConnected (vs : List VertexId) (succs preds : VertexId → List VertexId) : List (List VertexId) :=
  let pool := VertexSet.ofList vs
  gatherAll preds (depthFirstAll succs vs pool []) pool

end MiddleEnd
