import MiddleEnd.Graph.Basic

/-!
Depth-first orders and reachability. A search keeps the pool of vertices that it has not seen; every
step takes a vertex from the pool or shortens the work at hand, so it ends on every graph. The numbers
in the pool are the vertices there are: what is outside it is never entered.
-/
namespace MiddleEnd

/-- One open vertex of a depth-first search, with the neighbours it has yet to look at. -/
abbrev SearchFrame := VertexId × List VertexId

/-- The work that the open vertices hold. -/
def searchWork (stack : List SearchFrame) : Nat :=
  stack.foldr (fun f n => f.2.length + 1 + n) 0

/-- Depth-first search from the open vertices in `stack`, the current one first. A vertex is put in front
of `done` when it is finished, so the answer is in reverse post-order; with it comes what is left of the pool. -/
def depthFirst (next : VertexId → List VertexId) (pool : VertexSet) (stack : List SearchFrame)
    (done : List VertexId) : List VertexId × VertexSet :=
  match stack with
  | [] => (done, pool)
  | (v, []) :: stack => depthFirst next pool stack (v :: done)
  | (v, s :: rest) :: stack =>
    if s ∈ pool then depthFirst next (pool.erase s) ((s, next s) :: (v, rest) :: stack) done
    else depthFirst next pool ((v, rest) :: stack) done
termination_by (pool.bits, searchWork stack)
decreasing_by
  · exact Prod.Lex.right _ (by simp [searchWork])
  · exact Prod.Lex.left _ _ (VertexSet.bits_erase_lt ‹_›)
  · exact Prod.Lex.right _ (by simp [searchWork])

/-- The vertices reachable from `root`, of those below `size`, in reverse post-order. -/
def reversePostOrderFrom (next : VertexId → List VertexId) (size : Nat) (root : VertexId) : List VertexId :=
  (depthFirst next ((VertexSet.below size).erase root) [(root, next root)] []).1

/-- Adds to `seen` what can be reached from the vertices in `work` through vertices of the pool. -/
def closure (next : VertexId → List VertexId) (pool : VertexSet) (work : List VertexId) (seen : VertexSet) :
    VertexSet :=
  match work with
  | [] => seen
  | v :: work =>
    if v ∈ pool then closure next (pool.erase v) (next v ++ work) (seen.insert v)
    else closure next pool work seen
termination_by (pool.bits, work.length)
decreasing_by
  · exact Prod.Lex.left _ _ (VertexSet.bits_erase_lt ‹_›)
  · exact Prod.Lex.right _ (by simp)

namespace Graph

/-- The vertices reachable from the entry in reverse post-order. -/
def reversePostOrder (g : Graph) : List VertexId :=
  reversePostOrderFrom g.succs g.store.size g.entry

/-- The graph with the reachable vertices at hand: those found before, if the structure has not changed
since, else found anew. -/
def withReach (g : Graph) : Graph × VertexSet :=
  let fresh : Graph × VertexSet :=
    let found := VertexSet.ofList g.reversePostOrder
    ({ g with reach := some (g.epoch, found) }, found)
  match g.reach with
  | some (epoch, found) => if epoch = g.epoch then (g, found) else fresh
  | none => fresh

end Graph

end MiddleEnd
