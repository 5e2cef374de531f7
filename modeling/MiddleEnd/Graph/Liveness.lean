import MiddleEnd.Graph.Basic

/-!
Liveness: whether a variable may be read before it is written again.
-/
namespace MiddleEnd

namespace Graph

/-- Whether a read of `x` is found from the vertices in `work`, not going past a write, through vertices of
the pool. -/
def liveFrom (g : Graph) (x : VarId) (pool : VertexSet) (work : List VertexId) : Bool :=
  match work with
  | [] => false
  | v :: work =>
    if v ∈ pool then
      if (g.vertex v).readsVar (some x) then true
      else if (g.vertex v).writesVar (some x) then liveFrom g x (pool.erase v) work
      else liveFrom g x (pool.erase v) (g.succs v ++ work)
    else liveFrom g x pool work
termination_by (pool.bits, work.length)
decreasing_by
  · exact Prod.Lex.left _ _ (VertexSet.bits_erase_lt ‹_›)
  · exact Prod.Lex.left _ _ (VertexSet.bits_erase_lt ‹_›)
  · exact Prod.Lex.right _ (by simp)

/-- Whether `x` may be read at or after `v` before it is written. -/
def liveAt (g : Graph) (v : VertexId) (x : VarId) : Bool :=
  g.liveFrom x (VertexSet.below g.store.size) [v]

/-- Whether `x` may be read after `v`. -/
def liveAfter (g : Graph) (v : VertexId) (x : VarId) : Bool :=
  (g.succs v).any fun s => g.liveAt s x

end Graph

end MiddleEnd
