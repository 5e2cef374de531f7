import MiddleEnd.Analysis
import MiddleEnd.Graph.Edit
import MiddleEnd.Graph.Liveness

/-!
Release of variables: a Free vertex where nothing can read a variable any more. The point is the nearest
common post-dominator of all vertices that reference the variable; it is skipped where leaving the
function releases the variable anyway, or where the point lies in a loop with the uses.
-/
namespace MiddleEnd

/-- A variable and the vertex to release it at. -/
structure ReleasePoint where
  x : VarId
  vertex : VertexId

namespace Graph

/-- Whether `x`, referenced at `uses`, may be released at `v`. -/
def releasesAt (g : Graph) (forward : Dominators) (x : VarId) (uses : List VertexId) (v : VertexId) : Bool :=
  let w := g.vertex v
  w.op != .finish
    && !(w.op == .ret && w.readsVar (some x))
    && !uses.any (forward.strictlyDominatedBy · v)
    && !g.liveAfter v x

/-- The point to release `x` at, if there is one. -/
def releasePoint? (g : Graph) (forward backward : Dominators) (x : VarId) : Except Failure (Option ReleasePoint) :=
  let uses := g.references (some x)
  match backward.nearestCommon g.name uses with
  | .error why => .error why
  | .ok none => .ok none
  | .ok (some v) => .ok (if g.releasesAt forward x uses v then some ⟨x, v⟩ else none)

/-- Adds a Free of `x`; its number is `nextVertex`. -/
def addFree (g : Graph) (x : VarId) : Graph :=
  g.addVertex .free none [some x]

/-- Inserts the release and counts the vertices added: on each edge out of a branch that reads the variable,
before any other branch or return, after any other vertex. -/
def release (g : Graph) (p : ReleasePoint) : Graph × Nat :=
  let w := g.vertex p.vertex
  if w.isBranch && w.readsVar (some p.x) then
    let targets := w.succs.eraseDups
    (targets.foldl (fun g s => (g.addFree p.x).insertOnEdge p.vertex s g.nextVertex) g, targets.length)
  else if w.isBranch || w.op == .ret then ((g.addFree p.x).insertBefore p.vertex g.nextVertex, 1)
  else ((g.addFree p.x).insertAfter p.vertex g.nextVertex, 1)

end Graph

namespace Analysis

/-- Inserts the releases of all variables and counts the vertices added. All points are chosen before the
first is used. -/
def insertReleases : Action Analysis Nat := do
  let (forward, a) := (← get).dominators
  let (backward, a) := a.postDominators
  set a
  let xs ← Action.need a.graph.mentioned?
  match xs.mapM (a.graph.releasePoint? forward backward) with
  | .error why => Action.fail why
  | .ok points =>
    let (g, count) := (points.filterMap id).foldl
      (fun (g, n) p => let (g, more) := g.release p; (g, n + more)) (a.graph, 0)
    set { a with graph := g }
    return count

end Analysis

end MiddleEnd
