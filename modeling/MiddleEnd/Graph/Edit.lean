import MiddleEnd.Graph.Basic

/-!
The operations that change the edges of a graph. Each keeps the order of successor lists: an edge that
gets a new target keeps its place.
-/
namespace MiddleEnd

namespace Graph

/-- Adds the edge `source → target`. -/
def addEdge (g : Graph) (source target : VertexId) : Graph :=
  ((g.modifyVertex source fun v => { v with succs := v.succs ++ [target] }).modifyVertex target
    fun v => { v with preds := v.preds ++ [source] }).touch

def hasEdge (g : Graph) (source target : VertexId) : Bool :=
  (g.succs source).contains target

/-- Removes one edge `source → target`, if there is one. -/
def removeEdge (g : Graph) (source target : VertexId) : Graph :=
  if g.hasEdge source target then
    ((g.modifyVertex source fun v => { v with succs := v.succs.erase target }).modifyVertex target
      fun v => { v with preds := v.preds.erase source }).touch
  else g

/-- Hands one entry `source` over from the predecessors of `old` to those of `new`. -/
def movePred (g : Graph) (source old new : VertexId) : Graph :=
  (g.modifyVertex old fun v => { v with preds := v.preds.erase source }).modifyVertex new
    fun v => { v with preds := v.preds ++ [source] }

/-- Retargets every edge `source → old` to `new`, each in its place. -/
def redirect (g : Graph) (source old new : VertexId) : Graph :=
  let edges := (g.succs source).count old
  let retargeted := g.modifyVertex source fun v =>
    { v with succs := v.succs.map fun s => if s = old then new else s }
  (Nat.repeat (movePred · source old new) edges retargeted).touch

/-- Retargets every edge into `old`, whatever its source, to `new`. -/
def redirectAll (g : Graph) (sources : List VertexId) (old new : VertexId) : Graph :=
  sources.eraseDups.foldl (fun g source => g.redirect source old new) g

/-- Places the unconnected vertex `n` between `v` and all successors of `v`. -/
def insertAfter (g : Graph) (v n : VertexId) : Graph :=
  let succs := g.succs v
  let g := g.modifyVertex n fun w => { w with succs }
  let g := succs.foldl (fun g s => g.modifyVertex s fun w =>
    { w with preds := w.preds.map fun p => if p = v then n else p }) g
  ((g.modifyVertex v fun w => { w with succs := [n] }).modifyVertex n fun w => { w with preds := [v] }).touch

/-- Places the unconnected vertex `n` between all predecessors of `v` and `v`. -/
def insertBefore (g : Graph) (v n : VertexId) : Graph :=
  (g.redirectAll (g.preds v) v n).addEdge n v

/-- Places the unconnected vertex `n` on all edges `source → target`. -/
def insertOnEdge (g : Graph) (source target n : VertexId) : Graph :=
  (g.redirect source target n).addEdge n target

/-- Takes a vertex out of the list; its edges stay. -/
def drop (g : Graph) (v : VertexId) : Graph :=
  ({ g with listed := g.listed.erase v }.modifyVertex v fun w => { w with owned := false }).touch

/-- Puts the first entry `old` among the predecessors of `s` under the name of `n`. -/
def renamePred (g : Graph) (s old n : VertexId) : Graph :=
  g.modifyVertex s fun w =>
    { w with preds := if w.preds.contains old then w.preds.set (w.preds.idxOf old) n else w.preds }

/-- Puts the unconnected vertex `n` in the place of `old`, which leaves the graph. -/
def replace (g : Graph) (old n : VertexId) : Graph :=
  let g := g.redirectAll (g.preds old) old n
  let g := (g.succs old).foldl
    (fun g s => (g.modifyVertex n fun w => { w with succs := w.succs ++ [s] }).renamePred s old n) g
  let g := g.modifyVertex old fun w => { w with succs := [] }
  let g := { g with
    entry := if g.entry = old then n else g.entry
    exit := if g.exit = old then n else g.exit }
  g.drop old

/-- Removes every edge of `v` and takes it out of the graph. -/
def detach (g : Graph) (v : VertexId) : Graph :=
  let g := (g.succs v).foldl (fun g s => g.removeEdge v s) g
  let g := (g.preds v).foldl (fun g p => g.removeEdge p v) g
  g.drop v

/-- Why a vertex cannot be spliced out, if it cannot: it is an end of the graph, or it has more than one
successor. -/
def removeObstacle (g : Graph) (v : VertexId) : Option Corruption :=
  if v = g.entry ∨ v = g.exit then some (.cannotRemove v (g.op v).name)
  else if (g.succs v).length > 1 then some (.cannotSplice v (g.op v).name (g.succs v).length)
  else none

/-- Connects the predecessors of `v` to its successor, if it has one, and takes `v` out. -/
def splice (g : Graph) (v : VertexId) : Graph :=
  match g.succs v with
  | [] => g.detach v
  | s :: _ => ((g.redirectAll (g.preds v) v s).removeEdge v s).detach v

/-- Splices a vertex out of the graph, or says why not and leaves the graph alone. -/
def remove (g : Graph) (v : VertexId) : Except Failure Graph :=
  match g.removeObstacle v with
  | some why => .error (.corrupt g.name why [])
  | none => .ok (g.splice v)

end Graph

end MiddleEnd
