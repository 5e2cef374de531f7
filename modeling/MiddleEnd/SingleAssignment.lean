import MiddleEnd.Analysis
import MiddleEnd.Graph.Edit
import MiddleEnd.Graph.Liveness

/-!
Single assignment form: every variable that was written more than once is split into one variable for
each write. Phis are placed on the iterated dominance frontier of the writes, at labels where the variable
is live, and a walk from the entry renames writes and reads. Parameters keep their identity.
-/
namespace MiddleEnd

/-- The vertices found by taking frontiers again and again, in the order they are found. The vertex found
last is looked at first. -/
def iteratedFrontier (frontier : VertexId → List VertexId) (pool : VertexSet) (work found : List VertexId) :
    List VertexId :=
  match work with
  | [] => found
  | v :: work =>
    let fresh := pool.takeFresh (frontier v)
    iteratedFrontier frontier fresh.1 (fresh.2.reverse ++ work) (found ++ fresh.2)
termination_by (pool.bits, work.length)
decreasing_by
  by_cases none : fresh.2 = []
  · have le := VertexSet.takeFresh_bits_le pool (frontier v)
    rw [none]
    rcases Nat.lt_or_eq_of_le le with lt | eq
    · exact Prod.Lex.left _ _ lt
    · simp only [eq]
      exact Prod.Lex.right _ (by simp)
  · exact Prod.Lex.left _ _ (VertexSet.takeFresh_bits_lt pool (frontier v) none)

namespace Graph

/-- The labels among the vertices of a frontier where `x` is live. Every vertex there has to be a label or
the exit. -/
def labelsFor (g : Graph) (x : VarId) : List VertexId → Except Failure (List VertexId)
  | [] => .ok []
  | w :: rest =>
    match g.op w with
    | .finish => g.labelsFor x rest
    | .label => do
      let labels ← g.labelsFor x rest
      .ok (if g.liveAt w x then w :: labels else labels)
    | op => .error (.corrupt g.name (.frontierNotLabel w (g.varText x) op.name) [])

/-- The labels that need a phi for `x`, whose writes are at `defs`. -/
def phiLabels (g : Graph) (d : Dominators) (x : VarId) (defs : List VertexId) : Except Failure (List VertexId) :=
  g.labelsFor x (iteratedFrontier (d.frontier g) (VertexSet.below g.store.size) defs.reverse [])

end Graph

/-- One pending step of the renaming walk: the vertex to visit and the variable that holds the value there. -/
structure RenameFrame where
  vertex : VertexId
  value : VarId
  /-- Whether a value was written on the way. -/
  defined : Bool

/-- The state of the renaming walk. -/
structure Renaming where
  graph : Graph
  /-- The vertices not visited yet. -/
  unvisited : VertexSet
  /-- The labels whose phi has yet to be made. -/
  pending : VertexSet
  /-- The labels with their phis. -/
  phis : List (VertexId × VertexId)

namespace Renaming

/-- Makes the phi of a label, with the value that arrives first as its input. -/
def placePhi (s : Renaming) (x : VarId) (f : RenameFrame) : Renaming × RenameFrame :=
  let source := s.graph.var x
  let result := s.graph.nextVar
  let g := s.graph.addVar source.name source.type
  let phi := g.nextVertex
  let g := g.addVertex .phi (some result) []
  let g := if f.defined then g.modifyVertex phi (·.addPhiInput (some f.value)) else g
  let g := g.insertAfter f.vertex phi
  ({ graph := g, unvisited := (s.unvisited.erase f.vertex).insert phi, pending := s.pending.erase f.vertex,
     phis := (f.vertex, phi) :: s.phis },
    ⟨phi, result, true⟩)

/-- Renames the reads of `x` in a vertex and splits off its write; the value after it. -/
def visit (g : Graph) (x : VarId) (f : RenameFrame) : Graph × VarId × Bool :=
  let op := g.op f.vertex
  let g :=
    if op ≠ .phi ∧ op ≠ .function ∧ f.value ≠ x then
      g.modifyVertex f.vertex (·.replaceArgs (some x) (some f.value))
    else g
  if op ≠ .function ∧ (g.vertex f.vertex).result = some x then
    let source := g.var x
    let fresh := g.nextVar
    ((g.addVar source.name source.type).modifyVertex f.vertex fun w => { w with result := some fresh }, fresh, true)
  else (g, f.value, f.defined)

/-- Walks the graph along its edges with the current value of `x`. -/
def walk (x : VarId) (s : Renaming) (stack : List RenameFrame) : Graph :=
  match stack with
  | [] => s.graph
  | f :: stack =>
    if f.vertex ∈ s.pending then
      let placed := s.placePhi x f
      walk x placed.1 (placed.2 :: stack)
    else
      match s.phis.lookup f.vertex with
      | some phi =>
        let g := if f.defined then s.graph.modifyVertex phi (·.addPhiInput (some f.value)) else s.graph
        walk x { s with graph := g } stack
      | none =>
        if f.vertex ∈ s.unvisited then
          let (g, value, defined) := visit s.graph x f
          walk x { s with graph := g, unvisited := s.unvisited.erase f.vertex }
            ((g.succs f.vertex).map (⟨·, value, defined⟩) ++ stack)
        else walk x s stack
termination_by (s.pending.bits, s.unvisited.bits, stack.length)
decreasing_by
  · exact Prod.Lex.left _ _ (VertexSet.bits_erase_lt ‹_›)
  · exact Prod.Lex.right _ (Prod.Lex.right _ (by simp))
  · exact Prod.Lex.right _ (Prod.Lex.left _ _ (VertexSet.bits_erase_lt ‹_›))
  · exact Prod.Lex.right _ (Prod.Lex.right _ (by simp))

end Renaming

namespace Graph

/-- Splits `x`, with phis at `labels`. -/
def splitVariable (g : Graph) (x : VarId) (labels : List VertexId) : Graph :=
  Renaming.walk x ⟨g, VertexSet.below g.store.size, VertexSet.ofList labels, []⟩
    [⟨g.entry, x, g.params.contains (some x)⟩]

end Graph

namespace Analysis

/-- Splits `x` if it has more than one definition. -/
def singleAssignmentOf (x : VarId) : Action Analysis Unit := do
  let a ← get
  let defs := a.graph.definitions (some x)
  if defs.length < 2 then return
  let (d, a) := a.dominators
  set a
  match a.graph.phiLabels d x defs with
  | .error why => Action.fail why
  | .ok labels => set { a with graph := a.graph.splitVariable x labels }

/-- Brings the graph into single assignment form. -/
def toSingleAssignment : Action Analysis Unit := do
  let xs ← Action.need (← get).graph.mentioned?
  xs.forM singleAssignmentOf

end Analysis

end MiddleEnd
