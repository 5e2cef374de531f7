import MiddleEnd.Analysis
import MiddleEnd.Graph.Listing

/-!
A report on the dominators of a function: its listing, a table of the vertices, and both dominator trees.
-/
namespace MiddleEnd

/-- A text filled up with blanks to a width. -/
def padRight (width : Nat) (text : String) : String :=
  text ++ String.ofList (List.replicate (width - text.length) ' ')

namespace Dominance

/-- A dash where there is no vertex. -/
def vertexOrDash : Option VertexId → String
  | some v => vertexText v
  | none => "-"

def vertexList : List VertexId → String
  | [] => "-"
  | vs => " ".intercalate (vs.map vertexText)

def tableRow (vertex immediate immediatePost frontier : String) : String :=
  padRight 6 vertex ++ " " ++ padRight 6 immediate ++ " " ++ padRight 6 immediatePost ++ " " ++ frontier ++ "\n"

/-- A vertex of a dominator tree with all below it, further right by level; `depth` bounds the levels. -/
def treeText (g : Graph) (tree : List (VertexId × List VertexId)) : Nat → String → VertexId → String
  | 0, _, _ => ""
  | depth + 1, indent, v =>
    indent ++ vertexText v ++ " " ++ (g.op v).name ++ "\n"
      ++ String.join (((tree.lookup v).getD []).map (treeText g tree depth (indent ++ "  ")))

/-- The report on a function. -/
def report (g : Graph) (listing : String) : String :=
  let (dominators, analysis) := Analysis.dominators { graph := g }
  let (postDominators, _) := analysis.postDominators
  let row (v : VertexId) : String :=
    tableRow (vertexText v) (vertexOrDash (dominators.immediate? v)) (vertexOrDash (postDominators.immediate? v))
      (vertexList (dominators.frontier g v))
  let depth := g.listed.length + 1
  listing ++ "\n" ++ tableRow "VERTEX" "IDOM" "IPDOM" "FRONTIER" ++ String.join (g.listed.map row)
    ++ "\ndominator tree:\n" ++ treeText g dominators.tree depth "  " g.entry
    ++ "post-dominator tree:\n" ++ treeText g postDominators.tree depth "  " g.exit

end Dominance

end MiddleEnd
