import MiddleEnd.Graph.Order

/-!
The listing of a graph: a header with the parameters, then one line for each vertex, the reachable ones
in reverse post-order and after them the others in the order of their creation.
-/
namespace MiddleEnd

namespace Graph

/-- A vertex with its operation and operands. -/
def vertexLine (g : Graph) (v : VertexId) : String :=
  let w := g.vertex v
  let result :=
    match w.result with
    | none => ""
    | some x =>
      let type := ((g.var x).type.map fun t => s!" <{t.text}>").getD ""
      g.varText x ++ type ++ " = "
  let detail :=
    match w.op with
    | .binary => " " ++ w.binOp.symbol
    | .call | .selfCall => " " ++ w.callee
    | _ => ""
  result ++ w.op.name ++ detail ++ String.join (w.args.map fun a => " " ++ g.varTextOf a)

/-- A vertex with its operation, operands and edges. Predecessors are shown where paths can meet. -/
def listingLine (g : Graph) (v : VertexId) : String :=
  let w := g.vertex v
  let names (vs : List VertexId) : String := String.join (vs.map fun u => " " ++ vertexText u)
  let preds := if w.preds.length > 1 || (w.preds.length > 0 && w.op == .label) then " <-" ++ names w.preds else ""
  let succs := if w.succs.isEmpty then "" else " ->" ++ names w.succs
  vertexText v ++ ": " ++ g.vertexLine v ++ preds ++ succs

/-- A parameter with its type. -/
def paramText (g : Graph) (x : VarId) : String :=
  let type := match (g.var x).type with
    | none => "%!s(<nil>)"
    | some t => t.text
  g.varText x ++ " " ++ type

/-- The vertices in the order of the listing. -/
def listingOrder (g : Graph) : List VertexId :=
  let reached := g.reversePostOrder
  let seen := VertexSet.ofList reached
  reached ++ g.listed.filter fun v => v ∉ seen

/-- The listing of a graph, or as much of it as comes before a parameter that is missing. -/
def listing (g : Graph) : Except String String :=
  let opening := "func " ++ g.name ++ "("
  match g.params.mapM id with
  | none =>
    let shown := (g.params.takeWhile Option.isSome).filterMap id
    .error (opening ++ String.join (shown.map fun x => g.paramText x ++ ", "))
  | some params =>
    let header := opening ++ ", ".intercalate (params.map g.paramText) ++ ") " ++ g.sig.result.text ++ ":\n"
    .ok (header ++ String.join (g.listingOrder.map fun v => "  " ++ g.listingLine v ++ "\n"))

end Graph

end MiddleEnd
