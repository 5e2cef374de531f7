import MiddleEnd.Graph.Basic

/-!
The integrity check of graphs. It reports every violation it finds, in the order of the vertices; a graph
without violations is well formed.
-/
namespace MiddleEnd

namespace Graph

variable (g : Graph)

/-- The violation, if the condition holds. -/
def reportIf (broken : Bool) (violation : Corruption) : List Corruption :=
  if broken then [violation] else []

/-- What is wrong with the successor count and the targets that an operation fixes. -/
def shapeViolations (v : VertexId) : List Corruption :=
  let w := g.vertex v
  let succs := w.succs.length
  reportIf (!w.owned) (.foreignVertex v)
    ++ reportIf (succs != w.op.numSuccs) (.succCount v w.op.name succs w.op.numSuccs)
    ++ reportIf (w.op == .ret && succs == 1 && w.succs.head? != some g.exit) (.returnElsewhere v)
    ++ reportIf (w.op == .function && v != g.entry) (.secondFunction v)
    ++ reportIf (w.op == .finish && v != g.exit) (.secondEnd v)

/-- What is wrong with the result and the operands. -/
def operandViolations (v : VertexId) : List Corruption :=
  let w := g.vertex v
  let info := w.op.info
  let count := w.args.length
  let result :=
    match w.result with
    | none => reportIf info.hasResult (.missingResult v w.op.name)
    | some x =>
      reportIf (!info.hasResult) (.unexpectedResult v w.op.name (g.varText x))
        ++ reportIf (g.var x).isConst (.writesConstant v (g.varText x))
  let argCount :=
    match info.numArgs with
    | none => []
    | some want => reportIf (count != want) (.argCount v w.op.name count want)
  result ++ argCount
    ++ reportIf (w.op == .ret && count > 1) (.returnValues v count)
    ++ w.args.zipIdx.flatMap (fun (a, i) => reportIf a.isNone (.missingArg v i))
    ++ reportIf (w.op == .binary && !w.binOp.isValid) (.invalidOperator v)

/-- The inputs of a phi that are its result or were listed before. -/
def phiViolations (v : VertexId) (result : Option VarId) (seen : List (Option VarId)) :
    List (Option VarId) → List Corruption
  | [] => []
  | a :: rest =>
    reportIf (a == result) (.phiOwnResult v (g.varTextOf a))
      ++ reportIf (seen.contains a) (.phiTwice v (g.varTextOf a))
      ++ phiViolations v result (a :: seen) rest

/-- The edges of a vertex that the other end does not know, or that leave the graph. -/
def edgeViolations (v : VertexId) : List Corruption :=
  let w := g.vertex v
  let succs := w.succs.flatMap fun s =>
    if g.listed.contains s then reportIf ((g.preds s).count v != w.succs.count s) (.succUnaware v s)
    else [.succNotListed v s]
  let preds := w.preds.flatMap fun p =>
    if g.listed.contains p then reportIf (!(g.succs p).contains v) (.predUnaware v p)
    else [.predNotListed v p]
  succs ++ preds

/-- Everything that is wrong with one vertex. Of a vertex without a valid operation nothing more is asked. -/
def vertexViolations (v : VertexId) : List Corruption :=
  let w := g.vertex v
  if !w.op.isValid then [.invalidOp v w.op.code]
  else
    g.shapeViolations v ++ g.operandViolations v
      ++ (if w.op == .phi then g.phiViolations v w.result [] w.args else [])
      ++ g.edgeViolations v

/-- Everything that is wrong with a graph. Without proper ends nothing more is asked. -/
def violations : List Corruption :=
  if g.op g.entry != .function then [.entryNotFunction]
  else if g.op g.exit != .finish then [.exitNotEnd]
  else
    reportIf (!(g.preds g.entry).isEmpty) (.entryHasPreds g.entry (g.preds g.entry).length)
      ++ reportIf (!(g.listed.contains g.entry && g.listed.contains g.exit)) .endsNotListed
      ++ g.listed.flatMap g.vertexViolations

/-- The integrity check. -/
def verify : Option Failure :=
  Failure.ofViolations g.name g.violations

/-- The definitions of a list of vertices, each with the variable defined. -/
def definitionPairs : List (Option VarId × VertexId) :=
  g.listed.flatMap fun v => (g.vertex v).writes.map fun x => (x, v)

/-- The definitions of a variable that was defined before, with the first definition. -/
def repeatedDefinitions (seen : List (Option VarId × VertexId)) :
    List (Option VarId × VertexId) → List Corruption
  | [] => []
  | (x, v) :: rest =>
    match seen.lookup x with
    | some first => .definedTwice (g.varTextOf x) first v :: repeatedDefinitions seen rest
    | none => repeatedDefinitions ((x, v) :: seen) rest

/-- The integrity check, and after it that no variable has two definitions. -/
def verifySingleDefinition : Option Failure :=
  match g.verify with
  | some failure => some failure
  | none => Failure.ofViolations g.name (g.repeatedDefinitions [] g.definitionPairs)

end Graph

end MiddleEnd
