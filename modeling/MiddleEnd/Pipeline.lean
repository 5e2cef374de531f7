import MiddleEnd.Graph.Integrity
import MiddleEnd.Graph.Listing
import MiddleEnd.Optimizer
import MiddleEnd.Release
import MiddleEnd.SingleAssignment

/-!
The passes over a function: single assignment form, the optimizer and, if asked for, the release of
variables. Around each pass the graph can be verified and dumped.
-/
namespace MiddleEnd

/-- What the passes did to a function. -/
structure PassResult where
  stats : Stats := {}
  /-- The Free vertices inserted. -/
  frees : Nat := 0
  deriving DecidableEq, Repr

/-- The state of a run of passes. -/
structure PassState where
  analysis : Analysis
  result : PassResult := {}
  log : List LogEntry := []
  dump : String := ""

/-- A named transformation of a function. -/
structure Pass where
  name : String
  run : Action PassState Unit

/-- What the standard passes do. -/
structure PassOptions where
  /-- The ceiling on the optimizer's sweeps; the default one unless positive. -/
  maxSweeps : Int := 0
  /-- The signatures of the functions that may be called. -/
  signatures : Signatures := []
  /-- Whether variables are released. -/
  freeMarkers : Bool := false
  /-- Whether single definition is checked after the first pass. -/
  checkSingle : Bool := false

/-- What is done around the passes. -/
structure PassConfig where
  /-- The pass to dump the graph before; a star stands for all. -/
  dumpBefore : String := ""
  /-- The pass to dump the graph after; a star stands for all. -/
  dumpAfter : String := ""
  /-- The only function to dump; all if empty. -/
  dumpFunc : String := ""
  /-- Whether the graph is verified before and after each pass. -/
  verify : Bool := false

namespace Pass

/-- Work on the graph and its analyses. -/
def onAnalysis {α : Type} (work : Action Analysis α) : Action PassState α :=
  work.on PassState.analysis fun s a => { s with analysis := a }

/-- Stops with a failure, if there is one. -/
def failIf : Option Failure → Action PassState Unit
  | some why => Action.fail why
  | none => return

/-- Single assignment form, checked if asked for. -/
def singleAssignment (checkSingle : Bool) : Pass where
  name := "ssa"
  run := do
    onAnalysis Analysis.toSingleAssignment
    if checkSingle then
      (failIf (← get).analysis.graph.verifySingleDefinition).within .singleDefinition

/-- The optimizer with all rules. What it found out about the graph before is forgotten. -/
def optimize (signatures : Signatures) (maxSweeps : Int) : Pass where
  name := "optimize"
  run := (Optimizer.process (Rule.all signatures) maxSweeps).on (fun s => { graph := s.analysis.graph })
    fun s o => { s with
      analysis := { s.analysis with graph := o.graph }.invalidate
      result := { s.result with stats := o.stats }
      log := s.log ++ o.log }

/-- The release of variables. -/
def frees : Pass where
  name := "frees"
  run := do
    let count ← onAnalysis Analysis.insertReleases
    modify fun s => { s with result := { s.result with frees := count } }

/-- The standard passes in order. -/
def standard (options : PassOptions) : List Pass :=
  [singleAssignment options.checkSingle, optimize options.signatures options.maxSweeps]
    ++ if options.freeMarkers then [frees] else []

end Pass

namespace PassConfig

variable (config : PassConfig)

/-- Whether a dump setting asks for a pass of a function. -/
def dumps (setting pass function : String) : Bool :=
  (setting = "*" || setting = pass) && (config.dumpFunc = "" || config.dumpFunc = function)

/-- Writes the graph to the dump, under a heading. -/
def dumpGraph (heading : String) : Action PassState Unit := do
  let g := (← get).analysis.graph
  let write (text : String) : Action PassState Unit := modify fun s => { s with dump := s.dump ++ text }
  write s!"--- {heading} ({g.name}) ---\n"
  match g.listing with
  | .ok text => write (text ++ "\n")
  | .error start =>
    write start
    Action.missing

/-- Notes an event of a pass. -/
def note (message pass : String) (more : List (String × LogValue)) : Action PassState Unit :=
  modify fun s =>
    let entry : LogEntry :=
      ⟨.debug, message, [("func", .text s.analysis.graph.name), ("pass", .text pass)] ++ more⟩
    { s with log := s.log ++ [entry] }

/-- Runs one pass with what is done around it. -/
def runPass (pass : Pass) : Action PassState Unit := do
  let function := (← get).analysis.graph.name
  if config.dumps config.dumpBefore pass.name function then dumpGraph s!"before {pass.name}"
  if config.verify then
    (Pass.failIf (← get).analysis.graph.verify).within (.verifyBefore pass.name)
  note "pass start" pass.name []
  pass.run.within (.pass pass.name)
  note "pass done" pass.name [("elapsed", .elapsed)]
  if config.verify then
    (Pass.failIf (← get).analysis.graph.verify).within (.verifyAfter pass.name)
  if config.dumps config.dumpAfter pass.name function then dumpGraph s!"after {pass.name}"

/-- Runs passes in order, up to the first that fails. -/
def run (passes : List Pass) : Action PassState Unit :=
  passes.forM config.runPass

/-- Runs the standard passes. -/
def compile (options : PassOptions) : Action PassState Unit :=
  config.run (Pass.standard options)

end PassConfig

end MiddleEnd
