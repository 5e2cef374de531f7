import MiddleEnd.Metrics
import MiddleEnd.Pipeline
import MiddleEnd.Settings

/-!
The compiler. A function that the passes cannot handle is no error: it is left to the interpreter, with the
reason. Functions are compiled as tasks, each of which first asks whether the work was canceled; a schedule
says in which order the tasks ask and finish.
-/
namespace MiddleEnd

/-- What became of a function. -/
inductive Outcome where
  | compiled
  /-- The function is left to the interpreter. -/
  | fallback (cause : Failure)
  deriving DecidableEq, Repr

def Outcome.name : Outcome → String
  | compiled => "compiled"
  | fallback _ => "fallback"

/-- A function after the passes, with what was noted on the way. -/
structure CompiledFunction where
  /-- The graph as the passes left it. -/
  graph : Graph
  outcome : Outcome
  result : PassResult
  /-- The entries of the passes. -/
  passLog : List LogEntry
  dump : String

namespace CompiledFunction

def name (f : CompiledFunction) : String :=
  f.graph.name

/-- The entry about the outcome. -/
def closingEntry (f : CompiledFunction) : LogEntry :=
  match f.outcome with
  | .fallback cause =>
    ⟨.warning, "falling back to the interpreter", [("error", .text cause.message), ("func", .text f.name)]⟩
  | .compiled =>
    ⟨.debug, "compiled",
      [("changes", .number f.result.stats.changes), ("elapsed", .elapsed), ("frees", .number f.result.frees),
        ("func", .text f.name), ("sweeps", .number f.result.stats.sweeps)]⟩

/-- All entries in order; the dump goes before the last. -/
def log (f : CompiledFunction) : List LogEntry :=
  f.passLog ++ [f.closingEntry]

/-- What the function adds to the metrics, the time taken aside. -/
def observation (f : CompiledFunction) : Observation where
  outcome := f.outcome.name
  sweeps := f.result.stats.sweeps
  phisResolved := f.result.stats.phisResolved
  frees := f.result.frees
  rewrites := f.result.stats.rewrites

end CompiledFunction

/-- A compiler with its settings and the functions that may be called. -/
structure Compiler where
  settings : Settings
  signatures : Signatures := []

namespace Compiler

variable (c : Compiler)

def passConfig : PassConfig where
  dumpBefore := c.settings.dumpBefore
  dumpAfter := c.settings.dumpAfter
  dumpFunc := c.settings.dumpFunc
  verify := c.settings.verify

def passOptions : PassOptions where
  maxSweeps := c.settings.maxSweeps
  signatures := c.signatures
  freeMarkers := c.settings.freeMarkers
  checkSingle := c.settings.verify

/-- Compiles a function. Failures and faults in the passes make it a fallback; after a fault nothing is
reported of what the passes did. -/
def compile (g : Graph) : CompiledFunction :=
  let (ended, state) := (c.passConfig.compile c.passOptions).run { analysis := { graph := g } }
  let graph := state.analysis.graph
  let (outcome, result) := match ended with
    | .ok () => (.compiled, state.result)
    | .error (.failure cause) => (.fallback cause, state.result)
    | .error (.fault cause) => (.fallback (.corrupt graph.name (.fault cause.text) []), {})
  ⟨graph, outcome, result, state.log, state.dump⟩

end Compiler

/-! ## Schedules -/

/-- A step of a schedule. Tasks are numbered in the order of their functions. -/
inductive ScheduleStep where
  /-- A task asks whether the work was canceled, and goes on if not. -/
  | start (task : Nat)
  /-- A task that went on is done with its function. -/
  | finish (task : Nat)
  /-- The work is canceled. -/
  | cancel
  deriving DecidableEq, Repr

/-- The work on some functions, as far as it has come. -/
structure Batch where
  /-- The graphs by their places. The passes work on a graph where it is kept. -/
  graphs : List Graph
  canceled : Bool := false
  /-- Whether a task found the work canceled. -/
  refused : Bool := false
  /-- The tasks at work. -/
  running : List Nat := []
  /-- The functions done, by task. -/
  done : List (Nat × CompiledFunction) := []
  metrics : Metrics := {}

namespace Batch

/-- The graph of a task and its place. -/
def target? (b : Batch) (places : List Nat) (task : Nat) : Option (Nat × Graph) := do
  let place ← places[task]?
  return (place, ← b.graphs[place]?)

/-- A task is done with the graph at a place. -/
def complete (c : Compiler) (b : Batch) (task place : Nat) (g : Graph) : Batch :=
  let f := c.compile g
  { b with
    graphs := b.graphs.set place f.graph
    running := b.running.erase task
    done := b.done ++ [(task, f)]
    metrics := b.metrics.observe f.observation }

/-- Takes one step, where the graphs of the tasks are at `places`. A step of a task that is not at work does nothing. -/
def step (c : Compiler) (places : List Nat) (b : Batch) : ScheduleStep → Batch
  | .cancel => { b with canceled := true }
  | .start task => if b.canceled then { b with refused := true } else { b with running := task :: b.running }
  | .finish task =>
    match if b.running.contains task then b.target? places task else none with
    | some (place, g) => b.complete c task place g
    | none => b

/-- Follows a schedule from the start. -/
def run (c : Compiler) (graphs : List Graph) (places : List Nat) (schedule : List ScheduleStep) : Batch :=
  schedule.foldl (step c places) { graphs }

/-- The results of so many tasks; none for a function that was not compiled. -/
def results (b : Batch) (count : Nat) : List (Option CompiledFunction) :=
  (List.range count).map fun task => b.done.lookup task

end Batch

/-- The schedule that takes one task after the other. -/
def ScheduleStep.inOrder (count : Nat) : List ScheduleStep :=
  (List.range count).flatMap fun task => [.start task, .finish task]

/-- What compiling some functions comes to. -/
structure Compilation where
  functions : List (Option CompiledFunction)
  /-- Whether a task found the work canceled. -/
  canceled : Bool
  metrics : Metrics
  /-- The graphs as they are left. -/
  graphs : List Graph

namespace Compilation

/-- Why the work as a whole failed, if it did. -/
def failureMessage? (c : Compilation) : Option String :=
  if c.canceled then some "compile: context canceled" else none

def compiledCount (c : Compilation) : Nat :=
  c.functions.countP fun f => (f.map CompiledFunction.outcome) = some .compiled

def fallbackCount (c : Compilation) : Nat :=
  c.functions.countP Option.isSome - c.compiledCount

end Compilation

/-- Compiles the functions at some places along a schedule. -/
def Compiler.compileAlong (c : Compiler) (graphs : List Graph) (places : List Nat) (schedule : List ScheduleStep) :
    Compilation :=
  let b := Batch.run c graphs places schedule
  ⟨b.results places.length, b.refused, b.metrics, b.graphs⟩

/-- Compiles functions in order, or none of them if the work is canceled at the start. -/
def Compiler.compileAll (c : Compiler) (graphs : List Graph) (canceled : Bool) : Compilation :=
  c.compileAlong graphs (List.range graphs.length)
    ((if canceled then [.cancel] else []) ++ ScheduleStep.inOrder graphs.length)

end MiddleEnd
