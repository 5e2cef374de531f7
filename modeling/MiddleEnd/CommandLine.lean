import MiddleEnd.CommandLine.Dominance
import MiddleEnd.CommandLine.Flags
import MiddleEnd.Compiler
import MiddleEnd.Samples
import MiddleEnd.Settings.File

/-!
The command line: compile samples, show the dominators of one, list them, or print the version. Everything
the surroundings provide is handed in, so a run is a function of its arguments.
-/
namespace MiddleEnd

namespace CommandLine

/-- What the surroundings provide. -/
structure Host where
  /-- The variables of the environment. -/
  lookup : String → Option String
  /-- The text of a file, or the reason why there is none. -/
  fileText : String → Except String String
  processors : Nat
  /-- The version of the language that the program is built with. -/
  languageVersion : String
  clock : LogClock

/-- What a run leaves behind. -/
structure Reply where
  stdout : String := ""
  stderr : String := ""
  /-- Why the run failed, if it did. -/
  failure : Option String := none
  deriving DecidableEq, Repr

/-- A failed run, reported after what was written before. -/
def Reply.failed (message : String) : Reply :=
  { stderr := s!"Error: {message}\n", failure := some message }

def programName : String := "rejitc"

def version : String := "0.1.0-dev"

inductive Command where
  | compile
  | dom
  | samples
  | version
  deriving DecidableEq, Repr

namespace Command

def ofName? : String → Option Command
  | "compile" => some compile
  | "dom" => some dom
  | "samples" => some samples
  | "version" => some version
  | _ => none

def name : Command → String
  | compile => "compile"
  | dom => "dom"
  | samples => "samples"
  | version => "version"

/-- The flags of a command. -/
def flagTypes : Command → FlagTypes
  | compile =>
    [("config", .text), ("verify", .truth), ("max-sweeps", .number), ("dump-before", .text), ("dump-after", .text),
      ("dump-func", .text), ("no-free", .truth), ("parallel", .number), ("log-level", .text), ("emit", .truth),
      ("metrics", .truth)]
  | _ => []

end Command

/-! ### Finding the command -/

/-- Whether an argument before the command takes the next one as its value: no flag is known there, so every
one without an equals sign does. -/
def takesNext (argument : String) : Bool :=
  !argument.toList.contains '=' && (argument.startsWith "--" || (argument.startsWith "-" && argument.utf8ByteSize = 2))

/-- The arguments before the command, the command, and those after it; none if no argument can be one. -/
def splitCommand : List String → Option (List String × String × List String)
  | [] => none
  | argument :: rest =>
    if argument = "--" then none
    else if takesNext argument then
      match rest with
      | [] => none
      | [_] => none
      | value :: rest => (splitCommand rest).map fun (before, name, after) => (argument :: value :: before, name, after)
    else if argument = "" || argument.startsWith "-" then
      (splitCommand rest).map fun (before, name, after) => (argument :: before, name, after)
    else some ([], argument, rest)

/-! ### Compiling -/

/-- The settings with those replaced that flags were given for. -/
def withFlags (s : Settings) (a : CommandArgs) : Settings where
  maxSweeps := ((a.number? "max-sweeps").map Int64.toInt).getD s.maxSweeps
  verify := (a.truth? "verify").getD s.verify
  dumpBefore := (a.text? "dump-before").getD s.dumpBefore
  dumpAfter := (a.text? "dump-after").getD s.dumpAfter
  dumpFunc := (a.text? "dump-func").getD s.dumpFunc
  freeMarkers := ((a.truth? "no-free").map not).getD s.freeMarkers
  parallelism := ((a.number? "parallel").map Int64.toInt).getD s.parallelism
  logLevel := (a.text? "log-level").getD s.logLevel
  logFormat := s.logFormat

/-- Loads the settings and applies the flags. -/
def loadSettings (host : Host) (a : CommandArgs) : Except String Settings := do
  let path := (a.text? "config").getD ""
  let loaded :=
    if path = "" then Settings.load host.processors host.lookup
    else Settings.loadFile host.processors host.lookup path (host.fileText path)
  let s ← loaded.mapError fun why => "loading config: " ++ why.message
  let s := withFlags s a
  s.validate.mapError Settings.Problem.message
  return s

def findSample (name : String) : Except String Sample :=
  match Sample.find? name with
  | some s => .ok s
  | none => .error s!"unknown sample {quoted name} (see {programName} samples)"

/-- The samples with the given names, or all if there are none. -/
def selectSamples (names : List String) : Except String (List Sample) :=
  if names.isEmpty then .ok Sample.all else names.mapM findSample

/-- The listing of a function, as far as it can be written. -/
def listingText (g : Graph) : String :=
  match g.listing with
  | .ok text => text
  | .error start => start

/-- The result of one function. -/
def functionText (emit : Bool) (f : CompiledFunction) : String :=
  match f.outcome with
  | .fallback cause => s!"{padRight 10 f.name} fallback: {cause.message}\n"
  | .compiled =>
    let stats := f.result.stats
    s!"{padRight 10 f.name} compiled: sweeps={stats.sweeps} changes={stats.changes} phis={stats.phisResolved} frees={f.result.frees}\n"
      ++ if emit then listingText f.graph ++ "\n" else ""

/-- What is logged and dumped about one function: the dump comes before the last entry. -/
def traceText (logger : Logger) (clock : LogClock) (f : CompiledFunction) : String :=
  let lines (entries : List LogEntry) : String := String.join ((logger.lines clock entries).map (· ++ "\n"))
  lines f.passLog ++ f.dump ++ lines [f.closingEntry]

def runCompile (host : Host) (a : CommandArgs) : Except String Reply := do
  let settings ← loadSettings host a
  let samples ← selectSamples a.others
  let logger ← settings.logger.mapError Settings.Problem.message
  let compiler : Compiler := ⟨settings, Sample.signatures⟩
  let done := compiler.compileAll (samples.map Sample.build) false
  let functions := done.functions.filterMap id
  let emit := (a.truth? "emit").getD false
  let results := String.join (functions.map (functionText emit))
  let metrics := if (a.truth? "metrics").getD false then done.metrics.text else ""
  return {
    stdout := s!"{results}{done.compiledCount} compiled, {done.fallbackCount} fallback\n{metrics}"
    stderr := String.join (functions.map (traceText logger host.clock)) }

/-! ### The other commands -/

def runDom (a : CommandArgs) : Except String Reply := do
  match a.others with
  | [name] =>
    let g := (← findSample name).build
    return { stdout := Dominance.report g (listingText g) }
  | others => throw s!"accepts 1 arg(s), received {others.length}"

def unknownCommand (name parent : String) : String :=
  s!"unknown command {quoted name} for {quoted parent}"

/-- The output of a command that takes no arguments. -/
def withoutArgs (command : Command) (a : CommandArgs) (output : String) : Except String Reply :=
  match a.others with
  | [] => .ok { stdout := output }
  | first :: _ => .error (unknownCommand first (programName ++ " " ++ command.name))

def samplesText : String :=
  String.join (Sample.all.map fun s => s!"{padRight 10 s.name} {s.doc}\n")

def versionText (host : Host) : String :=
  s!"{programName} version {version}\ngo version {host.languageVersion}\n"

def helpText : String :=
  s!"{programName} - JIT middle-end driver\n\nCommands:\n"
    ++ "  compile     Compile samples and print the result\n"
    ++ "  dom         Show dominator and post-dominator information of a sample\n"
    ++ "  samples     List the built-in samples\n"
    ++ "  version     Print version information\n"

/-- Runs a command with its arguments. -/
def runCommand (host : Host) (command : Command) (a : CommandArgs) : Except String Reply :=
  match command with
  | .compile => runCompile host a
  | .dom => runDom a
  | .samples => withoutArgs .samples a samplesText
  | .version => withoutArgs .version a (versionText host)

/-- Reads flags, of which one for help is always known, and goes on unless help is asked for. -/
def withFlagsRead (types : FlagTypes) (args : List String) (next : CommandArgs → Except String Reply) : Reply :=
  match CommandArgs.read (("help", .truth) :: types) args with
  | .error why => .failed why.message
  | .ok a =>
    if a.truth? "help" = some true then { stdout := helpText }
    else
      match next a with
      | .ok reply => reply
      | .error message => .failed message

/-- Runs the program. -/
def run (host : Host) (args : List String) : Reply :=
  match splitCommand args with
  | none => withFlagsRead [] args fun _ => .ok { stdout := helpText }
  | some (before, name, after) =>
    match Command.ofName? name with
    | some command => withFlagsRead command.flagTypes (before ++ after) (runCommand host command)
    | none =>
      let message := unknownCommand name programName
      { stderr := s!"Error: {message}\nRun '{programName} --help' for usage.\n", failure := some message }

end CommandLine

end MiddleEnd
