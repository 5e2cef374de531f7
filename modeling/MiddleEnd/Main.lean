import MiddleEnd.CommandLine

/-!
The program: hands the surroundings to the command line and writes what it replies.
-/
open MiddleEnd

/-- The text of a file, or why there is none. -/
def readFileText (path : String) : IO (Except String String) := do
  try
    return .ok (← IO.FS.readFile path)
  catch
    | .noFileOrDirectory .. => return .error s!"open {path}: no such file or directory"
    | e => return .error s!"open {path}: {e}"

/-- The path that the flag for settings gives, if any. -/
def settingsPath (args : List String) : String :=
  match CommandArgs.read CommandLine.Command.compile.flagTypes args with
  | .ok a => (a.text? "config").getD ""
  | .error _ => ""

def main (args : List String) : IO UInt32 := do
  let environment ← Settings.fields.mapM fun (name, _) => do
    return (Settings.variableOf name, (← IO.getEnv (Settings.variableOf name)).getD "")
  let path := settingsPath args
  let content ← if path = "" then pure (.error "") else readFileText path
  let host : CommandLine.Host :=
    { lookup := fun name => environment.lookup name
      fileText := fun _ => content
      processors := 1
      languageVersion := "unknown"
      clock := ⟨"", "0s", 0⟩ }
  let reply := CommandLine.run host args
  (← IO.getStderr).putStr reply.stderr
  (← IO.getStdout).putStr reply.stdout
  return if reply.failure.isSome then 1 else 0
