import MiddleEnd.Decimal.Reading
import MiddleEnd.Log.Lines

/-!
The settings of a compiler. They start from defaults, each may be replaced through a variable of the
environment, and they are checked before use.
-/
namespace MiddleEnd

/-- The settings of a compiler. -/
structure Settings where
  /-- The ceiling on the optimizer's sweeps over a function. -/
  maxSweeps : Int := 64
  /-- Whether the graph is verified before and after each pass. -/
  verify : Bool := false
  /-- The pass to dump the graph before; a star stands for all. -/
  dumpBefore : String := ""
  /-- The pass to dump the graph after; a star stands for all. -/
  dumpAfter : String := ""
  /-- The only function to dump; all if empty. -/
  dumpFunc : String := ""
  /-- Whether variables are released. -/
  freeMarkers : Bool := true
  /-- The functions compiled at once. -/
  parallelism : Int := 1
  logLevel : String := "info"
  logFormat : String := "text"
  deriving DecidableEq, Repr

/-- Why a text is not taken for a whole number or a truth value. -/
inductive ParseCause where
  | malformed
  | outOfRange
  deriving DecidableEq, Repr

namespace ParseCause

def text : ParseCause → String
  | malformed => "invalid syntax"
  | outOfRange => "value out of range"

def ofFailure : ReadFailure → ParseCause
  | .malformed => malformed
  | .outOfRange => outOfRange

/-- The cause with the reader that found it and the text it read. -/
def message (cause : ParseCause) (reader input : String) : String :=
  s!"strconv.{reader}: parsing {quoted input}: {cause.text}"

end ParseCause

/-- The truth values that settings and flags take. -/
def readFlag? (text : String) : Option Bool :=
  if ["1", "t", "T", "true", "TRUE", "True"].contains text then some true
  else if ["0", "f", "F", "false", "FALSE", "False"].contains text then some false
  else none

namespace Settings

/-- Why settings cannot be used. -/
inductive Problem where
  /-- A variable that should hold a whole number. -/
  | notNumber (variableName value : String) (cause : ParseCause)
  /-- A variable that should hold a truth value. -/
  | notFlag (variableName value : String)
  | maxSweepsNotPositive
  | parallelismNotPositive
  | unknownLogLevel (name : String)
  | unknownLogFormat (name : String)
  deriving DecidableEq, Repr

def Problem.message : Problem → String
  | notNumber variableName value cause => variableName ++ ": " ++ cause.message "Atoi" value
  | notFlag variableName value => variableName ++ ": " ++ ParseCause.message .malformed "ParseBool" value
  | maxSweepsNotPositive => "max_sweeps must be positive"
  | parallelismNotPositive => "parallelism must be positive"
  | unknownLogLevel name => s!"log_level: not a valid logrus Level: {quoted name}"
  | unknownLogFormat name => s!"invalid log_format: {name} (must be 'text' or 'json')"

/-- The logger that settings ask for; any format but JSON is text. -/
def logger (s : Settings) : Except Problem Logger :=
  match LogLevel.ofName? s.logLevel with
  | some level => .ok ⟨level, if s.logFormat = "json" then .json else .text⟩
  | none => .error (.unknownLogLevel s.logLevel)

/-- Checks that settings can be used; the first problem is reported. -/
def validate (s : Settings) : Except Problem Unit :=
  if s.maxSweeps ≤ 0 then .error .maxSweepsNotPositive
  else if s.parallelism ≤ 0 then .error .parallelismNotPositive
  else
    match s.logger with
    | .error why => .error why
    | .ok _ =>
      if s.logFormat = "text" ∨ s.logFormat = "json" then .ok () else .error (.unknownLogFormat s.logFormat)

/-- A setting of one of three types. -/
inductive Field where
  | number (put : Settings → Int → Settings)
  | flag (put : Settings → Bool → Settings)
  | text (put : Settings → String → Settings)

/-- The settings by name, in order. -/
def fields : List (String × Field) :=
  [("max_sweeps", .number fun s n => { s with maxSweeps := n }),
    ("verify", .flag fun s b => { s with verify := b }),
    ("dump_before", .text fun s t => { s with dumpBefore := t }),
    ("dump_after", .text fun s t => { s with dumpAfter := t }),
    ("dump_func", .text fun s t => { s with dumpFunc := t }),
    ("free_markers", .flag fun s b => { s with freeMarkers := b }),
    ("parallelism", .number fun s n => { s with parallelism := n }),
    ("log_level", .text fun s t => { s with logLevel := t }),
    ("log_format", .text fun s t => { s with logFormat := t })]

/-- The variable of the environment that replaces a setting. -/
def variableOf (name : String) : String :=
  "REJIT_" ++ String.ofList (name.toList.map Char.toUpper)

/-- Replaces one setting from its variable; an empty one counts as unset. -/
def overrideField (lookup : String → Option String) (s : Settings) : String × Field → Except Problem Settings
  | (name, field) =>
    let variableName := variableOf name
    match (lookup variableName).filter (· ≠ ""), field with
    | none, _ => .ok s
    | some value, .text put => .ok (put s value)
    | some value, .number put =>
      match readInt64 value.toList with
      | .ok n => .ok (put s n.toInt)
      | .error why => .error (.notNumber variableName value (.ofFailure why))
    | some value, .flag put =>
      match readFlag? value with
      | some b => .ok (put s b)
      | none => .error (.notFlag variableName value)

/-- Replaces the settings whose variables are set, in order. -/
def overrideBy (lookup : String → Option String) (s : Settings) : Except Problem Settings :=
  fields.foldlM (overrideField lookup) s

/-- Replaces settings from the environment and checks the outcome. -/
def finish (lookup : String → Option String) (s : Settings) : Except Problem Settings := do
  let s ← s.overrideBy lookup
  s.validate
  return s

/-- The settings on a machine, before anything replaces them: all processors work. -/
def initial (processors : Nat) : Settings :=
  { parallelism := processors }

end Settings

end MiddleEnd
