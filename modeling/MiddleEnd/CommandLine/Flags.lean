import MiddleEnd.Decimal.Reading
import MiddleEnd.Settings

/-!
Flags on a command line. A flag is a name after two dashes; its value follows an equals sign or is the next
argument, and a truth value may be left out. Flags and other arguments may come in any order, and two
dashes alone end the flags. The only flag with a short form, one dash and a letter, is the one for help.
-/
namespace MiddleEnd

/-- What a flag holds. -/
inductive FlagType where
  | text
  | truth
  | number
  deriving DecidableEq, Repr

inductive FlagValue where
  | text (s : String)
  | truth (b : Bool)
  | number (n : Int64)
  deriving DecidableEq, Repr

/-- The flags that a command takes. -/
abbrev FlagTypes := List (String × FlagType)

/-- Why a command line is not understood. -/
inductive FlagProblem where
  | badForm (argument : String)
  | unknown (name : String)
  /-- A letter of a run of short forms that is none. -/
  | unknownShort (letters : List Char)
  | missingValue (name : String)
  | notNumber (name value : String) (cause : ParseCause)
  | notTruth (name value : String)
  deriving DecidableEq, Repr

namespace FlagProblem

/-- A flag as messages name it, with its short form. -/
def flagText (name : String) : String :=
  if name = "help" then "-h, --help" else "--" ++ name

def invalidText (name value reason : String) : String :=
  s!"invalid argument {quoted value} for {quoted (flagText name)} flag: {reason}"

/-- A letter between single quotes. All letters beyond ASCII show as the one that their first byte starts with. -/
def letterText (letter : Char) : String :=
  let shown :=
    if letter = '\'' then "\\'"
    else if letter = '"' then "\""
    else if letter.toNat < 0x80 then quotedChar letter
    else "\u00c3"
  s!"'{shown}'"

def message : FlagProblem → String
  | badForm argument => "bad flag syntax: " ++ argument
  | unknown name => "unknown flag: --" ++ name
  | unknownShort letters =>
    let first := String.join ((letters.take 1).map letterText)
    s!"unknown shorthand flag: {first} in -{String.ofList letters}"
  | missingValue name => "flag needs an argument: --" ++ name
  | notNumber name value cause => invalidText name value (cause.message "ParseInt" value)
  | notTruth name value => invalidText name value (ParseCause.message .malformed "ParseBool" value)

end FlagProblem

/-- A command line that was understood. -/
structure CommandArgs where
  /-- The flags in the order they were given. -/
  flags : List (String × FlagValue) := []
  /-- The other arguments. -/
  others : List String := []
  deriving DecidableEq, Repr

namespace CommandArgs

/-- The value of a flag, of which the last one given counts. -/
def get? (a : CommandArgs) (name : String) : Option FlagValue :=
  a.flags.reverse.lookup name

def text? (a : CommandArgs) (name : String) : Option String :=
  match a.get? name with
  | some (.text s) => some s
  | _ => none

def truth? (a : CommandArgs) (name : String) : Option Bool :=
  match a.get? name with
  | some (.truth b) => some b
  | _ => none

def number? (a : CommandArgs) (name : String) : Option Int64 :=
  match a.get? name with
  | some (.number n) => some n
  | _ => none

/-- The value that a text gives a flag. -/
def readValue (name value : String) : FlagType → Except FlagProblem FlagValue
  | .text => .ok (.text value)
  | .truth =>
    match readFlag? value with
    | some b => .ok (.truth b)
    | none => .error (.notTruth name value)
  | .number =>
    match readMarkedInt64 value.toList with
    | .ok n => .ok (.number n)
    | .error why => .error (.notNumber name value (.ofFailure why))

/-- An argument by its form. -/
inductive Form where
  | other
  | endOfFlags
  | long (name : String) (value : Option String)
  | short (letters : List Char)
  | bad

/-- The form of an argument. -/
def formOf (argument : String) : Form :=
  match argument.toList with
  | ['-', '-'] => .endOfFlags
  | '-' :: '-' :: body =>
    if body.head? = some '-' || body.head? = some '=' then .bad
    else
      let name := String.ofList (body.takeWhile (· ≠ '='))
      match body.dropWhile (· ≠ '=') with
      | [] => .long name none
      | _ :: value => .long name (some (String.ofList value))
  | '-' :: letter :: letters => .short (letter :: letters)
  | _ => .other

/-- Reads a run of short forms: each asks for help, and the last may have a value after an equals sign. The
forms that a test run adds are passed over. -/
def readShort : List Char → Except FlagProblem (List FlagValue)
  | [] => .ok []
  | 't' :: 'e' :: 's' :: 't' :: '.' :: _ => .ok []
  | 'h' :: '=' :: c :: value => do return [← readValue "help" (String.ofList (c :: value)) .truth]
  | 'h' :: rest => do return .truth true :: (← readShort rest)
  | letters => .error (.unknownShort letters)

def addFlag (a : CommandArgs) (name : String) (value : FlagValue) : CommandArgs :=
  { a with flags := (name, value) :: a.flags }

def addOther (a : CommandArgs) (argument : String) : CommandArgs :=
  { a with others := argument :: a.others }

/-- Reads a command line; the first problem is reported. -/
def read (types : FlagTypes) : List String → Except FlagProblem CommandArgs
  | [] => .ok {}
  | argument :: rest =>
    match formOf argument with
    | .other => do return (← read types rest).addOther argument
    | .endOfFlags => .ok { others := rest }
    | .bad => .error (.badForm argument)
    | .short letters => do
      let values ← readShort letters
      return values.foldr (fun v a => a.addFlag "help" v) (← read types rest)
    | .long name value? =>
      match types.lookup name, value? with
      | none, _ => .error (.unknown name)
      | some type, some value => do
        let v ← readValue name value type
        return (← read types rest).addFlag name v
      | some .truth, none => do return (← read types rest).addFlag name (.truth true)
      | some type, none =>
        match rest with
        | [] => .error (.missingValue name)
        | value :: rest => do
          let v ← readValue name value type
          return (← read types rest).addFlag name v

end CommandArgs

end MiddleEnd
