import MiddleEnd.Text.Quoted

/-!
Log entries. The work is pure, so an entry holds no clock readings: a field for an elapsed time only says
that one belongs there.
-/
namespace MiddleEnd

/-- How severe an entry is, the most severe first. -/
inductive LogLevel where
  | panic
  | fatal
  | error
  | warning
  | info
  | debug
  | trace
  deriving DecidableEq, Repr

namespace LogLevel

def name : LogLevel → String
  | panic => "panic"
  | fatal => "fatal"
  | error => "error"
  | warning => "warning"
  | info => "info"
  | debug => "debug"
  | trace => "trace"

/-- The rank of a level; the more severe is lower. -/
def rank : LogLevel → Nat
  | panic => 0
  | fatal => 1
  | error => 2
  | warning => 3
  | info => 4
  | debug => 5
  | trace => 6

/-- The lower case of a letter, where it is an ASCII letter: two letters beyond ASCII have one as well. -/
def lowerCase (c : Char) : Char :=
  if c = '\u0130' then 'i' else if c = '\u212a' then 'k' else c.toLower

/-- The level with a name, whatever the case of its letters. -/
def ofName? (name : String) : Option LogLevel :=
  match String.ofList (name.toList.map lowerCase) with
  | "panic" => some panic
  | "fatal" => some fatal
  | "error" => some error
  | "warn" | "warning" => some warning
  | "info" => some info
  | "debug" => some debug
  | "trace" => some trace
  | _ => none

end LogLevel

/-- The value of a field. -/
inductive LogValue where
  | text (s : String)
  | number (n : Int)
  | flag (b : Bool)
  /-- The time that the work took. -/
  | elapsed
  deriving DecidableEq, Repr

/-- One entry with its fields. -/
structure LogEntry where
  level : LogLevel
  message : String
  fields : List (String × LogValue)
  deriving DecidableEq, Repr

end MiddleEnd
