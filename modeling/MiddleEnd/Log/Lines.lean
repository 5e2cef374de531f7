import MiddleEnd.Log

/-!
Log entries as lines: plain `key=value` text, or one JSON object each. Both order the fields by name.
-/
namespace MiddleEnd

/-- How entries are written. -/
inductive LogFormat where
  | text
  | json
  deriving DecidableEq, Repr

/-- The clock readings that go into lines. -/
structure LogClock where
  /-- The time of day, in JSON lines only. -/
  time : String
  /-- The time that work took, in text lines. -/
  elapsed : String
  /-- The time that work took in nanoseconds, in JSON lines. -/
  elapsedNanos : Int

/-- A character inside a JSON string. What could end a script in a web page is escaped too. -/
def jsonChar (c : Char) : String :=
  match c with
  | '"' => "\\\""
  | '\\' => "\\\\"
  | '\x08' => "\\b"
  | '\x0c' => "\\f"
  | '\n' => "\\n"
  | '\r' => "\\r"
  | '\t' => "\\t"
  | c =>
    if c.toNat < 0x20 || c = '<' || c = '>' || c = '&' || c.toNat = 0x2028 || c.toNat = 0x2029 then
      "\\u" ++ hexText 4 c.toNat
    else c.toString

def jsonQuoted (text : String) : String :=
  "\"" ++ String.join (text.toList.map jsonChar) ++ "\""

namespace LogValue

/-- The characters that need no quotes in a text line. -/
def isBare (c : Char) : Bool :=
  ('a' ≤ c && c ≤ 'z') || ('A' ≤ c && c ≤ 'Z') || ('0' ≤ c && c ≤ '9') || "-._/@^+".toList.contains c

/-- A text, quoted if it needs to be. -/
def bareOrQuoted (s : String) : String :=
  if s.toList.all isBare then s else quoted s

def inText (clock : LogClock) : LogValue → String
  | .text s => bareOrQuoted s
  | .number n => toString n
  | .flag b => if b then "true" else "false"
  | .elapsed => bareOrQuoted clock.elapsed

def inJson (clock : LogClock) : LogValue → String
  | .text s => jsonQuoted s
  | .number n => toString n
  | .flag b => if b then "true" else "false"
  | .elapsed => toString clock.elapsedNanos

end LogValue

namespace LogEntry

/-- Fields in the order of their names. -/
def byName (fields : List (String × LogValue)) : List (String × LogValue) :=
  fields.mergeSort fun a b => !(b.1 < a.1)

/-- The entry as a line without its end. -/
def line (e : LogEntry) (clock : LogClock) : LogFormat → String
  | .text =>
    let fields := [("level", .text e.level.name), ("msg", .text e.message)] ++ byName e.fields
    " ".intercalate (fields.map fun (key, value) => key ++ "=" ++ value.inText clock)
  | .json =>
    let fields := byName
      (("level", .text e.level.name) :: ("msg", .text e.message) :: ("time", .text clock.time) :: e.fields)
    "\x7b" ++ ",".intercalate (fields.map fun (key, value) => jsonQuoted key ++ ":" ++ value.inJson clock) ++ "\x7d"

end LogEntry

/-- Which entries are written, and how. -/
structure Logger where
  level : LogLevel
  format : LogFormat
  deriving DecidableEq, Repr

/-- The lines of the entries that are severe enough. -/
def Logger.lines (l : Logger) (clock : LogClock) (entries : List LogEntry) : List String :=
  (entries.filter fun e => e.level.rank ≤ l.level.rank).map fun e => e.line clock l.format

end MiddleEnd
