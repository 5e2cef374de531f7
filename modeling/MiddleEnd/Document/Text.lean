import MiddleEnd.Document.Cursor

/-!
Scalars of a document: text between quotes, and plain text, which ends where the structure goes on. The
blanks around a line break inside a scalar are dropped, a single break reads as a blank, and of more breaks
all but the first are kept.
-/
namespace MiddleEnd

/-- What separates two characters of a scalar. -/
inductive Gap where
  /-- Blanks within a line, the last one first. -/
  | blanks (reversed : List Char)
  /-- A line break and those after it, the last one first. The first one may be escaped. -/
  | breaks (first : Option Char) (reversed : List Char)
  deriving DecidableEq, Repr

namespace Gap

def none : Gap := blanks []

/-- A line break as it is kept. -/
def keptBreak (c : Char) : Char :=
  if c = '\u0085' then '\n' else c

/-- With one more blank or line break. -/
def add (g : Gap) (c : Char) : Gap :=
  match g with
  | blanks reversed => if isBreak c then breaks (some (keptBreak c)) [] else blanks (c :: reversed)
  | breaks first reversed => if isBreak c then breaks first (keptBreak c :: reversed) else g

/-- What the gap reads as. -/
def text : Gap → List Char
  | blanks reversed => reversed.reverse
  | breaks (some '\n') [] => [' ']
  | breaks (some '\n') reversed => reversed.reverse
  | breaks (some c) reversed => c :: reversed.reverse
  | breaks Option.none reversed => reversed.reverse

def isBroken : Gap → Bool
  | blanks _ => false
  | breaks _ _ => true

end Gap

/-! ### Text between quotes -/

/-- The value of hexadecimal digits. -/
def hexValue? (digits : List Char) : Option Nat :=
  digits.foldlM (fun n c =>
    let c := c.toLower
    if '0' ≤ c && c ≤ '9' then some (16 * n + (c.toNat - '0'.toNat))
    else if 'a' ≤ c && c ≤ 'f' then some (16 * n + (c.toNat - 'a'.toNat + 10))
    else none) 0

/-- The character with a code, if there is one. -/
def charOfCode? (code : Nat) : Option Char :=
  if code.isValidChar then some (Char.ofNat code) else none

/-- What a backslash and one more character stand for. -/
def simpleEscape? : Char → Option Char
  | '0' => some '\x00'
  | 'a' => some '\x07'
  | 'b' => some '\x08'
  | 't' | '\t' => some '\t'
  | 'n' => some '\n'
  | 'v' => some '\x0b'
  | 'f' => some '\x0c'
  | 'r' => some '\r'
  | 'e' => some '\x1b'
  | ' ' => some ' '
  | '"' => some '"'
  | '\'' => some '\''
  | '\\' => some '\\'
  | 'N' => some '\u0085'
  | '_' => some '\u00a0'
  | 'L' => some '\u2028'
  | 'P' => some '\u2029'
  | _ => none

/-- How many hexadecimal digits an escape takes. -/
def hexDigitCount : Char → Nat
  | 'x' => 2
  | 'u' => 4
  | 'U' => 8
  | _ => 0

/-- The escape after a backslash, and how long it is. -/
def readEscape? : List Char → Option (Char × Nat)
  | [] => none
  | mark :: rest =>
    match hexDigitCount mark with
    | 0 => (simpleEscape? mark).map fun c => (c, 1)
    | n =>
      if rest.length < n then none
      else ((hexValue? (rest.take n)).bind charOfCode?).map fun c => (c, n + 1)

/-- The rest of a scalar up to its quote, and the place after that, where a gap was just passed. A single quote
is written twice between single quotes; between double quotes a backslash escapes. No marker between documents
may start a line. -/
def readQuoted (quote : Char) : Nat → Gap → Cursor → Option (List Char × Cursor)
  | 0, _, _ => none
  | fuel + 1, gap, c =>
    let goOn (x : Char) (after : Cursor) : Option (List Char × Cursor) := do
      let (text, last) ← readQuoted quote fuel Gap.none after
      some (gap.text ++ x :: text, last)
    if c.atMarker then none
    else match c.rest with
    | [] => none
    | x :: rest =>
      if isGap x || isBreak x then readQuoted quote fuel (gap.add x) c.step
      else if x = quote then
        if quote = '\'' && rest.head? = some '\'' then goOn quote (c.drop 2) else some (gap.text, c.step)
      else if x = '\\' && quote = '"' then
        if rest.head?.any isBreak then do
          let (text, last) ← readQuoted quote fuel (.breaks none []) (c.drop 2)
          some (gap.text ++ text, last)
        else do
          let (escaped, length) ← readEscape? rest
          goOn escaped (c.drop (length + 1))
      else goOn x c.step

/-! ### Plain text -/

/-- The characters that a flow collection is made with. -/
def isFlowMark (c : Char) : Bool :=
  c = ',' || c = '?' || c = '[' || c = ']' || c = '\x7b' || c = '\x7d'

/-- Whether a plain scalar can start with this text. -/
def startsPlain (inFlow : Bool) : List Char → Bool
  | [] => false
  | c :: rest =>
    if c = '-' then !rest.head?.any isGap
    else if c = '?' || c = ':' then !inFlow && !atGap rest
    else !(isGap c || isBreak c || isFlowMark c || "#&*!|>'\"%@`".toList.contains c)

/-- The characters of a plain scalar up to the next gap. -/
def plainRun (inFlow : Bool) : List Char → List Char
  | [] => []
  | c :: rest =>
    if isGap c || isBreak c || (c = ':' && atGap rest) || (inFlow && isFlowMark c) then []
    else c :: plainRun inFlow rest

/-- Past the blanks and line breaks from here on. No tab may stand before the column `least` of a line that
starts among them. -/
def readGap? (least : Nat) : Nat → Gap → Cursor → Option (Gap × Cursor)
  | 0, _, _ => none
  | fuel + 1, gap, c =>
    match c.rest with
    | [] => some (gap, c)
    | x :: _ =>
      if !(isGap x || isBreak x) then some (gap, c)
      else if x = '\t' && gap.isBroken && c.column < least then none
      else readGap? least fuel (gap.add x) c.step

/-- A plain scalar and the next place that is no gap, with the gap before that. The lines of a scalar in a block
are indented to the column `least` or more. -/
def readPlain (inFlow : Bool) (least : Nat) : Nat → Cursor → Option (List Char × Gap × Cursor)
  | 0, _ => none
  | fuel + 1, c => do
    let run := plainRun inFlow c.rest
    let (gap, next) ← readGap? least (c.rest.length + 1) Gap.none (c.drop run.length)
    let isDone := gap = Gap.none || (!inFlow && next.column < least) || next.atMarker
      || next.rest.head? = some '#' || (plainRun inFlow next.rest).isEmpty
    if isDone then some (run, gap, next)
    else
      let (text, last) ← readPlain inFlow least fuel next
      some (run ++ gap.text ++ text, last)

end MiddleEnd
