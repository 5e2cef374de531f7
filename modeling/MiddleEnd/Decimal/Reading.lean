import MiddleEnd.Binary64

/-!
Reading numbers: whole numbers of 64 bits, decimal or in a marked base, and decimals with an optional point
and exponent. Only ASCII digits count, and the whole text has to be used.
-/
namespace MiddleEnd

/-- The value of a digit, or none. -/
def digitValue? (c : Char) : Option Nat :=
  if '0' ≤ c && c ≤ '9' then some (c.toNat - '0'.toNat) else none

/-- The value of a digit in a base up to sixteen, or none. -/
def digitIn? (base : Nat) (c : Char) : Option Nat :=
  let c := c.toLower
  let value := if 'a' ≤ c && c ≤ 'f' then some (c.toNat - 'a'.toNat + 10) else digitValue? c
  value.filter (· < base)

def isDigit (c : Char) : Bool :=
  (digitValue? c).isSome

/-- The number that a run of digits names. -/
def readDigits (digits : List Char) : Nat :=
  digits.foldl (fun n c => 10 * n + (digitValue? c).getD 0) 0

/-- Splits off a sign; true for a minus. -/
def readSign : List Char → Bool × List Char
  | '-' :: rest => (true, rest)
  | '+' :: rest => (false, rest)
  | text => (false, text)

/-- Why a text is not a 64-bit whole number. -/
inductive ReadFailure where
  | malformed
  | outOfRange
  deriving DecidableEq, Repr

/-- The number that digits of a base name. The first digit that is none, or that takes the number past 64
bits, decides the failure. -/
def readMagnitude (base : Nat) (digits : List Char) : Except ReadFailure Nat :=
  digits.foldlM (fun n c =>
    match digitIn? base c with
    | none => .error .malformed
    | some d => if base * n + d < 1 <<< 64 then .ok (base * n + d) else .error .outOfRange) 0

/-- A whole number in 64 bits, if it fits. -/
def int64OfInt? (n : Int) : Option Int64 :=
  if Int64.minValue.toInt ≤ n ∧ n ≤ Int64.maxValue.toInt then some (Int64.ofInt n) else none

/-- A double cut off toward zero; the least number stands for all that does not fit 64 bits. -/
def Binary64.toInt64 (b : Binary64) : Int64 :=
  (int64OfInt? b.truncate).getD Int64.minValue

/-- A magnitude with its sign, if it fits 64 bits. -/
def signedInt64 (negative : Bool) (magnitude : Nat) : Except ReadFailure Int64 :=
  match int64OfInt? (if negative then -(magnitude : Int) else magnitude) with
  | some n => .ok n
  | none => .error .outOfRange

/-- Reads an optional sign and at least one digit as a 64-bit whole number. -/
def readInt64 (text : List Char) : Except ReadFailure Int64 := do
  let (negative, digits) := readSign text
  if digits.isEmpty then .error .malformed
  signedInt64 negative (← readMagnitude 10 digits)

/-- The base that a whole number is written in, its digits, and whether a mark stands before them: `0x`,
`0o` or `0b`, or a leading zero for octal. -/
def splitBase : List Char → Nat × List Char × Bool
  | '0' :: mark :: d :: rest =>
    match mark.toLower with
    | 'x' => (16, d :: rest, true)
    | 'o' => (8, d :: rest, true)
    | 'b' => (2, d :: rest, true)
    | _ => (8, mark :: d :: rest, false)
  | '0' :: rest => (8, rest, false)
  | digits => (10, digits, false)

/-- Whether each underscore stands between two digits. What counts as a digit is given, and whether one stands
before the text. -/
def underscoresSeparate (isPart : Char → Bool) (afterDigit : Bool) : List Char → Bool
  | [] => true
  | '_' :: rest => afterDigit && rest.head?.any isPart && underscoresSeparate isPart false rest
  | c :: rest => underscoresSeparate isPart (isPart c) rest

/-- Reads a magnitude in the base that it is marked with; underscores may separate digits. -/
def readMarked (text : List Char) : Except ReadFailure Nat := do
  if text.isEmpty then .error .malformed
  let (base, digits, marked) := splitBase text
  let n ← readMagnitude base (digits.filter (· ≠ '_'))
  let separate := underscoresSeparate (fun c => (digitIn? base c).isSome) marked (if marked then digits else text)
  if separate then .ok n else .error .malformed

/-- Reads a 64-bit whole number in the base that it is marked with. -/
def readMarkedInt64 (text : List Char) : Except ReadFailure Int64 := do
  let (negative, digits) := readSign text
  signedInt64 negative (← readMarked digits)

def readInt64? (text : List Char) : Option Int64 :=
  (readInt64 text).toOption

/-- A decimal as it was written: sign, digits without the point, and power of ten. -/
structure DecimalText where
  negative : Bool
  digits : List Char
  exponent : Int
  deriving DecidableEq, Repr

namespace DecimalText

/-- The number that the digits of an exponent name. Once it has come to ten thousand, further digits count
for nothing. -/
def cappedExponent (digits : List Char) : Nat :=
  digits.foldl (fun e c => if e < 10000 then 10 * e + (digitValue? c).getD 0 else e) 0

/-- The exponent part: nothing, or a mark, an optional sign and at least one digit. -/
def readExponent? : List Char → Option Int
  | [] => some 0
  | mark :: rest =>
    let (negative, digits) := readSign rest
    if (mark == 'e' || mark == 'E') && !digits.isEmpty && digits.all isDigit then
      some (if negative then -(cappedExponent digits : Int) else cappedExponent digits)
    else none

/-- Reads a sign, digits with at most one point among them, and an exponent. -/
def read? (text : List Char) : Option DecimalText := do
  let (negative, body) := readSign text
  let whole := body.takeWhile isDigit
  let afterWhole := body.dropWhile isDigit
  let (fraction, afterFraction) :=
    match afterWhole with
    | '.' :: rest => (rest.takeWhile isDigit, rest.dropWhile isDigit)
    | rest => ([], rest)
  if whole.isEmpty && fraction.isEmpty then none
  else
    let e ← readExponent? afterFraction
    some ⟨negative, whole ++ fraction, e - fraction.length⟩

/-- The nearest double; none when it is too large for one. The cuts on the magnitude are far outside
the range of doubles and keep the powers of ten small. -/
def toFloat? (d : DecimalText) : Option Float :=
  let digits := d.digits.dropWhile (· = '0')
  let coefficient := readDigits digits
  let magnitude := (digits.length : Int) + d.exponent
  let signed (x : Float) : Float := if d.negative then -x else x
  if coefficient = 0 || magnitude < -400 then some (signed 0.0)
  else if 400 < magnitude then none
  else
    let x := Float.ofScientific coefficient (d.exponent < 0) d.exponent.natAbs
    if x.isInf then none else some (signed x)

end DecimalText

/-- Reads a decimal as the nearest double. -/
def readFloat? (text : List Char) : Option Float :=
  (DecimalText.read? text).bind DecimalText.toFloat?

/-- Reads a decimal in which underscores may separate digits. -/
def readSeparatedFloat? (text : List Char) : Option Float :=
  if underscoresSeparate isDigit false text then readFloat? (text.filter (· ≠ '_')) else none

end MiddleEnd
