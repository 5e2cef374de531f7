import MiddleEnd.Decimal.Reading
import MiddleEnd.Literal.Basic

/-!
How literals convert at run time: to a truth value, to a string and to a number.
-/
namespace MiddleEnd

/-- A number of either kind. -/
inductive Number where
  | int (n : Int64)
  | float (x : Float)
  deriving DecidableEq

namespace Number

def toFloat : Number → Float
  | int n => Float.ofInt n.toInt
  | float x => x

/-- Cut off toward zero; what is not finite counts as zero. -/
def toInt : Number → Int64
  | int n => n
  | float x =>
    match Binary64.ofFloat? x with
    | none => 0
    | some b => b.toInt64

def toLiteral : Number → Literal
  | int n => .long n
  | float x => .double x

/-- Orders two numbers, as integers if both are; a NaN is level with every number. -/
def compare : Number → Number → Ordering
  | int a, int b => if a < b then .lt else if a > b then .gt else .eq
  | a, b => if a.toFloat < b.toFloat then .lt else if a.toFloat > b.toFloat then .gt else .eq

end Number

namespace Literal

/-- Zero numbers, the empty string, the string `0`, false and null are not truthy. -/
def truthy : Literal → Bool
  | null => false
  | long n => n != 0
  | double x => x != 0.0
  | string bytes => bytes != [] && bytes != [48]
  | bool b => b

/-- Doubles converted to a string that are not whole numbers of at most fifteen digits. -/
def stringLayout : Layout :=
  { exponentMark := 'E', afterWhole := "", afterSingle := ".0", nan := "NAN", posInf := "INF", negInf := "-INF" }

/-- The text of a double converted to a string: a whole number below `10 ^ 15` has no fraction and no exponent. -/
def doubleString (x : Float) : String :=
  match Binary64.ofFloat? x with
  | some b =>
    if b.isWhole && b.wholePart < 1000000000000000 then toString b.truncate else stringLayout.write x
  | none => stringLayout.write x

/-- The string that a literal converts to. -/
def toBytes : Literal → List UInt8
  | null => []
  | long n => utf8Bytes (toString n.toInt)
  | double x => utf8Bytes (doubleString x)
  | string bytes => bytes
  | bool b => if b then [49] else []

/-- The number that a string holds, blanks around it aside: a 64-bit whole number, else a decimal. -/
def numericString? (bytes : List UInt8) : Option Number :=
  let text := (trimBoth (fun p => isBlank p.toChar) (Piece.ofBytes bytes)).map Piece.toChar
  match readInt64? text with
  | some n => some (.int n)
  | none => (readFloat? text).map .float

/-- The number that a literal converts to; none for a string that holds none. -/
def toNumber? : Literal → Option Number
  | null => some (.int 0)
  | long n => some (.int n)
  | double x => some (.float x)
  | string bytes => numericString? bytes
  | bool b => some (.int (if b then 1 else 0))

end Literal

end MiddleEnd
