import MiddleEnd.Ty
import MiddleEnd.Decimal.Layout
import MiddleEnd.Text.Quoted

/-!
Literals: the values of constants. Strings are byte strings, because programs may hold text that is
not well-formed UTF-8.
-/
namespace MiddleEnd

/-- The value of a constant. -/
inductive Literal where
  | null
  | long (n : Int64)
  | double (x : Float)
  | string (bytes : List UInt8)
  | bool (b : Bool)
  deriving DecidableEq

instance : Inhabited Literal := ⟨.null⟩

namespace Literal

/-- The type that a literal determines. -/
def ty : Literal → Ty
  | null => .null
  | long _ => .long
  | double _ => .double
  | string _ => .string
  | bool _ => .bool

/-- Doubles in listings: always with a point or an exponent. -/
def listingLayout : Layout :=
  { exponentMark := 'e', afterWhole := ".0", afterSingle := "", nan := "NaN", posInf := "+Inf", negInf := "-Inf" }

/-- A literal as listings show it. -/
def text : Literal → String
  | null => "null"
  | long n => toString n.toInt
  | double x => listingLayout.write x
  | string bytes => quotedBytes bytes
  | bool b => if b then "true" else "false"

end Literal

/-- A value that a front end offers as a constant. -/
inductive HostValue where
  | literal (value : Literal)
  | int32 (n : Int32)
  | float32 (x : Float32)
  /-- A value of a kind that no literal has. -/
  | foreign

namespace HostValue

/-- Narrow numbers are widened; a foreign value has no literal. -/
def toLiteral : HostValue → Except Fault Literal
  | literal value => .ok value
  | int32 n => .ok (.long n.toInt64)
  | float32 x => .ok (.double x.toFloat)
  | foreign => .error (.stated "ir.NewConst: unsupported literal kind")

end HostValue

end MiddleEnd
