import MiddleEnd.Decimal.Shortest

/-!
How a double is laid out once its digits are known: positional from `0.0001` up to six digits before
the point, with an exponent outside that range.
-/
namespace MiddleEnd

/-- The decisions of one output format for doubles. -/
structure Layout where
  exponentMark : Char
  /-- Written after a whole number without exponent. -/
  afterWhole : String
  /-- Written after a single digit before the exponent. -/
  afterSingle : String
  nan : String
  posInf : String
  negInf : String
  deriving DecidableEq, Repr

namespace Layout

/-- The exponent as a sign and at least two digits. -/
def exponentText (e : Int) : String :=
  let digits := toString e.natAbs
  (if e < 0 then "-" else "+") ++ (if e.natAbs < 10 then "0" ++ digits else digits)

/-- The digits placed around a point, the leading one at `10 ^ magnitude`. -/
def positional (layout : Layout) (digits : List Char) (magnitude : Int) : String :=
  if magnitude < 0 then
    "0." ++ String.ofList (List.replicate (-magnitude - 1).toNat '0' ++ digits)
  else
    let whole := magnitude.toNat + 1
    if digits.length ≤ whole then
      String.ofList (digits ++ List.replicate (whole - digits.length) '0') ++ layout.afterWhole
    else
      String.ofList (digits.take whole) ++ "." ++ String.ofList (digits.drop whole)

/-- One digit before the point, the others after it, and the power of ten. -/
def exponential (layout : Layout) (digits : List Char) (magnitude : Int) : String :=
  let rest := digits.drop 1
  String.ofList (digits.take 1)
    ++ (if rest.isEmpty then layout.afterSingle else "." ++ String.ofList rest)
    ++ layout.exponentMark.toString ++ exponentText magnitude

/-- The text of a double. -/
def write (layout : Layout) (x : Float) : String :=
  match Binary64.ofFloat? x with
  | none => if x.isNaN then layout.nan else if 0 < x then layout.posInf else layout.negInf
  | some b =>
    let magnitudeText :=
      if b.significand = 0 then "0" ++ layout.afterWhole
      else
        let d := Decimal.shortest b
        if d.magnitude < -4 || 5 < d.magnitude then layout.exponential d.digits d.magnitude
        else layout.positional d.digits d.magnitude
    if b.negative then "-" ++ magnitudeText else magnitudeText

end Layout

end MiddleEnd
