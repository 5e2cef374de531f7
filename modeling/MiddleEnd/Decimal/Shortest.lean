import MiddleEnd.Binary64

/-!
The shortest decimal that reads back to a given double. Of the decimals with the fewest digits
inside the interval of reals that round to the double, the nearest is taken, and an exact tie goes
to the even digit. All comparisons are exact, on natural numbers.
-/
namespace MiddleEnd

/-- The positive decimal `coefficient * 10 ^ exponent`. -/
structure Decimal where
  coefficient : Nat
  exponent : Int
  deriving DecidableEq, Repr

namespace Decimal

/-- A fraction with a positive denominator, as two natural numbers. -/
structure Ratio where
  num : Nat
  den : Nat

/-- `n * 2 ^ p / 10 ^ k`. -/
def scaled (n : Nat) (p k : Int) : Ratio :=
  ⟨(n <<< p.toNat) * Nat.pow 10 (-k).toNat, (1 <<< (-p).toNat) * Nat.pow 10 k.toNat⟩

/-- Whether `10 ^ k ≤ n * 2 ^ p`. -/
def reaches (n : Nat) (p k : Int) : Bool :=
  let r := scaled n p k
  r.den ≤ r.num

/-- The power of ten of the leading digit of `n * 2 ^ p`, for a positive `n`. -/
def leadingPower (n : Nat) (p : Int) : Int :=
  let guess := ((n.log2 : Int) + p) * 30103 / 100000
  if reaches n p (guess + 1) then guess + 1 else if reaches n p guess then guess else guess - 1

/-- The best decimal on the grid of multiples of `10 ^ k`, if one of the value's two neighbours there
rounds to the value. Quarters of the last binary place make the ends of the interval whole. -/
def onGrid (b : Binary64) (k : Int) : Option Nat :=
  let p := b.exponent - 2
  let value := scaled (4 * b.significand) p k
  let low := (scaled (4 * b.significand - if b.lowest then 1 else 2) p k).num
  let high := (scaled (4 * b.significand + 2) p k).num
  let closed := b.significand % 2 = 0
  let hits (d : Nat) : Bool :=
    let point := d * value.den
    if closed then low ≤ point && point ≤ high else low < point && point < high
  let below := value.num / value.den
  let above := below + 1
  let down := value.num - below * value.den
  let up := above * value.den - value.num
  match 0 < below && hits below, hits above with
  | true, true => some (if down < up || (down = up && below % 2 = 0) then below else above)
  | true, false => some below
  | false, true => some above
  | false, false => none

/-- Drops trailing zeros of the coefficient, at most `limit` of them. -/
def stripZeros : Nat → Decimal → Decimal
  | 0, d => d
  | limit + 1, d =>
    if d.coefficient % 10 = 0 then stripZeros limit ⟨d.coefficient / 10, d.exponent + 1⟩ else d

/-- The shortest decimal that reads back to a positive value. Seventeen digits always do. -/
def shortest (b : Binary64) : Decimal :=
  let leading := leadingPower b.significand b.exponent
  let grids : List Int := (List.range 17).map fun (n : Nat) => leading - n
  match grids.findSome? fun k => (onGrid b k).map (Decimal.mk · k) with
  | some d => stripZeros 17 d
  | none => ⟨b.significand, 0⟩

/-- The digits of the coefficient, the leading one first. -/
def digits (d : Decimal) : List Char :=
  Nat.toDigits 10 d.coefficient

/-- The power of ten of the leading digit. -/
def magnitude (d : Decimal) : Int :=
  (d.digits.length : Int) - 1 + d.exponent

end Decimal

end MiddleEnd
