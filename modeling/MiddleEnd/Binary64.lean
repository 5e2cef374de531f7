/-!
A double seen as a sign, a whole significand and a power of two. All exact arithmetic on doubles
starts from these parts.
-/
namespace MiddleEnd

/-- The parts of a finite double: its value is `significand * 2 ^ exponent`, negated if `negative`. -/
structure Binary64 where
  negative : Bool
  significand : Nat
  exponent : Int
  /-- The significand is the least of its power of two, so the neighbour below is only half as far away. -/
  lowest : Bool
  deriving DecidableEq, Repr

namespace Binary64

/-- The parts of a double; none for an infinity and for NaN. -/
def ofFloat? (x : Float) : Option Binary64 :=
  let bits : Nat := x.toBits.toNat
  let negative := decide (bits ≥ 1 <<< 63)
  let biased : Nat := (bits >>> 52) % (1 <<< 11)
  let fraction : Nat := bits % (1 <<< 52)
  if biased = 2047 then none
  else if biased = 0 then some ⟨negative, fraction, -1074, false⟩
  else some ⟨negative, fraction + (1 <<< 52), (biased : Int) - 1075, fraction = 0 && biased > 1⟩

/-- The whole part of the magnitude. -/
def wholePart (b : Binary64) : Nat :=
  if 0 ≤ b.exponent then b.significand <<< b.exponent.toNat else b.significand >>> (-b.exponent).toNat

/-- The value rounded toward zero. -/
def truncate (b : Binary64) : Int :=
  if b.negative then -(b.wholePart : Int) else b.wholePart

/-- Whether the value is a whole number. -/
def isWhole (b : Binary64) : Bool :=
  0 ≤ b.exponent || b.significand % (1 <<< (-b.exponent).toNat) = 0

end Binary64

end MiddleEnd
