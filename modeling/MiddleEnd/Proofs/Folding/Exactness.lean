import Mathlib.Algebra.Ring.Int.Defs
import Mathlib.Algebra.Ring.Nat
import MiddleEnd.Literal.Fold

/-!
The operators on 64-bit integers compute what the integers say. A sum, difference or product is found not to fit from what
is left of it in 64 bits, by a test of its own for each of the three; every test is shown to ask whether the exact result
fits (`add_detects`, `sub_detects`, `mul_detects`). Remainders and shifts have no result that does not fit, and are refused
only where the operation has no meaning.
-/
namespace MiddleEnd

namespace Literal

variable {a b r x : Int64} {n : Int}

/-- What 64 bits with a sign can hold. -/
def Fits (n : Int) : Prop :=
  -2 ^ 63 ≤ n ∧ n ≤ 2 ^ 63 - 1

/-- On two integers the operator gives the integer that is the exact result, if that fits, and the rounded result as a double
otherwise. -/
def FoldsExactly (op : BinOp) (a b : Int64) (exact : Int) (rounded : Float) : Prop :=
  (Fits exact → ∃ r, r.toInt = exact ∧ foldBinary op (long a) (long b) = some (long r)) ∧
    (¬Fits exact → foldBinary op (long a) (long b) = some (double rounded))

/-- On two integers the operator gives an integer, except where it is refused. -/
def FoldsUnless (op : BinOp) (a b : Int64) (refused : Prop) (value : Int) : Prop :=
  (refused → foldBinary op (long a) (long b) = none) ∧
    (¬refused → ∃ r, r.toInt = value ∧ foldBinary op (long a) (long b) = some (long r))

theorem fits_toInt : Fits a.toInt :=
  ⟨a.le_toInt, Int.le_sub_one_of_lt a.toInt_lt⟩

/-! ### Overflow -/

theorem bmod_of_fits (fits : Fits n) : n.bmod (2 ^ 64) = n := by
  obtain ⟨low, high⟩ := fits
  exact Int.bmod_eq_of_le (by omega) (by omega)

/-- A result that was cut to 64 bits is given exactly if it was not changed by that. -/
theorem guarded_eq_some_iff {fitting : Prop} [Decidable fitting] (cut : x.toInt = n.bmod (2 ^ 64)) (detects : fitting ↔ Fits n) :
    (if fitting then some x else none) = some r ↔ r.toInt = n := by
  by_cases fits : Fits n
  · rw [if_pos (detects.mpr fits), Option.some.injEq, ← Int64.toInt_inj, cut, bmod_of_fits fits]
    exact eq_comm
  · rw [if_neg (mt detects.mp fits)]
    simp only [reduceCtorEq, false_iff]
    exact fun same => fits (same ▸ fits_toInt)

theorem add_detects : decide (a + b > a) = decide (b > 0) ↔ Fits (a.toInt + b.toInt) := by
  have fitsA := fits_toInt (a := a)
  have fitsB := fits_toInt (a := b)
  simp only [decide_eq_decide, gt_iff_lt, Int64.lt_iff_toInt_lt, Int64.toInt_add, Int64.toInt_zero, Int.bmod_def, Fits] at *
  omega

theorem sub_detects : decide (a - b < a) = decide (b > 0) ↔ Fits (a.toInt - b.toInt) := by
  have fitsA := fits_toInt (a := a)
  have fitsB := fits_toInt (a := b)
  simp only [decide_eq_decide, gt_iff_lt, Int64.lt_iff_toInt_lt, Int64.toInt_sub, Int64.toInt_zero, Int.bmod_def, Fits] at *
  omega

theorem toInt_eq_neg_one : b.toInt = -1 ↔ b = -1 :=
  Int64.toInt_inj (y := -1)

theorem toInt_eq_minValue : a.toInt = -2 ^ 63 ↔ a = Int64.minValue :=
  Int64.toInt_inj (y := Int64.minValue)

/-- A quotient fits unless the divisor is `-1`, since the least integer has no negative. -/
theorem fits_tdiv (fits : Fits n) (notNegated : b.toInt ≠ -1) : Fits (n.tdiv b.toInt) := by
  have size : (n.tdiv b.toInt).natAbs = n.natAbs / b.toInt.natAbs := Int.natAbs_tdiv _ _
  rcases Nat.lt_or_ge b.toInt.natAbs 2 with small | large
  · obtain zero | one : b.toInt = 0 ∨ b.toInt = 1 := by omega
    · simp [zero, Fits]
    · rwa [one, Int.tdiv_one]
  · have halved : n.natAbs / b.toInt.natAbs ≤ n.natAbs / 2 := Nat.div_le_div_left large (by decide)
    rw [Fits] at fits ⊢
    omega

/-- A product cut to 64 bits divides back only if nothing was cut off, since that is a multiple of `2 ^ 64`, and a
remainder by `b` is smaller. -/
theorem fits_mul_of_div_eq (nonzero : b.toInt ≠ 0) (notNegated : b.toInt ≠ -1) (quotient : a * b / b = a) :
    Fits (a.toInt * b.toInt) := by
  have fitsB := fits_toInt (a := b)
  have fitsCut := fits_toInt (a := a * b)
  have back : (a * b).toInt.tdiv b.toInt = a.toInt := by
    rw [← bmod_of_fits (fits_tdiv fitsCut notNegated), ← Int64.toInt_div, quotient]
  have remainder : b.toInt * a.toInt + (a * b).toInt.tmod b.toInt = (a * b).toInt := by
    rw [← back]
    exact Int.mul_tdiv_add_tmod _ _
  have bounded : ((a * b).toInt.tmod b.toInt).natAbs < b.toInt.natAbs := by
    rw [Int.natAbs_tmod]
    exact Nat.mod_lt _ (Int.natAbs_pos.mpr nonzero)
  obtain ⟨k, cut⟩ : (2 ^ 64 : Int) ∣ (a * b).toInt - a.toInt * b.toInt := by
    rw [Int64.toInt_mul]
    exact Int.dvd_bmod_sub_self
  rw [Int.mul_comm] at remainder
  have nothingCut : a.toInt * b.toInt = (a * b).toInt := by
    -- the two differ by a multiple of `2 ^ 64` and by less than `b`
    obtain ⟨low, high⟩ := fitsB
    omega
  exact nothingCut ▸ fitsCut

theorem mul_detects (nonzero : b.toInt ≠ 0) :
    ¬(a * b / b ≠ a ∨ (a = -1 ∧ b = Int64.minValue) ∨ (b = -1 ∧ a = Int64.minValue)) ↔ Fits (a.toInt * b.toInt) := by
  obtain ⟨low, high⟩ := fits_toInt (a := a)
  simp only [← toInt_eq_neg_one, ← toInt_eq_minValue]
  constructor
  · intro passed
    by_cases negated : b.toInt = -1
    -- dividing by `-1` can overflow as well, so here the test rests on its second half
    · rw [negated, Fits]
      omega
    · exact fits_mul_of_div_eq nonzero negated (by simpa using fun other => passed (.inl other))
  · intro fits failed
    rcases failed with different | ⟨first, second⟩ | ⟨second, first⟩
    · refine different (Int64.toInt_inj.mp ?_)
      rw [Int64.toInt_div, Int64.toInt_mul, bmod_of_fits fits, Int.mul_tdiv_cancel _ nonzero, bmod_of_fits fits_toInt]
    · rw [first, second] at fits
      exact absurd fits (by simp [Fits])
    · rw [first, second] at fits
      exact absurd fits (by simp [Fits])

theorem addExact?_eq_some_iff : addExact? a b = some r ↔ r.toInt = a.toInt + b.toInt :=
  guarded_eq_some_iff (Int64.toInt_add a b) add_detects

theorem subExact?_eq_some_iff : subExact? a b = some r ↔ r.toInt = a.toInt - b.toInt :=
  guarded_eq_some_iff (Int64.toInt_sub a b) sub_detects

theorem mulExact?_eq_some_iff : mulExact? a b = some r ↔ r.toInt = a.toInt * b.toInt := by
  rw [mulExact?]
  split
  · rename_i zero
    have product : a.toInt * b.toInt = (0 : Int64).toInt := by
      rcases zero with rfl | rfl
      · simp
      · simp
    rw [product, Int64.toInt_inj, Option.some.injEq]
    exact eq_comm
  · rename_i nonzero
    have nonzero : b.toInt ≠ 0 := fun zero => nonzero (.inr (Int64.toInt_inj.mp zero))
    dsimp only
    rw [← ite_not]
    exact guarded_eq_some_iff (Int64.toInt_mul a b) (mul_detects nonzero)

/-- An operator that is exact in range and rounds in doubles otherwise. -/
theorem foldsExactly_of_inRange {op : BinOp} {inRange : Int64 → Int64 → Option Int64} {rounded : Float → Float → Float}
    (folds : foldBinary op (long a) (long b) = some (arith inRange rounded (.int a) (.int b)))
    (exact : ∀ r, inRange a b = some r ↔ r.toInt = n) :
    FoldsExactly op a b n (rounded (Float.ofInt a.toInt) (Float.ofInt b.toInt)) := by
  rw [FoldsExactly, folds]
  constructor
  · intro fits
    have isExact : (Int64.ofInt n).toInt = n := Int64.toInt_ofInt_of_le fits.1 (Int.lt_of_le_sub_one fits.2)
    refine ⟨Int64.ofInt n, isExact, ?_⟩
    simp [arith, (exact _).mpr isExact]
  · intro overflows
    have outside : inRange a b = none := by
      rw [Option.eq_none_iff_forall_ne_some]
      exact fun r found => overflows ((exact r).mp found ▸ fits_toInt)
    simp [arith, outside, Number.toFloat]

/-! ### Remainders and shifts -/

theorem foldsUnless_of_eq {op : BinOp} {refused : Prop} [Decidable refused]
    (folds : foldBinary op (long a) (long b) = if refused then none else some (long x)) (value : ¬refused → x.toInt = n) :
    FoldsUnless op a b refused n := by
  rw [FoldsUnless, folds]
  exact ⟨fun isRefused => if_pos isRefused, fun accepted => ⟨x, value accepted, if_neg accepted⟩⟩

theorem foldsUnless_mod : FoldsUnless .mod a b (b = 0) (a.toInt - b.toInt * a.toInt.tdiv b.toInt) := by
  refine foldsUnless_of_eq (x := a % b) rfl fun _ => ?_
  rw [Int64.toInt_mod, Int.tmod_def]

/-- A number of places below the width is not reduced before the shift. -/
theorem smod_width (low : 0 ≤ b.toInt) (high : b.toInt < 64) : b.toBitVec.smod 64 = b.toBitVec := by
  refine BitVec.eq_of_toInt_eq ?_
  rw [BitVec.toInt_smod]
  exact Int.fmod_eq_of_lt low high

theorem toNat_toBitVec (low : 0 ≤ b.toInt) : b.toBitVec.toNat = b.toInt.toNat := by
  have value := BitVec.toInt_eq_toNat_cond b.toBitVec
  have below := b.toBitVec.isLt
  rw [Int64.toInt_toBitVec] at value
  split at value
  · omega
  · omega

theorem toInt_shiftLeft (low : 0 ≤ b.toInt) (high : b.toInt < 64) :
    (a <<< b).toInt = (a.toInt * 2 ^ b.toInt.toNat).bmod (2 ^ 64) := by
  rw [← Int64.toInt_toBitVec, Int64.toBitVec_shiftLeft, smod_width low high, BitVec.shiftLeft_eq', BitVec.toInt_shiftLeft,
    toNat_toBitVec low, ← Int64.toInt_toBitVec a, BitVec.toInt_eq_toNat_bmod, Int.bmod_mul_bmod, Nat.shiftLeft_eq]
  simp

theorem toInt_shiftRight (low : 0 ≤ b.toInt) (high : b.toInt < 64) :
    (a >>> b).toInt = a.toInt.fdiv (2 ^ b.toInt.toNat) := by
  rw [← Int64.toInt_toBitVec, Int64.toBitVec_shiftRight, smod_width low high, BitVec.sshiftRight_eq',
    BitVec.toInt_sshiftRight, toNat_toBitVec low, Int64.toInt_toBitVec, Int.shiftRight_eq_div_pow,
    Int.fdiv_eq_ediv_of_nonneg _ (Int.le_of_lt (Int.pow_pos (by decide)))]
  simp

theorem bmod_shifted_out (far : 64 ≤ b.toInt) : (a.toInt * 2 ^ b.toInt.toNat).bmod (2 ^ 64) = 0 := by
  obtain ⟨more, places⟩ : ∃ more, b.toInt.toNat = more + 64 := ⟨b.toInt.toNat - 64, by omega⟩
  rw [places, Int.pow_add, ← Int.mul_assoc]
  exact Int.mul_bmod_left _ (2 ^ 64)

theorem fdiv_shifted_out (far : 64 ≤ b.toInt) : a.toInt.fdiv (2 ^ b.toInt.toNat) = if 0 ≤ a.toInt then 0 else -1 := by
  have large : (2 : Int) ^ 64 ≤ 2 ^ b.toInt.toNat := by
    exact_mod_cast Nat.pow_le_pow_right (by decide) (by omega : 64 ≤ b.toInt.toNat)
  obtain ⟨low, high⟩ := fits_toInt (a := a)
  rw [Int.fdiv_eq_ediv_of_nonneg _ (by omega)]
  split
  · exact Int.ediv_eq_zero_of_lt (by omega) (by omega)
  · exact Int.ediv_eq_neg_one_of_neg_of_le (by omega) (by omega)

theorem shift_eq {op : BinOp} : shift op a b =
    if b < 0 then none
    else some (long (if b < 64 then (if op = .shiftLeft then a <<< b else a >>> b)
      else if op = .shiftLeft ∨ a ≥ 0 then 0 else -1)) := by
  rw [shift]
  split
  · rfl
  · by_cases near : b < 64
    · rw [if_neg (by simpa using near), if_pos near]
    · rw [if_pos (by simpa using near), if_neg near]

theorem foldsUnless_shiftLeft :
    FoldsUnless .shiftLeft a b (b < 0) ((a.toInt * 2 ^ b.toInt.toNat).bmod (2 ^ 64)) := by
  refine foldsUnless_of_eq shift_eq fun accepted => ?_
  have low : 0 ≤ b.toInt := by simpa [Int64.lt_iff_toInt_lt] using accepted
  by_cases near : b < 64
  · rw [if_pos near, if_pos rfl]
    exact toInt_shiftLeft low (Int64.lt_iff_toInt_lt.mp near)
  · have far : 64 ≤ b.toInt := by simpa [Int64.lt_iff_toInt_lt] using near
    rw [if_neg near, if_pos (.inl rfl), bmod_shifted_out far]
    rfl

theorem foldsUnless_shiftRight : FoldsUnless .shiftRight a b (b < 0) (a.toInt.fdiv (2 ^ b.toInt.toNat)) := by
  refine foldsUnless_of_eq shift_eq fun accepted => ?_
  have low : 0 ≤ b.toInt := by simpa [Int64.lt_iff_toInt_lt] using accepted
  by_cases near : b < 64
  · rw [if_pos near, if_neg (by decide)]
    exact toInt_shiftRight low (Int64.lt_iff_toInt_lt.mp near)
  · have far : 64 ≤ b.toInt := by simpa [Int64.lt_iff_toInt_lt] using near
    have sign : (BinOp.shiftRight = .shiftLeft ∨ a ≥ 0) ↔ 0 ≤ a.toInt := by simp [Int64.le_iff_toInt_le]
    rw [if_neg near, fdiv_shifted_out far]
    simp only [sign]
    split
    · rfl
    · rfl

/-- Folding is exact on all 64-bit integers. Sums, differences and products are the exact ones where these fit, and doubles
elsewhere; the remainder has the sign of the dividend and is refused for the divisor zero only; shifts, by however many
places, multiply and divide by powers of two and are refused for negative numbers of places only. -/
theorem foldBinary_long_exact (a b : Int64) :
    FoldsExactly .plus a b (a.toInt + b.toInt) (Float.ofInt a.toInt + Float.ofInt b.toInt) ∧
    FoldsExactly .minus a b (a.toInt - b.toInt) (Float.ofInt a.toInt - Float.ofInt b.toInt) ∧
    FoldsExactly .mul a b (a.toInt * b.toInt) (Float.ofInt a.toInt * Float.ofInt b.toInt) ∧
    FoldsUnless .mod a b (b = 0) (a.toInt - b.toInt * a.toInt.tdiv b.toInt) ∧
    FoldsUnless .shiftLeft a b (b < 0) ((a.toInt * 2 ^ b.toInt.toNat).bmod (2 ^ 64)) ∧
    FoldsUnless .shiftRight a b (b < 0) (a.toInt.fdiv (2 ^ b.toInt.toNat)) :=
  ⟨foldsExactly_of_inRange rfl fun _ => addExact?_eq_some_iff, foldsExactly_of_inRange rfl fun _ => subExact?_eq_some_iff,
    foldsExactly_of_inRange rfl fun _ => mulExact?_eq_some_iff, foldsUnless_mod, foldsUnless_shiftLeft, foldsUnless_shiftRight⟩

example : foldBinary .mod (long Int64.minValue) (long (-1)) = some (long 0) := by decide

end Literal

end MiddleEnd
