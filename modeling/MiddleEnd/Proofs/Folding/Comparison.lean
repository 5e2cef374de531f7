import MiddleEnd.Literal.Fold

/-!
The loose comparisons against the strict ones. The loose ones go by an order made of two tests for less, the strict ones by
equality. The two agree on integers, on truth values and on all doubles that are numbers; a NaN is less than nothing, so the
order takes it for equal to everything, while it is not even identical to itself. Two identical strings are equal, whether
they are compared as texts or as numbers.
-/
namespace MiddleEnd

/-! ### The order of doubles -/

section
open Float.Model

theorem compare_eq_map_swap (x y : UnpackedFloat) : y.compare x = (x.compare y).map Ordering.swap := by
  cases x with
  | notANumber => cases y <;> rfl
  | infinity s => rcases y with (_ | _) | _ | _ | ⟨(_ | _), _, _, _⟩ <;> cases s <;> rfl
  | zero s => rcases y with (_ | _) | _ | _ | ⟨(_ | _), _, _, _⟩ <;> rfl
  | finite s m e _ =>
    have reversed (m' : Nat) (e' : Int) :
        (compare e' e).then (compare m' m) = ((compare e e').then (compare m m')).swap := by
      rw [Ordering.swap_then, Int.compare_swap, Nat.compare_swap]
    cases s with
    | negative =>
      rcases y with (_ | _) | _ | _ | ⟨(_ | _), m', e', _⟩
      case finite.negative => exact congrArg (fun o => some o.swap) (reversed m' e')
      all_goals rfl
    | positive =>
      rcases y with (_ | _) | _ | _ | ⟨(_ | _), m', e', _⟩
      case finite.positive => exact congrArg some (reversed m' e')
      all_goals rfl

/-- Two doubles have an order unless one of them is NaN. -/
theorem isSome_compare (x y : UnpackedFloat) : (x.compare y).isSome = (!x.isNaN && !y.isNaN) := by
  rcases x with (_ | _) | _ | _ | ⟨(_ | _), _, _, _⟩ <;> rcases y with (_ | _) | _ | _ | ⟨(_ | _), _, _, _⟩ <;> rfl

end

variable {x y : Float}

theorem lt_iff_compare : x < y ↔ x.toModel.compare y.toModel = some .lt := by
  simp [LT.lt, Float.lt, Float.Model.lt, Float.Model.UnpackedFloat.lt, Float.Model.compare]

theorem beq_eq_compare : (x == y) = (x.toModel.compare y.toModel == some .eq) := rfl

/-- What has no order counts as equal. -/
theorem Number.compare_float : (Number.float x).compare (.float y) = (x.toModel.compare y.toModel).getD .eq := by
  have reversed : y.toModel.compare x.toModel = (x.toModel.compare y.toModel).map Ordering.swap := compare_eq_map_swap _ _
  simp only [Number.compare, Number.toFloat, gt_iff_lt, lt_iff_compare, reversed]
  rcases x.toModel.compare y.toModel with _ | _ | _ | _ <;> rfl

/-- Every number is level with itself, a NaN too. -/
theorem Number.compare_self (n : Number) : n.compare n = .eq := by
  cases n with
  | int a => simp [Number.compare]
  | float x =>
    rw [Number.compare_float]
    have reversed : x.toModel.compare x.toModel = (x.toModel.compare x.toModel).map Ordering.swap := compare_eq_map_swap _ _
    rcases order : x.toModel.compare x.toModel with _ | _ | _ | _
    all_goals simp_all

theorem Number.compare_int_eq_iff {a b : Int64} : (Number.int a).compare (.int b) = .eq ↔ a = b := by
  constructor
  · intro level
    simp only [Number.compare] at level
    split at level
    · simp at level
    · rename_i notLess
      split at level
      · simp at level
      · rename_i notGreater
        exact Int64.le_antisymm (Int64.not_lt.mp notGreater) (Int64.not_lt.mp notLess)
  · rintro rfl
    exact Number.compare_self _

namespace Literal

/-- The loose and the strict comparisons give the same values. -/
def ComparedAlike (x y : Literal) : Prop :=
  foldBinary .equal x y = foldBinary .identical x y ∧ foldBinary .notEqual x y = foldBinary .notIdentical x y

theorem comparedAlike_iff {x y : Literal} {order : Ordering} (compared : compare? x y = some order) :
    ComparedAlike x y ↔ (order = .eq ↔ identical x y = true) := by
  simp only [ComparedAlike, foldBinary, compared, Option.map_some, Option.some.injEq, bool.injEq]
  cases order <;> cases identical x y <;> decide

theorem compareBytes_self (xs : List UInt8) : compareBytes xs xs = .eq := by
  induction xs with
  | nil => rfl
  | cons a as ih => simp [compareBytes, ih]

theorem compare?_string_self (xs : List UInt8) : compare? (string xs) (string xs) = some .eq := by
  rw [compare?]
  cases numericString? xs with
  | none => exact congrArg some (compareBytes_self xs)
  | some n => exact congrArg some n.compare_self

theorem comparedAlike_long (a b : Int64) : ComparedAlike (long a) (long b) := by
  refine (comparedAlike_iff rfl).mpr ?_
  rw [Number.compare_int_eq_iff, identical, beq_iff_eq]

theorem comparedAlike_bool (p q : Bool) : ComparedAlike (bool p) (bool q) := by
  refine (comparedAlike_iff rfl).mpr ?_
  rw [Number.compare_int_eq_iff, identical, beq_iff_eq]
  cases p <;> cases q <;> decide

theorem comparedAlike_double_iff (x y : Float) :
    ComparedAlike (double x) (double y) ↔ x.isNaN = false ∧ y.isNaN = false := by
  have ordered : (x.toModel.compare y.toModel).isSome = (!x.isNaN && !y.isNaN) := isSome_compare _ _
  rw [comparedAlike_iff rfl, Number.compare_float, identical, beq_eq_compare, ← Bool.not_eq_true', ← Bool.not_eq_true',
    ← Bool.and_eq_true, ← ordered]
  rcases x.toModel.compare y.toModel with _ | _ | _ | _ <;> decide

/-- The loose and the strict comparisons agree on all integers and truth values, and on two doubles exactly if neither is NaN.
Strings that are strictly equal are loosely equal. -/
theorem comparisons_agree (a b : Int64) (x y : Float) (p q : Bool) (xs ys : List UInt8) :
    ComparedAlike (long a) (long b) ∧
    (ComparedAlike (double x) (double y) ↔ x.isNaN = false ∧ y.isNaN = false) ∧
    ComparedAlike (bool p) (bool q) ∧
    (foldBinary .identical (string xs) (string ys) = some (bool true) →
      foldBinary .equal (string xs) (string ys) = some (bool true)) := by
  refine ⟨comparedAlike_long a b, comparedAlike_double_iff x y, comparedAlike_bool p q, fun strictly => ?_⟩
  obtain rfl : xs = ys := by simpa [foldBinary, identical] using strictly
  rw [foldBinary, compare?_string_self]
  rfl

/-- The greatest and the least integer, the two zeros, and a string that is compared as a number. -/
theorem extremes_compared :
    ComparedAlike (long Int64.maxValue) (long Int64.minValue) ∧ ComparedAlike (double 0.0) (double (-0.0)) ∧
      ComparedAlike (bool true) (bool false) ∧
      foldBinary .equal (string [49, 46, 53]) (string [49, 46, 53]) = some (bool true) := by
  obtain ⟨longs, doubles, bools, strings⟩ :=
    comparisons_agree Int64.maxValue Int64.minValue 0.0 (-0.0) true false [49, 46, 53] [49, 46, 53]
  exact ⟨longs, doubles.mpr (by decide), bools, strings (by decide)⟩

/-- A NaN is equal to one and yet not identical to one. -/
theorem nan_comparedApart :
    foldBinary .equal (double (Float.ofBits 0x7ff8000000000000)) (double 1.0) = some (bool true) ∧
    foldBinary .identical (double (Float.ofBits 0x7ff8000000000000)) (double 1.0) = some (bool false) := by
  decide

end Literal

end MiddleEnd
