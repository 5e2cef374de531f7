import MiddleEnd.Inference
import MiddleEnd.Literal.Fold

/-!
Folding against inference. What an operator computes on literals has the type that inference gives to the operation on
variables of their types, so that folding never puts a constant where inference announced another type. Inference leaves open
which of the two kinds of number a sum, difference or product is, unless an operand is a double.
-/
namespace MiddleEnd

namespace Literal

variable {op : BinOp} {x y v : Literal} {a b : Number}

/-- The type is the literal's own, or leaves open which kind of number the literal is. -/
def HasType (v : Literal) (t : Ty) : Prop :=
  t = v.ty ∨ t = .numeric ∧ (v.ty = .long ∨ v.ty = .double)

/-- Inference has a type for the operation, and it is one of the value's. -/
def Announced (op : BinOp) (x y v : Literal) : Prop :=
  ∃ t, inferBinary op (some x.ty) (some y.ty) = .ok (some t) ∧ v.HasType t

theorem isScalar_ty (x : Literal) : x.ty.kind.isScalar = true := by
  cases x <;> rfl

/-! ### Arithmetic -/

/-- A literal of the type double stands for a float, never for an integer. -/
theorem eq_float_of_kind_double (isDouble : x.ty.kind = .double) (number : x.toNumber? = some a) : ∃ z, a = .float z := by
  cases x with
  | double z => exact ⟨z, (Option.some.inj number).symm⟩
  | null | long _ | string _ | bool _ => simp [ty, Ty.kind] at isDouble

theorem arith_number (inRange : Int64 → Int64 → Option Int64) (rounded : Float → Float → Float) (a b : Number) :
    (arith inRange rounded a b).ty = .long ∨ (arith inRange rounded a b).ty = .double := by
  unfold arith
  split
  · split
    · exact .inl rfl
    · exact .inr rfl
  · exact .inr rfl

theorem ty_arith_float (inRange : Int64 → Int64 → Option Int64) (rounded : Float → Float → Float)
    (hasFloat : (∃ z, a = .float z) ∨ ∃ z, b = .float z) : (arith inRange rounded a b).ty = .double := by
  rcases hasFloat with ⟨z, rfl⟩ | ⟨z, rfl⟩
  · rfl
  · cases a <;> rfl

theorem announced_arith {inRange : Int64 → Int64 → Option Int64} {rounded : Float → Float → Float}
    (isArith : op = .plus ∨ op = .minus ∨ op = .mul) (first : x.toNumber? = some a) (second : y.toNumber? = some b) :
    Announced op x y (arith inRange rounded a b) := by
  have inferred : inferBinary op (some x.ty) (some y.ty) =
      .ok (some (if x.ty.kind == .double || y.ty.kind == .double then .double else .numeric)) := by
    rcases isArith with rfl | rfl | rfl <;> simp [inferBinary, Ty.kindOf, isScalar_ty, BinOp.isComparison]
  refine ⟨_, inferred, ?_⟩
  split
  · rename_i hasDouble
    refine .inl (ty_arith_float _ _ ?_).symm
    rcases Bool.or_eq_true_iff.mp hasDouble with isDouble | isDouble
    · exact .inl (eq_float_of_kind_double (beq_iff_eq.mp isDouble) first)
    · exact .inr (eq_float_of_kind_double (beq_iff_eq.mp isDouble) second)
  · exact .inr ⟨rfl, arith_number _ _ _ _⟩

theorem announced_of_foldArith (folds : foldArith op x y = some v) : Announced op x y v := by
  obtain ⟨a, first, folds⟩ := Option.bind_eq_some_iff.mp folds
  obtain ⟨b, second, folds⟩ := Option.bind_eq_some_iff.mp folds
  cases op
  case plus =>
    cases folds
    exact announced_arith (.inl rfl) first second
  case minus =>
    cases folds
    exact announced_arith (.inr (.inl rfl)) first second
  case mul =>
    cases folds
    exact announced_arith (.inr (.inr rfl)) first second
  case div =>
    obtain ⟨_, value⟩ := Option.ite_none_left_eq_some.mp folds
    cases value
    exact ⟨.double, by simp [inferBinary, Ty.kindOf, isScalar_ty, BinOp.isComparison], .inl rfl⟩
  case mod =>
    obtain ⟨_, value⟩ := Option.ite_none_left_eq_some.mp folds
    cases value
    exact ⟨.long, by simp [inferBinary, Ty.kindOf, isScalar_ty, BinOp.isComparison], .inl rfl⟩
  all_goals cases folds

/-! ### Bits -/

/-- A bitwise operator gives a string on two strings and an integer on two integers, and nothing on other operands. -/
theorem foldBitwise_cases (folds : foldBitwise op x y = some v) :
    (∃ xs ys zs, x = string xs ∧ y = string ys ∧ v = string zs ∧ op ≠ .shiftLeft ∧ op ≠ .shiftRight) ∨
      ∃ m n r, x = long m ∧ y = long n ∧ v = long r := by
  cases x <;> cases y
  case string.string xs ys =>
    simp only [foldBitwise] at folds
    split at folds
    · cases folds
    · cases folds
    · rename_i notLeft notRight
      exact .inl ⟨xs, ys, _, rfl, rfl, (Option.some.inj folds).symm, notLeft, notRight⟩
  case long.long m n =>
    refine .inr ⟨m, n, ?_⟩
    have isLong : ∃ r, v = long r := by
      simp only [foldBitwise, shift] at folds
      grind
    obtain ⟨r, rfl⟩ := isLong
    exact ⟨r, rfl, rfl, rfl⟩
  all_goals cases folds

theorem announced_of_foldBitwise (bitwise : op.isBitwise = true) (folds : foldBitwise op x y = some v) : Announced op x y v := by
  rcases foldBitwise_cases folds with ⟨xs, ys, zs, rfl, rfl, rfl, notLeft, notRight⟩ | ⟨m, n, r, rfl, rfl, rfl⟩
  · refine ⟨.string, ?_, .inl rfl⟩
    cases op
    case bitAnd | bitOr | bitXor => rfl
    case shiftLeft => exact absurd rfl notLeft
    case shiftRight => exact absurd rfl notRight
    all_goals cases bitwise
  · refine ⟨.long, ?_, .inl rfl⟩
    cases op
    case bitAnd | bitOr | bitXor | shiftLeft | shiftRight => rfl
    all_goals cases bitwise

/-! ### All operators -/

theorem announced_bool (comparison : op.isComparison = true) (p : Bool) : Announced op x y (bool p) := by
  refine ⟨.bool, ?_, .inl rfl⟩
  have other : op ≠ .concat := by rintro rfl; cases comparison
  simp [inferBinary, comparison, other]

theorem announced_of_compare {test : Ordering → Bool} (comparison : op.isComparison = true)
    (folds : (compare? x y).map (fun c => bool (test c)) = some v) : Announced op x y v := by
  obtain ⟨c, _, rfl⟩ := Option.map_eq_some_iff.mp folds
  exact announced_bool comparison _

theorem announced_of_foldBinary (folds : foldBinary op x y = some v) : Announced op x y v := by
  cases op
  case concat =>
    cases folds
    exact ⟨.string, rfl, .inl rfl⟩
  case identical | notIdentical =>
    cases folds
    exact announced_bool rfl _
  case equal | notEqual | smaller | smallerEqual | greater | greaterEqual => exact announced_of_compare rfl folds
  case bitAnd | bitOr | bitXor | shiftLeft | shiftRight => exact announced_of_foldBitwise rfl folds
  all_goals exact announced_of_foldArith folds

theorem inferUnary_of_foldUnary {op : Op} (folds : foldUnary op x = some v) : inferUnary op (some x.ty) = .ok (some v.ty) := by
  cases op
  case boolNot =>
    cases folds
    cases x <;> rfl
  case bitNot =>
    cases x
    case long | string =>
      cases folds
      rfl
    case double =>
      obtain ⟨_, _, rfl⟩ := Option.map_eq_some_iff.mp folds
      rfl
    all_goals cases folds
  all_goals cases folds

/-- Folding keeps to inference: the value of an operator on two literals has the type inferred from theirs, or is a number
where that is all that was inferred; the value of a negation or complement has exactly the type inferred. -/
theorem folds_as_inferred :
    (∀ op x y v, foldBinary op x y = some v →
      ∃ t, inferBinary op (some x.ty) (some y.ty) = .ok (some t) ∧
        (t = v.ty ∨ t = .numeric ∧ (v.ty = .long ∨ v.ty = .double))) ∧
    ∀ op x v, foldUnary op x = some v → inferUnary op (some x.ty) = .ok (some v.ty) :=
  ⟨fun _ _ _ _ folds => announced_of_foldBinary folds, fun _ _ _ folds => inferUnary_of_foldUnary folds⟩

/-- A sum that leaves the integers, and the complement of a string. -/
theorem overflow_folds_as_inferred :
    foldBinary .plus (long Int64.maxValue) (long 1) = some (double (Float.ofBits 0x43e0000000000000)) ∧
    (∃ t, inferBinary .plus (some .long) (some .long) = .ok (some t) ∧
      (t = .double ∨ t = .numeric ∧ (Ty.double = .long ∨ Ty.double = .double))) ∧
    foldUnary .bitNot (string [0, 255]) = some (string [255, 0]) ∧ inferUnary .bitNot (some .string) = .ok (some .string) :=
  have sum : foldBinary .plus (long Int64.maxValue) (long 1) = some (double (Float.ofBits 0x43e0000000000000)) := by decide
  have complement : foldUnary .bitNot (string [0, 255]) = some (string [255, 0]) := by decide
  ⟨sum, folds_as_inferred.1 _ _ _ _ sum, complement, folds_as_inferred.2 _ _ _ complement⟩

end Literal

end MiddleEnd
