import MiddleEnd.Literal.Fold

/-!
The bitwise operators on strings. Which operand is worked on, and how far, depends on the operator and on the lengths; what
then stands at a place of the answer depends on that place of the operands alone. `&` and `^` need a byte of both
(`bitwiseBytes_eq_zipWith`), `|` takes what there is (`getElem?_bitwiseBytes_bitOr`), and so the laws that the operators have
on bytes carry over to strings of any lengths.
-/
namespace MiddleEnd

namespace Literal

variable {op : BinOp} {xs ys zs : List UInt8}

/-! ### Working one string into another -/

theorem length_overlayBytes (op : BinOp) (xs ys : List UInt8) : (overlayBytes op xs ys).length = xs.length := by
  rw [overlayBytes, List.length_append, List.length_zipWith, List.length_drop]
  omega

theorem getElem?_overlayBytes (op : BinOp) (xs ys : List UInt8) (i : Nat) :
    (overlayBytes op xs ys)[i]? = xs[i]?.map fun x => ys[i]?.elim x (bitwiseByte op x) := by
  induction xs generalizing ys i with
  | nil => simp [overlayBytes]
  | cons x xs ih =>
    cases ys with
    | nil => simp [overlayBytes]
    | cons y ys =>
      cases i with
      | zero => simp [overlayBytes]
      | succ i => simpa [overlayBytes] using ih ys i

theorem drop_overlayBytes (shorter : ys.length ≤ xs.length) :
    (overlayBytes op xs ys).drop ys.length = xs.drop ys.length := by
  have common : (List.zipWith (bitwiseByte op) xs ys).length = ys.length := by
    rw [List.length_zipWith, Nat.min_eq_right shorter]
  rw [overlayBytes, List.drop_append, common, List.drop_eq_nil_of_le (Nat.le_of_eq common)]
  simp

/-! ### The operators that stop at the shorter operand -/

theorem bitwiseBytes_of_ne (cut : op ≠ .bitOr) (xs ys : List UInt8) :
    bitwiseBytes op xs ys = overlayBytes op (xs.take ys.length) ys := by
  rw [bitwiseBytes, if_neg fun both => cut both.1]
  split
  · rfl
  · rename_i shorter
    have within : xs.length ≤ ys.length := Nat.le_of_not_lt fun longer => shorter ⟨cut, longer⟩
    rw [List.take_of_length_le within]

theorem bitwiseBytes_eq_zipWith (cut : op ≠ .bitOr) (xs ys : List UInt8) :
    bitwiseBytes op xs ys = List.zipWith (bitwiseByte op) xs ys := by
  apply List.ext_getElem?
  intro i
  rw [bitwiseBytes_of_ne cut, getElem?_overlayBytes, List.getElem?_take, List.getElem?_zipWith']
  split
  · rename_i inside
    rw [List.getElem?_eq_getElem inside]
    cases xs[i]? <;> rfl
  · rename_i outside
    rw [List.getElem?_eq_none (Nat.le_of_not_lt outside)]
    cases xs[i]? <;> rfl

/-! ### The operator that keeps the tail -/

theorem bitwiseBytes_bitOr (xs ys : List UInt8) :
    bitwiseBytes .bitOr xs ys = if xs.length < ys.length then overlayBytes .bitOr ys xs else overlayBytes .bitOr xs ys := by
  simp [bitwiseBytes]

theorem getElem?_bitwiseBytes_bitOr (xs ys : List UInt8) (i : Nat) :
    (bitwiseBytes .bitOr xs ys)[i]? = Option.merge (· ||| ·) xs[i]? ys[i]? := by
  rw [bitwiseBytes_bitOr]
  split
  · rename_i longer
    rw [getElem?_overlayBytes]
    cases atX : xs[i]? with
    | none => cases ys[i]? <;> rfl
    | some x =>
      have inside : i < ys.length := Nat.lt_trans (List.getElem?_eq_some_iff.mp atX).1 longer
      rw [List.getElem?_eq_getElem inside]
      exact congrArg some (UInt8.or_comm _ _)
  · rename_i shorter
    rw [getElem?_overlayBytes]
    cases atY : ys[i]? with
    | none => cases xs[i]? <;> rfl
    | some y =>
      have inside : i < xs.length := by
        have := (List.getElem?_eq_some_iff.mp atY).1
        omega
      rw [List.getElem?_eq_getElem inside]
      rfl

theorem length_bitwiseBytes_bitOr (xs ys : List UInt8) :
    (bitwiseBytes .bitOr xs ys).length = max xs.length ys.length := by
  rw [bitwiseBytes_bitOr]
  split
  · rw [length_overlayBytes]
    omega
  · rw [length_overlayBytes]
    omega

/-- What `|` leaves of the longer operand. -/
theorem drop_bitwiseBytes_bitOr (xs ys : List UInt8) :
    (bitwiseBytes .bitOr xs ys).drop (min xs.length ys.length) =
      if xs.length < ys.length then ys.drop xs.length else xs.drop ys.length := by
  rw [bitwiseBytes_bitOr]
  split
  · rename_i longer
    rw [Nat.min_eq_left (Nat.le_of_lt longer)]
    exact drop_overlayBytes (Nat.le_of_lt longer)
  · rename_i shorter
    rw [Nat.min_eq_right (Nat.le_of_not_lt shorter)]
    exact drop_overlayBytes (Nat.le_of_not_lt shorter)

/-! ### Laws -/

/-- An operator folds strings byte by byte: where both have a byte, by `f`, to as many bytes as `size` says; and it does not
matter in which order operands come, nor in which order three of them are folded. -/
structure FoldsBytewise (op : BinOp) (f : UInt8 → UInt8 → UInt8) (size : Nat → Nat → Nat) (xs ys zs : List UInt8) : Prop where
  folds : foldBinary op (string xs) (string ys) = some (string (bitwiseBytes op xs ys))
  length : (bitwiseBytes op xs ys).length = size xs.length ys.length
  common : ∀ (i : Nat) (x y : UInt8), xs[i]? = some x → ys[i]? = some y → (bitwiseBytes op xs ys)[i]? = some (f x y)
  comm : bitwiseBytes op xs ys = bitwiseBytes op ys xs
  assoc : bitwiseBytes op (bitwiseBytes op xs ys) zs = bitwiseBytes op xs (bitwiseBytes op ys zs)

/-- The operators that stop at the shorter operand have the laws that they have on bytes. -/
theorem FoldsBytewise.of_ne (cut : op ≠ .bitOr)
    (folds : foldBinary op (string xs) (string ys) = some (string (bitwiseBytes op xs ys)))
    (comm : ∀ x y, bitwiseByte op x y = bitwiseByte op y x)
    (assoc : ∀ x y z, bitwiseByte op (bitwiseByte op x y) z = bitwiseByte op x (bitwiseByte op y z)) :
    FoldsBytewise op (bitwiseByte op) min xs ys zs where
  folds := folds
  length := by rw [bitwiseBytes_eq_zipWith cut, List.length_zipWith]
  common i x y atX atY := by
    rw [bitwiseBytes_eq_zipWith cut, List.getElem?_zipWith', atX, atY]
    rfl
  comm := by
    rw [bitwiseBytes_eq_zipWith cut, bitwiseBytes_eq_zipWith cut]
    exact List.zipWith_comm_of_comm comm
  assoc := by
    apply List.ext_getElem?
    intro i
    simp only [bitwiseBytes_eq_zipWith cut, List.getElem?_zipWith']
    cases xs[i]? <;> cases ys[i]? <;> cases zs[i]? <;> simp [assoc]

theorem FoldsBytewise.bitOr (xs ys zs : List UInt8) : FoldsBytewise .bitOr (· ||| ·) max xs ys zs where
  folds := rfl
  length := length_bitwiseBytes_bitOr xs ys
  common i x y atX atY := by
    rw [getElem?_bitwiseBytes_bitOr, atX, atY]
    rfl
  comm := by
    apply List.ext_getElem?
    intro i
    rw [getElem?_bitwiseBytes_bitOr, getElem?_bitwiseBytes_bitOr]
    exact Std.Commutative.comm _ _
  assoc := by
    apply List.ext_getElem?
    intro i
    simp only [getElem?_bitwiseBytes_bitOr]
    exact Std.Associative.assoc _ _ _

/-- Strings fold byte by byte, and lawfully. `&` and `^` have as many bytes as the shorter operand, `|` as many as the longer
one, whose tail it has beyond the bytes of both. -/
theorem strings_fold_bytewise (xs ys zs : List UInt8) :
    FoldsBytewise .bitAnd (· &&& ·) min xs ys zs ∧
    FoldsBytewise .bitXor (· ^^^ ·) min xs ys zs ∧
    FoldsBytewise .bitOr (· ||| ·) max xs ys zs ∧
    (bitwiseBytes .bitOr xs ys).drop (min xs.length ys.length) =
      (if xs.length < ys.length then ys.drop xs.length else xs.drop ys.length) := by
  refine ⟨?_, ?_, .bitOr xs ys zs, drop_bitwiseBytes_bitOr xs ys⟩
  · exact .of_ne (by decide) rfl UInt8.and_comm UInt8.and_assoc
  · exact .of_ne (by decide) rfl UInt8.xor_comm UInt8.xor_assoc

-- either operand the shorter one, and either of them empty
example : bitwiseBytes .bitOr [0x61] [0x02, 0x7a] = [0x63, 0x7a] ∧ bitwiseBytes .bitOr [0x61, 0x7a] [] = [0x61, 0x7a] ∧
    bitwiseBytes .bitAnd [0x61, 0x7a] [0x21] = [0x21] ∧ bitwiseBytes .bitXor [] [0x21] = [] := by
  decide

end Literal

end MiddleEnd
