import MiddleEnd.Failure
import MiddleEnd.Operation
import MiddleEnd.Ty

/-!
The result types of operators. A missing type means that the operands are not known well enough yet.
-/
namespace MiddleEnd

namespace Kind

/-- Whether values of this kind take part in arithmetic and bitwise operations. Unknown counts until it
is known not to. -/
def isScalar : Kind → Bool
  | void | array | user => false
  | _ => true

/-- Whether inference may still replace a type of this kind. -/
def isRefinable : Kind → Bool
  | unknown | numeric => true
  | _ => false

end Kind

/-- The type of `x op y`. -/
def inferBinary (op : BinOp) (x y : Option Ty) : Except Failure (Option Ty) :=
  let xk := Ty.kindOf x
  let yk := Ty.kindOf y
  if op != .concat && !op.isComparison && (!xk.isScalar || !yk.isScalar) then
    .error (.unsupported (.operands op.symbol (Ty.textOf x) (Ty.textOf y)))
  else if op == .concat then .ok (some .string)
  else if op.isComparison then .ok (some .bool)
  else
    match op with
    | .div => .ok (some .double)
    | .mod | .shiftLeft | .shiftRight => .ok (some .long)
    | .plus | .minus | .mul => .ok (some (if xk == .double || yk == .double then .double else .numeric))
    | .bitAnd | .bitOr | .bitXor =>
      if xk == .unknown || yk == .unknown then .ok none
      else if xk == .string && yk == .string then .ok (some .string)
      else .ok (some .long)
    | _ => .error (.unsupported (.operator op.symbol))

/-- The type of a negation or complement of `x`. -/
def inferUnary (op : Op) (x : Option Ty) : Except Failure (Option Ty) :=
  match Ty.kindOf x with
  | .unknown => .ok none
  | k =>
    match op with
    | .boolNot => .ok (some .bool)
    | .bitNot =>
      match k with
      | .string => .ok (some .string)
      | .long | .double | .numeric => .ok (some .long)
      | _ => .error (.unsupported (.complement (Ty.textOf x)))
    | _ => .error (.notUnary op.name)

end MiddleEnd
