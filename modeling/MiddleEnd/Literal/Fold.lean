import MiddleEnd.Operation
import MiddleEnd.Literal.Conversion

/-!
Operators computed on literals. The answer is none when the operation would fail at run time, such as
a division by zero, or mixes operands whose run-time conversion is not known here.
-/
namespace MiddleEnd

namespace Literal

/-- The order of two byte strings, byte by byte. -/
def compareBytes : List UInt8 → List UInt8 → Ordering
  | [], [] => .eq
  | [], _ :: _ => .lt
  | _ :: _, [] => .gt
  | a :: as, b :: bs => if a < b then .lt else if b < a then .gt else compareBytes as bs

/-- The order behind the loose comparisons: of two numbers, of two strings, as numbers if both are
numeric, and of two truth values. -/
def compare? : Literal → Literal → Option Ordering
  | string xs, string ys =>
    match numericString? xs, numericString? ys with
    | some x, some y => some (x.compare y)
    | _, _ => some (compareBytes xs ys)
  | bool x, bool y => some (Number.compare (.int (if x then 1 else 0)) (.int (if y then 1 else 0)))
  | long a, long b => some (Number.compare (.int a) (.int b))
  | long a, double y => some (Number.compare (.int a) (.float y))
  | double x, long b => some (Number.compare (.float x) (.int b))
  | double x, double y => some (Number.compare (.float x) (.float y))
  | _, _ => none

/-- The strict comparison: the same kind of literal and the same value. -/
def identical : Literal → Literal → Bool
  | null, null => true
  | long a, long b => a == b
  | double x, double y => x == y
  | string xs, string ys => xs == ys
  | bool a, bool b => a == b
  | _, _ => false

/-- The sum, if it fits in 64 bits. -/
def addExact? (a b : Int64) : Option Int64 :=
  let s := a + b
  if decide (s > a) = decide (b > 0) then some s else none

/-- The difference, if it fits in 64 bits. -/
def subExact? (a b : Int64) : Option Int64 :=
  let d := a - b
  if decide (d < a) = decide (b > 0) then some d else none

/-- The product, if it fits in 64 bits. -/
def mulExact? (a b : Int64) : Option Int64 :=
  if a = 0 ∨ b = 0 then some 0
  else
    let p := a * b
    if p / b ≠ a ∨ (a = -1 ∧ b = Int64.minValue) ∨ (b = -1 ∧ a = Int64.minValue) then none else some p

/-- Exact on integers while the result fits, else in doubles. -/
def arith (inRange : Int64 → Int64 → Option Int64) (rounded : Float → Float → Float) (a b : Number) : Literal :=
  match a, b with
  | .int m, .int n =>
    match inRange m n with
    | some r => long r
    | none => double (rounded a.toFloat b.toFloat)
  | _, _ => double (rounded a.toFloat b.toFloat)

/-- The operators on numbers. -/
def foldArith (op : BinOp) (x y : Literal) : Option Literal := do
  let a ← x.toNumber?
  let b ← y.toNumber?
  match op with
  | .plus => some (arith addExact? (· + ·) a b)
  | .minus => some (arith subExact? (· - ·) a b)
  | .mul => some (arith mulExact? (· * ·) a b)
  | .div => if b.toFloat == 0.0 then none else some (double (a.toFloat / b.toFloat))
  | .mod => if b.toInt = 0 then none else some (long (a.toInt % b.toInt))
  | _ => none

/-- A bitwise operator on two bytes. -/
def bitwiseByte (op : BinOp) (x y : UInt8) : UInt8 :=
  match op with
  | .bitAnd => x &&& y
  | .bitOr => x ||| y
  | .bitXor => x ^^^ y
  | _ => x

/-- Works the second string into the first one, byte by byte as far as both go. -/
def overlayBytes (op : BinOp) (xs ys : List UInt8) : List UInt8 :=
  List.zipWith (bitwiseByte op) xs ys ++ xs.drop ys.length

/-- A bitwise operator on two strings, byte by byte. `|` keeps the longer operand's tail, so that it is the one worked on; the
others stop at the shorter operand. -/
def bitwiseBytes (op : BinOp) (xs ys : List UInt8) : List UInt8 :=
  if op = .bitOr ∧ xs.length < ys.length then overlayBytes op ys xs
  else if op ≠ .bitOr ∧ ys.length < xs.length then overlayBytes op (xs.take ys.length) ys
  else overlayBytes op xs ys

/-- A shift by a number of places, which may exceed the width. -/
def shift (op : BinOp) (a b : Int64) : Option Literal :=
  if b < 0 then none
  else if b ≥ 64 then some (long (if op = .shiftLeft ∨ a ≥ 0 then 0 else -1))
  else some (long (if op = .shiftLeft then a <<< b else a >>> b))

/-- The operators on bits, of two integers or of two strings. -/
def foldBitwise (op : BinOp) : Literal → Literal → Option Literal
  | string xs, string ys =>
    match op with
    | .shiftLeft | .shiftRight => none
    | _ => some (string (bitwiseBytes op xs ys))
  | long a, long b =>
    match op with
    | .bitAnd => some (long (a &&& b))
    | .bitOr => some (long (a ||| b))
    | .bitXor => some (long (a ^^^ b))
    | .shiftLeft | .shiftRight => shift op a b
    | _ => none
  | _, _ => none

/-- The value of `x op y`. -/
def foldBinary (op : BinOp) (x y : Literal) : Option Literal :=
  match op with
  | .concat => some (string (x.toBytes ++ y.toBytes))
  | .identical => some (bool (identical x y))
  | .notIdentical => some (bool !(identical x y))
  | .equal => (compare? x y).map fun c => bool (c == .eq)
  | .notEqual => (compare? x y).map fun c => bool (c != .eq)
  | .smaller => (compare? x y).map fun c => bool (c == .lt)
  | .smallerEqual => (compare? x y).map fun c => bool (c != .gt)
  | .greater => (compare? x y).map fun c => bool (c == .gt)
  | .greaterEqual => (compare? x y).map fun c => bool (c != .lt)
  | .bitAnd | .bitOr | .bitXor | .shiftLeft | .shiftRight => foldBitwise op x y
  | _ => foldArith op x y

/-- The value of `!x` or `~x`. -/
def foldUnary (op : Op) (x : Literal) : Option Literal :=
  match op, x with
  | .boolNot, x => some (bool !x.truthy)
  | .bitNot, long n => some (long (~~~n))
  | .bitNot, double x => (Binary64.ofFloat? x).map fun b => long (~~~b.toInt64)
  | .bitNot, string bytes => some (string (bytes.map (~~~·)))
  | _, _ => none

end Literal

end MiddleEnd
