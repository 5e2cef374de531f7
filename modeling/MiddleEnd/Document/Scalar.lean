import MiddleEnd.Document.Timestamp

/-!
What the scalars of a document stand for. A plain scalar is null, a truth value, a number, a point in time
or a text by how it is spelled; one between quotes is a text.
-/
namespace MiddleEnd

/-- What a scalar stands for. -/
inductive Scalar where
  | null
  | bool (b : Bool)
  | int (n : Int)
  | float (x : Float)
  | timestamp
  /-- The key that stands for the entries of another mapping. -/
  | merge
  | text (s : String)

namespace Scalar

/-- The tag of a kind of scalar in messages. -/
def tag : Scalar → String
  | null => "!!null"
  | bool _ => "!!bool"
  | int _ => "!!int"
  | float _ => "!!float"
  | timestamp => "!!timestamp"
  | merge => "!!merge"
  | text _ => "!!str"

/-- The words with a meaning of their own. -/
def ofWord? : String → Option Scalar
  | "" | "~" | "null" | "Null" | "NULL" => some .null
  | "true" | "True" | "TRUE" => some (.bool true)
  | "false" | "False" | "FALSE" => some (.bool false)
  | ".nan" | ".NaN" | ".NAN" => some (.float (0.0 / 0.0))
  | ".inf" | ".Inf" | ".INF" | "+.inf" | "+.Inf" | "+.INF" => some (.float (1.0 / 0.0))
  | "-.inf" | "-.Inf" | "-.INF" => some (.float (-1.0 / 0.0))
  | "<<" => some .merge
  | _ => none

/-- A sign and digits of a base as a 64-bit whole number. -/
def ofSigned? (base : Nat) (text : List Char) : Option Scalar :=
  match text with
  | '+' :: d :: rest => signed? false (d :: rest)
  | '-' :: d :: rest => signed? true (d :: rest)
  | _ => none
where
  signed? (negative : Bool) (digits : List Char) : Option Scalar :=
    ((readMagnitude base digits).bind (signedInt64 negative)).toOption.map fun n => .int n.toInt

/-- A whole number: one of 64 bits with a sign, or without a sign one that takes all 64 bits. After the mark of
a binary or octal number a sign may stand too. -/
def ofInteger? (digits : List Char) : Option Scalar :=
  match readMarkedInt64 digits, readMarked digits, digits with
  | .ok n, _, _ => some (.int n.toInt)
  | _, .ok n, _ => some (.int n)
  | _, _, '0' :: 'b' :: rest => ofSigned? 2 rest
  | _, _, '0' :: 'o' :: rest => ofSigned? 8 rest
  | _, _, _ => none

/-- A number that starts with a digit or a sign; underscores in it count for nothing. -/
def ofNumber? (text : List Char) : Option Scalar :=
  let plain := text.filter (· ≠ '_')
  (ofInteger? plain).or ((readFloat? plain).map .float)

/-- What a plain scalar stands for, by its first character. After a point, underscores have to separate digits. -/
def ofPlain (s : String) : Scalar :=
  match ofWord? s with
  | some v => v
  | none =>
    match s.toList with
    | [] => .text s
    | c :: rest =>
      if c = '.' then ((readSeparatedFloat? (c :: rest)).map .float).getD (.text s)
      else if isDigit c || c = '+' || c = '-' then
        if isTimestamp (c :: rest) then .timestamp else (ofNumber? (c :: rest)).getD (.text s)
      else .text s

end Scalar

end MiddleEnd
