import MiddleEnd.Text.Printable
import MiddleEnd.Text.Utf8

/-!
Byte strings written between double quotes. Printable characters stand for themselves; everything
else is escaped, a stray byte by its value.
-/
namespace MiddleEnd

/-- A number in lower-case hexadecimal, padded with zeros to `width` digits. -/
def hexText (width n : Nat) : String :=
  let digits := Nat.toDigits 16 n
  String.ofList (List.replicate (width - digits.length) '0' ++ digits)

/-- The escape of one character in quoted text. -/
def quotedChar (c : Char) : String :=
  match c with
  | '"' => "\\\""
  | '\\' => "\\\\"
  | '\x07' => "\\a"
  | '\x08' => "\\b"
  | '\x0c' => "\\f"
  | '\n' => "\\n"
  | '\r' => "\\r"
  | '\t' => "\\t"
  | '\x0b' => "\\v"
  | c =>
    if isPrintable c then c.toString
    else if c.toNat < 0x20 || c.toNat = 0x7f then "\\x" ++ hexText 2 c.toNat
    else if c.toNat < 0x10000 then "\\u" ++ hexText 4 c.toNat
    else "\\U" ++ hexText 8 c.toNat

def Piece.quoted : Piece → String
  | char c => quotedChar c
  | stray b => "\\x" ++ hexText 2 b.toNat

/-- A byte string between double quotes. -/
def quotedBytes (bytes : List UInt8) : String :=
  "\"" ++ String.join ((Piece.ofBytes bytes).map Piece.quoted) ++ "\""

/-- A text between double quotes. -/
def quoted (text : String) : String :=
  "\"" ++ String.join (text.toList.map quotedChar) ++ "\""

end MiddleEnd
