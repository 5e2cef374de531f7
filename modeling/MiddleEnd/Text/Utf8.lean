/-!
Byte strings read as UTF-8. A byte that belongs to no well-formed character stands alone, so nothing
of the string is lost.
-/
namespace MiddleEnd

/-- One step of reading bytes as text. -/
inductive Piece where
  | char (c : Char)
  /-- A byte outside every well-formed character. -/
  | stray (b : UInt8)
  deriving DecidableEq, Repr

namespace Piece

/-- The piece that a nonempty byte string starts with, and how many bytes it takes after the first. -/
def first (b : UInt8) (rest : List UInt8) : Piece × Nat :=
  match (ByteArray.mk (b :: rest.take 3).toArray).utf8DecodeChar? 0 with
  | some c => (char c, c.utf8Size - 1)
  | none => (stray b, 0)

/-- Reads a byte string from left to right. -/
def ofBytes : List UInt8 → List Piece
  | [] => []
  | b :: rest =>
    let (piece, more) := first b rest
    piece :: ofBytes (rest.drop more)
termination_by bytes => bytes.length
decreasing_by rw [List.length_drop, List.length_cons]; omega

/-- The character of a piece; a stray byte shows as the replacement character. -/
def toChar : Piece → Char
  | char c => c
  | stray _ => '\uFFFD'

end Piece

/-- The bytes of a text. -/
def utf8Bytes (text : String) : List UInt8 :=
  text.toUTF8.toList

/-- White space, in the sense of the Unicode property. -/
def isBlank (c : Char) : Bool :=
  let n := c.toNat
  (0x9 ≤ n && n ≤ 0xd) || n = 0x20 || n = 0x85 || n = 0xa0 || n = 0x1680 || (0x2000 ≤ n && n ≤ 0x200a)
    || n = 0x2028 || n = 0x2029 || n = 0x202f || n = 0x205f || n = 0x3000

/-- Drops the elements at both ends that satisfy a test. -/
def trimBoth {α : Type} (test : α → Bool) (xs : List α) : List α :=
  ((xs.dropWhile test).reverse.dropWhile test).reverse

end MiddleEnd
