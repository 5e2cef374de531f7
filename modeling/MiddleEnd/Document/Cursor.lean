/-!
A place in a document: the text from there on, with its line and column. Texts come with each line break of
one or two control characters written as a line feed; three further characters break lines too.
-/
namespace MiddleEnd

/-- A blank within a line. -/
def isGap (c : Char) : Bool :=
  c = ' ' || c = '\t'

/-- A character that ends a line: a line feed, a next line, or a separator of lines or paragraphs. -/
def isBreak (c : Char) : Bool :=
  c = '\n' || c = '\u0085' || c = '\u2028' || c = '\u2029'

/-- Whether a text starts with a blank or a line break, or is at its end. -/
def atGap : List Char → Bool
  | [] => true
  | c :: _ => isGap c || isBreak c

/-- A place in a document. -/
structure Cursor where
  rest : List Char
  line : Nat := 1
  column : Nat := 0
  /-- How many characters are before this place. -/
  offset : Nat := 0
  deriving DecidableEq, Repr

namespace Cursor

/-- Past one character, which counts as one of the line even if it breaks it. -/
def advance (c : Cursor) : Cursor :=
  { c with rest := c.rest.tail, column := c.column + 1, offset := c.offset + 1 }

/-- Past one character. -/
def step (c : Cursor) : Cursor :=
  match c.rest with
  | [] => c
  | x :: rest => if isBreak x then ⟨rest, c.line + 1, 0, c.offset + 1⟩ else c.advance

/-- Past some characters. -/
def drop (c : Cursor) : Nat → Cursor
  | 0 => c
  | n + 1 => c.step.drop n

/-- At the given remainder of the text. -/
def moveTo (c : Cursor) (rest : List Char) : Cursor :=
  c.drop (c.rest.length - rest.length)

/-- Whether a line with a marker between documents starts here. -/
def atMarker (c : Cursor) : Bool :=
  c.column = 0 && match c.rest with
    | '-' :: '-' :: '-' :: rest => atGap rest
    | '.' :: '.' :: '.' :: rest => atGap rest
    | _ => false

/-- Past a comment that starts here, at the end of its line. Further comments are taken along if only blanks
and line feeds stand between them. -/
def skipComments : Nat → Cursor → Cursor
  | 0, c => c
  | fuel + 1, c =>
    let atEnd := c.moveTo (c.rest.dropWhile fun x => !isBreak x)
    let between := atEnd.rest.dropWhile fun x => isGap x || x = '\n'
    if atEnd.rest.head? = some '\n' && between.head? = some '#' then skipComments fuel (atEnd.moveTo between)
    else atEnd

end Cursor

end MiddleEnd
