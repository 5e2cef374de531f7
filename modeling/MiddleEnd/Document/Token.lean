import MiddleEnd.Document.Text

/-!
The tokens of a document. Block collections have no brackets of their own: one opens where a key or the mark
of an item stands further to the right than those around it, and closes where a line starts further to the
left. Only the colon after it shows that a token was a key, so a token that may be one is remembered until
the colon is found or can no longer follow.

Anchors, tags, directives and block scalars are refused.
-/
namespace MiddleEnd

/-- What a token is. -/
inductive TokenKind where
  | textEnd
  | documentStart
  | documentEnd
  | blockSequence
  | blockMapping
  | blockEnd
  | flowSequence
  | flowSequenceEnd
  | flowMapping
  | flowMappingEnd
  | item
  | comma
  | key
  | value
  | scalar (isQuoted : Bool) (text : String)
  deriving DecidableEq, Repr

/-- A token, with the line it starts on. -/
structure Token where
  kind : TokenKind
  line : Nat
  deriving DecidableEq, Repr

/-- A token that may turn out to be a key. -/
structure PossibleKey where
  /-- Where it stands among the tokens. -/
  position : Nat
  line : Nat
  column : Nat
  offset : Nat
  /-- Whether nothing but a key may stand there. -/
  isNeeded : Bool
  deriving DecidableEq, Repr

/-- Whether a colon at a place would make the token a key: it has to be on the same line, at most 1024
characters after the start. -/
def PossibleKey.reaches (k : PossibleKey) (c : Cursor) : Bool :=
  k.line = c.line && c.offset ≤ k.offset + 1024

/-- The tokens found so far and the place after them. -/
structure Scanner where
  cursor : Cursor
  tokens : Array Token := #[]
  /-- The columns of the open block collections, the innermost first. -/
  columns : List Nat := []
  /-- Whether a key may start at the next token. -/
  keyAllowed : Bool := true
  possibleKey : Option PossibleKey := none
  /-- The possible keys around the open flow collections, the innermost first. -/
  outerKeys : List (Option PossibleKey) := []
  /-- Whether the first character of a line is passed over before a token. -/
  dropsFirst : Bool := false

namespace Scanner

/-- Whether a byte order mark starts a text. -/
def startsMarked (text : List Char) : Bool :=
  text.head? = some '\ufeff'

def inFlow (s : Scanner) : Bool :=
  !s.outerKeys.isEmpty

/-- At the next token, past blanks, line breaks and comments. A tab counts as a blank only where no key may
start, or in a flow collection. -/
def skipGap (s : Scanner) : Nat → Scanner
  | 0 => s
  | fuel + 1 =>
    let c := if s.dropsFirst && s.cursor.column = 0 then s.cursor.advance else s.cursor
    let c := c.moveTo (c.rest.dropWhile fun x => x = ' ' || (x = '\t' && (s.inFlow || !s.keyAllowed)))
    let c := if c.rest.head? = some '#' then c.skipComments c.rest.length else c
    if c.rest.head?.any isBreak then
      { s with cursor := c.step, keyAllowed := s.keyAllowed || !s.inFlow }.skipGap fuel
    else { s with cursor := c }

/-- With a token that starts at the cursor. -/
def push (s : Scanner) (kind : TokenKind) : Scanner :=
  { s with tokens := s.tokens.push ⟨kind, s.cursor.line⟩ }

/-- With a token at a position among those there are. -/
def insert (s : Scanner) (position : Nat) (token : Token) : Scanner :=
  { s with tokens := (s.tokens.extract 0 position).push token ++ s.tokens.extract position s.tokens.size }

/-- Past a comment on the rest of the line, if there is one. -/
def skipLineComment (s : Scanner) : Scanner :=
  let after := s.cursor.rest.dropWhile isGap
  if after.head? = some '#' then { s with cursor := s.cursor.moveTo (after.dropWhile fun x => !isBreak x) } else s

/-- With a token of one character, past it and a comment on its line. -/
def take (s : Scanner) (kind : TokenKind) : Scanner :=
  { s.push kind with cursor := s.cursor.step }.skipLineComment

/-- Closes the block collections to the right of a column, or all. -/
def closeBlocks (s : Scanner) (column : Option Nat) : Scanner :=
  if s.inFlow then s
  else
    let isClosed (n : Nat) : Bool := column.all (· < n)
    { s with
      columns := s.columns.dropWhile isClosed
      tokens := (s.columns.takeWhile isClosed).foldl (fun ts _ => ts.push ⟨.blockEnd, s.cursor.line⟩) s.tokens }

/-- Opens a block collection in a column if none is open there; its token comes at a position. -/
def openBlock (s : Scanner) (kind : TokenKind) (line column position : Nat) : Scanner :=
  if s.inFlow || !s.columns.head?.all (· < column) then s
  else { s.insert position ⟨kind, line⟩ with columns := column :: s.columns }

/-- Opens a block collection at the cursor. -/
def openBlockHere (s : Scanner) (kind : TokenKind) : Scanner :=
  s.openBlock kind s.cursor.line s.cursor.column s.tokens.size

/-- Gives up the possible key; none if it was needed. -/
def dropKey? (s : Scanner) : Option Scanner :=
  if s.possibleKey.any PossibleKey.isNeeded then none else some { s with possibleKey := none }

/-- Remembers the next token as a possible key, if a key may start there. -/
def saveKey? (s : Scanner) : Option Scanner :=
  if !s.keyAllowed then some s
  else do
    let c := s.cursor
    let isNeeded := !s.inFlow && s.columns.head? = some c.column
    some { ← s.dropKey? with possibleKey := some ⟨s.tokens.size, c.line, c.column, c.offset, isNeeded⟩ }

/-- A marker between documents, or the end of the text. -/
def finishDocument? (s : Scanner) (kind : TokenKind) (length : Nat) : Option Scanner := do
  some ({ ← (s.closeBlocks none).dropKey? with keyAllowed := false, cursor := s.cursor.drop length }.push kind)

def openFlow? (s : Scanner) (kind : TokenKind) : Option Scanner := do
  let s := (← s.saveKey?).take kind
  some { s with outerKeys := s.possibleKey :: s.outerKeys, possibleKey := none, keyAllowed := true }

def closeFlow? (s : Scanner) (kind : TokenKind) : Option Scanner := do
  let s := (← s.dropKey?).take kind
  some { s with outerKeys := s.outerKeys.tail, possibleKey := s.outerKeys.head?.bind id, keyAllowed := false }

def readComma? (s : Scanner) : Option Scanner := do
  some { (← s.dropKey?).take .comma with keyAllowed := true }

/-- The mark of an item. A comment after it may go on over more lines. -/
def readItem? (s : Scanner) : Option Scanner := do
  if !s.inFlow && !s.keyAllowed then none
  some { (← (s.openBlockHere .blockSequence).dropKey?).push .item with cursor := s.cursor.step, keyAllowed := true }

/-- The mark of a key. -/
def readKeyMark? (s : Scanner) : Option Scanner := do
  if !s.inFlow && !s.keyAllowed then none
  some { (← (s.openBlockHere .blockMapping).dropKey?).take .key with keyAllowed := !s.inFlow }

/-- A colon, which makes the possible key a key. Without one it takes the place of a key. -/
def readColon? (s : Scanner) : Option Scanner :=
  match s.possibleKey.filter (·.reaches s.cursor) with
  | some k =>
    let s := (s.insert k.position ⟨.key, k.line⟩).openBlock .blockMapping k.line k.column k.position
    some { s.take .value with possibleKey := none, keyAllowed := false }
  | none => do
    let s ← s.dropKey?
    if !s.inFlow && !s.keyAllowed then none
    some { (s.openBlockHere .blockMapping).take .value with keyAllowed := !s.inFlow }

def readQuoted? (s : Scanner) (quote : Char) : Option Scanner := do
  let s ← s.saveKey?
  let (text, after) ← readQuoted quote (s.cursor.rest.length + 1) Gap.none s.cursor.step
  some { s.push (.scalar true (String.ofList text)) with cursor := after, keyAllowed := false }.skipLineComment

def readPlain? (s : Scanner) : Option Scanner := do
  let s ← s.saveKey?
  let least := (s.columns.head?.map (· + 1)).getD 0
  let (text, gap, after) ← readPlain s.inFlow least (s.cursor.rest.length + 1) s.cursor
  let s := { s.push (.scalar false (String.ofList text)) with cursor := after, keyAllowed := gap.isBroken }
  some (if gap.isBroken then s else s.skipLineComment)

/-- Takes one more token; none if the text is malformed there. -/
def next? (s : Scanner) : Option Scanner :=
  let s := s.skipGap (s.cursor.rest.length + 1)
  let s := s.closeBlocks (some s.cursor.column)
  let s := if s.cursor.rest.length < 4 then { s with dropsFirst := startsMarked s.cursor.rest } else s
  match s.cursor.rest with
  | [] => s.finishDocument? .textEnd 0
  | c :: rest =>
    if s.cursor.atMarker then s.finishDocument? (if c = '-' then .documentStart else .documentEnd) 3
    else if c = '[' then s.openFlow? .flowSequence
    else if c = '\x7b' then s.openFlow? .flowMapping
    else if c = ']' then s.closeFlow? .flowSequenceEnd
    else if c = '\x7d' then s.closeFlow? .flowMappingEnd
    else if c = ',' then s.readComma?
    else if c = '-' && atGap rest then s.readItem?
    else if c = '?' && (s.inFlow || atGap rest) then s.readKeyMark?
    else if c = ':' && (s.inFlow || atGap rest) then s.readColon?
    else if c = '\'' || c = '"' then s.readQuoted? c
    else if startsPlain s.inFlow (c :: rest) then s.readPlain?
    else none

/-- Takes the tokens up to the end of the text, or up to where it is malformed; the flag tells which. -/
def run (s : Scanner) : Nat → Scanner × Bool
  | 0 => (s, false)
  | fuel + 1 =>
    match s.next? with
    | none => (s, false)
    | some s => if s.tokens.back?.any (·.kind = .textEnd) then (s, true) else s.run fuel

/-- The tokens that are certain though the text is malformed after them: two more are known after each, and
none is a possible key. -/
def certain (s : Scanner) : List Token :=
  let pending := (s.possibleKey :: s.outerKeys).filterMap id |>.filter fun k => k.isNeeded || k.reaches s.cursor
  let count := pending.foldl (fun n k => min n k.position) (s.tokens.size - 2)
  (s.tokens.extract 0 count).toList

end Scanner

namespace Token

/-- Line breaks of one or two control characters as a line feed. -/
def normalBreaks : List Char → List Char
  | '\r' :: '\n' :: rest => '\n' :: normalBreaks rest
  | '\r' :: rest => '\n' :: normalBreaks rest
  | c :: rest => c :: normalBreaks rest
  | [] => []

/-- The tokens of a text, as far as it is well formed. If a byte order mark starts it, or what is left near the
end, the mark and the first character of each later line are passed over. -/
def scan (text : List Char) : List Token :=
  let chars := normalBreaks text
  let start : Scanner := { cursor := { rest := chars }, dropsFirst := Scanner.startsMarked chars }
  match start.run (chars.length + 2) with
  | (s, true) => s.tokens.toList
  | (s, false) => s.certain

end Token

end MiddleEnd
