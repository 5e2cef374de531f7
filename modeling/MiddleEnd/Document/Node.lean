import MiddleEnd.Document.Token

/-!
Documents in the block and flow styles of YAML: nested scalars, sequences and mappings.
-/
namespace MiddleEnd

/-- A value of a document, with the line it starts on. -/
inductive Node where
  | scalar (line : Nat) (isQuoted : Bool) (text : String)
  | sequence (line : Nat) (items : List Node)
  | mapping (line : Nat) (entries : List (Node × Node))

namespace Node

def line : Node → Nat
  | scalar line _ _ => line
  | sequence line _ => line
  | mapping line _ => line

/-- The value where none is written, at a token. -/
def absent (t : Token) : Node :=
  scalar t.line false ""

/-- Whether a token ends an entry of a block mapping, so that nothing is written for its key or value. -/
def endsEntry (t : Token) : Bool :=
  t.kind = .key || t.kind = .value || t.kind = .blockEnd

/-- Whether a token ends a part of a flow collection that a token closes. -/
def endsPart (closing : TokenKind) (t : Token) : Bool :=
  t.kind = .comma || t.kind = closing

mutual

/-- A value; block collections are possible only outside of flow collections. -/
def read (inFlow : Bool) : Nat → List Token → Option (Node × List Token)
  | 0, _ => none
  | _, [] => none
  | fuel + 1, t :: rest =>
    match t.kind with
    | .scalar isQuoted text => some (scalar t.line isQuoted text, rest)
    | .flowSequence => (readFlowItems true fuel rest).map fun (items, after) => (sequence t.line items, after)
    | .flowMapping => (readFlowEntries true fuel rest).map fun (entries, after) => (mapping t.line entries, after)
    | .blockSequence =>
      if inFlow then none else (readItems fuel rest).map fun (items, after) => (sequence t.line items, after)
    | .blockMapping =>
      if inFlow then none else (readEntries fuel rest).map fun (entries, after) => (mapping t.line entries, after)
    | _ => none

/-- A key or value in a block mapping after its mark: one that is not written, a sequence that is not indented,
or any other. -/
def readPart (mark : Token) : Nat → List Token → Option (Node × List Token)
  | 0, _ => none
  | _, [] => none
  | fuel + 1, t :: rest =>
    if endsEntry t then some (absent mark, t :: rest)
    else if t.kind = .item then
      (readFlushItems fuel (t :: rest)).map fun (items, after) => (sequence t.line items, after)
    else read false fuel (t :: rest)

/-- The items of a block sequence up to its end. -/
def readItems : Nat → List Token → Option (List Node × List Token)
  | 0, _ => none
  | _, [] => none
  | fuel + 1, t :: rest =>
    match t.kind, rest with
    | .blockEnd, _ => some ([], rest)
    | .item, u :: _ => do
      let (item, after) ← if u.kind = .item || u.kind = .blockEnd then some (absent t, rest) else read false fuel rest
      let (items, after) ← readItems fuel after
      some (item :: items, after)
    | _, _ => none

/-- The items of a block sequence in the column of the mapping that it is in. -/
def readFlushItems : Nat → List Token → Option (List Node × List Token)
  | 0, _ => none
  | _, [] => none
  | fuel + 1, t :: rest =>
    match t.kind, rest with
    | .item, u :: _ => do
      let (item, after) ← if u.kind = .item || endsEntry u then some (absent t, rest) else read false fuel rest
      let (items, after) ← readFlushItems fuel after
      some (item :: items, after)
    | .item, [] => none
    | _, _ => some ([], t :: rest)

/-- The entries of a block mapping up to its end. -/
def readEntries : Nat → List Token → Option (List (Node × Node) × List Token)
  | 0, _ => none
  | _, [] => none
  | fuel + 1, t :: rest =>
    match t.kind with
    | .blockEnd => some ([], rest)
    | .key => do
      let (key, after) ← readPart t fuel rest
      let (value, after) ← match after with
        | [] => none
        | u :: after => if u.kind = .value then readPart u fuel after else some (absent u, u :: after)
      let (entries, after) ← readEntries fuel after
      some ((key, value) :: entries, after)
    | _ => none

/-- The value after a key in a flow collection. -/
def readFlowValue (closing : TokenKind) : Nat → List Token → Option (Node × List Token)
  | 0, _ => none
  | _, [] => none
  | fuel + 1, t :: rest =>
    match t.kind, rest with
    | .value, u :: _ => if endsPart closing u then some (absent u, rest) else read true fuel rest
    | .value, [] => none
    | _, _ => some (absent t, t :: rest)

/-- The items of a flow sequence up to its end. An item may be a single entry of a mapping. -/
def readFlowItems (isFirst : Bool) : Nat → List Token → Option (List Node × List Token)
  | 0, _ => none
  | _, [] => none
  | fuel + 1, t :: rest =>
    if t.kind = .flowSequenceEnd then some ([], rest)
    else if !isFirst && t.kind ≠ .comma then none
    else
      match if isFirst then t :: rest else rest with
      | [] => none
      | u :: after =>
        match u.kind with
        | .flowSequenceEnd => some ([], after)
        | .key => do
          let (key, after) ← match after with
            | [] => none
            | w :: more =>
              if w.kind = .value || endsPart .flowSequenceEnd w then some (absent w, more) else read true fuel after
          let (value, after) ← readFlowValue .flowSequenceEnd fuel after
          let (items, after) ← readFlowItems false fuel after
          some (mapping u.line [(key, value)] :: items, after)
        | _ => do
          let (item, after) ← read true fuel (u :: after)
          let (items, after) ← readFlowItems false fuel after
          some (item :: items, after)

/-- The entries of a flow mapping up to its end. One without a colon has no value. -/
def readFlowEntries (isFirst : Bool) : Nat → List Token → Option (List (Node × Node) × List Token)
  | 0, _ => none
  | _, [] => none
  | fuel + 1, t :: rest =>
    if t.kind = .flowMappingEnd then some ([], rest)
    else if !isFirst && t.kind ≠ .comma then none
    else
      match if isFirst then t :: rest else rest with
      | [] => none
      | u :: after =>
        match u.kind with
        | .flowMappingEnd => some ([], after)
        | .key => do
          let (key, after) ← match after with
            | [] => none
            | w :: _ =>
              if w.kind = .value || endsPart .flowMappingEnd w then some (absent w, after) else read true fuel after
          let (value, after) ← readFlowValue .flowMappingEnd fuel after
          let (entries, after) ← readFlowEntries false fuel after
          some ((key, value) :: entries, after)
        | _ => do
          let (key, after) ← read true fuel (u :: after)
          let value ← after.head?.map absent
          let (entries, after) ← readFlowEntries false fuel after
          some ((key, value) :: entries, after)

end

/-- The value of the first document, or none if there is no document. What follows the document is not looked
at, but it has to start with a token. -/
def readDocument (tokens : List Token) : Option (Option Node) :=
  let value (tokens : List Token) : Option (Option Node) := do
    let (node, after) ← read false (3 * tokens.length + 8) tokens
    if after.isEmpty then none else some (some node)
  match tokens with
  | [] => none
  | t :: rest =>
    match t.kind, rest with
    | .textEnd, _ => some none
    | .documentStart, [] => none
    | .documentStart, u :: _ =>
      if u.kind = .documentStart || u.kind = .documentEnd || u.kind = .textEnd then some (some (absent u))
      else value rest
    | _, _ => value tokens

/-- Whether a document may hold a character. -/
def isAllowed (c : Char) : Bool :=
  let n := c.toNat
  n = 0x9 || n = 0xa || n = 0xd || (0x20 ≤ n && n ≤ 0x7e) || n = 0x85 || (0xa0 ≤ n && n ≠ 0xfffe && n ≠ 0xffff)

/-- Reads the first document of a text; the outer none is for a malformed text, the inner one for an empty
text. A byte order mark at the start is no part of it. -/
def ofText? (text : String) : Option (Option Node) :=
  let chars := match text.toList with
    | '\ufeff' :: rest => rest
    | chars => chars
  if chars.all isAllowed then readDocument (Token.scan chars) else none

end Node

end MiddleEnd
