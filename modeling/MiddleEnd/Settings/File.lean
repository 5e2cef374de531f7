import MiddleEnd.Binary64
import MiddleEnd.Document.Node
import MiddleEnd.Document.Scalar
import MiddleEnd.Settings
import MiddleEnd.Text.Utf8

/-!
Settings in a file: a mapping from names to scalars. Names that are no setting are passed over, and a null
leaves a setting as it is. All mistakes of a file are reported together.
-/
namespace MiddleEnd

namespace Settings

/-- Something in a file that does not fit. -/
inductive Mistake where
  /-- A value of the wrong kind; a collection has no text. -/
  | mismatch (line : Nat) (tag : String) (text : Option String) (target : String)
  /-- A key that was there before. -/
  | repeated (line : Nat) (key : String) (first : Nat)
  deriving DecidableEq, Repr

namespace Mistake

/-- A value in a message: at most ten bytes, or seven of a longer one. -/
def shown (text : String) : String :=
  let bytes := utf8Bytes text
  if bytes.length ≤ 10 then text
  else String.ofList ((Piece.ofBytes (bytes.take 7)).map Piece.toChar) ++ "..."

def message : Mistake → String
  | mismatch line tag text target =>
    let value := match text with
      | some t => " `" ++ shown t ++ "`"
      | none => ""
    s!"line {line}: cannot unmarshal {tag}{value} into {target}"
  | repeated line key first => s!"line {line}: mapping key {quoted key} already defined at line {first}"

end Mistake

/-- The text of a scalar; a collection has none. -/
def nodeText : Node → String
  | .scalar _ _ text => text
  | _ => ""

/-- Whether two keys are the same. Collections of one kind are not told apart. -/
def sameKey : Node → Node → Bool
  | .scalar _ _ text, .scalar _ _ text' => text = text'
  | .sequence _ _, .sequence _ _ => true
  | .mapping _ _, .mapping _ _ => true
  | _, _ => false

/-- The keys of a mapping that were there before, by the first of them. -/
def repeatedKeys : List (Node × Node) → List Mistake
  | [] => []
  | (key, _) :: entries =>
    let repeats := (entries.filter fun e => sameKey key e.1).map fun e =>
      Mistake.repeated e.1.line (nodeText e.1) key.line
    repeats ++ repeatedKeys entries

/-- The mistakes of a value where a scalar is wanted. -/
def mismatches (target : String) : Node → List Mistake
  | .scalar line true text => [.mismatch line "!!str" (some text) target]
  | .scalar line false text => [.mismatch line (Scalar.ofPlain text).tag (some text) target]
  | .sequence line _ => [.mismatch line "!!seq" none target]
  | .mapping line entries =>
    match repeatedKeys entries with
    | [] => [.mismatch line "!!map" none target]
    | repeats => repeats

/-- What a scalar node stands for; none for a collection. -/
def scalarOf? : Node → Option Scalar
  | .scalar _ true text => some (.text text)
  | .scalar _ false text => some (Scalar.ofPlain text)
  | _ => none

/-- The whole number that a scalar gives a setting. A double is rounded toward zero; it may not be above the
range of 64 bits, and the least number stands for those below. -/
def numberOf? : Scalar → Option Int
  | .int n => if n ≤ Int64.maxValue.toInt then some n else none
  | .float x =>
    if x ≤ 9223372036854775808.0 then
      match Binary64.ofFloat? x with
      | some b => some b.toInt64.toInt
      | none => some Int64.minValue.toInt
    else none
  | _ => none

/-- The truth value that a scalar gives a setting; some words count too. -/
def flagOf? : Scalar → Option Bool
  | .bool b => some b
  | .text s =>
    if ["y", "Y", "yes", "Yes", "YES", "on", "On", "ON"].contains s then some true
    else if ["n", "N", "no", "No", "NO", "off", "Off", "OFF"].contains s then some false
    else none
  | _ => none

/-- Sets one setting from a value. -/
def assign (s : Settings) (field : Field) (node : Node) : Settings × List Mistake :=
  match scalarOf? node, field with
  | some .null, _ => (s, [])
  | some v, .number put => match numberOf? v with
    | some n => (put s n, [])
    | none => (s, mismatches "int" node)
  | some v, .flag put => match flagOf? v with
    | some b => (put s b, [])
    | none => (s, mismatches "bool" node)
  | some _, .text put => (put s (nodeText node), [])
  | none, .number _ => (s, mismatches "int" node)
  | none, .flag _ => (s, mismatches "bool" node)
  | none, .text _ => (s, mismatches "string" node)

/-- Takes one entry of a file. -/
def assignEntry (s : Settings) (key value : Node) : Settings × List Mistake :=
  match scalarOf? key with
  | some .null => (s, [])
  | some _ =>
    match fields.lookup (nodeText key) with
    | some field => s.assign field value
    | none => (s, [])
  | none => (s, mismatches "string" key)

/-- Takes the entries of a mapping, with the mistakes found. -/
def assignEntries (s : Settings) (entries : List (Node × Node)) : Settings × List Mistake :=
  match repeatedKeys entries with
  | [] => entries.foldl (fun (s, mistakes) (key, value) =>
      let (s, more) := s.assignEntry key value
      (s, mistakes ++ more)) (s, [])
  | repeats => (s, repeats)

/-- Whether a key stands for the entries of another mapping. -/
def isMergeKey : Node → Bool
  | .scalar _ false "<<" => true
  | _ => false

/-- The mappings that a value of a merge key names; none if it is no mapping and no sequence of mappings. -/
def mergedMappings? : Node → Option (List (List (Node × Node)))
  | .mapping _ entries => some [entries]
  | .sequence _ items => items.mapM fun
    | .mapping _ entries => some entries
    | _ => none
  | _ => none

/-- The entries that mappings add to others, each key as it is found first. -/
def mergeEntries (entries : List (Node × Node)) : List (List (Node × Node)) → List (Node × Node)
  | [] => []
  | more :: rest =>
    let added := more.filter fun e => !entries.any fun taken => sameKey taken.1 e.1
    added ++ mergeEntries (entries ++ added) rest

/-- Takes the settings of a file, with the mistakes found; none if a merge key has no mapping to merge. -/
def assignAll (s : Settings) : Node → Option (Settings × List Mistake)
  | .mapping _ entries => do
    let own := entries.filter fun e => !isMergeKey e.1
    match repeatedKeys entries, entries.find? fun e => isMergeKey e.1 with
    | [], some (_, source) =>
      let (s, mistakes) := s.assignEntries own
      let (s, more) := s.assignEntries (mergeEntries own (← mergedMappings? source))
      some (s, mistakes ++ more)
    | _, _ => some (s.assignEntries entries)
  | node =>
    match scalarOf? node with
    | some .null => some (s, [])
    | _ => some (s, mismatches "config.Config" node)

/-- Why settings cannot be loaded. -/
inductive LoadProblem where
  | unreadable (path reason : String)
  | malformed (path : String)
  | mistaken (path : String) (mistakes : List Mistake)
  | unusable (problem : Problem)
  deriving DecidableEq, Repr

def LoadProblem.message : LoadProblem → String
  | unreadable path reason => s!"read config file {path}: {reason}"
  | malformed path => s!"parse config file {path}: yaml: malformed document"
  | mistaken path mistakes =>
    s!"parse config file {path}: yaml: unmarshal errors:" ++ String.join (mistakes.map fun m => "\n  " ++ m.message)
  | unusable problem => problem.message

/-- Loads settings from the environment alone. -/
def load (processors : Nat) (lookup : String → Option String) : Except LoadProblem Settings :=
  ((initial processors).finish lookup).mapError .unusable

/-- Loads settings from a file, of which `content` is the text or the reason why there is none. The
environment has the last word. -/
def loadFile (processors : Nat) (lookup : String → Option String) (path : String)
    (content : Except String String) : Except LoadProblem Settings := do
  let text ← content.mapError (.unreadable path)
  let s ← match Node.ofText? text with
    | none => throw (.malformed path)
    | some none => pure (initial processors)
    | some (some node) =>
      match (initial processors).assignAll node with
      | none => throw (.malformed path)
      | some (s, []) => pure s
      | some (_, mistakes) => throw (.mistaken path mistakes)
  (s.finish lookup).mapError .unusable

end Settings

end MiddleEnd
