import MiddleEnd.Fault

/-!
The types of the values that flow through a graph, and the signatures of callables.
A variable may have no type at all (`none`), which counts as unknown wherever a kind is asked for.
-/
namespace MiddleEnd

/-- The tag of a type. -/
inductive Kind where
  | unknown
  | void
  | long
  | double
  | numeric
  | string
  | bool
  | null
  | zval
  | user
  | array
  deriving DecidableEq, Repr

namespace Kind

/-- The kinds in the order of their codes. -/
def all : List Kind :=
  [unknown, void, long, double, numeric, string, bool, null, zval, user, array]

def name : Kind → String
  | unknown => "unknown"
  | void => "void"
  | long => "long"
  | double => "double"
  | numeric => "numeric"
  | string => "string"
  | bool => "bool"
  | null => "null"
  | zval => "zval"
  | user => "user"
  | array => "array"

/-- The kind with a code, if there is one. -/
def ofCode? (code : Int) : Option Kind :=
  if code < 0 then none else all[code.toNat]?

/-- The name of the kind with a code; a code without a kind is named too. -/
def nameOfCode (code : Int) : String :=
  ((ofCode? code).map name).getD "invalid"

end Kind

/-- A type: one of the payload-free kinds, a named user type or an array. -/
inductive Ty where
  | unknown
  | void
  | long
  | double
  /-- Long or double, not decided yet. -/
  | numeric
  | string
  | bool
  | null
  /-- A dynamic value. -/
  | zval
  | user (name : String)
  | array (elem : Ty)
  deriving DecidableEq, Repr

namespace Ty

def kind : Ty → Kind
  | unknown => .unknown
  | void => .void
  | long => .long
  | double => .double
  | numeric => .numeric
  | string => .string
  | bool => .bool
  | null => .null
  | zval => .zval
  | user _ => .user
  | array _ => .array

/-- The written form: the kind's name, a user type's own name, or the element in `array(…)`. -/
def text : Ty → String
  | user name => name
  | array elem => "array(" ++ elem.text ++ ")"
  | t => t.kind.name

/-- The kind of a type that may be missing. -/
def kindOf : Option Ty → Kind
  | none => .unknown
  | some t => t.kind

/-- Whether a type has been inferred. -/
def isKnown (t : Option Ty) : Bool :=
  kindOf t != .unknown

/-- Long, double, or either of the two. -/
def isNumeric (t : Option Ty) : Bool :=
  match kindOf t with
  | .long | .double | .numeric => true
  | _ => false

/-- The array type of an element type, which has to be there. -/
def arrayOf : Option Ty → Except Fault Ty
  | some elem => .ok (array elem)
  | none => .error (.stated "types.NewArray: nil element type")

/-- The user type with a name, which must not be empty. -/
def userNamed (name : String) : Except Fault Ty :=
  if name = "" then .error (.stated "types.NewUser: empty name") else .ok (user name)

/-- The written form of a type that may be missing; a missing one reads as unknown. -/
def textOf : Option Ty → String
  | none => Kind.unknown.name
  | some t => t.text

/-- Whether a value of type `arg` may be passed where `param` is expected. -/
def compatible (param arg : Option Ty) : Bool :=
  match kindOf param, kindOf arg with
  | .unknown, _ | _, .unknown => true
  | .zval, _ => true
  | pk, ak =>
    param == arg
      || (ak == .numeric && (pk == .long || pk == .double))
      || (pk == .numeric && (ak == .long || ak == .double))
      || (pk == .double && ak == .long)

end Ty

/-- A callable: its parameter types in order, each possibly left open, and its result type. -/
structure Signature where
  params : List (Option Ty)
  result : Ty
  deriving DecidableEq, Repr

namespace Signature

/-- A signature whose missing result means that nothing is returned. -/
def make (params : List (Option Ty)) (result : Option Ty) : Signature :=
  ⟨params, result.getD .void⟩

/-- Takes nothing and returns nothing. -/
def empty : Signature :=
  make [] none

/-- The written form, such as `(long, string) double`; none while a parameter type is open. -/
def text? (s : Signature) : Option String :=
  (s.params.mapM id).map fun params =>
    "(" ++ ", ".intercalate (params.map Ty.text) ++ ") " ++ s.result.text

/-- The written form inside messages, which name a signature that cannot be shown as such. -/
def text (s : Signature) : String :=
  s.text?.getD "%!s(PANIC=String method: runtime error: invalid memory address or nil pointer dereference)"

end Signature

/-- The signatures of the callables known by name. -/
abbrev Signatures := List (String × Signature)

end MiddleEnd
