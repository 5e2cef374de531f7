/-!
The operations a vertex can perform, and the operators of a binary operation. Every integer is
the code of an operation and of an operator; the codes outside the tables are kept as they are,
so that a graph with a damaged vertex can still be stored, shown and rejected.
-/
namespace MiddleEnd

/-- What a vertex does. -/
inductive Op where
  | invalid
  /-- The entry; its operands are the parameters, which it defines. -/
  | function
  /-- The exit. -/
  | finish
  /-- Does nothing: a merge point and jump target. -/
  | label
  | assign
  | binary
  | boolNot
  | bitNot
  /-- Takes the operand that belongs to the edge it was entered by. -/
  | phi
  | call
  /-- A call of the function that is being compiled. -/
  | selfCall
  | echo
  /-- Releases its operand. -/
  | free
  | jump
  /-- Goes to the first successor if the operand is truthy, else to the second. -/
  | jumpIf
  | ret
  | unlisted (code : Int) (outside : code < 0 ∨ 15 < code)
  deriving DecidableEq, Repr

/-- What all vertices of an operation have in common. -/
structure OpInfo where
  name : String
  hasResult : Bool := false
  /-- Has no effect but its result, so it may go when the result is unused. -/
  idempotent : Bool := false
  /-- Transfers control explicitly. -/
  branch : Bool := false
  /-- The operand count; none when it varies. -/
  numArgs : Option Nat := some 0
  deriving DecidableEq, Repr

namespace Op

/-- The listed operations in the order of their codes. -/
def listed : List Op :=
  [invalid, function, finish, label, assign, binary, boolNot, bitNot, phi, call, selfCall, echo, free,
    jump, jumpIf, ret]

def code : Op → Int
  | invalid => 0
  | function => 1
  | finish => 2
  | label => 3
  | assign => 4
  | binary => 5
  | boolNot => 6
  | bitNot => 7
  | phi => 8
  | call => 9
  | selfCall => 10
  | echo => 11
  | free => 12
  | jump => 13
  | jumpIf => 14
  | ret => 15
  | unlisted n _ => n

def ofCode (n : Int) : Op :=
  if outside : n < 0 ∨ 15 < n then unlisted n outside else (listed[n.toNat]?).getD invalid

def info : Op → OpInfo
  | invalid => { name := "Invalid" }
  | function => { name := "Function", numArgs := none }
  | finish => { name := "End" }
  | label => { name := "Label" }
  | assign => { name := "Assign", hasResult := true, idempotent := true, numArgs := some 1 }
  | binary => { name := "BinaryOp", hasResult := true, idempotent := true, numArgs := some 2 }
  | boolNot => { name := "BooleanNot", hasResult := true, idempotent := true, numArgs := some 1 }
  | bitNot => { name := "BitwiseNot", hasResult := true, idempotent := true, numArgs := some 1 }
  | phi => { name := "Phi", hasResult := true, idempotent := true, numArgs := none }
  | call => { name := "FunctionCall", hasResult := true, numArgs := none }
  | selfCall => { name := "RecursiveCall", hasResult := true, numArgs := none }
  | echo => { name := "Echo", numArgs := none }
  | free => { name := "Free", numArgs := some 1 }
  | jump => { name := "Jump", branch := true }
  | jumpIf => { name := "JumpIf", branch := true, numArgs := some 1 }
  | ret => { name := "Return", numArgs := none }
  | unlisted _ _ => { name := "unknown" }

def name (op : Op) : String :=
  op.info.name

/-- Whether a graph may hold a vertex of this operation. -/
def isValid : Op → Bool
  | invalid | unlisted _ _ => false
  | _ => true

/-- How many successors a vertex of this operation has. -/
def numSuccs : Op → Nat
  | finish => 0
  | jumpIf => 2
  | _ => 1

/-- The operation with a name, if it is listed. -/
def ofName? (name : String) : Option Op :=
  listed.find? (·.name == name)

end Op

/-- The operator of a binary operation. -/
inductive BinOp where
  | invalid
  | concat
  | plus
  | minus
  | mul
  | div
  | mod
  | equal
  | notEqual
  | identical
  | notIdentical
  | greater
  | greaterEqual
  | smaller
  | smallerEqual
  | bitAnd
  | bitOr
  | bitXor
  | shiftLeft
  | shiftRight
  | unlisted (code : Int) (outside : code < 0 ∨ 19 < code)
  deriving DecidableEq, Repr

namespace BinOp

/-- The listed operators in the order of their codes. -/
def listed : List BinOp :=
  [invalid, concat, plus, minus, mul, div, mod, equal, notEqual, identical, notIdentical, greater,
    greaterEqual, smaller, smallerEqual, bitAnd, bitOr, bitXor, shiftLeft, shiftRight]

def code : BinOp → Int
  | invalid => 0
  | concat => 1
  | plus => 2
  | minus => 3
  | mul => 4
  | div => 5
  | mod => 6
  | equal => 7
  | notEqual => 8
  | identical => 9
  | notIdentical => 10
  | greater => 11
  | greaterEqual => 12
  | smaller => 13
  | smallerEqual => 14
  | bitAnd => 15
  | bitOr => 16
  | bitXor => 17
  | shiftLeft => 18
  | shiftRight => 19
  | unlisted n _ => n

def ofCode (n : Int) : BinOp :=
  if outside : n < 0 ∨ 19 < n then unlisted n outside else (listed[n.toNat]?).getD invalid

def symbol : BinOp → String
  | concat => "."
  | plus => "+"
  | minus => "-"
  | mul => "*"
  | div => "/"
  | mod => "%"
  | equal => "=="
  | notEqual => "!="
  | identical => "==="
  | notIdentical => "!=="
  | greater => ">"
  | greaterEqual => ">="
  | smaller => "<"
  | smallerEqual => "<="
  | bitAnd => "&"
  | bitOr => "|"
  | bitXor => "^"
  | shiftLeft => "<<"
  | shiftRight => ">>"
  | invalid | unlisted _ _ => "?"

/-- Whether a graph may hold a binary operation with this operator. -/
def isValid : BinOp → Bool
  | invalid | unlisted _ _ => false
  | _ => true

/-- The arithmetic whose result type follows from its operands. -/
def isArithmetic : BinOp → Bool
  | plus | minus | mul | mod => true
  | _ => false

def isComparison : BinOp → Bool
  | equal | notEqual | identical | notIdentical | greater | greaterEqual | smaller | smallerEqual => true
  | _ => false

def isBitwise : BinOp → Bool
  | bitAnd | bitOr | bitXor | shiftLeft | shiftRight => true
  | _ => false

def ofSymbol? (symbol : String) : Option BinOp :=
  listed.find? (·.symbol == symbol)

end BinOp

end MiddleEnd
