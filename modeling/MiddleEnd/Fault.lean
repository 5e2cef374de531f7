/-!
Faults: operations on something that is not there, and broken preconditions.
-/
namespace MiddleEnd

/-- An operation that cannot be carried out. -/
inductive Fault where
  /-- A variable, operand or type that is not there was needed. -/
  | missing
  | stated (text : String)
  deriving DecidableEq, Repr

def Fault.text : Fault → String
  | missing => "runtime error"
  | stated text => text

end MiddleEnd
