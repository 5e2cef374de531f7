import MiddleEnd.Graph.Edit
import MiddleEnd.Inference

/-!
Joining the types of several variables, and the actions on graphs that rules are made of.
-/
namespace MiddleEnd

namespace Graph

/-- The different types of some variables, in the order of their first occurrence. -/
def distinctTypes (g : Graph) (xs : List VarId) : List Ty :=
  (xs.map fun x => (g.var x).type.getD .unknown).eraseDups

/-- The type next to numeric in a list of two types. -/
def pairedWithNumeric? : List Ty → Option Ty
  | [a, b] => if a = .numeric then some b else if b = .numeric then some a else none
  | _ => none

end Graph

/-- The operand at an index, which has to be there. -/
def operand (w : Vertex) (i : Nat) : Action Graph VarId :=
  Action.need (w.args[i]?).join

/-- Gives `x` the type `t` while its own can still be refined, and says whether it changed. -/
def refineType (x : Option VarId) : Option Ty → Action Graph Bool
  | none => return false
  | some t => do
    let x ← Action.need x
    let v := (← get).var x
    if v.isConst || !v.kind.isRefinable || v.type == some t then return false
    modify (·.setVarType x (some t))
    return true

/-- Splices a vertex out of the graph. -/
def spliceOut (v : VertexId) : Action Graph Unit := do
  match (← get).remove v with
  | .error why => Action.fail why
  | .ok g => set g

end MiddleEnd
