import Mathlib.Algebra.Ring.Nat
import MiddleEnd.Proofs.Relabeling

/-!
Types that get more precise. A type goes from unknown over numeric to any other and then stays (`Ty.Advances`); how far it
can still go is its `slack`. `Graph.Refined` says of a change of types that it is of this kind, and how much of the slack it
takes.
-/
namespace MiddleEnd

/-- How often a type can still be refined. -/
def Ty.slack (t : Option Ty) : Nat :=
  match kindOf t with
  | .unknown => 2
  | .numeric => 1
  | _ => 0

theorem Ty.slack_le {t : Option Ty} (known : isKnown t = true) : slack t ≤ 1 := by
  rw [isKnown, bne_iff_ne] at known
  rw [slack]
  split
  · contradiction
  · exact Nat.le_refl _
  · exact Nat.zero_le _

theorem Ty.slack_of_unknown {t : Option Ty} (unknown : isKnown t = false) : slack t = 2 := by
  rw [isKnown, bne_eq_false_iff_eq] at unknown
  rw [slack, unknown]

theorem Ty.slack_le_two (t : Option Ty) : slack t ≤ 2 := by
  rw [slack]
  split <;> decide

theorem Ty.slack_lt {t : Option Ty} {u : Ty} (known : u.kind ≠ .unknown) (refinable : (kindOf t).isRefinable = true)
    (other : t ≠ some u) : slack (some u) < slack t := by
  have le : slack (some u) ≤ 1 := slack_le (by simpa [isKnown, kindOf] using known)
  match t with
  | none => exact Nat.lt_succ_of_le le
  | some .unknown => exact Nat.lt_succ_of_le le
  | some .numeric => cases u <;> simp_all [slack, kindOf, kind]

theorem Ty.kind_ne_unknown_of_isKnown {t : Option Ty} (known : isKnown t = true) :
    ∀ u, t = some u → u.kind ≠ .unknown := by
  rintro u rfl
  simpa [isKnown, kindOf] using known

theorem Ty.kind_ne_unknown {t : Ty} (other : t ≠ .unknown) : t.kind ≠ .unknown := by
  cases t <;> simp_all [kind]

theorem Literal.kind_ty (c : Literal) : c.ty.kind ≠ .unknown := by
  cases c <;> simp [ty, Ty.kind]

theorem Ty.eq_numeric_of_isRefinable {t : Option Ty} (refinable : (kindOf t).isRefinable = true)
    (known : isKnown t = true) : t = some .numeric := by
  match t with
  | some .numeric => rfl

/-- A known type stays, or becomes one that leaves less open. -/
def Ty.Advances (s t : Option Ty) : Prop :=
  isKnown s = true → t = s ∨ slack t < slack s

instance (s t : Option Ty) : Decidable (Ty.Advances s t) :=
  inferInstanceAs (Decidable (_ → _))

namespace Ty.Advances

variable {s t u : Option Ty}

theorem refl : Advances t t :=
  fun _ => .inl rfl

theorem of_unknown (unknown : isKnown s = false) : Advances s t :=
  fun known => absurd known (by simp [unknown])

theorem slack_le_slack (advances : Advances s t) : slack t ≤ slack s := by
  cases known : isKnown s with
  | false => exact slack_of_unknown known ▸ slack_le_two t
  | true =>
    rcases advances known with rfl | less
    · exact Nat.le_refl _
    · exact Nat.le_of_lt less

theorem of_slack (less : slack t < slack s) : Advances s t :=
  fun _ => .inr less

theorem isKnown_of_isKnown (advances : Advances s t) (known : isKnown s = true) : isKnown t = true := by
  rcases advances known with rfl | less
  · exact known
  · have le := slack_le known
    by_contra unknown
    rw [slack_of_unknown (by simpa using unknown)] at less
    omega

theorem trans (first : Advances s t) (second : Advances t u) : Advances s u := by
  intro known
  rcases first known with rfl | less
  · exact second known
  · rcases second (first.isKnown_of_isKnown known) with rfl | less'
    · exact .inr less
    · exact .inr (Nat.lt_trans less' less)

/-- The only type that advances to numeric, except for an unknown one, is numeric. -/
theorem eq_numeric (advances : Advances s (some .numeric)) (known : isKnown s = true) : s = some .numeric := by
  rcases advances known with same | less
  · exact same.symm
  · have le := slack_le known
    have numeric : slack (some .numeric) = 1 := rfl
    omega

end Ty.Advances

namespace Graph

variable {g h k : Graph} {x : VarId} {t : Option Ty}

/-- How often the types of the variables can still be refined. -/
def slack (g : Graph) : Nat :=
  (g.vars.toList.map fun x => Ty.slack x.type).sum

theorem sum_modify {α : Type} (weight : α → Nat) (f : α → α) (l : List α) (i : Nat) :
    ((l.modify i f).map weight).sum + (l[i]?.map weight).getD 0 =
      (l.map weight).sum + (l[i]?.map fun a => weight (f a)).getD 0 := by
  induction l generalizing i with
  | nil => simp
  | cons a l ih =>
    cases i with
    | zero => simp [List.modify_zero_cons]; omega
    | succ i =>
      have := ih i
      simp only [List.modify_succ_cons, List.map_cons, List.sum_cons, List.getElem?_cons_succ] at this ⊢
      omega

theorem slack_setVarType (inside : x < g.vars.size) :
    (g.setVarType x t).slack + Ty.slack (g.var x).type = g.slack + Ty.slack t := by
  have at_x : g.vars.toList[x]? = some (g.var x) := by
    simp [var, Array.getD_eq_getD_getElem?, inside]
  have sum := sum_modify (fun x : Variable => Ty.slack x.type) (fun v => { v with type := t }) g.vars.toList x
  rw [at_x] at sum
  simpa [slack, setVarType, modifyVar] using sum

theorem setVarType_of_ge (outside : g.vars.size ≤ x) : g.setVarType x t = g := by
  have same : g.vars.modify x (fun v => { v with type := t }) = g.vars := by
    apply Array.ext'
    rw [Array.toList_modify]
    exact List.modify_eq_self (by simpa using outside)
  rw [setVarType, modifyVar, same]

theorem type_setVarType {y : VarId} :
    ((g.setVarType x t).var y).type = if x = y ∧ x < g.vars.size then t else (g.var y).type := by
  simp only [setVarType, modifyVar, var, Array.getD_eq_getD_getElem?, Array.getElem?_modify]
  by_cases same : x = y
  · subst same
    rcases Nat.lt_or_ge x g.vars.size with inside | outside
    · simp [inside]
    · simp [Nat.not_lt.mpr outside]
  · simp [same]

/-- From `g` to `h` all types advance. -/
structure Advanced (g h : Graph) : Prop where
  sig : h.sig = g.sig
  types : ∀ x, Ty.Advances (g.var x).type (h.var x).type

namespace Advanced

theorem refl : g.Advanced g :=
  ⟨rfl, fun _ => .refl⟩

theorem trans (first : g.Advanced h) (second : h.Advanced k) : g.Advanced k :=
  ⟨second.sig.trans first.sig, fun x => (first.types x).trans (second.types x)⟩

theorem of_vars (sig : h.sig = g.sig) (vars : h.vars = g.vars) : g.Advanced h :=
  ⟨sig, fun x => by rw [var, var, vars]; exact .refl⟩

theorem setVarType (advances : Ty.Advances (g.var x).type t) : g.Advanced (g.setVarType x t) := by
  refine ⟨rfl, fun y => ?_⟩
  rw [type_setVarType]
  split
  · rename_i same
    exact same.1 ▸ advances
  · exact .refl

theorem addConst {value : Literal} : g.Advanced (g.addConst value) := by
  refine ⟨rfl, fun y => ?_⟩
  by_cases new : y = g.vars.size
  · refine .of_unknown ?_
    rw [var, Array.getD_eq_getD_getElem?, Array.getElem?_eq_none (Nat.le_of_eq new.symm)]
    rfl
  · have same : (g.addConst value).var y = g.var y := by
      simp only [var, Graph.addConst, Array.getD_eq_getD_getElem?, Array.getElem?_push, if_neg new]
    rw [same]
    exact .refl

end Advanced

/-- `h` is `g` with types that advanced, `n` of them or more. -/
structure Refined (g h : Graph) (n : Nat) : Prop where
  retyped : g.Retyped h
  types : ∀ x, Ty.Advances (g.var x).type (h.var x).type
  slack : h.slack + n ≤ g.slack

namespace Refined

theorem refl : g.Refined g 0 :=
  ⟨.refl, fun _ => .refl, Nat.le_refl _⟩

theorem trans {m n : Nat} (first : g.Refined h m) (second : h.Refined k n) : g.Refined k (m + n) :=
  ⟨first.retyped.trans second.retyped, fun x => (first.types x).trans (second.types x),
    by have := first.slack; have := second.slack; omega⟩

theorem mono {m n : Nat} (refined : g.Refined h m) (le : n ≤ m) : g.Refined h n :=
  ⟨refined.retyped, refined.types, by have := refined.slack; omega⟩

theorem advanced {n : Nat} (refined : g.Refined h n) : g.Advanced h :=
  ⟨refined.retyped.sig, refined.types⟩

theorem setVarType_lt (inside : x < g.vars.size) (less : Ty.slack t < Ty.slack (g.var x).type) :
    g.Refined (g.setVarType x t) 1 :=
  ⟨.setVarType x t, (Advanced.setVarType (.of_slack less)).types, by have := slack_setVarType (t := t) inside; omega⟩

theorem setVarType (advances : Ty.Advances (g.var x).type t) : g.Refined (g.setVarType x t) 0 := by
  rcases Nat.lt_or_ge x g.vars.size with inside | outside
  · refine ⟨.setVarType x t, (Advanced.setVarType advances).types, ?_⟩
    have := slack_setVarType (t := t) inside
    have := advances.slack_le_slack
    omega
  · rw [setVarType_of_ge outside]
    exact .refl

end Refined

end Graph

/-! ### Operators -/

/-- The types that operators have are known if there are any. -/
theorem inferBinary_known {op : BinOp} {x y : Option Ty} {t : Option Ty} (infers : inferBinary op x y = .ok t) :
    ∀ u, t = some u → u.kind ≠ .unknown := by
  rintro u rfl
  unfold inferBinary at infers
  cases op <;> simp [BinOp.isComparison] at infers <;> grind [Ty.kind]

theorem inferUnary_known {op : Op} {x t : Option Ty} (infers : inferUnary op x = .ok t) :
    ∀ u, t = some u → u.kind ≠ .unknown := by
  rintro u rfl
  unfold inferUnary at infers
  grind [Ty.kind]

theorem inferBinary_error {op : BinOp} {x y : Option Ty} {why : Failure} (fails : inferBinary op x y = .error why) :
    ∃ cause, why = .unsupported cause := by
  unfold inferBinary at fails
  grind

theorem inferUnary_error {op : Op} {x : Option Ty} {why : Failure} (isUnary : op = .boolNot ∨ op = .bitNot)
    (fails : inferUnary op x = .error why) : ∃ cause, why = .unsupported cause := by
  unfold inferUnary at fails
  rcases isUnary with rfl | rfl <;> grind

end MiddleEnd
