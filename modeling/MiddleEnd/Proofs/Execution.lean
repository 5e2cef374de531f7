import Mathlib.Computability.StateTransition
import MiddleEnd.Literal.Fold
import MiddleEnd.Proofs.Coherence

/-!
Running a graph. A run stands at a vertex and remembers what was written, in order, because a phi takes over the
value of that one of its inputs and its result that was written last. What can be seen of a run are its outputs, its
calls and the value it returns. The values, what operators do with them and what calls are answered are left open
(`Meaning`), but for constants, on which operators have to do what folding them does.

Two graphs behave alike (`Graph.SameRuns`) when their runs begin with the same events and end with the same ones.
-/
namespace MiddleEnd

/-- What can be seen of a run. -/
inductive Event (V : Type) where
  | echo (values : List V)
  | call (callee : String) (values : List V)
  | returned (value : Option V)

/-- What programs do with the values `V`. -/
structure Meaning (V : Type) where
  /-- What a variable holds that was not written. -/
  undefined : V
  literal : Literal → V
  truthy : V → Bool
  binary : BinOp → V → V → V
  unary : Op → V → V
  /-- What a call is answered; it may depend on everything seen so far. -/
  answer : List (Event V) → String → List V → V
  truthy_literal : ∀ c, truthy (literal c) = c.truthy
  binary_literal : ∀ {op a b c}, Literal.foldBinary op a b = some c → binary op (literal a) (literal b) = literal c
  unary_literal : ∀ {op a c}, Literal.foldUnary op a = some c → unary op (literal a) = literal c

/-- A run under way. -/
structure Machine (V : Type) where
  vertex : VertexId
  /-- The writes so far, the last one first. -/
  memory : List (VarId × V)
  /-- The events so far, in order. -/
  trace : List (Event V)

variable {V : Type}

/-- The value that was written last to a variable with the property. -/
def lastValue (p : VarId → Bool) (memory : List (VarId × V)) : Option V :=
  (memory.find? fun e => p e.1).map Prod.snd

section lastValue
variable {p : VarId → Bool} {memory older : List (VarId × V)}

@[simp] theorem lastValue_nil : lastValue p ([] : List (VarId × V)) = none := rfl

theorem lastValue_append : lastValue p (memory ++ older) = (lastValue p memory).or (lastValue p older) := by
  rw [lastValue, List.find?_append]
  cases found : memory.find? fun e => p e.1 <;> simp [lastValue, found]

theorem lastValue_filter {keep : VarId → Bool} (kept : ∀ x, p x = true → keep x = true) :
    lastValue p (memory.filter fun e => keep e.1) = lastValue p memory := by
  rw [lastValue, lastValue, List.find?_filter]
  congr 1
  refine List.find?_congr fun e _ => ?_
  cases holds : p e.1 with
  | false => simp
  | true => simp [kept e.1 holds]

theorem lastValue_map {f : VarId → VarId} :
    lastValue p (memory.map fun e => (f e.1, e.2)) = lastValue (fun x => p (f x)) memory := by
  rw [lastValue, lastValue, List.find?_map, Option.map_map]
  rfl

end lastValue

namespace Graph

variable (m : Meaning V) (arguments : Nat → V) (g : Graph)

/-- The value of an operand. -/
def valueOf (memory : List (VarId × V)) : Option VarId → V
  | none => m.undefined
  | some x =>
    match (g.var x).value with
    | some c => m.literal c
    | none => (lastValue (· = x) memory).getD m.undefined

/-- The values of the operands of the vertex that a run stands at. -/
def operands (s : Machine V) : List V :=
  (g.vertex s.vertex).args.map (g.valueOf m s.memory)

/-- The value that the vertex computes. -/
def computed (s : Machine V) : V :=
  let v := g.vertex s.vertex
  let values := g.operands m s
  match v.op with
  | .assign => values.getD 0 m.undefined
  | .binary => m.binary v.binOp (values.getD 0 m.undefined) (values.getD 1 m.undefined)
  | .boolNot | .bitNot => m.unary v.op (values.getD 0 m.undefined)
  | .phi => (lastValue (fun x => v.references (some x)) s.memory).getD m.undefined
  | .call | .selfCall => m.answer s.trace v.callee values
  | _ => m.undefined

/-- What the vertex writes: its result, or the arguments at the entry. -/
def writing (s : Machine V) : List (VarId × V) :=
  let v := g.vertex s.vertex
  if v.op = .function then v.args.zipIdx.filterMap fun (a, i) => a.map (·, arguments i)
  else v.result.toList.map (·, g.computed m s)

/-- What is seen of the vertex. -/
def showing (s : Machine V) : List (Event V) :=
  let v := g.vertex s.vertex
  match v.op with
  | .echo => [.echo (g.operands m s)]
  | .call | .selfCall => [.call v.callee (g.operands m s)]
  | .ret => [.returned (g.operands m s).head?]
  | _ => []

/-- Which of the successors is next. -/
def choice (s : Machine V) : Nat :=
  if g.op s.vertex = .jumpIf ∧ m.truthy ((g.operands m s).getD 0 m.undefined) = false then 1 else 0

/-- One step of a run; none where there is no next vertex. -/
def step (s : Machine V) : Option (Machine V) :=
  (g.succs s.vertex)[g.choice m s]?.map fun next =>
    ⟨next, g.writing m arguments s ++ s.memory, s.trace ++ g.showing m s⟩

/-- The start of a run. -/
def start : Machine V :=
  ⟨g.entry, [], []⟩

/-- A run comes to the state `s`. -/
def Visits (s : Machine V) : Prop :=
  StateTransition.Reaches (g.step m arguments) g.start s

/-- Runs begin with the events of `trace`. -/
def Shows (trace : List (Event V)) : Prop :=
  ∃ s, g.Visits m arguments s ∧ trace <+: s.trace

/-- Runs end, after the events of `trace`. -/
def Ends (trace : List (Event V)) : Prop :=
  ∃ s, g.Visits m arguments s ∧ g.step m arguments s = none ∧ s.trace = trace

/-- Two graphs behave alike. -/
structure SameRuns (g h : Graph) : Prop where
  shows : ∀ trace, g.Shows m arguments trace ↔ h.Shows m arguments trace
  ends : ∀ trace, g.Ends m arguments trace ↔ h.Ends m arguments trace

variable {m arguments g}

theorem step_eq_some {s s' : Machine V} (stepped : g.step m arguments s = some s') :
    (g.succs s.vertex)[g.choice m s]? = some s'.vertex ∧ s'.memory = g.writing m arguments s ++ s.memory ∧
      s'.trace = s.trace ++ g.showing m s := by
  obtain ⟨next, chosen, rfl⟩ := Option.map_eq_some_iff.mp stepped
  exact ⟨chosen, rfl, rfl⟩

/-- An operand that is a constant has the value of that constant. -/
theorem getD_operands {s : Machine V} {i : Nat} {x : VarId} {c : Literal}
    (arg : ((g.vertex s.vertex).args[i]?).join = some x) (value : (g.var x).value = some c) :
    (g.operands m s).getD i m.undefined = m.literal c := by
  have is : (g.vertex s.vertex).args[i]? = some (some x) := Option.join_eq_some_iff.mp arg
  simp [operands, is, valueOf, value]

/-- The variables written are the targets of the vertex. -/
theorem map_fst_writing (s : Machine V) :
    (g.writing m arguments s).map Prod.fst = (g.vertex s.vertex).targets := by
  rw [writing]
  dsimp only
  split
  · rename_i isFunction
    rw [Vertex.targets, Vertex.writes, if_pos isFunction, List.map_filterMap]
    generalize (g.vertex s.vertex).args = args
    have indexed (k : Nat) : (args.zipIdx k).filterMap (fun x => Option.map Prod.fst (x.1.map (·, arguments x.2))) =
        args.filterMap id := by
      induction args generalizing k with
      | nil => rfl
      | cons a args ih =>
        rw [List.zipIdx_cons, List.filterMap_cons, List.filterMap_cons, ih]
        cases a <;> rfl
    exact indexed 0
  · rename_i ordinary
    rw [Vertex.targets_of_op ordinary, List.map_map]
    exact List.map_id _

/-- A run follows a path, and remembers the variables written along it. -/
theorem Visits.exists_trail {s : Machine V} (visits : g.Visits m arguments s) :
    ∃ past, Trail g.succs g.entry past s.vertex ∧ s.memory.map Prod.fst = g.written past := by
  induction visits with
  | refl => exact ⟨[], .start, rfl⟩
  | @tail s s' _ stepped ih =>
    obtain ⟨past, trail, keys⟩ := ih
    obtain ⟨chosen, memory, _⟩ := step_eq_some stepped
    refine ⟨past ++ [s.vertex], trail.step (List.mem_of_getElem? chosen), ?_⟩
    rw [memory, List.map_append, map_fst_writing, keys, written_concat]

/-- Runs end in one way. -/
theorem Ends.unique {trace trace' : List (Event V)} (first : g.Ends m arguments trace) (second : g.Ends m arguments trace') :
    trace = trace' := by
  obtain ⟨s, visits, stopped, rfl⟩ := first
  obtain ⟨s', visits', stopped', rfl⟩ := second
  have same : s = s' := Part.mem_unique (StateTransition.mem_eval.mpr ⟨visits, stopped⟩)
    (StateTransition.mem_eval.mpr ⟨visits', stopped'⟩)
  rw [same]

theorem Visits.reachable {s : Machine V} (visits : g.Visits m arguments s) : Reachable g.succs g.entry s.vertex := by
  obtain ⟨past, trail, _⟩ := visits.exists_trail
  exact trail.reachable

end Graph

end MiddleEnd
