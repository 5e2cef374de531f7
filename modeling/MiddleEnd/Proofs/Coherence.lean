import Mathlib.Data.List.Find
import MiddleEnd.Proofs.Edits

/-!
Which write a read sees. A path leaves behind the variables that it wrote, the last one first
(`Graph.written`). Variables come in classes: `src` takes each to the source variable that it stands for, and a
graph is coherent when on every path a read names the version of its class that was written last, and a phi joins
it. Nothing is asked of a read that no write precedes.
-/
namespace MiddleEnd

/-- The variables that a vertex writes. -/
def Vertex.targets (v : Vertex) : List VarId :=
  v.writes.filterMap id

theorem Vertex.mem_targets {v : Vertex} {y : VarId} : y ∈ v.targets ↔ v.writesVar (some y) = true := by
  simp [targets, writesVar]

theorem Vertex.targets_of_op {v : Vertex} (ordinary : v.op ≠ .function) : v.targets = v.result.toList := by
  cases written : v.result <;> simp [targets, writes, ordinary, written]

theorem Vertex.references_iff {v : Vertex} {a : Option VarId} :
    v.references a = true ↔ v.result = a ∨ a ∈ v.args := by
  simp [references]

theorem Vertex.references_eq_false_iff {v : Vertex} {a : Option VarId} :
    v.references a = false ↔ v.result ≠ a ∧ a ∉ v.args := by
  simp [references]

theorem Vertex.references_of_mem_targets {v : Vertex} {y : VarId} (writes : y ∈ v.targets) :
    v.references (some y) = true := by
  by_cases isFunction : v.op = .function
  · have arg : some y ∈ v.args := by simpa [targets, Vertex.writes, isFunction] using writes
    simp [references, arg]
  · have result : v.result = some y := by simpa [targets_of_op isFunction] using writes
    simp [references, result]

theorem Vertex.references_of_mem_reads {v : Vertex} {y : VarId} (read : some y ∈ v.reads) :
    v.references (some y) = true := by
  rw [reads] at read
  split at read
  · simp at read
  · exact references_iff.mpr (.inr read)

theorem Vertex.references_congr {v w : Vertex} (same : v.core = w.core) (a : Option VarId) :
    v.references a = w.references a := by
  obtain ⟨_, _, _, result, args, _⟩ := core_eq_iff.mp same
  rw [references, references, result, args]

theorem Vertex.targets_congr {v w : Vertex} (same : v.core = w.core) : v.targets = w.targets := by
  rw [targets, targets, writes_congr same]

namespace Graph

variable {g h : Graph} {v : VertexId} {past : List VertexId} {p : VarId → Bool}

/-- The variables written along a path, the last one first. -/
def written (g : Graph) (past : List VertexId) : List VarId :=
  past.reverse.flatMap fun v => (g.vertex v).targets

/-- The variable with the property that was written last. -/
def latest (g : Graph) (p : VarId → Bool) (past : List VertexId) : Option VarId :=
  (g.written past).find? p

@[simp] theorem written_nil : g.written [] = [] := rfl

@[simp] theorem written_concat : g.written (past ++ [v]) = (g.vertex v).targets ++ g.written past := by
  simp [written]

@[simp] theorem latest_nil : g.latest p [] = none := rfl

theorem latest_concat :
    g.latest p (past ++ [v]) = ((g.vertex v).targets.find? p).or (g.latest p past) := by
  rw [latest, written_concat, List.find?_append, latest]

/-- A vertex that writes nothing with the property does not matter. -/
theorem latest_concat_of_silent (silent : ∀ y ∈ (g.vertex v).targets, p y = false) :
    g.latest p (past ++ [v]) = g.latest p past := by
  have none : (g.vertex v).targets.find? p = none := by
    rw [List.find?_eq_none]
    exact fun y member => by simp [silent y member]
  rw [latest_concat, none, Option.none_or]

theorem latest_concat_of_target {y : VarId} (only : (g.vertex v).targets = [y]) (holds : p y = true) :
    g.latest p (past ++ [v]) = some y := by
  rw [latest_concat, only]
  simp [holds]

theorem mem_written {y : VarId} : y ∈ g.written past ↔ ∃ v ∈ past, y ∈ (g.vertex v).targets := by
  simp [written]

/-- What was written last is the same for properties that agree on what is written. -/
theorem latest_congr {q : VarId → Bool} (same : ∀ v ∈ past, ∀ y ∈ (g.vertex v).targets, p y = q y) :
    g.latest p past = g.latest q past := by
  refine List.find?_congr fun y member => ?_
  obtain ⟨v, passed, writes⟩ := mem_written.mp member
  exact same v passed y writes

/-- Vertices that write nothing with the property may be left out of a path, and the others may change as long as
they write the same with it. -/
theorem latest_filter {q : VarId → Bool} {n : Nat}
    (old : ∀ v ∈ past, v < n → (h.vertex v).targets.find? p = (g.vertex v).targets.find? q)
    (new : ∀ v ∈ past, n ≤ v → (h.vertex v).targets.find? p = none) :
    h.latest p past = g.latest q (past.filter (· < n)) := by
  rw [latest, latest, written, written, List.find?_flatMap, List.find?_flatMap, List.filter_reverse.symm]
  have each : ∀ v ∈ past.reverse, (v < n → (h.vertex v).targets.find? p = (g.vertex v).targets.find? q) ∧
      (n ≤ v → (h.vertex v).targets.find? p = none) :=
    fun v member => ⟨old v (List.mem_reverse.mp member), new v (List.mem_reverse.mp member)⟩
  generalize past.reverse = passed at each ⊢
  induction passed with
  | nil => rfl
  | cons v rest ih =>
    have later := ih fun w member => each w (List.mem_cons_of_mem _ member)
    obtain ⟨old, new⟩ := each v List.mem_cons_self
    rcases Nat.lt_or_ge v n with lt | ge
    · rw [List.filter_cons_of_pos (by simpa using lt), List.findSome?_cons, List.findSome?_cons, old lt, later]
    · rw [List.filter_cons_of_neg (by simpa using ge), List.findSome?_cons, new ge, later]

theorem latest_holds {y : VarId} (found : g.latest p past = some y) : p y = true :=
  List.find?_some found

/-- What was written last was written by one of the vertices passed. -/
theorem writer_of_latest {y : VarId} (found : g.latest p past = some y) :
    ∃ v ∈ past, y ∈ (g.vertex v).targets :=
  mem_written.mp (List.mem_of_find?_eq_some found)

/-- Paths through vertices that write the same leave the same behind. -/
theorem written_congr (same : ∀ v ∈ past, (h.vertex v).targets = (g.vertex v).targets) :
    h.written past = g.written past := by
  simp only [written, List.flatMap_def]
  congr 1
  exact List.map_congr_left fun v member => same v (List.mem_reverse.mp member)

/-- On every path, a read names the version of its class that was written last, and a phi has it among its
inputs or as its result. The inputs of a phi are versions of what it writes. -/
structure Coherent (g : Graph) (src : VarId → VarId) : Prop where
  reads : ∀ {past u y w}, Trail g.succs g.entry past u → g.op u ≠ .phi → some y ∈ (g.vertex u).reads →
    g.latest (fun z => src z = src y) past = some w → w = y
  joins : ∀ {past u r w}, Trail g.succs g.entry past u → g.op u = .phi → (g.vertex u).result = some r →
    g.latest (fun z => src z = src r) past = some w → w = r ∨ some w ∈ (g.vertex u).args
  inputs : ∀ {u r y}, Reachable g.succs g.entry u → g.op u = .phi → (g.vertex u).result = some r →
    some y ∈ (g.vertex u).args → src y = src r

end Graph

end MiddleEnd
