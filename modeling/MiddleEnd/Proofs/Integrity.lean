import MiddleEnd.Proofs.Dominance
import MiddleEnd.Proofs.Edits

/-!
What a graph that passes the integrity check is like. The check is a list of violations, so passing it means
that every part of the list is empty; each part gives one fact about each vertex. Together with them goes
`Graph.Scoped`, which says that the numbers of variables stand for variables.
-/
namespace MiddleEnd

namespace Graph

variable {g : Graph} {v : VertexId}

theorem reportIf_eq_nil {broken : Bool} {violation : Corruption} : reportIf broken violation = [] ↔ broken = false := by
  cases broken <;> simp [reportIf]

/-- What the integrity check asks of one vertex, its edges aside. -/
structure VertexSound (g : Graph) (v : VertexId) : Prop where
  valid : (g.op v).isValid = true
  owned : g.contains v = true
  succCount : (g.succs v).length = (g.op v).numSuccs
  returns : g.op v = .ret → (g.succs v).head? = some g.exit
  onlyEntry : g.op v = .function → v = g.entry
  onlyExit : g.op v = .finish → v = g.exit
  result : (g.vertex v).result.isSome = (g.op v).info.hasResult
  writesVariable : ∀ x, (g.vertex v).result = some x → (g.var x).isConst = false
  argCount : ∀ n, (g.op v).info.numArgs = some n → (g.vertex v).args.length = n
  returnCount : g.op v = .ret → (g.vertex v).args.length ≤ 1
  operands : none ∉ (g.vertex v).args
  operator : g.op v = .binary → (g.vertex v).binOp.isValid = true

/-- What the integrity check asks of a graph. -/
structure Sound (g : Graph) : Prop where
  entryOp : g.op g.entry = .function
  exitOp : g.op g.exit = .finish
  entryPreds : g.preds g.entry = []
  exitListed : g.exit ∈ g.listed
  vertices : ∀ v ∈ g.listed, g.VertexSound v
  wired : g.Wired

/-- A vertex with a valid operation is in the store. -/
theorem VertexSound.lt_size (sound : g.VertexSound v) : v < g.store.size := by
  rw [← Nat.not_le]
  intro outside
  have valid := sound.valid
  rw [op, vertex_of_ge outside] at valid
  exact absurd valid (by decide)

theorem vertexSound_of_violations (none : g.vertexViolations v = []) : g.VertexSound v := by
  rw [vertexViolations] at none
  split at none
  · simp at none
  · rename_i valid
    simp only [List.append_eq_nil_iff] at none
    obtain ⟨⟨⟨shape, operands⟩, _⟩, _⟩ := none
    simp only [shapeViolations, List.append_eq_nil_iff, reportIf_eq_nil] at shape
    obtain ⟨⟨⟨⟨owned, succCount⟩, returns⟩, onlyEntry⟩, onlyExit⟩ := shape
    simp only [operandViolations, List.append_eq_nil_iff, reportIf_eq_nil] at operands
    obtain ⟨⟨⟨⟨result, argCount⟩, returnCount⟩, args⟩, operator⟩ := operands
    refine ⟨?_, ?_, ?_, ?_, ?_, ?_, ?_, ?_, ?_, ?_, ?_, ?_⟩
    · simpa [op] using valid
    · simpa [contains] using owned
    · simpa [succs, op] using succCount
    · intro isRet
      have one : (g.vertex v).succs.length = 1 := by
        have counted : (g.vertex v).succs.length = (g.vertex v).op.numSuccs := by simpa using succCount
        rw [counted, show (g.vertex v).op = .ret from isRet]
        rfl
      simpa [show (g.vertex v).op = .ret from isRet, one, succs] using returns
    · intro isFunction
      simpa [show (g.vertex v).op = .function from isFunction] using onlyEntry
    · intro isFinish
      simpa [show (g.vertex v).op = .finish from isFinish] using onlyExit
    · cases written : (g.vertex v).result with
      | none => simpa [written, reportIf_eq_nil, op] using result
      | some x =>
        simp only [written, List.append_eq_nil_iff, reportIf_eq_nil] at result
        simpa [op] using result.1.symm
    · intro x written
      simp only [written, List.append_eq_nil_iff, reportIf_eq_nil] at result
      exact result.2
    · intro n fixed
      rw [show (g.vertex v).op.info.numArgs = some n from fixed] at argCount
      simpa [reportIf_eq_nil] using argCount
    · intro isRet
      simpa [show (g.vertex v).op = .ret from isRet] using returnCount
    · intro missing
      obtain ⟨i, at_i⟩ := List.mem_iff_getElem?.mp missing
      rw [List.flatMap_eq_nil_iff] at args
      have := args (none, i) (List.mem_zipIdx_iff_getElem?.mpr at_i)
      simp [reportIf] at this
    · intro isBinary
      simpa [show (g.vertex v).op = .binary from isBinary] using operator

theorem edges_of_violations (none : g.vertexViolations v = []) :
    (∀ s ∈ g.succs v, s ∈ g.listed ∧ (g.preds s).count v = (g.succs v).count s) ∧
    ∀ p ∈ g.preds v, p ∈ g.listed ∧ v ∈ g.succs p := by
  rw [vertexViolations] at none
  split at none
  · simp at none
  · simp only [List.append_eq_nil_iff] at none
    obtain ⟨_, edges⟩ := none
    simp only [edgeViolations, List.append_eq_nil_iff, List.flatMap_eq_nil_iff] at edges
    obtain ⟨forward, backward⟩ := edges
    constructor
    · intro s edge
      have fine := forward s edge
      split at fine
      · rename_i listed
        exact ⟨by simpa using listed, by simpa [reportIf_eq_nil, succs] using fine⟩
      · simp at fine
    · intro p edge
      have fine := backward p edge
      split at fine
      · rename_i listed
        exact ⟨by simpa using listed, by simpa [reportIf_eq_nil, succs] using fine⟩
      · simp at fine

/-- Edges are counted from their sources only, and their targets are asked no more than whether the source knows of them.
This is enough for every pair of vertices: where the source knows of no edge, the target has none either. -/
theorem counts_of_violations (none : ∀ v ∈ g.listed, g.vertexViolations v = []) :
    ∀ u ∈ g.listed, ∀ v ∈ g.listed, (g.succs u).count v = (g.preds v).count u := by
  intro u source v target
  by_cases edge : v ∈ g.succs u
  · exact ((edges_of_violations (none u source)).1 v edge).2.symm
  · have absent : u ∉ g.preds v := fun back => edge ((edges_of_violations (none v target)).2 u back).2
    rw [List.count_eq_zero.mpr edge, List.count_eq_zero.mpr absent]

theorem verify_eq_none : g.verify = none ↔ g.violations = [] := by
  rw [verify]
  cases g.violations <;> simp [Failure.ofViolations]

/-- A graph that passes the integrity check is sound. -/
theorem sound_of_verify (passes : g.verify = none) : g.Sound := by
  have none := verify_eq_none.mp passes
  rw [violations] at none
  split at none
  · simp at none
  · split at none
    · simp at none
    · rename_i entryOp exitOp
      simp only [List.append_eq_nil_iff, reportIf_eq_nil, List.flatMap_eq_nil_iff] at none
      obtain ⟨⟨entryPreds, ends⟩, vertices⟩ := none
      have endsListed : g.entry ∈ g.listed ∧ g.exit ∈ g.listed := by simpa using ends
      have sound (v : VertexId) (member : v ∈ g.listed) : g.VertexSound v := vertexSound_of_violations (vertices v member)
      refine ⟨by simpa using entryOp, by simpa using exitOp, by simpa using entryPreds, endsListed.2, sound, ?_⟩
      refine ⟨endsListed.1, fun v member => (sound v member).lt_size,
        fun v member s edge => ((edges_of_violations (vertices v member)).1 s edge).1,
        fun v member p edge => ((edges_of_violations (vertices v member)).2 p edge).1, counts_of_violations vertices⟩

/-! ### What sound graphs are like -/

namespace VertexSound

theorem args_eq_nil (sound : g.VertexSound v) (fixed : (g.op v).info.numArgs = some 0) : (g.vertex v).args = [] :=
  List.eq_nil_of_length_eq_zero (sound.argCount 0 fixed)

theorem succs_eq_nil (sound : g.VertexSound v) (last : g.op v = .finish) : g.succs v = [] :=
  List.eq_nil_of_length_eq_zero (by rw [sound.succCount, last]; rfl)

theorem succs_eq_singleton (sound : g.VertexSound v) (one : (g.op v).numSuccs = 1) : ∃ s, g.succs v = [s] :=
  List.length_eq_one_iff.mp (by rw [sound.succCount, one])

theorem result_eq_none (sound : g.VertexSound v) (silent : (g.op v).info.hasResult = false) :
    (g.vertex v).result = none := by
  rw [← Option.not_isSome_iff_eq_none, sound.result, silent]
  simp

end VertexSound

namespace Sound

theorem vertex (sound : g.Sound) (reached : Reachable g.succs g.entry v) : g.VertexSound v :=
  sound.vertices v (sound.wired.listed_of_reachable reached)

/-- No edge leads back to the entry. -/
theorem entry_notMem_succs (sound : g.Sound) (member : v ∈ g.listed) : g.entry ∉ g.succs v := by
  rw [sound.wired.mem_preds_iff member sound.wired.entry_listed, sound.entryPreds]
  simp

theorem past_eq_nil (sound : g.Sound) {past : List VertexId} (trail : Trail g.succs g.entry past g.entry) :
    past = [] :=
  trail.eq_nil_of_no_edge fun _ reached => sound.entry_notMem_succs (sound.wired.listed_of_reachable reached)

/-- Without missing operands the variables of the graph can be listed. -/
theorem exists_mentioned (sound : g.Sound) : ∃ xs, g.mentioned? = some xs ∧ xs.Nodup := by
  have complete : g.listed.any (fun v => (g.vertex v).args.contains none) = false := by
    simp only [List.any_eq_false, List.contains_iff_mem]
    exact fun v member => (sound.vertices v member).operands
  have mentioned : ∃ xs, g.mentioned? = some xs := ⟨_, by rw [mentioned?, complete]; rfl⟩
  exact mentioned.imp fun xs isMentioned => ⟨isMentioned, nodup_of_mentioned? isMentioned⟩

end Sound

/-- Every variable that a listed vertex mentions is one of the graph's. -/
def Scoped (g : Graph) : Prop :=
  ∀ v ∈ g.listed, ∀ x, (g.vertex v).references (some x) = true → x < g.vars.size

instance : Decidable g.Scoped :=
  decidable_of_iff (∀ v ∈ g.listed, ∀ x ∈ (g.vertex v).mentioned.filterMap id, x < g.vars.size) <| by
    refine forall_congr' fun v => forall_congr' fun _ => forall_congr' fun x => ?_
    rw [show x ∈ (g.vertex v).mentioned.filterMap id ↔ (g.vertex v).references (some x) = true from ?_]
    simp only [Vertex.mentioned, Vertex.references]
    cases written : (g.vertex v).result with
    | none => simp
    | some y => grind

end Graph

end MiddleEnd
