import MiddleEnd.Proofs.Integrity
import MiddleEnd.Proofs.Rewiring

/-!
The integrity check asks for exactly two things: a sound graph, and phis whose inputs are sets without the result
(`Graph.verify_eq_none_iff`).
-/
namespace MiddleEnd

/-- No input of the phi stands there twice, and none is the result. -/
def Vertex.InputsApart (w : Vertex) : Prop :=
  w.args.Nodup ∧ w.result ∉ w.args

namespace Vertex.InputsApart

variable {w w' : Vertex} {a : Option VarId}

theorem congr (apart : w.InputsApart) (result : w'.result = w.result) (args : w'.args = w.args) : w'.InputsApart := by
  rwa [InputsApart, result, args]

theorem addPhiInput (apart : w.InputsApart) : (w.addPhiInput a).InputsApart := by
  rw [Vertex.addPhiInput]
  split
  · rename_i taken
    obtain ⟨⟨_, notResult⟩, fresh⟩ : (a.isSome = true ∧ a ≠ w.result) ∧ a ∉ w.args := by
      simpa [takesPhiInput] using taken
    refine ⟨?_, by simpa using ⟨apart.2, Ne.symm notResult⟩⟩
    refine List.nodup_append.mpr ⟨apart.1, by simp, ?_⟩
    rintro b member c isA rfl
    exact fresh (List.mem_singleton.mp isA ▸ member)
  · exact apart

theorem removePhiInput (apart : w.InputsApart) : (w.removePhiInput a).InputsApart :=
  ⟨apart.1.erase a, fun member => apart.2 (List.mem_of_mem_erase member)⟩

theorem replaceArgs (apart : w.InputsApart) (isPhi : w.op = .phi) (old new : Option VarId) :
    (w.replaceArgs old new).InputsApart := by
  rw [Vertex.replaceArgs]
  split
  · exact apart.removePhiInput.addPhiInput
  · exact apart

theorem replaceVariable (apart : w.InputsApart) (isPhi : w.op = .phi) (old new : Option VarId) :
    (w.replaceVariable old new).InputsApart := by
  have operands := apart.replaceArgs isPhi old new
  have op : (w.replaceArgs old new).op = .phi := by
    rw [Vertex.replaceArgs]
    split
    · rw [Vertex.addPhiInput]
      split <;> exact isPhi
    · exact isPhi
  rw [Vertex.replaceVariable]
  dsimp only
  split
  · exact ⟨operands.1.erase new, operands.1.not_mem_erase⟩
  · exact operands

end Vertex.InputsApart

namespace Graph

variable {g : Graph} {v : VertexId}

def PhiSets (g : Graph) : Prop :=
  ∀ v ∈ g.listed, g.op v = .phi → (g.vertex v).InputsApart

/-- What the integrity check asks of a graph and of its phis. -/
structure Verified (g : Graph) : Prop where
  sound : g.Sound
  phiSets : g.PhiSets

theorem phiViolations_eq_nil {result : Option VarId} {seen args : List (Option VarId)} :
    g.phiViolations v result seen args = [] ↔ args.Nodup ∧ result ∉ args ∧ ∀ a ∈ args, a ∉ seen := by
  induction args generalizing seen with
  | nil => simp [phiViolations]
  | cons a args ih =>
    simp only [phiViolations, List.append_eq_nil_iff, reportIf_eq_nil, ih, List.nodup_cons, List.mem_cons]
    grind

theorem shapeViolations_eq_nil (sound : g.VertexSound v) : g.shapeViolations v = [] := by
  have returns := sound.returns
  have onlyEntry := sound.onlyEntry
  have onlyExit := sound.onlyExit
  simp only [shapeViolations, List.append_eq_nil_iff, reportIf_eq_nil]
  refine ⟨⟨⟨⟨?_, ?_⟩, ?_⟩, ?_⟩, ?_⟩
  · simpa [contains] using sound.owned
  · simpa [succs, op] using sound.succCount
  · simp only [op, succs] at returns
    grind
  · simp only [op] at onlyEntry
    grind
  · simp only [op] at onlyExit
    grind

theorem operandViolations_eq_nil (sound : g.VertexSound v) : g.operandViolations v = [] := by
  have result := sound.result
  have returnCount := sound.returnCount
  have operator := sound.operator
  simp only [op] at result returnCount operator
  simp only [operandViolations, List.append_eq_nil_iff, reportIf_eq_nil]
  refine ⟨⟨⟨⟨?_, ?_⟩, ?_⟩, ?_⟩, ?_⟩
  · cases written : (g.vertex v).result with
    | none => rw [written] at result; exact reportIf_eq_nil.mpr result.symm
    | some x =>
      have computes : (g.vertex v).op.info.hasResult = true := by rw [← result, written]; rfl
      simp [computes, sound.writesVariable x written, reportIf]
  · cases fixed : (g.vertex v).op.info.numArgs with
    | none => rfl
    | some n => simpa [reportIf_eq_nil] using sound.argCount n fixed
  · grind
  · rw [List.flatMap_eq_nil_iff]
    rintro ⟨a, i⟩ member
    rw [reportIf_eq_nil, Option.isNone_eq_false_iff, Option.isSome_iff_ne_none]
    rintro rfl
    exact sound.operands (List.mem_of_getElem? (List.mem_zipIdx_iff_getElem?.mp member))
  · grind

theorem edgeViolations_eq_nil (wired : g.Wired) (member : v ∈ g.listed) : g.edgeViolations v = [] := by
  simp only [edgeViolations, List.append_eq_nil_iff, List.flatMap_eq_nil_iff]
  constructor
  · intro s edge
    have listed := wired.succs_listed v member s edge
    rw [if_pos (by simpa using listed), reportIf_eq_nil, bne_eq_false_iff_eq]
    exact (wired.counts v member s listed).symm
  · intro p edge
    have listed := wired.preds_listed v member p edge
    rw [if_pos (by simpa using listed), reportIf_eq_nil]
    simpa using (wired.mem_preds_iff listed member).mpr edge

theorem vertexViolations_eq_nil (verified : g.Verified) (member : v ∈ g.listed) : g.vertexViolations v = [] := by
  have sound := verified.sound.vertices v member
  have phi : (if (g.vertex v).op == .phi then g.phiViolations v (g.vertex v).result [] (g.vertex v).args else []) = [] := by
    split
    · rename_i isPhi
      obtain ⟨once, foreign⟩ := verified.phiSets v member (by simpa [op] using isPhi)
      exact phiViolations_eq_nil.mpr ⟨once, foreign, by simp⟩
    · rfl
  rw [vertexViolations, if_neg (by simpa [op] using sound.valid), shapeViolations_eq_nil sound,
    operandViolations_eq_nil sound, phi, edgeViolations_eq_nil verified.sound.wired member]
  rfl

theorem phiSets_of_verify (passes : g.verify = none) : g.PhiSets := by
  have none := verify_eq_none.mp passes
  have ends := sound_of_verify passes
  rw [violations, if_neg (by simp [ends.entryOp]), if_neg (by simp [ends.exitOp]), List.append_eq_nil_iff,
    List.flatMap_eq_nil_iff] at none
  intro v member isPhi
  have fine := none.2 v member
  rw [vertexViolations, if_neg (by simpa [op] using (ends.vertices v member).valid)] at fine
  simp only [List.append_eq_nil_iff, if_pos (show ((g.vertex v).op == .phi) = true by simpa [op] using isPhi)] at fine
  obtain ⟨once, foreign, _⟩ := phiViolations_eq_nil.mp fine.1.2
  exact ⟨once, foreign⟩

/-- Exactly the sound graphs whose phis have sets of inputs pass the integrity check. -/
theorem verify_eq_none_iff : g.verify = none ↔ g.Verified := by
  refine ⟨fun passes => ⟨sound_of_verify passes, phiSets_of_verify passes⟩, fun verified => ?_⟩
  have sound := verified.sound
  have listed := List.flatMap_eq_nil_iff.mpr fun v => vertexViolations_eq_nil verified
  rw [verify_eq_none, violations, if_neg (by simp [sound.entryOp]), if_neg (by simp [sound.exitOp]), listed]
  simp [reportIf, sound.entryPreds, sound.wired.entry_listed, sound.exitListed]

/-- The integrity check passes exactly the well-formed graphs: those whose ends are listed, the entry as a function without
predecessors, whose listed vertices are sound and lead to and come from listed vertices only, with sets for the inputs of a
phi, and where any two of them list the edges between them equally often. -/
theorem verify_passes_iff (g : Graph) :
    g.verify = none ↔
      (g.entry ∈ g.listed ∧ g.op g.entry = .function ∧ g.preds g.entry = []) ∧
      (g.exit ∈ g.listed ∧ g.op g.exit = .finish) ∧
      (∀ v ∈ g.listed, g.VertexSound v) ∧
      (∀ v ∈ g.listed, g.op v = .phi → (g.vertex v).args.Nodup ∧ (g.vertex v).result ∉ (g.vertex v).args) ∧
      (∀ v ∈ g.listed, (∀ s ∈ g.succs v, s ∈ g.listed) ∧ ∀ p ∈ g.preds v, p ∈ g.listed) ∧
      ∀ u ∈ g.listed, ∀ v ∈ g.listed, (g.succs u).count v = (g.preds v).count u := by
  rw [verify_eq_none_iff]
  constructor
  · rintro ⟨sound, phiSets⟩
    have wired := sound.wired
    exact ⟨⟨wired.entry_listed, sound.entryOp, sound.entryPreds⟩, ⟨sound.exitListed, sound.exitOp⟩, sound.vertices, phiSets,
      fun v member => ⟨wired.succs_listed v member, wired.preds_listed v member⟩, wired.counts⟩
  · rintro ⟨⟨entryListed, entryOp, entryPreds⟩, ⟨exitListed, exitOp⟩, vertices, phiSets, inside, counts⟩
    have wired : g.Wired := ⟨entryListed, fun v member => (vertices v member).lt_size, fun v member => (inside v member).1,
      fun v member => (inside v member).2, counts⟩
    exact ⟨⟨entryOp, exitOp, entryPreds, exitListed, vertices, wired⟩, phiSets⟩

/-- A vertex that keeps all but its edges stays sound, if its edges are as many and a return still leads to the exit. -/
theorem VertexSound.congr {h : Graph} (sound : g.VertexSound v) (body : (h.vertex v).body = (g.vertex v).body)
    (entry : h.entry = g.entry) (exit : h.exit = g.exit) (isConst : ∀ x, (h.var x).isConst = (g.var x).isConst)
    (degree : (h.succs v).length = (g.succs v).length) (returns : g.op v = .ret → (h.succs v).head? = some g.exit) :
    h.VertexSound v := by
  obtain ⟨op, binOp, _, result, args, owned⟩ := Vertex.body_eq_iff.mp body
  have sameOp : h.op v = g.op v := op
  refine ⟨?_, ?_, ?_, ?_, ?_, ?_, ?_, ?_, ?_, ?_, ?_, ?_⟩
  · rw [sameOp]; exact sound.valid
  · rw [contains, owned]; exact sound.owned
  · rw [degree, sameOp]; exact sound.succCount
  · rw [sameOp, exit]; exact returns
  · rw [sameOp, entry]; exact sound.onlyEntry
  · rw [sameOp, exit]; exact sound.onlyExit
  · rw [sameOp, result]; exact sound.result
  · intro x written
    rw [isConst]
    exact sound.writesVariable x (result ▸ written)
  · rw [sameOp, args]; exact sound.argCount
  · rw [sameOp, args]; exact sound.returnCount
  · rw [args]; exact sound.operands
  · rw [sameOp, binOp]; exact sound.operator

end Graph

end MiddleEnd
