import MiddleEnd.Proofs.Optimizing.Rules
import MiddleEnd.Proofs.Verified

/-!
The optimizer keeps graphs intact. In the middle of a sweep a graph need not pass the integrity check: a vertex that cannot
be reached loses successors when others like it are pruned. So the number of successors is asked of the other vertices only
(`Graph.Intact`), and all else of every vertex (`Graph.Proper`). When nothing is left to prune, the graph passes the check
(`Graph.Intact.verified`).
-/
namespace MiddleEnd

/-- A phi whose inputs are there and apart. -/
def Vertex.Joins (w : Vertex) : Prop :=
  w.op = .phi → w.InputsApart ∧ none ∉ w.args

theorem Vertex.Joins.replaceVariable {w : Vertex} (joins : w.Joins) (y z : VarId) :
    (w.replaceVariable (some y) (some z)).Joins := by
  obtain ⟨args, eq⟩ := w.replaceVariable_eq (some y) (some z)
  intro isPhi
  have isPhi : w.op = .phi := by rwa [eq] at isPhi
  obtain ⟨apart, operands⟩ := joins isPhi
  refine ⟨apart.replaceVariable isPhi _ _, fun missing => ?_⟩
  by_cases same : y = z
  · simp [same, Vertex.replaceVariable, replaceArgs, changesArgs, operands] at missing
  · rcases mem_args_replaceVariable isPhi (by simpa using same) missing with before | ⟨isNew, _⟩
    · exact operands before
    · simp at isNew

/-- Operations that do the same have the same form. -/
theorem Op.Alike.sameForm {o o' : Op} (alike : o.Alike o') : o'.isValid = o.isValid ∧ o'.info.hasResult = o.info.hasResult ∧
    o'.info.numArgs = o.info.numArgs ∧ o'.numSuccs = o.numSuccs := by
  rcases alike with rfl | ⟨rfl, rfl⟩
  · exact ⟨rfl, rfl, rfl, rfl⟩
  · exact ⟨rfl, rfl, rfl, rfl⟩

namespace Graph

variable {src ρ : VarId → VarId} {g h : Graph} {v : VertexId} {x : VarId}

/-- Whether `x` is a variable of the graph, and not a constant. -/
def isLocal (g : Graph) (x : VarId) : Bool :=
  x < g.vars.size && !(g.var x).isConst

theorem isLocal_iff : g.isLocal x = true ↔ x < g.vars.size ∧ (g.var x).value = none := by
  simp [isLocal, Variable.isConst]

/-- What the integrity check asks of a vertex, apart from its edges. -/
structure Proper (g : Graph) (v : VertexId) : Prop where
  valid : (g.op v).isValid = true
  onlyEntry : g.op v = .function → v = g.entry
  onlyExit : g.op v = .finish → v = g.exit
  result : (g.vertex v).result.isSome = (g.op v).info.hasResult
  writes : ∀ {x}, (g.vertex v).result = some x → g.isLocal x = true
  known : ∀ {x}, some x ∈ (g.vertex v).args → x < g.vars.size
  argCount : ∀ n, (g.op v).info.numArgs = some n → (g.vertex v).args.length = n
  returnCount : g.op v = .ret → (g.vertex v).args.length ≤ 1
  operands : none ∉ (g.vertex v).args
  operator : g.op v = .binary → (g.vertex v).binOp.isValid = true
  apart : g.op v = .phi → (g.vertex v).InputsApart
  joins : g.op v = .phi → ∀ {x}, some x ∈ (g.vertex v).args → g.isLocal x = true

namespace Proper

/-- A vertex whose variables are renamed stays proper. -/
theorem renamed (proper : g.Proper v) (alike : (g.op v).Alike (h.op v)) (binOp : (h.vertex v).binOp = (g.vertex v).binOp)
    (entry : h.entry = g.entry) (exit : h.exit = g.exit) (locals : ∀ {x}, g.isLocal x = true → h.isLocal (ρ x) = true)
    (known : ∀ {x}, x < g.vars.size → ρ x < h.vars.size) (result : (h.vertex v).result = (g.vertex v).result.map ρ)
    (args : g.op v ≠ .phi → (h.vertex v).args = (g.vertex v).args.map (Option.map ρ))
    (phi : g.op v = .phi → (h.vertex v).InputsApart ∧ ∀ a ∈ (h.vertex v).args, ∃ x, a = some x ∧ h.isLocal x = true) :
    h.Proper v := by
  have visible {o : Op} (shown : o ≠ .call ∧ o ≠ .selfCall) : h.op v = o ↔ g.op v = o := by
    rcases alike with same | ⟨isCall, isSelfCall⟩
    · rw [same]
    · simp [isCall, isSelfCall, shown.1.symm, shown.2.symm]
  have isArg {x : VarId} (ordinary : g.op v ≠ .phi) (member : some x ∈ (h.vertex v).args) :
      ∃ y, some y ∈ (g.vertex v).args ∧ ρ y = x := by
    rw [args ordinary, List.mem_map] at member
    obtain ⟨a, member, same⟩ := member
    obtain ⟨y, rfl, rfl⟩ := Option.map_eq_some_iff.mp same
    exact ⟨y, member, rfl⟩
  have isInput {a : Option VarId} (isPhi : g.op v = .phi) (member : a ∈ (h.vertex v).args) :
      ∃ x, a = some x ∧ h.isLocal x = true := (phi isPhi).2 a member
  obtain ⟨valid, hasResult, numArgs, _⟩ := alike.sameForm
  refine ⟨?_, ?_, ?_, ?_, ?_, ?_, ?_, ?_, ?_, ?_, ?_, ?_⟩
  · rw [valid]
    exact proper.valid
  · rw [visible (by decide), entry]
    exact proper.onlyEntry
  · rw [visible (by decide), exit]
    exact proper.onlyExit
  · rw [result, Option.isSome_map, hasResult]
    exact proper.result
  · intro x written
    rw [result, Option.map_eq_some_iff] at written
    obtain ⟨y, written, rfl⟩ := written
    exact locals (proper.writes written)
  · intro x member
    by_cases isPhi : g.op v = .phi
    · obtain ⟨y, same, isLocal⟩ := isInput isPhi member
      rw [Option.some.inj same]
      exact (isLocal_iff.mp isLocal).1
    · obtain ⟨y, before, rfl⟩ := isArg isPhi member
      exact known (proper.known before)
  · intro n fixed
    rw [numArgs] at fixed
    have ordinary : g.op v ≠ .phi := fun isPhi => by simp [isPhi, Op.info] at fixed
    rw [args ordinary, List.length_map]
    exact proper.argCount n fixed
  · intro isRet
    rw [visible (by decide)] at isRet
    rw [args (by simp [isRet]), List.length_map]
    exact proper.returnCount isRet
  · intro missing
    by_cases isPhi : g.op v = .phi
    · obtain ⟨x, isSome, _⟩ := isInput isPhi missing
      simp at isSome
    · rw [args isPhi, List.mem_map] at missing
      obtain ⟨a, member, isNone⟩ := missing
      exact proper.operands (Option.map_eq_none_iff.mp isNone ▸ member)
  · rw [visible (by decide), binOp]
    exact proper.operator
  · rw [visible (by decide)]
    exact fun isPhi => (phi isPhi).1
  · intro isPhi x member
    rw [visible (by decide)] at isPhi
    obtain ⟨y, same, isLocal⟩ := isInput isPhi member
    rwa [Option.some.inj same]

/-- A vertex that keeps all but its edges stays proper. -/
theorem of_body (proper : g.Proper v) (body : (h.vertex v).body = (g.vertex v).body) (entry : h.entry = g.entry)
    (exit : h.exit = g.exit) (locals : ∀ {x}, g.isLocal x = true → h.isLocal x = true) (vars : g.vars.size ≤ h.vars.size) :
    h.Proper v := by
  obtain ⟨op, binOp, _, result, args, _⟩ := Vertex.body_eq_iff.mp body
  refine proper.renamed (ρ := id) (.inl op.symm) binOp entry exit locals (Nat.lt_of_lt_of_le · vars) (by simpa using result)
    (fun _ => by simpa using args) fun isPhi => ⟨(proper.apart isPhi).congr result args, fun a member => ?_⟩
  rw [args] at member
  cases a with
  | none => exact absurd member proper.operands
  | some x => exact ⟨x, rfl, locals (proper.joins isPhi member)⟩

end Proper

/-- A graph of which the integrity check could only say that vertices that cannot be reached lack successors. -/
structure Intact (g : Graph) : Prop extends Routed g where
  nodup : g.listed.Nodup
  contained : ∀ v ∈ g.listed, g.contains v = true
  proper : ∀ {v}, g.contains v = true → g.Proper v
  start : ∀ {v}, Reachable g.succs g.entry v → g.entry ∉ g.succs v
  succCount : ∀ {v}, g.Alive v → (g.succs v).length = (g.op v).numSuccs
  returns : ∀ {v}, Reachable g.succs g.entry v → g.op v = .ret → g.succs v = [g.exit]

namespace Intact

theorem succs_exit (intact : g.Intact) : g.succs g.exit = [] := by
  have none := intact.succCount (.inl rfl : g.Alive g.exit)
  rw [intact.exitOp] at none
  exact List.eq_nil_of_length_eq_zero none

/-- When nothing is left to prune, an intact graph passes the integrity check. -/
theorem verified (intact : g.Intact) (swept : ∀ {v}, g.contains v = true → g.Alive v) : g.Verified := by
  have alive {v : VertexId} (member : v ∈ g.listed) : g.Alive v := swept (intact.contained v member)
  refine ⟨⟨intact.entryOp, intact.exitOp, ?_, intact.exitListed, fun v member => ?_, intact.wired⟩, fun v member isPhi => ?_⟩
  · refine intact.wired.preds_eq_nil intact.wired.entry_listed fun u source edge => ?_
    rcases alive source with rfl | reached
    · simp [intact.succs_exit] at edge
    · exact intact.start reached edge
  · have proper := intact.proper (intact.contained v member)
    refine ⟨proper.valid, intact.contained v member, intact.succCount (alive member), fun isRet => ?_, proper.onlyEntry,
      proper.onlyExit, proper.result, fun x written => ?_, proper.argCount, proper.returnCount, proper.operands, proper.operator⟩
    · rcases alive member with rfl | reached
      · simp [intact.exitOp] at isRet
      · rw [intact.returns reached isRet]
        rfl
    · have isLocal := proper.writes written
      simpa [Graph.isLocal] using (Bool.and_eq_true_iff.mp isLocal).2
  · exact (intact.proper (intact.contained v member)).apart isPhi

end Intact

/-- Conversely, a graph that passes the check is intact, if its phis join variables and nothing else. -/
theorem Verified.intact (verified : g.Verified) (routed : g.Routed) (nodup : g.listed.Nodup) (inScope : g.Scoped)
    (joins : ∀ {v x}, v ∈ g.listed → g.op v = .phi → some x ∈ (g.vertex v).args → (g.var x).value = none) : g.Intact := by
  obtain ⟨sound, phiSets⟩ := verified
  exact { routed with
    nodup := nodup
    contained := fun v member => (sound.vertices v member).owned
    proper := fun {v} contains => by
      have member := routed.owned contains
      have vertex := sound.vertices v member
      have known {x : VarId} (arg : some x ∈ (g.vertex v).args) : x < g.vars.size :=
        inScope v member x (Vertex.references_iff.mpr (.inr arg))
      refine ⟨vertex.valid, vertex.onlyEntry, vertex.onlyExit, vertex.result, fun {x} written => ?_, known, vertex.argCount,
        vertex.returnCount, vertex.operands, vertex.operator, phiSets v member, fun isPhi {x} input => ?_⟩
      · have inside := inScope v member x (Vertex.references_iff.mpr (.inl written))
        simpa [isLocal, inside] using vertex.writesVariable x written
      · exact isLocal_iff.mpr ⟨known input, joins member isPhi input⟩
    start := fun {v} reached edge => by
      have isPred := (sound.wired.mem_preds_iff (routed.listed reached) sound.wired.entry_listed).mp edge
      simp [sound.entryPreds] at isPred
    succCount := fun {v} alive =>
      (sound.vertices v (alive.elim (fun isExit => isExit ▸ routed.exitListed) routed.listed)).succCount
    returns := fun {v} reached isRet => by
      have vertex := sound.vertices v (routed.listed reached)
      have count := vertex.succCount
      rw [isRet] at count
      obtain ⟨t, only⟩ := List.length_eq_one_iff.mp count
      have target := vertex.returns isRet
      rw [only] at target ⊢
      rw [Option.some.inj target] }

/-! ### Steps that leave the edges alone -/

theorem Intact.noted {found : Option (Nat × VertexSet)} (intact : g.Intact)
    (cached : ({ g with reach := found } : Graph).Cached) : ({ g with reach := found } : Graph).Intact :=
  { intact.toRouted.noted cached with
    nodup := intact.nodup
    contained := intact.contained
    proper := fun contains => (intact.proper contains).of_body rfl rfl rfl id (Nat.le_refl _)
    start := intact.start
    succCount := intact.succCount
    returns := intact.returns }

theorem Retyped.intact (retyped : g.Retyped h) (intact : g.Intact) : h.Intact := by
  have locals {x : VarId} (isLocal : g.isLocal x = true) : h.isLocal x = true := by
    rwa [isLocal_iff, retyped.vars, retyped.value, ← isLocal_iff]
  exact { retyped.routed intact.toRouted with
    nodup := retyped.listed ▸ intact.nodup
    contained := fun v member => by
      rw [retyped.contains]
      exact intact.contained v (retyped.listed ▸ member)
    proper := fun {v} contains => by
      rw [retyped.contains] at contains
      exact (intact.proper contains).of_body (by rw [retyped.vertex]) retyped.entry retyped.exit locals
        (Nat.le_of_eq retyped.vars.symm)
    start := by
      rw [retyped.succs, retyped.entry]
      exact intact.start
    succCount := fun {v} alive => by
      rw [Alive, retyped.succs, retyped.entry, retyped.exit] at alive
      rw [retyped.succs, retyped.op]
      exact intact.succCount alive
    returns := fun {v} reached isRet => by
      rw [retyped.succs, retyped.entry] at reached
      rw [retyped.op] at isRet
      rw [retyped.succs, retyped.exit]
      exact intact.returns reached isRet }

theorem Recalled.intact (recalled : g.Recalled h) (intact : g.Intact) : h.Intact := by
  have narrowed : Narrowed id g h := recalled.narrowed intact.toRouted
  have locals {x : VarId} (isLocal : g.isLocal x = true) : h.isLocal x = true := by
    rwa [Graph.isLocal, var, recalled.vars]
  exact { narrowed.routed intact.toRouted with
    nodup := recalled.listed ▸ intact.nodup
    contained := fun v member => by
      rw [recalled.contains]
      exact intact.contained v (recalled.listed ▸ member)
    proper := fun {v} contains => by
      rw [recalled.contains] at contains
      have proper := intact.proper contains
      obtain ⟨op, alike, vertex⟩ := recalled.vertex v
      refine proper.renamed (ρ := id) (recalled.op v) (by rw [vertex]) recalled.entry recalled.exit locals
        (by rw [recalled.vars]; exact id) (by simp [vertex]) (by simp [vertex]) fun isPhi => ?_
      refine ⟨(proper.apart isPhi).congr (by rw [vertex]) (by rw [vertex]), fun a member => ?_⟩
      rw [vertex] at member
      cases a with
      | none => exact absurd member proper.operands
      | some x => exact ⟨x, rfl, locals (proper.joins isPhi member)⟩
    start := by
      rw [recalled.succs, recalled.entry]
      exact intact.start
    succCount := fun {v} alive => by
      rw [Alive, recalled.succs, recalled.entry, recalled.exit] at alive
      rw [recalled.succs, (recalled.op v).sameForm.2.2.2]
      exact intact.succCount alive
    returns := fun {v} reached isRet => by
      rw [recalled.succs, recalled.entry] at reached
      rw [recalled.op_eq_iff v (by decide)] at isRet
      rw [recalled.succs, recalled.exit]
      exact intact.returns reached isRet }

/-! ### Steps that close ways -/

theorem BranchFolded.intact {taken : VertexId} (folded : g.BranchFolded h v taken) (intact : g.Intact) : h.Intact := by
  have narrowed : Narrowed id g h := folded.narrowed intact.toRouted
  have locals {x : VarId} (isLocal : g.isLocal x = true) : h.isLocal x = true := by
    rwa [Graph.isLocal, var, folded.vars]
  exact { narrowed.routed intact.toRouted with
    nodup := folded.listed ▸ intact.nodup
    contained := fun u member => by
      rw [folded.contains]
      exact intact.contained u (folded.listed ▸ member)
    proper := fun {u} contains => by
      rw [folded.contains] at contains
      have proper := intact.proper contains
      by_cases isV : u = v
      · subst isV
        have noResult : (h.vertex u).result = none := by
          have silent := proper.result
          rw [folded.isJumpIf] at silent
          rw [folded.result]
          simpa [Op.info] using silent
        refine ⟨?_, ?_, ?_, ?_, ?_, ?_, ?_, ?_, ?_, ?_, ?_, ?_⟩ <;>
          simp [folded.isJump, folded.args, noResult, Op.isValid, Op.info]
      · exact proper.of_body (folded.others isV).1 folded.entry folded.exit locals (Nat.le_of_eq (by rw [folded.vars]))
    start := fun {u} reached edge => by
      rw [folded.entry] at edge
      exact intact.start (narrowed.reachable reached) (folded.edges edge)
    succCount := fun {u} alive => by
      by_cases isV : u = v
      · rw [isV, folded.only, folded.isJump]
        rfl
      · obtain ⟨body, succs⟩ := folded.others isV
        rw [succs, Graph.op, (Vertex.body_eq_iff.mp body).op]
        exact intact.succCount (alive.imp (folded.exit ▸ ·) narrowed.reachable)
    returns := fun {u} reached isRet => by
      have other : u ≠ v := by
        rintro rfl
        simp [folded.isJump] at isRet
      rw [(folded.others other).2, folded.exit]
      exact intact.returns (narrowed.reachable reached) ((folded.op_eq_iff u (by decide)).mp isRet) }

theorem Pruned.intact (pruned : g.Pruned h v) (intact : g.Intact) : h.Intact := by
  have locals {x : VarId} (isLocal : g.isLocal x = true) : h.isLocal x = true := by
    rwa [Graph.isLocal, var, pruned.vars]
  exact { pruned.routed intact.toRouted with
    nodup := pruned.listed ▸ intact.nodup.erase v
    contained := fun u member => by
      rw [pruned.listed, intact.nodup.mem_erase_iff] at member
      rw [pruned.contains member.1]
      exact intact.contained u member.2
    proper := fun {u} contains => by
      have other := pruned.ne_of_contains contains
      rw [pruned.contains other] at contains
      have proper := intact.proper contains
      obtain ⟨args, body, ordinary, fewer, _⟩ := pruned.vertex other
      obtain ⟨op, binOp, _, result, same, _⟩ := Vertex.body_eq_iff.mp body
      rw [show ({ g.vertex u with args } : Vertex).args = args from rfl] at same
      refine proper.renamed (ρ := id) (.inl op.symm) binOp pruned.entry pruned.exit locals (by rw [pruned.vars]; exact id)
        (by simpa using result) (fun notPhi => by rw [same, ordinary notPhi]; simp) fun isPhi => ⟨?_, fun a member => ?_⟩
      · obtain ⟨once, foreign⟩ := proper.apart isPhi
        rw [Vertex.InputsApart, same, result]
        exact ⟨once.sublist fewer, fun member => foreign (fewer.subset member)⟩
      · have before := fewer.subset (same ▸ member)
        cases a with
        | none => exact absurd before proper.operands
        | some x => exact ⟨x, rfl, locals (proper.joins isPhi before)⟩
    start := fun {u} reached => by
      rw [(pruned.before reached).2, pruned.entry]
      exact intact.start (pruned.before reached).1
    succCount := fun {u} alive => by
      rcases alive with rfl | reached
      · rw [pruned.exit, pruned.succs (Ne.symm pruned.notExit) (by simp [intact.succs_exit]), pruned.op (Ne.symm pruned.notExit)]
        exact intact.succCount (.inl rfl)
      · obtain ⟨before, succs⟩ := pruned.before reached
        rw [succs, pruned.op (pruned.ne_of_reachable before)]
        exact intact.succCount (.inr before)
    returns := fun {u} reached isRet => by
      obtain ⟨before, succs⟩ := pruned.before reached
      rw [pruned.op (pruned.ne_of_reachable before)] at isRet
      rw [succs, pruned.exit]
      exact intact.returns before isRet }

/-! ### Operations on constants -/

/-- The assignment that takes the place of an operation is proper. -/
theorem ConstantFolded.proper_new {s : VertexId} {value : Literal} (folded : g.ConstantFolded h v s value)
    (proper : g.Proper v) (locals : ∀ {x}, g.isLocal x = true → h.isLocal x = true) : h.Proper g.store.size := by
  have computes : (g.op v).info.hasResult = true := by
    have idempotent := folded.idempotent
    cases isOp : g.op v <;> simp_all [Op.info]
  refine ⟨?_, ?_, ?_, ?_, ?_, ?_, ?_, ?_, ?_, ?_, ?_, ?_⟩ <;>
    simp only [folded.newOp, folded.newResult, folded.newArgs, Op.isValid, Op.info, reduceCtorEq, false_implies]
  · rw [proper.result, computes]
  · exact fun written => locals (proper.writes written)
  · simp [folded.vars]
  · simp
  · simp

theorem ConstantFolded.intact {s : VertexId} {value : Literal} (folded : g.ConstantFolded h v s value) (intact : g.Intact)
    (reachedV : Reachable g.succs g.entry v) : h.Intact := by
  have routed := intact.toRouted
  have locals {x : VarId} (isLocal : g.isLocal x = true) : h.isLocal x = true := by
    obtain ⟨known, varies⟩ := isLocal_iff.mp isLocal
    rw [isLocal_iff, folded.vars, folded.oldValue (Nat.ne_of_lt known)]
    exact ⟨Nat.lt_succ_of_lt known, varies⟩
  have new : g.store.size ∉ g.listed := fun member => Nat.lt_irrefl _ (routed.wired.listed_lt _ member)
  have nodup : (g.listed ++ [g.store.size]).Nodup := by
    refine List.nodup_append.mpr ⟨intact.nodup, by simp, ?_⟩
    rintro u member w isNew rfl
    exact new (List.mem_singleton.mp isNew ▸ member)
  -- the vertices that are not pruned are moved ones
  have alive {u : VertexId} (alive : h.Alive u) : ∃ w, g.Alive w ∧ u = moved v g.store.size w := by
    rcases alive with isExit | reached
    · refine ⟨g.exit, .inl rfl, ?_⟩
      rw [isExit, folded.exit, moved, if_neg (Ne.symm (routed.ne_exit folded.idempotent))]
    · obtain ⟨w, before, same⟩ := folded.before routed reached
      exact ⟨w, .inr before, same⟩
  have listed {w : VertexId} (alive : g.Alive w) : w ∈ g.listed :=
    alive.elim (fun isExit => isExit ▸ routed.exitListed) routed.listed
  have op {w : VertexId} (other : w ≠ v) (member : w ∈ g.listed) : h.op w = g.op w :=
    (Vertex.body_eq_iff.mp (folded.body other fun isNew => new (isNew ▸ member))).op
  exact { folded.routed routed reachedV with
    nodup := folded.listed ▸ nodup.erase v
    contained := fun u member => by
      rw [folded.listed, nodup.mem_erase_iff, List.mem_append, List.mem_singleton] at member
      obtain ⟨other, member | rfl⟩ := member
      · rw [folded.contains other fun isNew => new (isNew ▸ member)]
        exact intact.contained u member
      · exact (Vertex.body_eq_iff.mp folded.newBody).owned
    proper := fun {u} contains => by
      have other := folded.ne_of_contains contains
      by_cases isNew : u = g.store.size
      · exact isNew ▸ folded.proper_new (intact.proper (routed.present reachedV)) locals
      · rw [folded.contains other isNew] at contains
        exact (intact.proper contains).of_body (folded.body other isNew) folded.entry folded.exit locals
          (by rw [folded.vars]; exact Nat.le_succ _)
    start := fun {u} reached edge => by
      obtain ⟨w, before, rfl⟩ := folded.before routed reached
      rw [folded.succs_moved (routed.listed before), List.mem_map] at edge
      obtain ⟨t, edge, isEntry⟩ := edge
      rw [folded.entry, moved] at isEntry
      split at isEntry
      · exact routed.ne_size .refl isEntry.symm
      · exact intact.start before (isEntry ▸ edge)
    succCount := fun {u} isAlive => by
      obtain ⟨w, before, rfl⟩ := alive isAlive
      rw [folded.succs_moved (listed before), List.length_map, intact.succCount before, moved]
      split
      · rename_i isV
        subst isV
        rw [folded.newOp]
        have idempotent := folded.idempotent
        cases isOp : g.op w <;> simp_all [Op.info, Op.numSuccs]
      · rw [op ‹_› (listed before)]
    returns := fun {u} reached isRet => by
      obtain ⟨w, before, rfl⟩ := folded.before routed reached
      rw [folded.succs_moved (routed.listed before)]
      rw [moved] at isRet
      split at isRet
      · simp [folded.newOp] at isRet
      · rw [op ‹_› (routed.listed before)] at isRet
        rw [intact.returns before isRet, List.map_singleton, folded.exit, moved,
          if_neg (Ne.symm (routed.ne_exit folded.idempotent))] }

/-! ### Vertices that are spliced out -/

/-- What has to be shown of a graph without a vertex is that the others are proper. -/
theorem Shortened.intact (short : g.Shortened h v) (intact : g.Intact) (idempotent : (g.op v).info.idempotent = true)
    (proper : ∀ {u}, h.contains u = true → h.Proper u) : h.Intact := by
  have routed := intact.toRouted
  have notExit := Ne.symm (routed.ne_exit idempotent)
  exact { short.routed routed idempotent with
    nodup := short.listed ▸ intact.nodup.erase v
    contained := fun u member => by
      rw [short.listed, intact.nodup.mem_erase_iff] at member
      rw [short.contains member.1]
      exact intact.contained u member.2
    proper := proper
    start := fun {u} reached edge => by
      obtain ⟨past, trail⟩ := reached
      obtain ⟨past', trail', same⟩ := short.expands.lift (trail.step edge)
      rw [short.entry] at trail'
      have nothing := trail'.eq_nil_of_no_edge fun u reached => intact.start reached
      simp [nothing] at same
    succCount := fun {u} alive => by
      have before : g.Alive u ∧ u ≠ v ∧ u ∈ g.listed := by
        rcases alive with rfl | reached
        · rw [short.exit]
          exact ⟨.inl rfl, notExit, routed.exitListed⟩
        · obtain ⟨before, other⟩ := short.before reached
          exact ⟨.inr before, other, routed.listed before⟩
      obtain ⟨alive, other, listed⟩ := before
      rw [short.length listed other, short.op listed other]
      exact intact.succCount alive
    returns := fun {u} reached isRet => by
      obtain ⟨before, other⟩ := short.before reached
      rw [short.op (routed.listed before) other] at isRet
      have edges := short.expands.edges reached
      rw [intact.returns before isRet, List.forall₂_cons_left_iff] at edges
      obtain ⟨t, rest, leads, ended, succs⟩ := edges
      rw [succs, List.forall₂_nil_left_iff.mp ended, short.exit]
      cases leads with
      | here _ => rfl
      | skip extra => exact absurd (by simpa using extra) notExit }

theorem Shortened.isLocal (short : g.Shortened h v) (x : VarId) : h.isLocal x = g.isLocal x := by
  rw [Graph.isLocal, Graph.isLocal, short.vars, Variable.isConst, Variable.isConst, short.value]

theorem DeadRemoved.intact {y : VarId} (dead : g.DeadRemoved h v y) (intact : g.Intact) : h.Intact := by
  refine dead.short.intact intact dead.idempotent fun {u} contains => ?_
  have other := dead.short.ne_of_contains contains
  rw [dead.short.contains other] at contains
  exact (intact.proper contains).of_body (dead.body other) dead.short.entry dead.short.exit
    (fun isLocal => (dead.short.isLocal _).trans isLocal) (Nat.le_of_eq dead.short.vars.symm)

/-! ### Phis whose inputs and result become one variable -/

/-- What a number stands for: nothing, a constant or a variable. -/
def standing (g : Graph) (x : VarId) : Nat :=
  if g.vars.size ≤ x then 0 else if (g.var x).isConst then 1 else 2

theorem standing_pos_iff : 0 < g.standing x ↔ x < g.vars.size := by
  grind [standing]

theorem standing_eq_two_iff : g.standing x = 2 ↔ g.isLocal x = true := by
  grind [standing, isLocal]

/-- Renaming one variable after the other keeps the inputs of phis apart. -/
theorem joins_foldl_replaceVariable {u : VertexId} (ys : List VarId) {z : VarId} (joins : (g.vertex u).Joins) :
    ((ys.foldl (fun g y => g.replaceVariable (some y) (some z)) g).vertex u).Joins := by
  have each (y : VarId) (vs : List VertexId) {k : Graph} (joins : (k.vertex u).Joins) :
      ((vs.foldl (fun g v => g.modifyVertex v (·.replaceVariable (some y) (some z))) k).vertex u).Joins := by
    induction vs generalizing k with
    | nil => exact joins
    | cons w vs ih =>
      refine ih ?_
      rw [vertex_modifyVertex]
      split
      · rename_i here
        exact here.1 ▸ joins.replaceVariable y z
      · exact joins
  induction ys generalizing g with
  | nil => exact joins
  | cons y ys ih => exact ih (each y g.listed joins)

theorem Intact.joined (intact : g.Intact) (contains : g.contains v = true) : (g.vertex v).Joins :=
  fun isPhi => ⟨(intact.proper contains).apart isPhi, (intact.proper contains).operands⟩

theorem Intact.exists_result (intact : g.Intact) (contains : g.contains v = true) (isPhi : g.op v = .phi) :
    ∃ r, (g.vertex v).result = some r := by
  have writes := (intact.proper contains).result
  rw [isPhi] at writes
  exact Option.isSome_iff_exists.mp writes

/-- What a phi joins are variables. -/
theorem Intact.sameStanding (intact : g.Intact) (contains : g.contains v = true) (isPhi : g.op v = .phi) {r y : VarId}
    (result : (g.vertex v).result = some r) (input : some y ∈ (g.vertex v).args) : g.standing y = g.standing r := by
  have proper := intact.proper contains
  rw [standing_eq_two_iff.mpr (proper.writes result), standing_eq_two_iff.mpr (proper.joins isPhi input)]

theorem Coalesced.intact (coalesced : Coalesced g.standing ρ g h v) (intact : g.Intact)
    (joins : ∀ {u}, u ∈ g.listed → u ≠ v → (h.vertex u).Joins) : h.Intact := by
  have short := coalesced.shortened
  have idempotent : (g.op v).info.idempotent = true := by simp [coalesced.isPhi, Op.info]
  refine short.intact intact idempotent fun {u} contains => ?_
  have other := short.ne_of_contains contains
  rw [short.contains other] at contains
  have proper := intact.proper contains
  have listed := intact.owned contains
  have relabeled := coalesced.vertex listed other
  refine proper.renamed (ρ := ρ) (.inl relabeled.op.symm) relabeled.binOp short.entry short.exit ?_ ?_ relabeled.result
    relabeled.args fun isPhi => ?_
  · intro x isLocal
    rw [short.isLocal, ← standing_eq_two_iff, coalesced.classes, standing_eq_two_iff]
    exact isLocal
  · intro x known
    rw [short.vars, ← standing_pos_iff, coalesced.classes, standing_pos_iff]
    exact known
  · obtain ⟨apart, operands⟩ := joins listed other (relabeled.op.trans isPhi)
    refine ⟨apart, fun a member => ?_⟩
    cases a with
    | none => exact absurd member operands
    | some x =>
      refine ⟨x, rfl, ?_⟩
      obtain ⟨y, mentioned, same⟩ := relabeled.inputs isPhi member
      rw [short.isLocal, ← standing_eq_two_iff, same, standing_eq_two_iff]
      exact mentioned.elim proper.writes (proper.joins isPhi)

/-- A phi that can be reached can be spliced out, and the others join what they joined. -/
theorem Intact.splice (intact : g.Intact) (reached : Reachable g.succs g.entry v) (isPhi : g.op v = .phi) :
    ∃ s, g.succs v = [s] ∧ v ≠ s ∧
      ∀ {k u}, g.Retyped k → u ∈ g.listed → u ≠ v → ((k.splice v).vertex u).Joins := by
  have idempotent : (g.op v).info.idempotent = true := by simp [isPhi, Op.info]
  obtain ⟨s, only, other⟩ := intact.exists_next reached idempotent
  refine ⟨s, only, other, fun {k u} retyped member isOther => ?_⟩
  have spliced := (retyped.wired intact.wired).splice (retyped.listed ▸ intact.toRouted.listed reached)
    (retyped.entry ▸ intact.ne_entry idempotent) (retyped.succs ▸ only) other
  obtain ⟨op, _, _, result, args, _⟩ := Vertex.body_eq_iff.mp (spliced.body u isOther)
  have joined := intact.joined (intact.contained u member)
  rw [← retyped.vertex] at joined
  intro isPhi
  obtain ⟨apart, operands⟩ := joined (op ▸ isPhi)
  exact ⟨apart.congr result args, args ▸ operands⟩

section
variable (intact : g.Intact) (reached : Reachable g.succs g.entry v)
include intact reached

theorem Intact.coalesced_simplified (simplified : Rule.Simplified g h v)
    (same : ∀ {r y}, (g.vertex v).result = some r → some y ∈ (g.vertex v).args → src y = src r) :
    ∃ result input, (g.vertex v).result = some result ∧ (g.vertex v).args = [some input] ∧
      Coalesced src (mergeInto [result] input) g h v := by
  obtain ⟨s, only, other, _⟩ := intact.splice reached simplified.isPhi
  exact coalesced_of_simplified intact.wired (intact.toRouted.listed reached) only other same simplified

theorem Intact.coalesced_eliminated (eliminated : PhiElimination.Eliminated g h v)
    (same : ∀ {r y}, (g.vertex v).result = some r → some y ∈ (g.vertex v).args → src y = src r) :
    ∃ ρ, Coalesced src ρ g h v := by
  obtain ⟨s, only, other, _⟩ := intact.splice reached eliminated.isPhi
  obtain ⟨r, result⟩ := intact.exists_result (intact.present reached) eliminated.isPhi
  exact coalesced_of_eliminated intact.wired (intact.toRouted.listed reached) only other same result eliminated

theorem Intact.simplified (simplified : Rule.Simplified g h v) : h.Intact := by
  obtain ⟨_, _, _, joins⟩ := intact.splice reached simplified.isPhi
  obtain ⟨_, _, _, _, coalesced⟩ := intact.coalesced_simplified reached simplified
    (intact.sameStanding (intact.present reached) simplified.isPhi)
  refine coalesced.intact intact fun {u} member isOther => ?_
  obtain ⟨result, input, k, _, _, refined, _, rfl⟩ := simplified.renamed
  exact joins_foldl_replaceVariable [result] (joins refined.retyped member isOther)

theorem Intact.eliminated (eliminated : PhiElimination.Eliminated g h v) : h.Intact := by
  have contains := intact.present reached
  obtain ⟨_, _, _, joins⟩ := intact.splice reached eliminated.isPhi
  obtain ⟨ρ, coalesced⟩ := intact.coalesced_eliminated reached eliminated (intact.sameStanding contains eliminated.isPhi)
  refine coalesced.intact intact fun {u} member isOther => ?_
  obtain ⟨r, result⟩ := intact.exists_result contains eliminated.isPhi
  obtain ⟨inputs, k, _, refined, rfl⟩ := eliminated.renamed
  rw [result]
  refine joins_foldl_replaceVariable inputs ?_
  rw [refined.retyped.vertex]
  exact joins .refl member isOther

end

/-! ### Rules -/

theorem Rewritten.intact (rewritten : g.Rewritten v h) (intact : g.Intact) (alive : g.Alive v) : h.Intact := by
  have reached (idempotent : (g.op v).info.idempotent = true) : Reachable g.succs g.entry v :=
    alive.resolve_left (intact.ne_exit idempotent)
  cases rewritten with
  | retyped retyped => exact retyped.intact intact
  | recalled recalled => exact recalled.intact intact
  | branchFolded folded => exact folded.intact intact
  | constantFolded folded => exact folded.intact intact (reached folded.idempotent)
  | deadRemoved dead => exact dead.intact intact
  | simplified simplified => exact intact.simplified (reached (by simp [simplified.isPhi, Op.info])) simplified

end Graph

end MiddleEnd
