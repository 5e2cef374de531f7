import MiddleEnd.Optimizer.Rules
import MiddleEnd.Proofs.Optimizing.Invariant

/-!
Vertices that are spliced out: those whose result nothing references, and phis whose inputs and result become one
variable. Either way the paths of the new graph are those of the old one without the vertex (`Graph.Shortened`), and
what the optimizer relies on stays true.
-/
namespace MiddleEnd

namespace Graph

variable {V : Type} {m : Meaning V} {arguments : Nat → V} {src ρ : VarId → VarId} {g h : Graph} {v s : VertexId}

/-- `h` is `g` without the vertex `v`: its edges go on to its successor. -/
structure Shortened (g h : Graph) (v : VertexId) : Prop where
  entry : h.entry = g.entry
  exit : h.exit = g.exit
  listed : h.listed = g.listed.erase v
  epoch : g.epoch < h.epoch
  reach : h.reach = g.reach
  vars : h.vars.size = g.vars.size
  value : ∀ x, (h.var x).value = (g.var x).value
  wired : h.Wired
  expands : h.Expands g (· ≠ v)
  gone : h.contains v = false
  contains : ∀ {w}, w ≠ v → h.contains w = g.contains w
  op : ∀ {w}, w ∈ g.listed → w ≠ v → h.op w = g.op w
  length : ∀ {w}, w ∈ g.listed → w ≠ v → (h.succs w).length = (g.succs w).length

theorem Coalesced.shortened (coalesced : Coalesced src ρ g h v) : g.Shortened h v where
  entry := coalesced.entry
  exit := coalesced.exit
  listed := coalesced.listed
  epoch := coalesced.epoch
  reach := coalesced.reach
  vars := coalesced.vars
  value := coalesced.value
  wired := coalesced.wired
  expands := coalesced.expands
  gone := coalesced.gone
  contains := coalesced.contains
  op listed other := (coalesced.vertex listed other).op
  length := coalesced.length

theorem Spliced.shortened (spliced : g.Spliced h v s) (wired : g.Wired) (notEntry : v ≠ g.entry) : g.Shortened h v where
  entry := spliced.entry
  exit := spliced.exit
  listed := spliced.listed
  epoch := spliced.epoch
  reach := spliced.reach
  vars := by rw [spliced.vars]
  value x := by rw [var, spliced.vars, ← var]
  wired := spliced.wired
  expands := spliced.expands wired notEntry
  gone := spliced.gone
  contains {w} other := (Vertex.body_eq_iff.mp (spliced.body w other)).owned
  op {w} _ other := (Vertex.body_eq_iff.mp (spliced.body w other)).op
  length listed other := by rw [spliced.succs listed other, turned, List.length_map]

namespace Shortened

variable (short : g.Shortened h v)
include short

/-- What can be reached without the vertex could be before, and is another one. -/
theorem before {w : VertexId} (reached : Reachable h.succs h.entry w) : Reachable g.succs g.entry w ∧ w ≠ v :=
  ⟨short.expands.reachable reached, by simpa using short.expands.kept_of_reachable reached⟩

theorem after {w : VertexId} (reached : Reachable g.succs g.entry w) (other : w ≠ v) : Reachable h.succs h.entry w :=
  short.expands.reachable_of_kept reached (by simpa using other)

theorem ne_of_contains {w : VertexId} (contains : h.contains w = true) : w ≠ v := by
  rintro rfl
  simp [short.gone] at contains

theorem routed (routed : g.Routed) (idempotent : (g.op v).info.idempotent = true) : h.Routed where
  wired := short.wired
  owned {w} contains := by
    have other := short.ne_of_contains contains
    rw [short.listed, List.mem_erase_of_ne other]
    exact routed.owned (short.contains other ▸ contains)
  present reached := by
    obtain ⟨reached, other⟩ := short.before reached
    rw [short.contains other]
    exact routed.present reached
  entryOp := by
    rw [short.entry, short.op routed.wired.entry_listed (Ne.symm (routed.ne_entry idempotent)), routed.entryOp]
  exitOp := by
    rw [short.exit, short.op routed.exitListed (Ne.symm (routed.ne_exit idempotent)), routed.exitOp]
  exitListed := by
    rw [short.exit, short.listed, List.mem_erase_of_ne (Ne.symm (routed.ne_exit idempotent))]
    exact routed.exitListed
  onward {w} reached := by
    obtain ⟨reachedBefore, other⟩ := short.before reached
    obtain ⟨s, leads⟩ := routed.onward reachedBefore
    have effective : ∀ u, g.isEffective u = true → decide (u ≠ v) = true := by
      intro u holds
      rw [decide_eq_true_iff]
      rintro rfl
      simp [isEffective, idempotent] at holds
    have way := short.expands.leads effective leads reachedBefore (.here (by simpa using other))
    refine ⟨s, way.congr_kept reached fun u reached => ?_⟩
    obtain ⟨reached, other⟩ := short.before reached
    rw [isEffective, isEffective, short.op (routed.listed reached) other]
  cached := routed.cached.later short.reach short.epoch

/-- What has to be shown of a graph without a vertex is that it is coherent and names known variables. -/
theorem optimizable (inv : Optimizable src g) (idempotent : (g.op v).info.idempotent = true) (coherent : h.Coherent src)
    (inScope : ∀ {w x}, h.contains w = true → (h.vertex w).references (some x) = true → x < g.vars.size)
    (phiResult : ∀ {w}, Reachable h.succs h.entry w → h.op w = .phi → ∃ r, (h.vertex w).result = some r) :
    Optimizable src h :=
  { short.routed inv.toRouted idempotent with
    inScope := by
      rw [short.vars]
      exact inScope
    coherent := coherent
    value := fun y => by rw [short.value, short.value, inv.value]
    srcLt := by
      rw [short.vars]
      exact inv.srcLt
    srcGe := by
      rw [short.vars]
      exact inv.srcGe
    phiResult := phiResult }

theorem trimmed (trimmed : g.Trimmed)
    (branches : ∀ {w}, h.contains w = true → h.Decided w → g.Decided w) : h.Trimmed where
  reachable {w} contains := by
    have other := short.ne_of_contains contains
    rw [short.contains other] at contains
    rw [short.exit]
    exact (trimmed.reachable contains).imp_right fun reached => short.after reached other
  branches {w} contains decided := by
    have other := short.ne_of_contains contains
    exact trimmed.branches (short.contains other ▸ contains) (branches contains decided)

end Shortened

/-! ### Phis whose inputs and result become one variable -/

namespace Coalesced

variable (coalesced : Coalesced src ρ g h v) (inv : Optimizable src g)
include coalesced

/-- A variable of the new graph is of the class of one that the vertex named before. -/
theorem exists_reference {w : VertexId} {x : VarId} (listed : w ∈ g.listed) (other : w ≠ v)
    (references : (h.vertex w).references (some x) = true) :
    ∃ y, (g.vertex w).references (some y) = true ∧ src x = src y := by
  have relabeled := coalesced.vertex listed other
  simp only [Vertex.references_iff] at references ⊢
  rcases references with result | arg
  · rw [relabeled.result, Option.map_eq_some_iff] at result
    obtain ⟨y, result, rfl⟩ := result
    exact ⟨y, .inl result, coalesced.classes y⟩
  · by_cases isPhi : (g.vertex w).op = .phi
    · exact relabeled.inputs isPhi arg
    · rw [relabeled.args isPhi, List.mem_map] at arg
      obtain ⟨a, member, renamed⟩ := arg
      obtain ⟨y, rfl, rfl⟩ := Option.map_eq_some_iff.mp renamed
      exact ⟨y, .inr member, coalesced.classes y⟩

include inv

theorem optimizable : Optimizable src h := by
  have short := coalesced.shortened
  refine short.optimizable inv (by simp [coalesced.isPhi, Op.info]) (coalesced.coherent_after inv.wired inv.coherent) ?_ ?_
  · intro w x contains references
    have other := short.ne_of_contains contains
    rw [short.contains other] at contains
    obtain ⟨y, referenced, same⟩ := coalesced.exists_reference (inv.owned contains) other references
    exact inv.lt_of_src same (inv.inScope contains referenced)
  · intro w reached isPhi
    obtain ⟨reached, other⟩ := short.before reached
    have relabeled := coalesced.vertex (inv.listed reached) other
    obtain ⟨r, result⟩ := inv.phiResult reached (short.op (inv.listed reached) other ▸ isPhi)
    exact ⟨ρ r, by rw [relabeled.result, result]; rfl⟩

/-- With source variables in place of their versions, only the phi is gone. -/
theorem sameRuns : SameRuns m arguments g h := by
  have short := coalesced.shortened
  have expands : (h.collapse src).Expands (g.collapse src) (· ≠ v) :=
    short.expands.congr rfl succs_collapse rfl succs_collapse
  have reachable {k : Graph} {w : VertexId} (reached : Reachable (k.collapse src).succs (k.collapse src).entry w) :
      Reachable k.succs k.entry w := by
    rwa [funext succs_collapse] at reached
  have collapsed : SameRuns m arguments (h.collapse src) (g.collapse src) := by
    refine sameRuns_of_expands (fun _ => true) expands (fun x => (short.value x).symm) ?_ (fun _ _ => rfl) ?_
    · intro w reached
      obtain ⟨reached, other⟩ := short.before (reachable reached)
      have relabeled := coalesced.vertex (inv.listed reached) other
      by_cases isPhi : g.op w = .phi
      · rw [vertex_collapse_of_phi isPhi, vertex_collapse_of_phi (relabeled.op.trans isPhi)]
        exact ⟨.inl rfl, relabeled.binOp.symm, relabeled.callee.symm, rfl, rfl⟩
      · have isPhi' : h.op w ≠ .phi := short.op (inv.listed reached) other ▸ isPhi
        have renamed : src ∘ ρ = src := funext coalesced.classes
        rw [vertex_collapse_of_op isPhi, vertex_collapse_of_op isPhi']
        refine ⟨.inl relabeled.op, relabeled.binOp.symm, relabeled.callee.symm, ?_, ?_⟩
        · rw [Vertex.mapVars, Vertex.mapVars, relabeled.result, Option.map_map, renamed]
        · rw [Vertex.mapVars, Vertex.mapVars, relabeled.args isPhi, List.map_map, Option.map_comp_map, renamed]
    · intro w _ skipped
      obtain rfl : w = v := by simpa using skipped
      rw [op, vertex_collapse_of_phi coalesced.isPhi]
      exact ⟨rfl, by simp [Vertex.targets, Vertex.writes]⟩
  exact inv.sameRuns_collapse.trans (collapsed.symm.trans (coalesced.optimizable inv).sameRuns_collapse.symm)

theorem trimmed (trimmed : g.Trimmed) : h.Trimmed := by
  have short := coalesced.shortened
  refine short.trimmed trimmed fun {w} contains ⟨isJump, two, x, arg, const⟩ => ?_
  have other := short.ne_of_contains contains
  have listed := inv.owned (short.contains other ▸ contains)
  have relabeled := coalesced.vertex listed other
  rw [short.op listed other] at isJump
  have ordinary : (g.vertex w).op ≠ .phi := by
    rw [← op, isJump]
    simp
  -- a renamed operand has the same value, being of the same class
  rw [relabeled.args ordinary, List.getElem?_map] at arg
  obtain ⟨y, before, rfl⟩ : ∃ y, ((g.vertex w).args[0]?).join = some y ∧ ρ y = x := by
    cases first : (g.vertex w).args[0]? with
    | none => simp [first] at arg
    | some a =>
      cases a with
      | none => simp [first] at arg
      | some y => exact ⟨y, rfl, by simpa [first] using arg⟩
  refine ⟨isJump, short.length listed other ▸ two, y, before, ?_⟩
  rwa [short.value, ← inv.value, coalesced.classes, inv.value] at const

end Coalesced

/-- The input that stands for the result of a phi had one writer, and the phi was the one of the result. -/
theorem oneWriter_of_simplified (inv : Optimizable src g) (once : g.OneWriter) (reached : Reachable g.succs g.entry v)
    (simplified : Rule.Simplified g h v) : h.OneWriter := by
  obtain ⟨next, only, other⟩ := inv.toRouted.exists_next reached (by simp [simplified.isPhi, Op.info])
  obtain ⟨r, a, result, args, coalesced⟩ := coalesced_of_simplified inv.wired (inv.listed reached) only other
    (inv.coherent.inputs reached simplified.isPhi) simplified
  have short := coalesced.shortened
  -- what a vertex references or writes comes from what it did before
  have referenced {w : VertexId} {y : VarId} (isOther : w ≠ v) (references : (h.vertex w).references (some y) = true) :
      (g.vertex w).references (some y) = true ∨ y = a := by
    obtain ⟨r', a', k, result', args', ⟨retyped, _⟩, free, rfl⟩ := simplified.renamed
    obtain rfl : a' = a := by simpa [args] using args'.symm
    have spliced : k.Spliced (k.splice v) v next := (retyped.wired inv.wired).splice
      (retyped.listed ▸ inv.listed reached) (ne_ends_of_removeObstacle free).1 (retyped.succs ▸ only) other
    have same : ((k.splice v).vertex w).references (some y) = (g.vertex w).references (some y) := by
      rw [(Vertex.SameAction.of_body (spliced.body w isOther)).references, retyped.vertex]
    rw [← same]
    exact (references_replaceVariable references).imp_right And.left
  have written {w : VertexId} {y : VarId} (contains : h.contains w = true) (writes : y ∈ (h.vertex w).targets) :
      g.contains w = true ∧ w ≠ v ∧ ∃ z ∈ (g.vertex w).targets, mergeInto [r] a z = y := by
    have isOther := short.ne_of_contains contains
    rw [short.contains isOther] at contains
    rw [(coalesced.vertex (inv.owned contains) isOther).targets, List.mem_map] at writes
    exact ⟨contains, isOther, writes⟩
  have atResult : r ∈ (g.vertex v).targets := by
    rw [Vertex.targets_of_op (by rw [← op, simplified.isPhi]; simp), result]
    simp
  -- the phi itself references the result and the input
  have input {w : VertexId} {z : VarId} (contains : g.contains w = true) (isOther : w ≠ v) (writes : z ∈ (g.vertex w).targets)
      (renamed : mergeInto [r] a z = a) : z = a := by
    by_cases isResult : z = r
    · subst isResult
      exact absurd (once reached simplified.isPhi (Vertex.references_of_mem_targets atResult) contains (inv.present reached)
        writes atResult) isOther
    · simpa [mergeInto, isResult] using renamed
  intro phi y u w reachedPhi isPhi references containsU containsW writesU writesW
  obtain ⟨ownedU, otherU, zu, writtenU, renamedU⟩ := written containsU writesU
  obtain ⟨ownedW, otherW, zw, writtenW, renamedW⟩ := written containsW writesW
  obtain ⟨reachedPhi, otherPhi⟩ := short.before reachedPhi
  rw [short.op (inv.listed reachedPhi) otherPhi] at isPhi
  by_cases isInput : y = a
  · subst isInput
    rw [input ownedU otherU writtenU renamedU] at writtenU
    rw [input ownedW otherW writtenW renamedW] at writtenW
    exact once reached simplified.isPhi (Vertex.references_iff.mpr (.inr (by simp [args]))) ownedU ownedW writtenU writtenW
  · have unchanged {z : VarId} (renamed : mergeInto [r] a z = y) : z = y := by
      by_cases isResult : z = r
      · exact absurd (by simpa [mergeInto, isResult] using renamed.symm) isInput
      · simpa [mergeInto, isResult] using renamed
    rw [unchanged renamedU] at writtenU
    rw [unchanged renamedW] at writtenW
    exact once reachedPhi isPhi ((referenced otherPhi references).resolve_right isInput) ownedU ownedW writtenU writtenW

/-! ### Vertices whose result nothing references -/

/-- `h` is `g` without a vertex that only computed a variable that no other vertex references. -/
structure DeadRemoved (g h : Graph) (v : VertexId) (y : VarId) : Prop where
  idempotent : (g.op v).info.idempotent = true
  result : (g.vertex v).result = some y
  unreferenced : ∀ {u}, u ∈ g.listed → u ≠ v → (g.vertex u).references (some y) = false
  short : g.Shortened h v
  body : ∀ {u}, u ≠ v → (h.vertex u).body = (g.vertex u).body

namespace DeadRemoved

variable {y : VarId} {past : List VertexId} (dead : DeadRemoved g h v y) (inv : Optimizable src g)
include dead

theorem targets : (g.vertex v).targets = [y] := by
  have ordinary : (g.vertex v).op ≠ .function := by
    intro isFunction
    have idempotent := dead.idempotent
    rw [op, isFunction] at idempotent
    simp [Op.info] at idempotent
  rw [Vertex.targets_of_op ordinary, dead.result]
  rfl

theorem action {u : VertexId} (other : u ≠ v) : (g.vertex u).SameAction (h.vertex u) :=
  .of_body (dead.body other)

theorem targets_of_ne {u : VertexId} (other : u ≠ v) : (h.vertex u).targets = (g.vertex u).targets := by
  obtain ⟨op, _, _, result, args, _⟩ := Vertex.body_eq_iff.mp (dead.body other)
  rw [Vertex.targets, Vertex.targets, Vertex.writes, Vertex.writes, op, result, args]

/-- What was written last without the vertex was so before, unless the vertex wrote last. -/
theorem latest_cases {p : VarId → Bool} {w : VarId} (last : h.latest p (past.filter (· ≠ v)) = some w) :
    g.latest p past = some w ∨ g.latest p past = some y := by
  induction past using List.reverseRecOn with
  | nil => simp at last
  | append_singleton past u ih =>
    rw [List.filter_append, List.filter_singleton] at last
    by_cases isV : u = v
    · subst isV
      rw [latest_concat, dead.targets]
      by_cases holds : p y = true
      · exact .inr (by simp [holds])
      · simpa [holds] using ih (by simpa using last)
    · simp only [ne_eq, isV, not_false_eq_true, decide_true, cond_true] at last
      rw [latest_concat, dead.targets_of_ne isV] at last
      rw [latest_concat]
      cases found : (g.vertex u).targets.find? p with
      | some z => exact .inl (by simpa [found] using last)
      | none => simpa [found] using ih (by simpa [found] using last)

include inv

/-- A vertex other than the one that goes does not see what that one wrote. -/
theorem latest_before {u : VertexId} {p : VarId → Bool} {w : VarId} (trail : Trail h.succs h.entry past u)
    (last : h.latest p past = some w) :
    ∃ past', Trail g.succs g.entry past' u ∧ u ≠ v ∧ (g.vertex u).references (some y) = false ∧
      (g.latest p past' = some w ∨ g.latest p past' = some y) := by
  obtain ⟨past', trail', rfl⟩ := dead.short.expands.lift trail
  obtain ⟨reached, other⟩ := dead.short.before trail.reachable
  exact ⟨past', trail', other, dead.unreferenced (inv.listed reached) other, dead.latest_cases last⟩

theorem coherent : h.Coherent src where
  reads {past u z w} trail ordinary read last := by
    obtain ⟨past', trail', other, unreferenced, latest⟩ := dead.latest_before inv trail last
    obtain ⟨op, _, _, _, args, _⟩ := Vertex.body_eq_iff.mp (dead.body other)
    have read' : some z ∈ (g.vertex u).reads := by rwa [Vertex.reads, op, args] at read
    have ordinary' : g.op u ≠ .phi := by rwa [Graph.op, op] at ordinary
    rcases latest with latest | latest
    · exact inv.coherent.reads trail' ordinary' read' latest
    · have isRead := inv.coherent.reads trail' ordinary' read' latest
      rw [isRead, Vertex.references_of_mem_reads read'] at unreferenced
      contradiction
  joins {past u r w} trail isPhi result last := by
    obtain ⟨past', trail', other, unreferenced, latest⟩ := dead.latest_before inv trail last
    obtain ⟨op, _, _, sameResult, args, _⟩ := Vertex.body_eq_iff.mp (dead.body other)
    have isPhi' : g.op u = .phi := by rwa [Graph.op, op] at isPhi
    rw [sameResult] at result
    rw [args]
    rcases latest with latest | latest
    · exact inv.coherent.joins trail' isPhi' result latest
    · have referenced : (g.vertex u).references (some y) = true := by
        rcases inv.coherent.joins trail' isPhi' result latest with rfl | input
        · exact Vertex.references_iff.mpr (.inl result)
        · exact Vertex.references_iff.mpr (.inr input)
      rw [referenced] at unreferenced
      contradiction
  inputs {u r z} reached isPhi result input := by
    obtain ⟨reached, other⟩ := dead.short.before reached
    obtain ⟨op, _, _, sameResult, args, _⟩ := Vertex.body_eq_iff.mp (dead.body other)
    rw [Graph.op, op] at isPhi
    exact inv.coherent.inputs reached isPhi (sameResult ▸ result) (args ▸ input)

theorem optimizable : Optimizable src h := by
  refine dead.short.optimizable inv dead.idempotent (dead.coherent inv) ?_ ?_
  · intro w x contains references
    have other := dead.short.ne_of_contains contains
    rw [dead.short.contains other] at contains
    exact inv.inScope contains ((dead.action other).references _ ▸ references)
  · intro w reached isPhi
    obtain ⟨reached, other⟩ := dead.short.before reached
    rw [(dead.action other).result]
    exact inv.phiResult reached (dead.short.op (inv.listed reached) other ▸ isPhi)

theorem sameRuns : SameRuns m arguments g h := by
  refine (sameRuns_of_expands (· ≠ y) dead.short.expands (fun x => (dead.short.value x).symm) ?_ ?_ ?_).symm
  · intro u reached
    obtain ⟨_, other⟩ := dead.short.before reached
    exact .of_body (dead.body other).symm
  · intro u z reached references
    obtain ⟨reached, other⟩ := dead.short.before reached
    rw [decide_eq_true_iff]
    rintro rfl
    rw [(dead.action other).references, dead.unreferenced (inv.listed reached) other] at references
    contradiction
  · intro u _ skipped
    obtain rfl : u = v := by simpa using skipped
    exact ⟨Op.isQuiet_of_idempotent dead.idempotent, by simp [dead.targets]⟩

theorem oneWriter (once : g.OneWriter) : h.OneWriter := by
  intro phi z u w reached isPhi references containsU containsW writesU writesW
  obtain ⟨reached, other⟩ := dead.short.before reached
  have otherU := dead.short.ne_of_contains containsU
  have otherW := dead.short.ne_of_contains containsW
  rw [dead.short.op (inv.listed reached) other] at isPhi
  rw [(dead.action other).references] at references
  rw [dead.short.contains otherU] at containsU
  rw [dead.short.contains otherW] at containsW
  rw [dead.targets_of_ne otherU] at writesU
  rw [dead.targets_of_ne otherW] at writesW
  exact once reached isPhi references containsU containsW writesU writesW

theorem trimmed (trimmed : g.Trimmed) : h.Trimmed := by
  refine dead.short.trimmed trimmed fun {w} contains ⟨isJump, two, x, arg, const⟩ => ?_
  have other := dead.short.ne_of_contains contains
  have listed := inv.owned (dead.short.contains other ▸ contains)
  refine ⟨dead.short.op listed other ▸ isJump, dead.short.length listed other ▸ two, x, ?_, dead.short.value x ▸ const⟩
  rwa [(dead.action other).args] at arg

end DeadRemoved

end Graph

end MiddleEnd
