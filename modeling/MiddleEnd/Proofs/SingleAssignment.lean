import Mathlib
import MiddleEnd.Proofs.Action
import MiddleEnd.Proofs.Renaming.Outcome

/-!
Single assignment form. Splitting one variable after the other turns a graph into one in which every variable has
versions, and `src` says which variable a version stands for (`Versioned`). Each split keeps that the graph is
coherent: for the variable that is split because the walk renames it right, and for all the others because their
reads and writes stay where they were.

Mathlib is imported whole for the run on `countdown` at the end. Evaluating it takes equations of `List.lookup`, `StateT.set`
and others that the library states in places far apart, and with fewer imports they would be stated here a second time.
-/
namespace MiddleEnd

/-- `v` does what `w` does, on versions of its variables. -/
structure Vertex.Versions (src : VarId → VarId) (v w : Vertex) : Prop where
  op : v.op = w.op
  binOp : v.binOp = w.binOp
  callee : v.callee = w.callee
  owned : v.owned = w.owned
  args : v.args.map (Option.map src) = w.args
  result : v.result.map src = w.result

namespace Vertex.Versions

variable {src : VarId → VarId} {v w : Vertex}

theorem reads (versions : v.Versions src w) : v.reads.map (Option.map src) = w.reads := by
  rw [Vertex.reads, Vertex.reads, versions.op]
  split
  · rfl
  · exact versions.args

/-- Where one reads a variable, the other reads a version of it. -/
theorem exists_read (versions : v.Versions src w) {i : Nat} {x : VarId} (read : w.reads[i]? = some (some x)) :
    ∃ y, v.reads[i]? = some (some y) ∧ src y = x := by
  rw [← versions.reads, List.getElem?_map, Option.map_eq_some_iff] at read
  obtain ⟨a, at_i, isX⟩ := read
  obtain ⟨y, rfl, rfl⟩ := Option.map_eq_some_iff.mp isX
  exact ⟨y, at_i, rfl⟩

theorem targets (versions : v.Versions src w) : v.targets.map src = w.targets := by
  by_cases isFunction : w.op = .function
  · rw [Vertex.targets, Vertex.targets, Vertex.writes, Vertex.writes, if_pos isFunction,
      if_pos (versions.op.trans isFunction), ← versions.args, List.filterMap_map, List.map_filterMap]
    rfl
  · rw [targets_of_op isFunction, targets_of_op (versions.op ▸ isFunction), ← versions.result]
    cases v.result <;> rfl

end Vertex.Versions

/-- `h` is `g` with its variables split into versions and phis between them. -/
structure Versioned (g : Graph) (src : VarId → VarId) (h : Graph) : Prop where
  sound : h.Sound
  inScope : h.Scoped
  size : g.store.size ≤ h.store.size
  expands : g.Expands h (· < g.store.size)
  exit : h.exit = g.exit
  listed : ∀ {v}, v ∈ h.listed ↔ v ∈ g.listed ∨ g.store.size ≤ v ∧ v < h.store.size
  old : ∀ {v}, v ∈ g.listed → (h.vertex v).Versions src (g.vertex v)
  new : ∀ {v}, g.store.size ≤ v → v < h.store.size → h.op v = .phi ∧ Reachable h.succs h.entry v
  params : h.params = g.params
  reach : h.reach = g.reach
  vars : g.vars.size ≤ h.vars.size
  srcOld : ∀ {y}, y < g.vars.size → src y = y
  srcLt : ∀ {y}, y < h.vars.size → src y < g.vars.size
  srcNone : ∀ {y}, h.vars.size ≤ y → src y = y
  oldVar : ∀ {y}, y < g.vars.size → h.var y = g.var y
  newVar : ∀ {y}, g.vars.size ≤ y → y < h.vars.size →
    h.var y = { name := (g.var (src y)).name, type := some ((g.var (src y)).type.getD .unknown) }
  newSource : ∀ {y}, g.vars.size ≤ y → y < h.vars.size → (g.var (src y)).isConst = false
  owned : ∀ {v}, v < g.store.size → h.contains v = g.contains v
  joined : ∀ {phi y u v}, phi ∈ h.listed → h.op phi = .phi → (h.vertex phi).references (some y) = true → u ∈ h.listed →
    v ∈ h.listed → y ∈ (h.vertex u).targets → y ∈ (h.vertex v).targets → u = v ∨ some y ∈ g.params
  coherent : h.Coherent src

/-- A graph without phis is one where nothing was split yet. -/
theorem Versioned.refl {g : Graph} (sound : g.Sound) (inScope : g.Scoped) (noPhi : ∀ v ∈ g.listed, g.op v ≠ .phi) :
    Versioned g id g where
  sound := sound
  inScope := inScope
  size := Nat.le_refl _
  expands := .refl fun _ reached => by simpa using sound.wired.lt_of_reachable reached
  exit := rfl
  listed := ⟨.inl, fun known => known.elim id fun new => absurd new.2 (Nat.not_lt.mpr new.1)⟩
  old _ := ⟨rfl, rfl, rfl, rfl, by simp, by simp⟩
  new new known := absurd known (Nat.not_lt.mpr new)
  params := rfl
  reach := rfl
  vars := Nat.le_refl _
  srcOld _ := rfl
  srcLt := id
  srcNone _ := rfl
  oldVar _ := rfl
  newVar fresh known := absurd known (Nat.not_lt.mpr fresh)
  newSource fresh known := absurd known (Nat.not_lt.mpr fresh)
  owned _ := rfl
  joined listed isPhi := absurd isPhi (noPhi _ listed)
  coherent := by
    refine ⟨fun _ _ _ last => ?_, fun trail isPhi => ?_, fun reached isPhi => ?_⟩
    · simpa using Graph.latest_holds last
    · exact absurd isPhi (noPhi _ (sound.wired.listed_of_reachable trail.reachable))
    · exact absurd isPhi (noPhi _ (sound.wired.listed_of_reachable reached))

/-- What the variables stand for after `x` was split: the new ones for `x`. -/
def splitSource (g h : Graph) (x : VarId) (src : VarId → VarId) (y : VarId) : VarId :=
  if y < g.vars.size then src y else if y < h.vars.size then x else y

/-- A variable that stands for itself alone, and that no phi has to do with. -/
structure Unsplit (src : VarId → VarId) (g : Graph) (x : VarId) : Prop where
  known : x < g.vars.size
  varies : (g.var x).isConst = false
  self : src x = x
  alone : ∀ y < g.vars.size, src y = x → y = x
  noPhi : ∀ v ∈ g.listed, g.op v = .phi → (g.vertex v).references (some x) = false

namespace Renaming.WalkInvariant

variable {g : Graph} {x : VarId} {labels : List VertexId} {s : Renaming} {src : VarId → VarId} {past : List VertexId}
  {u : VertexId} (split : Splitting g x labels) (inv : WalkInvariant g x labels s []) (unsplit : Unsplit src g x)

section
include unsplit

theorem splitSource_version {y : VarId} (version : g.isVersion x y = true) (known : y < s.graph.vars.size) :
    splitSource g s.graph x src y = x := by
  rcases Graph.isVersion_iff.mp version with rfl | fresh
  · rw [splitSource, if_pos unsplit.known, unsplit.self]
  · rw [splitSource, if_neg (Nat.not_lt.mpr fresh), if_pos known]

/-- The versions of `x` are what stands for `x`. -/
theorem splitSource_eq_iff {y : VarId} (known : y < s.graph.vars.size) :
    splitSource g s.graph x src y = x ↔ g.isVersion x y = true := by
  refine ⟨fun same => ?_, fun version => splitSource_version unsplit version known⟩
  rcases Nat.lt_or_ge y g.vars.size with old | fresh
  · rw [splitSource, if_pos old] at same
    exact Graph.isVersion_iff.mpr (.inl (unsplit.alone y old same))
  · exact Graph.isVersion_iff.mpr (.inr fresh)

end

section
include inv

/-- A phi was there before, or it was inserted for `x`. -/
theorem phi_cases (listed : u ∈ s.graph.listed) (isPhi : s.graph.op u = .phi) :
    (u ∈ g.listed ∧ g.op u = .phi) ∨ ∃ l, PhiPlaced g x s l u := by
  rcases Nat.lt_or_ge u g.store.size with old | new
  · obtain ⟨_, _, core, _⟩ := inv.old_core old
    exact .inl ⟨inv.layout.mem_old listed old, (Vertex.core_eq_iff.mp core).op.symm.trans isPhi⟩
  · obtain ⟨l, found⟩ := inv.layout.new new (inv.layout.wired.listed_lt u listed)
    exact .inr ⟨l, (inv.layout.phi found).2.2⟩

include unsplit

/-- For `x` itself, the class is that of its versions. -/
theorem latest_self (trail : Trail s.graph.succs g.entry past u) :
    s.graph.latest (fun z => splitSource g s.graph x src z = x) past = s.graph.latest (g.isVersion x) past := by
  refine Graph.latest_congr fun v passed y writes => ?_
  have listed := inv.layout.wired.listed_of_reachable (inv.layout.entry ▸ trail.reachable_past passed)
  have known := inv.layout.inScope v listed y (Vertex.references_of_mem_targets writes)
  rw [Bool.eq_iff_iff, decide_eq_true_eq]
  exact splitSource_eq_iff unsplit known

include split

/-- An original vertex writes the same of every other variable. -/
theorem find?_targets_other (member : u ∈ g.listed) {k : VarId} (other : k ≠ x) :
    (s.graph.vertex u).targets.find? (fun z => splitSource g s.graph x src z = k) =
      (g.vertex u).targets.find? (fun z => src z = k) := by
  have old := split.sound.wired.listed_lt u member
  -- the two properties agree on what was written before
  have agree : (g.vertex u).targets.find? (fun z => splitSource g s.graph x src z = k) =
      (g.vertex u).targets.find? (fun z => src z = k) := by
    refine List.find?_congr fun y writes => ?_
    have known := split.inScope u member y (Vertex.references_of_mem_targets writes)
    rw [splitSource, if_pos known]
  by_cases isFunction : g.op u = .function
  · rw [← agree, (split.sound.vertices u member).onlyEntry isFunction, inv.targets_entry split]
  · obtain ⟨y, r, core, _, result⟩ := inv.old_core old
    have targets : (s.graph.vertex u).targets = r.toList :=
      (Vertex.targets_congr core).trans (Vertex.targets_of_op isFunction)
    rw [targets, ← agree, Vertex.targets_of_op isFunction]
    rcases result with rfl | ⟨isX, z, rfl, fresh⟩
    · rfl
    · have known : z < s.graph.vars.size := by
        refine inv.layout.inScope u (inv.layout.listed.mpr (.inl member)) z (Vertex.references_of_mem_targets ?_)
        simp [targets]
      have toX : splitSource g s.graph x src z = x :=
        splitSource_version unsplit (Graph.isVersion_iff.mpr (.inr fresh)) known
      have ofX : splitSource g s.graph x src x = x :=
        splitSource_version unsplit (Graph.isVersion_iff.mpr (.inl rfl)) (Nat.lt_of_lt_of_le unsplit.known inv.layout.vars)
      simp [isX, toX, ofX, Ne.symm other]

/-- For every other variable, nothing happened on a path. -/
theorem latest_other (trail : Trail s.graph.succs g.entry past u) {k : VarId} (other : k ≠ x) :
    s.graph.latest (fun z => splitSource g s.graph x src z = k) past =
      g.latest (fun z => src z = k) (past.filter (· < g.store.size)) := by
  refine Graph.latest_filter (fun v passed old => ?_) fun v passed new => ?_
  · have listed := inv.layout.wired.listed_of_reachable (inv.layout.entry ▸ trail.reachable_past passed)
    exact inv.find?_targets_other split unsplit (inv.layout.mem_old listed old) other
  · have settled := inv.settled_of_reachable (trail.reachable_past passed)
    have listed := inv.layout.wired.listed_of_reachable (inv.layout.entry ▸ trail.reachable_past passed)
    obtain ⟨l, found⟩ := inv.layout.new new settled.1
    obtain ⟨r, result, targets, fresh⟩ := (inv.layout.phi found).2.2.exists_target
    have toX : splitSource g s.graph x src r = x :=
      splitSource_version unsplit (Graph.isVersion_iff.mpr (.inr fresh))
        (inv.layout.inScope v listed r (Vertex.references_iff.mpr (.inl result)))
    simp [targets, toX, Ne.symm other]

/-- An operand of an original vertex afterwards is a version that stands in the place of `x`, or was an operand
before. -/
theorem arg_cases (member : u ∈ g.listed) {y : VarId} (arg : some y ∈ (s.graph.vertex u).args) :
    (splitSource g s.graph x src y = x ∧ some x ∈ (g.vertex u).args) ∨
    (splitSource g s.graph x src y = src y ∧ src y ≠ x ∧ some y ∈ (g.vertex u).args) := by
  have old := split.sound.wired.listed_lt u member
  have known := inv.layout.inScope u (inv.layout.listed.mpr (.inl member)) y (Vertex.references_iff.mpr (.inr arg))
  obtain ⟨z, r, core, version, _⟩ := inv.old_core old
  rw [(Vertex.core_eq_iff.mp core).args] at arg
  obtain ⟨a, before, renamed⟩ := List.mem_map.mp arg
  rw [renameTo] at renamed
  split at renamed
  · rename_i isX
    obtain rfl : z = y := by simpa using renamed
    exact .inl ⟨splitSource_version unsplit version known, isX ▸ before⟩
  · rename_i notX
    subst renamed
    have knownBefore := split.inScope u member y (Vertex.references_iff.mpr (.inr before))
    refine .inr ⟨by rw [splitSource, if_pos knownBefore], fun same => notX ?_, before⟩
    rw [unsplit.alone y knownBefore same]

/-- A phi that was there before has nothing to do with `x`, so it stays as it was. -/
theorem old_phi (member : u ∈ g.listed) (isPhi : g.op u = .phi) :
    (s.graph.vertex u).args = (g.vertex u).args ∧ (s.graph.vertex u).result = (g.vertex u).result ∧
    ∀ y, (g.vertex u).references (some y) = true → splitSource g s.graph x src y = src y ∧ src y ≠ x := by
  have old := split.sound.wired.listed_lt u member
  have apart := unsplit.noPhi u member isPhi
  obtain ⟨noResult, noArg⟩ := Vertex.references_eq_false_iff.mp apart
  obtain ⟨z, r, core, _, result⟩ := inv.old_core old
  obtain ⟨_, _, _, resultEq, args, _⟩ := Vertex.core_eq_iff.mp core
  refine ⟨?_, ?_, fun y mentions => ?_⟩
  · rw [args, map_renameTo_of_notMem (.inr noArg)]
  · rcases result with rfl | ⟨isX, _⟩
    · exact resultEq
    · exact absurd isX noResult
  · have known := split.inScope u member y mentions
    refine ⟨by rw [splitSource, if_pos known], fun same => ?_⟩
    rw [unsplit.alone y known same, apart] at mentions
    simp at mentions

/-- A read names the last version. -/
theorem coherent_reads (before : g.Coherent src) (trail : Trail s.graph.succs g.entry past u)
    (notPhi : s.graph.op u ≠ .phi) {y w : VarId} (reads : some y ∈ (s.graph.vertex u).reads)
    (last : s.graph.latest (fun z => splitSource g s.graph x src z = splitSource g s.graph x src y) past = some w) :
    w = y := by
  have listed := inv.layout.wired.listed_of_reachable (inv.layout.entry ▸ trail.reachable)
  have old : u < g.store.size := by
    rcases Nat.lt_or_ge u g.store.size with old | new
    · exact old
    · obtain ⟨l, found⟩ := inv.layout.new new (inv.layout.wired.listed_lt u listed)
      exact absurd (inv.layout.phi found).2.2.op notPhi
  have member := inv.layout.mem_old listed old
  obtain ⟨_, _, core, _⟩ := inv.old_core old
  have op : (s.graph.vertex u).op = (g.vertex u).op := (Vertex.core_eq_iff.mp core).op
  have notFunction : (g.vertex u).op ≠ .function := by
    intro isFunction
    simp [Vertex.reads, op, isFunction] at reads
  have arg : some y ∈ (s.graph.vertex u).args := by simpa [Vertex.reads, op, notFunction] using reads
  have readsBefore : (g.vertex u).reads = (g.vertex u).args := by simp [Vertex.reads, notFunction]
  rcases inv.arg_cases split unsplit member arg with ⟨toX, readsX⟩ | ⟨same, other, argBefore⟩
  · rw [toX, inv.latest_self unsplit trail] at last
    have renamed := inv.args_eq_of_latest split trail old
      (by simpa [Vertex.readsVar, readsBefore] using readsX) last
    rw [renamed] at arg
    obtain ⟨a, member', is⟩ := List.mem_map.mp arg
    rw [renameTo] at is
    split at is
    · simpa using is
    · rename_i notX
      subst is
      have known := split.inScope u member y (Vertex.references_iff.mpr (.inr member'))
      rw [splitSource, if_pos known] at toX
      exact absurd (by rw [unsplit.alone y known toX]) notX
  · rw [same, inv.latest_other split unsplit trail other] at last
    have projected := (inv.expands split).project_kept (inv.layout.entry ▸ trail) (by simpa using old)
    exact before.reads projected (fun isPhi => notPhi (op.trans isPhi)) (readsBefore ▸ argBefore) last

/-- A phi joins the last version. -/
theorem coherent_joins (before : g.Coherent src) (trail : Trail s.graph.succs g.entry past u)
    (isPhi : s.graph.op u = .phi) {r w : VarId} (result : (s.graph.vertex u).result = some r)
    (last : s.graph.latest (fun z => splitSource g s.graph x src z = splitSource g s.graph x src r) past = some w) :
    w = r ∨ some w ∈ (s.graph.vertex u).args := by
  have listed := inv.layout.wired.listed_of_reachable (inv.layout.entry ▸ trail.reachable)
  rcases inv.phi_cases listed isPhi with ⟨member, isPhiBefore⟩ | ⟨l, placed⟩
  · have old := split.sound.wired.listed_lt u member
    obtain ⟨args, resultEq, others⟩ := inv.old_phi split unsplit member isPhiBefore
    have resultBefore := resultEq.symm.trans result
    obtain ⟨same, other⟩ := others r (Vertex.references_iff.mpr (.inl resultBefore))
    rw [same, inv.latest_other split unsplit trail other] at last
    rw [args]
    exact before.joins ((inv.expands split).project_kept (inv.layout.entry ▸ trail) (by simpa using old)) isPhiBefore resultBefore last
  · obtain ⟨r', result', _, fresh⟩ := placed.exists_target
    obtain rfl : r = r' := by simpa [result] using result'
    have known := inv.layout.inScope u listed r (Vertex.references_iff.mpr (.inl result))
    rw [splitSource_version unsplit (Graph.isVersion_iff.mpr (.inr fresh)) known, inv.latest_self unsplit trail] at last
    rcases inv.latest_mem_phi split trail placed.new last with input | isResult
    · exact .inr input
    · exact .inl (by simpa [result] using isResult.symm)

/-- Splitting a variable keeps a graph coherent. -/
theorem coherent (before : g.Coherent src) : s.graph.Coherent (splitSource g s.graph x src) := by
  refine ⟨fun trail notPhi => inv.coherent_reads split unsplit before (inv.layout.entry ▸ trail) notPhi,
    fun trail isPhi => inv.coherent_joins split unsplit before (inv.layout.entry ▸ trail) isPhi, ?_⟩
  intro u r y reached isPhi result input
  have listed := inv.layout.wired.listed_of_reachable reached
  rcases inv.phi_cases listed isPhi with ⟨member, isPhiBefore⟩ | ⟨l, placed⟩
  · have old := split.sound.wired.listed_lt u member
    obtain ⟨args, resultEq, others⟩ := inv.old_phi split unsplit member isPhiBefore
    have resultBefore := resultEq.symm.trans result
    rw [(others r (Vertex.references_iff.mpr (.inl resultBefore))).1,
      (others y (Vertex.references_iff.mpr (.inr (args ▸ input)))).1]
    obtain ⟨past, trail⟩ := reached
    exact before.inputs ((inv.expands split).project_kept trail (by simpa using old)).reachable isPhiBefore resultBefore (args ▸ input)
  · obtain ⟨r', result', _, fresh⟩ := placed.exists_target
    obtain rfl : r = r' := by simpa [result] using result'
    obtain ⟨y', is, version⟩ := placed.args _ input
    obtain rfl : y = y' := by simpa using is
    have knownR := inv.layout.inScope u listed r (Vertex.references_iff.mpr (.inl result))
    have knownY := inv.layout.inScope u listed y (Vertex.references_iff.mpr (.inr input))
    rw [splitSource_version unsplit version knownY,
      splitSource_version unsplit (Graph.isVersion_iff.mpr (.inr fresh)) knownR]

/-- Every vertex that was there before does on versions what it did. -/
theorem versions_old (member : u ∈ g.listed) {w : Vertex} (before : (g.vertex u).Versions src w) :
    (s.graph.vertex u).Versions (splitSource g s.graph x src) w := by
  have listed := inv.layout.listed.mpr (.inl member)
  have inScope := inv.layout.inScope u listed
  obtain ⟨z, r, core, version, result⟩ := inv.old_core (split.sound.wired.listed_lt u member)
  obtain ⟨op, binOp, callee, resultEq, args, _, owned⟩ := Vertex.core_eq_iff.mp core
  have kept {y : VarId} (mentions : (g.vertex u).references (some y) = true) :
      splitSource g s.graph x src y = src y := by
    rw [splitSource, if_pos (split.inScope u member y mentions)]
  refine ⟨op.trans before.op, binOp.trans before.binOp, callee.trans before.callee, owned.trans before.owned, ?_, ?_⟩
  · rw [← before.args, args, List.map_map]
    refine List.map_congr_left fun a arg => ?_
    rw [Function.comp_apply, renameTo]
    split
    · rename_i isX
      have renamed : some z ∈ (s.graph.vertex u).args := by
        rw [args]
        exact List.mem_map.mpr ⟨a, arg, by rw [renameTo, if_pos isX]⟩
      rw [isX, Option.map_some, Option.map_some, unsplit.self,
        splitSource_version unsplit version (inScope z (Vertex.references_iff.mpr (.inr renamed)))]
    · cases a with
      | none => rfl
      | some y => rw [Option.map_some, Option.map_some, kept (Vertex.references_iff.mpr (.inr arg))]
  · rw [← before.result, resultEq]
    rcases result with rfl | ⟨isX, y, rfl, fresh⟩
    · cases isResult : (g.vertex u).result with
      | none => rfl
      | some y => rw [Option.map_some, Option.map_some, kept (Vertex.references_iff.mpr (.inl isResult))]
    · rw [isX, Option.map_some, Option.map_some, unsplit.self, splitSource_version unsplit
        (Graph.isVersion_iff.mpr (.inr fresh)) (inScope y (Vertex.references_iff.mpr (.inl resultEq)))]

omit unsplit in
/-- Who writes an old variable afterwards wrote it before. -/
theorem writes_old (listed : u ∈ s.graph.listed) {y : VarId} (known : y < g.vars.size)
    (writes : y ∈ (s.graph.vertex u).targets) : u ∈ g.listed ∧ y ∈ (g.vertex u).targets := by
  rcases Nat.lt_or_ge u g.store.size with old | new
  · have member := inv.layout.mem_old listed old
    refine ⟨member, ?_⟩
    by_cases isFunction : g.op u = .function
    · rw [(split.sound.vertices u member).onlyEntry isFunction] at writes ⊢
      rwa [inv.targets_entry split] at writes
    · obtain ⟨_, r, core, _, result⟩ := inv.old_core old
      have targets : (s.graph.vertex u).targets = r.toList :=
        (Vertex.targets_congr core).trans (Vertex.targets_of_op isFunction)
      rw [targets] at writes
      rw [Vertex.targets_of_op isFunction]
      rcases result with rfl | ⟨_, z, rfl, fresh⟩
      · exact writes
      · obtain rfl : y = z := by simpa using writes
        exact absurd known (Nat.not_lt.mpr fresh)
  · obtain ⟨l, found⟩ := inv.layout.new new (inv.layout.wired.listed_lt u listed)
    obtain ⟨r, _, targets, fresh⟩ := (inv.layout.phi found).2.2.exists_target
    obtain rfl : y = r := by simpa [targets] using writes
    exact absurd known (Nat.not_lt.mpr fresh)

/-- What a phi references has one writer, unless it is a parameter. -/
theorem joined {g₀ : Graph} (before : Versioned g₀ src g) {phi v : VertexId} {y : VarId} (listed : phi ∈ s.graph.listed)
    (isPhi : s.graph.op phi = .phi) (references : (s.graph.vertex phi).references (some y) = true)
    (listedU : u ∈ s.graph.listed) (listedV : v ∈ s.graph.listed) (writesU : y ∈ (s.graph.vertex u).targets)
    (writesV : y ∈ (s.graph.vertex v).targets) : u = v ∨ some y ∈ g₀.params := by
  rcases inv.phi_cases listed isPhi with ⟨member, isPhiBefore⟩ | ⟨l, placed⟩
  · obtain ⟨args, result, _⟩ := inv.old_phi split unsplit member isPhiBefore
    rw [Vertex.references, args, result] at references
    have known := split.inScope phi member y references
    obtain ⟨memberU, writesU⟩ := inv.writes_old split listedU known writesU
    obtain ⟨memberV, writesV⟩ := inv.writes_old split listedV known writesV
    exact before.joined member isPhiBefore references memberU memberV writesU writesV
  · obtain ⟨r, result, _, fresh⟩ := placed.exists_target
    rcases Vertex.references_iff.mp references with isResult | input
    · obtain rfl : r = y := Option.some.inj (result.symm.trans isResult)
      exact .inl (inv.writers u listedU v listedV r fresh writesU writesV)
    · obtain ⟨z, is, version⟩ := placed.args _ input
      obtain rfl : y = z := Option.some.inj is
      rcases Graph.isVersion_iff.mp version with rfl | fresh
      · exact .inr (before.params ▸ placed.param input)
      · exact .inl (inv.writers u listedU v listedV y fresh writesU writesV)

/-- Splitting a further variable. -/
theorem versioned {g₀ : Graph} (before : Versioned g₀ src g) :
    Versioned g₀ (splitSource g s.graph x src) s.graph := by
  have sizes := before.size
  have known : x < g₀.vars.size := by
    have := before.srcLt unsplit.known
    rwa [unsplit.self] at this
  have old {y : VarId} (lt : y < g.vars.size) : splitSource g s.graph x src y = src y := by
    rw [splitSource, if_pos lt]
  have new {y : VarId} (ge : g.vars.size ≤ y) (lt : y < s.graph.vars.size) : splitSource g s.graph x src y = x := by
    rw [splitSource, if_neg (Nat.not_lt.mpr ge), if_pos lt]
  refine {
    sound := inv.sound split
    inScope := inv.layout.inScope
    size := Nat.le_trans sizes inv.layout.size
    expands := before.expands.trans (inv.expands split) fun v lt => by
      simpa using Nat.lt_of_lt_of_le (by simpa using lt) sizes
    exit := inv.layout.exit.trans before.exit
    listed := ?_
    old := fun member => inv.versions_old split unsplit (before.listed.mpr (.inl member)) (before.old member)
    new := ?_
    params := ?_
    reach := inv.layout.reach.trans before.reach
    vars := Nat.le_trans before.vars inv.layout.vars
    srcOld := fun lt => by rw [old (Nat.lt_of_lt_of_le lt before.vars), before.srcOld lt]
    srcLt := fun {y} lt => ?_
    srcNone := fun ge => by
      rw [splitSource, if_neg (Nat.not_lt.mpr (Nat.le_trans inv.layout.vars ge)), if_neg (Nat.not_lt.mpr ge)]
    oldVar := fun lt => by rw [inv.layout.oldVar (Nat.lt_of_lt_of_le lt before.vars), before.oldVar lt]
    newVar := fun {y} fresh lt => ?_
    newSource := fun {y} fresh lt => ?_
    owned := fun {v} lt => ?_
    joined := fun listed isPhi references listedU listedV writesU writesV =>
      inv.joined split unsplit before listed isPhi references listedU listedV writesU writesV
    coherent := inv.coherent split unsplit before.coherent }
  · intro v
    have := inv.layout.size
    rw [inv.layout.listed, before.listed]
    grind
  · intro v fresh inside
    rcases Nat.lt_or_ge v g.store.size with lt | ge
    · obtain ⟨_, _, core, _⟩ := inv.old_core lt
      obtain ⟨isPhi, reached⟩ := before.new fresh lt
      exact ⟨(Vertex.core_eq_iff.mp core).op.trans isPhi, (inv.expands split).reachable reached⟩
    · obtain ⟨l, found⟩ := inv.layout.new ge inside
      obtain ⟨isLabel, _, placed⟩ := inv.layout.phi found
      have behind : v ∈ s.graph.succs l := by simp [Graph.succs, (Vertex.core_eq_iff.mp placed.label).succs]
      exact ⟨placed.op, ((inv.expands split).reachable (split.placed.reachable l isLabel)).step behind⟩
  · rw [← before.params, Graph.params, Graph.params, inv.layout.entry, inv.args_entry split]
  · rcases Nat.lt_or_ge y g.vars.size with lt' | ge
    · rw [old lt']
      exact before.srcLt lt'
    · rw [new ge lt]
      exact known
  · rcases Nat.lt_or_ge y g.vars.size with lt' | ge
    · rw [inv.layout.oldVar lt', old lt', before.newVar fresh lt']
    · rw [inv.layout.newVar ge lt, new ge lt, before.oldVar known]
  · rcases Nat.lt_or_ge y g.vars.size with lt' | ge
    · rw [old lt']
      exact before.newSource fresh lt'
    · rw [new ge lt, ← before.oldVar known]
      exact unsplit.varies
  · obtain ⟨_, _, core, _⟩ := inv.old_core (Nat.lt_of_lt_of_le lt sizes)
    exact (Vertex.core_eq_iff.mp core).owned.trans (before.owned lt)

/-- Only the entry still writes `x` itself. -/
theorem eq_entry_of_writes (reached : Reachable s.graph.succs g.entry u) (writes : x ∈ (s.graph.vertex u).targets) :
    u = g.entry := by
  have listed := inv.layout.wired.listed_of_reachable (inv.layout.entry ▸ reached)
  obtain ⟨member, before⟩ := inv.writes_old split listed unsplit.known writes
  have old := split.sound.wired.listed_lt u member
  have sound := split.sound.vertices u member
  by_cases isFunction : g.op u = .function
  · exact sound.onlyEntry isFunction
  · have isX : (g.vertex u).result = some x := by simpa [Vertex.targets_of_op isFunction] using before
    cases found : s.phis.lookup u with
    | some phi =>
      have none := sound.result_eq_none (by rw [split.placed.label u (inv.layout.phi found).1]; rfl)
      simp [none] at isX
    | none =>
      obtain ⟨past, visited⟩ := inv.visited u (inv.settled_of_reachable reached) found
      obtain ⟨r, core, result⟩ := (visited.renamed old).core
      rw [if_pos isX] at result
      obtain ⟨y, rfl, fresh⟩ := result
      have targets : (s.graph.vertex u).targets = [y] :=
        (Vertex.targets_congr core).trans (Vertex.targets_of_op isFunction)
      obtain rfl : x = y := by simpa [targets] using writes
      exact absurd unsplit.known (Nat.not_lt.mpr fresh)

/-- The variables that are still to be split have nothing to do with the new phis. -/
theorem unsplit_other {y : VarId} (other : y ≠ x) (before : Unsplit src g y) :
    Unsplit (splitSource g s.graph x src) s.graph y := by
  refine ⟨Nat.lt_of_lt_of_le before.known inv.layout.vars, ?_, ?_, fun z known same => ?_, fun v listed isPhi => ?_⟩
  · rw [inv.layout.oldVar before.known]
    exact before.varies
  · rw [splitSource, if_pos before.known, before.self]
  · rcases Nat.lt_or_ge z g.vars.size with old | new
    · rw [splitSource, if_pos old] at same
      exact before.alone z old same
    · rw [splitSource, if_neg (Nat.not_lt.mpr new), if_pos known] at same
      exact absurd same.symm other
  · rcases inv.phi_cases listed isPhi with ⟨member, isPhiBefore⟩ | ⟨l, placed⟩
    · obtain ⟨args, result, _⟩ := inv.old_phi split unsplit member isPhiBefore
      rw [Vertex.references, args, result]
      exact before.noPhi v member isPhiBefore
    · obtain ⟨r, result, _, fresh⟩ := placed.exists_target
      refine Vertex.references_eq_false_iff.mpr ⟨fun is => ?_, fun input => ?_⟩
      · obtain rfl : r = y := by simpa [result] using is
        exact absurd before.known (Nat.not_lt.mpr fresh)
      · obtain ⟨z, is, version⟩ := placed.args _ input
        obtain rfl : y = z := by simpa using is
        rcases Graph.isVersion_iff.mp version with same | fresh
        · exact other same
        · exact absurd before.known (Nat.not_lt.mpr fresh)

end

end Renaming.WalkInvariant

/-! ### One variable after the other -/

/-- Kept dominators are no younger than the graph, and answer for it if they are of its epoch. -/
def Analysis.Dated (a : Analysis) : Prop :=
  ∀ d, a.forward = some d → d.epoch ≤ a.graph.epoch ∧ (d.epoch = a.graph.epoch → d.dominators.Faithful a.graph)

namespace Analysis

variable {a a' : Analysis} {x : VarId}

/-- The dominators that are looked up are those of the graph. -/
theorem dominators_faithful (wired : a.graph.Wired) (dated : a.Dated) : a.dominators.1.Faithful a.graph := by
  rw [dominators, current.eq_def]
  dsimp only
  split
  · rename_i d kept
    split
    · exact (dated d kept).2 ‹_›
    · exact Dominators.faithful_ofGraph wired
  · exact Dominators.faithful_ofGraph wired

theorem epoch_of_dominators {d : DatedDominators} (kept : a.dominators.2.forward = some d) :
    d.epoch = a.graph.epoch ∧ d.dominators = a.dominators.1 := by
  simp only [dominators, Option.some.injEq] at kept ⊢
  refine ⟨?_, by rw [kept]⟩
  rw [← kept, current.eq_def]
  split
  · split
    · assumption
    · rfl
  · rfl

/-- What a successful split of a variable did. -/
theorem singleAssignmentOf_succeeds (done : (singleAssignmentOf x).Succeeds a () a') :
    ((a.graph.definitions (some x)).length < 2 ∧ a' = a) ∨
    ∃ labels, a.graph.phiLabels a.dominators.1 x (a.graph.definitions (some x)) = .ok labels ∧
      a' = { a.dominators.2 with graph := a.graph.splitVariable x labels } := by
  simp only [singleAssignmentOf, Action.bind_succeeds, Action.get_succeeds] at done
  obtain ⟨b, _, ⟨rfl, rfl⟩, done⟩ := done
  split at done
  · rename_i few
    simp only [Action.pure_succeeds, true_and] at done
    exact .inl ⟨few, done.symm⟩
  · simp only [Action.bind_succeeds, Action.set_succeeds] at done
    obtain ⟨_, _, rfl, done⟩ := done
    split at done
    · simp at done
    · rename_i labels chosen
      rw [Action.set_succeeds] at done
      exact .inr ⟨labels, chosen, done.symm⟩

end Analysis

/-- How far splitting has come: `rest` is still to be split, and everything else is written once. -/
structure Stage (g : Graph) (src : VarId → VarId) (rest : List VarId) (a : Analysis) : Prop where
  versioned : Versioned g src a.graph
  dated : a.Dated
  unsplit : ∀ x ∈ rest, Unsplit src a.graph x
  once : ∀ y, y ∉ rest → ∀ {u v}, Reachable a.graph.succs a.graph.entry u →
    Reachable a.graph.succs a.graph.entry v → y ∈ (a.graph.vertex u).targets → y ∈ (a.graph.vertex v).targets → u = v

namespace Stage

variable {g : Graph} {src : VarId → VarId} {x : VarId} {rest : List VarId} {a a' : Analysis}

/-- A variable with one definition stays as it is. -/
theorem keep (stage : Stage g src (x :: rest) a) (few : (a.graph.definitions (some x)).length < 2) :
    Stage g (splitSource a.graph a.graph x src) rest a := by
  have same : splitSource a.graph a.graph x src = src := by
    funext y
    rw [splitSource]
    split
    · rfl
    · rename_i ge
      exact (stage.versioned.srcNone (Nat.le_of_not_lt ge)).symm
  rw [same]
  refine ⟨stage.versioned, stage.dated, fun y member => stage.unsplit y (List.mem_cons_of_mem _ member), ?_⟩
  intro y notRest u v reachedU reachedV writesU writesV
  by_cases isX : y = x
  · subst isX
    have defines {w : VertexId} (reached : Reachable a.graph.succs a.graph.entry w)
        (writes : y ∈ (a.graph.vertex w).targets) : w ∈ a.graph.definitions (some y) :=
      List.mem_filter.mpr ⟨stage.versioned.sound.wired.listed_of_reachable reached, Vertex.mem_targets.mp writes⟩
    have first := defines reachedU writesU
    have second := defines reachedV writesV
    match listed : a.graph.definitions (some y), few with
    | [], _ => simp [listed] at first
    | [w], _ => simp_all
  · exact stage.once y (by simp [isX, notRest]) reachedU reachedV writesU writesV

/-- The first variable of the rest can be split. -/
theorem splitting (stage : Stage g src (x :: rest) a) {labels : List VertexId}
    (chosen : a.graph.phiLabels a.dominators.1 x (a.graph.definitions (some x)) = .ok labels) :
    Renaming.Splitting a.graph x labels := by
  have sound := stage.versioned.sound
  have unsplit := stage.unsplit x List.mem_cons_self
  have faithful := Analysis.dominators_faithful sound.wired stage.dated
  exact ⟨sound, stage.versioned.inScope, unsplit.known, unsplit.noPhi, Graph.placed_of_phiLabels sound faithful chosen⟩

/-- A variable with more definitions is split. -/
theorem split (stage : Stage g src (x :: rest) a) (fresh : x ∉ rest) {labels : List VertexId}
    (chosen : a.graph.phiLabels a.dominators.1 x (a.graph.definitions (some x)) = .ok labels) :
    Stage g (splitSource a.graph (a.graph.splitVariable x labels) x src) rest
      { a.dominators.2 with graph := a.graph.splitVariable x labels } := by
  have sound := stage.versioned.sound
  have faithful := Analysis.dominators_faithful sound.wired stage.dated
  have unsplit := stage.unsplit x List.mem_cons_self
  have splitting := stage.splitting chosen
  obtain ⟨s, graph, inv⟩ := Renaming.walkInvariant_splitVariable splitting
  rw [← graph]
  refine ⟨inv.versioned splitting unsplit stage.versioned, ?_, ?_, ?_⟩
  · intro d kept
    obtain ⟨epoch, dominators⟩ := Analysis.epoch_of_dominators kept
    refine ⟨by rw [epoch]; exact inv.layout.epoch, fun same => ?_⟩
    rw [dominators]
    refine faithful.congr inv.layout.entry fun v => ?_
    have none := inv.layout.sameEpoch (same.symm.trans epoch)
    rcases Nat.lt_or_ge v s.graph.store.size with inside | outside
    · rcases inv.succs_cases inside with ⟨_, found, _⟩ | ⟨_, found, _⟩ | ⟨_, _, succs⟩
      · simp [none] at found
      · simp [none] at found
      · exact succs
    · rw [Graph.succs_of_ge outside, Graph.succs_of_ge (Nat.le_trans inv.layout.size outside)]
  · intro y member
    exact inv.unsplit_other splitting unsplit (fun same => fresh (same ▸ member))
      (stage.unsplit y (List.mem_cons_of_mem _ member))
  · intro y notRest u v reachedU reachedV writesU writesV
    rw [inv.layout.entry] at reachedU reachedV
    by_cases isX : y = x
    · subst isX
      rw [inv.eq_entry_of_writes splitting unsplit reachedU writesU,
        inv.eq_entry_of_writes splitting unsplit reachedV writesV]
    · rcases Nat.lt_or_ge y a.graph.vars.size with old | new
      · have before {w : VertexId} (reached : Reachable s.graph.succs a.graph.entry w)
            (writes : y ∈ (s.graph.vertex w).targets) :
            Reachable a.graph.succs a.graph.entry w ∧ y ∈ (a.graph.vertex w).targets := by
          obtain ⟨member, writes⟩ := inv.writes_old splitting
            (inv.layout.wired.listed_of_reachable (inv.layout.entry ▸ reached)) old writes
          obtain ⟨past, trail⟩ := reached
          exact ⟨((inv.expands splitting).project_kept (inv.layout.entry ▸ trail)
            (by simpa using sound.wired.listed_lt w member)).reachable, writes⟩
        obtain ⟨beforeU, writesU⟩ := before reachedU writesU
        obtain ⟨beforeV, writesV⟩ := before reachedV writesV
        exact stage.once y (by simp [isX, notRest]) beforeU beforeV writesU writesV
      · have listed {w : VertexId} (reached : Reachable s.graph.succs a.graph.entry w) : w ∈ s.graph.listed :=
          inv.layout.wired.listed_of_reachable (inv.layout.entry ▸ reached)
        exact inv.writers u (listed reachedU) v (listed reachedV) y new writesU writesV

end Stage

namespace Analysis

/-- What the variables stand for after those of a list were split in turn. -/
def sourcesAfter : List VarId → Analysis → (VarId → VarId) → VarId → VarId
  | [], _, src => src
  | x :: rest, a, src =>
    let next := ((singleAssignmentOf x).outcome a).2
    sourcesAfter rest next (splitSource a.graph next.graph x src)

/-- What the variables of the single assignment form stand for: those that splitting a variable made stand for it,
all others for themselves. -/
def source (a : Analysis) : VarId → VarId :=
  sourcesAfter (a.graph.mentioned?.getD []) a id

variable {a a' : Analysis}

theorem stage_sourcesAfter {g : Graph} {src : VarId → VarId} {rest : List VarId} (stage : Stage g src rest a)
    (distinct : rest.Nodup) (done : (rest.forM singleAssignmentOf).Succeeds a () a') :
    Stage g (sourcesAfter rest a src) [] a' := by
  induction rest generalizing a src with
  | nil =>
    obtain rfl := Action.forM_nil_succeeds.mp done
    exact stage
  | cons x rest ih =>
    obtain ⟨next, first, others⟩ := Action.forM_cons_succeeds.mp done
    obtain ⟨fresh, distinct⟩ := List.nodup_cons.mp distinct
    have after : ((singleAssignmentOf x).outcome a).2 = next := congrArg Prod.snd first
    rw [sourcesAfter, after]
    refine ih ?_ distinct others
    rcases singleAssignmentOf_succeeds first with ⟨few, rfl⟩ | ⟨labels, chosen, rfl⟩
    · exact stage.keep few
    · exact stage.split fresh chosen

/-- What splitting each variable in turn keeps true, with the variables that are still to be split. A variable with less than
two definitions is left as it is. -/
theorem forM_induct {g : Graph} {src : VarId → VarId} {rest : List VarId} {P : List VarId → Analysis → Prop}
    (stage : Stage g src rest a) (distinct : rest.Nodup) (done : (rest.forM singleAssignmentOf).Succeeds a () a')
    (start : P rest a)
    (keep : ∀ x rest b, (b.graph.definitions (some x)).length < 2 → P (x :: rest) b → P rest b)
    (split : ∀ src x rest b labels, Stage g src (x :: rest) b →
      b.graph.phiLabels b.dominators.1 x (b.graph.definitions (some x)) = .ok labels → P (x :: rest) b →
      P rest { b.dominators.2 with graph := b.graph.splitVariable x labels }) :
    P [] a' := by
  induction rest generalizing a src with
  | nil =>
    obtain rfl := Action.forM_nil_succeeds.mp done
    exact start
  | cons x rest ih =>
    obtain ⟨next, first, others⟩ := Action.forM_cons_succeeds.mp done
    obtain ⟨fresh, distinct⟩ := List.nodup_cons.mp distinct
    rcases singleAssignmentOf_succeeds first with ⟨few, rfl⟩ | ⟨labels, chosen, rfl⟩
    · exact ih (stage.keep few) distinct others (keep x rest _ few start)
    · exact ih (stage.split fresh chosen) distinct others (split src x rest _ labels stage chosen start)

/-- Before anything is split, only variables with more than one definition can be written twice, and those are all
to be split. -/
theorem stage_start (sound : a.graph.Sound) (inScope : a.graph.Scoped) (noPhi : ∀ v ∈ a.graph.listed, a.graph.op v ≠ .phi)
    (dated : a.Dated) {xs : List VarId} (mentioned : a.graph.mentioned? = some xs) : Stage a.graph id xs a := by
  refine ⟨.refl sound inScope noPhi, dated, fun x member => ?_, fun y notXs u v reachedU reachedV writesU writesV => ?_⟩
  · obtain ⟨known, varies, _⟩ := (Graph.mem_of_mentioned? mentioned).mp member
    exact ⟨known, varies, rfl, fun _ _ same => same, fun v listed isPhi => absurd isPhi (noPhi v listed)⟩
  · -- what is not to be split is a constant, and constants are written at most by the entry
    have atEntry {w : VertexId} (reached : Reachable a.graph.succs a.graph.entry w)
        (writes : y ∈ (a.graph.vertex w).targets) : w = a.graph.entry := by
      have listed := sound.wired.listed_of_reachable reached
      have mentions := Vertex.references_of_mem_targets writes
      by_cases isFunction : a.graph.op w = .function
      · exact (sound.vertices w listed).onlyEntry isFunction
      · have result : (a.graph.vertex w).result = some y := by simpa [Vertex.targets_of_op isFunction] using writes
        exact absurd ((Graph.mem_of_mentioned? mentioned).mpr ⟨inScope w listed y mentions,
          (sound.vertices w listed).writesVariable y result, w, listed, mentions⟩) notXs
    rw [atEntry reachedU writesU, atEntry reachedV writesV]

/-- The pass is the splits of the variables that the graph mentions, one after the other. -/
theorem toSingleAssignment_succeeds (done : toSingleAssignment.Succeeds a () a') :
    ∃ xs, a.graph.mentioned? = some xs ∧ xs.Nodup ∧ (xs.forM singleAssignmentOf).Succeeds a () a' := by
  simp only [toSingleAssignment, Action.bind_succeeds, Action.get_succeeds, Action.need_succeeds] at done
  obtain ⟨_, _, ⟨rfl, rfl⟩, xs, _, ⟨mentioned, rfl⟩, done⟩ := done
  exact ⟨xs, mentioned, Graph.nodup_of_mentioned? mentioned, done⟩

/-- The whole pass splits everything that has to be split. -/
theorem stage_toSingleAssignment (sound : a.graph.Sound) (inScope : a.graph.Scoped)
    (noPhi : ∀ v ∈ a.graph.listed, a.graph.op v ≠ .phi) (dated : a.Dated)
    (done : toSingleAssignment.Succeeds a () a') : Stage a.graph a.source [] a' := by
  obtain ⟨xs, mentioned, distinct, done⟩ := toSingleAssignment_succeeds done
  rw [source, mentioned]
  exact stage_sourcesAfter (stage_start sound inScope noPhi dated mentioned) distinct done

/-- Single assignment form renames right along every path. Among the vertices that can be reached each variable has
one definition. If `w` is the version of `x` that a path wrote last before it arrives at `u`, then `u` reads `w`
wherever it read `x`, and if `u` is a phi that was inserted for `x`, then `w` is one of its inputs or its result. -/
theorem toSingleAssignment_reads_latest (a a' : Analysis) (passes : a.graph.verify = none) (inScope : a.graph.Scoped)
    (noPhi : ∀ v ∈ a.graph.listed, a.graph.op v ≠ .phi) (dated : a.Dated)
    (done : toSingleAssignment.Succeeds a () a') :
    (∀ y u v, Reachable a'.graph.succs a'.graph.entry u → Reachable a'.graph.succs a'.graph.entry v →
      (a'.graph.vertex u).writesVar (some y) = true → (a'.graph.vertex v).writesVar (some y) = true → u = v) ∧
    ∀ x past u w, Trail a'.graph.succs a'.graph.entry past u →
      a'.graph.latest (fun y => a.source y = x) past = some w →
      (u < a.graph.store.size → ∀ i : Nat, (a.graph.vertex u).reads[i]? = some (some x) →
        (a'.graph.vertex u).reads[i]? = some (some w)) ∧
      (a.graph.store.size ≤ u → a'.graph.op u = .phi ∧ ∀ r, (a'.graph.vertex u).result = some r → a.source r = x →
        some w ∈ (a'.graph.vertex u).args ∨ r = w) := by
  have stage := stage_toSingleAssignment (Graph.sound_of_verify passes) inScope noPhi dated done
  have versioned := stage.versioned
  refine ⟨fun y u v reachedU reachedV writesU writesV => ?_, fun x past u w trail last => ⟨?_, ?_⟩⟩
  · exact stage.once y (by simp) reachedU reachedV (Vertex.mem_targets.mpr writesU) (Vertex.mem_targets.mpr writesV)
  · intro old i reads
    have listed := versioned.sound.wired.listed_of_reachable trail.reachable
    have member : u ∈ a.graph.listed := by
      rcases versioned.listed.mp listed with member | ⟨new, _⟩
      · exact member
      · exact absurd old (Nat.not_lt.mpr new)
    have same := versioned.old member
    obtain ⟨y, at_i, rfl⟩ := same.exists_read reads
    have notPhi : a'.graph.op u ≠ .phi := fun isPhi => noPhi u member (same.op.symm.trans isPhi)
    rw [at_i, versioned.coherent.reads trail notPhi (List.mem_of_getElem? at_i) last]
  · intro new
    obtain ⟨isPhi, _⟩ := versioned.new new (versioned.sound.wired.lt_of_reachable trail.reachable)
    refine ⟨isPhi, ?_⟩
    rintro r result rfl
    exact (versioned.coherent.joins trail isPhi result last).symm.imp_right Eq.symm

/-- A loop that counts a parameter down: read and written again behind a label that is entered from two sides. -/
def countdown : Graph where
  name := "countdown"
  sig := ⟨[some .long], .long⟩
  entry := 0
  exit := 1
  store := #[
    { op := .function, args := [some 0], succs := [2], owned := true },
    { op := .finish, preds := [5], owned := true },
    { op := .label, succs := [3], preds := [0, 4], owned := true },
    { op := .jumpIf, args := [some 0], succs := [4, 5], preds := [2], owned := true },
    { op := .binary, binOp := .minus, result := some 0, args := [some 0, some 1], succs := [2], preds := [3],
      owned := true },
    { op := .ret, args := [some 0], succs := [1], preds := [3], owned := true }]
  listed := [0, 1, 2, 3, 4, 5]
  vars := #[{ name := "n", type := some .long }, { type := some .long, value := some (.long 1) }]
  epoch := 0
  reach := none

/-- The loop in single assignment form. -/
def countdownSplit : Graph where
  name := "countdown"
  sig := ⟨[some .long], .long⟩
  entry := 0
  exit := 1
  store := #[
    { op := .function, args := [some 0], succs := [2], owned := true },
    { op := .finish, preds := [5], owned := true },
    { op := .label, succs := [6], preds := [0, 4], owned := true },
    { op := .jumpIf, args := [some 2], succs := [4, 5], preds := [6], owned := true },
    { op := .binary, binOp := .minus, result := some 3, args := [some 2, some 1], succs := [2], preds := [3],
      owned := true },
    { op := .ret, args := [some 2], succs := [1], preds := [3], owned := true },
    { op := .phi, result := some 2, args := [some 0, some 3], succs := [3], preds := [2], owned := true }]
  listed := [0, 1, 2, 3, 4, 5, 6]
  vars := #[{ name := "n", type := some .long }, { type := some .long, value := some (.long 1) },
    { name := "n", type := some .long }, { name := "n", type := some .long }]
  epoch := 2
  reach := none

theorem graph_split_countdown : ((singleAssignmentOf 0).outcome { graph := countdown }).2.graph = countdownSplit := by
  cbv

theorem source_countdown : source { graph := countdown } = splitSource countdown countdownSplit 0 id := by
  have mentioned : countdown.mentioned? = some [0] := congrArg some (sortById_of_pairwise (List.pairwise_singleton _ 0))
  rw [source, mentioned, Option.getD_some, sourcesAfter, sourcesAfter, graph_split_countdown]

theorem toSingleAssignment_countdown :
    ∃ a', toSingleAssignment.Succeeds { graph := countdown } () a' ∧ a'.graph = countdownSplit := by
  have ok : (toSingleAssignment.outcome { graph := countdown }).1 = .ok () := by cbv
  have graph : (toSingleAssignment.outcome { graph := countdown }).2.graph = countdownSplit := by cbv
  exact ⟨_, Prod.ext ok rfl, graph⟩

/-- Twice around the loop, the returned value is the version that the phi wrote. -/
theorem countdown_reads_latest :
    Trail countdownSplit.succs countdownSplit.entry [0, 2, 6, 3, 4, 2, 6, 3] 5 ∧
    countdownSplit.latest (fun y => source { graph := countdown } y = 0) [0, 2, 6, 3, 4, 2, 6, 3] = some 2 ∧
    (countdownSplit.vertex 5).reads[0]? = some (some 2) := by
  obtain ⟨a', done, graph⟩ := toSingleAssignment_countdown
  have trail : Trail countdownSplit.succs countdownSplit.entry [0, 2, 6, 3, 4, 2, 6, 3] 5 := by
    have edge : ∀ e ∈ [(0, 2), (2, 6), (6, 3), (3, 4), (4, 2), (3, 5)], e.2 ∈ countdownSplit.succs e.1 := by decide
    exact (((((((Trail.start.step (edge (0, 2) (by decide))).step (edge (2, 6) (by decide))).step
      (edge (6, 3) (by decide))).step (edge (3, 4) (by decide))).step (edge (4, 2) (by decide))).step
      (edge (2, 6) (by decide))).step (edge (6, 3) (by decide))).step (edge (3, 5) (by decide))
  have last : countdownSplit.latest (fun y => source { graph := countdown } y = 0) [0, 2, 6, 3, 4, 2, 6, 3] = some 2 := by
    rw [source_countdown]
    decide
  have reads := toSingleAssignment_reads_latest { graph := countdown } a' (by decide) (by decide) (by decide) nofun done
  rw [graph] at reads
  exact ⟨trail, last, (reads.2 0 _ 5 2 trail last).1 (by decide) 0 rfl⟩

end Analysis

end MiddleEnd
