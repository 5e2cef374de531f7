import MiddleEnd.Proofs.Renaming.Walk

/-!
What a finished walk has done. Its graph expands the original one (`expands`) and is sound again (`sound`). On every
path the last version of the variable is the one that the last site stands for (`latestAtSite`), and since the
sites were chosen so that the last one is the same on all paths where the variable is live, every read names that
version (`args_eq_of_latest`) and every phi has it as an input (`latest_mem_phi`).
-/
namespace MiddleEnd

namespace Renaming

variable {g : Graph} {x : VarId} {labels : List VertexId} {s : Renaming} {past : List VertexId} {u v : VertexId}

/-! ### The walk from the start -/

theorem Extended.refl (wired : g.Wired) (inScope : g.Scoped) : Extended g x g where
  entry := rfl
  exit := rfl
  size := Nat.le_refl _
  listed := ⟨.inl, fun known => known.elim id fun new => absurd new.2 (Nat.not_lt.mpr new.1)⟩
  wired := wired
  vars := Nat.le_refl _
  oldVar _ := rfl
  newVar fresh known := absurd known (Nat.not_lt.mpr fresh)
  inScope := inScope
  epoch := Nat.le_refl _
  reach := rfl

theorem Extended.isConst_new {h : Graph} (ext : Extended g x h) {y : VarId} (fresh : g.vars.size ≤ y)
    (known : y < h.vars.size) : (h.var y).isConst = false := by
  rw [ext.newVar fresh known]
  rfl

/-- The entry is the first frame, and carries `x` if it is a parameter. -/
theorem frameOk_entry (split : Splitting g x labels) {s : Renaming} (start : s.graph = g) :
    FrameOk g x s ⟨g.entry, x, g.params.contains (some x)⟩ := by
  refine ⟨⟨[], ⟨.start, by simp⟩, ?_⟩, fun _ => rfl, Graph.isVersion_iff.mpr (.inl rfl), start ▸ split.known,
    fun defined _ => by simpa using defined⟩
  have targets : (g.vertex g.entry).targets = g.params.filterMap id := by
    have isFunction : (g.vertex g.entry).op = .function := split.sound.entryOp
    simp [Vertex.targets, Vertex.writes, isFunction, Graph.params]
  have isX {y : VarId} (param : some y ∈ g.params) : g.isVersion x y = true ↔ y = x := by
    have known : y < g.vars.size :=
      split.inScope g.entry split.sound.wired.entry_listed y (Vertex.references_iff.mpr (.inr param))
    simp [Graph.isVersion, Nat.not_le.mpr known]
  rw [arrivingAt, if_pos (.inl rfl), Graph.latest_concat, Graph.latest_nil, Option.or_none, start, targets,
    RenameFrame.carried]
  by_cases param : some x ∈ g.params
  · simp only [List.contains_iff_mem, param, ↓reduceIte]
    cases found : (g.params.filterMap id).find? (g.isVersion x) with
    | none =>
      rw [List.find?_eq_none] at found
      exact absurd (Graph.isVersion_iff.mpr (.inl rfl)) (found x (by simpa using param))
    | some y => rw [(isX (by simpa using List.mem_of_find?_eq_some found)).mp (List.find?_some found)]
  · simp only [List.contains_iff_mem, param, ↓reduceIte, List.find?_eq_none]
    intro y member version
    have isParam : some y ∈ g.params := by simpa using member
    exact param ((isX isParam).mp version ▸ isParam)

theorem walkInvariant_start (split : Splitting g x labels) :
    WalkInvariant g x labels ⟨g, VertexSet.below g.store.size, VertexSet.ofList labels, []⟩
      [⟨g.entry, x, g.params.contains (some x)⟩] := by
  have nothing {v : VertexId} : ¬ Settled ⟨g, VertexSet.below g.store.size, VertexSet.ofList labels, []⟩ v :=
    fun settled => settled.2 (VertexSet.mem_below.mpr settled.1)
  refine ⟨{ Extended.refl split.sound.wired split.inScope with
    sameEpoch := fun _ => rfl
    pending := fun member => ?_
    marked := fun member => .inl (VertexSet.mem_ofList.mpr member)
    phi := nofun
    new := fun new known => absurd known (Nat.not_lt.mpr new)
    untouched := fun _ _ => rfl }, ?_, ⟨_, .inl ⟨_, List.mem_singleton_self _, rfl, rfl⟩⟩,
    nofun, fun u settled => absurd settled nothing, ?_⟩
  · have isLabel := VertexSet.mem_ofList.mp member
    exact ⟨isLabel, VertexSet.mem_below.mpr (split.label_lt isLabel)⟩
  · intro f member
    rw [List.mem_singleton.mp member]
    exact frameOk_entry split rfl
  · intro u member v _ y fresh writes
    have known := split.inScope u member y (Vertex.references_of_mem_targets writes)
    exact absurd known (Nat.not_lt.mpr fresh)

/-- Splitting a variable ends with everything taken care of. -/
theorem walkInvariant_splitVariable (split : Splitting g x labels) :
    ∃ s, s.graph = g.splitVariable x labels ∧ WalkInvariant g x labels s [] :=
  walkInvariant_walk split (walkInvariant_start split)

/-! ### Vertices and edges -/

theorem Arrived.done {t : VertexId} {c : Option VarId} (arrived : s.Arrived [] t c) : s.Done t c := by
  rcases arrived with ⟨f, none, _⟩ | done
  · simp at none
  · exact done

namespace WalkInvariant

section
variable (inv : WalkInvariant g x labels s [])
include inv

/-- Everything that can be reached was settled. -/
theorem settled_of_reachable (reached : Reachable s.graph.succs g.entry v) : s.Settled v := by
  obtain ⟨past, trail⟩ := reached
  refine trail.invariant ?_ fun u t settled edge => ?_
  · obtain ⟨c, arrived⟩ := inv.root
    exact arrived.done.1
  · cases found : s.phis.lookup u with
    | none =>
      obtain ⟨past, visited⟩ := inv.visited u settled found
      exact (visited.onward t edge).done.1
    | some phi =>
      obtain ⟨c, arrived⟩ := inv.phis found
      have succs : s.graph.succs u = [phi] := (Vertex.core_eq_iff.mp (inv.layout.phi found).2.2.label).succs
      obtain rfl : t = phi := by simpa [succs] using edge
      exact arrived.done.1

theorem exists_phi (isLabel : u ∈ labels) (settled : s.Settled u) : ∃ phi, s.phis.lookup u = some phi := by
  rcases inv.layout.marked isLabel with waits | found
  · exact absurd (inv.layout.pending waits).2 settled.2
  · exact found

theorem notMem_labels (settled : s.Settled u) (noPhi : s.phis.lookup u = none) : u ∉ labels := by
  intro isLabel
  obtain ⟨phi, found⟩ := inv.exists_phi isLabel settled
  simp [noPhi] at found

/-- An original vertex afterwards: its operands are those before with one version in place of `x`, and its result
is as before, or a new version in place of `x`. -/
theorem old_core (old : u < g.store.size) : ∃ y r,
    (s.graph.vertex u).core =
      { g.vertex u with args := (g.vertex u).args.map (renameTo x y), result := r, succs := s.graph.succs u }.core ∧
    g.isVersion x y = true ∧
    (r = (g.vertex u).result ∨ (g.vertex u).result = some x ∧ ∃ z, r = some z ∧ g.vars.size ≤ z) := by
  have isX : g.isVersion x x = true := Graph.isVersion_iff.mpr (.inl rfl)
  have same : (g.vertex u).args.map (renameTo x x) = (g.vertex u).args := map_renameTo_of_notMem (.inl rfl)
  by_cases unvisited : u ∈ s.unvisited
  · have core := inv.layout.untouched old unvisited
    refine ⟨x, (g.vertex u).result, ?_, isX, .inl rfl⟩
    rw [core, same, Graph.succs, (Vertex.core_eq_iff.mp core).succs]
  · have settled : s.Settled u := ⟨Nat.lt_of_lt_of_le old inv.layout.size, unvisited⟩
    cases found : s.phis.lookup u with
    | some phi =>
      have core := (inv.layout.phi found).2.2.label
      refine ⟨x, (g.vertex u).result, ?_, isX, .inl rfl⟩
      rw [core, same, Graph.succs, (Vertex.core_eq_iff.mp core).succs]
    | none =>
      obtain ⟨past, visited⟩ := inv.visited u settled found
      obtain ⟨r, core, result⟩ := (visited.renamed old).core
      refine ⟨(s.graph.latest (g.isVersion x) past).getD x, r, ?_, ?_, ?_⟩
      · rw [core, Graph.succs, (Vertex.core_eq_iff.mp core).succs]
      · cases arriving : s.graph.latest (g.isVersion x) past with
        | none => exact isX
        | some y => exact Graph.latest_holds arriving
      · split at result
        · rename_i isResult
          exact .inr ⟨isResult, result⟩
        · exact .inl result

end

variable (split : Splitting g x labels) (inv : WalkInvariant g x labels s [])
include split inv

/-- Splitting puts vertices on edges. -/
theorem expands : g.Expands s.graph (· < g.store.size) := by
  have inside {u : VertexId} (reached : Reachable g.succs g.entry u) := split.sound.wired.lt_of_reachable reached
  refine ⟨inv.layout.entry, by simpa using inside .refl, fun {u} reached => ?_⟩
  have old := inside reached
  rcases inv.succs_cases (Nat.lt_of_lt_of_le old inv.layout.size) with ⟨phi, found, succs⟩ | ⟨l, found, _⟩ | ⟨_, _, succs⟩
  · obtain ⟨isLabel, _, placed⟩ := inv.layout.phi found
    obtain ⟨t, only⟩ := (split.sound.vertex reached).succs_eq_singleton (by rw [split.placed.label u isLabel]; rfl)
    rw [succs, only]
    have below := inside (reached.step (show t ∈ g.succs u by simp [only]))
    exact .cons (.skip (by simpa using placed.new) (placed.succs.trans only) (.here (by simpa using below))) .nil
  · exact absurd old (Nat.not_lt.mpr (inv.layout.phi found).2.2.new)
  · rw [succs]
    exact List.forall₂_same.mpr fun t edge => .here (by simpa using inside (reached.step edge))

theorem vertexSound_old (member : u ∈ g.listed) : s.graph.VertexSound u := by
  have sound := split.sound.vertices u member
  have old := split.sound.wired.listed_lt u member
  have listed : u ∈ s.graph.listed := inv.layout.listed.mpr (.inl member)
  obtain ⟨y, r, core, _, result⟩ := inv.old_core old
  obtain ⟨op, binOp, _, resultEq, args, _, owned⟩ := Vertex.core_eq_iff.mp core
  have op : s.graph.op u = g.op u := op
  have succs : (s.graph.succs u).length = (g.succs u).length ∧ (g.op u ≠ .label → s.graph.succs u = g.succs u) := by
    rcases inv.succs_cases (inv.layout.wired.listed_lt u listed) with ⟨phi, found, succs⟩ | ⟨l, found, _⟩ | ⟨_, _, succs⟩
    · have isLabel := split.placed.label u (inv.layout.phi found).1
      rw [succs, sound.succCount, isLabel]
      exact ⟨rfl, fun other => absurd rfl other⟩
    · exact absurd old (Nat.not_lt.mpr (inv.layout.phi found).2.2.new)
    · exact ⟨by rw [succs], fun _ => succs⟩
  have isSome : r.isSome = (g.vertex u).result.isSome := by
    rcases result with rfl | ⟨isX, z, rfl, _⟩
    · rfl
    · rw [isX]
      rfl
  refine ⟨op ▸ sound.valid, owned.trans sound.owned, ?_, ?_, ?_, ?_, ?_, ?_, ?_, ?_, ?_, ?_⟩
  · rw [succs.1, op, sound.succCount]
  · intro isRet
    rw [op] at isRet
    rw [succs.2 (by simp [isRet]), inv.layout.exit]
    exact sound.returns isRet
  · rw [op, inv.layout.entry]
    exact sound.onlyEntry
  · rw [op, inv.layout.exit]
    exact sound.onlyExit
  · rw [resultEq, op, isSome]
    exact sound.result
  · intro z written
    rw [resultEq] at written
    have known : z < s.graph.vars.size :=
      inv.layout.inScope u listed z (Vertex.references_iff.mpr (.inl (resultEq.trans written)))
    rcases result with rfl | ⟨_, z', rfl, fresh⟩
    · have known := split.inScope u member z (Vertex.references_iff.mpr (.inl written))
      rw [inv.layout.oldVar known]
      exact sound.writesVariable z written
    · obtain rfl : z' = z := by simpa using written
      exact inv.layout.isConst_new fresh known
  · intro n fixed
    rw [args, List.length_map]
    exact sound.argCount n (op ▸ fixed)
  · intro isRet
    rw [args, List.length_map]
    exact sound.returnCount (op ▸ isRet)
  · rw [args]
    intro missing
    obtain ⟨a, member, renamed⟩ := List.mem_map.mp missing
    rw [renameTo] at renamed
    split at renamed
    · simp at renamed
    · exact sound.operands (renamed ▸ member)
  · intro isBinary
    rw [binOp]
    exact sound.operator (op ▸ isBinary)

theorem vertexSound_new (new : g.store.size ≤ v) (inside : v < s.graph.store.size) : s.graph.VertexSound v := by
  obtain ⟨l, found⟩ := inv.layout.new new inside
  obtain ⟨isLabel, _, placed⟩ := inv.layout.phi found
  obtain ⟨r, result, fresh⟩ := placed.result
  have listed : v ∈ s.graph.listed := inv.layout.listed.mpr (.inr ⟨new, inside⟩)
  have reached := split.placed.reachable l isLabel
  refine ⟨by rw [placed.op]; rfl, placed.owned, ?_, ?_, ?_, ?_, ?_, ?_, ?_, ?_, ?_, ?_⟩
  · rw [placed.succs, placed.op, (split.sound.vertex reached).succCount, split.placed.label l isLabel]
    rfl
  · simp [placed.op]
  · simp [placed.op]
  · simp [placed.op]
  · rw [result, placed.op]
    rfl
  · intro z written
    obtain rfl : r = z := by simpa [result] using written
    exact inv.layout.isConst_new fresh (inv.layout.inScope v listed r (Vertex.references_iff.mpr (.inl result)))
  · simp [placed.op, Op.info]
  · simp [placed.op]
  · intro missing
    obtain ⟨y, is, _⟩ := placed.args none missing
    simp at is
  · simp [placed.op]

/-- Splitting keeps a graph sound. -/
theorem sound : s.graph.Sound := by
  have op (v : VertexId) (member : v ∈ g.listed) : s.graph.op v = g.op v := by
    obtain ⟨y, r, core, _⟩ := inv.old_core (split.sound.wired.listed_lt v member)
    exact (Vertex.core_eq_iff.mp core).op
  refine ⟨?_, ?_, ?_, ?_, ?_, inv.layout.wired⟩
  · rw [inv.layout.entry, op _ split.sound.wired.entry_listed]
    exact split.sound.entryOp
  · rw [inv.layout.exit, op _ split.sound.exitListed]
    exact split.sound.exitOp
  · refine inv.layout.wired.preds_eq_nil inv.layout.wired.entry_listed fun u listed edge => ?_
    exact (inv.succ_old split listed edge).1 inv.layout.entry
  · exact inv.layout.exit ▸ inv.layout.listed.mpr (.inl split.sound.exitListed)
  · intro v member
    rcases inv.layout.listed.mp member with old | ⟨new, inside⟩
    · exact inv.vertexSound_old split old
    · exact inv.vertexSound_new split new inside

/-! ### The last version on a path -/

end WalkInvariant

/-- The version that a site stands for. -/
def versionAt (g : Graph) (x : VarId) (s : Renaming) (d : VertexId) : Option VarId :=
  match s.phis.lookup d with
  | some phi => (s.graph.vertex phi).result
  | none => (s.graph.vertex d).targets.find? (g.isVersion x)

/-- The last version on a path is the one that its last site stands for. -/
def LatestAtSite (g : Graph) (x : VarId) (labels : List VertexId) (s : Renaming) (past : List VertexId) : Prop :=
  s.graph.latest (g.isVersion x) past =
    (lastSite (g.isSite x labels) (past.filter (· < g.store.size))).bind (versionAt g x s)

namespace WalkInvariant

section
variable (split : Splitting g x labels) (inv : WalkInvariant g x labels s [])
include split inv

/-- The parameters stay. -/
theorem args_entry : (s.graph.vertex g.entry).args = (g.vertex g.entry).args := by
  have old := split.sound.wired.listed_lt _ split.sound.wired.entry_listed
  have settled := inv.settled_of_reachable .refl
  have noPhi : s.phis.lookup g.entry = none := by
    refine inv.layout.lookup_eq_none fun isLabel => ?_
    have isLabel := split.placed.label _ isLabel
    simp [split.sound.entryOp] at isLabel
  obtain ⟨past, visited⟩ := inv.visited g.entry settled noPhi
  obtain ⟨r, core, _⟩ := (visited.renamed old).core
  rw [inv.past_eq_nil split visited.trail, Graph.latest_nil, Option.getD_none,
    map_renameTo_of_notMem (.inl rfl)] at core
  exact (Vertex.core_eq_iff.mp core).args

theorem targets_entry : (s.graph.vertex g.entry).targets = (g.vertex g.entry).targets := by
  have isFunction : (g.vertex g.entry).op = .function := split.sound.entryOp
  have isFunctionNow : (s.graph.vertex g.entry).op = .function := inv.layout.entry ▸ (inv.sound split).entryOp
  simp [Vertex.targets, Vertex.writes, isFunction, isFunctionNow, inv.args_entry split]

/-- An original vertex without a phi writes a version if it wrote `x`, and else none. -/
theorem find?_targets (old : u < g.store.size) (settled : s.Settled u) (noPhi : s.phis.lookup u = none)
    (member : u ∈ g.listed) :
    ((s.graph.vertex u).targets.find? (g.isVersion x)).isSome = (g.vertex u).writesVar (some x) := by
  have inScope {y : VarId} (writes : y ∈ (g.vertex u).targets) : g.isVersion x y = true ↔ y = x := by
    have known := split.inScope u member y (Vertex.references_of_mem_targets writes)
    simp [Graph.isVersion, Nat.not_le.mpr known]
  -- what a vertex writes that writes the same as before
  have unchanged (same : (s.graph.vertex u).targets = (g.vertex u).targets) :
      ((s.graph.vertex u).targets.find? (g.isVersion x)).isSome = (g.vertex u).writesVar (some x) := by
    rw [same, Bool.eq_iff_iff, List.find?_isSome, ← Vertex.mem_targets]
    constructor
    · rintro ⟨y, writes, version⟩
      exact (inScope writes).mp version ▸ writes
    · exact fun writes => ⟨x, writes, (inScope writes).mpr rfl⟩
  by_cases isFunction : g.op u = .function
  · rw [(split.sound.vertices u member).onlyEntry isFunction] at unchanged ⊢
    exact unchanged (inv.targets_entry split)
  · obtain ⟨past, visited⟩ := inv.visited u settled noPhi
    obtain ⟨r, core, result⟩ := (visited.renamed old).core
    have targets : (s.graph.vertex u).targets = r.toList :=
      (Vertex.targets_congr core).trans (Vertex.targets_of_op isFunction)
    split at result
    · rename_i isX
      obtain ⟨y, rfl, fresh⟩ := result
      have writes : x ∈ (g.vertex u).targets := by simp [Vertex.targets_of_op isFunction, isX]
      rw [targets, Vertex.mem_targets.mp writes]
      simp [Graph.isVersion, fresh]
    · exact unchanged (by rw [targets, result, Vertex.targets_of_op isFunction])

/-- The last version when a path goes on from an original vertex that has no phi behind it. -/
theorem latestAtSite_old (trail : Trail s.graph.succs g.entry past u) (old : u < g.store.size)
    (noPhi : s.phis.lookup u = none) (atSite : LatestAtSite g x labels s past) : LatestAtSite g x labels s (past ++ [u]) := by
  have settled := inv.settled_of_reachable trail.reachable
  have listed := inv.layout.wired.listed_of_reachable (inv.layout.entry ▸ trail.reachable)
  have writes := inv.find?_targets split old settled noPhi (inv.layout.mem_old listed old)
  have filtered : (past ++ [u]).filter (· < g.store.size) = past.filter (· < g.store.size) ++ [u] := by
    simp [List.filter_append, old]
  rw [LatestAtSite, filtered, lastSite_concat, Graph.latest_concat]
  cases isSite : g.isSite x labels u with
  | false =>
    -- not a site, so nothing of interest is written
    rw [(Graph.isSite_eq_false_iff.mp isSite).2.1] at writes
    rw [Option.isSome_eq_false_iff.mp writes |> Option.isNone_iff_eq_none.mp, Option.none_or]
    exact atSite
  | true =>
    have version : versionAt g x s u = (s.graph.vertex u).targets.find? (g.isVersion x) := by
      rw [versionAt, noPhi]
    rw [if_pos rfl, Option.bind_some, version]
    rcases Graph.isSite_iff.mp isSite with atEntry | isWrite | isLabel
    · -- nothing precedes the entry
      rw [inv.past_eq_nil split ⟨atEntry ▸ trail, fun q passed => inv.settled_of_reachable (trail.reachable_past passed)⟩]
      simp
    · rw [isWrite] at writes
      obtain ⟨y, written⟩ := Option.isSome_iff_exists.mp writes
      rw [written, Option.some_or]
    · exact absurd isLabel (inv.notMem_labels settled noPhi)

/-- The last version when a path has gone over a label and its phi: what the phi writes. -/
theorem latestAtSite_phi {l phi : VertexId} (found : s.phis.lookup l = some phi) :
    LatestAtSite g x labels s (past ++ [l] ++ [phi]) := by
  obtain ⟨isLabel, _, placed⟩ := inv.layout.phi found
  obtain ⟨r, result, targets, fresh⟩ := placed.exists_target
  have filtered : (past ++ [l] ++ [phi]).filter (· < g.store.size) = past.filter (· < g.store.size) ++ [l] := by
    simp [List.filter_append, split.label_lt isLabel, Nat.not_lt.mpr placed.new]
  rw [LatestAtSite, filtered, lastSite_concat, if_pos (Graph.isSite_iff.mpr (.inr (.inr isLabel))),
    Graph.latest_concat_of_target targets (Graph.isVersion_iff.mpr (.inr fresh)), Option.bind_some, versionAt, found]
  exact result.symm

theorem latestAtSite (trail : Trail s.graph.succs g.entry past u) :
    (u < g.store.size → LatestAtSite g x labels s past) ∧
    (g.store.size ≤ u → ∃ before l, past = before ++ [l] ∧ s.phis.lookup l = some u ∧
      LatestAtSite g x labels s before) := by
  have entryLt := split.sound.wired.listed_lt _ split.sound.wired.entry_listed
  induction trail with
  | start => exact ⟨fun _ => rfl, fun new => absurd entryLt (Nat.not_lt.mpr new)⟩
  | @step past p v before edge ih =>
    have listed := inv.layout.wired.listed_of_reachable (inv.layout.entry ▸ before.reachable)
    rcases Nat.lt_or_ge p g.store.size with old | new
    · cases found : s.phis.lookup p with
      | some phi =>
        obtain ⟨_, _, placed⟩ := inv.layout.phi found
        obtain rfl : v = phi := by
          simpa [Graph.succs, (Vertex.core_eq_iff.mp placed.label).succs] using edge
        exact ⟨fun old => absurd old (Nat.not_lt.mpr placed.new), fun _ => ⟨past, p, rfl, found, ih.1 old⟩⟩
      | none =>
        have target := (inv.succ_old split listed edge).2 found
        exact ⟨fun _ => inv.latestAtSite_old split before old found (ih.1 old), fun new => absurd target (Nat.not_lt.mpr new)⟩
    · obtain ⟨earlier, l, rfl, found, _⟩ := ih.2 new
      have noPhi : s.phis.lookup p = none :=
        inv.layout.lookup_eq_none fun isLabel => absurd (split.label_lt isLabel) (Nat.not_lt.mpr new)
      have target := (inv.succ_old split listed edge).2 noPhi
      exact ⟨fun _ => inv.latestAtSite_phi split found, fun new => absurd target (Nat.not_lt.mpr new)⟩

/-- Where `x` is live and no phi stands, every path brings the same version. -/
theorem latest_unique {past' : List VertexId} (trail : Trail s.graph.succs g.entry past u)
    (trail' : Trail s.graph.succs g.entry past' u) (old : u < g.store.size) (live : g.Live x u) (unmarked : u ∉ labels) :
    s.graph.latest (g.isVersion x) past = s.graph.latest (g.isVersion x) past' := by
  have expands := inv.expands split
  rw [← inv.layout.entry] at trail trail'
  have first := expands.project_kept trail (by simpa using old)
  have second := expands.project_kept trail' (by simpa using old)
  rw [inv.layout.entry] at trail trail'
  rw [(inv.latestAtSite split trail).1 old, (inv.latestAtSite split trail').1 old,
    split.placed.unique first second live unmarked]

/-- A read of `x` names the version that was written last. -/
theorem args_eq_of_latest (trail : Trail s.graph.succs g.entry past u) (old : u < g.store.size)
    (reads : (g.vertex u).readsVar (some x) = true) {w : VarId}
    (last : s.graph.latest (g.isVersion x) past = some w) :
    (s.graph.vertex u).args = (g.vertex u).args.map (renameTo x w) := by
  have settled := inv.settled_of_reachable trail.reachable
  have listed := inv.layout.wired.listed_of_reachable (inv.layout.entry ▸ trail.reachable)
  have member : u ∈ g.listed := inv.layout.mem_old listed old
  have unmarked : u ∉ labels := by
    intro isLabel
    have none := (split.sound.vertices u member).args_eq_nil (by rw [split.placed.label u isLabel]; rfl)
    simp [Vertex.readsVar, Vertex.reads, none] at reads
  have noPhi : s.phis.lookup u = none := inv.layout.lookup_eq_none fun isLabel => absurd isLabel unmarked
  obtain ⟨past', visited⟩ := inv.visited u settled noPhi
  have same := inv.latest_unique split trail visited.trail.1 old (Graph.live_of_reads reads) unmarked
  obtain ⟨r, core, _⟩ := (visited.renamed old).core
  rw [← same, last] at core
  exact (Vertex.core_eq_iff.mp core).args

/-- Along an edge to where `x` is live, every path brings the same version. -/
theorem latest_concat_unique {p t : VertexId} {past' : List VertexId} (trail : Trail s.graph.succs g.entry past p)
    (trail' : Trail s.graph.succs g.entry past' p) (noPhi : s.phis.lookup p = none) (edge : t ∈ s.graph.succs p)
    (live : g.Live x t) : s.graph.latest (g.isVersion x) (past ++ [p]) = s.graph.latest (g.isVersion x) (past' ++ [p]) := by
  have settled := inv.settled_of_reachable trail.reachable
  rw [Graph.latest_concat, Graph.latest_concat]
  cases written : (s.graph.vertex p).targets.find? (g.isVersion x) with
  | some y => rw [Option.some_or, Option.some_or]
  | none =>
    rw [Option.none_or, Option.none_or]
    have old : p < g.store.size := by
      rcases Nat.lt_or_ge p g.store.size with old | new
      · exact old
      · obtain ⟨l, found⟩ := inv.layout.new new settled.1
        obtain ⟨r, _, targets, fresh⟩ := (inv.layout.phi found).2.2.exists_target
        simp [targets, Graph.isVersion, fresh] at written
    have listed := inv.layout.wired.listed_of_reachable (inv.layout.entry ▸ trail.reachable)
    have member : p ∈ g.listed := inv.layout.mem_old listed old
    have silent : (g.vertex p).writesVar (some x) = false := by
      rw [← inv.find?_targets split old settled noPhi member, written]
      rfl
    have succs : s.graph.succs p = g.succs p := by
      rcases inv.succs_cases settled.1 with ⟨phi, found, _⟩ | ⟨l, found, _⟩ | ⟨_, _, succs⟩
      · simp [noPhi] at found
      · exact absurd old (Nat.not_lt.mpr (inv.layout.phi found).2.2.new)
      · exact succs
    exact inv.latest_unique split trail trail' old (live.of_succ (succs ▸ edge) silent)
      (inv.notMem_labels settled noPhi)

/-- What was written last before a new phi is one of its inputs or its result. -/
theorem latest_mem_phi {phi : VertexId} (trail : Trail s.graph.succs g.entry past phi) (new : g.store.size ≤ phi)
    {w : VarId} (last : s.graph.latest (g.isVersion x) past = some w) :
    some w ∈ (s.graph.vertex phi).args ∨ (s.graph.vertex phi).result = some w := by
  obtain ⟨before, l, rfl, found, _⟩ := (inv.latestAtSite split trail).2 new
  obtain ⟨isLabel, _, placed⟩ := inv.layout.phi found
  have reachedLabel := split.placed.reachable l isLabel
  have noTargets : (s.graph.vertex l).targets = [] := by
    have none := (split.sound.vertex reachedLabel).result_eq_none (by rw [split.placed.label l isLabel]; rfl)
    rw [Vertex.targets_congr placed.label]
    exact (Vertex.targets_of_op (by
      rw [show (g.vertex l).op = .label from split.placed.label l isLabel]; simp)).trans (by rw [none]; rfl)
  rw [Graph.latest_concat_of_silent (by simp [noTargets])] at last
  -- the label was entered by some edge, and the phi heard of what came along it
  have toLabel := trail.split.1
  generalize target : l = t at toLabel
  cases toLabel with
  | start =>
    have isFunction := split.sound.entryOp
    rw [← target, split.placed.label l isLabel] at isFunction
    simp at isFunction
  | @step before p _ toP edge =>
    subst target
    have noPhi : s.phis.lookup p = none := by
      cases behind : s.phis.lookup p with
      | none => rfl
      | some phi' =>
        have placed' := (inv.layout.phi behind).2.2
        obtain rfl : l = phi' := by
          simpa [Graph.succs, (Vertex.core_eq_iff.mp placed'.label).succs] using edge
        exact absurd (split.label_lt isLabel) (Nat.not_lt.mpr placed'.new)
    obtain ⟨past', visited⟩ := inv.visited p (inv.settled_of_reachable toP.reachable) noPhi
    have same := inv.latest_concat_unique split toP visited.trail.1 noPhi edge (split.placed.live l isLabel)
    exact (visited.onward l edge).done.2 phi found w (same ▸ last)

end

end WalkInvariant

end Renaming

end MiddleEnd
