import Mathlib
import MiddleEnd.Proofs.Release.Plan

/-!
What the releases of a pass mean for paths: nothing reads a variable between its release and its next write
(`insertReleases_no_read_after`); a path from a use to the exit comes by a release (`insertReleases_cover_exits`); and a
variable is released a second time without a write between if and only if its point lies on a cycle that does not write it
(`insertReleases_twice_iff`). Such points exist: a label that joins two writes and heads a loop without uses is one.

Mathlib is imported whole for the runs on `drained` and `joined`, as in `Proofs.SingleAssignment`.
-/
namespace MiddleEnd

namespace Graph

/-- A path from the entry comes to a release of `x`, and to a release of `x` again, with no write of `x` between. -/
def ReleasedTwice (g : Graph) (x : VarId) : Prop :=
  ∃ before f between f', Trail g.succs g.entry (before ++ f :: between) f' ∧ g.Frees x f ∧ g.Frees x f' ∧
    ∀ w ∈ between, (g.vertex w).writesVar (some x) = false

namespace Releasing

variable {g h : Graph} {back : VertexId → VertexId} {done : List ReleasePoint} {x : VarId} {f u v : VertexId}
  {past : List VertexId}

theorem writesVar_eq (releasing : g.Releasing done h back) (known : g.knows u = true) (x : VarId) :
    (h.vertex u).writesVar (some x) = (g.vertex u).writesVar (some x) := by
  obtain ⟨op, _, _, result, args, _⟩ := Vertex.body_eq_iff.mp (releasing.padded.body u known)
  simp only [Vertex.writesVar, Vertex.writes, op, result, args]

theorem readsVar_eq (releasing : g.Releasing done h back) (known : g.knows u = true) (x : VarId) :
    (h.vertex u).readsVar (some x) = (g.vertex u).readsVar (some x) := by
  obtain ⟨op, _, _, _, args, _⟩ := Vertex.body_eq_iff.mp (releasing.padded.body u known)
  simp only [Vertex.readsVar, Vertex.reads, op, args]

/-- All that is new are releases. -/
theorem isFree_of_new (releasing : g.Releasing done h back) (listed : u ∈ h.listed) (new : g.knows u = false) :
    h.op u = .free := by
  obtain ⟨p, _, only⟩ := releasing.new u listed new
  exact ((only.frees p.x).mpr rfl).2.1

/-- A read that comes after a release comes after a write, too. -/
theorem exists_write (releasing : g.Releasing done h back) (sound : g.Sound) (noFree : ∀ v ∈ g.listed, g.op v ≠ .free)
    (points : ∀ p ∈ done, g.ReleasesAt p) (frees : h.Frees x f) {s : VertexId} (edge : s ∈ h.succs f)
    (trail : Trail h.succs s past v) (notFree : h.op v ≠ .free) (reads : (h.vertex v).readsVar (some x) = true) :
    ∃ w ∈ past, (h.vertex w).writesVar (some x) = true := by
  have padded := releasing.padded
  obtain ⟨new, p, member, rfl⟩ := releasing.exists_point noFree frees
  have listed := padded.wired.succs_listed f frees.1 s edge
  have known : g.knows v = true := by
    rw [← Bool.not_eq_false]
    exact fun new => notFree (releasing.isFree_of_new (padded.wired.listed_of_trail listed trail) new)
  -- the path from the release on is one from where it leads, and there the variable is not live
  have whole := padded.project_known frees.1 (trail.cons edge) known
  rw [List.filter_cons_of_neg (by simp [new])] at whole
  have notLive := (points p member).not_live sound ((releasing.placed p member).ends frees)
  by_contra none
  refine notLive ⟨_, v, whole, releasing.readsVar_eq known p.x ▸ reads, fun w member => ?_⟩
  obtain ⟨passed, known⟩ := List.mem_filter.mp member
  rw [← releasing.writesVar_eq known p.x, ← Bool.not_eq_true]
  exact fun writes => none ⟨w, passed, writes⟩

/-- A path from a use to the exit comes by a release. -/
theorem exists_release (releasing : g.Releasing done h back) (sound : g.Sound) (noFree : ∀ v ∈ g.listed, g.op v ≠ .free)
    (points : ∀ p ∈ done, g.ReleasesAt p) (released : ∃ f, h.Frees x f) (listed : u ∈ g.listed)
    (uses : (g.vertex u).references (some x) = true) (trail : Trail h.succs u past h.exit) :
    ∃ f ∈ past.tail, h.Frees x f := by
  have padded := releasing.padded
  have wired := sound.wired
  obtain ⟨_, frees⟩ := released
  obtain ⟨_, p, member, rfl⟩ := releasing.exists_point noFree frees
  have point := points p member
  have placed := releasing.placed p member
  have knownU : g.knows u = true := knows_iff.mpr (wired.listed_lt u listed)
  have knownExit : g.knows h.exit = true := padded.exit ▸ knows_iff.mpr (wired.listed_lt _ sound.exitListed)
  have listedU := padded.listed_of_listed wired listed
  have shorter := padded.project_known listedU trail knownExit
  rw [padded.back_known u knownU, padded.exit] at shorter
  have passed := (List.mem_filter.mp (point.postDominates listed uses shorter)).1
  -- on either side of the point the path meets a release
  have met : ∃ f ∈ past, h.Frees p.x f := by
    obtain ⟨first, later, rfl, toPoint, onward, nonempty⟩ := trail.cut passed
    cases before : g.releasesBefore p with
    | true =>
      have other : first ≠ [] := by
        rintro rfl
        rw [toPoint.eq_root, (point.silent sound before).1] at uses
        contradiction
      obtain ⟨f, isPast, frees⟩ := placed.covers listed (knows_iff.mpr (wired.listed_lt _ point.listed)) toPoint other
        (by simp [before])
      exact ⟨f, List.mem_append_left _ isPast, frees⟩
    | false =>
      obtain ⟨f, isPast, frees⟩ := placed.covers point.listed knownExit onward nonempty (by simp [before])
      exact ⟨f, List.mem_append_right _ isPast, frees⟩
  obtain ⟨f, isPast, frees⟩ := met
  obtain ⟨s, later, rfl, _, _⟩ := trail.exists_next (List.ne_nil_of_mem isPast)
  refine ⟨f, (List.mem_cons.mp isPast).resolve_left ?_, frees⟩
  rintro rfl
  exact noFree f listed ((padded.frees_iff knownU).mp frees).2.1

/-- Between two releases a path goes round from the point back to the point. -/
theorem exists_cycle (releasing : g.Releasing done h back) (sound : g.Sound) (noFree : ∀ v ∈ g.listed, g.op v ≠ .free)
    (points : ∀ p ∈ done, g.ReleasesAt p) (twice : h.ReleasedTwice x) :
    ∃ p ∈ done, p.x = x ∧ Reachable g.succs g.entry p.vertex ∧ ∃ round, round ≠ [] ∧ Trail g.succs p.vertex round p.vertex ∧
      ∀ w ∈ round, (g.vertex w).writesVar (some x) = false := by
  have padded := releasing.padded
  have wired := sound.wired
  obtain ⟨before, f, between, f', trail, frees, frees', silent⟩ := twice
  obtain ⟨new, p, member, rfl⟩ := releasing.exists_point noFree frees
  have point := points p member
  have placed := releasing.placed p member
  have known : g.knows p.vertex = true := knows_iff.mpr (wired.listed_lt _ point.listed)
  have entry : h.entry ∈ h.listed := padded.wired.entry_listed
  have knownEntry : g.knows h.entry = true := padded.entry ▸ knows_iff.mpr (wired.listed_lt _ wired.entry_listed)
  obtain ⟨toFree, onward⟩ := trail.split
  have passed := placed.between frees frees' onward (by simp)
  have inBetween : p.vertex ∈ between := by
    refine (List.mem_cons.mp passed).resolve_left ?_
    rintro rfl
    rw [known] at new
    contradiction
  have silent' (w : VertexId) (isBetween : w ∈ between) (known : g.knows w = true) :
      (g.vertex w).writesVar (some p.x) = false := by
    rw [← releasing.writesVar_eq known]
    exact silent w isBetween
  refine ⟨p, member, rfl, ?_, ?_⟩
  · obtain ⟨first, _, _, toPoint, _⟩ := trail.cut (u := p.vertex) (List.mem_append_right _ passed)
    have reached := padded.project_known entry toPoint known
    rw [padded.back_known _ knownEntry, padded.entry] at reached
    exact reached.reachable
  obtain ⟨first, later, whole, toPoint, fromPoint, nonempty⟩ := onward.cut passed
  have parts (w : VertexId) (isPart : w ∈ first ∨ w ∈ later) (known : g.knows w = true) :
      (g.vertex w).writesVar (some p.x) = false := by
    have isPassed : w ∈ f :: between := whole ▸ List.mem_append.mpr isPart
    refine silent' w ((List.mem_cons.mp isPassed).resolve_left ?_) known
    rintro rfl
    rw [known] at new
    contradiction
  have ends := placed.ends frees
  have ends' := placed.ends frees'
  cases isBefore : g.releasesBefore p with
  | true =>
    -- the second release leads to the point again
    simp only [isBefore, ↓reduceIte] at ends'
    have round := padded.project (padded.listed_of_listed wired point.listed) fromPoint
    rw [padded.back_known _ known, ends'] at round
    refine ⟨_, ?_, round, fun w isRound => ?_⟩
    · exact List.ne_nil_of_mem (List.mem_filter.mpr ⟨fromPoint.root_mem nonempty, known⟩)
    · obtain ⟨isLater, known⟩ := List.mem_filter.mp isRound
      exact parts w (.inr isLater) known
  | false =>
    -- the first release is behind the point, and leads to it again
    simp only [isBefore, Bool.false_eq_true, ↓reduceIte] at ends
    have round := padded.project_known frees.1 toPoint known
    refine ⟨_, ?_, round.cons ends, fun w isRound => ?_⟩
    · simp
    · rcases List.mem_cons.mp isRound with rfl | inRound
      · exact silent' _ inBetween known
      · obtain ⟨isFirst, known⟩ := List.mem_filter.mp inRound
        exact parts w (.inl isFirst) known

/-- Going twice round a cycle through the point that does not write the variable releases it twice. -/
theorem releasedTwice (releasing : g.Releasing done h back) (sound : g.Sound) {p : ReleasePoint} (member : p ∈ done)
    (point : g.ReleasesAt p) (reached : Reachable g.succs g.entry p.vertex) {round : List VertexId} (nonempty : round ≠ [])
    (cycle : Trail g.succs p.vertex round p.vertex) (silent : ∀ w ∈ round, (g.vertex w).writesVar (some p.x) = false) :
    h.ReleasedTwice p.x := by
  have padded := releasing.padded
  have wired := sound.wired
  have known : g.knows p.vertex = true := knows_iff.mpr (wired.listed_lt _ point.listed)
  obtain ⟨past, trail⟩ := reached
  obtain ⟨past', trail', _⟩ := padded.lift wired.entry_listed trail
  obtain ⟨round', cycle', same⟩ := padded.lift point.listed cycle
  have nonempty' : round' ≠ [] := by
    rintro rfl
    exact nonempty same.symm
  have silent' (w : VertexId) (isRound : w ∈ round') : (h.vertex w).writesVar (some p.x) = false := by
    have listed : w ∈ h.listed := by
      obtain ⟨_, _, _, first, _⟩ := cycle'.cut isRound
      exact padded.wired.listed_of_trail (padded.listed_of_listed wired point.listed) first
    cases isKnown : g.knows w with
    | true =>
      rw [releasing.writesVar_eq isKnown]
      exact silent w (same ▸ List.mem_filter.mpr ⟨isRound, isKnown⟩)
    | false =>
      obtain ⟨q, _, only⟩ := releasing.new w listed isKnown
      exact only.silent p.x
  obtain ⟨f, isRound, frees⟩ := (releasing.placed p member).covers point.listed known cycle' nonempty' (by simp)
  obtain ⟨first, later, rfl⟩ := List.append_of_mem isRound
  have twice := (trail'.trans cycle').trans cycle'
  rw [← padded.entry] at twice
  have again : Trail h.succs h.entry ((past' ++ first) ++ f :: (later ++ first)) f := by
    have whole : past' ++ (first ++ f :: later) ++ (first ++ f :: later) =
        (past' ++ first ++ f :: (later ++ first)) ++ f :: later := by simp
    rw [whole] at twice
    exact twice.split.1
  refine ⟨_, f, _, f, again, frees, frees, fun w isBetween => ?_⟩
  rcases List.mem_append.mp isBetween with isLater | isFirst
  · exact silent' w (by simp [isLater])
  · exact silent' w (by simp [isFirst])

end Releasing

end Graph

namespace Analysis

/-! ### No read after a release -/

/-- On every graph that passes the integrity check and has no releases yet, the pass succeeds. It releases every variable that
it has a point for, and on a path that goes on from a release, whatever reads the variable (other releases apart) comes after
a write of it. -/
theorem insertReleases_no_read_after (a : Analysis) (passes : a.graph.verify = none)
    (noFree : ∀ v ∈ a.graph.listed, a.graph.op v ≠ .free) (dated : a.DatedBackward) :
    ∃ count a', insertReleases.Succeeds a count a' ∧ (∀ p, a.Releases p → ∃ f, a'.graph.Frees p.x f) ∧
      ∀ x f, a'.graph.Frees x f → ∀ s ∈ a'.graph.succs f, ∀ past v, Trail a'.graph.succs s past v →
        a'.graph.op v ≠ .free → (a'.graph.vertex v).readsVar (some x) = true →
          ∃ w ∈ past, (a'.graph.vertex w).writesVar (some x) = true := by
  have sound := Graph.sound_of_verify passes
  obtain ⟨count, a', plan, back, done, mem_plan, releasing⟩ := insertReleases_spec sound noFree dated
  refine ⟨count, a', done, fun p releases => (releasing.placed p ((mem_plan p).mpr releases)).released, ?_⟩
  intro x f frees s edge past v trail notFree reads
  exact releasing.exists_write sound noFree (fun p member => ((mem_plan p).mp member).point sound dated) frees edge trail
    notFree reads

/-- A loop that computes `t` from `c` as long as it is true, and a use of `z` behind it. -/
def drained : Graph where
  name := "drained"
  sig := .empty
  entry := 0
  exit := 1
  store := #[
    { op := .function, args := [some 0, some 1], succs := [2], owned := true },
    { op := .finish, preds := [5], owned := true },
    { op := .assign, result := some 2, args := [some 0], succs := [3], preds := [0, 3], owned := true },
    { op := .jumpIf, args := [some 2], succs := [2, 4], preds := [2], owned := true },
    { op := .echo, args := [some 1], succs := [5], preds := [3], owned := true },
    { op := .ret, succs := [1], preds := [4], owned := true }]
  listed := [0, 1, 2, 3, 4, 5]
  vars := #[{ name := "c" }, { name := "z" }, { name := "t" }]
  epoch := 0
  reach := none

/-- `t` is released on both edges of the branch that reads it, `z` behind its use. -/
def drainedReleased : Graph where
  name := "drained"
  sig := .empty
  entry := 0
  exit := 1
  store := #[
    { op := .function, args := [some 0, some 1], succs := [2], owned := true },
    { op := .finish, preds := [5], owned := true },
    { op := .assign, result := some 2, args := [some 0], succs := [3], preds := [0, 7], owned := true },
    { op := .jumpIf, args := [some 2], succs := [7, 8], preds := [2], owned := true },
    { op := .echo, args := [some 1], succs := [6], preds := [8], owned := true },
    { op := .ret, succs := [1], preds := [6], owned := true },
    { op := .free, args := [some 1], succs := [5], preds := [4], owned := true },
    { op := .free, args := [some 2], succs := [2], preds := [3], owned := true },
    { op := .free, args := [some 2], succs := [4], preds := [3], owned := true }]
  listed := [0, 1, 2, 3, 4, 5, 6, 7, 8]
  vars := #[{ name := "c" }, { name := "z" }, { name := "t" }]
  epoch := 8
  reach := none

theorem insertReleases_drained :
    ∃ a', insertReleases.Succeeds { graph := drained } 3 a' ∧ a'.graph = drainedReleased := by
  have ok : (insertReleases.outcome { graph := drained }).1 = .ok 3 := by cbv
  have graph : (insertReleases.outcome { graph := drained }).2.graph = drainedReleased := by cbv
  exact ⟨_, Prod.ext ok rfl, graph⟩

/-- What a pass ends with is determined. -/
theorem eq_of_insertReleases {a a' a'' : Analysis} {count count' : Nat} (done : insertReleases.Succeeds a count a')
    (done' : insertReleases.Succeeds a count' a'') : a' = a'' := by
  rw [Action.Succeeds] at done done'
  rw [done] at done'
  exact (Prod.mk.inj done').2

/-- Once more around the loop, the branch reads `t` after it was released, and after it was written. -/
theorem drained_no_read_after :
    drained.verify = none ∧ drainedReleased.Frees 2 7 ∧ 2 ∈ drainedReleased.succs 7 ∧ Trail drainedReleased.succs 2 [2] 3 ∧
      drainedReleased.op 3 ≠ .free ∧ (drainedReleased.vertex 3).readsVar (some 2) = true ∧
      ∃ w ∈ [2], (drainedReleased.vertex w).writesVar (some 2) = true := by
  obtain ⟨a', done, graph⟩ := insertReleases_drained
  obtain ⟨_, a'', done', _, reads⟩ := insertReleases_no_read_after { graph := drained } (by decide) (by decide) nofun
  rw [← eq_of_insertReleases done done', graph] at reads
  have frees : drainedReleased.Frees 2 7 := by decide
  have edge : 2 ∈ drainedReleased.succs 7 := by decide
  have trail : Trail drainedReleased.succs 2 [2] 3 := by decide
  exact ⟨by decide, frees, edge, trail, by decide, by decide, reads 2 7 frees 2 edge [2] 3 trail (by decide) (by decide)⟩

/-! ### A release on every way out -/

/-- On every graph that passes the integrity check and has no releases yet, the pass succeeds, and for a variable that it
releases at all, every path to the exit from a vertex that reads or writes it comes by a release after that vertex. -/
theorem insertReleases_cover_exits (a : Analysis) (passes : a.graph.verify = none)
    (noFree : ∀ v ∈ a.graph.listed, a.graph.op v ≠ .free) (dated : a.DatedBackward) :
    ∃ count a', insertReleases.Succeeds a count a' ∧ (∀ p, a.Releases p → ∃ f, a'.graph.Frees p.x f) ∧
      ∀ x, (∃ f, a'.graph.Frees x f) → ∀ u ∈ a.graph.listed, (a.graph.vertex u).references (some x) = true →
        ∀ past, Trail a'.graph.succs u past a'.graph.exit → ∃ f ∈ past.tail, a'.graph.Frees x f := by
  have sound := Graph.sound_of_verify passes
  obtain ⟨count, a', plan, back, done, mem_plan, releasing⟩ := insertReleases_spec sound noFree dated
  refine ⟨count, a', done, fun p releases => (releasing.placed p ((mem_plan p).mpr releases)).released, ?_⟩
  intro x released u listed uses past trail
  exact releasing.exists_release sound noFree (fun p member => ((mem_plan p).mp member).point sound dated) released listed
    uses trail

/-- The parameter `z` is released on the way from the entry to the exit. -/
theorem drained_cover_exits :
    drained.verify = none ∧ (drained.vertex 0).references (some 1) = true ∧
      Trail drainedReleased.succs 0 [0, 2, 3, 7, 2, 3, 8, 4, 6, 5] drainedReleased.exit ∧
      ∃ f ∈ [2, 3, 7, 2, 3, 8, 4, 6, 5], drainedReleased.Frees 1 f := by
  obtain ⟨a', done, graph⟩ := insertReleases_drained
  obtain ⟨_, a'', done', _, covers⟩ := insertReleases_cover_exits { graph := drained } (by decide) (by decide) nofun
  rw [← eq_of_insertReleases done done', graph] at covers
  have trail : Trail drainedReleased.succs 0 [0, 2, 3, 7, 2, 3, 8, 4, 6, 5] drainedReleased.exit := by decide
  exact ⟨by decide, by decide, trail, covers 1 ⟨6, by decide⟩ 0 (by decide) (by decide) _ trail⟩

/-! ### Variables that are released twice -/

/-- On every graph that passes the integrity check and has no releases yet, the pass succeeds, and a path from the entry can
come to a second release of a variable without a write since the first one if and only if the variable's release point is
reachable and lies on a cycle that does not write it. -/
theorem insertReleases_twice_iff (a : Analysis) (passes : a.graph.verify = none)
    (noFree : ∀ v ∈ a.graph.listed, a.graph.op v ≠ .free) (dated : a.DatedBackward) :
    ∃ count a', insertReleases.Succeeds a count a' ∧ ∀ x, a'.graph.ReleasedTwice x ↔
      ∃ v, a.Releases ⟨x, v⟩ ∧ Reachable a.graph.succs a.graph.entry v ∧ ∃ round, round ≠ [] ∧
        Trail a.graph.succs v round v ∧ ∀ w ∈ round, (a.graph.vertex w).writesVar (some x) = false := by
  have sound := Graph.sound_of_verify passes
  obtain ⟨count, a', plan, back, done, mem_plan, releasing⟩ := insertReleases_spec sound noFree dated
  refine ⟨count, a', done, fun x => ⟨fun twice => ?_, ?_⟩⟩
  · obtain ⟨p, member, rfl, cycle⟩ := releasing.exists_cycle sound noFree
      (fun p member => ((mem_plan p).mp member).point sound dated) twice
    exact ⟨p.vertex, (mem_plan p).mp member, cycle⟩
  · rintro ⟨v, releases, reached, round, nonempty, cycle, silent⟩
    exact releasing.releasedTwice sound ((mem_plan _).mpr releases) (releases.point sound dated) reached nonempty cycle silent

/-- The label 4 joins two writes of `x` and heads a loop that has nothing to do with `x`. -/
def joined : Graph where
  name := "joined"
  sig := .empty
  entry := 0
  exit := 1
  store := #[
    { op := .function, args := [some 0, some 1], succs := [2], owned := true },
    { op := .finish, preds := [5], owned := true },
    { op := .jumpIf, args := [some 0], succs := [3, 4], preds := [0], owned := true },
    { op := .assign, result := some 1, args := [some 0], succs := [4], preds := [2], owned := true },
    { op := .label, succs := [5], preds := [2, 3, 5], owned := true },
    { op := .jumpIf, args := [some 0], succs := [4, 1], preds := [4], owned := true }]
  listed := [0, 1, 2, 3, 4, 5]
  vars := #[{ name := "c" }, { name := "x" }]
  epoch := 0
  reach := none

/-- `x` is released behind the label, and so each time around the loop. -/
def joinedReleased : Graph where
  name := "joined"
  sig := .empty
  entry := 0
  exit := 1
  store := #[
    { op := .function, args := [some 0, some 1], succs := [2], owned := true },
    { op := .finish, preds := [5], owned := true },
    { op := .jumpIf, args := [some 0], succs := [3, 4], preds := [0], owned := true },
    { op := .assign, result := some 1, args := [some 0], succs := [4], preds := [2], owned := true },
    { op := .label, succs := [6], preds := [2, 3, 5], owned := true },
    { op := .jumpIf, args := [some 0], succs := [4, 1], preds := [6], owned := true },
    { op := .free, args := [some 1], succs := [5], preds := [4], owned := true }]
  listed := [0, 1, 2, 3, 4, 5, 6]
  vars := #[{ name := "c" }, { name := "x" }]
  epoch := 2
  reach := none

theorem insertReleases_joined :
    ∃ a', insertReleases.Succeeds { graph := joined } 1 a' ∧ a'.graph = joinedReleased := by
  have ok : (insertReleases.outcome { graph := joined }).1 = .ok 1 := by cbv
  have graph : (insertReleases.outcome { graph := joined }).2.graph = joinedReleased := by cbv
  exact ⟨_, Prod.ext ok rfl, graph⟩

/-- The cycle by the release point shows in the releases. -/
theorem joined_twice_iff :
    joined.verify = none ∧ Trail joinedReleased.succs 0 [0, 2, 4, 6, 5, 4] 6 ∧ ∃ v, Releases { graph := joined } ⟨1, v⟩ ∧
      Reachable joined.succs joined.entry v ∧ ∃ round, round ≠ [] ∧ Trail joined.succs v round v ∧
        ∀ w ∈ round, (joined.vertex w).writesVar (some 1) = false := by
  obtain ⟨a', done, graph⟩ := insertReleases_joined
  obtain ⟨_, a'', done', twice⟩ := insertReleases_twice_iff { graph := joined } (by decide) (by decide) nofun
  rw [← eq_of_insertReleases done done', graph] at twice
  have trail : Trail joinedReleased.succs 0 [0, 2, 4, 6, 5, 4] 6 := by decide
  exact ⟨by decide, trail, (twice 1).mp ⟨[0, 2, 4], 6, [5, 4], 6, trail, by decide, by decide, by decide⟩⟩

/-- A pass over a sound graph without releases may release a variable twice with no write between. -/
theorem joined_releasedTwice :
    joined.verify = none ∧ (∀ v ∈ joined.listed, joined.op v ≠ .free) ∧
      ∃ count a', insertReleases.Succeeds { graph := joined } count a' ∧ a'.graph.ReleasedTwice 1 := by
  obtain ⟨a', done, graph⟩ := insertReleases_joined
  refine ⟨by decide, by decide, 1, a', done, ?_⟩
  rw [graph]
  exact ⟨[0, 2, 4], 6, [5, 4], 6, by decide, by decide, by decide, by decide⟩

end Analysis

end MiddleEnd
