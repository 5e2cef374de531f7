import Mathlib.Data.List.Nodup
import MiddleEnd.Proofs.Action
import MiddleEnd.Proofs.DominatorTree
import MiddleEnd.Proofs.Integrity
import MiddleEnd.Proofs.Liveness
import MiddleEnd.Proofs.Release.Placement

/-!
The releases of all variables. Their points are chosen on the graph as it was, so what is known of a point — it lies on
every path from a use to the exit, and nothing behind it reads the variable before a write — is a fact about that graph;
and however many releases come after it, each variable's own stay by its point (`Graph.Releasing`). The choice cannot fail
on a sound graph (`Analysis.insertReleases_spec`).
-/
namespace MiddleEnd

namespace Graph

variable {g h : Graph} {back : VertexId → VertexId} {root : VertexId} {p : ReleasePoint}

theorem Wired.edgesAgreeFrom (wired : g.Wired) (listed : root ∈ g.listed) (reversed : Bool) :
    g.EdgesAgreeFrom reversed root := by
  intro u reached
  obtain ⟨past, trail⟩ := reached
  have member : u ∈ g.listed := by
    refine trail.invariant listed fun v s member edge => ?_
    cases reversed with
    | false => exact wired.succs_listed v member s edge
    | true => exact wired.preds_listed v member s edge
  cases reversed with
  | false =>
    refine ⟨fun s edge => ?_, fun p edge _ => ?_⟩
    · have target := wired.succs_listed u member s edge
      exact ⟨wired.listed_lt s target, (wired.mem_preds_iff member target).mp edge⟩
    · exact (wired.mem_preds_iff (wired.preds_listed u member p edge) member).mpr edge
  | true =>
    refine ⟨fun s edge => ?_, fun p edge _ => ?_⟩
    · have source := wired.preds_listed u member s edge
      exact ⟨wired.listed_lt s source, (wired.mem_preds_iff source member).mpr edge⟩
    · exact (wired.mem_preds_iff member (wired.succs_listed u member p edge)).mp edge

theorem Wired.answers_ofGraph (wired : g.Wired) (listed : root ∈ g.listed) (reversed : Bool) :
    (Dominators.ofGraph g root reversed).Answers (g.along reversed) root :=
  have agree := wired.edgesAgreeFrom listed reversed
  ⟨Dominators.isTracked_iff agree, Dominators.dominatedBy_iff agree (wired.listed_lt root listed)⟩

/-! ### Release points -/

/-- What makes `p` a point where its variable can be released. -/
structure ReleasesAt (g : Graph) (p : ReleasePoint) : Prop where
  listed : p.vertex ∈ g.listed
  notExit : g.op p.vertex ≠ .finish
  /-- Returning a variable hands it on. -/
  notReturned : g.op p.vertex = .ret → (g.vertex p.vertex).readsVar (some p.x) = false
  postDominates : ∀ {u past}, u ∈ g.listed → (g.vertex u).references (some p.x) = true →
    Trail g.succs u past g.exit → p.vertex ∈ past
  quiet : ∀ s ∈ g.succs p.vertex, ¬ g.Live p.x s

/-- A chosen point is one where the variable can be released. -/
theorem releasesAt_of_releasePoint? {forward backward : Dominators} {x : VarId} (sound : g.Sound)
    (answers : backward.Answers g.preds g.exit) (chosen : g.releasePoint? forward backward x = .ok (some p)) :
    p.x = x ∧ g.ReleasesAt p := by
  have wired := sound.wired
  obtain ⟨found, isFound, spec⟩ := answers.nearestCommon_spec g.name (g.references (some x))
  rw [releasePoint?] at chosen
  simp only [isFound] at chosen
  cases found with
  | none => simp at chosen
  | some c =>
    obtain ⟨origin, dominates⟩ := spec c rfl
    by_cases releases : g.releasesAt forward x (g.references (some x)) c = true
    · obtain rfl : p = ⟨x, c⟩ := by simpa [releases] using chosen.symm
      simp only [releasesAt, Bool.and_eq_true, Bool.not_eq_eq_eq_not, Bool.not_true, bne_iff_ne] at releases
      obtain ⟨⟨⟨notExit, notReturned⟩, _⟩, notLive⟩ := releases
      have listed : c ∈ g.listed := by
        rcases origin with use | tracked
        · exact (List.mem_filter.mp use).1
        · obtain ⟨past, trail⟩ := answers.tracked.mp tracked
          exact trail.invariant sound.exitListed fun v s member edge => wired.preds_listed v member s edge
      refine ⟨rfl, listed, notExit, ?_, ?_, ?_⟩
      · intro isRet
        simpa [show (g.vertex c).op = .ret from isRet] using notReturned
      · intro u past member uses trail
        have turn (w s : VertexId) (passed : w ∈ past) (edge : s ∈ g.succs w) : w ∈ g.preds s := by
          obtain ⟨_, _, _, first, _⟩ := trail.cut passed
          have source := wired.listed_of_trail member first
          exact (wired.mem_preds_iff source (wired.succs_listed w source s edge)).mp edge
        obtain ⟨back, trail', same⟩ := trail.reverse turn
        have tracked := answers.tracked.mpr trail'.reachable
        have dom := answers.dominated.mp (dominates u (List.mem_filter.mpr ⟨member, uses⟩) tracked)
        refine ((same c).mp (dom.2 back trail')).resolve_right ?_
        rintro rfl
        exact notExit sound.exitOp
      · intro s edge live
        have inside (u : VertexId) (reached : Reachable g.succs s u) : u < g.store.size := by
          obtain ⟨past, trail⟩ := reached
          exact wired.listed_lt u (wired.listed_of_trail (wired.succs_listed c listed s edge) trail)
        have found := (liveAt_iff inside).mpr live
        simp only [liveAfter, List.any_eq_false] at notLive
        exact notLive s edge found
    · simp [releases] at chosen

namespace ReleasesAt

/-- A point is followed by one vertex, unless its release goes before it or on each of its edges. -/
theorem single (point : g.ReleasesAt p) (sound : g.Sound) (notBranch : (g.vertex p.vertex).isBranch = false)
    (notRet : g.op p.vertex ≠ .ret) : (g.succs p.vertex).length = 1 := by
  have notExit := point.notExit
  rw [(sound.vertices p.vertex point.listed).succCount]
  rw [Vertex.isBranch, show (g.vertex p.vertex).op = g.op p.vertex from rfl] at notBranch
  cases isOp : g.op p.vertex <;> simp_all [Op.numSuccs, Op.info]

theorem goesOn (point : g.ReleasesAt p) (sound : g.Sound) : g.succs p.vertex ≠ [] := by
  rw [← List.length_pos_iff, (sound.vertices p.vertex point.listed).succCount]
  have notExit := point.notExit
  cases isOp : g.op p.vertex <;> simp_all [Op.numSuccs]

/-- A point whose release goes before it has nothing to do with the variable. -/
theorem silent (point : g.ReleasesAt p) (sound : g.Sound) (before : g.releasesBefore p = true) :
    (g.vertex p.vertex).references (some p.x) = false ∧ (g.vertex p.vertex).readsVar (some p.x) = false := by
  have vertexSound := sound.vertices p.vertex point.listed
  have kind : g.op p.vertex = .jump ∨ g.op p.vertex = .jumpIf ∨ g.op p.vertex = .ret := by
    rw [releasesBefore, Vertex.isBranch, show (g.vertex p.vertex).op = g.op p.vertex from rfl] at before
    cases isOp : g.op p.vertex <;> simp_all [Op.info]
  have noRead : (g.vertex p.vertex).readsVar (some p.x) = false := by
    rcases kind with isOp | isOp | isOp
    · simpa [releasesBefore, Vertex.isBranch, show (g.vertex p.vertex).op = _ from isOp, Op.info] using before
    · simpa [releasesBefore, Vertex.isBranch, show (g.vertex p.vertex).op = _ from isOp, Op.info] using before
    · exact point.notReturned isOp
  have noResult : (g.vertex p.vertex).result = none := by
    refine vertexSound.result_eq_none ?_
    rcases kind with isOp | isOp | isOp <;> simp [isOp, Op.info]
  have reads : (g.vertex p.vertex).reads = (g.vertex p.vertex).args := by
    refine if_neg ?_
    rcases kind with isOp | isOp | isOp <;> simp [show (g.vertex p.vertex).op = _ from isOp]
  refine ⟨?_, noRead⟩
  rw [Vertex.readsVar, reads] at noRead
  rw [Vertex.references, noResult, noRead]
  rfl

/-- Where a release leads, its variable is not live. -/
theorem not_live (point : g.ReleasesAt p) (sound : g.Sound) {s : VertexId}
    (leads : if g.releasesBefore p then s = p.vertex else s ∈ g.succs p.vertex) : ¬ g.Live p.x s := by
  cases before : g.releasesBefore p with
  | false => exact point.quiet s (by simpa [before] using leads)
  | true =>
    obtain rfl : s = p.vertex := by simpa [before] using leads
    rintro ⟨past, u, trail, reads, quiet⟩
    by_cases nothing : past = []
    · subst nothing
      rw [← trail.eq_root, (point.silent sound before).2] at reads
      contradiction
    · obtain ⟨s, later, rfl, edge, rest⟩ := trail.exists_next nothing
      exact point.quiet s edge ⟨later, u, rest, reads, fun w member => quiet w (List.mem_cons_of_mem _ member)⟩

end ReleasesAt

/-! ### Release after release -/

/-- `h` is `g` with the releases for the points in `done`. -/
structure Releasing (g : Graph) (done : List ReleasePoint) (h : Graph) (back : VertexId → VertexId) : Prop where
  padded : g.Padded h back
  new : ∀ f ∈ h.listed, g.knows f = false → ∃ p ∈ done, h.OnlyFrees p.x f
  placed : ∀ p ∈ done, g.ReleasedAt h back (g.releasesBefore p) p.x p.vertex

namespace Releasing

variable {done : List ReleasePoint} {f : VertexId} {x : VarId}

/-- In a graph that began without releases, each release belongs to a point. -/
theorem exists_point (releasing : g.Releasing done h back) (noFree : ∀ v ∈ g.listed, g.op v ≠ .free) (frees : h.Frees x f) :
    g.knows f = false ∧ ∃ p ∈ done, p.x = x := by
  have new : g.knows f = false := by
    refine releasing.padded.new_of_frees (fun v frees => ?_) frees
    exact noFree v frees.1 frees.2.1
  obtain ⟨p, member, only⟩ := releasing.new f frees.1 new
  exact ⟨new, p, member, ((only.frees x).mp frees).symm⟩

/-- One more variable is released. -/
theorem step (releasing : g.Releasing done h back) (sound : g.Sound) (noFree : ∀ v ∈ g.listed, g.op v ≠ .free)
    (point : g.ReleasesAt p) (first : ∀ q ∈ done, q.x ≠ p.x) : ∃ back, g.Releasing (done ++ [p]) (h.release p).1 back := by
  have wired := sound.wired
  have padded := releasing.padded
  have known : g.knows p.vertex = true := knows_iff.mpr (wired.listed_lt _ point.listed)
  have body := padded.body p.vertex known
  obtain ⟨op, _⟩ := Vertex.body_eq_iff.mp body
  have none (f : VertexId) : ¬ h.Frees p.x f := fun frees => by
    obtain ⟨_, q, member, same⟩ := releasing.exists_point noFree frees
    exact first q member same
  have single (notBranch : (h.vertex p.vertex).isBranch = false) (notRet : h.op p.vertex ≠ .ret) :
      (h.succs p.vertex).length = 1 := by
    rw [padded.degree _ point.listed]
    refine point.single sound ?_ (by rwa [Graph.op, ← op])
    rwa [Vertex.isBranch, ← op]
  have goesOn : h.succs p.vertex ≠ [] := by
    rw [← List.length_pos_iff, padded.degree _ point.listed, List.length_pos_iff]
    exact point.goesOn sound
  obtain ⟨back', more, only, placed⟩ :=
    release_spec padded.wired (padded.listed_of_listed wired point.listed) none goesOn single
  refine ⟨back ∘ back', padded.trans wired more, ?_, ?_⟩
  · intro f member new
    cases old : h.knows f with
    | false => exact ⟨p, by simp, only f member old⟩
    | true =>
      obtain ⟨q, isDone, frees⟩ := releasing.new f ((more.listed f old).mp member) new
      exact ⟨q, by simp [isDone], (more.onlyFrees_iff old).mpr frees⟩
  · intro q member
    rcases List.mem_append.mp member with isDone | last
    · refine (releasing.placed q isDone).later padded wired padded.wired more fun f frees => ?_
      rw [← Bool.not_eq_false]
      exact fun new => first q isDone (((only f frees.1 new).frees q.x).mp frees)
    · obtain rfl := List.mem_singleton.mp last
      rw [← releasesBefore_congr body]
      exact placed.below padded wired point.listed

/-- All variables of a plan are released. -/
theorem run (releasing : g.Releasing done h back) (sound : g.Sound) (noFree : ∀ v ∈ g.listed, g.op v ≠ .free)
    {plan : List ReleasePoint} (points : ∀ p ∈ plan, g.ReleasesAt p) (distinct : ((done ++ plan).map (·.x)).Nodup) :
    ∃ back, g.Releasing (done ++ plan) (plan.foldl (fun h p => (h.release p).1) h) back := by
  induction plan generalizing done h back with
  | nil => exact ⟨back, by simpa using releasing⟩
  | cons p plan ih =>
    have first : ∀ q ∈ done, q.x ≠ p.x := by
      intro q member same
      rw [List.map_append, List.nodup_append] at distinct
      exact distinct.2.2 q.x (List.mem_map_of_mem member) p.x (by simp) same
    obtain ⟨back', releasing'⟩ := releasing.step sound noFree (points p List.mem_cons_self) first
    rw [List.foldl_cons, List.append_cons]
    rw [List.append_cons] at distinct
    exact ih releasing' (fun q member => points q (List.mem_cons_of_mem _ member)) distinct

end Releasing

end Graph

/-! ### The pass -/

namespace Analysis

/-- Kept post-dominators answer for the graph if they are of its epoch. -/
def DatedBackward (a : Analysis) : Prop :=
  ∀ d, a.backward = some d → d.epoch = a.graph.epoch → d.dominators.Answers a.graph.preds a.graph.exit

/-- The pass releases `p.x` at `p.vertex`. -/
def Releases (a : Analysis) (p : ReleasePoint) : Prop :=
  (∃ xs, a.graph.mentioned? = some xs ∧ p.x ∈ xs) ∧
    a.graph.releasePoint? a.dominators.1 a.postDominators.1 p.x = .ok (some p)

variable {a : Analysis} {p : ReleasePoint}

theorem postDominators_answer (sound : a.graph.Sound) (dated : a.DatedBackward) :
    a.postDominators.1.Answers a.graph.preds a.graph.exit := by
  rw [postDominators, current.eq_def]
  dsimp only
  split
  · rename_i d kept
    split
    · exact dated d kept ‹_›
    · exact sound.wired.answers_ofGraph sound.exitListed true
  · exact sound.wired.answers_ofGraph sound.exitListed true

theorem Releases.point (releases : a.Releases p) (sound : a.graph.Sound) (dated : a.DatedBackward) : a.graph.ReleasesAt p :=
  (Graph.releasesAt_of_releasePoint? sound (postDominators_answer sound dated) releases.2).2

/-- The choice of points does not fail. -/
theorem exists_releasePoint? (sound : a.graph.Sound) (dated : a.DatedBackward) (x : VarId) :
    ∃ chosen, a.graph.releasePoint? a.dominators.1 a.postDominators.1 x = .ok chosen := by
  obtain ⟨found, isFound, _⟩ :=
    (postDominators_answer sound dated).nearestCommon_spec a.graph.name (a.graph.references (some x))
  rw [Graph.releasePoint?]
  simp only [isFound]
  cases found with
  | none => exact ⟨none, rfl⟩
  | some v => exact ⟨_, rfl⟩

theorem mapM_eq_ok {ε α β : Type} {f : α → Except ε β} {c : α → β} (xs : List α) (all : ∀ x, f x = .ok (c x)) :
    xs.mapM f = .ok (xs.map c) := by
  induction xs with
  | nil => rfl
  | cons x xs ih => simp [List.mapM_cons, all, ih, bind, Except.bind, pure, Except.pure]

/-- Counting the releases does not change them. -/
theorem foldl_release (plan : List ReleasePoint) (g : Graph) (n : Nat) :
    (plan.foldl (fun (g, n) p => let (g, more) := g.release p; (g, n + more)) (g, n)).1 =
      plan.foldl (fun g p => (g.release p).1) g := by
  induction plan generalizing g n with
  | nil => rfl
  | cons p plan ih => exact ih _ _

/-- Once its points are chosen, the pass is the releases in turn. -/
theorem insertReleases_succeeds {xs : List VarId} {chosen : VarId → Option ReleasePoint}
    (mentioned : a.graph.mentioned? = some xs)
    (isChosen : ∀ x, a.graph.releasePoint? a.dominators.1 a.postDominators.1 x = .ok (chosen x)) :
    ∃ count a', insertReleases.Succeeds a count a' ∧
      a'.graph = (xs.filterMap chosen).foldl (fun g p => (g.release p).1) a.graph := by
  let ends := (xs.filterMap chosen).foldl (fun (g, n) p => let (g, more) := g.release p; (g, n + more)) (a.graph, 0)
  refine ⟨ends.2, { a.dominators.2.postDominators.2 with graph := ends.1 }, ?_, foldl_release _ _ _⟩
  rw [insertReleases, Action.get_bind_succeeds]
  refine Action.set_bind_succeeds.mpr (Action.need_bind_succeeds.mpr ⟨xs, mentioned, ?_⟩)
  have all : xs.mapM (a.graph.releasePoint? a.dominators.1 a.postDominators.1) = .ok (xs.map chosen) :=
    mapM_eq_ok xs isChosen
  have points : (xs.map chosen).filterMap id = xs.filterMap chosen := by rw [List.filterMap_map, Function.id_comp]
  split
  · rename_i failed
    exact absurd (failed.symm.trans all) (by simp)
  · rename_i found
    obtain rfl := Except.ok.inj (found.symm.trans all)
    refine Action.set_bind_succeeds.mpr (Action.pure_succeeds.mpr ?_)
    rw [points]
    exact ⟨rfl, rfl⟩

/-- On a sound graph without releases the pass succeeds, and does what its points say. -/
theorem insertReleases_spec (sound : a.graph.Sound) (noFree : ∀ v ∈ a.graph.listed, a.graph.op v ≠ .free)
    (dated : a.DatedBackward) : ∃ count a' plan back, insertReleases.Succeeds a count a' ∧
      (∀ p, p ∈ plan ↔ a.Releases p) ∧ a.graph.Releasing plan a'.graph back := by
  obtain ⟨chosen, isChosen⟩ := Classical.axiomOfChoice (exists_releasePoint? sound dated)
  obtain ⟨xs, isMentioned, nodup⟩ := sound.exists_mentioned
  have named {x : VarId} {p : ReleasePoint} (isPoint : chosen x = some p) : p.x = x :=
    (Graph.releasesAt_of_releasePoint? sound (postDominators_answer sound dated) (isPoint ▸ isChosen x)).1
  have mem_plan (p : ReleasePoint) : p ∈ xs.filterMap chosen ↔ a.Releases p := by
    rw [List.mem_filterMap, Releases]
    constructor
    · rintro ⟨x, member, isPoint⟩
      obtain rfl := named isPoint
      exact ⟨⟨xs, isMentioned, member⟩, isPoint ▸ isChosen p.x⟩
    · rintro ⟨⟨ys, isMentioned', member⟩, isPoint⟩
      obtain rfl : xs = ys := by simpa [isMentioned] using isMentioned'
      exact ⟨p.x, member, by simpa [isChosen] using isPoint⟩
  have distinct : ((xs.filterMap chosen).map (·.x)).Nodup := by
    rw [List.map_filterMap]
    refine nodup.filterMap fun x y z isX isY => ?_
    obtain ⟨p, pointX, rfl⟩ := Option.map_eq_some_iff.mp isX
    obtain ⟨q, pointY, same⟩ := Option.map_eq_some_iff.mp isY
    rw [← named pointX, ← named pointY, same]
  have start : a.graph.Releasing [] a.graph id :=
    ⟨.refl sound.wired, fun f member new => by simp [Graph.knows_iff.mpr (sound.wired.listed_lt f member)] at new,
      by simp⟩
  obtain ⟨back, releasing⟩ :=
    start.run sound noFree (fun p member => ((mem_plan p).mp member).point sound dated) distinct
  obtain ⟨count, a', done, same⟩ := insertReleases_succeeds isMentioned isChosen
  exact ⟨count, a', xs.filterMap chosen, back, done, mem_plan, same ▸ releasing⟩

end Analysis

end MiddleEnd
