import Mathlib.Logic.Relation
import MiddleEnd.Proofs.Coalescing

/-!
Which vertex a value comes from. A read sees the last write of its variable; if a phi wrote it, the value comes from
the last write of what the phi joins, and so on (`Graph.origin`). In a coherent graph that is the last vertex, phis
left out, that wrote any version of the variable (`Coherent.origin_eq`), and taking phis out of a graph in single
assignment form does not change which one that is (`phi_elimination_keeps_origins`).
-/
namespace MiddleEnd

theorem Vertex.mem_mentioned {v : Vertex} {a : VarId} :
    a ∈ v.mentioned.filterMap id ↔ v.result = some a ∨ some a ∈ v.args := by
  cases written : v.result <;> simp [Vertex.mentioned, written, or_comm, eq_comm]

namespace Graph

variable {g h : Graph} {src : VarId → VarId} {past : List VertexId} {u : VertexId}

/-- The vertex that the value of a variable of `ys` comes from, where `before` are the vertices passed, the last one
first. A phi passes on the value of the last of its inputs and its result. -/
def origin (g : Graph) (ys : List VarId) : List VertexId → Option VertexId
  | [] => none
  | v :: before =>
    if (g.vertex v).targets.any ys.contains then
      if g.op v = .phi then g.origin ((g.vertex v).mentioned.filterMap id) before else some v
    else g.origin ys before

/-- Whether a vertex is no phi and writes a variable of the class `c`. -/
def makes (g : Graph) (src : VarId → VarId) (c : VarId) (v : VertexId) : Bool :=
  g.op v ≠ .phi && (g.vertex v).targets.any fun y => src y = c

/-- In a coherent graph, a value comes from the last vertex that made a version of its class. -/
theorem Coherent.origin_eq (coherent : g.Coherent src) (trail : Trail g.succs g.entry past u) {c : VarId}
    {ys : List VarId} (inClass : ∀ y ∈ ys, src y = c)
    (holdsLast : ∀ w, g.latest (fun z => src z = c) past = some w → w ∈ ys) :
    g.origin ys past.reverse = past.reverse.find? (g.makes src c) := by
  induction trail generalizing ys with
  | start => rfl
  | @step past v u before edge ih =>
    rw [List.reverse_append, List.reverse_singleton, List.singleton_append, origin, List.find?_cons]
    rw [latest_concat] at holdsLast
    cases found : (g.vertex v).targets.find? (fun z => src z = c) with
    | none =>
      have silent : ∀ y ∈ (g.vertex v).targets, src y ≠ c := by simpa using found
      have notRead : (g.vertex v).targets.any ys.contains = false := by
        rw [List.any_eq_false]
        intro y writes held
        exact silent y writes (inClass y (by simpa using held))
      have notMade : g.makes src c v = false := by
        simp only [makes, Bool.and_eq_false_imp]
        intro _
        rw [List.any_eq_false]
        simpa using silent
      rw [notMade, if_neg (by simp [notRead])]
      exact ih inClass fun w last => holdsLast w (by simpa [found] using last)
    | some w =>
      have writes := List.mem_of_find?_eq_some found
      have ofClass : src w = c := by simpa using List.find?_some found
      have read : (g.vertex v).targets.any ys.contains = true := by
        rw [List.any_eq_true]
        exact ⟨w, writes, by simpa using holdsLast w (by simp [found])⟩
      rw [if_pos read]
      by_cases isPhi : g.op v = .phi
      · -- the phi joins what was written last before it
        have result : (g.vertex v).result = some w := by
          simpa [Vertex.targets_of_op (show (g.vertex v).op ≠ .function by rw [← Graph.op, isPhi]; simp)] using writes
        have notMade : g.makes src c v = false := by simp [makes, isPhi]
        rw [if_pos isPhi, notMade]
        refine ih ?_ fun y last => ?_
        · intro y mentioned
          rcases Vertex.mem_mentioned.mp mentioned with isResult | isInput
          · obtain rfl : w = y := by simpa [result] using isResult
            exact ofClass
          · rw [coherent.inputs before.reachable isPhi result isInput, ofClass]
        · rw [← ofClass] at last
          refine Vertex.mem_mentioned.mpr ((coherent.joins before isPhi result last).imp_left ?_)
          rintro rfl
          exact result
      · have made : g.makes src c v = true := by
          simp only [makes, Bool.and_eq_true, List.any_eq_true]
          exact ⟨by simpa using isPhi, w, writes, by simpa using ofClass⟩
        rw [if_neg isPhi, made]

end Graph

/-- What phi elimination made of the single assignment form of `g`, which has no phis: the phis of `h` are some of
those that were inserted. -/
structure Merged (g : Graph) (src : VarId → VarId) (h : Graph) : Prop where
  wired : h.Wired
  expands : g.Expands h (· < g.store.size)
  keeps : ∀ {v}, v ∈ g.listed → v ∈ h.listed
  old : ∀ {v}, v ∈ g.listed → (h.vertex v).Versions src (g.vertex v)
  inserted : ∀ {v}, Reachable h.succs h.entry v → g.store.size ≤ v → h.op v = .phi
  phi : ∀ {v}, v ∈ h.listed → h.contains v = true → h.op v = .phi →
    g.store.size ≤ v ∧ (h.vertex v).result.isSome = true ∧ Reachable h.succs h.entry v
  coherent : h.Coherent src

namespace Merged

variable {g h k : Graph} {src ρ : VarId → VarId} {phi : VertexId}

theorem of_versioned (noPhi : ∀ v ∈ g.listed, g.op v ≠ .phi) (versioned : Versioned g src h) : Merged g src h where
  wired := versioned.sound.wired
  expands := versioned.expands
  keeps member := versioned.listed.mpr (.inl member)
  old := versioned.old
  inserted reached new := (versioned.new new (versioned.sound.wired.lt_of_reachable reached)).1
  phi {v} member _ isPhi := by
    rcases versioned.listed.mp member with known | ⟨new, inside⟩
    · exact absurd ((versioned.old known).op.symm.trans isPhi) (noPhi v known)
    · refine ⟨new, ?_, (versioned.new new inside).2⟩
      rw [(versioned.sound.vertices v member).result, isPhi]
      rfl
  coherent := versioned.coherent

theorem retyped (merged : Merged g src h) (retyped : h.Retyped k) : Merged g src k := by
  have op (v : VertexId) : k.op v = h.op v := by rw [Graph.op, Graph.op, retyped.vertex]
  have contains (v : VertexId) : k.contains v = h.contains v := by rw [Graph.contains, Graph.contains, retyped.vertex]
  refine ⟨retyped.wired merged.wired, merged.expands.congr rfl (fun _ => rfl) retyped.entry (congrFun retyped.succs),
    ?_, ?_, ?_, ?_, retyped.coherent merged.coherent⟩ <;>
    simp only [retyped.listed, retyped.vertex, retyped.succs, retyped.entry, op, contains]
  · exact merged.keeps
  · exact merged.old
  · exact merged.inserted
  · exact merged.phi

/-- Without one of its phis, a graph is still what phi elimination made. -/
theorem coalesced (below : ∀ v ∈ g.listed, v < g.store.size) (noPhi : ∀ v ∈ g.listed, g.op v ≠ .phi)
    (merged : Merged g src h) (coalesced : Graph.Coalesced src ρ h k phi) (new : g.store.size ≤ phi) : Merged g src k := by
  have notPhi {v : VertexId} (known : v ∈ g.listed) : v ≠ phi :=
    Nat.ne_of_lt (Nat.lt_of_lt_of_le (below v known) new)
  have reached {v : VertexId} (reached : Reachable k.succs k.entry v) :
      Reachable h.succs h.entry v ∧ v ≠ phi :=
    ⟨coalesced.expands.reachable reached, by simpa using coalesced.expands.kept_of_reachable reached⟩
  refine ⟨coalesced.wired, ?_, ?_, ?_, ?_, ?_, coalesced.coherent_after merged.wired merged.coherent⟩
  · refine merged.expands.cancel coalesced.expands fun v old => ?_
    have old : v < g.store.size := by simpa using old
    simpa using Nat.ne_of_lt (Nat.lt_of_lt_of_le old new)
  · intro v known
    rw [coalesced.listed]
    exact (List.mem_erase_of_ne (notPhi known)).mpr (merged.keeps known)
  · intro v known
    have versions := merged.old known
    have relabeled := coalesced.vertex (merged.keeps known) (notPhi known)
    have ordinary : (h.vertex v).op ≠ .phi := fun isPhi => noPhi v known (versions.op.symm.trans isPhi)
    have classes (a : Option VarId) : (a.map ρ).map src = a.map src := by
      cases a with
      | none => rfl
      | some y => exact congrArg some (coalesced.classes y)
    refine ⟨relabeled.op.trans versions.op, relabeled.binOp.trans versions.binOp,
      relabeled.callee.trans versions.callee, relabeled.owned.trans versions.owned, ?_, ?_⟩
    · rw [relabeled.args ordinary, List.map_map, ← versions.args]
      exact List.map_congr_left fun a _ => classes a
    · rw [relabeled.result, classes, versions.result]
  · intro v reachedK inserted
    obtain ⟨reachedH, other⟩ := reached reachedK
    exact (coalesced.vertex (merged.wired.listed_of_reachable reachedH) other).op.trans (merged.inserted reachedH inserted)
  · intro v member contains isPhi
    have other : v ≠ phi := by
      rintro rfl
      simp [coalesced.gone] at contains
    have before : v ∈ h.listed := List.mem_of_mem_erase (coalesced.listed ▸ member)
    have relabeled := coalesced.vertex before other
    obtain ⟨inserted, result, reachedH⟩ :=
      merged.phi before (relabeled.owned.symm.trans contains) (relabeled.op.symm.trans isPhi)
    refine ⟨inserted, ?_, coalesced.reachable reachedH other⟩
    rw [relabeled.result, Option.isSome_map, result]

/-- Behind a phi there is one vertex, and it is another one. -/
theorem succs_phi (merged : Merged g src h) (reached : Reachable h.succs h.entry phi) (new : g.store.size ≤ phi) :
    ∃ s, h.succs phi = [s] ∧ phi ≠ s := by
  obtain ⟨past, trail⟩ := reached
  obtain ⟨t, leads, _⟩ := merged.expands.project trail
  have extra : decide (phi < g.store.size) = false := by simpa using new
  exact leads.exists_next extra

end Merged

/-! ### Sequences of steps -/

/-- One step of phi elimination at a phi of the graph, whether it takes the phi out or not. -/
inductive PhiStep (s s' : Coalescing) : Prop
  | resolve (phi : VertexId) (member : phi ∈ s.graph.verticesOf .phi) (resolved : Bool)
    (done : (PhiElimination.resolve phi).Succeeds s resolved s')
  | simplify (phi : VertexId) (member : phi ∈ s.graph.verticesOf .phi) (contains : s.graph.contains phi = true)
    (changed : Bool) (done : (Rule.simplifyPhi phi).Succeeds s.graph changed s'.graph)

theorem Merged.step {g : Graph} {src : VarId → VarId} {s s' : Coalescing} (below : ∀ v ∈ g.listed, v < g.store.size)
    (noPhi : ∀ v ∈ g.listed, g.op v ≠ .phi) (merged : Merged g src s.graph) (step : PhiStep s s') :
    Merged g src s'.graph := by
  cases step with
  | resolve phi member resolved done =>
    obtain ⟨listed, isPhi⟩ : phi ∈ s.graph.listed ∧ s.graph.op phi = .phi := by simpa [Graph.verticesOf] using member
    rcases PhiElimination.eliminate_succeeds (PhiElimination.resolve_succeeds done) with ⟨_, same⟩ | ⟨_, eliminated⟩
    · exact same ▸ merged
    · obtain ⟨new, result, reached⟩ := merged.phi listed eliminated.contains isPhi
      obtain ⟨t, only, other⟩ := merged.succs_phi reached new
      obtain ⟨r, result⟩ := Option.isSome_iff_exists.mp result
      obtain ⟨ρ, coalesced⟩ :=
        Graph.coalesced_of_eliminated merged.wired (merged.wired.listed_of_reachable reached) only other
          (merged.coherent.inputs reached eliminated.isPhi) result eliminated
      exact merged.coalesced below noPhi coalesced new
  | simplify phi member contains changed done =>
    obtain ⟨listed, isPhi⟩ : phi ∈ s.graph.listed ∧ s.graph.op phi = .phi := by simpa [Graph.verticesOf] using member
    rcases Rule.simplifyPhi_succeeds done with ⟨_, same⟩ | ⟨_, unified | simplified⟩
    · exact same ▸ merged
    · exact merged.retyped unified.refined.retyped
    · obtain ⟨new, _, reached⟩ := merged.phi listed contains isPhi
      obtain ⟨t, only, other⟩ := merged.succs_phi reached new
      obtain ⟨_, _, _, _, coalesced⟩ :=
        Graph.coalesced_of_simplified merged.wired (merged.wired.listed_of_reachable reached) only other
          (merged.coherent.inputs reached simplified.isPhi) simplified
      exact merged.coalesced below noPhi coalesced new

/-- The original vertices are those that make what they made before. -/
theorem Merged.find?_makes {g h : Graph} {src : VarId → VarId} {past : List VertexId} {u : VertexId}
    (wired : g.Wired) (noPhi : ∀ v ∈ g.listed, g.op v ≠ .phi) (merged : Merged g src h)
    (trail : Trail h.succs h.entry past u) (x : VarId) :
    past.reverse.find? (h.makes src x) =
      (past.filter (· < g.store.size)).reverse.find? fun v => (g.vertex v).writesVar (some x) := by
  rw [← List.filter_reverse, List.find?_filter]
  refine List.find?_congr fun v passed => ?_
  obtain ⟨before, _, _, toV, _, _⟩ := trail.cut (List.mem_reverse.mp passed)
  rcases Nat.lt_or_ge v g.store.size with old | new
  · have member := wired.listed_of_reachable (merged.expands.project_kept toV (by simpa using old)).reachable
    have versions := merged.old member
    have ordinary : h.op v ≠ .phi := fun isPhi => noPhi v member (versions.op.symm.trans isPhi)
    rw [Bool.eq_iff_iff]
    simp only [Graph.makes, ordinary, ne_eq, not_false_eq_true, decide_true, Bool.true_and, List.any_eq_true,
      decide_eq_true_eq, old, true_and, ← Vertex.mem_targets, ← versions.targets, List.mem_map]
  · have isPhi := merged.inserted toV.reachable new
    simp [Graph.makes, isPhi, Nat.not_lt.mpr new]

namespace Analysis

/-- Taking phis out of single assignment form keeps what every read sees. For every path of the graph that is left,
the original vertices on it are a path of the original graph; where an original vertex at its end read `x`, it reads
a variable whose value comes from the last vertex on the original path that writes `x`, or from nowhere if there is
none. Every path of the original graph comes about so. -/
theorem phi_elimination_keeps_origins (a a' : Analysis) (passes : a.graph.verify = none) (inScope : a.graph.Scoped)
    (noPhi : ∀ v ∈ a.graph.listed, a.graph.op v ≠ .phi) (dated : a.Dated)
    (done : toSingleAssignment.Succeeds a () a') (resolved : Nat) (s : Coalescing)
    (steps : Relation.ReflTransGen PhiStep ⟨a'.graph, resolved⟩ s) :
    (∀ past u, Trail s.graph.succs s.graph.entry past u → u < a.graph.store.size →
      Trail a.graph.succs a.graph.entry (past.filter (· < a.graph.store.size)) u ∧
      ∀ (i : Nat) x, (a.graph.vertex u).reads[i]? = some (some x) →
        ∃ y, (s.graph.vertex u).reads[i]? = some (some y) ∧
          s.graph.origin [y] past.reverse =
            (past.filter (· < a.graph.store.size)).reverse.find? fun v => (a.graph.vertex v).writesVar (some x)) ∧
    ∀ past u, Trail a.graph.succs a.graph.entry past u →
      ∃ past', Trail s.graph.succs s.graph.entry past' u ∧ past'.filter (· < a.graph.store.size) = past := by
  have sound := Graph.sound_of_verify passes
  have stage := stage_toSingleAssignment sound inScope noPhi dated done
  have merged : Merged a.graph a.source s.graph := by
    induction steps with
    | refl => exact .of_versioned noPhi stage.versioned
    | tail _ step ih => exact ih.step sound.wired.listed_lt noPhi step
  refine ⟨fun past u trail old => ?_, fun past u trail => merged.expands.lift trail⟩
  have original := merged.expands.project_kept trail (by simpa using old)
  refine ⟨original, fun i x read => ?_⟩
  have member := sound.wired.listed_of_reachable original.reachable
  have versions := merged.old member
  obtain ⟨y, at_i, rfl⟩ := versions.exists_read read
  have ordinary : s.graph.op u ≠ .phi := fun isPhi => noPhi u member (versions.op.symm.trans isPhi)
  refine ⟨y, at_i, ?_⟩
  rw [← merged.find?_makes sound.wired noPhi trail]
  refine merged.coherent.origin_eq trail (by simp) fun w last => ?_
  simp [merged.coherent.reads trail ordinary (List.mem_of_getElem? at_i) last]

/-- The loop without its phi. -/
def countdownMerged : Graph where
  name := "countdown"
  sig := ⟨[some .long], .long⟩
  entry := 0
  exit := 1
  store := #[
    { op := .function, args := [some 2], succs := [2], owned := true },
    { op := .finish, preds := [5], owned := true },
    { op := .label, succs := [3], preds := [0, 4], owned := true },
    { op := .jumpIf, args := [some 2], succs := [4, 5], preds := [2], owned := true },
    { op := .binary, binOp := .minus, result := some 2, args := [some 2, some 1], succs := [2], preds := [3],
      owned := true },
    { op := .ret, args := [some 2], succs := [1], preds := [3], owned := true },
    { op := .phi, result := some 2, args := [some 0, some 3] }]
  listed := [0, 1, 2, 3, 4, 5]
  vars := #[{ name := "n", type := some .long }, { type := some .long, value := some (.long 1) },
    { name := "n", type := some .long }, { name := "n", type := some .long }]
  epoch := 5
  reach := none

/-- Once around the loop, what is returned comes from the subtraction. -/
theorem countdown_keeps_origins :
    PhiStep ⟨countdownSplit, 0⟩ ⟨countdownMerged, 1⟩ ∧
    Trail countdownMerged.succs countdownMerged.entry [0, 2, 3, 4, 2, 3] 5 ∧
    ∃ y, (countdownMerged.vertex 5).reads[0]? = some (some y) ∧
      countdownMerged.origin [y] [3, 2, 4, 3, 2, 0] = some 4 := by
  obtain ⟨a', done, graph⟩ := toSingleAssignment_countdown
  have step : PhiStep ⟨countdownSplit, 0⟩ ⟨countdownMerged, 1⟩ := by
    have ended : (PhiElimination.resolve 6).outcome ⟨countdownSplit, 0⟩ = (.ok true, ⟨countdownMerged, 1⟩) := by cbv
    exact .resolve 6 (by decide) true ended
  have trail : Trail countdownMerged.succs countdownMerged.entry [0, 2, 3, 4, 2, 3] 5 := by
    have edge : ∀ e ∈ [(0, 2), (2, 3), (3, 4), (4, 2), (3, 5)], e.2 ∈ countdownMerged.succs e.1 := by decide
    exact (((((Trail.start.step (edge (0, 2) (by decide))).step (edge (2, 3) (by decide))).step
      (edge (3, 4) (by decide))).step (edge (4, 2) (by decide))).step (edge (2, 3) (by decide))).step
      (edge (3, 5) (by decide))
  have dated : Analysis.Dated { graph := countdown } := by
    intro d kept
    simp at kept
  have kept := phi_elimination_keeps_origins { graph := countdown } a' (by decide) (by decide) (by decide) dated done 0
    ⟨countdownMerged, 1⟩ (by rw [graph]; exact .single step)
  obtain ⟨y, read, origin⟩ := (kept.1 _ 5 trail (by decide)).2 0 0 rfl
  exact ⟨step, trail, y, read, origin.trans (by decide)⟩

end Analysis

end MiddleEnd
