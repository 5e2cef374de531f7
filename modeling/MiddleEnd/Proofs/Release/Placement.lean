import MiddleEnd.Proofs.Insertion
import MiddleEnd.Release

/-!
Where the releases of a variable stand. A release goes on all edges into its point, or on all edges out of it; either
way every path by that side of the point meets one, every release leads on by the point, and between two releases a
path comes by the point again (`Graph.ReleasedAt`). These facts outlast the releases of other variables.
-/
namespace MiddleEnd

namespace Graph

variable {g h k : Graph} {back back' : VertexId → VertexId} {x y : VarId} {f v w : VertexId} {p : ReleasePoint}

/-- `f` releases `x`. -/
def Frees (g : Graph) (x : VarId) (f : VertexId) : Prop :=
  f ∈ g.listed ∧ g.op f = .free ∧ (g.vertex f).readsVar (some x) = true

instance : Decidable (g.Frees x f) :=
  inferInstanceAs (Decidable (_ ∧ _ ∧ _))

/-- Whether the release goes before its point, and not behind it. -/
def releasesBefore (g : Graph) (p : ReleasePoint) : Bool :=
  let w := g.vertex p.vertex
  (w.isBranch || w.op == .ret) && !(w.isBranch && w.readsVar (some p.x))

theorem releasesBefore_congr (same : (h.vertex p.vertex).body = (g.vertex p.vertex).body) :
    h.releasesBefore p = g.releasesBefore p := by
  obtain ⟨op, _, _, _, args, _⟩ := Vertex.body_eq_iff.mp same
  simp only [releasesBefore, Vertex.isBranch, Vertex.readsVar, Vertex.reads, op, args]

theorem Frees.congr (frees : g.Frees x f) (listed : f ∈ h.listed) (same : (h.vertex f).body = (g.vertex f).body) :
    h.Frees x f := by
  obtain ⟨opSame, _, _, _, args, _⟩ := Vertex.body_eq_iff.mp same
  obtain ⟨_, isFree, reads⟩ := frees
  refine ⟨listed, opSame.trans isFree, ?_⟩
  rwa [Vertex.readsVar, Vertex.reads, opSame, args]

/-- What is known of a variable's releases stays with the vertices known. -/
theorem Padded.frees_iff (padded : g.Padded h back) (known : g.knows f = true) : h.Frees x f ↔ g.Frees x f := by
  constructor
  · intro frees
    exact frees.congr ((padded.listed f known).mp frees.1) (padded.body f known).symm
  · intro frees
    exact frees.congr ((padded.listed f known).mpr frees.1) (padded.body f known)

/-- The releases of `x` in `h` stand before the vertex `v` of `g`, or else behind it. -/
structure ReleasedAt (g h : Graph) (back : VertexId → VertexId) (before : Bool) (x : VarId) (v : VertexId) : Prop where
  released : ∃ f, h.Frees x f
  ends : ∀ {f}, h.Frees x f → if before then back f = v else back f ∈ g.succs v
  covers : ∀ {r past s}, r ∈ g.listed → g.knows s = true → Trail h.succs r past s → past ≠ [] →
    (if before then s = v else r = v) → ∃ f ∈ past, h.Frees x f
  between : ∀ {f f' past}, h.Frees x f → h.Frees x f' → Trail h.succs f past f' → past ≠ [] → v ∈ past

namespace ReleasedAt

variable {before : Bool}

/-- Padding without releases of `x` leaves its releases where they stand. -/
theorem later (placed : g.ReleasedAt h back before x v) (padded : g.Padded h back) (wired : g.Wired) (hwired : h.Wired)
    (more : h.Padded k back') (noneNew : ∀ f, k.Frees x f → h.knows f = true) :
    g.ReleasedAt k (back ∘ back') before x v where
  released := by
    obtain ⟨f, frees⟩ := placed.released
    exact ⟨f, (more.frees_iff (knows_iff.mpr (hwired.listed_lt f frees.1))).mpr frees⟩
  ends {f} frees := by
    rw [Function.comp_apply, more.back_known f (noneNew f frees)]
    exact placed.ends ((more.frees_iff (noneNew f frees)).mp frees)
  covers {r past s} listed known trail nonempty side := by
    have listed' := padded.listed_of_listed wired listed
    have knownR := knows_iff.mpr (hwired.listed_lt r listed')
    have shorter := more.project_known (more.listed_of_listed hwired listed') trail (padded.knows_of_knows known)
    rw [more.back_known r knownR] at shorter
    have stays : past.filter h.knows ≠ [] :=
      List.ne_nil_of_mem (List.mem_filter.mpr ⟨trail.root_mem nonempty, knownR⟩)
    obtain ⟨f, passed, frees⟩ := placed.covers listed known shorter stays side
    obtain ⟨passed, knownF⟩ := List.mem_filter.mp passed
    exact ⟨f, passed, (more.frees_iff knownF).mpr frees⟩
  between {f f' past} frees frees' trail nonempty := by
    have knownF := noneNew f frees
    have shorter := more.project_known frees.1 trail (noneNew f' frees')
    rw [more.back_known f knownF] at shorter
    have stays : past.filter h.knows ≠ [] :=
      List.ne_nil_of_mem (List.mem_filter.mpr ⟨trail.root_mem nonempty, knownF⟩)
    have passed := placed.between ((more.frees_iff knownF).mp frees) ((more.frees_iff (noneNew f' frees')).mp frees')
      shorter stays
    exact (List.mem_filter.mp passed).1

/-- What stands by a vertex of a padded graph stands by a vertex of the original one. -/
theorem below (placed : h.ReleasedAt k back' before x v) (padded : g.Padded h back) (wired : g.Wired) (listed : v ∈ g.listed) :
    g.ReleasedAt k (back ∘ back') before x v where
  released := placed.released
  ends {f} frees := by
    have known := knows_iff.mpr (wired.listed_lt v listed)
    have at_v := placed.ends frees
    cases before with
    | true =>
      simp only [↓reduceIte] at at_v
      simp [at_v, padded.back_known v known]
    | false =>
      simp only [Bool.false_eq_true, ↓reduceIte, Function.comp_apply] at at_v ⊢
      have edge := padded.project (padded.listed_of_listed wired listed) (Trail.start.step at_v)
      rw [padded.back_known v known, List.nil_append, List.filter_cons_of_pos known, List.filter_nil] at edge
      obtain ⟨s, later, same, first, rest⟩ := edge.exists_next (by simp)
      obtain rfl : later = [] := by simpa using same.symm
      exact rest.eq_root ▸ first
  covers {r past s} listed' known trail nonempty side :=
    placed.covers (padded.listed_of_listed wired listed') (padded.knows_of_knows known) trail nonempty side
  between frees frees' trail nonempty := placed.between frees frees' trail nonempty

end ReleasedAt

/-! ### One release -/

/-- `f` releases `x` and does nothing else. -/
structure OnlyFrees (g : Graph) (x : VarId) (f : VertexId) : Prop where
  frees : ∀ y, g.Frees y f ↔ y = x
  silent : ∀ y, (g.vertex f).writesVar (some y) = false

theorem Padded.onlyFrees_iff (padded : g.Padded h back) (known : g.knows f = true) : h.OnlyFrees x f ↔ g.OnlyFrees x f := by
  obtain ⟨op, _, _, result, args, _⟩ := Vertex.body_eq_iff.mp (padded.body f known)
  have writes (y : VarId) : (h.vertex f).writesVar (some y) = (g.vertex f).writesVar (some y) := by
    simp only [Vertex.writesVar, Vertex.writes, op, result, args]
  constructor
  · rintro ⟨frees, silent⟩
    exact ⟨fun y => (padded.frees_iff known).symm.trans (frees y), fun y => (writes y).symm.trans (silent y)⟩
  · rintro ⟨frees, silent⟩
    exact ⟨fun y => (padded.frees_iff known).trans (frees y), fun y => (writes y).trans (silent y)⟩

/-- All that is new in `k` are releases of `x`. -/
def AddsFrees (h k : Graph) (x : VarId) : Prop :=
  ∀ f ∈ k.listed, h.knows f = false → k.OnlyFrees x f

/-- Where there was no release of a variable, all its releases are new. -/
theorem Padded.new_of_frees (padded : h.Padded k back) (none : ∀ f, ¬ h.Frees x f) (frees : k.Frees x f) :
    h.knows f = false := by
  rw [← Bool.not_eq_true]
  exact fun known => none f ((padded.frees_iff known).mp frees)

section
variable {target : VertexId} {via : VertexId → Prop} [DecidablePred via]

/-- A new release is put on edges by connecting it. -/
theorem interposed_addFree (wired : k.Wired) (rewired : (h.addFree x).Rewired k) (target_listed : target ∈ h.listed)
    (onward : k.succs h.store.size = [target])
    (succs : ∀ v ∈ h.listed, k.succs v = if via v then turned target h.store.size (h.succs v) else h.succs v) :
    h.Interposed k target via where
  wired := wired
  entry := rewired.entry
  exit := rewired.exit
  size := by rw [rewired.size]; simp [addFree]
  listed := rewired.listed
  body v known := by
    rw [rewired.body v, addFree, vertex_addVertex_of_ne (Nat.ne_of_lt (knows_iff.mp known))]
  target_listed := target_listed
  onward := onward
  succs := succs

theorem Interposed.eq_new (inter : h.Interposed k target via) (wired : h.Wired) (member : f ∈ k.listed)
    (new : h.knows f = false) : f = h.store.size := by
  rw [inter.listed, List.mem_append, List.mem_singleton] at member
  refine member.resolve_left fun old => ?_
  rw [knows_iff.mpr (wired.listed_lt f old)] at new
  contradiction

theorem Interposed.addsFrees (inter : h.Interposed k target via) (wired : h.Wired) (rewired : (h.addFree x).Rewired k) :
    h.AddsFrees k x := by
  intro f member new
  rw [inter.eq_new wired member new]
  obtain ⟨op, _, _, result, args, _⟩ := Vertex.body_eq_iff.mp (rewired.body h.store.size)
  simp only [addFree, vertex_addVertex_new] at op args result
  refine ⟨fun y => ?_, fun y => ?_⟩
  · simp [Frees, rewired.listed, addFree, Graph.op, op, Vertex.readsVar, Vertex.reads, args]
  · simp [Vertex.writesVar, Vertex.writes, op, result]

/-- A release on all edges into a vertex stands before it. -/
theorem Interposed.placed_before (inter : h.Interposed k v fun _ => True) (wired : h.Wired) (only : h.AddsFrees k x)
    (none : ∀ f, ¬ h.Frees x f) : h.ReleasedAt k (fun w => if w = h.store.size then v else w) true x v := by
  have padded := inter.padded wired
  have isNew {f : VertexId} (frees : k.Frees x f) : f = h.store.size :=
    inter.eq_new wired frees.1 (padded.new_of_frees none frees)
  have newListed : h.store.size ∈ k.listed := by simp [inter.listed]
  have unknown : h.knows h.store.size = false := by simp [knows]
  have other : v ≠ h.store.size := Nat.ne_of_lt (wired.listed_lt v inter.target_listed)
  refine ⟨⟨_, ((only _ newListed unknown).frees x).mpr rfl⟩, ?_, ?_, ?_⟩
  · intro f frees
    simp [isNew frees]
  · intro r past s listed known trail nonempty same
    simp only [↓reduceIte] at same
    subst same
    obtain ⟨before, u, rfl, first, edge⟩ := trail.exists_last nonempty
    have member := inter.wired.listed_of_trail (padded.listed_of_listed wired listed) first
    rw [inter.listed, List.mem_append, List.mem_singleton] at member
    rcases member with old | rfl
    · rw [inter.succs u old, if_pos trivial] at edge
      exact absurd edge (notMem_turned other)
    · exact ⟨_, by simp, ((only _ newListed unknown).frees x).mpr rfl⟩
  · intro f f' past frees frees' trail nonempty
    obtain rfl := isNew frees
    obtain rfl := isNew frees'
    obtain ⟨s, later, rfl, edge, rest⟩ := trail.exists_next nonempty
    rw [inter.onward, List.mem_singleton] at edge
    subst edge
    refine List.mem_cons_of_mem _ (rest.root_mem ?_)
    rintro rfl
    exact other rest.eq_root

end

/-! ### Releases behind a vertex -/

/-- How far the releases of `x` on the edges out of `v` have come; the edges into `rest` are still to get one. -/
structure Spread (h k : Graph) (back : VertexId → VertexId) (x : VarId) (v : VertexId) (rest : List VertexId) : Prop where
  padded : h.Padded k back
  only : h.AddsFrees k x
  ends : ∀ f ∈ k.listed, h.knows f = false → back f ∈ h.succs v
  sources : ∀ u ∈ k.listed, ∀ f ∈ k.succs u, h.knows f = false → u = v
  edges : ∀ s ∈ k.succs v, h.knows s = false ∨ s ∈ rest

namespace Spread

variable {rest : List VertexId} {target : VertexId}

theorem start (wired : h.Wired) : h.Spread h id x v (h.succs v).eraseDups where
  padded := .refl wired
  only f member new := by simp [knows_iff.mpr (wired.listed_lt f member)] at new
  ends f member new := by simp [knows_iff.mpr (wired.listed_lt f member)] at new
  sources u member f edge new := by
    simp [knows_iff.mpr (wired.listed_lt f (wired.succs_listed u member f edge))] at new
  edges s edge := .inr (List.mem_eraseDups.mpr edge)

/-- One more target gets its release. -/
theorem step {k' : Graph} (spread : h.Spread k back x v (target :: rest)) (wired : h.Wired) (listed : v ∈ h.listed)
    (edge : target ∈ h.succs v) (inter : k.Interposed k' target (· = v)) (only : k.AddsFrees k' x) :
    h.Spread k' (back ∘ fun w => if w = k.store.size then target else w) x v rest := by
  have more := inter.padded spread.padded.wired
  have known : h.knows target = true := knows_iff.mpr (wired.listed_lt target (wired.succs_listed v listed target edge))
  have oldOr {f : VertexId} (member : f ∈ k'.listed) : f ∈ k.listed ∨ f = k.store.size := by
    rwa [inter.listed, List.mem_append, List.mem_singleton] at member
  refine ⟨spread.padded.trans wired more, ?_, ?_, ?_, ?_⟩
  · intro f member new
    rcases oldOr member with old | rfl
    · rw [more.onlyFrees_iff (knows_iff.mpr (spread.padded.wired.listed_lt f old))]
      exact spread.only f old new
    · exact only _ member (by simp [knows])
  · intro f member new
    rw [Function.comp_apply]
    rcases oldOr member with old | rfl
    · rw [if_neg (Nat.ne_of_lt (spread.padded.wired.listed_lt f old))]
      exact spread.ends f old new
    · rw [if_pos rfl, spread.padded.back_known target known]
      exact edge
  · intro u member f edge' new
    rcases oldOr member with old | rfl
    · rcases inter.edge_cases old edge' with ⟨_, isV, _⟩ | ⟨before, _⟩
      · exact isV
      · exact spread.sources u old f before new
    · rw [inter.onward, List.mem_singleton] at edge'
      simp [edge', known] at new
  · intro s edge'
    rcases inter.edge_cases (spread.padded.listed_of_listed wired listed) edge' with ⟨rfl, _⟩ | ⟨before, other⟩
    · left
      rw [← Bool.not_eq_true, knows_iff]
      exact Nat.not_lt.mpr spread.padded.size
    · rcases spread.edges s before with new | waiting
      · exact .inl new
      · exact .inr ((List.mem_cons.mp waiting).resolve_left (other rfl))

/-- When all edges have a release, the releases stand behind the vertex. -/
theorem placed (spread : h.Spread k back x v []) (wired : h.Wired) (listed : v ∈ h.listed) (goesOn : h.succs v ≠ [])
    (none : ∀ f, ¬ h.Frees x f) : h.ReleasedAt k back false x v := by
  have listedK := spread.padded.listed_of_listed wired listed
  have isNew {f : VertexId} (edge : f ∈ k.succs v) : h.knows f = false := by simpa using spread.edges f edge
  have isFree {f : VertexId} (edge : f ∈ k.succs v) : k.Frees x f :=
    ((spread.only f (spread.padded.wired.succs_listed v listedK f edge) (isNew edge)).frees x).mpr rfl
  refine ⟨?_, ?_, ?_, ?_⟩
  · have more : k.succs v ≠ [] := by
      rw [← List.length_pos_iff, spread.padded.degree v listed, List.length_pos_iff]
      exact goesOn
    obtain ⟨f, edge⟩ := List.exists_mem_of_ne_nil _ more
    exact ⟨f, isFree edge⟩
  · intro f frees
    simpa using spread.ends f frees.1 (spread.padded.new_of_frees none frees)
  · intro r past s _ known trail nonempty same
    simp only [Bool.false_eq_true, ↓reduceIte] at same
    subst same
    obtain ⟨f, later, rfl, edge, onward⟩ := trail.exists_next nonempty
    have passed : f ∈ later := by
      refine onward.root_mem ?_
      rintro rfl
      have new := isNew edge
      rw [onward.eq_root, known] at new
      contradiction
    exact ⟨f, List.mem_cons_of_mem _ passed, isFree edge⟩
  · intro f f' past frees frees' trail nonempty
    obtain ⟨before, u, rfl, first, edge⟩ := trail.exists_last nonempty
    have isV := spread.sources u (spread.padded.wired.listed_of_trail frees.1 first) f' edge
      (spread.padded.new_of_frees none frees')
    simp [isV]

end Spread

/-! ### What a release does -/

section
variable {target : VertexId} (wired : h.Wired) (listed : v ∈ h.listed)
include wired

theorem wired_addFree : (h.addFree x).Wired :=
  wired.addVertex

theorem listed_addFree (member : w ∈ h.listed) : w ∈ (h.addFree x).listed ∧ w ≠ h.store.size ∧
    (h.addFree x).succs w = h.succs w := by
  have notNew : w ≠ h.store.size := Nat.ne_of_lt (wired.listed_lt w member)
  exact ⟨by simp [addFree, member], notNew, by simp [addFree, Graph.succs, notNew]⟩

omit wired in
theorem new_addFree : h.store.size ∈ (h.addFree x).listed ∧ (h.addFree x).succs h.store.size = [] ∧
    (h.addFree x).preds h.store.size = [] := by
  simp [addFree, Graph.succs, Graph.preds]

include listed

theorem interposed_insertBefore : h.Interposed ((h.addFree x).insertBefore v h.nextVertex) v fun _ => True := by
  obtain ⟨member, _⟩ := listed_addFree (x := x) wired listed
  obtain ⟨memberNew, noSuccs, _⟩ := new_addFree (h := h) (x := x)
  obtain ⟨wired', succs⟩ := (wired_addFree wired).insertBefore member memberNew noSuccs
  refine interposed_addFree wired' rewired_insertBefore listed ((succs _ memberNew).trans (if_pos rfl)) fun w old => ?_
  obtain ⟨member, notNew, same⟩ := listed_addFree (x := x) wired old
  rw [if_pos trivial, ← same]
  exact (succs w member).trans (if_neg notNew)

theorem interposed_insertOnEdge (target_listed : target ∈ h.listed) :
    h.Interposed ((h.addFree x).insertOnEdge v target h.nextVertex) target (· = v) := by
  obtain ⟨member, other, sameV⟩ := listed_addFree (x := x) wired listed
  obtain ⟨memberTarget, _⟩ := listed_addFree (x := x) wired target_listed
  obtain ⟨memberNew, noSuccs, _⟩ := new_addFree (h := h) (x := x)
  obtain ⟨wired', succs⟩ := (wired_addFree wired).insertOnEdge member memberTarget memberNew other noSuccs
  refine interposed_addFree wired' rewired_insertOnEdge target_listed ((succs _).trans (if_pos rfl)) fun w old => ?_
  obtain ⟨_, notNew, same⟩ := listed_addFree (x := x) wired old
  refine (succs w).trans ((if_neg notNew).trans ?_)
  by_cases isV : w = v
  · simp [isV, sameV]
  · simp [isV, same]

theorem rewired_insertAfter_addFree : (h.addFree x).Rewired ((h.addFree x).insertAfter v h.nextVertex) := by
  obtain ⟨member, other, _⟩ := listed_addFree (x := x) wired listed
  have inside := (wired_addFree (x := x) wired).listed_lt
  exact rewired_insertAfter (inside v member) (inside _ new_addFree.1) other

theorem interposed_insertAfter (only : h.succs v = [target]) :
    h.Interposed ((h.addFree x).insertAfter v h.nextVertex) target (· = v) := by
  obtain ⟨member, other, sameV⟩ := listed_addFree (x := x) wired listed
  obtain ⟨memberNew, noSuccs, noPreds⟩ := new_addFree (h := h) (x := x)
  have added := wired_addFree (x := x) wired
  have succs (w : VertexId) :=
    succs_insertAfter (w := w) (added.listed_lt v member) (added.listed_lt _ memberNew) other
  refine interposed_addFree (added.insertAfter member memberNew other noSuccs noPreds)
    (rewired_insertAfter_addFree wired listed) (wired.succs_listed v listed target (by simp [only])) ?_ fun w old => ?_
  · exact (succs _).trans ((if_pos rfl).trans (sameV.trans only))
  · obtain ⟨_, notNew, same⟩ := listed_addFree (x := x) wired old
    refine (succs w).trans ((if_neg notNew).trans ?_)
    by_cases isV : w = v
    · simp [isV, only, turned]
    · simp [isV, same]

end

/-- Each target in turn gets a release on its edges from `v`. -/
theorem Spread.foldl {targets : List VertexId} (spread : h.Spread k back x v targets) (wired : h.Wired)
    (listed : v ∈ h.listed) (edges : ∀ s ∈ targets, s ∈ h.succs v) :
    ∃ back', h.Spread (targets.foldl (fun g s => (g.addFree x).insertOnEdge v s g.nextVertex) k) back' x v [] := by
  induction targets generalizing k back with
  | nil => exact ⟨back, spread⟩
  | cons target targets ih =>
    have edge := edges target List.mem_cons_self
    have inter := interposed_insertOnEdge (x := x) spread.padded.wired (spread.padded.listed_of_listed wired listed)
      (spread.padded.listed_of_listed wired (wired.succs_listed v listed target edge))
    exact ih (spread.step wired listed edge inter (inter.addsFrees spread.padded.wired rewired_insertOnEdge))
      fun s member => edges s (List.mem_cons_of_mem _ member)

/-- A release adds releases of its variable only, and places them before its point or behind it. -/
theorem release_spec (wired : h.Wired) (listed : p.vertex ∈ h.listed) (none : ∀ f, ¬ h.Frees p.x f)
    (goesOn : h.succs p.vertex ≠ [])
    (single : (h.vertex p.vertex).isBranch = false → h.op p.vertex ≠ .ret → (h.succs p.vertex).length = 1) :
    ∃ back, h.Padded (h.release p).1 back ∧ h.AddsFrees (h.release p).1 p.x ∧
      h.ReleasedAt (h.release p).1 back (h.releasesBefore p) p.x p.vertex := by
  have behind {k : Graph} {back : VertexId → VertexId} (spread : h.Spread k back p.x p.vertex [])
      (notBefore : h.releasesBefore p = false) : ∃ back, h.Padded k back ∧ h.AddsFrees k p.x ∧
        h.ReleasedAt k back (h.releasesBefore p) p.x p.vertex :=
    ⟨back, spread.padded, spread.only, notBefore ▸ spread.placed wired listed goesOn none⟩
  rw [release]
  by_cases reading : ((h.vertex p.vertex).isBranch && (h.vertex p.vertex).readsVar (some p.x)) = true
  · obtain ⟨back, spread⟩ := (Spread.start (x := p.x) (v := p.vertex) wired).foldl wired listed
      fun s member => List.mem_eraseDups.mp member
    rw [if_pos reading]
    exact behind spread (by simp [releasesBefore, reading])
  · rw [if_neg reading]
    by_cases leaves : ((h.vertex p.vertex).isBranch || (h.vertex p.vertex).op == .ret) = true
    · rw [if_pos leaves]
      have inter := interposed_insertBefore (x := p.x) wired listed
      have only := inter.addsFrees wired rewired_insertBefore
      refine ⟨_, inter.padded wired, only, ?_⟩
      rw [show h.releasesBefore p = true by simp [releasesBefore, leaves, reading]]
      exact inter.placed_before wired only none
    · rw [if_neg leaves]
      obtain ⟨notBranch, notRet⟩ : (h.vertex p.vertex).isBranch = false ∧ (h.vertex p.vertex).op ≠ .ret := by
        simpa using leaves
      obtain ⟨target, succs⟩ := List.length_eq_one_iff.mp (single notBranch notRet)
      have inter := interposed_insertAfter (x := p.x) wired listed succs
      have start := Spread.start (x := p.x) (v := p.vertex) wired
      rw [succs] at start
      have only := inter.addsFrees wired (rewired_insertAfter_addFree wired listed)
      exact behind (start.step wired listed (by simp [succs]) inter only) (by simp [releasesBefore, notBranch, notRet])

end Graph

end MiddleEnd
