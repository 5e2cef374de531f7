import MiddleEnd.Analysis
import MiddleEnd.Proofs.Editing
import MiddleEnd.Proofs.Search

/-!
Kept answers are never out of date. Reachability and dominance are computed on first use and kept with the epoch of the
graph; an edit either leaves the whole graph as it is or begins a new epoch (`Edit.same_or_later`). So whatever the order
of edits and questions, the answers are those that the graph gives at that moment (`Analysis.answers_of_requests`).

The edits need not be those that keep a graph consistent: it is enough that the vertices they name exist.
-/
namespace MiddleEnd

namespace Graph

variable {g h : Graph} {v n old new source target : VertexId} {f : Vertex → Vertex} {P Q : VertexId → Prop}

/-! ### Edits begin a new epoch -/

theorem without_detach : g.Without (g.detach v) v := by
  have out : g.Rewired ((g.succs v).foldl (fun g s => g.removeEdge v s) g) := .foldl (fun _ _ => rewired_removeEdge) _
  have into (h : Graph) : h.Rewired ((h.preds v).foldl (fun g p => g.removeEdge p v) h) :=
    .foldl (fun _ _ => rewired_removeEdge) _
  exact (out.trans (into _)).without without_drop

/-- A later graph with another structure: what is noted was noted before. -/
structure Later (g h : Graph) : Prop where
  epoch : g.epoch < h.epoch
  reach : h.reach = g.reach
  size : g.store.size ≤ h.store.size

theorem Without.later (without : g.Without h v) : g.Later h :=
  ⟨without.epoch, without.reach, Nat.le_of_eq without.size.symm⟩

theorem later_addEdge : g.Later (g.addEdge source target) :=
  ⟨Nat.lt_succ_self _, rfl, Nat.le_of_eq rewired_addEdge.size.symm⟩

theorem Rewired.later {k : Graph} (rewired : g.Rewired h) (later : h.Later k) : g.Later k :=
  ⟨Nat.lt_of_le_of_lt rewired.epoch later.epoch, later.reach.trans rewired.reach, rewired.size ▸ later.size⟩

theorem later_replace : g.Later (g.replace old n) := by
  have rewired : g.Rewired ((g.redirectAll (g.preds old) old n).handedOver old n) :=
    (rewired_redirectAll _).trans rewired_handedOver
  rw [replace_eq]
  generalize (g.redirectAll (g.preds old) old n).handedOver old n = k at rewired ⊢
  have dropped : Later { k with
      entry := if k.entry = old then n else k.entry, exit := if k.exit = old then n else k.exit } _ :=
    (without_drop (v := old)).later
  exact rewired.later ⟨dropped.epoch, dropped.reach, dropped.size⟩

/-! ### Edges stay among the vertices -/

/-- Every edge leads to a vertex with `P`. -/
def TargetsIn (g : Graph) (P : VertexId → Prop) : Prop :=
  ∀ v, ∀ s ∈ g.succs v, P s

namespace TargetsIn

theorem mono (inside : g.TargetsIn P) (weaker : ∀ v, P v → Q v) : g.TargetsIn Q :=
  fun v s edge => weaker s (inside v s edge)

theorem congr (inside : g.TargetsIn P) (succs : ∀ v, h.succs v = g.succs v) : h.TargetsIn P :=
  fun v s edge => inside v s (succs v ▸ edge)

theorem modifyVertex (inside : g.TargetsIn P) (kept : ∀ w : Vertex, (∀ s ∈ w.succs, P s) → ∀ s ∈ (f w).succs, P s) :
    (g.modifyVertex v f).TargetsIn P := by
  intro w s edge
  rw [succs, vertex_modifyVertex] at edge
  split at edge
  · exact kept _ (inside w) s edge
  · exact inside w s edge

theorem foldl {α : Type} {edit : Graph → α → Graph} {as : List α} (inside : g.TargetsIn P)
    (each : ∀ (g : Graph), ∀ a ∈ as, g.TargetsIn P → (edit g a).TargetsIn P) : (as.foldl edit g).TargetsIn P := by
  induction as generalizing g with
  | nil => exact inside
  | cons a as ih =>
    exact ih (each g a List.mem_cons_self inside) fun g b later => each g b (List.mem_cons_of_mem _ later)

theorem addVertex {op : Op} {result : Option VarId} {args : List (Option VarId)} (inside : g.TargetsIn P) :
    (g.addVertex op result args).TargetsIn P := by
  intro v s edge
  rw [succs, vertex_addVertex] at edge
  split at edge
  · simp at edge
  · exact inside v s edge

theorem addEdge (inside : g.TargetsIn P) (named : P target) : (g.addEdge source target).TargetsIn P := by
  refine (inside.modifyVertex fun w before s edge => ?_).modifyVertex fun w before => before
  rcases List.mem_append.mp edge with earlier | isNew
  · exact before s earlier
  · exact List.mem_singleton.mp isNew ▸ named

theorem removeEdge (inside : g.TargetsIn P) : (g.removeEdge source target).TargetsIn P := by
  rw [Graph.removeEdge]
  split
  · exact (inside.modifyVertex fun w before s edge => before s (List.mem_of_mem_erase edge)).modifyVertex
      fun w before => before
  · exact inside

theorem redirect (inside : g.TargetsIn P) (named : P new) : (g.redirect source old new).TargetsIn P := by
  have turning : (g.modifyVertex source fun v => { v with succs := turned old new v.succs }).TargetsIn P := by
    refine inside.modifyVertex fun w before s edge => ?_
    obtain ⟨t, earlier, rfl⟩ := List.mem_map.mp edge
    split
    · exact named
    · exact before t earlier
  exact turning.congr fun v => succs_repeat_movePred _

theorem redirectAll (inside : g.TargetsIn P) (named : P new) (sources : List VertexId) :
    (g.redirectAll sources old new).TargetsIn P :=
  inside.foldl fun _ _ _ inside => inside.redirect named

theorem insertAfter (inside : g.TargetsIn P) (named : P n) : (g.insertAfter v n).TargetsIn P := by
  have first : (g.modifyVertex n fun w => { w with succs := g.succs v }).TargetsIn P :=
    inside.modifyVertex fun _ _ => inside v
  rw [Graph.insertAfter]
  intro w
  rw [succs, vertex_touch, congr_modifyVertex Vertex.succs]
  · refine modifyVertex (foldl first ?_) ?_ w
    · exact fun k s _ before => before.modifyVertex fun _ kept => kept
    · exact fun w _ s edge => List.mem_singleton.mp edge ▸ named
  · exact fun _ => rfl

theorem replace (inside : g.TargetsIn P) (named : P n) : (g.replace old n).TargetsIn P := by
  have redirected : (g.redirectAll (g.preds old) old n).TargetsIn P := inside.redirectAll named (g.preds old)
  rw [replace_eq]
  generalize g.redirectAll (g.preds old) old n = h at redirected ⊢
  have handed : ((h.succs old).foldl (takeEdge old n) h).TargetsIn P := by
    refine redirected.foldl fun k s edge before => (before.modifyVertex fun w kept t later => ?_).modifyVertex fun _ kept => kept
    rcases List.mem_append.mp later with earlier | isNew
    · exact kept t earlier
    · exact List.mem_singleton.mp isNew ▸ redirected old s edge
  have emptied : (h.handedOver old n).TargetsIn P := handed.modifyVertex fun _ _ s edge => absurd edge List.not_mem_nil
  exact emptied.congr fun v => succs_drop

theorem detach (inside : g.TargetsIn P) : (g.detach v).TargetsIn P := by
  have out : ((g.succs v).foldl (fun g s => g.removeEdge v s) g).TargetsIn P :=
    inside.foldl fun _ _ _ before => before.removeEdge
  have into (h : Graph) (before : h.TargetsIn P) : ((h.preds v).foldl (fun g p => g.removeEdge p v) h).TargetsIn P :=
    before.foldl fun _ _ _ before => before.removeEdge
  exact (into _ out).congr fun v => succs_drop

theorem bypassed (inside : g.TargetsIn P) : (g.bypassed v).TargetsIn P := by
  rw [Graph.bypassed]
  split
  · exact inside
  · rename_i s rest succs
    exact (inside.redirectAll (inside v s (by simp [succs])) _).removeEdge

end TargetsIn

end Graph

namespace Edit

variable {g : Graph} {e : Edit} {P : VertexId → Prop}

/-- The vertices that an edit names. -/
def vertices : Edit → List VertexId
  | .addVertex .. => []
  | .addEdge v w | .removeEdge v w | .insertAfter v w | .insertBefore v w | .replace v w => [v, w]
  | .insertOnEdge source target n => [source, target, n]
  | .remove v | .detach v => [v]

/-- An edit leaves the graph as it is, or begins a new epoch. -/
theorem same_or_later : e.run g = g ∨ g.Later (e.run g) := by
  cases e with
  | addVertex op result args => exact .inr ⟨Nat.lt_succ_self _, rfl, by simp [run]⟩
  | addEdge source target => exact .inr Graph.later_addEdge
  | removeEdge source target =>
    rw [run, Graph.removeEdge]
    split
    · exact .inr ⟨Nat.lt_succ_self _, rfl, by simp⟩
    · exact .inl rfl
  | insertAfter v n => exact .inr ⟨by simp [run], by simp [run], by simp [run]⟩
  | insertBefore v n => exact .inr ((Graph.rewired_redirectAll _).later Graph.later_addEdge)
  | insertOnEdge source target n => exact .inr (Graph.rewired_redirect.later Graph.later_addEdge)
  | replace old n => exact .inr Graph.later_replace
  | remove v =>
    rw [run, Graph.remove]
    split
    · exact .inl rfl
    · exact .inr (Graph.splice_eq ▸ Graph.rewired_bypassed.later Graph.without_detach.later)
  | detach v => exact .inr Graph.without_detach.later

/-- An edit adds edges only to vertices that it names, or that had some before. -/
theorem targetsIn_run (inside : g.TargetsIn P) (named : ∀ v ∈ e.vertices, P v) : (e.run g).TargetsIn P := by
  cases e with
  | addVertex op result args => exact inside.addVertex
  | addEdge source target => exact inside.addEdge (named target (by simp [vertices]))
  | removeEdge source target => exact inside.removeEdge
  | insertAfter v n => exact inside.insertAfter (named n (by simp [vertices]))
  | insertBefore v n =>
    exact (inside.redirectAll (named n (by simp [vertices])) _).addEdge (named v (by simp [vertices]))
  | insertOnEdge source target n =>
    exact (inside.redirect (named n (by simp [vertices]))).addEdge (named target (by simp [vertices]))
  | replace old n => exact inside.replace (named n (by simp [vertices]))
  | remove v =>
    rw [run, Graph.remove]
    split
    · exact inside
    · exact Graph.splice_eq ▸ inside.bypassed.detach
  | detach v => exact inside.detach

end Edit

/-! ### Runs of edits and questions -/

/-- What is asked of a graph with its analyses. -/
inductive Request
  | edit (e : Edit)
  | reachable
  | dominators
  | postDominators
  | invalidate

namespace Analysis

variable {a : Analysis} {g h : Graph} {kept : Option DatedDominators} {root : VertexId} {reversed : Bool}

/-- The state after a request. -/
def request (a : Analysis) : Request → Analysis
  | .edit e => { a with graph := e.run a.graph }
  | .reachable => { a with graph := a.graph.withReach.1 }
  | .dominators => a.dominators.2
  | .postDominators => a.postDominators.2
  | .invalidate => a.invalidate

/-- The state after a run of requests. -/
def requests (a : Analysis) (rs : List Request) : Analysis :=
  rs.foldl request a

/-- Edits name vertices that exist, in the graph or outside of it. -/
def Permits (a : Analysis) : Request → Prop
  | .edit e => ∀ v ∈ e.vertices, v < a.graph.store.size
  | _ => True

instance (a : Analysis) : DecidablePred a.Permits
  | .edit e => inferInstanceAs (Decidable (∀ v ∈ e.vertices, v < a.graph.store.size))
  | .reachable | .dominators | .postDominators | .invalidate => inferInstanceAs (Decidable True)

/-- Every request of the run is permitted when it comes. -/
def PermitsAll (a : Analysis) : List Request → Prop
  | [] => True
  | r :: rs => a.Permits r ∧ (a.request r).PermitsAll rs

instance decidablePermitsAll (a : Analysis) : (rs : List Request) → Decidable (a.PermitsAll rs)
  | [] => inferInstanceAs (Decidable True)
  | r :: rs =>
    have := decidablePermitsAll (a.request r) rs
    inferInstanceAs (Decidable (_ ∧ _))

/-- Questions are answered as the graph is now: what it reaches from its entry, and the dominators that are computed from
it as it stands. -/
structure Answering (a : Analysis) : Prop where
  reachable : ∀ v, v ∈ a.graph.withReach.2 ↔ Reachable a.graph.succs a.graph.entry v
  dominators : a.dominators.1 = .ofGraph a.graph a.graph.entry false
  postDominators : a.postDominators.1 = .ofGraph a.graph a.graph.exit true

/-- Kept dominators are no younger than the graph, and those of its epoch are those of the graph. -/
def Keeps (g : Graph) (kept : Option DatedDominators) (root : VertexId) (reversed : Bool) : Prop :=
  ∀ d, kept = some d → d.epoch ≤ g.epoch ∧ (d.epoch = g.epoch → d.dominators = .ofGraph g root reversed)

theorem Keeps.later {root' : VertexId} (keeps : Keeps g kept root reversed) (epoch : g.epoch < h.epoch) :
    Keeps h kept root' reversed := by
  intro d isKept
  have le := (keeps d isKept).1
  exact ⟨by omega, fun same => by omega⟩

/-- Looking dominators up gives those of the graph, new or kept. -/
theorem current_eq (keeps : Keeps a.graph kept root reversed) :
    a.current kept root reversed = ⟨a.graph.epoch, .ofGraph a.graph root reversed⟩ := by
  rw [current.eq_def]
  split
  · rename_i d
    split
    · rename_i isCurrent
      rw [← (keeps d rfl).2 isCurrent, ← isCurrent]
    · rfl
  · rfl

theorem keeps_current (keeps : Keeps a.graph kept root reversed) :
    Keeps a.graph (some (a.current kept root reversed)) root reversed := by
  rintro d ⟨rfl⟩
  rw [current_eq keeps]
  exact ⟨Nat.le_refl _, fun _ => rfl⟩

/-- Nothing that is kept is out of date unnoticed. -/
structure Fresh (a : Analysis) : Prop where
  inside : a.graph.TargetsIn (· < a.graph.store.size)
  cached : a.graph.Cached
  forward : Keeps a.graph a.forward a.graph.entry false
  backward : Keeps a.graph a.backward a.graph.exit true

namespace Fresh

theorem withReach_spec (fresh : a.Fresh) :
    ∃ found, a.graph.withReach.1 = { a.graph with reach := found } ∧ ({ a.graph with reach := found } : Graph).Cached ∧
      ∀ v, v ∈ a.graph.withReach.2 ↔ Reachable a.graph.succs a.graph.entry v :=
  Graph.withReach_spec (fun u _ => fresh.inside u) fresh.cached

theorem answering (fresh : a.Fresh) : a.Answering := by
  obtain ⟨_, _, _, reachable⟩ := fresh.withReach_spec
  exact ⟨reachable, congrArg DatedDominators.dominators (current_eq fresh.forward),
    congrArg DatedDominators.dominators (current_eq fresh.backward)⟩

/-- What one request keeps. -/
theorem request (fresh : a.Fresh) {r : Request} (permitted : a.Permits r) : (a.request r).Fresh := by
  cases r with
  | edit e =>
    rcases Edit.same_or_later (g := a.graph) (e := e) with same | later
    · show Fresh { a with graph := e.run a.graph }
      rw [same]
      exact fresh
    · have larger (v : VertexId) (inside : v < a.graph.store.size) := Nat.lt_of_lt_of_le inside later.size
      exact {
        inside := Edit.targetsIn_run (fresh.inside.mono larger) fun v named => larger v (permitted v named)
        cached := fresh.cached.later later.reach later.epoch
        forward := fresh.forward.later later.epoch
        backward := fresh.backward.later later.epoch }
  | reachable =>
    obtain ⟨found, noted, cached, _⟩ := fresh.withReach_spec
    show Fresh { a with graph := a.graph.withReach.1 }
    rw [noted]
    exact { fresh with cached := cached }
  | dominators => exact { fresh with forward := keeps_current fresh.forward }
  | postDominators => exact { fresh with backward := keeps_current fresh.backward }
  | invalidate => exact { fresh with forward := nofun, backward := nofun }

/-- What a run of requests keeps. -/
theorem requests (fresh : a.Fresh) {rs : List Request} (permitted : a.PermitsAll rs) : (a.requests rs).Fresh := by
  induction rs generalizing a with
  | nil => exact fresh
  | cons r rs ih => exact ih (fresh.request permitted.1) permitted.2

end Fresh

/-- Whatever was edited and asked before, questions are answered as the graph is now. -/
theorem answers_of_requests (g : Graph) (rs : List Request) (inside : ∀ v, ∀ s ∈ g.succs v, s < g.store.size)
    (nothing : g.reach = none) (permitted : ({ graph := g } : Analysis).PermitsAll rs) :
    (requests { graph := g } rs).Answering := by
  have start : Fresh { graph := g } :=
    { inside, cached := fun epoch found noted => by simp [nothing] at noted, forward := nofun, backward := nofun }
  exact (start.requests permitted).answering

/-- Questions between all kinds of edits, some of which change nothing. -/
def inquiry : List Request :=
  [.dominators, .reachable, .edit (.addVertex .label none []), .edit (.addEdge 0 2), .dominators, .edit (.addEdge 2 1),
    .reachable, .postDominators, .edit (.removeEdge 0 1), .reachable, .edit (.addVertex .label none []),
    .edit (.insertOnEdge 2 1 3), .postDominators, .edit (.remove 1), .dominators, .edit (.addVertex .function none []),
    .edit (.replace 0 4), .reachable, .edit (.addVertex .label none []), .edit (.insertBefore 3 5), .invalidate,
    .dominators, .edit (.addVertex .label none []), .edit (.insertAfter 5 6), .postDominators, .edit (.detach 2),
    .reachable, .edit (.remove 3), .dominators]

theorem answers_inquiry : (∀ v, ∀ s ∈ (Graph.empty "f" ⟨[], .void⟩).succs v, s < 2) ∧
    (Graph.empty "f" ⟨[], .void⟩).reach = none ∧
    ({ graph := .empty "f" ⟨[], .void⟩ } : Analysis).PermitsAll inquiry ∧
    (requests { graph := .empty "f" ⟨[], .void⟩ } inquiry).Answering := by
  have noEdges (v : VertexId) : (Graph.empty "f" ⟨[], .void⟩).succs v = [] := by rcases v with _ | _ | v <;> rfl
  have inside (v : VertexId) : ∀ s ∈ (Graph.empty "f" ⟨[], .void⟩).succs v, s < 2 := by simp [noEdges]
  exact ⟨inside, rfl, by decide, answers_of_requests _ inquiry inside rfl (by decide)⟩

end Analysis

end MiddleEnd
