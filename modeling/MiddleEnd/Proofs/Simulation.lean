import MiddleEnd.Proofs.Execution
import MiddleEnd.Proofs.Expansion
import MiddleEnd.Proofs.Rewiring

/-!
When graphs behave alike. Three arguments cover the passes. Graphs whose runs go in lockstep do, where a run may stand
at another vertex of the same effect (`sameRuns_of_lockstep`). Vertices on the edges may be skipped if they show nothing
and write nothing that is read (`sameRuns_of_expands`). And in a coherent graph the versions of a variable may be made
one again, which leaves the phis nothing to do (`sameRuns_collapse`).
-/
namespace MiddleEnd

open StateTransition

variable {V : Type} {m : Meaning V} {arguments : Nat → V} {g h k : Graph} {s t : Machine V}

/-- Whether two operations do the same; it cannot be seen of a call whether the function calls itself. -/
def Op.Alike (o o' : Op) : Prop :=
  o = o' ∨ o = .call ∧ o' = .selfCall

/-- Whether nothing is seen of an operation, and it goes on to the first successor. -/
def Op.isQuiet : Op → Bool
  | function | echo | call | selfCall | jumpIf | ret => false
  | _ => true

/-- Nothing is seen of an operation without effects. -/
theorem Op.isQuiet_of_idempotent {o : Op} (idempotent : o.info.idempotent = true) : o.isQuiet = true := by
  cases o <;> simp_all [Op.info, Op.isQuiet]

/-- Two vertices do the same with the same variables. -/
structure Vertex.SameAction (v w : Vertex) : Prop where
  op : v.op.Alike w.op
  binOp : w.binOp = v.binOp
  callee : w.callee = v.callee
  result : w.result = v.result
  args : w.args = v.args

theorem Vertex.SameAction.of_body {v w : Vertex} (same : w.body = v.body) : v.SameAction w := by
  obtain ⟨op, binOp, callee, result, args, _⟩ := Vertex.body_eq_iff.mp same
  exact ⟨.inl op.symm, binOp, callee, result, args⟩

theorem Vertex.SameAction.references {v w : Vertex} (same : v.SameAction w) (a : Option VarId) :
    w.references a = v.references a := by
  rw [Vertex.references, Vertex.references, same.result, same.args]

namespace Graph

namespace SameRuns

theorem refl (g : Graph) : SameRuns m arguments g g :=
  ⟨fun _ => .rfl, fun _ => .rfl⟩

theorem symm (same : SameRuns m arguments g h) : SameRuns m arguments h g :=
  ⟨fun trace => (same.shows trace).symm, fun trace => (same.ends trace).symm⟩

theorem trans (first : SameRuns m arguments g h) (second : SameRuns m arguments h k) : SameRuns m arguments g k :=
  ⟨fun trace => (first.shows trace).trans (second.shows trace), fun trace => (first.ends trace).trans (second.ends trace)⟩

end SameRuns

/-- What was seen stays seen. -/
theorem trace_prefix_of_reaches (reaches : Reaches (g.step m arguments) s t) : s.trace <+: t.trace := by
  induction reaches with
  | refl => exact List.prefix_rfl
  | tail _ stepped ih =>
    obtain ⟨_, _, trace⟩ := step_eq_some stepped
    exact ih.trans (trace ▸ List.prefix_append _ _)

/-- A relation between the states that runs come to, with the same events so far, that each step of one graph keeps by
some steps of the other. -/
theorem sameRuns_of_respects (tr : Machine V → Machine V → Prop) (start : tr g.start h.start)
    (trace : ∀ {s t}, tr s t → s.trace = t.trace)
    (steps : ∀ {s t s'}, g.Visits m arguments s → h.Visits m arguments t → tr s t → g.step m arguments s = some s' →
      ∃ t', tr s' t' ∧ Reaches₁ (h.step m arguments) t t')
    (stops : ∀ {s t}, g.Visits m arguments s → h.Visits m arguments t → tr s t → g.step m arguments s = none →
      h.step m arguments t = none) : SameRuns m arguments g h := by
  -- that runs come to the states is part of the relation
  let both (s t : Machine V) : Prop := g.Visits m arguments s ∧ h.Visits m arguments t ∧ tr s t
  have respects : Respects (g.step m arguments) (h.step m arguments) both := by
    rintro s t ⟨visits, visits', related⟩
    split
    · rename_i s' stepped
      obtain ⟨t', related', reaches⟩ := steps visits visits' related stepped
      exact ⟨t', ⟨visits.tail stepped, visits'.trans reaches.to_reflTransGen, related'⟩, reaches⟩
    · rename_i stopped
      exact stops visits visits' related stopped
  have started : both g.start h.start := ⟨.refl, .refl, start⟩
  refine ⟨fun events => ⟨?_, ?_⟩, fun events => ⟨?_, ?_⟩⟩
  · rintro ⟨s, visits, shown⟩
    obtain ⟨t, ⟨_, _, related⟩, visits'⟩ := tr_reaches respects started visits
    exact ⟨t, visits', trace related ▸ shown⟩
  · rintro ⟨t, visits', shown⟩
    obtain ⟨s, t', onward, ⟨_, _, related⟩, visits⟩ := tr_reaches_rev respects started visits'
    exact ⟨s, visits, trace related ▸ shown.trans (trace_prefix_of_reaches onward)⟩
  · rintro ⟨s, visits, stopped, rfl⟩
    obtain ⟨t, ⟨_, _, related⟩, ended⟩ := tr_eval respects started (mem_eval.mpr ⟨visits, stopped⟩)
    obtain ⟨visits', stopped'⟩ := mem_eval.mp ended
    exact ⟨t, visits', stopped', (trace related).symm⟩
  · rintro ⟨t, visits', stopped', rfl⟩
    obtain ⟨s, ⟨_, _, related⟩, ended⟩ := tr_eval_rev respects started (mem_eval.mpr ⟨visits', stopped'⟩)
    obtain ⟨visits, stopped⟩ := mem_eval.mp ended
    exact ⟨s, visits, stopped, trace related⟩

/-- Two runs stand at vertices that do the same, with the same values for their operands. -/
structure Matches (m : Meaning V) (g h : Graph) (s t : Machine V) : Prop where
  op : (g.op s.vertex).Alike (h.op t.vertex)
  binOp : (h.vertex t.vertex).binOp = (g.vertex s.vertex).binOp
  callee : (h.vertex t.vertex).callee = (g.vertex s.vertex).callee
  operands : g.op s.vertex ≠ .function → h.operands m t = g.operands m s
  joined : g.op s.vertex = .phi →
    lastValue (fun x => (h.vertex t.vertex).references (some x)) t.memory =
      lastValue (fun x => (g.vertex s.vertex).references (some x)) s.memory
  trace : t.trace = s.trace

namespace Matches

theorem op_eq_iff (same : Matches m g h s t) {o : Op} (visible : o ≠ .call ∧ o ≠ .selfCall) :
    h.op t.vertex = o ↔ g.op s.vertex = o := by
  rcases same.op with eq | ⟨isCall, isSelfCall⟩
  · rw [eq]
  · simp [isCall, isSelfCall, visible.1.symm, visible.2.symm]

theorem computed (same : Matches m g h s t) : h.computed m t = g.computed m s := by
  have op : (g.vertex s.vertex).op.Alike (h.vertex t.vertex).op := same.op
  rw [Graph.computed, Graph.computed, same.binOp, same.callee, same.trace]
  by_cases isFunction : (g.vertex s.vertex).op = .function
  · have isFunction' : (h.vertex t.vertex).op = .function := (same.op_eq_iff (by decide)).mpr isFunction
    rw [isFunction, isFunction']
  · rw [same.operands isFunction]
    rcases op with eq | ⟨isCall, isSelfCall⟩
    · rw [← eq]
      cases kind : (g.vertex s.vertex).op
      case phi => simp only [same.joined kind]
      all_goals rfl
    · rw [isCall, isSelfCall]

theorem showing (same : Matches m g h s t) : h.showing m t = g.showing m s := by
  have op : (g.vertex s.vertex).op.Alike (h.vertex t.vertex).op := same.op
  rw [Graph.showing, Graph.showing, same.callee]
  by_cases isFunction : (g.vertex s.vertex).op = .function
  · have isFunction' : (h.vertex t.vertex).op = .function := (same.op_eq_iff (by decide)).mpr isFunction
    rw [isFunction, isFunction']
  · rw [same.operands isFunction]
    rcases op with eq | ⟨isCall, isSelfCall⟩
    · rw [eq]
    · rw [isCall, isSelfCall]

theorem choice (same : Matches m g h s t) : h.choice m t = g.choice m s := by
  have jumps : h.op t.vertex = .jumpIf ↔ g.op s.vertex = .jumpIf := same.op_eq_iff (by decide)
  by_cases isJump : g.op s.vertex = .jumpIf
  · rw [Graph.choice, Graph.choice, same.operands (by simp [isJump])]
    simp [jumps, isJump]
  · simp [Graph.choice, jumps, isJump]

theorem writing (same : Matches m g h s t) (result : (h.vertex t.vertex).result = (g.vertex s.vertex).result)
    (args : (h.vertex t.vertex).args = (g.vertex s.vertex).args) :
    h.writing m arguments t = g.writing m arguments s := by
  have functions : (h.vertex t.vertex).op = .function ↔ (g.vertex s.vertex).op = .function :=
    same.op_eq_iff (by decide)
  rw [Graph.writing, Graph.writing, result, args, same.computed]
  simp only [functions]

end Matches

/-- Vertices that do the same match if the variables they reference have the same values. -/
theorem matches_of_sameAction (same : (g.vertex s.vertex).SameAction (h.vertex t.vertex)) (trace : t.trace = s.trace)
    (value : ∀ x, (g.vertex s.vertex).references (some x) = true → (h.var x).value = (g.var x).value)
    (seen : ∀ p : VarId → Bool, (∀ x, p x = true → (g.vertex s.vertex).references (some x) = true) →
      lastValue p t.memory = lastValue p s.memory) : Matches m g h s t where
  op := same.op
  binOp := same.binOp
  callee := same.callee
  operands _ := by
    rw [operands, operands, same.args]
    refine List.map_congr_left fun a member => ?_
    cases a with
    | none => rfl
    | some x =>
      have references : (g.vertex s.vertex).references (some x) = true := Vertex.references_iff.mpr (.inr member)
      have last : lastValue (· = x) t.memory = lastValue (· = x) s.memory :=
        seen _ fun y is => by rwa [of_decide_eq_true is]
      simp only [valueOf, value x references, last]
  joined _ := by
    simp only [same.references]
    exact seen _ fun _ references => references
  trace := trace

/-- A step of vertices that do the same, at corresponding places. -/
theorem step_of_sameAction {place : VertexId → VertexId}
    (same : (g.vertex s.vertex).SameAction (h.vertex (place s.vertex)))
    (value : ∀ x, (g.vertex s.vertex).references (some x) = true → (h.var x).value = (g.var x).value)
    (succs : h.succs (place s.vertex) = (g.succs s.vertex).map place) :
    h.step m arguments { s with vertex := place s.vertex } =
      (g.step m arguments s).map fun s' => { s' with vertex := place s'.vertex } := by
  have same' : Matches m g h s { s with vertex := place s.vertex } :=
    matches_of_sameAction same rfl value fun _ _ => rfl
  rw [step, step, same'.choice, same'.showing, same'.writing same.result same.args, succs, List.getElem?_map,
    Option.map_map, Option.map_map]
  rfl

/-- Graphs whose runs go in lockstep behave alike. -/
theorem sameRuns_of_lockstep (place : VertexId → VertexId) (entry : h.entry = place g.entry)
    (steps : ∀ {s}, g.Visits m arguments s → h.step m arguments { s with vertex := place s.vertex } =
      (g.step m arguments s).map fun s' => { s' with vertex := place s'.vertex }) : SameRuns m arguments g h := by
  let placed (s t : Machine V) : Prop := t = { s with vertex := place s.vertex }
  refine sameRuns_of_respects placed ?_ ?_ ?_ ?_
  · simp only [placed, start, entry]
  · rintro s _ rfl
    rfl
  · rintro s _ s' visits _ rfl stepped
    refine ⟨_, rfl, .single ?_⟩
    rw [steps visits, stepped]
    rfl
  · rintro s _ visits _ rfl stopped
    rw [steps visits, stopped]
    rfl

/-- Graphs behave alike if what a run comes to does the same in both, with the same successors. -/
theorem sameRuns_of_sameAction (entry : h.entry = g.entry) (value : ∀ x, (h.var x).value = (g.var x).value)
    (same : ∀ {u}, Reachable g.succs g.entry u → (g.vertex u).SameAction (h.vertex u) ∧ h.succs u = g.succs u) :
    SameRuns m arguments g h := by
  refine sameRuns_of_lockstep id entry fun {s} visits => ?_
  obtain ⟨action, succs⟩ := same visits.reachable
  exact step_of_sameAction action (fun x _ => value x) (by simpa using succs)

/-! ### Vertices to skip -/

theorem choice_of_isQuiet (quiet : (g.op s.vertex).isQuiet = true) : g.choice m s = 0 := by
  rw [choice, if_neg]
  rintro ⟨isJump, _⟩
  simp [isJump, Op.isQuiet] at quiet

theorem showing_of_isQuiet (quiet : (g.op s.vertex).isQuiet = true) : g.showing m s = [] := by
  rw [Graph.op] at quiet
  rw [showing]
  split <;> simp_all [Op.isQuiet]

/-- A step over a vertex of which nothing is seen. -/
theorem step_of_isQuiet {u : VertexId} (quiet : (g.op s.vertex).isQuiet = true) (only : g.succs s.vertex = [u]) :
    g.step m arguments s = some ⟨u, g.writing m arguments s ++ s.memory, s.trace⟩ := by
  rw [step, choice_of_isQuiet quiet, showing_of_isQuiet quiet, only, List.append_nil]
  rfl

/-- What the vertex writes is filtered out if its targets are. -/
theorem filter_writing {keep : VarId → Bool} (hidden : ∀ y ∈ (g.vertex s.vertex).targets, keep y = false) :
    (g.writing m arguments s).filter (fun e => keep e.1) = [] := by
  rw [List.filter_eq_nil_iff]
  intro e member
  have target : e.1 ∈ (g.vertex s.vertex).targets := map_fst_writing (m := m) s ▸ List.mem_map_of_mem member
  simp [hidden e.1 target]

theorem filter_writing_of_visible {keep : VarId → Bool} (visible : ∀ y ∈ (g.vertex s.vertex).targets, keep y = true) :
    (g.writing m arguments s).filter (fun e => keep e.1) = g.writing m arguments s := by
  rw [List.filter_eq_self]
  intro e member
  have target : e.1 ∈ (g.vertex s.vertex).targets := map_fst_writing (m := m) s ▸ List.mem_map_of_mem member
  exact visible e.1 target

/-- Over further vertices a run comes to where they lead, and what it wrote on the way is filtered out. -/
theorem reaches_of_leads {kept : VertexId → Bool} {keep : VarId → Bool} {u v : VertexId} (leads : h.Leads kept u v)
    (reached : Reachable h.succs h.entry u)
    (quiet : ∀ {u}, Reachable h.succs h.entry u → kept u = false → (h.op u).isQuiet = true ∧
      ∀ y ∈ (h.vertex u).targets, keep y = false) (at_u : t.vertex = u) :
    ∃ t', Reaches (h.step m arguments) t t' ∧ t'.vertex = v ∧ t'.trace = t.trace ∧
      t'.memory.filter (fun e => keep e.1) = t.memory.filter (fun e => keep e.1) := by
  induction leads generalizing t with
  | here => exact ⟨t, .refl, at_u, rfl, rfl⟩
  | @skip u w v extra only _ ih =>
    subst at_u
    obtain ⟨isQuiet, hidden⟩ := quiet reached extra
    have stepped : h.step m arguments t = _ := step_of_isQuiet isQuiet only
    obtain ⟨t', onward, at_v, trace, memory⟩ :=
      ih (t := ⟨w, h.writing m arguments t ++ t.memory, t.trace⟩) (reached.step (by simp [only])) rfl
    refine ⟨t', .head stepped onward, at_v, trace, ?_⟩
    rw [memory, List.filter_append, filter_writing hidden, List.nil_append]

/-- The run `t` stands where `s` does, and also wrote variables that are not shown. -/
structure Ahead (shown : VarId → Bool) (s t : Machine V) : Prop where
  vertex : t.vertex = s.vertex
  trace : t.trace = s.trace
  memory : t.memory.filter (fun e => shown e.1) = s.memory

/-- What is not shown does not matter to a vertex that does not reference it. -/
theorem Ahead.matching {shown : VarId → Bool} (ahead : Ahead shown s t)
    (same : (g.vertex s.vertex).SameAction (h.vertex s.vertex)) (value : ∀ x, (h.var x).value = (g.var x).value)
    (visible : ∀ {y}, (g.vertex s.vertex).references (some y) = true → shown y = true) :
    Matches m g h s t ∧ (h.writing m arguments t ++ t.memory).filter (fun e => shown e.1) =
      g.writing m arguments s ++ s.memory := by
  have action : (g.vertex s.vertex).SameAction (h.vertex t.vertex) := by rwa [ahead.vertex]
  have matching : Matches m g h s t := by
    refine matches_of_sameAction action ahead.trace (fun x _ => value x) fun p inside => ?_
    rw [← ahead.memory]
    exact (lastValue_filter fun x holds => visible (inside x holds)).symm
  refine ⟨matching, ?_⟩
  rw [List.filter_append, ahead.memory, matching.writing action.result action.args]
  congr 1
  exact filter_writing_of_visible fun y target => visible (Vertex.references_of_mem_targets target)

/-- Further vertices on the edges do not matter if nothing is seen of them and nothing they write is referenced. -/
theorem sameRuns_of_expands {kept : VertexId → Bool} (shown : VarId → Bool) (expands : g.Expands h kept)
    (value : ∀ x, (h.var x).value = (g.var x).value)
    (same : ∀ {u}, Reachable g.succs g.entry u → (g.vertex u).SameAction (h.vertex u))
    (visible : ∀ {u y}, Reachable g.succs g.entry u → (g.vertex u).references (some y) = true → shown y = true)
    (quiet : ∀ {u}, Reachable h.succs h.entry u → kept u = false → (h.op u).isQuiet = true ∧
      ∀ y ∈ (h.vertex u).targets, shown y = false) : SameRuns m arguments g h := by
  refine sameRuns_of_respects (Ahead shown) ⟨expands.entry, rfl, rfl⟩ (fun ahead => ahead.trace.symm) ?_ ?_
  · intro s t s' visits visits' ahead stepped
    obtain ⟨matching, memory⟩ : Matches m g h s t ∧ (h.writing m arguments t ++ t.memory).filter _ = _ :=
      ahead.matching (same visits.reachable) value (visible visits.reachable)
    obtain ⟨chosen, memory', trace'⟩ := step_eq_some stepped
    -- the longer run takes the edge in the same place, and goes on to where that leads
    have edges := expands.edges visits.reachable
    obtain ⟨bound, is⟩ := List.getElem?_eq_some_iff.mp chosen
    have bound' := edges.length_eq ▸ bound
    have leads : h.Leads kept (h.succs s.vertex)[g.choice m s] s'.vertex := is ▸ edges.get bound' bound
    have stepped' : h.step m arguments t = some ⟨(h.succs s.vertex)[g.choice m s],
        h.writing m arguments t ++ t.memory, t.trace ++ h.showing m t⟩ := by
      rw [step, matching.choice, ahead.vertex, List.getElem?_eq_getElem bound']
      rfl
    have moved : h.Visits m arguments _ := visits'.tail stepped'
    obtain ⟨t', onward, at_s, trace, rest⟩ := reaches_of_leads (t := ⟨_, _, _⟩) leads moved.reachable quiet rfl
    refine ⟨t', ⟨at_s, ?_, ?_⟩, .head' stepped' onward⟩
    · rw [trace, trace', ahead.trace, matching.showing]
    · rw [rest, memory, memory']
  · intro s t visits _ ahead stopped
    obtain ⟨matching, _⟩ : Matches m g h s t ∧ (h.writing m arguments t ++ t.memory).filter _ = _ :=
      ahead.matching (same visits.reachable) value (visible visits.reachable)
    rw [step, Option.map_eq_none_iff, List.getElem?_eq_none_iff] at stopped ⊢
    rw [matching.choice, ahead.vertex, (expands.edges visits.reachable).length_eq]
    exact stopped

/-! ### Versions made one -/

end Graph

/-- A vertex with other variables. -/
def Vertex.mapVars (f : VarId → VarId) (v : Vertex) : Vertex :=
  { v with result := v.result.map f, args := v.args.map (Option.map f) }

/-- A vertex with source variables in place of their versions; a phi has nothing to do then. -/
def Vertex.collapse (src : VarId → VarId) (v : Vertex) : Vertex :=
  if v.op = .phi then { v with op := .label, result := none, args := [] } else v.mapVars src

theorem Vertex.succs_collapse {src : VarId → VarId} {v : Vertex} : (v.collapse src).succs = v.succs := by
  rw [collapse]
  split <;> rfl

/-- In a memory where the last one of the larger set is in the smaller, both have the same last value. -/
theorem lastValue_of_subset {p q : VarId → Bool} {memory : List (VarId × V)} (subset : ∀ x, q x = true → p x = true)
    (last : ∀ w, (memory.map Prod.fst).find? p = some w → q w = true) : lastValue q memory = lastValue p memory := by
  induction memory with
  | nil => rfl
  | cons e memory ih =>
    rw [List.map_cons, List.find?_cons] at last
    simp only [lastValue, List.find?_cons] at ih ⊢
    cases inside : p e.1 with
    | true => simp [last e.1 (by simp [inside])]
    | false =>
      have outside : q e.1 = false := by
        rw [← Bool.not_eq_true]
        exact fun holds => by simp [subset e.1 holds] at inside
      simp only [outside]
      exact ih fun w found => last w (by simpa [inside] using found)

namespace Graph

/-- The graph with source variables in place of their versions. -/
def collapse (g : Graph) (src : VarId → VarId) : Graph :=
  { g with store := g.store.map (·.collapse src) }

variable {src : VarId → VarId}

theorem vertex_collapse (v : VertexId) : (g.collapse src).vertex v = (g.vertex v).collapse src := by
  simp only [vertex, collapse, Array.getD_eq_getD_getElem?, Array.getElem?_map]
  cases g.store[v]? with
  | none => rfl
  | some w => rfl

theorem vertex_collapse_of_op {v : VertexId} (ordinary : g.op v ≠ .phi) :
    (g.collapse src).vertex v = (g.vertex v).mapVars src := by
  rw [vertex_collapse]
  exact if_neg ordinary

/-- A phi becomes a label. -/
theorem vertex_collapse_of_phi {v : VertexId} (isPhi : g.op v = .phi) :
    (g.collapse src).vertex v = { g.vertex v with op := .label, result := none, args := [] } := by
  rw [vertex_collapse]
  exact if_pos isPhi

theorem succs_collapse (v : VertexId) : (g.collapse src).succs v = g.succs v := by
  rw [succs, vertex_collapse, Vertex.succs_collapse, succs]

/-- The run `t` stands where `s` does, and a source variable has the value of the version written last. -/
structure Merges (m : Meaning V) (src : VarId → VarId) (s t : Machine V) : Prop where
  vertex : t.vertex = s.vertex
  trace : t.trace = s.trace
  values : ∀ c, (lastValue (· = c) t.memory).getD m.undefined = (lastValue (src · = c) s.memory).getD m.undefined

/-- The source variable has the value of the version that a vertex reads. -/
theorem Merges.valueOf (merges : Merges m src s t) (coherent : g.Coherent src)
    (value : ∀ y, (g.var (src y)).value = (g.var y).value) (visits : g.Visits m arguments s)
    (ordinary : g.op s.vertex ≠ .phi) {a : Option VarId} (read : a ∈ (g.vertex s.vertex).reads) :
    (g.collapse src).valueOf m t.memory (a.map src) = g.valueOf m s.memory a := by
  cases a with
  | none => rfl
  | some y =>
    obtain ⟨past, trail, keys⟩ := visits.exists_trail
    have last : lastValue (· = y) s.memory = lastValue (src · = src y) s.memory := by
      refine lastValue_of_subset (fun x is => by simp [of_decide_eq_true is]) fun w found => ?_
      rw [keys] at found
      exact decide_eq_true (coherent.reads trail ordinary read found)
    have var : (g.collapse src).var (src y) = g.var (src y) := rfl
    simp only [Option.map_some, Graph.valueOf, var, value y, merges.values, last]

/-- A vertex that is not a phi does the same with source variables. -/
theorem Merges.matching (merges : Merges m src s t) (coherent : g.Coherent src)
    (value : ∀ y, (g.var (src y)).value = (g.var y).value) (visits : g.Visits m arguments s)
    (ordinary : g.op s.vertex ≠ .phi) : Matches m g (g.collapse src) s t := by
  have vertex : (g.collapse src).vertex t.vertex = (g.vertex s.vertex).mapVars src := by
    rw [merges.vertex, vertex_collapse_of_op ordinary]
  refine ⟨.inl ?_, ?_, ?_, fun notFunction => ?_, fun isPhi => absurd isPhi ordinary, merges.trace⟩
  · rw [op, op, vertex, Vertex.mapVars]
  · rw [vertex, Vertex.mapVars]
  · rw [vertex, Vertex.mapVars]
  · rw [operands, operands, vertex, Vertex.mapVars, List.map_map]
    refine List.map_congr_left fun a member => merges.valueOf coherent value visits ordinary ?_
    have reads : (g.vertex s.vertex).reads = (g.vertex s.vertex).args := if_neg notFunction
    rwa [reads]

/-- What it writes are the source variables of what it wrote. -/
theorem Merges.writing (merges : Merges m src s t) (ordinary : g.op s.vertex ≠ .phi)
    (matching : Matches m g (g.collapse src) s t) :
    (g.collapse src).writing m arguments t = (g.writing m arguments s).map fun e => (src e.1, e.2) := by
  have vertex : (g.collapse src).vertex t.vertex = (g.vertex s.vertex).mapVars src := by
    rw [merges.vertex, vertex_collapse_of_op ordinary]
  rw [Graph.writing, Graph.writing, matching.computed, vertex, Vertex.mapVars]
  dsimp only
  split
  · rw [List.zipIdx_map, List.filterMap_map, List.map_filterMap]
    refine List.filterMap_congr fun e _ => ?_
    obtain ⟨a, i⟩ := e
    cases a <;> rfl
  · rw [List.map_map]
    cases (g.vertex s.vertex).result <;> rfl

/-- A phi keeps the value of the source variable: it takes over the version written last. -/
theorem Coherent.lastValue_phi (coherent : g.Coherent src) (visits : g.Visits m arguments s)
    (isPhi : g.op s.vertex = .phi) (c : VarId) :
    (lastValue (src · = c) (g.writing m arguments s ++ s.memory)).getD m.undefined =
      (lastValue (src · = c) s.memory).getD m.undefined := by
  have isPhi' : (g.vertex s.vertex).op = .phi := isPhi
  have written : g.writing m arguments s = (g.vertex s.vertex).result.toList.map (·, g.computed m s) := by
    rw [Graph.writing]
    simp [isPhi']
  rw [lastValue_append, written]
  cases result : (g.vertex s.vertex).result with
  | none => rfl
  | some r =>
    by_cases inClass : src r = c
    · subst inClass
      obtain ⟨past, trail, keys⟩ := visits.exists_trail
      have joined : lastValue (fun x => (g.vertex s.vertex).references (some x)) s.memory =
          lastValue (src · = src r) s.memory := by
        refine lastValue_of_subset (fun x references => decide_eq_true ?_) fun w found => ?_
        · rcases Vertex.references_iff.mp references with is | input
          · rw [Option.some.inj (is.symm.trans result)]
          · exact coherent.inputs visits.reachable isPhi result input
        · rw [keys] at found
          rcases coherent.joins trail isPhi result found with rfl | input
          · exact Vertex.references_iff.mpr (.inl result)
          · exact Vertex.references_iff.mpr (.inr input)
      have computed : g.computed m s = (lastValue (src · = src r) s.memory).getD m.undefined := by
        rw [Graph.computed]
        simp only [isPhi', joined]
      simp [lastValue, computed]
    · simp [lastValue, inClass]

/-- A step of a coherent graph, and the step with source variables. -/
theorem Merges.next (merges : Merges m src s t) (coherent : g.Coherent src)
    (value : ∀ y, (g.var (src y)).value = (g.var y).value) (visits : g.Visits m arguments s) :
    (g.collapse src).choice m t = g.choice m s ∧ (g.collapse src).showing m t = g.showing m s ∧
      ∀ c, (lastValue (· = c) ((g.collapse src).writing m arguments t ++ t.memory)).getD m.undefined =
        (lastValue (src · = c) (g.writing m arguments s ++ s.memory)).getD m.undefined := by
  by_cases isPhi : g.op s.vertex = .phi
  · have quiet : (g.op s.vertex).isQuiet = true := by simp [isPhi, Op.isQuiet]
    have quiet' : ((g.collapse src).op t.vertex).isQuiet = true := by
      simp [op, merges.vertex, vertex_collapse_of_phi isPhi, Op.isQuiet]
    have writing : (g.collapse src).writing m arguments t = [] := by
      simp [Graph.writing, merges.vertex, vertex_collapse_of_phi isPhi]
    refine ⟨?_, ?_, fun c => ?_⟩
    · rw [choice_of_isQuiet quiet, choice_of_isQuiet quiet']
    · rw [showing_of_isQuiet quiet, showing_of_isQuiet quiet']
    · rw [writing, List.nil_append, coherent.lastValue_phi visits isPhi, merges.values]
  · have matching := merges.matching coherent value visits isPhi
    refine ⟨matching.choice, matching.showing, fun c => ?_⟩
    rw [merges.writing isPhi matching, lastValue_append, lastValue_append, lastValue_map, Option.getD_or, Option.getD_or,
      merges.values]

/-- A coherent graph behaves as it does with source variables in place of their versions. -/
theorem Coherent.sameRuns_collapse (coherent : g.Coherent src)
    (value : ∀ y, (g.var (src y)).value = (g.var y).value) : SameRuns m arguments g (g.collapse src) := by
  refine sameRuns_of_respects (Merges m src) ⟨rfl, rfl, fun _ => rfl⟩ (fun merges => merges.trace.symm) ?_ ?_
  · intro s t s' visits _ merges stepped
    obtain ⟨chosen, memory, trace⟩ := step_eq_some stepped
    obtain ⟨choice, showing, values⟩ := merges.next coherent value visits
    have stepped' : (g.collapse src).step m arguments t = some ⟨s'.vertex,
        (g.collapse src).writing m arguments t ++ t.memory, t.trace ++ (g.collapse src).showing m t⟩ := by
      rw [step, choice, merges.vertex, succs_collapse, chosen]
      rfl
    refine ⟨_, ?_, .single stepped'⟩
    exact ⟨rfl, by rw [trace, merges.trace, showing], memory ▸ values⟩
  · intro s t visits _ merges stopped
    obtain ⟨choice, _, _⟩ := merges.next coherent value visits
    rw [step, Option.map_eq_none_iff] at stopped ⊢
    rwa [choice, merges.vertex, succs_collapse]

end Graph

end MiddleEnd
