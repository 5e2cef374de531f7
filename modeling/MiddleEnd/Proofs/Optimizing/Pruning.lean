import MiddleEnd.Proofs.Optimizing.Narrowing

/-!
Pruning what cannot be reached. Phis forget the variables that the pruned vertex wrote, by name: a phi that can be
reached loses such an input even if something else writes it too. So pruning is right only where the pruned vertex is
the one writer of what reachable phis reference (`Graph.OneWriter`).
-/
namespace MiddleEnd

namespace Graph

variable {V : Type} {m : Meaning V} {arguments : Nat → V} {src : VarId → VarId} {g h k : Graph} {v : VertexId}
  {xs : List (Option VarId)}

/-- `k` is `g` where phis lost inputs, all of them among `xs`. -/
structure Forgets (xs : List (Option VarId)) (g k : Graph) : Prop where
  entry : k.entry = g.entry
  exit : k.exit = g.exit
  size : k.store.size = g.store.size
  listed : k.listed = g.listed
  vars : k.vars = g.vars
  epoch : k.epoch = g.epoch
  reach : k.reach = g.reach
  vertex : ∀ u, ∃ args, k.vertex u = { g.vertex u with args } ∧ (g.op u ≠ .phi → args = (g.vertex u).args) ∧
    args.Sublist (g.vertex u).args ∧ ∀ a ∈ (g.vertex u).args, a ∉ xs → a ∈ args

namespace Forgets

theorem refl : Forgets xs g g :=
  ⟨rfl, rfl, rfl, rfl, rfl, rfl, rfl, fun u => ⟨(g.vertex u).args, rfl, fun _ => rfl, .refl _, fun _ member _ => member⟩⟩

theorem op (forgets : Forgets xs g k) (u : VertexId) : k.op u = g.op u := by
  obtain ⟨args, vertex, _⟩ := forgets.vertex u
  rw [Graph.op, Graph.op, vertex]

theorem trans (first : Forgets xs g h) (second : Forgets xs h k) : Forgets xs g k := by
  refine ⟨second.entry.trans first.entry, second.exit.trans first.exit, second.size.trans first.size,
    second.listed.trans first.listed, second.vars.trans first.vars, second.epoch.trans first.epoch,
    second.reach.trans first.reach, fun u => ?_⟩
  obtain ⟨args, vertex, ordinary, subset, kept⟩ := first.vertex u
  obtain ⟨args', vertex', ordinary', subset', kept'⟩ := second.vertex u
  rw [first.op, vertex] at ordinary'
  rw [vertex] at vertex' subset' kept'
  exact ⟨args', vertex', fun notPhi => (ordinary' notPhi).trans (ordinary notPhi), subset'.trans subset,
    fun a member other => kept' a (kept a member other) other⟩

theorem removePhiInput {x : Option VarId} (member : x ∈ xs) (isPhi : g.op v = .phi) :
    Forgets xs g (g.modifyVertex v (·.removePhiInput x)) := by
  refine ⟨rfl, rfl, size_modifyVertex, rfl, rfl, rfl, rfl, fun u => ?_⟩
  rw [vertex_modifyVertex]
  split
  · rename_i here
    rw [here.1] at *
    refine ⟨(g.vertex v).args.erase x, rfl, fun notPhi => absurd isPhi notPhi, List.erase_sublist, fun a arg other => ?_⟩
    exact (List.mem_erase_of_ne (by rintro rfl; exact other member)).mpr arg
  · exact ⟨(g.vertex u).args, rfl, fun _ => rfl, .refl _, fun _ arg _ => arg⟩

theorem foldl_removePhiInput {x : Option VarId} (member : x ∈ xs) {us : List VertexId} (phis : ∀ u ∈ us, g.op u = .phi) :
    Forgets xs g (us.foldl (fun g u => g.modifyVertex u (·.removePhiInput x)) g) := by
  induction us generalizing g with
  | nil => exact .refl
  | cons u us ih =>
    have first : Forgets xs g (g.modifyVertex u (·.removePhiInput x)) := .removePhiInput member (phis u List.mem_cons_self)
    refine first.trans (ih fun w later => ?_)
    rw [first.op]
    exact phis w (List.mem_cons_of_mem _ later)

/-- Forgetting variables one after the other takes them, and nothing else, out of phis. -/
theorem foldl_forget {ys : List (Option VarId)} (within : ∀ y ∈ ys, y ∈ xs) : Forgets xs g (ys.foldl (Rule.forget v) g) := by
  induction ys generalizing g with
  | nil => exact .refl
  | cons y ys ih =>
    refine .trans (foldl_removePhiInput (within y List.mem_cons_self) fun u member => ?_)
      (ih fun z later => within z (List.mem_cons_of_mem _ later))
    have isPhi := (List.mem_filter.mp member).2
    exact (of_decide_eq_true isPhi).1

theorem succs (forgets : Forgets xs g k) : k.succs = g.succs := by
  funext u
  obtain ⟨args, vertex, _⟩ := forgets.vertex u
  rw [Graph.succs, Graph.succs, vertex]

theorem wired (forgets : Forgets xs g k) (wired : g.Wired) : k.Wired :=
  wired.congr forgets.entry forgets.listed (Nat.le_of_eq forgets.size.symm) (fun u _ => congrFun forgets.succs u)
    fun u _ => by
      obtain ⟨args, vertex, _⟩ := forgets.vertex u
      rw [preds, preds, vertex]

end Forgets

/-- `h` is `g` without the vertex `v`, which could not be reached, and phis may have forgotten what it wrote. -/
structure Pruned (g h : Graph) (v : VertexId) : Prop where
  unreachable : ¬ Reachable g.succs g.entry v
  notExit : v ≠ g.exit
  owned : g.contains v = true
  entry : h.entry = g.entry
  exit : h.exit = g.exit
  listed : h.listed = g.listed.erase v
  vars : h.vars = g.vars
  reach : h.reach = g.reach
  epoch : g.epoch < h.epoch
  wired : h.Wired
  gone : h.contains v = false
  succs : ∀ {u}, u ≠ v → v ∉ g.succs u → h.succs u = g.succs u
  vertex : ∀ {u}, u ≠ v → ∃ args, (h.vertex u).body = ({ g.vertex u with args } : Vertex).body ∧
    (g.op u ≠ .phi → args = (g.vertex u).args) ∧ args.Sublist (g.vertex u).args ∧
    ∀ a ∈ (g.vertex u).args, a ∉ (g.vertex v).writes → a ∈ args

theorem pruned_detach (routed : g.Routed) (owned : g.contains v = true) (notEntry : v ≠ g.entry) (notExit : v ≠ g.exit)
    (unreachable : ¬ Reachable g.succs g.entry v) :
    g.Pruned (((g.vertex v).writes.foldl (Rule.forget v) g).detach v) v := by
  have forgets : Forgets (g.vertex v).writes g ((g.vertex v).writes.foldl (Rule.forget v) g) := .foldl_forget fun _ => id
  generalize (g.vertex v).writes.foldl (Rule.forget v) g = k at forgets ⊢
  obtain ⟨wired, without, _, succs⟩ := (forgets.wired routed.wired).detach (forgets.listed ▸ routed.owned owned)
    (forgets.entry ▸ notEntry)
  refine ⟨unreachable, notExit, owned, without.entry.trans forgets.entry, without.exit.trans forgets.exit, ?_,
    without.vars.trans forgets.vars, without.reach.trans forgets.reach, forgets.epoch ▸ without.epoch, wired, without.gone, ?_, ?_⟩
  · rw [without.listed, forgets.listed]
  · intro u other absent
    rw [succs u other (forgets.succs ▸ absent), forgets.succs]
  · intro u other
    obtain ⟨args, vertex, rest⟩ := forgets.vertex u
    exact ⟨args, by rw [without.body u other, vertex], rest⟩

namespace Pruned

variable {u : VertexId} (pruned : g.Pruned h v)
include pruned

theorem ne_of_contains (contains : h.contains u = true) : u ≠ v := by
  rintro rfl
  simp [pruned.gone] at contains

theorem ne_of_reachable (reached : Reachable g.succs g.entry u) : u ≠ v := by
  rintro rfl
  exact pruned.unreachable reached

theorem succs_of_reachable (reached : Reachable g.succs g.entry u) : h.succs u = g.succs u :=
  pruned.succs (pruned.ne_of_reachable reached) fun edge => pruned.unreachable (reached.step edge)

/-- What can be reached is what could be, and its ways are the same. -/
theorem before (reached : Reachable h.succs h.entry u) : Reachable g.succs g.entry u ∧ h.succs u = g.succs u := by
  have reached' : Reachable g.succs g.entry u := by
    obtain ⟨past, trail⟩ := reached
    refine trail.invariant (P := Reachable g.succs g.entry) (pruned.entry ▸ .refl) fun u t reached edge => ?_
    exact reached.step (pruned.succs_of_reachable reached ▸ edge)
  exact ⟨reached', pruned.succs_of_reachable reached'⟩

theorem op (other : u ≠ v) : h.op u = g.op u := by
  obtain ⟨args, body, _⟩ := pruned.vertex other
  exact (Vertex.body_eq_iff.mp body).op

theorem result (other : u ≠ v) : (h.vertex u).result = (g.vertex u).result := by
  obtain ⟨args, body, _⟩ := pruned.vertex other
  exact (Vertex.body_eq_iff.mp body).result

theorem contains (other : u ≠ v) : h.contains u = g.contains u := by
  obtain ⟨args, body, _⟩ := pruned.vertex other
  exact (Vertex.body_eq_iff.mp body).owned

theorem mem_args (other : u ≠ v) {a : Option VarId} (member : a ∈ (h.vertex u).args) : a ∈ (g.vertex u).args := by
  obtain ⟨args, body, _, subset, _⟩ := pruned.vertex other
  have same : (h.vertex u).args = args := (Vertex.body_eq_iff.mp body).args
  exact subset.subset (same ▸ member)

theorem action (other : u ≠ v) (ordinary : g.op u ≠ .phi) : (g.vertex u).SameAction (h.vertex u) := by
  obtain ⟨args, body, same, _, _⟩ := pruned.vertex other
  refine .of_body ?_
  rw [body, same ordinary]

theorem targets (other : u ≠ v) : (h.vertex u).targets = (g.vertex u).targets := by
  by_cases isFunction : (g.vertex u).op = .function
  · have same := pruned.action other (by rw [Graph.op, isFunction]; simp)
    have op : (h.vertex u).op = (g.vertex u).op := pruned.op other
    rw [Vertex.targets, Vertex.targets, Vertex.writes, Vertex.writes, op, same.result, same.args]
  · have op : (h.vertex u).op = (g.vertex u).op := pruned.op other
    rw [Vertex.targets_of_op isFunction, Vertex.targets_of_op (op ▸ isFunction), pruned.result other]

/-- A phi keeps what is still written: the pruned vertex was the one writer of what the phi forgot. -/
theorem joins (inv : Optimizable src g) (once : g.OneWriter) {t : VertexId} {w : VarId}
    (reached : Reachable g.succs g.entry u) (isPhi : g.op u = .phi) (input : some w ∈ (g.vertex u).args)
    (reachedWriter : Reachable g.succs g.entry t) (writes : w ∈ (g.vertex t).targets) : some w ∈ (h.vertex u).args := by
  obtain ⟨args, body, _, _, kept⟩ := pruned.vertex (pruned.ne_of_reachable reached)
  rw [(Vertex.body_eq_iff.mp body).args]
  refine kept _ input fun forgotten => ?_
  have writesToo : w ∈ (g.vertex v).targets := by simpa [Vertex.targets] using forgotten
  have same : t = v := once reached isPhi (Vertex.references_iff.mpr (.inr input)) (inv.present reachedWriter) pruned.owned
    writes writesToo
  exact pruned.unreachable (same ▸ reachedWriter)

theorem effective (reached : Reachable h.succs h.entry u) : h.isEffective u = g.isEffective u := by
  rw [isEffective, isEffective, pruned.op (pruned.ne_of_reachable (pruned.before reached).1)]

theorem routed (routed : g.Routed) : h.Routed where
  wired := pruned.wired
  owned {u} contains := by
    have other := pruned.ne_of_contains contains
    rw [pruned.listed, List.mem_erase_of_ne other]
    exact routed.owned (pruned.contains other ▸ contains)
  present {u} reached := by
    have before := (pruned.before reached).1
    rw [pruned.contains (pruned.ne_of_reachable before)]
    exact routed.present before
  exitListed := by
    rw [pruned.exit, pruned.listed, List.mem_erase_of_ne (Ne.symm pruned.notExit)]
    exact routed.exitListed
  entryOp := by
    rw [pruned.entry, pruned.op (pruned.ne_of_reachable .refl)]
    exact routed.entryOp
  exitOp := by
    rw [pruned.exit, pruned.op (Ne.symm pruned.notExit)]
    exact routed.exitOp
  onward reached := by
    obtain ⟨s, leads⟩ := routed.onward (pruned.before reached).1
    exact ⟨s, leads.carry reached pruned.effective fun reached _ => (pruned.before reached).2⟩
  cached := routed.cached.later pruned.reach pruned.epoch

theorem narrowed (inv : Optimizable src g) (once : g.OneWriter) : Narrowed src g h where
  entry := pruned.entry
  edges {u} reached t edge := (pruned.before reached).2 ▸ edge
  targets reached := pruned.targets (pruned.ne_of_reachable (pruned.before reached).1)
  isPhi reached := by rw [pruned.op (pruned.ne_of_reachable (pruned.before reached).1), id]
  result reached _ := pruned.result (pruned.ne_of_reachable (pruned.before reached).1)
  reads {u y} reached ordinary read := by
    have other := pruned.ne_of_reachable (pruned.before reached).1
    have op : (h.vertex u).op = (g.vertex u).op := pruned.op other
    have args := (pruned.action other (pruned.op other ▸ ordinary)).args
    rw [Vertex.reads, op, args] at read
    exact .inl read
  inputs reached _ := pruned.mem_args (pruned.ne_of_reachable (pruned.before reached).1)
  joins {u t w} reached isPhi input reachedWriter writes := by
    have before := (pruned.before reached).1
    have beforeWriter := (pruned.before reachedWriter).1
    rw [pruned.op (pruned.ne_of_reachable before)] at isPhi
    rw [pruned.targets (pruned.ne_of_reachable beforeWriter)] at writes
    exact pruned.joins inv once before isPhi input beforeWriter writes
  wired := (pruned.routed inv.toRouted).wired
  owned := (pruned.routed inv.toRouted).owned
  present reached _ := (pruned.routed inv.toRouted).present reached
  exit := pruned.exit
  exitListed := (pruned.routed inv.toRouted).exitListed
  entryOp := (pruned.routed inv.toRouted).entryOp
  exitOp := (pruned.routed inv.toRouted).exitOp
  vars := pruned.vars
  contains {u} contains := pruned.contains (pruned.ne_of_contains contains) ▸ contains
  references {u x} contains references := by
    have other := pruned.ne_of_contains contains
    rw [Vertex.references_iff] at references ⊢
    rw [← pruned.result other]
    exact references.imp_right (pruned.mem_args other)
  writes contains := pruned.targets (pruned.ne_of_contains contains)
  effective := pruned.effective
  ways reached _ := (pruned.before reached).2
  cached := (pruned.routed inv.toRouted).cached

/-- With source variables in place of their versions, nothing that can be reached changes. -/
theorem sameRuns (inv : Optimizable src g) (once : g.OneWriter) : SameRuns m arguments g h := by
  have inv' := (pruned.narrowed inv once).optimizable inv
  have collapsed : SameRuns m arguments (g.collapse src) (h.collapse src) := by
    refine sameRuns_of_sameAction pruned.entry (fun x => ?_) fun {u} reached => ?_
    · show (h.var x).value = (g.var x).value
      rw [var, var, pruned.vars]
    · rw [funext succs_collapse] at reached
      have other := pruned.ne_of_reachable reached
      refine ⟨?_, by rw [succs_collapse, succs_collapse, pruned.succs_of_reachable reached]⟩
      by_cases isPhi : g.op u = .phi
      · obtain ⟨args, body, _⟩ := pruned.vertex other
        obtain ⟨_, binOp, callee, _⟩ := Vertex.body_eq_iff.mp body
        rw [vertex_collapse_of_phi isPhi, vertex_collapse_of_phi ((pruned.op other).trans isPhi)]
        exact ⟨.inl rfl, binOp, callee, rfl, rfl⟩
      · have same := pruned.action other isPhi
        have ordinary : h.op u ≠ .phi := pruned.op other ▸ isPhi
        rw [vertex_collapse_of_op isPhi, vertex_collapse_of_op ordinary]
        exact ⟨same.op, same.binOp, same.callee, by rw [Vertex.mapVars, Vertex.mapVars, same.result],
          by rw [Vertex.mapVars, Vertex.mapVars, same.args]⟩
  exact inv.sameRuns_collapse.trans (collapsed.trans inv'.sameRuns_collapse.symm)

end Pruned

end Graph

end MiddleEnd
