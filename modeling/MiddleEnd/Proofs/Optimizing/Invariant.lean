import MiddleEnd.Graph.Order
import MiddleEnd.Proofs.Coalescing
import MiddleEnd.Proofs.Integrity
import MiddleEnd.Proofs.Optimizing.Steps
import MiddleEnd.Proofs.Search
import MiddleEnd.Proofs.Simulation

/-!
What the optimizer keeps. `Optimizable` is what its rules rely on: the graph is wired and coherent, and from every
vertex without effects the way leads on to one that has some, so that taking out the former never closes a loop.

Pruning lets phis forget what unreachable code wrote, and that is right as long as nothing else writes it
(`OneWriter`). Coalescing gives variables several writers, but it starts only when a whole sweep changed nothing, and
then nothing is left to prune (`Trimmed`).
-/
namespace MiddleEnd

namespace Graph

variable {V : Type} {m : Meaning V} {arguments : Nat → V} {src : VarId → VarId} {g h : Graph} {v : VertexId}

/-- Whether a vertex does more than compute its result. -/
def isEffective (g : Graph) (v : VertexId) : Bool :=
  !(g.op v).info.idempotent

/-- What the rules of the optimizer rely on in the shape of a graph. -/
structure Routed (g : Graph) : Prop where
  wired : g.Wired
  owned : ∀ {v}, g.contains v = true → v ∈ g.listed
  present : ∀ {v}, Reachable g.succs g.entry v → g.contains v = true
  entryOp : g.op g.entry = .function
  exitOp : g.op g.exit = .finish
  exitListed : g.exit ∈ g.listed
  onward : ∀ {v}, Reachable g.succs g.entry v → ∃ s, g.Leads g.isEffective v s
  cached : g.Cached

/-- What the rules of the optimizer rely on. -/
structure Optimizable (src : VarId → VarId) (g : Graph) : Prop extends g.Routed where
  inScope : ∀ {v x}, g.contains v = true → (g.vertex v).references (some x) = true → x < g.vars.size
  coherent : g.Coherent src
  value : ∀ y, (g.var (src y)).value = (g.var y).value
  srcLt : ∀ {y}, y < g.vars.size → src y < g.vars.size
  srcGe : ∀ {y}, g.vars.size ≤ y → src y = y
  phiResult : ∀ {v}, Reachable g.succs g.entry v → g.op v = .phi → ∃ r, (g.vertex v).result = some r

/-- What a reachable phi references is written by one vertex at most. -/
def OneWriter (g : Graph) : Prop :=
  ∀ ⦃phi y u v⦄, Reachable g.succs g.entry phi → g.op phi = .phi → (g.vertex phi).references (some y) = true →
    g.contains u = true → g.contains v = true → y ∈ (g.vertex u).targets → y ∈ (g.vertex v).targets → u = v

/-- Nothing is left to prune, and no jump is left to decide. -/
structure Trimmed (g : Graph) : Prop where
  reachable : ∀ {v}, g.contains v = true → v = g.exit ∨ Reachable g.succs g.entry v
  branches : ∀ {v}, g.contains v = true → ¬ g.Decided v

namespace Routed

variable (routed : g.Routed)
include routed

theorem listed (reached : Reachable g.succs g.entry v) : v ∈ g.listed :=
  routed.wired.listed_of_reachable reached

theorem ne_size (reached : Reachable g.succs g.entry v) : v ≠ g.store.size :=
  Nat.ne_of_lt (routed.wired.lt_of_reachable reached)

/-- From a vertex without effects there is one way on, and it does not lead straight back. -/
theorem exists_next (reached : Reachable g.succs g.entry v) (idempotent : (g.op v).info.idempotent = true) :
    ∃ s, g.succs v = [s] ∧ v ≠ s := by
  obtain ⟨s, leads⟩ := routed.onward reached
  exact leads.exists_next (by simp [isEffective, idempotent])

theorem ne_entry (idempotent : (g.op v).info.idempotent = true) : v ≠ g.entry := by
  rintro rfl
  simp [routed.entryOp, Op.info] at idempotent

theorem ne_exit (idempotent : (g.op v).info.idempotent = true) : v ≠ g.exit := by
  rintro rfl
  simp [routed.exitOp, Op.info] at idempotent

end Routed

namespace Optimizable

variable (inv : Optimizable src g)
include inv

/-- What is of the class of a known variable is known. -/
theorem lt_of_src {a b : VarId} (same : src a = src b) (known : b < g.vars.size) : a < g.vars.size := by
  rcases Nat.lt_or_ge a g.vars.size with lt | ge
  · exact lt
  · rw [inv.srcGe ge] at same
    exact same ▸ inv.srcLt known

theorem sameRuns_collapse : SameRuns m arguments g (g.collapse src) :=
  inv.coherent.sameRuns_collapse inv.value

end Optimizable

/-! ### Other types -/

namespace Retyped

theorem op (retyped : g.Retyped h) (v : VertexId) : h.op v = g.op v := by
  rw [Graph.op, Graph.op, retyped.vertex]

theorem contains (retyped : g.Retyped h) (v : VertexId) : h.contains v = g.contains v := by
  rw [Graph.contains, Graph.contains, retyped.vertex]

theorem leads (retyped : g.Retyped h) {s : VertexId} (leads : g.Leads g.isEffective v s) : h.Leads h.isEffective v s := by
  have same : h.isEffective = g.isEffective := funext fun v => by rw [isEffective, isEffective, retyped.op]
  rw [same]
  exact leads.congr fun v => by rw [retyped.succs]

theorem routed (retyped : g.Retyped h) (routed : g.Routed) : h.Routed where
  wired := retyped.wired routed.wired
  owned := by
    simp only [retyped.contains, retyped.listed]
    exact routed.owned
  present := by
    simp only [retyped.contains, retyped.succs, retyped.entry]
    exact routed.present
  entryOp := by rw [retyped.op, retyped.entry, routed.entryOp]
  exitOp := by rw [retyped.op, retyped.exit, routed.exitOp]
  exitListed := by
    rw [retyped.exit, retyped.listed]
    exact routed.exitListed
  onward reached := by
    rw [retyped.succs, retyped.entry] at reached
    obtain ⟨s, leads⟩ := routed.onward reached
    exact ⟨s, retyped.leads leads⟩
  cached := routed.cached.same retyped.reach retyped.epoch fun v => by rw [retyped.succs, retyped.entry]

theorem optimizable (retyped : g.Retyped h) (inv : Optimizable src g) : Optimizable src h :=
  { retyped.routed inv.toRouted with
    inScope := by
      simp only [retyped.contains, retyped.vertex, retyped.vars]
      exact inv.inScope
    coherent := retyped.coherent inv.coherent
    value := fun y => by rw [retyped.value, retyped.value, inv.value]
    srcLt := by
      rw [retyped.vars]
      exact inv.srcLt
    srcGe := by
      rw [retyped.vars]
      exact inv.srcGe
    phiResult := by
      simp only [retyped.succs, retyped.entry, retyped.op, retyped.vertex]
      exact inv.phiResult }

theorem sameRuns (retyped : g.Retyped h) : SameRuns m arguments g h :=
  sameRuns_of_sameAction retyped.entry retyped.value fun {u} _ =>
    ⟨.of_body (by rw [retyped.vertex]), by rw [retyped.succs]⟩

theorem oneWriter (retyped : g.Retyped h) (once : g.OneWriter) : h.OneWriter := by
  intro phi y u v
  rw [retyped.succs, retyped.entry, retyped.op, retyped.vertex, retyped.vertex, retyped.vertex, retyped.contains,
    retyped.contains]
  exact @once phi y u v

theorem trimmed (retyped : g.Retyped h) (trimmed : g.Trimmed) : h.Trimmed where
  reachable := by
    simp only [retyped.contains, retyped.succs, retyped.entry, retyped.exit]
    exact trimmed.reachable
  branches := by
    simp only [retyped.contains, Decided, retyped.op, retyped.succs, retyped.vertex, retyped.value]
    exact trimmed.branches

end Retyped

end Graph

end MiddleEnd
