import MiddleEnd.Proofs.Optimizing.Invariant
import MiddleEnd.Proofs.SingleAssignment

/-!
The single assignment form behaves as its source (`Versioned.sameRuns`): with source variables in place of their versions
the phis have nothing to do, and without them it is the source. It is also what the optimizer relies on
(`Versioned.optimizable`), as long as from every vertex without effects of the source the way leads on to one that has some.
-/
namespace MiddleEnd

namespace Versioned

open MiddleEnd.Graph

variable {V : Type} {m : Meaning V} {arguments : Nat → V} {g h : Graph} {src : VarId → VarId} {v : VertexId}
  (versioned : Versioned g src h)
include versioned

theorem value_old (x : VarId) : (h.var x).value = (g.var x).value := by
  rcases Nat.lt_or_ge x g.vars.size with old | fresh
  · rw [versioned.oldVar old]
  · have noValue : (g.var x).value = none := by
      rw [var, Array.getD_eq_getD_getElem?, Array.getElem?_eq_none fresh]
      rfl
    rw [noValue]
    rcases Nat.lt_or_ge x h.vars.size with known | outside
    · rw [versioned.newVar fresh known]
    · rw [var, Array.getD_eq_getD_getElem?, Array.getElem?_eq_none outside]
      rfl

/-- Only variables have versions, so that a version of a constant is the constant itself. -/
theorem value (y : VarId) : (h.var (src y)).value = (h.var y).value := by
  rcases Nat.lt_or_ge y g.vars.size with old | fresh
  · rw [versioned.srcOld old]
  · rcases Nat.lt_or_ge y h.vars.size with known | outside
    · have varies := versioned.newSource fresh known
      rw [versioned.oldVar (versioned.srcLt known), versioned.newVar fresh known]
      simpa [Variable.isConst] using varies
    · rw [versioned.srcNone outside]

theorem sameRuns (sound : g.Sound) (noPhi : ∀ v ∈ g.listed, g.op v ≠ .phi) : SameRuns m arguments g h := by
  refine SameRuns.trans ?_ (versioned.coherent.sameRuns_collapse versioned.value).symm
  have succs : (h.collapse src).succs = h.succs := funext succs_collapse
  have expands : g.Expands (h.collapse src) (· < g.store.size) :=
    versioned.expands.congr rfl (fun _ => rfl) rfl succs_collapse
  refine sameRuns_of_expands (fun _ => true) expands versioned.value_old (fun {u} reached => ?_) (fun _ _ => rfl) ?_
  · have member := sound.wired.listed_of_reachable reached
    have versions := versioned.old member
    have ordinary : h.op u ≠ .phi := fun isPhi => noPhi u member (versions.op.symm.trans isPhi)
    rw [vertex_collapse_of_op ordinary]
    exact ⟨.inl versions.op.symm, versions.binOp, versions.callee, versions.result, versions.args⟩
  · -- what is not of the source is a phi, and with source variables nothing is left of it
    intro u reached extra
    rw [succs] at reached
    have new : g.store.size ≤ u := by simpa using extra
    rw [op, vertex_collapse_of_phi (versioned.new new (versioned.sound.wired.lt_of_reachable reached)).1]
    exact ⟨rfl, by simp [Vertex.targets, Vertex.writes]⟩

/-! ### What the optimizer relies on -/

/-- What is new has no effects: it is a phi. -/
theorem lt_of_isEffective (reached : Reachable h.succs h.entry v) (effective : h.isEffective v = true) :
    v < g.store.size := by
  rw [← Nat.not_le]
  intro new
  have isPhi := (versioned.new new (versioned.sound.wired.lt_of_reachable reached)).1
  simp [isEffective, isPhi, Op.info] at effective

/-- The way over the phis on an edge goes on where the source goes on. -/
theorem leads_over {t s : VertexId} (across : h.Leads (· < g.store.size) v t) (reached : Reachable h.succs h.entry v)
    (onward : h.Leads h.isEffective t s) : h.Leads h.isEffective v s := by
  induction across with
  | here => exact onward
  | @skip v t s extra only _ ih =>
    refine .skip ?_ only (ih (reached.step (by simp [only])) onward)
    rw [← Bool.not_eq_true]
    exact fun effective => by simp [versioned.lt_of_isEffective reached effective] at extra

theorem isEffective_old (member : v ∈ g.listed) : h.isEffective v = g.isEffective v := by
  rw [isEffective, isEffective, op, op, (versioned.old member).op]

theorem leads_old (sound : g.Sound) {s : VertexId} (leads : g.Leads g.isEffective v s)
    (reached : Reachable g.succs g.entry v) : h.Leads h.isEffective v s := by
  induction leads with
  | here effective =>
    exact .here ((versioned.isEffective_old (sound.wired.listed_of_reachable reached)).trans effective)
  | @skip v t s silent only _ ih =>
    have edges := versioned.expands.edges reached
    rw [only] at edges
    obtain ⟨t', across, only'⟩ : ∃ t', h.Leads (· < g.store.size) t' t ∧ h.succs v = [t'] := by
      cases onlyNow : h.succs v with
      | nil => simp [onlyNow] at edges
      | cons t' rest =>
        rw [onlyNow] at edges
        cases edges with
        | cons across none => exact ⟨t', across, by cases none; rfl⟩
    have reachedNow := versioned.expands.reachable reached
    refine .skip ?_ only' (versioned.leads_over across (reachedNow.step (by simp [only'])) (ih (reached.step (by simp [only]))))
    rw [versioned.isEffective_old (sound.wired.listed_of_reachable reached), silent]

theorem onward (sound : g.Sound) (before : ∀ {v}, Reachable g.succs g.entry v → ∃ s, g.Leads g.isEffective v s)
    (reached : Reachable h.succs h.entry v) : ∃ s, h.Leads h.isEffective v s := by
  obtain ⟨past, trail⟩ := reached
  obtain ⟨t, across, arrives⟩ := versioned.expands.project trail
  obtain ⟨s, leads⟩ := before arrives.reachable
  exact ⟨s, versioned.leads_over across trail.reachable (versioned.leads_old sound leads arrives.reachable)⟩

theorem listed_of_contains (owned : ∀ {v}, g.contains v = true → v ∈ g.listed) (contains : h.contains v = true) :
    v ∈ h.listed := by
  rcases Nat.lt_or_ge v g.store.size with old | new
  · exact versioned.listed.mpr (.inl (owned (versioned.owned old ▸ contains)))
  · rcases Nat.lt_or_ge v h.store.size with inside | outside
    · exact versioned.listed.mpr (.inr ⟨new, inside⟩)
    · rw [Graph.contains, vertex_of_ge outside] at contains
      exact absurd contains (by decide)

theorem optimizable (sound : g.Sound) (owned : ∀ {v}, g.contains v = true → v ∈ g.listed) (fresh : g.reach = none)
    (before : ∀ {v}, Reachable g.succs g.entry v → ∃ s, g.Leads g.isEffective v s) : Optimizable src h where
  wired := versioned.sound.wired
  owned := versioned.listed_of_contains owned
  present reached := (versioned.sound.vertex reached).owned
  entryOp := versioned.sound.entryOp
  exitOp := versioned.sound.exitOp
  exitListed := versioned.sound.exitListed
  inScope contains references := versioned.inScope _ (versioned.listed_of_contains owned contains) _ references
  coherent := versioned.coherent
  value := versioned.value
  srcLt known := Nat.lt_of_lt_of_le (versioned.srcLt known) versioned.vars
  srcGe := versioned.srcNone
  phiResult reached isPhi := Option.isSome_iff_exists.mp <| by
    rw [(versioned.sound.vertex reached).result, isPhi]
    rfl
  onward := versioned.onward sound before
  cached _ _ noted := by simp [versioned.reach, fresh] at noted

end Versioned

namespace Graph

/-- Unreachable code writes no parameter. -/
def SparesParams (g : Graph) : Prop :=
  ∀ ⦃u x⦄, u ∈ g.listed → some x ∈ g.params → x ∈ (g.vertex u).targets → Reachable g.succs g.entry u

end Graph

/-- What the phis of the single assignment form reference is written once, unless it is a parameter that unreachable
code writes too: such code is not renamed. -/
theorem Stage.oneWriter {g : Graph} {src : VarId → VarId} {a : Analysis} (stage : Stage g src [] a) (inScope : g.Scoped)
    (entry : g.entry ∈ g.listed) (owned : ∀ {v}, g.contains v = true → v ∈ g.listed) (spares : g.SparesParams) :
    a.graph.OneWriter := by
  have versioned := stage.versioned
  intro phi y u v reached isPhi references containsU containsV writesU writesV
  have listedU := versioned.listed_of_contains owned containsU
  have listedV := versioned.listed_of_contains owned containsV
  have listedPhi := versioned.sound.wired.listed_of_reachable reached
  rcases versioned.joined listedPhi isPhi references listedU listedV writesU writesV with same | param
  · exact same
  · have known : y < g.vars.size := inScope g.entry entry y (Vertex.references_iff.mpr (.inr param))
    have live {w : VertexId} (listed : w ∈ a.graph.listed) (writes : y ∈ (a.graph.vertex w).targets) :
        Reachable a.graph.succs a.graph.entry w := by
      rcases versioned.listed.mp listed with member | ⟨new, inside⟩
      · have writesBefore : y ∈ (g.vertex w).targets := by
          rw [← (versioned.old member).targets]
          exact List.mem_map.mpr ⟨y, writes, versioned.srcOld known⟩
        exact versioned.expands.reachable (spares member param writesBefore)
      · exact (versioned.new new inside).2
    exact stage.once y (by simp) (live listedU writesU) (live listedV writesV) writesU writesV

end MiddleEnd
