import MiddleEnd.Graph.Components
import MiddleEnd.Proofs.Coalescing

/-!
Phis that only feed each other. Their components are made of the phis they were asked for
(`mem_of_mem_stronglyConnected`), and a cycle that is typed from outside had no type before
(`PhiElimination.typeCycle_succeeds`).
-/
namespace MiddleEnd

section components
variable {next succs preds : VertexId → List VertexId} {v : VertexId}

/-- What is gathered comes from the queue and the pool, and what is left from the pool. -/
theorem mem_gather (pool : VertexSet) (queue members : List VertexId) :
    (∀ v ∈ (gather next pool queue members).1, v ∈ members ∨ v ∈ queue ∨ v ∈ pool) ∧
      ∀ v ∈ (gather next pool queue members).2, v ∈ pool := by
  fun_induction gather next pool queue members with
  | case1 pool members => exact ⟨fun v member => .inl member, fun v member => member⟩
  | case2 pool members u queue fresh ih =>
    have old {v : VertexId} (member : v ∈ fresh.1) : v ∈ pool := (VertexSet.mem_takeFresh_rest.mp member).1
    have new {v : VertexId} (member : v ∈ fresh.2) : v ∈ pool := (VertexSet.mem_takeFresh_fresh.mp member).1
    refine ⟨fun v member => ?_, fun v member => old (ih.2 v member)⟩
    have := ih.1 v member
    simp only [List.mem_append, List.mem_cons] at this ⊢
    grind

theorem mem_of_mem_gatherAll {order : List VertexId} {pool : VertexSet} {component : List VertexId}
    (isComponent : component ∈ gatherAll next order pool) (member : v ∈ component) : v ∈ pool := by
  induction order generalizing pool with
  | nil => simp [gatherAll] at isComponent
  | cons leader order ih =>
    rw [gatherAll] at isComponent
    split at isComponent
    · rename_i inPool
      obtain ⟨gathered, left⟩ := @mem_gather next (pool.erase leader) [leader] []
      rcases List.mem_cons.mp isComponent with rfl | later
      · rcases gathered v member with old | isLeader | rest
        · simp at old
        · rwa [List.mem_singleton.mp isLeader]
        · exact (VertexSet.mem_erase.mp rest).1
      · exact (VertexSet.mem_erase.mp (left v (ih later))).1
    · exact ih isComponent

theorem mem_of_mem_stronglyConnected {vs component : List VertexId}
    (isComponent : component ∈ stronglyConnected vs succs preds) (member : v ∈ component) : v ∈ vs :=
  VertexSet.mem_ofList.mp (mem_of_mem_gatherAll isComponent member)

end components

namespace PhiElimination

variable {g h : Graph} {changed : Bool}

theorem anyTyped_succeeds {phis : List VertexId} {found : Bool} (done : (anyTyped phis).Succeeds g found h) :
    h = g ∧ (found = false → ∀ phi ∈ phis, ∀ r, (g.vertex phi).result = some r → Ty.isKnown (g.var r).type = false) := by
  induction phis with
  | nil =>
    obtain ⟨rfl, rfl⟩ := Action.pure_succeeds.mp done
    exact ⟨rfl, by simp⟩
  | cons phi phis ih =>
    rw [anyTyped, Action.get_bind_succeeds] at done
    obtain ⟨r, isResult, done⟩ := Action.need_bind_succeeds.mp done
    split at done
    · obtain ⟨rfl, rfl⟩ := Action.pure_succeeds.mp done
      exact ⟨rfl, by simp⟩
    · rename_i unknown
      obtain ⟨same, untyped⟩ := ih done
      refine ⟨same, fun no => List.forall_mem_cons.mpr ⟨fun r' isResult' => ?_, untyped no⟩⟩
      obtain rfl : r = r' := Option.some.inj (isResult.symm.trans isResult')
      simpa using unknown

/-- Results that are not typed better than `t` get the type `t`, as far as there are results. -/
theorem leaves_setTypes {phis : List VertexId} {t : Ty} {k : Graph}
    (wide : ∀ phi ∈ phis, ∀ r, (k.vertex phi).result = some r → Ty.Advances (k.var r).type (some t)) :
    (phis.forM fun phi => (do
      let result ← Action.need ((← get).vertex phi).result
      modify (·.setVarType result (some t)) : Action Graph Unit)).Leaves k (k.Refined · 0) := by
  induction phis generalizing k with
  | nil => exact .pure .refl
  | cons phi phis ih =>
    refine .bind (.get (.need .refl fun isResult => .modify (.setVarType (wide phi List.mem_cons_self _ isResult))))
      fun {_ k'} typed before => ?_
    rw [Action.get_bind_succeeds] at typed
    obtain ⟨r, isResult, typed⟩ := Action.need_bind_succeeds.mp typed
    obtain rfl := Action.modify_succeeds.mp typed
    refine (ih fun other member r' isResult' => ?_).mono before.trans
    rw [Graph.type_setVarType]
    split
    · exact .refl
    · exact wide other (List.mem_cons_of_mem _ member) r' isResult'

theorem kind_of_inboundType {inbound : List VarId} {t : Ty} (agree : inboundType? g inbound = some t) :
    t.kind ≠ .unknown := by
  unfold inboundType? at agree
  grind [Ty.kind_ne_unknown]

theorem typeCycle_succeeds {defs : PhiDefs} {cycle : List VertexId} (done : (typeCycle defs cycle).Succeeds g changed h) :
    (changed = false ∧ h = g) ∨ (changed = true ∧ ∃ phi ∈ cycle, Rule.Unified g h phi) := by
  have no {k : Graph} (done : (pure false : Action Graph Bool).Succeeds k changed h) (same : k = g) :
      changed = false ∧ h = g := by
    obtain ⟨rfl, rfl⟩ := Action.pure_succeeds.mp done
    exact ⟨rfl, same⟩
  rw [typeCycle] at done
  split at done
  · exact .inl (no done rfl)
  rename_i long
  obtain ⟨found, k, looked, after⟩ := Action.bind_succeeds.mp done
  clear done
  obtain ⟨rfl, untyped⟩ := anyTyped_succeeds looked
  split at after
  · exact .inl (no after rfl)
  rename_i notFound
  have untyped := untyped (by simpa using notFound)
  rw [Action.get_bind_succeeds] at after
  obtain ⟨inbound, _, after⟩ := Action.need_bind_succeeds.mp after
  split at after
  · exact .inl (no after rfl)
  · rename_i t agree
    have known := kind_of_inboundType agree
    obtain ⟨_, _, typed, after⟩ := Action.bind_succeeds.mp after
    obtain ⟨rfl, rfl⟩ := Action.pure_succeeds.mp after
    refine .inr ⟨rfl, ?_⟩
    cases cycle with
    | nil => simp at long
    | cons phi rest =>
      obtain ⟨k', first, rest⟩ := Action.forM_cons_succeeds.mp typed
      rw [Action.get_bind_succeeds] at first
      obtain ⟨r, isResult, first⟩ := Action.need_bind_succeeds.mp first
      obtain rfl := Action.modify_succeeds.mp first
      refine ⟨phi, List.mem_cons_self, r, t, isResult, untyped phi List.mem_cons_self r isResult, known, ?_⟩
      refine (leaves_setTypes fun other member r' isResult' => ?_).of_succeeds rest
      rw [Graph.type_setVarType]
      split
      · exact .refl
      · exact .of_unknown (untyped other (List.mem_cons_of_mem _ member) r' isResult')

/-- The cycles are typed one after the other, and they are made of phis. -/
theorem typeCycles_succeeds (done : typeCycles.Succeeds g changed h) :
    ∃ (defs : PhiDefs) (cycles : List (List VertexId)), (∀ cycle ∈ cycles, ∀ phi ∈ cycle, phi ∈ g.verticesOf .phi) ∧
      (cycles.foldlM (fun changed cycle => return (← typeCycle defs cycle) || changed) false).Succeeds g changed h := by
  simp only [typeCycles, Action.get_bind_succeeds] at done
  split at done
  · exact absurd done Action.not_fail_succeeds
  · rename_i defs _
    exact ⟨defs, _, fun cycle isComponent phi member => mem_of_mem_stronglyConnected isComponent member, done⟩

/-- Typing cycles changes types only. -/
theorem typeCycles_refined (done : typeCycles.Succeeds g changed h) : g.Refined h 0 := by
  obtain ⟨defs, cycles, _, done⟩ := typeCycles_succeeds done
  refine Action.foldlM_invariant (P := fun k => g.Refined k 0) .refl (fun cycle _ k changed k' before done => ?_) done
  rcases typeCycle_succeeds done with ⟨_, rfl⟩ | ⟨_, phi, _, unified⟩
  · exact before
  · exact before.trans unified.refined

theorem run_succeeds {s s' : Coalescing} (done : run.Succeeds s changed s') :
    ∃ (progress typed : Bool) (t : Coalescing),
      ((s.graph.verticesOf .phi).foldlM (fun progress phi => return (← resolve phi) || progress) false).Succeeds s progress t ∧
      typeCycles.Succeeds t.graph typed s'.graph ∧ changed = (progress || typed) := by
  rw [run, Action.get_bind_succeeds] at done
  obtain ⟨progress, t, resolved, done⟩ := Action.bind_succeeds.mp done
  obtain ⟨typed, t', onGraph, done⟩ := Action.bind_succeeds.mp done
  obtain ⟨rfl, rfl⟩ := Action.pure_succeeds.mp done
  obtain ⟨g, cycles, rfl⟩ := Action.on_succeeds.mp onGraph
  exact ⟨progress, typed, t, resolved, cycles, rfl⟩

end PhiElimination

end MiddleEnd
