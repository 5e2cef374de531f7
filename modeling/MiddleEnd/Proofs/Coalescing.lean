import MiddleEnd.Optimizer.PhiElimination
import MiddleEnd.Optimizer.Rules
import MiddleEnd.Proofs.Expansion
import MiddleEnd.Proofs.Refinement
import MiddleEnd.Proofs.Relabeling
import MiddleEnd.Proofs.Rewiring
import MiddleEnd.Proofs.SingleAssignment

/-!
Taking phis out. A phi is spliced out of its graph and the variables that it joined become one. Their writes are then
writes of one variable, so the graph is no longer in single assignment form; what stays is that it is coherent
(`Graph.Coalesced.coherent_after`), whatever phis were taken out before.
-/
namespace MiddleEnd

namespace Graph

variable {g h k : Graph} {src ρ : VarId → VarId} {phi s : VertexId} {past : List VertexId}

/-- Without a vertex that was spliced out, paths go on at its successor. -/
theorem Spliced.expands (spliced : g.Spliced h phi s) (wired : g.Wired) (notEntry : phi ≠ g.entry) :
    h.Expands g (· ≠ phi) where
  entry := spliced.entry.symm
  entry_kept := by simpa [spliced.entry] using Ne.symm notEntry
  edges {u} reached := by
    have inside : u ∈ g.listed ∧ u ≠ phi := by
      obtain ⟨past, trail⟩ := reached
      refine trail.invariant (P := fun u => u ∈ g.listed ∧ u ≠ phi) ?_ ?_
      · rw [spliced.entry]
        exact ⟨wired.entry_listed, Ne.symm notEntry⟩
      rintro u t ⟨listed, other⟩ edge
      have still := spliced.wired.succs_listed u (spliced.listed ▸ (List.mem_erase_of_ne other).mpr listed) t edge
      refine ⟨List.mem_of_mem_erase (spliced.listed ▸ still), ?_⟩
      rintro rfl
      exact notMem_turned spliced.other (spliced.succs listed other ▸ edge)
    rw [spliced.succs inside.1 inside.2, turned, List.forall₂_map_right_iff, List.forall₂_same]
    intro t _
    have stays : g.Leads (· ≠ phi) s s := .here (by simpa using Ne.symm spliced.other)
    split
    · rename_i isPhi
      subst isPhi
      exact .skip (by simp) spliced.only stays
    · rename_i other
      exact .here (by simpa using other)

/-- `h` is `g` without a phi, and with the variables that it joined renamed to one of them. -/
structure Coalesced (src ρ : VarId → VarId) (g h : Graph) (phi : VertexId) : Prop where
  entry : h.entry = g.entry
  exit : h.exit = g.exit
  size : h.store.size = g.store.size
  listed : h.listed = g.listed.erase phi
  epoch : g.epoch < h.epoch
  reach : h.reach = g.reach
  vars : h.vars.size = g.vars.size
  value : ∀ x, (h.var x).value = (g.var x).value
  wired : h.Wired
  expands : h.Expands g (· ≠ phi)
  gone : h.contains phi = false
  contains : ∀ {v}, v ≠ phi → h.contains v = g.contains v
  length : ∀ {v}, v ∈ g.listed → v ≠ phi → (h.succs v).length = (g.succs v).length
  vertex : ∀ {v}, v ∈ g.listed → v ≠ phi → (g.vertex v).Relabeled src ρ (h.vertex v)
  isPhi : g.op phi = .phi
  classes : ∀ y, src (ρ y) = src y
  joined : ∀ {a b}, (g.vertex phi).result = some b → (g.vertex phi).result = some a ∨ some a ∈ (g.vertex phi).args →
    ρ a = ρ b

namespace Coalesced

variable (coalesced : Coalesced src ρ g h phi) (wired : g.Wired) (coherent : g.Coherent src)
include coalesced

theorem reachable {v : VertexId} (reached : Reachable g.succs g.entry v) (other : v ≠ phi) :
    Reachable h.succs h.entry v :=
  coalesced.expands.reachable_of_kept reached (by simpa using other)

include wired coherent

/-- The last write of a class along a path is a renamed last write of the class along a path through the phi. -/
theorem exists_latest {u : VertexId} {c w : VarId} (trail : Trail g.succs g.entry past u)
    (last : h.latest (fun z => src z = c) (past.filter (· ≠ phi)) = some w) :
    ∃ y, g.latest (fun z => src z = c) past = some y ∧ ρ y = w := by
  induction trail with
  | start => simp at last
  | @step past v u before edge ih =>
    by_cases isPhi : v = phi
    · subst isPhi
      rw [List.filter_append] at last
      obtain ⟨y, latest, renamed⟩ := ih (by simpa using last)
      rw [latest_concat, Vertex.targets_of_op (by rw [← Graph.op, coalesced.isPhi]; simp)]
      cases result : (g.vertex v).result with
      | none => exact ⟨y, by simpa using latest, renamed⟩
      | some r =>
        by_cases inClass : src r = c
        · -- the phi joined what was written last
          subst inClass
          have joined := coherent.joins before coalesced.isPhi result latest
          have same := coalesced.joined result (joined.imp_left fun is => is ▸ result)
          exact ⟨r, by simp, same.symm.trans renamed⟩
        · exact ⟨y, by simpa [inClass] using latest, renamed⟩
    · have listed := wired.listed_of_reachable before.reachable
      have kept : [v].filter (· ≠ phi) = [v] := by simp [isPhi]
      rw [List.filter_append, kept] at last
      rw [latest_concat, (coalesced.vertex listed isPhi).targets, List.find?_map] at last
      have classes : ((fun z => decide (src z = c)) ∘ ρ) = fun z => decide (src z = c) :=
        funext fun z => by simp [coalesced.classes]
      rw [classes] at last
      rw [latest_concat]
      cases found : (g.vertex v).targets.find? (fun z => src z = c) with
      | some y =>
        refine ⟨y, by simp, ?_⟩
        simpa [found] using last
      | none =>
        obtain ⟨y, latest, renamed⟩ := ih (by simpa [found] using last)
        exact ⟨y, by simpa using latest, renamed⟩

/-- Taking a phi out keeps a graph coherent. -/
theorem coherent_after : h.Coherent src := by
  have lift {past : List VertexId} {u : VertexId} (trail : Trail h.succs h.entry past u) :
      ∃ past', Trail g.succs g.entry past' u ∧ past'.filter (· ≠ phi) = past ∧
        (g.vertex u).Relabeled src ρ (h.vertex u) := by
    obtain ⟨past', before, same⟩ := coalesced.expands.lift trail
    have other : u ≠ phi := by simpa using coalesced.expands.kept_of_reachable trail.reachable
    exact ⟨past', before, same, coalesced.vertex (wired.listed_of_reachable before.reachable) other⟩
  constructor
  · intro past u y w trail notPhi read last
    obtain ⟨past', before, rfl, relabeled⟩ := lift trail
    have notPhiBefore : g.op u ≠ .phi := fun isPhi => notPhi (relabeled.op.trans isPhi)
    have notFunction : (h.vertex u).op ≠ .function := by
      intro isFunction
      simp [Vertex.reads, isFunction] at read
    rw [Vertex.reads, if_neg notFunction, relabeled.args notPhiBefore, List.mem_map] at read
    obtain ⟨a, read, renamed⟩ := read
    obtain ⟨z, rfl, rfl⟩ := Option.map_eq_some_iff.mp renamed
    obtain ⟨w', latest, rfl⟩ := coalesced.exists_latest wired coherent before last
    rw [coalesced.classes] at latest
    have readBefore : some z ∈ (g.vertex u).reads := by
      rwa [Vertex.reads, if_neg (relabeled.op ▸ notFunction)]
    rw [coherent.reads before notPhiBefore readBefore latest]
  · intro past u r w trail isPhi result last
    obtain ⟨past', before, rfl, relabeled⟩ := lift trail
    have isPhiBefore : g.op u = .phi := relabeled.op.symm.trans isPhi
    rw [relabeled.result, Option.map_eq_some_iff] at result
    obtain ⟨r', result, rfl⟩ := result
    obtain ⟨w', latest, rfl⟩ := coalesced.exists_latest wired coherent before last
    rw [coalesced.classes] at latest
    have joined := coherent.joins before isPhiBefore result latest
    rcases relabeled.joins isPhiBefore (joined.imp_left fun is => is ▸ result) with isResult | isInput
    · rw [relabeled.result, result, Option.map_some, Option.some.injEq] at isResult
      exact .inl isResult.symm
    · exact .inr isInput
  · intro u r y reached isPhi result input
    obtain ⟨past, trail⟩ := reached
    obtain ⟨past', before, rfl, relabeled⟩ := lift trail
    have isPhiBefore : g.op u = .phi := relabeled.op.symm.trans isPhi
    rw [relabeled.result, Option.map_eq_some_iff] at result
    obtain ⟨r', result, rfl⟩ := result
    obtain ⟨b, mentioned, same⟩ := relabeled.inputs isPhiBefore input
    rw [same, coalesced.classes]
    rcases mentioned with isResult | isInput
    · rw [result, Option.some.injEq] at isResult
      rw [isResult]
    · exact coherent.inputs before.reachable isPhiBefore result isInput

end Coalesced

/-- Splicing a phi out and renaming what it joined to one variable takes the phi out. Types may change. -/
theorem coalesced_of_spliced {k' : Graph} (wired : g.Wired) (member : phi ∈ g.listed) (isPhi : g.op phi = .phi)
    (notEntry : phi ≠ g.entry) (only : g.succs phi = [s]) (other : phi ≠ s) (before : g.Retyped k)
    (after : (k.splice phi).Retyped k') (relabeled : Relabeled src ρ k' h) (classes : ∀ y, src (ρ y) = src y)
    (joined : ∀ {a b}, (g.vertex phi).result = some b →
      (g.vertex phi).result = some a ∨ some a ∈ (g.vertex phi).args → ρ a = ρ b) : Coalesced src ρ g h phi := by
  have spliced : k.Spliced (k.splice phi) phi s :=
    (before.wired wired).splice (before.listed ▸ member) (before.entry ▸ notEntry) (before.succs ▸ only) other
  have succs (v : VertexId) : h.succs v = (k.splice phi).succs v := (relabeled.succs v).trans (congrFun after.succs v)
  have body {v : VertexId} (isOther : v ≠ phi) : (k'.vertex v).body = (g.vertex v).body := by
    rw [after.vertex, spliced.body v isOther, before.vertex]
  exact {
    entry := by rw [relabeled.entry, after.entry, spliced.entry, before.entry]
    exit := by rw [relabeled.exit, after.exit, spliced.exit, before.exit]
    size := by rw [relabeled.size, after.store, spliced.size, before.store]
    listed := by rw [relabeled.listed, after.listed, spliced.listed, before.listed]
    epoch := by rw [relabeled.epoch, after.epoch, ← before.epoch]; exact spliced.epoch
    reach := by rw [relabeled.reach, after.reach, spliced.reach, before.reach]
    vars := by rw [relabeled.vars, after.vars, spliced.vars, before.vars]
    value := fun x => by
      rw [var, relabeled.vars, ← var, after.value, var, spliced.vars, ← var, before.value]
    wired := relabeled.wired (after.wired spliced.wired)
    expands := (spliced.expands (before.wired wired) (before.entry ▸ notEntry)).congr
      (by rw [relabeled.entry, after.entry]) succs before.entry.symm fun v => (congrFun before.succs v).symm
    gone := by
      rw [relabeled.contains, Graph.contains, after.vertex]
      exact spliced.gone
    contains := fun {v} isOther => by
      rw [relabeled.contains, Graph.contains, Graph.contains]
      exact (Vertex.body_eq_iff.mp (body isOther)).owned
    length := fun {v} listed isOther => by
      rw [succs, spliced.succs (before.listed ▸ listed) isOther, turned, List.length_map, before.succs]
    vertex := fun {v} listed isOther => by
      have member : v ∈ k'.listed := by
        rw [after.listed, spliced.listed, before.listed]
        exact (List.mem_erase_of_ne isOther).mpr listed
      exact (relabeled.vertex member).of_body (body isOther)
    isPhi := isPhi
    classes := classes
    joined := joined }

end Graph

/-! ### What the steps do -/

namespace PhiElimination

variable {g h : Graph} {phi : VertexId}

/-- That no constant was found means that all inputs are there. -/
theorem hasConstant_succeeds {args : List (Option VarId)} {found : Bool} (done : (hasConstant args).Succeeds g found h) :
    g = h ∧ (found = false → ∃ inputs : List VarId, args = inputs.map some) := by
  induction args with
  | nil =>
    obtain ⟨rfl, rfl⟩ := Action.pure_succeeds.mp done
    exact ⟨rfl, fun _ => ⟨[], rfl⟩⟩
  | cons a args ih =>
    simp only [hasConstant, Action.bind_succeeds, Action.need_succeeds, Action.get_succeeds] at done
    obtain ⟨x, _, ⟨rfl, rfl⟩, _, _, ⟨rfl, rfl⟩, done⟩ := done
    split at done
    · obtain ⟨rfl, rfl⟩ := Action.pure_succeeds.mp done
      exact ⟨rfl, by simp⟩
    · obtain ⟨same, all⟩ := ih done
      refine ⟨same, fun none => ?_⟩
      obtain ⟨inputs, rfl⟩ := all none
      exact ⟨x :: inputs, rfl⟩

/-- `h` is `g` with a phi spliced out, and its result in place of its inputs. -/
structure Eliminated (g h : Graph) (phi : VertexId) : Prop where
  isPhi : g.op phi = .phi
  contains : g.contains phi = true
  free : g.removeObstacle phi = none
  result : (g.vertex phi).args = [] ∨ ∃ r, (g.vertex phi).result = some r
  renamed : ∃ (inputs : List VarId) (k : Graph), (g.vertex phi).args = inputs.map some ∧ (g.splice phi).Refined k 0 ∧
    h = inputs.foldl (fun k y => k.replaceVariable (some y) (g.vertex phi).result) k

/-- A type that the inputs agree on is known. -/
theorem kind_of_winner {inputs : List VarId} {winner : Option Ty} (wins : winner? g inputs = some winner) :
    inputs = [] ∨ ∃ t, winner = some t ∧ t.kind ≠ .unknown := by
  unfold winner? at wins
  grind [Ty.kind_ne_unknown, List.isEmpty_iff]

theorem eliminate_succeeds {eliminated : Bool} (done : (eliminate phi).Succeeds g eliminated h) :
    (eliminated = false ∧ h = g) ∨ (eliminated = true ∧ Eliminated g h phi) := by
  simp only [eliminate, Action.get_bind_succeeds] at done
  split at done
  · obtain ⟨rfl, rfl⟩ := Action.pure_succeeds.mp done
    exact .inl ⟨rfl, rfl⟩
  rename_i belongs
  have belongs : (g.vertex phi).op = .phi ∧ (g.vertex phi).owned = true := by simpa using belongs
  obtain ⟨found, _, looked, done⟩ := Action.bind_succeeds.mp done
  obtain ⟨rfl, all⟩ := hasConstant_succeeds looked
  split at done
  · obtain ⟨rfl, rfl⟩ := Action.pure_succeeds.mp done
    exact .inl ⟨rfl, rfl⟩
  rename_i noConstant
  obtain ⟨inputs, args⟩ := all (by simpa using noConstant)
  rw [Action.get_bind_succeeds] at done
  split at done
  · obtain ⟨rfl, rfl⟩ := Action.pure_succeeds.mp done
    exact .inl ⟨rfl, rfl⟩
  rename_i winner wins
  obtain ⟨_, _, removed, done⟩ := Action.bind_succeeds.mp done
  obtain ⟨free, rfl⟩ := spliceOut_succeeds removed
  have renames {k : Graph} (refined : (g.splice phi).Refined k 0)
      (result : (g.vertex phi).args = [] ∨ ∃ r, (g.vertex phi).result = some r)
      (done : (do (g.vertex phi).args.forM fun input => modify (·.replaceVariable input (g.vertex phi).result)
                  return true : Action Graph Bool).Succeeds k eliminated h) :
      eliminated = true ∧ Eliminated g h phi := by
    obtain ⟨_, _, renamed, done⟩ := Action.bind_succeeds.mp done
    obtain rfl := Action.forM_modify_succeeds.mp renamed
    obtain ⟨rfl, rfl⟩ := Action.pure_succeeds.mp done
    exact ⟨rfl, belongs.1, belongs.2, free, result, inputs, k, args, refined, by rw [args, List.foldl_map]⟩
  right
  rcases kind_of_winner wins with isEmpty | ⟨t, rfl, known⟩
  · have noArgs : (g.vertex phi).args = [] := by simpa [args] using isEmpty
    obtain rfl : winner = none := by simpa [winner?, noArgs, eq_comm] using wins
    exact renames .refl (.inl noArgs) done
  · obtain ⟨r, isResult, done⟩ := Action.need_bind_succeeds.mp done
    rw [Action.get_bind_succeeds] at done
    split at done
    · rename_i less
      exact renames (.setVarType (.of_slack (Ty.slack_lt known less.2 less.1))) (.inr ⟨r, isResult⟩)
        (Action.modify_bind_succeeds.mp done)
    · exact renames .refl (.inr ⟨r, isResult⟩) done

theorem resolve_succeeds {s s' : Coalescing} {resolved : Bool}
    (done : (resolve phi).Succeeds s resolved s') : (eliminate phi).Succeeds s.graph resolved s'.graph := by
  rw [resolve] at done
  obtain ⟨eliminated, _, first, done⟩ := Action.bind_succeeds.mp done
  obtain ⟨g, ended, rfl⟩ := Action.on_succeeds.mp first
  split at done
  · rw [Action.modify_bind_succeeds] at done
    obtain ⟨rfl, rfl⟩ := Action.pure_succeeds.mp done
    exact ended
  · obtain ⟨rfl, rfl⟩ := Action.pure_succeeds.mp done
    exact ended

end PhiElimination

namespace Rule

variable {g h : Graph} {phi : VertexId}

/-- Giving a phi the type of its inputs may make the types of the inputs more precise too. -/
theorem unifyPhi_succeeds {w : Vertex} {result : VarId} {changed : Bool}
    (done : (unifyPhi w result).Succeeds g changed h) :
    (changed = false ∧ h = g) ∨
      (changed = true ∧ ∃ t : Ty, t.kind ≠ .unknown ∧ (g.setVarType result (some t)).Refined h 0) := by
  have narrowed {t : Ty} (known : t.kind ≠ .unknown) {xs : List VarId} {k : Graph} (done : (xs.forM fun x => (do
      if ((← get).var x).kind = .numeric then
        let _ ← refineType (some x) (some t) : Action Graph Unit)).Succeeds k ⟨⟩ h) : k.Refined h 0 := by
    induction xs generalizing k with
    | nil => exact Action.forM_nil_succeeds.mp done ▸ .refl
    | cons x xs ih =>
      obtain ⟨k', first, rest⟩ := Action.forM_cons_succeeds.mp done
      refine Graph.Refined.trans ?_ (ih rest)
      rw [Action.get_bind_succeeds] at first
      split at first
      · obtain ⟨_, _, refined, same⟩ := Action.bind_succeeds.mp first
        obtain ⟨_, rfl⟩ := Action.pure_succeeds.mp same
        rcases refineType_succeeds refined with ⟨_, rfl⟩ | ⟨_, y, _, _, ⟨⟩, refinable, other, rfl⟩
        · exact .refl
        · exact .setVarType (.of_slack (Ty.slack_lt known refinable other))
      · obtain ⟨_, rfl⟩ := Action.pure_succeeds.mp first
        exact .refl
  rw [unifyPhi] at done
  obtain ⟨inputs, _, done⟩ := Action.need_bind_succeeds.mp done
  simp only [Action.get_bind_succeeds] at done
  have no (done : (pure false : Action Graph Bool).Succeeds g changed h) : changed = false ∧ h = g := by
    obtain ⟨rfl, rfl⟩ := Action.pure_succeeds.mp done
    exact ⟨rfl, rfl⟩
  have yes {t : Ty} (known : t.kind ≠ .unknown)
      (done : (do modify (·.setVarType result (some t)); return true : Action Graph Bool).Succeeds g changed h) :
      changed = true ∧ ∃ t : Ty, t.kind ≠ .unknown ∧ (g.setVarType result (some t)).Refined h 0 := by
    rw [Action.modify_bind_succeeds] at done
    obtain ⟨rfl, rfl⟩ := Action.pure_succeeds.mp done
    exact ⟨rfl, t, known, .refl⟩
  split at done
  · split at done
    · exact .inl (no done)
    · exact .inr (yes (Ty.kind_ne_unknown ‹_›) done)
  · split at done
    · exact .inl (no done)
    · rename_i t _
      split at done
      · rename_i number
        have known : t.kind ≠ .unknown := by rcases number with rfl | rfl <;> simp [Ty.kind]
        rw [Action.modify_bind_succeeds] at done
        obtain ⟨_, _, rest, done⟩ := Action.bind_succeeds.mp done
        obtain ⟨rfl, rfl⟩ := Action.pure_succeeds.mp done
        exact .inr ⟨rfl, t, known, narrowed known rest⟩
      · split at done
        · rename_i isBool
          exact .inr (yes (by simp [isBool, Ty.kind]) done)
        · exact .inl (no done)

/-- `h` is `g` with a type for the untyped result of a phi. -/
structure Unified (g h : Graph) (phi : VertexId) : Prop where
  typed : ∃ (result : VarId) (t : Ty), (g.vertex phi).result = some result ∧ Ty.isKnown (g.var result).type = false ∧
    t.kind ≠ .unknown ∧ (g.setVarType result (some t)).Refined h 0

theorem Unified.refined (unified : Unified g h phi) : g.Refined h 0 := by
  obtain ⟨result, t, _, unknown, _, refined⟩ := unified.typed
  exact Graph.Refined.trans (.setVarType (.of_unknown unknown)) refined

/-- `h` is `g` with a phi spliced out that had one input, and the input in place of its result. -/
structure Simplified (g h : Graph) (phi : VertexId) : Prop where
  isPhi : g.op phi = .phi
  renamed : ∃ (result input : VarId) (k : Graph), (g.vertex phi).result = some result ∧
    (g.vertex phi).args = [some input] ∧ g.Refined k 0 ∧ k.removeObstacle phi = none ∧
    h = (k.splice phi).replaceVariable (some result) (some input)

theorem simplifyPhi_succeeds {changed : Bool} (done : (simplifyPhi phi).Succeeds g changed h) :
    (changed = false ∧ h = g) ∨ (changed = true ∧ (Unified g h phi ∨ Simplified g h phi)) := by
  simp only [simplifyPhi, Action.get_bind_succeeds] at done
  split at done
  · obtain ⟨rfl, rfl⟩ := Action.pure_succeeds.mp done
    exact .inl ⟨rfl, rfl⟩
  rename_i isPhi
  obtain ⟨result, isResult, done⟩ := Action.need_bind_succeeds.mp done
  rw [Action.ite_bind_succeeds] at done
  obtain ⟨unified, k, typed, done⟩ := Action.bind_succeeds.mp done
  have typed : (unified = false ∧ k = g) ∨ (unified = true ∧ Unified g k phi) := by
    split at typed
    · obtain ⟨rfl, rfl⟩ := Action.pure_succeeds.mp typed
      exact .inl ⟨rfl, rfl⟩
    · rename_i unknown
      rcases unifyPhi_succeeds typed with same | ⟨rfl, t, known, refined⟩
      · exact .inl same
      · exact .inr ⟨rfl, result, t, isResult, by simpa using unknown, known, refined⟩
  split at done
  · rename_i only
    obtain ⟨input, isInput, done⟩ := Action.need_bind_succeeds.mp done
    rw [Action.get_bind_succeeds] at done
    rw [isInput] at only
    have spliced {k' : Graph} (refined : g.Refined k' 0)
        (done : (do spliceOut phi; modify (·.replaceVariable (some result) (some input)); return true :
          Action Graph Bool).Succeeds k' changed h) : changed = true ∧ Simplified g h phi := by
      obtain ⟨_, _, removed, done⟩ := Action.bind_succeeds.mp done
      obtain ⟨free, rfl⟩ := spliceOut_succeeds removed
      rw [Action.modify_bind_succeeds] at done
      obtain ⟨rfl, rfl⟩ := Action.pure_succeeds.mp done
      exact ⟨rfl, Decidable.of_not_not isPhi, result, input, k', isResult, only, refined, free, rfl⟩
    have refined : g.Refined k 0 := by
      rcases typed with ⟨_, rfl⟩ | ⟨_, unified⟩
      · exact .refl
      · exact unified.refined
    refine .inr (And.imp_right .inr ?_)
    split at done
    · rename_i untyped
      rw [Action.set_bind_succeeds] at done
      obtain ⟨⟨unknown, _⟩, _⟩ : (Ty.isKnown (k.var input).type = false ∧ Ty.isKnown (k.var result).type = true) ∧
          (k.var input).isConst = false := by simpa using untyped
      exact spliced (refined.trans (.setVarType (.of_unknown unknown))) done
    · exact spliced refined done
  · obtain ⟨rfl, rfl⟩ := Action.pure_succeeds.mp done
    exact typed.imp_right (And.imp_right .inl)

end Rule

/-! ### Steps take phis out -/

namespace Graph

variable {g h : Graph} {src : VarId → VarId} {phi s : VertexId} {r : VarId}

section
variable (wired : g.Wired) (member : phi ∈ g.listed) (only : g.succs phi = [s]) (other : phi ≠ s)
  (sameClass : ∀ {r y}, (g.vertex phi).result = some r → some y ∈ (g.vertex phi).args → src y = src r)
include wired member only other sameClass

theorem coalesced_of_eliminated (result : (g.vertex phi).result = some r)
    (eliminated : PhiElimination.Eliminated g h phi) : ∃ ρ, Coalesced src ρ g h phi := by
  obtain ⟨inputs, k, args, ⟨retyped, _⟩, rfl⟩ := eliminated.renamed
  have mem_args {y : VarId} : some y ∈ (g.vertex phi).args ↔ y ∈ inputs := by simp [args]
  have same : ∀ y ∈ inputs, src y = src r := fun y input => sameClass result (mem_args.mpr input)
  have notEntry := (ne_ends_of_removeObstacle eliminated.free).1
  have inside : ∀ v ∈ k.listed, v < k.store.size :=
    (retyped.wired (wired.splice member notEntry only other).wired).listed_lt
  rw [result]
  refine ⟨mergeInto inputs r, coalesced_of_spliced wired member eliminated.isPhi notEntry only other .refl retyped
    (relabeled_mergeInto same inside) (source_mergeInto same) ?_⟩
  intro a b isResult mentioned
  obtain rfl : r = b := by simpa [result] using isResult
  rw [mergeInto_target]
  rcases mentioned with isResult | isInput
  · obtain rfl : r = a := by simpa [result] using isResult
    exact mergeInto_target _ _
  · exact mergeInto_of_mem (mem_args.mp isInput)

theorem coalesced_of_simplified (simplified : Rule.Simplified g h phi) :
    ∃ result input, (g.vertex phi).result = some result ∧ (g.vertex phi).args = [some input] ∧
      Coalesced src (mergeInto [result] input) g h phi := by
  obtain ⟨result, input, k, isResult, args, ⟨retyped, _⟩, free, rfl⟩ := simplified.renamed
  have same : src result = src input := (sameClass isResult (by simp [args])).symm
  obtain ⟨notEntry, _⟩ := ne_ends_of_removeObstacle free
  rw [retyped.entry] at notEntry
  have spliced := (retyped.wired wired).splice (retyped.listed ▸ member) (retyped.entry ▸ notEntry)
    (retyped.succs ▸ only) other
  have classes : ∀ y, src (mergeInto [result] input y) = src y := source_mergeInto (by simpa using same)
  refine ⟨result, input, isResult, args, coalesced_of_spliced wired member simplified.isPhi notEntry only other retyped .refl
    (relabeled_replaceVariable same spliced.wired.listed_lt) classes ?_⟩
  intro a b isResult' mentioned
  obtain rfl : result = b := by simpa [isResult] using isResult'
  rw [mergeInto_of_mem List.mem_cons_self]
  rcases mentioned with isResult' | isInput
  · obtain rfl : result = a := by simpa [isResult] using isResult'
    exact mergeInto_of_mem List.mem_cons_self
  · obtain rfl : a = input := by simpa [args] using isInput
    exact mergeInto_target _ _

end

end Graph

end MiddleEnd
