import MiddleEnd.SingleAssignment
import MiddleEnd.Proofs.Integrity
import MiddleEnd.Proofs.Liveness

/-!
Where phis are needed. The sites of a variable are the entry, its writes and the labels that get a phi. The
labels are chosen so that wherever the variable is live and no phi stands, every path arrives from the same last
site (`SitesClosed.unique`): the frontiers are closed, so the last site dominates the vertex, and two sites that each
dominate the other are one.
-/
namespace MiddleEnd

/-! ### The last site on a path -/

/-- The last vertex of a path that is a site. -/
def lastSite (site : VertexId → Bool) (past : List VertexId) : Option VertexId :=
  past.reverse.find? site

section
variable {site : VertexId → Bool} {past : List VertexId} {d v : VertexId}

@[simp] theorem lastSite_nil : lastSite site [] = none := rfl

theorem lastSite_concat : lastSite site (past ++ [v]) = if site v then some v else lastSite site past := by
  simp only [lastSite, List.reverse_append, List.reverse_singleton, List.singleton_append, List.find?_cons]
  cases site v <;> rfl

theorem lastSite_eq_some_iff : lastSite site past = some d ↔
    site d = true ∧ ∃ before later, past = before ++ d :: later ∧ ∀ w ∈ later, site w = false := by
  rw [lastSite, List.find?_eq_some_iff_append]
  constructor
  · rintro ⟨holds, later, before, whole, none⟩
    refine ⟨holds, before.reverse, later.reverse, ?_, ?_⟩
    · rw [← List.reverse_reverse past, whole]
      simp
    · intro w member
      simpa using none w (List.mem_reverse.mp member)
  · rintro ⟨holds, before, later, rfl, none⟩
    refine ⟨holds, later.reverse, before.reverse, by simp, ?_⟩
    intro w member
    simpa using none w (List.mem_reverse.mp member)

theorem lastSite_isSome (holds : site d = true) (passed : d ∈ past) : (lastSite site past).isSome = true := by
  rw [lastSite, List.find?_isSome]
  exact ⟨d, by simpa using passed, holds⟩

end

/-! ### Closed sets of sites -/

section
variable {next : VertexId → List VertexId} {root u : VertexId} {site join : VertexId → Bool}

/-- Leaving what a site dominates needs a join. -/
def SitesClosed (next : VertexId → List VertexId) (root : VertexId) (site join : VertexId → Bool) : Prop :=
  ∀ d p w, site d = true → Reachable next root p → Dominates next root d p → w ∈ next p → join w = false →
    d ≠ w ∧ Dominates next root d w

/-- A path from a site that meets no other one stays inside what the site dominates. -/
theorem SitesClosed.dominates (closed : SitesClosed next root site join) (joins : ∀ v, join v = true → site v = true)
    {d : VertexId} {later : List VertexId} (isSite : site d = true) (reached : Reachable next root d)
    (trail : Trail next d (d :: later) u) (free : ∀ w ∈ later, site w = false) (noJoin : join u = false) :
    d ≠ u ∧ Dominates next root d u := by
  generalize whole : d :: later = past at trail
  induction trail generalizing later with
  | start => simp at whole
  | @step past p u trail edge ih =>
    rcases List.eq_nil_or_concat later with rfl | ⟨later, last, rfl⟩
    · obtain ⟨rfl, same⟩ := List.append_inj' (show [] ++ [d] = past ++ [p] from whole) rfl
      obtain rfl : d = p := by simpa using same
      exact closed d d u isSite reached .refl edge noJoin
    · rw [List.concat_eq_append, ← List.cons_append] at whole
      obtain ⟨front, same⟩ := List.append_inj' whole rfl
      obtain rfl : last = p := by simpa using same
      have free' : ∀ w ∈ later, site w = false := fun w member => free w (by simp [member])
      have noSite : site last = false := free last (by simp)
      have noJoin' : join last = false := by
        cases is : join last with
        | false => rfl
        | true => exact absurd (joins last is) (by simp [noSite])
      have inside := ih free' noJoin' front
      exact closed d last u isSite (reached.trans trail.reachable) inside.2 edge noJoin

/-- Where no join is, all paths have the same last site. -/
theorem SitesClosed.unique (closed : SitesClosed next root site join) (joins : ∀ v, join v = true → site v = true)
    {past past' : List VertexId} {d d' : VertexId} (trail : Trail next root past u) (trail' : Trail next root past' u)
    (noJoin : join u = false) (last : lastSite site past = some d) (last' : lastSite site past' = some d') :
    d = d' := by
  obtain ⟨isSite, before, later, rfl, free⟩ := lastSite_eq_some_iff.mp last
  obtain ⟨isSite', before', later', rfl, free'⟩ := lastSite_eq_some_iff.mp last'
  obtain ⟨toD, fromD⟩ := trail.split
  obtain ⟨toD', fromD'⟩ := trail'.split
  have dom := closed.dominates joins isSite toD.reachable fromD free noJoin
  have dom' := closed.dominates joins isSite' toD'.reachable fromD' free' noJoin
  -- a path to one site goes on to `u`, where it must have passed the other site, and not on the way from the first
  have across : ∀ {a b : VertexId} {rest : List VertexId}, site a = true → a ≠ u → Dominates next root a u →
      Trail next b (b :: rest) u → (∀ w ∈ rest, site w = false) → Dominates next root a b := by
    intro a b rest isA other domA fromB freeB q toB
    rcases domA _ (toB.trans fromB) with passed | same
    · rcases List.mem_append.mp passed with early | late
      · exact .inl early
      · rcases List.mem_cons.mp late with rfl | later
        · exact .inr rfl
        · exact absurd isA (by simp [freeB a later])
    · exact absurd same other
  exact Dominates.antisymm toD.reachable (across isSite dom.1 dom.2 fromD' free')
    (across isSite' dom'.1 dom'.2 fromD free)

end

/-! ### Iterated frontiers -/

namespace VertexSet

variable {pool : VertexSet} {ws : List VertexId} {v : VertexId}

theorem mem_takeFresh_rest : v ∈ (pool.takeFresh ws).1 ↔ v ∈ pool ∧ v ∉ ws := by
  induction ws generalizing pool with
  | nil => simp [takeFresh]
  | cons w ws ih =>
    by_cases member : w ∈ pool
    · simp only [takeFresh, member, ↓reduceIte, ih, mem_erase, List.mem_cons, not_or]
      grind
    · simp only [takeFresh, member, ↓reduceIte, ih, List.mem_cons, not_or]
      grind

theorem mem_takeFresh_fresh : v ∈ (pool.takeFresh ws).2 ↔ v ∈ pool ∧ v ∈ ws := by
  induction ws generalizing pool with
  | nil => simp [takeFresh]
  | cons w ws ih =>
    by_cases member : w ∈ pool
    · simp only [takeFresh, member, ↓reduceIte, ih, mem_erase, List.mem_cons]
      grind
    · simp only [takeFresh, member, ↓reduceIte, ih, List.mem_cons]
      grind

end VertexSet

section
variable {frontier : VertexId → List VertexId} {start pool : VertexSet} {work found : List VertexId}

/-- What the iteration keeps true: everything that left the pool was found, and the frontier of a vertex that was
looked at is out of the pool. -/
structure FrontierInvariant (frontier : VertexId → List VertexId) (start pool : VertexSet)
    (seeds work found : List VertexId) : Prop where
  taken : ∀ w ∈ start, w ∉ pool → w ∈ found
  looked : ∀ d, d ∈ seeds ∨ d ∈ found → d ∈ work ∨ ∀ w ∈ frontier d, w ∉ pool

theorem FrontierInvariant.step {seeds : List VertexId} {v : VertexId}
    (inv : FrontierInvariant frontier start pool seeds (v :: work) found) :
    FrontierInvariant frontier start (pool.takeFresh (frontier v)).1 seeds
      ((pool.takeFresh (frontier v)).2.reverse ++ work) (found ++ (pool.takeFresh (frontier v)).2) := by
  refine ⟨?_, ?_⟩
  · intro w member gone
    by_cases before : w ∈ pool
    · by_cases taken : w ∈ frontier v
      · exact List.mem_append_right _ (VertexSet.mem_takeFresh_fresh.mpr ⟨before, taken⟩)
      · exact absurd (VertexSet.mem_takeFresh_rest.mpr ⟨before, taken⟩) gone
    · exact List.mem_append_left _ (inv.taken w member before)
  · intro d isSeed
    have known : (d ∈ seeds ∨ d ∈ found) ∨ d ∈ (pool.takeFresh (frontier v)).2 := by
      rcases isSeed with seed | member
      · exact .inl (.inl seed)
      · rcases List.mem_append.mp member with earlier | fresh
        · exact .inl (.inr earlier)
        · exact .inr fresh
    rcases known with earlier | fresh
    · rcases inv.looked d earlier with waiting | done
      · rcases List.mem_cons.mp waiting with rfl | later
        · exact .inr fun w member kept => (VertexSet.mem_takeFresh_rest.mp kept).2 member
        · exact .inl (List.mem_append_right _ later)
      · exact .inr fun w member kept => done w member (VertexSet.mem_takeFresh_rest.mp kept).1
    · exact .inl (List.mem_append_left _ (List.mem_reverse.mpr fresh))

/-- What is found is closed under frontiers. -/
theorem iteratedFrontier_closed {seeds : List VertexId}
    (inv : FrontierInvariant frontier start pool seeds work found) {d w : VertexId}
    (known : d ∈ seeds ∨ d ∈ iteratedFrontier frontier pool work found) (member : w ∈ frontier d) (inside : w ∈ start) :
    w ∈ iteratedFrontier frontier pool work found := by
  fun_induction iteratedFrontier frontier pool work found with
  | case1 pool found =>
    rcases inv.looked d known with waiting | done
    · simp at waiting
    · exact inv.taken w inside (done w member)
  | case2 pool found v work fresh ih => exact ih inv.step known

/-- What is found was there, or is in the frontier of something. -/
theorem mem_iteratedFrontier {w : VertexId} (member : w ∈ iteratedFrontier frontier pool work found) :
    w ∈ found ∨ ∃ d, w ∈ frontier d := by
  fun_induction iteratedFrontier frontier pool work found with
  | case1 pool found => exact .inl member
  | case2 pool found v work fresh ih =>
    rcases ih member with earlier | ⟨d, inFrontier⟩
    · rcases List.mem_append.mp earlier with earlier | new
      · exact .inl earlier
      · exact .inr ⟨v, (VertexSet.mem_takeFresh_fresh.mp new).2⟩
    · exact .inr ⟨d, inFrontier⟩

end

/-! ### The chosen labels -/

namespace Dominators

/-- Dominators that answer for a graph as it is, whenever they were computed. -/
structure Faithful (d : Dominators) (g : Graph) : Prop where
  forward : d.reversed = false
  tracked : ∀ {v}, d.isTracked v = true ↔ Reachable g.succs g.entry v
  dominated : ∀ {v c}, d.dominatedBy v c = true ↔
    Reachable g.succs g.entry v ∧ Dominates g.succs g.entry c v

theorem faithful_ofGraph {g : Graph} (wired : g.Wired) : (ofGraph g g.entry false).Faithful g := by
  have agree : g.EdgesAgreeFrom false g.entry := by
    intro u reached
    have listed := wired.listed_of_reachable reached
    refine ⟨fun s edge => ?_, fun p edge _ => ?_⟩
    · have target := wired.succs_listed u listed s edge
      exact ⟨wired.listed_lt s target, (wired.mem_preds_iff listed target).mp edge⟩
    · exact (wired.mem_preds_iff (wired.preds_listed u listed p edge) listed).mpr edge
  exact ⟨rfl, isTracked_iff agree, dominatedBy_iff agree (wired.listed_lt _ wired.entry_listed)⟩

/-- The answers only depend on the edges. -/
theorem Faithful.congr {d : Dominators} {g h : Graph} (faithful : d.Faithful g) (entry : h.entry = g.entry)
    (succs : ∀ v, h.succs v = g.succs v) : d.Faithful h := by
  have same : h.succs = g.succs := funext succs
  refine ⟨faithful.forward, ?_, ?_⟩
  · rw [entry, same]
    exact faithful.tracked
  · rw [entry, same]
    exact faithful.dominated

/-- An edge that leaves what `v` strictly dominates ends in the frontier of `v`. -/
theorem Faithful.mem_frontier {d : Dominators} {g : Graph} (faithful : d.Faithful g) (wired : g.Wired)
    {v p w : VertexId} (reached : Reachable g.succs g.entry p) (dom : Dominates g.succs g.entry v p)
    (edge : w ∈ g.succs p) (out : ¬ (v ≠ w ∧ Dominates g.succs g.entry v w)) : w ∈ d.frontier g v := by
  have reachedW := reached.step edge
  have listed := wired.listed_of_reachable reachedW
  have back : p ∈ g.preds w := (wired.mem_preds_iff (wired.listed_of_reachable reached) listed).mp edge
  have notStrict : d.strictlyDominatedBy w v = false := by
    rw [strictlyDominatedBy, Bool.and_eq_false_iff]
    by_cases same : w = v
    · exact .inl (by simp [same])
    · refine .inr (Bool.eq_false_iff.mpr fun dominated => ?_)
      exact out ⟨Ne.symm same, (faithful.dominated.mp dominated).2⟩
  refine Dominators.mem_frontier.mpr ⟨faithful.tracked.mpr (dom.reachable reached), listed, faithful.tracked.mpr reachedW,
    notStrict, p, ?_, faithful.dominated.mpr ⟨reached, dom⟩⟩
  simpa [Graph.against, faithful.forward] using back

theorem Faithful.reachable_of_mem_frontier {d : Dominators} {g : Graph} (faithful : d.Faithful g) {v w : VertexId}
    (member : w ∈ d.frontier g v) : Reachable g.succs g.entry w := by
  obtain ⟨_, _, tracked, _⟩ := Dominators.mem_frontier.mp member
  exact faithful.tracked.mp tracked

end Dominators

namespace Graph

variable {g : Graph} {x : VarId} {labels : List VertexId}

/-- What a successful choice of labels has looked at. -/
theorem labelsFor_ok {ws : List VertexId} (chosen : g.labelsFor x ws = .ok labels) :
    (∀ w ∈ ws, g.op w = .finish ∨ g.op w = .label ∧ (g.liveAt w x = true → w ∈ labels)) ∧
    ∀ l ∈ labels, l ∈ ws ∧ g.op l = .label ∧ g.liveAt l x = true := by
  induction ws generalizing labels with
  | nil =>
    obtain rfl : [] = labels := by simpa [labelsFor] using chosen
    simp
  | cons w ws ih =>
    rw [labelsFor] at chosen
    split at chosen
    · rename_i isFinish
      obtain ⟨seen, sound⟩ := ih chosen
      refine ⟨?_, fun l member => ⟨List.mem_cons_of_mem _ (sound l member).1, (sound l member).2⟩⟩
      intro v member
      rcases List.mem_cons.mp member with rfl | later
      · exact .inl isFinish
      · exact seen v later
    · rename_i isLabel
      cases rest : g.labelsFor x ws with
      | error why => simp [rest, bind, Except.bind] at chosen
      | ok more =>
        obtain ⟨seen, sound⟩ := ih rest
        have which : labels = if g.liveAt w x then w :: more else more := by
          rw [rest] at chosen
          exact (Except.ok.inj chosen).symm
        refine ⟨?_, ?_⟩
        · intro v member
          rcases List.mem_cons.mp member with rfl | later
          · exact .inr ⟨isLabel, fun live => by simp [which, live]⟩
          · refine (seen v later).imp_right fun ⟨isLabel, kept⟩ => ⟨isLabel, fun live => ?_⟩
            rw [which]
            split
            · exact List.mem_cons_of_mem _ (kept live)
            · exact kept live
        · intro l member
          rw [which] at member
          have here : l ∈ more ∨ l = w ∧ g.liveAt w x = true := by
            split at member
            · rename_i live
              exact (List.mem_cons.mp member).symm.imp_right fun same => ⟨same, live⟩
            · exact .inl member
          rcases here with later | ⟨rfl, live⟩
          · exact ⟨List.mem_cons_of_mem _ (sound l later).1, (sound l later).2⟩
          · exact ⟨List.mem_cons_self, isLabel, live⟩
    · simp at chosen

/-- Where the value of `x` may change: at the entry, at its writes, and where it gets a phi. -/
def isSite (g : Graph) (x : VarId) (labels : List VertexId) (v : VertexId) : Bool :=
  v = g.entry || (g.vertex v).writesVar (some x) || labels.contains v

theorem isSite_iff {v : VertexId} : g.isSite x labels v = true ↔
    v = g.entry ∨ (g.vertex v).writesVar (some x) = true ∨ v ∈ labels := by
  simp [isSite, or_assoc]

theorem isSite_eq_false_iff {v : VertexId} : g.isSite x labels v = false ↔
    v ≠ g.entry ∧ (g.vertex v).writesVar (some x) = false ∧ v ∉ labels := by
  simp [isSite, and_assoc]

/-- What the labels for the phis of `x` are good for. -/
structure Placed (g : Graph) (x : VarId) (labels : List VertexId) : Prop where
  label : ∀ l ∈ labels, g.op l = .label
  reachable : ∀ l ∈ labels, Reachable g.succs g.entry l
  live : ∀ l ∈ labels, g.Live x l
  unique : ∀ {past past' u}, Trail g.succs g.entry past u → Trail g.succs g.entry past' u → g.Live x u →
    u ∉ labels → lastSite (g.isSite x labels) past = lastSite (g.isSite x labels) past'

variable {d : Dominators}

/-- The sites that take in the whole iterated frontier, live or not, are closed. -/
theorem sitesClosed_iteratedFrontier (sound : g.Sound) (faithful : d.Faithful g) :
    let found := iteratedFrontier (d.frontier g) (VertexSet.below g.store.size) (g.definitions (some x)).reverse []
    SitesClosed g.succs g.entry (g.isSite x found) found.contains := by
  intro found v p w isSite reached dom edge noJoin
  have begins : FrontierInvariant (d.frontier g) (VertexSet.below g.store.size) (VertexSet.below g.store.size)
      (g.definitions (some x)) (g.definitions (some x)).reverse [] :=
    ⟨fun w member gone => absurd member gone, fun d known => .inl (by simpa using known)⟩
  have listed : p ∈ g.listed := sound.wired.listed_of_reachable reached
  have caught (known : v ∈ g.definitions (some x) ∨ v ∈ found) : v ≠ w ∧ Dominates g.succs g.entry v w := by
    by_cases inside : v ≠ w ∧ Dominates g.succs g.entry v w
    · exact inside
    · have joined : w ∈ found := iteratedFrontier_closed begins known
        (faithful.mem_frontier sound.wired reached dom edge inside)
        (VertexSet.mem_below.mpr (sound.wired.lt_of_reachable (reached.step edge)))
      exact absurd joined (by simpa using noJoin)
  rcases isSite_iff.mp isSite with rfl | writes | joined
  · exact ⟨fun same => sound.entry_notMem_succs listed (same ▸ edge), .of_root⟩
  · refine caught (.inl (List.mem_filter.mpr ⟨?_, writes⟩))
    exact sound.wired.listed_of_reachable (dom.reachable reached)
  · exact caught (.inr joined)

/-- Nothing is live at the exit. -/
theorem Sound.not_live_finish (sound : g.Sound) {v : VertexId} (member : v ∈ g.listed) (last : g.op v = .finish) :
    ¬ g.Live x v := by
  rintro ⟨past, u, trail, reads, _⟩
  have vertex := sound.vertices v member
  have none : (g.vertex v).args = [] := vertex.args_eq_nil (by rw [last]; rfl)
  have stays : u = v := by
    refine trail.invariant (P := (· = v)) rfl fun u s same edge => ?_
    rw [same, vertex.succs_eq_nil last] at edge
    simp at edge
  rw [stays] at reads
  simp [Vertex.readsVar, Vertex.reads, none] at reads

/-- The last site among all of the iterated frontier gets a phi if it needs one: the variable is live there. -/
theorem lastSite_of_iteratedFrontier {found past : List VertexId} {u v : VertexId}
    (marked : ∀ w ∈ found, g.Live x w → w ∈ labels) (subset : ∀ l ∈ labels, l ∈ found)
    (trail : Trail g.succs g.entry past u) (live : g.Live x u)
    (last : lastSite (g.isSite x found) past = some v) : lastSite (g.isSite x labels) past = some v := by
  obtain ⟨isSite, before, later, rfl, free⟩ := lastSite_eq_some_iff.mp last
  refine lastSite_eq_some_iff.mpr ⟨isSite_iff.mpr ?_, before, later, rfl, fun w member => ?_⟩
  · by_cases writes : (g.vertex v).writesVar (some x) = true
    · exact .inr (.inl writes)
    · rcases isSite_iff.mp isSite with atEntry | writes' | joined
      · exact .inl atEntry
      · exact absurd writes' writes
      · refine .inr (.inr (marked v joined (live.of_trail trail.split.2 fun w member => ?_)))
        rcases List.mem_cons.mp member with rfl | inLater
        · simpa using writes
        · exact (isSite_eq_false_iff.mp (free w inLater)).2.1
  · obtain ⟨inner, silent, unfound⟩ := isSite_eq_false_iff.mp (free w member)
    exact isSite_eq_false_iff.mpr ⟨inner, silent, fun isLabel => unfound (subset w isLabel)⟩

/-- What is found by iterating frontiers can be reached. -/
theorem reachable_of_mem_iteratedFrontier (faithful : d.Faithful g) {pool : VertexSet} {work : List VertexId} {w : VertexId}
    (member : w ∈ iteratedFrontier (d.frontier g) pool work []) : Reachable g.succs g.entry w := by
  rcases mem_iteratedFrontier member with none | ⟨v, inFrontier⟩
  · simp at none
  · exact faithful.reachable_of_mem_frontier inFrontier

/-- The chosen labels are where phis are needed. -/
theorem placed_of_phiLabels (sound : g.Sound) (faithful : d.Faithful g)
    (chosen : g.phiLabels d x (g.definitions (some x)) = .ok labels) : g.Placed x labels := by
  have closed := sitesClosed_iteratedFrontier (x := x) sound faithful
  have reached (w : VertexId) (member : w ∈ iteratedFrontier (d.frontier g) (VertexSet.below g.store.size)
      (g.definitions (some x)).reverse []) : Reachable g.succs g.entry w := reachable_of_mem_iteratedFrontier faithful member
  rw [phiLabels] at chosen
  generalize iteratedFrontier (d.frontier g) (VertexSet.below g.store.size) (g.definitions (some x)).reverse []
    = found at closed reached chosen
  obtain ⟨seen, marked⟩ := labelsFor_ok chosen
  have live (w : VertexId) (member : w ∈ found) : g.liveAt w x = true ↔ g.Live x w :=
    liveAt_iff fun u onward => sound.wired.lt_of_reachable ((reached w member).trans onward)
  have isLabel (w : VertexId) (member : w ∈ found) (isLive : g.Live x w) : w ∈ labels := by
    rcases seen w member with last | ⟨_, kept⟩
    · exact absurd isLive (sound.not_live_finish (sound.wired.listed_of_reachable (reached w member)) last)
    · exact kept ((live w member).mpr isLive)
  have subset (l : VertexId) (member : l ∈ labels) : l ∈ found := (marked l member).1
  refine ⟨fun l member => (marked l member).2.1, fun l member => reached l (subset l member),
    fun l member => (live l (subset l member)).mp (marked l member).2.2, ?_⟩
  intro past past' u trail trail' isLive unmarked
  by_cases atEntry : u = g.entry
  · subst atEntry
    rw [sound.past_eq_nil trail, sound.past_eq_nil trail']
  · -- every other path has passed the entry, so it has a last site
    have some {past : List VertexId} (trail : Trail g.succs g.entry past u) :
        ∃ v, lastSite (g.isSite x found) past = some v := by
      rcases Dominates.of_root past trail with passed | same
      · exact Option.isSome_iff_exists.mp (lastSite_isSome (isSite_iff.mpr (.inl rfl)) passed)
      · exact absurd same.symm atEntry
    obtain ⟨v, last⟩ := some trail
    obtain ⟨v', last'⟩ := some trail'
    have noJoin : found.contains u = false := by
      rw [Bool.eq_false_iff, Ne, List.contains_iff_mem]
      exact fun member => unmarked (isLabel u member isLive)
    have same : v = v' := closed.unique (fun w joined => isSite_iff.mpr (.inr (.inr (List.contains_iff_mem.mp joined))))
      trail trail' noJoin last last'
    rw [lastSite_of_iteratedFrontier isLabel subset trail isLive last,
      lastSite_of_iteratedFrontier isLabel subset trail' isLive last', same]

end Graph

end MiddleEnd
