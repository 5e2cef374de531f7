import MiddleEnd.Proofs.DominatorTree
import MiddleEnd.Proofs.PhiPlacement

/-!
Where paths meet. The joins of a set of sites are the least set with every vertex at which two paths from different
sites, or from joins, meet for the first time (`IsJoin`). Iterating dominance frontiers finds just these
(`Graph.mem_iteratedFrontier_iff`): what lies in the frontier of a site is where a path from the site meets one from the
entry, and if two sites had paths that meet anywhere else, each of them would be the last site on the way there.
-/
namespace MiddleEnd

section
variable {next : VertexId → List VertexId} {root a b p u v w z : VertexId} {past : List VertexId}
  {site J : VertexId → Prop}

/-! ### Paths that meet -/

/-- Two nonempty paths, from `a` and from `b`, meet at `z` and have no other vertex in common. -/
def Converge (next : VertexId → List VertexId) (a b z : VertexId) : Prop :=
  ∃ past past', Trail next a past z ∧ Trail next b past' z ∧ past ≠ [] ∧ past' ≠ [] ∧ ∀ v ∈ past, v ∈ past' → v = z

/-- The same, with nothing in common before the paths arrive. -/
def Approach (next : VertexId → List VertexId) (a b z : VertexId) : Prop :=
  ∃ past past', Trail next a past z ∧ Trail next b past' z ∧ past ≠ [] ∧ past' ≠ [] ∧ ∀ v ∈ past, v ∉ past'

/-- A path can stop where it arrives for the first time. -/
theorem Trail.exists_first (trail : Trail next root past v) :
    ∃ first, Trail next root first v ∧ v ∉ first ∧ ∀ u ∈ first, u ∈ past := by
  by_cases again : v ∈ past
  · obtain ⟨first, rest, rfl, fresh⟩ := List.eq_append_cons_of_mem again
    exact ⟨first, trail.split.1, fresh, fun u member => List.mem_append_left _ member⟩
  · exact ⟨past, trail, again, fun _ member => member⟩

theorem Trail.ne_nil_of_ne (trail : Trail next root past v) (other : root ≠ v) : past ≠ [] := by
  rintro rfl
  exact other trail.eq_root

theorem Approach.symm (ways : Approach next a b z) : Approach next b a z := by
  obtain ⟨past, past', trail, trail', some, some', apart⟩ := ways
  exact ⟨past', past, trail', trail, some', some, fun v member other => apart v other member⟩

/-- Of two paths that meet at `z`, one can be cut short there. -/
theorem approach_of_meeting {past' : List VertexId} (trail : Trail next a past z) (trail' : Trail next b past' z)
    (some : past ≠ []) (only : ∀ v ∈ past, v ∈ past' → v = z) (notEnd : b ≠ z) : Approach next a b z := by
  obtain ⟨first, arrives, fresh, subset⟩ := trail'.exists_first
  refine ⟨past, first, trail, arrives, some, arrives.ne_nil_of_ne notEnd, fun v member other => ?_⟩
  rw [only v member (subset v other)] at other
  exact fresh other

theorem converge_iff (other : a ≠ b) : Converge next a b z ↔ Approach next a b z := by
  constructor
  · rintro ⟨past, past', trail, trail', some, some', only⟩
    by_cases atEnd : b = z
    · have notEnd : a ≠ z := fun same => other (same.trans atEnd.symm)
      exact (approach_of_meeting trail' trail some' (fun v member common => only v common member) notEnd).symm
    · exact approach_of_meeting trail trail' some only atEnd
  · rintro ⟨past, past', trail, trail', some, some', apart⟩
    exact ⟨past, past', trail, trail', some, some', fun v member common => absurd common (apart v member)⟩

/-- `J` has every vertex where paths from two of the sites and of the members of `J` meet. -/
def JoinClosed (next : VertexId → List VertexId) (site J : VertexId → Prop) : Prop :=
  ∀ a b z, site a ∨ J a → site b ∨ J b → a ≠ b → Converge next a b z → J z

/-- `z` belongs to the least set that has every vertex where paths from two of the sites and of its own members meet. -/
def IsJoin (next : VertexId → List VertexId) (site : VertexId → Prop) (z : VertexId) : Prop :=
  ∀ J, JoinClosed next site J → J z

/-- The joins are such a set. -/
theorem joinClosed_isJoin : JoinClosed next site (IsJoin next site) := by
  intro a b z knownA knownB other meet J closed
  exact closed a b z (knownA.imp_right fun join => join J closed) (knownB.imp_right fun join => join J closed) other meet

/-! ### Frontiers and meeting paths -/

/-- What an edge from inside of what `v` dominates leads to is reached over vertices that `v` dominates. -/
theorem Dominates.exists_inside (reached : Reachable next root p) (dom : Dominates next root v p) (edge : w ∈ next p) :
    ∃ inner, Trail next v inner w ∧ inner ≠ [] ∧ ∀ u ∈ inner, Dominates next root v u := by
  by_cases same : v = p
  · subst same
    refine ⟨[v], Trail.start.step edge, by simp, fun u member => ?_⟩
    rw [List.mem_singleton.mp member]
    exact .refl
  · obtain ⟨past, trail⟩ := reached
    rcases dom past trail with passed | same'
    · -- the path is followed from where it passes `v` for the last time
      have visits : (lastSite (fun u => decide (u = v)) past).isSome = true := lastSite_isSome (by simp) passed
      obtain ⟨_, last⟩ := Option.isSome_iff_exists.mp visits
      obtain ⟨isV, before, later, rfl, others⟩ := lastSite_eq_some_iff.mp last
      obtain rfl := of_decide_eq_true isV
      refine ⟨_, trail.split.2.step edge, by simp, fun u member => ?_⟩
      rw [List.mem_append, List.mem_cons, List.mem_singleton] at member
      rcases member with (rfl | inLater) | rfl
      · exact .refl
      · obtain ⟨between, rest, rfl⟩ := List.append_of_mem inLater
        have onward := trail.split.2
        rw [← List.cons_append] at onward
        intro way toU
        rcases dom _ (toU.trans onward.split.2) with passed' | same'
        · rcases List.mem_append.mp passed' with early | late
          · exact .inl early
          · rcases List.mem_cons.mp late with isU | inRest
            · exact .inr isU
            · simpa using others _ (List.mem_append_right _ (List.mem_cons_of_mem _ inRest))
        · exact absurd same' same
      · exact dom
    · exact absurd same' same

/-- Where an edge leaves what `v` strictly dominates, a path from `v` meets one from the root. -/
theorem approach_of_frontier (source : ∀ u, Reachable next root u → root ∉ next u) (reached : Reachable next root p)
    (dom : Dominates next root v p) (edge : w ∈ next p) (out : ¬ (v ≠ w ∧ Dominates next root v w)) :
    root ≠ v ∧ Approach next root v w := by
  have notRoot : root ≠ w := fun same => source p reached (same ▸ edge)
  obtain ⟨inner, way, some, inside⟩ := dom.exists_inside reached edge
  obtain ⟨outer, arrives, avoids⟩ : ∃ outer, Trail next root outer w ∧ v ∉ outer := by
    by_cases same : v = w
    · exact same ▸ (reached.step edge).exists_first
    · by_contra none
      refine out ⟨same, fun past trail => .inl ?_⟩
      by_contra avoids
      exact none ⟨past, trail, avoids⟩
  constructor
  · rintro rfl
    exact out ⟨notRoot, .of_root⟩
  · refine ⟨outer, inner, arrives, way, arrives.ne_nil_of_ne notRoot, some, fun u member common => ?_⟩
    obtain ⟨before, later, rfl, toU, _, _⟩ := arrives.cut member
    rcases inside u common before toU with passed | same
    · exact avoids (List.mem_append_left _ passed)
    · exact avoids (same ▸ member)

/-- The last site of a path that ends with a path from a site is passed on that one. -/
theorem lastSite_append {site : VertexId → Bool} (before : List VertexId) (isSite : site a = true) (passed : a ∈ past) :
    ∃ d ∈ past, lastSite site (before ++ past) = some d := by
  obtain ⟨d, last⟩ := Option.isSome_iff_exists.mp (lastSite_isSome isSite passed)
  obtain ⟨isSite, early, late, rfl, free⟩ := lastSite_eq_some_iff.mp last
  refine ⟨d, by simp, lastSite_eq_some_iff.mpr ⟨isSite, before ++ early, late, by simp, free⟩⟩

/-- Paths from two sites meet at joins only. -/
theorem SitesClosed.join_of_approach {site join : VertexId → Bool} (closed : SitesClosed next root site join)
    (joins : ∀ v, join v = true → site v = true) (isSite : site a = true) (isSite' : site b = true)
    (reached : Reachable next root a) (reached' : Reachable next root b) (ways : Approach next a b z) :
    join z = true := by
  obtain ⟨past, past', trail, trail', some, some', apart⟩ := ways
  obtain ⟨before, toA⟩ := reached
  obtain ⟨before', toB⟩ := reached'
  obtain ⟨d, passed, last⟩ := lastSite_append before isSite (trail.root_mem some)
  obtain ⟨d', passed', last'⟩ := lastSite_append before' isSite' (trail'.root_mem some')
  by_contra noJoin
  have same := closed.unique joins (toA.trans trail) (toB.trans trail') (by simpa using noJoin) last last'
  exact apart d passed (same ▸ passed')

end

/-! ### Iterated frontiers are the joins -/

/-- What holds of the frontier of everything that it holds of holds of all that is found. -/
theorem iteratedFrontier_induct {frontier : VertexId → List VertexId} {P Q : VertexId → Prop} {pool : VertexSet}
    {work found : List VertexId} (waiting : ∀ v ∈ work, Q v) (before : ∀ w ∈ found, P w)
    (along : ∀ v w, Q v → w ∈ frontier v → P w) (next : ∀ w, P w → Q w) :
    ∀ w ∈ iteratedFrontier frontier pool work found, P w := by
  fun_induction iteratedFrontier frontier pool work found with
  | case1 pool found => exact before
  | case2 pool found v work fresh ih =>
    have new : ∀ w ∈ fresh.2, P w := fun w member =>
      along v w (waiting v List.mem_cons_self) (VertexSet.mem_takeFresh_fresh.mp member).2
    refine ih (fun w member => ?_) fun w member => ?_
    · rcases List.mem_append.mp member with isNew | later
      · exact next w (new w (List.mem_reverse.mp isNew))
      · exact waiting w (List.mem_cons_of_mem _ later)
    · rcases List.mem_append.mp member with earlier | isNew
      · exact before w earlier
      · exact new w isNew

/-- What is in a frontier is where an edge leaves what is dominated. -/
theorem Dominators.Faithful.exists_of_mem_frontier {d : Dominators} {g : Graph} (faithful : d.Faithful g)
    (wired : g.Wired) {v w : VertexId} (member : w ∈ d.frontier g v) :
    ∃ p, Reachable g.succs g.entry p ∧ Dominates g.succs g.entry v p ∧ w ∈ g.succs p ∧
      ¬ (v ≠ w ∧ Dominates g.succs g.entry v w) := by
  obtain ⟨_, listed, tracked, notStrict, p, back, dominated⟩ := Dominators.mem_frontier.mp member
  have back : p ∈ g.preds w := by simpa [Graph.against, faithful.forward] using back
  obtain ⟨reached, dom⟩ := faithful.dominated.mp dominated
  refine ⟨p, reached, dom, (wired.mem_preds_iff (wired.preds_listed w listed p back) listed).mpr back, ?_⟩
  rintro ⟨other, domW⟩
  have strict : d.strictlyDominatedBy w v = true :=
    Dominators.strictlyDominatedBy_iff.mpr ⟨other.symm, faithful.dominated.mpr ⟨faithful.tracked.mp tracked, domW⟩⟩
  simp [strict] at notStrict

namespace Graph

variable {g : Graph} {x : VarId} {d : Dominators} {labels : List VertexId} {w l : VertexId}

/-- Where the value of `x` comes from: the entry, and the definitions that can be reached. -/
def IsOrigin (g : Graph) (x : VarId) (v : VertexId) : Prop :=
  v = g.entry ∨ Reachable g.succs g.entry v ∧ v ∈ g.definitions (some x)

theorem IsOrigin.reachable {v : VertexId} (isOrigin : g.IsOrigin x v) : Reachable g.succs g.entry v := by
  rcases isOrigin with rfl | ⟨reached, _⟩
  · exact .refl
  · exact reached

/-- Iterating frontiers from the definitions of a variable finds the joins of the places where its value comes from. -/
theorem mem_iteratedFrontier_iff (sound : g.Sound) (faithful : d.Faithful g) :
    w ∈ iteratedFrontier (d.frontier g) (VertexSet.below g.store.size) (g.definitions (some x)).reverse [] ↔
      IsJoin g.succs (g.IsOrigin x) w := by
  have source (u : VertexId) (reached : Reachable g.succs g.entry u) : g.entry ∉ g.succs u :=
    sound.entry_notMem_succs (sound.wired.listed_of_reachable reached)
  constructor
  · -- a path from the entry meets the one from where the frontier was taken
    refine iteratedFrontier_induct (Q := fun v => v ∈ g.definitions (some x) ∨ IsJoin g.succs (g.IsOrigin x) v)
      (fun v waiting => .inl (by simpa using waiting)) (by simp) (fun v w known member => ?_) (fun _ => .inr) w
    obtain ⟨p, reached, dom, edge, out⟩ := faithful.exists_of_mem_frontier sound.wired member
    obtain ⟨other, ways⟩ := approach_of_frontier source reached dom edge out
    refine joinClosed_isJoin g.entry v w (.inl (.inl rfl)) ?_ other ((converge_iff other).mpr ways)
    exact known.imp_left fun defines => .inr ⟨dom.reachable reached, defines⟩
  · -- what is found has all the places where paths meet
    have closed := sitesClosed_iteratedFrontier (x := x) sound faithful
    have reachable (w : VertexId) (member : w ∈ iteratedFrontier (d.frontier g) (VertexSet.below g.store.size)
        (g.definitions (some x)).reverse []) : Reachable g.succs g.entry w := reachable_of_mem_iteratedFrontier faithful member
    generalize iteratedFrontier (d.frontier g) (VertexSet.below g.store.size) (g.definitions (some x)).reverse []
      = found at closed reachable
    intro join
    refine join (· ∈ found) fun a b z knownA knownB other meet => ?_
    have known {v : VertexId} (either : g.IsOrigin x v ∨ v ∈ found) :
        g.isSite x found v = true ∧ Reachable g.succs g.entry v := by
      rcases either with isOrigin | member
      · refine ⟨isSite_iff.mpr ?_, isOrigin.reachable⟩
        rcases isOrigin with atEntry | ⟨_, defines⟩
        · exact .inl atEntry
        · exact .inr (.inl (List.mem_filter.mp defines).2)
      · exact ⟨isSite_iff.mpr (.inr (.inr member)), reachable v member⟩
    have joined := closed.join_of_approach (fun v isJoin => isSite_iff.mpr (.inr (.inr (List.contains_iff_mem.mp isJoin))))
      (known knownA).1 (known knownB).1 (known knownA).2 (known knownB).2 ((converge_iff other).mp meet)
    exact List.contains_iff_mem.mp joined

/-- The labels that get a phi are the joins at which the variable is live. -/
theorem mem_phiLabels_iff (sound : g.Sound) (faithful : d.Faithful g)
    (chosen : g.phiLabels d x (g.definitions (some x)) = .ok labels) :
    l ∈ labels ↔ g.Live x l ∧ IsJoin g.succs (g.IsOrigin x) l := by
  have placed := placed_of_phiLabels sound faithful chosen
  obtain ⟨seen, marked⟩ := labelsFor_ok chosen
  constructor
  · intro member
    exact ⟨placed.live l member, (mem_iteratedFrontier_iff sound faithful).mp (marked l member).1⟩
  · rintro ⟨live, join⟩
    have found := (mem_iteratedFrontier_iff sound faithful).mpr join
    have reached : Reachable g.succs g.entry l := reachable_of_mem_iteratedFrontier faithful found
    rcases seen l found with last | ⟨_, kept⟩
    · exact absurd live (sound.not_live_finish (sound.wired.listed_of_reachable reached) last)
    · exact kept ((liveAt_iff fun u onward => sound.wired.lt_of_reachable (reached.trans onward)).mpr live)

end Graph

end MiddleEnd
