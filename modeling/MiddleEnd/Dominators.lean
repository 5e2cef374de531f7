import MiddleEnd.Graph.Order

/-!
Dominators of a graph, in either direction. The sets are the greatest solution of "a vertex is dominated
by itself and by what dominates all its predecessors". Every vertex but the root starts with all tracked
vertices; then each set in turn is replaced by what its equation asks for, in rounds, until a round changes
nothing. From the start on, what replaces a set lies in it (`Descending`), so the sets only get smaller and
the rounds come to an end.
-/
namespace MiddleEnd

/-- The dominators of the vertices reachable from a root, as the edges were when they were computed. -/
structure Dominators where
  root : VertexId
  /-- Over reversed edges, which makes them post-dominators. -/
  reversed : Bool
  /-- The vertices reachable from the root. -/
  tracked : VertexSet
  /-- For each vertex the vertices that dominate it; empty if it is not tracked. -/
  sets : Array VertexSet
  /-- The predecessors in this direction, when the dominators were computed. -/
  incoming : Array (List VertexId)

namespace Graph

/-- The edges into a vertex in a direction, by their other ends. -/
def against (g : Graph) (reversed : Bool) (v : VertexId) : List VertexId :=
  if reversed then g.succs v else g.preds v

/-- The edges out of a vertex in a direction, by their other ends. -/
def along (g : Graph) (reversed : Bool) (v : VertexId) : List VertexId :=
  if reversed then g.preds v else g.succs v

end Graph

namespace Dominators

/-- What the predecessors with a set have in common, and the vertex itself. -/
def meet (tracked : VertexSet) (incoming : Array (List VertexId)) (sets : Array VertexSet) (v : VertexId) :
    VertexSet :=
  match (incoming.getD v []).filter (· ∈ tracked) with
  | [] => VertexSet.empty.insert v
  | p :: rest => (rest.foldl (fun s q => s.inter (sets.getD q ∅)) (sets.getD p ∅)).insert v

/-- Puts the meet of `v` in place of its set. -/
def refineAt (tracked : VertexSet) (incoming : Array (List VertexId)) (sets : Array VertexSet) (v : VertexId) :
    Array VertexSet :=
  sets.setIfInBounds v (meet tracked incoming sets v)

/-- One round over the vertices in `order`. -/
def refine (tracked : VertexSet) (incoming : Array (List VertexId)) (order : List VertexId)
    (sets : Array VertexSet) : Array VertexSet :=
  order.foldl (refineAt tracked incoming) sets

section meets
variable {tracked : VertexSet} {incoming : Array (List VertexId)} {order : List VertexId} {sets : Array VertexSet}
  {v c : VertexId}

theorem mem_foldl_inter {α : Type} {f : α → VertexSet} {rest : List α} {s : VertexSet} :
    c ∈ rest.foldl (fun s q => s.inter (f q)) s ↔ c ∈ s ∧ ∀ q ∈ rest, c ∈ f q := by
  induction rest generalizing s with
  | nil => simp
  | cons q rest ih => simp [ih, and_assoc]

/-- What a meet holds: the vertex, and what all tracked predecessors have in common, if there are any. -/
theorem mem_meet : c ∈ meet tracked incoming sets v ↔
    c = v ∨ (∃ p ∈ incoming.getD v [], p ∈ tracked) ∧
      ∀ p ∈ incoming.getD v [], p ∈ tracked → c ∈ sets.getD p ∅ := by
  have empty : c ∉ VertexSet.empty := VertexSet.not_mem_empty c
  rw [meet]
  split
  · rename_i none
    have untracked : ¬ ∃ p ∈ incoming.getD v [], p ∈ tracked := by
      rintro ⟨p, edge, member⟩
      have : p ∈ (incoming.getD v []).filter (· ∈ tracked) := List.mem_filter.mpr ⟨edge, by simpa using member⟩
      rw [none] at this
      simp at this
    rw [VertexSet.mem_insert]
    constructor
    · rintro (none | same)
      · exact absurd none empty
      · exact .inl same
    · rintro (same | ⟨some, _⟩)
      · exact .inr same
      · exact absurd some untracked
  · rename_i p rest found
    have listed (q : VertexId) : q ∈ p :: rest ↔ q ∈ incoming.getD v [] ∧ q ∈ tracked := by
      rw [← found]
      simp
    have first := (listed p).mp List.mem_cons_self
    rw [VertexSet.mem_insert, mem_foldl_inter]
    constructor
    · rintro (⟨inFirst, inRest⟩ | same)
      · refine .inr ⟨⟨p, first⟩, fun q edge member => ?_⟩
        rcases List.mem_cons.mp ((listed q).mpr ⟨edge, member⟩) with rfl | later
        · exact inFirst
        · exact inRest q later
      · exact .inl same
    · rintro (same | ⟨_, all⟩)
      · exact .inr same
      · refine .inl ⟨all p first.1 first.2, fun q later => ?_⟩
        obtain ⟨edge, member⟩ := (listed q).mp (List.mem_cons_of_mem _ later)
        exact all q edge member

/-- Smaller sets have smaller meets. -/
theorem meet_mono {smaller : Array VertexSet} (subset : ∀ p c, c ∈ smaller.getD p ∅ → c ∈ sets.getD p ∅)
    (member : c ∈ meet tracked incoming smaller v) : c ∈ meet tracked incoming sets v := by
  rw [mem_meet] at member ⊢
  rcases member with is | ⟨some, all⟩
  · exact .inl is
  · exact .inr ⟨some, fun p edge known => subset p c (all p edge known)⟩

/-- Only the set of `v` changes, to its meet. -/
theorem getD_refineAt (w : VertexId) : (refineAt tracked incoming sets v).getD w ∅ =
    if w = v ∧ v < sets.size then meet tracked incoming sets v else sets.getD w ∅ := by
  simp only [refineAt, Array.getD_eq_getD_getElem?, Array.getElem?_setIfInBounds]
  by_cases same : v = w
  · subst same
    by_cases inside : v < sets.size
    · simp [inside]
    · simp [inside]
  · simp [same, Ne.symm same]

@[simp] theorem size_refineAt : (refineAt tracked incoming sets v).size = sets.size := by
  simp [refineAt]

end meets

/-- The meets of the vertices in `order` lie in their sets. -/
def Descending (tracked : VertexSet) (incoming : Array (List VertexId)) (order : List VertexId)
    (sets : Array VertexSet) : Prop :=
  ∀ v ∈ order, v < sets.size → ∀ c ∈ meet tracked incoming sets v, c ∈ sets.getD v ∅

namespace Descending

variable {tracked : VertexSet} {incoming : Array (List VertexId)} {order : List VertexId} {sets : Array VertexSet}
  {v : VertexId}

/-- Where the meet lies in the set, putting it there takes members away only. -/
theorem refineAt_subset (descending : Descending tracked incoming order sets) (member : v ∈ order) (w c : VertexId)
    (still : c ∈ (refineAt tracked incoming sets v).getD w ∅) : c ∈ sets.getD w ∅ := by
  rw [getD_refineAt] at still
  by_cases replaced : w = v ∧ v < sets.size
  · rw [if_pos replaced] at still
    obtain ⟨rfl, inside⟩ := replaced
    exact descending w member inside c still
  · rwa [if_neg replaced] at still

/-- Meets get smaller with the sets, so they lie in the sets again. -/
theorem refineAt (descending : Descending tracked incoming order sets) (member : v ∈ order) :
    Descending tracked incoming order (refineAt tracked incoming sets v) := by
  intro w ordered inside c met
  rw [size_refineAt] at inside
  have before := meet_mono (descending.refineAt_subset member) met
  rw [getD_refineAt]
  by_cases replaced : w = v ∧ v < sets.size
  · rw [if_pos replaced]
    exact replaced.1 ▸ before
  · rw [if_neg replaced]
    exact descending w ordered inside c before

/-- What each step of a round keeps, the round does. -/
theorem foldl_induct {P : Array VertexSet → Prop} (descending : Descending tracked incoming order sets) (start : P sets)
    (step : ∀ sets, ∀ v ∈ order, Descending tracked incoming order sets → P sets →
      P (Dominators.refineAt tracked incoming sets v)) {vs : List VertexId} (among : ∀ v ∈ vs, v ∈ order) :
    Descending tracked incoming order (refine tracked incoming vs sets) ∧ P (refine tracked incoming vs sets) := by
  induction vs generalizing sets with
  | nil => exact ⟨descending, start⟩
  | cons v vs ih =>
    have member := among v List.mem_cons_self
    exact ih (descending.refineAt member) (step sets v member descending start)
      fun w later => among w (List.mem_cons_of_mem _ later)

theorem refine (descending : Descending tracked incoming order sets) :
    Descending tracked incoming order (refine tracked incoming order sets) :=
  (descending.foldl_induct (P := fun _ => True) trivial (fun _ _ _ _ _ => trivial) fun _ member => member).1

end Descending

/-- The sum of sets as numbers. -/
def total (sets : List VertexSet) : Nat :=
  sets.foldr (fun s n => s.bits + n) 0

/-- The size of the sets, as the sum of their numbers. -/
def weight (sets : Array VertexSet) : Nat :=
  total sets.toList

/-- Every set of `s` is the set of `t` at the same place, or smaller. -/
inductive Within : List VertexSet → List VertexSet → Prop where
  | nil : Within [] []
  | cons {a b : VertexSet} {s t : List VertexSet} (le : a.bits ≤ b.bits) (rest : Within s t) :
    Within (a :: s) (b :: t)

namespace Within

theorem refl : ∀ s, Within s s
  | [] => .nil
  | _ :: s => .cons (Nat.le_refl _) (refl s)

theorem trans {r s t : List VertexSet} (first : Within r s) (second : Within s t) : Within r t := by
  induction first generalizing t with
  | nil => exact second
  | cons le _ ih =>
    cases second with
    | cons le' rest => exact .cons (Nat.le_trans le le') (ih rest)

/-- A smaller set in place of one of them. -/
theorem set {s : List VertexSet} {i : Nat} {a : VertexSet} (le : ∀ b, s[i]? = some b → a.bits ≤ b.bits) :
    Within (s.set i a) s := by
  induction s generalizing i with
  | nil => exact .nil
  | cons b s ih =>
    cases i with
    | zero => exact .cons (le b rfl) (refl s)
    | succ i => exact .cons (Nat.le_refl _) (ih le)

theorem sum_le {s t : List VertexSet} (within : Within s t) :
    total s ≤ total t := by
  induction within with
  | nil => exact Nat.le_refl _
  | cons le _ ih => simp only [total, List.foldr_cons] at ih ⊢; omega

theorem sum_lt {s t : List VertexSet} (within : Within s t) (differ : s ≠ t) :
    total s < total t := by
  induction within with
  | nil => exact absurd rfl differ
  | @cons a b s t le rest ih =>
    simp only [total, List.foldr_cons] at ih ⊢
    by_cases same : a = b
    · have tails : s ≠ t := fun h => differ (by rw [same, h])
      have := ih tails
      omega
    · have bits : a.bits ≠ b.bits := fun h => same (by cases a; cases b; simp_all)
      have := sum_le rest
      simp only [total] at this
      omega

end Within

section
variable {tracked : VertexSet} {incoming : Array (List VertexId)} {order vs : List VertexId} {sets : Array VertexSet}
  {v : VertexId}

theorem Descending.within_refineAt (descending : Descending tracked incoming order sets) (member : v ∈ order) :
    Within (Dominators.refineAt tracked incoming sets v).toList sets.toList := by
  rw [Dominators.refineAt, Array.toList_setIfInBounds]
  refine Within.set fun b found => VertexSet.bits_le_of_subset fun c met => ?_
  have inside : v < sets.size := by
    rw [← Array.length_toList]
    exact (List.getElem?_eq_some_iff.mp found).1
  have old := descending v member inside c met
  rwa [Array.getD_eq_getD_getElem?, ← Array.getElem?_toList, found] at old

theorem Descending.within_refine (descending : Descending tracked incoming order sets) (among : ∀ v ∈ vs, v ∈ order) :
    Within (Dominators.refine tracked incoming vs sets).toList sets.toList :=
  (descending.foldl_induct (P := fun now => Within now.toList sets.toList) (Within.refl _)
    (fun _ _ member descending before => (descending.within_refineAt member).trans before) among).2

end

/-- Goes on with rounds until one changes nothing. -/
def solve (tracked : VertexSet) (incoming : Array (List VertexId)) (order : List VertexId)
    (sets : Array VertexSet) (descending : Descending tracked incoming order sets) : Array VertexSet :=
  let refined := refine tracked incoming order sets
  if refined = sets then sets else solve tracked incoming order refined descending.refine
termination_by weight sets
decreasing_by
  exact Within.sum_lt (descending.within_refine fun _ member => member) fun same => ‹¬_› (Array.ext' same)

/-- The sets that the rounds start from: the root has itself, the other tracked vertices have all tracked ones. -/
def startSets (size : Nat) (root : VertexId) (tracked : VertexSet) : Array VertexSet :=
  ((List.range size).map fun v =>
    if v = root then VertexSet.empty.insert root else if v ∈ tracked then tracked else ∅).toArray

@[simp] theorem size_startSets {size : Nat} {root : VertexId} {tracked : VertexSet} :
    (startSets size root tracked).size = size := by
  simp [startSets]

theorem getD_startSets {size : Nat} {root : VertexId} {tracked : VertexSet} {v : VertexId} (inside : v < size) :
    (startSets size root tracked).getD v ∅ =
      if v = root then VertexSet.empty.insert root else if v ∈ tracked then tracked else ∅ := by
  simp [startSets, Array.getD_eq_getD_getElem?, inside]

/-- No set has an untracked member at the start, so no meet has. -/
theorem descending_startSets {size : Nat} {root : VertexId} {tracked : VertexSet} {incoming : Array (List VertexId)}
    {order : List VertexId} (ordered : ∀ v ∈ order, v ∈ tracked ∧ v ≠ root) :
    Descending tracked incoming order (startSets size root tracked) := by
  intro v member inside c met
  obtain ⟨isTracked, notRoot⟩ := ordered v member
  rw [size_startSets] at inside
  rw [getD_startSets inside, if_neg notRoot, if_pos isTracked]
  rcases mem_meet.mp met with rfl | ⟨⟨p, edge, known⟩, all⟩
  · exact isTracked
  · have inP := all p edge known
    rcases Nat.lt_or_ge p size with below | outside
    · rw [getD_startSets below] at inP
      by_cases atRoot : p = root
      · rw [if_pos atRoot] at inP
        rcases VertexSet.mem_insert.mp inP with none | rfl
        · exact absurd none (VertexSet.not_mem_empty c)
        · exact atRoot ▸ known
      · rwa [if_neg atRoot, if_pos known] at inP
    · rw [Array.getD_eq_getD_getElem?, Array.getElem?_eq_none (by simpa using outside)] at inP
      exact absurd inP (VertexSet.not_mem_empty c)

/-- The vertices that a round goes over: all tracked ones but the root. -/
def roundOrder (order : List VertexId) (root : VertexId) : List VertexId :=
  order.filter (· ≠ root)

theorem mem_tracked_of_mem_roundOrder {order : List VertexId} {root v : VertexId} (member : v ∈ roundOrder order root) :
    v ∈ VertexSet.ofList order ∧ v ≠ root := by
  simpa [roundOrder] using member

/-- The dominators of a graph from a root, over its edges as they are. -/
def ofGraph (g : Graph) (root : VertexId) (reversed : Bool) : Dominators :=
  let size := g.store.size
  let order := reversePostOrderFrom (g.along reversed) size root
  let tracked := VertexSet.ofList order
  let incoming := ((List.range size).map (g.against reversed)).toArray
  let sets := solve tracked incoming (roundOrder order root) (startSets size root tracked)
    (descending_startSets fun _ => mem_tracked_of_mem_roundOrder)
  { root, reversed, tracked, sets, incoming }

variable (d : Dominators)

/-- The vertices that dominate `v`, itself included. -/
def set (v : VertexId) : VertexSet :=
  d.sets.getD v ∅

def isTracked (v : VertexId) : Bool :=
  d.tracked.contains v

/-- Whether `c` dominates `v`. Every tracked vertex dominates itself; nothing dominates an untracked one. -/
def dominatedBy (v c : VertexId) : Bool :=
  (d.set v).contains c

def strictlyDominatedBy (v c : VertexId) : Bool :=
  v != c && d.dominatedBy v c

/-- The vertices from which `v` can be reached by at least one edge. -/
def ancestors (v : VertexId) : VertexSet :=
  closure (d.incoming.getD · []) (VertexSet.below d.incoming.size) (d.incoming.getD v []) ∅

/-- Whether a path leads from `source` to `target`. -/
def pathExists (source target : VertexId) : Bool :=
  d.isTracked target && (d.ancestors target).contains source

/-- Whether every other strict dominator of `v` dominates `c`. -/
def isClosest (v c : VertexId) : Bool :=
  (((d.set v).erase v).erase c).isSubset (d.set c)

/-- The strict dominator of `v` that all its other strict dominators dominate. -/
def immediate? (v : VertexId) : Option VertexId :=
  ((d.set v).erase v).toList.find? (d.isClosest v)

/-- The vertices of `candidates` that no other of them strictly dominates. -/
def undominated (candidates : List VertexId) : List VertexId :=
  candidates.filter fun c => !candidates.any fun o => d.strictlyDominatedBy c o

/-- The nearest common dominator by at most `rounds` rounds; the outer none means that they ran out. Each
round drops the candidates dominated by another one, and while more than one remains, each moves up to its
immediate dominator. -/
def common (rounds : Nat) (candidates : List VertexId) : Option (Option VertexId) :=
  if candidates.isEmpty then some none
  else
    match rounds with
    | 0 => none
    | rounds + 1 =>
      match d.undominated candidates with
      | [c] => some (some c)
      | kept => common rounds (kept.filterMap d.immediate?).eraseDups

/-- The number of tracked vertices. -/
def size : Nat :=
  (List.range d.sets.size).countP d.isTracked

/-- The nearest vertex that dominates all of `vs`. A chain of immediate dominators is no longer than the
tracked vertices are many, so running past that is a sign of corruption. -/
def nearestCommon (function : String) (vs : List VertexId) : Except Failure (Option VertexId) :=
  match d.common (d.size + 2) vs.eraseDups with
  | some found => .ok found
  | none => .error (.corrupt function (.noCommonDominator (d.size + 2)) [])

/-- The dominance frontier of `v` over the edges of `g` as they are now: the tracked vertices that `v` does
not strictly dominate and that have a predecessor dominated by `v`, in the order of their IDs. -/
def frontier (g : Graph) (v : VertexId) : List VertexId :=
  if d.isTracked v then
    sortById <| g.listed.filter fun w =>
      d.isTracked w && !d.strictlyDominatedBy w v && (g.against d.reversed w).any fun p => d.dominatedBy p v
  else []

theorem mem_frontier {d : Dominators} {g : Graph} {v w : VertexId} :
    w ∈ d.frontier g v ↔ d.isTracked v = true ∧ w ∈ g.listed ∧ d.isTracked w = true ∧
      d.strictlyDominatedBy w v = false ∧ ∃ p ∈ g.against d.reversed w, d.dominatedBy p v = true := by
  by_cases tracked : d.isTracked v <;> simp [frontier, tracked, and_assoc]

/-- The tracked vertices. -/
def vertices : List VertexId :=
  (List.range d.sets.size).filter d.isTracked

/-- The dominator tree: the vertices with children, each with its children in the order of their IDs. -/
def tree : List (VertexId × List VertexId) :=
  let edges := d.vertices.filterMap fun w => (d.immediate? w).map (·, w)
  (edges.map Prod.fst).eraseDups.map fun v => (v, sortById ((edges.filter (·.1 = v)).map Prod.snd))

end Dominators

end MiddleEnd
