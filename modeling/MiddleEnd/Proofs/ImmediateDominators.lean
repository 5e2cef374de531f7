import MiddleEnd.Proofs.DominatorTree

/-!
Immediate dominators. A vertex has at most one strict dominator that all its other strict dominators dominate
(`Answers.closest_unique`), so a search for it may go through the dominators in any order (`search_eq_immediate?`).
Moving up from vertex to immediate dominator lowers the depth, and passes every dominator on the way: the tree that
they form has the dominators of a vertex as its ancestors (`Answers.ancestor_iff`).
-/
namespace MiddleEnd

namespace Dominators

/-- `v` is listed as a child of `p`. -/
def IsChild (tree : List (VertexId × List VertexId)) (p v : VertexId) : Prop :=
  ∃ children, (p, children) ∈ tree ∧ v ∈ children

/-- `a` is `v`, or above it in a tree. -/
inductive Ancestor (tree : List (VertexId × List VertexId)) (a : VertexId) : VertexId → Prop
  | self : Ancestor tree a a
  | above {p v : VertexId} (child : IsChild tree p v) (rest : Ancestor tree a p) : Ancestor tree a v

/-- The search for an immediate dominator that goes through the dominators of `v` in the order of `candidates`, and for
a candidate `c` through those that have to dominate it in the order of `others c`. -/
def search (d : Dominators) (v : VertexId) (candidates : List VertexId) (others : VertexId → List VertexId) :
    Option VertexId :=
  candidates.find? fun c => c != v && (others c).all fun o => o == v || o == c || d.dominatedBy c o

variable {d : Dominators} {next : VertexId → List VertexId} {root a v w c o : VertexId}

theorem mem_set_iff : o ∈ d.set v ↔ d.dominatedBy v o = true :=
  Iff.rfl

/-- What is looked at for a candidate does not depend on the order. -/
theorem all_iff_isClosest {others : List VertexId} (lists : ∀ o, o ∈ others ↔ o ∈ d.set v) :
    (others.all fun o => o == v || o == c || d.dominatedBy c o) = d.isClosest v c := by
  rw [Bool.eq_iff_iff, isClosest_iff, List.all_eq_true]
  constructor
  · intro all o strict other
    obtain ⟨notSelf, dominated⟩ := strictlyDominatedBy_iff.mp strict
    have holds := all o ((lists o).mpr dominated)
    simpa [Ne.symm notSelf, other] using holds
  · intro closest o member
    by_cases isSelf : o = v
    · simp [isSelf]
    · by_cases isCandidate : o = c
      · simp [isCandidate]
      · have strict := strictlyDominatedBy_iff.mpr ⟨Ne.symm isSelf, mem_set_iff.mp ((lists o).mp member)⟩
        simp [closest o strict isCandidate]

/-- What is found is closest. -/
theorem closest_of_immediate? (found : d.immediate? v = some c) : d.isClosest v c = true :=
  List.find?_some found

/-! ### Children -/

theorem mem_vertices : v ∈ d.vertices ↔ v < d.sets.size ∧ d.isTracked v = true := by
  simp [vertices]

theorem nodup_eraseDups (vs : List VertexId) : vs.eraseDups.Nodup := by
  induction size : vs.length using Nat.strongRecOn generalizing vs with
  | _ n ih =>
    cases vs with
    | nil => simp
    | cons v vs =>
      have shorter : (vs.filter fun w => !w == v).length < n := by
        have := List.length_filter_le (fun w => !w == v) vs
        simp only [List.length_cons] at size
        omega
      rw [List.eraseDups_cons, List.nodup_cons, List.mem_eraseDups]
      exact ⟨by simp, ih _ shorter _ rfl⟩

theorem nodup_keys_tree : (d.tree.map Prod.fst).Nodup := by
  unfold tree
  simp only [List.map_map, Function.comp_def, List.map_id']
  exact nodup_eraseDups _

namespace Answers

variable (answers : d.Answers next root)
include answers

/-- Two closest strict dominators would dominate each other. -/
theorem closest_unique (strictC : d.strictlyDominatedBy v c = true) (strictO : d.strictlyDominatedBy v o = true)
    (closestC : d.isClosest v c = true) (closestO : d.isClosest v o = true) : o = c := by
  by_contra other
  have above := isClosest_iff.mp closestC o strictO other
  have below := isClosest_iff.mp closestO c strictC (Ne.symm other)
  exact other (answers.antisymm below above)

/-- A vertex with an immediate dominator is tracked, and not the root. -/
theorem tracked_of_immediate? (found : d.immediate? v = some c) : d.isTracked v = true ∧ v ≠ root := by
  obtain ⟨other, dominated⟩ := strictlyDominatedBy_iff.mp (strict_of_immediate? found)
  refine ⟨answers.tracked_left dominated, ?_⟩
  rintro rfl
  exact other (answers.dominated.mp dominated).2.eq_root.symm

theorem immediate?_eq_none (out : v = root ∨ d.isTracked v = false) : d.immediate? v = none := by
  cases found : d.immediate? v with
  | none => rfl
  | some c =>
    obtain ⟨tracked, notRoot⟩ := answers.tracked_of_immediate? found
    rcases out with isRoot | untracked
    · exact absurd isRoot notRoot
    · simp [untracked] at tracked

/-- A strict dominator is the immediate one iff it is closest. -/
theorem immediate?_eq_some_iff :
    d.immediate? v = some c ↔ d.strictlyDominatedBy v c = true ∧ d.isClosest v c = true := by
  constructor
  · intro found
    exact ⟨strict_of_immediate? found, closest_of_immediate? found⟩
  · rintro ⟨strict, closest⟩
    obtain ⟨other, dominated⟩ := strictlyDominatedBy_iff.mp strict
    have notRoot : v ≠ root := by
      rintro rfl
      exact other (answers.dominated.mp dominated).2.eq_root.symm
    obtain ⟨o, found⟩ := answers.exists_immediate? (answers.tracked_left dominated) notRoot
    rw [found, answers.closest_unique strict (strict_of_immediate? found) closest (closest_of_immediate? found)]

/-- In whatever order the dominators are gone through, the search finds the same. -/
theorem search_eq_immediate? {candidates : List VertexId} {others : VertexId → List VertexId}
    (lists : ∀ o, o ∈ candidates ↔ o ∈ d.set v) (listsOthers : ∀ c o, o ∈ others c ↔ o ∈ d.set v) :
    d.search v candidates others = d.immediate? v := by
  have test (c : VertexId) (member : c ∈ candidates) :
      (c != v && (others c).all fun o => o == v || o == c || d.dominatedBy c o) = true ↔ d.immediate? v = some c := by
    rw [all_iff_isClosest (listsOthers c), answers.immediate?_eq_some_iff, strictlyDominatedBy_iff]
    have dominated := mem_set_iff.mp ((lists c).mp member)
    simp [dominated, ne_comm]
  cases found : d.immediate? v with
  | none =>
    rw [search, List.find?_eq_none]
    intro c member passes
    have := (test c member).mp passes
    simp [found] at this
  | some c =>
    have member : c ∈ candidates := by
      rw [lists, mem_set_iff]
      exact (strictlyDominatedBy_iff.mp (strict_of_immediate? found)).2
    cases result : d.search v candidates others with
    | none =>
      rw [search, List.find?_eq_none] at result
      exact absurd ((test c member).mpr found) (result c member)
    | some o =>
      unfold search at result
      have passes := List.find?_some result
      rw [← found, (test o (List.mem_of_find?_eq_some result)).mp passes]

/-! ### The tree -/

theorem mem_edges : (c, v) ∈ d.vertices.filterMap (fun w => (d.immediate? w).map (·, w)) ↔ d.immediate? v = some c := by
  rw [List.mem_filterMap]
  constructor
  · rintro ⟨w, _, is⟩
    obtain ⟨o, found, same⟩ := Option.map_eq_some_iff.mp is
    obtain ⟨rfl, rfl⟩ := Prod.mk.inj same
    exact found
  · intro found
    have tracked := (answers.tracked_of_immediate? found).1
    refine ⟨v, mem_vertices.mpr ⟨lt_of_dominatedBy (answers.refl tracked), tracked⟩, ?_⟩
    simp [found]

/-- The children of a vertex are those whose immediate dominator it is. -/
theorem mem_tree_iff {children : List VertexId} (member : (c, children) ∈ d.tree) :
    v ∈ children ↔ d.immediate? v = some c := by
  unfold tree at member
  obtain ⟨k, _, same⟩ := List.mem_map.mp member
  obtain ⟨rfl, rfl⟩ := Prod.mk.inj same
  rw [← answers.mem_edges]
  simp only [mem_sortById, List.mem_map, List.mem_filter, decide_eq_true_eq, Prod.exists]
  constructor
  · rintro ⟨p, w, ⟨inEdges, rfl⟩, rfl⟩
    exact inEdges
  · intro inEdges
    exact ⟨k, v, ⟨inEdges, rfl⟩, rfl⟩

theorem isChild_iff : IsChild d.tree c v ↔ d.immediate? v = some c := by
  constructor
  · rintro ⟨children, member, isIn⟩
    exact (answers.mem_tree_iff member).mp isIn
  · intro found
    have key : c ∈ d.tree.map Prod.fst := by
      unfold tree
      simp only [List.map_map, Function.comp_def, List.map_id', List.mem_eraseDups]
      exact List.mem_map.mpr ⟨(c, v), answers.mem_edges.mpr found, rfl⟩
    obtain ⟨⟨_, children⟩, member, rfl⟩ := List.mem_map.mp key
    exact ⟨children, member, (answers.mem_tree_iff member).mpr found⟩

omit answers in
theorem nodup_children {children : List VertexId} (member : (c, children) ∈ d.tree) : children.Nodup := by
  unfold tree at member
  obtain ⟨k, _, same⟩ := List.mem_map.mp member
  obtain ⟨rfl, rfl⟩ := Prod.mk.inj same
  have sorted : (d.vertices.filterMap fun w => (d.immediate? w).map (·, w)).Pairwise (·.2 < ·.2) := by
    rw [List.pairwise_filterMap]
    have ascending : d.vertices.Pairwise (· < ·) := List.pairwise_lt_range.filter _
    refine ascending.imp ?_
    intro u w less e isE f isF
    obtain ⟨_, _, rfl⟩ := Option.map_eq_some_iff.mp isE
    obtain ⟨_, _, rfl⟩ := Option.map_eq_some_iff.mp isF
    exact less
  rw [nodup_sortById, List.nodup_iff_pairwise_ne, List.pairwise_map]
  exact (sorted.filter _).imp fun less => Nat.ne_of_lt less

/-- Every vertex with an immediate dominator is one child in the whole tree, and no other vertex is a child. -/
theorem count_children (v : VertexId) :
    (d.tree.flatMap Prod.snd).count v = if d.isTracked v = true ∧ v ≠ root then 1 else 0 := by
  have distinct : (d.tree.flatMap Prod.snd).Nodup := by
    rw [List.nodup_flatMap]
    refine ⟨fun _ member => nodup_children member, ?_⟩
    have keys : d.tree.Pairwise fun e f => e.1 ≠ f.1 := List.pairwise_map.mp nodup_keys_tree
    refine List.Pairwise.imp_of_mem ?_ keys
    rintro ⟨c, children⟩ ⟨o, children'⟩ member member' other w inFirst inSecond
    have first := (answers.mem_tree_iff member).mp inFirst
    have second := (answers.mem_tree_iff member').mp inSecond
    rw [first] at second
    exact other (Option.some.inj second)
  have isChild : v ∈ d.tree.flatMap Prod.snd ↔ d.isTracked v = true ∧ v ≠ root := by
    rw [List.mem_flatMap]
    constructor
    · rintro ⟨⟨c, children⟩, member, isIn⟩
      exact answers.tracked_of_immediate? ((answers.mem_tree_iff member).mp isIn)
    · rintro ⟨tracked, notRoot⟩
      obtain ⟨c, found⟩ := answers.exists_immediate? tracked notRoot
      obtain ⟨children, member, isIn⟩ := answers.isChild_iff.mpr found
      exact ⟨(c, children), member, isIn⟩
  rw [distinct.count]
  simp only [isChild]

/-- The ancestors of a vertex in the tree are its dominators. -/
theorem ancestor_iff (tracked : d.isTracked v = true) : Ancestor d.tree a v ↔ d.dominatedBy v a = true := by
  constructor
  · intro ancestor
    induction ancestor with
    | self => exact answers.refl tracked
    | above child _ ih =>
      have strict := strict_of_immediate? (answers.isChild_iff.mp child)
      have dominated := (strictlyDominatedBy_iff.mp strict).2
      exact answers.trans dominated (ih (answers.tracked_right dominated))
  · intro dominated
    -- the immediate dominator is less deep, and dominated by `a` too unless it is `a`
    induction size : d.depth v using Nat.strongRecOn generalizing v with
    | _ n ih =>
      by_cases isSelf : a = v
      · subst isSelf
        exact .self
      · have notRoot : v ≠ root := by
          rintro rfl
          exact isSelf (answers.dominated.mp dominated).2.eq_root
        obtain ⟨c, found⟩ := answers.exists_immediate? tracked notRoot
        have strict := strict_of_immediate? found
        have upward := (strictlyDominatedBy_iff.mp strict).2
        have trackedC := answers.tracked_right upward
        have above : d.dominatedBy c a = true := by
          by_cases isParent : a = c
          · subst isParent
            exact answers.refl trackedC
          · exact isClosest_iff.mp (closest_of_immediate? found) a
              (strictlyDominatedBy_iff.mpr ⟨Ne.symm isSelf, dominated⟩) isParent
        have less := answers.depth_lt strict
        exact .above (answers.isChild_iff.mpr found) (ih (d.depth c) (by omega) trackedC above rfl)

end Answers

/-- Immediate dominators form the dominator tree. Of a tracked vertex other than the root exactly one strict dominator
passes the test of being closest, it is the one that is found in whatever order the dominators are gone through, and
every other strict dominator dominates it. The root and what is not tracked have none. In the tree, a vertex has one
entry, every tracked vertex but the root is a child once and nothing else is, and the ancestors of a tracked vertex
are its dominators. -/
theorem ofGraph_forms_tree (g : Graph) (same : g.SameEdges) (root : VertexId) (inside : root < g.store.size)
    (reversed : Bool) :
    let d := ofGraph g root reversed
    (∀ v, d.isTracked v = true → v ≠ root → ∃ c,
      (∀ o, d.strictlyDominatedBy v o = true ∧ d.isClosest v o = true ↔ o = c) ∧
      (∀ o, d.strictlyDominatedBy v o = true → o ≠ c → d.dominatedBy c o = true) ∧
      d.immediate? v = some c) ∧
    (∀ v candidates others, (∀ o, o ∈ candidates ↔ o ∈ d.set v) → (∀ c o, o ∈ others c ↔ o ∈ d.set v) →
      d.search v candidates others = d.immediate? v) ∧
    (∀ v, v = root ∨ d.isTracked v = false → d.immediate? v = none) ∧
    (d.tree.map Prod.fst).Nodup ∧
    (∀ v, (d.tree.flatMap Prod.snd).count v = if d.isTracked v = true ∧ v ≠ root then 1 else 0) ∧
    ∀ a v, d.isTracked v = true → (Ancestor d.tree a v ↔ d.dominatedBy v a = true) := by
  intro d
  have agree := same.agreeFrom reversed root
  have answers : d.Answers (g.along reversed) root := ⟨isTracked_iff agree, dominatedBy_iff agree inside⟩
  refine ⟨?_, fun v candidates others lists listsOthers => answers.search_eq_immediate? lists listsOthers,
    fun v => answers.immediate?_eq_none, nodup_keys_tree, answers.count_children, fun a v => answers.ancestor_iff⟩
  intro v tracked notRoot
  obtain ⟨c, found⟩ := answers.exists_immediate? tracked notRoot
  have closest := isClosest_iff.mp (closest_of_immediate? found)
  refine ⟨c, fun o => ?_, closest, found⟩
  rw [← answers.immediate?_eq_some_iff, found, Option.some.injEq, eq_comm]

/-- In the tangled graph the exit hangs below the first of the two vertices that jump to each other, whether its
dominators are gone through upwards or downwards; over reversed edges that vertex is between the exit and all others. -/
theorem tangled_forms_tree :
    tangled.SameEdges ∧ (ofGraph tangled 0 false).isTracked 4 = true ∧
    (∃ c, (∀ o, (ofGraph tangled 0 false).strictlyDominatedBy 4 o = true ∧
        (ofGraph tangled 0 false).isClosest 4 o = true ↔ o = c) ∧ (ofGraph tangled 0 false).immediate? 4 = some c) ∧
    (ofGraph tangled 0 false).search 4 [4, 1, 0] (fun _ => [0, 4, 1]) = (ofGraph tangled 0 false).immediate? 4 ∧
    (ofGraph tangled 0 false).immediate? 3 = none ∧
    (ofGraph tangled 0 false).tree = [(0, [1, 2]), (1, [4])] ∧
    (Ancestor (ofGraph tangled 4 true).tree 1 3 ↔ (ofGraph tangled 4 true).dominatedBy 3 1 = true) := by
  have same : tangled.SameEdges := by decide
  have tracked : (ofGraph tangled 0 false).isTracked 4 = true := by cbv
  have members (o : VertexId) : o ∈ (ofGraph tangled 0 false).set 4 ↔ o = 0 ∨ o = 1 ∨ o = 4 := by
    have set : (ofGraph tangled 0 false).set 4 = ⟨19⟩ := by cbv
    have list : VertexSet.toList ⟨19⟩ = [0, 1, 4] := by decide
    rw [set, ← VertexSet.mem_toList, list]
    simp
  have tree : (ofGraph tangled 0 false).tree = [(0, [1, 2]), (1, [4])] := by
    have edges : ((ofGraph tangled 0 false).vertices.filterMap fun w =>
        ((ofGraph tangled 0 false).immediate? w).map (·, w)) = [(0, 1), (0, 2), (1, 4)] := by cbv
    rw [Dominators.tree, edges]
    show [(0, sortById [1, 2]), (1, sortById [4])] = _
    rw [sortById_of_pairwise (by decide), sortById_of_pairwise (by decide)]
  obtain ⟨immediate, anyOrder, none, _⟩ := ofGraph_forms_tree tangled same 0 (by decide) false
  obtain ⟨c, unique, _, found⟩ := immediate 4 tracked (by decide)
  obtain ⟨_, _, _, _, _, ancestors⟩ := ofGraph_forms_tree tangled same 4 (by decide) true
  refine ⟨same, tracked, ⟨c, unique, found⟩, anyOrder 4 _ _ ?_ ?_, none 3 (.inr (by cbv)), tree,
    ancestors 1 3 (by cbv)⟩
  · intro o
    rw [members]
    grind
  · intro c o
    rw [members]
    grind

end Dominators

end MiddleEnd
