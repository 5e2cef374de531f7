import MiddleEnd.Proofs.Dominance
import MiddleEnd.Proofs.Removal

/-!
A vertex that is put on edges does not change where they lead. The three insertions take the edges into a vertex, those out
of it, or those between two (`Insertion.Takes`). In each case the new vertex lies on the edges that are taken and on no
others, and looking through it shows every list of successors as it was (`Graph.Carries`). From this alone it follows that
splicing the vertex out again puts the old lists back, as long as it has no more than one successor
(`Graph.Carries.restored`).

A vertex that takes the place of another has its edges instead, under another name (`Graph.Renamed`).
-/
namespace MiddleEnd

/-- The edges on which a vertex can be put: those into a vertex, those out of it, or those between two. -/
inductive Insertion
  | before (v : VertexId)
  | after (v : VertexId)
  | between (source target : VertexId)

namespace Insertion

def run (g : Graph) (n : VertexId) : Insertion → Graph
  | before v => g.insertBefore v n
  | after v => g.insertAfter v n
  | between source target => g.insertOnEdge source target n

/-- Whether the edges from `a` to `b` are among them. -/
def Takes : Insertion → VertexId → VertexId → Prop
  | before v, _, b => b = v
  | after v, a, _ => a = v
  | between source target, a, b => a = source ∧ b = target

/-- It is about other vertices of the graph. -/
def Allowed (g : Graph) (n : VertexId) : Insertion → Prop
  | before v | after v => v ∈ g.listed ∧ v ≠ n
  | between source target => (source ∈ g.listed ∧ source ≠ n) ∧ target ∈ g.listed ∧ target ≠ n

end Insertion

namespace Graph

variable {g h k : Graph} {v w n source target old : VertexId} {l : List VertexId}

/-! ### Looking through a vertex -/

/-- A list of successors with others in the place of every `n`. -/
def opened (n : VertexId) (onward succs : List VertexId) : List VertexId :=
  succs.flatMap fun s => if s = n then onward else [s]

/-- `h` is `g` with `n` on the edges that are taken: `n` leads from one end of an edge to the other just if it is one of
them, none of them goes past `n`, and as many edges as before are left between all other ends. -/
structure Carries (g h : Graph) (n : VertexId) (takes : VertexId → VertexId → Prop) : Prop where
  rewired : g.Rewired h
  wired : h.Wired
  through : ∀ w ∈ g.listed, w ≠ n → opened n (h.succs n) (h.succs w) = g.succs w
  carries : ∀ a ∈ g.listed, ∀ b, n ∈ h.succs a ∧ b ∈ h.succs n ↔ takes a b ∧ b ∈ g.succs a
  taken : ∀ a ∈ g.listed, a ≠ n → ∀ b, b ≠ n → takes a b → b ∉ h.succs a
  kept : ∀ a ∈ g.listed, a ≠ n → ∀ b, b ≠ n → ¬ takes a b → (h.succs a).count b = (g.succs a).count b

theorem opened_of_notMem {onward : List VertexId} (absent : n ∉ l) : opened n onward l = l := by
  rw [opened]
  induction l with
  | nil => rfl
  | cons s l ih =>
    obtain ⟨other, later⟩ : n ≠ s ∧ n ∉ l := by simpa using absent
    rw [List.flatMap_cons, ih later, if_neg (Ne.symm other), List.singleton_append]

theorem opened_singleton : opened n [v] l = turned n v l := by
  rw [opened, turned, List.map_eq_flatMap]
  refine List.flatMap_congr fun s _ => ?_
  split <;> rfl

theorem opened_nil : opened n [] l = l.filter (· ≠ n) := by
  rw [opened]
  induction l with
  | nil => rfl
  | cons s l ih =>
    rw [List.flatMap_cons, ih]
    by_cases isNew : s = n
    · simp [isNew]
    · simp [isNew]

/-- Turning edges there and back. -/
theorem turned_back (absent : n ∉ l) : turned n v (turned v n l) = l := by
  have same : turned n v (turned v n l) = l.map id := by
    rw [turned, turned, List.map_map]
    refine List.map_congr_left fun s member => ?_
    have other : s ≠ n := fun isNew => absent (isNew ▸ member)
    by_cases isV : s = v
    · simp [isV]
    · simp [isV, other]
  rw [same, List.map_id]

theorem mem_turned_new (absent : n ∉ l) : n ∈ turned v n l ↔ v ∈ l := by
  rw [turned, List.mem_map]
  constructor
  · rintro ⟨s, member, same⟩
    split at same
    · exact ‹s = v› ▸ member
    · exact absurd (same ▸ member) absent
  · intro member
    exact ⟨v, member, if_pos rfl⟩

theorem Unconnected.notMem_succs (unconnected : g.Unconnected n) (wired : g.Wired) (member : w ∈ g.listed) :
    n ∉ g.succs w := by
  rw [wired.mem_preds_iff member unconnected.1, unconnected.2.2]
  simp

/-- One way to put a vertex on edges: turn those into the target to it, for some of their sources. -/
theorem Carries.of_turned (via : VertexId → Prop) {takes : VertexId → VertexId → Prop} (wired : g.Wired)
    (unconnected : g.Unconnected n) (rewired : g.Rewired h) (wired' : h.Wired) (notTarget : target ≠ n)
    (takes_iff : ∀ a b, takes a b ↔ via a ∧ b = target) (onward : h.succs n = [target])
    (turns : ∀ w ∈ g.listed, w ≠ n → via w → h.succs w = turned target n (g.succs w))
    (keeps : ∀ w ∈ g.listed, w ≠ n → ¬ via w → h.succs w = g.succs w) : g.Carries h n takes where
  rewired := rewired
  wired := wired'
  through w listed other := by
    have absent := unconnected.notMem_succs wired listed
    by_cases passes : via w
    · rw [onward, turns w listed other passes, opened_singleton, turned_back absent]
    · rw [keeps w listed other passes, opened_of_notMem absent]
  carries a listed b := by
    have absent := unconnected.notMem_succs wired listed
    rw [takes_iff, onward, List.mem_singleton]
    by_cases isNew : a = n
    · subst isNew
      simp [onward, unconnected.2.1, Ne.symm notTarget]
    · by_cases passes : via a
      · rw [turns a listed isNew passes, mem_turned_new absent]
        constructor
        · rintro ⟨edge, rfl⟩
          exact ⟨⟨passes, rfl⟩, edge⟩
        · rintro ⟨⟨_, rfl⟩, edge⟩
          exact ⟨edge, rfl⟩
      · rw [keeps a listed isNew passes]
        simp [absent, passes]
  taken a listed other b _ takes := by
    obtain ⟨passes, rfl⟩ := (takes_iff a b).mp takes
    rw [turns a listed other passes]
    exact notMem_turned notTarget
  kept a listed other b notNew spared := by
    rw [takes_iff, not_and] at spared
    by_cases passes : via a
    · rw [turns a listed other passes, count_turned]
      simp [spared passes, notNew]
    · rw [keeps a listed other passes]

theorem Wired.carries_insertBefore (wired : g.Wired) (unconnected : g.Unconnected n) (listed : v ∈ g.listed) (other : v ≠ n) :
    g.Carries (g.insertBefore v n) n (Insertion.before v).Takes := by
  obtain ⟨wired', succs⟩ := wired.insertBefore listed unconnected.1 unconnected.2.1
  refine .of_turned (fun _ => True) wired unconnected rewired_insertBefore wired' other ?_ ?_ ?_ ?_
  · intro a b
    simp [Insertion.Takes]
  · rw [succs n unconnected.1, if_pos rfl]
  · intro w member notNew _
    rw [succs w member, if_neg notNew]
  · intro w _ _ never
    exact absurd trivial never

theorem Wired.carries_insertOnEdge (wired : g.Wired) (unconnected : g.Unconnected n) (source_listed : source ∈ g.listed)
    (notSource : source ≠ n) (target_listed : target ∈ g.listed) (notTarget : target ≠ n) :
    g.Carries (g.insertOnEdge source target n) n (Insertion.between source target).Takes := by
  obtain ⟨wired', succs⟩ := wired.insertOnEdge source_listed target_listed unconnected.1 notSource unconnected.2.1
  refine .of_turned (· = source) wired unconnected rewired_insertOnEdge wired' notTarget ?_ ?_ ?_ ?_
  · intro a b
    rfl
  · rw [succs n, if_pos rfl]
  · rintro w _ notNew rfl
    rw [succs w, if_neg notNew, if_pos rfl]
  · intro w _ notNew notSource
    rw [succs w, if_neg notNew, if_neg notSource]

/-- The new vertex takes all successors over, so nothing has to be turned. -/
theorem Wired.carries_insertAfter (wired : g.Wired) (unconnected : g.Unconnected n) (listed : v ∈ g.listed) (other : v ≠ n) :
    g.Carries (g.insertAfter v n) n (Insertion.after v).Takes := by
  have noSuccs := unconnected.2.1
  have inside := wired.listed_lt v listed
  have insideNew := wired.listed_lt n unconnected.1
  have absent {w : VertexId} (member : w ∈ g.listed) := unconnected.notMem_succs wired member
  have succs (w : VertexId) : (g.insertAfter v n).succs w =
      if w = n then g.succs v else if w = v then [n] else g.succs w :=
    succs_insertAfter inside insideNew other
  have onward : (g.insertAfter v n).succs n = g.succs v := by rw [succs, if_pos rfl]
  have first : (g.insertAfter v n).succs v = [n] := by rw [succs, if_neg other, if_pos rfl]
  have rest {w : VertexId} (notNew : w ≠ n) (notV : w ≠ v) : (g.insertAfter v n).succs w = g.succs w := by
    rw [succs, if_neg notNew, if_neg notV]
  have rewired := rewired_insertAfter inside insideNew other
  have wired' := wired.insertAfter listed unconnected.1 other noSuccs unconnected.2.2
  refine ⟨rewired, wired', ?_, ?_, ?_, ?_⟩
  · intro w member notNew
    rw [onward]
    by_cases isV : w = v
    · rw [isV, first, opened, List.flatMap_singleton, if_pos rfl]
    · rw [rest notNew isV, opened_of_notMem (absent member)]
  · intro a member b
    rw [onward, Insertion.Takes]
    by_cases isNew : a = n
    · rw [isNew, onward]
      simp [absent listed, noSuccs]
    · by_cases isV : a = v
      · rw [isV, first]
        simp
      · rw [rest isNew isV]
        simp [absent member, isV]
  · rintro a _ _ b notNew rfl
    rw [first, List.mem_singleton]
    exact notNew
  · intro a _ isOld b _ spared
    rw [rest isOld spared]

theorem Wired.carries_insertion (wired : g.Wired) (unconnected : g.Unconnected n) {i : Insertion} (allowed : i.Allowed g n) :
    g.Carries (i.run g n) n i.Takes := by
  cases i with
  | before v => exact wired.carries_insertBefore unconnected allowed.1 allowed.2
  | after v => exact wired.carries_insertAfter unconnected allowed.1 allowed.2
  | between source target =>
    obtain ⟨⟨source_listed, notSource⟩, target_listed, notTarget⟩ := allowed
    exact wired.carries_insertOnEdge unconnected source_listed notSource target_listed notTarget

/-! ### Splicing it out again -/

/-- Lists of predecessors agree if as many edges lead to their vertex from everywhere. -/
theorem Wired.perm_preds (wired : g.Wired) (wired' : h.Wired) (member : w ∈ g.listed) (member' : v ∈ h.listed)
    (edges : ∀ u, h.edgeCount u v = g.edgeCount u w) : (h.preds v).Perm (g.preds w) := by
  rw [List.perm_iff_count]
  intro u
  rw [wired'.count_preds member', wired.count_preds member, edges]

theorem Drains.preds_eq_nil (drains : Drains v g h) : h.preds v = [] := by
  induction drains with
  | out _ _ ih => exact ih
  | into _ _ _ ih => exact ih
  | done _ noPreds => exact noPreds

/-- What is spliced out keeps no edges. -/
theorem Wired.edges_splice (wired : g.Wired) (member : v ∈ g.listed) (notEntry : v ≠ g.entry) :
    (g.splice v).succs v = [] ∧ (g.splice v).preds v = [] := by
  have rewired : g.Rewired (g.bypassed v) := rewired_bypassed
  have member' : v ∈ (g.bypassed v).listed := rewired.listed ▸ member
  obtain ⟨_, _, noSuccs, _⟩ := (wired.bypassed member).detach member' (rewired.entry ▸ notEntry)
  obtain ⟨h, drains, same⟩ := (wired.bypassed member).drains member'
  rw [splice_eq]
  refine ⟨noSuccs, ?_⟩
  rw [same, preds_drop, drains.preds_eq_nil]

namespace Carries

variable {takes : VertexId → VertexId → Prop}

theorem notMem_onward (carries : g.Carries h n takes) (unconnected : g.Unconnected n) : n ∉ h.succs n := by
  intro loop
  obtain ⟨_, edge⟩ := (carries.carries n unconnected.1 n).mp ⟨loop, loop⟩
  simp [unconnected.2.1] at edge

/-- With one successor it leaves that one in its place, with none it leaves nothing: what is seen through it. -/
theorem succs_splice (carries : g.Carries h n takes) (unconnected : g.Unconnected n) (notEntry : n ≠ g.entry)
    (few : (h.succs n).length ≤ 1) (listed : w ∈ g.listed) (other : w ≠ n) : (h.splice n).succs w = g.succs w := by
  have member : n ∈ h.listed := carries.rewired.listed ▸ unconnected.1
  have listed' : w ∈ h.listed := carries.rewired.listed ▸ listed
  rw [← carries.through w listed other]
  cases onward : h.succs n with
  | nil =>
    rw [splice, onward]
    show (h.detach n).succs w = _
    rw [carries.wired.succs_detach member listed' other, opened_nil]
  | cons s rest =>
    obtain rfl : rest = [] := List.eq_nil_of_length_eq_zero (by rw [onward] at few; simpa using few)
    have apart : n ≠ s := by
      rintro rfl
      exact carries.notMem_onward unconnected (by simp [onward])
    have spliced := carries.wired.splice member (carries.rewired.entry ▸ notEntry) onward apart
    rw [spliced.succs listed' other, opened_singleton]

/-- The lists of edges are as they were before the vertex was inserted. -/
theorem restored (carries : g.Carries h n takes) (wired : g.Wired) (unconnected : g.Unconnected n) (notEntry : n ≠ g.entry)
    (notExit : n ≠ g.exit) (few : (h.succs n).length ≤ 1) :
    ∃ k, h.remove n = .ok k ∧ g.Without k n ∧
      ∀ w ∈ g.listed, k.succs w = g.succs w ∧ (k.preds w).Perm (g.preds w) := by
  have rewired := carries.rewired
  have member : n ∈ h.listed := rewired.listed ▸ unconnected.1
  have notEntry' : n ≠ h.entry := rewired.entry ▸ notEntry
  have free : h.removeObstacle n = none := by
    rw [removeObstacle_eq_none_iff, rewired.entry, rewired.exit]
    simp [notEntry, notExit, few]
  obtain ⟨wired', without⟩ := carries.wired.without_splice member notEntry'
  obtain ⟨noSuccs', noPreds'⟩ := carries.wired.edges_splice member notEntry'
  have without := rewired.without without
  have succs {w : VertexId} (listed : w ∈ g.listed) : (h.splice n).succs w = g.succs w := by
    by_cases isNew : w = n
    · rw [isNew, noSuccs', unconnected.2.1]
    · exact carries.succs_splice unconnected notEntry few listed isNew
  refine ⟨h.splice n, by rw [remove, free], without, fun w listed => ⟨succs listed, ?_⟩⟩
  by_cases isNew : w = n
  · rw [isNew, noPreds', unconnected.2.2]
  · have listed' : w ∈ (h.splice n).listed := by
      rw [without.listed]
      exact (List.mem_erase_of_ne isNew).mpr listed
    refine wired.perm_preds wired' listed listed' fun u => ?_
    by_cases isNew : u = n
    · simp [edgeCount, isNew, noSuccs', unconnected.2.1]
    · have still : u ∈ (h.splice n).listed ↔ u ∈ g.listed := by
        rw [without.listed]
        exact List.mem_erase_of_ne isNew
      rw [edgeCount, edgeCount]
      simp only [still]
      split
      · rename_i source
        rw [succs source]
      · rfl

end Carries

/-! ### Another name -/

/-- The vertex `n` stands for `old`. -/
def renamed (old n w : VertexId) : VertexId :=
  if w = old then n else w

/-- `h` is `g` with `n` instead of `old` wherever that occurs; `old` has no edges any more. -/
structure Renamed (g h : Graph) (old n : VertexId) : Prop where
  entry : h.entry = renamed old n g.entry
  exit : h.exit = renamed old n g.exit
  listed : h.listed = g.listed.erase old
  succs : ∀ w ∈ g.listed, w ≠ n → h.succs (renamed old n w) = (g.succs w).map (renamed old n)
  preds : ∀ w ∈ g.listed, w ≠ n → (h.preds (renamed old n w)).Perm ((g.preds w).map (renamed old n))
  noSuccs : h.succs old = []
  noPreds : h.preds old = []

@[simp] theorem renamed_old : renamed old n old = n :=
  if_pos rfl

theorem renamed_of_ne (other : w ≠ old) : renamed old n w = w :=
  if_neg other

/-- Every name but the old one is in use for some vertex other than `n`. -/
theorem exists_renamed (other : old ≠ n) (notOld : w ≠ old) : ∃ u, u ≠ n ∧ renamed old n u = w := by
  by_cases isNew : w = n
  · exact ⟨old, other, isNew ▸ renamed_old⟩
  · exact ⟨w, isNew, renamed_of_ne notOld⟩

theorem count_map_renamed (absent : n ∉ l) (notNew : w ≠ n) :
    (l.map (renamed old n)).count (renamed old n w) = l.count w := by
  refine (count_turned l).trans ?_
  by_cases isOld : w = old
  · subst isOld
    simp [Ne.symm notNew, List.count_eq_zero.mpr absent]
  · simp [renamed_of_ne isOld, isOld, notNew]

namespace Superseded

variable {u : VertexId}

theorem renamed_listed_iff (superseded : g.Superseded h old n) (new_listed : n ∈ g.listed) (old_listed : old ∈ g.listed)
    (other : old ≠ n) : renamed old n w ∈ h.listed ↔ w ∈ g.listed := by
  rw [superseded.listed]
  by_cases isOld : w = old
  · rw [isOld, renamed_old, List.mem_erase_of_ne (Ne.symm other)]
    exact iff_of_true new_listed old_listed
  · rw [renamed_of_ne isOld, List.mem_erase_of_ne isOld]

theorem succs_renamed (superseded : g.Superseded h old n) (new_listed : n ∈ g.listed) (other : old ≠ n)
    (listed : w ∈ g.listed) (notNew : w ≠ n) : h.succs (renamed old n w) = (g.succs w).map (renamed old n) := by
  by_cases isOld : w = old
  · rw [isOld, renamed_old, superseded.succs new_listed (Ne.symm other), if_pos rfl]
    rfl
  · rw [renamed_of_ne isOld, superseded.succs listed isOld, if_neg notNew]
    rfl

theorem edgeCount_renamed (superseded : g.Superseded h old n) (wired : g.Wired) (unconnected : g.Unconnected n)
    (old_listed : old ∈ g.listed) (other : old ≠ n) (source : u ≠ n) (target : w ≠ n) :
    h.edgeCount (renamed old n u) (renamed old n w) = g.edgeCount u w := by
  rw [edgeCount, edgeCount]
  simp only [superseded.renamed_listed_iff unconnected.1 old_listed other]
  split
  · rename_i listed
    rw [superseded.succs_renamed unconnected.1 other listed source,
      count_map_renamed (unconnected.notMem_succs wired listed) target]
  · rfl

end Superseded

theorem Wired.renamed_replace (wired : g.Wired) (unconnected : g.Unconnected n) (old_listed : old ∈ g.listed)
    (other : old ≠ n) : g.Renamed (g.replace old n) old n := by
  have superseded := wired.supersede old_listed unconnected.1 other unconnected.2.1
  obtain ⟨noSuccs, noPreds⟩ := wired.edges_replace_old old_listed unconnected.1 other unconnected.2.1
  refine ⟨superseded.entry, superseded.exit, superseded.listed, ?_, fun w listed notNew => ?_, noSuccs, noPreds⟩
  · intro w listed notNew
    exact superseded.succs_renamed unconnected.1 other listed notNew
  · have absent : n ∉ g.preds w := by
      rw [← wired.mem_preds_iff unconnected.1 listed, unconnected.2.1]
      simp
    rw [List.perm_iff_count]
    intro u
    rw [superseded.wired.count_preds ((superseded.renamed_listed_iff unconnected.1 old_listed other).mpr listed)]
    by_cases isOld : u = old
    · have nothing : old ∉ (g.preds w).map (renamed old n) := notMem_turned other
      rw [isOld, edgeCount, noSuccs, List.count_eq_zero.mpr nothing]
      simp
    · obtain ⟨u, source, rfl⟩ := exists_renamed other isOld
      rw [superseded.edgeCount_renamed wired unconnected old_listed other source notNew, count_map_renamed absent source,
        wired.count_preds listed]

/-! ### Insertion, splicing out and replacement together -/

/-- Whatever edges an unconnected vertex is put on, it lies on just those, the others see through it what they saw before,
and splicing it out leaves the edges as they were. Put in the place of another vertex, it has the edges of that. -/
theorem insertions_transparent (wired : g.Wired) (unconnected : g.Unconnected n) (notEntry : n ≠ g.entry)
    (notExit : n ≠ g.exit) :
    (∀ i : Insertion, i.Allowed g n →
      g.Carries (i.run g n) n i.Takes ∧
      (((i.run g n).succs n).length ≤ 1 → ∃ k, (i.run g n).remove n = .ok k ∧ g.Without k n ∧
        ∀ w ∈ g.listed, k.succs w = g.succs w ∧ (k.preds w).Perm (g.preds w))) ∧
    ∀ old ∈ g.listed, old ≠ n → g.Renamed (g.replace old n) old n := by
  constructor
  · intro i allowed
    have carries := wired.carries_insertion unconnected allowed
    exact ⟨carries, carries.restored wired unconnected notEntry notExit⟩
  · intro old listed other
    exact wired.renamed_replace unconnected listed other

/-- The tangled graph with a vertex that has no edges. -/
def loosened : Graph :=
  Dominators.tangled.addVertex .label none []

/-- Both of the parallel edges get the vertex, and lose it again. A loop stays one under another name. -/
theorem loosened_transparent : loosened.Wired ∧ loosened.Unconnected 5 ∧
    (loosened.insertOnEdge 0 2 5).succs 0 = [1, 5, 5] ∧
    (∃ k, (loosened.insertOnEdge 0 2 5).remove 5 = .ok k ∧ k.succs 0 = [1, 2, 2] ∧ (k.preds 2).Perm [0, 0, 1, 2]) ∧
    (loosened.replace 2 5).succs 5 = [1, 5] := by
  have wired : loosened.Wired := ⟨by decide, by decide, by decide, by decide, by decide⟩
  have unconnected : loosened.Unconnected 5 := by decide
  obtain ⟨inserting, replacing⟩ := insertions_transparent wired unconnected (by decide) (by decide)
  obtain ⟨_, restored⟩ := inserting (.between 0 2) ⟨⟨by decide, by decide⟩, by decide, by decide⟩
  obtain ⟨k, removed, _, lists⟩ := restored (by decide)
  have renamed := replacing 2 (by decide) (by decide)
  refine ⟨wired, unconnected, by decide, ⟨k, removed, ?_⟩, renamed.succs 2 (by decide) (by decide)⟩
  exact ⟨(lists 0 (by decide)).1, (lists 2 (by decide)).2⟩

end Graph

end MiddleEnd
