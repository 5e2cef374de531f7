import MiddleEnd.Proofs.Trail

/-!
What the traversals find. Depth-first search from a root lists exactly the vertices that a path from the root
arrives at (`mem_reversePostOrderFrom`). Both halves are invariants of the search: it never leaves a set
that is closed under edges, and what it has finished has no neighbour left in the pool. A graph notes what was found
from its entry, which stays right until the edges change (`Graph.Cached`).
-/
namespace MiddleEnd

/-- What a depth-first search keeps true: `start` is the pool that it began with. -/
structure SearchInvariant (next : VertexId → List VertexId) (start pool : VertexSet) (stack : List SearchFrame)
    (done : List VertexId) : Prop where
  /-- What left the pool is open or finished. -/
  taken : ∀ s ∈ start, s ∉ pool → s ∈ done ∨ ∃ f ∈ stack, f.1 = s
  /-- A finished vertex has no neighbour in the pool. -/
  finished : ∀ u ∈ done, ∀ s ∈ next u, s ∉ pool
  /-- An open vertex has no neighbour in the pool but those it has yet to look at. -/
  opened : ∀ f ∈ stack, ∀ s ∈ next f.1, s ∈ pool → s ∈ f.2

variable {next : VertexId → List VertexId} {start pool : VertexSet} {stack : List SearchFrame}
  {done : List VertexId} {v s : VertexId} {rest : List VertexId}

namespace SearchInvariant

theorem close (inv : SearchInvariant next start pool ((v, []) :: stack) done) :
    SearchInvariant next start pool stack (v :: done) where
  taken s member gone := by
    rcases inv.taken s member gone with finished | ⟨f, opened, same⟩
    · exact .inl (List.mem_cons_of_mem _ finished)
    · rcases List.mem_cons.mp opened with rfl | deeper
      · exact .inl (by simp [same.symm])
      · exact .inr ⟨f, deeper, same⟩
  finished u member s edge := by
    rcases List.mem_cons.mp member with rfl | earlier
    · intro inPool
      simpa using inv.opened _ (List.mem_cons_self) s edge inPool
    · exact inv.finished u earlier s edge
  opened f member := inv.opened f (List.mem_cons_of_mem _ member)

theorem enter (inv : SearchInvariant next start pool ((v, s :: rest) :: stack) done) :
    SearchInvariant next start (pool.erase s) ((s, next s) :: (v, rest) :: stack) done where
  taken t member gone := by
    by_cases same : t = s
    · exact .inr ⟨_, List.mem_cons_self, same.symm⟩
    · rcases inv.taken t member (fun inPool => gone (by simp [inPool, same])) with finished | ⟨f, opened, is⟩
      · exact .inl finished
      · rcases List.mem_cons.mp opened with rfl | deeper
        · exact .inr ⟨(v, rest), by simp, is⟩
        · exact .inr ⟨f, by simp [deeper], is⟩
  finished u member t edge inPool :=
    inv.finished u member t edge (VertexSet.mem_erase.mp inPool).1
  opened f member t edge inPool := by
    obtain ⟨inPool, other⟩ := VertexSet.mem_erase.mp inPool
    rcases List.mem_cons.mp member with rfl | member
    · exact edge
    · rcases List.mem_cons.mp member with rfl | deeper
      · rcases List.mem_cons.mp (inv.opened _ List.mem_cons_self t edge inPool) with same | later
        · exact absurd same other
        · exact later
      · exact inv.opened f (List.mem_cons_of_mem _ deeper) t edge inPool

theorem pass (inv : SearchInvariant next start pool ((v, s :: rest) :: stack) done) (gone : s ∉ pool) :
    SearchInvariant next start pool ((v, rest) :: stack) done where
  taken t member out := by
    rcases inv.taken t member out with finished | ⟨f, opened, is⟩
    · exact .inl finished
    · rcases List.mem_cons.mp opened with rfl | deeper
      · exact .inr ⟨(v, rest), by simp, is⟩
      · exact .inr ⟨f, by simp [deeper], is⟩
  finished := inv.finished
  opened f member t edge inPool := by
    rcases List.mem_cons.mp member with rfl | deeper
    · rcases List.mem_cons.mp (inv.opened _ List.mem_cons_self t edge inPool) with rfl | later
      · exact absurd inPool gone
      · exact later
    · exact inv.opened f (List.mem_cons_of_mem _ deeper) t edge inPool

end SearchInvariant

/-- The search keeps what was finished and closes what was open; it ends with no neighbour of a finished
vertex left in the pool. -/
theorem depthFirst_complete (inv : SearchInvariant next start pool stack done) :
    (∀ u ∈ done, u ∈ (depthFirst next pool stack done).1) ∧
    (∀ f ∈ stack, f.1 ∈ (depthFirst next pool stack done).1) ∧
    SearchInvariant next start (depthFirst next pool stack done).2 [] (depthFirst next pool stack done).1 := by
  fun_induction depthFirst next pool stack done with
  | case1 pool done => exact ⟨fun _ member => member, by simp, inv⟩
  | case2 pool done v stack ih =>
    obtain ⟨kept, closed, final⟩ := ih inv.close
    refine ⟨fun u member => kept u (List.mem_cons_of_mem _ member), ?_, final⟩
    intro f member
    rcases List.mem_cons.mp member with rfl | deeper
    · exact kept _ List.mem_cons_self
    · exact closed f deeper
  | case3 pool done v s rest stack inPool ih =>
    obtain ⟨kept, closed, final⟩ := ih inv.enter
    refine ⟨kept, ?_, final⟩
    intro f member
    rcases List.mem_cons.mp member with rfl | deeper
    · exact closed (v, rest) (by simp)
    · exact closed f (by simp [deeper])
  | case4 pool done v s rest stack gone ih =>
    obtain ⟨kept, closed, final⟩ := ih (inv.pass gone)
    refine ⟨kept, ?_, final⟩
    intro f member
    rcases List.mem_cons.mp member with rfl | deeper
    · exact closed (v, rest) (by simp)
    · exact closed f (by simp [deeper])

/-- The search stays inside a set that is closed under edges. -/
theorem depthFirst_sound {P : VertexId → Prop} (closed : ∀ u s, P u → s ∈ next u → P s)
    (finished : ∀ u ∈ done, P u) (opened : ∀ f ∈ stack, P f.1 ∧ ∀ s ∈ f.2, P s) :
    ∀ u ∈ (depthFirst next pool stack done).1, P u := by
  fun_induction depthFirst next pool stack done with
  | case1 pool done => exact finished
  | case2 pool done v stack ih =>
    apply ih
    · intro u member
      rcases List.mem_cons.mp member with rfl | earlier
      · exact (opened _ List.mem_cons_self).1
      · exact finished u earlier
    · exact fun f member => opened f (List.mem_cons_of_mem _ member)
  | case3 pool done v s rest stack inPool ih =>
    obtain ⟨here, ahead⟩ := opened _ List.mem_cons_self
    have entered : P s := ahead s List.mem_cons_self
    apply ih finished
    intro f member
    rcases List.mem_cons.mp member with rfl | member
    · exact ⟨entered, fun t edge => closed s t entered edge⟩
    · rcases List.mem_cons.mp member with rfl | deeper
      · exact ⟨here, fun t later => ahead t (List.mem_cons_of_mem _ later)⟩
      · exact opened f (List.mem_cons_of_mem _ deeper)
  | case4 pool done v s rest stack gone ih =>
    obtain ⟨here, ahead⟩ := opened _ List.mem_cons_self
    apply ih finished
    intro f member
    rcases List.mem_cons.mp member with rfl | deeper
    · exact ⟨here, fun t later => ahead t (List.mem_cons_of_mem _ later)⟩
    · exact opened f (List.mem_cons_of_mem _ deeper)

/-- Depth-first search lists exactly what is reachable, when no path leaves the numbers below `size`. -/
theorem mem_reversePostOrderFrom {size : Nat} {root : VertexId}
    (inside : ∀ u, Reachable next root u → ∀ s ∈ next u, s < size) :
    v ∈ reversePostOrderFrom next size root ↔ Reachable next root v := by
  have inv : SearchInvariant next ((VertexSet.below size).erase root) ((VertexSet.below size).erase root)
      [(root, next root)] [] := by
    refine ⟨fun s member gone => absurd member gone, by simp, ?_⟩
    intro f member s edge _
    obtain rfl := List.mem_singleton.mp member
    exact edge
  obtain ⟨_, closed, final⟩ := depthFirst_complete inv
  have rootListed : root ∈ reversePostOrderFrom next size root := closed (root, next root) (by simp)
  have sound : ∀ u ∈ reversePostOrderFrom next size root, Reachable next root u := by
    refine depthFirst_sound (fun u s reached edge => reached.step edge) (by simp) ?_
    intro f member
    obtain rfl := List.mem_singleton.mp member
    exact ⟨.refl, fun s edge => Reachable.refl.step edge⟩
  constructor
  · exact sound v
  · rintro ⟨past, trail⟩
    refine trail.invariant rootListed ?_
    intro u s listed edge
    by_cases same : s = root
    · exact same ▸ rootListed
    · have started : s ∈ (VertexSet.below size).erase root := by simp [inside u (sound u listed) s edge, same]
      rcases final.taken s started (final.finished u listed s edge) with listed | ⟨f, none, _⟩
      · exact listed
      · simp at none

namespace Graph

variable {g h : Graph}

theorem vertex_of_ge (outside : g.store.size ≤ v) : g.vertex v = default := by
  simp [vertex, Array.getD_eq_getD_getElem?, Array.getElem?_eq_none outside]

theorem succs_of_ge (outside : g.store.size ≤ v) : g.succs v = [] := by
  rw [succs, vertex_of_ge outside]
  rfl

theorem preds_of_ge (outside : g.store.size ≤ v) : g.preds v = [] := by
  rw [preds, vertex_of_ge outside]
  rfl

theorem lt_of_mem_succs {w : VertexId} (edge : w ∈ g.succs v) : v < g.store.size := by
  rw [← Nat.not_le]
  intro outside
  simp [succs_of_ge outside] at edge

theorem lt_of_mem_preds {w : VertexId} (edge : w ∈ g.preds v) : v < g.store.size := by
  rw [← Nat.not_le]
  intro outside
  simp [preds_of_ge outside] at edge

/-! ### Noting what can be reached -/

/-- The vertices noted as reachable are, unless the edges changed since. -/
def Cached (g : Graph) : Prop :=
  ∀ ⦃epoch found⦄, g.reach = some (epoch, found) → epoch ≤ g.epoch ∧
    (epoch = g.epoch → ∀ v, v ∈ found ↔ Reachable g.succs g.entry v)

/-- What is noted is out of date after a change of the edges. -/
theorem Cached.later (cached : g.Cached) (reach : h.reach = g.reach) (epoch : g.epoch < h.epoch) : h.Cached := by
  intro noted found isNoted
  have le := (cached (reach ▸ isNoted)).1
  exact ⟨by omega, fun same => by omega⟩

/-- What is noted stays right where the edges do not change. -/
theorem Cached.same (cached : g.Cached) (reach : h.reach = g.reach) (epoch : h.epoch = g.epoch)
    (reachable : ∀ v, Reachable h.succs h.entry v ↔ Reachable g.succs g.entry v) : h.Cached := by
  intro noted found isNoted
  rw [epoch]
  simp only [reachable]
  exact cached (reach ▸ isNoted)

/-- Looking up what can be reached finds just that, and notes it. -/
theorem withReach_spec (inside : ∀ u, Reachable g.succs g.entry u → ∀ s ∈ g.succs u, s < g.store.size) (cached : g.Cached) :
    ∃ found, g.withReach.1 = { g with reach := found } ∧ ({ g with reach := found } : Graph).Cached ∧
      ∀ v, v ∈ g.withReach.2 ↔ Reachable g.succs g.entry v := by
  have listed (v : VertexId) : v ∈ VertexSet.ofList g.reversePostOrder ↔ Reachable g.succs g.entry v := by
    rw [VertexSet.mem_ofList, reversePostOrder]
    exact mem_reversePostOrderFrom inside
  have anew : ({ g with reach := some (g.epoch, VertexSet.ofList g.reversePostOrder) } : Graph).Cached := by
    intro epoch noted isNoted
    obtain ⟨rfl, rfl⟩ := Prod.mk.inj (Option.some.inj isNoted)
    exact ⟨Nat.le_refl _, fun _ => listed⟩
  rw [withReach]
  cases isNoted : g.reach with
  | none => exact ⟨_, rfl, anew, listed⟩
  | some pair =>
    obtain ⟨epoch, before⟩ := pair
    dsimp only
    split
    · rename_i current
      refine ⟨g.reach, rfl, cached, ((cached isNoted).2 current)⟩
    · exact ⟨_, rfl, anew, listed⟩

end Graph

end MiddleEnd
