import MiddleEnd.Proofs.FinishingOrder
import MiddleEnd.Proofs.PhiCycles

/-!
Strongly connected components. The second search goes against the edges, from the vertices that the first one finished last.
What it gathers from such a leader leads to the leader through vertices that were finished before it, so the leader reaches
it too; and what is on a path between the two is never gathered earlier, since whole components leave the pool
(`Sweep.mem_gather_iff`). What is left in the pool has no edge into a component that left it, which is why the components
come out in topological order.
-/
namespace MiddleEnd

/-- Each of two vertices can be reached from the other. -/
def Mutual (next : VertexId → List VertexId) (u v : VertexId) : Prop :=
  Reachable next u v ∧ Reachable next v u

/-- Two maps describe the same edges between the vertices `vs`, one by their targets and one by their sources. How often
an edge is listed plays no role. -/
structure Transposed (vs : List VertexId) (succs preds : VertexId → List VertexId) : Prop where
  succs_mem : ∀ u ∈ vs, ∀ w ∈ succs u, w ∈ vs
  preds_mem : ∀ w ∈ vs, ∀ u ∈ preds w, u ∈ vs
  edge_iff : ∀ u ∈ vs, ∀ w ∈ vs, w ∈ succs u ↔ u ∈ preds w

variable {next succs preds : VertexId → List VertexId} {pool start : VertexSet} {u v w leader : VertexId}
  {vs done order : List VertexId}

theorem Mutual.refl : Mutual next v v :=
  ⟨.refl, .refl⟩

theorem Mutual.trans (first : Mutual next u v) (second : Mutual next v w) : Mutual next u w :=
  ⟨first.1.trans second.1, second.2.trans first.2⟩

theorem Mutual.symm (both : Mutual next u v) : Mutual next v u :=
  ⟨both.2, both.1⟩

/-! ### The first search -/

/-- A search only takes from the pool. -/
theorem mem_pool_of_depthFirst {stack : List SearchFrame} (left : v ∈ (depthFirst next pool stack done).2) : v ∈ pool := by
  fun_induction depthFirst next pool stack done with
  | case1 pool done => exact left
  | case2 pool done v stack ih => exact ih left
  | case3 pool done v s rest stack inPool ih => exact (VertexSet.mem_erase.mp (ih left)).1
  | case4 pool done v s rest stack gone ih => exact ih left

/-- Searching from several roots keeps the order of finish, and leaves no root in the pool. -/
theorem depthFirstAll_finish (roots : List VertexId) (inv : FinishInvariant next start pool [] done) :
    ∃ left, FinishInvariant next start left [] (depthFirstAll next roots pool done) ∧
      (∀ v ∈ left, v ∈ pool) ∧ ∀ root ∈ roots, root ∉ left := by
  induction roots generalizing pool done with
  | nil => exact ⟨pool, inv, fun _ member => member, by simp⟩
  | cons root roots ih =>
    rw [depthFirstAll]
    split
    · rename_i inPool
      obtain ⟨left, final, sub, none⟩ := ih (inv.begin inPool).depthFirst
      have kept (v : VertexId) (member : v ∈ left) : v ∈ pool.erase root := mem_pool_of_depthFirst (sub v member)
      refine ⟨left, final, fun v member => (VertexSet.mem_erase.mp (kept v member)).1, ?_⟩
      refine List.forall_mem_cons.mpr ⟨fun member => ?_, none⟩
      simpa using kept root member
    · rename_i gone
      obtain ⟨left, final, sub, none⟩ := ih inv
      exact ⟨left, final, sub, List.forall_mem_cons.mpr ⟨fun member => gone (sub root member), none⟩⟩

/-- The first search lists every vertex once, in the order of finish. -/
theorem depthFirstAll_spec (next : VertexId → List VertexId) (vs : List VertexId) :
    FinishOrder next (depthFirstAll next vs (VertexSet.ofList vs) []) ∧
      (depthFirstAll next vs (VertexSet.ofList vs) []).Nodup ∧
      ∀ v, v ∈ depthFirstAll next vs (VertexSet.ofList vs) [] ↔ v ∈ vs := by
  have begins : FinishInvariant next (VertexSet.ofList vs) (VertexSet.ofList vs) [] [] := .initial _
  obtain ⟨left, final, _, none⟩ := depthFirstAll_finish vs begins
  have distinct := final.distinct
  have seen := final.seen
  rw [List.map_nil, List.append_nil] at distinct seen
  refine ⟨final.order, distinct, fun v => ⟨fun listed => VertexSet.mem_ofList.mp (seen v listed).1, fun member => ?_⟩⟩
  exact (final.taken v (VertexSet.mem_ofList.mpr member) (none v member)).resolve_right (by simp)

/-! ### Gathering a component -/

theorem VertexSet.nodup_takeFresh (pool : VertexSet) (ws : List VertexId) : (pool.takeFresh ws).2.Nodup := by
  induction ws generalizing pool with
  | nil => exact .nil
  | cons w ws ih =>
    rw [takeFresh]
    split
    · refine List.nodup_cons.mpr ⟨fun again => ?_, ih _⟩
      simpa using (mem_takeFresh_fresh.mp again).1
    · exact ih pool

/-- Gathering moves vertices from the pool to the members, and nothing else. -/
theorem mem_gather_iff (next : VertexId → List VertexId) (pool : VertexSet) (queue members : List VertexId) (v : VertexId) :
    v ∈ (gather next pool queue members).1 ↔
      v ∈ members ∨ v ∈ queue ∨ v ∈ pool ∧ v ∉ (gather next pool queue members).2 := by
  fun_induction gather next pool queue members with
  | case1 pool members => simp
  | case2 pool members u queue fresh ih =>
    have left := (@mem_gather next fresh.1 (queue ++ fresh.2) (members ++ [u])).2 v
    have split : v ∈ pool ↔ v ∈ fresh.1 ∨ v ∈ fresh.2 := by
      rw [VertexSet.mem_takeFresh_rest, VertexSet.mem_takeFresh_fresh]
      grind
    have apart : v ∈ fresh.2 → v ∉ fresh.1 := by
      rw [VertexSet.mem_takeFresh_rest, VertexSet.mem_takeFresh_fresh]
      grind
    rw [ih]
    simp only [List.mem_append, List.mem_cons, List.not_mem_nil, or_false]
    grind

/-- No vertex is gathered twice. -/
theorem nodup_gather (next : VertexId → List VertexId) (pool : VertexSet) (queue members : List VertexId)
    (distinct : (members ++ queue).Nodup) (taken : ∀ v ∈ members ++ queue, v ∉ pool) :
    (gather next pool queue members).1.Nodup := by
  fun_induction gather next pool queue members with
  | case1 pool members => simpa using distinct
  | case2 pool members u queue fresh ih =>
    apply ih
    · rw [List.append_assoc, List.singleton_append, ← List.cons_append, ← List.append_assoc, List.nodup_append]
      refine ⟨distinct, VertexSet.nodup_takeFresh .., ?_⟩
      rintro v old _ new rfl
      exact taken v old (VertexSet.mem_takeFresh_fresh.mp new).1
    · intro v member still
      obtain ⟨inPool, notNext⟩ := VertexSet.mem_takeFresh_rest.mp still
      rw [List.append_assoc, List.singleton_append, ← List.cons_append, ← List.append_assoc, List.mem_append] at member
      rcases member with old | new
      · exact taken v old inPool
      · exact notNext (VertexSet.mem_takeFresh_fresh.mp new).2

/-- What was gathered has no neighbour left in the pool. -/
theorem gather_complete (next : VertexId → List VertexId) (pool : VertexSet) (queue members : List VertexId)
    (looked : ∀ u ∈ members, ∀ p ∈ next u, p ∉ pool) :
    ∀ u ∈ (gather next pool queue members).1, ∀ p ∈ next u, p ∉ (gather next pool queue members).2 := by
  fun_induction gather next pool queue members with
  | case1 pool members => exact looked
  | case2 pool members v queue fresh ih =>
    refine ih fun u member p edge still => ?_
    obtain ⟨inPool, notNext⟩ := VertexSet.mem_takeFresh_rest.mp still
    rcases List.mem_append.mp member with old | new
    · exact looked u old p edge inPool
    · exact notNext (List.mem_singleton.mp new ▸ edge)

/-- Gathering stays inside a set that is closed under edges within the pool. -/
theorem gather_sound {P : VertexId → Prop} {pool : VertexSet} {queue members : List VertexId}
    (closed : ∀ u p, P u → p ∈ next u → p ∈ pool → P p) (found : ∀ v ∈ members, P v) (queued : ∀ v ∈ queue, P v) :
    ∀ v ∈ (gather next pool queue members).1, P v := by
  fun_induction gather next pool queue members with
  | case1 pool members => exact found
  | case2 pool members u queue fresh ih =>
    obtain ⟨here, later⟩ := List.forall_mem_cons.mp queued
    refine ih (fun w p holds edge still => closed w p holds edge (VertexSet.mem_takeFresh_rest.mp still).1) ?_ ?_
    · exact List.forall_mem_append.mpr ⟨found, List.forall_mem_singleton.mpr here⟩
    · refine List.forall_mem_append.mpr ⟨later, fun w new => ?_⟩
      obtain ⟨inPool, edge⟩ := VertexSet.mem_takeFresh_fresh.mp new
      exact closed u w here edge inPool

/-! ### Gathering all components -/

/-- What holds before the next leader is taken: `order` is what is left of the order of finish, and `pool` the vertices
that are in no component yet. -/
structure Sweep (vs : List VertexId) (succs : VertexId → List VertexId) (order : List VertexId) (pool : VertexSet) :
    Prop where
  finish : FinishOrder succs order
  ahead : ∀ v ∈ pool, v ∈ order
  inside : ∀ v ∈ pool, v ∈ vs
  whole : ∀ u v, u ∈ pool → Mutual succs u v → v ∈ pool

namespace Sweep

/-- What leads to the leader within the pool is reached by it. -/
theorem reachable_of_trail (sweep : Sweep vs succs (leader :: order) pool) {past : List VertexId}
    (trail : Trail succs v past leader) (through : ∀ w ∈ past, w ∈ pool) : Reachable succs leader v := by
  by_cases passed : leader ∈ past
  · -- the path may end at its first visit
    obtain ⟨before, later, rfl, first⟩ := List.eq_append_cons_of_mem passed
    refine sweep.finish.1 v before trail.split.1 fun w early => ?_
    refine (List.mem_cons.mp (sweep.ahead w (through w (List.mem_append_left _ early)))).resolve_left ?_
    rintro rfl
    exact first early
  · refine sweep.finish.1 v past trail fun w isPast => ?_
    refine (List.mem_cons.mp (sweep.ahead w (through w isPast))).resolve_left ?_
    rintro rfl
    exact passed isPast

section
variable (edges : Transposed vs succs preds) (sweep : Sweep vs succs (leader :: order) pool) (inPool : leader ∈ pool)
include edges sweep inPool

/-- The members gathered from a leader are its component. -/
theorem mem_gather_iff : v ∈ (gather preds (pool.erase leader) [leader] []).1 ↔ Mutual succs leader v := by
  have isMember := MiddleEnd.mem_gather_iff preds (pool.erase leader) [leader] []
  have complete := gather_complete preds (pool.erase leader) [leader] [] (by simp)
  constructor
  · intro member
    have leads : v ∈ pool ∧ ∃ past, Trail succs v past leader ∧ ∀ w ∈ past, w ∈ pool := by
      refine gather_sound (P := fun v => v ∈ pool ∧ ∃ past, Trail succs v past leader ∧ ∀ w ∈ past, w ∈ pool) ?_
        (by simp) (List.forall_mem_singleton.mpr ⟨inPool, [], .start, by simp⟩) v member
      rintro u p ⟨isIn, past, trail, through⟩ edge left
      have source := (VertexSet.mem_erase.mp left).1
      have forward := (edges.edge_iff p (sweep.inside p source) u (sweep.inside u isIn)).mpr edge
      exact ⟨source, p :: past, trail.cons forward, List.forall_mem_cons.mpr ⟨source, through⟩⟩
    obtain ⟨_, past, trail, through⟩ := leads
    exact ⟨sweep.reachable_of_trail trail through, past, trail⟩
  · rintro ⟨onward, past, trail⟩
    -- everything on the way back to the leader is in its component, and so still in the pool
    induction past generalizing v with
    | nil =>
      obtain rfl := trail.eq_root
      exact (isMember v).mpr (.inr (.inl List.mem_cons_self))
    | cons u past ih =>
      obtain ⟨rfl, s, edge, rest⟩ := Trail.cons_iff.mp trail
      have member := ih (onward.step edge) rest
      have here : u ∈ pool := sweep.whole leader u inPool ⟨onward, trail.reachable⟩
      have there : s ∈ pool := sweep.whole leader s inPool ⟨onward.step edge, rest.reachable⟩
      have back := (edges.edge_iff u (sweep.inside u here) s (sweep.inside s there)).mp edge
      by_cases isLeader : u = leader
      · exact (isMember u).mpr (.inr (.inl (by simp [isLeader])))
      · exact (isMember u).mpr (.inr (.inr ⟨by simp [here, isLeader], complete s member u back⟩))

/-- What is left of the pool is all that is not in the component. -/
theorem mem_left_iff : v ∈ (gather preds (pool.erase leader) [leader] []).2 ↔ v ∈ pool ∧ ¬ Mutual succs leader v := by
  have isMember := MiddleEnd.mem_gather_iff preds (pool.erase leader) [leader] []
  have left := (@mem_gather preds (pool.erase leader) [leader] []).2
  rw [← mem_gather_iff edges sweep inPool, isMember]
  constructor
  · intro still
    obtain ⟨isIn, other⟩ := VertexSet.mem_erase.mp (left v still)
    exact ⟨isIn, by simp [other, still]⟩
  · rintro ⟨isIn, notMember⟩
    by_contra gone
    apply notMember
    by_cases isLeader : v = leader
    · exact .inr (.inl (by simp [isLeader]))
    · exact .inr (.inr ⟨by simp [isIn, isLeader], gone⟩)

/-- Whole components leave the pool. -/
theorem step : Sweep vs succs order (gather preds (pool.erase leader) [leader] []).2 where
  finish := sweep.finish.2
  ahead v still := by
    obtain ⟨isIn, apart⟩ := (mem_left_iff edges sweep inPool).mp still
    refine (List.mem_cons.mp (sweep.ahead v isIn)).resolve_left ?_
    rintro rfl
    exact apart .refl
  inside v still := sweep.inside v ((mem_left_iff edges sweep inPool).mp still).1
  whole u v still both := by
    obtain ⟨isIn, apart⟩ := (mem_left_iff edges sweep inPool).mp still
    exact (mem_left_iff edges sweep inPool).mpr ⟨sweep.whole u v isIn both, fun with_ => apart (with_.trans both.symm)⟩

end

/-- A vertex that is in a component already leads nothing. -/
theorem skip (sweep : Sweep vs succs (leader :: order) pool) (gone : leader ∉ pool) : Sweep vs succs order pool where
  finish := sweep.finish.2
  ahead v isIn := by
    refine (List.mem_cons.mp (sweep.ahead v isIn)).resolve_left ?_
    rintro rfl
    exact gone isIn
  inside := sweep.inside
  whole := sweep.whole

/-- What the sweep comes to: the pool in components, each of which is one, with no edge from a later to an earlier one. -/
theorem gatherAll (edges : Transposed vs succs preds) (sweep : Sweep vs succs order pool) :
    ((gatherAll preds order pool).flatten.Nodup ∧ ∀ v, v ∈ (gatherAll preds order pool).flatten ↔ v ∈ pool) ∧
    (∀ c ∈ gatherAll preds order pool, ∃ l, ∀ v, v ∈ c ↔ Mutual succs l v) ∧
    (gatherAll preds order pool).Pairwise fun c d => ∀ w ∈ c, ∀ u ∈ d, w ∉ succs u := by
  induction order generalizing pool with
  | nil =>
    have empty (v : VertexId) : v ∉ pool := fun isIn => by simpa using sweep.ahead v isIn
    simp [MiddleEnd.gatherAll, empty]
  | cons leader order ih =>
    rw [MiddleEnd.gatherAll]
    split
    · rename_i inPool
      have isMember {v : VertexId} := mem_gather_iff (v := v) edges sweep inPool
      have isLeft {v : VertexId} := mem_left_iff (v := v) edges sweep inPool
      have nodup := nodup_gather preds (pool.erase leader) [leader] [] (by simp) (by simp)
      have complete := gather_complete preds (pool.erase leader) [leader] [] (by simp)
      obtain ⟨⟨distinct, covered⟩, classes, ordered⟩ := ih (sweep.step edges inPool)
      refine ⟨⟨?_, fun v => ?_⟩, ?_, ?_⟩
      · rw [List.flatten_cons, List.nodup_append]
        refine ⟨nodup, distinct, ?_⟩
        rintro v first _ later rfl
        exact (isLeft.mp ((covered v).mp later)).2 (isMember.mp first)
      · rw [List.flatten_cons, List.mem_append, isMember, covered, isLeft]
        by_cases both : Mutual succs leader v
        · simp [both, sweep.whole leader v inPool both]
        · simp [both]
      · exact List.forall_mem_cons.mpr ⟨⟨leader, fun v => isMember⟩, classes⟩
      · refine List.pairwise_cons.mpr ⟨fun d later w member u inLater edge => ?_, ordered⟩
        have left := (covered u).mp (List.mem_flatten.mpr ⟨d, later, inLater⟩)
        have source := sweep.inside u (isLeft.mp left).1
        have target := sweep.inside w (sweep.whole leader w inPool (isMember.mp member))
        exact complete w member u ((edges.edge_iff u source w target).mp edge) left
    · rename_i gone
      exact ih (sweep.skip gone)

end Sweep

theorem Transposed.sweep (edges : Transposed vs succs preds) :
    Sweep vs succs (depthFirstAll succs vs (VertexSet.ofList vs) []) (VertexSet.ofList vs) := by
  obtain ⟨finish, _, listed⟩ := depthFirstAll_spec succs vs
  refine ⟨finish, fun v member => (listed v).mpr (VertexSet.mem_ofList.mp member),
    fun v member => VertexSet.mem_ofList.mp member, ?_⟩
  rintro u v member ⟨⟨past, trail⟩, _⟩
  rw [VertexSet.mem_ofList] at member ⊢
  exact trail.invariant member fun w s isIn edge => edges.succs_mem w isIn s edge

/-- The strongly connected components of some vertices are a partition of them. Two vertices share a component iff each can
be reached from the other, and an edge from one component to another leads to one that comes later. -/
theorem stronglyConnected_components (vs : List VertexId) (succs preds : VertexId → List VertexId) (once : vs.Nodup)
    (edges : Transposed vs succs preds) :
    let components := stronglyConnected vs succs preds
    (components.flatten.Perm vs ∧ ∀ c ∈ components, c ≠ []) ∧
    (∀ u ∈ vs, ∀ v ∈ vs, (∃ c ∈ components, u ∈ c ∧ v ∈ c) ↔ Reachable succs u v ∧ Reachable succs v u) ∧
    ∀ (i j : Nat) (c d : List VertexId), components[i]? = some c → components[j]? = some d → i ≠ j →
      ∀ u ∈ c, ∀ w ∈ d, w ∈ succs u → i < j := by
  intro components
  obtain ⟨⟨distinct, covered⟩, classes, ordered⟩ := edges.sweep.gatherAll edges
  have covered (v : VertexId) : v ∈ components.flatten ↔ v ∈ vs := (covered v).trans VertexSet.mem_ofList
  refine ⟨⟨?_, fun c isComponent => ?_⟩, fun u isIn v _ => ⟨?_, fun both => ?_⟩, ?_⟩
  · exact (List.perm_ext_iff_of_nodup distinct once).mpr covered
  · obtain ⟨l, isClass⟩ := classes c isComponent
    exact List.ne_nil_of_mem ((isClass l).mpr .refl)
  · rintro ⟨c, isComponent, uIn, vIn⟩
    obtain ⟨l, isClass⟩ := classes c isComponent
    exact ((isClass u).mp uIn).symm.trans ((isClass v).mp vIn)
  · obtain ⟨c, isComponent, uIn⟩ := List.mem_flatten.mp ((covered u).mpr isIn)
    obtain ⟨l, isClass⟩ := classes c isComponent
    exact ⟨c, isComponent, uIn, (isClass v).mpr (((isClass u).mp uIn).trans both)⟩
  · intro i j c d atI atJ other u uIn w wIn edge
    obtain ⟨boundI, rfl⟩ := List.getElem?_eq_some_iff.mp atI
    obtain ⟨boundJ, rfl⟩ := List.getElem?_eq_some_iff.mp atJ
    refine Nat.lt_of_le_of_ne (Nat.le_of_not_lt fun earlier => ?_) other
    exact List.pairwise_iff_getElem.mp ordered j i boundJ boundI earlier w wIn u uIn edge

/-- A pair of vertices on a cycle with parallel edges and an edge to itself, another pair behind it, and a vertex of its own
that leads to both; the vertices are not in the order of the components. -/
theorem stronglyConnected_pairs :
    let succs : VertexId → List VertexId := fun v => [[1, 1], [0, 2, 1], [3], [2], [3, 0]].getD v []
    let preds : VertexId → List VertexId := fun v => [[1, 4], [0, 0, 1], [1, 3], [2, 4], []].getD v []
    Transposed [3, 0, 4, 2, 1] succs preds ∧ stronglyConnected [3, 0, 4, 2, 1] succs preds = [[4], [0, 1], [3, 2]] ∧
    (stronglyConnected [3, 0, 4, 2, 1] succs preds).flatten.Perm [3, 0, 4, 2, 1] ∧
    ((∃ c ∈ stronglyConnected [3, 0, 4, 2, 1] succs preds, 1 ∈ c ∧ 0 ∈ c) ↔
      Reachable succs 1 0 ∧ Reachable succs 0 1) := by
  intro succs preds
  have edges : Transposed [3, 0, 4, 2, 1] succs preds := ⟨by decide, by decide, by decide⟩
  obtain ⟨⟨partition, _⟩, same, _⟩ := stronglyConnected_components [3, 0, 4, 2, 1] succs preds (by decide) edges
  exact ⟨edges, by cbv, partition, same 1 (by decide) 0 (by decide)⟩

end MiddleEnd
