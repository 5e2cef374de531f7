import MiddleEnd.Proofs.Bypassing
import MiddleEnd.Proofs.Convergence
import MiddleEnd.Proofs.Insertion

/-!
The phis of the single assignment form stand where they are needed, and nowhere else: behind the joins of the entry and
the definitions of a variable, if the variable is live there (`Analysis.toSingleAssignment_places_phis`). Each variable is
split in a graph that has the phis of others on its edges. Those change neither where paths meet nor where the variable
is live, so that the labels are the ones of the graph there was before.
-/
namespace MiddleEnd

/-- Joins carry over where meeting paths from members of a set that has the sites do. -/
theorem IsJoin.mono {next next' : VertexId → List VertexId} {site M : VertexId → Prop} {z : VertexId}
    (join : IsJoin next site z) (sites : ∀ v, site v → M v)
    (carry : ∀ a b z, M a → M b → Approach next a b z → M z ∧ Approach next' a b z) : M z ∧ IsJoin next' site z := by
  refine join (fun z => M z ∧ IsJoin next' site z) fun a b z knownA knownB other meet => ?_
  have inM {v : VertexId} (known : site v ∨ M v ∧ IsJoin next' site v) : M v := known.elim (sites v) And.left
  obtain ⟨inside, ways⟩ := carry a b z (inM knownA) (inM knownB) ((converge_iff other).mp meet)
  exact ⟨inside, joinClosed_isJoin a b z (knownA.imp_right And.right) (knownB.imp_right And.right) other
    ((converge_iff other).mpr ways)⟩

namespace Graph

variable {g h : Graph} {size : Nat} {root l l' u v a b z : VertexId} {past : List VertexId}

theorem Wired.listed_of_mem_past (wired : g.Wired) (member : root ∈ g.listed) (trail : Trail g.succs root past v)
    (passed : u ∈ past) : u ∈ g.listed := by
  obtain ⟨before, _, _, toU, _⟩ := trail.cut passed
  exact wired.listed_of_trail member toU

theorem Behind.lt (behind : h.Behind size l v) (new : size ≤ v) : v < h.store.size := by
  cases behind with
  | self old => exact absurd old (Nat.not_lt.mpr new)
  | @after u _ _ _ _ back => exact lt_of_mem_preds (show u ∈ h.preds v by simp [back])

/-- A chain has one front. -/
theorem Behind.unique (first : h.Behind size l v) (second : h.Behind size l' v) : l = l' := by
  induction first with
  | self old => exact second.eq_of_old old
  | @after u v _ new _ back ih =>
    cases second with
    | self old => exact absurd old (Nat.not_lt.mpr new)
    | @after u' _ rest' _ _ back' =>
      obtain rfl : u = u' := by simpa [back] using back'
      exact ih rest'

/-- The only way to a vertex of a chain comes from the one before it. -/
theorem Behind.eq_of_edge (wired : h.Wired) (back : h.preds v = [u]) (source : a ∈ h.listed) (edge : v ∈ h.succs a) :
    a = u := by
  have target := wired.succs_listed a source v edge
  simpa [back] using (wired.mem_preds_iff source target).mp edge

/-- A path that passes a vertex of a chain has passed its front. -/
theorem Behind.mem_past (wired : h.Wired) (behind : h.Behind size l u) (member : root ∈ h.listed) (old : root < size)
    (trail : Trail h.succs root past v) (passed : u ∈ past) : l ∈ past := by
  induction behind with
  | self => exact passed
  | @after u v' _ new _ back ih =>
    obtain ⟨before, later, rfl, toV, _, _⟩ := trail.cut passed
    have notRoot : root ≠ v' := fun same => absurd old (Nat.not_lt.mpr (same ▸ new))
    obtain ⟨early, p, rfl, toP, edge⟩ := toV.exists_last (toV.ne_nil_of_ne notRoot)
    obtain rfl := Behind.eq_of_edge wired back (wired.listed_of_trail member toP) edge
    exact ih (by simp)

/-- Paths do not meet inside a chain. -/
theorem Behind.not_approach (wired : h.Wired) (behind : h.Behind size l z) (new : size ≤ z) (memberA : a ∈ h.listed)
    (memberB : b ∈ h.listed) : ¬ Approach h.succs a b z := by
  rintro ⟨past, past', trail, trail', some, some', apart⟩
  cases behind with
  | self old => exact absurd old (Nat.not_lt.mpr new)
  | @after u _ _ _ _ back =>
    obtain ⟨_, p, rfl, toP, edge⟩ := trail.exists_last some
    obtain ⟨_, q, rfl, toQ, edge'⟩ := trail'.exists_last some'
    obtain rfl := Behind.eq_of_edge wired back (wired.listed_of_trail memberA toP) edge
    obtain rfl := Behind.eq_of_edge wired back (wired.listed_of_trail memberB toQ) edge'
    exact apart q (by simp) (by simp)

end Graph

/-! ### Paths between the phis -/

namespace Chained

variable {g h : Graph} {src : VarId → VarId} {x : VarId} {root u v w z a b : VertexId} {past : List VertexId}
  (chained : Chained g h) (wired : g.Wired)

section
include chained wired

/-- The graphs with another entry. -/
theorem expands_from (member : root ∈ g.listed) :
    Graph.Expands { g with entry := root } { h with entry := root } (· < g.store.size) where
  entry := rfl
  entry_kept := by simpa using wired.listed_lt root member
  edges := by
    rintro u ⟨past, trail⟩
    exact (chained.ahead (wired.listed_of_trail member trail)).imp fun _ _ leads => leads.congr fun _ => rfl

theorem project (member : root ∈ g.listed) (trail : Trail h.succs root past u) (old : u < g.store.size) :
    Trail g.succs root (past.filter (· < g.store.size)) u :=
  (chained.expands_from wired member).project_kept trail (by simpa using old)

theorem lift (member : root ∈ g.listed) (trail : Trail g.succs root past u) :
    ∃ past', Trail h.succs root past' u ∧ past'.filter (· < g.store.size) = past :=
  (chained.expands_from wired member).lift trail

end

variable (versioned : Versioned g src h)
include chained wired versioned

/-- Between the phis, paths meet where they did. -/
theorem approach_iff (memberA : a ∈ g.listed) (memberB : b ∈ g.listed) (memberZ : z ∈ g.listed) :
    Approach h.succs a b z ↔ Approach g.succs a b z := by
  have keeps {root : VertexId} {past : List VertexId} (member : root ∈ g.listed) (trail : Trail h.succs root past z)
      (some : past ≠ []) : past.filter (· < g.store.size) ≠ [] := by
    have first := trail.root_mem some
    exact List.ne_nil_of_mem (List.mem_filter.mpr ⟨first, by simpa using wired.listed_lt root member⟩)
  constructor
  · rintro ⟨past, past', trail, trail', some, some', apart⟩
    have old := wired.listed_lt z memberZ
    refine ⟨_, _, chained.project wired memberA trail old, chained.project wired memberB trail' old,
      keeps memberA trail some, keeps memberB trail' some', fun v member member' => ?_⟩
    exact apart v (List.mem_filter.mp member).1 (List.mem_filter.mp member').1
  · rintro ⟨past, past', trail, trail', some, some', apart⟩
    obtain ⟨way, lifted, rfl⟩ := chained.lift wired memberA trail
    obtain ⟨way', lifted', rfl⟩ := chained.lift wired memberB trail'
    refine ⟨way, way', lifted, lifted', ?_, ?_, fun v member member' => ?_⟩
    · rintro rfl
      simp at some
    · rintro rfl
      simp at some'
    · have wiredNow := versioned.sound.wired
      have listedA : a ∈ h.listed := versioned.listed.mpr (.inl memberA)
      have listedB : b ∈ h.listed := versioned.listed.mpr (.inl memberB)
      -- a phi on both paths would have its label on both
      obtain ⟨l, old, passed, passed'⟩ : ∃ l < g.store.size, l ∈ way ∧ l ∈ way' := by
        rcases Nat.lt_or_ge v g.store.size with old | new
        · exact ⟨v, old, member, member'⟩
        · have inside := wiredNow.listed_lt v (wiredNow.listed_of_mem_past listedA lifted member)
          obtain ⟨l, listed, _, behind⟩ := chained.chain new inside
          exact ⟨l, wired.listed_lt l listed, behind.mem_past wiredNow listedA (wired.listed_lt a memberA) lifted member,
            behind.mem_past wiredNow listedB (wired.listed_lt b memberB) lifted' member'⟩
      exact apart l (List.mem_filter.mpr ⟨passed, by simpa using old⟩) (List.mem_filter.mpr ⟨passed', by simpa using old⟩)

/-- Between the phis, the joins are what they were. -/
theorem isJoin_iff {site : VertexId → Prop} (sites : ∀ v, site v → v ∈ g.listed) :
    IsJoin h.succs site z ↔ z ∈ g.listed ∧ IsJoin g.succs site z := by
  have wiredNow := versioned.sound.wired
  have listed {v : VertexId} (member : v ∈ g.listed) : v ∈ h.listed := versioned.listed.mpr (.inl member)
  constructor
  · intro join
    refine join.mono sites fun a b z memberA memberB ways => ?_
    obtain ⟨past, _, trail, _⟩ := id ways
    have listedZ := wiredNow.listed_of_trail (listed memberA) trail
    rcases versioned.listed.mp listedZ with memberZ | ⟨new, inside⟩
    · exact ⟨memberZ, (chained.approach_iff wired versioned memberA memberB memberZ).mp ways⟩
    · obtain ⟨l, _, _, behind⟩ := chained.chain new inside
      exact absurd ways (behind.not_approach wiredNow new (listed memberA) (listed memberB))
  · rintro ⟨_, join⟩
    refine (join.mono sites fun a b z memberA memberB ways => ?_).2
    obtain ⟨past, _, trail, _⟩ := id ways
    have memberZ := wired.listed_of_trail memberA trail
    exact ⟨memberZ, (chained.approach_iff wired versioned memberA memberB memberZ).mpr ways⟩

end Chained

/-! ### The variable that is to be split -/

namespace Unsplit

variable {g h : Graph} {src : VarId → VarId} {x y : VarId} {v w : VertexId} (versioned : Versioned g src h)
  (unsplit : Unsplit src h x)
include versioned unsplit

/-- A version of `x` that is referenced is `x` itself. -/
theorem eq_iff (member : v ∈ g.listed) (mentions : (h.vertex v).references (some y) = true) : src y = x ↔ y = x := by
  have known := versioned.inScope v (versioned.listed.mpr (.inl member)) y mentions
  exact ⟨unsplit.alone y known, fun same => same ▸ unsplit.self⟩

theorem writesVar_old (member : v ∈ g.listed) : (h.vertex v).writesVar (some x) = (g.vertex v).writesVar (some x) := by
  rw [Bool.eq_iff_iff, ← Vertex.mem_targets, ← Vertex.mem_targets, ← (versioned.old member).targets, List.mem_map]
  constructor
  · exact fun writes => ⟨x, writes, unsplit.self⟩
  · rintro ⟨y, writes, same⟩
    rwa [(unsplit.eq_iff versioned member (Vertex.references_of_mem_targets writes)).mp same] at writes

theorem readsVar_old (member : v ∈ g.listed) : (h.vertex v).readsVar (some x) = (g.vertex v).readsVar (some x) := by
  rw [Vertex.readsVar, Vertex.readsVar, Bool.eq_iff_iff, List.contains_iff_mem, List.contains_iff_mem,
    ← (versioned.old member).reads, List.mem_map]
  constructor
  · exact fun reads => ⟨some x, reads, by rw [Option.map_some, unsplit.self]⟩
  · rintro ⟨o, reads, same⟩
    obtain ⟨y, rfl, isX⟩ := Option.map_eq_some_iff.mp same
    have arg : some y ∈ (h.vertex v).args := by
      rw [Vertex.reads] at reads
      split at reads
      · simp at reads
      · exact reads
    rwa [(unsplit.eq_iff versioned member (Vertex.references_iff.mpr (.inr arg))).mp isX] at reads

/-- The phis of other variables neither read nor write `x`. -/
theorem quiet_new (new : g.store.size ≤ v) (inside : v < h.store.size) :
    (h.vertex v).readsVar (some x) = false ∧ (h.vertex v).writesVar (some x) = false := by
  have isPhi : (h.vertex v).op = .phi := (versioned.new new inside).1
  have apart := unsplit.noPhi v (versioned.listed.mpr (.inr ⟨new, inside⟩)) isPhi
  constructor
  · rw [← Bool.not_eq_true, Vertex.readsVar, List.contains_iff_mem, Vertex.reads, if_neg (by simp [isPhi])]
    exact (Vertex.references_eq_false_iff.mp apart).2
  · rw [← Bool.not_eq_true, ← Vertex.mem_targets]
    intro writes
    rw [Vertex.references_of_mem_targets writes] at apart
    simp at apart

variable (chained : Chained g h) (wired : g.Wired)
include chained

/-- The definitions are the same as before. -/
theorem definitions_eq : h.definitions (some x) = g.definitions (some x) := by
  have onlyOld : h.listed.filter (fun v => (h.vertex v).writesVar (some x)) =
      (h.listed.filter (· < g.store.size)).filter fun v => (h.vertex v).writesVar (some x) := by
    rw [List.filter_filter]
    refine List.filter_congr fun v listed => ?_
    rcases Nat.lt_or_ge v g.store.size with old | new
    · simp [old]
    · simp [(unsplit.quiet_new versioned new (versioned.sound.wired.listed_lt v listed)).2]
  rw [Graph.definitions, onlyOld, chained.listed, Graph.definitions]
  exact List.filter_congr fun v member => unsplit.writesVar_old versioned member

include wired

/-- The value of `x` comes from where it came from. -/
theorem isOrigin_iff : h.IsOrigin x v ↔ g.IsOrigin x v := by
  have entry := versioned.expands.entry
  have same := unsplit.definitions_eq versioned chained
  constructor
  · rintro (atEntry | ⟨reached, defines⟩)
    · exact .inl (atEntry.trans entry)
    · rw [same] at defines
      have old := wired.listed_lt v (List.mem_filter.mp defines).1
      exact .inr ⟨versioned.expands.reachable_of_kept reached (by simpa using old), defines⟩
  · rintro (atEntry | ⟨reached, defines⟩)
    · exact .inl (atEntry.trans entry.symm)
    · exact .inr ⟨versioned.expands.reachable reached, same ▸ defines⟩

/-- `x` is live where it was. -/
theorem live_iff (member : w ∈ g.listed) : h.Live x w ↔ g.Live x w := by
  have wiredNow := versioned.sound.wired
  have listed : w ∈ h.listed := versioned.listed.mpr (.inl member)
  constructor
  · rintro ⟨past, u, trail, reads, silent⟩
    have listedU := wiredNow.listed_of_trail listed trail
    rcases versioned.listed.mp listedU with memberU | ⟨new, inside⟩
    · refine ⟨_, u, chained.project wired member trail (wired.listed_lt u memberU), ?_, fun v passed => ?_⟩
      · rw [← unsplit.readsVar_old versioned memberU, reads]
      · have memberV := wired.listed_of_mem_past member (chained.project wired member trail (wired.listed_lt u memberU)) passed
        rw [← unsplit.writesVar_old versioned memberV]
        exact silent v (List.mem_filter.mp passed).1
    · rw [(unsplit.quiet_new versioned new inside).1] at reads
      simp at reads
  · rintro ⟨past, u, trail, reads, silent⟩
    obtain ⟨past', lifted, rfl⟩ := chained.lift wired member trail
    refine ⟨past', u, lifted, ?_, fun v passed => ?_⟩
    · rw [unsplit.readsVar_old versioned (wired.listed_of_trail member trail), reads]
    · have listedV := wiredNow.listed_of_mem_past listed lifted passed
      rcases versioned.listed.mp listedV with memberV | ⟨new, inside⟩
      · rw [unsplit.writesVar_old versioned memberV]
        exact silent v (List.mem_filter.mpr ⟨passed, by simpa using wired.listed_lt v memberV⟩)
      · exact (unsplit.quiet_new versioned new inside).2

/-- The labels that get a phi for `x` are those where it is needed in the graph without phis. -/
theorem mem_labels_iff {d : Dominators} {labels : List VertexId} (faithful : d.Faithful h)
    (chosen : h.phiLabels d x (h.definitions (some x)) = .ok labels) :
    w ∈ labels ↔ g.Live x w ∧ IsJoin g.succs (g.IsOrigin x) w := by
  have origins (v : VertexId) (isOrigin : g.IsOrigin x v) : v ∈ g.listed :=
    wired.listed_of_reachable isOrigin.reachable
  have joins : IsJoin h.succs (h.IsOrigin x) w ↔ w ∈ g.listed ∧ IsJoin g.succs (g.IsOrigin x) w := by
    rw [show h.IsOrigin x = g.IsOrigin x from funext fun v => propext (unsplit.isOrigin_iff versioned chained wired)]
    exact chained.isJoin_iff wired versioned origins
  rw [Graph.mem_phiLabels_iff versioned.sound faithful chosen, joins]
  constructor
  · rintro ⟨live, member, join⟩
    exact ⟨(unsplit.live_iff versioned chained wired member).mp live, join⟩
  · rintro ⟨live, join⟩
    have member := (join.mono origins fun a b z memberA _ ways => ⟨?_, ways⟩).1
    · exact ⟨(unsplit.live_iff versioned chained wired member).mpr live, member, join⟩
    · obtain ⟨_, _, trail, _⟩ := ways
      exact wired.listed_of_trail memberA trail

end Unsplit

/-! ### The phis of one variable among those of all -/

/-- `phi` is a phi for `x` in the chain behind `w`. The chain is made of what `h` has besides the vertices of `g`, and
`src` says which variables the versions stand for. -/
structure PhiFor (g h : Graph) (src : VarId → VarId) (x : VarId) (w phi : VertexId) : Prop where
  new : g.store.size ≤ phi
  isPhi : h.op phi = .phi
  behind : h.Behind g.store.size w phi
  result : ∃ r, (h.vertex phi).result = some r ∧ src r = x

namespace Renaming.WalkInvariant

variable {g h : Graph} {x y : VarId} {labels : List VertexId} {s : Renaming} {src : VarId → VarId} {w phi : VertexId}
  (split : Splitting h x labels) (inv : WalkInvariant h x labels s []) (threaded : Threaded h s)
  (unsplit : Unsplit src h x) (versioned : Versioned g src h) (before : Chained g h)
include split inv threaded unsplit versioned

/-- A phi that was there stays where it is, and is not one for `x`. -/
theorem phiFor_old (old : PhiFor g h src y w phi) :
    PhiFor g s.graph (splitSource h s.graph x src) y w phi ∧ y ≠ x := by
  obtain ⟨new, isPhi, behind, r, result, same⟩ := old
  have inside := behind.lt new
  have listed : phi ∈ h.listed := versioned.listed.mpr (.inr ⟨new, inside⟩)
  obtain ⟨_, _, core, _⟩ := inv.old_core inside
  obtain ⟨_, resultNow, others⟩ := inv.old_phi split unsplit listed isPhi
  obtain ⟨kept, other⟩ := others r (Vertex.references_iff.mpr (.inl result))
  refine ⟨⟨new, (Vertex.core_eq_iff.mp core).op.trans isPhi, inv.behind_of_behind threaded versioned behind,
    r, resultNow.trans result, kept.trans same⟩, same ▸ other⟩

include before

/-- A phi is the one that the label got, or was there before. -/
theorem phiFor_cases (wired : g.Wired) (now : PhiFor g s.graph (splitSource h s.graph x src) y w phi) :
    (y = x ∧ s.phis.lookup w = some phi) ∨ PhiFor g h src y w phi := by
  obtain ⟨new, isPhi, behind, r, result, same⟩ := now
  rcases Nat.lt_or_ge phi h.store.size with inside | fresh
  · have listed : phi ∈ h.listed := versioned.listed.mpr (.inr ⟨new, inside⟩)
    have isPhiBefore := (versioned.new new inside).1
    obtain ⟨_, resultNow, others⟩ := inv.old_phi split unsplit listed isPhiBefore
    have resultBefore := resultNow.symm.trans result
    have kept := (others r (Vertex.references_iff.mpr (.inl resultBefore))).1
    obtain ⟨l, _, _, behindBefore⟩ := before.chain new inside
    obtain rfl := behind.unique (inv.behind_of_behind threaded versioned behindBefore)
    exact .inr ⟨new, isPhiBefore, behindBefore, r, resultBefore, kept.symm.trans same⟩
  · have inside := behind.lt new
    obtain ⟨l, found⟩ := inv.layout.new fresh inside
    obtain ⟨isLabel, _, placed⟩ := inv.layout.phi found
    obtain ⟨r', result', _, isNew⟩ := placed.exists_target
    obtain rfl : r = r' := by simpa [result] using result'
    have listed : phi ∈ s.graph.listed := inv.layout.listed.mpr (.inr ⟨fresh, inside⟩)
    have known := inv.layout.inScope phi listed r (Vertex.references_iff.mpr (.inl result))
    have isX := splitSource_version unsplit (Graph.isVersion_iff.mpr (.inr isNew)) known
    have old := wired.listed_lt l (label_original split versioned isLabel).1
    obtain rfl := behind.unique (inv.behind_phi threaded versioned found (.self old))
    exact .inl ⟨same.symm.trans isX, found⟩

/-- The phis for `x` are those that the labels got. -/
theorem phiFor_self (wired : g.Wired) :
    PhiFor g s.graph (splitSource h s.graph x src) x w phi ↔ s.phis.lookup w = some phi := by
  constructor
  · intro now
    rcases inv.phiFor_cases split threaded unsplit versioned before wired now with ⟨_, found⟩ | old
    · exact found
    · exact absurd rfl (inv.phiFor_old split threaded unsplit versioned old).2
  · intro found
    obtain ⟨isLabel, _, placed⟩ := inv.layout.phi found
    obtain ⟨r, result, _, isNew⟩ := placed.exists_target
    have old := wired.listed_lt w (label_original split versioned isLabel).1
    have listed : phi ∈ s.graph.listed := inv.layout.listed.mpr (.inr ⟨placed.new, placed.inside⟩)
    have known := inv.layout.inScope phi listed r (Vertex.references_iff.mpr (.inl result))
    exact ⟨Nat.le_trans versioned.size placed.new, placed.op, inv.behind_phi threaded versioned found (.self old), r, result,
      splitSource_version unsplit (Graph.isVersion_iff.mpr (.inr isNew)) known⟩

/-- The phis for other variables are those there were. -/
theorem phiFor_other (wired : g.Wired) (other : y ≠ x) :
    PhiFor g s.graph (splitSource h s.graph x src) y w phi ↔ PhiFor g h src y w phi := by
  constructor
  · intro now
    rcases inv.phiFor_cases split threaded unsplit versioned before wired now with ⟨same, _⟩ | old
    · exact absurd same other
    · exact old
  · exact fun old => (inv.phiFor_old split threaded unsplit versioned old).1

end Renaming.WalkInvariant

/-! ### One variable after the other -/

/-- Where nothing is split off, the variables stand for what they stood for. -/
theorem Versioned.splitSource_self {g h : Graph} {src : VarId → VarId} {x : VarId} (versioned : Versioned g src h) :
    splitSource h h x src = src := by
  funext y
  rw [splitSource]
  split
  · rfl
  · rename_i outside
    exact (versioned.srcNone (Nat.le_of_not_lt outside)).symm

namespace Analysis

variable {g : Graph} {src : VarId → VarId} {rest : List VarId} {a a' : Analysis} {x : VarId} {w phi : VertexId}

/-- Splitting other variables leaves the phis for `x` alone. -/
theorem phiFor_forM_of_notMem (wired : g.Wired) (stage : Stage g src rest a) (distinct : rest.Nodup)
    (chained : Chained g a.graph) (absent : x ∉ rest) (done : (rest.forM singleAssignmentOf).Succeeds a () a') :
    PhiFor g a'.graph (sourcesAfter rest a src) x w phi ↔ PhiFor g a.graph src x w phi := by
  induction rest generalizing a src with
  | nil =>
    obtain rfl := Action.forM_nil_succeeds.mp done
    rfl
  | cons y rest ih =>
    obtain ⟨next, first, others⟩ := Action.forM_cons_succeeds.mp done
    obtain ⟨fresh, distinct⟩ := List.nodup_cons.mp distinct
    obtain ⟨other, absent⟩ := not_or.mp (fun either => absent (List.mem_cons.mpr either))
    have after : ((singleAssignmentOf y).outcome a).2 = next := congrArg Prod.snd first
    rw [sourcesAfter, after]
    rcases singleAssignmentOf_succeeds first with ⟨few, rfl⟩ | ⟨labels, chosen, rfl⟩
    · rw [ih (stage.keep few) distinct chained absent others, stage.versioned.splitSource_self]
    · have splitting := stage.splitting chosen
      have unsplit := stage.unsplit y List.mem_cons_self
      obtain ⟨s, graph, inv, threaded⟩ := Renaming.threaded_splitVariable splitting
      rw [ih (stage.split fresh chosen) distinct (chained_split wired stage chosen chained) absent others, ← graph]
      exact inv.phiFor_other splitting threaded unsplit stage.versioned chained wired other

/-- Splitting `x` among others places its phis, at most one for each label. -/
theorem phiFor_forM_of_mem (wired : g.Wired) (stage : Stage g src rest a) (distinct : rest.Nodup)
    (chained : Chained g a.graph) (member : x ∈ rest) (several : 2 ≤ (g.definitions (some x)).length)
    (done : (rest.forM singleAssignmentOf).Succeeds a () a') :
    ∃ place : VertexId → Option VertexId,
      (∀ w phi, PhiFor g a'.graph (sourcesAfter rest a src) x w phi ↔ place w = some phi) ∧
      ∀ w, (∃ phi, place w = some phi) ↔ g.Live x w ∧ IsJoin g.succs (g.IsOrigin x) w := by
  induction rest generalizing a src with
  | nil => simp at member
  | cons y rest ih =>
    obtain ⟨next, first, others⟩ := Action.forM_cons_succeeds.mp done
    obtain ⟨fresh, apart⟩ := List.nodup_cons.mp distinct
    have after : ((singleAssignmentOf y).outcome a).2 = next := congrArg Prod.snd first
    have unsplit := stage.unsplit y List.mem_cons_self
    rw [sourcesAfter, after]
    by_cases isX : x = y
    · subst isX
      rcases singleAssignmentOf_succeeds first with ⟨few, rfl⟩ | ⟨labels, chosen, rfl⟩
      · rw [unsplit.definitions_eq stage.versioned chained] at few
        omega
      · have splitting := stage.splitting chosen
        have faithful := dominators_faithful stage.versioned.sound.wired stage.dated
        have longer := chained_split wired stage chosen chained
        obtain ⟨s, graph, inv, threaded⟩ := Renaming.threaded_splitVariable splitting
        refine ⟨fun w => s.phis.lookup w, fun w phi => ?_, fun w => ?_⟩
        · rw [phiFor_forM_of_notMem wired (stage.split fresh chosen) apart longer fresh others, ← graph]
          exact inv.phiFor_self splitting threaded unsplit stage.versioned chained wired
        · rw [← unsplit.mem_labels_iff stage.versioned chained wired faithful chosen]
          constructor
          · rintro ⟨phi, found⟩
            exact (inv.layout.phi found).1
          · intro isLabel
            have reached := (inv.expands splitting).reachable (splitting.placed.reachable w isLabel)
            exact inv.exists_phi isLabel (inv.settled_of_reachable (inv.layout.entry ▸ reached))
    · have later : x ∈ rest := (List.mem_cons.mp member).resolve_left isX
      rcases singleAssignmentOf_succeeds first with ⟨few, rfl⟩ | ⟨labels, chosen, rfl⟩
      · exact ih (stage.keep few) apart chained later others
      · exact ih (stage.split fresh chosen) apart (chained_split wired stage chosen chained) later others

/-- A variable that the graph does not mention as one to split is defined by the entry only. -/
theorem eq_entry_of_definition (sound : g.Sound) (inScope : g.Scoped) {xs : List VarId} (mentioned : g.mentioned? = some xs)
    (absent : x ∉ xs) (defines : w ∈ g.definitions (some x)) : w = g.entry := by
  obtain ⟨listed, writes⟩ := List.mem_filter.mp defines
  have vertex := sound.vertices w listed
  have target := Vertex.mem_targets.mpr writes
  have mentions := Vertex.references_of_mem_targets target
  by_cases isFunction : g.op w = .function
  · exact vertex.onlyEntry isFunction
  · have result : (g.vertex w).result = some x := by simpa [Vertex.targets_of_op isFunction] using target
    have varies := vertex.writesVariable x result
    have known := inScope w listed x mentions
    exact absurd ((Graph.mem_of_mentioned? mentioned).mpr ⟨known, varies, w, listed, mentions⟩) absent

/-- Phis stand where they are needed, and nowhere else. If `x` has more than one definition, then a phi for `x` is
inserted behind `w` exactly if `x` is live at `w` and `w` is a join of the entry and the definitions of `x` that can be
reached: it belongs to the least set with every vertex where two nonempty paths meet that start at different ones of these
or at members of the set, and have no other vertex in common. There is at most one such phi. -/
theorem toSingleAssignment_places_phis (a a' : Analysis) (passes : a.graph.verify = none) (inScope : a.graph.Scoped)
    (noPhi : ∀ v ∈ a.graph.listed, a.graph.op v ≠ .phi) (dated : a.Dated)
    (done : toSingleAssignment.Succeeds a () a') (x : VarId) (several : 2 ≤ (a.graph.definitions (some x)).length)
    (w : VertexId) :
    ((∃ phi, PhiFor a.graph a'.graph a.source x w phi) ↔
      a.graph.Live x w ∧ IsJoin a.graph.succs (a.graph.IsOrigin x) w) ∧
    ∀ phi phi', PhiFor a.graph a'.graph a.source x w phi → PhiFor a.graph a'.graph a.source x w phi' → phi = phi' := by
  have sound := Graph.sound_of_verify passes
  obtain ⟨xs, mentioned, distinct, done⟩ := toSingleAssignment_succeeds done
  have stage := stage_start sound inScope noPhi dated mentioned
  rw [source, mentioned, Option.getD_some]
  by_cases member : x ∈ xs
  · obtain ⟨place, placed, labels⟩ :=
      phiFor_forM_of_mem sound.wired stage distinct (.refl sound.wired) member several done
    simp only [placed]
    refine ⟨labels w, fun phi phi' found found' => ?_⟩
    exact Option.some.inj (found.symm.trans found')
  · -- nothing was split, and paths from the entry alone meet nowhere
    have none (phi : VertexId) : ¬ PhiFor a.graph a'.graph (sourcesAfter xs a id) x w phi := by
      rw [phiFor_forM_of_notMem sound.wired stage distinct (.refl sound.wired) member done]
      exact fun known => absurd (known.behind.lt known.new) (Nat.not_lt.mpr known.new)
    have onlyEntry {v : VertexId} (known : a.graph.IsOrigin x v ∨ False) : v = a.graph.entry := by
      rcases known with (atEntry | ⟨_, defines⟩) | absurd
      · exact atEntry
      · exact eq_entry_of_definition sound inScope mentioned member defines
      · exact absurd.elim
    refine ⟨⟨?_, ?_⟩, fun phi _ known => absurd known (none phi)⟩
    · rintro ⟨phi, known⟩
      exact absurd known (none phi)
    · rintro ⟨_, join⟩
      refine (join (fun _ => False) fun b c z knownB knownC other _ => ?_).elim
      exact other ((onlyEntry knownB).trans (onlyEntry knownC).symm)

/-- The sum of the loop gets a phi behind the label, where its way around the loop meets the one from the entry. -/
theorem summing_places_phis :
    summing.definitions (some 1) = [0, 4] ∧ summing.Live 1 2 ∧ IsJoin summing.succs (summing.IsOrigin 1) 2 ∧
    ∃ phi, PhiFor summing summingSplit (source { graph := summing }) 1 2 phi := by
  obtain ⟨a', done, graph⟩ := toSingleAssignment_summing
  have undated : Analysis.Dated { graph := summing } := fun d kept => by simp at kept
  have live : summing.Live 1 2 := ⟨[2, 3], 6, by decide, by decide, by decide⟩
  have join : IsJoin summing.succs (summing.IsOrigin 1) 2 := by
    intro J closed
    have reached : Reachable summing.succs summing.entry 4 := ⟨[0, 2, 3], by decide⟩
    exact closed 0 4 2 (.inl (.inl rfl)) (.inl (.inr ⟨reached, by decide⟩)) (by decide)
      ⟨[0], [4, 5], by decide, by decide, by decide, by decide, by decide⟩
  have placed := toSingleAssignment_places_phis { graph := summing } a' (by decide) (by decide) (by decide) undated done 1
    (by decide) 2
  rw [graph] at placed
  exact ⟨by decide, live, join, placed.1.mpr ⟨live, join⟩⟩

end Analysis

end MiddleEnd
