import MiddleEnd.Proofs.Renaming.Threads
import MiddleEnd.Proofs.SingleAssignment

/-!
Splitting variables changes nothing but names and phis. The phis of a label form a chain right behind it, with the
youngest first (`Graph.Behind`, `Chained`). Bypassing them on all edges and putting each variable in the place of its
versions gives back the graph there was before (`Analysis.toSingleAssignment_withoutPhis`).
-/
namespace MiddleEnd

namespace Graph

variable {h : Graph} {size : Nat} {l u v t : VertexId}

/-- `v` stands behind `l` in a chain of further vertices, those past the first `size`, with one way in and one way on. -/
inductive Behind (h : Graph) (size : Nat) (l : VertexId) : VertexId → Prop
  | self (old : l < size) : Behind h size l l
  | after {u v : VertexId} (rest : Behind h size l u) (new : size ≤ v) (way : h.succs u = [v]) (back : h.preds v = [u]) :
    Behind h size l v

theorem Behind.eq_of_old (behind : h.Behind size l v) (old : v < size) : v = l := by
  cases behind with
  | self => rfl
  | after _ new => exact absurd old (Nat.not_lt.mpr new)

theorem Behind.old (behind : h.Behind size l v) : l < size := by
  induction behind with
  | self old => exact old
  | after _ _ _ _ ih => exact ih

end Graph

/-- The further vertices of `h` stand in chains behind labels of `g`: each edge of `g` goes through such a chain, or is
an edge of `h`. A vertex that came later stands closer to the label. -/
structure Chained (g h : Graph) : Prop where
  name : h.name = g.name
  sig : h.sig = g.sig
  listed : h.listed.filter (· < g.store.size) = g.listed
  unlisted : ∀ {v}, v < g.store.size → v ∉ g.listed → h.vertex v = g.vertex v
  ahead : ∀ {v}, v ∈ g.listed → List.Forall₂ (h.Leads (· < g.store.size)) (h.succs v) (g.succs v)
  back : ∀ {v}, v ∈ g.listed → List.Forall₂ (fun p q => h.Behind g.store.size q p) (h.preds v) (g.preds v)
  chain : ∀ {v}, g.store.size ≤ v → v < h.store.size → ∃ l ∈ g.listed, g.op l = .label ∧ h.Behind g.store.size l v
  falls : ∀ {v t}, g.store.size ≤ v → t ∈ h.succs v → t < v
  rises : ∀ {v p}, g.store.size ≤ v → p ∈ h.preds v → p < g.store.size ∨ v < p

theorem Chained.refl {g : Graph} (wired : g.Wired) : Chained g g where
  name := rfl
  sig := rfl
  listed := List.filter_eq_self.mpr fun v member => by simpa using wired.listed_lt v member
  unlisted _ _ := rfl
  ahead {v} member := List.forall₂_same.mpr fun t edge =>
    .here (by simpa using wired.listed_lt t (wired.succs_listed v member t edge))
  back {v} member := List.forall₂_same.mpr fun p edge => .self (wired.listed_lt p (wired.preds_listed v member p edge))
  chain new inside := absurd inside (Nat.not_lt.mpr new)
  falls new edge := absurd (Graph.lt_of_mem_succs edge) (Nat.not_lt.mpr new)
  rises new edge := absurd (Graph.lt_of_mem_preds edge) (Nat.not_lt.mpr new)

/-! ### Splitting a variable -/

namespace Renaming.WalkInvariant

variable {g h : Graph} {x : VarId} {labels : List VertexId} {s : Renaming} {src : VarId → VarId} {l p q u v : VertexId}

section
variable (inv : WalkInvariant h x labels s [])
include inv

theorem succs_label {phi : VertexId} (found : s.phis.lookup l = some phi) : s.graph.succs l = [phi] :=
  (Vertex.core_eq_iff.mp (inv.layout.phi found).2.2.label).succs

/-- Where there is no phi, the successors stay. -/
theorem succs_of_noPhi (noPhi : s.phis.lookup v = none) (inside : v < h.store.size) : s.graph.succs v = h.succs v := by
  rcases inv.succs_cases (Nat.lt_of_lt_of_le inside inv.layout.size) with ⟨_, found, _⟩ | ⟨_, found, _⟩ | ⟨_, _, succs⟩
  · simp [noPhi] at found
  · exact absurd inside (Nat.not_lt.mpr (inv.layout.phi found).2.2.new)
  · exact succs

end

variable (split : Splitting h x labels) (inv : WalkInvariant h x labels s []) (threaded : Threaded h s)
  (versioned : Versioned g src h)

section
include split versioned

/-- The labels that get phis are those of the original graph: everything else is a phi. -/
theorem label_original (isLabel : l ∈ labels) : l ∈ g.listed ∧ g.op l = .label := by
  have op := split.placed.label l isLabel
  have listed := split.sound.wired.listed_of_reachable (split.placed.reachable l isLabel)
  rcases versioned.listed.mp listed with member | ⟨new, inside⟩
  · exact ⟨member, (versioned.old member).op.symm.trans op⟩
  · rw [(versioned.new new inside).1] at op
    simp at op

include inv

theorem noPhi_of_new (wired : g.Wired) (new : g.store.size ≤ v) : s.phis.lookup v = none := by
  refine inv.layout.lookup_eq_none fun isLabel => ?_
  have original := (label_original split versioned isLabel).1
  exact absurd (wired.listed_lt v original) (Nat.not_lt.mpr new)

theorem leads_of_leads (wired : g.Wired) (leads : h.Leads (· < g.store.size) p q) :
    s.graph.Leads (· < g.store.size) p q := by
  induction leads with
  | here isKept => exact .here isKept
  | @skip v t _ extra only _ ih =>
    have new : g.store.size ≤ v := by simpa using extra
    have inside : v < h.store.size := Graph.lt_of_mem_succs (show t ∈ h.succs v by simp [only])
    refine .skip extra ?_ ih
    rw [inv.succs_of_noPhi (inv.noPhi_of_new split versioned wired new) inside, only]

end

section
include inv threaded versioned

/-- The phi of a label stands behind it. -/
theorem behind_phi {phi : VertexId} (found : s.phis.lookup u = some phi) (behind : s.graph.Behind g.store.size l u) :
    s.graph.Behind g.store.size l phi :=
  .after behind (Nat.le_trans versioned.size (inv.layout.phi found).2.2.new) (inv.succs_label found) (threaded.new found)

/-- A chain gets longer at most at its front. -/
theorem behind_of_behind (behind : h.Behind g.store.size l v) : s.graph.Behind g.store.size l v := by
  induction behind with
  | self old => exact .self old
  | @after u v _ new way back ih =>
    have inside : v < h.store.size := Graph.lt_of_mem_preds (show u ∈ h.preds v by simp [back])
    have preds := threaded.old (versioned.listed.mpr (.inr ⟨new, inside⟩))
    rw [back, List.map_singleton, outlet] at preds
    generalize found : s.phis.lookup u = behind at preds
    cases behind with
    | none =>
      have insideU : u < h.store.size := Graph.lt_of_mem_succs (show v ∈ h.succs u by simp [way])
      exact .after ih new ((inv.succs_of_noPhi found insideU).trans way) preds
    | some phi =>
      have onward := (inv.layout.phi found).2.2.succs
      exact .after (inv.behind_phi threaded versioned found ih) new (onward.trans way) preds

theorem behind_outlet (behind : h.Behind g.store.size l u) : s.graph.Behind g.store.size l (s.outlet u) := by
  have kept := inv.behind_of_behind threaded versioned behind
  rw [outlet]
  generalize found : s.phis.lookup u = behind
  cases behind with
  | none => exact kept
  | some phi => exact inv.behind_phi threaded versioned found kept

end

include split inv threaded versioned

/-- Splitting a variable makes the chains longer. -/
theorem chained (wired : g.Wired) (before : Chained g h) : Chained g s.graph := by
  have memberBefore {v : VertexId} (member : v ∈ g.listed) : v ∈ h.listed := versioned.listed.mpr (.inl member)
  refine {
    name := threaded.name.trans before.name
    sig := threaded.sig.trans before.sig
    listed := ?_
    unlisted := fun {v} inside absent => ?_
    ahead := fun {v} member => ?_
    back := fun {v} member => ?_
    chain := fun {v} new inside => ?_
    falls := fun {v t} new edge => ?_
    rises := fun {v p} new edge => ?_ }
  · obtain ⟨new, all, fresh⟩ := threaded.listed
    have none : new.filter (· < g.store.size) = [] := by
      refine List.filter_eq_nil_iff.mpr fun v member => ?_
      simpa using Nat.le_trans versioned.size (fresh v member)
    rw [all, List.filter_append, none, List.append_nil, before.listed]
  · have absentBefore : v ∉ h.listed := by
      intro listed
      rcases versioned.listed.mp listed with member | ⟨new, _⟩
      · exact absent member
      · exact absurd inside (Nat.not_lt.mpr new)
    exact (threaded.unlisted (Nat.lt_of_lt_of_le inside versioned.size) absentBefore).trans (before.unlisted inside absent)
  · have edges := (before.ahead member).imp fun _ _ => inv.leads_of_leads split versioned wired
    cases found : s.phis.lookup v with
    | none => rwa [inv.succs_of_noPhi found (split.sound.wired.listed_lt v (memberBefore member))]
    | some phi =>
      -- the only edge of the label goes over the phi now
      obtain ⟨isLabel, _, placed⟩ := inv.layout.phi found
      obtain ⟨t, only⟩ := (split.sound.vertex (split.placed.reachable v isLabel)).succs_eq_singleton
        (by rw [split.placed.label v isLabel]; rfl)
      rw [only] at edges
      obtain ⟨q, none, leads, rest, same⟩ := List.forall₂_cons_left_iff.mp edges
      rw [inv.succs_label found, same, List.forall₂_nil_left_iff.mp rest]
      have extra : decide (phi < g.store.size) = false := by
        simpa using Nat.le_trans versioned.size placed.new
      exact .cons (.skip extra (placed.succs.trans only) leads) .nil
  · rw [threaded.old (memberBefore member), List.forall₂_map_left_iff]
    exact (before.back member).imp fun p q => inv.behind_outlet threaded versioned
  · rcases Nat.lt_or_ge v h.store.size with old | fresh
    · obtain ⟨l, member, isLabel, behind⟩ := before.chain new old
      exact ⟨l, member, isLabel, inv.behind_of_behind threaded versioned behind⟩
    · obtain ⟨l, found⟩ := inv.layout.new fresh inside
      obtain ⟨member, isLabel⟩ := label_original split versioned (inv.layout.phi found).1
      exact ⟨l, member, isLabel, inv.behind_phi threaded versioned found (.self (wired.listed_lt l member))⟩
  · rcases Nat.lt_or_ge v h.store.size with old | fresh
    · rw [inv.succs_of_noPhi (inv.noPhi_of_new split versioned wired new) old] at edge
      exact before.falls new edge
    · obtain ⟨l, found⟩ := inv.layout.new fresh (Graph.lt_of_mem_succs edge)
      obtain ⟨isLabel, _, placed⟩ := inv.layout.phi found
      rw [placed.succs] at edge
      have reached := (split.placed.reachable l isLabel).step edge
      exact Nat.lt_of_lt_of_le (split.sound.wired.lt_of_reachable reached) fresh
  · rcases Nat.lt_or_ge v h.store.size with old | fresh
    · rw [threaded.old (versioned.listed.mpr (.inr ⟨new, old⟩))] at edge
      obtain ⟨q, edgeBefore, isOutlet⟩ := List.mem_map.mp edge
      rw [outlet] at isOutlet
      generalize found : s.phis.lookup q = behind at isOutlet
      cases behind with
      | none => exact isOutlet ▸ before.rises new edgeBefore
      | some phi => exact .inr (isOutlet ▸ Nat.lt_of_lt_of_le old (inv.layout.phi found).2.2.new)
    · obtain ⟨l, found⟩ := inv.layout.new fresh (Graph.lt_of_mem_preds edge)
      rw [threaded.new found, List.mem_singleton] at edge
      rw [edge]
      exact .inl (wired.listed_lt l (label_original split versioned (inv.layout.phi found).1).1)

end Renaming.WalkInvariant

namespace Analysis

variable {g : Graph} {src : VarId → VarId} {x : VarId} {rest : List VarId} {a a' : Analysis}

/-- Splitting a variable makes the chains longer. -/
theorem chained_split (wired : g.Wired) (stage : Stage g src (x :: rest) a) {labels : List VertexId}
    (chosen : a.graph.phiLabels a.dominators.1 x (a.graph.definitions (some x)) = .ok labels) (chained : Chained g a.graph) :
    Chained g (a.graph.splitVariable x labels) := by
  have splitting := stage.splitting chosen
  obtain ⟨s, graph, inv, threaded⟩ := Renaming.threaded_splitVariable splitting
  exact graph ▸ inv.chained splitting threaded stage.versioned wired chained

theorem chained_forM (wired : g.Wired) (stage : Stage g src rest a) (distinct : rest.Nodup) (chained : Chained g a.graph)
    (done : (rest.forM singleAssignmentOf).Succeeds a () a') : Chained g a'.graph := by
  refine forM_induct (P := fun _ b => Chained g b.graph) stage distinct done chained (fun _ _ _ _ chained => chained) ?_
  intro src x rest b labels stage chosen chained
  exact chained_split wired stage chosen chained

/-- The phis of the single assignment form stand in chains behind labels. -/
theorem chained_toSingleAssignment (sound : a.graph.Sound) (inScope : a.graph.Scoped)
    (noPhi : ∀ v ∈ a.graph.listed, a.graph.op v ≠ .phi) (dated : a.Dated)
    (done : toSingleAssignment.Succeeds a () a') : Chained a.graph a'.graph := by
  obtain ⟨xs, mentioned, distinct, done⟩ := toSingleAssignment_succeeds done
  exact chained_forM sound.wired (stage_start sound inScope noPhi dated mentioned) distinct (.refl sound.wired) done

end Analysis

/-! ### Bypassing the phis -/

/-- One step along `next` from a vertex past the first `size`; the others stay where they are. -/
def hop (next : VertexId → List VertexId) (size : Nat) (v : VertexId) : VertexId :=
  if v < size then v else (next v).headD v

theorem hop_old {next : VertexId → List VertexId} {size : Nat} {v : VertexId} (old : v < size) : hop next size v = v :=
  if_pos old

theorem hop_new {next : VertexId → List VertexId} {size : Nat} {v t : VertexId} (new : size ≤ v) (only : next v = [t]) :
    hop next size v = t := by
  rw [hop, if_neg (Nat.not_lt.mpr new), only]
  rfl

namespace Graph

variable {h : Graph} {size n : Nat} {v l s : VertexId}

/-- Enough steps go where the way leads. -/
theorem Leads.iterate_hop (leads : h.Leads (· < size) v s) (falls : ∀ {v t}, size ≤ v → t ∈ h.succs v → t < v)
    (enough : v ≤ n) : (hop h.succs size)^[n] v = s := by
  induction leads generalizing n with
  | here isKept => exact Function.iterate_fixed (hop_old (by simpa using isKept)) n
  | @skip v t _ extra only _ ih =>
    have new : size ≤ v := by simpa using extra
    have lower : t < v := falls new (by simp [only])
    obtain ⟨m, rfl⟩ : ∃ m, n = m + 1 := ⟨n - 1, by grind⟩
    rw [Function.iterate_succ_apply, hop_new new only]
    exact ih (by grind)

/-- Enough steps back go to the front of the chain. -/
theorem Behind.iterate_hop (behind : h.Behind size l v)
    (rises : ∀ {v p}, size ≤ v → p ∈ h.preds v → p < size ∨ v < p) (enough : h.store.size ≤ n + v) :
    (hop h.preds size)^[n] v = l := by
  induction behind generalizing n with
  | self old => exact Function.iterate_fixed (hop_old old) n
  | @after u v rest new way back ih =>
    have edge : u ∈ h.preds v := by simp [back]
    have inside := lt_of_mem_preds edge
    obtain ⟨m, rfl⟩ : ∃ m, n = m + 1 := ⟨n - 1, by grind⟩
    rw [Function.iterate_succ_apply, hop_new new back]
    rcases rises new edge with old | higher
    · rw [rest.eq_of_old old]
      exact Function.iterate_fixed (hop_old rest.old) m
    · exact ih (by grind)

/-- A vertex with the vertices past the first `size` bypassed on its edges, and `src` applied to its variables. -/
def vertexWithoutPhis (h : Graph) (size : Nat) (src : VarId → VarId) (v : VertexId) : Vertex :=
  if v ∈ h.listed then
    { h.vertex v with
      result := (h.vertex v).result.map src
      args := (h.vertex v).args.map (Option.map src)
      succs := (h.succs v).map (hop h.succs size)^[h.store.size]
      preds := (h.preds v).map (hop h.preds size)^[h.store.size] }
  else h.vertex v

/-- The graph of the first `size` vertices and `count` variables, with the other vertices bypassed and `src` in place of
the other variables. -/
def withoutPhis (h : Graph) (size count : Nat) (src : VarId → VarId) : Graph :=
  { h with
    store := Array.ofFn fun v : Fin size => h.vertexWithoutPhis size src v
    listed := h.listed.filter (· < size)
    vars := h.vars.take count }

end Graph

namespace Chained

variable {g h : Graph} {src : VarId → VarId} {v : VertexId}

/-- Bypassing the phis gives back the vertices of the original graph. -/
theorem vertexWithoutPhis_eq (chained : Chained g h) (versioned : Versioned g src h) (inside : v < g.store.size) :
    h.vertexWithoutPhis g.store.size src v = g.vertex v := by
  by_cases member : v ∈ g.listed
  · have listed : v ∈ h.listed := versioned.listed.mpr (.inl member)
    have same := versioned.old member
    have succs : (h.succs v).map (hop h.succs g.store.size)^[h.store.size] = g.succs v := by
      rw [← List.forall₂_eq_eq_eq, List.forall₂_map_left_iff]
      refine forall₂_comp (List.forall₂_same.mpr fun _ _ => rfl) (chained.ahead member) ?_
      rintro t _ q edge rfl leads
      have below := versioned.sound.wired.listed_lt t (versioned.sound.wired.succs_listed v listed t edge)
      exact leads.iterate_hop chained.falls (Nat.le_of_lt below)
    have preds : (h.preds v).map (hop h.preds g.store.size)^[h.store.size] = g.preds v := by
      rw [← List.forall₂_eq_eq_eq, List.forall₂_map_left_iff]
      exact (chained.back member).imp fun p q behind => behind.iterate_hop chained.rises (Nat.le_add_right _ _)
    simp only [Graph.vertexWithoutPhis, if_pos listed, succs, preds, same.result, same.args, same.op, same.binOp,
      same.callee, same.owned]
    rfl
  · have absent : v ∉ h.listed := by
      intro listed
      rcases versioned.listed.mp listed with known | ⟨new, _⟩
      · exact member known
      · exact absurd inside (Nat.not_lt.mpr new)
    rw [Graph.vertexWithoutPhis, if_neg absent]
    exact chained.unlisted inside member

/-- Bypassing the phis gives back the original graph. -/
theorem withoutPhis_eq (chained : Chained g h) (versioned : Versioned g src h) :
    { h.withoutPhis g.store.size g.vars.size src with epoch := g.epoch } = g := by
  have store : (Array.ofFn fun v : Fin g.store.size => h.vertexWithoutPhis g.store.size src v) = g.store := by
    refine Array.ext (by simp) fun i _ inside => ?_
    rw [Array.getElem_ofFn, chained.vertexWithoutPhis_eq versioned inside, Graph.vertex, Array.getD_eq_getD_getElem?,
      Array.getElem?_eq_getElem inside, Option.getD_some]
  have vars : h.vars.take g.vars.size = g.vars := by
    have enough := versioned.vars
    refine Array.ext (by simpa using enough) fun i _ inside => ?_
    have same := versioned.oldVar inside
    rw [Graph.var, Graph.var, Array.getD_eq_getD_getElem?, Array.getD_eq_getD_getElem?,
      Array.getElem?_eq_getElem inside, Array.getElem?_eq_getElem (Nat.lt_of_lt_of_le inside enough)] at same
    simpa using same
  simp only [Graph.withoutPhis, store, vars, chained.name, chained.sig, chained.listed, versioned.expands.entry,
    versioned.exit, versioned.reach]

end Chained

namespace Analysis

variable {a a' : Analysis}

/-- Single assignment form changes nothing but names and phis. Bypassing everything new, with each variable in the place
of its versions, gives the graph there was before. Every new vertex is a phi with one way in and one way on, in a chain
right behind a label. The parameters stay, an old variable stands for itself, and a new one has the name and the type of
the variable it stands for. -/
theorem toSingleAssignment_withoutPhis (a a' : Analysis) (passes : a.graph.verify = none) (inScope : a.graph.Scoped)
    (noPhi : ∀ v ∈ a.graph.listed, a.graph.op v ≠ .phi) (dated : a.Dated)
    (done : toSingleAssignment.Succeeds a () a') :
    { a'.graph.withoutPhis a.graph.store.size a.graph.vars.size a.source with epoch := a.graph.epoch } = a.graph ∧
    (∀ v ∈ a'.graph.listed, a.graph.store.size ≤ v → a'.graph.op v = .phi ∧ (∃ p, a'.graph.preds v = [p]) ∧
      (∃ s, a'.graph.succs v = [s]) ∧
      ∃ l ∈ a.graph.listed, a.graph.op l = .label ∧ a'.graph.Behind a.graph.store.size l v) ∧
    a'.graph.params = a.graph.params ∧
    (∀ y < a.graph.vars.size, a.source y = y) ∧
    ∀ y < a'.graph.vars.size, a.graph.vars.size ≤ y → a.source y < a.graph.vars.size ∧
      a'.graph.var y = { name := (a.graph.var (a.source y)).name,
                         type := some ((a.graph.var (a.source y)).type.getD .unknown) } := by
  have sound := Graph.sound_of_verify passes
  have versioned := (stage_toSingleAssignment sound inScope noPhi dated done).versioned
  have chained := chained_toSingleAssignment sound inScope noPhi dated done
  refine ⟨chained.withoutPhis_eq versioned, ?_, versioned.params, fun y old => versioned.srcOld old, ?_⟩
  · intro v listed new
    have inside := versioned.sound.wired.listed_lt v listed
    have isPhi := (versioned.new new inside).1
    obtain ⟨l, member, isLabel, behind⟩ := chained.chain new inside
    refine ⟨isPhi, ?_, (versioned.sound.vertices v listed).succs_eq_singleton (by rw [isPhi]; rfl), l, member, isLabel,
      behind⟩
    cases behind with
    | self old => exact absurd old (Nat.not_lt.mpr new)
    | @after u _ _ _ _ back => exact ⟨u, back⟩
  · intro y inside fresh
    exact ⟨versioned.srcLt inside, versioned.newVar fresh inside⟩

/-- A loop that adds up what it counts down: two variables are written again behind the same label. -/
def summing : Graph where
  name := "sum"
  sig := ⟨[some .long, none], .long⟩
  entry := 0
  exit := 1
  store := #[
    { op := .function, args := [some 0, some 1], succs := [2], owned := true },
    { op := .finish, preds := [6], owned := true },
    { op := .label, succs := [3], preds := [0, 5], owned := true },
    { op := .jumpIf, args := [some 0], succs := [4, 6], preds := [2], owned := true },
    { op := .binary, binOp := .plus, result := some 1, args := [some 1, some 0], succs := [5], preds := [3],
      owned := true },
    { op := .binary, binOp := .minus, result := some 0, args := [some 0, some 2], succs := [2], preds := [4],
      owned := true },
    { op := .ret, args := [some 1], succs := [1], preds := [3], owned := true }]
  listed := [0, 1, 2, 3, 4, 5, 6]
  vars := #[{ name := "n", type := some .long }, { name := "s" }, { type := some .long, value := some (.long 1) }]
  epoch := 0
  reach := none

/-- The loop in single assignment form, with two phis behind its label. -/
def summingSplit : Graph where
  name := "sum"
  sig := ⟨[some .long, none], .long⟩
  entry := 0
  exit := 1
  store := #[
    { op := .function, args := [some 0, some 1], succs := [2], owned := true },
    { op := .finish, preds := [6], owned := true },
    { op := .label, succs := [8], preds := [0, 5], owned := true },
    { op := .jumpIf, args := [some 3], succs := [4, 6], preds := [7], owned := true },
    { op := .binary, binOp := .plus, result := some 6, args := [some 5, some 3], succs := [5], preds := [3],
      owned := true },
    { op := .binary, binOp := .minus, result := some 4, args := [some 3, some 2], succs := [2], preds := [4],
      owned := true },
    { op := .ret, args := [some 5], succs := [1], preds := [3], owned := true },
    { op := .phi, result := some 3, args := [some 0, some 4], succs := [3], preds := [8], owned := true },
    { op := .phi, result := some 5, args := [some 1, some 6], succs := [7], preds := [2], owned := true }]
  listed := [0, 1, 2, 3, 4, 5, 6, 7, 8]
  vars := #[{ name := "n", type := some .long }, { name := "s" }, { type := some .long, value := some (.long 1) },
    { name := "n", type := some .long }, { name := "n", type := some .long }, { name := "s", type := some .unknown },
    { name := "s", type := some .unknown }]
  epoch := 4
  reach := none

theorem toSingleAssignment_summing :
    ∃ a', toSingleAssignment.Succeeds { graph := summing } () a' ∧ a'.graph = summingSplit := by
  have both : Prod.map id graph (toSingleAssignment.outcome { graph := summing }) = (.ok (), summingSplit) := by cbv
  have ok : (toSingleAssignment.outcome { graph := summing }).1 = .ok () := (Prod.ext_iff.mp both).1
  exact ⟨_, Prod.ext ok rfl, (Prod.ext_iff.mp both).2⟩

/-- Both phis of the loop are bypassed: the older one stands behind the other. -/
theorem summing_withoutPhis :
    { summingSplit.withoutPhis 7 3 (source { graph := summing }) with epoch := 0 } = summing ∧
    summingSplit.succs 8 = [7] ∧ ∃ l ∈ summing.listed, summing.op l = .label ∧ summingSplit.Behind 7 l 7 := by
  obtain ⟨a', done, graph⟩ := toSingleAssignment_summing
  have undated : Analysis.Dated { graph := summing } := fun d kept => by simp at kept
  have all := toSingleAssignment_withoutPhis { graph := summing } a' (by decide) (by decide) (by decide) undated done
  rw [graph] at all
  exact ⟨all.1, rfl, (all.2.1 7 (by decide) (by decide)).2.2.2⟩

end Analysis

end MiddleEnd
