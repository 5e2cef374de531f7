import MiddleEnd.Proofs.Release.Plan
import MiddleEnd.Proofs.Verified

/-!
Releases keep a graph that passes the integrity check so. A new vertex takes edges over from others without changing how
many there are; what has to be seen is that none leads to the entry, and that returns still lead to the exit
(`Graph.Interposed.verified`).
-/
namespace MiddleEnd

namespace Graph

variable {g h k : Graph} {v : VertexId} {x : VarId} {p : ReleasePoint}

section
variable {target : VertexId} {via : VertexId → Prop} [DecidablePred via]

/-- The release that is put on edges is sound. -/
theorem Interposed.vertexSound_new (inter : h.Interposed k target via) (rewired : (h.addFree x).Rewired k) :
    k.VertexSound h.store.size := by
  obtain ⟨op, _, _, result, args, owned⟩ := Vertex.body_eq_iff.mp (rewired.body h.store.size)
  simp only [addFree, vertex_addVertex_new] at op result args owned
  have isFree : k.op h.store.size = .free := op
  refine ⟨?_, ?_, ?_, ?_, ?_, ?_, ?_, ?_, ?_, ?_, ?_, ?_⟩ <;>
    simp [isFree, contains, owned, inter.onward, result, args, Op.isValid, Op.numSuccs, Op.info]

/-- A release on edges that do not lead to the entry, nor from a return to the exit, keeps a graph intact. -/
theorem Interposed.verified (inter : h.Interposed k target via) (rewired : (h.addFree x).Rewired k) (verified : h.Verified)
    (notEntry : target ≠ h.entry) (notExit : ∀ u ∈ h.listed, via u → h.op u = .ret → target ≠ h.exit) : k.Verified := by
  have sound := verified.sound
  have wired := sound.wired
  have known {u : VertexId} (member : u ∈ h.listed) : h.knows u = true := knows_iff.mpr (wired.listed_lt u member)
  have sameOp {u : VertexId} (member : u ∈ h.listed) : k.op u = h.op u :=
    (Vertex.body_eq_iff.mp (inter.body u (known member))).op
  have vars (y : VarId) : k.var y = h.var y := by rw [var, var, rewired.vars]; rfl
  have oldOr {u : VertexId} (member : u ∈ k.listed) : u ∈ h.listed ∨ u = h.store.size := by
    rwa [inter.listed, List.mem_append, List.mem_singleton] at member
  have kept {u : VertexId} (member : u ∈ h.listed) : u ∈ k.listed := by
    rw [inter.listed]
    exact List.mem_append_left _ member
  have padded := inter.padded wired
  refine ⟨⟨?_, ?_, ?_, ?_, ?_, inter.wired⟩, ?_⟩
  · rw [inter.entry, sameOp wired.entry_listed, sound.entryOp]
  · rw [inter.exit, sameOp sound.exitListed, sound.exitOp]
  · -- an edge to the entry would come from the new vertex or have been there before
    refine inter.wired.preds_eq_nil inter.wired.entry_listed fun u source edge => ?_
    rw [inter.entry] at edge
    rcases oldOr source with old | rfl
    · rcases inter.edge_cases old edge with ⟨isNew, _⟩ | ⟨before, _⟩
      · exact Nat.ne_of_lt (wired.listed_lt _ wired.entry_listed) isNew
      · exact sound.entry_notMem_succs old before
    · rw [inter.onward, List.mem_singleton] at edge
      exact notEntry edge.symm
  · rw [inter.exit]
    exact kept sound.exitListed
  · intro u member
    rcases oldOr member with old | rfl
    · refine (sound.vertices u old).congr (inter.body u (known old)) inter.entry inter.exit (fun y => by rw [vars])
        (padded.degree u old) fun isRet => ?_
      rw [inter.succs u old]
      split
      · rename_i passes
        obtain ⟨rest, succs⟩ : ∃ rest, h.succs u = h.exit :: rest :=
          List.head?_eq_some_iff.mp ((sound.vertices u old).returns isRet)
        rw [succs, turned, List.map_cons, if_neg (notExit u old passes isRet).symm]
        rfl
      · exact (sound.vertices u old).returns isRet
    · exact inter.vertexSound_new rewired
  · intro u member isPhi
    rcases oldOr member with old | rfl
    · obtain ⟨_, _, _, result, args, _⟩ := Vertex.body_eq_iff.mp (inter.body u (known old))
      exact (verified.phiSets u old (sameOp old ▸ isPhi)).congr result args
    · have isFree : k.op h.store.size = .free := by
        rw [Graph.op, (Vertex.body_eq_iff.mp (rewired.body _)).op]
        simp [addFree]
      rw [isFree] at isPhi
      contradiction

end

/-! ### One release after the other -/

/-- `k` has the vertices of `h`, with their operations. -/
structure Includes (h k : Graph) : Prop where
  listed : ∀ v ∈ h.listed, v ∈ k.listed
  op : ∀ v ∈ h.listed, k.op v = h.op v
  entry : k.entry = h.entry

theorem Includes.refl : h.Includes h :=
  ⟨fun _ => id, fun _ _ => rfl, rfl⟩

theorem Includes.trans (first : g.Includes h) (second : h.Includes k) : g.Includes k :=
  ⟨fun v member => second.listed v (first.listed v member),
    fun v member => (second.op v (first.listed v member)).trans (first.op v member), second.entry.trans first.entry⟩

theorem Interposed.includes {target : VertexId} {via : VertexId → Prop} [DecidablePred via]
    (inter : h.Interposed k target via) (wired : h.Wired) : h.Includes k where
  listed v member := by
    rw [inter.listed]
    exact List.mem_append_left _ member
  op v member := (Vertex.body_eq_iff.mp (inter.body v (knows_iff.mpr (wired.listed_lt v member)))).op
  entry := inter.entry

/-- A branch can get a release on each of its edges. -/
theorem Verified.releaseOnEdges {targets : List VertexId} (verified : h.Verified) (listed : v ∈ h.listed)
    (notRet : h.op v ≠ .ret) (ends : ∀ s ∈ targets, s ∈ h.listed ∧ s ≠ h.entry) :
    (targets.foldl (fun g s => (g.addFree x).insertOnEdge v s g.nextVertex) h).Verified ∧
      h.Includes (targets.foldl (fun g s => (g.addFree x).insertOnEdge v s g.nextVertex) h) := by
  induction targets generalizing h with
  | nil => exact ⟨verified, .refl⟩
  | cons target targets ih =>
    have wired := verified.sound.wired
    obtain ⟨target_listed, notEntry⟩ := ends target List.mem_cons_self
    have inter := interposed_insertOnEdge (x := x) wired listed target_listed
    have kept := inter.includes wired
    have verified' := inter.verified rewired_insertOnEdge verified notEntry fun u _ isV isRet => absurd (isV ▸ isRet) notRet
    have later := ih verified' (kept.listed v listed) (by rwa [kept.op v listed]) fun s member => by
      obtain ⟨s_listed, notEntry⟩ := ends s (List.mem_cons_of_mem _ member)
      exact ⟨kept.listed s s_listed, by rwa [kept.entry]⟩
    exact ⟨later.1, kept.trans later.2⟩

/-- A release keeps the graph intact. -/
theorem Verified.release (verified : h.Verified) (listed : p.vertex ∈ h.listed) (notFinish : h.op p.vertex ≠ .finish) :
    (h.release p).1.Verified ∧ h.Includes (h.release p).1 := by
  have sound := verified.sound
  have wired := sound.wired
  have targets (s : VertexId) (edge : s ∈ h.succs p.vertex) : s ∈ h.listed ∧ s ≠ h.entry :=
    ⟨wired.succs_listed _ listed s edge, fun isEntry => sound.entry_notMem_succs listed (isEntry ▸ edge)⟩
  rw [Graph.release]
  split
  · rename_i reading
    have notRet : h.op p.vertex ≠ .ret := by
      intro isRet
      simp [Vertex.isBranch, show (h.vertex p.vertex).op = .ret from isRet, Op.info] at reading
    exact verified.releaseOnEdges listed notRet fun s member => targets s (List.mem_eraseDups.mp member)
  split
  · rename_i leaves
    have inter := interposed_insertBefore (x := p.x) wired listed
    refine ⟨inter.verified rewired_insertBefore verified ?_ fun u _ _ _ isExit => ?_, inter.includes wired⟩
    · intro isEntry
      simp [Vertex.isBranch, show (h.vertex p.vertex).op = .function from isEntry ▸ sound.entryOp, Op.info] at leaves
    · exact notFinish (isExit ▸ sound.exitOp)
  · rename_i leaves
    obtain ⟨notBranch, notRet⟩ : (h.vertex p.vertex).isBranch = false ∧ h.op p.vertex ≠ .ret := by
      simpa [Graph.op] using leaves
    obtain ⟨target, succs⟩ : ∃ target, h.succs p.vertex = [target] := by
      refine (sound.vertices _ listed).succs_eq_singleton ?_
      rw [Vertex.isBranch, show (h.vertex p.vertex).op = h.op p.vertex from rfl] at notBranch
      cases isOp : h.op p.vertex <;> simp_all [Op.numSuccs, Op.info]
    have inter := interposed_insertAfter (x := p.x) wired listed succs
    exact ⟨inter.verified (rewired_insertAfter_addFree wired listed) verified (targets target (by simp [succs])).2
      fun u _ isV isRet => absurd (isV ▸ isRet) notRet, inter.includes wired⟩

theorem Verified.releases {plan : List ReleasePoint} (verified : h.Verified)
    (points : ∀ p ∈ plan, p.vertex ∈ h.listed ∧ h.op p.vertex ≠ .finish) :
    (plan.foldl (fun g p => (g.release p).1) h).Verified := by
  induction plan generalizing h with
  | nil => exact verified
  | cons p plan ih =>
    obtain ⟨listed, notFinish⟩ := points p List.mem_cons_self
    obtain ⟨verified', kept⟩ := verified.release listed notFinish
    refine ih verified' fun q member => ?_
    obtain ⟨listed, notFinish⟩ := points q (List.mem_cons_of_mem _ member)
    exact ⟨kept.listed _ listed, by rwa [kept.op _ listed]⟩

end Graph

/-- The pass that inserts releases keeps the graph intact. -/
theorem Analysis.insertReleases_verified {a a' : Analysis} {count : Nat} (verified : a.graph.Verified)
    (dated : a.DatedBackward) (done : insertReleases.Succeeds a count a') : a'.graph.Verified := by
  have sound := verified.sound
  obtain ⟨chosen, isChosen⟩ := Classical.axiomOfChoice (exists_releasePoint? sound dated)
  obtain ⟨xs, isMentioned, _⟩ := sound.exists_mentioned
  obtain ⟨count', a'', done', graph⟩ := insertReleases_succeeds isMentioned isChosen
  obtain rfl : a' = a'' := congrArg Prod.snd (done.symm.trans done')
  rw [graph]
  refine verified.releases fun p member => ?_
  obtain ⟨x, _, isPoint⟩ := List.mem_filterMap.mp member
  have point := (Graph.releasesAt_of_releasePoint? sound (postDominators_answer sound dated) (isPoint ▸ isChosen x)).2
  exact ⟨point.listed, point.notExit⟩

end MiddleEnd
