import MiddleEnd.Proofs.Compiling.Layout

/-!
Functions given to the builder statement by statement. A function is well formed when its statements use variables and
labels that exist, write no constants, place no label twice, and place every label that they jump to. What a well
formed function is built into is complete (`Source.complete_graph`): after each statement only the insertion point and
the labels that are not placed wait for successors, and at the end the point returns and what is left of the labels goes.
-/
namespace MiddleEnd

/-- What can be asked of the builder between the start and the end of a function. -/
inductive Statement where
  | var (name : String)
  | typedVar (name : String) (type : Option Ty)
  | temp
  | const (value : Literal)
  | assign (dst src : VarId)
  | binaryInto (dst : VarId) (op : BinOp) (x y : VarId)
  | binary (op : BinOp) (x y : VarId)
  | unary (op : Op) (x : VarId)
  | call (callee : String) (args : List VarId)
  | echo (args : List VarId)
  | label
  | bind (l : VertexId)
  | jump (target : VertexId)
  | jumpIf (cond : VarId) (thenTo elseTo : VertexId)
  | ret (x : Option VarId)

namespace Statement

def run (b : Builder) : Statement → Builder
  | var name => (b.var name).2
  | typedVar name type => (b.typedVar name type).2
  | temp => b.temp.2
  | const value => (b.const value).2
  | assign dst src => (b.assign (some dst) (some src)).2
  | binaryInto dst op x y => (b.binaryInto (some dst) op (some x) (some y)).2
  | binary op x y => (b.binary op (some x) (some y)).2
  | unary op x => (b.unary op (some x)).2
  | call callee args => (b.call callee (args.map some)).2
  | echo args => (b.echo (args.map some)).2
  | label => b.label.2
  | bind l => b.bind l
  | jump target => b.jump target
  | jumpIf cond thenTo elseTo => b.jumpIf (some cond) thenTo elseTo
  | ret x => b.ret x

/-- The labels that a statement places. -/
def binds : Statement → List VertexId
  | bind l => [l]
  | _ => []

/-- The labels that a statement jumps to. -/
def jumps : Statement → List VertexId
  | jump target => [target]
  | jumpIf _ thenTo elseTo => [thenTo, elseTo]
  | _ => []

end Statement

namespace Graph

def Knows (g : Graph) (x : VarId) : Prop :=
  x < g.vars.size

/-- A variable that may be written. -/
def Writable (g : Graph) (x : VarId) : Prop :=
  g.Knows x ∧ (g.var x).isConst = false

instance (g : Graph) (x : VarId) : Decidable (g.Knows x) :=
  inferInstanceAs (Decidable (x < g.vars.size))

instance (g : Graph) (x : VarId) : Decidable (g.Writable x) :=
  inferInstanceAs (Decidable (_ ∧ _))

end Graph

namespace Statement

/-- Whether a statement may come next, when the labels in `bound` are placed. -/
def Allowed (g : Graph) (bound : List VertexId) : Statement → Prop
  | var _ | typedVar _ _ | temp | const _ | label => True
  | assign dst src => g.Writable dst ∧ g.Knows src
  | binaryInto dst op x y => g.Writable dst ∧ op.isValid = true ∧ g.Knows x ∧ g.Knows y
  | binary op x y => op.isValid = true ∧ g.Knows x ∧ g.Knows y
  | unary op x => (op = .boolNot ∨ op = .bitNot) ∧ g.Knows x
  | call _ args | echo args => ∀ x ∈ args, g.Knows x
  | bind l => g.op l = .label ∧ l ∉ bound
  | jump target => g.op target = .label
  | jumpIf cond thenTo elseTo => g.Knows cond ∧ g.op thenTo = .label ∧ g.op elseTo = .label
  | ret x => ∀ y ∈ x, g.Knows y

instance (g : Graph) (bound : List VertexId) : DecidablePred (Allowed g bound)
  | var _ | typedVar _ _ | temp | const _ | label => inferInstanceAs (Decidable True)
  | assign _ _ => inferInstanceAs (Decidable (_ ∧ _))
  | binaryInto _ _ _ _ => inferInstanceAs (Decidable (_ ∧ _ ∧ _ ∧ _))
  | binary _ _ _ => inferInstanceAs (Decidable (_ ∧ _ ∧ _))
  | unary _ _ => inferInstanceAs (Decidable ((_ ∨ _) ∧ _))
  | call _ args | echo args => inferInstanceAs (Decidable (∀ x ∈ args, g.Knows x))
  | bind _ => inferInstanceAs (Decidable (_ ∧ _))
  | jump _ => inferInstanceAs (Decidable (_ = _))
  | jumpIf _ _ _ => inferInstanceAs (Decidable (_ ∧ _ ∧ _))
  | ret x => inferInstanceAs (Decidable (∀ y ∈ x, g.Knows y))

end Statement

namespace Builder

/-- Whether statements may follow, when the labels in `bound` are placed and those in `jumped` jumped to. -/
def Accepts (b : Builder) (bound jumped : List VertexId) : List Statement → Prop
  | [] => ∀ l ∈ jumped, l ∈ bound
  | st :: rest => st.Allowed b.graph bound ∧ (st.run b).Accepts (st.binds ++ bound) (st.jumps ++ jumped) rest

instance decidableAccepts (b : Builder) (bound jumped : List VertexId) :
    (statements : List Statement) → Decidable (b.Accepts bound jumped statements)
  | [] => inferInstanceAs (Decidable (∀ l ∈ jumped, l ∈ bound))
  | st :: rest =>
    have := decidableAccepts (st.run b) (st.binds ++ bound) (st.jumps ++ jumped) rest
    inferInstanceAs (Decidable (_ ∧ _))

end Builder

/-! ### What waits for successors -/

/-- Whether control goes on from an operation to whatever comes next. -/
def Op.GoesOn (o : Op) : Prop :=
  o.numSuccs = 1 ∧ o ≠ .ret

/-- A label that is not placed. -/
def Graph.Unplaced (g : Graph) (bound : List VertexId) (v : VertexId) : Prop :=
  g.op v = .label ∧ v ∉ bound

namespace Builder

open MiddleEnd.Graph

variable {b : Builder} {bound jumped : List VertexId} {v : VertexId}

/-- The vertex emitted last and the labels that are not placed wait, and no edge leads to a label before it is placed
or jumped to. -/
structure Emitted (b : Builder) (bound jumped : List VertexId) : Prop where
  laid : b.graph.Laid fun v => b.point = some v ∨ b.graph.Unplaced bound v
  placed : ∀ {v}, b.point = some v → ¬ b.graph.Unplaced bound v
  known : ∀ l ∈ bound, l < b.graph.store.size
  idle : ∀ {v}, b.graph.Unplaced bound v → v ∉ jumped → b.graph.preds v = []

/-- A builder between two statements. -/
structure Standing (b : Builder) (bound jumped : List VertexId) : Prop extends Emitted b bound jumped where
  goesOn : ∀ {v}, b.point = some v → (b.graph.op v).GoesOn

theorem rewired_emit : b.graph.Rewired (b.emit v).graph := by
  rw [emit]
  cases b.point with
  | none => exact .refl
  | some last => exact rewired_addEdge

theorem op_emit (w : VertexId) : (b.emit v).graph.op w = b.graph.op w :=
  (Vertex.body_eq_iff.mp (rewired_emit.body w)).op

theorem preds_emit {w : VertexId} (other : w ≠ v) : (b.emit v).graph.preds w = b.graph.preds w := by
  rw [emit]
  cases b.point with
  | none => rfl
  | some last => exact preds_addEdges_of_notMem [v] (by simpa using other)

/-- The point gets its successor, and the vertex emitted is what waits now. -/
theorem laid_emit (others : VertexId → Prop) (laid : b.graph.Laid fun u => b.point = some u ∨ u = v ∨ others u)
    (notEntry : v ≠ b.graph.entry) (goesOn : ∀ {last}, b.point = some last → (b.graph.op last).GoesOn)
    (apart : ∀ {last}, b.point = some last → last ≠ v ∧ ¬ others last)
    (ahead : ∀ {last}, b.point = some last → b.graph.op v = .label ∨ last < v) :
    (b.emit v).graph.Laid fun u => u = v ∨ others u := by
  have inside := (laid.waits (.inr (.inl rfl)) : v < b.graph.store.size ∧ _).1
  rw [emit]
  cases atPoint : b.point with
  | none => exact laid.congr fun u => by simp [atPoint]
  | some last =>
    obtain ⟨one, notRet⟩ := goesOn atPoint
    obtain ⟨other, notOther⟩ := apart atPoint
    have closed : (b.graph.addEdges last [v]).Laid _ :=
      laid.addEdges (.inl atPoint) one.symm (fun isRet => absurd isRet notRet)
        (fun t member => List.mem_singleton.mp member ▸ ⟨inside, notEntry⟩)
        fun t member _ => List.mem_singleton.mp member ▸ ahead atPoint
    refine closed.congr fun u => ?_
    rw [atPoint]
    constructor
    · rintro (rfl | isOther)
      · exact ⟨Ne.symm other, .inr (.inl rfl)⟩
      · exact ⟨fun isLast => notOther (isLast ▸ isOther), .inr (.inr isOther)⟩
    · rintro ⟨notLast, isPoint | rest⟩
      · exact absurd (Option.some.inj isPoint).symm notLast
      · exact rest

theorem Emitted.entry_lt (emitted : Emitted b bound jumped) : b.graph.entry < b.graph.store.size :=
  emitted.laid.wired.listed_lt _ emitted.laid.wired.entry_listed

/-- Jumps that are not made do not matter. -/
theorem Standing.weaken (standing : Standing b bound jumped) (more : List VertexId) :
    Standing b bound (more ++ jumped) :=
  { standing with idle := fun unplaced away => standing.idle unplaced fun member => away (List.mem_append_right _ member) }

/-! ### Single statements -/

/-- Variables may be added and get types. -/
theorem Standing.withVars (standing : Standing b bound jumped) {vars : Array Variable} {names : List (String × VarId)}
    (size : b.graph.vars.size ≤ vars.size)
    (constant : ∀ x < b.graph.vars.size, ({ b.graph with vars }.var x).isConst = (b.graph.var x).isConst) :
    Standing ⟨{ b.graph with vars }, b.point, names⟩ bound jumped where
  laid := standing.laid.withVars size constant
  placed := standing.placed
  known := standing.known
  idle := standing.idle
  goesOn := standing.goesOn

theorem Standing.addVar (standing : Standing b bound jumped) {name : String} {type : Option Ty}
    {names : List (String × VarId)} : Standing ⟨b.graph.addVar name type, b.point, names⟩ bound jumped :=
  standing.withVars (by simp) fun x _ =>
    have value : ((b.graph.addVar name type).var x).value = (b.graph.var x).value := value_addVar
    congrArg Option.isSome value

theorem Standing.var (standing : Standing b bound jumped) (name : String) : Standing (b.var name).2 bound jumped := by
  rw [Builder.var]
  split
  · exact standing
  · exact standing.addVar

theorem Standing.typedVar (standing : Standing b bound jumped) (name : String) (type : Option Ty) :
    Standing (b.typedVar name type).2 bound jumped := by
  have retyped := Graph.Retyped.setVarType (g := (b.var name).2.graph) (b.var name).1 type
  exact (standing.var name).withVars (Nat.le_of_eq retyped.vars.symm) fun x _ => congrArg Option.isSome (retyped.value x)

theorem Standing.const (standing : Standing b bound jumped) (value : Literal) :
    Standing (b.const value).2 bound jumped := by
  refine standing.withVars (by simp) fun x known => ?_
  simp [Graph.var, Array.getElem?_push, Nat.ne_of_lt known]

/-- A vertex is put down and emitted. -/
theorem Standing.append (standing : Standing b bound jumped) {h : Graph} {w : Vertex} (gains : b.graph.Gains h w)
    (shaped : b.graph.Shaped w) (succs : w.succs = [])
    (inner : w.op ≠ .function ∧ w.op ≠ .finish) (notLabel : w.op ≠ .label) :
    Emitted ({ b with graph := h }.emit b.graph.store.size) bound jumped := by
  have newOp : h.op b.graph.store.size = w.op := by rw [Graph.op, gains.new]
  have inside {u : VertexId} (unplaced : h.Unplaced bound u) : u < b.graph.store.size := by
    rcases gains.cases_lt (lt_of_op (by rw [unplaced.1]; rfl)) with rfl | inside
    · exact absurd (newOp.symm.trans unplaced.1) notLabel
    · exact inside
  have same (u : VertexId) : h.Unplaced bound u ↔ b.graph.Unplaced bound u := by
    constructor
    · exact fun unplaced => ⟨(gains.op_old (inside unplaced)).symm.trans unplaced.1, unplaced.2⟩
    · intro unplaced
      have below : u < b.graph.store.size := lt_of_op (by rw [unplaced.1]; rfl)
      exact ⟨(gains.op_old below).trans unplaced.1, unplaced.2⟩
  have below {last : VertexId} (atPoint : b.point = some last) : last < b.graph.store.size :=
    (standing.laid.waits (.inl atPoint)).1
  have laid : h.Laid fun u => b.point = some u ∨ u = b.graph.store.size ∨ h.Unplaced bound u := by
    refine (gains.laid standing.laid shaped succs inner).congr fun u => ?_
    rw [same]
    exact or_left_comm
  have emitted := laid_emit (b := { b with graph := h }) (h.Unplaced bound) laid
    (by rw [gains.entry]; exact Nat.ne_of_gt standing.entry_lt)
    (fun atPoint => by rw [gains.op_old (below atPoint)]; exact standing.goesOn atPoint)
    (fun atPoint => ⟨Nat.ne_of_lt (below atPoint), fun unplaced => standing.placed atPoint ((same _).mp unplaced)⟩)
    (fun atPoint => .inr (below atPoint))
  have unplaced_iff (u : VertexId) : ({ b with graph := h }.emit b.graph.store.size).graph.Unplaced bound u ↔
      h.Unplaced bound u := by
    rw [Graph.Unplaced, op_emit, Graph.Unplaced]
  refine ⟨?_, ?_, ?_, ?_⟩
  · refine emitted.congr fun u => ?_
    rw [unplaced_iff]
    exact or_congr ⟨fun isNew => (Option.some.inj isNew).symm, fun isNew => isNew ▸ rfl⟩ Iff.rfl
  · intro u atPoint unplaced
    obtain rfl : b.graph.store.size = u := Option.some.inj atPoint
    exact Nat.lt_irrefl _ (inside ((unplaced_iff _).mp unplaced))
  · intro l member
    rw [rewired_emit.size, gains.size]
    exact Nat.lt_succ_of_lt (standing.known l member)
  · intro u unplaced away
    have unplaced := (unplaced_iff u).mp unplaced
    rw [preds_emit (Nat.ne_of_lt (inside unplaced)), gains.preds_old (inside unplaced)]
    exact standing.idle ((same u).mp unplaced) away

/-- What is put down goes on. -/
theorem Standing.appendOn (standing : Standing b bound jumped) {h : Graph} {w : Vertex} (gains : b.graph.Gains h w)
    (shaped : b.graph.Shaped w) (succs : w.succs = [])
    (inner : w.op ≠ .function ∧ w.op ≠ .finish) (notLabel : w.op ≠ .label) (goesOn : w.op.GoesOn) :
    Standing ({ b with graph := h }.emit b.graph.store.size) bound jumped where
  toEmitted := standing.append gains shaped succs inner notLabel
  goesOn {v} atPoint := by
    obtain rfl : b.graph.store.size = v := Option.some.inj atPoint
    rw [op_emit, Graph.op, gains.new]
    exact goesOn

/-- The point jumps, and is unreachable then. -/
theorem Emitted.close (emitted : Emitted b bound jumped) (atPoint : b.point = some v) {targets jumps : List VertexId}
    (quiet : (b.graph.op v).info.idempotent = false) (count : targets.length = (b.graph.op v).numSuccs)
    (returns : b.graph.op v = .ret → targets.head? = some b.graph.exit)
    (target : ∀ t ∈ targets, t ∈ jumps ∧ b.graph.op t = .label ∨ t = b.graph.exit) :
    Standing ⟨b.graph.addEdges v targets, none, b.names⟩ bound (jumps ++ jumped) := by
  have rewired : b.graph.Rewired (b.graph.addEdges v targets) := rewired_addEdges targets
  have unplaced_iff (u : VertexId) : (b.graph.addEdges v targets).Unplaced bound u ↔ b.graph.Unplaced bound u := by
    rw [Graph.Unplaced, Graph.Unplaced, Graph.op, (Vertex.body_eq_iff.mp (rewired.body u)).op, Graph.op]
  have targetOp {t : VertexId} (member : t ∈ targets) : b.graph.op t = .label ∨ b.graph.op t = .finish :=
    (target t member).imp And.right fun isExit => by rw [isExit, emitted.laid.exitOp]
  have closed := emitted.laid.addEdges (.inl atPoint) count returns
    (fun t member => ⟨lt_of_op (by rcases targetOp member with isOp | isOp <;> rw [isOp] <;> rfl), fun isEntry => by
      have isFunction := emitted.laid.entryOp
      rw [← isEntry] at isFunction
      rcases targetOp member with isOp | isOp <;> simp [isOp] at isFunction⟩)
    fun t _ idempotent => by simp [quiet] at idempotent
  refine ⟨⟨closed.congr fun u => ?_, by simp, fun l member => ?_, fun {u} unplaced away => ?_⟩, by simp⟩
  · rw [unplaced_iff, atPoint]
    constructor
    · rintro (none | unplaced)
      · simp at none
      · exact ⟨fun isV => emitted.placed atPoint (isV ▸ unplaced), .inr unplaced⟩
    · rintro ⟨notV, isV | unplaced⟩
      · exact absurd (Option.some.inj isV).symm notV
      · exact .inr unplaced
  · rw [rewired.size]
    exact emitted.known l member
  · have unplaced := (unplaced_iff u).mp unplaced
    have notTarget : u ∉ targets := by
      intro member
      rcases target u member with ⟨jumpedTo, _⟩ | rfl
      · exact away (List.mem_append_left _ jumpedTo)
      · have isFinish := emitted.laid.exitOp
        simp [unplaced.1] at isFinish
    rw [preds_addEdges_of_notMem targets notTarget]
    exact emitted.idle unplaced fun member => away (List.mem_append_right _ member)

/-- A vertex is put down and jumps, unless the point is unreachable already. -/
theorem Standing.leave (standing : Standing b bound jumped) {op : Op} {args : List (Option VarId)}
    {targets : List VertexId} (jumps : List VertexId) (shaped : b.graph.Shaped { op, args, owned := true })
    (branch : op = .jump ∨ op = .jumpIf ∨ op = .ret) (count : targets.length = op.numSuccs)
    (returns : op = .ret → targets.head? = some b.graph.exit)
    (target : ∀ t ∈ targets, t ∈ jumps ∧ b.graph.op t = .label ∨ t = b.graph.exit) :
    Standing (b.leave op args targets) bound (jumps ++ jumped) ∧ (b.leave op args targets).point = none := by
  rw [Builder.leave]
  split
  · have gains : b.graph.Gains (b.graph.addVertex op none args) { op, args, owned := true } := gains_addVertex
    have emitted : Emitted (b.append op none args).2 bound jumped :=
      standing.append gains shaped rfl (by rcases branch with rfl | rfl | rfl <;> simp)
        (by rcases branch with rfl | rfl | rfl <;> simp)
    have newOp : (b.append op none args).2.graph.op b.graph.nextVertex = op := by
      rw [Builder.append, op_emit, Graph.op, Graph.nextVertex, gains.new]
    have exit : (b.append op none args).2.graph.exit = b.graph.exit := rewired_emit.exit
    have closed : Standing ⟨(b.append op none args).2.graph.addEdges b.graph.nextVertex targets, none, b.names⟩ bound
        (jumps ++ jumped) := by
      refine emitted.close rfl ?_ ?_ ?_ fun t member => ?_
      · rw [newOp]
        rcases branch with rfl | rfl | rfl <;> rfl
      · rw [newOp, count]
      · rw [newOp, exit]
        exact returns
      · rw [exit]
        refine (target t member).imp_left fun jumpedTo => ⟨jumpedTo.1, ?_⟩
        have isLabel := jumpedTo.2
        have inside : t < b.graph.store.size := lt_of_op (by rw [isLabel]; rfl)
        rw [Builder.append, op_emit, gains.op_old inside, isLabel]
    exact ⟨closed, rfl⟩
  · rename_i unreachable
    exact ⟨standing.weaken jumps, by simpa [Builder.reachable] using unreachable⟩

/-- A label is put down, to be placed later. -/
theorem Standing.label (standing : Standing b bound jumped) : Standing b.label.2 bound jumped := by
  have gains : b.graph.Gains (b.graph.addVertex .label none []) { op := .label, owned := true } := gains_addVertex
  have shaped : b.graph.Shaped { op := .label, owned := true } :=
    ⟨rfl, by simp, rfl, rfl, by simp, by simp [Op.info], by simp, by simp, by simp, by simp [Vertex.references]⟩
  have fresh : b.graph.store.size ∉ bound := fun member => Nat.lt_irrefl _ (standing.known _ member)
  have newOp : (b.graph.addVertex .label none []).op b.graph.store.size = .label := by rw [Graph.op, gains.new]
  have unplaced_iff (u : VertexId) : (b.graph.addVertex .label none []).Unplaced bound u ↔
      u = b.graph.store.size ∨ b.graph.Unplaced bound u := by
    constructor
    · intro unplaced
      refine (gains.cases_lt (lt_of_op (by rw [unplaced.1]; rfl))).imp_right fun inside => ?_
      exact ⟨(gains.op_old inside).symm.trans unplaced.1, unplaced.2⟩
    · rintro (rfl | unplaced)
      · exact ⟨newOp, fresh⟩
      · have inside : u < b.graph.store.size := lt_of_op (by rw [unplaced.1]; rfl)
        exact ⟨(gains.op_old inside).trans unplaced.1, unplaced.2⟩
  have below {last : VertexId} (atPoint : b.point = some last) : last < b.graph.store.size :=
    (standing.laid.waits (.inl atPoint)).1
  refine ⟨⟨?_, fun {u} atPoint unplaced => ?_, fun l member => ?_, fun {u} unplaced away => ?_⟩, fun {u} atPoint => ?_⟩
  · refine (gains.laid standing.laid shaped rfl (by simp)).congr fun u => ?_
    exact (or_congr_right (unplaced_iff u)).trans or_left_comm
  · rcases (unplaced_iff u).mp unplaced with rfl | unplaced
    · exact Nat.lt_irrefl _ (below atPoint)
    · exact standing.placed atPoint unplaced
  · exact gains.size ▸ Nat.lt_succ_of_lt (standing.known l member)
  · rcases (unplaced_iff u).mp unplaced with rfl | unplaced
    · exact congrArg Vertex.preds gains.new
    · have inside : u < b.graph.store.size := lt_of_op (by rw [unplaced.1]; rfl)
      exact (gains.preds_old inside).trans (standing.idle unplaced away)
  · exact (gains.op_old (below atPoint)).symm ▸ standing.goesOn atPoint

/-- A label is placed. -/
theorem Standing.bind (standing : Standing b bound jumped) {l : VertexId} (isLabel : b.graph.op l = .label)
    (fresh : l ∉ bound) : Standing (b.bind l) (l :: bound) jumped := by
  have unplaced_iff (u : VertexId) : b.graph.Unplaced bound u ↔ u = l ∨ b.graph.Unplaced (l :: bound) u := by
    rw [Graph.Unplaced, Graph.Unplaced, List.mem_cons]
    by_cases isL : u = l
    · simp [isL, isLabel, fresh]
    · simp [isL]
  have notPoint {last : VertexId} (atPoint : b.point = some last) : last ≠ l ∧ ¬ b.graph.Unplaced (l :: bound) last := by
    have placed := standing.placed atPoint
    rw [unplaced_iff] at placed
    exact not_or.mp placed
  have emitted := laid_emit (b.graph.Unplaced (l :: bound))
    (standing.laid.congr fun u => or_congr_right (unplaced_iff u).symm)
    (fun isEntry => by
      have isFunction := standing.laid.entryOp
      simp [← isEntry, isLabel] at isFunction)
    standing.goesOn notPoint fun _ => .inl isLabel
  have after (u : VertexId) : (b.emit l).graph.Unplaced (l :: bound) u ↔ b.graph.Unplaced (l :: bound) u := by
    rw [Graph.Unplaced, op_emit, Graph.Unplaced]
  refine ⟨⟨emitted.congr fun u => ?_, fun {u} atPoint unplaced => ?_, fun k member => ?_, fun {u} unplaced away => ?_⟩,
    fun {u} atPoint => ?_⟩
  · exact or_congr ⟨fun isL => (Option.some.inj isL).symm, fun isL => isL ▸ rfl⟩ (after u)
  · obtain rfl : l = u := Option.some.inj atPoint
    exact unplaced.2 List.mem_cons_self
  · rw [Builder.bind, rewired_emit.size]
    rcases List.mem_cons.mp member with rfl | member
    · exact lt_of_op (by rw [isLabel]; rfl)
    · exact standing.known k member
  · have unplaced := (after u).mp unplaced
    have other : u ≠ l := fun isL => unplaced.2 (isL ▸ List.mem_cons_self)
    rw [Builder.bind, preds_emit other]
    exact standing.idle ((unplaced_iff u).mpr (.inr unplaced)) away
  · obtain rfl : l = u := Option.some.inj atPoint
    rw [Builder.bind, op_emit, isLabel]
    exact ⟨rfl, by simp⟩

theorem shaped_of_knows {g : Graph} {op : Op} {binOp : BinOp} {callee : String} {result : Option VarId} (xs : List VarId)
    (valid : op.isValid = true) (ordinary : op ≠ .phi) (hasResult : result.isSome = op.info.hasResult)
    (writable : ∀ x ∈ result, g.Writable x) (argCount : ∀ n, op.info.numArgs = some n → xs.length = n)
    (returnCount : op = .ret → xs.length ≤ 1) (operator : op = .binary → binOp.isValid = true)
    (knows : ∀ x ∈ xs, g.Knows x) :
    g.Shaped { op, binOp, callee, result, args := xs.map some, owned := true } where
  valid := valid
  ordinary := ordinary
  owned := rfl
  result := hasResult
  writesVariable x isX := (writable x isX).2
  argCount n fixed := by simpa using argCount n fixed
  returnCount isRet := by simpa using returnCount isRet
  operands := by simp
  operator := operator
  inScope x mentions := by
    rcases Vertex.references_iff.mp mentions with isResult | isArg
    · exact (writable x isResult).1
    · obtain ⟨y, member, rfl⟩ : ∃ y ∈ xs, y = x := by simpa using isArg
      exact knows y member

theorem Standing.assign (standing : Standing b bound jumped) {dst src : VarId} (writable : b.graph.Writable dst)
    (knows : b.graph.Knows src) : Standing (b.assign (some dst) (some src)).2 bound jumped :=
  standing.appendOn gains_addVertex (shaped_of_knows [src] rfl (by simp) rfl (by simpa using writable)
    (by simp [Op.info]) (by simp) (by simp) (by simpa using knows)) rfl (by simp) (by simp) ⟨rfl, by simp⟩

theorem Standing.binaryInto (standing : Standing b bound jumped) {dst x y : VarId} {op : BinOp}
    (writable : b.graph.Writable dst) (valid : op.isValid = true) (knowsX : b.graph.Knows x) (knowsY : b.graph.Knows y) :
    Standing (b.binaryInto (some dst) op (some x) (some y)).2 bound jumped :=
  standing.appendOn (gains_addVertex.modify (f := fun w => { w with binOp := op }) (fun _ => rfl) fun _ => rfl)
    (shaped_of_knows [x, y] rfl (by simp) rfl (by simpa using writable) (by simp [Op.info]) (by simp)
      (fun _ => valid) (by simpa using ⟨knowsX, knowsY⟩)) rfl (by simp) (by simp) ⟨rfl, by simp⟩

theorem Standing.echo (standing : Standing b bound jumped) {args : List VarId} (knows : ∀ x ∈ args, b.graph.Knows x) :
    Standing (b.echo (args.map some)).2 bound jumped :=
  standing.appendOn gains_addVertex (shaped_of_knows args rfl (by simp) rfl (by simp) (by simp [Op.info]) (by simp)
    (by simp) knows) rfl (by simp) (by simp) ⟨rfl, by simp⟩

/-- A temporary may be written. -/
theorem writable_temp : b.temp.2.graph.Writable b.graph.nextVar := by
  refine ⟨by simp [temp, Graph.Knows, nextVar], ?_⟩
  rw [temp, Variable.isConst, value_addVar, nextVar, Graph.var, Array.getD_eq_getD_getElem?,
    Array.getElem?_eq_none (Nat.le_refl _)]
  rfl

theorem knows_temp {x : VarId} (knows : b.graph.Knows x) : b.temp.2.graph.Knows x :=
  Nat.lt_of_lt_of_le knows (by simp [temp])

theorem Standing.temp (standing : Standing b bound jumped) : Standing b.temp.2 bound jumped :=
  standing.addVar

theorem Standing.unary (standing : Standing b bound jumped) {x : VarId} {op : Op} (valid : op = .boolNot ∨ op = .bitNot)
    (knows : b.graph.Knows x) : Standing (b.unary op (some x)).2 bound jumped := by
  refine standing.temp.appendOn gains_addVertex (shaped_of_knows [x] ?_ ?_ ?_ (by simpa using writable_temp) ?_ ?_
    ?_ (by simpa using knows_temp knows)) rfl ?_ ?_ ?_
  all_goals rcases valid with rfl | rfl <;> simp [Op.info, Op.isValid, Op.GoesOn, Op.numSuccs]

theorem Standing.call (standing : Standing b bound jumped) {callee : String} {args : List VarId}
    (knows : ∀ x ∈ args, b.graph.Knows x) : Standing (b.call callee (args.map some)).2 bound jumped :=
  standing.temp.appendOn (gains_addVertex.modify (f := fun w => { w with callee }) (fun _ => rfl) fun _ => rfl)
    (shaped_of_knows args rfl (by simp) rfl (by simpa using writable_temp) (by simp [Op.info]) (by simp) (by simp)
      fun x member => knows_temp (knows x member)) rfl (by simp) (by simp) ⟨rfl, by simp⟩

theorem Standing.ret (standing : Standing b bound jumped) {x : Option VarId} (knows : ∀ y ∈ x, b.graph.Knows y) :
    Standing (b.ret x) bound jumped ∧ (b.ret x).point = none := by
  have args : (if x.isSome then [x] else []) = x.toList.map some := by cases x <;> rfl
  rw [Builder.ret, args]
  refine standing.leave [] (shaped_of_knows x.toList rfl (by simp) rfl (by simp) (by simp [Op.info]) ?_ (by simp) ?_)
    (by simp) rfl (fun _ => rfl) (by simp)
  · cases x <;> simp
  · simpa using knows

/-- After an allowed statement the builder stands ready for the next. -/
theorem Standing.run (standing : Standing b bound jumped) {st : Statement} (allowed : st.Allowed b.graph bound) :
    Standing (st.run b) (st.binds ++ bound) (st.jumps ++ jumped) := by
  cases st with
  | var name => exact standing.var name
  | typedVar name type => exact standing.typedVar name type
  | temp => exact standing.temp
  | const value => exact standing.const value
  | assign dst src => exact standing.assign allowed.1 allowed.2
  | binaryInto dst op x y =>
    obtain ⟨writable, valid, knowsX, knowsY⟩ := allowed
    exact standing.binaryInto writable valid knowsX knowsY
  | binary op x y =>
    obtain ⟨valid, knowsX, knowsY⟩ := allowed
    exact standing.temp.binaryInto writable_temp valid (knows_temp knowsX) (knows_temp knowsY)
  | unary op x => exact standing.unary allowed.1 allowed.2
  | call callee args => exact standing.call allowed
  | echo args => exact standing.echo allowed
  | label => exact standing.label
  | bind l => exact standing.bind allowed.1 allowed.2
  | jump target =>
    exact (standing.leave [target] (shaped_of_knows [] rfl (by simp) rfl (by simp) (by simp [Op.info]) (by simp) (by simp)
      (by simp)) (by simp) rfl (by simp) (by simpa using .inl allowed)).1
  | jumpIf cond thenTo elseTo =>
    obtain ⟨knows, thenLabel, elseLabel⟩ := allowed
    refine (standing.leave [thenTo, elseTo] (shaped_of_knows [cond] rfl (by simp) rfl (by simp) (by simp [Op.info]) (by simp) (by simp)
      (by simpa using knows)) (by simp) rfl (by simp) ?_).1
    simp [thenLabel, elseLabel]
  | ret x => exact (standing.ret allowed).1

/-! ### The start and the end -/

theorem Standing.addParam (standing : Standing b bound jumped) {name : String} {type : Option Ty}
    {names : List (String × VarId)} : Standing ⟨b.graph.addParam name type, b.point, names⟩ bound jumped := by
  have op (v : VertexId) : (b.graph.addParam name type).op v = b.graph.op v :=
    congr_addParam Vertex.op (fun _ _ => rfl) v
  have preds (v : VertexId) : (b.graph.addParam name type).preds v = b.graph.preds v :=
    congr_addParam Vertex.preds (fun _ _ => rfl) v
  have unplaced_iff (v : VertexId) : (b.graph.addParam name type).Unplaced bound v ↔ b.graph.Unplaced bound v := by
    rw [Graph.Unplaced, op, Graph.Unplaced]
  refine ⟨⟨standing.laid.addParam.congr fun v => or_congr_right (unplaced_iff v), fun {v} atPoint unplaced => ?_,
    fun l member => ?_, fun {v} unplaced away => ?_⟩, fun {v} atPoint => ?_⟩
  · exact standing.placed atPoint ((unplaced_iff v).mp unplaced)
  · rw [Graph.addParam, size_modifyVertex]
    exact standing.known l member
  · rw [preds]
    exact standing.idle ((unplaced_iff v).mp unplaced) away
  · rw [op]
    exact standing.goesOn atPoint

theorem standing_start {name : String} {sig : Signature} {params : List String} (begun : start name sig params = .ok b) :
    Standing b [] [] := by
  rw [start] at begun
  split at begun
  · simp at begun
  · obtain rfl := Except.ok.inj begun
    have blank : Standing ⟨Graph.empty name sig, some 0, []⟩ [] [] := by
      have noLabel (v : VertexId) : ¬ (Graph.empty name sig).Unplaced [] v := by
        rintro ⟨isLabel, _⟩
        have inside : v < 2 := lt_of_op (g := Graph.empty name sig) (by rw [isLabel]; rfl)
        rcases Nat.le_one_iff_eq_zero_or_eq_one.mp (Nat.le_of_lt_succ inside) with rfl | rfl
        all_goals simp [Graph.op, Graph.empty, Graph.addVertex, Graph.vertex] at isLabel
      refine ⟨⟨laid_empty.congr fun v => ?_, fun _ => noLabel _, by simp, fun unplaced => absurd unplaced (noLabel _)⟩,
        fun {v} atPoint => ?_⟩
      · exact ⟨fun either => either.elim (fun isEntry => (Option.some.inj isEntry).symm) fun unplaced =>
          absurd unplaced (noLabel v), fun isEntry => .inl (isEntry ▸ rfl)⟩
      · obtain rfl : 0 = v := Option.some.inj atPoint
        exact ⟨rfl, by simp [Graph.op, Graph.empty, Graph.addVertex, Graph.vertex]⟩
    -- parameters are added in order, and the point stays at the entry
    refine List.foldlRecOn (motive := fun b => Standing b [] []) _ _ blank fun b standing p _ => ?_
    obtain ⟨name, type⟩ := p
    exact standing.addParam

end Builder

namespace Graph

variable {g : Graph} {v : VertexId}

/-- `h` is `g` without the vertices in `gone`, which had no edges. -/
structure Cleared (g h : Graph) (gone : List VertexId) : Prop where
  wired : h.Wired
  size : h.store.size = g.store.size
  entry : h.entry = g.entry
  exit : h.exit = g.exit
  vars : h.vars = g.vars
  reach : h.reach = g.reach
  nodup : h.listed.Nodup
  listed : ∀ v, v ∈ h.listed ↔ v ∈ g.listed ∧ v ∉ gone
  vertex : ∀ {v}, v ∉ gone → h.vertex v = g.vertex v
  succs : ∀ v, h.succs v = g.succs v
  preds : ∀ v, h.preds v = g.preds v
  gone : ∀ v ∈ gone, h.contains v = false

theorem cleared_foldl_drop {gone : List VertexId} (wired : g.Wired) (nodup : g.listed.Nodup) (distinct : gone.Nodup)
    (apart : ∀ v ∈ gone, v ∈ g.listed ∧ v ≠ g.entry ∧ g.succs v = [] ∧ g.preds v = []) :
    g.Cleared (gone.foldl drop g) gone := by
  induction gone generalizing g with
  | nil => exact ⟨wired, rfl, rfl, rfl, rfl, rfl, nodup, by simp, fun _ => rfl, fun _ => rfl, fun _ => rfl, by simp⟩
  | cons v gone ih =>
    obtain ⟨fresh, distinct⟩ := List.nodup_cons.mp distinct
    obtain ⟨member, notEntry, noSuccs, noPreds⟩ := apart v List.mem_cons_self
    have listed (w : VertexId) : w ∈ (g.drop v).listed ↔ w ∈ g.listed ∧ w ≠ v := by
      rw [without_drop.listed, nodup.mem_erase_iff, and_comm]
    have rest := ih (wired.drop member notEntry noSuccs noPreds) (nodup.erase v) distinct fun w isGone => by
      obtain ⟨member, notEntry, noSuccs, noPreds⟩ := apart w (List.mem_cons_of_mem _ isGone)
      exact ⟨(listed w).mpr ⟨member, fun same => fresh (same ▸ isGone)⟩, notEntry, succs_drop.trans noSuccs,
        preds_drop.trans noPreds⟩
    refine ⟨rest.wired, rest.size.trans without_drop.size, rest.entry, rest.exit, rest.vars, rest.reach, rest.nodup, fun w => ?_,
      fun {w} kept => ?_, fun w => (rest.succs w).trans succs_drop, fun w => (rest.preds w).trans preds_drop,
      fun w isGone => ?_⟩
    · rw [List.foldl_cons, rest.listed, listed, List.mem_cons, not_or, and_assoc]
    · obtain ⟨other, kept⟩ : w ≠ v ∧ w ∉ gone := by simpa using kept
      exact (rest.vertex kept).trans (vertex_drop other)
    · rcases List.mem_cons.mp isGone with rfl | isGone
      · rw [List.foldl_cons, contains, rest.vertex fresh]
        exact without_drop.gone
      · exact rest.gone w isGone

/-- When nothing waits but what is cleared away, the graph is complete. -/
theorem Cleared.complete {h : Graph} {gone : List VertexId} (cleared : g.Cleared h gone) (laid : g.Laid (· ∈ gone))
    (inner : ∀ v ∈ gone, v ≠ g.entry ∧ v ≠ g.exit) : h.Complete := by
  have kept {v : VertexId} (member : v ∈ h.listed) : v < g.store.size ∧ v ∉ gone :=
    ((cleared.listed v).mp member).imp_left laid.mem_listed.mp
  have op {v : VertexId} (notGone : v ∉ gone) : h.op v = g.op v := by rw [Graph.op, cleared.vertex notGone, Graph.op]
  have var (x : VarId) : h.var x = g.var x := by rw [Graph.var, cleared.vars, Graph.var]
  have entryKept : g.entry ∉ gone := fun isGone => (inner _ isGone).1 rfl
  have exitKept : g.exit ∉ gone := fun isGone => (inner _ isGone).2 rfl
  have sound : h.Sound := by
    refine ⟨?_, ?_, ?_, ?_, fun v member => ?_, cleared.wired⟩
    · rw [cleared.entry, op entryKept, laid.entryOp]
    · rw [cleared.exit, op exitKept, laid.exitOp]
    · rw [cleared.entry, cleared.preds, laid.entryPreds]
    · rw [cleared.listed, cleared.exit]
      exact ⟨laid.mem_listed.mpr laid.lt_exit, exitKept⟩
    · obtain ⟨inside, notGone⟩ := kept member
      obtain ⟨count, returns⟩ := laid.closed inside notGone
      have shaped := laid.shaped inside
      refine ⟨?_, ?_, ?_, ?_, ?_, ?_, ?_, ?_, ?_, ?_, ?_, ?_⟩
      · rw [op notGone]; exact shaped.valid
      · rw [contains, cleared.vertex notGone]; exact shaped.owned
      · rw [cleared.succs, op notGone, count]
      · rw [cleared.succs, op notGone, cleared.exit]; exact returns
      · rw [op notGone, cleared.entry]; exact laid.onlyEntry
      · rw [op notGone, cleared.exit]; exact laid.onlyExit
      · rw [cleared.vertex notGone, op notGone]; exact shaped.result
      · simp only [cleared.vertex notGone, var]; exact shaped.writesVariable
      · rw [cleared.vertex notGone, op notGone]; exact shaped.argCount
      · rw [cleared.vertex notGone, op notGone]; exact shaped.returnCount
      · rw [cleared.vertex notGone]; exact shaped.operands
      · rw [cleared.vertex notGone, op notGone]; exact shaped.operator
  refine ⟨sound, fun v member x mentions => ?_, cleared.nodup, ?_, fun v member => ?_, fun {v} contained => ?_,
    cleared.reach.trans laid.fresh, fun {v} reached => ?_⟩
  · obtain ⟨inside, notGone⟩ := kept member
    rw [cleared.vars]
    exact (laid.shaped inside).inScope x (cleared.vertex notGone ▸ mentions)
  · rw [Graph.params, cleared.entry, cleared.vertex entryKept]
    exact laid.params
  · obtain ⟨inside, notGone⟩ := kept member
    rw [op notGone]
    exact (laid.shaped inside).ordinary
  · have notGone : v ∉ gone := fun isGone => by simp [cleared.gone v isGone] at contained
    rw [contains, cleared.vertex notGone] at contained
    refine (cleared.listed v).mpr ⟨laid.mem_listed.mpr ?_, notGone⟩
    rw [← Nat.not_le]
    intro outside
    rw [vertex_of_ge outside] at contained
    exact absurd contained (by decide)
  · refine exists_leads (fun {u t} edge idempotent => ?_) (fun member => (sound.vertices _ member).succCount) cleared.wired
      (cleared.wired.listed_of_reachable reached)
    -- an edge leads from what is kept to what is kept
    have source : u ∉ gone := fun isGone => by simp [cleared.succs, (laid.waits isGone).2] at edge
    have inside : u < g.store.size := cleared.size ▸ lt_of_mem_succs edge
    have target := cleared.wired.succs_listed u ((cleared.listed u).mpr ⟨laid.mem_listed.mpr inside, source⟩) t edge
    rw [cleared.succs] at edge
    rw [op source] at idempotent
    rw [op (kept target).2]
    exact laid.ahead edge idempotent

end Graph

namespace Builder

open MiddleEnd.Graph

variable {b : Builder} {bound jumped : List VertexId}

/-- At the end all that waits are the labels that are not placed, and nothing leads there. -/
theorem Standing.complete_finish (standing : Standing b bound jumped) (placed : ∀ l ∈ jumped, l ∈ bound) :
    b.finish.graph.Complete := by
  obtain ⟨closing, unreachable⟩ := standing.ret (x := none) (by simp)
  rw [finish]
  dsimp only
  set g := (b.ret none).graph with isG
  have laid : g.Laid fun v => g.Unplaced bound v := closing.laid.congr fun v =>
    ⟨.inr, fun either => either.elim (fun atPoint => by simp [unreachable] at atPoint) id⟩
  set gone := g.listed.filter fun v =>
    (g.vertex v).op = .label && (g.vertex v).preds.isEmpty && (g.vertex v).succs.isEmpty with isGone
  have mem_gone (v : VertexId) : v ∈ gone ↔ g.Unplaced bound v := by
    have parts : v ∈ gone ↔ v < g.store.size ∧ g.op v = .label ∧ g.preds v = [] ∧ g.succs v = [] := by
      simp [isGone, laid.mem_listed, Graph.op, Graph.preds, Graph.succs, and_assoc]
    rw [parts]
    constructor
    · rintro ⟨inside, isLabel, _, noSuccs⟩
      refine ⟨isLabel, fun isBound => ?_⟩
      -- a label that is placed has a successor
      have count := (laid.closed inside fun unplaced => unplaced.2 isBound).1
      simp [noSuccs, isLabel, Op.numSuccs] at count
    · intro unplaced
      obtain ⟨inside, noSuccs⟩ := laid.waits unplaced
      exact ⟨inside, unplaced.1, closing.idle unplaced fun member => unplaced.2 (placed _ member), noSuccs⟩
  have inner (v : VertexId) (member : v ∈ gone) : v ≠ g.entry ∧ v ≠ g.exit := by
    have isLabel := ((mem_gone v).mp member).1
    refine ⟨?_, ?_⟩
    · rintro rfl
      simp [laid.entryOp] at isLabel
    · rintro rfl
      simp [laid.exitOp] at isLabel
  have nodup : g.listed.Nodup := laid.listed ▸ List.nodup_range
  have cleared : g.Cleared (gone.foldl drop g) gone := by
    refine cleared_foldl_drop laid.wired nodup (nodup.filter _) fun v member => ?_
    have unplaced := (mem_gone v).mp member
    exact ⟨List.mem_of_mem_filter member, (inner v member).1, (laid.waits unplaced).2,
      closing.idle unplaced fun isJumped => unplaced.2 (placed _ isJumped)⟩
  exact cleared.complete (laid.congr mem_gone) inner

/-- Statements that may follow one another make a complete graph. -/
theorem Standing.complete_of_accepts {statements : List Statement} (standing : Standing b bound jumped)
    (accepts : b.Accepts bound jumped statements) : (statements.foldl (fun b st => st.run b) b).finish.graph.Complete := by
  induction statements generalizing b bound jumped with
  | nil => exact standing.complete_finish accepts
  | cons st rest ih => exact ih (standing.run accepts.1) accepts.2

end Builder

/-- A function as it is given to the builder. -/
structure Source where
  name : String
  sig : Signature
  params : List String
  statements : List Statement

namespace Source

/-- The graph that a function is built into; none if the parameters do not match the signature. -/
def graph? (s : Source) : Option Graph :=
  (Builder.start s.name s.sig s.params).toOption.map fun b => (s.statements.foldl (fun b st => st.run b) b).finish.graph

/-- Every statement is allowed where it stands, and every label jumped to is placed. -/
def WellFormed (s : Source) : Prop :=
  ∀ b ∈ (Builder.start s.name s.sig s.params).toOption, b.Accepts [] [] s.statements

instance (s : Source) : Decidable s.WellFormed :=
  inferInstanceAs (Decidable (∀ b ∈ (Builder.start s.name s.sig s.params).toOption, b.Accepts [] [] s.statements))

theorem complete_graph {s : Source} {g : Graph} (wellFormed : s.WellFormed) (built : s.graph? = some g) : g.Complete := by
  obtain ⟨b, begun, rfl⟩ := Option.map_eq_some_iff.mp built
  have started : Builder.start s.name s.sig s.params = .ok b := by
    cases outcome : Builder.start s.name s.sig s.params with
    | error why => simp [outcome, Except.toOption] at begun
    | ok c => rw [outcome] at begun; exact congrArg Except.ok (Option.some.inj begun)
  exact (Builder.standing_start started).complete_of_accepts (wellFormed b begun)

end Source

end MiddleEnd
