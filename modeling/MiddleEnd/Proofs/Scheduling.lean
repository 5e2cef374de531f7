import Mathlib.Data.List.Perm.Basic
import MiddleEnd.Compiler
import MiddleEnd.Proofs.Counting
import MiddleEnd.Samples

/-!
Compiling functions at once. A group hands its tasks out in order while fewer than a limit of them are on their way. Each
task asks once whether the work was canceled and, if not, is done with its function some time later (`Group.Step`).
Whatever schedule that comes to, and whenever the work is canceled, a function has the result that it has alone or none,
and the results, the failure and the counters agree with each other (`Compiler.compileAlong_schedule_independent`).
-/
namespace MiddleEnd

/-- How many tasks may be on their way at once. -/
def taskLimit (parallelism : Int) : Nat :=
  if 0 < parallelism then parallelism.toNat else 1

/-- A group of tasks, as far as it has come. -/
structure Group where
  /-- How many tasks were handed out. -/
  handedOut : Nat := 0
  /-- The tasks handed out that have not asked yet. -/
  waiting : List Nat := []
  /-- The tasks at work. -/
  working : List Nat := []
  canceled : Bool := false

namespace Group

variable {limit count : Nat} {s s' : Group} {schedule past : List ScheduleStep}

/-- What a group of so many tasks can do next, and what a schedule shows of it. -/
inductive Step (limit count : Nat) (s : Group) : Option ScheduleStep → Group → Prop
  | handOut (more : s.handedOut < count) (room : s.waiting.length + s.working.length < limit) :
    Step limit count s none { s with handedOut := s.handedOut + 1, waiting := s.handedOut :: s.waiting }
  | goOn {task : Nat} (waits : task ∈ s.waiting) (proceeds : s.canceled = false) :
    Step limit count s (some (.start task)) { s with waiting := s.waiting.erase task, working := task :: s.working }
  | giveUp {task : Nat} (waits : task ∈ s.waiting) (stopped : s.canceled = true) :
    Step limit count s (some (.start task)) { s with waiting := s.waiting.erase task }
  | complete {task : Nat} (works : task ∈ s.working) :
    Step limit count s (some (.finish task)) { s with working := s.working.erase task }
  | cancel : Step limit count s (some .cancel) { s with canceled := true }

/-- The group comes to `s` along a schedule. -/
inductive Run (limit count : Nat) : List ScheduleStep → Group → Prop
  | start : Run limit count [] {}
  | step {past : List ScheduleStep} {s s' : Group} {event : Option ScheduleStep} (before : Run limit count past s)
    (next : Step limit count s event s') : Run limit count (past ++ event.toList) s'

/-- A schedule that a group can follow to its end, when every task was handed out and none is left. -/
def Completes (limit count : Nat) (schedule : List ScheduleStep) : Prop :=
  ∃ s, Run limit count schedule s ∧ s.handedOut = count ∧ s.waiting = [] ∧ s.working = []

/-- The work is canceled at a step of the schedule. -/
theorem Run.cancel_mem (run : Run limit count schedule s) (canceled : s.canceled = true) : .cancel ∈ schedule := by
  induction run with
  | start => simp at canceled
  | step _ next ih =>
    cases next with
    | cancel => simp
    | handOut | goOn | giveUp | complete => exact List.mem_append_left _ (ih canceled)

/-- One task after the other is a way to go, whatever the limit. -/
theorem completes_inOrder (some : 0 < limit) : Completes limit count (ScheduleStep.inOrder count) := by
  have upTo (n : Nat) (enough : n ≤ count) : Run limit count (ScheduleStep.inOrder n) { handedOut := n } := by
    induction n with
    | zero => exact .start
    | succ n ih =>
      have out := (ih (by omega)).step (.handOut enough (by simpa using some))
      have works := out.step (.goOn (show n ∈ [n] by simp) rfl)
      have done := works.step (.complete (show n ∈ [n] by simp))
      simpa [ScheduleStep.inOrder, List.range_succ, List.flatMap_append] using done
  exact ⟨_, upTo count (Nat.le_refl _), rfl, rfl, rfl⟩

end Group

/-! ### What the work on the functions keeps true -/

/-- The work `b` on the functions at `places`, which were `graphs` at first, is as far as the group `s`: each task handed
out waits, works, is done, or went away. -/
structure Batch.Follows (c : Compiler) (graphs : List Graph) (places : List Nat) (s : Group) (b : Batch) : Prop where
  canceled : b.canceled = s.canceled
  running : b.running = s.working
  handedOut : s.handedOut ≤ places.length
  tasks : ∃ away, (s.waiting ++ s.working ++ b.done.map Prod.fst ++ away).Perm (List.range s.handedOut) ∧
    (b.refused = true ↔ away ≠ []) ∧ (away ≠ [] → s.canceled = true)
  compiled : ∀ task f, (task, f) ∈ b.done → ∃ place g, places[task]? = some place ∧ graphs[place]? = some g ∧
    f = c.compile g ∧ b.graphs[place]? = some f.graph
  untouched : ∀ place, (∀ task ∈ b.done.map Prod.fst, places[task]? ≠ some place) → b.graphs[place]? = graphs[place]?
  metrics : b.metrics = (b.done.map fun entry => entry.2.observation).foldl Metrics.observe {}

namespace Batch.Follows

variable {c : Compiler} {graphs : List Graph} {places : List Nat} {s : Group} {b : Batch} {limit task : Nat}

theorem start : Follows c graphs places {} { graphs } where
  canceled := rfl
  running := rfl
  handedOut := Nat.zero_le _
  tasks := ⟨[], by simp, by simp, by simp⟩
  compiled := by simp
  untouched _ _ := rfl
  metrics := rfl

theorem handOut (follows : Follows c graphs places s b) (more : s.handedOut < places.length) :
    Follows c graphs places { s with handedOut := s.handedOut + 1, waiting := s.handedOut :: s.waiting } b := by
  obtain ⟨away, perm, refused, canceled⟩ := follows.tasks
  refine { follows with handedOut := more, tasks := ⟨away, ?_, refused, canceled⟩ }
  rw [List.range_succ]
  exact (perm.cons s.handedOut).trans (List.perm_append_singleton s.handedOut _).symm

theorem goOn (follows : Follows c graphs places s b) (waits : task ∈ s.waiting) (proceeds : s.canceled = false) :
    Follows c graphs places { s with waiting := s.waiting.erase task, working := task :: s.working }
      (b.step c places (.start task)) := by
  obtain ⟨away, perm, refused, canceled⟩ := follows.tasks
  rw [step, if_neg (by simp [follows.canceled, proceeds])]
  refine { follows with running := by rw [follows.running], tasks := ⟨away, ?_, refused, canceled⟩ }
  refine List.Perm.trans (List.perm_iff_count.mpr fun x => ?_) perm
  have moved := (List.perm_cons_erase waits).count_eq x
  simp only [List.count_append, List.count_cons] at moved ⊢
  omega

theorem giveUp (follows : Follows c graphs places s b) (waits : task ∈ s.waiting) (stopped : s.canceled = true) :
    Follows c graphs places { s with waiting := s.waiting.erase task } (b.step c places (.start task)) := by
  obtain ⟨away, perm, refused, canceled⟩ := follows.tasks
  rw [step, if_pos (by simp [follows.canceled, stopped])]
  refine { follows with tasks := ⟨task :: away, ?_, by simp, fun _ => stopped⟩ }
  refine List.Perm.trans (List.perm_iff_count.mpr fun x => ?_) perm
  have moved := (List.perm_cons_erase waits).count_eq x
  simp only [List.count_append, List.count_cons] at moved ⊢
  omega

theorem cancel (follows : Follows c graphs places s b) :
    Follows c graphs places { s with canceled := true } (b.step c places .cancel) := by
  obtain ⟨away, perm, refused, _⟩ := follows.tasks
  exact { follows with canceled := rfl, tasks := ⟨away, perm, refused, fun _ => rfl⟩ }

/-- A task at work was handed out, and is not done. -/
theorem lt_and_notDone (follows : Follows c graphs places s b) (works : task ∈ s.working) :
    task < places.length ∧ task ∉ b.done.map Prod.fst := by
  obtain ⟨away, perm, _⟩ := follows.tasks
  have member : task ∈ s.waiting ++ s.working ++ b.done.map Prod.fst ++ away := by simp [works]
  have apart := (List.nodup_append.mp (List.nodup_append.mp (perm.nodup_iff.mpr List.nodup_range)).1).2.2
  exact ⟨Nat.lt_of_lt_of_le (List.mem_range.mp (perm.mem_iff.mp member)) follows.handedOut,
    fun done => apart task (List.mem_append_right _ works) task done rfl⟩

section
variable (inside : ∀ place ∈ places, place < graphs.length) (distinct : places.Nodup)
include inside distinct

/-- A task at work finds its function as it was at first: no other task has the same place. -/
theorem target?_of_working (follows : Follows c graphs places s b) (works : task ∈ s.working) :
    ∃ place g, places[task]? = some place ∧ graphs[place]? = some g ∧ b.target? places task = some (place, g) ∧
      place < b.graphs.length := by
  obtain ⟨below, notDone⟩ := follows.lt_and_notDone works
  have place := List.getElem?_eq_getElem below
  have graph := List.getElem?_eq_getElem (inside _ (List.getElem_mem below))
  have kept : b.graphs[places[task]]? = graphs[places[task]]? := by
    refine follows.untouched _ fun other done same => notDone ?_
    rwa [(List.getElem?_inj below distinct).mp (place.trans same.symm)]
  refine ⟨_, _, place, graph, ?_, ?_⟩
  · simp [target?, place, kept, graph]
  · rw [graph] at kept
    exact (List.getElem?_eq_some_iff.mp kept).1

theorem complete (follows : Follows c graphs places s b) (works : task ∈ s.working) :
    Follows c graphs places { s with working := s.working.erase task } (b.step c places (.finish task)) := by
  obtain ⟨place, g, atPlace, graph, target, below⟩ := follows.target?_of_working inside distinct works
  have taken : b.step c places (.finish task) = b.complete c task place g := by
    simp [step, follows.running, works, target]
  obtain ⟨away, perm, refused, canceled⟩ := follows.tasks
  obtain ⟨inRange, notDone⟩ := follows.lt_and_notDone works
  rw [taken]
  refine {
    canceled := follows.canceled
    running := by simp only [Batch.complete, follows.running]
    handedOut := follows.handedOut
    tasks := ⟨away, ?_, refused, canceled⟩
    compiled := ?_
    untouched := ?_
    metrics := by simp [Batch.complete, follows.metrics] }
  · refine List.Perm.trans (List.perm_iff_count.mpr fun x => ?_) perm
    have moved := (List.perm_cons_erase works).count_eq x
    simp only [Batch.complete, List.map_append, List.map_cons, List.map_nil, List.count_append, List.count_cons,
      List.count_nil] at moved ⊢
    omega
  · intro other f member
    rw [Batch.complete, List.mem_append, List.mem_singleton] at member
    rcases member with earlier | last
    · obtain ⟨place', g', atPlace', graph', same, kept⟩ := follows.compiled other f earlier
      have apart : place ≠ place' := by
        rintro rfl
        rw [(List.getElem?_inj inRange distinct).mp (atPlace.trans atPlace'.symm)] at notDone
        exact notDone (List.mem_map_of_mem earlier)
      refine ⟨place', g', atPlace', graph', same, ?_⟩
      rw [Batch.complete, List.getElem?_set_ne apart, kept]
    · obtain ⟨rfl, rfl⟩ := Prod.mk.inj last
      refine ⟨place, g, atPlace, graph, rfl, ?_⟩
      rw [Batch.complete, List.getElem?_set_self below]
  · intro other free
    simp only [Batch.complete, List.map_append, List.map_cons, List.map_nil, List.mem_append, List.mem_singleton] at free
    have apart : place ≠ other := fun same => free task (.inr rfl) (same ▸ atPlace)
    rw [Batch.complete, List.getElem?_set_ne apart]
    exact follows.untouched other fun earlier done => free earlier (.inl done)

/-- What the group does, the work on the functions follows. -/
theorem of_run {schedule : List ScheduleStep} (run : Group.Run limit places.length schedule s) :
    Follows c graphs places s (Batch.run c graphs places schedule) := by
  induction run with
  | start => exact .start
  | step _ next ih =>
    rw [Batch.run, List.foldl_append]
    cases next with
    | handOut more => exact ih.handOut more
    | goOn waits proceeds => exact ih.goOn waits proceeds
    | giveUp waits stopped => exact ih.giveUp waits stopped
    | complete works => exact ih.complete inside distinct works
    | cancel => exact ih.cancel

end

end Batch.Follows

/-! ### What it has come to in the end -/

theorem map_getElem?_range {α : Type} (l : List α) : (List.range l.length).map (fun i => l[i]?) = l.map some := by
  refine List.ext_getElem? fun i => ?_
  by_cases below : i < l.length <;> simp [below]

/-- The functions at `places`, which were `inputs` at first, are done, except for those of the tasks that went away. -/
structure Batch.Ended (c : Compiler) (inputs : List Graph) (places away : List Nat) (b : Batch) : Prop where
  tasks : (b.done.map Prod.fst ++ away).Perm (List.range inputs.length)
  refused : b.refused = true ↔ away ≠ []
  compiled : ∀ {task place f g}, (task, f) ∈ b.done → places[task]? = some place → inputs[task]? = some g →
    f = c.compile g ∧ b.graphs[place]? = some f.graph
  untouched : ∀ {task place g}, task ∉ b.done.map Prod.fst → places[task]? = some place → inputs[task]? = some g →
    b.graphs[place]? = some g
  metrics : b.metrics = (b.done.map fun entry => entry.2.observation).foldl Metrics.observe {}

namespace Batch

variable {c : Compiler} {graphs inputs : List Graph} {places away : List Nat} {b : Batch} {schedule : List ScheduleStep}
  {limit i place : Nat} {g : Graph}

/-- A schedule that a group follows to its end leaves all functions done, unless the work was canceled. -/
theorem ended_of_completes (kept : places.map (fun place => graphs[place]?) = inputs.map some) (distinct : places.Nodup)
    (completes : Group.Completes limit places.length schedule) :
    ∃ away, Ended c inputs places away (Batch.run c graphs places schedule) ∧ (away ≠ [] → .cancel ∈ schedule) := by
  have sameLength : places.length = inputs.length := by simpa using congrArg List.length kept
  have input {task place : Nat} (atPlace : places[task]? = some place) : inputs[task]? = graphs[place]? := by
    have same := congrArg (·[task]?) kept
    rw [List.getElem?_map, List.getElem?_map, atPlace, Option.map_some] at same
    cases isInput : inputs[task]? with
    | none => simp [isInput] at same
    | some g => simpa [isInput] using same.symm
  have inside (place : Nat) (member : place ∈ places) : place < graphs.length := by
    obtain ⟨task, below, rfl⟩ := List.getElem_of_mem member
    have isInput := input (List.getElem?_eq_getElem below)
    rw [List.getElem?_eq_getElem (sameLength ▸ below)] at isInput
    exact (List.getElem?_eq_some_iff.mp isInput.symm).1
  obtain ⟨s, run, handedOut, noneWaits, noneWorks⟩ := completes
  have follows := Follows.of_run (c := c) inside distinct run
  obtain ⟨away, perm, refused, canceled⟩ := follows.tasks
  rw [noneWaits, noneWorks, handedOut, sameLength, List.append_nil, List.nil_append] at perm
  refine ⟨away, ⟨perm, refused, ?_, ?_, follows.metrics⟩, fun some => run.cancel_mem (canceled some)⟩
  · intro task place f g done atPlace isInput
    obtain ⟨place', g', atPlace', graph, same, left⟩ := follows.compiled task f done
    obtain rfl : place = place' := by simpa [atPlace] using atPlace'
    obtain rfl : g = g' := by simpa [input atPlace, graph] using isInput.symm
    exact ⟨same, left⟩
  · intro task place g notDone atPlace isInput
    rw [follows.untouched place fun other done same => ?_, ← input atPlace, isInput]
    have below := (List.getElem?_eq_some_iff.mp atPlace).1
    rw [(List.getElem?_inj below distinct).mp (atPlace.trans same.symm)] at notDone
    exact notDone done

theorem lookup_done_eq_none : b.done.lookup i = none ↔ i ∉ b.done.map Prod.fst := by
  rw [List.lookup_eq_none_iff]
  simp only [bne_iff_ne, List.mem_map, not_exists, not_and]
  exact ⟨fun none entry member same => none entry member same.symm, fun absent entry member same => absent entry member same.symm⟩

theorem mem_of_lookup_done {f : CompiledFunction} (found : b.done.lookup i = some f) : (i, f) ∈ b.done := by
  obtain ⟨before, after, whole, _⟩ := List.lookup_eq_some_iff.mp found
  rw [whole]
  simp

theorem getElem?_results {count : Nat} (below : i < count) : (b.results count)[i]? = some (b.done.lookup i) := by
  simp [results, below]

namespace Ended

variable (ended : Ended c inputs places away b)
include ended

/-- A function is as it is alone, or has no result and is as it was. -/
theorem result_cases (atPlace : places[i]? = some place) (isInput : inputs[i]? = some g) :
    (b.done.lookup i = none ∧ b.graphs[place]? = some g) ∨
    (b.done.lookup i = some (c.compile g) ∧ b.graphs[place]? = some (c.compile g).graph) := by
  cases found : b.done.lookup i with
  | none => exact .inl ⟨rfl, ended.untouched (lookup_done_eq_none.mp found) atPlace isInput⟩
  | some f =>
    obtain ⟨rfl, left⟩ := ended.compiled (mem_of_lookup_done found) atPlace isInput
    exact .inr ⟨rfl, left⟩

theorem notMem_done (gone : i ∈ away) : i ∉ b.done.map Prod.fst := by
  have apart := (List.nodup_append.mp (ended.tasks.nodup_iff.mpr List.nodup_range)).2.2
  exact fun done => apart i done i gone rfl

/-- A task went away exactly if a result is missing. -/
theorem refused_iff : b.refused = true ↔ none ∈ b.results inputs.length := by
  rw [ended.refused, results, List.mem_map]
  constructor
  · intro some
    obtain ⟨i, gone⟩ := List.exists_mem_of_ne_nil away some
    exact ⟨i, ended.tasks.mem_iff.mp (List.mem_append_right _ gone), lookup_done_eq_none.mpr (ended.notMem_done gone)⟩
  · rintro ⟨i, member, missing⟩
    rcases List.mem_append.mp (ended.tasks.mem_iff.mpr member) with done | gone
    · exact absurd done (lookup_done_eq_none.mp missing)
    · exact List.ne_nil_of_mem gone

/-- The results that are not missing are those of the tasks that are done. -/
theorem countP_results : (b.results inputs.length).countP Option.isSome = b.done.length := by
  have isDone (i : Nat) : (b.done.lookup i).isSome = true ↔ i ∈ b.done.map Prod.fst := by
    rw [← not_iff_not, Bool.not_eq_true, Option.isSome_eq_false_iff, Option.isNone_iff_eq_none, lookup_done_eq_none]
  rw [results, List.countP_map, ← ended.tasks.countP_eq, List.countP_append]
  have all : (b.done.map Prod.fst).countP (Option.isSome ∘ fun i => b.done.lookup i) = b.done.length := by
    exact (List.countP_eq_length.mpr fun i done => (isDone i).mpr done).trans (List.length_map _)
  have none : away.countP (Option.isSome ∘ fun i => b.done.lookup i) = 0 :=
    List.countP_eq_zero.mpr fun i gone done => ended.notMem_done gone ((isDone i).mp done)
  rw [all, none, Nat.add_zero]

end Ended

namespace Ended

variable (sameLength : places.length = inputs.length) (ended : Ended c inputs places [] b)
include sameLength ended

/-- With no task away, each function has its result. -/
theorem lookup_eq (isInput : inputs[i]? = some g) : b.done.lookup i = some (c.compile g) := by
  have below := (List.getElem?_eq_some_iff.mp isInput).1
  have done : i ∈ b.done.map Prod.fst := by
    have member := ended.tasks.mem_iff.mpr (List.mem_range.mpr below)
    simpa using member
  rcases ended.result_cases (List.getElem?_eq_getElem (sameLength ▸ below)) isInput with ⟨missing, _⟩ | ⟨found, _⟩
  · exact absurd done (lookup_done_eq_none.mp missing)
  · exact found

theorem results_eq : b.results inputs.length = (inputs.map c.compile).map some := by
  have each : b.results inputs.length = ((List.range inputs.length).map fun i => inputs[i]?).map (Option.map c.compile) := by
    rw [results, List.map_map]
    refine List.map_congr_left fun i member => ?_
    have isInput := List.getElem?_eq_getElem (List.mem_range.mp member)
    rw [Function.comp_apply, isInput, ended.lookup_eq sameLength isInput, Option.map_some]
  rw [each, map_getElem?_range, List.map_map, List.map_map]
  rfl

/-- The functions were counted in some order. -/
theorem observations_perm : (b.done.map fun entry => entry.2.observation).Perm
    ((inputs.map c.compile).map CompiledFunction.observation) := by
  -- what a task is counted as depends on its number only
  have own : b.done.map (fun entry => some entry.2.observation) =
      (b.done.map Prod.fst).map fun i => (inputs[i]?).map fun g => (c.compile g).observation := by
    rw [List.map_map]
    refine List.map_congr_left fun entry member => ?_
    have task : entry.1 ∈ List.range inputs.length := ended.tasks.mem_iff.mp (by simpa using ⟨entry.2, member⟩)
    have below := List.mem_range.mp task
    have isInput := List.getElem?_eq_getElem below
    have same := (ended.compiled member (List.getElem?_eq_getElem (sameLength ▸ below)) isInput).1
    rw [Function.comp_apply, isInput, Option.map_some, same]
  have order := ended.tasks
  rw [List.append_nil] at order
  have perm := order.map fun i => (inputs[i]?).map fun g => (c.compile g).observation
  rw [← own] at perm
  have inTurn : ((List.range inputs.length).map fun i => (inputs[i]?).map fun g => (c.compile g).observation) =
      (inputs.map fun g => (c.compile g).observation).map some := by
    have each := congrArg (List.map (Option.map fun g => (c.compile g).observation)) (map_getElem?_range inputs)
    rw [List.map_map, List.map_map] at each
    rw [List.map_map]
    exact each
  rw [inTurn] at perm
  have plain := perm.filterMap id
  simpa [List.filterMap_map, Function.comp_def] using plain

end Ended

end Batch

namespace Compilation

variable {c : Compilation} {fs : List CompiledFunction} (all : c.functions = fs.map some)
include all

theorem compiledCount_of_all : c.compiledCount = fs.countP fun f => f.outcome = .compiled := by
  simp [compiledCount, all, List.countP_map, Function.comp_def]

theorem fallbackCount_of_all : c.fallbackCount = fs.countP fun f => f.outcome ≠ .compiled := by
  have split := List.length_eq_countP_add_countP (l := fs) fun f => decide (f.outcome = .compiled)
  have present : c.functions.countP Option.isSome = fs.length := by simp [all, List.countP_map, Function.comp_def]
  simp only [decide_eq_true_eq] at split
  rw [fallbackCount, present, compiledCount_of_all all]
  exact Nat.sub_eq_of_eq_add' split

end Compilation

namespace Compiler

/-- Compiling at once does not depend on the schedule. Let the functions at different places be `inputs`, and let a group
with any parallelism follow a schedule to its end, with the work canceled at any time or never. Then each function is
compiled where it is, with the result that it has alone, or it has no result and is as it was. There is a failure exactly
if a result is missing, and the functions counted are those with a result. If the work was not canceled, then the results,
their summary and all counters are those of compiling one function after the other. -/
theorem compileAlong_schedule_independent (c : Compiler) (graphs inputs : List Graph) (places : List Nat)
    (kept : places.map (fun place => graphs[place]?) = inputs.map some) (distinct : places.Nodup) (parallelism : Int)
    (schedule : List ScheduleStep) (completes : Group.Completes (taskLimit parallelism) places.length schedule) :
    let done := c.compileAlong graphs places schedule
    let alone := inputs.map c.compile
    done.functions.length = inputs.length ∧
    (∀ (i place : Nat) (g : Graph), places[i]? = some place → inputs[i]? = some g →
      (done.functions[i]? = some none ∧ done.graphs[place]? = some g) ∨
      (done.functions[i]? = some (some (c.compile g)) ∧ done.graphs[place]? = some (c.compile g).graph)) ∧
    (done.failureMessage?.isSome = true ↔ none ∈ done.functions) ∧
    done.metrics.functions.total = UInt64.ofNat (done.functions.countP Option.isSome) ∧
    (.cancel ∉ schedule →
      done.functions = alone.map some ∧
      done.compiledCount = alone.countP (fun f => f.outcome = .compiled) ∧
      done.fallbackCount = alone.countP (fun f => f.outcome ≠ .compiled) ∧
      done.metrics.SameCounters ((alone.map CompiledFunction.observation).foldl Metrics.observe {})) := by
  have sameLength : places.length = inputs.length := by simpa using congrArg List.length kept
  obtain ⟨away, ended, canceled⟩ := Batch.ended_of_completes (c := c) kept distinct completes
  simp only [compileAlong, sameLength]
  refine ⟨by simp [Batch.results], fun i place g atPlace isInput => ?_, ?_, ?_, fun uncanceled => ?_⟩
  · rw [Batch.getElem?_results (List.getElem?_eq_some_iff.mp isInput).1, Option.some.injEq, Option.some.injEq]
    exact ended.result_cases atPlace isInput
  · rw [← ended.refused_iff, Compilation.failureMessage?]
    cases (Batch.run c graphs places schedule).refused <;> simp
  · rw [ended.countP_results, ended.metrics, Metrics.total_foldl_observe, List.length_map]
  · obtain rfl : away = [] := by
      by_contra some
      exact uncanceled (canceled some)
    have results := ended.results_eq sameLength
    refine ⟨results, ?_, ?_, ?_⟩
    · exact Compilation.compiledCount_of_all results
    · exact Compilation.fallbackCount_of_all results
    · rw [ended.metrics]
      exact Metrics.foldl_observe_perm (ended.observations_perm sameLength)

/-- Two at a time, with the work canceled while one of the first two is at work: the third finds it canceled. -/
theorem canceled_amid_work_fails :
    let schedule : List ScheduleStep := [.start 0, .start 1, .finish 1, .cancel, .finish 0, .start 2]
    let graphs := [Sample.fibo.build, Sample.sum.build, Sample.max.build]
    let done := Compiler.compileAlong ⟨Settings.initial 2, []⟩ graphs [2, 0, 1] schedule
    Group.Completes (taskLimit 2) 3 schedule ∧ done.functions[2]? = some none ∧ done.failureMessage?.isSome = true ∧
    done.metrics.functions.total = 2 := by
  intro schedule graphs done
  have completes : Group.Completes (taskLimit 2) 3 schedule := by
    have idle : Group.Run (taskLimit 2) 3 [] {} := .start
    have bothOut := (idle.step (.handOut (by decide) (by decide))).step (.handOut (by decide) (by decide))
    have bothWork := (bothOut.step (.goOn (show 0 ∈ [1, 0] by decide) rfl)).step (.goOn (show 1 ∈ [1] by decide) rfl)
    have lastOut := (bothWork.step (.complete (show 1 ∈ [1, 0] by decide))).step (.handOut (by decide) (by decide))
    have stopped := (lastOut.step .cancel).step (.complete (show 0 ∈ [0] by decide))
    exact ⟨_, stopped.step (.giveUp (show 2 ∈ [2] by decide) rfl), rfl, rfl, rfl⟩
  have missing : done.functions[2]? = some none := rfl
  have all := compileAlong_schedule_independent ⟨Settings.initial 2, []⟩ graphs
    [Sample.max.build, Sample.fibo.build, Sample.sum.build] [2, 0, 1] rfl (by decide) 2 schedule completes
  have counted : done.functions.countP Option.isSome = 2 := rfl
  refine ⟨completes, missing, all.2.2.1.mpr (List.mem_of_getElem? missing), ?_⟩
  rw [all.2.2.2.1, counted]
  rfl

end Compiler

end MiddleEnd
