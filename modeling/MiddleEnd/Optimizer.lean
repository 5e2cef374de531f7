import MiddleEnd.Analysis
import MiddleEnd.Log
import MiddleEnd.Optimizer.PhiElimination
import MiddleEnd.Optimizer.Rules

/-!
The optimizer: sweeps of rules over the vertices until a sweep changes nothing, then a turn for the
elimination of phis, whose progress starts the sweeps again. A ceiling on the sweeps ends a run that does
not settle.
-/
namespace MiddleEnd

/-- What an optimizer run did. -/
structure Stats where
  sweeps : Nat := 0
  /-- The turns of phi elimination that made progress. -/
  phiRounds : Nat := 0
  phisResolved : Nat := 0
  /-- The changes of each rule that made any. -/
  rewrites : List (String × Nat) := []
  deriving DecidableEq, Repr

namespace Stats

/-- One more change by a rule. -/
def countRewrite (s : Stats) (rule : String) : Stats :=
  let count := (s.rewrites.lookup rule).getD 0
  { s with rewrites := s.rewrites.filter (·.1 ≠ rule) ++ [(rule, count + 1)] }

/-- All changes, by rules and by phi elimination. -/
def changes (s : Stats) : Nat :=
  s.rewrites.foldl (fun n r => n + r.2) s.phiRounds

end Stats

/-- The state of an optimizer run. -/
structure Optimizing where
  graph : Graph
  /-- The phis eliminated so far, in earlier runs too. -/
  resolved : Nat := 0
  stats : Stats := {}
  log : List LogEntry := []

namespace Optimizer

/-- The ceiling on the sweeps when none is set. -/
def defaultMaxSweeps : Nat := 64

/-- The ceiling for a setting, of which only a positive one counts. -/
def sweepLimit (maxSweeps : Int) : Nat :=
  if maxSweeps ≤ 0 then defaultMaxSweeps else maxSweeps.toNat

/-- Work on the graph of a run. -/
def onGraph {α : Type} (work : Action Graph α) : Action Optimizing α :=
  work.on Optimizing.graph fun s g => { s with graph := g }

/-- Applies the rules to a vertex as long as it is in the graph; says whether one changed anything. -/
def applyRules (v : VertexId) : List Rule → Action Optimizing Bool
  | [] => return false
  | r :: rules => do
    if !(← get).graph.contains v then return false
    let changed ← (onGraph (r.apply v)).within (.rule r.name v)
    if changed then modify fun s => { s with stats := s.stats.countRewrite r.name }
    let more ← applyRules v rules
    return changed || more

/-- Applies the rules to the vertices there are at the start. -/
def sweep (rules : List Rule) : Action Optimizing Bool := do
  let vs := (← get).graph.listed
  vs.foldlM (fun changed v => return (← applyRules v rules) || changed) false

/-- The entry for a sweep. -/
def sweepEntry (function : String) (sweep : Nat) (changed : Bool) : LogEntry :=
  ⟨.trace, "optimizer sweep", [("func", .text function), ("sweep", .number sweep), ("changed", .flag changed)]⟩

/-- Sweeps until nothing changes, with `remaining` of `limit` sweeps left. -/
def loop (rules : List Rule) (limit : Nat) : Nat → Action Optimizing Unit
  | 0 => do Action.fail (.noFixpoint (← get).graph.name limit)
  | remaining + 1 => do
    modify fun s => { s with stats := { s.stats with sweeps := s.stats.sweeps + 1 } }
    let changed ← sweep rules
    modify fun s => { s with log := s.log ++ [sweepEntry s.graph.name s.stats.sweeps changed] }
    if changed then loop rules limit remaining
    else
      let progress ← PhiElimination.run.on (fun s => ⟨s.graph, s.resolved⟩)
        fun s c => { s with graph := c.graph, resolved := c.resolved }
      if progress then
        modify fun s => { s with stats := { s.stats with phiRounds := s.stats.phiRounds + 1 } }
        loop rules limit remaining

/-- A whole run. The count of eliminated phis is kept also when the run stops early. -/
def process (rules : List Rule) (maxSweeps : Int) : Action Optimizing Unit :=
  ExceptT.mk fun before =>
    let limit := sweepLimit maxSweeps
    let (outcome, after) := (loop rules limit limit).run before
    (outcome, { after with stats := { after.stats with phisResolved := after.resolved - before.resolved } })

end Optimizer

end MiddleEnd
