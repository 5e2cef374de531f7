import MiddleEnd.Decimal.Layout
import MiddleEnd.Fault

/-!
What is counted over the functions compiled, and its text exposition: families in the order of their names,
series in the order of their labels.
-/
namespace MiddleEnd

/-- A count that only grows. It is held in 64 bits, and each amount is first rounded to a double. -/
structure Counter where
  total : UInt64 := 0
  deriving DecidableEq, Repr

namespace Counter

def add (c : Counter) (amount : Nat) : Counter :=
  ⟨c.total + (Float.ofNat amount).toUInt64⟩

def value (c : Counter) : Float :=
  c.total.toFloat

end Counter

/-- Counters by the value of a label. -/
abbrev CounterSeries := List (String × Counter)

namespace CounterSeries

/-- The counter of a label; a new one counts nothing yet. -/
def get (s : CounterSeries) (label : String) : Counter :=
  (s.lookup label).getD {}

/-- Adds to the counter of a label, which is in the series afterwards even if nothing was added. -/
def add : CounterSeries → String → Nat → CounterSeries
  | [], label, amount => [(label, Counter.add {} amount)]
  | (l, c) :: s, label, amount =>
    if l = label then (l, c.add amount) :: s else (l, c) :: add s label amount

end CounterSeries

/-- A distribution: the values seen, to be counted up to each of some bounds. -/
structure Histogram where
  bounds : List Float
  seen : List Float := []

namespace Histogram

def observe (h : Histogram) (x : Float) : Histogram :=
  { h with seen := h.seen ++ [x] }

/-- How many values are at most a bound. -/
def countUpTo (h : Histogram) (bound : Float) : Nat :=
  h.seen.countP fun x => x ≤ bound

def sum (h : Histogram) : Float :=
  h.seen.foldl (· + ·) 0

end Histogram

/-- What one function adds to the metrics. -/
structure Observation where
  outcome : String
  /-- The sweeps of the optimizer; only a positive number counts. -/
  sweeps : Int := 0
  phisResolved : Nat := 0
  frees : Nat := 0
  /-- The changes by each rule. -/
  rewrites : List (String × Nat) := []
  /-- The time taken, in nanoseconds. -/
  elapsed : Int := 0

namespace Observation

/-- An amount to count; a negative one is refused. -/
def amount (n : Int) : Except Fault Nat :=
  if n < 0 then .error (.stated "counter cannot decrease in value") else .ok n.toNat

/-- An observation of amounts that may turn out negative. -/
def ofAmounts (outcome : String) (sweeps phisResolved frees : Int) (rewrites : List (String × Int))
    (elapsed : Int) : Except Fault Observation := do
  let rewrites ← rewrites.mapM fun (rule, n) => return (rule, ← amount n)
  return { outcome, sweeps, phisResolved := ← amount phisResolved, frees := ← amount frees, rewrites, elapsed }

/-- The time taken in seconds: whole seconds and the rest are rounded apart. -/
def seconds (o : Observation) : Float :=
  Float.ofInt (o.elapsed.tdiv 1000000000) + Float.ofInt (o.elapsed.tmod 1000000000) / 1e9

end Observation

/-- The metrics of a compiler. -/
structure Metrics where
  functions : CounterSeries := [("compiled", {}), ("fallback", {})]
  duration : Histogram := { bounds := (List.range 9).map fun i => 1e-5 * Float.ofNat (1 <<< (2 * i)) }
  sweeps : Histogram := { bounds := (List.range 8).map fun i => Float.ofNat (2 * i + 1) }
  rewrites : CounterSeries := []
  phisResolved : Counter := {}
  frees : Counter := {}

namespace Metrics

/-- Counts one function. -/
def observe (m : Metrics) (o : Observation) : Metrics where
  functions := m.functions.add o.outcome 1
  duration := m.duration.observe o.seconds
  sweeps := if 0 < o.sweeps then m.sweeps.observe (Float.ofInt o.sweeps) else m.sweeps
  rewrites := o.rewrites.foldl (fun s (rule, n) => s.add rule n) m.rewrites
  phisResolved := m.phisResolved.add o.phisResolved
  frees := m.frees.add o.frees

/-! ## Exposition -/

/-- Sample values are written with as few digits as read back, a whole number without a point. -/
def layout : Layout where
  exponentMark := 'e'
  afterWhole := ""
  afterSingle := ""
  nan := "NaN"
  posInf := "+Inf"
  negInf := "-Inf"

/-- The value of a label between quotes. -/
def labelText (value : String) : String :=
  let escape : Char → String
    | '\\' => "\\\\"
    | '\n' => "\\n"
    | '"' => "\\\""
    | c => c.toString
  "\"" ++ String.join (value.toList.map escape) ++ "\""

/-- A family of samples under its name. -/
structure Family where
  name : String
  help : String
  type : String
  /-- Samples: what follows the name, the label, and the value. -/
  samples : List (String × Option (String × String) × Float)

namespace Family

def sampleText (f : Family) : String × Option (String × String) × Float → String
  | (suffix, label, value) =>
    let labels := match label with
      | some (key, v) => "\x7b" ++ key ++ "=" ++ labelText v ++ "\x7d"
      | none => ""
    f.name ++ suffix ++ labels ++ " " ++ layout.write value ++ "\n"

/-- The family in text; one without samples is left out. -/
def text (f : Family) : String :=
  if f.samples.isEmpty then ""
  else s!"# HELP {f.name} {f.help}\n# TYPE {f.name} {f.type}\n" ++ String.join (f.samples.map f.sampleText)

def ofCounter (name help : String) (c : Counter) : Family :=
  ⟨name, help, "counter", [("", none, c.value)]⟩

def ofSeries (name help key : String) (s : CounterSeries) : Family :=
  let sorted := s.mergeSort fun a b => !(b.1 < a.1)
  ⟨name, help, "counter", sorted.map fun (label, c) => ("", some (key, label), c.value)⟩

def ofHistogram (name help : String) (h : Histogram) : Family :=
  let count := Float.ofNat h.seen.length
  ⟨name, help, "histogram",
    h.bounds.map (fun b => ("_bucket", some ("le", layout.write b), Float.ofNat (h.countUpTo b)))
      ++ [("_bucket", some ("le", "+Inf"), count), ("_sum", none, h.sum), ("_count", none, count)]⟩

end Family

/-- The families in the order of their names. -/
def families (m : Metrics) : List Family :=
  [.ofHistogram "rejit_compile_duration_seconds" "Time spent compiling one function" m.duration,
    .ofCounter "rejit_frees_inserted_total" "Free markers inserted" m.frees,
    .ofSeries "rejit_functions_total" "Functions handled by the compiler, by outcome" "outcome" m.functions,
    .ofHistogram "rejit_optimizer_sweeps" "Optimizer rule sweeps per function" m.sweeps,
    .ofCounter "rejit_phis_resolved_total" "Phis eliminated by the phi resolver" m.phisResolved,
    .ofSeries "rejit_rule_rewrites_total" "Graph rewrites made by each optimizer rule" "rule" m.rewrites]

def text (m : Metrics) : String :=
  String.join (m.families.map Family.text)

end Metrics

end MiddleEnd
