import Tinkiva.Lib.StepSystem
import Tinkiva.Lib.TaskIndices

/-!
# The histogram

`Histogram` of `src/src/metrics.rs`.  `record` and `render` are state machines: one step
is one `fetch_add` or one `load`, and the test of a bound that is not met is a step that
does nothing.  All the atomics are relaxed.  A step here is one indivisible operation on
one cell, and a cell never goes back, which is what relaxed operations on one atomic
give.

A `Duration` is its nanoseconds.  `record` compares `as_secs_f64` with the bounds.  The
bounds are whole nanoseconds and the conversion neither joins nor reorders a bound and
the nanoseconds next to it, so the comparison is that of the nanoseconds.
-/

namespace Tinkiva.Metrics

/-- `BUCKETS`, in nanoseconds. -/
def BUCKETS : List Nat :=
  [1000000, 2500000, 5000000, 10000000, 25000000, 50000000, 100000000, 250000000, 500000000,
    1000000000, 2500000000, 5000000000]

/-- `AtomicU64::fetch_add`, which wraps. -/
def fetchAdd (cell n : Nat) : Nat := (cell + n) % 2 ^ 64

/-- `Histogram`. -/
structure Histogram where
  buckets : Fin BUCKETS.length → Nat
  count : Nat
  totalMicros : Nat

/-- `Histogram::default`. -/
def Histogram.default : Histogram := ⟨fun _ => 0, 0, 0⟩

/-- `bucket.fetch_add(1)`. -/
def Histogram.addBucket (h : Histogram) (index : Fin BUCKETS.length) : Histogram :=
  { h with buckets := Function.update h.buckets index (fetchAdd (h.buckets index) 1) }

/-! ## `Histogram::record` -/

inductive RecordPc where
  | bucket (index : Fin BUCKETS.length)
  | count
  | totalMicros
  deriving DecidableEq, Repr

/-- The head of the loop over the buckets. -/
def RecordPc.at (index : Nat) : RecordPc :=
  if h : index < BUCKETS.length then .bucket ⟨index, h⟩ else .count

/-- One step of `record`; `none` is its return. -/
def recordStep (h : Histogram) (elapsed : Nat) : RecordPc → Histogram × Option RecordPc
  | .bucket index =>
    (if elapsed ≤ BUCKETS[index] then h.addBucket index else h, some (.at (index + 1)))
  | .count => ({ h with count := fetchAdd h.count 1 }, some .totalMicros)
  | .totalMicros =>
    ({ h with totalMicros := fetchAdd h.totalMicros (elapsed / 1000 % 2 ^ 64) }, none)

/-! ## `Histogram::render` -/

/-- What `render` prints: a value for every bucket, the value of `+Inf` and of `_count`, and
the value of `_sum` in microseconds. -/
structure Rendered where
  buckets : List Nat
  count : Nat
  totalMicros : Nat
  deriving DecidableEq, Repr

inductive RenderPc where
  | bucket (index : Fin BUCKETS.length) (buckets : List Nat)
  | count (buckets : List Nat)
  | totalMicros (buckets : List Nat) (count : Nat)
  | done (rendered : Rendered)
  deriving DecidableEq, Repr

/-- The head of the loop over the buckets, with what it has printed. -/
def RenderPc.at (index : Nat) (buckets : List Nat) : RenderPc :=
  if h : index < BUCKETS.length then .bucket ⟨index, h⟩ buckets else .count buckets

/-- One step of `render`. -/
def renderStep (h : Histogram) : RenderPc → Option RenderPc
  | .bucket index buckets => some (.at (index + 1) (buckets ++ [h.buckets index]))
  | .count buckets => some (.totalMicros buckets h.count)
  | .totalMicros buckets count => some (.done ⟨buckets, count, h.totalMicros⟩)
  | .done _ => none

/-! ## The system -/

/-- A call of `record` or of `render`. -/
inductive Task where
  | record (elapsed : Nat) (pc : Option RecordPc)
  | render (pc : RenderPc)
  deriving DecidableEq, Repr

/-- One histogram and the calls on it. -/
structure State where
  histogram : Histogram
  tasks : List Task

inductive Action where
  | record (elapsed : Nat)
  | render
  | step (task : Nat)
  deriving DecidableEq, Repr

/-- One step of a call. -/
def Task.step (h : Histogram) : Task → Option (Histogram × Task)
  | .record elapsed (some pc) =>
    some ((recordStep h elapsed pc).1, .record elapsed (recordStep h elapsed pc).2)
  | .record _ none => none
  | .render pc => (renderStep h pc).map fun pc' => (h, .render pc')

/-- One step of the system. -/
def State.step (s : State) : Action → Option State
  | .record elapsed => some { s with tasks := s.tasks ++ [.record elapsed (some (.at 0))] }
  | .render => some { s with tasks := s.tasks ++ [.render (.at 0 [])] }
  | .step i =>
    match s.tasks[i]? with
    | none => none
    | some t =>
      (t.step s.histogram).map fun (h, t') => ⟨h, TaskPool.update s.tasks i t' []⟩

/-- Any number of calls of `record` and `render` on one histogram. -/
def histogram : StepSystem State Action where
  init := ⟨.default, []⟩
  step := State.step

end Tinkiva.Metrics
