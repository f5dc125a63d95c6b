import Tinkiva.Metrics.Histogram

/-!
# The request counters

`record_request` of `src/src/metrics.rs`.  It adds a request to the histogram of its
route and then to one of the two outcomes.  The three counters of a route that count
requests are named (`Counter`), so that one lemma says what a step does to each of them
(`read_recordRequestStep`) and which requests have added themselves (`counted_step`).
-/

namespace Tinkiva.Metrics

/-- `ROUTES`. -/
def ROUTES : List String :=
  ["/v1/db/\x7bdatabase\x7d/query", "/v1/db/\x7bdatabase\x7d/execute",
    "/v1/db/\x7bdatabase\x7d/batch"]

/-- The index of a route, by its matched path. -/
def routeIndex (route : String) : Option (Fin ROUTES.length) := ROUTES.finIdxOf? route

/-- `RouteMetrics`. -/
structure RouteMetrics where
  duration : Histogram
  succeeded : Nat
  failed : Nat

/-- `RouteMetrics::default`. -/
def RouteMetrics.default : RouteMetrics := ⟨.default, 0, 0⟩

/-! ## `Metrics::record_request` -/

inductive RequestPc where
  | duration (pc : RecordPc)
  | outcome
  deriving DecidableEq, Repr

/-- `route.duration.record(elapsed)` at a step, or behind its return. -/
def RequestPc.at : Option RecordPc → RequestPc
  | some pc => .duration pc
  | none => .outcome

/-- One step of `record_request` on its route; `none` is its return. -/
def recordRequestStep (route : RouteMetrics) (elapsed : Nat) (succeeded : Bool) :
    RequestPc → RouteMetrics × Option RequestPc
  | .duration pc =>
    ({ route with duration := (recordStep route.duration elapsed pc).1 },
      some (.at (recordStep route.duration elapsed pc).2))
  | .outcome =>
    (if succeeded then { route with succeeded := fetchAdd route.succeeded 1 }
      else { route with failed := fetchAdd route.failed 1 }, none)

/-! ## What a request has counted -/

/-- The counters of a route that count requests. -/
inductive Counter where
  | count
  | succeeded
  | failed
  deriving DecidableEq, Repr

def RouteMetrics.read (route : RouteMetrics) : Counter → Nat
  | .count => route.duration.count
  | .succeeded => route.succeeded
  | .failed => route.failed

/-- Whether a request of this outcome adds itself to a counter in the end. -/
def Counter.takes (succeeded : Bool) : Counter → Bool
  | .count => true
  | .succeeded => succeeded
  | .failed => !succeeded

/-- Whether a step adds the request to a counter. -/
def RequestPc.adds (succeeded : Bool) (counter : Counter) : RequestPc → Bool
  | .duration .count => counter == .count
  | .duration _ => false
  | .outcome => counter != .count && counter.takes succeeded

/-- Whether a request that stands here has added itself to a counter. -/
def RequestPc.counted (succeeded : Bool) (counter : Counter) : Option RequestPc → Bool
  | some (.duration .totalMicros) | some .outcome => counter == .count
  | some (.duration _) => false
  | none => counter.takes succeeded

/-- A new request has added itself to nothing. -/
theorem counted_start (succeeded : Bool) (counter : Counter) :
    RequestPc.counted succeeded counter (some (.duration (.at 0))) = false := rfl

theorem read_recordRequestStep (route : RouteMetrics) (elapsed : Nat) (succeeded : Bool)
    (pc : RequestPc) (counter : Counter) :
    (recordRequestStep route elapsed succeeded pc).1.read counter =
      if pc.adds succeeded counter = true then fetchAdd (route.read counter) 1
      else route.read counter := by
  cases pc with
  | duration pc =>
    cases pc with
    | bucket index =>
      have hcount : (recordStep route.duration elapsed (.bucket index)).1.count =
          route.duration.count := by
        rw [recordStep]
        split
        · rfl
        · rfl
      cases counter with
      | count => exact hcount
      | succeeded => rfl
      | failed => rfl
    | count => cases counter <;> rfl
    | totalMicros => cases counter <;> rfl
  | outcome => cases counter <;> cases succeeded <;> rfl

/-- A request has added itself to a counter after a step if it had before, or does in the
step. -/
theorem counted_step (route : RouteMetrics) (elapsed : Nat) (succeeded : Bool) (pc : RequestPc)
    (counter : Counter) :
    RequestPc.counted succeeded counter (recordRequestStep route elapsed succeeded pc).2 =
      (RequestPc.counted succeeded counter (some pc) || pc.adds succeeded counter) := by
  cases pc with
  | duration pc =>
    cases pc with
    | bucket index =>
      show RequestPc.counted succeeded counter (some (.duration (.at (index + 1)))) = false
      rw [RecordPc.at]
      split
      · rfl
      · rfl
    | count => cases counter <;> rfl
    | totalMicros => cases counter <;> rfl
  | outcome => cases counter <;> cases succeeded <;> rfl

/-- No request adds itself twice. -/
theorem not_adds_of_counted {succeeded : Bool} {pc : RequestPc} {counter : Counter}
    (h : RequestPc.counted succeeded counter (some pc) = true) :
    pc.adds succeeded counter = false := by
  cases pc with
  | duration pc =>
    cases pc with
    | bucket index => rfl
    | count => exact absurd h Bool.false_ne_true
    | totalMicros => rfl
  | outcome =>
    obtain rfl := eq_of_beq h
    rfl

end Tinkiva.Metrics
