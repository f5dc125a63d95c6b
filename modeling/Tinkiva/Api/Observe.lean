import Tinkiva.Api.Auth
import Tinkiva.Metrics.Requests
import Tinkiva.Lib.StepSystem
import Tinkiva.Lib.TaskIndices

/-!
# The observer among the layers

`observe` of `src/src/api.rs`, with the layers of `router` around it.  From the outside
to the inside they are `CatchPanicLayer`, `TimeoutLayer`, `observe`, `authorize` and the
handler.  `observe` counts a request when the inner service returns.  `authorize` and the
errors of the handler are inside, so their responses are counted.  `TimeoutLayer` drops
the inner future and `CatchPanicLayer` catches what unwinds it, and neither comes back to
`observe`.

`TimeoutLayer` polls the inner future before it looks at its timer, and `observe` does
not wait after the inner service has returned.  So a request is cut off only where the
handler waits.  The steps of other requests may come between any two steps.

Every counter of a route is the number of the requests that have added themselves to it
(`reachable_reads`).  When all requests are answered, the counters are right exactly if
`observe` has sent all the responses (`State.Reads.counted`, `State.Counted.returned`).
-/

namespace Tinkiva.Api.Observe

open Config TaskPool
open Metrics (ROUTES routeIndex RouteMetrics RequestPc Counter recordRequestStep fetchAdd
  counted_start read_recordRequestStep counted_step not_adds_of_counted)

/-! ## The layers -/

/-- The `MatchedPath` of a route. -/
def matchedPath : Route → String
  | .health => "/health"
  | .query => "/v1/db/\x7bdatabase\x7d/query"
  | .execute => "/v1/db/\x7bdatabase\x7d/execute"
  | .batch => "/v1/db/\x7bdatabase\x7d/batch"
  | .stats => "/v1/admin/stats"
  | .metrics => "/v1/admin/metrics"

/-- `StatusCode::is_success`. -/
def isSuccess (status : Nat) : Bool := decide (200 ≤ status) && decide (status < 300)

/-- What sends the response: the router with all that is inside `TimeoutLayer`,
`TimeoutLayer` itself, or `CatchPanicLayer`. -/
inductive Answer where
  | response (status : Nat)
  | timedOut
  | panicked
  deriving DecidableEq, Repr

def Answer.status : Answer → Nat
  | .response status => status
  | .timedOut => 408
  | .panicked => 500

/-- Where a request stands. -/
inductive Pc where
  | router
  | handler
  | returned (status : Nat)
  | recording (status elapsed : Nat) (pc : RequestPc)
  | answered (answer : Answer)
  deriving DecidableEq, Repr

/-- `record_request` at a step, or behind its return, where the response is sent. -/
def Pc.at (status elapsed : Nat) : Option RequestPc → Pc
  | some pc => .recording status elapsed pc
  | none => .answered (.response status)

structure Task where
  request : Request
  pc : Pc

/-- The metrics of the routes and the requests. -/
structure State where
  routes : Fin ROUTES.length → RouteMetrics
  tasks : List Task

/-- What happens to a request.  The handler, the timer and the clock are outside. -/
inductive Event where
  | authorize
  | respond (status : Nat)
  | cutOff
  | panic
  | elapsed (nanos : Nat)
  | step
  deriving DecidableEq, Repr

inductive Action where
  | arrive (request : Request)
  | task (index : Nat) (event : Event)

/-- The index of the route in `ROUTES`. -/
def Task.route (t : Task) : Option (Fin ROUTES.length) := routeIndex (matchedPath t.request.route)

/-- One step of a request.  `/health` has no observer, and no entry in `ROUTES`. -/
def Task.step (settings : Settings) (routes : Fin ROUTES.length → RouteMetrics) (t : Task)
    (event : Event) : Option ((Fin ROUTES.length → RouteMetrics) × Pc) :=
  match event, t.pc with
  | .authorize, .router =>
    some (routes,
      match router settings t.request with
      | .ok _ => .handler
      | .error error => .returned error.statusCode.1)
  | .respond status, .handler => some (routes, .returned status)
  | .cutOff, .handler => some (routes, .answered .timedOut)
  | .panic, .handler => some (routes, .answered .panicked)
  | .elapsed nanos, .returned status =>
    some (routes, .at status nanos (t.route.map fun _ => .duration (.at 0)))
  | .step, .recording status nanos pc =>
    t.route.map fun r =>
      let next := recordRequestStep (routes r) nanos (isSuccess status) pc
      (Function.update routes r next.1, .at status nanos next.2)
  | _, _ => none

def State.step (settings : Settings) (s : State) : Action → Option State
  | .arrive request => some { s with tasks := s.tasks ++ [⟨request, .router⟩] }
  | .task i event =>
    match s.tasks[i]? with
    | none => none
    | some t =>
      (t.step settings s.routes event).map fun (routes, pc) =>
        ⟨routes, update s.tasks i { t with pc := pc } []⟩

/-- Any number of requests, in any order of their steps. -/
def service (settings : Settings) : StepSystem State Action where
  init := ⟨fun _ => .default, []⟩
  step := State.step settings

/-! ## What is counted -/

/-- The answer of a request, when it has one. -/
def Task.answer (t : Task) : Option Answer :=
  match t.pc with
  | .answered answer => some answer
  | _ => none

/-- A request to a route. -/
def Task.isTo (r : Fin ROUTES.length) (t : Task) : Bool := t.route == some r

/-- A request that has been answered with a 2xx status. -/
def Task.succeeded (t : Task) : Bool := t.answer.any fun answer => isSuccess answer.status

/-- Whether `observe` has added a request that stands here to a counter. -/
def Pc.counted (counter : Counter) : Pc → Bool
  | .router | .handler | .returned _ | .answered .timedOut | .answered .panicked => false
  | .recording status _ pc => RequestPc.counted (isSuccess status) counter (some pc)
  | .answered (.response status) => RequestPc.counted (isSuccess status) counter none

/-- A request to a route that has added itself to a counter of the route. -/
def Task.counted (counter : Counter) (r : Fin ROUTES.length) (t : Task) : Bool :=
  t.isTo r && t.pc.counted counter

/-- The requests to a route. -/
def State.requests (s : State) (r : Fin ROUTES.length) : Finset Nat := indices (Task.isTo r) s.tasks

/-- The requests to a route whose response has been sent. -/
def State.responses (s : State) (r : Fin ROUTES.length) : Finset Nat :=
  indices (fun t => t.isTo r && t.answer.isSome) s.tasks

/-- The requests to a route whose response has been sent with a 2xx status. -/
def State.successes (s : State) (r : Fin ROUTES.length) : Finset Nat :=
  indices (fun t => t.isTo r && t.succeeded) s.tasks

/-- All responses are sent and no request is running. -/
def State.AtRest (s : State) : Prop := ∀ t ∈ s.tasks, t.answer.isSome = true

instance (s : State) : Decidable s.AtRest :=
  inferInstanceAs (Decidable (∀ t ∈ s.tasks, t.answer.isSome = true))

/-- Every response of a route is counted once. -/
structure State.Counted (s : State) (r : Fin ROUTES.length) : Prop where
  outcomes : (s.routes r).succeeded + (s.routes r).failed = (s.routes r).duration.count
  responses : (s.routes r).duration.count = (s.responses r).card
  succeeded : (s.routes r).succeeded = (s.successes r).card

/-! ## The steps -/

theorem counted_at (counter : Counter) (status nanos : Nat) (pc : Option RequestPc) :
    (Pc.at status nanos pc).counted counter = RequestPc.counted (isSuccess status) counter pc := by
  cases pc with
  | none => rfl
  | some pc => rfl

/-- Outside `record_request`, a step leaves the counters, and the request has not added itself
before the step nor after it.  Inside, it is a step of `record_request` on the route. -/
theorem Task.step_cases {settings : Settings} {routes routes' : Fin ROUTES.length → RouteMetrics}
    {t : Task} {event : Event} {pc' : Pc}
    (h : t.step settings routes event = some (routes', pc')) :
    (routes' = routes ∧ ∀ counter, t.pc.counted counter = false ∧
      (t.route.isSome = true → pc'.counted counter = false)) ∨
    ∃ status nanos pc r, t.pc = .recording status nanos pc ∧ t.route = some r ∧
      routes' = Function.update routes r
        (recordRequestStep (routes r) nanos (isSuccess status) pc).1 ∧
      pc' = .at status nanos (recordRequestStep (routes r) nanos (isSuccess status) pc).2 := by
  unfold Task.step at h
  split at h
  · rename_i hpc
    obtain ⟨rfl, rfl⟩ := Prod.mk.inj (Option.some.inj h)
    refine Or.inl ⟨rfl, fun counter => ⟨by rw [hpc]; rfl, fun _ => ?_⟩⟩
    cases router settings t.request with
    | ok _ => rfl
    | error _ => rfl
  · rename_i hpc
    obtain ⟨rfl, rfl⟩ := Prod.mk.inj (Option.some.inj h)
    exact Or.inl ⟨rfl, fun counter => ⟨by rw [hpc]; rfl, fun _ => rfl⟩⟩
  · rename_i hpc
    obtain ⟨rfl, rfl⟩ := Prod.mk.inj (Option.some.inj h)
    exact Or.inl ⟨rfl, fun counter => ⟨by rw [hpc]; rfl, fun _ => rfl⟩⟩
  · rename_i hpc
    obtain ⟨rfl, rfl⟩ := Prod.mk.inj (Option.some.inj h)
    exact Or.inl ⟨rfl, fun counter => ⟨by rw [hpc]; rfl, fun _ => rfl⟩⟩
  · rename_i hpc
    obtain ⟨rfl, rfl⟩ := Prod.mk.inj (Option.some.inj h)
    refine Or.inl ⟨rfl, fun counter => ⟨by rw [hpc]; rfl, fun hroute => ?_⟩⟩
    obtain ⟨r, hr⟩ := Option.isSome_iff_exists.mp hroute
    rw [hr, counted_at]
    exact counted_start _ _
  · rename_i status nanos pc hpc
    obtain ⟨r, hr, heq⟩ := Option.map_eq_some_iff.mp h
    obtain ⟨rfl, rfl⟩ := Prod.mk.inj heq
    exact Or.inr ⟨status, nanos, pc, r, hpc, hr, rfl, rfl⟩
  · exact absurd h (by simp)

theorem at_eq_answered {status nanos : Nat} {pc : Option RequestPc} {answer : Answer}
    (h : Pc.at status nanos pc = .answered answer) : answer = .response status := by
  cases pc with
  | none => exact (Pc.answered.inj h).symm
  | some pc => exact Pc.noConfusion h

/-- A step that answers a request is a cut-off, a panic, or the return of `observe`. -/
theorem Task.step_answered {settings : Settings}
    {routes routes' : Fin ROUTES.length → RouteMetrics} {t : Task} {event : Event} {answer : Answer}
    (h : t.step settings routes event = some (routes', .answered answer)) :
    event = .cutOff ∨ event = .panic ∨ ∃ status, answer = .response status := by
  unfold Task.step at h
  split at h
  · have hpc := (Prod.mk.inj (Option.some.inj h)).2
    split at hpc
    · exact Pc.noConfusion hpc
    · exact Pc.noConfusion hpc
  · exact Pc.noConfusion (Prod.mk.inj (Option.some.inj h)).2
  · exact Or.inl rfl
  · exact Or.inr (Or.inl rfl)
  · have hpc := (Prod.mk.inj (Option.some.inj h)).2
    exact Or.inr (Or.inr ⟨_, at_eq_answered hpc⟩)
  · obtain ⟨r, _, heq⟩ := Option.map_eq_some_iff.mp h
    exact Or.inr (Or.inr ⟨_, at_eq_answered (Prod.mk.inj heq).2⟩)
  · exact absurd h (by simp)

/-- What a step of a request does to a counter: it leaves it, or it adds the request. -/
theorem Task.step_counted {settings : Settings} {routes routes' : Fin ROUTES.length → RouteMetrics}
    {t : Task} {event : Event} {pc' : Pc} (h : t.step settings routes event = some (routes', pc'))
    (counter : Counter) (r : Fin ROUTES.length) :
    ((routes' r).read counter = (routes r).read counter ∧
      Task.counted counter r ⟨t.request, pc'⟩ = t.counted counter r) ∨
    ((routes' r).read counter = fetchAdd ((routes r).read counter) 1 ∧
      t.counted counter r = false ∧ Task.counted counter r ⟨t.request, pc'⟩ = true) := by
  have hisTo : Task.isTo r ⟨t.request, pc'⟩ = t.isTo r := rfl
  rw [Task.counted, Task.counted, hisTo]
  cases hto : t.isTo r with
  | false =>
    left
    rw [Bool.false_and, Bool.false_and]
    refine ⟨?_, rfl⟩
    rcases Task.step_cases h with ⟨rfl, _⟩ | ⟨status, nanos, pc, q, _, hq, rfl, _⟩
    · rfl
    · rw [Function.update_of_ne]
      rintro rfl
      rw [Task.isTo, hq] at hto
      simp at hto
  | true =>
    have hr : t.route = some r := eq_of_beq hto
    rw [Bool.true_and, Bool.true_and]
    rcases Task.step_cases h with ⟨rfl, hquiet⟩ | ⟨status, nanos, pc, q, hpc, hq, rfl, rfl⟩
    · left
      obtain ⟨hbefore, hafter⟩ := hquiet counter
      rw [hbefore, hafter (by rw [hr]; rfl)]
      exact ⟨rfl, rfl⟩
    · obtain rfl : q = r := Option.some.inj (hq.symm.trans hr)
      have hpcc : t.pc.counted counter =
          RequestPc.counted (isSuccess status) counter (some pc) := by rw [hpc]; rfl
      rw [Function.update_self, read_recordRequestStep, counted_at, counted_step, hpcc]
      cases hadds : pc.adds (isSuccess status) counter with
      | false =>
        left
        simp
      | true =>
        right
        refine ⟨if_pos rfl, ?_, Bool.or_true _⟩
        rw [Bool.eq_false_iff]
        intro hcounted
        rw [not_adds_of_counted hcounted] at hadds
        exact Bool.false_ne_true hadds

/-- The kinds of step. -/
theorem State.step_cases {settings : Settings} {s s' : State} {a : Action}
    (h : s.step settings a = some s') :
    (∃ request, a = .arrive request ∧ s' = { s with tasks := s.tasks ++ [⟨request, .router⟩] }) ∨
    ∃ i event t routes' pc', a = .task i event ∧ s.tasks[i]? = some t ∧
      t.step settings s.routes event = some (routes', pc') ∧
      s' = ⟨routes', update s.tasks i ⟨t.request, pc'⟩ []⟩ := by
  cases a with
  | arrive request => exact Or.inl ⟨request, rfl, (Option.some.inj h).symm⟩
  | task i event =>
    right
    simp only [State.step] at h
    split at h
    · exact absurd h (by simp)
    · rename_i t hi
      obtain ⟨⟨routes', pc'⟩, ht, rfl⟩ := Option.map_eq_some_iff.mp h
      exact ⟨i, event, t, routes', pc', rfl, hi, ht, rfl⟩

/-! ## The counters -/

/-- Every counter is the number of the requests that have added themselves to it. -/
def State.Reads (s : State) : Prop :=
  ∀ counter r, (s.routes r).read counter = (indices (Task.counted counter r) s.tasks).card % 2 ^ 64

theorem State.Reads.step {settings : Settings} {s s' : State} {a : Action} (h : s.Reads)
    (hstep : s.step settings a = some s') : s'.Reads := by
  intro counter r
  rcases State.step_cases hstep with ⟨request, rfl, rfl⟩ |
    ⟨i, event, t, routes', pc', rfl, hi, ht, rfl⟩
  · have hnew : ∀ u ∈ [Task.mk request .router], Task.counted counter r u = false := by
      intro u hu
      obtain rfl := List.mem_singleton.mp hu
      exact Bool.and_false _
    rw [indices_append hnew]
    exact h counter r
  · have hnil : ∀ u ∈ ([] : List Task), Task.counted counter r u = false := by simp
    rcases Task.step_counted ht counter r with ⟨hread, hsame⟩ | ⟨hread, hnot, hcounted⟩
    · rw [indices_update hi hsame hnil, hread]
      exact h counter r
    · rw [indices_update_insert hi hcounted hnil, hread,
        Finset.card_insert_of_notMem (not_mem_indices hi hnot), h counter r, fetchAdd,
        Nat.mod_add_mod]

theorem reachable_reads {settings : Settings} {s : State} (h : (service settings).Reachable s) :
    s.Reads := by
  apply h.invariant
  · intro counter r
    cases counter <;> rfl
  · intro s a s' _ hreads _ hstep
    exact hreads.step hstep

/-! ## At rest -/

/-- A request that is answered by `observe`. -/
def Task.Returned (t : Task) : Prop := ∃ status, t.answer = some (.response status)

theorem answer_eq_some {t : Task} {answer : Answer} :
    t.answer = some answer ↔ t.pc = .answered answer := by
  rw [Task.answer]
  split
  · rename_i hpc
    rw [hpc, Option.some_inj, Pc.answered.injEq]
  · rename_i hpc
    exact ⟨fun h => absurd h (by simp), fun h => absurd h (hpc answer)⟩

/-- A request that is answered by `observe` has added itself to the counters of its outcome. -/
theorem Task.counted_returned {t : Task} {r : Fin ROUTES.length}
    (h : t.isTo r = true → t.Returned) (counter : Counter) :
    t.counted counter r = (t.isTo r && counter.takes t.succeeded) := by
  cases hto : t.isTo r with
  | false => rw [Task.counted, hto, Bool.false_and, Bool.false_and]
  | true =>
    obtain ⟨status, hstatus⟩ := h hto
    rw [Task.counted, hto, answer_eq_some.mp hstatus, Task.succeeded, hstatus]
    rfl

/-- Of the requests that have been answered, only those that `observe` has answered have added
themselves to the count. -/
theorem Task.returned_of_counted {t : Task} {r : Fin ROUTES.length} (hrest : t.answer.isSome = true)
    (h : t.counted .count r = true) : t.Returned := by
  obtain ⟨answer, hanswer⟩ := Option.isSome_iff_exists.mp hrest
  rw [Task.counted, answer_eq_some.mp hanswer, Bool.and_eq_true] at h
  cases answer with
  | response status => exact ⟨status, hanswer⟩
  | timedOut => exact absurd h.2 Bool.false_ne_true
  | panicked => exact absurd h.2 Bool.false_ne_true

theorem State.AtRest.responses_eq {s : State} (h : s.AtRest) (r : Fin ROUTES.length) :
    s.responses r = s.requests r := by
  apply indices_congr
  intro t ht
  rw [h t ht, Bool.and_true]

/-- If `observe` has answered all requests of a route, and they fit the counters, the counters
are right. -/
theorem State.Reads.counted {s : State} (h : s.Reads) (hrest : s.AtRest) {r : Fin ROUTES.length}
    (hreturned : ∀ t ∈ s.tasks, t.isTo r = true → t.Returned)
    (hfew : (s.responses r).card < 2 ^ 64) : s.Counted r := by
  rw [hrest.responses_eq] at hfew
  have hsplit : (s.successes r).card +
      (indices (fun t => t.isTo r && !t.succeeded) s.tasks).card = (s.requests r).card :=
    card_indices_split _ _ _
  have hread : ∀ counter, (s.routes r).read counter =
      (indices (fun t => t.isTo r && Counter.takes t.succeeded counter) s.tasks).card % 2 ^ 64 := by
    intro counter
    rw [h counter r, indices_congr fun t ht => Task.counted_returned (hreturned t ht) counter]
  have hcount : (s.routes r).duration.count = (s.requests r).card := by
    have hall : indices (fun t => t.isTo r && true) s.tasks = s.requests r :=
      indices_congr fun t _ => Bool.and_true _
    rw [← hall] at hfew ⊢
    exact (hread .count).trans (Nat.mod_eq_of_lt hfew)
  have hsuccesses : (s.successes r).card < 2 ^ 64 := by omega
  have hfailures : (indices (fun t => t.isTo r && !t.succeeded) s.tasks).card < 2 ^ 64 := by omega
  have hsucceeded : (s.routes r).succeeded = (s.successes r).card :=
    (hread .succeeded).trans (Nat.mod_eq_of_lt hsuccesses)
  have hfailed : (s.routes r).failed = (indices (fun t => t.isTo r && !t.succeeded) s.tasks).card :=
    (hread .failed).trans (Nat.mod_eq_of_lt hfailures)
  constructor
  · rw [hsucceeded, hfailed, hcount, hsplit]
  · rw [hcount, hrest.responses_eq]
  · exact hsucceeded

/-- If the count is right, `observe` has answered all requests of the route. -/
theorem State.Counted.returned {s : State} {r : Fin ROUTES.length} (h : s.Counted r)
    (hreads : s.Reads) (hrest : s.AtRest) :
    (∀ t ∈ s.tasks, t.isTo r = true → t.Returned) ∧ (s.responses r).card < 2 ^ 64 := by
  have hsubset : indices (Task.counted .count r) s.tasks ⊆ s.requests r := by
    apply indices_subset
    intro t ht
    exact (Bool.and_eq_true_iff.mp ht).1
  have hle := Finset.card_le_card hsubset
  have hcount : (indices (Task.counted .count r) s.tasks).card % 2 ^ 64 = (s.requests r).card := by
    rw [← hreads .count r, ← hrest.responses_eq]
    exact h.responses
  have hmod := Nat.mod_le (indices (Task.counted .count r) s.tasks).card (2 ^ 64)
  have hlt : (s.requests r).card < 2 ^ 64 := hcount ▸ Nat.mod_lt _ (by decide)
  refine ⟨fun t ht hto => ?_, by rwa [hrest.responses_eq]⟩
  have heq : indices (Task.counted .count r) s.tasks = s.requests r :=
    Finset.eq_of_subset_of_card_le hsubset (by omega)
  obtain ⟨i, hi⟩ := List.mem_iff_getElem?.mp ht
  have hmem : i ∈ s.requests r := mem_indices.mpr ⟨t, hi, hto⟩
  rw [← heq] at hmem
  obtain ⟨u, hu, hcounted⟩ := mem_indices.mp hmem
  obtain rfl : t = u := Option.some.inj (hi.symm.trans hu)
  exact Task.returned_of_counted (hrest t ht) hcounted

/-! ## The runs that count every response -/

/-- The condition on a step, for a route.  No request of the route is cut off, and no handler of
the route panics.  And the number of requests fits a counter. -/
def undisturbed (r : Fin ROUTES.length) (s : State) : Action → Prop
  | .arrive request => Task.isTo r ⟨request, .router⟩ = true → (s.requests r).card + 1 < 2 ^ 64
  | .task i event => event = .cutOff ∨ event = .panic → ∀ t ∈ s.tasks[i]?, t.isTo r = false

instance (r : Fin ROUTES.length) (s : State) (a : Action) : Decidable (undisturbed r s a) :=
  match a with
  | .arrive _ => inferInstanceAs (Decidable (_ → _))
  | .task i event =>
    inferInstanceAs (Decidable (event = .cutOff ∨ event = .panic → ∀ t ∈ s.tasks[i]?,
      t.isTo r = false))

/-- What holds of a route along these runs. -/
structure Undisturbed (r : Fin ROUTES.length) (s : State) : Prop where
  few : (s.requests r).card < 2 ^ 64
  returned : ∀ t ∈ s.tasks, t.isTo r = true → t.answer.isSome = true → t.Returned

theorem Undisturbed.step {settings : Settings} {r : Fin ROUTES.length} {s s' : State} {a : Action}
    (h : Undisturbed r s) (hok : undisturbed r s a) (hstep : s.step settings a = some s') :
    Undisturbed r s' := by
  rcases State.step_cases hstep with ⟨request, rfl, rfl⟩ |
    ⟨i, event, t, routes', pc', rfl, hi, ht, rfl⟩
  · constructor
    · cases hto : Task.isTo r ⟨request, .router⟩ with
      | false =>
        show (indices (Task.isTo r) (s.tasks ++ _)).card < 2 ^ 64
        rw [indices_append]
        · exact h.few
        · intro u hu
          rw [List.mem_singleton.mp hu]
          exact hto
      | true =>
        show (indices (Task.isTo r) (s.tasks ++ _)).card < 2 ^ 64
        rw [indices_append_singleton hto]
        exact Nat.lt_of_le_of_lt (Finset.card_insert_le _ _) (hok hto)
    · intro u hu hto hanswer
      rcases List.mem_append.mp hu with hu | hu
      · exact h.returned u hu hto hanswer
      · rw [List.mem_singleton.mp hu] at hanswer
        exact absurd hanswer Bool.false_ne_true
  · constructor
    · have hsame : Task.isTo r ⟨t.request, pc'⟩ = t.isTo r := rfl
      show (indices (Task.isTo r) (update s.tasks i ⟨t.request, pc'⟩ [])).card < 2 ^ 64
      rw [indices_update hi hsame (by simp)]
      exact h.few
    · apply forall_update
      · intro hto hanswer
        obtain ⟨answer, hanswer⟩ := Option.isSome_iff_exists.mp hanswer
        obtain rfl := answer_eq_some.mp hanswer
        rcases Task.step_answered ht with hcut | hpanic | ⟨status, rfl⟩
        · exact absurd (hto.symm.trans (hok (Or.inl hcut) t hi)) (by decide)
        · exact absurd (hto.symm.trans (hok (Or.inr hpanic) t hi)) (by decide)
        · exact ⟨status, hanswer⟩
      · intro j u _ hu
        exact h.returned u (List.mem_of_getElem? hu)
      · intro u hu
        exact absurd hu (by simp)

theorem reachable_undisturbed {settings : Settings} {r : Fin ROUTES.length} {s : State}
    (h : (service settings).ReachableVia (undisturbed r) s) : Undisturbed r s := by
  apply h.invariant
  · constructor
    · exact Nat.two_pow_pos 64
    · intro t ht
      exact absurd ht (by simp [service])
  · intro s a s' _ hundisturbed hok hstep
    exact hundisturbed.step hok hstep

/-- When all requests are answered, the counters of a route are right exactly if `observe` has
answered all its requests and they fit the counters.  Without a cut-off and a panic on the
route, they are right at the end of every run. -/
theorem requests_counted {settings : Settings} {s : State}
    (h : (service settings).Reachable s) (hrest : s.AtRest) (r : Fin ROUTES.length) :
    (s.Counted r ↔ (∀ t ∈ s.tasks, t.isTo r = true → t.Returned) ∧
      (s.responses r).card < 2 ^ 64) ∧
    ((service settings).ReachableVia (undisturbed r) s → s.Counted r) := by
  have hreads : s.Reads := reachable_reads h
  refine ⟨⟨fun hcounted => hcounted.returned hreads hrest, ?_⟩, fun hvia => ?_⟩
  · intro ⟨hreturned, hfew⟩
    exact hreads.counted hrest hreturned hfew
  · have hundisturbed : Undisturbed r s := reachable_undisturbed hvia
    apply hreads.counted hrest
    · intro t ht hto
      exact hundisturbed.returned t ht hto (hrest t ht)
    · rw [hrest.responses_eq]
      exact hundisturbed.few

/-- The route of `query`. -/
def queryRoute : Fin ROUTES.length := ⟨0, by decide⟩

/-- A query that is answered with 200 in a millisecond, beside one whose handler is cut off on
another route. -/
def answered : List Action :=
  [.arrive ⟨.query, []⟩, .arrive ⟨.batch, []⟩, .task 0 .authorize, .task 1 .authorize,
    .task 0 (.respond 200), .task 0 (.elapsed 1000000), .task 1 .cutOff] ++
  List.replicate 15 (.task 0 .step)

/-- The run of `answered`. -/
def played : State :=
  (service .default).play (fun s a => decide (undisturbed queryRoute s a)) answered

theorem requests_counted_query : (played.routes queryRoute).succeeded = 1 := by
  have hvia : (service .default).ReachableVia (undisturbed queryRoute) played :=
    StepSystem.reachable_play (fun _ _ h => of_decide_eq_true h) answered
  have hcounted := (requests_counted hvia.reachable (by decide) queryRoute).2 hvia
  exact hcounted.succeeded.trans (by decide)

/-- A query whose handler is cut off. -/
def timedOut : List Action := [.arrive ⟨.query, []⟩, .task 0 .authorize, .task 0 .cutOff]

/-- The 408 of a query that is cut off is in no counter. -/
theorem requests_not_counted :
    ¬∀ (settings : Settings) (s : State) (r : Fin ROUTES.length),
      (service settings).Reachable s → s.AtRest → s.Counted r := by
  intro h
  have hreach : (service .default).Reachable ((service .default).play (fun _ _ => true) timedOut) :=
    StepSystem.reachable_play (fun _ _ _ => trivial) timedOut
  exact absurd (h .default _ queryRoute hreach (by decide)).responses (by decide)

end Tinkiva.Api.Observe
