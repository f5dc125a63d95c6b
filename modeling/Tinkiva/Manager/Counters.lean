import Tinkiva.Manager.Accounting

/-!
# The atomics of the counters

The counters of `src/src/metrics.rs` are `AtomicU64`s, and a `record_*` call is a
`fetch_add` on one of them, which wraps.  The call is a step of its own.  `slot` inserts
the entry and then calls `record_open`, and an eviction has the entry out of the map before
it calls `record_eviction`; between the two every other task may run.

`recording` is the manager with these steps.  A step of the manager leaves the call that
its task has to make next, and the task does nothing before it has made it.  No `await`
stands between the two, so the task is not dropped there either.  The system restricts no
run of the manager: `recording_of_reachable`.  It has more runs than the code in one point: the
`close_entry` of an eviction may begin before `record_eviction` is called.

`counters_exact` is the law.  The counters and the calls that are due are together what
the operations have done, modulo `2 ^ 64`, and the two counters of the registry are behind
by one at most, while the admission mutex is locked.
-/

namespace Tinkiva.Manager

open Tinkiva.Config TaskPool

variable {settings : DatabaseSettings}

/-- The atomics of `Metrics` that the manager increments. -/
structure Counters where
  requestsShed : UInt64
  databasesOpened : UInt64
  databasesEvicted : UInt64
  databasesClosedIdle : UInt64
  walCheckpoints : UInt64
  deriving DecidableEq, Repr

/-- The counters of `Metrics::default()`. -/
def Counters.zero : Counters := ⟨0, 0, 0, 0, 0⟩

/-- `fetch_add` on the counters. -/
def Counters.fetchAdd (c : Counters) (m : Metrics) : Counters where
  requestsShed := c.requestsShed + .ofNat m.requestsShed
  databasesOpened := c.databasesOpened + .ofNat m.databasesOpened
  databasesEvicted := c.databasesEvicted + .ofNat m.databasesEvicted
  databasesClosedIdle := c.databasesClosedIdle + .ofNat m.databasesClosedIdle
  walCheckpoints := c.walCheckpoints + .ofNat m.walCheckpoints

@[simp] theorem Counters.fetchAdd_zero (c : Counters) : c.fetchAdd 0 = c := by
  change (⟨c.1 + .ofNat 0, c.2 + .ofNat 0, c.3 + .ofNat 0, c.4 + .ofNat 0, c.5 + .ofNat 0⟩ :
    Counters) = c
  simp

/-- Two additions are one. -/
theorem Counters.fetchAdd_add (c : Counters) (m n : Metrics) :
    c.fetchAdd (m + n) = (c.fetchAdd m).fetchAdd n := by
  simp only [fetchAdd, Metrics.add_requestsShed, Metrics.add_databasesOpened,
    Metrics.add_databasesEvicted, Metrics.add_databasesClosedIdle, Metrics.add_walCheckpoints,
    UInt64.ofNat_add, UInt64.add_assoc]

/-- What the tally has grown by. -/
def Metrics.since (m before : Metrics) : Metrics where
  requestsShed := m.requestsShed - before.requestsShed
  databasesOpened := m.databasesOpened - before.databasesOpened
  databasesEvicted := m.databasesEvicted - before.databasesEvicted
  databasesClosedIdle := m.databasesClosedIdle - before.databasesClosedIdle
  walCheckpoints := m.walCheckpoints - before.walCheckpoints

@[simp] theorem Metrics.add_since (before m : Metrics) : (before + m).since before = m := by
  ext <;> exact Nat.add_sub_cancel_left ..

theorem Metrics.guarded_add (m n : Metrics) : (m + n).guarded = m.guarded + n.guarded := by
  simp only [guarded, add_databasesOpened, add_databasesEvicted]
  omega

/-! ## The system -/

/-- A `record_*` call: the task that makes it, and what it adds. -/
structure RecordCall where
  task : Nat
  amount : Metrics
  deriving DecidableEq, Repr

/-- The counters, and the calls that are due. -/
structure Account where
  counters : Counters
  pending : List RecordCall
  deriving DecidableEq, Repr

namespace Account

/-- What the calls that are due will add. -/
def due (l : Account) : Metrics := (l.pending.map RecordCall.amount).sum

/-- The task that the action is about has a call to make first. -/
def busy (l : Account) (a : Action) : Bool := l.pending.any fun r => decide (a.task = some r.task)

/-- A step that counts `m` leaves its task with the call that adds it. -/
def owe (l : Account) (a : Action) (m : Metrics) : Account :=
  match a.task with
  | none => l
  | some i => if m = 0 then l else { l with pending := ⟨i, m⟩ :: l.pending }

end Account

inductive RecordAction where
  | step (a : Action)
  | record (call : RecordCall)
  deriving DecidableEq, Repr

/-- One step of the manager, or one `record_*` call. -/
def recordingStep (settings : DatabaseSettings) (p : State × Account) :
    RecordAction → Option (State × Account)
  | .step a =>
    if p.2.busy a then none
    else (p.1.step settings a).map fun s' =>
      (s', p.2.owe a (s'.shared.metrics.since p.1.shared.metrics))
  | .record call =>
    if call ∈ p.2.pending then
      some (p.1, ⟨p.2.counters.fetchAdd call.amount, p.2.pending.erase call⟩)
    else none

/-- The manager, with its counters. -/
def recording (settings : DatabaseSettings) : StepSystem (State × Account) RecordAction where
  init := ((manager settings).init, ⟨.zero, []⟩)
  step := recordingStep settings

variable {s s' : State} {l : Account}

/-- What a step of the manager leaves to record: nothing, or what the step of the task has
counted. -/
theorem Account.owe_step {a : Action} (hstep : s.step settings a = some s') :
    (l.owe a (s'.shared.metrics.since s.shared.metrics) = l ∧
      s'.shared.metrics = s.shared.metrics) ∨
    ∃ i t t' spawned m, a.task = some i ∧ s.tasks[i]? = some t ∧
      s'.tasks = update s.tasks i t' spawned ∧ Counted s.shared s'.shared t t' spawned m ∧
      l.owe a (s'.shared.metrics.since s.shared.metrics) =
        { l with pending := ⟨i, m⟩ :: l.pending } := by
  cases ha : a.task with
  | none => exact Or.inl ⟨by rw [owe, ha], (State.step_silent hstep ha).1⟩
  | some i =>
    obtain ⟨t, t', spawned, m, hi, htasks, hcounts⟩ := State.step_counts hstep ha
    have hsince : s'.shared.metrics.since s.shared.metrics = m := by
      rw [hcounts.metrics, Metrics.add_since]
    by_cases hm : m = 0
    · refine Or.inl ⟨by simp only [owe, ha, hsince, hm, if_true], ?_⟩
      rw [hcounts.metrics, hm, add_zero]
    · exact Or.inr ⟨i, t, t', spawned, m, rfl, hi, htasks, hcounts,
        by simp only [owe, ha, hsince, hm, if_false]⟩

/-- The two kinds of step. -/
theorem recordingStep_cases {p p' : State × Account} {r : RecordAction}
    (h : recordingStep settings p r = some p') :
    (∃ a, r = .step a ∧ p.2.busy a = false ∧ p.1.step settings a = some p'.1 ∧
      p'.2 = p.2.owe a (p'.1.shared.metrics.since p.1.shared.metrics)) ∨
    ∃ call, r = .record call ∧ call ∈ p.2.pending ∧
      p' = (p.1, ⟨p.2.counters.fetchAdd call.amount, p.2.pending.erase call⟩) := by
  cases r with
  | step a =>
    rw [recordingStep] at h
    split at h
    · cases h
    · rename_i hfree
      obtain ⟨s', hs', rfl⟩ := Option.map_eq_some_iff.mp h
      exact Or.inl ⟨a, rfl, by simpa using hfree, hs', rfl⟩
  | record call =>
    rw [recordingStep] at h
    split at h
    · rename_i hdue
      exact Or.inr ⟨call, rfl, hdue, (Option.some.inj h).symm⟩
    · cases h

/-- A run with the counters is a run of the manager. -/
theorem reachable_of_recording {p : State × Account} (h : (recording settings).Reachable p) :
    (manager settings).Reachable p.1 := by
  induction h with
  | refl => exact .refl
  | step r _ _ hstep ih =>
    rcases recordingStep_cases hstep with ⟨a, _, _, hs, _⟩ | ⟨call, _, _, rfl⟩
    · exact ih.step trivial hs
    · exact ih

/-- Every run of the manager is a run with the counters, in which each call is made as soon
as it is due. -/
theorem recording_of_reachable (h : (manager settings).Reachable s) :
    ∃ counters, (recording settings).Reachable (s, ⟨counters, []⟩) := by
  induction h with
  | refl => exact ⟨_, .refl⟩
  | @step s s' a _ _ hstep ih =>
    obtain ⟨counters, hrun⟩ := ih
    have hs : s.step settings a = some s' := hstep
    have hnext : (recording settings).Reachable
        (s', Account.owe ⟨counters, []⟩ a (s'.shared.metrics.since s.shared.metrics)) :=
      hrun.step (a := .step a) trivial (by simp [recording, recordingStep, Account.busy, hs])
    rcases Account.owe_step (l := ⟨counters, []⟩) hs with ⟨hkept, _⟩ |
      ⟨i, _, _, _, m, _, _, _, _, howed⟩
    · rw [hkept] at hnext
      exact ⟨counters, hnext⟩
    · rw [howed] at hnext
      exact ⟨counters.fetchAdd m,
        hnext.step (a := .record ⟨i, m⟩) trivial (by simp [recording, recordingStep])⟩

/-! ## The law -/

namespace Account

theorem due_cons (counters : Counters) (pending : List RecordCall) (call : RecordCall) :
    due ⟨counters, call :: pending⟩ = call.amount + due ⟨counters, pending⟩ := by
  simp [due]

/-- A call that is made is due no more. -/
theorem due_erase {call : RecordCall} (h : call ∈ l.pending) (counters : Counters) :
    l.due = call.amount + due ⟨counters, l.pending.erase call⟩ :=
  (List.sum_map_erase RecordCall.amount h).symm

/-- What every run keeps.  `guarded` and `alone` are about the two counters of the registry:
a call that adds to them is due from the holder of the admission guard, and from no other
task. -/
structure Balanced (s : State) (l : Account) : Prop where
  total : l.counters.fetchAdd l.due = Counters.zero.fetchAdd s.shared.metrics
  once : (l.pending.map RecordCall.task).Nodup
  guarded : ∀ r ∈ l.pending, r.amount.guarded ≠ 0 →
    ∃ t, s.tasks[r.task]? = some t ∧ t.admission = true
  alone : l.due.guarded ≤ 1

/-- When no task that owes a call holds the guard, no call of the registry is due. -/
theorem due_guarded_eq_zero {pending : List RecordCall}
    (h : ∀ r ∈ pending, r.amount.guarded = 0) :
    (pending.map RecordCall.amount).sum.guarded = 0 := by
  induction pending with
  | nil => rfl
  | cons r rest ih =>
    rw [List.map_cons, List.sum_cons, Metrics.guarded_add, h r List.mem_cons_self,
      ih fun r hr => h r (List.mem_cons_of_mem _ hr)]

/-- A call that is made. -/
theorem Balanced.record (h : Balanced s l) {call : RecordCall} (hdue : call ∈ l.pending) :
    Balanced s ⟨l.counters.fetchAdd call.amount, l.pending.erase call⟩ where
  total := by
    rw [← Counters.fetchAdd_add, ← due_erase hdue]
    exact h.total
  once := h.once.sublist (List.erase_sublist.map _)
  guarded r hr := h.guarded r (List.mem_of_mem_erase hr)
  alone := by
    have hle := h.alone
    rw [due_erase hdue (l.counters.fetchAdd call.amount), Metrics.guarded_add] at hle
    omega

/-- A step of the manager leaves the other tasks that owe a call where they are. -/
theorem Balanced.guarded_step (h : Balanced s l) {a : Action} (hfree : l.busy a = false)
    (hstep : s.step settings a = some s') :
    ∀ r ∈ l.pending, r.amount.guarded ≠ 0 →
      ∃ t, s'.tasks[r.task]? = some t ∧ t.admission = true := by
  intro r hr hguarded
  obtain ⟨t, hi, hadm⟩ := h.guarded r hr hguarded
  have hother : a.task ≠ some r.task := by
    intro ha
    simp only [busy, List.any_eq_false, decide_eq_true_eq] at hfree
    exact hfree r hr ha
  rcases State.step_task hstep hi with ⟨_, hi'⟩ | ⟨choice, _, _, _, rfl, _⟩ | ⟨_, _, rfl, _⟩
  · exact ⟨t, hi', hadm⟩
  · exact absurd rfl hother
  · exact absurd rfl hother

theorem Balanced.step (h : Balanced s l) (hreach : (manager settings).Reachable s) {a : Action}
    (hfree : l.busy a = false) (hstep : s.step settings a = some s') :
    Balanced s' (l.owe a (s'.shared.metrics.since s.shared.metrics)) := by
  rcases owe_step (l := l) hstep with ⟨hkept, hmetrics⟩ |
    ⟨i, t, t', spawned, m, ha, hi, htasks, hcounts, howed⟩
  · rw [hkept]
    exact { h with total := hmetrics ▸ h.total, guarded := h.guarded_step hfree hstep }
  rw [howed]
  have hi' : s'.tasks[i]? = some t' := by
    rw [htasks]
    exact getElem?_update_self hi
  -- The task that moves owed nothing before.
  have hnone : ∀ r ∈ l.pending, r.task ≠ i := by
    intro r hr hri
    simp only [busy, ha, List.any_eq_false, decide_eq_true_eq] at hfree
    exact hfree r hr (congrArg some hri.symm)
  refine ⟨?_, ?_, ?_, ?_⟩
  · rw [due_cons, hcounts.metrics, add_comm m, Counters.fetchAdd_add, Counters.fetchAdd_add]
    exact congrArg (·.fetchAdd m) h.total
  · refine List.nodup_cons.mpr ⟨fun hmem => ?_, h.once⟩
    obtain ⟨r, hr, hri⟩ := List.mem_map.mp hmem
    exact hnone r hr hri
  · intro r hr hguarded
    rcases List.mem_cons.mp hr with rfl | hr
    · rcases hcounts.guarded with hzero | ⟨_, _, hadm⟩
      · exact absurd hzero hguarded
      · exact ⟨t', hi', hadm⟩
    · exact h.guarded_step hfree hstep r hr hguarded
  · rw [due_cons, Metrics.guarded_add]
    rcases hcounts.guarded with hzero | ⟨hone, hadm, _⟩
    · rw [hzero, Nat.zero_add]
      exact h.alone
    · -- The mover holds the guard, so no other task owes a call of the registry.
      have hquiet : ∀ r ∈ l.pending, r.amount.guarded = 0 := by
        intro r hr
        by_contra hguarded
        obtain ⟨u, hj, hu⟩ := h.guarded r hr hguarded
        exact hnone r hr (admission_unique hreach hj hi hu hadm)
      have hzero : l.due.guarded = 0 := due_guarded_eq_zero hquiet
      change m.guarded + l.due.guarded ≤ 1
      omega

theorem reachable_balanced {p : State × Account} (h : (recording settings).Reachable p) :
    Balanced p.1 p.2 := by
  refine h.invariant (I := fun p => Balanced p.1 p.2) ?_ fun p r p' hrun hp _ hstep => ?_
  · exact ⟨rfl, List.nodup_nil, fun r hr => absurd hr List.not_mem_nil, Nat.zero_le _⟩
  · rcases recordingStep_cases hstep with ⟨a, _, hfree, hs, hl⟩ | ⟨call, _, hdue, rfl⟩
    · rw [hl]
      exact hp.step (reachable_of_recording hrun) hfree hs
    · exact hp.record hdue

end Account

/-- In every run, at every moment:

* the counters and the calls that are due are together what the operations have done,
  modulo `2 ^ 64`;
* a task has one call to make at most;
* of `record_open` and `record_eviction` one call at most is due, and none while the
  admission mutex is free. -/
theorem counters_exact {p : State × Account} (h : (recording settings).Reachable p) :
    p.2.counters.fetchAdd p.2.due = Counters.zero.fetchAdd p.1.done ∧
    (p.2.pending.map RecordCall.task).Nodup ∧
    p.2.due.guarded ≤ p.1.shared.admission.toNat := by
  have hreach := reachable_of_recording h
  have hp := Account.reachable_balanced h
  refine ⟨?_, hp.once, ?_⟩
  · rw [← metrics_eq_done hreach]
    exact hp.total
  · have hholders := admission_holders hreach
    cases hadm : p.1.shared.admission with
    | true => exact hp.alone
    | false =>
      rw [hadm, Bool.toNat_false, List.countP_eq_zero] at hholders
      refine le_of_eq (Account.due_guarded_eq_zero fun r hr => ?_)
      by_contra hguarded
      obtain ⟨t, ht, hheld⟩ := hp.guarded r hr hguarded
      exact hholders t (List.mem_of_getElem? ht) hheld

/-- A caller has evicted the only database and has not counted it yet. -/
def evicting : List RecordAction :=
  ((coldAcquire 0 "a" 0).take 7).map .step ++ .record ⟨0, ⟨0, 1, 0, 0, 0⟩⟩ ::
    ((coldAcquire 0 "a" 0).drop 7 ++ dropLease 0 ++ evictFor 1 "b" "a" ++ goes 1 1).map .step

theorem counters_exact_evicting :
    ((recording oneDatabase).play (fun _ _ => true) evicting).2.counters = ⟨0, 1, 0, 0, 0⟩ ∧
    ((recording oneDatabase).play (fun _ _ => true) evicting).2.counters.fetchAdd
      ((recording oneDatabase).play (fun _ _ => true) evicting).2.due = ⟨0, 1, 1, 0, 0⟩ := by
  have hreach : (recording oneDatabase).Reachable
      ((recording oneDatabase).play (fun _ _ => true) evicting) :=
    StepSystem.reachable_play (fun _ _ _ => trivial) evicting
  refine ⟨by decide, ?_⟩
  rw [(counters_exact hreach).1]
  decide

end Tinkiva.Manager
