import Tinkiva.Lib.Potential
import Tinkiva.Manager.Progress

/-!
# A call takes a bounded number of steps

`acquire` has four loops: the rounds of its `for`, the evictions of `slot`, the scan of
an eviction, and the exchange of `lease`.  The first two count to `MAX_ATTEMPTS`.  The
scan runs under the admission mutex, so nothing is inserted while it runs.  The exchange
may fail as often as the others move or the machine likes; a failed exchange is not
counted.

`acquire_bounded` is the law: however the other tasks move, the steps of a call, with
those of its caller until the lease is dropped, are at most `callBound` many.  The weight
of a place bounds the steps that are left from there.
-/

namespace Tinkiva.Manager

open Tinkiva.Config ConcurrentMap TaskPool

variable {settings : DatabaseSettings}

/-! ## Weights -/

/-- The steps of one eviction: a scan of `n` entries, a `take`, and the test before. -/
def evictCost (n : Nat) : Nat := 2 * n + 6

/-- The steps of one round of the `for` loop, up to its `yield`. -/
def roundCost (n : Nat) : Nat := (MAX_ATTEMPTS + 1) * evictCost n + 10

/-- The steps of a call, and of its caller, where `n` databases may be open. -/
def callBound (n : Nat) : Nat := MAX_ATTEMPTS * roundCost n + 12

def TakePc.weight : TakePc → Nat
  | .get _ => 3
  | .beginClose _ _ => 2
  | .remove _ _ => 1

/-- Two steps for each entry that the scan can still yield, and the `take` after it. -/
def EvictPc.weight (m : Map String EntryId) : EvictPc → Nat
  | .scan sc _ => 2 * sc.unseen m + 4
  | .lastUsed sc _ _ _ => 2 * sc.unseen m + 5
  | .take pc => pc.weight

def DropPc.weight : DropPc → Nat
  | .touch => 4
  | .store _ => 3
  | .fetchSub => 2

/-- The steps that are left, where `n` databases may be open, the registry is `m`, and
`rounds` rounds come after this one. -/
def AcquirePc.weight (n : Nat) (m : Map String EntryId) (rounds : Nat) : AcquirePc → Nat
  | .get => rounds * roundCost n + roundCost n + 12
  | .lock => rounds * roundCost n + roundCost n + 11
  | .recheck => rounds * roundCost n + roundCost n + 10
  | .len attempts => rounds * roundCost n + (MAX_ATTEMPTS + 1 - attempts) * evictCost n + 19
  | .evict attempts pc =>
    rounds * roundCost n + (MAX_ATTEMPTS + 1 - attempts) * evictCost n + 19 + pc.weight m
  | .create => rounds * roundCost n + 18
  | .insert _ => rounds * roundCost n + 17
  | .unlock _ => rounds * roundCost n + 16
  | .lease _ .load => rounds * roundCost n + 15
  | .lease _ (.compareExchange _) => rounds * roundCost n + 14
  | .yield => rounds * roundCost n + 13
  | .tenantSlot _ => 11
  | .processSlot _ => 10
  | .ensureOpen _ => 9
  | .openPools _ => 8
  | .touch _ => 7
  | .removeIf _ | .store _ _ => 6
  | .leased _ => 5
  | .drop _ _ _ pc => pc.weight
  | .slots _ _ => 1
  | .done _ => 0

/-- The rounds that come after the round of a call. -/
def Call.rounds (call : Call) : Nat := MAX_ATTEMPTS - call.attempt - 1

/-- What is left of task `i`: before it starts, a whole call. -/
def State.callWeight (settings : DatabaseSettings) (s : State) (i : Nat) : Nat :=
  match s.tasks[i]? with
  | none => callBound settings.maxOpenDatabases
  | some (.acquire call pc) =>
    pc.weight settings.maxOpenDatabases s.shared.entries call.rounds
  | some _ => 0

/-! ## What is counted -/

/-- The step of the task, a call of `acquire`, counts: it is no exchange that fails. -/
def Task.pays (σ : Shared) (choice : Choice) : Task → Bool
  | .acquire _ (.lease e (.compareExchange current)) =>
    decide (choice = .go ∧ (σ.heap e).activeLeases = current.1)
  | .acquire _ _ => true
  | _ => false

/-- The step is one of task `i`, and it counts. -/
def State.pays (i : Nat) (s : State) : Action → Bool
  | .step j choice => decide (j = i) && s.tasks[i]?.any (Task.pays s.shared choice)
  | .cancel j => decide (j = i) && s.tasks[i]?.any (Task.pays s.shared .fail)
  | .start _ | .clock _ => false

/-- The manager, and the number of steps of task `i` that count. -/
def callSteps (settings : DatabaseSettings) (i : Nat) : StepSystem (State × Nat) Action :=
  (manager settings).counted (State.pays i)

/-! ## A step of the call -/

theorem TakeBranch.weight {σ σ' : Shared} {pc pc' : TakePc}
    (h : TakeBranch σ pc (σ', .next pc')) : pc'.weight < pc.weight := by
  cases h <;> simp [TakePc.weight]

theorem DropBranch.weight {σ σ' : Shared} {e : EntryId} {pc pc' : DropPc}
    (h : DropBranch σ e pc (σ', some pc')) : pc'.weight < pc.weight := by
  cases h <;> simp [DropPc.weight]

theorem TakePc.weight_pos (pc : TakePc) : 0 < pc.weight := by
  cases pc <;> exact Nat.zero_lt_succ _

theorem DropPc.weight_pos (pc : DropPc) : 1 < pc.weight := by
  cases pc <;> simp [DropPc.weight]

theorem EvictPc.weight_pos (m : Map String EntryId) (pc : EvictPc) : 0 < pc.weight m := by
  cases pc with
  | scan | lastUsed => exact Nat.zero_lt_succ _
  | take pc => exact pc.weight_pos

/-- A step of an eviction lowers its weight. -/
theorem EvictBranch.weight {σ σ' : Shared} {pc pc' : EvictPc} {choice : Choice}
    (h : EvictBranch σ pc choice (σ', .next pc')) :
    pc'.weight σ'.entries < pc.weight σ.entries := by
  cases h with
  | visitLeased hvisit | visitIdle hvisit =>
    have := Scan.unseen_visit hvisit
    simp only [EvictPc.weight]
    omega
  | oldest => simp only [EvictPc.weight, TakePc.weight]; omega
  | older | newer => simp [EvictPc.weight]
  | takeNext htake => exact htake.weight

/-- One more attempt to evict costs one eviction. -/
theorem evictCost_attempt (n : Nat) {attempts : Nat} (h : attempts + 1 ≤ MAX_ATTEMPTS) :
    (MAX_ATTEMPTS + 1 - attempts) * evictCost n =
      (MAX_ATTEMPTS + 1 - (attempts + 1)) * evictCost n + evictCost n := by
  have hsucc : MAX_ATTEMPTS + 1 - attempts = MAX_ATTEMPTS + 1 - (attempts + 1) + 1 := by omega
  rw [hsucc, Nat.succ_mul]

/-- A new round is one of those that were left. -/
theorem rounds_again {call : Call} (h : call.attempt + 1 < MAX_ATTEMPTS) :
    call.rounds = ({ call with attempt := call.attempt + 1 } : Call).rounds + 1 := by
  simp only [Call.rounds]
  omega

/-- `lease` goes on at an exchange. -/
theorem leaseStep_next {word : Nat} {pc pc' : LeasePc} {choice : Choice}
    (h : leaseStep word pc choice = some (.next pc')) :
    ∃ current, pc' = .compareExchange current := by
  have hloop {current : Nat} (h : leaseLoop current = .next pc') :
      ∃ current, pc' = .compareExchange current := by
    unfold leaseLoop at h
    split at h
    · simp at h
    · exact ⟨_, (LeaseStep.next.inj h).symm⟩
  unfold leaseStep at h
  split at h
  · exact hloop (Option.some.inj h)
  · split at h
    · simp at h
    · exact hloop (Option.some.inj h)
  · exact hloop (Option.some.inj h)
  · simp at h

/-- A step of `lease` that stays inside counts only if it is the first load. -/
theorem leaseStep_weight {σ : Shared} {call : Call} {e : EntryId} {pc pc' : LeasePc}
    {choice : Choice} (n : Nat) (m : Map String EntryId) (rounds : Nat)
    (h : leaseStep (σ.heap e).activeLeases pc choice = some (.next pc')) :
    (AcquirePc.lease e pc').weight n m rounds +
        (Task.pays σ choice (.acquire call (.lease e pc))).toNat ≤
      (AcquirePc.lease e pc).weight n m rounds := by
  obtain ⟨current', rfl⟩ := leaseStep_next h
  cases pc with
  | load => simp [AcquirePc.weight, Task.pays]
  | compareExchange current =>
    have hfailed : Task.pays σ choice (.acquire call (.lease e (.compareExchange current))) =
        false := by
      refine decide_eq_false ?_
      rintro ⟨rfl, hw⟩
      simp [leaseStep, hw] at h
    rw [hfailed]
    exact Nat.le_refl _

/-- A step of the call lowers the weight of its place, by one if it counts. -/
theorem AcquireBranch.weight {σ σ' : Shared} {call call' : Call} {pc pc' : AcquirePc}
    {choice : Choice} {spawned : Option EntryId}
    (h : AcquireBranch settings σ call pc choice (σ', call', pc', spawned)) {n : Nat}
    (hsize : size σ.entries ≤ n) :
    pc'.weight n σ'.entries call'.rounds + (Task.pays σ choice (.acquire call pc)).toNat ≤
      pc.weight n σ.entries call.rounds := by
  have hpays := Bool.toNat_le (Task.pays σ choice (.acquire call pc))
  cases h with
  | leaseNext hlease => exact leaseStep_weight n _ _ hlease
  | @lenFull attempts _ _ _ hattempts =>
    have hstart := Scan.unseen_start σ.entries
    have hcost := evictCost_attempt n hattempts
    simp only [AcquirePc.weight, EvictPc.weight, evictCost] at hpays hcost ⊢
    omega
  | recheckVacant =>
    simp only [AcquirePc.weight, roundCost, Nat.sub_zero] at hpays ⊢
    omega
  | evictNext hevict =>
    have := hevict.weight
    simp only [AcquirePc.weight] at hpays ⊢
    omega
  | evictNone hevict | evictSome hevict =>
    have := EvictPc.weight_pos σ.entries ‹EvictPc›
    simp only [AcquirePc.weight] at hpays ⊢
    omega
  | yieldAgain hattempt =>
    have hrounds := congrArg (· * roundCost n) (rounds_again hattempt)
    simp only [Nat.succ_mul] at hrounds
    simp only [AcquirePc.weight] at hpays ⊢
    omega
  | dropNext hdrop =>
    have := hdrop.weight
    simp only [AcquirePc.weight] at hpays ⊢
    omega
  | dropSlots | dropDone =>
    have := DropPc.weight_pos ‹DropPc›
    simp only [AcquirePc.weight] at hpays ⊢
    omega
  | @leaseRefused e pc | @leaseTaken e pc =>
    cases pc <;> (simp only [AcquirePc.weight] at hpays ⊢; omega)
  | _ =>
    simp only [AcquirePc.weight, DropPc.weight, roundCost] at hpays ⊢
    omega

theorem AcquireCancelBranch.weight {σ σ' : Shared} {pc pc' : AcquirePc}
    (h : AcquireCancelBranch σ pc (σ', pc')) (n rounds : Nat) :
    pc'.weight n σ'.entries rounds + 1 ≤ pc.weight n σ.entries rounds := by
  cases h <;> simp only [AcquirePc.weight, DropPc.weight] <;> omega

/-! ## A step of the system -/

variable {s s' : State} {a : Action}

/-- A scan has no more to yield while the registry loses entries. -/
theorem AcquirePc.weight_mono {pc : AcquirePc} {m m' : Map String EntryId} (n rounds : Nat)
    (h : ∀ attempts pc', pc = .evict attempts pc' →
      ∀ name e, m'.lookup name = some e → m.lookup name = some e) :
    pc.weight n m' rounds ≤ pc.weight n m rounds := by
  cases pc with
  | evict attempts pc =>
    have hunseen (sc : Scan String EntryId) : sc.unseen m' ≤ sc.unseen m :=
      Scan.unseen_mono (h attempts pc rfl)
    cases pc with
    | scan sc _ | lastUsed sc _ _ _ =>
      have := hunseen sc
      simp only [AcquirePc.weight, EvictPc.weight]
      omega
    | take => exact Nat.le_refl _
  | lease e pc => cases pc <;> exact Nat.le_refl _
  | _ => exact Nat.le_refl _

/-- A task that has just started has a whole call before it, or is no call. -/
theorem callWeight_new {i : Nat} {t : Task} (hi : s.tasks[i]? = some t)
    (hnew : (∃ operation : Operation, t = operation.task) ∨ ∃ e, t = .closeEntry e (some .start)) :
    s.callWeight settings i ≤ callBound settings.maxOpenDatabases := by
  simp only [State.callWeight, hi]
  rcases hnew with ⟨operation, rfl⟩ | ⟨e, rfl⟩
  · cases operation with
    | acquire name =>
      simp only [Operation.task]
      cases validateDatabaseName name with
      | error error => exact Nat.zero_le _
      | ok =>
        simp only [AcquirePc.weight, Call.rounds, callBound, Nat.sub_zero]
        have hsucc : MAX_ATTEMPTS = MAX_ATTEMPTS - 1 + 1 := rfl
        conv_rhs => rw [hsucc, Nat.succ_mul]
    | cleanupIdle | checkpointWal | closeAll => exact Nat.zero_le _
  · exact Nat.zero_le _

/-- A step of the system pays for itself. -/
theorem callWeight_step (hreach : (manager settings).Reachable s)
    (hstep : s.step settings a = some s') (i : Nat) :
    s'.callWeight settings i + (s.pays i a).toNat ≤ s.callWeight settings i := by
  cases hi : s.tasks[i]? with
  | none =>
    have hfree : s.pays i a = false := by
      cases a <;> simp [State.pays, hi]
    have hwhole : s.callWeight settings i = callBound settings.maxOpenDatabases := by
      simp only [State.callWeight, hi]
    rw [hfree, hwhole, Bool.toNat_false, Nat.add_zero]
    cases hi' : s'.tasks[i]? with
    | none => simp only [State.callWeight, hi', Nat.le_refl]
    | some u =>
      refine callWeight_new hi' ?_
      refine State.forall_step (P := fun _ _ => True) (Q := fun k u => s.tasks[k]? = none →
        (∃ operation : Operation, u = operation.task) ∨ ∃ e, u = .closeEntry e (some .start))
        hstep (fun _ _ _ => trivial) ?_ ?_ ?_ ?_ ?_ i u hi' hi
      · exact fun k t hk _ _ _ hnone => absurd (hk.symm.trans hnone) (by simp)
      · exact fun k _ t _ _ _ hk _ _ _ hnone => absurd (hk.symm.trans hnone) (by simp)
      · exact fun k t _ _ hk _ _ hnone => absurd (hk.symm.trans hnone) (by simp)
      · exact fun operation _ _ => Or.inl ⟨operation, rfl⟩
      · exact fun _ e _ => Or.inr ⟨e, rfl⟩
  | some t =>
    rcases State.step_task hstep hi with ⟨⟨hother, hcancel⟩, hi'⟩ |
      ⟨choice, σ', t', spawned, rfl, htask, rfl⟩ | ⟨σ', t', rfl, htask, rfl⟩
    · have hfree : s.pays i a = false := by
        cases a with
        | step j choice =>
          have hj : j ≠ i := fun hji => hother choice (hji ▸ rfl)
          simp [State.pays, hj]
        | cancel j =>
          have hj : j ≠ i := fun hji => hcancel (hji ▸ rfl)
          simp [State.pays, hj]
        | start | clock => rfl
      rw [hfree, Bool.toNat_false, Nat.add_zero]
      cases t with
      | acquire call pc =>
        simp only [State.callWeight, hi, hi']
        refine AcquirePc.weight_mono _ _ fun attempts pc' hpc name e hl => ?_
        -- Only the owner of the guard inserts, and that is task `i`.
        subst hpc
        exact State.step_unbound hstep
          (fun n j hev => hother .go (insert_alone hreach hi rfl hev)) hl
      | cleanupIdle | checkpointWal | closeEntry | closeAll =>
        simp only [State.callWeight, hi, hi', Nat.le_refl]
    · have hi' : (update s.tasks i t' spawned)[i]? = some t' := getElem?_update_self hi
      have hpays : s.pays i (.step i choice) = t.pays s.shared choice := by
        simp [State.pays, hi]
      rw [hpays]
      simp only [State.callWeight, hi, hi']
      cases Task.step_branch htask with
      | acquire hbranch => exact hbranch.weight (size_le hreach)
      | cleanupIdle | checkpointWal | closeEntry | closeAll => exact Nat.le_refl _
    · have hi' : (update s.tasks i t' [])[i]? = some t' := getElem?_update_self hi
      have hpays : s.pays i (.cancel i) = t.pays s.shared .fail := by
        simp [State.pays, hi]
      rw [hpays]
      simp only [State.callWeight, hi, hi']
      cases Task.cancel_branch htask with
      | acquire hbranch =>
        exact Nat.le_trans (Nat.add_le_add_left (Bool.toNat_le _) _) (hbranch.weight _ _)
      | cleanupIdle | checkpointWal => exact Nat.le_refl _

/-! ## The law -/

/-- In every run, however the other tasks move, a call of `acquire` does at most
`callBound` steps that count, those of its caller until the lease is dropped among
them.  What does not count is an exchange of `lease` that fails. -/
theorem acquire_bounded {i n : Nat} (h : (callSteps settings i).Reachable (s, n)) :
    n + s.callWeight settings i ≤
      MAX_ATTEMPTS * ((MAX_ATTEMPTS + 1) * (2 * settings.maxOpenDatabases + 6) + 10) + 12 :=
  StepSystem.counted_le (φ := fun s => s.callWeight settings i)
    (fun _ _ _ hreach hstep => callWeight_step hreach hstep i) h

/-- A call that evicts, from its start to the end of its lease. -/
def evictingCall : List Action :=
  coldAcquire 0 "a" 0 ++ dropLease 0 ++ evictFor 1 "b" "a" ++ .step 1 .go :: .step 1 (.count 0) ::
    goes 1 11 ++ dropLease 1

/-- It takes 27 of the 2348 steps that it may take. -/
theorem acquire_bounded_evicting :
    ((callSteps oneDatabase 1).play (fun _ _ => true) evictingCall).2 = 27 ∧
      ((callSteps oneDatabase 1).play (fun _ _ => true) evictingCall).2 ≤ 2348 := by
  have hreach : (callSteps oneDatabase 1).Reachable
      ((callSteps oneDatabase 1).play (fun _ _ => true) evictingCall) :=
    StepSystem.reachable_play (fun _ _ _ => trivial) evictingCall
  exact ⟨by decide, Nat.le_trans (Nat.le_add_right _ _) (acquire_bounded hreach)⟩

end Tinkiva.Manager
