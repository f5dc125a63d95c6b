import Tinkiva.Manager.Capacity
import Tinkiva.Manager.Idle
import Tinkiva.Manager.Steps

/-!
# The lifecycle counters

`databases_opened_total` counts the entries that `slot` inserts.  `evict_oldest_idle`
counts each entry that it takes, and `cleanup_idle` counts its entries at the end of the
round.  The `remove_if` of a failed open counts nothing.

A passive audit beside the manager notes what the counters miss: the entries that a
failed open unlinks, the entries of a round of `cleanup_idle` that is aborted, and the
takes that find their name unbound at the `remove`, which are counted and unlink nothing.
`TaskBranch.balance` is the balance of one step, and `reachable_accounts` the law of every
run: with the audit and the entries that a running round has in hand, the counters
account for every entry.

So the counters and the gauge agree exactly if the notes balance.  Without failed opens
and aborted rounds there are none: a `take` finds its entry linked at its `remove`
(`reachable_bound`).
-/

namespace Tinkiva.Manager

open Tinkiva.Config Tinkiva.Protocol ConcurrentMap TokenPool TaskPool Token

variable {settings : DatabaseSettings} {s s' : State}

/-! ## What the counters miss -/

/-- The entries that are counted as closed, and those that are linked. -/
def Shared.accounted (σ : Shared) : Nat :=
  σ.metrics.databasesEvicted + σ.metrics.databasesClosedIdle + size σ.entries

/-- The entries that a round of `cleanup_idle` has taken and not recorded yet. -/
def Task.unrecorded : Task → Nat
  | .cleanupIdle (.take _ _ closed) => closed
  | .cleanupIdle (.close _ _ _ closed) => closed + 1
  | .cleanupIdle (.record closed) => closed
  | _ => 0

/-- The next step of `take` is a `remove` that finds the name unbound. -/
def TakePc.misses (σ : Shared) : TakePc → Nat
  | .remove name _ => if σ.entries.lookup name = none then 1 else 0
  | .get _ | .beginClose _ _ => 0

/-- The same for a task. -/
def Task.misses (σ : Shared) (t : Task) : Nat :=
  match t.takePc with
  | some pc => pc.misses σ
  | none => 0

/-- The next step of the task is the `remove_if` of a failed open, and the entry is linked. -/
def Task.unlinks (σ : Shared) : Task → Nat
  | .acquire call (.removeIf e) => if σ.entries.lookup call.name = some e then 1 else 0
  | _ => 0

/-- How often a failed open has unlinked its entry, how many entries the aborted rounds of
`cleanup_idle` had taken, and how many takes have unlinked nothing. -/
structure Audit where
  unlinked : Nat
  lost : Nat
  missed : Nat
  deriving DecidableEq, Repr

def Audit.note (audit : Audit) (s : State) : Action → Audit
  | .step i _ =>
    match s.tasks[i]? with
    | some t =>
      { audit with
        unlinked := audit.unlinked + t.unlinks s.shared
        missed := audit.missed + t.misses s.shared }
    | none => audit
  | .cancel i =>
    match s.tasks[i]? with
    | some t => { audit with lost := audit.lost + t.unrecorded }
    | none => audit
  | .start _ | .clock _ => audit

/-- The manager and its audit. -/
def audited (settings : DatabaseSettings) : StepSystem (State × Audit) Action :=
  (manager settings).observe ⟨0, 0, 0⟩ fun audit s a _ => audit.note s a

/-- A run of the audited manager is a run of the manager. -/
theorem of_audit (ok : State → Action → Prop) {p : State × Audit}
    (h : (audited settings).ReachableVia (fun q a => ok q.1 a) p) :
    (manager settings).ReachableVia ok p.1 :=
  StepSystem.ReachableVia.of_observe ok h

/-! ## The balance of a step -/

/-- What a step of `take` returns. -/
def TakeStep.taken : TakeStep → Nat
  | .returned (some _) => 1
  | .returned none | .next _ => 0

/-- `take` returns what it unlinks, or it misses. -/
theorem TakeBranch.balance {σ σ' : Shared} {pc : TakePc} {result : TakeStep}
    (h : TakeBranch σ pc (σ', result)) :
    σ'.metrics = σ.metrics ∧ σ'.accounted + result.taken = σ.accounted + pc.misses σ := by
  cases h with
  | vacant | found | leased | closed => exact ⟨rfl, rfl⟩
  | @remove name e =>
    refine ⟨rfl, ?_⟩
    simp only [Shared.accounted, TakeStep.taken, TakePc.misses]
    cases hl : σ.entries.lookup name with
    | none => rw [if_pos rfl, size_erase_of_unbound hl]
    | some j =>
      have hsize := size_erase_of_bound hl
      rw [if_neg (Option.some_ne_none j)]
      omega

theorem accounted_recordEviction (σ : Shared) : σ.recordEviction.accounted = σ.accounted + 1 := by
  simp only [Shared.accounted, Shared.recordEviction]
  omega

/-- An eviction counts what it takes. -/
theorem EvictBranch.balance {σ σ' : Shared} {pc : EvictPc} {choice : Choice} {result : EvictStep}
    (h : EvictBranch σ pc choice (σ', result)) (call : Call) (attempts : Nat) :
    σ'.metrics.databasesOpened = σ.metrics.databasesOpened ∧
      σ'.accounted = σ.accounted + (Task.acquire call (.evict attempts pc)).misses σ := by
  cases h with
  | visitLeased | visitIdle | noCandidate | oldest | older | newer => exact ⟨rfl, rfl⟩
  | takeNext htake | takeNone htake =>
    obtain ⟨hmetrics, haccounted⟩ := htake.balance
    exact ⟨congrArg Metrics.databasesOpened hmetrics, haccounted⟩
  | takeSome htake =>
    obtain ⟨hmetrics, haccounted⟩ := htake.balance
    have hopened : _ = σ.metrics.databasesOpened := congrArg Metrics.databasesOpened hmetrics
    rw [accounted_recordEviction]
    exact ⟨hopened, haccounted⟩

theorem DropBranch.metrics {σ σ' : Shared} {e : EntryId} {pc : DropPc} {pc' : Option DropPc}
    (h : DropBranch σ e pc (σ', pc')) : σ'.metrics = σ.metrics := by
  cases h <;> rfl

theorem CloseBranch.metrics {σ σ' : Shared} {e : EntryId} {pc : ClosePc} {pc' : Option ClosePc}
    (h : CloseBranch σ e pc (σ', pc')) : σ'.metrics = σ.metrics := by
  cases h <;> rfl

/-- The balance of a step.  What it opens is linked, what it unlinks is counted or in hand, and
the rest is for the audit. -/
def StepBalance (σ σ' : Shared) (t t' : Task) : Prop :=
  σ'.metrics.databasesOpened + σ.accounted + t.unrecorded + t.misses σ =
    σ.metrics.databasesOpened + σ'.accounted + t'.unrecorded + t.unlinks σ

/-- A step that leaves the metrics and the bindings. -/
theorem StepBalance.of_kept {σ σ' : Shared} {t t' : Task} (hmetrics : σ'.metrics = σ.metrics)
    (hmap : σ'.entries = σ.entries) (hunrecorded : t.unrecorded = t'.unrecorded)
    (hmisses : t.misses σ = t.unlinks σ) : StepBalance σ σ' t t' := by
  rw [StepBalance, Shared.accounted, Shared.accounted, hmetrics, hmap, hunrecorded, hmisses]

theorem AcquireBranch.balance {σ σ' : Shared} {call call' : Call} {pc pc' : AcquirePc}
    {choice : Choice} {spawned : Option EntryId}
    (h : AcquireBranch settings σ call pc choice (σ', call', pc', spawned))
    (hroom : ∀ name e, (Task.acquire call pc).event σ choice = some (.insert name e) →
      σ.entries.lookup name = none) :
    StepBalance σ σ' (.acquire call pc) (.acquire call' pc') := by
  cases h with
  | @evictNext attempts _ _ _ _ hevict | @evictNone attempts _ _ _ hevict
  | @evictSome attempts _ _ _ _ hevict =>
    obtain ⟨hopened, haccounted⟩ := hevict.balance call attempts
    simp only [StepBalance, hopened, haccounted, Task.unrecorded, Task.unlinks]
    omega
  | insert =>
    have hsize := size_insert (v := σ.created) (hroom call.name σ.created rfl)
    simp only [StepBalance, Shared.accounted, Shared.recordOpen, Shared.insertNew,
      DatabaseEntry.new, Task.unrecorded, Task.misses, Task.takePc, Task.unlinks, hsize]
    omega
  | @removeIf e =>
    simp only [StepBalance, Shared.accounted, Task.unrecorded, Task.misses, Task.takePc,
      Task.unlinks, eraseIf]
    split
    · rename_i hl
      have hsize := size_erase_of_bound hl
      omega
    · rfl
  | dropNext hdrop | dropSlots hdrop | dropDone hdrop =>
    exact .of_kept hdrop.metrics hdrop.map rfl rfl
  | _ => rfl

theorem unrecorded_next (closed : Nat) (rest : List String) :
    (Task.cleanupIdle (.next closed rest)).unrecorded = closed := by
  cases rest with
  | nil => rfl
  | cons name rest => rfl

/-- A round has in hand what its `take` returns. -/
theorem StepBalance.of_take {σ σ' : Shared} {pc : TakePc} {result : TakeStep} {rest : List String}
    {closed : Nat} {t' : Task} (htake : TakeBranch σ pc (σ', result))
    (hunrecorded : t'.unrecorded = closed + result.taken) :
    StepBalance σ σ' (.cleanupIdle (.take pc rest closed)) t' := by
  obtain ⟨hmetrics, haccounted⟩ := htake.balance
  show σ'.metrics.databasesOpened + σ.accounted + closed + pc.misses σ =
    σ.metrics.databasesOpened + σ'.accounted + t'.unrecorded
  rw [hmetrics, hunrecorded]
  omega

theorem CleanupBranch.balance {σ σ' : Shared} {pc pc' : CleanupPc} {choice : Choice}
    (h : CleanupBranch settings σ pc choice (σ', pc')) :
    StepBalance σ σ' (.cleanupIdle pc) (.cleanupIdle pc') := by
  cases h with
  | finish => exact .of_kept rfl rfl (unrecorded_next ..).symm rfl
  | takeNext htake => exact .of_take htake rfl
  | takeNone htake => exact .of_take htake (unrecorded_next ..)
  | takeSome htake => exact .of_take htake rfl
  | closeNext hclose => exact .of_kept hclose.metrics hclose.map rfl rfl
  | closeDone hclose => exact .of_kept hclose.metrics hclose.map (unrecorded_next ..).symm rfl
  | record =>
    simp only [StepBalance, Shared.accounted, Shared.recordIdleClose, Task.unrecorded, Task.misses,
      Task.takePc, Task.unlinks]
    omega
  | _ => rfl

theorem CheckpointBranch.balance {σ σ' : Shared} {pc pc' : CheckpointPc} {choice : Choice}
    (h : CheckpointBranch σ pc choice (σ', pc')) :
    StepBalance σ σ' (.checkpointWal pc) (.checkpointWal pc') := by
  cases h with
  | dropNext hdrop | dropDone hdrop | abortNext hdrop | abortDone hdrop =>
    exact .of_kept hdrop.metrics hdrop.map rfl rfl
  | _ => rfl

/-- The balance of a step of a task, before `close_all`. -/
theorem TaskBranch.balance {σ σ' : Shared} {t t' : Task} {choice : Choice} {spawned : List Task}
    (h : TaskBranch settings σ t choice (σ', t', spawned)) (hbefore : t.isCloseAll = false)
    (hroom : ∀ name e, t.event σ choice = some (.insert name e) → σ.entries.lookup name = none) :
    StepBalance σ σ' t t' ∧ tally Task.unrecorded spawned = 0 := by
  cases h with
  | acquire h =>
    refine ⟨h.balance hroom, tally_eq_zero ?_⟩
    intro u hu
    obtain ⟨e, _, rfl⟩ := List.mem_map.mp hu
    rfl
  | cleanupIdle h => exact ⟨h.balance, rfl⟩
  | checkpointWal h => exact ⟨h.balance, rfl⟩
  | closeEntry h => exact ⟨.of_kept h.metrics h.map rfl rfl, rfl⟩
  | closeAll h => exact absurd hbefore Bool.noConfusion

/-- Only the insertion of an entry counts it as opened. -/
theorem TaskBranch.opened {σ σ' : Shared} {t t' : Task} {choice : Choice} {spawned : List Task}
    (h : TaskBranch settings σ t choice (σ', t', spawned)) :
    σ'.metrics.databasesOpened = σ.metrics.databasesOpened ∨
      (∃ name e, t.event σ choice = some (.insert name e)) ∧
        σ'.metrics.databasesOpened = σ.metrics.databasesOpened + 1 := by
  cases h with
  | @acquire call _ _ _ _ _ _ h =>
    cases h with
    | @evictNext attempts _ _ _ _ hevict | @evictNone attempts _ _ _ hevict
    | @evictSome attempts _ _ _ _ hevict => exact Or.inl (hevict.balance call attempts).1
    | dropNext hdrop | dropSlots hdrop | dropDone hdrop =>
      exact Or.inl (congrArg Metrics.databasesOpened hdrop.metrics)
    | insert => exact Or.inr ⟨⟨call.name, σ.created, rfl⟩, rfl⟩
    | _ => exact Or.inl rfl
  | cleanupIdle h =>
    cases h with
    | takeNext htake | takeNone htake | takeSome htake =>
      exact Or.inl (congrArg Metrics.databasesOpened htake.balance.1)
    | closeNext hclose | closeDone hclose =>
      exact Or.inl (congrArg Metrics.databasesOpened hclose.metrics)
    | _ => exact Or.inl rfl
  | checkpointWal h =>
    cases h with
    | dropNext hdrop | dropDone hdrop | abortNext hdrop | abortDone hdrop =>
      exact Or.inl (congrArg Metrics.databasesOpened hdrop.metrics)
    | _ => exact Or.inl rfl
  | closeEntry h => exact Or.inl (congrArg Metrics.databasesOpened h.metrics)
  | closeAll h =>
    cases h with
    | closeNext hclose | closeDone hclose =>
      exact Or.inl (congrArg Metrics.databasesOpened hclose.metrics)
    | _ => exact Or.inl rfl

/-- A future that is dropped leaves the counters and the bindings.  A round of `cleanup_idle`
drops what it has in hand. -/
theorem TaskCancelBranch.balance {σ σ' : Shared} {t t' : Task}
    (h : TaskCancelBranch σ t (σ', t')) :
    σ'.metrics = σ.metrics ∧ σ'.entries = σ.entries ∧ t'.unrecorded = 0 := by
  cases h with
  | acquire h => cases h <;> exact ⟨rfl, rfl, rfl⟩
  | cleanupIdle | checkpointWal => exact ⟨rfl, rfl, rfl⟩

/-! ## The law -/

/-- The counters, the gauge, the rounds in progress and the audit account for every entry. -/
def State.Accounts (s : State) (audit : Audit) : Prop :=
  s.shared.metrics.databasesOpened + audit.missed =
    s.shared.accounted + tally Task.unrecorded s.tasks + audit.unlinked + audit.lost

theorem State.Accounts.step {audit : Audit} {a : Action} (h : s.Accounts audit)
    (hreach : (manager settings).Reachable s) (hbefore : s.BeforeCloseAll)
    (hstep : s.step settings a = some s') : s'.Accounts (audit.note s a) := by
  rcases State.step_cases hstep with ⟨operation, rfl, rfl⟩ |
    ⟨i, choice, t, σ', t', spawned, rfl, hi, ht, hadv⟩ | ⟨i, t, σ', t', rfl, hi, hcancel, hadv⟩ |
    ⟨nowMs, rfl, rfl⟩
  · have hnew : tally Task.unrecorded [operation.task] = 0 := by
      apply tally_eq_zero
      intro u hu
      obtain rfl := List.mem_singleton.mp hu
      cases operation with
      | acquire name =>
        rw [Operation.task]
        split <;> rfl
      | cleanupIdle | checkpointWal | closeAll => rfl
    rw [State.Accounts] at h ⊢
    rw [tally_append, hnew]
    exact h
  · obtain ⟨rfl, _⟩ := State.advance_eq_some hadv
    have hroom (name : String) (e : EntryId)
        (hev : t.event s.shared choice = some (.insert name e)) :
        s.shared.entries.lookup name = none :=
      (insert_room (a := .step i choice) hreach (by simpa [State.event, hi] using hev)).1
    obtain ⟨hbalance, hspawned⟩ :=
      (Task.step_branch ht).balance (hbefore t (List.mem_of_getElem? hi)) hroom
    have htally := tally_update Task.unrecorded t' spawned hi
    simp only [State.Accounts, Audit.note, hi] at h ⊢
    rw [StepBalance] at hbalance
    omega
  · obtain ⟨rfl, _⟩ := State.advance_eq_some hadv
    obtain ⟨hmetrics, hmap, hzero⟩ := (Task.cancel_branch hcancel).balance
    have htally := tally_update Task.unrecorded t' [] hi
    rw [tally_nil, hzero] at htally
    simp only [State.Accounts, Audit.note, hi, Shared.accounted, hmetrics, hmap] at h ⊢
    omega
  · exact h

/-- The law of every run before `close_all`. -/
theorem reachable_accounts {audit : Audit}
    (h : (audited settings).ReachableVia (fun _ a => a.beforeCloseAll) (s, audit)) :
    s.Accounts audit := by
  refine h.invariant (I := fun p => p.1.Accounts p.2) rfl ?_
  intro p a p' hr haccounts _ hstep
  obtain ⟨hs, haudit⟩ := StepSystem.observe_step.mp hstep
  have hvia := of_audit (fun _ a => a.beforeCloseAll) hr
  rw [haudit]
  exact haccounts.step hvia.reachable (reachable_beforeCloseAll (fun _ _ => id) hvia) hs

/-! ## The runs that count every entry -/

/-- An event of a run that counts every entry: a failed open does not unlink its entry, and
the openings fit the counter. -/
def Event.counted (s : State) : Option Event → Prop
  | some (.unlinkFailed name e) => s.shared.entries.lookup name ≠ some e
  | some (.insert _ _) => s.shared.metrics.databasesOpened + 1 < 2 ^ 64
  | some (.openPools _) | some (.closeEntry _) | none => True

instance (s : State) : DecidablePred (Event.counted s)
  | some (.unlinkFailed name e) =>
    inferInstanceAs (Decidable (s.shared.entries.lookup name ≠ some e))
  | some (.insert _ _) =>
    inferInstanceAs (Decidable (s.shared.metrics.databasesOpened + 1 < 2 ^ 64))
  | some (.openPools _) | some (.closeEntry _) | none => isTrue trivial

/-- A round of `cleanup_idle` is not aborted with entries in hand. -/
def State.keepsRound (s : State) : Action → Prop
  | .cancel i => ∀ t ∈ s.tasks[i]?, t.unrecorded = 0
  | .start _ | .step _ _ | .clock _ => True

instance (s : State) (a : Action) : Decidable (s.keepsRound a) :=
  match a with
  | .cancel i => inferInstanceAs (Decidable (∀ t ∈ s.tasks[i]?, t.unrecorded = 0))
  | .start _ | .step _ _ | .clock _ => isTrue trivial

/-- A step before `close_all` of a run that counts every entry. -/
def countedStep (s : State) (a : Action) : Prop :=
  a.beforeCloseAll ∧ Event.counted s (s.event a) ∧ s.keepsRound a

instance (s : State) (a : Action) : Decidable (countedStep s a) :=
  inferInstanceAs (Decidable (_ ∧ _ ∧ _))

/-! ### A `take` finds its entry linked -/

theorem Task.mem_of_removing {t : Task} {name : String} {e : EntryId}
    (h : t.removing = some (name, e)) : Token.removing name e ∈ t.tokens := by
  rcases Task.of_takePc (Task.takePc_of_removing h) with ⟨call, attempts, rfl⟩ |
    ⟨rest, closed, rfl⟩
  · simp [Task.tokens, AcquirePc.tokens, EvictPc.tokens, TakePc.tokens]
  · simp [Task.tokens, CleanupPc.tokens, TakePc.tokens]

/-- The entry of a `take` before its `remove` is closed, and no other task is before the
`remove` of it. -/
theorem removing_closed (h : (manager settings).ReachableVia (fun _ a => a.beforeCloseAll) s)
    {i : Nat} {t : Task} {name : String} {e : EntryId} (hi : s.tasks[i]? = some t)
    (hremoving : t.removing = some (name, e)) :
    (s.shared.heap e).activeLeases = CLOSED ∧
      ∀ (j : Nat) (u : Task) (n : String), s.tasks[j]? = some u → u.removing = some (n, e) →
        j = i := by
  obtain ⟨starts, hmon⟩ := exists_monitor h
  obtain ⟨_, hord⟩ := reachable_orderly hmon
  have hmem := (mem_config s starts).mpr
    ⟨t, List.mem_of_getElem? hi, Task.mem_of_removing hremoving⟩
  have hclosed := hord.closed_of_closes hmem (e := e) (by simp [closes])
  refine ⟨hclosed, ?_⟩
  intro j u n hj hu
  have hone : s.tasks.countP (fun t => t.removing.any fun p => p.2 == e) ≤ 1 := by
    have hstarts : starts e + count (closes e) (s.config starts).pool = 1 :=
      (hord.starts e).trans (if_pos hclosed)
    have hle : s.tasks.countP (fun t => t.removing.any fun p => p.2 == e) ≤
        count (closes e) (s.config starts).pool := by
      rw [countP_eq_tally, State.config, count_tally]
      apply tally_mono
      intro v _
      cases hany : v.removing.any fun p => p.2 == e with
      | false => exact Nat.zero_le _
      | true =>
        obtain ⟨⟨m, k⟩, hv, hk⟩ := Option.any_eq_true _ _ |>.mp hany
        obtain rfl : k = e := eq_of_beq hk
        exact count_pos_of_mem (Task.mem_of_removing hv) (by simp [closes])
    omega
  exact index_unique hone hj hi (by simp [hu]) (by simp [hremoving])

/-- A task before the `remove` of `take` has its entry linked.  One before the `begin_close` has
its entry linked or closed. -/
structure Task.Bound (σ : Shared) (t : Task) : Prop where
  removing : ∀ name e, t.removing = some (name, e) → σ.entries.lookup name = some e
  taking : ∀ name e, t.taking = some (name, e) →
    σ.entries.lookup name = some e ∨ (σ.heap e).activeLeases = CLOSED

/-- A binding stays, unless the step is the `remove` of a `take` of the entry. -/
theorem State.bound_step {a : Action} (hreach : (manager settings).ReachableVia countedStep s)
    (hbound : ∀ (i : Nat) (t : Task), s.tasks[i]? = some t → t.Bound s.shared)
    (hstep : s.step settings a = some s') (hok : countedStep s a) {name : String} {e : EntryId}
    (hl : s.shared.entries.lookup name = some e) :
    s'.shared.entries.lookup name = some e ∨
      ∃ i choice t, a = .step i choice ∧ s.tasks[i]? = some t ∧ t.removing = some (name, e) := by
  rcases State.step_map hstep with hmap | ⟨i, choice, t, rfl, hi, hmap⟩
  · left
    rwa [hmap]
  · cases hmap with
    | kept hmap =>
      left
      rwa [hmap]
    | inserted n hev hmap =>
      left
      have hroom := (insert_room (a := .step i choice) hreach.reachable
        (by simpa [State.event, hi] using hev)).1
      rw [hmap, lookup_insert_of, if_neg]
      · exact hl
      · rintro rfl
        exact absurd (hroom.symm.trans hl) (by simp)
    | removed n j hremoving hmap =>
      by_cases hn : name = n
      · subst hn
        have hlj := (hbound i t hi).removing name j hremoving
        obtain rfl : e = j := Option.some.inj (hl.symm.trans hlj)
        exact Or.inr ⟨i, choice, t, rfl, hi, hremoving⟩
      · left
        rwa [hmap, lookup_erase_of, if_neg hn]
    | unlinked n j hev hmap =>
      left
      have hcounted := hok.2.1
      have hevent : s.event (.step i choice) = some (.unlinkFailed n j) := by
        simpa [State.event, hi] using hev
      rw [hevent] at hcounted
      rwa [hmap, eraseIf, if_neg hcounted]
    | cleared hcloseAll =>
      have hbefore := reachable_beforeCloseAll (fun _ _ h => h.1) hreach t (List.mem_of_getElem? hi)
      rw [hcloseAll] at hbefore
      simp [Task.isCloseAll] at hbefore

/-- In the runs that count every entry, every `take` finds its entry linked. -/
theorem reachable_bound (h : (manager settings).ReachableVia countedStep s) :
    ∀ (i : Nat) (t : Task), s.tasks[i]? = some t → t.Bound s.shared := by
  refine h.invariant
    (I := fun s => ∀ (i : Nat) (t : Task), s.tasks[i]? = some t → t.Bound s.shared) ?_ ?_
  · intro i t hi
    exact absurd hi (by simp [manager])
  · intro s a s' hr hbound hok hstep
    have hvia := hr.mono fun _ _ h => h.1
    refine State.forall_step hstep hbound ?_ ?_ ?_ ?_ ?_
    · intro i t hi _ hother hold
      constructor
      · intro name e hremoving
        rcases State.bound_step hr hbound hstep hok (hold.removing name e hremoving) with
          hl | ⟨j, choice, u, rfl, hj, hu⟩
        · exact hl
        · obtain rfl := (removing_closed hvia hi hremoving).2 j u name hj hu
          exact absurd rfl (hother choice)
      · intro name e htaking
        rcases hold.taking name e htaking with hl | hclosed
        · rcases State.bound_step hr hbound hstep hok hl with hl | ⟨j, _, u, _, hj, hu⟩
          · exact Or.inl hl
          · right
            exact closed_step hr.reachable hstep (removing_closed hvia hj hu).1
        · exact Or.inr (closed_step hr.reachable hstep hclosed)
    · intro i choice t t' spawned _ _ _ hbranch hold
      constructor
      · intro name e hremoving
        obtain ⟨htaking, _, hword, hσ⟩ := hbranch.removing hremoving
        rcases hold.taking name e htaking with hl | hclosed
        · rw [hσ]
          exact hl
        · exact absurd (hword.symm.trans hclosed) (by decide)
      · intro name e htaking
        obtain ⟨_, hσ, hl⟩ := hbranch.taking htaking
        rw [hσ]
        exact Or.inl hl
    · intro i t t' _ _ hbranch _
      constructor
      · intro name e hremoving
        exact absurd hremoving (by simp [Task.removing, hbranch.takePc])
      · intro name e htaking
        exact absurd htaking (by simp [Task.taking, hbranch.takePc])
    · intro operation _
      constructor
      · intro name e hremoving
        exact absurd hremoving (by simp [Task.removing, operation.task_idle.2.2])
      · intro name e htaking
        exact absurd htaking (by simp [Task.taking, operation.task_idle.2.2])
    · intro i e
      constructor
      · intro name j hremoving
        exact absurd hremoving (by simp [Task.removing, Task.takePc])
      · intro name j htaking
        exact absurd htaking (by simp [Task.taking, Task.takePc])

/-! ### Nothing to note -/

/-- A task that has its entry linked does not miss it. -/
theorem Task.Bound.misses_eq {σ : Shared} {t : Task} (h : t.Bound σ) : t.misses σ = 0 := by
  unfold Task.misses
  cases hpc : t.takePc with
  | none => rfl
  | some pc =>
    cases pc with
    | get name => rfl
    | beginClose name e => rfl
    | remove name e =>
      have hl := h.removing name e (by simp [Task.removing, hpc])
      simp [TakePc.misses, hl]

/-- A step of a run that counts every entry notes nothing. -/
theorem Audit.note_eq {audit : Audit} {a : Action}
    (hbound : ∀ (i : Nat) (t : Task), s.tasks[i]? = some t → t.Bound s.shared)
    (hstep : s.step settings a = some s') (hok : countedStep s a) : audit.note s a = audit := by
  rcases State.step_cases hstep with ⟨operation, rfl, rfl⟩ |
    ⟨i, choice, t, σ', t', spawned, rfl, hi, ht, _⟩ | ⟨i, t, σ', t', rfl, hi, hcancel, _⟩ |
    ⟨nowMs, rfl, rfl⟩
  · rfl
  · have hmisses : t.misses s.shared = 0 := (hbound i t hi).misses_eq
    have hunlinks : t.unlinks s.shared = 0 := by
      unfold Task.unlinks
      split
      · rename_i call e
        cases Task.step_branch ht with
        | acquire h =>
          cases h with
          | removeIf =>
            have hcounted := hok.2.1
            have hev : s.event (.step i .go) = some (.unlinkFailed call.name e) := by
              simp [State.event, hi, Task.event]
            rw [hev] at hcounted
            exact if_neg hcounted
      · rfl
    simp [Audit.note, hi, hmisses, hunlinks]
  · have hround : t.unrecorded = 0 := hok.2.2 t hi
    simp [Audit.note, hi, hround]
  · rfl

/-- The openings of these runs fit the counter. -/
theorem opened_step {a : Action} (h : s.shared.metrics.databasesOpened < 2 ^ 64)
    (hstep : s.step settings a = some s') (hok : countedStep s a) :
    s'.shared.metrics.databasesOpened < 2 ^ 64 := by
  rcases State.step_cases hstep with ⟨operation, rfl, rfl⟩ |
    ⟨i, choice, t, σ', t', spawned, rfl, hi, ht, hadv⟩ | ⟨i, t, σ', t', rfl, hi, hcancel, hadv⟩ |
    ⟨nowMs, rfl, rfl⟩
  · exact h
  · obtain ⟨rfl, _⟩ := State.advance_eq_some hadv
    rcases (Task.step_branch ht).opened with hsame | ⟨⟨name, e, hev⟩, hmore⟩
    · rwa [← hsame] at h
    · have hcounted := hok.2.1
      have hevent : s.event (.step i choice) = some (.insert name e) := by
        simpa [State.event, hi] using hev
      rw [hevent] at hcounted
      rw [hmore]
      exact hcounted
  · obtain ⟨rfl, _⟩ := State.advance_eq_some hadv
    rwa [← (Task.cancel_branch hcancel).balance.1] at h
  · exact h

/-- The audit of a run that counts every entry is empty, and the openings fit the counter. -/
theorem reachable_even (h : (manager settings).ReachableVia countedStep s) :
    s.Accounts ⟨0, 0, 0⟩ ∧ s.shared.metrics.databasesOpened < 2 ^ 64 := by
  refine h.invariant (I := fun s => s.Accounts ⟨0, 0, 0⟩ ∧
    s.shared.metrics.databasesOpened < 2 ^ 64) ⟨rfl, Nat.two_pow_pos 64⟩ ?_
  intro s a s' hr hI hok hstep
  have hbefore := reachable_beforeCloseAll (fun _ _ h => h.1) hr
  have hnext := hI.1.step hr.reachable hbefore hstep
  rw [Audit.note_eq (reachable_bound hr) hstep hok] at hnext
  exact ⟨hnext, opened_step hI.2 hstep hok⟩

/-! ## The counters and the gauge -/

/-- An operation is in progress.  A caller that holds its lease has its `acquire` behind it. -/
def Task.inProgress : Task → Bool
  | .acquire _ (.leased _) | .acquire _ (.done _) => false
  | .cleanupIdle (.done _) | .checkpointWal (.done _) => false
  | .closeEntry _ none | .closeAll .done => false
  | _ => true

/-- No operation is in progress. -/
def State.Quiet (s : State) : Prop := ∀ t ∈ s.tasks, t.inProgress = false

instance (s : State) : Decidable s.Quiet :=
  inferInstanceAs (Decidable (∀ t ∈ s.tasks, t.inProgress = false))

/-- What a scrape reads of a counter that has been raised to `n`: `fetch_add` wraps. -/
def scraped (n : Nat) : Nat := n % 2 ^ 64

theorem scraped_of_lt {n : Nat} (h : n < 2 ^ 64) : scraped n = n := Nat.mod_eq_of_lt h

/-- `databases_opened_total` is the sum of `databases_evicted_total`,
`databases_closed_idle_total` and `open_databases`. -/
def State.Reconciled (s : State) : Prop :=
  scraped s.shared.metrics.databasesOpened =
    scraped s.shared.metrics.databasesEvicted + scraped s.shared.metrics.databasesClosedIdle +
      size s.shared.entries

instance (s : State) : Decidable s.Reconciled := inferInstanceAs (Decidable (_ = _))

/-- No lifecycle counter has wrapped. -/
structure State.Unwrapped (s : State) : Prop where
  opened : s.shared.metrics.databasesOpened < 2 ^ 64
  evicted : s.shared.metrics.databasesEvicted < 2 ^ 64
  closedIdle : s.shared.metrics.databasesClosedIdle < 2 ^ 64

/-- Without an operation in progress, no round has entries in hand. -/
theorem State.Quiet.tally_unrecorded (h : s.Quiet) : tally Task.unrecorded s.tasks = 0 := by
  apply tally_eq_zero
  intro t ht
  have hover := h t ht
  unfold Task.inProgress at hover
  split at hover
  · rfl
  · rfl
  · rfl
  · rfl
  · rfl
  · rfl
  · exact absurd hover (by simp)

/-- Before `close_all` and with no operation in progress, the lifecycle counters agree with the
gauge exactly if the notes balance.  They agree in the runs in which no failed open unlinks its
entry and no round of `cleanup_idle` is aborted with entries in hand. -/
theorem lifecycle_reconciled {audit : Audit}
    (h : (audited settings).ReachableVia (fun _ a => a.beforeCloseAll) (s, audit))
    (hquiet : s.Quiet) :
    (s.Unwrapped → (s.Reconciled ↔ audit.unlinked + audit.lost = audit.missed)) ∧
    ((manager settings).ReachableVia countedStep s → s.Reconciled) := by
  have hzero := hquiet.tally_unrecorded
  constructor
  · intro hunwrapped
    have haccounts := reachable_accounts h
    rw [State.Accounts, Shared.accounted, hzero] at haccounts
    rw [State.Reconciled, scraped_of_lt hunwrapped.opened, scraped_of_lt hunwrapped.evicted,
      scraped_of_lt hunwrapped.closedIdle]
    omega
  · intro hvia
    obtain ⟨haccounts, hfits⟩ := reachable_even hvia
    simp only [State.Accounts, Shared.accounted, hzero, Nat.add_zero] at haccounts
    have hevicted : s.shared.metrics.databasesEvicted < 2 ^ 64 := by omega
    have hclosedIdle : s.shared.metrics.databasesClosedIdle < 2 ^ 64 := by omega
    rw [State.Reconciled, scraped_of_lt hfits, scraped_of_lt hevicted, scraped_of_lt hclosedIdle]
    exact haccounts

/-- A database is opened, used and closed by a round of `cleanup_idle`. -/
def idleRound : List Action :=
  coldAcquire 0 "a" 0 ++ dropLease 0 ++ .clock 400000 :: .start .cleanupIdle ::
    cleanupRound 1 "a" 11

/-- The end of `idleRound`. -/
def afterRound : State × Audit :=
  (audited .default).play (fun q a => decide (countedStep q.1 a)) idleRound

theorem lifecycle_reconciled_idle :
    afterRound.1.Reconciled ∧ afterRound.1.shared.metrics.databasesClosedIdle = 1 := by
  have haudit : (audited .default).ReachableVia (fun q a => countedStep q.1 a) afterRound :=
    StepSystem.reachable_play (fun _ _ h => of_decide_eq_true h) idleRound
  have hbefore := haudit.mono fun _ _ h => h.1
  exact ⟨(lifecycle_reconciled hbefore (by decide)).2 (of_audit countedStep haudit), by decide⟩

/-- The open of a new database fails. -/
def failedOnce : List Action := admitted 0 "a" 0 ++ .step 0 .fail :: goes 0 5

/-- After a failed open, one database counts as opened, none as closed, and none is linked. -/
theorem lifecycle_not_reconciled :
    ¬∀ (settings : DatabaseSettings) (s : State),
      (manager settings).ReachableVia (fun _ a => a.beforeCloseAll) s → s.Quiet →
        s.Reconciled := by
  intro h
  have hreach : (manager .default).ReachableVia (fun _ a => a.beforeCloseAll)
      ((manager .default).play (fun _ a => decide a.beforeCloseAll) failedOnce) :=
    StepSystem.reachable_play (fun _ _ h => of_decide_eq_true h) failedOnce
  exact absurd (h .default _ hreach (by decide)) (by decide)

end Tinkiva.Manager
