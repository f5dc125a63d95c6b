import Tinkiva.Manager.Refinement

/-!
# Leases and closing

What the lease count of an entry keeps in every run.

* `lease_close_exclusion` is the law before `close_all`.  The word of an entry
  counts its lease holders or is `CLOSED` without any; `CLOSED` is final;
  `close_entry` is started at most once, never under a lease; and the pools of
  a leased entry are open.
* `no_name_poisoned` is the law of every run, with `close_all`.  No name is left
  with an entry that refuses every lease.
-/

namespace Tinkiva.Manager

open Tinkiva.Config Tinkiva.Protocol ConcurrentMap TokenPool TaskPool SentinelCounter Token

variable {settings : DatabaseSettings} {s s' : State} {starts : EntryId → Nat}

/-! ## The lease count -/

/-- The word of an entry is an honest account of its holders. -/
theorem counts_holders (h : (manager settings).Reachable s) (e : EntryId) :
    Counts CLOSED (s.shared.heap e).activeLeases (s.holders e) := by
  obtain ⟨starts, hmon⟩ := exists_monitor h
  rw [← leases_config s starts]
  exact (reachable_inv hmon).2.balanced e

/-- A step keeps `CLOSED`. -/
theorem closed_step {a : Action} (h : (manager settings).Reachable s)
    (hstep : s.step settings a = some s') {e : EntryId}
    (he : (s.shared.heap e).activeLeases = CLOSED) :
    (s'.shared.heap e).activeLeases = CLOSED := by
  obtain ⟨starts, hmon⟩ := exists_monitor h
  obtain ⟨hbound, hinv⟩ := reachable_inv hmon
  exact hinv.balanced.closed_stays hinv.sound
    (State.step_config starts hbound hstep (fun _ _ _ => True) fun _ _ => trivial) he

/-- A run keeps `CLOSED`. -/
theorem closed_run {ok : State → Action → Prop} (h : (manager settings).Reachable s)
    (hrun : (manager settings).RunFrom ok s s') {e : EntryId}
    (he : (s.shared.heap e).activeLeases = CLOSED) :
    (s'.shared.heap e).activeLeases = CLOSED :=
  hrun.invariant (I := fun s => (s.shared.heap e).activeLeases = CLOSED) he
    fun _ _ _ hr he _ hstep =>
      closed_step (h.trans (hr.mono fun _ _ _ => trivial)) hstep he

/-- Pools whose stage is ready are set, and neither pool is closed. -/
theorem OnceCell.value_of_ready {cell : OnceCell Pools} (h : cell.stage = .ready) :
    cell.value = some .fresh := by
  rcases cell with ⟨_ | ⟨⟨writer⟩, ⟨readers⟩⟩, initializing⟩
  · cases initializing <;> simp [OnceCell.stage] at h
  · cases writer <;> cases readers <;> simp [OnceCell.stage] at h
    rfl

/-- Before `close_all`, the task that starts `close_entry` has the duty to. -/
theorem Task.due_of_event {σ : Shared} {t : Task} {choice : Choice} {e : EntryId}
    (ht : t.isCloseAll = false) (h : t.event σ choice = some (.closeEntry e)) :
    Token.due e ∈ t.tokens := by
  unfold Task.event at h
  split at h
  case h_4 j pc _ _ | h_5 j pc =>
    cases pc <;> simp [ClosePc.event] at h
    subst h
    simp [Task.tokens, CleanupPc.tokens, ClosePc.tokens]
  case h_6 => simp [Task.isCloseAll] at ht
  all_goals simp at h

/-- The task that starts `open_pools` holds a lease. -/
theorem Task.lease_of_event {σ : Shared} {t : Task} {choice : Choice} {e : EntryId}
    (h : t.event σ choice = some (.openPools e)) : t.lease = some e := by
  unfold Task.event at h
  split at h
  case h_2 =>
    split at h
    · simp at h
    · obtain rfl := Event.openPools.inj (Option.some.inj h)
      rfl
  case h_4 j pc _ _ | h_5 j pc | h_6 j pc _ => cases pc <;> simp [ClosePc.event] at h
  all_goals simp at h

/-- Lease and close exclusion.  In every run before `close_all`, for every
entry:

* the word is `CLOSED` with no lease holder, or it is the number of holders, so
  the `fetch_sub` of a holder sees neither `0` nor `CLOSED`;
* `CLOSED` is final;
* `close_entry` is started at most once, and not while a holder exists, and
  `open_pools` is not started on a closed entry;
* the pools that a lease is used for are open, and their closing has not been
  started. -/
theorem lease_close_exclusion
    (h : (monitor settings).ReachableVia (fun _ a => a.beforeCloseAll) (s, starts)) :
    (∀ e, (s.shared.heap e).activeLeases = CLOSED ∧ s.holders e = 0 ∨
      (s.shared.heap e).activeLeases = s.holders e ∧ s.holders e < CLOSED) ∧
    (∀ t ∈ s.tasks, ∀ e, t.lease = some e →
      (s.shared.heap e).activeLeases ≠ 0 ∧ (s.shared.heap e).activeLeases ≠ CLOSED) ∧
    (∀ e s', (manager settings).RunFrom (fun _ a => a.beforeCloseAll) s s' →
      (s.shared.heap e).activeLeases = CLOSED → (s'.shared.heap e).activeLeases = CLOSED) ∧
    (∀ e, starts e ≤ 1) ∧
    (∀ e a, s.event a = some (.closeEntry e) → s.holders e = 0 ∧ starts e = 0) ∧
    (∀ e a, s.event a = some (.openPools e) → (s.shared.heap e).activeLeases ≠ CLOSED) ∧
    (∀ t ∈ s.tasks, ∀ e, t.usesPools = some e →
      (s.shared.heap e).pools.value = some .fresh ∧ starts e = 0) := by
  have hvia := of_monitor (fun _ a => a.beforeCloseAll) h
  have hreach : (manager settings).Reachable s := hvia.reachable
  obtain ⟨hinv, hord⟩ := reachable_orderly h
  have hcounts := counts_holders hreach
  have hheld {t : Task} (ht : t ∈ s.tasks) {e : EntryId} (hlease : t.lease = some e) :
      (s.shared.heap e).activeLeases ≠ 0 ∧ (s.shared.heap e).activeLeases ≠ CLOSED := by
    have hpos := holders_pos ht hlease
    obtain ⟨hw, hne⟩ := (hcounts e).of_pos hpos
    exact ⟨by omega, hne⟩
  refine ⟨fun e => Counts.iff.mp (hcounts e) |>.imp id id, fun t ht e => hheld ht,
    fun e s' hrun => closed_run hreach hrun, fun e => ?_, fun e a hev => ?_, fun e a hev => ?_,
    fun t ht e huses => ?_⟩
  · have := hord.starts e
    change starts e + _ = _ at this
    split at this <;> omega
  · obtain ⟨t, ht, choice, hev⟩ := State.exists_event hev
    have hdue := (mem_config s starts).mpr ⟨t, ht, Task.due_of_event
      (reachable_beforeCloseAll (fun _ _ => id) hvia t ht) hev⟩
    have hclosed := hord.closed_of_closes hdue (e := e) (by simp [closes])
    have hpos := count_pos_of_mem hdue (q := closes e) (by simp [closes])
    have hstarts : starts e + count (closes e) (s.config starts).pool = 1 :=
      (hord.starts e).trans (if_pos hclosed)
    exact ⟨(hcounts e).of_closed hclosed, by omega⟩
  · obtain ⟨t, ht, choice, hev⟩ := State.exists_event hev
    exact (hheld ht (Task.lease_of_event hev)).2
  · have hmem := (mem_config s starts).mpr ⟨t, ht, t.mem_of_usesPools huses⟩
    obtain ⟨hstage, hstarts⟩ := hord.ready_stage hinv hmem
    exact ⟨OnceCell.value_of_ready hstage, hstarts⟩

/-- A caller that has its lease uses open pools. -/
theorem lease_close_exclusion_leased :
    (∃ t ∈ ((monitor .default).play (fun _ a => decide a.beforeCloseAll)
        (coldAcquire 0 "a" 0)).1.tasks, t.usesPools = some 0) ∧
    (((monitor .default).play (fun _ a => decide a.beforeCloseAll)
        (coldAcquire 0 "a" 0)).1.shared.heap 0).pools.value = some .fresh := by
  have hleased : ∃ t ∈ ((monitor .default).play (fun _ a => decide a.beforeCloseAll)
      (coldAcquire 0 "a" 0)).1.tasks, t.usesPools = some 0 := by decide
  obtain ⟨t, ht, huses⟩ := hleased
  have hlaw := lease_close_exclusion (StepSystem.reachable_play
    (M := monitor .default) (fun _ _ h => of_decide_eq_true h) (coldAcquire 0 "a" 0))
  exact ⟨⟨t, ht, huses⟩, (hlaw.2.2.2.2.2.2 t ht 0 huses).1⟩

/-! ## No name is left with a closed entry -/

/-- In every run, an entry that is linked and `CLOSED` is about to be unlinked:
some task is in `take` on it, between its `begin_close` and its `remove`. -/
theorem exists_removing (h : (manager settings).Reachable s) {name : String} {e : EntryId}
    (hl : s.shared.entries.lookup name = some e)
    (hw : (s.shared.heap e).activeLeases = CLOSED) :
    ∃ t ∈ s.tasks, t.removing = some (name, e) := by
  obtain ⟨starts, hmon⟩ := exists_monitor h
  have hmem := (reachable_inv hmon).2.sealing.removing name e hl hw
  obtain ⟨t, ht, hx⟩ := (mem_config s starts).mp hmem
  exact ⟨t, ht, t.says_of_mem _ hx⟩

/-- An unlinked entry stays unlinked. -/
theorem unlinked_run {ok : State → Action → Prop} (h : (manager settings).Reachable s)
    (hrun : (manager settings).RunFrom ok s s') {e : EntryId} (he : e < s.shared.created)
    (hun : ¬ s.Linked e) : e < s'.shared.created ∧ ¬ s'.Linked e := by
  refine hrun.invariant (I := fun s => e < s.shared.created ∧ ¬ s.Linked e) ⟨he, hun⟩ ?_
  intro s₁ a s₂ hr hI _ hstep
  obtain ⟨starts, hmon⟩ := exists_monitor (h.trans (hr.mono fun _ _ _ => trivial))
  exact unlinked_stays (State.step_config starts (reachable_inv hmon).1 hstep
    (fun _ _ _ => True) fun _ _ => trivial) hI.1 hI.2

/-- Spurious failures of the exchange leave the caller at its exchange, with
the word as it is. -/
theorem retry_alone (settings : DatabaseSettings) {i : Nat} {call : Call} {e : EntryId} (k : Nat)
    (hbound : s.ArcsBounded) (hw : (s.shared.heap e).activeLeases ≠ CLOSED)
    (hi : s.tasks[i]? = some (.acquire call (.lease e (.compareExchange ⟨_, hw⟩)))) :
    ∃ s', (manager settings).run s (List.replicate k (.step i .fail)) = some s' ∧
      s'.shared = s.shared ∧ s'.tasks[i]? = s.tasks[i]? ∧ s'.ArcsBounded := by
  induction k generalizing s with
  | zero => exact ⟨s, rfl, rfl, rfl, hbound⟩
  | succ k ih =>
    have hstep : (Task.acquire call (.lease e (.compareExchange ⟨_, hw⟩))).step settings
        s.shared .fail =
          some (s.shared, .acquire call (.lease e (.compareExchange ⟨_, hw⟩)), []) := by
      simp [Task.step, acquireStep, leaseStep, leaseLoop, hw]
    obtain ⟨s₁, hs₁, hshared, htask, hbound₁⟩ := hbound.step_enabled hi hstep rfl
    have hw₁ : (s₁.shared.heap e).activeLeases ≠ CLOSED := by rwa [hshared]
    obtain ⟨s₂, hs₂, hshared₂, htask₂, hbound₂⟩ := ih hbound₁ hw₁ (by simp only [hshared, htask])
    refine ⟨s₂, ?_, hshared₂.trans hshared, htask₂.trans (htask.trans hi.symm), hbound₂⟩
    rw [List.replicate_succ, StepSystem.run]
    change (s.step settings (.step i .fail)).bind _ = _
    rw [hs₁]
    exact hs₂

/-- From the first load of `lease()` on, a caller that runs alone gets its lease
on an entry that is not closed, however often its exchange fails spuriously. -/
theorem lease_alone {i : Nat} {call : Call} {e : EntryId} (k : Nat) (hbound : s.ArcsBounded)
    (hi : s.tasks[i]? = some (.acquire call (.lease e .load)))
    (hw : (s.shared.heap e).activeLeases ≠ CLOSED) :
    ∃ s', (manager settings).run s
        (.step i .go :: List.replicate k (.step i .fail) ++ [.step i .go]) = some s' ∧
      s'.tasks[i]? = some (.acquire call (.tenantSlot e)) := by
  have hload : (Task.acquire call (.lease e .load)).step settings s.shared .go =
      some (s.shared, .acquire call (.lease e (.compareExchange ⟨_, hw⟩)), []) := by
    simp [Task.step, acquireStep, leaseStep, leaseLoop, hw]
  obtain ⟨s₁, hs₁, hshared₁, htask₁, hbound₁⟩ := hbound.step_enabled hi hload rfl
  have hw₁ : (s₁.shared.heap e).activeLeases ≠ CLOSED := by rwa [hshared₁]
  have hi₁ : s₁.tasks[i]? =
      some (.acquire call (.lease e (.compareExchange ⟨_, hw₁⟩))) := by
    simp only [hshared₁, htask₁]
  obtain ⟨s₂, hs₂, hshared₂, htask₂, hbound₂⟩ := retry_alone settings k hbound₁ hw₁ hi₁
  have hexchange : (Task.acquire call (.lease e (.compareExchange ⟨_, hw₁⟩))).step settings
      s₂.shared .go =
        some (s₂.shared.setLeases e ((s₁.shared.heap e).activeLeases + 1),
          .acquire call (.tenantSlot e), []) := by
    simp [Task.step, acquireStep, leaseStep, hshared₂]
  obtain ⟨s₃, hs₃, _, htask₃, _⟩ := hbound₂.step_enabled (htask₂.trans hi₁) hexchange rfl
  refine ⟨s₃, ?_, htask₃⟩
  rw [List.cons_append, StepSystem.run]
  change (s.step settings (.step i .go)).bind _ = _
  rw [hs₁, Option.bind_some, StepSystem.run_append, hs₂, Option.bind_some]
  change (s₂.step settings (.step i .go)).bind _ = _
  rw [hs₃]
  rfl

/-- No name is poisoned by a closed entry, in any run, with failed opens,
cancelled callers and `close_all`:

* an entry that is linked and `CLOSED` is about to be unlinked by a task in
  `take`;
* an unlinked entry is never linked again;
* where no task is in `take`, a caller whose first lookup finds an entry for its
  name, and that runs alone after it, gets a lease on that entry. -/
theorem no_name_poisoned (h : (manager settings).Reachable s) :
    (∀ name e, s.shared.entries.lookup name = some e →
      (s.shared.heap e).activeLeases = CLOSED → ∃ t ∈ s.tasks, t.removing = some (name, e)) ∧
    (∀ e s', e < s.shared.created → ¬ s.Linked e →
      (manager settings).RunFrom (fun _ _ => True) s s' → ¬ s'.Linked e) ∧
    ((∀ t ∈ s.tasks, t.takePc = none) → ∀ i call e s₁ k,
      s.tasks[i]? = some (.acquire call .get) →
      s.shared.entries.lookup call.name = some e →
      s.step settings (.step i .go) = some s₁ →
      ∃ s₂, (manager settings).run s₁
          (.step i .go :: List.replicate k (.step i .fail) ++ [.step i .go]) = some s₂ ∧
        s₂.tasks[i]? = some (.acquire call (.tenantSlot e))) := by
  refine ⟨fun name e => exists_removing h, fun e s' he hun hrun => (unlinked_run h hrun he hun).2,
    fun hnone i call e s₁ k hi hl hstep => ?_⟩
  have hw : (s.shared.heap e).activeLeases ≠ CLOSED := by
    intro hw
    obtain ⟨t, ht, hrem⟩ := exists_removing h hl hw
    simp [Task.removing, hnone t ht] at hrem
  obtain ⟨starts, hmon⟩ := exists_monitor h
  have hbound := (reachable_inv hmon).1.step hstep
  -- The lookup returns the entry and changes nothing that is shared.
  have hget : (Task.acquire call .get).step settings s.shared .go =
      some (s.shared, .acquire call (.lease e .load), []) := by
    simp [Task.step, acquireStep, hl]
  simp only [State.step, hi, hget] at hstep
  obtain ⟨rfl, _⟩ := State.advance_eq_some hstep
  exact lease_alone k hbound (getElem?_update_self hi) hw

/-- A caller that evicts the only database, after its `begin_close`. -/
theorem no_name_poisoned_evicting :
    ∃ t ∈ ((manager oneDatabase).play (fun _ _ => true)
      (coldAcquire 0 "a" 0 ++ dropLease 0 ++ evictFor 1 "b" "a")).tasks,
      t.removing = some ("a", 0) :=
  (no_name_poisoned (StepSystem.reachable_play (M := manager oneDatabase)
    (fun _ _ _ => trivial) _)).1 "a" 0 (by decide) (by decide)

end Tinkiva.Manager
