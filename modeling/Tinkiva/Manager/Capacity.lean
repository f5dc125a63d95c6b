import Tinkiva.Manager.Refinement

/-!
# Capacity and admission slots

`exact_capacity` bounds the registry in every run.  The capacity test, the
eviction and the insertion are separate steps; what ties them together is the
admission guard, whose holder knows that its name is vacant and that there is
room.

`slots_conserved` accounts for the permits of both semaphores.  A permit is in
its semaphore or held by a request, and a request takes them in one order: the
lease, the tenant permit, the process permit.
-/

namespace Tinkiva.Manager

open Tinkiva.Config Tinkiva.Protocol ConcurrentMap TokenPool TaskPool SentinelCounter Token

variable {settings : DatabaseSettings} {s s' : State} {starts : EntryId → Nat}

/-! ## Capacity -/

/-- The task that inserts an entry holds the guard and has found room. -/
theorem Task.room_of_event {σ : Shared} {t : Task} {choice : Choice} {name : String}
    {e : EntryId} (h : t.event σ choice = some (.insert name e)) :
    Token.guard (.room name) ∈ t.tokens ∧ e = σ.created := by
  obtain ⟨call, nowMs, rfl, _, rfl, rfl⟩ := Task.insert_of_event h
  exact ⟨Multiset.mem_singleton_self _, rfl⟩

/-- The capacity is not exceeded. -/
theorem size_le (h : (manager settings).Reachable s) :
    size s.shared.entries ≤ settings.maxOpenDatabases := by
  obtain ⟨starts, hmon⟩ := exists_monitor h
  exact (reachable_inv hmon).2.guarded.size_le

/-- An entry is inserted only under a name that is not linked, and only while there
is room for it. -/
theorem insert_room (h : (manager settings).Reachable s) {a : Action} {name : String}
    {e : EntryId} (hev : s.event a = some (.insert name e)) :
    s.shared.entries.lookup name = none ∧
      size s.shared.entries < settings.maxOpenDatabases := by
  obtain ⟨starts, hmon⟩ := exists_monitor h
  obtain ⟨t, ht, choice, hev⟩ := State.exists_event hev
  exact (reachable_inv hmon).2.guarded.room name
    ((mem_config s starts).mpr ⟨t, ht, (Task.room_of_event hev).1⟩)

/-- Exact capacity.  In every run, with failed opens, `cleanup_idle`, evictions
and `close_all`, the number of linked entries is at most the capacity, and an
entry is inserted only under a name that is not linked at that moment, and only
while there is room for it. -/
theorem exact_capacity (h : (manager settings).Reachable s) :
    size s.shared.entries ≤ settings.maxOpenDatabases ∧
    ∀ a name e, s.event a = some (.insert name e) →
      s.shared.entries.lookup name = none ∧
        size s.shared.entries < settings.maxOpenDatabases :=
  ⟨size_le h, fun _ _ _ hev => insert_room h hev⟩

/-- The registry of one database, while a second caller waits to evict. -/
theorem exact_capacity_evicting :
    size ((manager oneDatabase).play (fun _ _ => true)
      (coldAcquire 0 "a" 0 ++ dropLease 0 ++ evictFor 1 "b" "a")).shared.entries ≤ 1 :=
  (exact_capacity (StepSystem.reachable_play (M := manager oneDatabase)
    (fun _ _ _ => trivial) _)).1

/-- The guards that the tasks hold are what the admission mutex says. -/
theorem admission_holders (h : (manager settings).Reachable s) :
    s.tasks.countP (fun t => t.admission) = s.shared.admission.toNat := by
  obtain ⟨starts, hmon⟩ := exists_monitor h
  have howned := (reachable_inv hmon).2.guarded.owned
  rw [guards_config] at howned
  exact howned

/-- One task at a time holds the admission guard. -/
theorem admission_unique (h : (manager settings).Reachable s) {i j : Nat} {t u : Task}
    (hi : s.tasks[i]? = some t) (hj : s.tasks[j]? = some u) (ht : t.admission = true)
    (hu : u.admission = true) : i = j := by
  refine index_unique ?_ hi hj ht hu
  rw [admission_holders h]
  exact Bool.toNat_le _

/-- While a task holds the guard, only this task inserts an entry. -/
theorem insert_alone (h : (manager settings).Reachable s) {i : Nat} {t : Task} {a : Action}
    {name : String} {e : EntryId} (hi : s.tasks[i]? = some t) (ht : t.admission = true)
    (hev : s.event a = some (.insert name e)) : a = .step i .go := by
  cases a with
  | step j choice =>
    simp only [State.event] at hev
    split at hev
    · simp at hev
    · rename_i u hj
      obtain ⟨call, nowMs, rfl, rfl, _⟩ := Task.insert_of_event hev
      rw [admission_unique h hi hj ht rfl]
  | start operation | cancel j | clock nowMs => simp [State.event] at hev

/-! ## Admission slots -/

/-- A task with a process permit holds a tenant permit of one entry.  It holds
the lease on that entry too, until the last step of its drop. -/
theorem Task.tenantSlot_of_processSlot {t : Task} (h : t.processSlot = true) :
    ∃ e, t.tenantSlot = some e ∧
      (t.lease = some e ∨ ∃ call error, t = .acquire call (.slots e error)) := by
  unfold Task.processSlot at h
  split at h
  all_goals first | exact ⟨_, rfl, Or.inl rfl⟩ | exact ⟨_, rfl, Or.inr ⟨_, _, rfl⟩⟩ | simp at h

/-- Only a request holds permits. -/
theorem Task.no_slots {t : Task} (h : t.isRequest = false) :
    t.processSlot = false ∧ t.tenantSlot = none := by
  unfold Task.isRequest at h
  split at h
  · exact ⟨rfl, rfl⟩
  · simp at h
  · rename_i hne
    cases t with
    | acquire call pc => exact absurd rfl (hne call pc)
    | cleanupIdle pc | checkpointWal pc | closeEntry e pc | closeAll pc => exact ⟨rfl, rfl⟩

/-- A task that is no request holds a lease only as `checkpoint_wal`. -/
def Task.checkpointLease : Task → Option EntryId
  | .checkpointWal pc => (Task.checkpointWal pc).lease
  | _ => none

theorem Task.lease_eq_checkpointLease {t : Task} (h : t.isRequest = false) :
    t.lease = t.checkpointLease := by
  unfold Task.isRequest at h
  split at h
  · rfl
  · simp at h
  · rename_i hne
    cases t with
    | acquire call pc => exact absurd rfl (hne call pc)
    | cleanupIdle pc | checkpointWal pc | closeEntry e pc | closeAll pc => rfl

/-- The available and the held process permits add up to the setting. -/
theorem slots_eq (h : (manager settings).Reachable s) :
    s.shared.slots + s.tasks.countP (fun t => t.processSlot) =
      settings.maxConcurrentRequests := by
  obtain ⟨starts, hmon⟩ := exists_monitor h
  rw [← slots_config s starts]
  exact (reachable_inv hmon).2.conserved.slots

/-- So do the tenant permits of an entry. -/
theorem tenantSlots_eq (h : (manager settings).Reachable s) {e : EntryId}
    (he : e < s.shared.created) :
    (s.shared.heap e).slots + s.tasks.countP (fun t => decide (t.tenantSlot = some e)) =
      settings.maxConcurrentRequestsPerDatabase := by
  obtain ⟨starts, hmon⟩ := exists_monitor h
  rw [← tenantSlots_config s starts e]
  exact (reachable_inv hmon).2.conserved.tenantSlots e he

/-- Admission slots are conserved and bounded.  In every run:

* the available and the held process permits add up to the setting, and so do
  the tenant permits of every entry;
* a request with a process permit holds a tenant permit of the entry it leases,
  so an entry never has more of either than both settings allow;
* a request that waits for its tenant permit holds none, and neither does
  `checkpoint_wal`;
* while no request is in progress, every permit is available, and the lease
  count of an entry that is not closed is the number of leases of
  `checkpoint_wal` on it. -/
theorem slots_conserved (h : (manager settings).Reachable s) :
    s.shared.slots + s.tasks.countP (fun t => t.processSlot) = settings.maxConcurrentRequests ∧
    (∀ e < s.shared.created,
      (s.shared.heap e).slots + s.tasks.countP (fun t => decide (t.tenantSlot = some e)) =
        settings.maxConcurrentRequestsPerDatabase) ∧
    (∀ t ∈ s.tasks, t.processSlot = true → ∃ e, t.tenantSlot = some e ∧
      (t.lease = some e ∨ ∃ call error, t = .acquire call (.slots e error))) ∧
    (∀ e < s.shared.created,
      s.tasks.countP (fun t => t.processSlot && decide (t.tenantSlot = some e)) ≤
        min settings.maxConcurrentRequests settings.maxConcurrentRequestsPerDatabase) ∧
    (∀ call e, Task.acquire call (.tenantSlot e) ∈ s.tasks →
      (Task.acquire call (.tenantSlot e)).processSlot = false ∧
        (Task.acquire call (.tenantSlot e)).tenantSlot = none) ∧
    (∀ pc, Task.checkpointWal pc ∈ s.tasks →
      (Task.checkpointWal pc).processSlot = false ∧
        (Task.checkpointWal pc).tenantSlot = none) ∧
    ((∀ t ∈ s.tasks, t.isRequest = false) →
      s.shared.slots = settings.maxConcurrentRequests ∧
      (∀ e < s.shared.created,
        (s.shared.heap e).slots = settings.maxConcurrentRequestsPerDatabase) ∧
      ∀ e, (s.shared.heap e).activeLeases = CLOSED ∨
        (s.shared.heap e).activeLeases =
          s.tasks.countP fun t => decide (t.checkpointLease = some e)) := by
  have hslots := slots_eq h
  have htenant (e : EntryId) (he : e < s.shared.created) := tenantSlots_eq h he
  refine ⟨hslots, htenant, fun t _ => Task.tenantSlot_of_processSlot, fun e he => ?_,
    fun _ _ _ => ⟨rfl, rfl⟩, fun _ _ => ⟨rfl, rfl⟩, fun hidle => ?_⟩
  · have hprocess : s.tasks.countP (fun t => t.processSlot && decide (t.tenantSlot = some e)) ≤
        s.tasks.countP fun t => t.processSlot :=
      List.countP_mono_left fun t _ ht => (Bool.and_eq_true_iff.mp ht).1
    have htenantLe : s.tasks.countP (fun t => t.processSlot && decide (t.tenantSlot = some e)) ≤
        s.tasks.countP fun t => decide (t.tenantSlot = some e) :=
      List.countP_mono_left fun t _ ht => (Bool.and_eq_true_iff.mp ht).2
    have := htenant e he
    exact Nat.le_min.mpr ⟨by omega, by omega⟩
  · have hnone : s.tasks.countP (fun t => t.processSlot) = 0 :=
      List.countP_eq_zero.mpr fun t ht => by simp [(Task.no_slots (hidle t ht)).1]
    refine ⟨by omega, fun e he => ?_, fun e => ?_⟩
    · have hnone : s.tasks.countP (fun t => decide (t.tenantSlot = some e)) = 0 :=
        List.countP_eq_zero.mpr fun t ht => by simp [(Task.no_slots (hidle t ht)).2]
      have := htenant e he
      omega
    · have hholders : s.holders e = s.tasks.countP fun t =>
          decide (t.checkpointLease = some e) :=
        List.countP_congr fun t ht => by rw [Task.lease_eq_checkpointLease (hidle t ht)]
      obtain ⟨starts, hmon⟩ := exists_monitor h
      have hcounts := (reachable_inv hmon).2.balanced e
      rw [leases_config, hholders] at hcounts
      rcases Counts.iff.mp hcounts with ⟨hw, _⟩ | ⟨hw, _⟩
      · exact Or.inl hw
      · exact Or.inr hw

/-- A caller with its lease holds one permit of each kind. -/
theorem slots_conserved_leased :
    ((manager .default).play (fun _ _ => true) (coldAcquire 0 "a" 0)).shared.slots = 511 ∧
    ((manager .default).play (fun _ _ => true) (coldAcquire 0 "a" 0)).shared.slots +
      ((manager .default).play (fun _ _ => true) (coldAcquire 0 "a" 0)).tasks.countP
        (fun t => t.processSlot) = 512 :=
  ⟨by decide, (slots_conserved (StepSystem.reachable_play (M := manager .default)
    (fun _ _ _ => trivial) (coldAcquire 0 "a" 0))).1⟩

end Tinkiva.Manager
