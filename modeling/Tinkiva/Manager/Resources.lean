import Tinkiva.Lib.TaskIndices
import Tinkiva.Manager.Coherence
import Tinkiva.Manager.Opening

/-!
# What the process holds at once

The capacity bounds the entries that are linked, and each semaphore the permits that are
out.  Two bounds on what the process and one tenant use follow from them.

* `open_pools_bounded` is about the pools that are open, those of closing entries among
  them: where no open entry gets lost, an open entry is linked, or a task has still to
  close it.
* `tenant_share` is about the permits: no database has more than its share of the
  process, so a process without a permit left serves several databases.
-/

namespace Tinkiva.Manager

open Tinkiva.Config Tinkiva.Protocol ConcurrentMap TaskPool TokenPool Token

variable {settings : DatabaseSettings} {s : State}

/-! ## Open pools -/

/-- The entries whose pools are open. -/
def State.awake (s : State) : Finset EntryId :=
  (Finset.range s.shared.created).filter fun e => (s.shared.heap e).alive = true

/-- What is open exists. -/
theorem mem_awake (h : (manager settings).Reachable s) {e : EntryId} :
    e ∈ s.awake ↔ (s.shared.heap e).alive = true := by
  rw [State.awake, Finset.mem_filter, Finset.mem_range, and_iff_right_iff_imp]
  intro halive
  refine (reachable_opened h e).known (Or.inr ?_)
  rw [DatabaseEntry.alive, Option.any_eq_true] at halive
  obtain ⟨pools, hvalue, _⟩ := halive
  rw [hvalue]
  rfl

/-- The linked entries are as many as the bindings. -/
theorem linked_card (m : Map String EntryId) :
    ((bindings m).map Prod.snd).toFinset.card ≤ size m := by
  refine Nat.le_trans (List.toFinset_card_le _) (Nat.le_of_eq ?_)
  rw [List.length_map, bindings, List.length_map]
  rfl

/-- In the runs of `main` that meet all the conditions of `tidyStep`, with `close_all`, there
are at most as many open pools as the capacity allows, and one for each entry that a task has
still to close.  The conditions also keep an entry from being opened after it was unlinked:
such an entry would be open, and neither linked nor anybody's to close. -/
theorem open_pools_bounded
    (h : (manager settings).ReachableVia (fun s a => mainStep s a ∧ tidyStep s a) s) :
    (∀ e, (s.shared.heap e).alive = true ↔ e ∈ s.awake) ∧
    s.awake.card ≤ settings.maxOpenDatabases + tally (fun t => t.owes.length) s.tasks := by
  have hreach : (manager settings).Reachable s := h.reachable
  refine ⟨fun e => (mem_awake hreach).symm, ?_⟩
  have hsubset : s.awake ⊆ ((bindings s.shared.entries).map Prod.snd).toFinset ∪
      (s.tasks.flatMap Task.owes).toFinset := by
    intro e he
    rw [Finset.mem_union, List.mem_toFinset, List.mem_toFinset]
    rcases entries_kept h e ((mem_awake hreach).mp he) with ⟨name, hl⟩ | ⟨t, ht, hby⟩
    · exact Or.inl (List.mem_map.mpr ⟨(name, e), mem_bindings.mpr hl, rfl⟩)
    · exact Or.inr (List.mem_flatMap.mpr ⟨t, ht, hby⟩)
  have howed : (s.tasks.flatMap Task.owes).toFinset.card ≤
      tally (fun t => t.owes.length) s.tasks := by
    refine Nat.le_trans (List.toFinset_card_le _) (Nat.le_of_eq ?_)
    rw [List.length_flatMap, tally]
  calc s.awake.card
      ≤ ((bindings s.shared.entries).map Prod.snd).toFinset.card +
          (s.tasks.flatMap Task.owes).toFinset.card :=
        Nat.le_trans (Finset.card_le_card hsubset) (Finset.card_union_le _ _)
    _ ≤ settings.maxOpenDatabases + tally (fun t => t.owes.length) s.tasks :=
        Nat.add_le_add (Nat.le_trans (linked_card _) (size_le hreach)) howed

/-- Database `a` is evicted for `b` and waits to be closed, in a process of one database. -/
def evictedOpen : List Action :=
  coldAcquire 0 "a" 0 ++ dropLease 0 ++ evictingAcquire 1 "b" "a"

/-- Two pools are open: the limit, and the one that the eviction has still to close. -/
theorem open_pools_bounded_evicted :
    ((manager oneDatabase).play (fun s a => decide (mainStep s a ∧ tidyStep s a))
      evictedOpen).awake = {0, 1} ∧
    ((manager oneDatabase).play (fun s a => decide (mainStep s a ∧ tidyStep s a))
      evictedOpen).awake.card ≤ 1 + 1 :=
  ⟨by decide, (open_pools_bounded (StepSystem.reachable_play (M := manager oneDatabase)
    (fun _ _ h => of_decide_eq_true h) evictedOpen)).2⟩

/-! ## The share of a tenant -/

/-- The entries whose requests hold permits of the process. -/
def State.served (s : State) : Finset EntryId :=
  (Finset.range s.shared.created).filter fun e =>
    s.tasks.any fun t => t.processSlot && decide (t.tenantSlot = some e)

theorem Task.mem_of_tenantSlot {t : Task} {e : EntryId} (h : t.tenantSlot = some e) :
    Token.tenantSlot e ∈ t.tokens := by
  unfold Task.tenantSlot at h
  split at h
  all_goals
    first
    | (obtain rfl := Option.some.inj h
       simp [Task.tokens, AcquirePc.tokens, slotTokens])
    | simp at h

/-- A caller that uses its lease holds both of its permits. -/
theorem Task.slots_of_leased {t : Task} {l : String × EntryId} (h : t.leased = some l) :
    t.processSlot = true ∧ t.tenantSlot = some l.2 := by
  unfold Task.leased at h
  split at h
  · obtain rfl := Option.some.inj h
    exact ⟨rfl, rfl⟩
  · simp at h

/-- A tenant permit is of an entry that exists. -/
theorem tenantSlot_lt (h : (manager settings).Reachable s) {t : Task} (ht : t ∈ s.tasks)
    {e : EntryId} (hslot : t.tenantSlot = some e) : e < s.shared.created := by
  obtain ⟨starts, hmon⟩ := exists_monitor h
  exact (reachable_inv hmon).2.sound.tokens _
    ((mem_config s starts).mpr ⟨t, ht, t.mem_of_tenantSlot hslot⟩)

/-- The requests of one entry that hold permits of the process are no more than its share. -/
theorem served_le (h : (manager settings).Reachable s) {e : EntryId}
    (he : e < s.shared.created) :
    s.tasks.countP (fun t => t.processSlot && decide (t.tenantSlot = some e)) ≤
      settings.maxConcurrentRequestsPerDatabase := by
  have hsplit := tenantSlots_eq h he
  have hle : s.tasks.countP (fun t => t.processSlot && decide (t.tenantSlot = some e)) ≤
      s.tasks.countP fun t => decide (t.tenantSlot = some e) :=
    List.countP_mono_left fun t _ ht => (Bool.and_eq_true_iff.mp ht).2
  omega

/-- No database takes the process.  In every run the permits that are not available are held
by requests of different entries, at most the share of one entry each: a process without a
permit left serves at least `max_concurrent_requests` divided by the share.  In the clean
runs this is about the names: the callers that use leases for one name are no more than the
share. -/
theorem tenant_share (h : (manager settings).Reachable s) :
    settings.maxConcurrentRequests ≤
      s.shared.slots + settings.maxConcurrentRequestsPerDatabase * s.served.card ∧
    ((manager settings).ReachableVia cleanStep s → ∀ name,
      s.tasks.countP (fun t => t.leased.any fun l => decide (l.1 = name)) ≤
        settings.maxConcurrentRequestsPerDatabase) := by
  constructor
  · have hheld : s.tasks.countP (fun t => t.processSlot) ≤
        settings.maxConcurrentRequestsPerDatabase * s.served.card := by
      refine card_le_mul_card Task.tenantSlot (fun t ht hp => ?_) fun e he => ?_
      · obtain ⟨e, hslot, _⟩ := Task.tenantSlot_of_processSlot hp
        have hany : (s.tasks.any fun t => t.processSlot && decide (t.tenantSlot = some e)) = true :=
          List.any_eq_true.mpr ⟨t, ht, by simp [hp, hslot]⟩
        exact ⟨e, Finset.mem_filter.mpr ⟨Finset.mem_range.mpr (tenantSlot_lt h ht hslot), hany⟩,
          hslot⟩
      · exact served_le h (Finset.mem_range.mp (Finset.mem_filter.mp he).1)
    have := slots_eq h
    omega
  · intro hclean name
    by_cases hnone : s.tasks.countP (fun t => t.leased.any fun l => decide (l.1 = name)) = 0
    · rw [hnone]
      exact Nat.zero_le _
    · obtain ⟨t, ht, hname⟩ := List.countP_pos_iff.mp (Nat.pos_of_ne_zero hnone)
      rw [Option.any_eq_true] at hname
      obtain ⟨⟨_, e⟩, hleased, hdec⟩ := hname
      obtain rfl := of_decide_eq_true hdec
      -- All of them are on one entry, so they hold its tenant permits.
      have hcoherent := (leases_coherent hclean).1
      have hslot := Task.slots_of_leased hleased
      refine Nat.le_trans (List.countP_mono_left fun u hu hname' => ?_)
        (served_le h (tenantSlot_lt h ht hslot.2))
      rw [Option.any_eq_true] at hname'
      obtain ⟨⟨_, e'⟩, hleased', hdec'⟩ := hname'
      obtain rfl := of_decide_eq_true hdec'
      obtain rfl := hcoherent t ht u hu _ e e' hleased hleased'
      simp [(Task.slots_of_leased hleased').1, (Task.slots_of_leased hleased').2]

/-- Two requests of `a` and one of `b` use their leases. -/
def twoServed : List Action :=
  coldAcquire 0 "a" 0 ++ .start (.acquire "a") :: goes 1 8 ++ coldAcquire 2 "b" 1

theorem tenant_share_two :
    ((manager .default).play (fun s a => decide (cleanStep s a)) twoServed).served = {0, 1} ∧
    512 ≤ ((manager .default).play (fun s a => decide (cleanStep s a)) twoServed).shared.slots +
      8 * ((manager .default).play (fun s a => decide (cleanStep s a)) twoServed).served.card ∧
    ((manager .default).play (fun s a => decide (cleanStep s a)) twoServed).tasks.countP
      (fun t => t.leased.any fun l => decide (l.1 = "a")) ≤ 8 := by
  have hclean : (manager .default).ReachableVia cleanStep
      ((manager .default).play (fun s a => decide (cleanStep s a)) twoServed) :=
    StepSystem.reachable_play (fun _ _ h => of_decide_eq_true h) twoServed
  have hshare := tenant_share hclean.reachable
  exact ⟨by decide, hshare.1, hshare.2 hclean "a"⟩

end Tinkiva.Manager
