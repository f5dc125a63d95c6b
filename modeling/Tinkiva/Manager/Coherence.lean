import Tinkiva.Manager.Leases

/-!
# Coherence of leases, and one writer per database

Two laws that a failed open can break.  After `open_pools` has failed,
`acquire` unlinks its entry by `remove_if`, although other callers may have
looked the entry up: they may wait for its permits or its `OnceCell` and open
it later, while the name is already bound to a new entry.

`Event.unlinksClean` is the condition under which that does not happen, and
`leases_coherent` is the law of the runs whose steps all meet it.
`single_writer` is the law of one writer for these runs.  An entry that is
evicted or idle is closed in the background, so the law speaks about the
entries that are not `CLOSED`.
-/

namespace Tinkiva.Manager

open Tinkiva.Config Tinkiva.Protocol ConcurrentMap TokenPool TaskPool SentinelCounter Token

variable {settings : DatabaseSettings} {s : State} {starts : EntryId → Nat}

/-! ## Coherence -/

/-- An event that is the `remove_if` of a failed open happens while no other call
of `acquire` has the entry looked up or leased, and no `take` has it looked
up. -/
def Event.unlinksClean (s : State) : Option Event → Prop
  | some (.unlinkFailed name e) =>
    ∀ t ∈ s.tasks, t.acquiring ≠ some (name, e) ∧ t.taking ≠ some (name, e)
  | some (.insert _ _) | some (.openPools _) | some (.closeEntry _) | none => True

instance (s : State) : DecidablePred (Event.unlinksClean s)
  | some (.unlinkFailed name e) => inferInstanceAs
    (Decidable (∀ t ∈ s.tasks, t.acquiring ≠ some (name, e) ∧ t.taking ≠ some (name, e)))
  | some (.insert _ _) | some (.openPools _) | some (.closeEntry _) | none => isTrue trivial

/-- A step before `close_all`, and a failed open unlinks cleanly. -/
def cleanStep (s : State) (a : Action) : Prop :=
  a.beforeCloseAll ∧ Event.unlinksClean s (s.event a)

instance (s : State) (a : Action) : Decidable (cleanStep s a) :=
  inferInstanceAs (Decidable (_ ∧ _))

/-- A clean unlink is clean in the protocol. -/
theorem cleanUnlink_config {a : Action} {s' : State} {starts' : EntryId → Nat}
    {c : Multiset (Token String)} (hbefore : s'.BeforeCloseAll)
    (hclean : Event.unlinksClean s (s.event a))
    (hfail : ∀ name e, Token.lease e (.failing name) ∈ c →
      s.event a = some (.unlinkFailed name e)) :
    CleanUnlink (s.config starts) c (s'.config starts') := by
  refine ⟨hbefore.no_shutdown starts', fun name e hc => ?_⟩
  rw [hfail name e hc] at hclean
  constructor <;> intro hmem <;> obtain ⟨t, ht, hx⟩ := (mem_config s starts).mp hmem
  · exact (hclean t ht).1 (t.says_of_mem _ hx)
  · exact (hclean t ht).2 (t.says_of_mem _ hx)

/-- The runs whose failed opens unlink cleanly are coherent. -/
theorem reachable_coherent
    (h : (monitor settings).ReachableVia (fun q a => cleanStep q.1 a) (s, starts)) :
    Inv (limits settings) (s.config starts) ∧ Orderly (limits settings) (s.config starts) ∧
      Coherent (limits settings) (s.config starts) := by
  have hconfig := reachable_config cleanStep CleanUnlink
    (fun starts c hr ha hstep hfail => cleanUnlink_config (State.beforeCloseAll_step
      (reachable_beforeCloseAll (fun _ _ h => h.1) hr) ha.1 hstep) ha.2 hfail) h
  refine hconfig.2.invariant
    (I := fun x => Orderly (limits settings) x ∧ Coherent (limits settings) x)
    ⟨Orderly.init _ _, Coherent.init _ _⟩ fun x x' hinv hI hs => ?_
  have hbefore : Token.shutdown ∉ x'.pool := by
    obtain ⟨_, _, _, _, _, hclean⟩ := hs
    exact hclean.1
  exact ⟨hI.1.step hinv hs hbefore, hI.2.step hI.1 hinv hs⟩

/-- A returned lease is on the entry that was looked up. -/
theorem Task.acquiring_of_leased {t : Task} {name : String} {e : EntryId}
    (h : t.leased = some (name, e)) : t.acquiring = some (name, e) ∧ t.lease = some e := by
  unfold Task.leased at h
  split at h
  · obtain ⟨rfl, rfl⟩ := Prod.mk.inj (Option.some.inj h)
    exact ⟨rfl, rfl⟩
  · simp at h

/-- Lease coherence, in the runs before `close_all` in which a failed open
unlinks only an entry that nobody else has looked up.  An entry that a caller
of `acquire` holds a lease on is the one that its name is bound to.  So the
leases returned for one name are on one entry, and that entry is linked. -/
theorem leases_coherent (h : (manager settings).ReachableVia cleanStep s) :
    (∀ t ∈ s.tasks, ∀ u ∈ s.tasks, ∀ name e e', t.leased = some (name, e) →
      u.leased = some (name, e') → e = e') ∧
    (∀ t ∈ s.tasks, ∀ name e, t.leased = some (name, e) →
      s.shared.entries.lookup name = some e) ∧
    (∀ t ∈ s.tasks, ∀ name e, t.acquiring = some (name, e) → t.lease = some e →
      s.shared.entries.lookup name = some e) := by
  obtain ⟨starts, hmon⟩ := exists_monitor h
  obtain ⟨hinv, hord, hcoh⟩ := reachable_coherent hmon
  have hlinked : ∀ t ∈ s.tasks, ∀ name e, t.acquiring = some (name, e) → t.lease = some e →
      s.shared.entries.lookup name = some e := by
    intro t ht name e hacq hlease
    have hopen := ((counts_holders h.reachable e).of_pos (holders_pos ht hlease)).2
    have hmem := (mem_config s starts).mpr ⟨t, ht, t.mem_of_acquiring hacq⟩
    exact (hcoh.acquiring name e hmem).resolve_right hopen
  have hleased : ∀ t ∈ s.tasks, ∀ name e, t.leased = some (name, e) →
      s.shared.entries.lookup name = some e := by
    intro t ht name e hleased
    exact hlinked t ht name e (Task.acquiring_of_leased hleased).1
      (Task.acquiring_of_leased hleased).2
  refine ⟨fun t ht u hu name e e' he he' => ?_, hleased, hlinked⟩
  exact Option.some.inj ((hleased t ht name e he).symm.trans (hleased u hu name e' he'))

/-- A failed open that nobody else waited for, and then two callers of the
name. -/
theorem leases_coherent_after_failure :
    ((manager .default).play (fun s a => decide (cleanStep s a))
      (admitted 0 "a" 0 ++ .step 0 .fail :: goes 0 5 ++ coldAcquire 1 "a" 0 ++
        .start (.acquire "a") :: goes 2 8)).shared.entries.lookup "a" = some 1 :=
  (leases_coherent (StepSystem.reachable_play (M := manager .default)
    (fun _ _ h => of_decide_eq_true h) _)).2.1 (.acquire ⟨"a", 0⟩ (.leased 1)) (by decide) "a" 1 rfl

/-- Two callers of one name have looked up the same unopened entry.  The open of
the first fails.  The second one opens the entry, and then the first one unlinks
it.  A third caller gets a new entry. -/
def failedOpen : List Action :=
  admitted 0 "a" 0 ++ .start (.acquire "a") :: goes 1 5 ++ .step 0 .fail :: goes 1 4 ++
    goes 0 1 ++ coldAcquire 2 "a" 0

/-- Two returned leases of one name on different entries, the first of them
unlinked. -/
theorem leases_not_coherent :
    ∃ s : State, (manager .default).ReachableVia (fun _ a => a.beforeCloseAll) s ∧
      (∃ t ∈ s.tasks, t.leased = some ("a", 0)) ∧ (∃ t ∈ s.tasks, t.leased = some ("a", 1)) ∧
      s.shared.entries.lookup "a" = some 1 :=
  ⟨_, StepSystem.reachable_play (M := manager .default)
    (fun _ _ h => of_decide_eq_true h) failedOpen, by decide, by decide, by decide⟩

/-! ## One writer per database -/

/-- The pools of an entry have been opened, or a caller is opening them. -/
def DatabaseEntry.isOpen (entry : DatabaseEntry) : Bool :=
  entry.pools.value.isSome || entry.pools.initializing

theorem OnceCell.stage_ne_unopened {entry : DatabaseEntry} :
    entry.pools.stage ≠ .unopened ↔ entry.isOpen = true := by
  rcases entry with ⟨name, ⟨value, initializing⟩, lastUsed, word, slots⟩
  cases value with
  | none => cases initializing <;> simp [OnceCell.stage, DatabaseEntry.isOpen]
  | some pools =>
    simp only [OnceCell.stage, DatabaseEntry.isOpen, Option.isSome_some, Bool.true_or]
    split_ifs <;> simp

/-- A failed open unlinks an entry that is not open. -/
def Event.unlinksUnopened (s : State) : Option Event → Prop
  | some (.unlinkFailed _ e) => (s.shared.heap e).isOpen = false
  | some (.insert _ _) | some (.openPools _) | some (.closeEntry _) | none => True

instance (s : State) : DecidablePred (Event.unlinksUnopened s)
  | some (.unlinkFailed _ e) => inferInstanceAs (Decidable ((s.shared.heap e).isOpen = false))
  | some (.insert _ _) | some (.openPools _) | some (.closeEntry _) | none => isTrue trivial

/-- A step before `close_all`.  A failed open unlinks cleanly, and it unlinks an
entry that is not open. -/
def unopenedStep (s : State) (a : Action) : Prop :=
  cleanStep s a ∧ Event.unlinksUnopened s (s.event a)

instance (s : State) (a : Action) : Decidable (unopenedStep s a) :=
  inferInstanceAs (Decidable (_ ∧ _))

theorem reachable_singleWriter
    (h : (monitor settings).ReachableVia (fun q a => unopenedStep q.1 a) (s, starts)) :
    Inv (limits settings) (s.config starts) ∧ Orderly (limits settings) (s.config starts) ∧
      Coherent (limits settings) (s.config starts) ∧
      SingleWriter (limits settings) (s.config starts) := by
  have hconfig := reachable_config unopenedStep UnopenedUnlink
    (fun {s a s'} starts c hr ha hstep hfail => ⟨cleanUnlink_config (State.beforeCloseAll_step
      (reachable_beforeCloseAll (fun _ _ h => h.1.1) hr) ha.1.1 hstep) ha.1.2 hfail, by
        intro name e hc
        have hunopened := ha.2
        rw [hfail name e hc] at hunopened
        by_contra hne
        have hopen := OnceCell.stage_ne_unopened.mp hne
        rw [hunopened] at hopen
        exact absurd hopen (by simp)⟩) h
  refine hconfig.2.invariant
    (I := fun x => Orderly (limits settings) x ∧ Coherent (limits settings) x ∧
      SingleWriter (limits settings) x)
    ⟨Orderly.init _ _, Coherent.init _ _, fun _ he => absurd he (Nat.not_lt_zero _)⟩
    fun x x' hinv hI hs => ?_
  have hbefore : Token.shutdown ∉ x'.pool := by
    obtain ⟨_, _, _, _, _, hclean, _⟩ := hs
    exact hclean.1
  exact ⟨hI.1.step hinv hs hbefore, hI.2.1.step hI.1 hinv (hs.mono fun _ _ _ h => h.1),
    hI.2.2.step hI.2.1 hI.1 hinv hs⟩

/-- One writer per database, in the runs before `close_all` in which a failed
open unlinks only an entry that nobody else has looked up and that is not open.

* At most one entry of a name is open, or being opened, and not `CLOSED`, and it
  is the one that the name is bound to.
* Any other entry of the name whose pools are still alive is `CLOSED`.  It has
  no lease holder, and its `close_entry` has been started or is about to be. -/
theorem single_writer
    (h : (monitor settings).ReachableVia (fun q a => unopenedStep q.1 a) (s, starts)) :
    (∀ e₁ e₂, e₁ < s.shared.created → e₂ < s.shared.created →
      (s.shared.heap e₁).name = (s.shared.heap e₂).name →
      (s.shared.heap e₁).isOpen = true → (s.shared.heap e₂).isOpen = true →
      (s.shared.heap e₁).activeLeases ≠ CLOSED → (s.shared.heap e₂).activeLeases ≠ CLOSED →
      e₁ = e₂) ∧
    (∀ e < s.shared.created, (s.shared.heap e).isOpen = true →
      (s.shared.heap e).activeLeases ≠ CLOSED →
      s.shared.entries.lookup (s.shared.heap e).name = some e) ∧
    (∀ e, (s.shared.heap e).alive = true → (s.shared.heap e).activeLeases = CLOSED →
      s.holders e = 0 ∧ (starts e = 1 ∨
        ∃ t ∈ s.tasks, t.due = some e ∨ ∃ name, t.removing = some (name, e))) := by
  obtain ⟨hinv, hord, _, hsingle⟩ := reachable_singleWriter h
  have hlinked : ∀ e < s.shared.created, (s.shared.heap e).isOpen = true →
      (s.shared.heap e).activeLeases ≠ CLOSED →
      s.shared.entries.lookup (s.shared.heap e).name = some e :=
    fun e he hopen hw => hsingle e he hw (OnceCell.stage_ne_unopened.mpr hopen)
  refine ⟨fun e₁ e₂ he₁ he₂ hname hopen₁ hopen₂ hw₁ hw₂ => ?_, hlinked, fun e _ hw => ?_⟩
  · have h₁ := hlinked e₁ he₁ hopen₁ hw₁
    rw [hname, hlinked e₂ he₂ hopen₂ hw₂] at h₁
    exact (Option.some.inj h₁).symm
  · have hcounts := hinv.balanced e
    rw [leases_config] at hcounts
    refine ⟨hcounts.of_closed hw, ?_⟩
    have hone : starts e + count (closes e) (s.config starts).pool = 1 :=
      (hord.starts e).trans (if_pos hw)
    by_cases hzero : count (closes e) (s.config starts).pool = 0
    · exact Or.inl (by omega)
    · obtain ⟨x, hx, hcloses⟩ := count_pos.mp (Nat.pos_of_ne_zero hzero)
      obtain ⟨t, ht, hxt⟩ := (mem_config s starts).mp hx
      have hsays := t.says_of_mem x hxt
      refine Or.inr ⟨t, ht, ?_⟩
      cases x with
      | removing name j =>
        obtain rfl : j = e := by simpa [closes] using hcloses
        exact Or.inr ⟨name, hsays⟩
      | due j =>
        obtain rfl : j = e := by simpa [closes] using hcloses
        exact Or.inl hsays
      | _ => simp [closes] at hcloses

/-- The next call of `acquire` is task `i`.  It evicts the only entry and goes on
until it has its lease. -/
def evictingAcquire (i : Nat) (name victim : String) : List Action :=
  evictFor i name victim ++ .step i .go :: .step i (.count 0) :: goes i 11

/-- Database `a` is evicted for `b`, and `b` for `a`.  The `close_entry` of the
first entry of `a` is a task that has not run yet. -/
def evictTwice : List Action :=
  coldAcquire 0 "a" 0 ++ dropLease 0 ++ evictingAcquire 1 "b" "a" ++ dropLease 1 ++
    evictingAcquire 3 "a" "b"

/-- Two entries of one name with pools that are open and not closed. -/
theorem two_writers_alive :
    ∃ s : State, (manager oneDatabase).ReachableVia (fun _ a => a.beforeCloseAll) s ∧
      (s.shared.heap 0).name = "a" ∧ (s.shared.heap 2).name = "a" ∧
      (s.shared.heap 0).alive = true ∧ (s.shared.heap 2).alive = true :=
  ⟨_, StepSystem.reachable_play (M := manager oneDatabase)
    (fun _ _ h => of_decide_eq_true h) evictTwice, by decide, by decide, by decide, by decide⟩

/-- After the two evictions the lease is on the entry that is not closed. -/
theorem single_writer_evicted :
    ((monitor oneDatabase).play (fun q a => decide (unopenedStep q.1 a))
      evictTwice).1.shared.entries.lookup "a" = some 2 ∧
    ((monitor oneDatabase).play (fun q a => decide (unopenedStep q.1 a))
      evictTwice).1.holders 0 = 0 := by
  have hlaw := single_writer (StepSystem.reachable_play (M := monitor oneDatabase)
    (fun _ _ h => of_decide_eq_true h) evictTwice)
  exact ⟨hlaw.2.1 2 (by decide) (by decide) (by decide),
    (hlaw.2.2 0 (by decide) (by decide)).1⟩

end Tinkiva.Manager
