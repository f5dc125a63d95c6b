import Tinkiva.Manager.Capacity
import Tinkiva.Manager.Idle
import Tinkiva.Manager.Steps

/-!
# Why a call is refused

`acquire` answers `CapacityBusy` on three ways: a scan of `evict_oldest_idle` ends
without a candidate, the `take` of the candidate fails, or the call has used up its
rounds.  The scan, the capacity test and the `take` each see a different moment,
and a call that loses a race does not look again.

`watch` runs the manager with a record of one call.  `refused_when_busy` is the law
of the runs in which the call loses no such race: a refused call has seen an instant
at which the registry was full and every entry in it had a lease.  The invariant
follows the call through `slot`: what it knows about the registry is true, or there
has been such an instant.
-/

namespace Tinkiva.Manager

open Tinkiva.Config Tinkiva.Protocol ConcurrentMap TaskPool SentinelCounter

variable {settings : DatabaseSettings}

/-! ## The record of a call -/

/-- The registry is full and every entry in it has a live lease. -/
def State.FullyBusy (s : State) (capacity : Nat) : Prop :=
  capacity ≤ size s.shared.entries ∧ ∀ b ∈ bindings s.shared.entries, 0 < s.holders b.2

instance (s : State) (capacity : Nat) : Decidable (s.FullyBusy capacity) :=
  inferInstanceAs (Decidable (_ ∧ _))

/-- Task `i` is a call in progress. -/
def State.inCall (s : State) (i : Nat) : Bool := (s.tasks[i]?).any Task.isRequest

/-- What is recorded of a call: the number of linked entries after its last step,
whether there has been a fully busy instant during the call, and whether its scan
has missed something. -/
structure Watch where
  size : Nat
  busy : Bool
  missed : Bool

/-- The action is a step of task `i`. -/
def Action.moves (i : Nat) : Action → Bool
  | .step j _ => decide (j = i)
  | .start _ | .cancel _ | .clock _ => false

/-- The entry that a step of task `i` finds in its scan. -/
def State.visiting (s : State) (i : Nat) : Action → Option EntryId
  | .step j (.visit name) => if j = i then s.shared.entries.lookup name else none
  | _ => none

/-- What a scan misses: an entry is unlinked, the scan passes an entry that is
closed and not yet unlinked, or an entry that it has passed falls idle. -/
def State.Misses (s : State) (i : Nat) (sc : Scan String EntryId) (a : Action) (s' : State) :
    Prop :=
  size s'.shared.entries < size s.shared.entries ∨
  (∃ e ∈ s.visiting i a, (s.shared.heap e).activeLeases = CLOSED) ∨
  ∃ e ∈ s.idling a, ∃ name ∈ sc.seen, s.shared.entries.lookup name = some e

instance (s : State) (i : Nat) (sc : Scan String EntryId) (a : Action) (s' : State) :
    Decidable (s.Misses i sc a s') :=
  inferInstanceAs (Decidable (_ ∨ _ ∨ _))

/-- Whether the scan of a call that has found no candidate has missed something.  It
has from the start if an entry is unlinked while the call counts them. -/
def State.missed (s : State) (capacity i : Nat) (missed : Bool) (a : Action) (s' : State) : Bool :=
  match s.tasks[i]? with
  | some (.acquire _ (.len _)) => decide (size s'.shared.entries < capacity)
  | some (.acquire _ (.evict _ (.scan sc none))) => missed || decide (s.Misses i sc a s')
  | _ => missed

/-- What one step of the system adds to the record. -/
def State.watch (s : State) (capacity i : Nat) (w : Watch) (a : Action) (s' : State) : Watch where
  size := if a.moves i then size s'.shared.entries else w.size
  busy := w.busy || (s'.inCall i && decide (s'.FullyBusy capacity))
  missed := s.missed capacity i w.missed a s'

/-- The manager, and the record of the call that is task `i`. -/
def watch (settings : DatabaseSettings) (i : Nat) : StepSystem (State × Watch) Action :=
  (manager settings).observe ⟨0, false, false⟩ fun w s a s' =>
    s.watch settings.maxOpenDatabases i w a s'

/-- `DashMap::len` reports no more entries to the call than there were when it
started to count. -/
def countStep (i : Nat) (q : State × Watch) : Action → Prop
  | .step j (.count n) => j = i → n ≤ q.2.size
  | _ => True

instance (i : Nat) (q : State × Watch) : DecidablePred (countStep i q)
  | .step j (.count n) => inferInstanceAs (Decidable (j = i → n ≤ q.2.size))
  | .step _ .go | .step _ .fail | .step _ (.visit _) | .start _ | .cancel _ | .clock _ =>
    isTrue trivial

/-- The runs that the law is about: `close_all` is not called, and the call counts
what there is. -/
def callStep (i : Nat) (q : State × Watch) (a : Action) : Prop :=
  a.beforeCloseAll ∧ countStep i q a

instance (i : Nat) (q : State × Watch) (a : Action) : Decidable (callStep i q a) :=
  inferInstanceAs (Decidable (_ ∧ _))

/-! ## The condition -/

/-- What a call does on its own steps.

* It does not use up its rounds.
* When its scan ends without a candidate, the scan has missed nothing.
* When its scan ends with a candidate, the candidate is still linked and idle. -/
def Task.Fair (σ : Shared) (missed : Bool) : Task → Choice → Prop
  | .acquire call .yield, _ => call.attempt + 1 < MAX_ATTEMPTS
  | .acquire _ (.evict _ (.scan _ none)), .go => missed = false
  | .acquire _ (.evict _ (.scan _ (some c))), .go =>
    ∃ e ∈ σ.entries.lookup c.1, (σ.heap e).activeLeases = 0
  | _, _ => True

/-- The candidate of a call in `take`, before its `begin_close`. -/
def Task.candidate (σ : Shared) : Task → Option (String × EntryId)
  | .acquire _ (.evict _ (.take (.get name))) => (σ.entries.lookup name).map fun e => (name, e)
  | .acquire _ (.evict _ (.take (.beginClose name e))) => some (name, e)
  | _ => none

/-- Every linked entry but one has a live lease, and the registry is full. -/
def State.OthersBusy (s : State) (capacity : Nat) (e : EntryId) : Prop :=
  capacity ≤ size s.shared.entries ∧
    ∀ b ∈ bindings s.shared.entries, b.2 ≠ e → 0 < s.holders b.2

/-- A step of a task takes the candidate away: it unlinks or closes it, or leases it
while another linked entry has no lease or a place is free. -/
def State.Robs (s : State) (capacity : Nat) (t : Task) (choice : Choice) (c : String × EntryId) :
    Prop :=
  t.removing.map Prod.fst = some c.1 ∨ t.taking.map Prod.snd = some c.2 ∨
    t.leasing s.shared choice = some c.2 ∧ ¬ s.OthersBusy capacity c.2

/-- No step makes the call lose a race. -/
def State.Fair (s : State) (capacity i : Nat) (missed : Bool) : Action → Prop
  | .step j choice => ∀ t ∈ s.tasks[i]?,
    if j = i then t.Fair s.shared missed choice
    else ∀ c ∈ t.candidate s.shared, ∀ u ∈ s.tasks[j]?, ¬ s.Robs capacity u choice c
  | .start _ | .cancel _ | .clock _ => True

/-- The condition on a step, for the call that is task `i`: as long as there has been
no fully busy instant, the call loses no race. -/
def fairStep (settings : DatabaseSettings) (i : Nat) (q : State × Watch) (a : Action) : Prop :=
  callStep i q a ∧
    (q.2.busy = true ∨ q.1.Fair settings.maxOpenDatabases i q.2.missed a)

section Decidable

variable (s : State) (capacity i : Nat)

instance (σ : Shared) (missed : Bool) (t : Task) (choice : Choice) :
    Decidable (t.Fair σ missed choice) := by
  unfold Task.Fair
  split <;> infer_instance

instance (e : EntryId) : Decidable (s.OthersBusy capacity e) :=
  inferInstanceAs (Decidable (_ ∧ _))

instance (t : Task) (choice : Choice) (c : String × EntryId) :
    Decidable (s.Robs capacity t choice c) :=
  inferInstanceAs (Decidable (_ ∨ _ ∨ _ ∧ _))

instance (missed : Bool) : DecidablePred (s.Fair capacity i missed)
  | .step j _ => inferInstanceAs (Decidable (∀ t ∈ s.tasks[i]?, if j = i then _ else _))
  | .start _ | .cancel _ | .clock _ => isTrue trivial

instance (q : State × Watch) (a : Action) : Decidable (fairStep settings i q a) :=
  inferInstanceAs (Decidable (_ ∧ (_ ∨ _)))

end Decidable

/-! ## What the call knows -/

section Knows

variable {s s' : State} {a : Action} {i : Nat} {w : Watch}

/-- The name is bound to the entry, and nobody holds it. -/
def State.Idle (s : State) (name : String) (e : EntryId) : Prop :=
  s.shared.entries.lookup name = some e ∧ (s.shared.heap e).activeLeases = 0

/-- The name is bound, or a place has become free. -/
def State.BoundOrRoom (s : State) (capacity : Nat) (name : String) : Prop :=
  (∃ e, s.shared.entries.lookup name = some e) ∨ size s.shared.entries < capacity

/-- The registry is full, the scan has still to see every linked entry or has seen
it, and what it has seen has a live lease. -/
structure State.SeenLeased (s : State) (capacity : Nat) (sc : Scan String EntryId) : Prop where
  full : capacity ≤ size s.shared.entries
  initial : ∀ name e, s.shared.entries.lookup name = some e → (name, e) ∈ sc.initial
  seen : ∀ name e, s.shared.entries.lookup name = some e → name ∈ sc.seen → 0 < s.holders e

/-- What a call knows where it stands. -/
def AcquirePc.Knows (s : State) (capacity : Nat) (w : Watch) : AcquirePc → Prop
  | .len 0 => True
  | .len (_ + 1) => w.size < capacity
  | .evict _ (.scan sc none) => w.missed = true ∨ s.SeenLeased capacity sc
  | .evict _ (.take (.get name)) => w.busy = true ∨ ∃ e, s.Idle name e
  | .evict _ (.take (.beginClose name e)) =>
    (w.busy = true ∨ s.Idle name e) ∧ s.BoundOrRoom capacity name
  | .evict _ (.take (.remove name _)) => s.BoundOrRoom capacity name
  | .unlock none => w.busy = true
  | .done error => error = some .capacityBusy → w.busy = true
  | .drop _ _ error _ | .slots _ error => error ≠ some .capacityBusy
  | _ => True

/-- The record of a fully busy instant is right. -/
def State.Recorded (s : State) (capacity i : Nat) (w : Watch) : Prop :=
  s.inCall i = true → s.FullyBusy capacity → w.busy = true

theorem busy_watch (h : w.busy = true) :
    (s.watch settings.maxOpenDatabases i w a s').busy = true := by
  simp [State.watch, h]

theorem busy_of_fullyBusy (hcall : s'.inCall i = true)
    (hbusy : s'.FullyBusy settings.maxOpenDatabases) :
    (s.watch settings.maxOpenDatabases i w a s').busy = true := by
  simp [State.watch, hcall, hbusy]

/-- Whoever holds the admission guard is in a call. -/
theorem Task.isRequest_of_admission {t : Task} (h : t.admission = true) : t.isRequest = true := by
  unfold Task.admission at h
  split at h
  all_goals first | rfl | simp at h

/-! ## The steps of the others -/

/-- A step that inserts nothing does not add a place, and adds one less for each name
that it unbinds. -/
theorem State.step_size (h : s.step settings a = some s')
    (hnone : ∀ name e, s.event a ≠ some (.insert name e)) :
    size s'.shared.entries ≤ size s.shared.entries ∧
      ∀ name e, s.shared.entries.lookup name = some e →
        s'.shared.entries.lookup name = some e ∨
          size s'.shared.entries < size s.shared.entries := by
  rcases State.step_map h with hmap | ⟨j, choice, u, rfl, hj, hmap⟩
  · rw [hmap]
    exact ⟨Nat.le_refl _, fun name e hl => Or.inl hl⟩
  · cases hmap with
    | kept hmap =>
      rw [hmap]
      exact ⟨Nat.le_refl _, fun name e hl => Or.inl hl⟩
    | inserted n hby =>
      exact absurd (show s.event (.step j choice) = some (.insert n _) by
        simpa [State.event, hj] using hby) (hnone n _)
    | removed n k hby hmap =>
      rw [hmap]
      refine ⟨size_erase_le _ _, fun name e hl => ?_⟩
      by_cases hname : name = n
      · subst hname
        exact Or.inr (size_erase_lt hl)
      · exact Or.inl ((AList.lookup_erase_ne hname).trans hl)
    | unlinked n k hby hmap =>
      rw [hmap]
      refine ⟨size_eraseIf_le _ _ _, fun name e hl => ?_⟩
      rw [lookup_eraseIf_of]
      split
      · rename_i hname
        obtain ⟨rfl, hk⟩ := hname
        right
        rw [eraseIf, if_pos hk]
        exact size_erase_lt hk
      · exact Or.inl hl
    | cleared hby hmap =>
      rw [hmap]
      refine ⟨Nat.zero_le _, fun name e hl => Or.inr ?_⟩
      exact Nat.lt_of_le_of_lt (Nat.zero_le _) (size_erase_lt hl)

theorem State.BoundOrRoom.step {name : String}
    (h : s.BoundOrRoom settings.maxOpenDatabases name) (hreach : (manager settings).Reachable s)
    (hstep : s.step settings a = some s')
    (hnone : ∀ name e, s.event a ≠ some (.insert name e)) :
    s'.BoundOrRoom settings.maxOpenDatabases name := by
  obtain ⟨hle, hbound⟩ := State.step_size hstep hnone
  rcases h with ⟨e, hl⟩ | hroom
  · rcases hbound name e hl with hl' | hlt
    · exact Or.inl ⟨e, hl'⟩
    · exact Or.inr (Nat.lt_of_lt_of_le hlt (size_le hreach))
  · exact Or.inr (Nat.lt_of_le_of_lt hle hroom)

/-- What a scan has found leased stays leased, or the scan misses something. -/
theorem State.SeenLeased.step {capacity : Nat} {sc : Scan String EntryId}
    (h : s.SeenLeased capacity sc) (hreach : (manager settings).Reachable s)
    (hstep : s.step settings a = some s')
    (hnone : ∀ name e, s.event a ≠ some (.insert name e)) :
    s.Misses i sc a s' ∨ s'.SeenLeased capacity sc := by
  by_cases hmisses : s.Misses i sc a s'
  · exact Or.inl hmisses
  · right
    refine ⟨?_, fun name e hl => h.initial name e (State.step_unbound hstep hnone hl), ?_⟩
    · have hsize := Nat.le_of_not_lt fun hlt => hmisses (Or.inl hlt)
      exact Nat.le_trans h.full hsize
    · intro name e hl hseen
      have hl₀ := State.step_unbound hstep hnone hl
      rcases State.step_holders hreach hstep (h.seen name e hl₀ hseen) with hpos | hidling
      · exact hpos
      · exact absurd (Or.inr (Or.inr ⟨e, hidling, name, hseen, hl₀⟩)) hmisses

/-- A task that raises a count is in `lease`. -/
theorem Task.at_lease {σ : Shared} {t : Task} {choice : Choice} {e : EntryId}
    (h : t.leasing σ choice = some e) :
    (∃ call pc, t = .acquire call (.lease e pc)) ∨
      ∃ pc rest n, t = .checkpointWal (.lease e pc rest n) := by
  unfold Task.leasing at h
  split at h
  · split at h
    · obtain rfl := Option.some.inj h
      exact Or.inl ⟨_, _, rfl⟩
    · simp at h
    · simp at h
    · simp at h
  · split at h
    · obtain rfl := Option.some.inj h
      exact Or.inr ⟨_, _, _, rfl⟩
    · simp at h
    · simp at h
    · simp at h
  · simp at h

/-- It leaves the bindings alone. -/
theorem MapStep.of_leasing {σ σ' : Shared} {t : Task} {choice : Choice} {e : EntryId}
    (h : MapStep σ σ' t choice) (hleasing : t.leasing σ choice = some e) :
    σ'.entries = σ.entries := by
  rcases Task.at_lease hleasing with ⟨call, pc, rfl⟩ | ⟨pc, rest, n, rfl⟩
  · cases h with
    | kept hmap => exact hmap
    | inserted _ hby | unlinked _ _ hby => simp [Task.event] at hby
    | removed _ _ hby => simp [Task.removing, Task.takePc] at hby
    | cleared hby => simp at hby
  · cases h with
    | kept hmap => exact hmap
    | inserted _ hby | unlinked _ _ hby => simp [Task.event] at hby
    | removed _ _ hby => simp [Task.removing, Task.takePc] at hby
    | cleared hby => simp at hby

/-- A lease on the only idle entry of a full registry makes it fully busy. -/
theorem State.OthersBusy.leased {capacity j : Nat} {choice : Choice} {e : EntryId} {u u' : Task}
    (h : s.OthersBusy capacity e) (hreach : (manager settings).Reachable s)
    (hstep : s.step settings (.step j choice) = some s') (hj : s.tasks[j]? = some u)
    (hj' : s'.tasks[j]? = some u') (hleasing : u.leasing s.shared choice = some e)
    (hlease : u'.lease = some e) : s'.FullyBusy capacity := by
  obtain ⟨spawned, hmove, _⟩ := State.step_own hstep hj hj'
  have hmap := (Task.step_branch hmove).map.of_leasing hleasing
  rw [State.FullyBusy, hmap]
  refine ⟨h.1, fun b hb => ?_⟩
  by_cases he : b.2 = e
  · exact holders_pos (List.mem_of_getElem? hj') (he ▸ hlease)
  · apply (State.step_holders hreach hstep (h.2 b hb he)).resolve_right
    intro hidling
    have hreleasing := Task.releasing_of_leasing hleasing
    cases choice <;> simp [State.idling, hj, hreleasing] at hidling

/-- A candidate that nobody takes away stays idle and linked, or the step leaves the
registry fully busy. -/
theorem State.Idle.step {capacity : Nat} {name : String} {e : EntryId} (h : s.Idle name e)
    (hreach : (manager settings).Reachable s) (hbefore : s.BeforeCloseAll)
    (hstep : s.step settings a = some s')
    (hnone : ∀ name e, s.event a ≠ some (.insert name e))
    (hfair : ∀ j choice, a = .step j choice → ∀ u ∈ s.tasks[j]?,
      ¬ s.Robs capacity u choice (name, e)) :
    s'.Idle name e ∨ s'.FullyBusy capacity := by
  obtain ⟨hl, hidle⟩ := h
  have hunheld {u : Task} (hu : u ∈ s.tasks) (hlease : u.lease = some e) : False := by
    have hpos := holders_pos hu hlease
    have hcount := ((counts_holders hreach e).of_pos hpos).1
    omega
  have hl' : s'.shared.entries.lookup name = some e := by
    rcases State.step_map hstep with hmap | ⟨j, choice, u, rfl, hj, hmap⟩
    · exact hmap ▸ hl
    · cases hmap with
      | kept hmap => exact hmap ▸ hl
      | inserted n hby =>
        exact absurd (show s.event (.step j choice) = some (.insert n _) by
          simpa [State.event, hj] using hby) (hnone n _)
      | removed n k hby hmap =>
        rw [hmap, AList.lookup_erase_ne]
        · exact hl
        · rintro rfl
          exact hfair j choice rfl u hj (Or.inl (by simp [hby]))
      | unlinked n k hby hmap =>
        -- A task that failed to open the candidate would hold a lease on it.
        obtain ⟨call, rfl, rfl⟩ := Task.unlink_of_event hby
        rw [hmap, lookup_eraseIf_of, if_neg]
        · exact hl
        · rintro ⟨rfl, hk⟩
          obtain rfl := Option.some.inj (hl.symm.trans hk)
          exact hunheld (List.mem_of_getElem? hj) rfl
      | cleared hby =>
        have hnever := hbefore u (List.mem_of_getElem? hj)
        rw [hby] at hnever
        simp [Task.isCloseAll] at hnever
  rcases State.step_entry hstep e with ⟨hword, _⟩ | ⟨j, choice, u, u', rfl, hj, hj', hentry⟩
  · exact Or.inl ⟨hl', hword.trans hidle⟩
  · cases hentry with
    | kept hword | stored _ hword => exact Or.inl ⟨hl', hword.trans hidle⟩
    | leased hby hlease =>
      right
      have hothers : s.OthersBusy capacity e := by
        by_contra hothers
        exact hfair j choice rfl u hj (Or.inr (Or.inr ⟨hby, hothers⟩))
      exact hothers.leased hreach hstep hj hj' hby hlease
    | released hby => exact (hunheld (List.mem_of_getElem? hj) (Task.lease_of_releasing hby)).elim
    | closed hby =>
      rcases hby with ⟨n, htaking⟩ | hcloseAll
      · exact absurd (Or.inr (Or.inl (by simp [htaking]))) (hfair j choice rfl u hj)
      · exact absurd hcloseAll (by simp [hbefore u (List.mem_of_getElem? hj)])
    | created _ _ _ hword => exact Or.inl ⟨hl', hword⟩

theorem Action.moves_eq_false (hother : ∀ choice, a ≠ .step i choice) : a.moves i = false := by
  cases a with
  | step j choice =>
    apply decide_eq_false
    intro hj
    exact hother choice (by rw [hj])
  | start | cancel | clock => rfl

/-- While a call is in `take`, a step of another task leaves its candidate alone, if the
step is fair, or there has been a fully busy instant. -/
theorem State.Idle.step_other {t : Task} {name : String} {e : EntryId}
    (hid : w.busy = true ∨ s.Idle name e) (hreach : (manager settings).Reachable s)
    (hbefore : s.BeforeCloseAll) (hstep : s.step settings a = some s')
    (hi : s.tasks[i]? = some t) (hi' : s'.tasks[i]? = some t)
    (hother : ∀ choice, a ≠ .step i choice) (hguard : t.admission = true)
    (hcandidate : (name, e) ∈ t.candidate s.shared)
    (hfair : w.busy = true ∨ s.Fair settings.maxOpenDatabases i w.missed a) :
    (s.watch settings.maxOpenDatabases i w a s').busy = true ∨ s'.Idle name e := by
  have hnone (name : String) (e : EntryId) : s.event a ≠ some (.insert name e) :=
    fun hev => hother .go (insert_alone hreach hi hguard hev)
  rcases hid with hbusy | hid
  · exact Or.inl (busy_watch hbusy)
  rcases hfair with hbusy | hfair
  · exact Or.inl (busy_watch hbusy)
  have hrob : ∀ j choice, a = .step j choice → ∀ u ∈ s.tasks[j]?,
      ¬ s.Robs settings.maxOpenDatabases u choice (name, e) := by
    rintro j choice rfl u hu
    have hne : j ≠ i := fun hj => hother choice (by rw [hj])
    have hall := hfair t hi
    rw [if_neg hne] at hall
    exact hall (name, e) hcandidate u hu
  rcases hid.step hreach hbefore hstep hnone hrob with hid' | hfull
  · exact Or.inr hid'
  · have hcall : s'.inCall i = true := by
      rw [State.inCall, hi']
      exact Task.isRequest_of_admission hguard
    exact Or.inl (busy_of_fullyBusy hcall hfull)

/-- What a call knows while it holds the admission guard, it knows after a step of
another task. -/
theorem AcquirePc.Knows.step_other {call : Call} {pc : AcquirePc}
    (hknows : pc.Knows s settings.maxOpenDatabases w) (hreach : (manager settings).Reachable s)
    (hbefore : s.BeforeCloseAll) (hstep : s.step settings a = some s')
    (hi : s.tasks[i]? = some (.acquire call pc)) (hi' : s'.tasks[i]? = some (.acquire call pc))
    (hother : ∀ choice, a ≠ .step i choice)
    (hfair : w.busy = true ∨ s.Fair settings.maxOpenDatabases i w.missed a) :
    pc.Knows s' settings.maxOpenDatabases (s.watch settings.maxOpenDatabases i w a s') := by
  have hnone (hguard : (Task.acquire call pc).admission = true) (name : String) (e : EntryId) :
      s.event a ≠ some (.insert name e) :=
    fun hev => hother .go (insert_alone hreach hi hguard hev)
  cases pc with
  | len attempts =>
    cases attempts with
    | zero => trivial
    | succ n =>
      show (s.watch _ i w a s').size < _
      rw [State.watch, Action.moves_eq_false hother]
      exact hknows
  | evict attempts pc =>
    cases pc with
    | scan sc candidate =>
      cases candidate with
      | some c => trivial
      | none =>
        show s.missed _ i w.missed a s' = true ∨ _
        rw [State.missed, hi]
        rcases hknows with hmissed | hseen
        · exact Or.inl (by simp [hmissed])
        · rcases hseen.step (i := i) hreach hstep (hnone rfl) with hmisses | hseen'
          · exact Or.inl (by simp [hmisses])
          · exact Or.inr hseen'
    | lastUsed => trivial
    | take pc =>
      cases pc with
      | get name =>
        rcases hknows with hbusy | ⟨e, hid⟩
        · exact Or.inl (busy_watch hbusy)
        · have hcandidate : (name, e) ∈
              (Task.acquire call (.evict attempts (.take (.get name)))).candidate s.shared :=
            Option.map_eq_some_iff.mpr ⟨e, hid.1, rfl⟩
          rcases State.Idle.step_other (Or.inr hid) hreach hbefore hstep hi hi' hother rfl
            hcandidate hfair with hbusy | hid'
          · exact Or.inl hbusy
          · exact Or.inr ⟨e, hid'⟩
      | beginClose name e =>
        exact ⟨State.Idle.step_other hknows.1 hreach hbefore hstep hi hi' hother rfl rfl hfair,
          hknows.2.step hreach hstep (hnone rfl)⟩
      | remove name e =>
        have hbound : s.BoundOrRoom settings.maxOpenDatabases name := hknows
        exact hbound.step hreach hstep (hnone rfl)
  | unlock entry =>
    cases entry with
    | none => exact busy_watch hknows
    | some e => trivial
  | done error => exact fun herror => busy_watch (hknows herror)
  | drop e held error pc => exact hknows
  | slots e error => exact hknows
  | get | lock | recheck | create | insert | lease | yield | tenantSlot | processSlot | ensureOpen
  | openPools | removeIf | touch | store | leased => trivial

/-! ## The steps of the call -/

/-- A scan that has missed nothing ends in a fully busy instant, if it has found no
candidate. -/
theorem State.SeenLeased.fullyBusy {capacity : Nat} {sc : Scan String EntryId}
    (h : s.SeenLeased capacity sc) (hfin : sc.finished s.shared.entries = true) :
    s.FullyBusy capacity := by
  refine ⟨h.full, fun b hb => ?_⟩
  have hl : s.shared.entries.lookup b.1 = some b.2 := mem_bindings.mp hb
  exact h.seen b.1 b.2 hl (Scan.seen_of_finished hfin (h.initial b.1 b.2 hl) hl)

section Own

variable {σ' : Shared} {tasks' : List Task} {call call' : Call} {choice : Choice}

/-- What a call knows in `evict_oldest_idle` after its own step. -/
theorem EvictBranch.knows {attempts : Nat} {pc pc' : EvictPc}
    (h : EvictBranch s.shared pc choice (σ', .next pc'))
    (hknows : (AcquirePc.evict attempts pc).Knows s settings.maxOpenDatabases w)
    (hreach : (manager settings).Reachable s) (hreach' : (manager settings).Reachable ⟨σ', tasks'⟩)
    (hi : s.tasks[i]? = some (.acquire call (.evict attempts pc)))
    (hfair : w.busy = true ∨ s.Fair settings.maxOpenDatabases i w.missed (.step i choice)) :
    (AcquirePc.evict attempts pc').Knows ⟨σ', tasks'⟩ settings.maxOpenDatabases
      (s.watch settings.maxOpenDatabases i w (.step i choice) ⟨σ', tasks'⟩) := by
  cases h with
  | @visitLeased sc _ candidate name e hvisit hw =>
    cases candidate with
    | some c => trivial
    | none =>
      obtain ⟨hl, _, rfl⟩ := Scan.visit_eq_some hvisit
      show s.missed _ i w.missed (.step i (.visit name)) _ = true ∨ _
      rw [State.missed, hi]
      rcases hknows with hmissed | hseen
      · exact Or.inl (by simp [hmissed])
      · by_cases hclosed : (s.shared.heap e).activeLeases = CLOSED
        · have hvisiting : s.visiting i (.step i (.visit name)) = some e := by
            simp [State.visiting, hl]
          have hmisses : s.Misses i sc (.step i (.visit name)) ⟨s.shared, tasks'⟩ :=
            Or.inr (Or.inl ⟨e, hvisiting, hclosed⟩)
          exact Or.inl (by simp [hmisses])
        · right
          have hstays {m : String} {j : EntryId} (hm : s.shared.entries.lookup m = some j)
              (hseenm : m ∈ sc.seen) : 0 < State.holders ⟨s.shared, tasks'⟩ j := by
            have hpos := hseen.seen m j hm hseenm
            obtain ⟨hcount, hopen⟩ := (counts_holders hreach j).of_pos hpos
            exact holders_of_word hreach' (hcount ▸ Nat.ne_of_gt hpos) hopen
          refine ⟨hseen.full, hseen.initial, fun m j hm hmem => ?_⟩
          rcases List.mem_cons.mp hmem with rfl | hmem
          · obtain rfl := Option.some.inj (hl.symm.trans hm)
            exact holders_of_word hreach' hw hclosed
          · exact hstays hm hmem
  | visitIdle => trivial
  | oldest hfin =>
    rcases hfair with hbusy | hfair
    · exact Or.inl (busy_watch hbusy)
    · have hown := hfair _ hi
      rw [if_pos rfl] at hown
      obtain ⟨e, hl, hidle⟩ := hown
      exact Or.inr ⟨e, hl, hidle⟩
  | older | newer => trivial
  | takeNext htake =>
    cases htake with
    | found hl =>
      refine ⟨?_, Or.inl ⟨_, hl⟩⟩
      rcases hknows with hbusy | ⟨e, hid⟩
      · exact Or.inl (busy_watch hbusy)
      · obtain rfl := Option.some.inj (hl.symm.trans hid.1)
        exact Or.inr hid
    | closed => exact hknows.2

/-- An eviction that fails has seen a fully busy instant. -/
theorem EvictBranch.busy {attempts : Nat} {pc : EvictPc}
    (h : EvictBranch s.shared pc choice (σ', .returned none))
    (hknows : (AcquirePc.evict attempts pc).Knows s settings.maxOpenDatabases w)
    (hrecorded : s.Recorded settings.maxOpenDatabases i w)
    (hi : s.tasks[i]? = some (.acquire call (.evict attempts pc)))
    (hfair : w.busy = true ∨ s.Fair settings.maxOpenDatabases i w.missed (.step i choice)) :
    w.busy = true := by
  cases h with
  | noCandidate hfin =>
    rcases hfair with hbusy | hfair
    · exact hbusy
    · have hmissed := hfair _ hi
      rw [if_pos rfl] at hmissed
      rcases hknows with hmissed' | hseen
      · exact absurd (hmissed.symm.trans hmissed') (by simp)
      · exact hrecorded (by simp [State.inCall, hi, Task.isRequest]) (hseen.fullyBusy hfin)
  | takeNone htake =>
    cases htake with
    | vacant hl =>
      rcases hknows with hbusy | ⟨e, hid⟩
      · exact hbusy
      · exact absurd (hl.symm.trans hid.1) (by simp)
    | leased hw =>
      rcases hknows.1 with hbusy | hid
      · exact hbusy
      · exact absurd hid.2 hw

/-- An eviction that succeeds makes room. -/
theorem EvictBranch.room {attempts : Nat} {pc : EvictPc} {e : EntryId}
    (h : EvictBranch s.shared pc choice (σ', .returned (some e)))
    (hknows : (AcquirePc.evict attempts pc).Knows s settings.maxOpenDatabases w)
    (hreach : (manager settings).Reachable s) : size σ'.entries < settings.maxOpenDatabases := by
  cases h with
  | takeSome htake =>
    cases htake with
    | remove =>
      rcases hknows with ⟨e, hl⟩ | hroom
      · exact Nat.lt_of_lt_of_le (size_erase_lt hl) (size_le hreach)
      · exact Nat.lt_of_le_of_lt (size_erase_le _ _) hroom

/-- What a call knows after its own step. -/
theorem AcquireBranch.knows {pc pc' : AcquirePc} {spawned : Option EntryId}
    (h : AcquireBranch settings s.shared call pc choice (σ', call', pc', spawned))
    (hknows : pc.Knows s settings.maxOpenDatabases w)
    (hrecorded : s.Recorded settings.maxOpenDatabases i w)
    (hreach : (manager settings).Reachable s) (hreach' : (manager settings).Reachable ⟨σ', tasks'⟩)
    (hi : s.tasks[i]? = some (.acquire call pc)) (hcount : countStep i (s, w) (.step i choice))
    (hfair : w.busy = true ∨ s.Fair settings.maxOpenDatabases i w.missed (.step i choice)) :
    pc'.Knows ⟨σ', tasks'⟩ settings.maxOpenDatabases
      (s.watch settings.maxOpenDatabases i w (.step i choice) ⟨σ', tasks'⟩) := by
  cases h with
  | @lenRefused attempts n hn hfull hattempts =>
    -- A place has become free, so the call does not come here.
    cases attempts with
    | zero => exact absurd hattempts (by decide)
    | succ k =>
      have hle : n ≤ w.size := hcount rfl
      have hlt : w.size < settings.maxOpenDatabases := hknows
      omega
  | @lenFull attempts n =>
    show s.missed _ i w.missed (.step i (.count n)) _ = true ∨ _
    rw [State.missed, hi]
    by_cases hroom : size s.shared.entries < settings.maxOpenDatabases
    · exact Or.inl (decide_eq_true hroom)
    · refine Or.inr ⟨Nat.le_of_not_lt hroom, fun name e hl => mem_bindings.mpr hl, ?_⟩
      exact fun name e _ hseen => absurd hseen List.not_mem_nil
  | evictNext hevict => exact hevict.knows hknows hreach hreach' hi hfair
  | evictNone hevict => exact busy_watch (hevict.busy hknows hrecorded hi hfair)
  | @evictSome attempts pc choice σ' e hevict =>
    cases attempts with
    | zero => trivial
    | succ k =>
      show (s.watch _ i w (.step i choice) _).size < _
      have hroom := hevict.room hknows hreach
      simpa [State.watch, Action.moves] using hroom
  | unlockNone => exact fun _ => busy_watch hknows
  | yieldLast hattempt =>
    intro _
    rcases hfair with hbusy | hfair
    · exact busy_watch hbusy
    · have hrounds := hfair _ hi
      rw [if_pos rfl] at hrounds
      exact absurd hrounds (Nat.not_lt.mpr hattempt)
  | dropNext | dropSlots => exact hknows
  | dropDone | slots => exact fun herror => absurd herror hknows
  | tenantSlotTimeout | processSlotTimeout | removeIf | leased =>
    -- The call ends with another error, or with none.
    simp [AcquirePc.Knows, openError]
  | _ => trivial

end Own

theorem TaskBranch.of_acquire {σ σ' : Shared} {t : Task} {choice : Choice} {call' : Call}
    {pc' : AcquirePc} {spawned : List Task}
    (h : TaskBranch settings σ t choice (σ', .acquire call' pc', spawned)) :
    ∃ call pc e, t = .acquire call pc ∧
      AcquireBranch settings σ call pc choice (σ', call', pc', e) := by
  cases h with
  | acquire h => exact ⟨_, _, _, rfl, h⟩

/-- A call whose future is dropped is not refused. -/
theorem TaskCancelBranch.knows {σ σ' : Shared} {t : Task} {call : Call} {pc' : AcquirePc}
    (h : TaskCancelBranch σ t (σ', .acquire call pc')) (capacity : Nat) :
    pc'.Knows s capacity w := by
  cases h with
  | acquire h => cases h <;> simp [AcquirePc.Knows]

theorem validateDatabaseName_error {name : String} {error : AppError}
    (h : validateDatabaseName name = .error error) : error = .invalidDatabaseName := by
  simp only [validateDatabaseName] at h
  split at h
  · simp at h
  · exact (Except.error.inj h).symm

/-- A new call knows nothing. -/
theorem Operation.knows {operation : Operation} {call : Call} {pc : AcquirePc}
    (h : operation.task = .acquire call pc) (capacity : Nat) : pc.Knows s capacity w := by
  cases operation with
  | acquire name =>
    simp only [Operation.task] at h
    split at h
    · obtain ⟨rfl, rfl⟩ := Task.acquire.inj h
      trivial
    · rename_i error hinvalid
      obtain ⟨rfl, rfl⟩ := Task.acquire.inj h
      simp [AcquirePc.Knows, validateDatabaseName_error hinvalid]
  | cleanupIdle | checkpointWal | closeAll => simp [Operation.task] at h

/-! ## The runs -/

/-- In the runs that meet the condition, what the call knows is true. -/
theorem call_knows (h : (watch settings i).ReachableVia (fairStep settings i) (s, w)) :
    s.Recorded settings.maxOpenDatabases i w ∧
      ∀ call pc, s.tasks[i]? = some (.acquire call pc) →
        pc.Knows s settings.maxOpenDatabases w := by
  refine h.invariant (I := fun q => q.1.Recorded settings.maxOpenDatabases i q.2 ∧
    ∀ call pc, q.1.tasks[i]? = some (.acquire call pc) →
      pc.Knows q.1 settings.maxOpenDatabases q.2) ?_ ?_
  · constructor
    · intro hcall
      exact absurd hcall (by simp [watch, StepSystem.observe, manager, State.inCall])
    · intro call pc hi
      exact absurd hi (by simp [watch, StepSystem.observe, manager])
  · rintro ⟨s, w⟩ a ⟨s', w'⟩ hr ⟨hrecorded, hknows⟩ ⟨⟨_, hcount⟩, hfair⟩ hs
    obtain ⟨hstep, rfl⟩ : s.step settings a = some s' ∧
        w' = s.watch settings.maxOpenDatabases i w a s' := StepSystem.observe_step.mp hs
    have hreach : (manager settings).Reachable s :=
      StepSystem.ReachableVia.of_observe (fun _ _ => True) hr.reachable
    have hbefore : s.BeforeCloseAll := reachable_beforeCloseAll (fun _ _ => id)
      (StepSystem.ReachableVia.of_observe (fun _ a => a.beforeCloseAll)
        (hr.mono fun _ _ hok => hok.1.1))
    have hreach' : (manager settings).Reachable s' := hreach.step trivial hstep
    refine ⟨fun hcall hbusy => busy_of_fullyBusy hcall hbusy, ?_⟩
    intro call pc hi'
    refine State.forall_step
      (P := fun k t => k = i → ∀ call pc, t = .acquire call pc →
        pc.Knows s settings.maxOpenDatabases w)
      (Q := fun k t => k = i → ∀ call pc, t = .acquire call pc →
        pc.Knows s' settings.maxOpenDatabases (s.watch settings.maxOpenDatabases i w a s'))
      hstep ?_ ?_ ?_ ?_ ?_ ?_ i _ hi' rfl call pc rfl
    · rintro k t hk rfl call pc rfl
      exact hknows call pc hk
    · rintro k t hk hk' hother hold rfl call pc rfl
      exact (hold rfl call pc rfl).step_other hreach hbefore hstep hk hk' hother hfair
    · rintro k choice t t' spawned rfl hk hk' hbranch hold rfl call' pc' rfl
      obtain ⟨call, pc, e, rfl, hacquire⟩ := hbranch.of_acquire
      have hafter : (manager settings).Reachable ⟨s'.shared, s'.tasks⟩ := hreach'
      exact hacquire.knows (hold rfl call pc rfl) hrecorded hreach hafter hk hcount hfair
    · rintro k t t' _ hk hbranch hold rfl call pc rfl
      exact hbranch.knows settings.maxOpenDatabases
    · rintro operation _ _ call pc hpc
      exact Operation.knows hpc settings.maxOpenDatabases
    · rintro k e _ call pc hpc
      exact absurd hpc (by simp)

/-- A fully busy instant of the call is recorded. -/
theorem recorded {ok : State × Watch → Action → Prop}
    (h : (watch settings i).ReachableVia ok (s, w)) :
    s.Recorded settings.maxOpenDatabases i w := by
  refine h.invariant (I := fun q => q.1.Recorded settings.maxOpenDatabases i q.2) ?_ ?_
  · intro hcall
    exact absurd hcall (by simp [watch, StepSystem.observe, manager, State.inCall])
  · rintro ⟨s, w⟩ a ⟨s', w'⟩ _ _ _ hs hcall hbusy
    obtain ⟨_, rfl⟩ : s.step settings a = some s' ∧
        w' = s.watch settings.maxOpenDatabases i w a s' := StepSystem.observe_step.mp hs
    exact busy_of_fullyBusy hcall hbusy

/-- There has been a fully busy instant during the call exactly if one is recorded. -/
theorem busy_iff {ok : State × Watch → Action → Prop}
    (h : (watch settings i).ReachableVia ok (s, w)) :
    w.busy = true ↔ ∃ q : State × Watch, (watch settings i).ReachableVia ok q ∧
      (watch settings i).RunFrom ok q (s, w) ∧ q.1.inCall i = true ∧
      q.1.FullyBusy settings.maxOpenDatabases := by
  constructor
  · refine h.invariant (I := fun p => p.2.busy = true → ∃ q : State × Watch,
      (watch settings i).ReachableVia ok q ∧ (watch settings i).RunFrom ok q p ∧
      q.1.inCall i = true ∧ q.1.FullyBusy settings.maxOpenDatabases) ?_ ?_
    · intro hbusy
      exact absurd hbusy (by simp [watch, StepSystem.observe])
    · rintro ⟨s, w⟩ a ⟨s', w'⟩ hr hI hok hs hbusy
      obtain ⟨_, rfl⟩ : s.step settings a = some s' ∧
          w' = s.watch settings.maxOpenDatabases i w a s' := StepSystem.observe_step.mp hs
      rcases Bool.or_eq_true_iff.mp hbusy with hold | hnow
      · obtain ⟨q, hq, hrun, hcall⟩ := hI hold
        exact ⟨q, hq, hrun.step a hok hs, hcall⟩
      · obtain ⟨hcall, hfull⟩ := Bool.and_eq_true_iff.mp hnow
        exact ⟨_, hr.step hok hs, .refl, hcall, of_decide_eq_true hfull⟩
  · rintro ⟨q, hq, hrun, hcall, hfull⟩
    refine hrun.invariant (I := fun p => p.2.busy = true) (recorded hq hcall hfull) ?_
    rintro ⟨s, w⟩ a ⟨s', w'⟩ _ hbusy _ hs
    obtain ⟨_, rfl⟩ : s.step settings a = some s' ∧
        w' = s.watch settings.maxOpenDatabases i w a s' := StepSystem.observe_step.mp hs
    exact busy_watch hbusy

end Knows

/-! ## The law -/

/-- A call is refused only when every open database is busy, in the runs in which it
loses no race: at some instant during the call the registry was full and every
linked entry had a live lease. -/
theorem refused_when_busy {i : Nat} {p : State × Watch}
    (h : (watch settings i).ReachableVia (fairStep settings i) p) {call : Call}
    (hrefused : p.1.tasks[i]? = some (.acquire call (.done (some .capacityBusy)))) :
    ∃ q : State × Watch, (watch settings i).ReachableVia (fairStep settings i) q ∧
      (watch settings i).RunFrom (fairStep settings i) q p ∧ q.1.inCall i = true ∧
      settings.maxOpenDatabases ≤ size q.1.shared.entries ∧
      ∀ name e, q.1.shared.entries.lookup name = some e → 0 < q.1.holders e := by
  obtain ⟨q, hq, hrun, hcall, hfull, hbusy⟩ :=
    (busy_iff h).mp ((call_knows h).2 call _ hrefused rfl)
  exact ⟨q, hq, hrun, hcall, hfull, fun name e hl => hbusy (name, e) (mem_bindings.mpr hl)⟩

/-- A call for `b`, task 1, selects the only database, which is idle.  Before it looks
it up in `take`, task 2 leases it. -/
def lostRace : List Action :=
  coldAcquire 0 "a" 0 ++ dropLease 0 ++ .start (.acquire "b") :: goes 1 3 ++
    .step 1 (.count 1) :: .step 1 (.visit "a") :: goes 1 2 ++ warmAcquire 2 "a" ++ goes 1 3

/-- The call is refused, and the only database was busy. -/
theorem refused_when_busy_leased : ∃ q : State × Watch, q.1.inCall 1 = true ∧
    ∀ name e, q.1.shared.entries.lookup name = some e → 0 < q.1.holders e := by
  have hrefused : ((watch oneDatabase 1).play (fun q a => decide (fairStep oneDatabase 1 q a))
      lostRace).1.tasks[1]? = some (.acquire ⟨"b", 0⟩ (.done (some .capacityBusy))) := by decide
  obtain ⟨q, _, _, hcall, _, hbusy⟩ := refused_when_busy
    (StepSystem.reachable_play (M := watch oneDatabase 1)
      (fun _ _ h => of_decide_eq_true h) lostRace) hrefused
  exact ⟨q, hcall, hbusy⟩

/-! ## Without the condition -/

/-- Databases `a` and `b` are idle, and a call for `c`, task 2, selects `a`.  Before it
looks `a` up in `take`, task 3 leases it.  The call does not try `b`. -/
def lostCandidate : List Action :=
  coldAcquire 0 "a" 0 ++ dropLease 0 ++ .clock 1000 :: coldAcquire 1 "b" 1 ++ dropLease 1 ++
    .clock 2000 :: .start (.acquire "c") :: goes 2 3 ++ .step 2 (.count 2) ::
    .step 2 (.visit "a") :: goes 2 1 ++ .step 2 (.visit "b") :: goes 2 2 ++ warmAcquire 3 "a" ++
    goes 2 3

/-- The only database is idle and `cleanup_idle`, task 1, has closed it, but has not
unlinked it.  A call for `b`, task 2, passes it in its scan. -/
def closedCandidate : List Action :=
  coldAcquire 0 "a" 0 ++ dropLease 0 ++ .clock 400000 :: .start .cleanupIdle ::
    cleanupRound 1 "a" 4 ++ .start (.acquire "b") :: goes 2 3 ++ .step 2 (.count 1) ::
    .step 2 (.visit "a") :: goes 2 2

/-- A call during which no fully busy instant is recorded has had none. -/
theorem never_fullyBusy {i : Nat} {ok : State × Watch → Action → Prop} {p q : State × Watch}
    (h : (watch settings i).ReachableVia ok p) (hbusy : p.2.busy = false)
    (hq : (watch settings i).ReachableVia ok q) (hrun : (watch settings i).RunFrom ok q p)
    (hcall : q.1.inCall i = true) : ¬ q.1.FullyBusy settings.maxOpenDatabases := by
  intro hfull
  have hrecorded := (busy_iff h).mpr ⟨q, hq, hrun, hcall, hfull⟩
  exact absurd hrecorded (by simp [hbusy])

/-- In both runs task 2 is refused, and at no instant of its call was every linked
entry leased. -/
theorem refused_while_idle :
    (∃ p : State × Watch, (watch twoDatabases 2).ReachableVia (callStep 2) p ∧
      p.1.tasks[2]? = some (.acquire ⟨"c", 0⟩ (.done (some .capacityBusy))) ∧
      ∀ q : State × Watch, (watch twoDatabases 2).ReachableVia (callStep 2) q →
        (watch twoDatabases 2).RunFrom (callStep 2) q p → q.1.inCall 2 = true →
        ¬ q.1.FullyBusy 2) ∧
    (∃ p : State × Watch, (watch oneDatabase 2).ReachableVia (callStep 2) p ∧
      p.1.tasks[2]? = some (.acquire ⟨"b", 0⟩ (.done (some .capacityBusy))) ∧
      ∀ q : State × Watch, (watch oneDatabase 2).ReachableVia (callStep 2) q →
        (watch oneDatabase 2).RunFrom (callStep 2) q p → q.1.inCall 2 = true →
        ¬ q.1.FullyBusy 1) := by
  have hlost : (watch twoDatabases 2).ReachableVia (callStep 2)
      ((watch twoDatabases 2).play (fun q a => decide (callStep 2 q a)) lostCandidate) :=
    StepSystem.reachable_play (fun _ _ h => of_decide_eq_true h) _
  have hclosed : (watch oneDatabase 2).ReachableVia (callStep 2)
      ((watch oneDatabase 2).play (fun q a => decide (callStep 2 q a)) closedCandidate) :=
    StepSystem.reachable_play (fun _ _ h => of_decide_eq_true h) _
  exact ⟨⟨_, hlost, by decide, fun q => never_fullyBusy hlost (by decide)⟩,
    ⟨_, hclosed, by decide, fun q => never_fullyBusy hclosed (by decide)⟩⟩

end Tinkiva.Manager
