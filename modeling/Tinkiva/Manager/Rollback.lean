import Tinkiva.Manager.Capacity
import Tinkiva.Manager.Idle
import Tinkiva.Manager.Steps

/-!
# What a refused call leaves behind

A call of `acquire` can fail at several places, and each of them leaves another part
of the work done.  The entry is admitted before the waits for the two permits, so a
call that is shed may have evicted an idle database; that is the only trace.

The law compares two runs from one state.  In one the call is made, takes its steps
and fails, while the other tasks only drop leases and give permits back.  In the
other, `z`, the call is not made and the other tasks do the same.  The two runs are
followed side by side, with the trace that the call has left so far; in the end the
leases and the permits agree because both runs account for them.
-/

namespace Tinkiva.Manager

open Tinkiva.Config Tinkiva.Protocol ConcurrentMap TaskPool SentinelCounter

variable {settings : DatabaseSettings}

/-! ## Lease drops and slot releases -/

/-- The task is dropping its lease or giving its permits back, or is about to. -/
def Task.givesBack : Task → Bool
  | .acquire _ (.leased _) | .acquire _ (.drop _ _ _ _) | .acquire _ (.slots _ _)
  | .checkpointWal (.drop _ _ _ _) | .checkpointWal (.abort _ _) => true
  | _ => false

/-- A step of a task that drops its lease or gives its permits back, the drop of a
future that holds a lease, or a step of the clock. -/
def releaseStep (s : State) : Action → Prop
  | .step j _ => ∃ t ∈ s.tasks[j]?, t.givesBack = true
  | .cancel j => ∃ t ∈ s.tasks[j]?, t.lease.isSome = true
  | .clock _ => True
  | .start _ => False

/-- The steps while the call that is task `i` is made: its own ones, in which
`DashMap::len` counts right as nobody else unlinks an entry, and releases of the
others. -/
def loneStep (i : Nat) (s : State) : Action → Prop
  | .step j (.count n) => j = i ∧ n ≤ size s.shared.entries
  | .step j choice => j = i ∨ releaseStep s (.step j choice)
  | .cancel j => j ≠ i ∧ releaseStep s (.cancel j)
  | .clock _ => True
  | .start _ => False

instance (s : State) : DecidablePred (releaseStep s)
  | .step j _ => inferInstanceAs (Decidable (∃ t ∈ s.tasks[j]?, _))
  | .cancel j => inferInstanceAs (Decidable (∃ t ∈ s.tasks[j]?, _))
  | .clock _ => isTrue trivial
  | .start _ => isFalse id

instance (i : Nat) (s : State) : DecidablePred (loneStep i s)
  | .step _ (.count _) => inferInstanceAs (Decidable (_ ∧ _))
  | .step _ .go | .step _ .fail | .step _ (.visit _) => inferInstanceAs (Decidable (_ ∨ _))
  | .cancel _ => inferInstanceAs (Decidable (_ ∧ _))
  | .clock _ => isTrue trivial
  | .start _ => isFalse id

section Release

variable {s s' : State} {a : Action}

theorem DropBranch.created {σ σ' : Shared} {e : EntryId} {pc : DropPc} {pc' : Option DropPc}
    (h : DropBranch σ e pc (σ', pc')) : σ'.created = σ.created := by
  cases h <;> rfl

/-- A task that gives back what it holds leaves the bindings alone. -/
theorem TaskBranch.givesBack {σ σ' : Shared} {t t' : Task} {choice : Choice}
    {spawned : List Task} (h : TaskBranch settings σ t choice (σ', t', spawned))
    (ht : t.givesBack = true) :
    σ'.entries = σ.entries ∧ σ'.created = σ.created ∧ spawned = [] := by
  cases h with
  | acquire h =>
    cases h with
    | dropNext hdrop | dropSlots hdrop | dropDone hdrop => exact ⟨hdrop.map, hdrop.created, rfl⟩
    | leased | slots => exact ⟨rfl, rfl, rfl⟩
    | _ => simp [Task.givesBack] at ht
  | checkpointWal h =>
    cases h with
    | dropNext hdrop | dropDone hdrop | abortNext hdrop | abortDone hdrop =>
      exact ⟨hdrop.map, hdrop.created, rfl⟩
    | _ => simp [Task.givesBack] at ht
  | cleanupIdle | closeEntry | closeAll => simp [Task.givesBack] at ht

/-- It does the same whatever the others have done. -/
theorem Task.step_givesBack {σ σ' σz : Shared} {t t' : Task} {choice : Choice}
    {spawned : List Task} (ht : t.givesBack = true)
    (h : t.step settings σ choice = some (σ', t', spawned)) (hnow : σz.now = σ.now) :
    ∃ σz', t.step settings σz choice = some (σz', t', []) := by
  cases Task.step_branch h with
  | acquire hbranch =>
    cases hbranch with
    | leased | slots => exact ⟨_, rfl⟩
    | dropNext hdrop =>
      cases hdrop with
      | touch => exact ⟨σz, by simp [Task.step, acquireStep, dropStep, hnow]⟩
      | store => exact ⟨_, rfl⟩
    | dropSlots hdrop | dropDone hdrop =>
      cases hdrop with
      | fetchSub => exact ⟨_, rfl⟩
    | _ => simp [Task.givesBack] at ht
  | checkpointWal hbranch =>
    cases hbranch with
    | dropNext hdrop | abortNext hdrop =>
      cases hdrop with
      | touch => exact ⟨σz, by simp [Task.step, checkpointStep, dropStep, hnow]⟩
      | store => exact ⟨_, rfl⟩
    | dropDone hdrop | abortDone hdrop =>
      cases hdrop with
      | fetchSub => exact ⟨_, rfl⟩
    | _ => simp [Task.givesBack] at ht
  | cleanupIdle | closeEntry | closeAll => simp [Task.givesBack] at ht

theorem TaskCancelBranch.shared {σ σ' : Shared} {t t' : Task}
    (h : TaskCancelBranch σ t (σ', t')) :
    σ'.entries = σ.entries ∧ σ'.created = σ.created ∧ σ'.now = σ.now := by
  cases h with
  | acquire h => cases h <;> exact ⟨rfl, rfl, rfl⟩
  | cleanupIdle | checkpointWal => exact ⟨rfl, rfl, rfl⟩

/-- A future that is dropped is dropped in the same way whatever the others have
done. -/
theorem Task.cancel_anywhere {σ σ' : Shared} {t t' : Task} (hlease : t.lease.isSome = true)
    (h : t.cancel σ = some (σ', t')) (σz : Shared) : ∃ σz', t.cancel σz = some (σz', t') := by
  cases Task.cancel_branch h with
  | acquire hbranch => cases hbranch <;> exact ⟨_, rfl⟩
  | cleanupIdle => simp [Task.lease] at hlease
  | checkpointWal => exact ⟨_, rfl⟩

theorem Task.not_closing {t : Task} (h : t.givesBack = true) :
    t.taking = none ∧ t.isCloseAll = false := by
  unfold Task.givesBack at h
  split at h
  all_goals first | exact ⟨rfl, rfl⟩ | simp at h

/-- A release leaves the bindings alone and closes nothing. -/
theorem release_frame (hreach : (manager settings).Reachable s) (hok : releaseStep s a)
    (hstep : s.step settings a = some s') :
    s'.shared.entries = s.shared.entries ∧ s'.shared.created = s.shared.created ∧
      ∀ e, (s'.shared.heap e).activeLeases = CLOSED → (s.shared.heap e).activeLeases = CLOSED := by
  have hclosed (e : EntryId) (hclosed : (s'.shared.heap e).activeLeases = CLOSED) :
      (s.shared.heap e).activeLeases = CLOSED := by
    rcases State.step_closed hreach hstep hclosed with hold | ⟨_, i, choice, t, rfl, hi, hby⟩
    · exact hold
    · obtain ⟨u, hu, hgives⟩ := hok
      obtain rfl := Option.some.inj (hi.symm.trans hu)
      obtain ⟨htaking, hcloseAll⟩ := Task.not_closing hgives
      simp [htaking, hcloseAll] at hby
  rcases State.step_cases hstep with ⟨operation, rfl, _⟩ |
    ⟨i, choice, t, σ', t', spawned, rfl, hi, hmove, hadv⟩ | ⟨i, t, σ', t', rfl, hi, hcancel, hadv⟩ |
    ⟨nowMs, rfl, rfl⟩
  · exact hok.elim
  · obtain ⟨u, hu, hgives⟩ := hok
    obtain rfl := Option.some.inj (hi.symm.trans hu)
    obtain ⟨hmap, hcreated, _⟩ := (Task.step_branch hmove).givesBack hgives
    obtain ⟨rfl, _⟩ := State.advance_eq_some hadv
    exact ⟨hmap, hcreated, hclosed⟩
  · obtain ⟨hmap, hcreated, _⟩ := (Task.cancel_branch hcancel).shared
    obtain ⟨rfl, _⟩ := State.advance_eq_some hadv
    exact ⟨hmap, hcreated, hclosed⟩
  · exact ⟨rfl, rfl, hclosed⟩

/-- What the releases of a run leave alone. -/
theorem release_run (hreach : (manager settings).Reachable s)
    (hrun : (manager settings).RunFrom releaseStep s s') :
    s'.shared.created = s.shared.created ∧
      ∀ e, (s'.shared.heap e).activeLeases = CLOSED ↔ (s.shared.heap e).activeLeases = CLOSED := by
  refine hrun.invariant (I := fun z => z.shared.created = s.shared.created ∧
    ∀ e, (z.shared.heap e).activeLeases = CLOSED ↔ (s.shared.heap e).activeLeases = CLOSED)
    ⟨rfl, fun e => Iff.rfl⟩ ?_
  rintro z b z' hr ⟨hcreated, hclosed⟩ hok hstep
  have hz : (manager settings).Reachable z := hreach.trans (hr.mono fun _ _ _ => trivial)
  obtain ⟨_, hcreated', hback⟩ := release_frame hz hok hstep
  refine ⟨hcreated'.trans hcreated, fun e => ?_⟩
  rw [← hclosed e]
  exact ⟨hback e, closed_step hz hstep⟩

/-! ## The run without the call -/

/-- The task that an action is about. -/
def Action.task : Action → Option Nat
  | .step j _ | .cancel j => some j
  | .start _ | .clock _ => none

/-- A task moves when the references that it owns are bounded. -/
theorem State.advance_of_arcs {z : State} {i : Nat} {σ' : Shared} {t' : Task}
    (h : ∀ e ∈ t'.arcs, State.arcCount ⟨σ', update z.tasks i t' []⟩ e < CLOSED) :
    z.advance i σ' t' [] = some ⟨σ', update z.tasks i t' []⟩ := by
  rw [State.advance, if_pos]
  simpa using h

/-- A release of one of the tasks of `z` is possible where only these tasks are, with
the same effect on them. -/
theorem release_beside {z : State} {rest : List Task} (htasks : s.tasks = z.tasks ++ rest)
    (hnow : z.shared.now = s.shared.now) (hok : releaseStep s a)
    (hlt : ∀ j ∈ a.task, j < z.tasks.length) (hstep : s.step settings a = some s') :
    ∃ z' : State, releaseStep z a ∧ z.step settings a = some z' ∧
      s'.tasks = z'.tasks ++ rest ∧ z'.tasks.length = z.tasks.length ∧
      z'.shared.now = s'.shared.now := by
  have hat {j : Nat} {t : Task} (hj : s.tasks[j]? = some t) (hlt : j < z.tasks.length) :
      z.tasks[j]? = some t := by
    rw [htasks, List.getElem?_append_left hlt] at hj
    exact hj
  have hmove {i : Nat} {t' : Task} {σ' : Shared} (σz : Shared) (hi : i < z.tasks.length)
      (harcs : ∀ e ∈ t'.arcs, State.arcCount ⟨σ', update s.tasks i t' []⟩ e < CLOSED) :
      update s.tasks i t' [] = update z.tasks i t' [] ++ rest ∧
        z.advance i σz t' [] = some ⟨σz, update z.tasks i t' []⟩ := by
    have heq : update s.tasks i t' [] = update z.tasks i t' [] ++ rest := by
      simp [update, htasks, List.set_append_left _ _ hi]
    refine ⟨heq, State.advance_of_arcs fun e he => ?_⟩
    have hall := harcs e he
    rw [State.arcCount, heq, tally_append] at hall
    exact Nat.lt_of_le_of_lt (Nat.le_add_right _ _) hall
  rcases State.step_cases hstep with ⟨operation, rfl, _⟩ |
    ⟨i, choice, t, σ', t', spawned, rfl, hi, hown, hadv⟩ | ⟨i, t, σ', t', rfl, hi, hcancel, hadv⟩ |
    ⟨nowMs, rfl, rfl⟩
  · exact hok.elim
  · obtain ⟨u, hu, hgives⟩ := hok
    obtain rfl := Option.some.inj (hi.symm.trans hu)
    have hbranch := Task.step_branch hown
    obtain ⟨_, _, rfl⟩ := hbranch.givesBack hgives
    obtain ⟨rfl, harcs⟩ := State.advance_eq_some hadv
    have hi' := hat hi (hlt i rfl)
    obtain ⟨σz, hz⟩ := Task.step_givesBack hgives hown hnow
    obtain ⟨heq, hadv'⟩ := hmove σz (hlt i rfl) (harcs t' List.mem_cons_self)
    refine ⟨⟨σz, update z.tasks i t' []⟩, ⟨t, hi', hgives⟩, ?_, heq, by simp [update], ?_⟩
    · simp only [State.step, hi', hz]
      exact hadv'
    · exact (Task.step_branch hz).now.trans (hnow.trans hbranch.now.symm)
  · obtain ⟨u, hu, hlease⟩ := hok
    obtain rfl := Option.some.inj (hi.symm.trans hu)
    obtain ⟨rfl, harcs⟩ := State.advance_eq_some hadv
    have hi' := hat hi (hlt i rfl)
    obtain ⟨σz, hz⟩ := Task.cancel_anywhere hlease hcancel z.shared
    obtain ⟨heq, hadv'⟩ := hmove σz (hlt i rfl) (harcs t' List.mem_cons_self)
    refine ⟨⟨σz, update z.tasks i t' []⟩, ⟨t, hi', hlease⟩, ?_, heq, by simp [update], ?_⟩
    · simp only [State.step, hi', hz]
      exact hadv'
    · have hsame := (Task.cancel_branch hcancel).shared.2.2
      exact (Task.cancel_branch hz).shared.2.2.trans (hnow.trans hsame.symm)
  · exact ⟨{ z with shared := { z.shared with now := nowMs } }, trivial, rfl, htasks, rfl, rfl⟩

end Release

/-! ## The trace of the call -/

/-- Every binding of the start is still there, or its entry was evicted. -/
def Keeps (σ₀ : Shared) (m : Map String EntryId) (evicted : Option EntryId) : Prop :=
  ∀ n e, σ₀.entries.lookup n = some e → m.lookup n = some e ∨ evicted = some e

/-- The same, but for the name of a call whose open has failed. -/
def KeepsOthers (σ₀ : Shared) (m : Map String EntryId) (evicted : Option EntryId) (name : String)
    (error : Option AppError) : Prop :=
  ∀ n e, σ₀.entries.lookup n = some e →
    m.lookup n = some e ∨ evicted = some e ∨ error = some openError ∧ n = name

/-- The call has unlinked nothing. -/
def Untouched (σ₀ : Shared) (m : Map String EntryId) (evicted : Option EntryId) : Prop :=
  evicted = none ∧ m = σ₀.entries

/-- The call had to make room: its name was not linked and the registry was full. -/
def NeedsRoom (σ₀ : Shared) (capacity : Nat) (name : String) : Prop :=
  σ₀.entries.lookup name = none ∧ capacity ≤ size σ₀.entries

/-- The call ends well, is shed, or fails to open its database. -/
def Admitted (error : Option AppError) : Prop :=
  error = none ∨ error = some .overloaded ∨ error = some openError

/-- The entry that the call has closed and not yet unlinked. -/
def AcquirePc.closing : AcquirePc → Option EntryId
  | .evict _ (.take (.remove _ e)) => some e
  | _ => none

/-- What the call has done to the bindings of the start, where it stands. -/
def AcquirePc.Leaves (σ₀ : Shared) (m : Map String EntryId) (capacity : Nat) (name : String)
    (evicted : Option EntryId) : AcquirePc → Prop
  | .get | .lock | .recheck | .yield | .unlock none => Untouched σ₀ m evicted
  | .len _ => Untouched σ₀ m evicted ∧ σ₀.entries.lookup name = none ∨
    Keeps σ₀ m evicted ∧ m.lookup name = none ∧ size m < capacity
  | .evict _ (.take (.beginClose n e)) | .evict _ (.take (.remove n e)) =>
    Untouched σ₀ m evicted ∧ NeedsRoom σ₀ capacity name ∧ σ₀.entries.lookup n = some e
  | .evict _ _ => Untouched σ₀ m evicted ∧ NeedsRoom σ₀ capacity name
  | .create | .insert _ => Keeps σ₀ m evicted ∧ m.lookup name = none
  | .unlock (some e) | .lease e _ =>
    Untouched σ₀ m evicted ∨ Keeps σ₀ m evicted ∧ σ₀.created ≤ e
  | .tenantSlot _ | .processSlot _ | .ensureOpen _ | .openPools _ | .removeIf _ | .touch _
  | .store _ _ | .leased _ => Keeps σ₀ m evicted
  | .drop _ _ error _ | .slots _ error => KeepsOthers σ₀ m evicted name error ∧ Admitted error
  | .done error => KeepsOthers σ₀ m evicted name error ∧ (evicted = none ∨ Admitted error)

section Trace

variable {σ₀ σ σ' : Shared} {m : Map String EntryId} {evicted : Option EntryId}
  {call call' : Call} {pc pc' : AcquirePc} {choice : Choice}

theorem Untouched.keeps (h : Untouched σ₀ m evicted) : Keeps σ₀ m evicted :=
  fun _ _ hl => Or.inl (h.2 ▸ hl)

theorem Keeps.others (h : Keeps σ₀ m evicted) (name : String) (error : Option AppError) :
    KeepsOthers σ₀ m evicted name error :=
  fun n e hl => (h n e hl).imp id Or.inl

theorem AcquirePc.Leaves.evicting {attempts : Nat} {pc : EvictPc} {capacity : Nat} {name : String}
    (h : (AcquirePc.evict attempts pc).Leaves σ₀ m capacity name evicted) :
    Untouched σ₀ m evicted ∧ NeedsRoom σ₀ capacity name := by
  unfold AcquirePc.Leaves at h
  split at h
  all_goals simp_all

theorem AcquirePc.Leaves.closing_linked {capacity : Nat} {name : String} {e : EntryId}
    (h : pc.Leaves σ₀ m capacity name evicted) (hclosing : pc.closing = some e) :
    ∃ n, σ₀.entries.lookup n = some e := by
  unfold AcquirePc.closing at hclosing
  split at hclosing
  · obtain rfl := Option.some.inj hclosing
    exact ⟨_, h.2.2⟩
  · simp at hclosing

/-- `lease` refuses a closed entry only. -/
theorem closed_of_refused {word : Nat} {pc : LeasePc}
    (h : leaseStep word pc choice = some .refused) : word = CLOSED := by
  have hloop (h : leaseLoop word = .refused) : word = CLOSED := by
    unfold leaseLoop at h
    split at h
    · assumption
    · simp at h
  unfold leaseStep at h
  split at h
  · exact hloop (Option.some.inj h)
  · split at h
    · simp at h
    · exact hloop (Option.some.inj h)
  · exact hloop (Option.some.inj h)
  · simp at h

theorem EvictBranch.leaves {attempts capacity : Nat} {name : String} {pc pc' : EvictPc}
    (h : EvictBranch σ pc choice (σ', .next pc'))
    (hleaves : (AcquirePc.evict attempts pc).Leaves σ₀ σ.entries capacity name evicted) :
    (AcquirePc.evict attempts pc').Leaves σ₀ σ'.entries capacity name evicted := by
  cases h with
  | visitLeased | visitIdle | oldest | older | newer => exact hleaves
  | takeNext htake =>
    cases htake with
    | found hl =>
      have hsame : Untouched σ₀ σ.entries evicted := hleaves.1
      exact ⟨hleaves.1, hleaves.2, hsame.2 ▸ hl⟩
    | closed => exact hleaves

/-- What the call has done after its own step, if it evicts nothing on it. -/
theorem AcquireBranch.leaves {capacity : Nat} (hcapacity : settings.maxOpenDatabases = capacity)
    (h : AcquireBranch settings σ call pc choice (σ', call', pc', none))
    (hleaves : pc.Leaves σ₀ σ.entries capacity call.name evicted)
    (hcount : ∀ n, choice = .count n → n ≤ size σ.entries)
    (hopen : ∀ e, σ₀.created ≤ e → (σ.heap e).activeLeases ≠ CLOSED)
    (hcreated : σ₀.created ≤ σ.created) :
    call'.name = call.name ∧ pc'.Leaves σ₀ σ'.entries capacity call.name evicted := by
  cases h with
  | getFound | recheckFound => exact ⟨rfl, Or.inl hleaves⟩
  | getVacant | lock => exact ⟨rfl, hleaves⟩
  | unlockNone =>
    have hsame : Untouched σ₀ σ.entries evicted := hleaves
    exact ⟨rfl, hsame.keeps.others _ _, Or.inl hsame.1⟩
  | recheckVacant hl =>
    have hsame : Untouched σ₀ σ.entries evicted := hleaves
    exact ⟨rfl, Or.inl ⟨hleaves, hsame.2 ▸ hl⟩⟩
  | lenRefused hn hfull =>
    rcases hleaves with ⟨hsame, _⟩ | ⟨_, _, hroom⟩
    · exact ⟨rfl, hsame⟩
    · have := hcount _ rfl
      omega
  | lenFull hn hfull =>
    have hle := hcount _ rfl
    rcases hleaves with ⟨hsame, hvacant⟩ | ⟨_, _, hroom⟩
    · refine ⟨rfl, hsame, hvacant, ?_⟩
      rw [← hsame.2]
      omega
    · omega
  | lenRoom hn hroom =>
    rcases hleaves with ⟨hsame, hvacant⟩ | ⟨hkeeps, hvacant, _⟩
    · exact ⟨rfl, hsame.keeps, hsame.2 ▸ hvacant⟩
    · exact ⟨rfl, hkeeps, hvacant⟩
  | evictNext hevict => exact ⟨rfl, hevict.leaves hleaves⟩
  | evictNone hevict =>
    refine ⟨rfl, ?_⟩
    have hsame := hleaves.evicting.1
    rcases hevict.map with hmap | ⟨n, e, rfl, hmap⟩
    · exact ⟨hsame.1, hmap.trans hsame.2⟩
    · cases hevict with
      | takeNone htake => cases htake
  | create => exact ⟨rfl, hleaves⟩
  | insert =>
    refine ⟨rfl, Or.inr ⟨fun n e hl => ?_, hcreated⟩⟩
    rcases hleaves.1 n e hl with hl' | hev
    · left
      refine (AList.lookup_insert_ne ?_).trans hl'
      rintro rfl
      exact absurd (hleaves.2.symm.trans hl') (by simp)
    · exact Or.inr hev
  | unlockSome | leaseNext => exact ⟨rfl, hleaves⟩
  | leaseRefused hlease =>
    rcases hleaves with hsame | ⟨_, he⟩
    · exact ⟨rfl, hsame⟩
    · exact absurd (closed_of_refused hlease) (hopen _ he)
  | leaseTaken =>
    refine ⟨rfl, ?_⟩
    rcases hleaves with hsame | ⟨hkeeps, _⟩
    · exact hsame.keeps
    · exact hkeeps
  | yieldAgain => exact ⟨rfl, hleaves⟩
  | yieldLast =>
    have hsame : Untouched σ₀ σ.entries evicted := hleaves
    exact ⟨rfl, hsame.keeps.others _ _, Or.inl hsame.1⟩
  | tenantSlot | processSlot | ensureOpenSet | ensureOpenInit | openPools | openPoolsFailed
  | touch | store => exact ⟨rfl, hleaves⟩
  | tenantSlotTimeout | processSlotTimeout =>
    exact ⟨rfl, Keeps.others hleaves _ _, Or.inr (Or.inl rfl)⟩
  | removeIf =>
    refine ⟨rfl, fun n j hl => ?_, Or.inr (Or.inr rfl)⟩
    by_cases hn : n = call.name
    · exact Or.inr (Or.inr ⟨rfl, hn⟩)
    · refine (hleaves n j hl).imp (fun hl' => ?_) Or.inl
      rw [lookup_eraseIf_of, if_neg fun hname => hn hname.1]
      exact hl'
  | leased => exact ⟨rfl, Keeps.others hleaves _ _, Or.inl rfl⟩
  | dropNext hdrop | dropSlots hdrop =>
    rw [hdrop.map]
    exact ⟨rfl, hleaves⟩
  | dropDone hdrop =>
    rw [hdrop.map]
    exact ⟨rfl, hleaves.1, Or.inr hleaves.2⟩
  | slots => exact ⟨rfl, hleaves.1, Or.inr hleaves.2⟩

/-- The step on which the call evicts an entry. -/
theorem AcquireBranch.evicts {capacity : Nat} {e : EntryId}
    (h : AcquireBranch settings σ call pc choice (σ', call', pc', some e))
    (hleaves : pc.Leaves σ₀ σ.entries capacity call.name evicted)
    (hsize : size σ.entries ≤ capacity) :
    call' = call ∧ evicted = none ∧ pc.closing = some e ∧ NeedsRoom σ₀ capacity call.name ∧
      (∃ n, σ₀.entries.lookup n = some e) ∧
      pc'.Leaves σ₀ σ'.entries capacity call.name (some e) := by
  cases h with
  | evictSome hevict =>
    cases hevict with
    | takeSome htake =>
      cases htake with
      | @remove n =>
        obtain ⟨hsame, hroom, hl⟩ : Untouched σ₀ σ.entries evicted ∧
          NeedsRoom σ₀ capacity call.name ∧ σ₀.entries.lookup n = some e := hleaves
        have hn : σ.entries.lookup n = some e := hsame.2 ▸ hl
        refine ⟨rfl, hsame.1, rfl, hroom, ⟨n, hl⟩, Or.inr ⟨fun k j hk => ?_, ?_, ?_⟩⟩
        · by_cases hkn : k = n
          · subst hkn
            exact Or.inr (congrArg some (Option.some.inj (hl.symm.trans hk)))
          · left
            exact (AList.lookup_erase_ne hkn).trans (hsame.2 ▸ hk)
        · show (σ.entries.erase n).lookup call.name = none
          rw [lookup_erase_of]
          split
          · rfl
          · exact hsame.2 ▸ hroom.1
        · exact Nat.lt_of_lt_of_le (size_erase_lt hn) hsize

/-- The call closes only the entry that it evicts. -/
theorem AcquireBranch.closing {e : EntryId} {spawned : Option EntryId}
    (h : AcquireBranch settings σ call pc choice (σ', call', pc', spawned)) {name : String}
    (htaking : (Task.acquire call pc).taking = some (name, e))
    (hidle : (σ.heap e).activeLeases = 0) : pc'.closing = some e := by
  obtain ⟨attempts, rfl⟩ : ∃ attempts, pc = .evict attempts (.take (.beginClose name e)) := by
    rcases Task.of_takePc (Task.takePc_of_taking htaking) with ⟨_, attempts, heq⟩ | ⟨_, _, heq⟩
    · exact ⟨attempts, (Task.acquire.inj heq).2⟩
    · exact absurd heq (by simp)
  cases h with
  | evictNext hevict =>
    cases hevict with
    | takeNext htake =>
      cases htake with
      | closed => rfl
  | evictNone hevict =>
    cases hevict with
    | takeNone htake =>
      cases htake with
      | leased hw => exact absurd hidle hw
  | evictSome hevict =>
    cases hevict with
    | takeSome htake => cases htake

theorem AcquirePc.removing_of_closing {e : EntryId} (h : pc.closing = some e) (call : Call) :
    ∃ name, (Task.acquire call pc).removing = some (name, e) := by
  unfold AcquirePc.closing at h
  split at h
  · obtain rfl := Option.some.inj h
    exact ⟨_, rfl⟩
  · simp at h

/-- What the call has closed it unlinks on its next step. -/
theorem AcquireBranch.unlinks {e : EntryId} {spawned : Option EntryId}
    (h : AcquireBranch settings σ call pc choice (σ', call', pc', spawned))
    (hclosing : pc.closing = some e) : spawned = some e := by
  unfold AcquirePc.closing at hclosing
  split at hclosing
  · obtain rfl := Option.some.inj hclosing
    cases h with
    | evictNext hevict =>
      cases hevict with
      | takeNext htake => cases htake
    | evictNone hevict =>
      cases hevict with
      | takeNone htake => cases htake
    | evictSome hevict =>
      cases hevict with
      | takeSome htake =>
        cases htake with
        | remove => rfl
  · simp at hclosing

end Trace

/-! ## The two runs side by side -/

/-- The call stands at `pc` in `s`, the other tasks have come as far in `z`, where the
call was not made, and the call has evicted `evicted` so far. -/
structure Beside (settings : DatabaseSettings) (s₀ s z : State) (name : String) (call : Call)
    (pc : AcquirePc) (evicted : Option EntryId) : Prop where
  run : (manager settings).RunFrom releaseStep s₀ z
  tasks : s.tasks = z.tasks ++
    .acquire call pc :: evicted.toList.map fun e => .closeEntry e (some .start)
  length : z.tasks.length = s₀.tasks.length
  now : z.shared.now = s.shared.now
  called : call.name = name
  created : s₀.shared.created ≤ s.shared.created
  closed : ∀ e, (s.shared.heap e).activeLeases = CLOSED →
    (s₀.shared.heap e).activeLeases = CLOSED ∨ evicted = some e ∨ pc.closing = some e
  shut : ∀ e, evicted = some e ∨ pc.closing = some e → (s.shared.heap e).activeLeases = CLOSED
  victim : ∀ e ∈ evicted, NeedsRoom s₀.shared settings.maxOpenDatabases name ∧
    ∃ n, s₀.shared.entries.lookup n = some e
  leaves : pc.Leaves s₀.shared s.shared.entries settings.maxOpenDatabases name evicted

section Beside

variable {s₀ s s' z : State} {name : String} {call : Call} {pc : AcquirePc}
  {evicted : Option EntryId} {a : Action}

/-- The call is the task that was started. -/
theorem Beside.at_call (h : Beside settings s₀ s z name call pc evicted) :
    s.tasks[s₀.tasks.length]? = some (.acquire call pc) := by
  rw [h.tasks, ← h.length, List.getElem?_append_right (Nat.le_refl _), Nat.sub_self]
  rfl

/-- A task that gives something back is one of the others. -/
theorem Beside.other (h : Beside settings s₀ s z name call pc evicted) {j : Nat} {t : Task}
    (hj : s.tasks[j]? = some t) (hne : j ≠ s₀.tasks.length)
    (ht : t.givesBack = true ∨ t.lease.isSome = true) : j < z.tasks.length := by
  by_contra hlt
  rw [h.tasks, List.getElem?_append_right (Nat.le_of_not_lt hlt)] at hj
  obtain ⟨k, hk⟩ : ∃ k, j - z.tasks.length = k + 1 :=
    Nat.exists_eq_succ_of_ne_zero (by have := h.length; omega)
  rw [hk, List.getElem?_cons_succ] at hj
  obtain ⟨e, _, rfl⟩ := List.mem_map.mp (List.mem_of_getElem? hj)
  simp [Task.givesBack, Task.lease] at ht

/-- A new entry is open. -/
theorem Beside.open (h : Beside settings s₀ s z name call pc evicted)
    (hreach : (manager settings).Reachable s₀) (e : EntryId) (he : s₀.shared.created ≤ e) :
    (s.shared.heap e).activeLeases ≠ CLOSED := by
  obtain ⟨starts, hmon⟩ := exists_monitor hreach
  have hsound := (reachable_inv hmon).2.sound
  have hlinked {n : String} (hl : s₀.shared.entries.lookup n = some e) : False :=
    Nat.not_lt.mpr he (hsound.linked hl).1
  intro hclosed
  rcases h.closed e hclosed with hold | hev | hclosing
  · have hzero : (s₀.shared.heap e).activeLeases = 0 := hsound.fresh e he
    exact absurd (hzero.symm.trans hold) (by decide)
  · obtain ⟨n, hl⟩ := (h.victim e hev).2
    exact hlinked hl
  · obtain ⟨n, hl⟩ := h.leaves.closing_linked hclosing
    exact hlinked hl

/-- A release of another task goes on beside. -/
theorem Beside.release (h : Beside settings s₀ s z name call pc evicted)
    (hreach : (manager settings).Reachable s) (hok : releaseStep s a)
    (hne : ∀ j ∈ a.task, j ≠ s₀.tasks.length) (hstep : s.step settings a = some s') :
    ∃ z', Beside settings s₀ s' z' name call pc evicted := by
  have hlt : ∀ j ∈ a.task, j < z.tasks.length := by
    intro j hj
    cases a with
    | step k choice =>
      obtain rfl := Option.some.inj hj
      obtain ⟨t, ht, hgives⟩ := hok
      exact h.other ht (hne k rfl) (Or.inl hgives)
    | cancel k =>
      obtain rfl := Option.some.inj hj
      obtain ⟨t, ht, hlease⟩ := hok
      exact h.other ht (hne k rfl) (Or.inr hlease)
    | start | clock => simp [Action.task] at hj
  obtain ⟨z', hrelease, hz, htasks, hlength, hnow⟩ :=
    release_beside h.tasks h.now hok hlt hstep
  obtain ⟨hmap, hcreated, hclosed⟩ := release_frame hreach hok hstep
  exact ⟨z', {
    run := h.run.step a hrelease hz
    tasks := htasks
    length := hlength.trans h.length
    now := hnow
    called := h.called
    created := hcreated ▸ h.created
    closed := fun e hc => h.closed e (hclosed e hc)
    shut := fun e he => closed_step hreach hstep (h.shut e he)
    victim := h.victim
    leaves := hmap ▸ h.leaves }⟩

/-- What is closed after a step of the call was closed before the call or is on the way
out: evicted before, unlinked on this step, or closed on it. -/
theorem Beside.closed_own (h : Beside settings s₀ s z name call pc evicted)
    (hreach : (manager settings).Reachable s) {choice : Choice} {call' : Call} {pc' : AcquirePc}
    {e : Option EntryId}
    (hacquire : AcquireBranch settings s.shared call pc choice (s'.shared, call', pc', e))
    (hstep : s.step settings (.step s₀.tasks.length choice) = some s') {j : EntryId}
    (hclosed : (s'.shared.heap j).activeLeases = CLOSED) :
    ((s₀.shared.heap j).activeLeases = CLOSED ∨ evicted = some j ∨ e = some j) ∨
      pc'.closing = some j := by
  rcases State.step_closed hreach hstep hclosed with hold | ⟨hidle, k, c, t, hk, ht, hby⟩
  · left
    rcases h.closed j hold with hstart | hevicted | hclosing
    · exact Or.inl hstart
    · exact Or.inr (Or.inl hevicted)
    · exact Or.inr (Or.inr (hacquire.unlinks hclosing))
  · obtain ⟨rfl, rfl⟩ := Action.step.inj hk
    obtain rfl := Option.some.inj (h.at_call.symm.trans ht)
    rcases hby with ⟨n, htaking⟩ | hcloseAll
    · exact Or.inr (hacquire.closing htaking hidle)
    · exact absurd hcloseAll (by simp [Task.isCloseAll])

/-- What is on the way out is closed. -/
theorem Beside.shut_own (h : Beside settings s₀ s z name call pc evicted)
    (hreach : (manager settings).Reachable s) {choice : Choice} {call' : Call} {pc' : AcquirePc}
    {e : Option EntryId}
    (hacquire : AcquireBranch settings s.shared call pc choice (s'.shared, call', pc', e))
    (hstep : s.step settings (.step s₀.tasks.length choice) = some s') {j : EntryId}
    (hj : evicted = some j ∨ e = some j ∨ pc'.closing = some j) :
    (s'.shared.heap j).activeLeases = CLOSED := by
  rcases hj with hevicted | rfl | hclosing
  · exact closed_step hreach hstep (h.shut j (Or.inl hevicted))
  · have hleaves := h.leaves
    rw [← h.called] at hleaves
    have hclosing := (hacquire.evicts hleaves (size_le hreach)).2.2.1
    exact closed_step hreach hstep (h.shut j (Or.inr hclosing))
  · obtain ⟨n, hremoving⟩ := AcquirePc.removing_of_closing hclosing call'
    have hword := ((TaskBranch.acquire hacquire).removing hremoving).2.2.2
    rw [hword, word_setLeases, if_pos rfl]

/-- A step of the call. -/
theorem Beside.own (h : Beside settings s₀ s z name call pc evicted)
    (hreach₀ : (manager settings).Reachable s₀) (hreach : (manager settings).Reachable s)
    {choice : Choice} (hcount : ∀ n, choice = .count n → n ≤ size s.shared.entries)
    (hstep : s.step settings (.step s₀.tasks.length choice) = some s') :
    ∃ call' pc' evicted', Beside settings s₀ s' z name call' pc' evicted' := by
  have hcalled := h.called
  subst hcalled
  rcases State.step_cases hstep with ⟨_, ha, _⟩ |
    ⟨i, choice', t, σ', t', spawned, ha, hi, hmove, hadv⟩ | ⟨_, _, _, _, ha, _⟩ | ⟨_, ha, _⟩
  · exact absurd ha (by simp)
  · obtain ⟨rfl, rfl⟩ := Action.step.inj ha
    obtain rfl := Option.some.inj (h.at_call.symm.trans hi)
    have hbranch := Task.step_branch hmove
    have hnow : σ'.now = s.shared.now := hbranch.now
    obtain ⟨rfl, _⟩ := State.advance_eq_some hadv
    have hcreated : s.shared.created ≤ σ'.created := by
      obtain ⟨c, p, hrule, _⟩ := State.step_refines (fun _ => 0) hstep
      exact hrule.name_mono.1
    cases hbranch with
    | @acquire _ _ _ _ call' pc' e hacquire =>
      have htasks : update s.tasks s₀.tasks.length (.acquire call' pc')
          (e.toList.map fun j => .closeEntry j (some .start)) =
          z.tasks ++ .acquire call' pc' :: ((evicted.toList ++ e.toList).map fun j =>
            .closeEntry j (some .start)) := by
        rw [update, h.tasks, ← h.length, List.set_append_right _ _ (Nat.le_refl _), Nat.sub_self]
        simp
      cases e with
      | none =>
        obtain ⟨hname, hleaves⟩ := hacquire.leaves rfl h.leaves hcount (h.open hreach₀) h.created
        refine ⟨call', pc', evicted, ⟨h.run, by simpa using htasks, h.length,
          h.now.trans hnow.symm, hname, Nat.le_trans h.created hcreated, fun j hc => ?_,
          fun j hj => h.shut_own hreach hacquire hstep (hj.imp id Or.inr), h.victim, hleaves⟩⟩
        rcases h.closed_own hreach hacquire hstep hc with (hold | hevicted | hnone) | hclosing
        · exact Or.inl hold
        · exact Or.inr (Or.inl hevicted)
        · exact absurd hnone (by simp)
        · exact Or.inr (Or.inr hclosing)
      | some v =>
        obtain ⟨rfl, rfl, _, hroom, hlinked, hleaves⟩ := hacquire.evicts h.leaves (size_le hreach)
        refine ⟨call', pc', some v, ⟨h.run, by simpa using htasks, h.length,
          h.now.trans hnow.symm, rfl, Nat.le_trans h.created hcreated, fun j hc => ?_,
          fun j hj => h.shut_own hreach hacquire hstep (Or.inr hj), ?_, hleaves⟩⟩
        · rcases h.closed_own hreach hacquire hstep hc with (hold | hnone | hv) | hclosing
          · exact Or.inl hold
          · exact absurd hnone (by simp)
          · exact Or.inr (Or.inl hv)
          · exact Or.inr (Or.inr hclosing)
        · intro j hj
          obtain rfl := Option.some.inj hj
          exact ⟨hroom, hlinked⟩
  · exact absurd ha (by simp)
  · exact absurd ha (by simp)

end Beside

section Run

variable {s₀ s s' : State} {name : String}

/-- The two runs start together. -/
theorem beside_start (name : String) : ∃ call pc,
    Beside settings s₀ { s₀ with tasks := s₀.tasks ++ [(Operation.acquire name).task] } s₀ name
      call pc none := by
  have hstart (pc : AcquirePc) (htask : (Operation.acquire name).task = .acquire ⟨name, 0⟩ pc)
      (hopen : ∀ e, pc.closing ≠ some e)
      (hleaves : pc.Leaves s₀.shared s₀.shared.entries settings.maxOpenDatabases name none) :
      Beside settings s₀ { s₀ with tasks := s₀.tasks ++ [(Operation.acquire name).task] } s₀ name
        ⟨name, 0⟩ pc none := by
    rw [htask]
    exact ⟨.refl, rfl, rfl, rfl, rfl, Nat.le_refl _, fun _ hc => Or.inl hc,
      fun e he => absurd (he.resolve_left (by simp)) (hopen e),
      fun _ he => absurd he (by simp), hleaves⟩
  cases hvalid : validateDatabaseName name with
  | ok =>
    refine ⟨_, .get, hstart .get ?_ (by simp [AcquirePc.closing]) ⟨rfl, rfl⟩⟩
    simp only [Operation.task, hvalid]
  | error error =>
    refine ⟨_, .done (some error), hstart _ ?_ (by simp [AcquirePc.closing])
      ⟨fun n e hl => Or.inl hl, Or.inl rfl⟩⟩
    simp only [Operation.task, hvalid]

/-- The two runs go on side by side. -/
theorem beside_run (hreach : (manager settings).Reachable s₀)
    (hrun : (manager settings).RunFrom (loneStep s₀.tasks.length)
      { s₀ with tasks := s₀.tasks ++ [(Operation.acquire name).task] } s) :
    (manager settings).Reachable s ∧
      ∃ z call pc evicted, Beside settings s₀ s z name call pc evicted := by
  have hstart : (manager settings).Reachable
      { s₀ with tasks := s₀.tasks ++ [(Operation.acquire name).task] } :=
    hreach.step (a := .start (.acquire name)) trivial rfl
  refine ⟨hstart.trans (hrun.mono fun _ _ _ => trivial), ?_⟩
  refine hrun.invariant (I := fun s => ∃ z call pc evicted,
    Beside settings s₀ s z name call pc evicted) ?_ ?_
  · obtain ⟨call, pc, h⟩ := beside_start name
    exact ⟨_, call, pc, none, h⟩
  · rintro s a s' hr ⟨z, call, pc, evicted, h⟩ hok hstep
    have hs : (manager settings).Reachable s := hstart.trans (hr.mono fun _ _ _ => trivial)
    have hrelease (hok : releaseStep s a) (hne : ∀ j ∈ a.task, j ≠ s₀.tasks.length) :
        ∃ z call pc evicted, Beside settings s₀ s' z name call pc evicted := by
      obtain ⟨z', h'⟩ := h.release hs hok hne hstep
      exact ⟨z', call, pc, evicted, h'⟩
    cases a with
    | step j choice =>
      by_cases hj : j = s₀.tasks.length
      · subst hj
        obtain ⟨call', pc', evicted', h'⟩ := h.own hreach hs (fun n hn => by
          subst hn
          exact hok.2) hstep
        exact ⟨z, call', pc', evicted', h'⟩
      · refine hrelease ?_ fun k hk => ?_
        · cases choice with
          | count n => exact absurd hok.1 hj
          | go | fail | visit key => exact hok.resolve_left hj
        · obtain rfl := Option.some.inj hk
          exact hj
    | cancel j =>
      apply hrelease hok.2
      intro k hk
      obtain rfl := Option.some.inj hk
      exact hok.1
    | clock nowMs => exact hrelease trivial fun k hk => absurd hk (by simp [Action.task])
    | start operation => exact hok.elim

/-! ## The law -/

/-- A call that is over weighs nothing, and neither does the `close_entry` that it has
spawned. -/
theorem Beside.countP {z : State} {call : Call} {error : Option AppError}
    {evicted : Option EntryId} (h : Beside settings s₀ s z name call (.done error) evicted)
    {p : Task → Bool} (hcall : p (.acquire call (.done error)) = false)
    (hclose : ∀ e, p (.closeEntry e (some .start)) = false) :
    s.tasks.countP p = z.tasks.countP p := by
  have hnone : (evicted.toList.map fun e => Task.closeEntry e (some .start)).countP p = 0 := by
    rw [List.countP_eq_zero]
    intro t ht
    obtain ⟨e, _, rfl⟩ := List.mem_map.mp ht
    simp [hclose]
  rw [h.tasks, List.countP_append, List.countP_cons, hnone, hcall]
  simp

/-- The counts of the leases are those of the same holders, unless the entry is closed in
both runs. -/
theorem Beside.leases {z : State} {call : Call} {error : Option AppError}
    {evicted : Option EntryId} (h : Beside settings s₀ s z name call (.done error) evicted)
    (hs : (manager settings).Reachable s) (hz : (manager settings).Reachable z)
    (hclosed : ∀ e, (z.shared.heap e).activeLeases = CLOSED ↔
      (s₀.shared.heap e).activeLeases = CLOSED)
    (hstays : ∀ e, (s₀.shared.heap e).activeLeases = CLOSED →
      (s.shared.heap e).activeLeases = CLOSED)
    {e : EntryId} (hevicted : evicted ≠ some e) :
    (s.shared.heap e).activeLeases = (z.shared.heap e).activeLeases := by
  by_cases hc : (z.shared.heap e).activeLeases = CLOSED
  · rw [hc]
    exact hstays e ((hclosed e).mp hc)
  · have hopen : (s.shared.heap e).activeLeases ≠ CLOSED := by
      intro hs
      rcases h.closed e hs with hold | hev | hclosing
      · exact hc ((hclosed e).mpr hold)
      · exact hevicted hev
      · simp [AcquirePc.closing] at hclosing
    have hholders : s.holders e = z.holders e := h.countP rfl fun _ => rfl
    rw [(counts_holders hs e).eq_of_ne hopen, (counts_holders hz e).eq_of_ne hc, hholders]

/-- The permits of the process are those that the same tasks leave. -/
theorem Beside.slots {z : State} {call : Call} {error : Option AppError}
    {evicted : Option EntryId} (h : Beside settings s₀ s z name call (.done error) evicted)
    (hs : (manager settings).Reachable s) (hz : (manager settings).Reachable z) :
    s.shared.slots = z.shared.slots := by
  have hsame := h.countP (p := fun t => t.processSlot) rfl fun _ => rfl
  have hleft := slots_eq hs
  have hleft' := slots_eq hz
  omega

/-- And so are the permits of an entry. -/
theorem Beside.tenantSlots {z : State} {call : Call} {error : Option AppError}
    {evicted : Option EntryId} (h : Beside settings s₀ s z name call (.done error) evicted)
    (hs : (manager settings).Reachable s) (hz : (manager settings).Reachable z) {e : EntryId}
    (he : e < s.shared.created) (he' : e < z.shared.created) :
    (s.shared.heap e).slots = (z.shared.heap e).slots := by
  have hsame := h.countP (p := fun t => decide (t.tenantSlot = some e)) rfl fun _ => rfl
  have hleft := tenantSlots_eq hs he
  have hleft' := tenantSlots_eq hz he'
  omega

/-- A refused call evicts nobody, but for one idle database that had to make room for
it.  Let the call be made in any state that the manager can reach, and let the others
only drop leases and give permits back until it is refused.  Then `z` is a state that
the others reach without the call, with the same tasks, such that:

* the lease counts and the available permits are those of `z`;
* what was linked when the call began is still linked, except the caller's own entry
  after a failed open, and one entry that the call has evicted;
* the only `close_entry` that was started is the one of the evicted entry;
* an entry is evicted only by a call that is shed or fails to open its database, and
  only if the name was not linked, the registry was full and nobody held the entry. -/
theorem refused_leaves (hreach : (manager settings).Reachable s₀)
    (hrun : (manager settings).RunFrom (loneStep s₀.tasks.length)
      { s₀ with tasks := s₀.tasks ++ [(Operation.acquire name).task] } s)
    {call : Call} {error : AppError}
    (hrefused : s.tasks[s₀.tasks.length]? = some (.acquire call (.done (some error)))) :
    ∃ (z : State) (evicted : Option EntryId), (manager settings).RunFrom releaseStep s₀ z ∧
      s.tasks = z.tasks ++ .acquire call (.done (some error)) ::
        (evicted.toList.map fun e => .closeEntry e (some .start)) ∧
      (∀ e, s.holders e = z.holders e) ∧
      (∀ e, evicted ≠ some e →
        (s.shared.heap e).activeLeases = (z.shared.heap e).activeLeases) ∧
      s.shared.slots = z.shared.slots ∧
      (∀ e < s₀.shared.created, (s.shared.heap e).slots = (z.shared.heap e).slots) ∧
      (∀ n e, s₀.shared.entries.lookup n = some e →
        s.shared.entries.lookup n = some e ∨ evicted = some e ∨
          error = openError ∧ n = name) ∧
      (∀ e, evicted = some e → (error = .overloaded ∨ error = openError) ∧
        s₀.shared.entries.lookup name = none ∧
        settings.maxOpenDatabases ≤ size s₀.shared.entries ∧
        (∃ n, s₀.shared.entries.lookup n = some e) ∧ z.holders e = 0) := by
  obtain ⟨hs, z, call', pc, evicted, h⟩ := beside_run hreach hrun
  obtain ⟨rfl, rfl⟩ := Task.acquire.inj (Option.some.inj (h.at_call.symm.trans hrefused))
  have hz : (manager settings).Reachable z := hreach.trans (h.run.mono fun _ _ _ => trivial)
  obtain ⟨hcreated, hclosed⟩ := release_run hreach h.run
  have hholders (e : EntryId) : s.holders e = z.holders e := h.countP rfl fun _ => rfl
  have hstays (e : EntryId) (hc : (s₀.shared.heap e).activeLeases = CLOSED) :
      (s.shared.heap e).activeLeases = CLOSED :=
    closed_run (hreach.step (a := .start (.acquire name)) trivial rfl) hrun hc
  obtain ⟨hkeeps, hadmitted⟩ := h.leaves
  refine ⟨z, evicted, h.run, h.tasks, hholders, ?_, h.slots hs hz, ?_, ?_, ?_⟩
  · intro e hevicted
    exact h.leases hs hz hclosed hstays hevicted
  · intro e he
    exact h.tenantSlots hs hz (Nat.lt_of_lt_of_le he h.created) (hcreated.symm ▸ he)
  · intro n e hl
    refine (hkeeps n e hl).imp id (Or.imp id fun ⟨herror, hn⟩ => ⟨?_, hn⟩)
    exact Option.some.inj herror
  · intro e hev
    subst hev
    obtain ⟨⟨hvacant, hfull⟩, hlinked⟩ := h.victim e rfl
    refine ⟨?_, hvacant, hfull, hlinked, ?_⟩
    · rcases hadmitted.resolve_left (by simp) with hnone | herror | herror
      · exact absurd hnone (by simp)
      · exact Or.inl (Option.some.inj herror)
      · exact Or.inr (Option.some.inj herror)
    · rw [← hholders e]
      exact (counts_holders hs e).of_closed (h.shut e (Or.inl rfl))

end Run

/-! ## A call that is shed -/

/-- The default settings, with room for two databases and one request. -/
def oneRequest : DatabaseSettings := { twoDatabases with maxConcurrentRequests := 1 }

/-- Database `b` is idle, and the request on `a` holds the only slot of the process. -/
def warmTenants : State :=
  (manager oneRequest).play (fun _ _ => true)
    (coldAcquire 0 "b" 0 ++ dropLease 0 ++ coldAcquire 1 "a" 1)

/-- The call for `c` is made. -/
def coldCall : State :=
  { warmTenants with tasks := warmTenants.tasks ++ [(Operation.acquire "c").task] }

/-- Task 2 evicts `b`, inserts its entry, waits for a slot of the process until the
timeout and gives back what it holds. -/
def shedSteps : List Action :=
  goes 2 3 ++ .step 2 (.count 2) :: .step 2 (.visit "a") :: .step 2 (.visit "b") :: goes 2 5 ++
    .step 2 (.count 1) :: goes 2 6 ++ .step 2 .fail :: goes 2 3

/-- The state in which the call for `c` has been shed. -/
def shedCall : State :=
  (manager oneRequest).playFrom (fun s a => decide (loneStep 2 s a)) coldCall shedSteps

theorem coldCall_run : (manager oneRequest).Reachable warmTenants ∧
    (manager oneRequest).RunFrom (loneStep 2) coldCall shedCall :=
  ⟨StepSystem.reachable_play (fun _ _ _ => trivial) _,
    StepSystem.runFrom_playFrom (fun _ _ h => of_decide_eq_true h) _ _⟩

/-- The leases and the slots are those without the call, and `a` is still linked. -/
theorem refused_leaves_shed : ∃ z : State, (manager oneRequest).RunFrom releaseStep warmTenants z ∧
    (∀ e, shedCall.holders e = z.holders e) ∧ shedCall.shared.slots = z.shared.slots ∧
    shedCall.shared.entries.lookup "a" = some 1 := by
  have hrefused : shedCall.tasks[warmTenants.tasks.length]? =
      some (.acquire ⟨"c", 0⟩ (.done (some .overloaded))) := by decide
  obtain ⟨z, evicted, hrun, _, hholders, _, hslots, _, hkeeps, hevicted⟩ :=
    refused_leaves coldCall_run.1 coldCall_run.2 hrefused
  refine ⟨z, hrun, hholders, hslots, ?_⟩
  rcases hkeeps "a" 1 (by decide) with hlinked | hevict | ⟨herror, _⟩
  · exact hlinked
  · have hfree := (hevicted 1 hevict).2.2.2.2
    exact absurd ((hholders 1).trans hfree) (by decide)
  · exact absurd herror (by decide)

/-- The call for `c` is shed, and nobody else takes a step.  The database `b`, which
was linked when the call began, is not linked any more, and its `close_entry` was
started. -/
theorem shed_call_evicts : ∃ s₀ s : State, (manager oneRequest).Reachable s₀ ∧
    (manager oneRequest).RunFrom (loneStep s₀.tasks.length)
      { s₀ with tasks := s₀.tasks ++ [(Operation.acquire "c").task] } s ∧
    s.tasks[s₀.tasks.length]? = some (.acquire ⟨"c", 0⟩ (.done (some .overloaded))) ∧
    s₀.shared.entries.lookup "b" = some 0 ∧ s.shared.entries.lookup "b" = none ∧
    Task.closeEntry 0 (some .start) ∈ s.tasks ∧
    Task.closeEntry 0 (some .start) ∉ s₀.tasks :=
  ⟨warmTenants, shedCall, coldCall_run.1, coldCall_run.2, by decide, by decide, by decide,
    by decide, by decide⟩

end Tinkiva.Manager
