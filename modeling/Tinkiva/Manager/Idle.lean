import Tinkiva.Manager.Leases
import Tinkiva.Manager.Recency

/-!
# Idle databases

`cleanup_idle` closes the entries that nobody holds and that were last used
before its cutoff.  The drop of a lease of `checkpoint_wal` counts as a use, so
an entry is found idle only if maintenance has left it alone for the idle timeout
as well.

`idle_closed` is the law under that condition, for a call of `cleanup_idle`
among any other tasks.  The proof follows the call from its start to its return:
the entry is still to be taken (`CleanupPc.Pending`), then taken, then closed.
-/

namespace Tinkiva.Manager

open Tinkiva.Config Tinkiva.Protocol ConcurrentMap TaskPool SentinelCounter

variable {settings : DatabaseSettings} {s s' : State}

/-! ## The steps of the call -/

/-- A step before `close_all`, while the clock is not before `callMs` and nobody
holds a lease on the entry. -/
def quietStep (e : EntryId) (callMs : Nat) (s : State) (a : Action) : Prop :=
  a.beforeCloseAll ∧ callMs ≤ s.shared.now ∧ s.holders e = 0

instance (e : EntryId) (callMs : Nat) (s : State) (a : Action) :
    Decidable (quietStep e callMs s a) :=
  inferInstanceAs (Decidable (_ ∧ _))

/-- A step that does not turn the clock back. -/
def Action.forward (s : State) : Action → Prop
  | .clock nowMs => s.shared.now ≤ nowMs
  | .start _ | .step _ _ | .cancel _ => True

instance (s : State) : DecidablePred (Action.forward s)
  | .clock nowMs => inferInstanceAs (Decidable (s.shared.now ≤ nowMs))
  | .start _ | .step _ _ | .cancel _ => isTrue trivial

/-- A step before `close_all` that does not turn the clock back. -/
def forwardStep (s : State) (a : Action) : Prop := a.beforeCloseAll ∧ a.forward s

instance (s : State) (a : Action) : Decidable (forwardStep s a) :=
  inferInstanceAs (Decidable (_ ∧ _))

/-- The name that `take` is called for. -/
def TakePc.name : TakePc → String
  | .get name | .beginClose name _ | .remove name _ => name

/-- No task but the `i`th is in `take` for the name. -/
def State.TakesAlone (s : State) (i : Nat) (name : String) : Prop :=
  ∀ j < s.tasks.length, j ≠ i →
    (s.tasks[j]?.bind Task.takePc).map TakePc.name ≠ some name

instance (s : State) (i : Nat) (name : String) : Decidable (s.TakesAlone i name) :=
  inferInstanceAs (Decidable (∀ j < s.tasks.length, _))

variable {name : String} {e : EntryId} {i : Nat}

theorem State.TakesAlone.ne (h : s.TakesAlone i name) {j : Nat} {t : Task} (hj : j ≠ i)
    (ht : s.tasks[j]? = some t) {pc : TakePc} (hpc : t.takePc = some pc) : pc.name ≠ name := by
  intro hname
  refine h j (List.getElem?_eq_some_iff.mp ht).1 hj ?_
  rw [ht, Option.bind_some, hpc, Option.map_some, hname]

/-! ## The call before it takes the entry -/

/-- The call of `cleanup_idle` has the entry before it: it will visit it, find
it stale, and take it. -/
def CleanupPc.Pending (lastUsed idle callMs : Nat) (name : String) (e : EntryId) :
    CleanupPc → Prop
  | .start => lastUsed + idle ≤ callMs
  | .scan cutoff sc stale =>
    lastUsed ≤ cutoff ∧ (name, e) ∈ sc.initial ∧ (name ∈ sc.seen → name ∈ stale)
  | .lastUsed cutoff sc stale n j =>
    lastUsed ≤ cutoff ∧ (name, e) ∈ sc.initial ∧
      (name ∈ sc.seen → n = name ∧ j = e ∨ name ∈ stale)
  | .take (.get n) rest _ => n = name ∨ name ∈ rest
  | .take (.beginClose n j) rest _ => n = name ∧ j = e ∨ n ≠ name ∧ j ≠ e ∧ name ∈ rest
  | .take (.remove n _) rest _ => n ≠ name ∧ name ∈ rest
  | .close _ _ rest _ => name ∈ rest
  | .record _ | .done _ => False

/-- The head of `for name in stale`. -/
theorem CleanupPc.Pending.next {lastUsed idle callMs closed : Nat} {stale : List String}
    (h : name ∈ stale) : (CleanupPc.next closed stale).Pending lastUsed idle callMs name e := by
  cases stale with
  | nil => exact absurd h List.not_mem_nil
  | cons n rest => exact (List.mem_cons.mp h).imp Eq.symm id

section OwnStep

variable {σ σ' : Shared} {pc pc' : CleanupPc} {choice : Choice}

/-- `close_entry` leaves the words and the bindings alone. -/
theorem CloseBranch.frame {j : EntryId} {pc : ClosePc} {pc' : Option ClosePc}
    (h : CloseBranch σ j pc (σ', pc')) (e : EntryId) :
    σ'.entries = σ.entries ∧ (σ'.heap e).activeLeases = (σ.heap e).activeLeases := by
  cases h with
  | unopened | opened | optimize | checkpoint => exact ⟨rfl, rfl⟩
  | readers | writer =>
    refine ⟨rfl, ?_⟩
    simp only [Shared.updatePools, Shared.setPools, Shared.heap_modify]
    split <;> simp_all

section Take

variable {lastUsed idle callMs closed : Nat} {rest : List String}

/-- A step inside `take` keeps the entry before the call, or is the
`begin_close` of the entry. -/
theorem TakeBranch.pending_next {pc pc' : TakePc} (h : TakeBranch σ pc (σ', .next pc'))
    (hl : σ.entries.lookup name = some e)
    (hname : ∀ n, σ.entries.lookup n = some e → n = name)
    (hp : (CleanupPc.take pc rest closed).Pending lastUsed idle callMs name e) :
    (σ'.entries.lookup name = some e ∧
      (CleanupPc.take pc' rest closed).Pending lastUsed idle callMs name e) ∨
    (pc' = .remove name e ∧ (σ'.heap e).activeLeases = CLOSED) := by
  cases h with
  | @found n j hn =>
    refine Or.inl ⟨hl, ?_⟩
    by_cases hnn : n = name
    · subst hnn
      exact Or.inl ⟨rfl, Option.some.inj (hn.symm.trans hl)⟩
    · refine Or.inr ⟨hnn, ?_, hp.resolve_left hnn⟩
      rintro rfl
      exact hnn (hname n hn)
  | closed =>
    rcases hp with ⟨rfl, rfl⟩ | ⟨hnn, _, hmem⟩
    · exact Or.inr ⟨rfl, by simp [Shared.setLeases]⟩
    · exact Or.inl ⟨hl, hnn, hmem⟩

/-- A call that leaves `take` with nothing has the entry still before it. -/
theorem TakeBranch.pending_none {pc : TakePc} (h : TakeBranch σ pc (σ', .returned none))
    (hl : σ.entries.lookup name = some e) (hw : (σ.heap e).activeLeases = 0)
    (hp : (CleanupPc.take pc rest closed).Pending lastUsed idle callMs name e) :
    name ∈ rest := by
  cases h with
  | vacant hn =>
    apply hp.resolve_left
    rintro rfl
    rw [hl] at hn
    simp at hn
  | leased hleased =>
    rcases hp with ⟨rfl, rfl⟩ | ⟨_, _, hmem⟩
    · exact absurd hw hleased
    · exact hmem

/-- A call that takes another entry has this one still before it. -/
theorem TakeBranch.pending_some {pc : TakePc} {j : EntryId}
    (h : TakeBranch σ pc (σ', .returned (some j)))
    (hl : σ.entries.lookup name = some e)
    (hp : (CleanupPc.take pc rest closed).Pending lastUsed idle callMs name e) :
    σ'.entries.lookup name = some e ∧ name ∈ rest := by
  cases h with
  | remove => exact ⟨(AList.lookup_erase_ne (Ne.symm hp.1)).trans hl, hp.2⟩

end Take

/-- A step of the call keeps the entry before it, or is the `begin_close` of the
entry. -/
theorem CleanupBranch.pending (h : CleanupBranch settings σ pc choice (σ', pc'))
    (hl : σ.entries.lookup name = some e)
    (hname : ∀ n, σ.entries.lookup n = some e → n = name)
    (hw : (σ.heap e).activeLeases = 0) {callMs : Nat} (hnow : callMs ≤ σ.now)
    (hp : pc.Pending (σ.heap e).lastUsedMs settings.idleTimeoutMs callMs name e) :
    (σ'.entries.lookup name = some e ∧
      pc'.Pending (σ'.heap e).lastUsedMs settings.idleTimeoutMs callMs name e) ∨
    (∃ rest closed, pc' = .take (.remove name e) rest closed ∧
      (σ'.heap e).activeLeases = CLOSED) := by
  cases h with
  | start =>
    have hidle : (σ.heap e).lastUsedMs + settings.idleTimeoutMs ≤ callMs := hp
    refine Or.inl ⟨hl, ?_, mem_bindings.mpr hl, fun hseen => absurd hseen List.not_mem_nil⟩
    omega
  | visitIdle hvisit =>
    obtain ⟨hcut, hinit, hseen⟩ := hp
    obtain ⟨hkey, _, rfl⟩ := Scan.visit_eq_some hvisit
    refine Or.inl ⟨hl, hcut, hinit, fun hmem => ?_⟩
    rcases List.mem_cons.mp hmem with rfl | hmem
    · exact Or.inl ⟨rfl, Option.some.inj (hkey.symm.trans hl)⟩
    · exact Or.inr (hseen hmem)
  | visitLeased hvisit hleased =>
    obtain ⟨hcut, hinit, hseen⟩ := hp
    obtain ⟨hkey, _, rfl⟩ := Scan.visit_eq_some hvisit
    refine Or.inl ⟨hl, hcut, hinit, fun hmem => ?_⟩
    rcases List.mem_cons.mp hmem with rfl | hmem
    · obtain rfl := Option.some.inj (hkey.symm.trans hl)
      exact absurd hw hleased
    · exact hseen hmem
  | finish hfin =>
    obtain ⟨_, hinit, hseen⟩ := hp
    exact Or.inl ⟨hl, .next (hseen (Scan.seen_of_finished hfin hinit hl))⟩
  | stale =>
    obtain ⟨hcut, hinit, hseen⟩ := hp
    refine Or.inl ⟨hl, hcut, hinit, fun hmem => List.mem_append.mpr ?_⟩
    rcases hseen hmem with ⟨rfl, _⟩ | hmem
    · exact Or.inr (List.mem_singleton_self _)
    · exact Or.inl hmem
  | recent hrecent =>
    obtain ⟨hcut, hinit, hseen⟩ := hp
    refine Or.inl ⟨hl, hcut, hinit, fun hmem => ?_⟩
    rcases hseen hmem with ⟨_, rfl⟩ | hmem
    · exact absurd hcut (Nat.not_le_of_lt hrecent)
    · exact hmem
  | @takeNext _ rest closed _ _ htake =>
    have hlast := htake.lastUsed e
    rcases htake.pending_next hl hname hp with ⟨hl', hp'⟩ | ⟨rfl, hw'⟩
    · refine Or.inl ⟨hl', ?_⟩
      rwa [hlast]
    · exact Or.inr ⟨rest, closed, rfl, hw'⟩
  | takeNone htake =>
    have hmem := htake.pending_none hl hw hp
    obtain ⟨rfl, _⟩ := htake.knowledge
    exact Or.inl ⟨hl, .next hmem⟩
  | takeSome htake => exact Or.inl (htake.pending_some hl hp)
  | closeNext hclose => exact Or.inl ⟨by rw [(hclose.frame e).1, hl], hp⟩
  | closeDone hclose => exact Or.inl ⟨by rw [(hclose.frame e).1, hl], .next hp⟩
  | record => exact absurd hp id

/-- `close_entry` goes on, or leaves the pools closed. -/
theorem CloseBranch.alive {pc : ClosePc} (h : CloseBranch σ e pc (σ', none)) :
    (σ'.heap e).alive = false := by
  cases h with
  | unopened hpools => simp [DatabaseEntry.alive, hpools]
  | writer =>
    cases hvalue : (σ.heap e).pools.value <;>
      simp [DatabaseEntry.alive, Shared.updatePools, Shared.setPools, hvalue]

end OwnStep

/-! ## The steps of the other tasks -/

/-- Nobody stores to `last_used_ms` of an entry that nobody holds. -/
theorem lastUsed_step {a : Action} (hstep : s.step settings a = some s')
    (hnone : s.holders e = 0) (he : e < s.shared.created) :
    (s'.shared.heap e).lastUsedMs = (s.shared.heap e).lastUsedMs := by
  have hlease {j : Nat} {u : Task} (hj : s.tasks[j]? = some u) : u.lease ≠ some e :=
    fun hlease => absurd hnone (Nat.ne_of_gt (holders_pos (List.mem_of_getElem? hj) hlease))
  rcases State.step_cases hstep with ⟨operation, _, rfl⟩ |
    ⟨j, choice, u, σ', u', spawned, _, hj, hu, hadv⟩ | ⟨j, u, σ', u', _, hj, hu, hadv⟩ |
    ⟨nowMs, _, rfl⟩
  · rfl
  · obtain ⟨rfl, _⟩ := State.advance_eq_some hadv
    exact (Task.step_stores (u := .none) hu e).lastUsed_eq (hlease hj) he
  · obtain ⟨rfl, _⟩ := State.advance_eq_some hadv
    exact (Task.cancel_stores (u := .none) hu e).lastUsed_eq (hlease hj) he
  · rfl

/-- What a call of `cleanup_idle` does in one step. -/
theorem Task.step_cleanupIdle {σ σ' : Shared} {pc : CleanupPc} {t' : Task} {choice : Choice}
    {spawned : List Task}
    (h : (Task.cleanupIdle pc).step settings σ choice = some (σ', t', spawned)) :
    ∃ pc', t' = .cleanupIdle pc' ∧ CleanupBranch settings σ pc choice (σ', pc') := by
  cases Task.step_branch h with
  | cleanupIdle hbranch => exact ⟨_, rfl, hbranch⟩

/-- An aborted call has ended. -/
theorem Task.cancel_cleanupIdle {σ σ' : Shared} {pc : CleanupPc} {t' : Task}
    (h : (Task.cleanupIdle pc).cancel σ = some (σ', t')) : t' = .cleanupIdle (.done none) := by
  cases Task.cancel_branch h with
  | cleanupIdle => rfl

/-- A step binds no entry that exists, and it creates entries only. -/
theorem State.lookup_back (name : String) {a : Action} (hstep : s.step settings a = some s')
    (he : e < s.shared.created) :
    e < s'.shared.created ∧
      (s'.shared.entries.lookup name = some e → s.shared.entries.lookup name = some e) := by
  obtain ⟨c, p, hrule, _⟩ := State.step_refines (fun _ => 0) hstep
  refine ⟨Nat.lt_of_lt_of_le he hrule.name_mono.1, fun hl => ?_⟩
  rcases hrule.lookup_mono hl with hl | ⟨rfl, _⟩
  · exact hl
  · exact absurd he (Nat.lt_irrefl _)

/-- An entry is linked under its own name only. -/
theorem lookup_name (h : (manager settings).Reachable s) {n : String}
    (hl : s.shared.entries.lookup name = some e) (hn : s.shared.entries.lookup n = some e) :
    e < s.shared.created ∧ n = name := by
  obtain ⟨starts, hmon⟩ := exists_monitor h
  have hsound := (reachable_inv hmon).2.sound
  exact ⟨(hsound.linked hl).1, (hsound.linked hn).2.symm.trans (hsound.linked hl).2⟩

/-- The word of an entry that nobody holds. -/
theorem word_of_holders (h : (manager settings).Reachable s) (hnone : s.holders e = 0) :
    (s.shared.heap e).activeLeases = CLOSED ∨ (s.shared.heap e).activeLeases = 0 := by
  rcases Counts.iff.mp (counts_holders h e) with ⟨hw, _⟩ | ⟨hw, _⟩
  · exact Or.inl hw
  · exact Or.inr (hw.trans hnone)

/-! ## The call, step by step -/

/-- Task `i` is a call of `cleanup_idle` that has the entry before it. -/
def State.Awaits (s : State) (idle callMs : Nat) (i : Nat) (name : String) (e : EntryId) : Prop :=
  ∃ pc, s.tasks[i]? = some (.cleanupIdle pc) ∧
    pc.Pending (s.shared.heap e).lastUsedMs idle callMs name e

/-- Task `i` is a call of `cleanup_idle` that was aborted. -/
def State.Aborted (s : State) (i : Nat) : Prop :=
  s.tasks[i]? = some (.cleanupIdle (.done none))

/-- Task `i` has closed the word of the entry in `take` and is about to unlink
it. -/
def State.Unlinks (s : State) (i : Nat) (name : String) (e : EntryId) : Prop :=
  ∃ rest closed, s.tasks[i]? = some (.cleanupIdle (.take (.remove name e) rest closed)) ∧
    (s.shared.heap e).activeLeases = CLOSED

section Step

variable {a : Action} {callMs : Nat}

/-- While nobody holds the entry, a call that has it before it keeps it before
it, takes it, or is aborted. -/
theorem State.Awaits.step (h : (manager settings).Reachable s)
    (hstep : s.step settings a = some s') (hnone : s.holders e = 0)
    (hnow : callMs ≤ s.shared.now) (hl : s.shared.entries.lookup name = some e)
    (hw : (s.shared.heap e).activeLeases ≠ CLOSED)
    (hawaits : s.Awaits settings.idleTimeoutMs callMs i name e) :
    (s'.Awaits settings.idleTimeoutMs callMs i name e ∧
      (s'.shared.entries.lookup name = some e ∨
        (∀ choice, a ≠ .step i choice) ∧ a ≠ .cancel i)) ∨
    s'.Unlinks i name e ∨ s'.Aborted i := by
  obtain ⟨pc, hi, hp⟩ := hawaits
  have he := (lookup_name h hl hl).1
  rcases State.step_task hstep hi with ⟨hother, hi'⟩ |
    ⟨choice, σ', t', spawned, rfl, ht, rfl⟩ | ⟨σ', t', rfl, ht, rfl⟩
  · exact Or.inl ⟨⟨pc, hi', by rwa [lastUsed_step hstep hnone he]⟩, Or.inr hother⟩
  · obtain ⟨pc', rfl, hpc⟩ := Task.step_cleanupIdle ht
    have hi' : (update s.tasks i (.cleanupIdle pc') spawned)[i]? = some (.cleanupIdle pc') :=
      getElem?_update_self hi
    rcases hpc.pending hl (fun n hn => (lookup_name h hl hn).2)
      ((word_of_holders h hnone).resolve_left hw) hnow hp with ⟨hl', hp'⟩ |
      ⟨rest, closed, rfl, hw'⟩
    · exact Or.inl ⟨⟨pc', hi', hp'⟩, Or.inl hl'⟩
    · exact Or.inr (Or.inl ⟨rest, closed, hi', hw'⟩)
  · obtain rfl := Task.cancel_cleanupIdle ht
    exact Or.inr (Or.inr (getElem?_update_self hi))

/-- A step of another task leaves the binding of the entry alone, if the call is
the only one in `take` for the name. -/
theorem State.lookup_kept (h : (manager settings).Reachable s) (hbefore : s.BeforeCloseAll)
    (halone : s.TakesAlone i name) (hstep : s.step settings a = some s')
    (hother : (∀ choice, a ≠ .step i choice) ∧ a ≠ .cancel i) (hnone : s.holders e = 0)
    (hl : s.shared.entries.lookup name = some e) : s'.shared.entries.lookup name = some e := by
  obtain ⟨starts, hmon⟩ := exists_monitor h
  have hinv := (reachable_inv hmon).2
  have hmoves : ∀ {j : Nat} {t : Task} {starts' : EntryId → Nat} {T' : Multiset (Token String)},
      j ≠ i → s.tasks[j]? = some t →
      Moves (limits settings) (s.shared.registry starts) t.tokens
        (s'.shared.registry starts') T' → s'.shared.entries.lookup name = some e := by
    intro j t starts' T' hji hj hmoves
    have ht := List.mem_of_getElem? hj
    refine hmoves.lookup_kept hl (fun hroom => ?_) (fun k hrem => ?_) (fun hfail => ?_)
      (fun hdown => ?_)
    · have hvacant := (hinv.guarded.room name ((mem_config s starts).mpr ⟨t, ht, hroom⟩)).1
      exact absurd (hvacant.symm.trans hl) (by simp)
    · have hsays : t.removing = some (name, k) := t.says_of_mem _ hrem
      unfold Task.removing at hsays
      split at hsays
      · rename_i n k' hpc
        obtain ⟨rfl, _⟩ := Prod.mk.inj (Option.some.inj hsays)
        exact halone.ne hji hj hpc rfl
      · simp at hsays
    · obtain ⟨call, rfl, _⟩ := t.says_of_mem _ hfail
      exact absurd hnone (Nat.ne_of_gt (holders_pos ht rfl))
    · have hsays : t.isCloseAll = true := t.says_of_mem _ hdown
      rw [hbefore t ht] at hsays
      exact absurd hsays (by simp)
  rcases State.step_cases hstep with ⟨operation, rfl, rfl⟩ |
    ⟨j, choice, u, σ', u', spawned, rfl, hj, hu, hadv⟩ | ⟨j, u, σ', u', rfl, hj, hu, hadv⟩ |
    ⟨nowMs, rfl, rfl⟩
  · exact hl
  · obtain ⟨rfl, _⟩ := State.advance_eq_some hadv
    exact hmoves (fun hji => hother.1 choice (by rw [hji])) hj
      ((Task.step_branch hu).moves settings starts)
  · obtain ⟨rfl, _⟩ := State.advance_eq_some hadv
    exact hmoves (fun hji => hother.2 (by rw [hji])) hj
      ((Task.cancel_branch hu).moves settings starts)
  · exact hl

end Step

/-! ## The call, from its start to its return -/

/-- How far the call of task `i` is with the entry. -/
inductive State.Progress (s : State) (idle callMs : Nat) (i : Nat) (name : String) (e : EntryId) :
    Prop where
  | awaits : s.shared.entries.lookup name = some e → s.Awaits idle callMs i name e →
    s.Progress idle callMs i name e
  | unlinks : s.Unlinks i name e → s.Progress idle callMs i name e
  | closes (pc : ClosePc) (rest : List String) (closed : Nat) :
    s.tasks[i]? = some (.cleanupIdle (.close e pc rest closed)) →
    (s.shared.heap e).activeLeases = CLOSED → ¬ s.Linked e → s.Progress idle callMs i name e
  | closed : (s.shared.heap e).activeLeases = CLOSED → ¬ s.Linked e →
    (s.shared.heap e).alive = false → s.Progress idle callMs i name e
  | aborted : s.Aborted i → s.Progress idle callMs i name e

section Step

variable {a : Action} {callMs : Nat}

/-- An entry is open exactly when its stage is. -/
theorem DatabaseEntry.alive_stage (entry : DatabaseEntry) :
    entry.alive = entry.pools.stage.alive := by
  rcases entry with ⟨_, ⟨_ | ⟨⟨writer⟩, ⟨readers⟩⟩, initializing⟩, _, _, _⟩
  · cases initializing <;> rfl
  · cases writer <;> cases readers <;> rfl

/-- The pools of an entry that nobody holds stay closed. -/
theorem alive_step (h : (manager settings).Reachable s) (hbefore : s.BeforeCloseAll)
    (hstep : s.step settings a = some s') (hnone : s.holders e = 0)
    (halive : (s.shared.heap e).alive = false) : (s'.shared.heap e).alive = false := by
  obtain ⟨starts, hmon⟩ := exists_monitor h
  rw [DatabaseEntry.alive_stage] at halive ⊢
  exact (State.step_config starts (reachable_inv hmon).1 hstep (fun _ _ _ => True)
    fun _ _ => trivial).alive_stays (hbefore.no_shutdown starts)
    ((leases_config s starts e).trans hnone) halive

/-- An unlinked entry is not linked by a step. -/
theorem unlinked_step (hstep : s.step settings a = some s') (he : e < s.shared.created)
    (hun : ¬ s.Linked e) : ¬ s'.Linked e :=
  fun ⟨n, hl⟩ => hun ⟨n, (State.lookup_back n hstep he).2 hl⟩

/-- While nobody holds the entry, a call that has it before it and is alone in
`take` for its name finds it open. -/
theorem State.Awaits.open (h : (manager settings).Reachable s) (halone : s.TakesAlone i name)
    (hl : s.shared.entries.lookup name = some e) {idle : Nat}
    (hawaits : s.Awaits idle callMs i name e) : (s.shared.heap e).activeLeases ≠ CLOSED := by
  intro hw
  obtain ⟨t, ht, hrem⟩ := exists_removing h hl hw
  obtain ⟨j, hj⟩ := List.mem_iff_getElem?.mp ht
  have hpc := Task.takePc_of_removing hrem
  by_cases hji : j = i
  · subst hji
    obtain ⟨pc, hi, hp⟩ := hawaits
    obtain rfl := Option.some.inj (hi.symm.trans hj)
    cases pc with
    | take pc rest closed =>
      obtain rfl := Option.some.inj hpc
      exact hp.1 rfl
    | _ => simp [Task.takePc] at hpc
  · exact halone.ne hji hj hpc rfl

/-- The step lemma: the call takes the entry, unlinks it and closes it. -/
theorem State.Progress.step (h : (manager settings).Reachable s) (hbefore : s.BeforeCloseAll)
    (hstep : s.step settings a = some s') (hok : quietStep e callMs s a)
    (halone : s.TakesAlone i name) (he : e < s.shared.created)
    (hprogress : s.Progress settings.idleTimeoutMs callMs i name e) :
    s'.Progress settings.idleTimeoutMs callMs i name e := by
  obtain ⟨_, hnow, hnone⟩ := hok
  cases hprogress with
  | awaits hl hawaits =>
    rcases hawaits.step h hstep hnone hnow hl (hawaits.open h halone hl) with
      ⟨hawaits', hl' | hother⟩ | hunlinks | haborted
    · exact .awaits hl' hawaits'
    · exact .awaits (State.lookup_kept h hbefore halone hstep hother hnone hl) hawaits'
    · exact .unlinks hunlinks
    · exact .aborted haborted
  | unlinks hunlinks =>
    obtain ⟨rest, closed, hi, hw⟩ := hunlinks
    rcases State.step_task hstep hi with ⟨_, hi'⟩ |
      ⟨choice, σ', t', spawned, rfl, ht, rfl⟩ | ⟨σ', t', rfl, ht, rfl⟩
    · exact .unlinks ⟨rest, closed, hi', closed_step h hstep hw⟩
    · have hw' := closed_step h hstep hw
      obtain ⟨pc', rfl, hpc⟩ := Task.step_cleanupIdle ht
      cases hpc with
      | takeSome htake =>
        cases htake
        refine .closes .start rest closed (getElem?_update_self hi) hw' ?_
        rintro ⟨n, hn⟩
        obtain ⟨hne, hn⟩ := lookup_of_lookup_erase hn
        obtain ⟨starts, hmon⟩ := exists_monitor h
        have hsound := (reachable_inv hmon).2.sound
        have hmem : Token.removing name e ∈ (s.config starts).pool :=
          (mem_config s starts).mpr ⟨_, List.mem_of_getElem? hi, Multiset.mem_singleton_self _⟩
        exact hne ((hsound.linked hn).2.symm.trans (hsound.tokens _ hmem).2)
      | takeNext htake | takeNone htake => cases htake
    · obtain rfl := Task.cancel_cleanupIdle ht
      exact .aborted (getElem?_update_self hi)
  | closes pc rest closed hi hw hun =>
    have hw' := closed_step h hstep hw
    have hun' := unlinked_step hstep he hun
    rcases State.step_task hstep hi with ⟨_, hi'⟩ |
      ⟨choice, σ', t', spawned, rfl, ht, rfl⟩ | ⟨σ', t', rfl, ht, rfl⟩
    · exact .closes pc rest closed hi' hw' hun'
    · obtain ⟨pc', rfl, hpc⟩ := Task.step_cleanupIdle ht
      cases hpc with
      | closeNext => exact .closes _ rest closed (getElem?_update_self hi) hw' hun'
      | closeDone hclose => exact .closed hw' hun' hclose.alive
    · obtain rfl := Task.cancel_cleanupIdle ht
      exact .aborted (getElem?_update_self hi)
  | closed hw hun halive =>
    exact .closed (closed_step h hstep hw) (unlinked_step hstep he hun)
      (alive_step h hbefore hstep hnone halive)
  | aborted hi =>
    rcases State.step_task hstep hi with ⟨_, hi'⟩ |
      ⟨choice, σ', t', spawned, rfl, ht, rfl⟩ | ⟨σ', t', rfl, ht, rfl⟩
    · exact .aborted hi'
    · simp [Task.step, cleanupStep] at ht
    · simp [Task.cancel, cleanupCancel] at ht

end Step

/-- A call that has the entry before it does not return and leave the entry
linked and open. -/
theorem awaits_run {s₁ : State} {callMs : Nat} (h : (manager settings).Reachable s₁)
    (he : e < s₁.shared.created) (hawaits : s₁.Awaits settings.idleTimeoutMs callMs i name e)
    {s : State} (hrun : (manager settings).RunFrom (quietStep e callMs) s₁ s) :
    e < s.shared.created ∧ (s.shared.entries.lookup name = some e →
      (s.shared.heap e).activeLeases ≠ CLOSED →
        s.Awaits settings.idleTimeoutMs callMs i name e ∨ s.Aborted i) := by
  refine hrun.invariant (I := fun s => e < s.shared.created ∧
    (s.shared.entries.lookup name = some e → (s.shared.heap e).activeLeases ≠ CLOSED →
      s.Awaits settings.idleTimeoutMs callMs i name e ∨ s.Aborted i))
    ⟨he, fun _ _ => Or.inl hawaits⟩ fun s a s' hr hI hok hstep => ?_
  have hreach : (manager settings).Reachable s := h.trans (hr.mono fun _ _ _ => trivial)
  obtain ⟨he', hback⟩ := State.lookup_back name hstep hI.1
  refine ⟨he', fun hl' hw' => ?_⟩
  have hw : (s.shared.heap e).activeLeases ≠ CLOSED :=
    fun hw => hw' (closed_step hreach hstep hw)
  rcases hI.2 (hback hl') hw with hawaits | haborted
  · rcases hawaits.step hreach hstep hok.2.2 hok.2.1 (hback hl') hw with
      ⟨hawaits', _⟩ | ⟨_, _, _, hclosed⟩ | haborted
    · exact Or.inl hawaits'
    · exact absurd hclosed hw'
    · exact Or.inr haborted
  · rcases State.step_task hstep haborted with ⟨_, hi'⟩ |
      ⟨choice, σ', t', spawned, rfl, ht, rfl⟩ | ⟨σ', t', rfl, ht, rfl⟩
    · exact Or.inr hi'
    · simp [Task.step, cleanupStep] at ht
    · simp [Task.cancel, cleanupCancel] at ht

/-- The run lemma: a call that is alone in `take` for the name gets through with
the entry. -/
theorem progress_run {s₁ : State} {callMs : Nat} (h : (manager settings).Reachable s₁)
    (hbefore : s₁.BeforeCloseAll) (he : e < s₁.shared.created)
    (hl : s₁.shared.entries.lookup name = some e)
    (hawaits : s₁.Awaits settings.idleTimeoutMs callMs i name e) {s : State}
    (hrun : (manager settings).RunFrom
      (fun s a => quietStep e callMs s a ∧ s.TakesAlone i name) s₁ s) :
    s.Progress settings.idleTimeoutMs callMs i name e := by
  refine (hrun.invariant (I := fun s => s.BeforeCloseAll ∧ e < s.shared.created ∧
    s.Progress settings.idleTimeoutMs callMs i name e)
    ⟨hbefore, he, .awaits hl hawaits⟩ fun s a s' hr hI hok hstep => ?_).2.2
  have hreach : (manager settings).Reachable s := h.trans (hr.mono fun _ _ _ => trivial)
  exact ⟨State.beforeCloseAll_step hI.1 hok.1.1 hstep,
    (State.lookup_back name hstep hI.2.1).1,
    hI.2.2.step hreach hI.1 hstep hok.1 hok.2 hI.2.1⟩

/-- Idle databases go to sleep, if maintenance lets them.  Task `i` is a call of
`cleanup_idle` that has not started.  The entry is linked.  The last drop of a
request lease on it (or its creation) is at least the idle timeout ago, and so is
the last drop of a lease of `checkpoint_wal` on it.  While the call runs, nobody
holds the entry.

* When the call returns, the entry is not linked, or another task has closed its
  word and is about to unlink it.
* If no other task is in `take` for the name while the call runs, then the call
  has closed the entry, with its pools, and unlinked it. -/
theorem idle_closed {s₁ : State} {u : Usage}
    (h : (history settings).ReachableVia (fun _ a => a.beforeCloseAll) (s₁, u))
    (hi : s₁.tasks[i]? = some (.cleanupIdle .start))
    (hl : s₁.shared.entries.lookup name = some e) (hnone : s₁.holders e = 0)
    (hidle : u.request e + settings.idleTimeoutMs ≤ s₁.shared.now)
    (hrested : u.checkpoint e + settings.idleTimeoutMs ≤ s₁.shared.now) :
    (∀ s₂ closed, (manager settings).RunFrom (quietStep e s₁.shared.now) s₁ s₂ →
      s₂.tasks[i]? = some (.cleanupIdle (.done (some closed))) →
      s₂.shared.entries.lookup name = some e →
      ∃ t ∈ s₂.tasks, t.removing = some (name, e)) ∧
    (∀ s₂ closed, (manager settings).RunFrom
        (fun s a => quietStep e s₁.shared.now s a ∧ s.TakesAlone i name) s₁ s₂ →
      s₂.tasks[i]? = some (.cleanupIdle (.done (some closed))) →
      (s₂.shared.heap e).activeLeases = CLOSED ∧ ¬ s₂.Linked e ∧
        (s₂.shared.heap e).alive = false) := by
  have hvia := of_history (fun _ a => a.beforeCloseAll) h
  have hreach : (manager settings).Reachable s₁ := hvia.reachable
  have he := (lookup_name hreach hl hl).1
  have hawaits : s₁.Awaits settings.idleTimeoutMs s₁.shared.now i name e := by
    refine ⟨.start, hi, ?_⟩
    have hlast := lastUsed_le_last h.reachable hnone
    have hmax : u.last e + settings.idleTimeoutMs ≤ s₁.shared.now := by
      simp only [Usage.last]
      omega
    exact Nat.le_trans (Nat.add_le_add_right hlast _) hmax
  constructor
  · intro s₂ closed hrun hdone hl₂
    by_contra hex
    have hreach₂ : (manager settings).Reachable s₂ :=
      hreach.trans (hrun.mono fun _ _ _ => trivial)
    have hw₂ : (s₂.shared.heap e).activeLeases ≠ CLOSED :=
      fun hw => hex (exists_removing hreach₂ hl₂ hw)
    rcases (awaits_run hreach he hawaits hrun).2 hl₂ hw₂ with ⟨pc, hpc, hp⟩ | haborted
    · obtain rfl := Task.cleanupIdle.inj (Option.some.inj (hpc.symm.trans hdone))
      exact hp
    · exact absurd (haborted.symm.trans hdone) (by simp)
  · intro s₂ closed hrun hdone
    have hbefore := reachable_beforeCloseAll (fun _ _ => id) hvia
    cases progress_run hreach hbefore he hl hawaits hrun with
    | awaits _ hawaits =>
      obtain ⟨pc, hpc, hp⟩ := hawaits
      obtain rfl := Task.cleanupIdle.inj (Option.some.inj (hpc.symm.trans hdone))
      exact absurd hp id
    | unlinks hunlinks =>
      obtain ⟨rest, n, hpc, _⟩ := hunlinks
      exact absurd (hpc.symm.trans hdone) (by simp)
    | closes pc rest n hpc => exact absurd (hpc.symm.trans hdone) (by simp)
    | closed hw hun halive => exact ⟨hw, hun, halive⟩
    | aborted haborted => exact absurd (haborted.symm.trans hdone) (by simp)

/-- The next call of `checkpoint_wal` is task `i`.  It runs to its end over a
registry of one open database. -/
def checkpointRound (i : Nat) (name : String) : List Action :=
  .start .checkpointWal :: goes i 1 ++ .step i (.visit name) :: goes i 9

/-- A call of `cleanup_idle`, task `i`, visits one entry and then does `n` steps. -/
def cleanupRound (i : Nat) (name : String) (n : Nat) : List Action :=
  goes i 1 ++ .step i (.visit name) :: goes i n

/-- A database is used at time 0 and checkpointed at time `checkpointMs`.  At time
400000 a call of `cleanup_idle` is made. -/
def oneUse (checkpointMs : Nat) : List Action :=
  coldAcquire 0 "a" 0 ++ dropLease 0 ++ .clock checkpointMs :: checkpointRound 1 "a" ++
    [.clock 400000, .start .cleanupIdle]

/-- The run up to the call, with its record. -/
def beforeCall (checkpointMs : Nat) : State × Usage :=
  (history .default).play (fun p a => decide (forwardStep p.1 a)) (oneUse checkpointMs)

/-- The run of the call, which is task 2. -/
def afterCall (checkpointMs n : Nat) : State :=
  (manager .default).playFrom
    (fun s a => decide (quietStep 0 400000 s a ∧ s.TakesAlone 2 "a"))
    (beforeCall checkpointMs).1 (cleanupRound 2 "a" n)

theorem reachable_beforeCall (checkpointMs : Nat) :
    (history .default).ReachableVia (fun p a => forwardStep p.1 a)
      ((beforeCall checkpointMs).1, (beforeCall checkpointMs).2) := by
  rw [Prod.mk.eta]
  exact StepSystem.reachable_play (fun _ _ h => of_decide_eq_true h) _

theorem runFrom_afterCall (checkpointMs n : Nat) {callMs : Nat} (hcall : callMs = 400000) :
    (manager .default).RunFrom (fun s a => quietStep 0 callMs s a ∧ s.TakesAlone 2 "a")
      (beforeCall checkpointMs).1 (afterCall checkpointMs n) := by
  subst hcall
  exact StepSystem.runFrom_playFrom (fun _ _ h => of_decide_eq_true h) _ _

/-- With a checkpoint at time 50000, the call closes the database, whose last
request ended at time 0. -/
theorem idle_closed_rested :
    ((afterCall 50000 11).shared.heap 0).activeLeases = CLOSED ∧
    ((afterCall 50000 11).shared.heap 0).alive = false := by
  have hnow : (beforeCall 50000).1.shared.now = 400000 := by decide
  have hstart : (beforeCall 50000).1.tasks[2]? = some (.cleanupIdle .start) := by decide
  have hlinked : (beforeCall 50000).1.shared.entries.lookup "a" = some 0 := by decide
  have hdone : (afterCall 50000 11).tasks[2]? = some (.cleanupIdle (.done (some 1))) := by decide
  have hlaw := (idle_closed ((reachable_beforeCall 50000).mono fun _ _ h => h.1) hstart hlinked
    (by decide) (by decide) (by decide)).2 _ 1
    (runFrom_afterCall 50000 11 hnow) hdone
  exact ⟨hlaw.1, hlaw.2.2⟩

/-- With a checkpoint at time 200000, the call leaves the same database open: the
last request ended 400 seconds before the call, the idle timeout is 300 seconds,
and nobody holds a lease. -/
theorem idle_not_closed :
    ∃ (s₁ : State) (u : Usage) (s₂ : State),
      (history .default).ReachableVia (fun p a => forwardStep p.1 a) (s₁, u) ∧
      s₁.tasks[2]? = some (.cleanupIdle .start) ∧
      s₁.shared.entries.lookup "a" = some 0 ∧ s₁.holders 0 = 0 ∧
      u.request 0 + DatabaseSettings.default.idleTimeoutMs ≤ s₁.shared.now ∧
      (manager .default).RunFrom
        (fun s a => quietStep 0 s₁.shared.now s a ∧ s.TakesAlone 2 "a") s₁ s₂ ∧
      s₂.tasks[2]? = some (.cleanupIdle (.done (some 0))) ∧
      s₂.shared.entries.lookup "a" = some 0 ∧ (s₂.shared.heap 0).activeLeases = 0 ∧
      (s₂.shared.heap 0).alive = true := by
  have hnow : (beforeCall 200000).1.shared.now = 400000 := by decide
  exact ⟨(beforeCall 200000).1, (beforeCall 200000).2, afterCall 200000 3,
    reachable_beforeCall 200000, by decide, by decide, by decide, by decide,
    runFrom_afterCall 200000 3 hnow, by decide, by decide, by decide, by decide⟩

end Tinkiva.Manager
