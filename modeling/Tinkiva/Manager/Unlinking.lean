import Tinkiva.Manager.Capacity
import Tinkiva.Manager.Idle
import Tinkiva.Manager.Steps

/-!
# What `take` unlinks

`take` looks an entry up, closes it and then removes by name, in three steps.  The
`remove_if` of a failed open compares the entry first; `take` does not.  Between
the lookup and the `begin_close` a failed open can unlink the entry, and then the
name may be bound to a new one.

`take_unlinks_own` is the law of the runs in which no failed open unlinks an entry that a
`take` has looked up.  Its invariant is that the name stays bound to the entry of the `take`,
unless another `take` has closed and unlinked it; then the `begin_close` fails.
-/

namespace Tinkiva.Manager

open Tinkiva.Config ConcurrentMap TaskPool SentinelCounter

variable {settings : DatabaseSettings} {s s' : State}

/-! ## The condition -/

/-- An event that is the `remove_if` of a failed open happens while no `take` has the
entry looked up. -/
def Event.unlinksUntaken (s : State) : Option Event → Prop
  | some (.unlinkFailed name e) => ∀ t ∈ s.tasks, t.taking ≠ some (name, e)
  | some (.insert _ _) | some (.openPools _) | some (.closeEntry _) | none => True

instance (s : State) : DecidablePred (Event.unlinksUntaken s)
  | some (.unlinkFailed name e) => inferInstanceAs
    (Decidable (∀ t ∈ s.tasks, t.taking ≠ some (name, e)))
  | some (.insert _ _) | some (.openPools _) | some (.closeEntry _) | none => isTrue trivial

/-- The step is the `entries.clear()` of `close_all`. -/
def State.clears (s : State) : Action → Bool
  | .step i .go =>
    match s.tasks[i]? with
    | some (.closeAll (.clear _)) => true
    | _ => false
  | _ => false

/-- A failed open does not unlink an entry that a `take` has looked up, and `close_all` does
not clear the map while a `take` is between its lookup and its `remove`. -/
def untakenStep (s : State) (a : Action) : Prop :=
  Event.unlinksUntaken s (s.event a) ∧
    (s.clears a = true → ∀ t ∈ s.tasks, t.taking = none ∧ t.removing = none)

instance (s : State) (a : Action) : Decidable (untakenStep s a) :=
  inferInstanceAs (Decidable (_ ∧ _))

/-! ## The entry of a `take` -/

/-- A task that is before the `remove` of a `take` was there before the step, or it has just
closed an entry that had no lease. -/
theorem State.removing_back {a : Action} (hstep : s.step settings a = some s') :
    ∀ (i : Nat) (t : Task), s'.tasks[i]? = some t → ∀ name e, t.removing = some (name, e) →
      s.tasks[i]? = some t ∨
        (∃ choice, a = .step i choice) ∧ (s.shared.heap e).activeLeases = 0 ∧
          (s'.shared.heap e).activeLeases = CLOSED := by
  refine State.forall_step (P := fun _ _ => True) hstep (fun _ _ _ => trivial) ?_ ?_ ?_ ?_ ?_
  · exact fun i t hi _ _ _ name e _ => .inl hi
  · intro i choice t t' spawned ha _ _ hbranch _ name e hremoving
    obtain ⟨_, _, hzero, hσ⟩ := hbranch.removing hremoving
    exact .inr ⟨⟨choice, ha⟩, hzero, by rw [hσ, word_setLeases, if_pos rfl]⟩
  · intro i t t' _ _ hbranch _ name e hremoving
    exact absurd hremoving (by simp [Task.removing, hbranch.takePc])
  · intro operation _ name e hremoving
    exact absurd hremoving (by simp [Task.removing, operation.task_idle.2.2])
  · intro i j name e hremoving
    exact absurd hremoving (by simp [Task.removing, Task.takePc])

/-- What the tasks before the `remove` of a `take` have closed, each an entry of its own. -/
structure State.ClosedByTake (s : State) : Prop where
  closed : ∀ (i : Nat) (t : Task), s.tasks[i]? = some t → ∀ name e,
    t.removing = some (name, e) → (s.shared.heap e).activeLeases = CLOSED
  alone : ∀ (i j : Nat) (t u : Task), s.tasks[i]? = some t → s.tasks[j]? = some u →
    ∀ name name' e, t.removing = some (name, e) → u.removing = some (name', e) → i = j

theorem closedByTake (h : (manager settings).Reachable s) : s.ClosedByTake := by
  refine h.invariant (I := State.ClosedByTake) ⟨?_, ?_⟩ ?_
  · exact fun i t hi => absurd hi (by simp [manager])
  · exact fun i j t u hi => absurd hi (by simp [manager])
  · intro s a s' hr hI _ hstep
    have hback := State.removing_back hstep
    constructor
    · intro i t hi name e hremoving
      rcases hback i t hi name e hremoving with hold | ⟨_, _, hclosed⟩
      · exact closed_step hr hstep (hI.closed i t hold name e hremoving)
      · exact hclosed
    · intro i j t u hi hj name name' e ht hu
      rcases hback i t hi name e ht with hit | ⟨⟨choice, rfl⟩, hzero, _⟩ <;>
        rcases hback j u hj name' e hu with hju | ⟨⟨choice', ha⟩, hzero', _⟩
      · exact hI.alone i j t u hit hju name name' e ht hu
      · have hclosed := hI.closed i t hit name e ht
        rw [hzero'] at hclosed
        exact absurd hclosed (by decide)
      · have hclosed := hI.closed j u hju name' e hu
        rw [hzero] at hclosed
        exact absurd hclosed (by decide)
      · exact (Action.step.inj ha).1

/-- The name of a `take` that has looked its entry up is bound to the entry, or another `take`
has closed it.  At the `remove` it is bound to the entry. -/
structure State.TakesOwn (s : State) : Prop where
  taking : ∀ (i : Nat) (t : Task), s.tasks[i]? = some t → ∀ name e,
    t.taking = some (name, e) → s.shared.entries.lookup name = some e ∨
      (s.shared.heap e).activeLeases = CLOSED
  removing : ∀ (i : Nat) (t : Task), s.tasks[i]? = some t → ∀ name e,
    t.removing = some (name, e) → s.shared.entries.lookup name = some e

/-- A step of another task keeps the binding of the entry, or it is the `remove` of a `take` of
the same entry. -/
theorem State.TakesOwn.lookup_kept {a : Action} (hI : s.TakesOwn)
    (hreach : (manager settings).Reachable s) (hstep : s.step settings a = some s')
    (hok : untakenStep s a) {t : Task} (ht : t ∈ s.tasks) {name : String} {e : EntryId}
    (htake : t.taking = some (name, e) ∨ t.removing = some (name, e))
    (hl : s.shared.entries.lookup name = some e) :
    s'.shared.entries.lookup name = some e ∨
      ∃ j choice u, a = .step j choice ∧ s.tasks[j]? = some u ∧ u.removing = some (name, e) := by
  rcases State.step_map hstep with hmap | ⟨j, choice, u, rfl, hj, hmap⟩
  · exact .inl (hmap ▸ hl)
  · cases hmap with
    | kept hmap => exact .inl (hmap ▸ hl)
    | inserted n hby hmap =>
      have hvacant := (insert_room hreach (a := .step j choice)
        (by simpa [State.event, hj] using hby)).1
      left
      rw [hmap, lookup_insert_of, if_neg]
      · exact hl
      · rintro rfl
        exact absurd (hvacant.symm.trans hl) (by simp)
    | removed n k hby hmap =>
      by_cases hn : name = n
      · -- the other `take` has the same entry, since the name is bound to both
        subst hn
        obtain rfl := Option.some.inj (hl.symm.trans (hI.removing j u hj name k hby))
        exact .inr ⟨j, choice, u, rfl, hj, hby⟩
      · left
        rw [hmap]
        exact (AList.lookup_erase_ne hn).trans hl
    | unlinked n k hby hmap =>
      left
      rw [hmap, lookup_eraseIf_of, if_neg]
      · exact hl
      · rintro ⟨rfl, hk⟩
        obtain rfl := Option.some.inj (hl.symm.trans hk)
        rcases htake with htaking | hremoving
        · have huntaken := hok.1
          simp only [State.event, hj, hby] at huntaken
          exact huntaken t ht htaking
        · -- the caller whose open has failed has a lease on the entry
          obtain ⟨i, hi⟩ := List.mem_iff_getElem?.mp ht
          have hclosed := (closedByTake hreach).closed i t hi name e hremoving
          have hnone := (counts_holders hreach e).of_closed hclosed
          obtain ⟨call, rfl, _⟩ := Task.unlink_of_event hby
          exact absurd hnone (Nat.ne_of_gt (holders_pos (List.mem_of_getElem? hj) rfl))
    | cleared hby hmap =>
      have hclears : s.clears (.step j choice) = true := by
        subst hby
        cases choice with
        | go => simp [State.clears, hj]
        | fail | visit | count =>
          simp [State.step, hj, Task.step, closeAllStep] at hstep
      obtain ⟨htaking, hremoving⟩ := hok.2 hclears t ht
      rw [htaking, hremoving] at htake
      simp at htake

/-- Each step keeps it. -/
theorem State.TakesOwn.step {a : Action} (hI : s.TakesOwn)
    (hreach : (manager settings).Reachable s) (hstep : s.step settings a = some s')
    (hok : untakenStep s a) : s'.TakesOwn := by
  have hclosed := closedByTake hreach
  constructor
  · refine State.forall_step hstep hI.taking ?_ ?_ ?_ ?_ ?_
    · intro i t hi _ _ htaking name e ht
      rcases htaking name e ht with hl | hw
      · rcases hI.lookup_kept hreach hstep hok (List.mem_of_getElem? hi) (.inl ht) hl with
          hl' | ⟨j, choice, u, _, hj, hu⟩
        · exact .inl hl'
        · exact .inr (closed_step hreach hstep (hclosed.closed j u hj name e hu))
      · exact .inr (closed_step hreach hstep hw)
    · intro i choice t t' spawned _ _ _ hbranch _ name e ht
      obtain ⟨_, hσ, hl⟩ := hbranch.taking ht
      exact .inl (hσ ▸ hl)
    · intro i t t' _ _ hbranch _ name e ht
      exact absurd ht (by simp [Task.taking, hbranch.takePc])
    · intro operation _ name e ht
      exact absurd ht (by simp [Task.taking, operation.task_idle.2.2])
    · intro i j name e ht
      exact absurd ht (by simp [Task.taking, Task.takePc])
  · refine State.forall_step (P := fun i t => s.tasks[i]? = some t) hstep (fun _ _ h => h)
      ?_ ?_ ?_ ?_ ?_
    · intro i t hi _ hother _ name e ht
      rcases hI.lookup_kept hreach hstep hok (List.mem_of_getElem? hi) (.inr ht)
          (hI.removing i t hi name e ht) with hl' | ⟨j, choice, u, rfl, hj, hu⟩
      · exact hl'
      · obtain rfl := hclosed.alone i j t u hi hj name name e ht hu
        exact absurd rfl (hother choice)
    · intro i choice t t' spawned _ _ hi' hbranch hi name e ht
      -- a `begin_close` that succeeds has found no lease, so the entry was not closed
      obtain ⟨htaking, _, hzero, hσ⟩ := hbranch.removing ht
      rw [hσ]
      refine (hI.taking i t hi name e htaking).resolve_right fun hw => ?_
      rw [hzero] at hw
      exact absurd hw (by decide)
    · intro i t t' _ _ hbranch _ name e ht
      exact absurd ht (by simp [Task.removing, hbranch.takePc])
    · intro operation _ name e ht
      exact absurd ht (by simp [Task.removing, operation.task_idle.2.2])
    · intro i j name e ht
      exact absurd ht (by simp [Task.removing, Task.takePc])

theorem takesOwn (h : (manager settings).ReachableVia untakenStep s) : s.TakesOwn := by
  refine h.invariant (I := State.TakesOwn) ⟨?_, ?_⟩ ?_
  · exact fun i t hi => absurd hi (by simp [manager])
  · exact fun i t hi => absurd hi (by simp [manager])
  · exact fun s a s' hr hI hok hstep => hI.step hr.reachable hstep hok

/-! ## The law -/

/-- `take` returns an entry at its `remove`. -/
theorem takeStep_returned {σ : Shared} {pc : TakePc} {e : EntryId}
    (h : (takeStep σ pc).2 = .returned (some e)) : pc = .remove pc.name e := by
  have hbranch := takeStep_branch σ pc
  generalize takeStep σ pc = r at h hbranch
  cases hbranch with
  | remove =>
    obtain rfl := Option.some.inj (TakeStep.returned.inj h)
    rfl
  | vacant | found | leased | closed => simp at h

/-- `take` unlinks the entry that it closed and no other, in the runs in which no failed open
unlinks an entry that a `take` has looked up.  When `take` returns an entry, the entry is
`CLOSED` and nobody holds it, and its name is the only one that may be unbound, and only from
this entry. -/
theorem take_unlinks_own (h : (manager settings).ReachableVia untakenStep s) {i : Nat} {t : Task}
    {pc : TakePc} {e : EntryId} (hi : s.tasks[i]? = some t) (hpc : t.takePc = some pc)
    (hreturned : (takeStep s.shared pc).2 = .returned (some e)) :
    (s.shared.heap e).activeLeases = CLOSED ∧ s.holders e = 0 ∧
    s.shared.entries.lookup pc.name = some e ∧
    ∀ s', s.step settings (.step i .go) = some s' → ∀ name j,
      s.shared.entries.lookup name = some j →
        s'.shared.entries.lookup name = some j ∨ name = pc.name ∧ j = e := by
  have hremoving : t.removing = some (pc.name, e) := by
    rw [Task.removing, hpc, takeStep_returned hreturned]
    rfl
  have hclosed := (closedByTake h.reachable).closed i t hi pc.name e hremoving
  have hbound := (takesOwn h).removing i t hi pc.name e hremoving
  refine ⟨hclosed, (counts_holders h.reachable e).of_closed hclosed, hbound, ?_⟩
  intro s' hstep name j hl
  rcases State.step_map hstep with hmap | ⟨i', choice, u, ha, hu, hmap⟩
  · exact Or.inl (hmap ▸ hl)
  · obtain ⟨rfl, rfl⟩ := Action.step.inj ha
    obtain rfl := Option.some.inj (hi.symm.trans hu)
    cases hmap with
    | kept hmap => exact Or.inl (hmap ▸ hl)
    | removed n k hby hmap =>
      obtain ⟨rfl, rfl⟩ := Prod.mk.inj (Option.some.inj (hremoving.symm.trans hby))
      by_cases hname : name = pc.name
      · subst hname
        exact Or.inr ⟨rfl, Option.some.inj (hl.symm.trans hbound)⟩
      · left
        rw [hmap]
        exact (AList.lookup_erase_ne hname).trans hl
    | inserted n hby | unlinked n k hby =>
      -- A task in `take` neither inserts nor gives up an entry.
      unfold Task.event at hby
      split at hby <;> simp_all [Task.takePc]
    | cleared hby =>
      rw [hby] at hpc
      simp [Task.takePc] at hpc

/-- The call of `cleanup_idle` takes the only database, which nobody has used for
longer than the idle timeout. -/
def idleTake : List Action :=
  coldAcquire 0 "a" 0 ++ dropLease 0 ++ .clock 400000 :: .start .cleanupIdle ::
    cleanupRound 1 "a" 4

/-- The entry that it returns is closed. -/
theorem take_unlinks_own_idle :
    (((manager .default).play (fun s a => decide (untakenStep s a)) idleTake).shared.heap
      0).activeLeases = CLOSED := by
  have hi : ((manager .default).play (fun s a => decide (untakenStep s a)) idleTake).tasks[1]? =
      some (.cleanupIdle (.take (.remove "a" 0) [] 0)) := by decide
  exact (take_unlinks_own (StepSystem.reachable_play (M := manager .default)
    (fun _ _ h => of_decide_eq_true h) idleTake) hi rfl rfl).1

/-! ## Without the condition -/

/-- Task 0 is cancelled while it opens `a`, so the entry stays linked and
unopened.  Much later `cleanup_idle`, task 1, looks the entry up in `take`.  Then
task 2 fails to open the entry and unlinks it, and task 3 gets a new entry for `a`.
Now task 1 closes the entry that it has looked up. -/
def staleTake : List Action :=
  admitted 0 "a" 0 ++ .cancel 0 :: goes 0 4 ++ .clock 400000 :: .start .cleanupIdle ::
    cleanupRound 1 "a" 3 ++ .start (.acquire "a") :: goes 2 6 ++ .step 2 .fail :: goes 2 5 ++
    coldAcquire 3 "a" 0 ++ goes 1 1

/-- `take` returns the entry that it closed and unlinks the other one, which is
open and has a lease. -/
theorem take_unlinks_other :
    ∃ s : State, (manager .default).ReachableVia (fun _ a => a.beforeCloseAll) s ∧
      s.tasks[1]? = some (.cleanupIdle (.take (.remove "a" 0) [] 0)) ∧
      (takeStep s.shared (.remove "a" 0)).2 = .returned (some 0) ∧
      s.shared.entries.lookup "a" = some 1 ∧ (s.shared.heap 1).activeLeases = 1 ∧
      s.holders 1 = 1 ∧ (s.shared.heap 1).alive = true ∧
      (s.step .default (.step 1 .go)).map (fun s' => s'.shared.entries.lookup "a") =
        some none :=
  ⟨_, StepSystem.reachable_play (M := manager .default)
    (fun _ _ h => of_decide_eq_true h) staleTake, by decide, rfl, by decide, by decide,
    by decide, by decide, by decide⟩

end Tinkiva.Manager
