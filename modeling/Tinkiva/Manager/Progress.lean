import Tinkiva.Lib.WaitFor
import Tinkiva.Manager.Opening

/-!
# Nobody waits for ever on each other

A task waits at four places: for the admission mutex, for a permit of its tenant,
for a permit of the process, and for the caller that opens its entry.  A call takes
them in this order and gives none back to take another, so a wait leads from a task
to one that is further on: `no_deadlock` says that there is no circle of waits, and
that from every task that is not over a chain of waits leads to a task that can do
a step.  The step is not a timeout and not an error.
-/

namespace Tinkiva.Manager

open Tinkiva.Config Tinkiva.Protocol ConcurrentMap TaskPool

variable {settings : DatabaseSettings}

/-! ## What a task waits for -/

/-- What the tasks wait for. -/
inductive Resource where
  | admission
  | tenantSlot (entry : EntryId)
  | processSlot
  | cell (entry : EntryId)
  deriving DecidableEq, Repr

/-- The task has returned. -/
def Task.isDone : Task → Bool
  | .acquire _ (.done _) | .cleanupIdle (.done _) | .checkpointWal (.done _)
  | .closeEntry _ none | .closeAll .done => true
  | _ => false

/-- What the task has to wait for. -/
def Task.needs (σ : Shared) : Task → Option Resource
  | .acquire _ .lock => if σ.admission then some .admission else none
  | .acquire _ (.tenantSlot e) => if (σ.heap e).slots = 0 then some (.tenantSlot e) else none
  | .acquire _ (.processSlot _) => if σ.slots = 0 then some .processSlot else none
  | .acquire _ (.ensureOpen e) =>
    if (σ.heap e).pools.value.isNone && (σ.heap e).pools.initializing then some (.cell e) else none
  | _ => none

/-- The task holds the resource, or a share of it. -/
def Task.holds (t : Task) : Resource → Bool
  | .admission => t.admission
  | .tenantSlot e => decide (t.tenantSlot = some e)
  | .processSlot => t.processSlot
  | .cell e => decide (t.opening = some e)

/-- Task `i` waits for something that task `j` holds. -/
def State.WaitsFor (s : State) (i j : Nat) : Prop :=
  ∃ t u r, s.tasks[i]? = some t ∧ s.tasks[j]? = some u ∧ t.needs s.shared = some r ∧
    u.holds r = true

/-- How many waits there can be from a task that waits for the resource on. -/
def Resource.rank : Resource → Nat
  | .admission | .cell _ => 1
  | .processSlot => 2
  | .tenantSlot _ => 3

/-- The same, for a task: none if it can go on. -/
def Task.waitRank (σ : Shared) (t : Task) : Nat := (t.needs σ).elim 0 Resource.rank

/-- A task that holds a resource waits only for one that is taken after it. -/
theorem Task.rank_of_holds {σ : Shared} {u : Task} {r r' : Resource} (hneeds : u.needs σ = some r')
    (hholds : u.holds r = true) : r'.rank < r.rank := by
  unfold Task.needs at hneeds
  split at hneeds
  case h_5 => simp at hneeds
  all_goals
    split at hneeds
    case isFalse => simp at hneeds
    obtain rfl := Option.some.inj hneeds
    cases r <;> simp_all [Task.holds, Task.admission, Task.opening, Task.processSlot,
      Task.tenantSlot, Resource.rank]

/-- Along a wait the rank goes down. -/
theorem State.WaitsFor.rank_lt {s : State} {i j : Nat} (h : s.WaitsFor i j) {t u : Task}
    (hi : s.tasks[i]? = some t) (hj : s.tasks[j]? = some u) :
    u.waitRank s.shared < t.waitRank s.shared := by
  obtain ⟨t', u', r, hi', hj', hneeds, hholds⟩ := h
  obtain rfl := Option.some.inj (hi.symm.trans hi')
  obtain rfl := Option.some.inj (hj.symm.trans hj')
  rw [Task.waitRank, Task.waitRank, hneeds]
  cases hu : u.needs s.shared with
  | none => cases r <;> exact Nat.zero_lt_succ _
  | some r' => exact Task.rank_of_holds hu hholds

/-! ## Somebody holds what a task waits for -/

/-- A task that holds something is not over. -/
theorem Task.isDone_of_holds {u : Task} {r : Resource} (h : u.holds r = true) :
    u.isDone = false := by
  unfold Task.isDone
  split
  case h_6 => rfl
  all_goals
    cases r <;>
      simp [Task.holds, Task.admission, Task.opening, Task.processSlot, Task.tenantSlot] at h

variable {s : State}

theorem exists_holder (h : (manager settings).Reachable s)
    (hprocess : 0 < settings.maxConcurrentRequests)
    (htenant : 0 < settings.maxConcurrentRequestsPerDatabase) {t : Task} (ht : t ∈ s.tasks)
    {r : Resource} (hneeds : t.needs s.shared = some r) : ∃ u ∈ s.tasks, u.holds r = true := by
  unfold Task.needs at hneeds
  split at hneeds
  · -- The mutex is locked by the owner of the guard.
    split at hneeds
    · rename_i hlocked
      obtain rfl := Option.some.inj hneeds
      obtain ⟨starts, hmon⟩ := exists_monitor h
      have howned := (reachable_inv hmon).2.guarded.owned
      rw [guards_config] at howned
      change _ = s.shared.admission.toNat at howned
      rw [hlocked] at howned
      exact List.countP_pos_iff.mp (howned ▸ Nat.zero_lt_one)
    · simp at hneeds
  · split at hneeds
    · rename_i call e hslots
      obtain rfl := Option.some.inj hneeds
      have hsum := tenantSlots_eq h (lease_lt h ht (e := e) rfl)
      have hpos : 0 < s.tasks.countP fun u => decide (u.tenantSlot = some e) := by omega
      exact List.countP_pos_iff.mp hpos
    · simp at hneeds
  · split at hneeds
    · rename_i hslots
      obtain rfl := Option.some.inj hneeds
      have hsum := slots_eq h
      have hpos : 0 < s.tasks.countP fun u => u.processSlot := by omega
      exact List.countP_pos_iff.mp hpos
    · simp at hneeds
  · split at hneeds
    · rename_i call e hcell
      obtain rfl := Option.some.inj hneeds
      have hopeners := openers_eq h e
      rw [(Bool.and_eq_true_iff.mp hcell).2] at hopeners
      have hpos : 0 < s.openers e := hopeners ▸ Nat.zero_lt_one
      exact List.countP_pos_iff.mp hpos
    · simp at hneeds
  · simp at hneeds

/-! ## A task that waits for nothing can do a step -/

/-- An iterator yields a binding, or it may end. -/
theorem scan_goes (sc : Scan String EntryId) (m : Map String EntryId) :
    sc.finished m = true ∨ ∃ name r, sc.visit m name = some r := by
  by_cases hfin : sc.finished m = true
  · exact Or.inl hfin
  · simp only [Scan.finished, List.all_eq_true, decide_eq_true_eq, not_forall] at hfin
    obtain ⟨⟨name, e⟩, _, hl, hseen⟩ := hfin
    exact Or.inr ⟨name, _, by rw [Scan.visit, if_neg hseen, hl, Option.map_some]⟩

theorem go_ne_fail : Choice.go ≠ .fail := by decide

theorem visit_ne_fail (name : String) : Choice.visit name ≠ .fail := by simp

theorem evictStep_goes (σ : Shared) (pc : EvictPc) :
    ∃ choice, choice ≠ .fail ∧ (evictStep σ pc choice).isSome = true := by
  cases pc with
  | scan sc candidate =>
    rcases scan_goes sc σ.entries with hfin | ⟨name, ⟨e, sc'⟩, hvisit⟩
    · refine ⟨.go, go_ne_fail, ?_⟩
      cases candidate <;> simp [evictStep, hfin]
    · refine ⟨.visit name, visit_ne_fail name, ?_⟩
      simp only [evictStep, hvisit]
      split <;> rfl
  | lastUsed sc candidate name e => exact ⟨.go, go_ne_fail, rfl⟩
  | take pc =>
    refine ⟨.go, go_ne_fail, ?_⟩
    simp only [evictStep]
    split <;> rfl

theorem leaseStep_goes (word : Nat) (pc : LeasePc) : (leaseStep word pc .go).isSome = true := by
  cases pc <;> rfl

/-- A call that waits for nothing can go on. -/
theorem acquireStep_goes (settings : DatabaseSettings) (σ : Shared) (call : Call) (pc : AcquirePc)
    (hneeds : (Task.acquire call pc).needs σ = none)
    (hdone : (Task.acquire call pc).isDone = false) :
    ∃ choice, choice ≠ .fail ∧ (acquireStep settings σ call pc choice).isSome = true := by
  cases pc with
  | get | recheck =>
    refine ⟨.go, go_ne_fail, ?_⟩
    simp only [acquireStep]
    split <;> rfl
  | lock =>
    have hfree : σ.admission = false := by simpa [Task.needs] using hneeds
    exact ⟨.go, go_ne_fail, by simp [acquireStep, hfree]⟩
  | len attempts =>
    refine ⟨.count (size σ.entries), by simp, ?_⟩
    simp only [acquireStep, if_pos (Nat.le_refl _)]
    split
    · split <;> rfl
    · rfl
  | evict attempts pc =>
    obtain ⟨choice, hchoice, hevict⟩ := evictStep_goes σ pc
    refine ⟨choice, hchoice, ?_⟩
    simp only [acquireStep]
    split
    · rename_i hnone
      simp [hnone] at hevict
    all_goals rfl
  | unlock entry => cases entry <;> exact ⟨.go, go_ne_fail, rfl⟩
  | lease e pc =>
    have hlease := leaseStep_goes (σ.heap e).activeLeases pc
    refine ⟨.go, go_ne_fail, ?_⟩
    simp only [acquireStep]
    split
    · rename_i hnone
      simp [hnone] at hlease
    all_goals rfl
  | yield =>
    refine ⟨.go, go_ne_fail, ?_⟩
    simp only [acquireStep]
    split <;> rfl
  | tenantSlot e =>
    have hslots : 0 < (σ.heap e).slots := by simpa [Task.needs, Nat.pos_iff_ne_zero] using hneeds
    exact ⟨.go, go_ne_fail, by simp [acquireStep, hslots]⟩
  | processSlot e =>
    have hslots : 0 < σ.slots := by simpa [Task.needs, Nat.pos_iff_ne_zero] using hneeds
    exact ⟨.go, go_ne_fail, by simp [acquireStep, hslots]⟩
  | ensureOpen e =>
    refine ⟨.go, go_ne_fail, ?_⟩
    cases hset : (σ.heap e).pools.value with
    | some pools => simp [acquireStep, hset]
    | none =>
      have hinit : (σ.heap e).pools.initializing = false := by simpa [Task.needs, hset] using hneeds
      simp [acquireStep, hset, hinit]
  | drop e held error pc => cases pc <;> exact ⟨.go, go_ne_fail, rfl⟩
  | done error => simp [Task.isDone] at hdone
  | create | insert | openPools | removeIf | touch | store | leased | slots =>
    exact ⟨.go, go_ne_fail, rfl⟩

theorem cleanupStep_goes (settings : DatabaseSettings) (σ : Shared) (pc : CleanupPc)
    (hdone : (Task.cleanupIdle pc).isDone = false) :
    ∃ choice, choice ≠ .fail ∧ (cleanupStep settings σ pc choice).isSome = true := by
  cases pc with
  | scan cutoff sc stale =>
    rcases scan_goes sc σ.entries with hfin | ⟨name, ⟨e, sc'⟩, hvisit⟩
    · exact ⟨.go, go_ne_fail, by simp [cleanupStep, hfin]⟩
    · refine ⟨.visit name, visit_ne_fail name, ?_⟩
      simp only [cleanupStep, hvisit]
      split <;> rfl
  | lastUsed cutoff sc stale name e =>
    refine ⟨.go, go_ne_fail, ?_⟩
    simp only [cleanupStep]
    split <;> rfl
  | take pc rest closed =>
    refine ⟨.go, go_ne_fail, ?_⟩
    simp only [cleanupStep]
    split <;> rfl
  | close e pc rest closed =>
    refine ⟨.go, go_ne_fail, ?_⟩
    simp only [cleanupStep]
    split <;> rfl
  | done closed => simp [Task.isDone] at hdone
  | start | record => exact ⟨.go, go_ne_fail, rfl⟩

theorem checkpointStep_goes (σ : Shared) (pc : CheckpointPc)
    (hdone : (Task.checkpointWal pc).isDone = false) :
    ∃ choice, choice ≠ .fail ∧ (checkpointStep σ pc choice).isSome = true := by
  cases pc with
  | scan sc entries =>
    rcases scan_goes sc σ.entries with hfin | ⟨name, ⟨e, sc'⟩, hvisit⟩
    · exact ⟨.go, go_ne_fail, by simp [checkpointStep, hfin]⟩
    · exact ⟨.visit name, visit_ne_fail name, by simp [checkpointStep, hvisit]⟩
  | lease e pc rest n =>
    have hlease := leaseStep_goes (σ.heap e).activeLeases pc
    refine ⟨.go, go_ne_fail, ?_⟩
    simp only [checkpointStep]
    split
    · rename_i hnone
      simp [hnone] at hlease
    all_goals rfl
  | pools e rest n =>
    refine ⟨.go, go_ne_fail, ?_⟩
    simp only [checkpointStep]
    split <;> rfl
  | drop e pc rest n => cases pc <;> exact ⟨.go, go_ne_fail, rfl⟩
  | abort e pc => cases pc <;> exact ⟨.go, go_ne_fail, rfl⟩
  | done n => simp [Task.isDone] at hdone
  | start | pragma | record => exact ⟨.go, go_ne_fail, rfl⟩

theorem closeAllStep_goes (σ : Shared) (pc : CloseAllPc)
    (hdone : (Task.closeAll pc).isDone = false) :
    ∃ choice, choice ≠ .fail ∧ (closeAllStep σ pc choice).isSome = true := by
  cases pc with
  | scan sc entries =>
    rcases scan_goes sc σ.entries with hfin | ⟨name, ⟨e, sc'⟩, hvisit⟩
    · exact ⟨.go, go_ne_fail, by simp [closeAllStep, hfin]⟩
    · exact ⟨.visit name, visit_ne_fail name, by simp [closeAllStep, hvisit]⟩
  | close e pc rest =>
    refine ⟨.go, go_ne_fail, ?_⟩
    simp only [closeAllStep]
    split <;> rfl
  | done => simp [Task.isDone] at hdone
  | start | clear | beginClose => exact ⟨.go, go_ne_fail, rfl⟩

/-- A task that is not over and waits for nothing can do a step. -/
theorem Task.goes (settings : DatabaseSettings) (σ : Shared) (t : Task)
    (hneeds : t.needs σ = none) (hdone : t.isDone = false) :
    ∃ choice, choice ≠ .fail ∧ (t.step settings σ choice).isSome = true := by
  cases t with
  | acquire call pc =>
    obtain ⟨choice, hchoice, hstep⟩ := acquireStep_goes settings σ call pc hneeds hdone
    exact ⟨choice, hchoice, by rwa [Task.step, Option.isSome_map]⟩
  | cleanupIdle pc =>
    obtain ⟨choice, hchoice, hstep⟩ := cleanupStep_goes settings σ pc hdone
    exact ⟨choice, hchoice, by rwa [Task.step, Option.isSome_map]⟩
  | checkpointWal pc =>
    obtain ⟨choice, hchoice, hstep⟩ := checkpointStep_goes σ pc hdone
    exact ⟨choice, hchoice, by rwa [Task.step, Option.isSome_map]⟩
  | closeEntry e pc =>
    cases pc with
    | none => simp [Task.isDone] at hdone
    | some pc => exact ⟨.go, go_ne_fail, rfl⟩
  | closeAll pc =>
    obtain ⟨choice, hchoice, hstep⟩ := closeAllStep_goes σ pc hdone
    exact ⟨choice, hchoice, by rwa [Task.step, Option.isSome_map]⟩

/-! ## The references of a step -/

/-- The references to an entry that a task owns. -/
abbrev Task.refs (e : EntryId) (t : Task) : Nat := t.arcs.count e

theorem refs_singleton (j e : EntryId) : [j].count e ≤ 1 :=
  List.count_le_length

theorem CleanupPc.refs_next (closed : Nat) (rest : List String) (e : EntryId) :
    (Task.cleanupIdle (.next closed rest)).refs e = 0 := by
  cases rest <;> rfl

theorem CheckpointPc.refs_next (n : Nat) (rest : List EntryId) (e : EntryId) :
    (Task.checkpointWal (.next n rest)).refs e = rest.count e := by
  cases rest <;> rfl

theorem CloseAllPc.refs_next (rest : List EntryId) (e : EntryId) :
    (Task.closeAll (.next rest)).refs e = rest.count e := by
  cases rest <;> rfl

/-- A step of `take` clones at most the reference that it has looked up. -/
theorem EvictBranch.refs {σ σ' : Shared} {pc : EvictPc} {choice : Choice} {result : EvictStep}
    (h : EvictBranch σ pc choice (σ', result)) (call : Call) (attempts : Nat) (e : EntryId) :
    match result with
    | .next pc' => (Task.acquire call (.evict attempts pc')).refs e ≤
        (Task.acquire call (.evict attempts pc)).refs e + 1
    | .returned none => True
    | .returned (some j) => (Task.closeEntry j (some .start)).refs e ≤
        (Task.acquire call (.evict attempts pc)).refs e + 1 := by
  cases h with
  | takeNext htake =>
    cases htake with
    | found | closed => exact Nat.le_trans (refs_singleton _ _) (Nat.le_add_left 1 _)
  | takeSome => exact Nat.le_trans (refs_singleton _ _) (Nat.le_add_left 1 _)
  | takeNone | noCandidate => trivial
  | visitLeased | visitIdle | oldest | older | newer => exact Nat.zero_le _

/-- A step of a task clones at most one reference to an entry. -/
theorem TaskBranch.refs {σ σ' : Shared} {t t' : Task} {choice : Choice} {spawned : List Task}
    (h : TaskBranch settings σ t choice (σ', t', spawned)) (e : EntryId) :
    t'.refs e + tally (Task.refs e) spawned ≤ t.refs e + 1 := by
  have hone (j : EntryId) (n : Nat) : [j].count e ≤ n + 1 :=
    Nat.le_trans (refs_singleton j e) (Nat.le_add_left 1 n)
  cases h with
  | @acquire call pc _ _ call' _ _ h =>
    cases h with
    | @evictNext attempts _ _ _ _ hevict => exact hevict.refs call attempts e
    | @evictSome attempts _ _ _ _ hevict =>
      have := hevict.refs call attempts e
      simpa [Task.refs, Task.arcs, tally] using this
    | evictNone => exact Nat.zero_le _
    | dropDone => exact Nat.zero_le _
    | _ => first | exact Nat.zero_le _ | exact hone _ _
  | cleanupIdle h =>
    cases h with
    | finish => exact Nat.le_trans (Nat.le_of_eq (CleanupPc.refs_next _ _ _)) (Nat.zero_le _)
    | takeNext htake =>
      cases htake with
      | found | closed => exact hone _ _
    | takeNone htake | closeDone =>
      exact Nat.le_trans (Nat.le_of_eq (CleanupPc.refs_next _ _ _)) (Nat.zero_le _)
    | takeSome | closeNext => exact hone _ _
    | start | visitIdle | visitLeased | stale | recent | record => exact Nat.zero_le _
  | checkpointWal h =>
    simp only [tally_nil, Nat.add_zero]
    cases h with
    | visit | poolsUnset | poolsSet | pragma | pragmaFailed | dropNext | abortNext | leaseNext |
      leaseTaken =>
      simp only [Task.refs, Task.arcs, List.count_append, List.count_cons, List.count_nil]
      split <;> omega
    | finish | leaseRefused | dropDone =>
      rw [CheckpointPc.refs_next]
      simp only [Task.refs, Task.arcs, List.count_cons]
      omega
    | start | record | abortDone => exact Nat.zero_le _
  | closeEntry h =>
    cases h <;> first | exact Nat.zero_le _ | exact hone _ _
  | closeAll h =>
    simp only [tally_nil, Nat.add_zero]
    cases h with
    | clear | closeDone =>
      rw [CloseAllPc.refs_next]
      simp only [Task.refs, Task.arcs, List.count_cons]
      omega
    | visit | beginClose | beginCloseFailed | closeNext =>
      simp only [Task.refs, Task.arcs, List.count_append, List.count_cons, List.count_nil]
      split <;> omega
    | finish => exact Nat.le_succ _
    | start => exact Nat.zero_le _

/-- Where every entry has room for one more reference, the step of a task is a step of
the system. -/
theorem State.step_of_room (hroom : ∀ e, s.arcCount e + 1 < CLOSED) {i : Nat} {t : Task}
    {choice : Choice} (hi : s.tasks[i]? = some t)
    (hstep : (t.step settings s.shared choice).isSome = true) :
    ∃ s', s.step settings (.step i choice) = some s' := by
  obtain ⟨⟨σ', t', spawned⟩, hstep⟩ := Option.isSome_iff_exists.mp hstep
  have hrefs := (Task.step_branch hstep).refs
  refine ⟨⟨σ', update s.tasks i t' spawned⟩, ?_⟩
  simp only [State.step, hi, hstep]
  rw [State.advance, if_pos]
  refine List.all_eq_true.mpr fun u _ => List.all_eq_true.mpr fun e _ => decide_eq_true ?_
  have hbal := tally_update (Task.refs e) t' spawned hi
  have hle := hrefs e
  have hlt : tally (Task.refs e) s.tasks + 1 < CLOSED := hroom e
  change tally (Task.refs e) (update s.tasks i t' spawned) < CLOSED
  omega

/-! ## The law -/

/-- In every run, with failed opens, dropped futures and `close_all`:

* no tasks wait for each other in a circle;
* from every task that is not over a chain of waits leads to a task that can do a step,
  one that is neither a timeout nor an error.

The settings give both semaphores a permit, and no entry is at the last reference that
`Arc` can count. -/
theorem no_deadlock (h : (manager settings).Reachable s)
    (hprocess : 0 < settings.maxConcurrentRequests)
    (htenant : 0 < settings.maxConcurrentRequestsPerDatabase)
    (hroom : ∀ e, s.arcCount e + 1 < CLOSED) :
    (∀ i, ¬ Relation.TransGen s.WaitsFor i i) ∧
    ∀ i t, s.tasks[i]? = some t → t.isDone = false →
      ∃ j choice s', Relation.ReflTransGen s.WaitsFor i j ∧ choice ≠ .fail ∧
        s.step settings (.step j choice) = some s' := by
  let rank (i : Nat) : Nat := (s.tasks[i]?).elim 0 (Task.waitRank s.shared)
  have hrank (i j : Nat) (hwaits : s.WaitsFor i j) : rank j < rank i := by
    obtain ⟨t, u, _, hi, hj, _⟩ := id hwaits
    simpa [rank, hi, hj] using hwaits.rank_lt hi hj
  refine ⟨WaitFor.no_circle hrank, fun i t hi hdone => ?_⟩
  let alive (i : Nat) : Prop := ∃ t, s.tasks[i]? = some t ∧ t.isDone = false
  let free (j : Nat) : Prop :=
    ∃ choice s', choice ≠ .fail ∧ s.step settings (.step j choice) = some s'
  obtain ⟨j, hchain, _, choice, s', hchoice, hstep⟩ : ∃ j,
      Relation.ReflTransGen s.WaitsFor i j ∧ alive j ∧ free j := by
    refine WaitFor.exists_free hrank (fun k hk hbound => ?_) ⟨t, hi, hdone⟩
    obtain ⟨u, hu, hudone⟩ := hk
    cases hneeds : u.needs s.shared with
    | none =>
      obtain ⟨choice, hchoice, hgoes⟩ := Task.goes settings s.shared u hneeds hudone
      obtain ⟨s', hstep⟩ := State.step_of_room hroom hu hgoes
      exact absurd ⟨choice, s', hchoice, hstep⟩ hbound
    | some r =>
      obtain ⟨v, hv, hholds⟩ :=
        exists_holder h hprocess htenant (List.mem_of_getElem? hu) hneeds
      obtain ⟨l, hl⟩ := List.mem_iff_getElem?.mp hv
      exact ⟨l, ⟨u, v, r, hu, hl, hneeds, hholds⟩, v, hl, Task.isDone_of_holds hholds⟩
  exact ⟨j, choice, s', hchain, hchoice, hstep⟩

/-- A second caller waits for the first one, which opens the entry of both. -/
def waiting : List Action :=
  admitted 0 "a" 0 ++ .start (.acquire "a") :: goes 1 5

/-- The second caller is not stuck. -/
theorem no_deadlock_waiting :
    ∃ j choice s', choice ≠ .fail ∧
      ((manager .default).play (fun _ _ => true) waiting).step .default (.step j choice) =
        some s' := by
  have hreach : (manager .default).Reachable ((manager .default).play (fun _ _ => true) waiting) :=
    StepSystem.reachable_play (fun _ _ _ => trivial) waiting
  have hroom (e : EntryId) :
      ((manager .default).play (fun _ _ => true) waiting).arcCount e + 1 < CLOSED := by
    have htasks : ((manager .default).play (fun _ _ => true) waiting).tasks =
        [.acquire ⟨"a", 0⟩ (.openPools 0), .acquire ⟨"a", 0⟩ (.ensureOpen 0)] := by decide
    have hone := refs_singleton 0 e
    have hlt : 1 + 1 + 1 < CLOSED := by decide
    simp only [State.arcCount, htasks, tally, List.map_cons, List.map_nil, List.sum_cons,
      List.sum_nil, Task.arcs]
    omega
  obtain ⟨j, choice, s', _, hchoice, hstep⟩ :=
    (no_deadlock hreach (by decide) (by decide) hroom).2 1 (.acquire ⟨"a", 0⟩ (.ensureOpen 0))
      (by decide) rfl
  exact ⟨j, choice, s', hchoice, hstep⟩

end Tinkiva.Manager
