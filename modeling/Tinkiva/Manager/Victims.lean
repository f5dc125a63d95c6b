import Tinkiva.Manager.Capacity
import Tinkiva.Manager.Unlinking

/-!
# The victim at the instant it is closed

`evict_oldest_idle` and `cleanup_idle` select an entry by its lease count and its
`last_used_ms`, and close it later.  `begin_close` reads the lease count again, but
not the time.  So an entry that is used and released in between is closed although
it was used just now, and an eviction may close an entry while an older one, which
was busy when the scan passed it, is idle.

`patientStep` is the condition under which that does not happen, and
`right_victim` is the law of the runs whose steps all meet it.  Each of the two
calls has its invariant: `EvictPc.Best` and `CleanupPc.Stale`.
-/

namespace Tinkiva.Manager

open Tinkiva.Config Tinkiva.Protocol ConcurrentMap TaskPool SentinelCounter

variable {settings : DatabaseSettings} {s s' : State} {a : Action}

/-! ## The condition -/

/-- The names that a task has selected to close. -/
def Task.selected : Task → List String
  | .acquire _ (.evict _ (.scan _ (some (name, _))))
  | .acquire _ (.evict _ (.lastUsed _ (some (name, _)) _ _))
  | .acquire _ (.evict _ (.take (.get name))) => [name]
  | .cleanupIdle (.scan _ _ stale) | .cleanupIdle (.lastUsed _ _ stale _ _) => stale
  | .cleanupIdle (.take (.get name) rest _) => name :: rest
  | .cleanupIdle (.take (.beginClose _ _) rest _) | .cleanupIdle (.take (.remove _ _) rest _)
  | .cleanupIdle (.close _ _ rest _) => rest
  | _ => []

/-- A task has selected an entry: it has selected the name that is bound to it, or
it has looked it up in `take`. -/
def Task.Selects (σ : Shared) (t : Task) (e : EntryId) : Prop :=
  (∃ name ∈ t.selected, σ.entries.lookup name = some e) ∨ t.taking.map Prod.snd = some e

instance (σ : Shared) (t : Task) (e : EntryId) : Decidable (t.Selects σ e) :=
  inferInstanceAs (Decidable (_ ∨ _))

/-- The entry whose time `cleanup_idle` reads next. -/
def Task.reading : Task → Option (String × EntryId)
  | .cleanupIdle (.lastUsed _ _ _ name e) => some (name, e)
  | _ => none

/-- The cutoff of a scan of `cleanup_idle`. -/
def CleanupPc.cutoff : CleanupPc → Option Nat
  | .scan cutoff _ _ | .lastUsed cutoff _ _ _ _ => some cutoff
  | _ => none

/-- If an eviction has passed an entry under its name, what it closes was not used
later than this entry. -/
def EvictPc.Outlived (σ : Shared) (name : String) (e : EntryId) : EvictPc → Prop
  | .scan sc candidate =>
    name ∈ sc.seen → ∃ c ∈ candidate, c.2 ≤ (σ.heap e).lastUsedMs
  | .lastUsed sc candidate n _ =>
    name ∈ sc.seen → name ≠ n → ∃ c ∈ candidate, c.2 ≤ (σ.heap e).lastUsedMs
  | .take (.get n) =>
    ∀ j ∈ σ.entries.lookup n, (σ.heap j).lastUsedMs ≤ (σ.heap e).lastUsedMs
  | .take (.beginClose _ j) => (σ.heap j).lastUsedMs ≤ (σ.heap e).lastUsedMs
  | .take (.remove _ _) => True

instance (σ : Shared) (name : String) (e : EntryId) : DecidablePred (EvictPc.Outlived σ name e)
  | .scan _ _ | .lastUsed _ _ _ _ => inferInstanceAs (Decidable (_ → _))
  | .take (.get n) => inferInstanceAs (Decidable (∀ j ∈ σ.entries.lookup n, _))
  | .take (.beginClose _ _) => inferInstanceAs (Decidable (_ ≤ _))
  | .take (.remove _ _) => isTrue trivial

/-- The place of a task in `evict_oldest_idle`. -/
def Task.evicting : Task → Option EvictPc
  | .acquire _ (.evict _ pc) => some pc
  | _ => none

/-- What a task allows where an entry falls idle: it has not selected the entry, and
if it is an eviction and the entry is linked, it closes nothing that was used
later. -/
def Task.Allows (σ : Shared) (e : EntryId) (t : Task) : Prop :=
  ¬ t.Selects σ e ∧ (σ.entries.lookup (σ.heap e).name = some e →
    ∀ pc ∈ t.evicting, pc.Outlived σ (σ.heap e).name e)

instance (σ : Shared) (e : EntryId) : DecidablePred (Task.Allows σ e) := fun t =>
  inferInstanceAs (Decidable (_ ∧ (_ → ∀ pc ∈ t.evicting, pc.Outlived σ _ e)))

/-- An event that is the insertion of an entry happens while no task has selected
its name. -/
def Event.insertsUnselected (s : State) : Option Event → Prop
  | some (.insert name _) =>
    ∀ t ∈ s.tasks, name ∉ t.selected ∧ t.reading.map Prod.fst ≠ some name
  | some (.openPools _) | some (.closeEntry _) | some (.unlinkFailed _ _) | none => True

instance (s : State) : DecidablePred (Event.insertsUnselected s)
  | some (.insert name _) => inferInstanceAs
    (Decidable (∀ t ∈ s.tasks, name ∉ t.selected ∧ t.reading.map Prod.fst ≠ some name))
  | some (.openPools _) | some (.closeEntry _) | some (.unlinkFailed _ _) | none =>
    isTrue trivial

/-- A step that does not turn the clock back.  Every task allows the entry that it
makes idle, and none has selected the name of an entry that it inserts. -/
def patientStep (s : State) (a : Action) : Prop :=
  a.forward s ∧ (∀ e ∈ s.idling a, ∀ t ∈ s.tasks, t.Allows s.shared e) ∧
    Event.insertsUnselected s (s.event a)

instance (s : State) (a : Action) : Decidable (patientStep s a) :=
  inferInstanceAs (Decidable (_ ∧ _ ∧ _))

/-! ## What the steps of the others leave alone -/

/-- The clock does not go back. -/
theorem State.step_now (h : s.step settings a = some s') (hforward : a.forward s) :
    s.shared.now ≤ s'.shared.now := by
  rcases State.step_cases h with ⟨operation, _, rfl⟩ |
    ⟨i, choice, t, σ', t', spawned, _, hi, hstep, hadv⟩ | ⟨i, t, σ', t', _, hi, hcancel, hadv⟩ |
    ⟨nowMs, rfl, rfl⟩
  · exact Nat.le_refl _
  · obtain ⟨rfl, _⟩ := State.advance_eq_some hadv
    exact Nat.le_of_eq (Task.step_branch hstep).now.symm
  · obtain ⟨rfl, _⟩ := State.advance_eq_some hadv
    cases Task.cancel_branch hcancel with
    | acquire hbranch => cases hbranch <;> exact Nat.le_refl _
    | cleanupIdle | checkpointWal => exact Nat.le_refl _
  · exact hforward

/-- An entry that a task has selected exists. -/
theorem Task.Selects.lt (hreach : (manager settings).Reachable s) {t : Task} (ht : t ∈ s.tasks)
    {e : EntryId} (h : t.Selects s.shared e) : e < s.shared.created := by
  obtain ⟨starts, hmon⟩ := exists_monitor hreach
  have hsound := (reachable_inv hmon).2.sound
  rcases h with ⟨name, _, hl⟩ | htaking
  · exact (hsound.linked hl).1
  · obtain ⟨⟨name, j⟩, hpair, rfl⟩ := Option.map_eq_some_iff.mp htaking
    have hmem := (mem_config s starts).mpr ⟨t, ht, Task.mem_of_taking hpair⟩
    exact (hsound.tokens _ hmem).1

/-- A binding that a task has selected is old. -/
theorem Event.insertsUnselected.lookup_back (h : Event.insertsUnselected s (s.event a))
    (hstep : s.step settings a = some s') {t : Task} (ht : t ∈ s.tasks) {name : String}
    {e : EntryId} (hname : name ∈ t.selected ∨ t.reading.map Prod.fst = some name)
    (hl : s'.shared.entries.lookup name = some e) : s.shared.entries.lookup name = some e := by
  rcases State.step_lookup hstep hl with hl | ⟨_, hev⟩
  · exact hl
  · rw [hev] at h
    obtain ⟨hselected, hreading⟩ := h t ht
    exact absurd hname (not_or.mpr ⟨hselected, hreading⟩)

/-- While a task stays where it is, what it has selected it had selected before. -/
theorem Task.Selects.back (h : Event.insertsUnselected s (s.event a))
    (hstep : s.step settings a = some s') {t : Task} (ht : t ∈ s.tasks) {e : EntryId}
    (hselects : t.Selects s'.shared e) : t.Selects s.shared e := by
  rcases hselects with ⟨name, hname, hl⟩ | htaking
  · exact Or.inl ⟨name, hname, h.lookup_back hstep ht (Or.inl hname) hl⟩
  · exact Or.inr htaking

/-- An entry that a task has selected and that is idle after a step of another was
idle before it, with the same time. -/
theorem patientStep.idle_back (hreach : (manager settings).Reachable s) (hok : patientStep s a)
    (hstep : s.step settings a = some s') {t : Task} (ht : t ∈ s.tasks) {e : EntryId}
    (hselects : t.Selects s.shared e) (hidle : (s'.shared.heap e).activeLeases = 0) :
    (s.shared.heap e).activeLeases = 0 ∧
      (s'.shared.heap e).lastUsedMs = (s.shared.heap e).lastUsedMs := by
  rcases State.step_idle hreach hstep hidle with ⟨hw | hidling, hlast⟩ | ⟨hnew, _⟩
  · exact ⟨hw, hlast⟩
  · exact absurd hselects (hok.2.1 e hidling t ht).1
  · subst hnew
    exact absurd (hselects.lt hreach ht) (Nat.lt_irrefl _)

/-! ## `cleanup_idle` -/

/-- What a call of `cleanup_idle` has selected is stale while it is idle. -/
structure CleanupPc.Stale (σ : Shared) (idleTimeoutMs : Nat) (pc : CleanupPc) : Prop where
  cutoff : ∀ cutoff ∈ pc.cutoff, cutoff ≤ σ.now - idleTimeoutMs
  reading : ∀ name e, (Task.cleanupIdle pc).reading = some (name, e) →
    ∀ j, σ.entries.lookup name = some j → j = e
  selected : ∀ e, (Task.cleanupIdle pc).Selects σ e → (σ.heap e).activeLeases = 0 →
    (σ.heap e).lastUsedMs ≤ σ.now - idleTimeoutMs

/-- The steps of the others keep it. -/
theorem CleanupPc.Stale.step_other {pc : CleanupPc}
    (hstale : pc.Stale s.shared settings.idleTimeoutMs) (hreach : (manager settings).Reachable s)
    (hok : patientStep s a) (hstep : s.step settings a = some s')
    (ht : Task.cleanupIdle pc ∈ s.tasks) : pc.Stale s'.shared settings.idleTimeoutMs := by
  have hnow := State.step_now hstep hok.1
  constructor
  · intro cutoff hcutoff
    have := hstale.cutoff cutoff hcutoff
    omega
  · intro name e hreading j hl
    refine hstale.reading name e hreading j (hok.2.2.lookup_back hstep ht (Or.inr ?_) hl)
    rw [hreading]
    rfl
  · intro e hselects hidle
    have hold := hselects.back hok.2.2 hstep ht
    obtain ⟨hw, hlast⟩ := hok.idle_back hreach hstep ht hold hidle
    have := hstale.selected e hold hw
    omega

theorem CleanupPc.cutoff_next (closed : Nat) (rest : List String) :
    (CleanupPc.next closed rest).cutoff = none := by
  cases rest <;> rfl

theorem CleanupPc.reading_next (closed : Nat) (rest : List String) :
    (Task.cleanupIdle (.next closed rest)).reading = none := by
  cases rest <;> rfl

theorem CleanupPc.selects_next {σ : Shared} {closed : Nat} {rest : List String} {e : EntryId} :
    (Task.cleanupIdle (.next closed rest)).Selects σ e ↔
      ∃ name ∈ rest, σ.entries.lookup name = some e := by
  cases rest with
  | nil => simp [CleanupPc.next, Task.Selects, Task.selected, Task.taking, Task.takePc]
  | cons name rest => simp [CleanupPc.next, Task.Selects, Task.selected, Task.taking, Task.takePc]

/-- A call that goes on selects nothing but what it had selected, or the entry whose
time it has read. -/
theorem CleanupBranch.selects {σ σ' : Shared} {pc pc' : CleanupPc} {choice : Choice}
    (h : CleanupBranch settings σ pc choice (σ', pc')) {e : EntryId}
    (hselects : (Task.cleanupIdle pc').Selects σ' e) :
    (Task.cleanupIdle pc).Selects σ e ∨
      ∃ cutoff sc stale name j, pc = .lastUsed cutoff sc stale name j ∧
        (σ.heap j).lastUsedMs ≤ cutoff ∧ σ.entries.lookup name = some e := by
  cases h with
  | start => simp [Task.Selects, Task.selected, Task.taking, Task.takePc] at hselects
  | visitIdle | visitLeased | recent => exact Or.inl hselects
  | finish => exact Or.inl (Or.inl (CleanupPc.selects_next.mp hselects))
  | @stale cutoff sc stale name j hold =>
    simp only [Task.Selects, Task.selected, Task.taking, Task.takePc, List.mem_append,
      List.mem_singleton, Option.map_none, reduceCtorEq, or_false] at hselects
    obtain ⟨n, hn | rfl, hl⟩ := hselects
    · exact Or.inl (Or.inl ⟨n, hn, hl⟩)
    · exact Or.inr ⟨cutoff, sc, stale, n, j, rfl, hold, hl⟩
  | takeNext htake =>
    left
    cases htake with
    | @found name j hl =>
      rcases hselects with ⟨n, hn, hn'⟩ | htaking
      · exact Or.inl ⟨n, List.mem_cons_of_mem _ hn, hn'⟩
      · obtain rfl : j = e := by simpa [Task.taking, Task.takePc] using htaking
        exact Or.inl ⟨name, List.mem_cons_self, hl⟩
    | closed =>
      rcases hselects with ⟨n, hn, hn'⟩ | htaking
      · exact Or.inl ⟨n, hn, hn'⟩
      · simp [Task.taking, Task.takePc] at htaking
  | takeNone htake =>
    obtain ⟨n, hn, hl⟩ := CleanupPc.selects_next.mp hselects
    left
    cases htake with
    | vacant => exact Or.inl ⟨n, List.mem_cons_of_mem _ hn, hl⟩
    | leased => exact Or.inl ⟨n, hn, hl⟩
  | takeSome htake =>
    cases htake with
    | remove =>
      rcases hselects with ⟨n, hn, hl⟩ | htaking
      · exact Or.inl (Or.inl ⟨n, hn, (lookup_of_lookup_erase hl).2⟩)
      · simp [Task.taking, Task.takePc] at htaking
  | closeNext hclose =>
    rcases hselects with ⟨n, hn, hl⟩ | htaking
    · exact Or.inl (Or.inl ⟨n, hn, hclose.map ▸ hl⟩)
    · simp [Task.taking, Task.takePc] at htaking
  | closeDone hclose =>
    obtain ⟨n, hn, hl⟩ := CleanupPc.selects_next.mp hselects
    exact Or.inl (Or.inl ⟨n, hn, hclose.map ▸ hl⟩)
  | record => simp [Task.Selects, Task.selected, Task.taking, Task.takePc] at hselects

/-- A step of the call keeps it. -/
theorem CleanupPc.Stale.step_own {σ σ' : Shared} {pc pc' : CleanupPc} {choice : Choice}
    (hstale : pc.Stale σ settings.idleTimeoutMs)
    (h : CleanupBranch settings σ pc choice (σ', pc')) :
    pc'.Stale σ' settings.idleTimeoutMs := by
  have hnow : σ'.now = σ.now := (TaskBranch.cleanupIdle h).now
  constructor
  · intro cutoff hcutoff
    rw [hnow]
    cases h with
    | start =>
      obtain rfl := Option.some.inj hcutoff
      exact Nat.le_refl _
    | visitIdle | visitLeased | stale | recent => exact hstale.cutoff cutoff hcutoff
    | finish | takeNone | closeDone => simp [CleanupPc.cutoff_next] at hcutoff
    | takeNext | takeSome | closeNext | record => simp [CleanupPc.cutoff] at hcutoff
  · intro name e hreading j hl
    cases h with
    | visitIdle hvisit =>
      obtain ⟨rfl, rfl⟩ := Prod.mk.inj (Option.some.inj hreading)
      exact Option.some.inj (hl.symm.trans (Scan.visit_eq_some hvisit).1)
    | finish | takeNone | closeDone => simp [CleanupPc.reading_next] at hreading
    | _ => simp [Task.reading] at hreading
  · intro e hselects hidle
    have hentry : (σ.heap e).activeLeases = 0 ∧
        (σ'.heap e).lastUsedMs = (σ.heap e).lastUsedMs := by
      cases (TaskBranch.cleanupIdle h).entry e with
      | kept hword hlast => exact ⟨hword ▸ hidle, hlast⟩
      | closed _ _ hword =>
        rw [hword] at hidle
        exact absurd hidle (by decide)
      | leased hby => simp [Task.leasing] at hby
      | released hby => simp [Task.releasing] at hby
      | stored hlease => simp [Task.lease] at hlease
      | created _ hby =>
        obtain ⟨call, nowMs, ht, _⟩ := Task.insert_of_event hby
        simp at ht
    rw [hentry.2, hnow]
    rcases h.selects hselects with hold | ⟨cutoff, sc, stale, name, j, rfl, hlast, hl⟩
    · exact hstale.selected e hold hentry.1
    · have hcutoff := hstale.cutoff cutoff rfl
      obtain rfl := hstale.reading name j rfl e hl
      omega

/-! ## `evict_oldest_idle` -/

/-- The oldest idle entry that a scan has passed is its candidate, and what is linked
was linked when it began. -/
structure Scanned (σ : Shared) (sc : Scan String EntryId) (passed : String → Prop)
    (candidate : Option (String × Nat)) : Prop where
  initial : ∀ name e, σ.entries.lookup name = some e → (name, e) ∈ sc.initial
  chosen : ∀ c ∈ candidate, passed c.1
  least : ∀ name e, σ.entries.lookup name = some e → passed name →
    (σ.heap e).activeLeases = 0 → ∃ c ∈ candidate, c.2 ≤ (σ.heap e).lastUsedMs ∧
      (c.1 = name → c.2 = (σ.heap e).lastUsedMs)

/-- If the entry is idle, then no linked idle entry was used before it. -/
def Oldest (σ : Shared) (e : EntryId) : Prop :=
  (σ.heap e).activeLeases = 0 → ∀ name j, σ.entries.lookup name = some j →
    (σ.heap j).activeLeases = 0 → (σ.heap e).lastUsedMs ≤ (σ.heap j).lastUsedMs

/-- What an eviction has selected is the oldest idle entry, of those that it has
passed or of all of them. -/
def EvictPc.Best (σ : Shared) : EvictPc → Prop
  | .scan sc candidate => Scanned σ sc (· ∈ sc.seen) candidate
  | .lastUsed sc candidate name e =>
    Scanned σ sc (fun n => n ∈ sc.seen ∧ n ≠ name) candidate ∧ name ∈ sc.seen ∧
      ∀ j, σ.entries.lookup name = some j → j = e
  | .take (.get name) => ∀ e, σ.entries.lookup name = some e → Oldest σ e
  | .take (.beginClose _ e) => Oldest σ e
  | .take (.remove _ _) => True

section Own

variable {σ σ' : Shared} {sc sc' : Scan String EntryId} {passed passed' : String → Prop}
  {candidate : Option (String × Nat)} {name : String} {e : EntryId}

theorem Scanned.start (hpassed : ∀ n, ¬ passed n) :
    Scanned σ (.start σ.entries) passed none where
  initial := fun _ _ hl => mem_bindings.mpr hl
  chosen := fun _ hc => absurd hc (by simp)
  least := fun n _ _ hn => absurd hn (hpassed n)

/-- The scan passes an entry that is not idle. -/
theorem Scanned.pass (h : Scanned σ sc passed candidate) (hinitial : sc'.initial = sc.initial)
    (hl : σ.entries.lookup name = some e) (hbusy : (σ.heap e).activeLeases ≠ 0)
    (hsub : ∀ n, passed n → passed' n) (hnew : ∀ n, passed' n → passed n ∨ n = name) :
    Scanned σ sc' passed' candidate := by
  refine ⟨fun n j hn => hinitial ▸ h.initial n j hn, fun c hc => hsub _ (h.chosen c hc), ?_⟩
  intro n j hn hpassed hidle
  rcases hnew n hpassed with hold | rfl
  · exact h.least n j hn hold hidle
  · obtain rfl := Option.some.inj (hl.symm.trans hn)
    exact absurd hidle hbusy

/-- The scan keeps its candidate over an entry that it has read. -/
theorem Scanned.keep {c : String × Nat} (h : Scanned σ sc passed (some c))
    (hl : ∀ j, σ.entries.lookup name = some j → j = e)
    (hnewer : c.2 ≤ (σ.heap e).lastUsedMs) (hname : ¬ passed name)
    (hsub : ∀ n, passed n → passed' n) (hnew : ∀ n, passed' n → passed n ∨ n = name) :
    Scanned σ sc passed' (some c) := by
  refine ⟨h.initial, fun d hd => hsub _ (h.chosen d hd), ?_⟩
  intro n j hn hpassed hidle
  rcases hnew n hpassed with hold | rfl
  · exact h.least n j hn hold hidle
  · obtain rfl := hl j hn
    refine ⟨c, rfl, hnewer, ?_⟩
    rintro rfl
    exact absurd (h.chosen c rfl) hname

/-- The scan takes an entry that it has read as its candidate. -/
theorem Scanned.choose (h : Scanned σ sc passed candidate)
    (hl : ∀ j, σ.entries.lookup name = some j → j = e)
    (holder : ∀ c ∈ candidate, (σ.heap e).lastUsedMs < c.2) (hname : ¬ passed name)
    (hself : passed' name) (hnew : ∀ n, passed' n → passed n ∨ n = name) :
    Scanned σ sc passed' (some (name, (σ.heap e).lastUsedMs)) := by
  refine ⟨h.initial, ?_, ?_⟩
  · intro c hc
    obtain rfl := Option.some.inj hc
    exact hself
  · intro n j hn hpassed hidle
    refine ⟨_, rfl, ?_⟩
    rcases hnew n hpassed with hold | rfl
    · obtain ⟨c, hc, hle, _⟩ := h.least n j hn hold hidle
      have hlt := holder c hc
      refine ⟨by omega, ?_⟩
      rintro rfl
      exact absurd hold hname
    · obtain rfl := hl j hn
      exact ⟨Nat.le_refl _, fun _ => rfl⟩

/-- The candidate of a scan that is over is the oldest idle entry. -/
theorem Scanned.oldest {lastUsed : Nat} (h : Scanned σ sc (· ∈ sc.seen) (some (name, lastUsed)))
    (hfin : sc.finished σ.entries = true) (hl : σ.entries.lookup name = some e) :
    Oldest σ e := by
  intro hidle n j hn hj
  have hseen {m : String} {k : EntryId} (hm : σ.entries.lookup m = some k) : m ∈ sc.seen :=
    Scan.seen_of_finished hfin (h.initial m k hm) hm
  obtain ⟨c, hc, _, heq⟩ := h.least name e hl (hseen hl) hidle
  obtain rfl := Option.some.inj hc
  obtain ⟨d, hd, hle, _⟩ := h.least n j hn (hseen hn) hj
  obtain rfl := Option.some.inj hd
  rw [← heq rfl]
  exact hle

/-- A step of the eviction keeps it. -/
theorem EvictPc.Best.step_own {pc pc' : EvictPc} {choice : Choice} (hbest : pc.Best σ)
    (h : EvictBranch σ pc choice (σ', .next pc')) : pc'.Best σ' := by
  cases h with
  | visitLeased hvisit hw =>
    obtain ⟨hl, _, rfl⟩ := Scan.visit_eq_some hvisit
    exact Scanned.pass hbest rfl hl hw (fun n hn => List.mem_cons_of_mem _ hn)
      fun n hn => (List.mem_cons.mp hn).symm
  | @visitIdle sc _ candidate name e hvisit =>
    have hscan : Scanned σ sc (· ∈ sc.seen) candidate := hbest
    obtain ⟨hl, hunseen, rfl⟩ := Scan.visit_eq_some hvisit
    refine ⟨⟨hscan.initial, ?_, ?_⟩, List.mem_cons_self,
      fun j hj => Option.some.inj (hj.symm.trans hl)⟩
    · intro c hc
      have hseen := hscan.chosen c hc
      exact ⟨List.mem_cons_of_mem _ hseen, fun heq => hunseen (heq ▸ hseen)⟩
    · intro n j hn hpassed
      exact hscan.least n j hn ((List.mem_cons.mp hpassed.1).resolve_left hpassed.2)
  | oldest hfin =>
    intro e hl
    exact Scanned.oldest hbest hfin hl
  | older holder =>
    obtain ⟨hscan, hseen, hl⟩ := hbest
    exact hscan.choose hl holder (fun h => h.2 rfl) hseen
      fun n hn => (Classical.em (n = _)).elim Or.inr fun hne => Or.inl ⟨hn, hne⟩
  | newer hnewer =>
    obtain ⟨hscan, hseen, hl⟩ := hbest
    exact hscan.keep hl hnewer (fun h => h.2 rfl) (fun n hn => hn.1)
      fun n hn => (Classical.em (n = _)).elim Or.inr fun hne => Or.inl ⟨hn, hne⟩
  | takeNext htake =>
    cases htake with
    | found hl => exact hbest _ hl
    | closed => trivial

end Own

/-- An entry is linked under its own name. -/
theorem linked_name (hreach : (manager settings).Reachable s) {name : String} {e : EntryId}
    (hl : s.shared.entries.lookup name = some e) : (s.shared.heap e).name = name := by
  obtain ⟨starts, hmon⟩ := exists_monitor hreach
  exact ((reachable_inv hmon).2.sound.linked hl).2

/-- A step that inserts nothing makes an entry idle by the drop of the last lease on it,
and leaves the time of an idle entry alone. -/
theorem State.step_idle_back (hreach : (manager settings).Reachable s)
    (hstep : s.step settings a = some s')
    (hnone : ∀ name e, s.event a ≠ some (.insert name e)) {e : EntryId}
    (hidle : (s'.shared.heap e).activeLeases = 0) :
    ((s.shared.heap e).activeLeases = 0 ∨ s.idling a = some e) ∧
      (s'.shared.heap e).lastUsedMs = (s.shared.heap e).lastUsedMs := by
  rcases State.step_idle hreach hstep hidle with hold | ⟨_, name, hev⟩
  · exact hold
  · exact absurd hev (hnone name e)

/-- The candidate of a scan stays the oldest of what the scan has passed, if no entry
falls idle that was used before it. -/
theorem Scanned.step_other {sc : Scan String EntryId} {passed : String → Prop}
    {candidate : Option (String × Nat)} {t : Task} (h : Scanned s.shared sc passed candidate)
    (hreach : (manager settings).Reachable s) (hok : patientStep s a)
    (hstep : s.step settings a = some s') (ht : t ∈ s.tasks)
    (hnone : ∀ name e, s.event a ≠ some (.insert name e))
    (hpassed : ∀ name e, s.shared.entries.lookup name = some e → passed name →
      s.idling a = some e → ∃ c ∈ candidate, c.2 ≤ (s.shared.heap e).lastUsedMs)
    (hselected : ∀ c ∈ candidate, c.1 ∈ t.selected) : Scanned s'.shared sc passed candidate := by
  refine ⟨fun name e hl => h.initial name e (State.step_unbound hstep hnone hl), h.chosen, ?_⟩
  intro name e hl hname hw
  have hl₀ := State.step_unbound hstep hnone hl
  obtain ⟨hw | hidling, hlast⟩ := State.step_idle_back hreach hstep hnone hw
  · rw [hlast]
    exact h.least name e hl₀ hname hw
  · rw [hlast]
    obtain ⟨c, hc, hle⟩ := hpassed name e hl₀ hname hidling
    refine ⟨c, hc, hle, ?_⟩
    rintro rfl
    exact absurd (Or.inl ⟨c.1, hselected c hc, hl₀⟩) (hok.2.1 e hidling t ht).1

/-- So does the entry that it has selected. -/
theorem Oldest.step_other {e : EntryId} {t : Task} (h : Oldest s.shared e)
    (hreach : (manager settings).Reachable s) (hok : patientStep s a)
    (hstep : s.step settings a = some s') (ht : t ∈ s.tasks)
    (hnone : ∀ name e, s.event a ≠ some (.insert name e)) (hselects : t.Selects s.shared e)
    (hpassed : ∀ name j, s.shared.entries.lookup name = some j → s.idling a = some j →
      (s.shared.heap e).lastUsedMs ≤ (s.shared.heap j).lastUsedMs) : Oldest s'.shared e := by
  intro hw name j hl hj
  have hl₀ := State.step_unbound hstep hnone hl
  obtain ⟨hw, hlast⟩ := hok.idle_back hreach hstep ht hselects hw
  obtain ⟨hj | hidling, hlast'⟩ := State.step_idle_back hreach hstep hnone hj
  · rw [hlast, hlast']
    exact h hw name j hl₀ hj
  · rw [hlast, hlast']
    exact hpassed name j hl₀ hidling

/-- The steps of the others keep it. -/
theorem EvictPc.Best.step_other {pc : EvictPc} {i : Nat} {call : Call} {attempts : Nat}
    (hbest : pc.Best s.shared) (hreach : (manager settings).Reachable s) (hok : patientStep s a)
    (hstep : s.step settings a = some s')
    (hi : s.tasks[i]? = some (.acquire call (.evict attempts pc)))
    (hother : ∀ choice, a ≠ .step i choice) : pc.Best s'.shared := by
  have ht := List.mem_of_getElem? hi
  -- The task holds the admission guard, so nobody inserts an entry.
  have hnone (name : String) (e : EntryId) : s.event a ≠ some (.insert name e) :=
    fun hev => hother .go (insert_alone hreach hi rfl hev)
  have houtlived {name : String} {e : EntryId} (hl : s.shared.entries.lookup name = some e)
      (hidling : s.idling a = some e) : pc.Outlived s.shared name e := by
    have hallows := (hok.2.1 e hidling _ ht).2
    rw [linked_name hreach hl] at hallows
    exact hallows hl pc rfl
  cases pc with
  | scan sc candidate =>
    refine Scanned.step_other hbest hreach hok hstep ht hnone
      (fun name e hl hname hidling => houtlived hl hidling hname) ?_
    intro c hc
    obtain rfl := hc
    exact List.mem_singleton_self _
  | lastUsed sc candidate n j =>
    obtain ⟨hscan, hseen, hbound⟩ := hbest
    refine ⟨hscan.step_other hreach hok hstep ht hnone ?_ ?_, hseen,
      fun k hl => hbound k (State.step_unbound hstep hnone hl)⟩
    · intro name e hl hname hidling
      exact houtlived hl hidling hname.1 hname.2
    · intro c hc
      obtain rfl := hc
      exact List.mem_singleton_self _
  | take tpc =>
    cases tpc with
    | get n =>
      intro e hl
      have hl₀ := State.step_unbound hstep hnone hl
      refine (hbest e hl₀).step_other hreach hok hstep ht hnone
        (Or.inl ⟨n, List.mem_singleton_self _, hl₀⟩) ?_
      intro name j hj hidling
      exact houtlived hj hidling e hl₀
    | beginClose n e =>
      exact Oldest.step_other hbest hreach hok hstep ht hnone (Or.inr rfl)
        fun name j hj hidling => houtlived hj hidling
    | remove n e => trivial

/-! ## The law -/

/-- What a task has selected to close is the right victim. -/
def Task.Right (σ : Shared) (idleTimeoutMs : Nat) : Task → Prop
  | .cleanupIdle pc => pc.Stale σ idleTimeoutMs
  | .acquire _ (.evict _ pc) => pc.Best σ
  | _ => True

/-- A call of `cleanup_idle` that is not in progress has selected nothing. -/
theorem CleanupPc.Stale.of_none {σ : Shared} {idleTimeoutMs : Nat} {pc : CleanupPc}
    (hcutoff : pc.cutoff = none) (hreading : (Task.cleanupIdle pc).reading = none)
    (hselects : ∀ e, ¬ (Task.cleanupIdle pc).Selects σ e) : pc.Stale σ idleTimeoutMs where
  cutoff := fun cutoff hc => absurd hc (by simp [hcutoff])
  reading := fun name e hr => absurd hr (by simp [hreading])
  selected := fun e he => absurd he (hselects e)

theorem Task.Right.step_own {σ σ' : Shared} {t t' : Task} {choice : Choice} {spawned : List Task}
    (hright : t.Right σ settings.idleTimeoutMs)
    (h : TaskBranch settings σ t choice (σ', t', spawned)) :
    t'.Right σ' settings.idleTimeoutMs := by
  cases h with
  | acquire h =>
    cases h with
    | lenFull => exact Scanned.start (fun _ => List.not_mem_nil)
    | evictNext hevict => exact EvictPc.Best.step_own hright hevict
    | _ => trivial
  | cleanupIdle h => exact CleanupPc.Stale.step_own hright h
  | checkpointWal | closeEntry | closeAll => trivial

theorem TaskCancelBranch.right {σ σ' : Shared} {t t' : Task} {idleTimeoutMs : Nat}
    (h : TaskCancelBranch σ t (σ', t')) : t'.Right σ' idleTimeoutMs := by
  cases h with
  | acquire h => cases h <;> trivial
  | cleanupIdle =>
    refine .of_none rfl rfl fun e he => ?_
    simp [Task.Selects, Task.selected, Task.taking, Task.takePc] at he
  | checkpointWal => trivial

/-- In the runs that meet the condition, what every task has selected is right. -/
theorem tasks_right (h : (manager settings).ReachableVia patientStep s) :
    ∀ (i : Nat) (t : Task), s.tasks[i]? = some t →
      t.Right s.shared settings.idleTimeoutMs := by
  refine h.invariant (I := fun s => ∀ (i : Nat) (t : Task), s.tasks[i]? = some t →
    t.Right s.shared settings.idleTimeoutMs) ?_ ?_
  · intro i t hi
    exact absurd hi (by simp [manager])
  · intro s a s' hr hI hok hstep
    refine State.forall_step hstep hI ?_ ?_ ?_ ?_ ?_
    · intro i t hi _ hother hright
      unfold Task.Right at hright ⊢
      split
      · exact CleanupPc.Stale.step_other hright hr.reachable hok hstep (List.mem_of_getElem? hi)
      · exact EvictPc.Best.step_other hright hr.reachable hok hstep hi hother
      · trivial
    · intro i choice t t' spawned _ _ _ hbranch hright
      exact hright.step_own hbranch
    · intro i t t' _ _ hbranch _
      exact hbranch.right
    · intro operation _
      cases operation with
      | acquire name =>
        simp only [Operation.task]
        split <;> trivial
      | cleanupIdle =>
        refine .of_none rfl rfl fun e he => ?_
        simp [Task.Selects, Task.selected, Task.taking, Task.takePc] at he
      | checkpointWal | closeAll => trivial
    · intro i e
      trivial

/-- Task `i` has selected the entry. -/
def State.Selects (s : State) (i : Nat) (e : EntryId) : Prop :=
  ∃ t ∈ s.tasks[i]?, t.Selects s.shared e

instance (s : State) (i : Nat) (e : EntryId) : Decidable (s.Selects i e) :=
  inferInstanceAs (Decidable (∃ t ∈ s.tasks[i]?, _))

/-- The victim is still the right one when it is closed, in the runs in which every
task allows what the others do.

* At the instant `begin_close` succeeds on an entry, it was last used at least the
  idle timeout ago if the caller is `cleanup_idle`, and no linked idle entry was
  used before it if the caller is `evict_oldest_idle`.
* An entry that is used while a call has it selected is not closed while the call has it
  selected, by this call or by another: `begin_close` finds it leased. -/
theorem right_victim (h : (manager settings).ReachableVia patientStep s) :
    (∀ (i : Nat) (t : Task) (name : String) (e : EntryId), s.tasks[i]? = some t →
      t.taking = some (name, e) → (s.shared.heap e).activeLeases = 0 →
      (∀ pc, t = .cleanupIdle pc →
        (s.shared.heap e).lastUsedMs ≤ s.shared.now - settings.idleTimeoutMs) ∧
      (∀ pc, t.evicting = some pc → ∀ n j, s.shared.entries.lookup n = some j →
        (s.shared.heap j).activeLeases = 0 →
          (s.shared.heap e).lastUsedMs ≤ (s.shared.heap j).lastUsedMs)) ∧
    (∀ (i : Nat) (e : EntryId) (s' : State), (s.shared.heap e).activeLeases ≠ 0 →
      (manager settings).RunFrom (fun s a => patientStep s a ∧ s.Selects i e) s s' →
      (s'.shared.heap e).activeLeases ≠ 0 ∧
        ((s.shared.heap e).activeLeases ≠ CLOSED →
          (s'.shared.heap e).activeLeases ≠ CLOSED)) := by
  constructor
  · intro i t name e hi htaking hidle
    have hright := tasks_right h i t hi
    have hpc := Task.takePc_of_taking htaking
    constructor
    · rintro pc rfl
      refine CleanupPc.Stale.selected hright e (Or.inr ?_) hidle
      rw [htaking]
      rfl
    · intro pc hevicting n j hl hj
      unfold Task.evicting at hevicting
      split at hevicting
      · rename_i pc'
        obtain rfl : pc' = pc := Option.some.inj hevicting
        cases pc' with
        | take tpc =>
          obtain rfl := Option.some.inj hpc
          exact hright hidle n j hl hj
        | scan | lastUsed => exact absurd hpc (by simp [Task.takePc])
      · simp at hevicting
  · intro i e s' hused hrun
    refine hrun.invariant (I := fun s₁ => (s₁.shared.heap e).activeLeases ≠ 0 ∧
      ((s.shared.heap e).activeLeases ≠ CLOSED → (s₁.shared.heap e).activeLeases ≠ CLOSED))
      ⟨hused, id⟩ ?_
    rintro s₁ a s₂ hr ⟨hw, hopen⟩ ⟨hok, t, hi, hselects⟩ hstep
    have hreach : (manager settings).Reachable s₁ :=
      h.reachable.trans (hr.mono fun _ _ _ => trivial)
    refine ⟨fun hidle => hw ?_, fun hne hclosed => ?_⟩
    · exact (hok.idle_back hreach hstep (List.mem_of_getElem? hi) hselects hidle).1
    · -- Only a `begin_close` that finds the entry idle closes it.
      rcases State.step_closed hreach hstep hclosed with hold | ⟨hzero, _⟩
      · exact hopen hne hold
      · exact hw hzero

/-- Database `a` is used at time 0.  At time 400000 `cleanup_idle`, task 1, selects it
and looks it up in `take`. -/
def idleVictim : List Action :=
  coldAcquire 0 "a" 0 ++ dropLease 0 ++ .clock 400000 :: .start .cleanupIdle ::
    cleanupRound 1 "a" 3

/-- It was last used before the cutoff. -/
theorem right_victim_idle :
    (((manager .default).play (fun s a => decide (patientStep s a)) idleVictim).shared.heap
      0).lastUsedMs ≤ 400000 - 300000 := by
  have hi : ((manager .default).play (fun s a => decide (patientStep s a)) idleVictim).tasks[1]? =
      some (.cleanupIdle (.take (.beginClose "a" 0) [] 0)) := by decide
  have hlaw := right_victim (StepSystem.reachable_play (M := manager .default)
    (fun _ _ h => of_decide_eq_true h) idleVictim)
  exact (hlaw.1 1 _ "a" 0 hi rfl (by decide)).1 _ rfl

/-! ## Without the condition -/

/-- Database `a` is used at time 0 and `b` at time 1000.  At time 2000 a call for `c`,
task 2, selects `a` and looks it up in `take`. -/
def oldestVictim : List Action :=
  coldAcquire 0 "a" 0 ++ dropLease 0 ++ .clock 1000 :: coldAcquire 1 "b" 1 ++ dropLease 1 ++
    .clock 2000 :: .start (.acquire "c") :: goes 2 3 ++ .step 2 (.count 2) ::
    .step 2 (.visit "a") :: goes 2 1 ++ .step 2 (.visit "b") :: goes 2 3

/-- Both calls are about to close `a`, which was selected, then used and released.
`cleanup_idle` closes a database that was used this instant, and
`evict_oldest_idle` one that was used after `b`. -/
theorem wrong_victim :
    (∃ s : State, (manager .default).ReachableVia forwardStep s ∧
      s.tasks[1]? = some (.cleanupIdle (.take (.beginClose "a" 0) [] 0)) ∧
      (s.shared.heap 0).activeLeases = 0 ∧ (s.shared.heap 0).lastUsedMs = s.shared.now ∧
      s.shared.now - DatabaseSettings.default.idleTimeoutMs < (s.shared.heap 0).lastUsedMs) ∧
    (∃ s : State, (manager twoDatabases).ReachableVia forwardStep s ∧
      s.tasks[2]? = some (.acquire ⟨"c", 0⟩ (.evict 1 (.take (.beginClose "a" 0)))) ∧
      (s.shared.heap 0).activeLeases = 0 ∧ s.shared.entries.lookup "b" = some 1 ∧
      (s.shared.heap 1).activeLeases = 0 ∧
      (s.shared.heap 1).lastUsedMs < (s.shared.heap 0).lastUsedMs) :=
  ⟨⟨_, StepSystem.reachable_play (M := manager .default)
      (fun _ _ h => of_decide_eq_true h) (idleVictim ++ warmAcquire 2 "a" ++ dropLease 2),
      by decide, by decide, by decide, by decide⟩,
    ⟨_, StepSystem.reachable_play (M := manager twoDatabases)
      (fun _ _ h => of_decide_eq_true h) (oldestVictim ++ warmAcquire 3 "a" ++ dropLease 3),
      by decide, by decide, by decide, by decide, by decide⟩⟩

end Tinkiva.Manager
