import Tinkiva.Manager.System

/-!
# The branches of the tasks

One relation for each machine of `Tinkiva.Manager.Task`.  It has one constructor
for each branch of the step function, with the tests that lead there, and
relates the place before a step to its result.  The step functions are read
here once: a fact about every step of a machine is proved by cases on its
branches.
-/

namespace Tinkiva.Manager

open Tinkiva.Config ConcurrentMap

/-- What a step of `lease` does to the word of the entry. -/
theorem leaseStep_leased {word word' : Nat} {pc : LeasePc} {choice : Choice}
    (h : leaseStep word pc choice = some (.leased word')) :
    word ≠ CLOSED ∧ word' = word + 1 := by
  unfold leaseStep at h
  split at h
  · simp only [leaseLoop] at h
    split at h <;> simp at h
  · rename_i current
    split at h
    · rename_i hw
      obtain rfl : current.1 + 1 = word' := by simpa using h
      exact ⟨hw ▸ current.2, by rw [hw]⟩
    · simp only [leaseLoop] at h
      split at h <;> simp at h
  · simp only [leaseLoop] at h
    split at h <;> simp at h
  · simp at h

/-! ## The functions that a caller waits for -/

inductive TakeBranch (σ : Shared) : TakePc → Shared × TakeStep → Prop where
  | vacant {name} (hl : σ.entries.lookup name = none) :
    TakeBranch σ (.get name) (σ, .returned none)
  | found {name e} (hl : σ.entries.lookup name = some e) :
    TakeBranch σ (.get name) (σ, .next (.beginClose name e))
  | leased {name e} (hw : (σ.heap e).activeLeases ≠ 0) :
    TakeBranch σ (.beginClose name e) (σ, .returned none)
  | closed {name e} (hw : (σ.heap e).activeLeases = 0) :
    TakeBranch σ (.beginClose name e) (σ.setLeases e CLOSED, .next (.remove name e))
  | remove {name e} :
    TakeBranch σ (.remove name e) ({ σ with entries := σ.entries.erase name }, .returned (some e))

theorem takeStep_branch (σ : Shared) (pc : TakePc) : TakeBranch σ pc (takeStep σ pc) := by
  cases pc with
  | get name =>
    simp only [takeStep]
    split
    · exact .vacant ‹_›
    · exact .found ‹_›
  | beginClose name e =>
    by_cases hw : (σ.heap e).activeLeases = 0
    · simpa [takeStep, beginClose, hw] using TakeBranch.closed hw
    · simpa [takeStep, beginClose, hw] using TakeBranch.leased hw
  | remove name e => exact .remove

inductive CloseBranch (σ : Shared) (e : EntryId) : ClosePc → Shared × Option ClosePc → Prop where
  | unopened (hpools : (σ.heap e).pools.value = none) : CloseBranch σ e .start (σ, none)
  | opened {pools} (hpools : (σ.heap e).pools.value = some pools) :
    CloseBranch σ e .start (σ, some .readers)
  | readers :
    CloseBranch σ e .readers
      (σ.updatePools e fun pools => { pools with readers := ⟨true⟩ }, some .optimize)
  | optimize : CloseBranch σ e .optimize (σ, some .checkpoint)
  | checkpoint : CloseBranch σ e .checkpoint (σ, some .writer)
  | writer :
    CloseBranch σ e .writer
      (σ.updatePools e fun pools => { pools with writer := ⟨true⟩ }, none)

theorem closeStep_branch (σ : Shared) (e : EntryId) (pc : ClosePc) :
    CloseBranch σ e pc (closeStep σ e pc) := by
  cases pc with
  | start =>
    simp only [closeStep]
    split
    · exact .unopened ‹_›
    · exact .opened ‹_›
  | readers => exact .readers
  | optimize => exact .optimize
  | checkpoint => exact .checkpoint
  | writer => exact .writer

inductive DropBranch (σ : Shared) (e : EntryId) : DropPc → Shared × Option DropPc → Prop where
  | touch : DropBranch σ e .touch (σ, some (.store σ.now))
  | store {nowMs} : DropBranch σ e (.store nowMs) (σ.setLastUsed e nowMs, some .fetchSub)
  | fetchSub : DropBranch σ e .fetchSub (σ.fetchSub e, none)

theorem dropStep_branch (σ : Shared) (e : EntryId) (pc : DropPc) :
    DropBranch σ e pc (dropStep σ e pc) := by
  cases pc with
  | touch => exact .touch
  | store nowMs => exact .store
  | fetchSub => exact .fetchSub

inductive EvictBranch (σ : Shared) : EvictPc → Choice → Shared × EvictStep → Prop where
  | visitLeased {sc sc' candidate name e} (hvisit : sc.visit σ.entries name = some (e, sc'))
      (hw : (σ.heap e).activeLeases ≠ 0) :
    EvictBranch σ (.scan sc candidate) (.visit name) (σ, .next (.scan sc' candidate))
  | visitIdle {sc sc' candidate name e} (hvisit : sc.visit σ.entries name = some (e, sc'))
      (hw : (σ.heap e).activeLeases = 0) :
    EvictBranch σ (.scan sc candidate) (.visit name) (σ, .next (.lastUsed sc' candidate name e))
  | noCandidate {sc} (hfin : sc.finished σ.entries = true) :
    EvictBranch σ (.scan sc none) .go (σ, .returned none)
  | oldest {sc name lastUsed} (hfin : sc.finished σ.entries = true) :
    EvictBranch σ (.scan sc (some (name, lastUsed))) .go (σ, .next (.take (.get name)))
  | older {sc candidate name e}
      (holdest : ∀ c ∈ candidate, (σ.heap e).lastUsedMs < c.2) :
    EvictBranch σ (.lastUsed sc candidate name e) .go
      (σ, .next (.scan sc (some (name, (σ.heap e).lastUsedMs))))
  | newer {sc c name e} (hnewer : c.2 ≤ (σ.heap e).lastUsedMs) :
    EvictBranch σ (.lastUsed sc (some c) name e) .go (σ, .next (.scan sc (some c)))
  | takeNext {pc σ' pc'} (htake : TakeBranch σ pc (σ', .next pc')) :
    EvictBranch σ (.take pc) .go (σ', .next (.take pc'))
  | takeNone {pc σ'} (htake : TakeBranch σ pc (σ', .returned none)) :
    EvictBranch σ (.take pc) .go (σ', .returned none)
  | takeSome {pc σ' e} (htake : TakeBranch σ pc (σ', .returned (some e))) :
    EvictBranch σ (.take pc) .go (σ'.recordEviction, .returned (some e))

theorem evictStep_branch {σ : Shared} {pc : EvictPc} {choice : Choice} {r : Shared × EvictStep}
    (h : evictStep σ pc choice = some r) : EvictBranch σ pc choice r := by
  cases pc with
  | scan sc candidate =>
    cases choice with
    | visit name =>
      simp only [evictStep] at h
      split at h
      · simp at h
      · split at h
        all_goals obtain rfl := Option.some.inj h
        · exact .visitLeased ‹_› ‹_›
        · exact .visitIdle ‹_› (not_not.mp ‹_›)
    | go =>
      simp only [evictStep] at h
      split at h
      · split at h
        all_goals obtain rfl := Option.some.inj h
        · exact .noCandidate ‹_›
        · exact .oldest ‹_›
      · simp at h
    | fail | count n => simp [evictStep] at h
  | lastUsed sc candidate name e =>
    cases choice with
    | go =>
      obtain rfl := Option.some.inj h
      cases candidate with
      | none => exact .older (by simp)
      | some c =>
        by_cases hc : (σ.heap e).lastUsedMs < c.2
        · have holdest : ∀ d ∈ some c, (σ.heap e).lastUsedMs < d.2 := by simpa using hc
          simpa [hc] using EvictBranch.older holdest
        · simpa [hc] using EvictBranch.newer (Nat.le_of_not_lt hc)
    | fail | visit key | count n => simp [evictStep] at h
  | take pc =>
    cases choice with
    | go =>
      have htake := takeStep_branch σ pc
      simp only [evictStep] at h
      split at h
      all_goals
        rename_i hstep
        rw [hstep] at htake
        obtain rfl := Option.some.inj h
      · exact .takeNext htake
      · exact .takeNone htake
      · exact .takeSome htake
    | fail | visit key | count n => simp [evictStep] at h

/-! ## `acquire` -/

inductive AcquireBranch (settings : DatabaseSettings) (σ : Shared) (call : Call) :
    AcquirePc → Choice → Shared × Call × AcquirePc × Option EntryId → Prop where
  | getFound {e} (hl : σ.entries.lookup call.name = some e) :
    AcquireBranch settings σ call .get .go (σ, call, .lease e .load, none)
  | getVacant (hl : σ.entries.lookup call.name = none) :
    AcquireBranch settings σ call .get .go (σ, call, .lock, none)
  | lock (hfree : σ.admission = false) :
    AcquireBranch settings σ call .lock .go ({ σ with admission := true }, call, .recheck, none)
  | recheckFound {e} (hl : σ.entries.lookup call.name = some e) :
    AcquireBranch settings σ call .recheck .go (σ, call, .unlock (some e), none)
  | recheckVacant (hl : σ.entries.lookup call.name = none) :
    AcquireBranch settings σ call .recheck .go (σ, call, .len 0, none)
  | lenRefused {attempts n} (hn : size σ.entries ≤ n) (hfull : settings.maxOpenDatabases ≤ n)
      (hattempts : MAX_ATTEMPTS < attempts + 1) :
    AcquireBranch settings σ call (.len attempts) (.count n) (σ, call, .unlock none, none)
  | lenFull {attempts n} (hn : size σ.entries ≤ n) (hfull : settings.maxOpenDatabases ≤ n)
      (hattempts : attempts + 1 ≤ MAX_ATTEMPTS) :
    AcquireBranch settings σ call (.len attempts) (.count n)
      (σ, call, .evict (attempts + 1) (.scan (.start σ.entries) none), none)
  | lenRoom {attempts n} (hn : size σ.entries ≤ n) (hroom : n < settings.maxOpenDatabases) :
    AcquireBranch settings σ call (.len attempts) (.count n) (σ, call, .create, none)
  | evictNext {attempts pc choice σ' pc'} (hevict : EvictBranch σ pc choice (σ', .next pc')) :
    AcquireBranch settings σ call (.evict attempts pc) choice
      (σ', call, .evict attempts pc', none)
  | evictNone {attempts pc choice σ'} (hevict : EvictBranch σ pc choice (σ', .returned none)) :
    AcquireBranch settings σ call (.evict attempts pc) choice (σ', call, .unlock none, none)
  | evictSome {attempts pc choice σ' e}
      (hevict : EvictBranch σ pc choice (σ', .returned (some e))) :
    AcquireBranch settings σ call (.evict attempts pc) choice (σ', call, .len attempts, some e)
  | create : AcquireBranch settings σ call .create .go (σ, call, .insert σ.now, none)
  | insert {nowMs} :
    AcquireBranch settings σ call (.insert nowMs) .go
      ((σ.insertNew (.new call.name settings.maxConcurrentRequestsPerDatabase nowMs)).recordOpen,
        call, .unlock (some σ.created), none)
  | unlockSome {e} :
    AcquireBranch settings σ call (.unlock (some e)) .go
      ({ σ with admission := false }, call, .lease e .load, none)
  | unlockNone :
    AcquireBranch settings σ call (.unlock none) .go
      ({ σ with admission := false }, call, .done (some .capacityBusy), none)
  | leaseNext {e pc choice pc'}
      (hlease : leaseStep (σ.heap e).activeLeases pc choice = some (.next pc')) :
    AcquireBranch settings σ call (.lease e pc) choice (σ, call, .lease e pc', none)
  | leaseRefused {e pc choice}
      (hlease : leaseStep (σ.heap e).activeLeases pc choice = some .refused) :
    AcquireBranch settings σ call (.lease e pc) choice (σ, call, .yield, none)
  | leaseTaken {e pc choice}
      (hlease : leaseStep (σ.heap e).activeLeases pc choice =
        some (.leased ((σ.heap e).activeLeases + 1)))
      (hw : (σ.heap e).activeLeases ≠ CLOSED) :
    AcquireBranch settings σ call (.lease e pc) choice
      (σ.setLeases e ((σ.heap e).activeLeases + 1), call, .tenantSlot e, none)
  | yieldAgain (hattempt : call.attempt + 1 < MAX_ATTEMPTS) :
    AcquireBranch settings σ call .yield .go
      (σ, { call with attempt := call.attempt + 1 }, .get, none)
  | yieldLast (hattempt : MAX_ATTEMPTS ≤ call.attempt + 1) :
    AcquireBranch settings σ call .yield .go (σ, call, .done (some .capacityBusy), none)
  | tenantSlot {e} (hslots : 0 < (σ.heap e).slots) :
    AcquireBranch settings σ call (.tenantSlot e) .go
      (σ.takeTenantSlot e, call, .processSlot e, none)
  | tenantSlotTimeout {e} :
    AcquireBranch settings σ call (.tenantSlot e) .fail
      (σ.recordShed, call, .drop e false (some .overloaded) .touch, none)
  | processSlot {e} (hslots : 0 < σ.slots) :
    AcquireBranch settings σ call (.processSlot e) .go
      ({ σ with slots := σ.slots - 1 }, call, .ensureOpen e, none)
  | processSlotTimeout {e} :
    AcquireBranch settings σ call (.processSlot e) .fail
      ((σ.giveTenantSlot e).recordShed, call, .drop e false (some .overloaded) .touch, none)
  | ensureOpenSet {e} (hset : (σ.heap e).pools.value.isSome = true) :
    AcquireBranch settings σ call (.ensureOpen e) .go (σ, call, .touch e, none)
  | ensureOpenInit {e} (hpools : (σ.heap e).pools.value = none)
      (hinit : (σ.heap e).pools.initializing = false) :
    AcquireBranch settings σ call (.ensureOpen e) .go
      (σ.setPools e ⟨none, true⟩, call, .openPools e, none)
  | openPools {e} :
    AcquireBranch settings σ call (.openPools e) .go
      (σ.setPools e ⟨some .fresh, false⟩, call, .touch e, none)
  | openPoolsFailed {e} :
    AcquireBranch settings σ call (.openPools e) .fail
      (σ.setPools e ⟨none, false⟩, call, .removeIf e, none)
  | removeIf {e} :
    AcquireBranch settings σ call (.removeIf e) .go
      ({ σ with entries := eraseIf σ.entries call.name e }, call,
        .drop e true (some openError) .touch, none)
  | touch {e} : AcquireBranch settings σ call (.touch e) .go (σ, call, .store e σ.now, none)
  | store {e nowMs} :
    AcquireBranch settings σ call (.store e nowMs) .go
      (σ.setLastUsed e nowMs, call, .leased e, none)
  | leased {e} :
    AcquireBranch settings σ call (.leased e) .go (σ, call, .drop e true none .touch, none)
  | dropNext {e held error pc σ' pc'} (hdrop : DropBranch σ e pc (σ', some pc')) :
    AcquireBranch settings σ call (.drop e held error pc) .go
      (σ', call, .drop e held error pc', none)
  | dropSlots {e error pc σ'} (hdrop : DropBranch σ e pc (σ', none)) :
    AcquireBranch settings σ call (.drop e true error pc) .go (σ', call, .slots e error, none)
  | dropDone {e error pc σ'} (hdrop : DropBranch σ e pc (σ', none)) :
    AcquireBranch settings σ call (.drop e false error pc) .go (σ', call, .done error, none)
  | slots {e error} :
    AcquireBranch settings σ call (.slots e error) .go (σ.giveSlots e, call, .done error, none)

theorem acquireStep_branch {settings : DatabaseSettings} {σ : Shared} {call : Call}
    {pc : AcquirePc} {choice : Choice} {r : Shared × Call × AcquirePc × Option EntryId}
    (h : acquireStep settings σ call pc choice = some r) :
    AcquireBranch settings σ call pc choice r := by
  cases pc with
  | get =>
    cases choice with
    | go =>
      simp only [acquireStep] at h
      split at h
      all_goals obtain rfl := Option.some.inj h
      · exact .getFound ‹_›
      · exact .getVacant ‹_›
    | fail | visit key | count n => simp [acquireStep] at h
  | lock =>
    cases choice with
    | go =>
      simp only [acquireStep] at h
      split at h
      · simp at h
      · obtain rfl := Option.some.inj h
        exact .lock (Bool.eq_false_of_not_eq_true ‹_›)
    | fail | visit key | count n => simp [acquireStep] at h
  | recheck =>
    cases choice with
    | go =>
      simp only [acquireStep] at h
      split at h
      all_goals obtain rfl := Option.some.inj h
      · exact .recheckFound ‹_›
      · exact .recheckVacant ‹_›
    | fail | visit key | count n => simp [acquireStep] at h
  | len attempts =>
    cases choice with
    | count n =>
      simp only [acquireStep] at h
      split at h
      · rename_i hn
        split at h
        · rename_i hfull
          split at h
          all_goals obtain rfl := Option.some.inj h
          · exact .lenRefused hn hfull ‹_›
          · exact .lenFull hn hfull (Nat.le_of_not_lt ‹_›)
        · obtain rfl := Option.some.inj h
          exact .lenRoom hn (Nat.lt_of_not_le ‹_›)
      · simp at h
    | go | fail | visit key => simp [acquireStep] at h
  | evict attempts pc =>
    simp only [acquireStep] at h
    split at h
    · simp at h
    all_goals
      rename_i hevict
      obtain rfl := Option.some.inj h
    · exact .evictNext (evictStep_branch hevict)
    · exact .evictNone (evictStep_branch hevict)
    · exact .evictSome (evictStep_branch hevict)
  | unlock entry =>
    cases choice with
    | go =>
      cases entry with
      | none =>
        obtain rfl := Option.some.inj h
        exact .unlockNone
      | some e =>
        obtain rfl := Option.some.inj h
        exact .unlockSome
    | fail | visit key | count n => cases entry <;> simp [acquireStep] at h
  | lease e pc =>
    simp only [acquireStep] at h
    split at h
    · simp at h
    all_goals
      rename_i hlease
      obtain rfl := Option.some.inj h
    · exact .leaseNext hlease
    · exact .leaseRefused hlease
    · obtain ⟨hw, rfl⟩ := leaseStep_leased hlease
      exact .leaseTaken hlease hw
  | yield =>
    cases choice with
    | go =>
      simp only [acquireStep] at h
      split at h
      all_goals obtain rfl := Option.some.inj h
      · exact .yieldAgain ‹_›
      · exact .yieldLast (Nat.le_of_not_lt ‹_›)
    | fail | visit key | count n => simp [acquireStep] at h
  | tenantSlot e =>
    cases choice with
    | go =>
      simp only [acquireStep] at h
      split at h
      · obtain rfl := Option.some.inj h
        exact .tenantSlot ‹_›
      · simp at h
    | fail =>
      obtain rfl := Option.some.inj h
      exact .tenantSlotTimeout
    | visit key | count n => simp [acquireStep] at h
  | processSlot e =>
    cases choice with
    | go =>
      simp only [acquireStep] at h
      split at h
      · obtain rfl := Option.some.inj h
        exact .processSlot ‹_›
      · simp at h
    | fail =>
      obtain rfl := Option.some.inj h
      exact .processSlotTimeout
    | visit key | count n => simp [acquireStep] at h
  | ensureOpen e =>
    cases choice with
    | go =>
      simp only [acquireStep] at h
      split at h
      · obtain rfl := Option.some.inj h
        exact .ensureOpenSet ‹_›
      · rename_i hset
        split at h
        · simp at h
        · obtain rfl := Option.some.inj h
          exact .ensureOpenInit (by simpa using hset) (Bool.eq_false_of_not_eq_true ‹_›)
    | fail | visit key | count n => simp [acquireStep] at h
  | openPools e =>
    cases choice with
    | go =>
      obtain rfl := Option.some.inj h
      exact .openPools
    | fail =>
      obtain rfl := Option.some.inj h
      exact .openPoolsFailed
    | visit key | count n => simp [acquireStep] at h
  | drop e held error pc =>
    cases choice with
    | go =>
      have hdrop := dropStep_branch σ e pc
      simp only [acquireStep] at h
      split at h
      all_goals
        rename_i hstep
        rw [hstep] at hdrop
        obtain rfl := Option.some.inj h
      · exact .dropNext hdrop
      · cases held with
        | true => exact .dropSlots hdrop
        | false => exact .dropDone hdrop
    | fail | visit key | count n => simp [acquireStep] at h
  | create | insert | removeIf | touch | store | leased | slots =>
    -- One branch, which the environment does not choose.
    cases choice with
    | go =>
      obtain rfl := Option.some.inj h
      constructor
    | fail | visit key | count n => simp [acquireStep] at h
  | done error => simp [acquireStep] at h

/-- The branches of `acquireCancel`. -/
inductive AcquireCancelBranch (σ : Shared) : AcquirePc → Shared × AcquirePc → Prop where
  | lock : AcquireCancelBranch σ .lock (σ, .done none)
  | yield : AcquireCancelBranch σ .yield (σ, .done none)
  | tenantSlot {e} : AcquireCancelBranch σ (.tenantSlot e) (σ, .drop e false none .touch)
  | processSlot {e} :
    AcquireCancelBranch σ (.processSlot e) (σ.giveTenantSlot e, .drop e false none .touch)
  | ensureOpen {e} : AcquireCancelBranch σ (.ensureOpen e) (σ, .drop e true none .touch)
  | openPools {e} :
    AcquireCancelBranch σ (.openPools e) (σ.setPools e ⟨none, false⟩, .drop e true none .touch)

theorem acquireCancel_branch {σ : Shared} {pc : AcquirePc} {r : Shared × AcquirePc}
    (h : acquireCancel σ pc = some r) : AcquireCancelBranch σ pc r := by
  unfold acquireCancel at h
  split at h
  case h_7 => simp at h
  all_goals
    obtain rfl := Option.some.inj h
    constructor

/-! ## `cleanup_idle`, `checkpoint_wal` and `close_all` -/

inductive CleanupBranch (settings : DatabaseSettings) (σ : Shared) :
    CleanupPc → Choice → Shared × CleanupPc → Prop where
  | start :
    CleanupBranch settings σ .start .go
      (σ, .scan (σ.now - settings.idleTimeoutMs) (.start σ.entries) [])
  | visitIdle {cutoff sc sc' stale name e} (hvisit : sc.visit σ.entries name = some (e, sc'))
      (hw : (σ.heap e).activeLeases = 0) :
    CleanupBranch settings σ (.scan cutoff sc stale) (.visit name)
      (σ, .lastUsed cutoff sc' stale name e)
  | visitLeased {cutoff sc sc' stale name e} (hvisit : sc.visit σ.entries name = some (e, sc'))
      (hw : (σ.heap e).activeLeases ≠ 0) :
    CleanupBranch settings σ (.scan cutoff sc stale) (.visit name) (σ, .scan cutoff sc' stale)
  | finish {cutoff sc stale} (hfin : sc.finished σ.entries = true) :
    CleanupBranch settings σ (.scan cutoff sc stale) .go (σ, .next 0 stale)
  | stale {cutoff sc stale name e} (hold : (σ.heap e).lastUsedMs ≤ cutoff) :
    CleanupBranch settings σ (.lastUsed cutoff sc stale name e) .go
      (σ, .scan cutoff sc (stale ++ [name]))
  | recent {cutoff sc stale name e} (hrecent : cutoff < (σ.heap e).lastUsedMs) :
    CleanupBranch settings σ (.lastUsed cutoff sc stale name e) .go (σ, .scan cutoff sc stale)
  | takeNext {pc rest closed σ' pc'} (htake : TakeBranch σ pc (σ', .next pc')) :
    CleanupBranch settings σ (.take pc rest closed) .go (σ', .take pc' rest closed)
  | takeNone {pc rest closed σ'} (htake : TakeBranch σ pc (σ', .returned none)) :
    CleanupBranch settings σ (.take pc rest closed) .go (σ', .next closed rest)
  | takeSome {pc rest closed σ' e} (htake : TakeBranch σ pc (σ', .returned (some e))) :
    CleanupBranch settings σ (.take pc rest closed) .go (σ', .close e .start rest closed)
  | closeNext {e pc rest closed σ' pc'} (hclose : CloseBranch σ e pc (σ', some pc')) :
    CleanupBranch settings σ (.close e pc rest closed) .go (σ', .close e pc' rest closed)
  | closeDone {e pc rest closed σ'} (hclose : CloseBranch σ e pc (σ', none)) :
    CleanupBranch settings σ (.close e pc rest closed) .go (σ', .next (closed + 1) rest)
  | record {closed} :
    CleanupBranch settings σ (.record closed) .go
      (σ.recordIdleClose closed, .done (some closed))

theorem cleanupStep_branch {settings : DatabaseSettings} {σ : Shared} {pc : CleanupPc}
    {choice : Choice} {r : Shared × CleanupPc} (h : cleanupStep settings σ pc choice = some r) :
    CleanupBranch settings σ pc choice r := by
  cases pc with
  | start =>
    cases choice with
    | go =>
      obtain rfl := Option.some.inj h
      exact .start
    | fail | visit key | count n => simp [cleanupStep] at h
  | scan cutoff sc stale =>
    cases choice with
    | visit key =>
      simp only [cleanupStep] at h
      split at h
      · simp at h
      · split at h
        all_goals obtain rfl := Option.some.inj h
        · exact .visitIdle ‹_› ‹_›
        · exact .visitLeased ‹_› ‹_›
    | go =>
      simp only [cleanupStep] at h
      split at h
      · obtain rfl := Option.some.inj h
        exact .finish ‹_›
      · simp at h
    | fail | count n => simp [cleanupStep] at h
  | lastUsed cutoff sc stale name e =>
    cases choice with
    | go =>
      simp only [cleanupStep] at h
      split at h
      all_goals obtain rfl := Option.some.inj h
      · exact .stale ‹_›
      · exact .recent (Nat.lt_of_not_le ‹_›)
    | fail | visit key | count n => simp [cleanupStep] at h
  | take pc rest closed =>
    cases choice with
    | go =>
      have htake := takeStep_branch σ pc
      simp only [cleanupStep] at h
      split at h
      all_goals
        rename_i hstep
        rw [hstep] at htake
        obtain rfl := Option.some.inj h
      · exact .takeNext htake
      · exact .takeNone htake
      · exact .takeSome htake
    | fail | visit key | count n => simp [cleanupStep] at h
  | close e pc rest closed =>
    cases choice with
    | go =>
      have hclose := closeStep_branch σ e pc
      simp only [cleanupStep] at h
      split at h
      all_goals
        rename_i hstep
        rw [hstep] at hclose
        obtain rfl := Option.some.inj h
      · exact .closeNext hclose
      · exact .closeDone hclose
    | fail | visit key | count n => simp [cleanupStep] at h
  | record closed =>
    cases choice with
    | go =>
      obtain rfl := Option.some.inj h
      exact .record
    | fail | visit key | count n => simp [cleanupStep] at h
  | done closed => simp [cleanupStep] at h

/-- A running `close_entry` is given up. -/
theorem cleanupCancel_eq_some {σ : Shared} {pc : CleanupPc} {r : Shared × CleanupPc}
    (h : cleanupCancel σ pc = some r) :
    ∃ e pc' rest closed, pc = .close e pc' rest closed ∧ pc' ≠ .start ∧ r = (σ, .done none) := by
  unfold cleanupCancel at h
  split at h
  · simp at h
  · rename_i e pc' rest closed hstart
    exact ⟨e, pc', rest, closed, rfl, hstart, (Option.some.inj h).symm⟩
  · simp at h

inductive CheckpointBranch (σ : Shared) : CheckpointPc → Choice → Shared × CheckpointPc → Prop where
  | start : CheckpointBranch σ .start .go (σ, .scan (.start σ.entries) [])
  | visit {sc sc' entries name e} (hvisit : sc.visit σ.entries name = some (e, sc')) :
    CheckpointBranch σ (.scan sc entries) (.visit name) (σ, .scan sc' (entries ++ [e]))
  | finish {sc entries} (hfin : sc.finished σ.entries = true) :
    CheckpointBranch σ (.scan sc entries) .go (σ, .next 0 entries)
  | leaseNext {e pc rest n choice pc'}
      (hlease : leaseStep (σ.heap e).activeLeases pc choice = some (.next pc')) :
    CheckpointBranch σ (.lease e pc rest n) choice (σ, .lease e pc' rest n)
  | leaseRefused {e pc rest n choice}
      (hlease : leaseStep (σ.heap e).activeLeases pc choice = some .refused) :
    CheckpointBranch σ (.lease e pc rest n) choice (σ, .next n rest)
  | leaseTaken {e pc rest n choice}
      (hlease : leaseStep (σ.heap e).activeLeases pc choice =
        some (.leased ((σ.heap e).activeLeases + 1)))
      (hw : (σ.heap e).activeLeases ≠ CLOSED) :
    CheckpointBranch σ (.lease e pc rest n) choice
      (σ.setLeases e ((σ.heap e).activeLeases + 1), .pools e rest n)
  | poolsUnset {e rest n} (hpools : (σ.heap e).pools.value = none) :
    CheckpointBranch σ (.pools e rest n) .go (σ, .drop e .touch rest n)
  | poolsSet {e rest n} (hset : (σ.heap e).pools.value.isSome = true) :
    CheckpointBranch σ (.pools e rest n) .go (σ, .pragma e rest n)
  | pragma {e rest n} :
    CheckpointBranch σ (.pragma e rest n) .go (σ, .drop e .touch rest (n + 1))
  | pragmaFailed {e rest n} :
    CheckpointBranch σ (.pragma e rest n) .fail (σ, .drop e .touch rest n)
  | dropNext {e pc rest n σ' pc'} (hdrop : DropBranch σ e pc (σ', some pc')) :
    CheckpointBranch σ (.drop e pc rest n) .go (σ', .drop e pc' rest n)
  | dropDone {e pc rest n σ'} (hdrop : DropBranch σ e pc (σ', none)) :
    CheckpointBranch σ (.drop e pc rest n) .go (σ', .next n rest)
  | abortNext {e pc σ' pc'} (hdrop : DropBranch σ e pc (σ', some pc')) :
    CheckpointBranch σ (.abort e pc) .go (σ', .abort e pc')
  | abortDone {e pc σ'} (hdrop : DropBranch σ e pc (σ', none)) :
    CheckpointBranch σ (.abort e pc) .go (σ', .done none)
  | record {n} :
    CheckpointBranch σ (.record n) .go (σ.recordCheckpoints n, .done (some n))

theorem checkpointStep_branch {σ : Shared} {pc : CheckpointPc} {choice : Choice}
    {r : Shared × CheckpointPc} (h : checkpointStep σ pc choice = some r) :
    CheckpointBranch σ pc choice r := by
  cases pc with
  | start =>
    cases choice with
    | go =>
      obtain rfl := Option.some.inj h
      exact .start
    | fail | visit key | count n => simp [checkpointStep] at h
  | scan sc entries =>
    cases choice with
    | visit key =>
      simp only [checkpointStep] at h
      split at h
      · simp at h
      · obtain rfl := Option.some.inj h
        exact .visit ‹_›
    | go =>
      simp only [checkpointStep] at h
      split at h
      · obtain rfl := Option.some.inj h
        exact .finish ‹_›
      · simp at h
    | fail | count n => simp [checkpointStep] at h
  | lease e pc rest n =>
    simp only [checkpointStep] at h
    split at h
    · simp at h
    all_goals
      rename_i hlease
      obtain rfl := Option.some.inj h
    · exact .leaseNext hlease
    · exact .leaseRefused hlease
    · obtain ⟨hw, rfl⟩ := leaseStep_leased hlease
      exact .leaseTaken hlease hw
  | pools e rest n =>
    cases choice with
    | go =>
      simp only [checkpointStep] at h
      split at h
      all_goals
        rename_i hset
        obtain rfl := Option.some.inj h
      · exact .poolsUnset (Option.isNone_iff_eq_none.mp hset)
      · exact .poolsSet (by simpa [Option.isSome_iff_ne_none] using hset)
    | fail | visit key | count n => simp [checkpointStep] at h
  | pragma e rest n =>
    cases choice with
    | go =>
      obtain rfl := Option.some.inj h
      exact .pragma
    | fail =>
      obtain rfl := Option.some.inj h
      exact .pragmaFailed
    | visit key | count n => simp [checkpointStep] at h
  | drop e pc rest n =>
    cases choice with
    | go =>
      have hdrop := dropStep_branch σ e pc
      simp only [checkpointStep] at h
      split at h
      all_goals
        rename_i hstep
        rw [hstep] at hdrop
        obtain rfl := Option.some.inj h
      · exact .dropNext hdrop
      · exact .dropDone hdrop
    | fail | visit key | count n => simp [checkpointStep] at h
  | abort e pc =>
    cases choice with
    | go =>
      have hdrop := dropStep_branch σ e pc
      simp only [checkpointStep] at h
      split at h
      all_goals
        rename_i hstep
        rw [hstep] at hdrop
        obtain rfl := Option.some.inj h
      · exact .abortNext hdrop
      · exact .abortDone hdrop
    | fail | visit key | count n => simp [checkpointStep] at h
  | record n =>
    cases choice with
    | go =>
      obtain rfl := Option.some.inj h
      exact .record
    | fail | visit key | count n => simp [checkpointStep] at h
  | done n => simp [checkpointStep] at h

/-- The `PRAGMA` of `checkpoint_wal` is given up. -/
theorem checkpointCancel_eq_some {σ : Shared} {pc : CheckpointPc} {r : Shared × CheckpointPc}
    (h : checkpointCancel σ pc = some r) :
    ∃ e rest n, pc = .pragma e rest n ∧ r = (σ, .abort e .touch) := by
  unfold checkpointCancel at h
  split at h
  · exact ⟨_, _, _, rfl, (Option.some.inj h).symm⟩
  · simp at h

inductive CloseAllBranch (σ : Shared) : CloseAllPc → Choice → Shared × CloseAllPc → Prop where
  | start : CloseAllBranch σ .start .go (σ, .scan (.start σ.entries) [])
  | visit {sc sc' entries name e} (hvisit : sc.visit σ.entries name = some (e, sc')) :
    CloseAllBranch σ (.scan sc entries) (.visit name) (σ, .scan sc' (entries ++ [e]))
  | finish {sc entries} (hfin : sc.finished σ.entries = true) :
    CloseAllBranch σ (.scan sc entries) .go (σ, .clear entries)
  | clear {entries} :
    CloseAllBranch σ (.clear entries) .go ({ σ with entries := ∅ }, .next entries)
  | beginClose {e rest} (hw : (σ.heap e).activeLeases = 0) :
    CloseAllBranch σ (.beginClose e rest) .go (σ.setLeases e CLOSED, .close e .start rest)
  | beginCloseFailed {e rest} (hw : (σ.heap e).activeLeases ≠ 0) :
    CloseAllBranch σ (.beginClose e rest) .go (σ, .close e .start rest)
  | closeNext {e pc rest σ' pc'} (hclose : CloseBranch σ e pc (σ', some pc')) :
    CloseAllBranch σ (.close e pc rest) .go (σ', .close e pc' rest)
  | closeDone {e pc rest σ'} (hclose : CloseBranch σ e pc (σ', none)) :
    CloseAllBranch σ (.close e pc rest) .go (σ', .next rest)

theorem closeAllStep_branch {σ : Shared} {pc : CloseAllPc} {choice : Choice}
    {r : Shared × CloseAllPc} (h : closeAllStep σ pc choice = some r) :
    CloseAllBranch σ pc choice r := by
  cases pc with
  | start =>
    cases choice with
    | go =>
      obtain rfl := Option.some.inj h
      exact .start
    | fail | visit key | count n => simp [closeAllStep] at h
  | scan sc entries =>
    cases choice with
    | visit key =>
      simp only [closeAllStep] at h
      split at h
      · simp at h
      · obtain rfl := Option.some.inj h
        exact .visit ‹_›
    | go =>
      simp only [closeAllStep] at h
      split at h
      · obtain rfl := Option.some.inj h
        exact .finish ‹_›
      · simp at h
    | fail | count n => simp [closeAllStep] at h
  | clear entries =>
    cases choice with
    | go =>
      obtain rfl := Option.some.inj h
      exact .clear
    | fail | visit key | count n => simp [closeAllStep] at h
  | beginClose e rest =>
    cases choice with
    | go =>
      obtain rfl := Option.some.inj h
      by_cases hw : (σ.heap e).activeLeases = 0
      · simpa [beginClose, hw] using CloseAllBranch.beginClose hw
      · simpa [beginClose, hw] using CloseAllBranch.beginCloseFailed hw
    | fail | visit key | count n => simp [closeAllStep] at h
  | close e pc rest =>
    cases choice with
    | go =>
      have hclose := closeStep_branch σ e pc
      simp only [closeAllStep] at h
      split at h
      all_goals
        rename_i hstep
        rw [hstep] at hclose
        obtain rfl := Option.some.inj h
      · exact .closeNext hclose
      · exact .closeDone hclose
    | fail | visit key | count n => simp [closeAllStep] at h
  | done => simp [closeAllStep] at h

/-! ## A task -/

/-- The branches of `Task.step`. -/
inductive TaskBranch (settings : DatabaseSettings) (σ : Shared) :
    Task → Choice → Shared × Task × List Task → Prop where
  | acquire {call pc choice σ' call' pc' spawned}
      (h : AcquireBranch settings σ call pc choice (σ', call', pc', spawned)) :
    TaskBranch settings σ (.acquire call pc) choice
      (σ', .acquire call' pc', spawned.toList.map fun e => .closeEntry e (some .start))
  | cleanupIdle {pc choice σ' pc'} (h : CleanupBranch settings σ pc choice (σ', pc')) :
    TaskBranch settings σ (.cleanupIdle pc) choice (σ', .cleanupIdle pc', [])
  | checkpointWal {pc choice σ' pc'} (h : CheckpointBranch σ pc choice (σ', pc')) :
    TaskBranch settings σ (.checkpointWal pc) choice (σ', .checkpointWal pc', [])
  | closeEntry {e pc σ' pc'} (h : CloseBranch σ e pc (σ', pc')) :
    TaskBranch settings σ (.closeEntry e (some pc)) .go (σ', .closeEntry e pc', [])
  | closeAll {pc choice σ' pc'} (h : CloseAllBranch σ pc choice (σ', pc')) :
    TaskBranch settings σ (.closeAll pc) choice (σ', .closeAll pc', [])

theorem Task.step_branch {settings : DatabaseSettings} {σ : Shared} {t : Task} {choice : Choice}
    {r : Shared × Task × List Task} (h : t.step settings σ choice = some r) :
    TaskBranch settings σ t choice r := by
  cases t with
  | acquire call pc =>
    obtain ⟨_, hstep, rfl⟩ := Option.map_eq_some_iff.mp h
    exact .acquire (acquireStep_branch hstep)
  | cleanupIdle pc =>
    obtain ⟨_, hstep, rfl⟩ := Option.map_eq_some_iff.mp h
    exact .cleanupIdle (cleanupStep_branch hstep)
  | checkpointWal pc =>
    obtain ⟨_, hstep, rfl⟩ := Option.map_eq_some_iff.mp h
    exact .checkpointWal (checkpointStep_branch hstep)
  | closeEntry e pc =>
    cases pc with
    | none => simp [Task.step] at h
    | some pc =>
      cases choice with
      | go =>
        obtain rfl := Option.some.inj h
        exact .closeEntry (closeStep_branch σ e pc)
      | fail | visit key | count n => simp [Task.step] at h
  | closeAll pc =>
    obtain ⟨_, hstep, rfl⟩ := Option.map_eq_some_iff.mp h
    exact .closeAll (closeAllStep_branch hstep)

/-- The branches of `Task.cancel`. -/
inductive TaskCancelBranch (σ : Shared) : Task → Shared × Task → Prop where
  | acquire {call pc σ' pc'} (h : AcquireCancelBranch σ pc (σ', pc')) :
    TaskCancelBranch σ (.acquire call pc) (σ', .acquire call pc')
  | cleanupIdle {e pc rest closed} (hpc : pc ≠ .start) :
    TaskCancelBranch σ (.cleanupIdle (.close e pc rest closed)) (σ, .cleanupIdle (.done none))
  | checkpointWal {e rest n} :
    TaskCancelBranch σ (.checkpointWal (.pragma e rest n)) (σ, .checkpointWal (.abort e .touch))

theorem Task.cancel_branch {σ : Shared} {t : Task} {r : Shared × Task}
    (h : t.cancel σ = some r) : TaskCancelBranch σ t r := by
  cases t with
  | acquire call pc =>
    obtain ⟨_, hstep, rfl⟩ := Option.map_eq_some_iff.mp h
    exact .acquire (acquireCancel_branch hstep)
  | cleanupIdle pc =>
    obtain ⟨_, hstep, rfl⟩ := Option.map_eq_some_iff.mp h
    obtain ⟨e, pc', rest, closed, rfl, hpc, rfl⟩ := cleanupCancel_eq_some hstep
    exact .cleanupIdle hpc
  | checkpointWal pc =>
    obtain ⟨_, hstep, rfl⟩ := Option.map_eq_some_iff.mp h
    obtain ⟨e, rest, n, rfl, rfl⟩ := checkpointCancel_eq_some hstep
    exact .checkpointWal
  | closeEntry e pc | closeAll pc => simp [Task.cancel] at h

end Tinkiva.Manager
