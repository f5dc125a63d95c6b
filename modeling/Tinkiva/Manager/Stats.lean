import Tinkiva.Lib.Survey
import Tinkiva.Lib.TaskIndices
import Tinkiva.Manager.Capacity
import Tinkiva.Manager.Coherence
import Tinkiva.Manager.Leases
import Tinkiva.Metrics.Render

/-!
# What `stats` reports

`DatabaseManager::stats` of `src/src/db.rs`, which `/v1/admin/stats` and the gauges of
`/v1/admin/metrics` show.  It takes no lock of its own: `entries.len()` reads the shards of
the map one after the other, the sum of the leases iterates over the map, and the permits
are one load.  The manager goes on meanwhile, so the numbers are of different moments.

`stats` reads and writes nothing else, so one call beside the manager stands for any number
of calls (`stating`).  A `StatsWatch` sees what was linked, leased and taken since the call
has begun, and `stats_between` says that every number is between what was there all the time
and what was there at some time.  `stats_over` is a report that no moment bears out.
-/

namespace Tinkiva.Manager

open Tinkiva.Config ConcurrentMap TaskPool SentinelCounter

variable {settings : DatabaseSettings} {s s' : State}

/-! ## `DatabaseManager::stats` -/

/-- `len` is the count of the shards, `iter` the iterator of the sum, and `slots` the load of
the permits. -/
inductive StatsPc where
  | start
  | len (scan : Scan String EntryId)
  | iter (openDatabases : Nat) (scan : Scan String EntryId) (activeLeases : Nat)
  | slots (openDatabases activeLeases : Nat)
  | done (stats : Metrics.ManagerStats)
  deriving DecidableEq

/-- One step of `stats`. -/
def statsStep (settings : DatabaseSettings) (σ : Shared) : StatsPc → Choice → Option StatsPc
  | .start, .go => some (.len (.start σ.entries))
  | .len sc, .visit name =>
    match sc.visit σ.entries name with
    | none => none
    | some (_, sc') => some (.len sc')
  | .len sc, .go =>
    if sc.finished σ.entries then some (.iter sc.seen.length (.start σ.entries) 0) else none
  | .iter n sc leases, .visit name =>
    match sc.visit σ.entries name with
    | none => none
    | some (e, sc') =>
      let word := (σ.heap e).activeLeases
      some (.iter n sc' (if word ≠ CLOSED then leases + word else leases))
  | .iter n sc leases, .go =>
    if sc.finished σ.entries then some (.slots n leases) else none
  | .slots n leases, .go =>
    some (.done ⟨n, leases, settings.maxOpenDatabases, σ.slots, settings.maxConcurrentRequests⟩)
  | _, _ => none

inductive StatsAction where
  | manager (action : Action)
  | stats (choice : Choice)
  deriving DecidableEq, Repr

/-- The manager, and a call of `stats` beside it. -/
def stating (settings : DatabaseSettings) : StepSystem (State × StatsPc) StatsAction where
  init := ((manager settings).init, .start)
  step p
    | .manager action => (p.1.step settings action).map fun s => (s, p.2)
    | .stats choice => (statsStep settings p.1.shared p.2 choice).map fun pc => (p.1, pc)

/-! ## What there is to report -/

/-- The linked entries, with their names. -/
def State.linked (s : State) : Finset (String × EntryId) := (bindings s.shared.entries).toFinset

/-- The leases on linked entries: an entry with its name, and the index of a task that has a
lease on it. -/
def State.linkedLeases (s : State) : Finset ((String × EntryId) × Nat) :=
  (s.linked ×ˢ Finset.range s.tasks.length).filter fun x =>
    (s.tasks[x.2]?).any fun t => t.lease = some x.1.2

/-- The tasks that have a process permit. -/
def State.permits (s : State) : Finset Nat := indices (fun t => t.processSlot) s.tasks

theorem mem_linked {name : String} {e : EntryId} :
    (name, e) ∈ s.linked ↔ s.shared.entries.lookup name = some e := by
  rw [State.linked, List.mem_toFinset, mem_bindings]

theorem linked_of_lease {x : (String × EntryId) × Nat} (h : x ∈ s.linkedLeases) :
    x.1 ∈ s.linked := by
  rw [State.linkedLeases, Finset.mem_filter, Finset.mem_product] at h
  exact h.1.1

/-- One entry is linked under a name. -/
theorem card_linked_name {name : String} {e : EntryId}
    (hl : s.shared.entries.lookup name = some e) :
    (s.linked.filter fun b => b.1 = name).card = 1 := by
  rw [Finset.card_eq_one]
  refine ⟨(name, e), ?_⟩
  ext ⟨other, e'⟩
  rw [Finset.mem_filter, mem_linked, Finset.mem_singleton]
  constructor
  · rintro ⟨hl', rfl⟩
    rw [Option.some.inj (hl'.symm.trans hl)]
  · intro heq
    obtain ⟨rfl, rfl⟩ := Prod.mk.inj heq
    exact ⟨hl, rfl⟩

/-- The leases under a name are those on the entry. -/
theorem card_leases_name {name : String} {e : EntryId}
    (hl : s.shared.entries.lookup name = some e) :
    (s.linkedLeases.filter fun x => x.1.1 = name).card = s.holders e := by
  have himage : (s.linkedLeases.filter fun x => x.1.1 = name) =
      (indices (fun t => decide (t.lease = some e)) s.tasks).image fun i => ((name, e), i) := by
    ext ⟨⟨other, e'⟩, i⟩
    rw [Finset.mem_filter, State.linkedLeases, Finset.mem_filter, Finset.mem_product, mem_linked,
      Finset.mem_image]
    constructor
    · rintro ⟨⟨⟨hl', _⟩, hlease⟩, rfl⟩
      obtain rfl := Option.some.inj (hl'.symm.trans hl)
      obtain ⟨t, ht, hlease⟩ := (Option.any_eq_true _ _).mp hlease
      exact ⟨i, mem_indices.mpr ⟨t, ht, hlease⟩, rfl⟩
    · rintro ⟨j, hj, heq⟩
      obtain ⟨hb, rfl⟩ := Prod.mk.inj heq
      obtain ⟨rfl, rfl⟩ := Prod.mk.inj hb
      obtain ⟨t, ht, hlease⟩ := mem_indices.mp hj
      obtain ⟨hlt, _⟩ := List.getElem?_eq_some_iff.mp ht
      exact ⟨⟨⟨hl, Finset.mem_range.mpr hlt⟩, (Option.any_eq_true _ _).mpr ⟨t, ht, hlease⟩⟩, rfl⟩
  rw [himage, Finset.card_image_of_injective, card_indices, State.holders]
  intro i j hij
  exact (Prod.mk.inj hij).2

/-! ## The watch -/

/-- What was there to report since a call of `stats` has begun. -/
structure StatsWatch where
  linked : Watch (String × EntryId)
  leases : Watch ((String × EntryId) × Nat)
  permits : Watch Nat

/-- The call has not begun. -/
def StatsWatch.start (s : State) : StatsWatch :=
  ⟨.start s.linked, .start s.linkedLeases, .start s.permits⟩

def StatsWatch.note (w : StatsWatch) (s : State) : StatsWatch :=
  ⟨w.linked.note s.linked, w.leases.note s.linkedLeases, w.permits.note s.permits⟩

/-- The manager, a call of `stats`, and the watch. -/
def stated (settings : DatabaseSettings) :
    StepSystem ((State × StatsPc) × StatsWatch) StatsAction :=
  (stating settings).observe (.start (manager settings).init) fun w p _ p' =>
    if p.2 = .start then .start p'.1 else w.note p'.1

/-- The state is between the parts of the watch. -/
structure StatsWatch.Covers (w : StatsWatch) (s : State) : Prop where
  linked : w.linked.Covers s.linked
  leases : w.leases.Covers s.linkedLeases
  permits : w.permits.Covers s.permits

/-- How far the report is right. -/
def StatsWatch.Reports (settings : DatabaseSettings) (w : StatsWatch) : StatsPc → Prop
  | .start => True
  | .len sc => w.linked.Surveyed Prod.fst sc.seen sc.seen.length ∧
    ∀ b ∈ w.linked.always, b ∈ sc.initial
  | .iter n sc leases => w.linked.Bounds n ∧
    w.leases.Surveyed (fun x => x.1.1) sc.seen leases ∧ ∀ x ∈ w.leases.always, x.1 ∈ sc.initial
  | .slots n leases => w.linked.Bounds n ∧ w.leases.Bounds leases
  | .done stats => w.linked.Bounds stats.openDatabases ∧ w.leases.Bounds stats.activeLeases ∧
    (∃ taken, w.permits.Bounds taken ∧
      stats.availableRequestSlots + taken = settings.maxConcurrentRequests) ∧
    stats.maxOpenDatabases = settings.maxOpenDatabases ∧
    stats.maxConcurrentRequests = settings.maxConcurrentRequests

theorem StatsWatch.Covers.start (s : State) : (StatsWatch.start s).Covers s :=
  ⟨.start _, .start _, .start _⟩

theorem StatsWatch.Covers.note (w : StatsWatch) (s : State) : (w.note s).Covers s :=
  ⟨.note _ _, .note _ _, .note _ _⟩

/-- The manager goes on, and what has been reported stays right. -/
theorem StatsWatch.Reports.note {w : StatsWatch} {pc : StatsPc} (h : w.Reports settings pc)
    (s : State) : (w.note s).Reports settings pc := by
  cases pc with
  | start => trivial
  | len sc => exact ⟨h.1.note _, fun b hb => h.2 b (Finset.mem_inter.mp hb).1⟩
  | iter n sc leases =>
    exact ⟨h.1.note _, h.2.1.note _, fun x hx => h.2.2 x (Finset.mem_inter.mp hx).1⟩
  | slots n leases => exact ⟨h.1.note _, h.2.note _⟩
  | done stats =>
    obtain ⟨hlinked, hleases, ⟨taken, hpermits, hsum⟩, hmax⟩ := h
    exact ⟨hlinked.note _, hleases.note _, ⟨taken, hpermits.note _, hsum⟩, hmax⟩

/-- What a step of the iterator adds is what is leased under the name. -/
theorem leases_visited (hreach : (manager settings).Reachable s) {name : String} {e : EntryId}
    (hl : s.shared.entries.lookup name = some e) (leases : Nat) :
    (if (s.shared.heap e).activeLeases ≠ CLOSED then leases + (s.shared.heap e).activeLeases
      else leases) = leases + (s.linkedLeases.filter fun x => x.1.1 = name).card := by
  rw [card_leases_name hl]
  have hcounts := counts_holders hreach e
  split
  · rename_i hopen
    rw [hcounts.eq_of_ne hopen]
  · rename_i hclosed
    rw [hcounts.of_closed (not_not.mp hclosed), Nat.add_zero]

/-- A step of `stats` reports what is there. -/
theorem StatsWatch.Reports.step (hreach : (manager settings).Reachable s) {w : StatsWatch}
    (hw : w.Covers s) {pc pc' : StatsPc} (h : w.Reports settings pc) {choice : Choice}
    (hstart : pc = .start → w = .start s)
    (hstep : statsStep settings s.shared pc choice = some pc') : w.Reports settings pc' := by
  unfold statsStep at hstep
  split at hstep
  · obtain rfl := Option.some.inj hstep
    obtain rfl := hstart rfl
    refine ⟨.start _ _, fun b hb => ?_⟩
    exact List.mem_toFinset.mp hb
  · split at hstep
    · simp at hstep
    · rename_i name _ e sc' hvisit
      obtain rfl := Option.some.inj hstep
      obtain ⟨hl, hseen, rfl⟩ := Scan.visit_eq_some hvisit
      exact ⟨h.1.visit hw.linked hseen (card_linked_name hl), h.2⟩
  · split at hstep
    · rename_i sc hfinished
      obtain rfl := Option.some.inj hstep
      refine ⟨h.1.bounds fun b hb => ?_, .start _ _, fun x hx => ?_⟩
      · exact Scan.seen_of_finished hfinished (h.2 b hb) (mem_linked.mp (hw.linked.always hb))
      · exact List.mem_toFinset.mp (linked_of_lease (hw.leases.always hx))
    · simp at hstep
  · split at hstep
    · simp at hstep
    · rename_i name _ e sc' hvisit
      obtain rfl := Option.some.inj hstep
      obtain ⟨hl, hseen, rfl⟩ := Scan.visit_eq_some hvisit
      refine ⟨h.1, ?_, h.2.2⟩
      rw [leases_visited hreach hl]
      exact h.2.1.visit hw.leases hseen rfl
  · split at hstep
    · rename_i n sc leases hfinished
      obtain rfl := Option.some.inj hstep
      refine ⟨h.1, h.2.1.bounds fun x hx => ?_⟩
      exact Scan.seen_of_finished hfinished (h.2.2 x hx)
        (mem_linked.mp (linked_of_lease (hw.leases.always hx)))
    · simp at hstep
  · obtain rfl := Option.some.inj hstep
    refine ⟨h.1, h.2, ⟨s.permits.card, hw.permits.bounds, ?_⟩, rfl, rfl⟩
    rw [State.permits, card_indices]
    exact slots_eq hreach
  · simp at hstep

/-- `stats` does not begin again. -/
theorem statsStep_ne_start {σ : Shared} {pc pc' : StatsPc} {choice : Choice}
    (hstep : statsStep settings σ pc choice = some pc') : pc' ≠ .start := by
  rintro rfl
  unfold statsStep at hstep
  split at hstep
  · simp at hstep
  · split at hstep <;> simp at hstep
  · split at hstep <;> simp at hstep
  · split at hstep <;> simp at hstep
  · split at hstep <;> simp at hstep
  · simp at hstep
  · simp at hstep

/-- The watch of a state: `Reports` is what holds of the report, and the watch begins with
the call. -/
structure StatsWatch.Right (settings : DatabaseSettings) (s : State) (pc : StatsPc)
    (w : StatsWatch) : Prop where
  covers : w.Covers s
  reports : w.Reports settings pc
  start : pc = .start → w = .start s

/-- The manager takes a step. -/
theorem StatsWatch.Right.beside {pc : StatsPc} {w : StatsWatch} (h : w.Right settings s pc)
    (s' : State) : (if pc = .start then StatsWatch.start s' else w.note s').Right settings s' pc := by
  by_cases hpc : pc = .start
  · subst hpc
    exact ⟨.start _, trivial, fun _ => rfl⟩
  · rw [if_neg hpc]
    exact ⟨.note _ _, h.reports.note _, fun hstart => absurd hstart hpc⟩

/-- `stats` takes a step. -/
theorem StatsWatch.Right.own (hreach : (manager settings).Reachable s) {pc pc' : StatsPc}
    {w : StatsWatch} (h : w.Right settings s pc) {choice : Choice}
    (hstep : statsStep settings s.shared pc choice = some pc') :
    (if pc = .start then StatsWatch.start s else w.note s).Right settings s pc' := by
  have hnext := h.reports.step hreach h.covers h.start hstep
  have hne := statsStep_ne_start hstep
  by_cases hpc : pc = .start
  · rw [if_pos hpc, ← h.start hpc]
    exact ⟨h.covers, hnext, fun hstart => absurd hstart hne⟩
  · rw [if_neg hpc]
    exact ⟨.note _ _, hnext.note _, fun hstart => absurd hstart hne⟩

theorem reachable_right {p : (State × StatsPc) × StatsWatch} (h : (stated settings).Reachable p) :
    (manager settings).Reachable p.1.1 ∧ p.2.Right settings p.1.1 p.1.2 := by
  let I : (State × StatsPc) × StatsWatch → Prop := fun p =>
    (manager settings).Reachable p.1.1 ∧ p.2.Right settings p.1.1 p.1.2
  suffices hI : I p from hI
  apply h.invariant
  · exact ⟨.refl, .start _, trivial, fun _ => rfl⟩
  · rintro ⟨⟨s, pc⟩, w⟩ a ⟨⟨s', pc'⟩, w'⟩ _ ⟨hreach, hright⟩ _ hstep
    obtain ⟨hstep, hwatch⟩ := StepSystem.observe_step.mp hstep
    obtain rfl : w' = if pc = .start then .start s' else w.note s' := hwatch
    cases a with
    | manager action =>
      obtain ⟨s₁, hs, heq⟩ := Option.map_eq_some_iff.mp hstep
      obtain ⟨rfl, rfl⟩ : s₁ = s' ∧ pc = pc' := Prod.mk.inj heq
      exact ⟨hreach.step trivial hs, hright.beside s₁⟩
    | stats choice =>
      obtain ⟨pc₁, hs, heq⟩ := Option.map_eq_some_iff.mp hstep
      obtain ⟨rfl, rfl⟩ : s = s' ∧ pc₁ = pc' := Prod.mk.inj heq
      exact ⟨hreach, hright.own hreach hs⟩

/-- In every run, however the manager goes on during a call of `stats`: what the call reports
as open is at least the number of the entries that were linked from its start on, and at most
the number of those that were linked at some time.  The same holds of the leases on linked
entries, and of the process permits that are not reported as available. -/
theorem stats_between {p : (State × StatsPc) × StatsWatch} {stats : Metrics.ManagerStats}
    (h : (stated settings).Reachable p) (hdone : p.1.2 = .done stats) :
    p.2.linked.Bounds stats.openDatabases ∧ p.2.leases.Bounds stats.activeLeases ∧
    (∃ taken, p.2.permits.Bounds taken ∧
      stats.availableRequestSlots + taken = settings.maxConcurrentRequests) ∧
    stats.maxOpenDatabases = settings.maxOpenDatabases ∧
    stats.maxConcurrentRequests = settings.maxConcurrentRequests := by
  have hreports := (reachable_right h).2.reports
  rw [hdone] at hreports
  exact hreports

/-- A call of `stats` that has counted `a` when `a` is evicted for `b`, and then counts `b`. -/
def duringEviction : List StatsAction :=
  (coldAcquire 0 "a" 0 ++ dropLease 0).map .manager ++ [.stats .go, .stats (.visit "a")] ++
    (evictingAcquire 1 "b" "a").map .manager ++
    [.stats (.visit "b"), .stats .go, .stats (.visit "b"), .stats .go, .stats .go]

/-- `stats` can report more open databases than the capacity allows, although no moment has
more. -/
theorem stats_over :
    ((stated oneDatabase).play (fun _ _ => true) duringEviction).1.2 =
      .done ⟨2, 1, 1, 511, 512⟩ := by
  decide

theorem stats_between_evicting :
    2 ≤ ((stated oneDatabase).play (fun _ _ => true) duringEviction).2.linked.ever.card :=
  (stats_between (StepSystem.reachable_play (fun _ _ _ => trivial) duringEviction)
    stats_over).1.upper

end Tinkiva.Manager
