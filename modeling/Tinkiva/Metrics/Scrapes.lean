import Tinkiva.Metrics.Cumulative

/-!
# What a scrape shows

A `render` loads its series one after the other while records go on, so what it prints is
no state of the histogram.  Two things are true of it all the same.

The series are numbered: the buckets, the count and the sum.  `State.total` is what the
records of a run have added to a series, without the limit of a counter.

* `histogram_exact` says that a series is its total, cut to 64 bits, and what the totals
  are when no record is under way.
* `scrape_between` bounds what a `render` prints: each value was a total at a moment
  between its start and its end.  So no value of a scrape is less than that of an earlier
  one (`scrapes_monotone`), which is what a counter promises to whoever takes its rate.
-/

namespace Tinkiva.Metrics

open TaskPool

/-! ## The series -/

/-- The number of the last series, the sum. -/
def SUM : Nat := BUCKETS.length + 1

/-- A series of the histogram: a bucket, the count or the sum. -/
def Histogram.read (h : Histogram) (k : Nat) : Nat :=
  if k ≤ BUCKETS.length then h.cell k else h.totalMicros

/-- What a record adds to a series. -/
def weight (elapsed k : Nat) : Nat :=
  if k ≤ BUCKETS.length then (covers elapsed k).toNat else elapsed / 1000 % 2 ^ 64

/-- What a record has added to a series. -/
def Task.added (k : Nat) : Task → Nat
  | .record elapsed pc => if k < position pc then weight elapsed k else 0
  | .render _ => 0

/-- What the records of a state have added to a series. -/
def State.total (s : State) (k : Nat) : Nat := tally (Task.added k) s.tasks

theorem fetchAdd_zero {cell : Nat} (h : cell < 2 ^ 64) : fetchAdd cell 0 = cell :=
  Nat.mod_eq_of_lt h

theorem fetchAdd_mod (m n : Nat) : fetchAdd (m % 2 ^ 64) n = (m + n) % 2 ^ 64 :=
  Nat.mod_add_mod m _ n

/-- What one step of a record does to a series. -/
theorem read_recordStep {h : Histogram} {elapsed k : Nat} {pc : RecordPc} (hk : k ≤ SUM)
    (hfits : h.read k < 2 ^ 64) :
    (recordStep h elapsed pc).1.read k =
      if k = position (some pc) then fetchAdd (h.read k) (weight elapsed k) else h.read k := by
  by_cases hcell : k ≤ BUCKETS.length
  · simp only [Histogram.read, weight, if_pos hcell] at hfits ⊢
    rw [cell_recordStep h elapsed pc hcell]
    by_cases hhere : k = position (some pc)
    · rw [if_pos hhere]
      cases hcovers : covers elapsed k with
      | true => simp [hhere]
      | false => simp [fetchAdd_zero hfits]
    · rw [if_neg hhere, if_neg fun h => hhere h.1]
  · simp only [Histogram.read, weight, if_neg hcell]
    have hsum : k = BUCKETS.length + 1 := by
      simp only [SUM] at hk
      omega
    cases pc with
    | bucket index =>
      rw [if_neg]
      · simp only [recordStep]
        split <;> rfl
      · have := index.isLt
        simp only [position]
        omega
    | count =>
      rw [if_neg]
      · rfl
      · simp only [position]
        omega
    | totalMicros =>
      rw [if_pos (show k = position (some .totalMicros) from hsum)]
      rfl

/-- What a step of a record adds to a series. -/
theorem added_step (h : Histogram) (elapsed k : Nat) (pc : RecordPc) :
    Task.added k (.record elapsed (recordStep h elapsed pc).2) =
      Task.added k (.record elapsed (some pc)) +
        if k = position (some pc) then weight elapsed k else 0 := by
  simp only [Task.added, position_recordStep]
  split_ifs <;> omega

/-- A new record has added nothing. -/
theorem added_start (elapsed k : Nat) :
    Task.added k (.record elapsed (some (.at 0))) = 0 := by
  simp [Task.added, position_at]

/-! ## The totals -/

/-- What a step does to a total and to its series. -/
theorem State.step_total {s s' : State} {a : Action} {k : Nat} (h : s.step a = some s')
    (hk : k ≤ SUM) (hfits : s.histogram.read k < 2 ^ 64) :
    ∃ n, s'.total k = s.total k + n ∧ s'.histogram.read k = fetchAdd (s.histogram.read k) n := by
  have hzero := fetchAdd_zero hfits
  rcases State.step_cases h with ⟨elapsed, rfl, rfl⟩ | ⟨rfl, rfl⟩ |
    ⟨i, elapsed, pc, rfl, hi, rfl⟩ | ⟨i, pc, pc', rfl, hi, hpc, rfl⟩
  · refine ⟨0, ?_, hzero.symm⟩
    simp only [State.total, tally_append, tally_cons, tally_nil, added_start]
    rfl
  · refine ⟨0, ?_, hzero.symm⟩
    simp only [State.total, tally_append, tally_cons, tally_nil, Task.added]
    rfl
  · have hbal := tally_update (Task.added k)
      (.record elapsed (recordStep s.histogram elapsed pc).2) [] hi
    rw [added_step, tally_nil] at hbal
    have hread := @read_recordStep s.histogram elapsed k pc hk hfits
    by_cases hhere : k = position (some pc)
    · rw [if_pos hhere] at hbal hread
      exact ⟨weight elapsed k, by simp only [State.total]; omega, hread⟩
    · rw [if_neg hhere] at hbal hread
      exact ⟨0, by simp only [State.total]; omega, by rw [hzero]; exact hread⟩
  · have hbal := tally_update (Task.added k) (.render pc') [] hi
    simp only [Task.added, tally_nil] at hbal
    exact ⟨0, by simp only [State.total]; omega, hzero.symm⟩

/-- A series is its total, cut to 64 bits. -/
theorem read_eq {s : State} (h : histogram.Reachable s) {k : Nat} (hk : k ≤ SUM) :
    s.histogram.read k = s.total k % 2 ^ 64 := by
  refine h.invariant (I := fun s => s.histogram.read k = s.total k % 2 ^ 64) ?_ ?_
  · simp [histogram, Histogram.read, Histogram.cell, Histogram.default, State.total]
  · intro s a s' _ hread _ hstep
    have hfits : s.histogram.read k < 2 ^ 64 := hread ▸ Nat.mod_lt _ (by decide)
    obtain ⟨n, htotal, hread'⟩ := State.step_total hstep hk hfits
    rw [hread', htotal, hread, fetchAdd_mod]

/-- A total does not go down. -/
theorem total_mono {s s' : State} {a : Action} (hreach : histogram.Reachable s)
    (h : s.step a = some s') {k : Nat} (hk : k ≤ SUM) : s.total k ≤ s'.total k := by
  have hfits : s.histogram.read k < 2 ^ 64 := read_eq hreach hk ▸ Nat.mod_lt _ (by decide)
  obtain ⟨n, htotal, _⟩ := State.step_total h hk hfits
  omega

/-- A run keeps the totals or makes them greater. -/
theorem total_run {s s' : State} (hreach : histogram.Reachable s)
    (h : histogram.RunFrom (fun _ _ => True) s s') {k : Nat} (hk : k ≤ SUM) :
    s.total k ≤ s'.total k := by
  refine h.invariant (I := fun s' => s.total k ≤ s'.total k) (Nat.le_refl _) ?_
  intro t a t' hr hle _ hstep
  exact Nat.le_trans hle (total_mono (hreach.trans hr) hstep hk)

/-! ## At rest -/

/-- A record that is not over. -/
def Task.underWay : Task → Bool
  | .record _ (some _) => true
  | .record _ none | .render _ => false

/-- The time that a record is about. -/
def Task.elapsed : Task → Option Nat
  | .record elapsed _ => some elapsed
  | .render _ => none

/-- What has been recorded. -/
def State.durations (s : State) : List Nat := s.tasks.filterMap Task.elapsed

theorem total_at_rest {s : State} (h : ∀ t ∈ s.tasks, t.underWay = false) {k : Nat}
    (hk : k ≤ SUM) : s.total k = (s.durations.map fun elapsed => weight elapsed k).sum := by
  rw [State.total, State.durations]
  generalize s.tasks = ts at h
  induction ts with
  | nil => rfl
  | cons t ts ih =>
    have hrest := ih fun u hu => h u (List.mem_cons_of_mem t hu)
    rw [tally_cons, hrest]
    cases t with
    | record elapsed pc =>
      cases pc with
      | some pc => exact absurd (h _ List.mem_cons_self) (by simp [Task.underWay])
      | none =>
        have hpast : k < position none := Nat.lt_succ_of_le hk
        simp [Task.added, Task.elapsed, hpast]
    | render pc =>
      rw [List.filterMap_cons]
      exact Nat.zero_add _

theorem sum_weight_bucket {k bound : Nat} (hbound : BUCKETS[k]? = some bound)
    (durations : List Nat) :
    (durations.map fun elapsed => weight elapsed k).sum =
      durations.countP fun elapsed => decide (elapsed ≤ bound) := by
  have hk : k ≤ BUCKETS.length := Nat.le_of_lt (List.getElem?_eq_some_iff.mp hbound).1
  have hweight (elapsed : Nat) : weight elapsed k = (decide (elapsed ≤ bound)).toNat := by
    rw [weight, if_pos hk, covers, hbound, Option.all_some]
  simp only [hweight, countP_eq_tally, tally]

theorem sum_weight_count (durations : List Nat) :
    (durations.map fun elapsed => weight elapsed BUCKETS.length).sum = durations.length := by
  have hweight (elapsed : Nat) : weight elapsed BUCKETS.length = 1 := rfl
  simp [hweight]

/-- The histogram is exact.  In every run a series is what the records have added to it, cut
to 64 bits.  When no record is under way, a bucket has the records that took no longer than
its bound, the count has all of them, and the sum has their microseconds. -/
theorem histogram_exact {s : State} (h : histogram.Reachable s) :
    (∀ k ≤ SUM, s.histogram.read k = s.total k % 2 ^ 64) ∧
    ((∀ t ∈ s.tasks, t.underWay = false) →
      (∀ k bound, BUCKETS[k]? = some bound →
        s.total k = s.durations.countP fun elapsed => decide (elapsed ≤ bound)) ∧
      s.total BUCKETS.length = s.durations.length ∧
      s.total SUM = (s.durations.map fun elapsed => elapsed / 1000 % 2 ^ 64).sum) := by
  refine ⟨fun k hk => read_eq h hk, fun hrest => ⟨fun k bound hbound => ?_, ?_, ?_⟩⟩
  · have hk : k ≤ SUM :=
      Nat.le_of_lt (Nat.lt_succ_of_lt (List.getElem?_eq_some_iff.mp hbound).1)
    rw [total_at_rest hrest hk, sum_weight_bucket hbound]
  · rw [total_at_rest hrest (Nat.le_succ _), sum_weight_count]
  · rw [total_at_rest hrest (Nat.le_refl _)]
    rfl

/-- Records of half a millisecond and of a second, one behind the other. -/
def twoRecords : List Action :=
  .record 500000 :: List.replicate 14 (.step 0) ++ .record 1000000000 :: List.replicate 14 (.step 1)

theorem histogram_exact_two :
    ((histogram.play (fun _ _ => true) twoRecords).histogram.read 0,
      (histogram.play (fun _ _ => true) twoRecords).histogram.read SUM) = (1, 1000500) ∧
    (histogram.play (fun _ _ => true) twoRecords).histogram.read 0 =
      (histogram.play (fun _ _ => true) twoRecords).total 0 % 2 ^ 64 ∧
    (histogram.play (fun _ _ => true) twoRecords).total BUCKETS.length =
      (histogram.play (fun _ _ => true) twoRecords).durations.length := by
  have hexact := histogram_exact (s := histogram.play (fun _ _ => true) twoRecords)
    (StepSystem.reachable_play (fun _ _ _ => trivial) twoRecords)
  exact ⟨by decide, hexact.1 0 (by decide), (hexact.2 (by decide)).2.1⟩

/-! ## Between two moments -/

/-- The values that a `render` has loaded, in the order of the series. -/
def RenderPc.values : RenderPc → List Nat
  | .bucket _ buckets => buckets
  | .count buckets => buckets
  | .totalMicros buckets total => buckets ++ [total]
  | .done rendered => rendered.buckets ++ [rendered.count] ++ [rendered.totalMicros]

/-- The series that a `render` loads next. -/
def RenderPc.next : RenderPc → Nat
  | .bucket index _ => index
  | .count _ => BUCKETS.length
  | .totalMicros _ _ => SUM
  | .done _ => SUM + 1

theorem values_at (index : Nat) (buckets : List Nat) :
    (RenderPc.at index buckets).values = buckets := by
  rw [RenderPc.at]
  split <;> rfl

theorem next_at {index : Nat} (h : index ≤ BUCKETS.length) (buckets : List Nat) :
    (RenderPc.at index buckets).next = index := by
  rw [RenderPc.at]
  split
  · rfl
  · rename_i hge
    exact Nat.le_antisymm (Nat.not_lt.mp hge) h

/-- A step of a `render` loads the next series. -/
theorem renderStep_values {h : Histogram} {pc pc' : RenderPc} (hstep : renderStep h pc = some pc') :
    pc.next ≤ SUM ∧ pc'.next = pc.next + 1 ∧ pc'.values = pc.values ++ [h.read pc.next] := by
  cases pc with
  | bucket index buckets =>
    obtain rfl := Option.some.inj hstep
    have hlt := index.isLt
    refine ⟨Nat.le_of_lt (Nat.lt_succ_of_lt hlt), next_at hlt _, ?_⟩
    rw [values_at]
    simp [RenderPc.values, RenderPc.next, Histogram.read, Histogram.cell, Nat.le_of_lt hlt, hlt]
  | count buckets =>
    obtain rfl := Option.some.inj hstep
    exact ⟨Nat.le_succ _, rfl, rfl⟩
  | totalMicros buckets count =>
    obtain rfl := Option.some.inj hstep
    exact ⟨Nat.le_refl _, rfl, rfl⟩
  | done rendered => simp [renderStep] at hstep

/-- Each value that a `render` has loaded was a total between two moments. -/
structure RenderPc.Between (s s' : State) (pc : RenderPc) : Prop where
  length : pc.values.length = pc.next
  values : ∀ k v, pc.values[k]? = some v →
    ∃ m, s.total k ≤ m ∧ m ≤ s'.total k ∧ v = m % 2 ^ 64

/-- A `render` that has begun. -/
theorem RenderPc.Between.start (s s' : State) : (RenderPc.at 0 []).Between s s' where
  length := rfl
  values := by
    intro k v hv
    rw [values_at] at hv
    simp at hv

/-- The second moment moves on. -/
theorem RenderPc.Between.later {s s' s'' : State} {pc : RenderPc} (h : pc.Between s s')
    (hlen : pc.next ≤ SUM + 1) (hmono : ∀ k ≤ SUM, s'.total k ≤ s''.total k) :
    pc.Between s s'' where
  length := h.length
  values := by
    intro k v hv
    obtain ⟨m, hlow, hhigh, hval⟩ := h.values k v hv
    have hk : k < pc.values.length := (List.getElem?_eq_some_iff.mp hv).1
    rw [h.length] at hk
    exact ⟨m, hlow, Nat.le_trans hhigh (hmono k (by omega)), hval⟩

/-- A `render` loads the next series. -/
theorem RenderPc.Between.load {s s' : State} {pc pc' : RenderPc} (h : pc.Between s s')
    (hreach : histogram.Reachable s') (hmono : ∀ k ≤ SUM, s.total k ≤ s'.total k)
    (hstep : renderStep s'.histogram pc = some pc') : pc'.Between s s' := by
  obtain ⟨hnext, hnext', hvalues⟩ := renderStep_values hstep
  constructor
  · rw [hvalues, hnext', List.length_append, h.length, List.length_singleton]
  · intro k v hv
    rw [hvalues] at hv
    rcases Nat.lt_or_ge k pc.values.length with hlt | hge
    · rw [List.getElem?_append_left hlt] at hv
      exact h.values k v hv
    · rw [List.getElem?_append_right hge, List.getElem?_singleton] at hv
      split at hv
      · obtain rfl := Option.some.inj hv
        have hlen := h.length
        obtain rfl : k = pc.next := by omega
        exact ⟨s'.total pc.next, hmono _ hnext, Nat.le_refl _, read_eq hreach hnext⟩
      · simp at hv

theorem next_le (pc : RenderPc) : pc.next ≤ SUM + 1 := by
  cases pc with
  | bucket index buckets =>
    have := index.isLt
    simp only [RenderPc.next, SUM]
    omega
  | count | totalMicros | done =>
    simp only [RenderPc.next, SUM]
    omega

/-- In a run, what a `render` that has started in it has loaded were totals of the run. -/
theorem between_run {s s' : State} (hreach : histogram.Reachable s)
    (h : histogram.RunFrom (fun _ _ => True) s s') :
    ∀ (i : Nat) (pc : RenderPc), s.tasks.length ≤ i → s'.tasks[i]? = some (.render pc) →
      pc.Between s s' := by
  refine h.invariant (I := fun s' => ∀ (i : Nat) (pc : RenderPc), s.tasks.length ≤ i →
    s'.tasks[i]? = some (.render pc) → pc.Between s s') ?_ ?_
  · intro i pc hge hi
    exact absurd (List.getElem?_eq_some_iff.mp hi).1 (Nat.not_lt.mpr hge)
  · intro t a t' hr hI _ hstep i pc hge hi
    have hreach' : histogram.Reachable t := hreach.trans hr
    have hmono : ∀ k ≤ SUM, t.total k ≤ t'.total k := fun k hk => total_mono hreach' hstep hk
    have hlater {pc : RenderPc} (hi : t.tasks[i]? = some (.render pc)) : pc.Between s t' :=
      (hI i pc hge hi).later (next_le pc) hmono
    rcases State.step_cases hstep with ⟨elapsed, rfl, rfl⟩ | ⟨rfl, rfl⟩ |
      ⟨j, elapsed, rpc, rfl, hj, rfl⟩ | ⟨j, rpc, rpc', rfl, hj, hpc, rfl⟩
    · rcases Nat.lt_or_ge i t.tasks.length with hlt | hge'
      · exact hlater ((List.getElem?_append_left hlt).symm.trans hi)
      · rw [List.getElem?_append_right hge'] at hi
        exact absurd (List.mem_singleton.mp (List.mem_of_getElem? hi)) Task.noConfusion
    · rcases Nat.lt_or_ge i t.tasks.length with hlt | hge'
      · exact hlater ((List.getElem?_append_left hlt).symm.trans hi)
      · rw [List.getElem?_append_right hge'] at hi
        obtain rfl := Task.render.inj (List.mem_singleton.mp (List.mem_of_getElem? hi))
        exact .start s _
    · by_cases hji : j = i
      · subst hji
        rw [getElem?_update_self hj] at hi
        exact absurd (Option.some.inj hi) Task.noConfusion
      · rw [update, List.append_nil, List.getElem?_set_ne hji] at hi
        exact hlater hi
    · by_cases hji : j = i
      · subst hji
        rw [getElem?_update_self hj] at hi
        obtain rfl := Task.render.inj (Option.some.inj hi)
        have hloaded := (hI j rpc hge hj).load hreach'
          (fun k hk => total_run hreach hr hk) hpc
        exact hloaded.later (next_le _) hmono
      · rw [update, List.append_nil, List.getElem?_set_ne hji] at hi
        exact hlater hi

/-- The values of a scrape, in the order of the series. -/
def Rendered.values (rendered : Rendered) : List Nat :=
  rendered.buckets ++ [rendered.count] ++ [rendered.totalMicros]

/-- A scrape has a value for every series, and each of them was the total of its series at a
moment between the start of the `render` and its end, cut to 64 bits. -/
theorem scrape_between {s s' : State} (hreach : histogram.Reachable s)
    (h : histogram.RunFrom (fun _ _ => True) s s') {i : Nat} {rendered : Rendered}
    (hnew : s.tasks.length ≤ i) (hi : s'.tasks[i]? = some (.render (.done rendered))) :
    rendered.values.length = SUM + 1 ∧
    ∀ k v, rendered.values[k]? = some v →
      ∃ m, s.total k ≤ m ∧ m ≤ s'.total k ∧ v = m % 2 ^ 64 := by
  have hbetween := between_run hreach h i _ hnew hi
  exact ⟨hbetween.length, hbetween.values⟩

/-- A scrape that begins when another one has ended shows nothing that is less, as long as the
totals fit into the counters. -/
theorem scrapes_monotone {s s' : State} (hreach : histogram.Reachable s)
    (h : histogram.RunFrom (fun _ _ => True) s s') (hfits : ∀ k ≤ SUM, s'.total k < 2 ^ 64)
    {i j : Nat} {first second : Rendered}
    (hi : s.tasks[i]? = some (.render (.done first))) (hnew : s.tasks.length ≤ j)
    (hj : s'.tasks[j]? = some (.render (.done second))) :
    List.Forall₂ (· ≤ ·) first.values second.values := by
  obtain ⟨hlen, hfirst⟩ := scrape_between (s := histogram.init) .refl hreach (Nat.zero_le i) hi
  obtain ⟨hlen', hsecond⟩ := scrape_between hreach h hnew hj
  refine List.forall₂_iff_get.mpr ⟨hlen.trans hlen'.symm, fun k hk hk' => ?_⟩
  obtain ⟨m, _, hm, hv⟩ := hfirst k _ (List.getElem?_eq_getElem hk)
  obtain ⟨m', hm', hle, hv'⟩ := hsecond k _ (List.getElem?_eq_getElem hk')
  have hfit : m' < 2 ^ 64 := Nat.lt_of_le_of_lt hle (hfits k (by omega))
  have hmm : m ≤ m' := Nat.le_trans hm hm'
  rw [Nat.mod_eq_of_lt (Nat.lt_of_le_of_lt hmm hfit)] at hv
  rw [Nat.mod_eq_of_lt hfit] at hv'
  simp only [List.get_eq_getElem, hv, hv']
  exact hmm

/-- A `render` while a record stands behind the first bucket. -/
def firstScrape : List Action :=
  [.record 500000, .step 0, .render] ++ List.replicate 14 (.step 1)

/-- The record goes on, and another `render` follows. -/
def secondScrape : List Action :=
  List.replicate 13 (.step 0) ++ .render :: List.replicate 14 (.step 2)

/-- The first of the two scrapes is below the second. -/
theorem scrapes_monotone_second :
    List.Forall₂ (· ≤ ·) (Rendered.mk (1 :: List.replicate 11 0) 0 0).values
      (Rendered.mk (List.replicate 12 1) 1 500).values := by
  have hreach : histogram.Reachable (histogram.play (fun _ _ => true) firstScrape) :=
    StepSystem.reachable_play (fun _ _ _ => trivial) firstScrape
  have hrun : histogram.RunFrom (fun _ _ => True) (histogram.play (fun _ _ => true) firstScrape)
      (histogram.playFrom (fun _ _ => true) (histogram.play (fun _ _ => true) firstScrape)
        secondScrape) :=
    StepSystem.runFrom_playFrom (fun _ _ _ => trivial) _ secondScrape
  exact scrapes_monotone (i := 1) (j := 2) hreach hrun (by decide) (by decide) (by decide)
    (by decide)

end Tinkiva.Metrics
