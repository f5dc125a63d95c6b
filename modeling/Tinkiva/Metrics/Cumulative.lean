import Tinkiva.Metrics.Histogram

/-!
# When a scrape is cumulative

`record` and `render` walk the buckets in the same direction and end with the count.  So
a `render` can load one bucket after a record has counted itself there, overtake the
record, and load the next bucket before it.  What it prints then goes down.

`Task.counted j` says that a record has added itself to cell `j`, where the count is the
cell behind the last bucket.  A cell is the number of records that are counted in it.
The watcher remembers, for every `render`, the records that were counted in the bucket
that it has loaded last (`watch`).  `wholeStep` is the condition: when the `render` loads
the next cell, none of these records still stands before that cell.  Then every cell
that it loads has at least the records of the cell before it (`Loaded.le_card`), and what
it prints is cumulative (`reachable_ordered`).
-/

namespace Tinkiva.Metrics

open TaskPool

/-! ## What a record has counted -/

/-- Whether a record adds itself to a cell.  The cell behind the buckets is the count. -/
def covers (elapsed j : Nat) : Bool := (BUCKETS[j]?).all fun bound => decide (elapsed ≤ bound)

/-- The bounds are in order, so a record that adds itself to a bucket adds itself to every
later cell. -/
theorem covers_mono {elapsed j k : Nat} (hjk : j ≤ k) (h : covers elapsed j = true) :
    covers elapsed k = true := by
  have hsorted : BUCKETS.Pairwise (· ≤ ·) := by decide
  rw [covers] at h ⊢
  cases hk : BUCKETS[k]? with
  | none => rfl
  | some bound =>
    obtain ⟨hk', rfl⟩ := List.getElem?_eq_some_iff.mp hk
    have hj' : j < BUCKETS.length := Nat.lt_of_le_of_lt hjk hk'
    rw [List.getElem?_eq_getElem hj'] at h
    have hle : BUCKETS[j] ≤ BUCKETS[k] := hsorted.rel_get_of_le (a := ⟨j, hj'⟩) (b := ⟨k, hk'⟩) hjk
    simp only [Option.all_some, decide_eq_true_eq] at h ⊢
    exact Nat.le_trans h hle

/-- The cell where a record stands. -/
def position : Option RecordPc → Nat
  | some (.bucket index) => index
  | some .count => BUCKETS.length
  | some .totalMicros => BUCKETS.length + 1
  | none => BUCKETS.length + 2

/-- A cell of the histogram. -/
def Histogram.cell (h : Histogram) (j : Nat) : Nat :=
  if hj : j < BUCKETS.length then h.buckets ⟨j, hj⟩ else h.count

theorem position_at {index : Nat} (h : index ≤ BUCKETS.length) :
    position (some (.at index)) = index := by
  rw [RecordPc.at]
  split
  · rfl
  · rename_i hge
    exact Nat.le_antisymm (Nat.not_lt.mp hge) h

/-- A step of `record` is a step to the next cell. -/
theorem position_recordStep (h : Histogram) (elapsed : Nat) (pc : RecordPc) :
    position (recordStep h elapsed pc).2 = position (some pc) + 1 := by
  cases pc with
  | bucket index => exact position_at index.isLt
  | count => rfl
  | totalMicros => rfl

theorem covers_bucket (elapsed : Nat) (index : Fin BUCKETS.length) :
    covers elapsed index = true ↔ elapsed ≤ BUCKETS.get index := by
  rw [covers, List.getElem?_eq_getElem index.isLt, Option.all_some, decide_eq_true_eq]
  rfl

theorem covers_count (elapsed : Nat) : covers elapsed BUCKETS.length = true := rfl

theorem cell_addBucket (h : Histogram) (index : Fin BUCKETS.length) (j : Nat) :
    (h.addBucket index).cell j = if j = index then fetchAdd (h.cell j) 1 else h.cell j := by
  by_cases hj : j = index.val
  · subst hj
    simp [Histogram.cell, Histogram.addBucket]
  · rw [if_neg hj]
    simp only [Histogram.cell, Histogram.addBucket]
    split
    · rename_i hlt
      have hne : (⟨j, hlt⟩ : Fin BUCKETS.length) ≠ index := by
        intro heq
        exact hj (congrArg Fin.val heq)
      exact Function.update_of_ne hne _ _
    · rfl

/-- A step of `record` adds one to the cell where it stands, if it adds itself there. -/
theorem cell_recordStep (h : Histogram) (elapsed : Nat) (pc : RecordPc) {j : Nat}
    (hj : j ≤ BUCKETS.length) :
    (recordStep h elapsed pc).1.cell j =
      if j = position (some pc) ∧ covers elapsed j = true then fetchAdd (h.cell j) 1
      else h.cell j := by
  cases pc with
  | bucket index =>
    have hpos : position (some (.bucket index)) = index.val := rfl
    rw [hpos, recordStep]
    by_cases hle : elapsed ≤ BUCKETS[index]
    · rw [if_pos hle, cell_addBucket]
      by_cases hji : j = index.val
      · subst hji
        rw [if_pos rfl, if_pos ⟨rfl, (covers_bucket elapsed index).mpr hle⟩]
      · rw [if_neg hji, if_neg (fun h => hji h.1)]
    · rw [if_neg hle, if_neg]
      rintro ⟨rfl, hcovers⟩
      exact hle ((covers_bucket elapsed index).mp hcovers)
  | count =>
    have hpos : position (some .count) = BUCKETS.length := rfl
    rw [hpos, recordStep]
    by_cases hlt : j < BUCKETS.length
    · rw [if_neg (fun h => absurd h.1 (Nat.ne_of_lt hlt))]
      simp only [Histogram.cell, dif_pos hlt]
    · obtain rfl : j = BUCKETS.length := Nat.le_antisymm hj (Nat.not_lt.mp hlt)
      rw [if_pos ⟨rfl, covers_count elapsed⟩]
      simp only [Histogram.cell, dif_neg hlt]
  | totalMicros =>
    rw [if_neg (fun h => absurd h.1 (Nat.ne_of_lt (Nat.lt_succ_of_le hj)))]
    rfl

/-! ## The records of a cell -/

/-- A call of `record`. -/
def Task.isRecord : Task → Bool
  | .record _ _ => true
  | .render _ => false

/-- A record that has made its step on cell `j`. -/
def Task.past (j : Nat) : Task → Bool
  | .record _ pc => decide (j < position pc)
  | .render _ => false

/-- A record that has added itself to cell `j`. -/
def Task.counted (j : Nat) : Task → Bool
  | .record elapsed pc => covers elapsed j && decide (j < position pc)
  | .render _ => false

/-- The records of a state that have added themselves to cell `j`. -/
def State.counted (s : State) (j : Nat) : Finset Nat := indices (Task.counted j) s.tasks

/-- The records of a state. -/
def State.records (s : State) : Finset Nat := indices Task.isRecord s.tasks

theorem counted_subset (s : State) (j : Nat) : s.counted j ⊆ s.records := by
  apply indices_subset
  intro t ht
  cases t with
  | record => rfl
  | render => exact ht

/-- A record that has made its step on a cell, and was counted in the cell before it, is
counted. -/
theorem counted_of_past {s : State} {r j : Nat} (hcounted : r ∈ s.counted j)
    (hpast : r ∈ indices (Task.past (j + 1)) s.tasks) : r ∈ s.counted (j + 1) := by
  obtain ⟨t, ht, hc⟩ := mem_indices.mp hcounted
  obtain ⟨u, hu, hp⟩ := mem_indices.mp hpast
  obtain rfl := Option.some.inj (ht.symm.trans hu)
  refine mem_indices.mpr ⟨t, ht, ?_⟩
  cases t with
  | record elapsed pc =>
    simp only [Task.counted, Bool.and_eq_true] at hc ⊢
    exact ⟨covers_mono (Nat.le_succ j) hc.1, hp⟩
  | render => exact absurd hp Bool.false_ne_true

/-! ## The steps -/

/-- The kinds of step. -/
theorem State.step_cases {s s' : State} {a : Action} (h : s.step a = some s') :
    (∃ elapsed, a = .record elapsed ∧
      s' = { s with tasks := s.tasks ++ [.record elapsed (some (.at 0))] }) ∨
    (a = .render ∧ s' = { s with tasks := s.tasks ++ [.render (.at 0 [])] }) ∨
    (∃ i elapsed pc, a = .step i ∧ s.tasks[i]? = some (.record elapsed (some pc)) ∧
      s' = ⟨(recordStep s.histogram elapsed pc).1, update s.tasks i
        (.record elapsed (recordStep s.histogram elapsed pc).2) []⟩) ∨
    (∃ i pc pc', a = .step i ∧ s.tasks[i]? = some (.render pc) ∧
      renderStep s.histogram pc = some pc' ∧
      s' = { s with tasks := update s.tasks i (.render pc') [] }) := by
  cases a with
  | record elapsed => exact Or.inl ⟨elapsed, rfl, (Option.some.inj h).symm⟩
  | render => exact Or.inr (Or.inl ⟨rfl, (Option.some.inj h).symm⟩)
  | step i =>
    right
    right
    simp only [State.step] at h
    split at h
    · exact absurd h (by simp)
    · rename_i t hi
      obtain ⟨⟨hist, t'⟩, ht, rfl⟩ := Option.map_eq_some_iff.mp h
      cases t with
      | record elapsed pc =>
        cases pc with
        | none => exact absurd ht (by simp [Task.step])
        | some pc =>
          obtain ⟨rfl, rfl⟩ := Prod.mk.inj (Option.some.inj ht)
          exact Or.inl ⟨i, elapsed, pc, rfl, hi, rfl⟩
      | render pc =>
        obtain ⟨pc', hpc, heq⟩ := Option.map_eq_some_iff.mp ht
        obtain ⟨rfl, rfl⟩ := Prod.mk.inj heq
        exact Or.inr ⟨i, pc, pc', rfl, hi, hpc, rfl⟩

/-- What a step does to the records that are counted in a cell: it leaves them, or it adds
the record that makes its step there. -/
theorem State.step_counted {s s' : State} {a : Action} (h : s.step a = some s') {j : Nat}
    (hj : j ≤ BUCKETS.length) :
    (s'.counted j = s.counted j ∧ s'.histogram.cell j = s.histogram.cell j) ∨
    ∃ i, i ∉ s.counted j ∧ s'.counted j = insert i (s.counted j) ∧
      s'.histogram.cell j = fetchAdd (s.histogram.cell j) 1 := by
  have hnil : ∀ u ∈ ([] : List Task), Task.counted j u = false := by simp
  rcases State.step_cases h with ⟨elapsed, rfl, rfl⟩ | ⟨rfl, rfl⟩ |
    ⟨i, elapsed, pc, rfl, hi, rfl⟩ | ⟨i, pc, pc', rfl, hi, hpc, rfl⟩
  · left
    refine ⟨indices_append ?_, rfl⟩
    intro u hu
    obtain rfl := List.mem_singleton.mp hu
    simp [Task.counted, position_at]
  · left
    refine ⟨indices_append ?_, rfl⟩
    intro u hu
    obtain rfl := List.mem_singleton.mp hu
    rfl
  · have hcell := cell_recordStep s.histogram elapsed pc hj
    have hnext := position_recordStep s.histogram elapsed pc
    by_cases hhere : j = position (some pc) ∧ covers elapsed j = true
    · right
      rw [if_pos hhere] at hcell
      refine ⟨i, not_mem_indices hi ?_, indices_update_insert hi ?_ hnil, hcell⟩
      · simp [Task.counted, hhere.1]
      · simp only [Task.counted, Bool.and_eq_true, decide_eq_true_eq]
        exact ⟨hhere.2, by omega⟩
    · left
      rw [if_neg hhere] at hcell
      refine ⟨indices_update hi ?_ hnil, hcell⟩
      simp only [Task.counted]
      cases hcovers : covers elapsed j with
      | false => rfl
      | true =>
        have hne : j ≠ position (some pc) := fun heq => hhere ⟨heq, hcovers⟩
        rw [Bool.true_and, Bool.true_and, decide_eq_decide]
        omega
  · left
    exact ⟨indices_update hi rfl hnil, rfl⟩

/-- Only the start of a record makes a new one. -/
theorem State.step_records {s s' : State} {a : Action} (h : s.step a = some s') :
    (s'.records = s.records) ∨ ((∃ elapsed, a = .record elapsed) ∧
      s'.records = insert s.tasks.length s.records) := by
  have hnil : ∀ u ∈ ([] : List Task), Task.isRecord u = false := by simp
  rcases State.step_cases h with ⟨elapsed, rfl, rfl⟩ | ⟨rfl, rfl⟩ |
    ⟨i, elapsed, pc, rfl, hi, rfl⟩ | ⟨i, pc, pc', rfl, hi, hpc, rfl⟩
  · right
    exact ⟨⟨elapsed, rfl⟩, indices_append_singleton rfl⟩
  · left
    apply indices_append
    intro u hu
    obtain rfl := List.mem_singleton.mp hu
    rfl
  · left
    exact indices_update hi rfl hnil
  · left
    exact indices_update hi rfl hnil

/-! ## The watcher -/

/-- The cell that a `render` loads next. -/
def Task.loading : Task → Option Nat
  | .render (.bucket index _) => some index
  | .render (.count _) => some BUCKETS.length
  | .render _ | .record _ _ => none

/-- For every `render`, the records that were counted in the bucket that it has loaded last. -/
abbrev Seen := Nat → Finset Nat

/-- A load of a bucket sees the records that are counted in it. -/
def State.watch (seen : Seen) (s : State) : Action → Seen
  | .step i =>
    match (s.tasks[i]?).bind Task.loading with
    | some j => Function.update seen i (s.counted j)
    | none => seen
  | .record _ | .render => seen

/-- The system and its watcher. -/
def watched : StepSystem (State × Seen) Action :=
  histogram.observe (fun _ => ∅) fun seen s a _ => s.watch seen a

/-- The condition on a step.  A `render` that loads a cell has not overtaken a record there: no
record that it has seen in the bucket before still stands before this cell.  And the number
of records fits a counter. -/
def wholeStep (p : State × Seen) : Action → Prop
  | .record _ => p.1.records.card + 1 < 2 ^ 64
  | .render => True
  | .step i => ∀ j ∈ (p.1.tasks[i]?).bind Task.loading, ∀ r ∈ p.2 i,
    r ∈ indices (Task.past j) p.1.tasks

instance (p : State × Seen) (a : Action) : Decidable (wholeStep p a) :=
  match a with
  | .record _ => inferInstanceAs (Decidable (_ < _))
  | .render => inferInstanceAs (Decidable True)
  | .step i => inferInstanceAs (Decidable (∀ j ∈ (p.1.tasks[i]?).bind Task.loading, ∀ r ∈ p.2 i,
      r ∈ indices (Task.past j) p.1.tasks))

/-! ## What a scrape has loaded -/

/-- A scrape is cumulative: its bucket values do not go down, and none exceeds the count. -/
structure Rendered.Cumulative (rendered : Rendered) : Prop where
  sorted : rendered.buckets.Pairwise (· ≤ ·)
  le_count : ∀ v ∈ rendered.buckets, v ≤ rendered.count

/-- What a `render` has loaded before cell `j`, having seen these records last. -/
structure State.Loaded (s : State) (seen : Finset Nat) (j : Nat) (buckets : List Nat) : Prop where
  sorted : buckets.Pairwise (· ≤ ·)
  le_card : ∀ v ∈ buckets, v ≤ seen.card
  counted : ∀ r ∈ seen, ∃ k, j = k + 1 ∧ r ∈ s.counted k

/-- A cell that is loaded has at least the records of the cell before it. -/
theorem State.Loaded.le_counted {s : State} {seen : Finset Nat} {j : Nat} {buckets : List Nat}
    (h : s.Loaded seen j buckets) (hpast : ∀ r ∈ seen, r ∈ indices (Task.past j) s.tasks) :
    ∀ v ∈ buckets, v ≤ (s.counted j).card := by
  intro v hv
  have hsubset : seen ⊆ s.counted j := by
    intro r hr
    obtain ⟨k, rfl, hk⟩ := h.counted r hr
    exact counted_of_past hk (hpast r hr)
  exact Nat.le_trans (h.le_card v hv) (Finset.card_le_card hsubset)

/-- A load of a bucket. -/
theorem State.Loaded.load {s : State} {seen : Finset Nat} {j : Nat} {buckets : List Nat}
    (h : s.Loaded seen j buckets) (hpast : ∀ r ∈ seen, r ∈ indices (Task.past j) s.tasks) :
    s.Loaded (s.counted j) (j + 1) (buckets ++ [(s.counted j).card]) where
  sorted := by
    rw [List.pairwise_append]
    refine ⟨h.sorted, List.pairwise_singleton _ _, ?_⟩
    intro v hv w hw
    obtain rfl := List.mem_singleton.mp hw
    exact h.le_counted hpast v hv
  le_card := by
    intro v hv
    rcases List.mem_append.mp hv with hv | hv
    · exact h.le_counted hpast v hv
    · obtain rfl := List.mem_singleton.mp hv
      exact Nat.le_refl _
  counted := by
    intro r hr
    exact ⟨j, rfl, hr⟩

/-- What a `render` that meets the condition has in hand. -/
def RenderPc.Ordered (s : State) (seen : Finset Nat) : RenderPc → Prop
  | .bucket index buckets => s.Loaded seen index buckets
  | .count buckets => s.Loaded seen BUCKETS.length buckets
  | .totalMicros buckets total => buckets.Pairwise (· ≤ ·) ∧ ∀ v ∈ buckets, v ≤ total
  | .done rendered => rendered.Cumulative

theorem RenderPc.ordered_at {s : State} {seen : Finset Nat} {j : Nat} {buckets : List Nat}
    (h : s.Loaded seen j buckets) (hj : j ≤ BUCKETS.length) :
    (RenderPc.at j buckets).Ordered s seen := by
  rw [RenderPc.at]
  split
  · exact h
  · rename_i hge
    obtain rfl : j = BUCKETS.length := Nat.le_antisymm hj (Nat.not_lt.mp hge)
    exact h

/-- Records are never taken out of a cell. -/
theorem RenderPc.Ordered.mono {s s' : State} {seen : Finset Nat} {pc : RenderPc}
    (h : pc.Ordered s seen) (hcounted : ∀ j ≤ BUCKETS.length, s.counted j ⊆ s'.counted j) :
    pc.Ordered s' seen := by
  have hloaded : ∀ {j buckets}, j ≤ BUCKETS.length → s.Loaded seen j buckets →
      s'.Loaded seen j buckets := by
    intro j buckets hj hl
    refine ⟨hl.sorted, hl.le_card, ?_⟩
    intro r hr
    obtain ⟨k, rfl, hk⟩ := hl.counted r hr
    exact ⟨k, rfl, hcounted k (by omega) hk⟩
  cases pc with
  | bucket index buckets => exact hloaded (Nat.le_of_lt index.isLt) h
  | count buckets => exact hloaded (Nat.le_refl _) h
  | totalMicros buckets total => exact h
  | done rendered => exact h

/-! ## The runs -/

/-- What holds along the runs that meet the condition. -/
structure Whole (p : State × Seen) : Prop where
  few : p.1.records.card < 2 ^ 64
  cells : ∀ j ≤ BUCKETS.length, p.1.histogram.cell j = (p.1.counted j).card
  fresh : ∀ i, p.1.tasks.length ≤ i → p.2 i = ∅
  ordered : ∀ (i : Nat) (pc : RenderPc), p.1.tasks[i]? = some (.render pc) →
    pc.Ordered p.1 (p.2 i)

theorem State.counted_mono {s s' : State} {a : Action} (h : s.step a = some s') {j : Nat}
    (hj : j ≤ BUCKETS.length) : s.counted j ⊆ s'.counted j := by
  rcases State.step_counted h hj with ⟨heq, _⟩ | ⟨i, _, heq, _⟩
  · rw [heq]
  · rw [heq]
    exact Finset.subset_insert _ _

/-- A step keeps the number of records below the limit of the counters. -/
theorem Whole.step_few {p : State × Seen} {s' : State} {a : Action} (h : Whole p)
    (hok : wholeStep p a) (hstep : p.1.step a = some s') : s'.records.card < 2 ^ 64 := by
  rcases State.step_records hstep with heq | ⟨⟨elapsed, rfl⟩, heq⟩
  · rw [heq]
    exact h.few
  · rw [heq]
    exact Nat.lt_of_le_of_lt (Finset.card_insert_le _ _) hok

/-- A step keeps the cells. -/
theorem Whole.step_cells {p : State × Seen} {s' : State} {a : Action} (h : Whole p)
    (hok : wholeStep p a) (hstep : p.1.step a = some s') {j : Nat} (hj : j ≤ BUCKETS.length) :
    s'.histogram.cell j = (s'.counted j).card := by
  rcases State.step_counted hstep hj with ⟨heq, hcell⟩ | ⟨i, hi, heq, hcell⟩
  · rw [heq, hcell, h.cells j hj]
  · have hfits : (s'.counted j).card < 2 ^ 64 :=
      Nat.lt_of_le_of_lt (Finset.card_le_card (counted_subset s' j)) (h.step_few hok hstep)
    rw [heq, Finset.card_insert_of_notMem hi] at hfits
    rw [hcell, heq, Finset.card_insert_of_notMem hi, h.cells j hj, fetchAdd, Nat.mod_eq_of_lt hfits]

/-- A `render` that moves. -/
theorem RenderPc.Ordered.step {p : State × Seen} {s' : State} {i : Nat} {pc pc' : RenderPc}
    (h : Whole p) (hok : wholeStep p (.step i)) (hi : p.1.tasks[i]? = some (.render pc))
    (hpc : renderStep p.1.histogram pc = some pc')
    (hcounted : ∀ j ≤ BUCKETS.length, p.1.counted j ⊆ s'.counted j) :
    pc'.Ordered s' (p.1.watch p.2 (.step i) i) := by
  cases pc with
  | bucket index buckets =>
    have hold : p.1.Loaded (p.2 i) index buckets := h.ordered i _ hi
    obtain rfl := Option.some.inj hpc
    have hload : (p.1.tasks[i]?).bind Task.loading = some index.val := by rw [hi]; rfl
    have hwatch : p.1.watch p.2 (.step i) i = p.1.counted index := by
      simp [State.watch, hload]
    have hcell : p.1.histogram.buckets index = (p.1.counted index).card := by
      rw [← h.cells index (Nat.le_of_lt index.isLt), Histogram.cell, dif_pos index.isLt]
    have hloaded := hold.load (hok index hload)
    rw [hwatch, hcell]
    exact (RenderPc.ordered_at hloaded index.isLt).mono hcounted
  | count buckets =>
    have hold : p.1.Loaded (p.2 i) BUCKETS.length buckets := h.ordered i _ hi
    obtain rfl := Option.some.inj hpc
    have hload : (p.1.tasks[i]?).bind Task.loading = some BUCKETS.length := by rw [hi]; rfl
    have hcell : p.1.histogram.count = (p.1.counted BUCKETS.length).card := by
      rw [← h.cells BUCKETS.length (Nat.le_refl _), Histogram.cell, dif_neg (Nat.lt_irrefl _)]
    refine ⟨hold.sorted, ?_⟩
    rw [hcell]
    exact hold.le_counted (hok BUCKETS.length hload)
  | totalMicros buckets total =>
    obtain ⟨hsorted, hle⟩ := h.ordered i _ hi
    obtain rfl := Option.some.inj hpc
    exact ⟨hsorted, hle⟩
  | done rendered => exact absurd hpc (by simp [renderStep])

/-- The watcher of a call that does not move stays. -/
theorem State.watch_ne {s : State} {seen : Seen} {a : Action} {i : Nat}
    (hne : a ≠ .step i) : s.watch seen a i = seen i := by
  cases a with
  | record elapsed => rfl
  | render => rfl
  | step j =>
    simp only [State.watch]
    cases (s.tasks[j]?).bind Task.loading with
    | none => rfl
    | some cell =>
      apply Function.update_of_ne
      intro heq
      exact hne (by rw [heq])

/-- A new `render` has loaded nothing. -/
theorem State.Loaded.start (s : State) : s.Loaded ∅ 0 [] where
  sorted := List.Pairwise.nil
  le_card := by simp
  counted := by simp

/-- The call of a step exists. -/
theorem State.lt_of_step {s s' : State} {i : Nat} (h : s.step (.step i) = some s') :
    i < s.tasks.length := by
  rcases State.step_cases h with ⟨_, ha, _⟩ | ⟨ha, _⟩ | ⟨k, _, _, ha, hk, _⟩ |
    ⟨k, _, _, ha, hk, _⟩
  · exact absurd ha (by simp)
  · exact absurd ha (by simp)
  · obtain rfl := Action.step.inj ha
    exact (List.getElem?_eq_some_iff.mp hk).1
  · obtain rfl := Action.step.inj ha
    exact (List.getElem?_eq_some_iff.mp hk).1

theorem State.length_le {s s' : State} {a : Action} (h : s.step a = some s') :
    s.tasks.length ≤ s'.tasks.length := by
  rcases State.step_cases h with ⟨_, _, rfl⟩ | ⟨_, rfl⟩ | ⟨_, _, _, _, _, rfl⟩ |
    ⟨_, _, _, _, _, _, rfl⟩
  · simp
  · simp
  · simp [update]
  · simp [update]

/-- A step of another call, and the start of one, leave what a `render` has in hand. -/
theorem Whole.step_other {p : State × Seen} {s' : State} {a : Action} (h : Whole p)
    (hstep : p.1.step a = some s') {i : Nat} {pc : RenderPc}
    (hi : p.1.tasks[i]? = some (.render pc)) (hne : a ≠ .step i) :
    pc.Ordered s' (p.1.watch p.2 a i) := by
  rw [State.watch_ne hne]
  exact (h.ordered i pc hi).mono fun j hj => State.counted_mono hstep hj

/-- A step keeps what every `render` has in hand. -/
theorem Whole.step_ordered {p : State × Seen} {s' : State} {a : Action} (h : Whole p)
    (hok : wholeStep p a) (hstep : p.1.step a = some s') {i : Nat} {pc : RenderPc}
    (hi : s'.tasks[i]? = some (.render pc)) : pc.Ordered s' (p.1.watch p.2 a i) := by
  have hcounted : ∀ j ≤ BUCKETS.length, p.1.counted j ⊆ s'.counted j :=
    fun j hj => State.counted_mono hstep hj
  have hother : p.1.tasks[i]? = some (.render pc) → a ≠ .step i →
      pc.Ordered s' (p.1.watch p.2 a i) := fun hi hne => h.step_other hstep hi hne
  rcases State.step_cases hstep with ⟨elapsed, rfl, rfl⟩ | ⟨rfl, rfl⟩ |
    ⟨k, elapsed, rpc, rfl, hk, rfl⟩ | ⟨k, rpc, rpc', rfl, hk, hpc, rfl⟩
  · rcases Nat.lt_or_ge i p.1.tasks.length with hlt | hge
    · exact hother ((List.getElem?_append_left hlt).symm.trans hi) Action.noConfusion
    · rw [List.getElem?_append_right hge] at hi
      exact absurd (List.mem_singleton.mp (List.mem_of_getElem? hi)) Task.noConfusion
  · rcases Nat.lt_or_ge i p.1.tasks.length with hlt | hge
    · exact hother ((List.getElem?_append_left hlt).symm.trans hi) Action.noConfusion
    · rw [List.getElem?_append_right hge] at hi
      obtain rfl := Task.render.inj (List.mem_singleton.mp (List.mem_of_getElem? hi))
      rw [State.watch_ne Action.noConfusion, h.fresh i hge]
      exact RenderPc.ordered_at (State.Loaded.start _) (Nat.zero_le _)
  · by_cases hki : k = i
    · subst hki
      rw [getElem?_update_self hk] at hi
      exact absurd (Option.some.inj hi) Task.noConfusion
    · rw [update, List.append_nil, List.getElem?_set_ne hki] at hi
      exact hother hi (fun heq => hki (Action.step.inj heq))
  · by_cases hki : k = i
    · subst hki
      rw [getElem?_update_self hk] at hi
      obtain rfl := Task.render.inj (Option.some.inj hi)
      exact RenderPc.Ordered.step h hok hk hpc hcounted
    · rw [update, List.append_nil, List.getElem?_set_ne hki] at hi
      exact hother hi (fun heq => hki (Action.step.inj heq))

theorem Whole.step {p : State × Seen} {s' : State} {a : Action} (h : Whole p)
    (hok : wholeStep p a) (hstep : p.1.step a = some s') : Whole (s', p.1.watch p.2 a) where
  few := h.step_few hok hstep
  cells := fun j hj => h.step_cells hok hstep hj
  fresh := by
    intro i hi
    have hlen := State.length_le hstep
    show p.1.watch p.2 a i = ∅
    rw [State.watch_ne]
    · exact h.fresh i (Nat.le_trans hlen hi)
    · rintro rfl
      exact absurd (State.lt_of_step hstep) (Nat.not_lt.mpr (Nat.le_trans hlen hi))
  ordered := fun i pc hi => h.step_ordered hok hstep hi

/-- In the runs that meet the condition, every `render` has ordered values in hand. -/
theorem reachable_whole {p : State × Seen} (h : watched.ReachableVia wholeStep p) : Whole p := by
  apply h.invariant
  · constructor
    · decide
    · intro j hj
      simp [watched, StepSystem.observe, histogram, Histogram.cell, Histogram.default,
        State.counted]
    · intro i _
      rfl
    · intro i pc hi
      exact absurd hi (by simp [watched, StepSystem.observe, histogram])
  · intro p a p' _ hwhole hok hstep
    obtain ⟨hs, hseen⟩ := StepSystem.observe_step.mp hstep
    have hnext := hwhole.step hok hs
    rw [← hseen] at hnext
    exact hnext

/-- In the runs that meet the condition, every scrape is cumulative. -/
theorem scrape_cumulative {p : State × Seen} (h : watched.ReachableVia wholeStep p) {i : Nat}
    {rendered : Rendered} (hi : p.1.tasks[i]? = some (.render (.done rendered))) :
    rendered.Cumulative :=
  (reachable_whole h).ordered i _ hi

/-- A record of half a millisecond and a `render` that follows it from cell to cell. -/
def together : List Action :=
  [.record 500000, .render] ++ (List.replicate 13 [.step 0, .step 1]).flatten ++ [.step 1]

/-- A `render` beside a record that it does not overtake. -/
theorem scrape_cumulative_together : (Rendered.mk (List.replicate 12 1) 1 0).Cumulative := by
  have hreach : watched.ReachableVia wholeStep
      (watched.play (fun p a => decide (wholeStep p a)) together) :=
    StepSystem.reachable_play (fun _ _ h => of_decide_eq_true h) together
  exact scrape_cumulative (i := 1) hreach (by decide)

/-- A record of half a millisecond that has reached the first bucket when a `render` runs. -/
def overtaken : List Action := [.record 500000, .step 0, .render] ++ List.replicate 14 (.step 1)

/-- The scrape that has overtaken the record goes down from the first bucket to the second. -/
theorem scrape_not_cumulative :
    ¬∀ (s : State) (i : Nat) (rendered : Rendered), histogram.Reachable s →
      s.tasks[i]? = some (.render (.done rendered)) → rendered.Cumulative := by
  intro h
  have hreach : histogram.Reachable (histogram.play (fun _ _ => true) overtaken) :=
    StepSystem.reachable_play (fun _ _ _ => trivial) overtaken
  have htask : (histogram.play (fun _ _ => true) overtaken).tasks[1]? =
      some (.render (.done ⟨1 :: List.replicate 11 0, 0, 0⟩)) := by decide
  exact absurd (h _ 1 _ hreach htask).sorted (by decide)

end Tinkiva.Metrics
