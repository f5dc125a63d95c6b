import Mathlib.Tactic.Common

/-!
# Lazy streams with an effect on a world

A lazy stream does its work while it is pulled.  A `Stream` is the list of its
pulls, each with the world after it: a consumer that stops early leaves the world
as the last pull that it made has left it.

`drive` is a consumer loop.  Its body looks at one item at a time and goes on,
breaks out of the loop, or fails.  An error of the stream ends the loop.  The
loop may also be dropped at any of its waits: `patience` is the number of waits
that it is given, and with none left it ends as `cancelled`.

The producer may be ahead of the consumer: some pulls that the consumer does not
make have been made when it leaves the stream.  `driveAhead` is the loop with such a
producer, and `ahead` says how many these are, by the patience that is left then.

There are three groups of lemmas.

* The world that is left behind is the world of a pull.  `driveAhead_world` is the
  rule for it, and `driveAhead_map` is about a loop that sees only a part of the world.
* `driveAhead_done` says how a loop can end well: at the end of a stream
  without an error, or by a break.
* `driveAhead_append` cuts a loop in parts.  `feed` is the loop over the first items, and
  `Fed.resume` is what is left of it.
-/

namespace LazyStream

variable {ω ε ι α φ : Type}

/-- The pulls of a stream: the world after the pull, and what it yields. -/
abbrev Stream (ω ε ι : Type) := List (ω × Except ε ι)

/-- What the body of the loop says after an item. -/
inductive Flow (α φ : Type) where
  | next (acc : α)
  | stop (acc : α)
  | fail (error : φ)
  deriving DecidableEq, Repr

/-- What the body says, with the accumulator seen through `f`. -/
def Flow.map {β : Type} (f : α → β) : Flow α φ → Flow β φ
  | .next acc => .next (f acc)
  | .stop acc => .stop (f acc)
  | .fail error => .fail error

@[simp] theorem Flow.map_id (flow : Flow α φ) : flow.map id = flow := by
  cases flow <;> rfl

/-- How a computation ends. -/
inductive Outcome (α φ : Type) where
  | done (value : α)
  | failed (error : φ)
  | cancelled
  deriving DecidableEq, Repr

/-- The end of a computation, with its value seen through `f`. -/
def Outcome.map {β : Type} (f : α → β) : Outcome α φ → Outcome β φ
  | .done value => .done (f value)
  | .failed error => .failed error
  | .cancelled => .cancelled

/-- The end of a loop: the world, the patience that is left, and the outcome. -/
structure Driven (ω α φ : Type) where
  world : ω
  patience : Nat
  outcome : Outcome α φ

/-- The consumer loop. -/
def drive (body : α → ι → Flow α φ) (wrap : ε → φ) : Nat → ω → α → Stream ω ε ι → Driven ω α φ
  | 0, w, _, _ => ⟨w, 0, .cancelled⟩
  | p + 1, w, acc, [] => ⟨w, p, .done acc⟩
  | p + 1, _, _, (w, .error e) :: _ => ⟨w, p, .failed (wrap e)⟩
  | p + 1, _, acc, (w, .ok item) :: rest =>
    match body acc item with
    | .next acc => drive body wrap p w acc rest
    | .stop acc => ⟨w, p, .done acc⟩
    | .fail error => ⟨w, p, .failed error⟩

variable {body : α → ι → Flow α φ} {wrap : ε → φ}

theorem drive_patience_le (p : Nat) (w : ω) (acc : α) (stream : Stream ω ε ι) :
    (drive body wrap p w acc stream).patience ≤ p := by
  induction stream generalizing p w acc with
  | nil =>
    cases p with
    | zero => exact Nat.le_refl 0
    | succ p => exact Nat.le_succ p
  | cons pull rest ih =>
    obtain ⟨v, item⟩ := pull
    cases p with
    | zero => exact Nat.le_refl 0
    | succ p =>
      cases item with
      | error e => exact Nat.le_succ p
      | ok item =>
        simp only [drive]
        cases body acc item with
        | next acc => exact Nat.le_succ_of_le (ih p v acc)
        | stop acc => exact Nat.le_succ p
        | fail error => exact Nat.le_succ p

/-! ## A producer that is ahead -/

/-- The world when the producer has made `n` pulls. -/
def lead (w : ω) (n : Nat) (stream : Stream ω ε ι) : ω :=
  ((stream.take n).map Prod.fst).getLastD w

@[simp] theorem lead_zero (w : ω) (stream : Stream ω ε ι) : lead w 0 stream = w := rfl

@[simp] theorem lead_nil (w : ω) (n : Nat) : lead w n ([] : Stream ω ε ι) = w := by
  simp [lead]

@[simp] theorem lead_cons (w : ω) (n : Nat) (pull : ω × Except ε ι) (rest : Stream ω ε ι) :
    lead w (n + 1) (pull :: rest) = lead pull.1 n rest := by
  simp only [lead, List.take_succ_cons, List.map_cons, List.getLastD_cons]

/-- The world is the first one or that of a pull. -/
theorem lead_mem (w : ω) (n : Nat) (stream : Stream ω ε ι) :
    lead w n stream = w ∨ ∃ pull ∈ stream, lead w n stream = pull.1 := by
  induction stream generalizing w n with
  | nil => exact Or.inl (lead_nil w n)
  | cons pull rest ih =>
    cases n with
    | zero => exact Or.inl rfl
    | succ n =>
      rw [lead_cons]
      rcases ih pull.1 n with h | ⟨pull', hmem, h⟩
      · exact Or.inr ⟨pull, List.mem_cons_self, h⟩
      · exact Or.inr ⟨pull', List.mem_cons_of_mem _ hmem, h⟩

/-- The first world does not matter once a pull has been made. -/
theorem lead_pull (n : Nat) (w v : ω) {items : List (Except ε ι)} (h : items ≠ [])
    (rest : Stream ω ε ι) :
    lead w (n + 1) (items.map (fun item => (v, item)) ++ rest) =
      lead v (n + 1) (items.map (fun item => (v, item)) ++ rest) := by
  cases items with
  | nil => exact absurd rfl h
  | cons item items => simp only [List.map_cons, List.cons_append, lead_cons]

/-- Pulls that leave the world `v`. -/
theorem lead_append (v : ω) (n : Nat) (items : List (Except ε ι)) (rest : Stream ω ε ι) :
    lead v n (items.map (fun item => (v, item)) ++ rest) = lead v (n - items.length) rest := by
  induction items generalizing n with
  | nil => rfl
  | cons item items ih =>
    cases n with
    | zero => simp
    | succ n =>
      rw [List.map_cons, List.cons_append, lead_cons, ih, List.length_cons, Nat.add_sub_add_right]

theorem lead_map {ω' : Type} (f : ω → ω') (w : ω) (n : Nat) (stream : Stream ω ε ι) :
    lead (f w) n (stream.map fun pull => (f pull.1, pull.2)) = f (lead w n stream) := by
  induction stream generalizing w n with
  | nil => simp
  | cons pull rest ih =>
    cases n with
    | zero => rfl
    | succ n =>
      rw [List.map_cons, lead_cons, lead_cons]
      exact ih pull.1 n

/-- The loop beside a producer which is ahead of it when the loop leaves the stream. -/
def driveAhead (body : α → ι → Flow α φ) (wrap : ε → φ) (ahead : Nat → Nat) (p : Nat) (w : ω)
    (acc : α) (stream : Stream ω ε ι) : Driven ω α φ :=
  let driven := drive body wrap p w acc stream
  { driven with world := lead w (p - driven.patience + ahead driven.patience) stream }

variable {ahead : Nat → Nat}

@[simp] theorem driveAhead_outcome (p : Nat) (w : ω) (acc : α) (stream : Stream ω ε ι) :
    (driveAhead body wrap ahead p w acc stream).outcome =
      (drive body wrap p w acc stream).outcome := rfl

theorem driveAhead_zero (w : ω) (acc : α) (stream : Stream ω ε ι) :
    driveAhead body wrap ahead 0 w acc stream = ⟨lead w (ahead 0) stream, 0, .cancelled⟩ := by
  simp [driveAhead, drive]

theorem driveAhead_nil (p : Nat) (w : ω) (acc : α) :
    driveAhead body wrap ahead (p + 1) w acc ([] : Stream ω ε ι) = ⟨w, p, .done acc⟩ := by
  simp [driveAhead, drive]

theorem driveAhead_error (p : Nat) (w v : ω) (acc : α) (e : ε) (rest : Stream ω ε ι) :
    driveAhead body wrap ahead (p + 1) w acc ((v, .error e) :: rest) =
      ⟨lead v (ahead p) rest, p, .failed (wrap e)⟩ := by
  simp only [driveAhead, drive, Nat.add_sub_cancel_left, Nat.add_comm 1, lead_cons]

theorem driveAhead_ok (p : Nat) (w v : ω) (acc : α) (item : ι) (rest : Stream ω ε ι) :
    driveAhead body wrap ahead (p + 1) w acc ((v, .ok item) :: rest) =
      match body acc item with
      | .next acc => driveAhead body wrap ahead p v acc rest
      | .stop acc => ⟨lead v (ahead p) rest, p, .done acc⟩
      | .fail error => ⟨lead v (ahead p) rest, p, .failed error⟩ := by
  simp only [driveAhead, drive]
  cases body acc item with
  | next acc =>
    have hle : (drive body wrap p v acc rest).patience ≤ p := drive_patience_le p v acc rest
    simp only [Nat.succ_sub hle, Nat.succ_add, lead_cons]
  | stop acc => simp only [Nat.add_sub_cancel_left, Nat.add_comm 1, lead_cons]
  | fail error => simp only [Nat.add_sub_cancel_left, Nat.add_comm 1, lead_cons]

/-- What holds at the start and after every pull, holds at the end. -/
theorem driveAhead_world {I : ω → Prop} (p : Nat) {w : ω} (acc : α) {stream : Stream ω ε ι}
    (hw : I w) (hstream : ∀ pull ∈ stream, I pull.1) :
    I (driveAhead body wrap ahead p w acc stream).world := by
  simp only [driveAhead]
  rcases lead_mem w _ stream with h | ⟨pull, hmem, h⟩ <;> rw [h]
  · exact hw
  · exact hstream pull hmem

variable (ahead) in
/-- A loop that ends well has seen no error in the whole stream and ends where the stream
ends, or its body has broken out of it. -/
theorem driveAhead_done (p : Nat) {w : ω} {acc acc' : α} {stream : Stream ω ε ι}
    (hdone : (drive body wrap p w acc stream).outcome = .done acc') :
    (∀ pull ∈ stream, ∃ item, pull.2 = .ok item) ∧
      (driveAhead body wrap ahead p w acc stream).world = (stream.map Prod.fst).getLastD w ∨
    ∃ acc item, body acc item = .stop acc' := by
  induction stream generalizing p w acc with
  | nil =>
    cases p with
    | zero => simp [drive] at hdone
    | succ p =>
      rw [driveAhead_nil]
      exact Or.inl ⟨fun pull hpull => absurd hpull List.not_mem_nil, rfl⟩
  | cons pull rest ih =>
    obtain ⟨v, item⟩ := pull
    cases p with
    | zero => simp [drive] at hdone
    | succ p =>
      cases item with
      | error e => simp [drive] at hdone
      | ok item =>
        simp only [drive] at hdone
        rw [driveAhead_ok]
        cases hbody : body acc item with
        | next acc₁ =>
          simp only [hbody] at hdone
          refine (ih p hdone).imp_left fun ⟨hall, hend⟩ => ⟨?_, ?_⟩
          · exact List.forall_mem_cons.mpr ⟨⟨item, rfl⟩, hall⟩
          · rw [hend, List.map_cons, List.getLastD_cons]
        | stop acc₁ =>
          simp only [hbody] at hdone
          obtain rfl := Outcome.done.inj hdone
          exact Or.inr ⟨acc, item, hbody⟩
        | fail error => simp [hbody] at hdone

theorem drive_map_eq {ω' : Type} (f : ω → ω') (p : Nat) (w : ω) (acc : α)
    (stream : Stream ω ε ι) :
    drive body wrap p (f w) acc (stream.map fun pull => (f pull.1, pull.2)) =
      let driven := drive body wrap p w acc stream
      ⟨f driven.world, driven.patience, driven.outcome⟩ := by
  induction stream generalizing p w acc with
  | nil => cases p <;> rfl
  | cons pull rest ih =>
    obtain ⟨v, item⟩ := pull
    cases p with
    | zero => rfl
    | succ p =>
      cases item with
      | error e => rfl
      | ok item =>
        simp only [List.map_cons, drive]
        cases body acc item with
        | next acc => exact ih p v acc
        | stop acc => rfl
        | fail error => rfl

variable (body wrap ahead) in
/-- A loop over a stream whose world is seen through `f` ends as the loop over the stream,
with its world seen through `f`. -/
theorem driveAhead_map {ω' : Type} (f : ω → ω') (p : Nat) (w : ω) (acc : α)
    (stream : Stream ω ε ι) :
    driveAhead body wrap ahead p (f w) acc (stream.map fun pull => (f pull.1, pull.2)) =
      let driven := driveAhead body wrap ahead p w acc stream
      ⟨f driven.world, driven.patience, driven.outcome⟩ := by
  simp only [driveAhead, drive_map_eq, lead_map]

/-! ## A loop in parts -/

/-- What a loop has made of some items: it goes on, or it has ended among them and left some
of them. -/
inductive Fed (α φ : Type) where
  | more (patience : Nat) (acc : α)
  | ended (patience left : Nat) (outcome : Outcome α φ)

/-- The loop over some items. -/
def feed (body : α → ι → Flow α φ) (wrap : ε → φ) : Nat → α → List (Except ε ι) → Fed α φ
  | p, acc, [] => .more p acc
  | 0, _, _ :: rest => .ended 0 (rest.length + 1) .cancelled
  | p + 1, _, .error e :: rest => .ended p rest.length (.failed (wrap e))
  | p + 1, acc, .ok item :: rest =>
    match body acc item with
    | .next acc => feed body wrap p acc rest
    | .stop acc => .ended p rest.length (.done acc)
    | .fail error => .ended p rest.length (.failed error)

/-- A loop that goes on has seen no error. -/
theorem feed_more {p p' : Nat} {acc acc' : α} {items : List (Except ε ι)}
    (h : feed body wrap p acc items = .more p' acc') : ∀ e, Except.error e ∉ items := by
  induction items generalizing p acc with
  | nil => exact fun e he => absurd he List.not_mem_nil
  | cons item items ih =>
    cases p with
    | zero => simp [feed] at h
    | succ p =>
      cases item with
      | error e => simp [feed] at h
      | ok item =>
        simp only [feed] at h
        cases hbody : body acc item with
        | next acc₁ =>
          simp only [hbody] at h
          intro e he
          rcases List.mem_cons.mp he with he | he
          · simp at he
          · exact ih h e he
        | stop acc₁ => simp [hbody] at h
        | fail error => simp [hbody] at h

/-- The end of a loop that has made `fed` of some items in the world `v`, with the rest of
the stream before it. -/
def Fed.resume (body : α → ι → Flow α φ) (wrap : ε → φ) (ahead : Nat → Nat) (v : ω)
    (rest : Stream ω ε ι) : Fed α φ → Driven ω α φ
  | .more p acc => driveAhead body wrap ahead p v acc rest
  | .ended p left outcome => ⟨lead v (ahead p - left) rest, p, outcome⟩

/-- A loop over items that leave the world `v` is the loop over these items, and then over
the rest. -/
theorem driveAhead_append (p : Nat) (v : ω) (acc : α) (items : List (Except ε ι))
    (rest : Stream ω ε ι) :
    driveAhead body wrap ahead p v acc (items.map (fun item => (v, item)) ++ rest) =
      (feed body wrap p acc items).resume body wrap ahead v rest := by
  induction items generalizing p acc with
  | nil => cases p <;> rfl
  | cons item items ih =>
    cases p with
    | zero => rw [driveAhead_zero, lead_append, feed, Fed.resume, List.length_cons]
    | succ p =>
      cases item with
      | error e => rw [List.map_cons, List.cons_append, driveAhead_error, lead_append, feed,
          Fed.resume]
      | ok item =>
        rw [List.map_cons, List.cons_append, driveAhead_ok, feed]
        cases body acc item with
        | next acc => exact ih p acc
        | stop acc => simp only [Fed.resume, lead_append]
        | fail error => simp only [Fed.resume, lead_append]

/-- A loop with patience does not look at the world before its first pull. -/
theorem driveAhead_pull (p : Nat) (w v : ω) (acc : α) {items : List (Except ε ι)} (h : items ≠ [])
    (rest : Stream ω ε ι) :
    driveAhead body wrap ahead (p + 1) w acc (items.map (fun item => (v, item)) ++ rest) =
      driveAhead body wrap ahead (p + 1) v acc (items.map (fun item => (v, item)) ++ rest) := by
  cases items with
  | nil => exact absurd rfl h
  | cons item items =>
    cases item with
    | error e => simp only [List.map_cons, List.cons_append, driveAhead_error]
    | ok item => simp only [List.map_cons, List.cons_append, driveAhead_ok]

end LazyStream
