import Tinkiva.Lib.LazyStream
import Tinkiva.Lib.Sqlite.Connection

/-!
# The statements of an SQL text

A connection runs the statements of a text one after the other, each when the
stream of results is pulled that far.  `stream` is that stream: for each statement
its rows and then its effect, with the world as the statement leaves it.

There are three groups of lemmas.

* `stream_world` carries what every statement keeps to every place where the stream can be
  left.
* `HeldText` says that no statement of a text commits the transaction that it is run in, or
  is run outside of one.  Such a text leaves the contents of the file (`stream_held`).
* `drive_leaves` is about a consumer with a row limit.  It breaks out of the stream at the
  first row over the limit, and the statements behind that row are run as far as the
  connection is ahead; `CanLeave` says where that can be.  If the limit is not passed before
  the last statement, the whole text is run (`drive_stream`).
-/

namespace Sqlite

open LazyStream

variable {D S R F : Type}

/-! ## The statements of a text -/

section Text

variable (E : Engine D S F) (id : Nat)

/-- Runs the statements in order, whether they fail or not. -/
def execAll (w : World D S) (statements : List (Statement D S R)) : World D S :=
  statements.foldl (fun w s => (exec E id w s).world) w

/-- The statements are run one after the other without an error. -/
def Succeeds (w : World D S) : List (Statement D S R) → Prop
  | [] => True
  | s :: rest => (exec E id w s).status = .ok () ∧ Succeeds (exec E id w s).world rest

instance Succeeds.decide (w : World D S) :
    (statements : List (Statement D S R)) → Decidable (Succeeds E id w statements)
  | [] => isTrue trivial
  | s :: rest =>
    have := Succeeds.decide (exec E id w s).world rest
    inferInstanceAs (Decidable (_ ∧ _))

/-- The stream of a text: for each statement its rows and then its effect.  The
first error ends it. -/
def stream (w : World D S) : List (Statement D S R) → Stream (World D S) Error (F ⊕ R)
  | [] => []
  | s :: rest =>
    let result := exec E id w s
    result.rows.map (fun row => (result.world, .ok (.inr row))) ++
      match result.status with
      | .ok () => (result.world, .ok (.inl (E.effect result.world.conn.session))) ::
          stream result.world rest
      | .error error => [(result.world, .error error)]

variable {E id}

@[simp] theorem execAll_nil (w : World D S) :
    execAll E id w ([] : List (Statement D S R)) = w := rfl

@[simp] theorem execAll_cons (w : World D S) (s : Statement D S R) (rest : List (Statement D S R)) :
    execAll E id w (s :: rest) = execAll E id (exec E id w s).world rest := rfl

theorem execAll_append (w : World D S) (xs ys : List (Statement D S R)) :
    execAll E id w (xs ++ ys) = execAll E id (execAll E id w xs) ys :=
  List.foldl_append

/-- A stream without an error has run every statement, each with a status that is
not an error. -/
theorem stream_ok {I : World D S → Prop} {w : World D S} {statements : List (Statement D S R)}
    (hw : I w) (hstep : ∀ w, I w → ∀ s ∈ statements, I (exec E id w s).world)
    (hall : ∀ pull ∈ stream E id w statements, ∃ item, pull.2 = .ok item) :
    ∀ s ∈ statements, ∃ w, I w ∧ (exec E id w s).status = .ok () := by
  induction statements generalizing w with
  | nil => exact fun s hs => absurd hs List.not_mem_nil
  | cons s rest ih =>
    simp only [stream] at hall
    cases hstatus : (exec E id w s).status with
    | error error =>
      obtain ⟨item, hitem⟩ := hall ((exec E id w s).world, .error error) (by simp [hstatus])
      simp at hitem
    | ok _ =>
      intro s' hs'
      rcases List.mem_cons.mp hs' with rfl | hs'
      · exact ⟨w, hw, hstatus⟩
      · refine ih (hstep w hw s List.mem_cons_self)
          (fun w hw s hs => hstep w hw s (List.mem_cons_of_mem _ hs)) (fun pull hpull => ?_) s' hs'
        exact hall pull (by simp [hstatus, hpull])

/-- The rows of a stream. -/
def rowsOf (stream : Stream (World D S) Error (F ⊕ R)) : List R :=
  stream.filterMap fun pull => pull.2.toOption.bind Sum.getRight?

/-- A property that every statement keeps holds wherever the stream is left. -/
theorem stream_world {I : World D S → Prop} {w : World D S}
    {statements : List (Statement D S R)} (hw : I w)
    (hstep : ∀ w, I w → ∀ s ∈ statements, I (exec E id w s).world) :
    ∀ pull ∈ stream E id w statements, I pull.1 := by
  induction statements generalizing w with
  | nil => exact fun pull hpull => absurd hpull List.not_mem_nil
  | cons s rest ih =>
    have hs := hstep w hw s List.mem_cons_self
    intro pull hpull
    rcases List.mem_append.mp hpull with hrow | hrest
    · obtain ⟨row, _, rfl⟩ := List.mem_map.mp hrow
      exact hs
    · split at hrest
      · rcases List.mem_cons.mp hrest with rfl | hrest
        · exact hs
        · exact ih hs (fun w hw s hs => hstep w hw s (List.mem_cons_of_mem _ hs)) pull hrest
      · obtain rfl := List.mem_singleton.mp hrest
        exact hs

/-- What every statement keeps, a connection that is ahead in the text has kept. -/
theorem lead_keeps {I : World D S → Prop} {w : World D S} {statements : List (Statement D S R)}
    (n : Nat) (hw : I w) (hstep : ∀ w, I w → ∀ s ∈ statements, I (exec E id w s).world) :
    I (lead w n (stream E id w statements)) := by
  rcases lead_mem w n (stream E id w statements) with heq | ⟨pull, hpull, heq⟩ <;> rw [heq]
  · exact hw
  · exact stream_world hw hstep pull hpull

/-! ## Inside a transaction -/

variable (E id) in
/-- No statement that is run commits the transaction, or is run outside of one. -/
def HeldText (w : World D S) : List (Statement D S R) → Prop
  | [] => True
  | s :: rest =>
    w.conn.transaction.isSome = true ∧
      (s.commits = true → (exec E id w s).world.conn.transaction.isSome = true) ∧
      ((exec E id w s).status = .ok () → HeldText (exec E id w s).world rest)

instance HeldText.decide (w : World D S) :
    (statements : List (Statement D S R)) → Decidable (HeldText E id w statements)
  | [] => isTrue trivial
  | s :: rest =>
    have := HeldText.decide (exec E id w s).world rest
    inferInstanceAs (Decidable (_ ∧ _ ∧ _))

end Text

/-! ## One statement of a loop -/

section Loop

variable {α φ : Type} (E : Engine D S F) (id : Nat) {body : α → F ⊕ R → Flow α φ}
  {wrap : Error → φ} {ahead : Nat → Nat}

/-- What the stream yields of a statement: its rows, and then its effect or its error. -/
def Result.items (result : Result D S R) : List (Except Error (F ⊕ R)) :=
  result.rows.map (fun row => .ok (.inr row)) ++
    [result.status.map fun _ => .inl (E.effect result.world.conn.session)]

/-- The stream behind a statement. -/
def Result.following (result : Result D S R) (rest : List (Statement D S R)) :
    Stream (World D S) Error (F ⊕ R) :=
  match result.status with
  | .ok () => stream E id result.world rest
  | .error _ => []

theorem stream_cons (w : World D S) (s : Statement D S R) (rest : List (Statement D S R)) :
    stream E id w (s :: rest) =
      ((exec E id w s).items E).map (fun item => ((exec E id w s).world, item)) ++
        (exec E id w s).following E id rest := by
  simp only [stream, Result.items, Result.following, List.map_append, List.map_map,
    List.append_assoc, List.map_singleton, List.singleton_append]
  cases (exec E id w s).status <;> rfl

theorem Result.following_keeps {I : World D S → Prop} {result : Result D S R}
    {rest : List (Statement D S R)} (n : Nat) (hw : I result.world)
    (hstep : ∀ w, I w → ∀ s ∈ rest, I (exec E id w s).world) :
    I (lead result.world n (result.following E id rest)) := by
  unfold Result.following
  split
  · exact lead_keeps n hw hstep
  · rw [lead_nil]
    exact hw

theorem Result.items_ne_nil (result : Result D S R) : result.items E ≠ [] := by
  simp [Result.items]

/-- A loop over a text runs the first statement, takes its items, and goes on with the rest of
the text or ends. -/
theorem drive_exec (w : World D S) (p : Nat) (acc : α) (s : Statement D S R)
    (rest : List (Statement D S R)) :
    driveAhead body wrap ahead (p + 1) w acc (stream E id w (s :: rest)) =
      (feed body wrap (p + 1) acc ((exec E id w s).items E)).resume body wrap ahead
        (exec E id w s).world ((exec E id w s).following E id rest) := by
  rw [stream_cons, driveAhead_pull p w _ acc (Result.items_ne_nil E _), driveAhead_append]

/-- A loop that goes on behind a statement goes on with the rest of the text. -/
theorem following_of_more {result : Result D S R} {p p' : Nat} {acc acc' : α}
    (h : feed body wrap p acc (result.items E) = .more p' acc') (rest : List (Statement D S R)) :
    result.following E id rest = stream E id result.world rest := by
  cases hstatus : result.status with
  | ok _ => simp only [Result.following, hstatus]
  | error error =>
    refine absurd ?_ (feed_more h error)
    simp [Result.items, hstatus, Except.map]

variable {E id} in
theorem Succeeds.take_cons {w : World D S} {s : Statement D S R} {rest : List (Statement D S R)}
    {n : Nat} (h : Succeeds E id (exec E id w s).world (rest.take (n - 1)))
    (hstatus : (exec E id w s).status = .ok ()) : Succeeds E id w ((s :: rest).take n) := by
  cases n with
  | zero => trivial
  | succ n => exact ⟨hstatus, h⟩

/-- The connection is ahead in a text: it has run some of the statements, and all but the last
of them without an error. -/
theorem lead_stream (w : World D S) (statements : List (Statement D S R)) (k : Nat) :
    ∃ n ≤ statements.length, lead w k (stream E id w statements) =
      execAll E id w (statements.take n) ∧ Succeeds E id w (statements.take (n - 1)) := by
  induction statements generalizing w k with
  | nil => exact ⟨0, Nat.le_refl 0, by simp [stream, execAll], trivial⟩
  | cons s rest ih =>
    cases k with
    | zero => exact ⟨0, Nat.zero_le _, rfl, trivial⟩
    | succ k =>
      rw [stream_cons, lead_pull k w _ (Result.items_ne_nil E _), lead_append, Result.following]
      cases hstatus : (exec E id w s).status with
      | error error => exact ⟨1, Nat.le_add_left 1 _, by simp, trivial⟩
      | ok _ =>
        obtain ⟨n, hn, hlead, hsucceeds⟩ := ih (exec E id w s).world
          (k + 1 - ((exec E id w s).items E).length)
        exact ⟨n + 1, Nat.succ_le_succ hn, hlead, hsucceeds.take_cons hstatus⟩

end Loop

/-! ## Reading a text under a row limit -/

section RowLimit

variable {E : Engine D S F} {id : Nat} {α φ : Type}

/-- The rows that the statements yield, when all of them are run. -/
def ranRows (E : Engine D S F) (id : Nat) (w : World D S) : List (Statement D S R) → List R
  | [] => []
  | s :: rest => (exec E id w s).rows ++ ranRows E id (exec E id w s).world rest

/-- A consumer with `room` for rows can leave the text when its first `n` statements have been
run: it has taken good rows and has seen one too many, or the text is at its end. -/
structure CanLeave (E : Engine D S F) (id : Nat) (good : R → Bool) (room : Nat) (w : World D S)
    (statements : List (Statement D S R)) (n : Nat) : Prop where
  succeeds : Succeeds E id w (statements.take (n - 1))
  good : ∀ row ∈ (ranRows E id w (statements.take n)).take room, good row = true
  left : room < (ranRows E id w (statements.take n)).length ∨
    n = statements.length ∧ Succeeds E id w statements

instance CanLeave.decide (E : Engine D S F) (id : Nat) (good : R → Bool) (room : Nat)
    (w : World D S) (statements : List (Statement D S R)) (n : Nat) :
    Decidable (CanLeave E id good room w statements n) :=
  decidable_of_iff (_ ∧ _ ∧ _) ⟨fun ⟨h, h', h''⟩ => ⟨h, h', h''⟩, fun ⟨h, h', h''⟩ => ⟨h, h', h''⟩⟩

section CanLeave

variable {good : R → Bool} {room : Nat} {w : World D S} {s : Statement D S R}
  {rest : List (Statement D S R)} {n : Nat}

/-- Behind a statement that has ended well, the text can be left where the rest of it can be. -/
theorem CanLeave.cons (hstatus : (exec E id w s).status = .ok ())
    (hgood : ∀ row ∈ (exec E id w s).rows, good row = true)
    (h : CanLeave E id good room (exec E id w s).world rest n) :
    CanLeave E id good ((exec E id w s).rows.length + room) w (s :: rest) (n + 1) where
  succeeds := h.succeeds.take_cons hstatus
  good := by
    rw [List.take_succ_cons, ranRows, List.take_length_add_append]
    exact List.forall_mem_append.mpr ⟨hgood, h.good⟩
  left := by
    rw [List.take_succ_cons, ranRows, List.length_append]
    refine h.left.imp (fun h => by omega) fun h => ?_
    exact ⟨by rw [h.1, List.length_cons], hstatus, h.2⟩

/-- Among the rows of a statement the text can be left, wherever the connection is in it. -/
theorem CanLeave.cut (hlt : room < (exec E id w s).rows.length)
    (hgood : ∀ row ∈ (exec E id w s).rows.take room, good row = true)
    (hsucceeds : Succeeds E id w ((s :: rest).take n)) :
    CanLeave E id good room w (s :: rest) (n + 1) where
  succeeds := hsucceeds
  good := by
    rw [List.take_succ_cons, ranRows, List.take_append_of_le_length (by omega)]
    exact hgood
  left := by
    rw [List.take_succ_cons, ranRows, List.length_append]
    exact Or.inl (by omega)

end CanLeave

/-- A loop body that takes `limit` good rows and breaks at the next one. -/
structure RowLimit (body : α → F ⊕ R → Flow α φ) (limit : Nat) (good : R → Bool)
    (size : α → Nat) : Prop where
  effect : ∀ acc f, ∃ acc', body acc (.inl f) = .next acc' ∧ size acc' = size acc
  full : ∀ acc row, size acc = limit → ∃ acc', body acc (.inr row) = .stop acc'
  row : ∀ acc row, size acc ≠ limit →
    (good row = true ∧ ∃ acc', body acc (.inr row) = .next acc' ∧ size acc' = size acc + 1) ∨
      ∃ error, body acc (.inr row) = .fail error

variable {body : α → F ⊕ R → Flow α φ} {wrap : Error → φ} {ahead : Nat → Nat} {limit : Nat}
  {good : R → Bool} {size : α → Nat}

/-- The loop over the items of one statement: it takes all of them, or it breaks among the
rows, or it does not end well. -/
theorem feed_items (hbody : RowLimit body limit good size) (wrap : Error → φ)
    (status : Except Error F) (rows : List R) (p : Nat) (acc : α) (hsize : size acc ≤ limit) :
    (∃ p' acc', feed body wrap p acc
          (rows.map (fun row => .ok (.inr row)) ++ [status.map .inl]) = .more p' acc' ∧
        status.isOk = true ∧ size acc' = size acc + rows.length ∧ size acc' ≤ limit ∧
        ∀ row ∈ rows, good row = true) ∨
    (∃ p' left acc', feed body wrap p acc
          (rows.map (fun row => .ok (.inr row)) ++ [status.map .inl]) =
            .ended p' left (.done acc') ∧
        limit < size acc + rows.length ∧ ∀ row ∈ rows.take (limit - size acc), good row = true) ∨
    ∃ p' left outcome, feed body wrap p acc
          (rows.map (fun row => .ok (.inr row)) ++ [status.map .inl]) = .ended p' left outcome ∧
        ∀ acc', outcome ≠ .done acc' := by
  induction rows generalizing p acc with
  | nil =>
    cases p with
    | zero => exact Or.inr (Or.inr ⟨0, _, _, rfl, by simp⟩)
    | succ p =>
      cases status with
      | error error => exact Or.inr (Or.inr ⟨p, _, _, rfl, by simp⟩)
      | ok effect =>
        obtain ⟨acc', hnext, hacc'⟩ := hbody.effect acc effect
        refine Or.inl ⟨p, acc', ?_, rfl, hacc', hacc' ▸ hsize, by simp⟩
        simp [Except.map, feed, hnext]
  | cons row rows ih =>
    cases p with
    | zero => exact Or.inr (Or.inr ⟨0, _, _, rfl, by simp⟩)
    | succ p =>
      simp only [List.map_cons, List.cons_append, feed, List.length_cons]
      by_cases hfull : size acc = limit
      · obtain ⟨acc', hstop⟩ := hbody.full acc row hfull
        rw [hstop]
        refine Or.inr (Or.inl ⟨p, _, acc', rfl, by omega, ?_⟩)
        rw [hfull, Nat.sub_self, List.take_zero]
        exact fun row hrow => absurd hrow List.not_mem_nil
      · rcases hbody.row acc row hfull with ⟨hgood, acc', hnext, hacc'⟩ | ⟨error, hfail⟩
        · rw [hnext]
          have hroom : limit - size acc = (limit - size acc') + 1 := by omega
          rcases ih p acc' (by omega) with ⟨p', acc'', heq, hok, hlen, hle, hall⟩ |
            ⟨p', left, acc'', heq, hlt, hall⟩ | hended
          · refine Or.inl ⟨p', acc'', heq, hok, by omega, hle, ?_⟩
            exact List.forall_mem_cons.mpr ⟨hgood, hall⟩
          · refine Or.inr (Or.inl ⟨p', left, acc'', heq, by omega, ?_⟩)
            rw [hroom, List.take_succ_cons]
            exact List.forall_mem_cons.mpr ⟨hgood, hall⟩
          · exact Or.inr (Or.inr hended)
        · rw [hfail]
          exact Or.inr (Or.inr ⟨p, _, _, rfl, by simp⟩)

/-- Where a loop that ends well has left the text. -/
theorem drive_leaves (hbody : RowLimit body limit good size) (statements : List (Statement D S R))
    (p : Nat) (w : World D S) (acc : α) {acc' : α} (hsize : size acc ≤ limit)
    (hdone : (driveAhead body wrap ahead p w acc (stream E id w statements)).outcome =
      .done acc') :
    ∃ n ≤ statements.length,
      (driveAhead body wrap ahead p w acc (stream E id w statements)).world =
        execAll E id w (statements.take n) ∧
      CanLeave E id good (limit - size acc) w statements n := by
  induction statements generalizing p w acc with
  | nil =>
    cases p with
    | zero => simp [drive] at hdone
    | succ p =>
      rw [stream, driveAhead_nil]
      exact ⟨0, Nat.le_refl 0, rfl, trivial, by simp [ranRows], Or.inr ⟨rfl, trivial⟩⟩
  | cons s rest ih =>
    cases p with
    | zero => simp [drive] at hdone
    | succ p =>
      rw [drive_exec] at hdone ⊢
      have hitems : (exec E id w s).items E =
          (exec E id w s).rows.map (fun row => .ok (.inr row)) ++
            [((exec E id w s).status.map fun _ =>
              E.effect (exec E id w s).world.conn.session).map .inl] := by
        cases hstatus : (exec E id w s).status <;> simp [Result.items, hstatus, Except.map]
      rcases feed_items hbody wrap ((exec E id w s).status.map fun _ =>
          E.effect (exec E id w s).world.conn.session) (exec E id w s).rows (p + 1) acc hsize with
        ⟨p', acc₁, hfeed, hok, hlen, hle, hall⟩ | ⟨p', left, acc₁, hfeed, hlt, hall⟩ |
          ⟨p', left, outcome, hfeed, hne⟩ <;> rw [← hitems] at hfeed <;> rw [hfeed] at hdone ⊢
      · have hstatus : (exec E id w s).status = .ok () := by
          cases hstatus : (exec E id w s).status with
          | ok _ => rfl
          | error error => simp [hstatus, Except.map, Except.isOk, Except.toBool] at hok
        simp only [Fed.resume, Result.following, hstatus] at hdone ⊢
        obtain ⟨n, hn, hworld, hleave⟩ := ih p' _ acc₁ hle hdone
        have hroom : limit - size acc =
            (exec E id w s).rows.length + (limit - size acc₁) := by omega
        rw [hroom]
        exact ⟨n + 1, Nat.succ_le_succ hn, hworld, hleave.cons hstatus hall⟩
      · -- the rows that the loop has taken are all of this statement
        have hcut : limit - size acc < (exec E id w s).rows.length := by omega
        simp only [Fed.resume, Result.following]
        cases hstatus : (exec E id w s).status with
        | error error =>
          exact ⟨1, Nat.le_add_left 1 _, by simp, .cut hcut hall trivial⟩
        | ok _ =>
          obtain ⟨n, hn, hlead, hsucceeds⟩ := lead_stream E id (exec E id w s).world rest
            (ahead p' - left)
          exact ⟨n + 1, Nat.succ_le_succ hn, hlead, .cut hcut hall (hsucceeds.take_cons hstatus)⟩
      · exact absurd hdone (hne acc')

variable (E id) in
/-- Every statement ends well or yields a row. -/
def Passes (w : World D S) : List (Statement D S R) → Prop
  | [] => True
  | s :: rest =>
    ((exec E id w s).status = .ok () ∨ (exec E id w s).rows ≠ []) ∧
      Passes (exec E id w s).world rest

/-- What every statement that ends well or yields a row keeps, such statements keep. -/
theorem execAll_passes {I : World D S → Prop} {w : World D S} {statements : List (Statement D S R)}
    (hw : I w) (hpasses : Passes E id w statements)
    (hstep : ∀ w, I w → ∀ s ∈ statements,
      (exec E id w s).status = .ok () ∨ (exec E id w s).rows ≠ [] → I (exec E id w s).world) :
    I (execAll E id w statements) := by
  induction statements generalizing w with
  | nil => exact hw
  | cons s rest ih =>
    exact ih (hstep w hw s List.mem_cons_self hpasses.1) hpasses.2
      fun w hw s hs => hstep w hw s (List.mem_cons_of_mem _ hs)

/-- A text whose last statement is not skipped passes. -/
theorem passes_of_succeeds {w : World D S} {statements : List (Statement D S R)} (room : Nat)
    (hfits : (ranRows E id w statements.dropLast).length ≤ room)
    (hsucceeds : Succeeds E id w statements.dropLast)
    (hleft : room < (ranRows E id w statements).length ∨ Succeeds E id w statements) :
    Passes E id w statements := by
  induction statements generalizing w room with
  | nil => trivial
  | cons s rest ih =>
    cases rest with
    | nil =>
      refine ⟨?_, trivial⟩
      rcases hleft with hlt | ⟨hok, _⟩
      · refine Or.inr fun hnil => ?_
        simp [ranRows, hnil] at hlt
      · exact Or.inl hok
    | cons s' rest =>
      rw [List.dropLast_cons_cons] at hfits hsucceeds
      rw [ranRows, List.length_append] at hfits
      refine ⟨Or.inl hsucceeds.1, ih (room - (exec E id w s).rows.length) (by omega)
        hsucceeds.2 (hleft.imp (fun hlt => ?_) And.right)⟩
      rw [ranRows, List.length_append] at hlt
      omega

/-- The rows of the first statements are among the rows of more of them. -/
theorem ranRows_take_le (E : Engine D S F) (id : Nat) (w : World D S)
    (statements : List (Statement D S R)) {n : Nat} (hn : n < statements.length) :
    (ranRows E id w (statements.take n)).length ≤
      (ranRows E id w statements.dropLast).length := by
  induction statements generalizing w n with
  | nil => simp at hn
  | cons s rest ih =>
    cases n with
    | zero => exact Nat.zero_le _
    | succ n =>
      rw [List.length_cons] at hn
      cases rest with
      | nil => simp at hn
      | cons s' rest =>
        rw [List.take_succ_cons, List.dropLast_cons_cons, ranRows, ranRows, List.length_append,
          List.length_append]
        exact Nat.add_le_add_left (ih _ (Nat.lt_of_succ_lt_succ hn)) _

/-- A loop that ends well over a text has run every statement of it, unless the
limit is passed before the last statement. -/
theorem drive_stream (hbody : RowLimit body limit good size) {statements : List (Statement D S R)}
    {p : Nat} {w : World D S} (acc : α) {acc' : α}
    (hfits : size acc + (ranRows E id w statements.dropLast).length ≤ limit)
    (hdone : (driveAhead body wrap ahead p w acc (stream E id w statements)).outcome =
      .done acc') :
    (driveAhead body wrap ahead p w acc (stream E id w statements)).world =
        execAll E id w statements ∧ Passes E id w statements := by
  obtain ⟨n, hn, hworld, hleave⟩ := drive_leaves hbody statements p w acc (by omega) hdone
  have hall : n = statements.length := by
    rcases hleave.left with hlt | ⟨hall, _⟩
    · rcases Nat.lt_or_eq_of_le hn with hn | hall
      · have := ranRows_take_le E id w statements hn
        omega
      · exact hall
    · exact hall
  subst hall
  have hsucceeds := hleave.succeeds
  have hleft := hleave.left
  rw [← List.dropLast_eq_take] at hsucceeds
  rw [List.take_length] at hworld hleft
  exact ⟨hworld, passes_of_succeeds _ (by omega) hsucceeds (hleft.imp_right And.right)⟩

end RowLimit

end Sqlite
