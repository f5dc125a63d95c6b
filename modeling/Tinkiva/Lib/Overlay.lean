import Mathlib.Tactic.Common

/-!
# Records that an environment overlays

A record whose fields have keys, and an environment that gives texts to some of the keys.
`overlay` goes through the fields in their order.  A field whose key has a text takes what
the text parses to, and the first text that does not parse ends it.

A `Field` is a key, a place in the record, a parser and a printer.  `Lawful` is the law of
the place, and `Apart` says that two places are two.  For fields that are lawful and
pairwise apart there are four rules.

* `overlay_taken` and `overlay_keeps` say what an overlaid record has: in each field what
  its text says, or what it had, and outside of the fields what it had.
* `overlay_eq_ok_iff` says that there is no other record like that, if the fields and the
  rest determine a record.
* `overlay_eq_error_iff` says which text it is that ends it.
* `overlay_environment` is the round trip: what a record prints as an environment makes the
  record again.
-/

namespace Overlay

variable {ε σ : Type}

/-- A field of a record: its key, its place, how its texts are read, and the text of a value.
A value may have none. -/
structure Field (ε σ : Type) where
  {α : Type}
  key : String
  get : σ → α
  put : α → σ → σ
  parse : String → Except ε α
  text : α → Option String

namespace Field

/-- What is put into a field is there. -/
def Lawful (f : Field ε σ) : Prop := ∀ a s, f.get (f.put a s) = a

/-- What is put into one of the fields is not in the other one. -/
def Apart (f g : Field ε σ) : Prop :=
  (∀ a s, f.get (g.put a s) = f.get s) ∧ ∀ a s, g.get (f.put a s) = g.get s

/-- Sets the field, if its key has a text. -/
def apply (var : String → Option String) (s : σ) (f : Field ε σ) : Except ε σ :=
  match var f.key with
  | none => .ok s
  | some text => (f.parse text).map fun a => f.put a s

/-- The field of `s'` is what its text says, or else that of `s`. -/
def Taken (f : Field ε σ) (var : String → Option String) (s s' : σ) : Prop :=
  match var f.key with
  | none => f.get s' = f.get s
  | some text => f.parse text = .ok (f.get s')

/-- The key has no text, or one that parses. -/
def Readable (f : Field ε σ) (var : String → Option String) : Prop :=
  ∀ text, var f.key = some text → ∃ a, f.parse text = .ok a

variable {f : Field ε σ} {var : String → Option String} {s s' : σ}

theorem apply_of_none (h : var f.key = none) : f.apply var s = .ok s := by
  rw [apply, h]

theorem apply_of_some {text : String} (h : var f.key = some text) :
    f.apply var s = (f.parse text).map fun a => f.put a s := by
  rw [apply, h]

/-- What the step of one field does. -/
theorem apply_eq_ok (h : f.apply var s = .ok s') :
    var f.key = none ∧ s' = s ∨
      ∃ text a, var f.key = some text ∧ f.parse text = .ok a ∧ s' = f.put a s := by
  cases hvar : var f.key with
  | none =>
    rw [apply_of_none hvar] at h
    exact Or.inl ⟨rfl, (Except.ok.inj h).symm⟩
  | some text =>
    rw [apply_of_some hvar] at h
    cases hparse : f.parse text with
    | error e => simp [hparse, Except.map] at h
    | ok a =>
      rw [hparse] at h
      exact Or.inr ⟨text, a, rfl, hparse, (Except.ok.inj h).symm⟩

theorem apply_of_readable (h : f.Readable var) (s : σ) : ∃ s', f.apply var s = .ok s' := by
  cases hvar : var f.key with
  | none => exact ⟨s, apply_of_none hvar⟩
  | some text =>
    obtain ⟨a, ha⟩ := h text hvar
    exact ⟨f.put a s, by rw [apply_of_some hvar, ha]; rfl⟩

theorem apply_eq_error_iff {e : ε} :
    f.apply var s = .error e ↔ ∃ text, var f.key = some text ∧ f.parse text = .error e := by
  cases hvar : var f.key with
  | none => simp [apply_of_none hvar]
  | some text =>
    rw [apply_of_some hvar]
    cases hparse : f.parse text with
    | error e' => simp [Except.map, hparse]
    | ok a => simp [Except.map, hparse]

/-- The step of a field keeps what the field does not hold. -/
theorem apply_keeps {β : Type} {view : σ → β} (hview : ∀ a s, view (f.put a s) = view s)
    (h : f.apply var s = .ok s') : view s' = view s := by
  rcases apply_eq_ok h with ⟨_, rfl⟩ | ⟨text, a, _, _, rfl⟩
  · rfl
  · exact hview a s

theorem taken_of_apply (hlaw : f.Lawful) (h : f.apply var s = .ok s') : f.Taken var s s' := by
  rcases apply_eq_ok h with ⟨hvar, rfl⟩ | ⟨text, a, hvar, hparse, rfl⟩
  · simp [Taken, hvar]
  · simp [Taken, hvar, hparse, hlaw a s]

theorem Taken.readable (h : f.Taken var s s') : f.Readable var := by
  intro text hvar
  rw [Taken, hvar] at h
  exact ⟨_, h⟩

/-- The environment and the old field determine the new one. -/
theorem Taken.unique {s'' : σ} (h : f.Taken var s s') (h' : f.Taken var s s'') :
    f.get s' = f.get s'' := by
  cases hvar : var f.key with
  | none =>
    rw [Taken, hvar] at h h'
    exact Eq.trans h (Eq.symm h')
  | some text =>
    rw [Taken, hvar] at h h'
    exact Except.ok.inj (h.symm.trans h')

theorem taken_congr {t t' : σ} (hs : f.get t = f.get s) (hs' : f.get t' = f.get s') :
    f.Taken var t t' ↔ f.Taken var s s' := by
  rw [Taken, Taken, hs, hs']

end Field

/-- Sets the fields whose keys have texts, in their order. -/
def overlay (fields : List (Field ε σ)) (var : String → Option String) (s : σ) : Except ε σ :=
  fields.foldlM (Field.apply var) s

variable {fields : List (Field ε σ)} {var : String → Option String} {s s' : σ}

@[simp] theorem overlay_nil : overlay ([] : List (Field ε σ)) var s = .ok s := rfl

@[simp] theorem overlay_cons (f : Field ε σ) :
    overlay (f :: fields) var s = f.apply var s >>= fun s₁ => overlay fields var s₁ := rfl

theorem overlay_append (before : List (Field ε σ)) :
    overlay (before ++ fields) var s = overlay before var s >>= overlay fields var :=
  List.foldlM_append

theorem overlay_cons_eq_ok {f : Field ε σ} (h : overlay (f :: fields) var s = .ok s') :
    ∃ s₁, f.apply var s = .ok s₁ ∧ overlay fields var s₁ = .ok s' := by
  rw [overlay_cons] at h
  cases happly : f.apply var s with
  | error e => simp [happly, bind, Except.bind] at h
  | ok s₁ =>
    rw [happly] at h
    exact ⟨s₁, rfl, h⟩

/-! ## What an overlaid record has -/

/-- What no field holds is kept. -/
theorem overlay_keeps {β : Type} {view : σ → β}
    (hview : ∀ f ∈ fields, ∀ a s, view (f.put a s) = view s)
    (h : overlay fields var s = .ok s') : view s' = view s := by
  induction fields generalizing s with
  | nil =>
    obtain rfl := Except.ok.inj h
    rfl
  | cons f fields ih =>
    obtain ⟨s₁, happly, hrest⟩ := overlay_cons_eq_ok h
    rw [ih (fun g hg => hview g (List.mem_cons_of_mem f hg)) hrest]
    exact Field.apply_keeps (hview f List.mem_cons_self) happly

/-- Every field is taken. -/
theorem overlay_taken (hlaw : ∀ f ∈ fields, f.Lawful) (hapart : fields.Pairwise Field.Apart)
    (h : overlay fields var s = .ok s') : ∀ f ∈ fields, f.Taken var s s' := by
  induction fields generalizing s with
  | nil =>
    intro f hf
    exact absurd hf List.not_mem_nil
  | cons f fields ih =>
    obtain ⟨s₁, happly, hrest⟩ := overlay_cons_eq_ok h
    obtain ⟨hhead, htail⟩ := List.pairwise_cons.mp hapart
    intro g hg
    rcases List.mem_cons.mp hg with rfl | hg
    · -- The fields behind it leave it alone.
      have hkept : g.get s' = g.get s₁ :=
        overlay_keeps (fun k hk a s => (hhead k hk).1 a s) hrest
      exact (Field.taken_congr rfl hkept).mpr
        (Field.taken_of_apply (hlaw g List.mem_cons_self) happly)
    · have hkept : g.get s₁ = g.get s := Field.apply_keeps (hhead g hg).2 happly
      exact (Field.taken_congr hkept rfl).mp
        (ih (fun k hk => hlaw k (List.mem_cons_of_mem f hk)) htail hrest g hg)

/-- Texts that all parse do not end it. -/
theorem overlay_of_readable (h : ∀ f ∈ fields, f.Readable var) (s : σ) :
    ∃ s', overlay fields var s = .ok s' := by
  induction fields generalizing s with
  | nil => exact ⟨s, rfl⟩
  | cons f fields ih =>
    obtain ⟨s₁, happly⟩ := Field.apply_of_readable (h f List.mem_cons_self) s
    obtain ⟨s', hrest⟩ := ih (fun g hg => h g (List.mem_cons_of_mem f hg)) s₁
    exact ⟨s', by rw [overlay_cons, happly]; exact hrest⟩

/-- The exact law of an overlay, for a record that its fields and `rest` determine. -/
theorem overlay_eq_ok_iff {β : Type} {rest : σ → β} (hlaw : ∀ f ∈ fields, f.Lawful)
    (hapart : fields.Pairwise Field.Apart)
    (hrest : ∀ f ∈ fields, ∀ a s, rest (f.put a s) = rest s)
    (hext : ∀ a b, (∀ f ∈ fields, f.get a = f.get b) → rest a = rest b → a = b) :
    overlay fields var s = .ok s' ↔ rest s' = rest s ∧ ∀ f ∈ fields, f.Taken var s s' := by
  constructor
  · intro h
    exact ⟨overlay_keeps hrest h, overlay_taken hlaw hapart h⟩
  · rintro ⟨hkept, htaken⟩
    obtain ⟨s'', h⟩ := overlay_of_readable (fun f hf => (htaken f hf).readable) s
    have heq : s'' = s' := by
      refine hext s'' s' (fun f hf => ?_) ((overlay_keeps hrest h).trans hkept.symm)
      exact (overlay_taken hlaw hapart h f hf).unique (htaken f hf)
    rw [h, heq]

/-! ## What ends it -/

/-- An overlay ends with the error of the first text that does not parse. -/
theorem overlay_eq_error_iff {e : ε} :
    overlay fields var s = .error e ↔
      ∃ before f after text, fields = before ++ f :: after ∧
        (∀ g ∈ before, g.Readable var) ∧ var f.key = some text ∧ f.parse text = .error e := by
  constructor
  · intro h
    induction fields generalizing s with
    | nil => simp at h
    | cons f fields ih =>
      rw [overlay_cons] at h
      cases happly : f.apply var s with
      | error e' =>
        obtain rfl : e' = e := by simpa [happly, bind, Except.bind] using h
        obtain ⟨text, hvar, hparse⟩ := Field.apply_eq_error_iff.mp happly
        exact ⟨[], f, fields, text, rfl, fun g hg => absurd hg List.not_mem_nil, hvar, hparse⟩
      | ok s₁ =>
        rw [happly] at h
        obtain ⟨before, g, after, text, rfl, hbefore, hvar, hparse⟩ := ih h
        refine ⟨f :: before, g, after, text, rfl, fun k hk => ?_, hvar, hparse⟩
        rcases List.mem_cons.mp hk with rfl | hk
        · intro text hvar
          rcases Field.apply_eq_ok happly with ⟨hnone, _⟩ | ⟨text', a, hsome, hparse, _⟩
          · simp [hnone] at hvar
          · obtain rfl := Option.some.inj (hsome.symm.trans hvar)
            exact ⟨a, hparse⟩
        · exact hbefore k hk
  · rintro ⟨before, f, after, text, rfl, hbefore, hvar, hparse⟩
    obtain ⟨s₁, hs₁⟩ := overlay_of_readable hbefore s
    have herror : f.apply var s₁ = .error e := Field.apply_eq_error_iff.mpr ⟨text, hvar, hparse⟩
    rw [overlay_append, hs₁]
    show overlay (f :: after) var s₁ = .error e
    rw [overlay_cons, herror]
    rfl

/-! ## The round trip -/

/-- The environment that has the texts of a record. -/
def environment (fields : List (Field ε σ)) (s : σ) (key : String) : Option String :=
  (fields.find? fun f => f.key == key).bind fun f => f.text (f.get s)

/-- The field of `s` can be read again, over the record `t`: its text parses to it, or it has
no text and is that of `t`. -/
def Field.Printable (f : Field ε σ) (t s : σ) : Prop :=
  match f.text (f.get s) with
  | none => f.get s = f.get t
  | some text => f.parse text = .ok (f.get s)

/-- Fields of different keys have their own texts. -/
theorem environment_key (hkeys : fields.Pairwise fun f g => f.key ≠ g.key) {f : Field ε σ}
    (hf : f ∈ fields) : environment fields s f.key = f.text (f.get s) := by
  induction fields with
  | nil => exact absurd hf List.not_mem_nil
  | cons g fields ih =>
    obtain ⟨hhead, htail⟩ := List.pairwise_cons.mp hkeys
    rcases List.mem_cons.mp hf with rfl | hf
    · simp [environment]
    · have hne : g.key ≠ f.key := hhead f hf
      rw [← ih htail hf, environment, environment, List.find?_cons_of_neg (by simpa using hne)]

/-- What a record prints makes the record again, over any record with the same rest in which
the fields without a text are the same. -/
theorem overlay_environment {β : Type} {rest : σ → β} {t : σ} (hlaw : ∀ f ∈ fields, f.Lawful)
    (hapart : fields.Pairwise Field.Apart)
    (hrest : ∀ f ∈ fields, ∀ a s, rest (f.put a s) = rest s)
    (hext : ∀ a b, (∀ f ∈ fields, f.get a = f.get b) → rest a = rest b → a = b)
    (hkeys : fields.Pairwise fun f g => f.key ≠ g.key)
    (hprint : ∀ f ∈ fields, f.Printable t s) (hsame : rest s = rest t) :
    overlay fields (environment fields s) t = .ok s := by
  refine (overlay_eq_ok_iff hlaw hapart hrest hext).mpr ⟨hsame, fun f hf => ?_⟩
  have hprinted := hprint f hf
  rw [Field.Taken, environment_key hkeys hf]
  rw [Field.Printable] at hprinted
  split
  · rename_i hnone
    rwa [hnone] at hprinted
  · rename_i text hsome
    rwa [hsome] at hprinted

end Overlay
