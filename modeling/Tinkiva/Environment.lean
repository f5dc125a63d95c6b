import Tinkiva.Settings
import Tinkiva.Lib.Overlay

/-!
# What a configuration can be

The model of `load` follows the source from one variable to the next.  Here is what it
comes to.  `environmentFields` are the places in the settings that the environment can set, with
their keys and the numbers that fit, and `checks` are the tests of `validate`.

* `load_iff` says which settings a file and an environment give.
* `load_refuses` says what is refused, and with which text.
* `reachable_settings` goes back: it says which settings there is an environment for.
-/

namespace Tinkiva.Config

open Overlay

/-! ## Numerals -/

/-- The characters behind an optional plus sign. -/
def unsigned (text : String) : List Char :=
  match text.toList with
  | '+' :: digits => digits
  | digits => digits

/-- A decimal numeral with an optional plus sign. -/
structure Numeral (text : String) (n : Nat) : Prop where
  nonempty : unsigned text ≠ []
  digits : ∀ c ∈ unsigned text, c.isDigit = true
  value : Nat.ofDigitChars 10 (unsigned text) 0 = n

theorem le_ofDigitChars (cs : List Char) (value : Nat) : value ≤ Nat.ofDigitChars 10 cs value := by
  induction cs generalizing value with
  | nil => simp
  | cons c cs ih =>
    rw [Nat.ofDigitChars_cons]
    exact Nat.le_trans (by omega) (ih _)

theorem parseDigits_eq_ok {max value n : Nat} {cs : List Char} (hvalue : value ≤ max) :
    parseDigits max value cs = .ok n ↔
      (∀ c ∈ cs, c.isDigit = true) ∧ Nat.ofDigitChars 10 cs value = n ∧ n ≤ max := by
  induction cs generalizing value with
  | nil =>
    simp only [parseDigits, Except.ok.injEq, Nat.ofDigitChars_nil]
    constructor
    · rintro rfl
      exact ⟨by simp, rfl, hvalue⟩
    · rintro ⟨_, h, _⟩
      exact h
  | cons c cs ih =>
    rw [parseDigits, Nat.ofDigitChars_cons]
    have hnext : value * 10 + (c.toNat - 48) = 10 * value + (c.toNat - '0'.toNat) := by
      rw [Nat.mul_comm]
      rfl
    by_cases hdigit : c.isDigit = true
    · by_cases hle : value * 10 + (c.toNat - 48) ≤ max
      · rw [if_pos hdigit, if_pos hle, ih hle, hnext]
        simp [hdigit]
      · rw [if_pos hdigit, if_neg hle]
        have hgrows := le_ofDigitChars cs (10 * value + (c.toNat - '0'.toNat))
        simp only [reduceCtorEq, false_iff]
        rintro ⟨_, rfl, hfits⟩
        omega
    · rw [if_neg hdigit]
      simp [hdigit]

/-- The reasons for which digits are refused.  What goes wrong first counts. -/
theorem parseDigits_eq_error {max value : Nat} {cs : List Char} {error : String}
    (hvalue : value ≤ max) :
    parseDigits max value cs = .error error ↔
      ∃ before c after, cs = before ++ c :: after ∧ (∀ d ∈ before, d.isDigit = true) ∧
        Nat.ofDigitChars 10 before value ≤ max ∧
        (c.isDigit = false ∧ error = "invalid digit found in string" ∨
          c.isDigit = true ∧ max < Nat.ofDigitChars 10 (before ++ [c]) value ∧
            error = "number too large to fit in target type") := by
  induction cs generalizing value with
  | nil => simp [parseDigits]
  | cons c cs ih =>
    have hnext : value * 10 + (c.toNat - 48) = 10 * value + (c.toNat - '0'.toNat) := by
      rw [Nat.mul_comm]
      rfl
    rw [parseDigits]
    constructor
    · intro h
      split at h
      · rename_i hdigit
        split at h
        · rename_i hle
          obtain ⟨before, d, after, rfl, hbefore, hfits, hcause⟩ := (ih hle).mp h
          refine ⟨c :: before, d, after, rfl, ?_, ?_, ?_⟩
          · intro k hk
            rcases List.mem_cons.mp hk with rfl | hk
            · exact hdigit
            · exact hbefore k hk
          · rwa [Nat.ofDigitChars_cons, ← hnext]
          · rwa [List.cons_append, Nat.ofDigitChars_cons, ← hnext]
        · rename_i hgt
          refine ⟨[], c, cs, rfl, by simp, by simpa using hvalue, Or.inr ⟨hdigit, ?_, ?_⟩⟩
          · rw [List.nil_append, Nat.ofDigitChars_cons, Nat.ofDigitChars_nil, ← hnext]
            exact Nat.not_le.mp hgt
          · exact (Except.error.inj h).symm
      · rename_i hdigit
        exact ⟨[], c, cs, rfl, by simp, by simpa using hvalue,
          Or.inl ⟨Bool.eq_false_iff.mpr hdigit, (Except.error.inj h).symm⟩⟩
    · rintro ⟨before, d, after, heq, hbefore, hfits, hcause⟩
      rcases List.cons_eq_append_iff.mp heq with ⟨rfl, heq⟩ | ⟨before, rfl, rfl⟩
      · obtain ⟨rfl, rfl⟩ := List.cons.inj heq
        rcases hcause with ⟨hdigit, rfl⟩ | ⟨hdigit, hgt, rfl⟩
        · simp [hdigit]
        · rw [List.nil_append, Nat.ofDigitChars_cons, Nat.ofDigitChars_nil, ← hnext] at hgt
          simp [hdigit, Nat.not_le.mpr hgt]
      · have hdigit := hbefore c List.mem_cons_self
        rw [Nat.ofDigitChars_cons, ← hnext] at hfits
        rw [List.cons_append, Nat.ofDigitChars_cons, ← hnext] at hcause
        have hle : value * 10 + (c.toNat - 48) ≤ max :=
          Nat.le_trans (le_ofDigitChars before _) hfits
        rw [if_pos hdigit, if_pos hle]
        exact (ih hle).mpr ⟨before, d, after, rfl,
          fun k hk => hbefore k (List.mem_cons_of_mem c hk), hfits, hcause⟩

/-- A text is read behind its sign, if there is something. -/
theorem parseUnsigned_eq (max : Nat) (text : String) :
    parseUnsigned max text =
      if unsigned text ≠ [] then parseDigits max 0 (unsigned text)
      else if text.toList = [] then .error "cannot parse integer from empty string"
      else .error "invalid digit found in string" := by
  rw [parseUnsigned, unsigned]
  rcases text.toList with _ | ⟨c, digits⟩
  · rfl
  · by_cases hc : c = '+'
    · subst hc
      cases digits with
      | nil => rfl
      | cons d digits => simp
    · simp [hc]

/-- Exactly the numerals of numbers that fit are read. -/
theorem parseUnsigned_eq_ok {max n : Nat} {text : String} :
    parseUnsigned max text = .ok n ↔ Numeral text n ∧ n ≤ max := by
  rw [parseUnsigned_eq]
  constructor
  · intro h
    split at h
    · rename_i hne
      obtain ⟨hdigits, hvalue, hle⟩ := (parseDigits_eq_ok (Nat.zero_le max)).mp h
      exact ⟨⟨hne, hdigits, hvalue⟩, hle⟩
    · split at h <;> simp at h
  · rintro ⟨⟨hne, hdigits, hvalue⟩, hle⟩
    rw [if_pos hne]
    exact (parseDigits_eq_ok (Nat.zero_le max)).mpr ⟨hdigits, hvalue, hle⟩

/-- What `str::parse` can say of a text. -/
def reasons : List String :=
  ["cannot parse integer from empty string", "invalid digit found in string",
    "number too large to fit in target type"]

theorem parseUnsigned_reasons {max : Nat} {text reason : String}
    (h : parseUnsigned max text = .error reason) : reason ∈ reasons := by
  rw [parseUnsigned_eq] at h
  split at h
  · obtain ⟨_, _, _, _, _, _, hcause⟩ := (parseDigits_eq_error (Nat.zero_le max)).mp h
    rcases hcause with ⟨_, rfl⟩ | ⟨_, _, rfl⟩
    · simp [reasons]
    · simp [reasons]
  · split at h
    · obtain rfl := Except.error.inj h
      simp [reasons]
    · obtain rfl := Except.error.inj h
      simp [reasons]

/-- The decimal digits of a number are a numeral of it. -/
theorem numeral_repr (n : Nat) : Numeral n.repr n := by
  have hfirst : ∀ rest, Nat.toDigits 10 n ≠ '+' :: rest := by
    intro rest h
    have hplus : '+' ∈ Nat.toDigits 10 n := h ▸ List.mem_cons_self
    exact absurd (Nat.isDigit_of_mem_toDigits (by decide) (by decide) hplus) (by decide)
  have hunsigned : unsigned n.repr = Nat.toDigits 10 n := by
    rw [unsigned, Nat.toList_repr]
    split
    · rename_i digits h
      exact absurd h (hfirst digits)
    · rfl
  refine ⟨?_, ?_, ?_⟩
  · rw [hunsigned]
    exact Nat.toDigits_ne_nil
  · rw [hunsigned]
    exact fun c hc => Nat.isDigit_of_mem_toDigits (by decide) (by decide) hc
  · rw [hunsigned]
    exact Nat.ofDigitChars_ten_toDigits

/-! ## The variables -/

/-- A number of the database settings: its key, and the greatest number of its type. -/
def numberField (key : String) (max : Nat) (get : DatabaseSettings → Nat)
    (put : Nat → DatabaseSettings → DatabaseSettings) : Field String Settings where
  key := key
  get := fun settings => get settings.database
  put := fun n settings => { settings with database := put n settings.database }
  parse := fun text =>
    (parseUnsigned max text).mapError fun error => "invalid " ++ key ++ ": " ++ error
  text := fun n => some n.repr

/-- `TINKIVA_BIND`. -/
def bindField : Field String Settings where
  key := "TINKIVA_BIND"
  get := fun settings => settings.server.bind
  put := fun value settings => { settings with server := { settings.server with bind := value } }
  parse := .ok
  text := some

/-- `TINKIVA_AUTH_TOKEN`.  An empty text is no token. -/
def authTokenField : Field String Settings where
  key := "TINKIVA_AUTH_TOKEN"
  get := fun settings => settings.server.authToken
  put := fun value settings =>
    { settings with server := { settings.server with authToken := value } }
  parse := fun text => .ok (if text.isEmpty then none else some text)
  text := fun value =>
    match value with
    | none => some ""
    | some token => if token.isEmpty then none else some token

/-- `TINKIVA_DATABASE_DIR`. -/
def directoryField : Field String Settings where
  key := "TINKIVA_DATABASE_DIR"
  get := fun settings => settings.database.directory
  put := fun value settings =>
    { settings with database := { settings.database with directory := value } }
  parse := .ok
  text := some

/-- `TINKIVA_CACHE_SIZE_KB`.  It can be set and not unset. -/
def cacheSizeKbField : Field String Settings where
  key := "TINKIVA_CACHE_SIZE_KB"
  get := fun settings => settings.database.cacheSizeKb
  put := fun value settings =>
    { settings with database := { settings.database with cacheSizeKb := value } }
  parse := fun text => ((parseUnsigned u32Max text).map some).mapError fun error =>
    "invalid TINKIVA_CACHE_SIZE_KB: " ++ error
  text := fun value => value.map Nat.repr

/-- What the environment can set, in the order of `apply_environment`. -/
def environmentFields : List (Field String Settings) :=
  [ bindField,
    authTokenField,
    directoryField,
    numberField "TINKIVA_MAX_OPEN_DATABASES" u64Max (·.maxOpenDatabases)
      fun n database => { database with maxOpenDatabases := n },
    numberField "TINKIVA_IDLE_TIMEOUT_SECONDS" u64Max (·.idleTimeoutSeconds)
      fun n database => { database with idleTimeoutSeconds := n },
    numberField "TINKIVA_CLEANUP_INTERVAL_SECONDS" u64Max (·.cleanupIntervalSeconds)
      fun n database => { database with cleanupIntervalSeconds := n },
    numberField "TINKIVA_CHECKPOINT_INTERVAL_SECONDS" u64Max (·.checkpointIntervalSeconds)
      fun n database => { database with checkpointIntervalSeconds := n },
    numberField "TINKIVA_READER_CONNECTIONS" u32Max (·.readerConnections)
      fun n database => { database with readerConnections := n },
    numberField "TINKIVA_BUSY_TIMEOUT_MS" u64Max (·.busyTimeoutMs)
      fun n database => { database with busyTimeoutMs := n },
    numberField "TINKIVA_ACQUIRE_TIMEOUT_SECONDS" u64Max (·.acquireTimeoutSeconds)
      fun n database => { database with acquireTimeoutSeconds := n },
    numberField "TINKIVA_MAX_RESULT_ROWS" u64Max (·.maxResultRows)
      fun n database => { database with maxResultRows := n },
    cacheSizeKbField,
    numberField "TINKIVA_WRITER_CACHE_SIZE_KB" u32Max (·.writerCacheSizeKb)
      fun n database => { database with writerCacheSizeKb := n },
    numberField "TINKIVA_READER_CACHE_SIZE_KB" u32Max (·.readerCacheSizeKb)
      fun n database => { database with readerCacheSizeKb := n },
    numberField "TINKIVA_STATEMENT_CACHE_CAPACITY" u64Max (·.statementCacheCapacity)
      fun n database => { database with statementCacheCapacity := n },
    numberField "TINKIVA_MAX_CONCURRENT_REQUESTS" u64Max (·.maxConcurrentRequests)
      fun n database => { database with maxConcurrentRequests := n },
    numberField "TINKIVA_MAX_CONCURRENT_REQUESTS_PER_DATABASE" u64Max
      (·.maxConcurrentRequestsPerDatabase)
      fun n database => { database with maxConcurrentRequestsPerDatabase := n },
    numberField "TINKIVA_ADMISSION_TIMEOUT_MS" u64Max (·.admissionTimeoutMs)
      fun n database => { database with admissionTimeoutMs := n },
    numberField "TINKIVA_MMAP_SIZE_MB" u64Max (·.mmapSizeMb)
      fun n database => { database with mmapSizeMb := n },
    numberField "TINKIVA_WAL_SIZE_LIMIT_MB" u64Max (·.walSizeLimitMb)
      fun n database => { database with walSizeLimitMb := n } ]

/-- What it cannot set. -/
def fixed (settings : Settings) : Nat × Nat :=
  (settings.server.bodyLimitBytes, settings.server.requestTimeoutSeconds)

section Fields

variable {outside : Outside} {settings base : Settings}

/-- `set_number` is the step of a field. -/
theorem setNumber_bind {β : Type} {key : String} {max x : Nat} {get : DatabaseSettings → Nat}
    {put : Nat → DatabaseSettings → DatabaseSettings} {f : Nat → Except String β}
    {g : Settings → Except String β}
    (h : ∀ n, f n = g { settings with database := put n settings.database })
    (hx : x = get settings.database)
    (hput : ∀ database, put (get database) database = database) :
    setNumber outside max key x >>= f =
      (numberField key max get put).apply outside.var settings >>= g := by
  subst hx
  simp only [Field.apply, numberField, setNumber]
  cases outside.var key with
  | none =>
    show f _ = g settings
    rw [h, hput]
  | some text =>
    dsimp only
    cases parseUnsigned max text with
    | error e => rfl
    | ok n => exact h n

/-- So is the branch of the legacy cache size. -/
theorem cacheSizeKb_bind {β γ : Type} {x : Option Nat} {f : Option Nat → Except String γ}
    {k : γ → Except String β} {g : Settings → Except String β}
    (h : ∀ kb, f kb >>= k = g { settings with
      database := { settings.database with cacheSizeKb := kb } })
    (hx : x = settings.database.cacheSizeKb) :
    (match outside.var "TINKIVA_CACHE_SIZE_KB" with
      | some value => (((parseUnsigned u32Max value).map some).mapError fun error =>
          "invalid TINKIVA_CACHE_SIZE_KB: " ++ error) >>= f
      | none => .ok x >>= f) >>= k =
      cacheSizeKbField.apply outside.var settings >>= g := by
  subst hx
  simp only [Field.apply, cacheSizeKbField]
  cases outside.var "TINKIVA_CACHE_SIZE_KB" with
  | none => exact h _
  | some text =>
    dsimp only
    cases parseUnsigned u32Max text with
    | error e => rfl
    | ok n => exact h (some n)

theorem apply_bindField : bindField.apply outside.var settings = .ok { settings with
    server := { settings.server with
      bind := setString outside "TINKIVA_BIND" settings.server.bind } } := by
  simp only [Field.apply, bindField, setString]
  cases outside.var "TINKIVA_BIND" <;> rfl

theorem apply_authTokenField : authTokenField.apply outside.var settings = .ok { settings with
    server := { settings.server with
      authToken := setOptionalString outside "TINKIVA_AUTH_TOKEN" settings.server.authToken } } := by
  simp only [Field.apply, authTokenField, setOptionalString]
  cases outside.var "TINKIVA_AUTH_TOKEN" <;> rfl

theorem apply_directoryField : directoryField.apply outside.var settings = .ok { settings with
    database := { settings.database with
      directory := setString outside "TINKIVA_DATABASE_DIR" settings.database.directory } } := by
  simp only [Field.apply, directoryField, setString]
  cases outside.var "TINKIVA_DATABASE_DIR" <;> rfl

/-- A field that takes every text ends nothing. -/
theorem apply_bind {β : Type} {f : Field String Settings} {s : Settings} {x : Except String β}
    {g : Settings → Except String β} (happly : f.apply outside.var settings = .ok s)
    (h : x = g s) : x = f.apply outside.var settings >>= g := by
  rw [happly]
  exact h

/-- The source goes through the fields. -/
theorem applyEnvironment_eq :
    settings.applyEnvironment outside = overlay environmentFields outside.var settings := by
  rw [Settings.applyEnvironment, DatabaseSettings.applyEnvironment, environmentFields]
  simp only [bind_assoc, overlay_cons, overlay_nil]
  refine apply_bind apply_bindField ?_
  refine apply_bind apply_authTokenField ?_
  refine apply_bind apply_directoryField ?_
  refine setNumber_bind (fun maxOpenDatabases => ?_) rfl (fun _ => rfl)
  refine setNumber_bind (fun idleTimeoutSeconds => ?_) rfl (fun _ => rfl)
  refine setNumber_bind (fun cleanupIntervalSeconds => ?_) rfl (fun _ => rfl)
  refine setNumber_bind (fun checkpointIntervalSeconds => ?_) rfl (fun _ => rfl)
  refine setNumber_bind (fun readerConnections => ?_) rfl (fun _ => rfl)
  refine setNumber_bind (fun busyTimeoutMs => ?_) rfl (fun _ => rfl)
  refine setNumber_bind (fun acquireTimeoutSeconds => ?_) rfl (fun _ => rfl)
  refine setNumber_bind (fun maxResultRows => ?_) rfl (fun _ => rfl)
  refine cacheSizeKb_bind (fun cacheSizeKb => ?_) rfl
  simp only [bind_assoc]
  refine setNumber_bind (fun writerCacheSizeKb => ?_) rfl (fun _ => rfl)
  refine setNumber_bind (fun readerCacheSizeKb => ?_) rfl (fun _ => rfl)
  refine setNumber_bind (fun statementCacheCapacity => ?_) rfl (fun _ => rfl)
  refine setNumber_bind (fun maxConcurrentRequests => ?_) rfl (fun _ => rfl)
  refine setNumber_bind (fun maxConcurrentRequestsPerDatabase => ?_) rfl (fun _ => rfl)
  refine setNumber_bind (fun admissionTimeoutMs => ?_) rfl (fun _ => rfl)
  refine setNumber_bind (fun mmapSizeMb => ?_) rfl (fun _ => rfl)
  refine setNumber_bind (fun walSizeLimitMb => ?_) rfl (fun _ => rfl)
  rfl

end Fields

/-! ## The table -/

theorem environmentFields_lawful : ∀ f ∈ environmentFields, f.Lawful := by
  simp [environmentFields, Field.Lawful, bindField, authTokenField, directoryField,
    cacheSizeKbField, numberField]

/-- No variable sets the field of another one. -/
theorem environmentFields_apart : environmentFields.Pairwise Field.Apart := by
  simp [environmentFields, Field.Apart, bindField, authTokenField, directoryField,
    cacheSizeKbField, numberField]

/-- No two variables have the same key. -/
theorem environmentFields_keys : environmentFields.Pairwise fun f g => f.key ≠ g.key := by
  simp [environmentFields, bindField, authTokenField, directoryField, cacheSizeKbField,
    numberField]

theorem fixed_put : ∀ f ∈ environmentFields, ∀ a settings,
    fixed (f.put a settings) = fixed settings := by
  simp [environmentFields, fixed, bindField, authTokenField, directoryField, cacheSizeKbField,
    numberField]

/-- The variables reach everything but what is fixed. -/
theorem settings_ext : ∀ a b : Settings,
    (∀ f ∈ environmentFields, f.get a = f.get b) → fixed a = fixed b → a = b := by
  rintro ⟨⟨_, _, _, _⟩, ⟨_, _, _, _, _, _, _, _, _, _, _, _, _, _, _, _, _, _⟩⟩
    ⟨⟨_, _, _, _⟩, ⟨_, _, _, _, _, _, _, _, _, _, _, _, _, _, _, _, _, _⟩⟩ hget hfixed
  simp [environmentFields, bindField, authTokenField, directoryField, cacheSizeKbField,
    numberField] at hget
  simp [fixed] at hfixed
  simp [hget, hfixed]

/-- What holds of each kind of field holds of the table. -/
theorem forall_environmentFields {P : Field String Settings → Prop} (hbind : P bindField)
    (htoken : P authTokenField) (hdirectory : P directoryField) (hcache : P cacheSizeKbField)
    (hnumber : ∀ key max get put, P (numberField key max get put)) :
    ∀ f ∈ environmentFields, P f := by
  simp [environmentFields, hbind, htoken, hdirectory, hcache, hnumber]

/-- What is said of a text names its variable. -/
theorem environmentFields_error : ∀ f ∈ environmentFields, ∀ value text,
    f.parse value = .error text →
      ∃ reason ∈ reasons, text = "invalid " ++ f.key ++ ": " ++ reason := by
  refine forall_environmentFields ?_ ?_ ?_ ?_ ?_
  · intro value text h
    simp [bindField] at h
  · intro value text h
    simp [authTokenField] at h
  · intro value text h
    simp [directoryField] at h
  · intro value text h
    simp only [cacheSizeKbField] at h
    cases hparse : parseUnsigned u32Max value with
    | ok n => simp [hparse, Except.mapError, Except.map] at h
    | error reason =>
      rw [hparse] at h
      exact ⟨reason, parseUnsigned_reasons hparse, (Except.error.inj h).symm⟩
  · intro key max get put value text h
    simp only [numberField] at h
    cases hparse : parseUnsigned max value with
    | ok n => simp [hparse, Except.mapError] at h
    | error reason =>
      rw [hparse] at h
      exact ⟨reason, parseUnsigned_reasons hparse, (Except.error.inj h).symm⟩

/-! ## The tests -/

/-- A test of `validate`: a number that must not be zero, and what is said if it is. -/
structure Check where
  get : Settings → Option Nat
  text : String

/-- The number is zero. -/
def Check.fails (check : Check) (settings : Settings) : Bool := check.get settings == some 0

/-- The tests of `validate`, in their order. -/
def checks : List Check :=
  [ ⟨fun s => s.database.maxOpenDatabases, "max_open_databases must be greater than zero"⟩,
    ⟨fun s => s.database.readerConnections, "reader_connections must be greater than zero"⟩,
    ⟨fun s => s.database.cleanupIntervalSeconds,
      "cleanup_interval_seconds must be greater than zero"⟩,
    ⟨fun s => s.database.checkpointIntervalSeconds,
      "checkpoint_interval_seconds must be greater than zero"⟩,
    ⟨fun s => s.database.cacheSizeKb, "cache_size_kb must be greater than zero when set"⟩,
    ⟨fun s => s.database.writerCacheSizeKb, "writer_cache_size_kb must be greater than zero"⟩,
    ⟨fun s => s.database.readerCacheSizeKb, "reader_cache_size_kb must be greater than zero"⟩,
    ⟨fun s => s.database.maxConcurrentRequests,
      "max_concurrent_requests must be greater than zero"⟩,
    ⟨fun s => s.database.maxConcurrentRequestsPerDatabase,
      "max_concurrent_requests_per_database must be greater than zero"⟩,
    ⟨fun s => s.database.maxResultRows, "max_result_rows must be greater than zero"⟩,
    ⟨fun s => s.server.bodyLimitBytes, "body_limit_bytes must be greater than zero"⟩ ]

/-- What the first failed test of a list says. -/
def firstFailure (settings : Settings) (cs : List Check) : Except String Unit :=
  match cs.find? fun check => check.fails settings with
  | some check => .error check.text
  | none => .ok ()

theorem firstFailure_cons (settings : Settings) (check : Check) (rest : List Check) :
    firstFailure settings (check :: rest) =
      if check.fails settings then .error check.text else firstFailure settings rest := by
  simp only [firstFailure, List.find?_cons]
  cases check.fails settings <;> rfl

theorem bailIf_bind {settings : Settings} {check : Check} {rest : List Check} {condition : Bool}
    {text : String} {next : Except String Unit} (h : next = firstFailure settings rest)
    (hcondition : check.fails settings = condition) (htext : check.text = text) :
    (bailIf condition text >>= fun _ => next) = firstFailure settings (check :: rest) := by
  subst hcondition htext h
  rw [firstFailure_cons, bailIf]
  cases check.fails settings <;> rfl

/-- The source goes through the tests. -/
theorem validate_eq (settings : Settings) :
    settings.validate = firstFailure settings checks := by
  rw [Settings.validate, checks]
  iterate 10 refine bailIf_bind ?_ rfl rfl
  rw [firstFailure_cons]
  rfl

/-- The settings pass when no test fails. -/
theorem validate_eq_ok {settings : Settings} :
    settings.validate = .ok () ↔ ∀ check ∈ checks, check.get settings ≠ some 0 := by
  rw [validate_eq, firstFailure]
  cases hfind : checks.find? fun check => check.fails settings with
  | none =>
    simp only [true_iff]
    intro check hcheck hzero
    exact List.find?_eq_none.mp hfind check hcheck (by simp [Check.fails, hzero])
  | some check =>
    simp only [reduceCtorEq, false_iff]
    intro hpass
    refine hpass check (List.mem_of_find?_eq_some hfind) ?_
    simpa [Check.fails] using List.find?_some hfind

/-- Settings that do not pass are refused with the text of the first test that fails. -/
theorem validate_eq_error {settings : Settings} {text : String} :
    settings.validate = .error text ↔
      ∃ before check after, checks = before ++ check :: after ∧
        (∀ c ∈ before, c.get settings ≠ some 0) ∧ check.get settings = some 0 ∧
        text = check.text := by
  have hfails (check : Check) : check.fails settings = true ↔ check.get settings = some 0 := by
    simp [Check.fails]
  rw [validate_eq, firstFailure]
  constructor
  · intro h
    cases hfind : checks.find? fun check => check.fails settings with
    | none => simp [hfind] at h
    | some check =>
      rw [hfind] at h
      obtain ⟨hzero, before, after, heq, hbefore⟩ := List.find?_eq_some_iff_append.mp hfind
      refine ⟨before, check, after, heq, fun c hc hzero => ?_, (hfails check).mp hzero,
        (Except.error.inj h).symm⟩
      simpa [(hfails c).mpr hzero] using hbefore c hc
  · rintro ⟨before, check, after, heq, hbefore, hzero, rfl⟩
    have hfind : (checks.find? fun check => check.fails settings) = some check := by
      refine List.find?_eq_some_iff_append.mpr
        ⟨(hfails check).mpr hzero, before, after, heq, fun c hc => ?_⟩
      simpa [Check.fails] using hbefore c hc
    rw [hfind]

/-! ## Loading -/

/-- The settings before the environment: those of the file, or the defaults. -/
def Outside.base (outside : Outside) (path : Option String) : Except String Settings :=
  path.elim (.ok .default) (readSettings outside)

section Load

variable {outside : Outside} {path : Option String} {settings base : Settings}

/-- What the environment makes of the settings before it. -/
theorem overlay_iff : overlay environmentFields outside.var base = .ok settings ↔
    fixed settings = fixed base ∧ ∀ f ∈ environmentFields, f.Taken outside.var base settings :=
  overlay_eq_ok_iff environmentFields_lawful environmentFields_apart fixed_put settings_ext

/-- `load`, in the order of its phases. -/
theorem load_eq : Settings.load outside path =
    (outside.base path).bind fun base =>
      (overlay environmentFields outside.var base).bind fun settings =>
        settings.validate.bind fun _ => .ok settings := by
  show (outside.base path).bind (fun base => (base.applyEnvironment outside).bind fun settings =>
    settings.validate.bind fun _ => .ok settings) = _
  simp only [applyEnvironment_eq]

/-- `load` succeeds if each of its phases does. -/
theorem load_eq_ok : Settings.load outside path = .ok settings ↔
    ∃ base, outside.base path = .ok base ∧
      overlay environmentFields outside.var base = .ok settings ∧ settings.validate = .ok () := by
  rw [load_eq]
  constructor
  · intro h
    obtain ⟨base, hbase, h⟩ := bind_eq_ok h
    obtain ⟨loaded, hoverlay, h⟩ := bind_eq_ok h
    obtain ⟨_, hvalid, h⟩ := bind_eq_ok h
    obtain rfl := Except.ok.inj h
    exact ⟨base, hbase, hoverlay, hvalid⟩
  · rintro ⟨base, hbase, hoverlay, hvalid⟩
    simp only [hbase, Except.bind, hoverlay, hvalid]

/-- The settings that a file and an environment give are those that have, in every field with
a variable that is set, what its text says, and else what the file or the defaults have, and
that pass every test. -/
theorem load_iff : Settings.load outside path = .ok settings ↔
    ∃ base, outside.base path = .ok base ∧ fixed settings = fixed base ∧
      (∀ f ∈ environmentFields, f.Taken outside.var base settings) ∧
      ∀ check ∈ checks, check.get settings ≠ some 0 := by
  simp only [load_eq_ok, overlay_iff, validate_eq_ok, and_assoc]

theorem bind_eq_error {α β : Type} {x : Except String α} {f : α → Except String β}
    {text : String} :
    x.bind f = .error text ↔ x = .error text ∨ ∃ a, x = .ok a ∧ f a = .error text := by
  cases x <;> simp [Except.bind]

/-- The settings before the environment are refused with one of two texts. -/
theorem base_eq_error {text : String} : outside.base path = .error text ↔
    ∃ file, path = some file ∧
      (outside.readToString file = none ∧ text = "failed to read config file " ++ file ∨
        ∃ contents, outside.readToString file = some contents ∧
          outside.fromStr contents = none ∧ text = "invalid TOML in " ++ file) := by
  cases path with
  | none => simp [Outside.base]
  | some file =>
    simp only [Outside.base, Option.elim_some, readSettings, Option.some.injEq, exists_eq_left']
    cases hread : outside.readToString file with
    | none => simp [eq_comm]
    | some contents =>
      cases htoml : outside.fromStr contents with
      | none => simp [htoml, eq_comm]
      | some settings => simp [htoml]

/-- What is refused, and with which text.  It is the first thing that is wrong: the file, then
a variable whose text its type cannot have, then a number that is zero. -/
theorem load_refuses {text : String} : Settings.load outside path = .error text ↔
    (∃ file, path = some file ∧
      (outside.readToString file = none ∧ text = "failed to read config file " ++ file ∨
        ∃ contents, outside.readToString file = some contents ∧
          outside.fromStr contents = none ∧ text = "invalid TOML in " ++ file)) ∨
    (∃ base, outside.base path = .ok base ∧ ∃ before f after value,
      environmentFields = before ++ f :: after ∧ (∀ g ∈ before, g.Readable outside.var) ∧
      outside.var f.key = some value ∧ f.parse value = .error text ∧
      ∃ reason ∈ reasons, text = "invalid " ++ f.key ++ ": " ++ reason) ∨
    (∃ base settings, outside.base path = .ok base ∧ fixed settings = fixed base ∧
      (∀ f ∈ environmentFields, f.Taken outside.var base settings) ∧
      ∃ before check after, checks = before ++ check :: after ∧
        (∀ c ∈ before, c.get settings ≠ some 0) ∧ check.get settings = some 0 ∧
        text = check.text) := by
  rw [load_eq, bind_eq_error, base_eq_error]
  refine or_congr_right ?_
  simp only [bind_eq_error, overlay_eq_error_iff, overlay_iff, validate_eq_error, reduceCtorEq,
    and_false, exists_false, or_false]
  constructor
  · rintro ⟨base, hbase, ⟨before, f, after, value, heq, hbefore, hvar, hparse⟩ |
      ⟨settings, ⟨hfixed, htaken⟩, hcheck⟩⟩
    · have hmem : f ∈ environmentFields := by simp [heq]
      exact Or.inl ⟨base, hbase, before, f, after, value, heq, hbefore, hvar, hparse,
        environmentFields_error f hmem value text hparse⟩
    · exact Or.inr ⟨base, settings, hbase, hfixed, htaken, hcheck⟩
  · rintro (⟨base, hbase, before, f, after, value, heq, hbefore, hvar, hparse, _⟩ |
      ⟨base, settings, hbase, hfixed, htaken, hcheck⟩)
    · exact ⟨base, hbase, Or.inl ⟨before, f, after, value, heq, hbefore, hvar, hparse⟩⟩
    · exact ⟨base, hbase, Or.inr ⟨settings, ⟨hfixed, htaken⟩, hcheck⟩⟩

/-! ## What can be loaded -/

/-- A number that the environment sets fits its type. -/
theorem numberField_le {key : String} {max : Nat} {get : DatabaseSettings → Nat}
    {put : Nat → DatabaseSettings → DatabaseSettings}
    (h : (numberField key max get put).Taken outside.var base settings)
    (hbase : get base.database ≤ max) : get settings.database ≤ max := by
  rw [Field.Taken] at h
  split at h
  · have heq : get settings.database = get base.database := h
    rwa [heq]
  · rename_i text _
    simp only [numberField] at h
    cases hparse : parseUnsigned max text with
    | error reason => simp [hparse, Except.mapError] at h
    | ok n =>
      obtain rfl : n = get settings.database := by simpa [hparse, Except.mapError] using h
      exact (parseUnsigned_eq_ok.mp hparse).2

theorem cacheSizeKbField_le (h : cacheSizeKbField.Taken outside.var base settings)
    (hbase : ∀ kb ∈ base.database.cacheSizeKb, kb ≤ u32Max) :
    ∀ kb ∈ settings.database.cacheSizeKb, kb ≤ u32Max := by
  rw [Field.Taken] at h
  split at h
  · have heq : settings.database.cacheSizeKb = base.database.cacheSizeKb := h
    rwa [heq]
  · rename_i text _
    simp only [cacheSizeKbField] at h
    cases hparse : parseUnsigned u32Max text with
    | error reason => simp [hparse, Except.mapError, Except.map] at h
    | ok n =>
      have heq : some n = settings.database.cacheSizeKb := by
        simpa [hparse, Except.mapError, Except.map] using h
      rw [← heq]
      rintro kb ⟨⟩
      exact (parseUnsigned_eq_ok.mp hparse).2

/-- The numbers of a configuration fit their types, if those of the file do. -/
theorem InRange.taken (hfixed : fixed settings = fixed base)
    (h : ∀ f ∈ environmentFields, f.Taken outside.var base settings) (hbase : base.InRange) :
    settings.InRange := by
  simp only [environmentFields, List.forall_mem_cons] at h
  obtain ⟨_, _, _, h₁, h₂, h₃, h₄, h₅, h₆, h₇, h₈, hcache, h₉, h₁₀, h₁₁, h₁₂, h₁₃, h₁₄, h₁₅, h₁₆, _⟩ :=
    h
  obtain ⟨hbody, htimeout⟩ := Prod.mk.inj hfixed
  exact {
    bodyLimitBytes := hbody ▸ hbase.bodyLimitBytes
    requestTimeoutSeconds := htimeout ▸ hbase.requestTimeoutSeconds
    maxOpenDatabases := numberField_le h₁ hbase.maxOpenDatabases
    idleTimeoutSeconds := numberField_le h₂ hbase.idleTimeoutSeconds
    cleanupIntervalSeconds := numberField_le h₃ hbase.cleanupIntervalSeconds
    checkpointIntervalSeconds := numberField_le h₄ hbase.checkpointIntervalSeconds
    readerConnections := numberField_le h₅ hbase.readerConnections
    busyTimeoutMs := numberField_le h₆ hbase.busyTimeoutMs
    acquireTimeoutSeconds := numberField_le h₇ hbase.acquireTimeoutSeconds
    maxResultRows := numberField_le h₈ hbase.maxResultRows
    maxConcurrentRequests := numberField_le h₁₂ hbase.maxConcurrentRequests
    maxConcurrentRequestsPerDatabase :=
      numberField_le h₁₃ hbase.maxConcurrentRequestsPerDatabase
    admissionTimeoutMs := numberField_le h₁₄ hbase.admissionTimeoutMs
    cacheSizeKb := cacheSizeKbField_le hcache hbase.cacheSizeKb
    writerCacheSizeKb := numberField_le h₉ hbase.writerCacheSizeKb
    readerCacheSizeKb := numberField_le h₁₀ hbase.readerCacheSizeKb
    statementCacheCapacity := numberField_le h₁₁ hbase.statementCacheCapacity
    mmapSizeMb := numberField_le h₁₅ hbase.mmapSizeMb
    walSizeLimitMb := numberField_le h₁₆ hbase.walSizeLimitMb }

/-- A number that fits its type is read again from its digits. -/
theorem numberField_printable {key : String} {max : Nat} {get : DatabaseSettings → Nat}
    {put : Nat → DatabaseSettings → DatabaseSettings} (h : get settings.database ≤ max) :
    (numberField key max get put).Printable base settings := by
  have hparse : parseUnsigned max (get settings.database).repr = .ok (get settings.database) :=
    parseUnsigned_eq_ok.mpr ⟨numeral_repr _, h⟩
  simp [Field.Printable, numberField, hparse, Except.mapError]

theorem cacheSizeKbField_printable (h : ∀ kb ∈ settings.database.cacheSizeKb, kb ≤ u32Max)
    (hnone : settings.database.cacheSizeKb = none → base.database.cacheSizeKb = none) :
    cacheSizeKbField.Printable base settings := by
  simp only [Field.Printable, cacheSizeKbField]
  cases hkb : settings.database.cacheSizeKb with
  | none => exact (hnone hkb).symm
  | some kb =>
    have hparse : parseUnsigned u32Max kb.repr = .ok kb :=
      parseUnsigned_eq_ok.mpr ⟨numeral_repr kb, h kb hkb⟩
    simp [hparse, Except.map, Except.mapError]

theorem authTokenField_printable
    (h : settings.server.authToken = some "" → base.server.authToken = some "") :
    authTokenField.Printable base settings := by
  simp only [Field.Printable, authTokenField]
  cases htoken : settings.server.authToken with
  | none => rfl
  | some token =>
    by_cases hempty : token = ""
    · subst hempty
      exact (h htoken).symm
    · have hnonempty : token.isEmpty = false := by simpa using hempty
      simp [hnonempty]

/-- Exactly the settings that the environment can make of a file or of the defaults.  They
are in range, they pass every test, they have the body limit and the request timeout of the
file, and where they have an empty token or no shared cache size, so has the file. -/
theorem reachable_settings (hbase : outside.base path = .ok base) (hrange : base.InRange) :
    (∃ var, Settings.load { outside with var := var } path = .ok settings) ↔
      settings.InRange ∧ settings.validate = .ok () ∧ fixed settings = fixed base ∧
        (settings.server.authToken = some "" → base.server.authToken = some "") ∧
        (settings.database.cacheSizeKb = none → base.database.cacheSizeKb = none) := by
  have hsame (var : String → Option String) : { outside with var := var }.base path = .ok base :=
    hbase
  constructor
  · rintro ⟨var, hload⟩
    obtain ⟨base', hbase', hoverlay, hvalid⟩ := load_eq_ok.mp hload
    obtain rfl := Except.ok.inj ((hsame var).symm.trans hbase')
    obtain ⟨hfixed, htaken⟩ := overlay_iff.mp hoverlay
    have htoken : authTokenField.Taken var base settings := htaken _ (by simp [environmentFields])
    have hcache : cacheSizeKbField.Taken var base settings := htaken _ (by simp [environmentFields])
    refine ⟨InRange.taken hfixed htaken hrange, hvalid, hfixed, ?_, ?_⟩
    · intro hempty
      rw [Field.Taken] at htoken
      split at htoken
      · exact Eq.trans (Eq.symm htoken) hempty
      · rename_i text _
        simp only [authTokenField, hempty, Except.ok.injEq] at htoken
        split at htoken
        · simp at htoken
        · rename_i hnonempty
          obtain rfl := Option.some.inj htoken
          simp at hnonempty
    · intro hnone
      rw [Field.Taken] at hcache
      split at hcache
      · exact Eq.trans (Eq.symm hcache) hnone
      · rename_i text _
        simp only [cacheSizeKbField, hnone] at hcache
        cases hparse : parseUnsigned u32Max text with
        | error reason => simp [hparse, Except.mapError, Except.map] at hcache
        | ok n => simp [hparse, Except.mapError, Except.map] at hcache
  · rintro ⟨hin, hvalid, hfixed, htoken, hcache⟩
    refine ⟨environment environmentFields settings, ?_⟩
    have hprint : ∀ f ∈ environmentFields, f.Printable base settings := by
      simp only [environmentFields, List.forall_mem_cons]
      exact ⟨rfl, authTokenField_printable htoken, rfl,
        numberField_printable hin.maxOpenDatabases,
        numberField_printable hin.idleTimeoutSeconds,
        numberField_printable hin.cleanupIntervalSeconds,
        numberField_printable hin.checkpointIntervalSeconds,
        numberField_printable hin.readerConnections,
        numberField_printable hin.busyTimeoutMs,
        numberField_printable hin.acquireTimeoutSeconds,
        numberField_printable hin.maxResultRows,
        cacheSizeKbField_printable hin.cacheSizeKb hcache,
        numberField_printable hin.writerCacheSizeKb,
        numberField_printable hin.readerCacheSizeKb,
        numberField_printable hin.statementCacheCapacity,
        numberField_printable hin.maxConcurrentRequests,
        numberField_printable hin.maxConcurrentRequestsPerDatabase,
        numberField_printable hin.admissionTimeoutMs,
        numberField_printable hin.mmapSizeMb,
        numberField_printable hin.walSizeLimitMb, by simp⟩
    have hoverlay := overlay_environment environmentFields_lawful environmentFields_apart fixed_put
      settings_ext environmentFields_keys hprint hfixed
    exact load_eq_ok.mpr ⟨base, hsame _, hoverlay, hvalid⟩

end Load

theorem default_inRange : Settings.default.InRange := by
  constructor <;> decide

/-- The defaults, with another capacity. -/
def sevenDatabases : Settings :=
  { Settings.default with database := { DatabaseSettings.default with maxOpenDatabases := 7 } }

theorem reachable_settings_seven :
    ∃ var, Settings.load ⟨fun _ => none, fun _ => none, var⟩ none = .ok sevenDatabases :=
  (@reachable_settings ⟨fun _ => none, fun _ => none, fun _ => none⟩ none sevenDatabases .default
    rfl default_inRange).mpr ⟨by constructor <;> decide, rfl, rfl, by decide, by decide⟩

end Tinkiva.Config
