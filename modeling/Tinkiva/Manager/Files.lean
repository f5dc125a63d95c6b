import Tinkiva.Lib.UnixPath
import Tinkiva.Lib.Utf8
import Tinkiva.Manager.Steps

/-!
# The files of a database

`database_path` of `src/src/db.rs`: the path of a database is its name and `.db` behind
the directory of the settings.  SQLite keeps three files beside a database, and their
paths are the path of the database with a suffix.

A name that `validate_database_name` accepts has no `/` and no `.`.  So the four files
are file names, direct children of the directory, and the first `.` of a file name ends
the name of its database: two databases share no file, although `-` may stand in a
name and starts every suffix.
-/

namespace Tinkiva.Manager

open Tinkiva.Config UnixPath

/-! ## The paths -/

/-- `database_path`. -/
def databasePath (settings : DatabaseSettings) (name : String) : Path :=
  join (Utf8.bytes settings.directory) (Utf8.bytes (name ++ ".db"))

/-- What SQLite appends to the path of a database: nothing for the database itself, then
the log, its index and the rollback journal. -/
def fileSuffixes : List String := ["", "-wal", "-shm", "-journal"]

/-- The paths of the files of a database. -/
def databaseFiles (settings : DatabaseSettings) (name : String) : List Path :=
  fileSuffixes.map fun suffix => databasePath settings name ++ Utf8.bytes suffix

/-! ## The names -/

/-- What a database name is for its user: 1 to 64 bytes, all of them ASCII letters, digits,
`-` or `_`, and a letter or a digit first. -/
structure IsDatabaseName (name : String) : Prop where
  one_le : 1 ≤ name.utf8ByteSize
  le_max : name.utf8ByteSize ≤ 64
  first : ∃ c ∈ name.toList.head?, c.isAlphanum = true
  all : ∀ c ∈ name.toList, c.isAlphanum = true ∨ c = '-' ∨ c = '_'

/-- `u8::is_ascii_alphanumeric`, as `validate_database_name` uses it. -/
def isAlphanumeric (b : UInt8) : Bool :=
  (48 ≤ b && b ≤ 57) || (65 ≤ b && b ≤ 90) || (97 ≤ b && b ≤ 122)

/-- A byte that a name may have. -/
def isNameByte (b : UInt8) : Bool := isAlphanumeric b || b == 45 || b == 95

theorem isAlphanumeric_iff (b : UInt8) : isAlphanumeric b = true ↔
    (48 ≤ b.toNat ∧ b.toNat ≤ 57) ∨ (65 ≤ b.toNat ∧ b.toNat ≤ 90) ∨
      (97 ≤ b.toNat ∧ b.toNat ≤ 122) := by
  simp [isAlphanumeric, UInt8.le_iff_toNat_le, or_assoc]

theorem isNameByte_iff (b : UInt8) : isNameByte b = true ↔
    isAlphanumeric b = true ∨ b.toNat = 45 ∨ b.toNat = 95 := by
  simp [isNameByte, ← UInt8.toNat_inj, or_assoc]

theorem isAlphanumeric_ascii (b : UInt8) (h : isAlphanumeric b = true) : b.toNat < 128 := by
  rw [isAlphanumeric_iff] at h
  omega

theorem isNameByte_ascii (b : UInt8) (h : isNameByte b = true) : b.toNat < 128 := by
  rw [isNameByte_iff, isAlphanumeric_iff] at h
  omega

/-- `Char.isAlphanum`, which is the ASCII test, by its codes. -/
theorem isAlphanum_iff (c : Char) : c.isAlphanum = true ↔
    (48 ≤ c.toNat ∧ c.toNat ≤ 57) ∨ (65 ≤ c.toNat ∧ c.toNat ≤ 90) ∨
      (97 ≤ c.toNat ∧ c.toNat ≤ 122) := by
  show ((decide (65 ≤ c.val ∧ c.val ≤ 90) || (decide (97 ≤ c.val) && decide (c.val ≤ 122))) ||
    (decide (48 ≤ c.val) && decide (c.val ≤ 57))) = true ↔ _
  simp only [Bool.or_eq_true, Bool.and_eq_true, decide_eq_true_eq, UInt32.le_iff_toNat_le]
  show ((65 ≤ c.toNat ∧ c.toNat ≤ 90) ∨ (97 ≤ c.toNat ∧ c.toNat ≤ 122)) ∨
    (48 ≤ c.toNat ∧ c.toNat ≤ 57) ↔ _
  omega

/-- The byte of an ASCII character. -/
theorem toNat_ofNat_of_lt {c : Char} (h : c.toNat < 128) :
    (UInt8.ofNat c.toNat).toNat = c.toNat := by
  rw [UInt8.toNat_ofNat']
  omega

/-- The byte test of a letter or a digit is the test of characters. -/
theorem charTest_isAlphanumeric (c : Char) :
    Utf8.charTest isAlphanumeric c = true ↔ c.isAlphanum = true := by
  rw [Utf8.charTest, Bool.and_eq_true, decide_eq_true_eq, isAlphanumeric_iff, isAlphanum_iff]
  constructor
  · rintro ⟨hascii, hbyte⟩
    rwa [toNat_ofNat_of_lt hascii] at hbyte
  · intro hchar
    have hascii : c.toNat < 128 := by omega
    rw [toNat_ofNat_of_lt hascii]
    exact ⟨hascii, hchar⟩

/-- The byte test of a name is the test of characters. -/
theorem charTest_isNameByte (c : Char) :
    Utf8.charTest isNameByte c = true ↔ c.isAlphanum = true ∨ c = '-' ∨ c = '_' := by
  have hdash : c = '-' ↔ c.toNat = 45 := Char.toNat_inj.symm
  have hunderscore : c = '_' ↔ c.toNat = 95 := Char.toNat_inj.symm
  rw [Utf8.charTest, Bool.and_eq_true, decide_eq_true_eq, isNameByte_iff, isAlphanumeric_iff,
    isAlphanum_iff, hdash, hunderscore]
  constructor
  · rintro ⟨hascii, hbyte⟩
    rwa [toNat_ofNat_of_lt hascii] at hbyte
  · intro hchar
    have hascii : c.toNat < 128 := by omega
    rw [toNat_ofNat_of_lt hascii]
    exact ⟨hascii, hchar⟩

/-! ## What the check accepts -/

/-- What the check looks at, byte by byte. -/
theorem validateDatabaseName_bytes {name : String} :
    validateDatabaseName name = .ok () ↔
      Utf8.bytes name ≠ [] ∧ (Utf8.bytes name).length ≤ 64 ∧
        (Utf8.bytes name).head?.any isAlphanumeric = true ∧
        (Utf8.bytes name).all isNameByte = true := by
  have hunfold : validateDatabaseName name =
      if !(Utf8.bytes name).isEmpty && decide ((Utf8.bytes name).length ≤ 64) &&
        (Utf8.bytes name).head?.any isAlphanumeric && (Utf8.bytes name).all isNameByte
      then .ok () else .error .invalidDatabaseName := rfl
  rw [hunfold]
  split
  · rename_i hvalid
    simpa [and_assoc] using hvalid
  · rename_i hinvalid
    simpa [and_assoc] using hinvalid

/-- The check accepts exactly the database names. -/
theorem validateDatabaseName_iff {name : String} :
    validateDatabaseName name = .ok () ↔ IsDatabaseName name := by
  rw [validateDatabaseName_bytes, Utf8.any_head?_bytes isAlphanumeric_ascii,
    Utf8.all_bytes isNameByte_ascii, Utf8.length_bytes]
  have hfirst : name.toList.head?.any (Utf8.charTest isAlphanumeric) = true ↔
      ∃ c ∈ name.toList.head?, c.isAlphanum = true := by
    simp [Option.any_eq_true, charTest_isAlphanumeric]
  have hall : name.toList.all (Utf8.charTest isNameByte) = true ↔
      ∀ c ∈ name.toList, c.isAlphanum = true ∨ c = '-' ∨ c = '_' := by
    simp only [List.all_eq_true, charTest_isNameByte]
  have hempty : Utf8.bytes name ≠ [] ↔ 1 ≤ name.utf8ByteSize := by
    rw [← Utf8.length_bytes, Nat.one_le_iff_ne_zero, ne_eq, ne_eq, List.length_eq_zero_iff]
  rw [hfirst, hall, hempty]
  constructor
  · intro ⟨hone, hmax, hfirst, hall⟩
    exact ⟨hone, hmax, hfirst, hall⟩
  · intro h
    exact ⟨h.one_le, h.le_max, h.first, h.all⟩

/-- A name that is accepted has only the bytes of names. -/
theorem isNameByte_of_mem {name : String} (h : validateDatabaseName name = .ok ()) {b : UInt8}
    (hb : b ∈ Utf8.bytes name) : isNameByte b = true := by
  obtain ⟨_, _, _, hall⟩ := validateDatabaseName_bytes.mp h
  exact List.all_eq_true.mp hall b hb

/-! ## The files of a name -/

/-- The bytes of the name of a file. -/
def fileBytes (name suffix : String) : List UInt8 := Utf8.bytes (name ++ ".db") ++ Utf8.bytes suffix

/-- The name of the database, its first dot, and the rest. -/
theorem fileBytes_eq (name suffix : String) :
    fileBytes name suffix = Utf8.bytes name ++ 46 :: (100 :: 98 :: Utf8.bytes suffix) := by
  have hdb : Utf8.bytes ".db" = [46, 100, 98] := by decide
  rw [fileBytes, Utf8.bytes_append, hdb, List.append_assoc]
  rfl

/-- A name that is accepted. -/
structure DatabaseName where
  text : String
  valid : validateDatabaseName text = .ok ()

namespace DatabaseName

variable (name : DatabaseName)

theorem not_mem_bytes {b : UInt8} (hb : isNameByte b = false) : b ∉ Utf8.bytes name.text := by
  intro hmem
  rw [isNameByte_of_mem name.valid hmem] at hb
  exact absurd hb (by decide)

theorem three_le_length (suffix : String) : 3 ≤ (fileBytes name.text suffix).length := by
  rw [fileBytes_eq, List.length_append, List.length_cons, List.length_cons, List.length_cons]
  omega

/-- The file name of a file of the database. -/
def file (suffix : String) (hsuffix : separator ∉ Utf8.bytes suffix) : FileName where
  bytes := fileBytes name.text suffix
  ne_nil := by
    intro h
    have hlength := name.three_le_length suffix
    rw [h] at hlength
    exact absurd hlength (by decide)
  ne_dot := by
    intro h
    have hlength := name.three_le_length suffix
    rw [h] at hlength
    exact absurd hlength (by decide)
  ne_dotDot := by
    intro h
    have hlength := name.three_le_length suffix
    rw [h] at hlength
    exact absurd hlength (by decide)
  noSeparator := by
    rw [fileBytes_eq, List.mem_append, List.mem_cons, List.mem_cons, List.mem_cons]
    rintro (hname | hdot | hd | hb | hmem)
    · exact name.not_mem_bytes (by decide) hname
    · exact absurd hdot (by decide)
    · exact absurd hd (by decide)
    · exact absurd hb (by decide)
    · exact hsuffix hmem

/-- The name can be read off the name of a file: it is what stands before the first dot. -/
theorem bytes_eq_of_fileBytes {other : DatabaseName} {suffix suffix' : String}
    (h : fileBytes name.text suffix = fileBytes other.text suffix') : name.text = other.text := by
  have hdot : (46 : UInt8) ∉ Utf8.bytes name.text := name.not_mem_bytes (by decide)
  have hdot' : (46 : UInt8) ∉ Utf8.bytes other.text := other.not_mem_bytes (by decide)
  rw [fileBytes_eq, fileBytes_eq] at h
  have hsplit := congrArg (List.splitOn 46) h
  rw [List.splitOn_append_cons_self_of_not_mem hdot,
    List.splitOn_append_cons_self_of_not_mem hdot'] at hsplit
  exact Utf8.bytes_inj.mp (List.cons.inj hsplit).1

end DatabaseName

theorem fileSuffixes_noSeparator {suffix : String} (h : suffix ∈ fileSuffixes) :
    separator ∉ Utf8.bytes suffix := by
  simp only [fileSuffixes, List.mem_cons, List.not_mem_nil, or_false] at h
  obtain rfl | rfl | rfl | rfl := h
  · decide
  · decide
  · decide
  · decide

/-- Every file of an accepted name is a direct child of the directory. -/
theorem isChild_databaseFile (settings : DatabaseSettings) (name : DatabaseName) {suffix : String}
    (hsuffix : suffix ∈ fileSuffixes) :
    IsChild (Utf8.bytes settings.directory)
      (databasePath settings name.text ++ Utf8.bytes suffix)
      (name.file suffix (fileSuffixes_noSeparator hsuffix)) := by
  have hne : Utf8.bytes (name.text ++ ".db") ≠ [] := by
    rw [Utf8.bytes_append]
    exact List.append_ne_nil_of_right_ne_nil _ (by decide)
  rw [databasePath, join_append _ _ hne]
  exact components_join _ (name.file suffix (fileSuffixes_noSeparator hsuffix))

theorem exists_isChild (settings : DatabaseSettings) (name : DatabaseName) {f : Path}
    (hf : f ∈ databaseFiles settings name.text) :
    ∃ file, IsChild (Utf8.bytes settings.directory) f file := by
  obtain ⟨suffix, hsuffix, rfl⟩ := List.mem_map.mp hf
  exact ⟨_, isChild_databaseFile settings name hsuffix⟩

/-- The path of the database itself. -/
theorem exists_isChild_databasePath (settings : DatabaseSettings) (name : DatabaseName) :
    ∃ file : FileName, file.bytes = Utf8.bytes (name.text ++ ".db") ∧
      IsChild (Utf8.bytes settings.directory) (databasePath settings name.text) file := by
  have hempty : Utf8.bytes "" = [] := by decide
  have hsuffix : "" ∈ fileSuffixes := by decide
  have hchild := isChild_databaseFile settings name hsuffix
  rw [hempty, List.append_nil] at hchild
  refine ⟨_, ?_, hchild⟩
  show Utf8.bytes (name.text ++ ".db") ++ Utf8.bytes "" = Utf8.bytes (name.text ++ ".db")
  rw [hempty, List.append_nil]

/-- Files of different names are different children. -/
theorem databaseFiles_apart (settings : DatabaseSettings) {a b : DatabaseName}
    (hne : a.text ≠ b.text) {f g : Path} (hf : f ∈ databaseFiles settings a.text)
    (hg : g ∈ databaseFiles settings b.text) : components f ≠ components g := by
  obtain ⟨suffix, hsuffix, rfl⟩ := List.mem_map.mp hf
  obtain ⟨suffix', hsuffix', rfl⟩ := List.mem_map.mp hg
  intro heq
  have hbytes := (isChild_databaseFile settings a hsuffix).bytes_eq
    (isChild_databaseFile settings b hsuffix') heq
  exact hne (a.bytes_eq_of_fileBytes hbytes)

/-- `validate_database_name` accepts exactly the database names.  The path of an accepted
name, and of each file that SQLite keeps beside it, is a direct child of the directory,
and two names share no file. -/
theorem database_files_disjoint :
    (∀ name, validateDatabaseName name = .ok () ↔ IsDatabaseName name) ∧
    ∀ (settings : DatabaseSettings) (a b : String), validateDatabaseName a = .ok () →
      validateDatabaseName b = .ok () → a ≠ b →
      (∀ name ∈ [a, b], ∃ file : FileName, file.bytes = Utf8.bytes (name ++ ".db") ∧
        IsChild (Utf8.bytes settings.directory) (databasePath settings name) file) ∧
      (∀ f ∈ databaseFiles settings a ++ databaseFiles settings b,
        ∃ file, IsChild (Utf8.bytes settings.directory) f file) ∧
      ∀ f ∈ databaseFiles settings a, ∀ g ∈ databaseFiles settings b,
        f ≠ g ∧ components f ≠ components g := by
  constructor
  · intro name
    exact validateDatabaseName_iff
  · intro settings a b ha hb hne
    have hvalid : ∀ name ∈ [a, b], validateDatabaseName name = .ok () := by
      intro name hname
      obtain rfl | rfl : name = a ∨ name = b := by simpa using hname
      · exact ha
      · exact hb
    refine ⟨?_, ?_, ?_⟩
    · intro name hname
      exact exists_isChild_databasePath settings ⟨name, hvalid name hname⟩
    · intro f hf
      rcases List.mem_append.mp hf with hf | hf
      · exact exists_isChild settings ⟨a, ha⟩ hf
      · exact exists_isChild settings ⟨b, hb⟩ hf
    · intro f hf g hg
      have happart := databaseFiles_apart settings (a := ⟨a, ha⟩) (b := ⟨b, hb⟩) hne hf hg
      exact ⟨fun heq => happart (congrArg components heq), happart⟩

/-- A name that ends like a suffix: `acme.db-wal` and `acme-wal.db` are two files. -/
theorem database_files_disjoint_wal :
    ∀ f ∈ databaseFiles .default "acme", ∀ g ∈ databaseFiles .default "acme-wal",
      f ≠ g ∧ components f ≠ components g :=
  (database_files_disjoint.2 .default "acme" "acme-wal" (by decide) (by decide) (by decide)).2.2

/-! ## The names of a run -/

/-- The name that a call of `acquire` still works with. -/
def Task.calling : Task → Option String
  | .acquire _ (.done _) => none
  | .acquire call _ => some call.name
  | _ => none

/-- A call keeps its name. -/
theorem TaskBranch.calling {settings : DatabaseSettings} {σ σ' : Shared} {t t' : Task}
    {choice : Choice} {spawned : List Task} {name : String}
    (h : TaskBranch settings σ t choice (σ', t', spawned)) (hname : t'.calling = some name) :
    t.calling = some name := by
  cases h with
  | acquire h =>
    cases h with
    | unlockNone | yieldLast | dropDone | slots => exact absurd hname (by simp [Task.calling])
    | _ => exact hname
  | cleanupIdle | checkpointWal | closeEntry | closeAll =>
    exact absurd hname (by simp [Task.calling])

theorem TaskCancelBranch.calling {σ σ' : Shared} {t t' : Task} {name : String}
    (h : TaskCancelBranch σ t (σ', t')) (hname : t'.calling = some name) :
    t.calling = some name := by
  cases h with
  | acquire h =>
    cases h with
    | lock | yield => exact absurd hname (by simp [Task.calling])
    | _ => exact hname
  | cleanupIdle | checkpointWal => exact absurd hname (by simp [Task.calling])

/-- A new call has passed the check of its name. -/
theorem Operation.valid_of_calling {operation : Operation} {name : String}
    (hname : operation.task.calling = some name) : validateDatabaseName name = .ok () := by
  cases operation with
  | acquire called =>
    cases hvalid : validateDatabaseName called with
    | error error => simp [Operation.task, hvalid, Task.calling] at hname
    | ok =>
      simp only [Operation.task, hvalid, Task.calling, Option.some.injEq] at hname
      rw [← hname, hvalid]
  | cleanupIdle | checkpointWal | closeAll =>
    exact absurd hname (by simp [Operation.task, Task.calling])

/-- The names of a state have passed the check: those of the calls and those that are bound. -/
structure State.NamesValid (s : State) : Prop where
  calling : ∀ (i : Nat) (t : Task), s.tasks[i]? = some t → ∀ name, t.calling = some name →
    validateDatabaseName name = .ok ()
  bound : ∀ name e, s.shared.entries.lookup name = some e → validateDatabaseName name = .ok ()

theorem State.NamesValid.step {settings : DatabaseSettings} {s s' : State} {a : Action}
    (h : s.NamesValid) (hstep : s.step settings a = some s') : s'.NamesValid where
  calling := by
    apply State.forall_step
      (Q := fun _ t => ∀ name, t.calling = some name → validateDatabaseName name = .ok ())
      hstep h.calling
    · intro i t _ _ _ hold
      exact hold
    · intro i choice t t' spawned _ _ _ hbranch hold name hname
      exact hold name (hbranch.calling hname)
    · intro i t t' _ _ hbranch hold name hname
      exact hold name (hbranch.calling hname)
    · intro operation _ name hname
      exact Operation.valid_of_calling hname
    · intro i e name hname
      exact absurd hname (by simp [Task.calling])
  bound := by
    intro name e hl
    rcases State.step_lookup hstep hl with hold | ⟨_, hev⟩
    · exact h.bound name e hold
    · obtain ⟨t, ht, choice, hev⟩ := State.exists_event hev
      obtain ⟨i, hi⟩ := List.mem_iff_getElem?.mp ht
      obtain ⟨call, nowMs, rfl, _, rfl, _⟩ := Task.insert_of_event hev
      exact h.calling i _ hi call.name rfl

/-- In every run, the bound names have passed the check. -/
theorem reachable_namesValid {settings : DatabaseSettings} {s : State}
    (h : (manager settings).Reachable s) : s.NamesValid := by
  apply h.invariant
  · constructor
    · intro i t hi
      exact absurd hi (by simp [manager])
    · intro name e hl
      exact absurd hl (by simp [manager, Shared.new])
  · intro s a s' _ hs _ hstep
    exact hs.step hstep

end Tinkiva.Manager
