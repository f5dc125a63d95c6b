import Tinkiva.Manager.Files
import Tinkiva.Manager.Opening

/-!
# A lease is on the file of its name

`ensure_open` is given a path that the caller makes from the name it has asked for, and
not from the name of the entry.  `filed` runs the manager with a record of the path that
each entry was opened with.  `leases_apart` is the law: whoever has opened an entry, the
path is the one of its name, so a lease for a name is on the file of that name, and two
leases for two names have no file in common.
-/

namespace Tinkiva.Manager

open Tinkiva.Config Tinkiva.Protocol TaskPool UnixPath

variable {settings : DatabaseSettings}

/-! ## The record -/

/-- The path that a step of a task opens an entry with. -/
def Task.opensFile (settings : DatabaseSettings) : Task → Choice → Option (EntryId × Path)
  | .acquire call (.openPools e), .go => some (e, databasePath settings call.name)
  | _, _ => none

/-- What one step of the system adds to the record. -/
def State.file (settings : DatabaseSettings) (s : State) (files : EntryId → Option Path) :
    Action → EntryId → Option Path
  | .step i choice =>
    match s.tasks[i]?.bind fun t => t.opensFile settings choice with
    | some (e, path) => Function.update files e (some path)
    | none => files
  | _ => files

/-- The manager, and the path that each entry was opened with. -/
def filed (settings : DatabaseSettings) : StepSystem (State × (EntryId → Option Path)) Action :=
  (manager settings).observe (fun _ => none) fun files s a _ => s.file settings files a

variable {s s' : State} {a : Action} {files : EntryId → Option Path} {e : EntryId}

/-! ## Names -/

/-- What a call has looked up is an entry of the name that it has asked for. -/
theorem acquiring_name (h : (manager settings).Reachable s) {t : Task} (ht : t ∈ s.tasks)
    {name : String} (hacquiring : t.acquiring = some (name, e)) :
    e < s.shared.created ∧ (s.shared.heap e).name = name := by
  obtain ⟨starts, hmon⟩ := exists_monitor h
  exact (reachable_inv hmon).2.sound.tokens _
    ((mem_config s starts).mpr ⟨t, ht, t.mem_of_acquiring hacquiring⟩)

/-- An entry keeps its name. -/
theorem name_kept (h : s.step settings a = some s') (he : e < s.shared.created) :
    (s'.shared.heap e).name = (s.shared.heap e).name := by
  obtain ⟨c, p, hrule, _⟩ := State.step_refines (fun _ => 0) h
  exact hrule.name_mono.2 e he

/-! ## The files of a run -/

/-- An entry with pools was opened with the path of its name. -/
structure State.Filed (settings : DatabaseSettings) (s : State) (files : EntryId → Option Path)
    (e : EntryId) : Prop where
  path : ∀ path, files e = some path →
    e < s.shared.created ∧ path = databasePath settings (s.shared.heap e).name
  set : (s.shared.heap e).pools.value.isSome = true → (files e).isSome = true

/-- A step that records nothing for the entry. -/
theorem State.Filed.kept (h : s.Filed settings files e) (hstep : s.step settings a = some s')
    {files' : EntryId → Option Path} (hfiles : files' e = files e)
    (hset : (s'.shared.heap e).pools.value.isSome = true →
      (s.shared.heap e).pools.value.isSome = true) : s'.Filed settings files' e where
  path path hpath := by
    obtain ⟨hlt, rfl⟩ := h.path path (hfiles ▸ hpath)
    exact ⟨Nat.lt_of_lt_of_le hlt (created_mono hstep), by rw [name_kept hstep hlt]⟩
  set hsome := hfiles ▸ h.set (hset hsome)

/-- A cell that is set after a step was set before it, or the step opens the entry. -/
theorem CellStep.set_back {σ σ' : Shared} {t t' : Task} {choice : Choice} {j : EntryId}
    (h : CellStep σ σ' t t' choice j) (hset : (σ'.heap j).pools.value.isSome = true) :
    (σ.heap j).pools.value.isSome = true ∨ t.opens choice = some j := by
  cases h with
  | kept _ hset' => exact Or.inl (hset' ▸ hset)
  | opened hopens => exact Or.inr hopens
  | begun _ _ _ hcell' | failed _ _ hcell' | created _ _ _ hcell' => simp [hcell'] at hset

theorem State.Filed.step (hreach : (manager settings).Reachable s)
    (h : s.Filed settings files e) (hstep : s.step settings a = some s') :
    s'.Filed settings (s.file settings files a) e := by
  rcases State.step_cases hstep with ⟨operation, rfl, rfl⟩ |
    ⟨i, choice, t, σ', t', spawned, rfl, hi, htask, hadv⟩ | ⟨i, t, σ', t', rfl, hi, hcancel, hadv⟩ |
    ⟨nowMs, rfl, rfl⟩
  · exact h.kept hstep rfl id
  · obtain ⟨rfl, _⟩ := State.advance_eq_some hadv
    have hcell := (Task.step_branch htask).cell e
    simp only [State.file, hi, Option.bind_some]
    by_cases hopens : t.opens choice = some e
    · obtain ⟨call, rfl, _⟩ := (Task.step_branch htask).opens hopens
      obtain rfl : choice = .go := by
        cases choice with
        | go => rfl
        | fail | visit | count => simp [Task.opens] at hopens
      have hname := acquiring_name hreach (List.mem_of_getElem? hi) (e := e) rfl
      simp only [Task.opensFile]
      refine ⟨fun path hpath => ?_, fun _ => by simp⟩
      rw [Function.update_self] at hpath
      obtain rfl := Option.some.inj hpath
      refine ⟨Nat.lt_of_lt_of_le hname.1 (created_mono hstep), ?_⟩
      rw [name_kept hstep hname.1, hname.2]
    · have hset (hset' : (σ'.heap e).pools.value.isSome = true) :=
        (hcell.set_back hset').resolve_right hopens
      split
      · rename_i j path hfile
        refine h.kept hstep (Function.update_of_ne ?_ _ _) hset
        rintro rfl
        unfold Task.opensFile at hfile
        split at hfile
        · exact hopens (congrArg (Option.map Prod.fst) hfile)
        · simp at hfile
      · exact h.kept hstep rfl hset
  · obtain ⟨rfl, _⟩ := State.advance_eq_some hadv
    refine h.kept hstep rfl fun hset => ?_
    refine (((Task.cancel_branch hcancel).cell e).set_back hset).resolve_right ?_
    unfold Task.opens
    split <;> simp_all
  · exact h.kept hstep rfl id

theorem of_filed (ok : State → Action → Prop) {p : State × (EntryId → Option Path)}
    (h : (filed settings).ReachableVia (fun q a => ok q.1 a) p) :
    (manager settings).ReachableVia ok p.1 :=
  StepSystem.ReachableVia.of_observe ok h

theorem reachable_filed (h : (filed settings).Reachable (s, files)) (e : EntryId) :
    s.Filed settings files e := by
  refine h.invariant (I := fun q => q.1.Filed settings q.2 e) ?_ ?_
  · exact ⟨fun path h => absurd h.symm (Option.some_ne_none path),
      fun h => absurd h Bool.false_ne_true⟩
  · rintro ⟨s, files⟩ a ⟨s', files'⟩ hr hfiled _ hs
    obtain ⟨hstep, rfl⟩ := StepSystem.observe_step.mp hs
    exact hfiled.step (of_filed (fun _ _ => True) hr) hstep

/-! ## The law -/

/-- Before `close_all`, whoever has opened the entry of a lease, it was opened with the path
of the name that the lease was asked for.  Two leases for two names are on two entries, and
no file of one is a file of the other. -/
theorem leases_apart
    (h : (filed settings).ReachableVia (fun _ a => a.beforeCloseAll) (s, files))
    {t : Task} (ht : t ∈ s.tasks) {name : String} (hleased : t.leased = some (name, e)) :
    validateDatabaseName name = .ok () ∧ files e = some (databasePath settings name) ∧
    ∀ u ∈ s.tasks, ∀ name' e', u.leased = some (name', e') → name' ≠ name →
      e' ≠ e ∧ files e' = some (databasePath settings name') ∧
      ∀ f ∈ databaseFiles settings name, ∀ g ∈ databaseFiles settings name',
        components f ≠ components g := by
  have hvia := of_filed (fun _ a => a.beforeCloseAll) h
  have hreach : (manager settings).Reachable s := hvia.reachable
  obtain ⟨starts, hmon⟩ := exists_monitor hvia
  have hopen {u : Task} (hu : u ∈ s.tasks) {n : String} {j : EntryId}
      (hlease : u.leased = some (n, j)) :
      validateDatabaseName n = .ok () ∧ (s.shared.heap j).name = n ∧
        files j = some (databasePath settings n) := by
    obtain ⟨i, hi⟩ := List.mem_iff_getElem?.mp hu
    have hname := (acquiring_name hreach hu (Task.acquiring_of_leased hlease).1).2
    have hcalling : u.calling = some n := by
      unfold Task.leased at hlease
      split at hlease <;> simp_all [Task.calling]
    have hpools : u.usesPools = some j := by
      unfold Task.leased at hlease
      split at hlease <;> simp_all [Task.usesPools]
    have hfresh := ((lease_close_exclusion hmon).2.2.2.2.2.2 u hu j hpools).1
    obtain ⟨hpath, hset⟩ := reachable_filed h.reachable j
    obtain ⟨path, hfile⟩ := Option.isSome_iff_exists.mp (hset (by rw [hfresh]; rfl))
    obtain ⟨_, rfl⟩ := hpath path hfile
    exact ⟨(reachable_namesValid hreach).calling i u hi n hcalling, hname, by rw [hfile, hname]⟩
  obtain ⟨hvalid, hname, hfile⟩ := hopen ht hleased
  refine ⟨hvalid, hfile, fun u hu name' e' hleased' hne => ?_⟩
  obtain ⟨hvalid', hname', hfile'⟩ := hopen hu hleased'
  refine ⟨?_, hfile', fun f hf g hg => ?_⟩
  · rintro rfl
    exact hne (hname'.symm.trans hname)
  · exact databaseFiles_apart settings (a := ⟨name, hvalid⟩) (b := ⟨name', hvalid'⟩)
      (Ne.symm hne) hf hg

/-- Two callers with a lease each. -/
def twoTenants : List Action := coldAcquire 0 "a" 0 ++ coldAcquire 1 "b" 1

theorem leases_apart_two :
    ((filed .default).play (fun _ a => decide a.beforeCloseAll) twoTenants).2 0 =
        some (databasePath .default "a") ∧
      ∀ f ∈ databaseFiles .default "a", ∀ g ∈ databaseFiles .default "b",
        components f ≠ components g := by
  have hreach : (filed .default).ReachableVia (fun _ a => a.beforeCloseAll)
      ((filed .default).play (fun _ a => decide a.beforeCloseAll) twoTenants) :=
    StepSystem.reachable_play (fun _ _ h => of_decide_eq_true h) twoTenants
  have hlaw := leases_apart hreach (t := .acquire ⟨"a", 0⟩ (.leased 0)) (by decide) rfl
  exact ⟨hlaw.2.1, (hlaw.2.2 (.acquire ⟨"b", 0⟩ (.leased 1)) (by decide) "b" 1 rfl
    (by decide)).2.2⟩

end Tinkiva.Manager
