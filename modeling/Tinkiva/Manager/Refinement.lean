import Tinkiva.Manager.Moves
import Tinkiva.Protocol.Coherence

/-!
# The manager refines the lease protocol

`State.config` is the configuration of the protocol that a state of the manager
shows: its registry, and the tokens of all its tasks.  `State.refines` says that
a step of the manager is a step of the protocol, and `reachable_config` carries
a whole run over.  An invariant of the protocol therefore holds of the manager.

The lemmas before it say how the view that the laws take of a task (its lease, its
permits, what it has looked up) reads off its tokens, and how they count.
-/

namespace Tinkiva.Manager

open Tinkiva.Config Tinkiva.Protocol ConcurrentMap TokenPool TaskPool Token

variable {settings : DatabaseSettings}

/-- The configuration of the protocol that a state of the manager shows. -/
def State.config (s : State) (starts : EntryId → Nat) : Config String :=
  ⟨s.shared.registry starts, tally Task.tokens s.tasks⟩

/-! ## What the tokens of a task say -/

section Views

theorem TakePc.count_tokens {q : Token String → Bool} (hq : ∀ n e, q (taking n e) = false)
    (hq' : ∀ n e, q (removing n e) = false) (pc : TakePc) : count q pc.tokens = 0 := by
  cases pc <;> simp [TakePc.tokens, hq, hq']

theorem ClosePc.count_tokens {q : Token String → Bool} (hq : ∀ e, q (due e) = false)
    (hq' : ∀ e, q (closing e) = false) (e : EntryId) (pc : ClosePc) :
    count q (pc.tokens e) = 0 := by
  cases pc <;> simp [ClosePc.tokens, hq, hq']

theorem count_collectedTokens {q : Token String → Bool} (hq : ∀ e, q (collected e) = false)
    (es : List EntryId) : count q (collectedTokens es) = 0 :=
  count_eq_zero.mpr (by simp [collectedTokens, hq])

theorem count_doomedTokens {q : Token String → Bool} (hq : ∀ e, q (doomed e) = false)
    (es : List EntryId) : count q (doomedTokens es) = 0 :=
  count_eq_zero.mpr (by simp [doomedTokens, hq])

/-- The lease of a task is its token. -/
theorem count_leases_tokens (e : EntryId) (t : Task) :
    count (leases e) t.tokens = (decide (t.lease = some e)).toNat := by
  have htake := TakePc.count_tokens (q := leases e) (by simp [leases]) (by simp [leases])
  have hclose := ClosePc.count_tokens (q := leases e) (by simp [leases]) (by simp [leases])
  have hcollected := count_collectedTokens (q := leases e) (by simp [leases])
  have hdoomed := count_doomedTokens (q := leases e) (by simp [leases])
  unfold Task.tokens
  split
  · unfold AcquirePc.tokens EvictPc.tokens
    split <;> try split
    all_goals simp [Task.lease, leases, slotTokens, htake]
  · unfold CleanupPc.tokens
    split <;> simp [Task.lease, htake, hclose]
  · unfold CheckpointPc.tokens
    split <;> simp [Task.lease, leases, hcollected]
  · simp [Task.lease, hclose]
  · simp [Task.lease]
  · unfold CloseAllPc.tokens
    split <;> simp [Task.lease, leases, hcollected, hdoomed]

/-- The process permit of a task is its token. -/
theorem count_isSlot_tokens (t : Task) : count isSlot t.tokens = t.processSlot.toNat := by
  have htake := TakePc.count_tokens (q := isSlot) (by simp [isSlot]) (by simp [isSlot])
  have hclose := ClosePc.count_tokens (q := isSlot) (by simp [isSlot]) (by simp [isSlot])
  have hcollected := count_collectedTokens (q := isSlot) (by simp [isSlot])
  have hdoomed := count_doomedTokens (q := isSlot) (by simp [isSlot])
  unfold Task.tokens
  split
  · unfold AcquirePc.tokens EvictPc.tokens
    split <;> try split
    all_goals simp [Task.processSlot, isSlot, slotTokens, htake]
  · unfold CleanupPc.tokens
    split <;> simp [Task.processSlot, htake, hclose]
  · unfold CheckpointPc.tokens
    split <;> simp [Task.processSlot, isSlot, hcollected]
  · simp [Task.processSlot, hclose]
  · simp [Task.processSlot]
  · unfold CloseAllPc.tokens
    split <;> simp [Task.processSlot, isSlot, hcollected, hdoomed]

/-- The tenant permit of a task is its token. -/
theorem count_isTenantSlot_tokens (e : EntryId) (t : Task) :
    count (isTenantSlot e) t.tokens = (decide (t.tenantSlot = some e)).toNat := by
  have htake := TakePc.count_tokens (q := isTenantSlot e) (by simp [isTenantSlot])
    (by simp [isTenantSlot])
  have hclose := ClosePc.count_tokens (q := isTenantSlot e) (by simp [isTenantSlot])
    (by simp [isTenantSlot])
  have hcollected := count_collectedTokens (q := isTenantSlot e) (by simp [isTenantSlot])
  have hdoomed := count_doomedTokens (q := isTenantSlot e) (by simp [isTenantSlot])
  unfold Task.tokens
  split
  · unfold AcquirePc.tokens EvictPc.tokens
    split <;> try split
    all_goals simp [Task.tenantSlot, isTenantSlot, slotTokens, htake]
  · unfold CleanupPc.tokens
    split <;> simp [Task.tenantSlot, htake, hclose]
  · unfold CheckpointPc.tokens
    split <;> simp [Task.tenantSlot, isTenantSlot, hcollected]
  · simp [Task.tenantSlot, hclose]
  · simp [Task.tenantSlot]
  · unfold CloseAllPc.tokens
    split <;> simp [Task.tenantSlot, isTenantSlot, hcollected, hdoomed]

/-- The admission guard of a task is its token. -/
theorem count_isGuard_tokens (t : Task) : count isGuard t.tokens = t.admission.toNat := by
  have htake := TakePc.count_tokens (q := isGuard) (by simp [isGuard]) (by simp [isGuard])
  have hclose := ClosePc.count_tokens (q := isGuard) (by simp [isGuard]) (by simp [isGuard])
  have hcollected := count_collectedTokens (q := isGuard) (by simp [isGuard])
  have hdoomed := count_doomedTokens (q := isGuard) (by simp [isGuard])
  unfold Task.tokens
  split
  · unfold AcquirePc.tokens EvictPc.tokens
    split <;> try split
    all_goals simp [Task.admission, isGuard, slotTokens, htake]
  · unfold CleanupPc.tokens
    split <;> simp [Task.admission, htake, hclose]
  · unfold CheckpointPc.tokens
    split <;> simp [Task.admission, isGuard, hcollected]
  · simp [Task.admission, hclose]
  · simp [Task.admission]
  · unfold CloseAllPc.tokens
    split <;> simp [Task.admission, isGuard, hcollected, hdoomed]

/-- What a token of a task says about the task. -/
def Task.Says (t : Task) : Token String → Prop
  | .acquiring name e => t.acquiring = some (name, e)
  | .taking name e => t.taking = some (name, e)
  | .removing name e => t.removing = some (name, e)
  | .due e => t.due = some e
  | .lease e (.failing name) => ∃ call, t = .acquire call (.removeIf e) ∧ call.name = name
  | .shutdown => t.isCloseAll = true
  | _ => True

theorem Task.says_of_mem (t : Task) : ∀ x ∈ t.tokens, t.Says x := by
  unfold Task.tokens
  split
  · unfold AcquirePc.tokens EvictPc.tokens TakePc.tokens
    split <;> (try split) <;> (try split)
    all_goals
      simp [slotTokens, or_imp, forall_and, Task.Says, Task.acquiring, Task.taking,
        Task.removing, Task.takePc]
  · unfold CleanupPc.tokens TakePc.tokens ClosePc.tokens
    split <;> (try split)
    all_goals simp [Task.Says, Task.taking, Task.removing, Task.takePc, Task.due]
  · unfold CheckpointPc.tokens
    split <;> simp [collectedTokens, or_imp, forall_and, Task.Says]
  · unfold ClosePc.tokens
    split <;> simp [Task.Says, Task.due]
  · simp
  · unfold CloseAllPc.tokens
    split <;> simp [collectedTokens, doomedTokens, or_imp, forall_and, Task.Says,
      Task.isCloseAll]

theorem Task.mem_of_usesPools {t : Task} {e : EntryId} (h : t.usesPools = some e) :
    Token.lease e .ready ∈ t.tokens := by
  unfold Task.usesPools at h
  split at h
  all_goals
    first
    | (obtain rfl := Option.some.inj h
       simp [Task.tokens, AcquirePc.tokens, CheckpointPc.tokens])
    | simp at h

theorem Task.mem_of_acquiring {t : Task} {name : String} {e : EntryId}
    (h : t.acquiring = some (name, e)) : Token.acquiring name e ∈ t.tokens := by
  unfold Task.acquiring at h
  split at h
  all_goals
    first
    | (obtain ⟨rfl, rfl⟩ := Prod.mk.inj (Option.some.inj h)
       simp [Task.tokens, AcquirePc.tokens])
    | simp at h

theorem Task.takePc_of_taking {t : Task} {name : String} {e : EntryId}
    (h : t.taking = some (name, e)) : t.takePc = some (.beginClose name e) := by
  unfold Task.taking at h
  split at h
  · rename_i n j hpc
    obtain ⟨rfl, rfl⟩ := Prod.mk.inj (Option.some.inj h)
    exact hpc
  · simp at h

theorem Task.takePc_of_removing {t : Task} {name : String} {e : EntryId}
    (h : t.removing = some (name, e)) : t.takePc = some (.remove name e) := by
  unfold Task.removing at h
  split at h
  · rename_i n j hpc
    obtain ⟨rfl, rfl⟩ := Prod.mk.inj (Option.some.inj h)
    exact hpc
  · simp at h

/-- The two callers of `take`. -/
theorem Task.of_takePc {t : Task} {pc : TakePc} (h : t.takePc = some pc) :
    (∃ call attempts, t = .acquire call (.evict attempts (.take pc))) ∨
      ∃ rest closed, t = .cleanupIdle (.take pc rest closed) := by
  unfold Task.takePc at h
  split at h
  · obtain rfl := Option.some.inj h
    exact Or.inl ⟨_, _, rfl⟩
  · obtain rfl := Option.some.inj h
    exact Or.inr ⟨_, _, rfl⟩
  · simp at h

theorem Task.mem_of_taking {t : Task} {name : String} {e : EntryId}
    (h : t.taking = some (name, e)) : Token.taking name e ∈ t.tokens := by
  rcases Task.of_takePc (Task.takePc_of_taking h) with ⟨call, attempts, rfl⟩ | ⟨rest, closed, rfl⟩
  · simp [Task.tokens, AcquirePc.tokens, EvictPc.tokens, TakePc.tokens]
  · simp [Task.tokens, CleanupPc.tokens, TakePc.tokens]

/-- The lease of a task goes with an `Arc`. -/
theorem Task.lease_le_arcs (e : EntryId) (t : Task) :
    (decide (t.lease = some e)).toNat ≤ t.arcs.count e := by
  by_cases h : t.lease = some e
  · suffices e ∈ t.arcs by simpa [h] using List.count_pos_iff.mpr this
    unfold Task.lease at h
    split at h <;> simp_all [Task.arcs]
  · simp [h]

end Views

/-! ## What the tokens of a state count -/

section Counts

variable (s : State) (starts : EntryId → Nat)

theorem leases_config (e : EntryId) : (s.config starts).leases e = s.holders e := by
  rw [Config.leases, State.config, count_tally, State.holders, countP_eq_tally]
  exact congrArg (tally · s.tasks) (funext (count_leases_tokens e))

theorem slots_config :
    count isSlot (s.config starts).pool = s.tasks.countP fun t => t.processSlot := by
  rw [State.config, count_tally, countP_eq_tally]
  exact congrArg (tally · s.tasks) (funext count_isSlot_tokens)

theorem tenantSlots_config (e : EntryId) :
    count (isTenantSlot e) (s.config starts).pool =
      s.tasks.countP fun t => decide (t.tenantSlot = some e) := by
  rw [State.config, count_tally, countP_eq_tally]
  exact congrArg (tally · s.tasks) (funext (count_isTenantSlot_tokens e))

theorem guards_config :
    count isGuard (s.config starts).pool = s.tasks.countP fun t => t.admission := by
  rw [State.config, count_tally, countP_eq_tally]
  exact congrArg (tally · s.tasks) (funext count_isGuard_tokens)

/-- The leases on an entry are fewer than the `Arc` clones of it. -/
theorem holders_le_arcCount (e : EntryId) : s.holders e ≤ s.arcCount e := by
  rw [State.holders, countP_eq_tally]
  exact tally_mono fun t _ => t.lease_le_arcs e

theorem mem_config {x : Token String} :
    x ∈ (s.config starts).pool ↔ ∃ t ∈ s.tasks, x ∈ t.tokens :=
  mem_tally

end Counts

/-- A task that holds a lease makes the count positive. -/
theorem holders_pos {s : State} {t : Task} {e : EntryId} (ht : t ∈ s.tasks)
    (hlease : t.lease = some e) : 0 < s.holders e :=
  List.countP_pos_iff.mpr ⟨t, ht, by simpa using hlease⟩

/-! ## The step -/

/-- No entry has `usize::MAX` references. -/
def State.ArcsBounded (s : State) : Prop := ∀ e, s.arcCount e < CLOSED

/-- A step keeps the references below the bound: it checks the ones it adds. -/
theorem State.ArcsBounded.advance {s s' : State} {i : Nat} {t t' : Task} {σ' : Shared}
    {spawned : List Task} (hs : s.ArcsBounded) (hi : s.tasks[i]? = some t)
    (h : s.advance i σ' t' spawned = some s') : s'.ArcsBounded := by
  obtain ⟨rfl, hall⟩ := State.advance_eq_some h
  intro e
  by_cases he : ∃ u ∈ t' :: spawned, e ∈ u.arcs
  · obtain ⟨u, hu, heu⟩ := he
    exact hall u hu e heu
  · -- The step adds no reference to this entry.
    have hzero (u : Task) (hu : u ∈ t' :: spawned) : u.arcs.count e = 0 :=
      List.count_eq_zero.mpr fun heu => he ⟨u, hu, heu⟩
    have hbal := tally_update (fun u : Task => u.arcs.count e) t' spawned hi
    have hself : t'.arcs.count e = 0 := hzero t' List.mem_cons_self
    have hspawned : tally (fun u : Task => u.arcs.count e) spawned = 0 :=
      tally_eq_zero fun u hu => hzero u (List.mem_cons_of_mem _ hu)
    have hold : tally (fun u : Task => u.arcs.count e) s.tasks < CLOSED := hs e
    change tally (fun u : Task => u.arcs.count e) (update s.tasks i t' spawned) < CLOSED
    omega

/-- A new task holds no reference. -/
theorem Operation.arcs_task (operation : Operation) : operation.task.arcs = [] := by
  cases operation with
  | acquire name =>
    simp only [Operation.task]
    split <;> rfl
  | cleanupIdle | checkpointWal | closeAll => rfl

theorem State.ArcsBounded.step {s s' : State} {a : Action} (hs : s.ArcsBounded)
    (h : s.step settings a = some s') : s'.ArcsBounded := by
  rcases State.step_cases h with ⟨operation, _, rfl⟩ |
    ⟨i, choice, t, σ', t', spawned, _, hi, _, hadv⟩ | ⟨i, t, σ', t', _, hi, _, hadv⟩ |
    ⟨nowMs, _, rfl⟩
  · intro e
    have := hs e
    simp only [State.arcCount, tally_append, tally_cons, tally_nil,
      Operation.arcs_task] at this ⊢
    exact this
  · exact hs.advance hi hadv
  · exact hs.advance hi hadv
  · exact hs

/-- A task that takes no new reference is not stopped by the bound. -/
theorem State.ArcsBounded.step_enabled {s : State} {i : Nat} {t t' : Task} {choice : Choice}
    {σ' : Shared} (hs : s.ArcsBounded) (hi : s.tasks[i]? = some t)
    (hstep : t.step settings s.shared choice = some (σ', t', [])) (harcs : t'.arcs = t.arcs) :
    ∃ s', s.step settings (.step i choice) = some s' ∧ s'.shared = σ' ∧
      s'.tasks[i]? = some t' ∧ s'.ArcsBounded := by
  have hcount (e : EntryId) :
      State.arcCount ⟨σ', update s.tasks i t' []⟩ e = s.arcCount e := by
    have hbal := tally_update (fun u : Task => u.arcs.count e) t' [] hi
    simp only [harcs, tally_nil] at hbal
    exact Nat.add_right_cancel hbal
  have hadv : s.advance i σ' t' [] = some ⟨σ', update s.tasks i t' []⟩ := by
    simp only [State.advance]
    refine if_pos (List.all_eq_true.mpr fun u _ => List.all_eq_true.mpr fun e _ => ?_)
    rw [hcount]
    exact decide_eq_true (hs e)
  refine ⟨⟨σ', update s.tasks i t' []⟩, ?_, rfl, getElem?_update_self hi, fun e => ?_⟩
  · simp only [State.step, hi, hstep]
    exact hadv
  · rw [hcount]
    exact hs e

/-- A new task as tokens: only `close_all` shows. -/
theorem Operation.tokens_task (operation : Operation) :
    operation.task.tokens = 0 ∨ operation.task.tokens = {Token.shutdown} := by
  cases operation with
  | acquire name =>
    simp only [Operation.task]
    split <;> exact Or.inl rfl
  | cleanupIdle | checkpointWal => exact Or.inl rfl
  | closeAll => exact Or.inr rfl

/-- A step of the manager is a rule of the protocol. -/
theorem State.step_refines {s s' : State} {a : Action} (starts : EntryId → Nat)
    (h : s.step settings a = some s') :
    ∃ c p, Rule (limits settings) (s.config starts).registry c
        (s'.config (countStart starts (s.event a))).registry p ∧
      Rewrites Knowledge (s.config starts).pool c p
        (s'.config (countStart starts (s.event a))).pool ∧
      ∀ name e, Token.lease e (.failing name) ∈ c → s.event a = some (.unlinkFailed name e) := by
  rcases State.step_cases h with ⟨operation, rfl, rfl⟩ |
    ⟨i, choice, t, σ', t', spawned, rfl, hi, hstep, hadv⟩ | ⟨i, t, σ', t', rfl, hi, hcancel, hadv⟩ |
    ⟨nowMs, rfl, rfl⟩
  · have hpool : (State.config { s with tasks := s.tasks ++ [operation.task] } starts).pool =
        (s.config starts).pool + operation.task.tokens := by
      simp [State.config, tally_append, tally_cons]
    rcases operation.tokens_task with hT | hT <;> rw [hT] at hpool
    · exact ⟨0, 0, .idle, .of_frame _ (add_zero _).symm hpool, by simp⟩
    · exact ⟨0, {Token.shutdown}, .shutdown, .of_frame _ (add_zero _).symm hpool, by simp⟩
  · obtain ⟨rfl, _⟩ := State.advance_eq_some hadv
    obtain ⟨c, p, hrule, hrw⟩ := (Task.step_branch hstep).moves settings starts
    obtain ⟨rest, hts, hup⟩ := exists_frame Task.tokens hi
    have hev : s.event (.step i choice) = t.event s.shared choice := by
      simp [State.event, hi]
    rw [hev]
    refine ⟨c, p, hrule, ?_, ?_⟩
    · change Rewrites _ (tally Task.tokens s.tasks) c p (tally Task.tokens _)
      rw [hts, hup]
      exact hrw.add_left rest
    · intro name e hc
      obtain ⟨call, rfl, rfl⟩ := t.says_of_mem _ (hrw.mem_of_consumed hc)
      cases Task.step_branch hstep with
      | acquire hbranch =>
        cases hbranch with
        | removeIf => rfl
  · obtain ⟨rfl, _⟩ := State.advance_eq_some hadv
    obtain ⟨c, p, hrule, hrw⟩ := (Task.cancel_branch hcancel).moves settings starts
    obtain ⟨rest, hts, hup⟩ := exists_frame Task.tokens hi
    refine ⟨c, p, hrule, ?_, ?_⟩
    · change Rewrites _ (tally Task.tokens s.tasks) c p (tally Task.tokens _)
      rw [hts, hup, tally_nil, add_zero]
      exact hrw.add_left rest
    · intro name e hc
      obtain ⟨call, rfl, rfl⟩ := t.says_of_mem _ (hrw.mem_of_consumed hc)
      cases Task.cancel_branch hcancel with
      | acquire hbranch => cases hbranch
  · exact ⟨0, 0, .idle, .of_frame _ (add_zero _).symm (add_zero _).symm, by simp⟩

/-- A step of the manager is a step of the protocol, under every restriction
that it meets. -/
theorem State.step_config {s s' : State} {a : Action} (starts : EntryId → Nat)
    (hs : s.ArcsBounded) (h : s.step settings a = some s')
    (allowed : Config String → Multiset (Token String) → Config String → Prop)
    (hallowed : ∀ c : Multiset (Token String),
      (∀ name e, Token.lease e (.failing name) ∈ c →
        s.event a = some (.unlinkFailed name e)) →
      allowed (s.config starts) c (s'.config (countStart starts (s.event a)))) :
    Protocol.Step (limits settings) allowed (s.config starts)
      (s'.config (countStart starts (s.event a))) := by
  obtain ⟨c, p, hrule, hrw, hfail⟩ := State.step_refines starts h
  refine ⟨c, p, hrule, hrw, fun e => ?_, hallowed c hfail⟩
  rw [leases_config]
  exact Nat.lt_of_le_of_lt (holders_le_arcCount _ e) (hs.step h e)

/-! ## The runs -/

/-- The steps of a run of the manager that meet `ok` are steps of the protocol
that meet `allowed`, if each single step does. -/
theorem reachable_config (ok : State → Action → Prop)
    (allowed : Config String → Multiset (Token String) → Config String → Prop)
    (hallowed : ∀ {s a s'} (starts : EntryId → Nat) (c : Multiset (Token String)),
      (manager settings).ReachableVia ok s → ok s a → s.step settings a = some s' →
      (∀ name e, Token.lease e (.failing name) ∈ c →
        s.event a = some (.unlinkFailed name e)) →
      allowed (s.config starts) c (s'.config (countStart starts (s.event a))))
    {p : State × (EntryId → Nat)}
    (h : (monitor settings).ReachableVia (fun q a => ok q.1 a) p) :
    p.1.ArcsBounded ∧
      Protocol.Reachable (limits settings) allowed "" (p.1.config p.2) := by
  induction h with
  | refl => exact ⟨fun _ => Nat.lt_of_lt_of_le Nat.zero_lt_one (by decide), .refl⟩
  | @step q q' a hr hok hs ih =>
    obtain ⟨hstep, hstarts⟩ := StepSystem.observe_step.mp hs
    rw [hstarts]
    exact ⟨ih.1.step hstep, ih.2.tail (State.step_config q.2 ih.1 hstep allowed
      fun c => hallowed q.2 c (of_monitor ok hr) hok hstep)⟩

/-- Every run of the manager keeps the invariants of the protocol. -/
theorem reachable_inv {p : State × (EntryId → Nat)} (h : (monitor settings).Reachable p) :
    p.1.ArcsBounded ∧ Inv (limits settings) (p.1.config p.2) := by
  have hconfig := reachable_config (fun _ _ => True) (fun _ _ _ => True)
    (fun _ _ _ _ _ _ => trivial) h
  exact ⟨hconfig.1, hconfig.2.inv⟩

/-- A task does not turn into a call of `close_all` and does not spawn one. -/
theorem Task.step_isCloseAll {σ σ' : Shared} {t t' : Task} {choice : Choice}
    {spawned : List Task} (h : t.step settings σ choice = some (σ', t', spawned)) :
    t'.isCloseAll = t.isCloseAll ∧ ∀ u ∈ spawned, u.isCloseAll = false := by
  cases t with
  | acquire call pc =>
    obtain ⟨⟨σ₁, call', pc', e⟩, _, heq⟩ := Option.map_eq_some_iff.mp h
    simp only [Prod.mk.injEq] at heq
    obtain ⟨_, rfl, rfl⟩ := heq
    refine ⟨rfl, fun u hu => ?_⟩
    obtain ⟨e, _, rfl⟩ := List.mem_map.mp hu
    rfl
  | cleanupIdle pc | checkpointWal pc | closeAll pc =>
    obtain ⟨⟨σ₁, pc'⟩, _, heq⟩ := Option.map_eq_some_iff.mp h
    simp only [Prod.mk.injEq] at heq
    obtain ⟨_, rfl, rfl⟩ := heq
    exact ⟨rfl, fun u hu => absurd hu (List.not_mem_nil)⟩
  | closeEntry e pc =>
    cases pc with
    | none => simp [Task.step] at h
    | some pc =>
      cases choice with
      | go =>
        simp only [Task.step, Option.some.injEq, Prod.mk.injEq] at h
        obtain ⟨_, rfl, rfl⟩ := h
        exact ⟨rfl, fun u hu => absurd hu (List.not_mem_nil)⟩
      | fail | visit key | count n => simp [Task.step] at h

theorem Task.cancel_isCloseAll {σ σ' : Shared} {t t' : Task}
    (h : t.cancel σ = some (σ', t')) : t'.isCloseAll = t.isCloseAll := by
  cases t with
  | acquire call pc | cleanupIdle pc | checkpointWal pc =>
    obtain ⟨⟨σ₁, pc'⟩, _, heq⟩ := Option.map_eq_some_iff.mp h
    simp only [Prod.mk.injEq] at heq
    obtain ⟨_, rfl⟩ := heq
    rfl
  | closeEntry e pc | closeAll pc => simp [Task.cancel] at h

/-- `close_all` runs only where it has been called. -/
theorem State.beforeCloseAll_step {s s' : State} {a : Action} (hs : s.BeforeCloseAll)
    (ha : a.beforeCloseAll) (h : s.step settings a = some s') : s'.BeforeCloseAll := by
  rcases State.step_cases h with ⟨operation, rfl, rfl⟩ |
    ⟨i, choice, t, σ', t', spawned, rfl, hi, hstep, hadv⟩ | ⟨i, t, σ', t', rfl, hi, hcancel, hadv⟩ |
    ⟨nowMs, rfl, rfl⟩
  · intro t ht
    rcases List.mem_append.mp ht with ht | ht
    · exact hs t ht
    · obtain rfl := List.mem_singleton.mp ht
      cases operation with
      | acquire name =>
        simp only [Operation.task]
        split <;> rfl
      | cleanupIdle | checkpointWal => rfl
      | closeAll => exact absurd rfl ha
  · obtain ⟨rfl, _⟩ := State.advance_eq_some hadv
    obtain ⟨hself, hspawned⟩ := Task.step_isCloseAll hstep
    exact forall_update (hself.trans (hs t (List.mem_of_getElem? hi)))
      (fun j u _ hj => hs u (List.mem_of_getElem? hj)) hspawned
  · obtain ⟨rfl, _⟩ := State.advance_eq_some hadv
    exact forall_update ((Task.cancel_isCloseAll hcancel).trans (hs t (List.mem_of_getElem? hi)))
      (fun j u _ hj => hs u (List.mem_of_getElem? hj)) fun u hu => absurd hu List.not_mem_nil
  · exact hs

/-- Before `close_all` no token of the shutdown is in the pool. -/
theorem State.BeforeCloseAll.no_shutdown {s : State} (hs : s.BeforeCloseAll)
    (starts : EntryId → Nat) : Token.shutdown ∉ (s.config starts).pool := by
  intro hmem
  obtain ⟨t, ht, hx⟩ := (mem_config s starts).mp hmem
  have hcloseAll : t.isCloseAll = true := t.says_of_mem _ hx
  rw [hs t ht] at hcloseAll
  exact absurd hcloseAll (by simp)

theorem reachable_beforeCloseAll {ok : State → Action → Prop}
    (hok : ∀ s a, ok s a → a.beforeCloseAll) {s : State}
    (h : (manager settings).ReachableVia ok s) : s.BeforeCloseAll :=
  h.invariant (fun _ ht => absurd ht List.not_mem_nil)
    fun _ _ _ _ hs ha hstep => State.beforeCloseAll_step hs (hok _ _ ha) hstep

/-- The runs before `close_all` are runs of the protocol before its shutdown. -/
theorem reachable_orderly {p : State × (EntryId → Nat)}
    (h : (monitor settings).ReachableVia (fun _ a => a.beforeCloseAll) p) :
    Inv (limits settings) (p.1.config p.2) ∧ Orderly (limits settings) (p.1.config p.2) := by
  have hconfig := reachable_config (fun _ a => a.beforeCloseAll) BeforeShutdown
    (fun starts c hr ha hstep _ => State.BeforeCloseAll.no_shutdown
      (State.beforeCloseAll_step (reachable_beforeCloseAll (fun _ _ => id) hr) ha hstep) _) h
  refine hconfig.2.invariant (Orderly.init _ _) fun x x' hinv hord hs => ?_
  obtain ⟨c, p, hrule, hrw, hlt, hbefore⟩ := hs
  exact hord.step hinv ⟨c, p, hrule, hrw, hlt, hbefore⟩ hbefore

end Tinkiva.Manager
