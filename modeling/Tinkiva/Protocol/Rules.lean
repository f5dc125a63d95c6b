import Tinkiva.Lib.ConcurrentMap
import Tinkiva.Lib.SentinelCounter
import Tinkiva.Lib.TokenPool
import Mathlib.Logic.Function.Basic
import Mathlib.Logic.Relation

/-!
# The lease protocol

What the database manager is for, without its tasks: a registry of named
resources that are opened on demand, leased to many callers, and closed when
nobody holds them.

The registry has one binding per name.  A resource has a word that counts its
leases, or holds the sentinel `top` once it is closed for good, and a stage
that says how far its pools have come.  The agents that work on the registry
are a pool of tokens.  A token is a resource that an agent owns (a lease, a
permit, the admission guard, the duty to close) or something that it has read
and still relies on (an entry that it has looked up).

`Rule` lists the steps of the protocol, with the tokens that each one takes and
puts back.  A step may also forget knowledge.  Names are of an arbitrary type.

`Rule.entries_cases`, `Rule.word_cases` and `Rule.stage_cases` say once what a
step can do to the bindings, to a word and to a stage.  Every invariant is
proved from them.
-/

namespace Tinkiva.Protocol

open ConcurrentMap TokenPool

/-! ## The registry -/

/-- How far the pools of a resource have come. -/
inductive Stage where
  | unopened
  | opening
  | ready
  | draining
  | closed
  deriving DecidableEq, Repr

/-- The pools have been opened. -/
def Stage.opened : Stage → Bool
  | .unopened | .opening => false
  | .ready | .draining | .closed => true

/-- The pools have been opened and are not closed yet. -/
def Stage.alive : Stage → Bool
  | .ready | .draining => true
  | .unopened | .opening | .closed => false

/-- The readers of the pools are closed. -/
def Stage.drain : Stage → Stage
  | .ready => .draining
  | stage => stage

/-- The writer of the pools is closed. -/
def Stage.shut : Stage → Stage
  | .ready | .draining => .closed
  | stage => stage

/-- The limits of a registry, and the sentinel of its words. -/
structure Limits where
  top : Nat
  capacity : Nat
  slots : Nat
  tenantSlots : Nat
  top_pos : 0 < top

/-- The shared part.  Resources are numbered in the order of their creation.
`starts` counts how often the closing of a resource has been started. -/
structure Registry (κ : Type) where
  entries : Map κ Nat
  created : Nat
  name : Nat → κ
  word : Nat → Nat
  stage : Nat → Stage
  starts : Nat → Nat
  tenantSlots : Nat → Nat
  slots : Nat
  locked : Bool

variable {κ : Type}

namespace Registry

/-- The registry before the first request. -/
def init (L : Limits) (blank : κ) : Registry κ where
  entries := ∅
  created := 0
  name := fun _ => blank
  word := fun _ => 0
  stage := fun _ => .unopened
  starts := fun _ => 0
  tenantSlots := fun _ => 0
  slots := L.slots
  locked := false

def setWord (r : Registry κ) (e word : Nat) : Registry κ :=
  { r with word := Function.update r.word e word }

def setStage (r : Registry κ) (e : Nat) (stage : Stage) : Registry κ :=
  { r with stage := Function.update r.stage e stage }

def setTenantSlots (r : Registry κ) (e slots : Nat) : Registry κ :=
  { r with tenantSlots := Function.update r.tenantSlots e slots }

/-- The closing of a resource is started. -/
def recordStart (r : Registry κ) (e : Nat) : Registry κ :=
  { r with starts := Function.update r.starts e (r.starts e + 1) }

/-- A new resource is created and bound to `n`. -/
def insertNew [DecidableEq κ] (L : Limits) (r : Registry κ) (n : κ) : Registry κ :=
  { r with
    entries := r.entries.insert n r.created
    created := r.created + 1
    name := Function.update r.name r.created n
    word := Function.update r.word r.created 0
    stage := Function.update r.stage r.created .unopened
    tenantSlots := Function.update r.tenantSlots r.created L.tenantSlots }

/-- A resource is linked: some name is bound to it. -/
def Linked [DecidableEq κ] (r : Registry κ) (e : Nat) : Prop := ∃ n, r.entries.lookup n = some e

end Registry

/-! ## Tokens -/

/-- What the holder of a lease does with it. -/
inductive Use (κ : Type) where
  | idle
  | opening
  | failing (name : κ)
  | ready
  deriving DecidableEq, Repr

/-- What the holder of the admission guard knows: nothing, that a name is not
bound, or also that there is room for one more. -/
inductive Guard (κ : Type) where
  | held
  | vacant (name : κ)
  | room (name : κ)
  deriving DecidableEq, Repr

inductive Token (κ : Type) where
  /-- A lease that the word of the resource counts. -/
  | lease (resource : Nat) (use : Use κ)
  /-- A permit of the resource. -/
  | tenantSlot (resource : Nat)
  /-- A permit of the process. -/
  | slot
  /-- The admission guard. -/
  | guard (state : Guard κ)
  /-- A resource that has been looked up in order to lease it. -/
  | acquiring (name : κ) (resource : Nat)
  /-- A resource that has been looked up in order to close it. -/
  | taking (name : κ) (resource : Nat)
  /-- The duty to unlink a resource after its word was closed. -/
  | removing (name : κ) (resource : Nat)
  /-- The duty to start the closing of a resource. -/
  | due (resource : Nat)
  /-- The closing of a resource that is running. -/
  | closing (resource : Nat)
  /-- A resource that a scan has collected. -/
  | collected (resource : Nat)
  /-- A resource that was linked when the shutdown cleared the registry. -/
  | doomed (resource : Nat)
  /-- The shutdown has been called. -/
  | shutdown
  deriving DecidableEq

namespace Token

/-- What an agent may forget. -/
def Knowledge : Token κ → Prop
  | acquiring _ _ | taking _ _ | closing _ | collected _ | doomed _ => True
  | _ => False

/-- The resource that a token names. -/
def resource : Token κ → Option Nat
  | lease e _ | tenantSlot e | acquiring _ e | taking _ e | removing _ e | due e | closing e
  | collected e | doomed e => some e
  | slot | guard _ | shutdown => none

/-- The token is a lease on `e`. -/
def leases (e : Nat) : Token κ → Bool
  | lease e' _ => decide (e' = e)
  | _ => false

/-- The token is the duty to close `e`, before its closing is started. -/
def closes (e : Nat) : Token κ → Bool
  | removing _ e' | due e' => decide (e' = e)
  | _ => false

/-- The token is the running initialiser of `e`. -/
def opens (e : Nat) : Token κ → Bool
  | lease e' .opening => decide (e' = e)
  | _ => false

def isGuard : Token κ → Bool
  | guard _ => true
  | _ => false

/-- The token is a permit of `e`. -/
def isTenantSlot (e : Nat) : Token κ → Bool
  | tenantSlot e' => decide (e' = e)
  | _ => false

def isSlot : Token κ → Bool
  | slot => true
  | _ => false

end Token

/-! ## Rules -/

open Token

variable [DecidableEq κ]

/-- `Rule L r consumed r' produced`: a step of the protocol. -/
inductive Rule (L : Limits) (r : Registry κ) :
    Multiset (Token κ) → Registry κ → Multiset (Token κ) → Prop
  | idle : Rule L r 0 r 0
  /-- A caller reads the binding of its name. -/
  | lookup {n e} : r.entries.lookup n = some e → Rule L r 0 r {acquiring n e}
  | lock : r.locked = false → Rule L r 0 { r with locked := true } {guard .held}
  | unlock : Rule L r {guard .held} { r with locked := false } 0
  | findVacant {n} :
    r.entries.lookup n = none → Rule L r {guard .held} r {guard (.vacant n)}
  | findRoom {n} :
    size r.entries < L.capacity → Rule L r {guard (.vacant n)} r {guard (.room n)}
  /-- The admission is refused. -/
  | refuse {n} : Rule L r {guard (.vacant n)} r {guard .held}
  | insert {n} :
    Rule L r {guard (.room n)} (r.insertNew L n) {guard .held, acquiring n r.created}
  /-- A lease for a caller. -/
  | lease {n e} : r.word e ≠ L.top →
    Rule L r {acquiring n e} (r.setWord e (r.word e + 1)) {acquiring n e, lease e .idle}
  /-- A lease for maintenance. -/
  | leaseCollected {e} : r.word e ≠ L.top →
    Rule L r {collected e} (r.setWord e (r.word e + 1)) {lease e .idle}
  | release {e} :
    Rule L r {lease e .idle} (r.setWord e (SentinelCounter.fetchSub L.top (r.word e))) 0
  | takeTenantSlot {e} : 0 < r.tenantSlots e →
    Rule L r {lease e .idle} (r.setTenantSlots e (r.tenantSlots e - 1))
      {lease e .idle, tenantSlot e}
  | giveTenantSlot {e} :
    Rule L r {tenantSlot e} (r.setTenantSlots e (r.tenantSlots e + 1)) 0
  | takeSlot : 0 < r.slots → Rule L r 0 { r with slots := r.slots - 1 } {slot}
  /-- Both permits of a request go back. -/
  | giveSlots {e} :
    Rule L r {tenantSlot e, slot}
      { r.setTenantSlots e (r.tenantSlots e + 1) with slots := r.slots + 1 } 0
  | findReady {e} : (r.stage e).opened = true → Rule L r {lease e .idle} r {lease e .ready}
  | finish {e} : Rule L r {lease e .ready} r {lease e .idle}
  | openStart {n e} : r.stage e = .unopened →
    Rule L r {acquiring n e, lease e .idle} (r.setStage e .opening)
      {acquiring n e, lease e .opening}
  | opened {e} : Rule L r {lease e .opening} (r.setStage e .ready) {lease e .ready}
  | openFailed {n e} :
    Rule L r {acquiring n e, lease e .opening} (r.setStage e .unopened)
      {lease e (.failing n)}
  | openCancelled {e} :
    Rule L r {lease e .opening} (r.setStage e .unopened) {lease e .idle}
  /-- A caller whose open failed unlinks the resource. -/
  | unlinkFailed {n e} :
    Rule L r {lease e (.failing n)} { r with entries := eraseIf r.entries n e }
      {lease e .idle}
  | lookupTake {n e} : r.entries.lookup n = some e → Rule L r 0 r {taking n e}
  | beginClose {n e} : r.word e = 0 →
    Rule L r {taking n e} (r.setWord e L.top) {removing n e}
  | remove {n e} :
    Rule L r {removing n e} { r with entries := r.entries.erase n } {due e}
  | closeStart {e} : Rule L r {due e} (r.recordStart e) {closing e}
  /-- The closing finds no pools. -/
  | closeUnopened {e} : (r.stage e).opened = false → Rule L r {due e} (r.recordStart e) 0
  | drain {e} : Rule L r {closing e} (r.setStage e (r.stage e).drain) {closing e}
  | shut {e} : Rule L r {closing e} (r.setStage e (r.stage e).shut) 0
  | collect {n e} : r.entries.lookup n = some e → Rule L r 0 r {collected e}
  | shutdown : Rule L r 0 r {shutdown}
  /-- The shutdown clears the registry, with what it has collected. -/
  | clear {es : Multiset Nat} :
    Rule L r (Token.shutdown ::ₘ es.map collected) { r with entries := ∅ }
      (Token.shutdown ::ₘ es.map doomed)
  | doom {e} : r.word e = 0 →
    Rule L r {doomed e, Token.shutdown} (r.setWord e L.top) {Token.shutdown}
  /-- The shutdown closes resources, closed before or not. -/
  | shutdownWork {starts : Nat → Nat} {stage : Nat → Stage} :
    Rule L r {Token.shutdown} { r with starts := starts, stage := stage } {Token.shutdown}

/-- The registry and the pool of tokens. -/
structure Config (κ : Type) where
  registry : Registry κ
  pool : Multiset (Token κ)

/-- The number of leases on a resource. -/
def Config.leases (x : Config κ) (e : Nat) : Nat := count (Token.leases e) x.pool

/-- A step with fewer than `top` leases at its end.  `allowed` may restrict the
steps: it sees both configurations and the consumed tokens. -/
def Step (L : Limits) (allowed : Config κ → Multiset (Token κ) → Config κ → Prop)
    (x x' : Config κ) : Prop :=
  ∃ consumed produced, Rule L x.registry consumed x'.registry produced ∧
    Rewrites Knowledge x.pool consumed produced x'.pool ∧
    (∀ e, x'.leases e < L.top) ∧ allowed x consumed x'

/-- A move of one agent: a rule of the protocol on the tokens `T` of the agent,
which become `T'`. -/
def Moves (L : Limits) (r : Registry κ) (T : Multiset (Token κ)) (r' : Registry κ)
    (T' : Multiset (Token κ)) : Prop :=
  ∃ consumed produced, Rule L r consumed r' produced ∧
    Rewrites Knowledge T consumed produced T'

theorem Moves.refl {L : Limits} {r : Registry κ} {T : Multiset (Token κ)} : Moves L r T r T :=
  ⟨0, 0, .idle, .of_frame T (add_zero T).symm (add_zero T).symm⟩

/-- The agent applies a rule and forgets `discarded`. -/
theorem Moves.of_rule {L : Limits} {r r' : Registry κ} {c p T T' : Multiset (Token κ)}
    (frame discarded : Multiset (Token κ)) (h : Rule L r c r' p)
    (hT : T = frame + c + discarded) (hT' : T' = frame + p)
    (hd : ∀ x ∈ discarded, Token.Knowledge x) : Moves L r T r' T' :=
  ⟨c, p, h, frame, discarded, hd, hT, hT'⟩

/-- What else the agent has stays. -/
theorem Moves.add_left {L : Limits} {r r' : Registry κ} {T T' : Multiset (Token κ)}
    (rest : Multiset (Token κ)) (h : Moves L r T r' T') :
    Moves L r (rest + T) r' (rest + T') := by
  obtain ⟨c, p, hrule, hrw⟩ := h
  exact ⟨c, p, hrule, hrw.add_left rest⟩

/-! ## What a step can do -/

section Inversion

variable {L : Limits} {r r' : Registry κ} {c p : Multiset (Token κ)}

/-- The bindings, the names and the number of resources change together or not
at all.  Only the holder of the guard binds a name, and there are three ways to
unbind one: the end of a `take`, a failed open, and the shutdown. -/
theorem Rule.entries_cases (h : Rule L r c r' p) :
    (r'.entries = r.entries ∧ r'.created = r.created ∧ r'.name = r.name) ∨
    (∃ n, c = {guard (.room n)} ∧ p = {guard .held, acquiring n r.created} ∧
      r' = r.insertNew L n) ∨
    (∃ n e, c = {removing n e} ∧ p = {due e} ∧
      r' = { r with entries := r.entries.erase n }) ∨
    (∃ n e, c = {Token.lease e (.failing n)} ∧ p = {Token.lease e .idle} ∧
      r' = { r with entries := eraseIf r.entries n e }) ∨
    (∃ es : Multiset Nat, c = Token.shutdown ::ₘ es.map collected ∧
      p = Token.shutdown ::ₘ es.map doomed ∧ r' = { r with entries := ∅ }) := by
  cases h with
  | @insert n => exact Or.inr (Or.inl ⟨n, rfl, rfl, rfl⟩)
  | @remove n e => exact Or.inr (Or.inr (Or.inl ⟨n, e, rfl, rfl, rfl⟩))
  | @unlinkFailed n e => exact Or.inr (Or.inr (Or.inr (Or.inl ⟨n, e, rfl, rfl, rfl⟩)))
  | @clear es => exact Or.inr (Or.inr (Or.inr (Or.inr ⟨es, rfl, rfl, rfl⟩)))
  | _ => exact Or.inl ⟨rfl, rfl, rfl⟩

/-- A word is kept, counted up for a new lease, counted down for a dropped one,
closed, or new. -/
theorem Rule.word_cases (h : Rule L r c r' p) (e : Nat) :
    (r'.word e = r.word e ∧ count (leases e) p = count (leases e) c) ∨
    (r.word e ≠ L.top ∧ r'.word e = r.word e + 1 ∧
      count (leases e) p = count (leases e) c + 1) ∨
    (r'.word e = SentinelCounter.fetchSub L.top (r.word e) ∧
      count (leases e) c = count (leases e) p + 1) ∨
    (r.word e = 0 ∧ r'.word e = L.top ∧ count (leases e) p = count (leases e) c ∧
      ((∃ n, c = {taking n e} ∧ p = {removing n e}) ∨ doomed e ∈ c)) ∨
    (e = r.created ∧ r'.word e = 0 ∧ r.created < r'.created ∧
      count (leases e) p = count (leases e) c) := by
  cases h with
  | @insert n =>
    by_cases he : e = r.created
    · subst he
      simp [Registry.insertNew, leases]
    · simp [Registry.insertNew, leases, he]
  | @lease n e' hw | @leaseCollected e' hw =>
    by_cases he : e' = e
    · subst he
      simp [Registry.setWord, leases, hw, Nat.add_comm]
    · simp [Registry.setWord, leases, he, Ne.symm he]
  | @release e' =>
    by_cases he : e' = e
    · subst he
      simp [Registry.setWord, leases]
    · simp [Registry.setWord, leases, he, Ne.symm he]
  | @beginClose n e' hw =>
    by_cases he : e' = e
    · subst he
      simp [Registry.setWord, leases, hw]
    · simp [Registry.setWord, leases, Ne.symm he]
  | @doom e' hw =>
    by_cases he : e' = e
    · subst he
      simp [Registry.setWord, leases, hw]
    · simp [Registry.setWord, leases, Ne.symm he]
  | @clear es =>
    left
    refine ⟨rfl, ?_⟩
    rw [count_eq_zero.mpr, count_eq_zero.mpr] <;> simp [leases]
  | _ => simp [Registry.setTenantSlots, Registry.setStage, Registry.recordStart, leases]

/-- A step changes the word of a resource only if it creates the resource or
consumes a token that names it. -/
theorem Rule.word_frame (h : Rule L r c r' p) (e : Nat) :
    r'.word e = r.word e ∨ (e = r.created ∧ r.created < r'.created) ∨
      ∃ t ∈ c, t.resource = some e := by
  cases h with
  | @insert n =>
    by_cases he : e = r.created
    · subst he
      simp [Registry.insertNew]
    · simp [Registry.insertNew, he]
  | @lease n e' hw | @leaseCollected e' hw | @release e' | @beginClose n e' hw | @doom e' hw =>
    by_cases he : e' = e
    · subst he
      simp [resource]
    · simp [Registry.setWord, Ne.symm he]
  | _ => exact Or.inl rfl

/-- Only the running initialiser of a resource opens it, and only a running
closing closes it. -/
theorem Rule.stage_cases (h : Rule L r c r' p) (e : Nat) :
    (r'.stage e = r.stage e ∧ count (opens e) p = count (opens e) c) ∨
    (r.stage e = .unopened ∧ r'.stage e = .opening ∧ ∃ n,
      c = {acquiring n e, Token.lease e .idle} ∧ p = {acquiring n e, Token.lease e .opening}) ∨
    (r'.stage e = .ready ∧ c = {Token.lease e .opening} ∧ p = {Token.lease e .ready}) ∨
    (r'.stage e = .unopened ∧ count (opens e) c = 1 ∧ count (opens e) p = 0) ∨
    ((r'.stage e = (r.stage e).drain ∨ r'.stage e = (r.stage e).shut) ∧ closing e ∈ c ∧
      count (opens e) p = count (opens e) c) ∨
    (e = r.created ∧ r'.stage e = .unopened ∧ count (opens e) p = count (opens e) c) ∨
    Token.shutdown ∈ c := by
  cases h with
  | @insert n =>
    by_cases he : e = r.created
    · subst he
      simp [Registry.insertNew, opens]
    · simp [Registry.insertNew, opens, he]
  | @openStart n e' hs =>
    by_cases he : e' = e
    · subst he
      simp [Registry.setStage, hs]
    · simp [Registry.setStage, opens, he, Ne.symm he]
  | @opened e' | @openFailed n e' | @openCancelled e' =>
    by_cases he : e' = e
    · subst he
      simp [Registry.setStage, opens]
    · simp [Registry.setStage, opens, he, Ne.symm he]
  | @drain e' | @shut e' =>
    by_cases he : e' = e
    · subst he
      simp [Registry.setStage, opens]
    · simp [Registry.setStage, opens, Ne.symm he]
  | @clear es => simp
  | @shutdownWork starts stage => simp
  | _ => simp [Registry.setTenantSlots, Registry.setWord, Registry.recordStart, opens]

/-- The duty to close a resource is passed on until its closing is started.  It
arises where `take` closes the word. -/
theorem Rule.starts_cases (h : Rule L r c r' p) (e : Nat) :
    r'.starts e + count (closes e) p = r.starts e + count (closes e) c ∨
    (∃ n, r.word e = 0 ∧ c = {taking n e} ∧ p = {removing n e} ∧ r' = r.setWord e L.top) ∨
    Token.shutdown ∈ c := by
  cases h with
  | @beginClose n e' hw =>
    by_cases he : e' = e
    · subst he
      exact Or.inr (Or.inl ⟨n, hw, rfl, rfl, rfl⟩)
    · simp [Registry.setWord, closes, he]
  | @closeStart e' | @closeUnopened e' =>
    by_cases he : e' = e
    · subst he
      simp [Registry.recordStart, closes]
    · simp [Registry.recordStart, closes, he, Ne.symm he]
  | @clear es => simp
  | @shutdownWork starts stage => simp
  | _ => simp [Registry.setTenantSlots, Registry.setStage, Registry.setWord,
      Registry.insertNew, closes]

/-- A permit leaves a semaphore as a token and comes back as one. -/
theorem Rule.slots_balance (h : Rule L r c r' p) :
    r'.slots + count isSlot p = r.slots + count isSlot c := by
  cases h with
  | takeSlot hs =>
    simp [isSlot]
    omega
  | @clear es =>
    congr 1
    rw [count_eq_zero.mpr, count_eq_zero.mpr] <;> simp [isSlot]
  | _ => simp [Registry.setTenantSlots, Registry.setStage, Registry.setWord,
      Registry.insertNew, Registry.recordStart, isSlot]

/-- The same for the semaphore of a resource, once the resource is created. -/
theorem Rule.tenantSlots_cases (h : Rule L r c r' p) (e : Nat) :
    ((e < r'.created → e < r.created) ∧
      r'.tenantSlots e + count (isTenantSlot e) p =
        r.tenantSlots e + count (isTenantSlot e) c) ∨
    (e = r.created ∧ r'.tenantSlots e = L.tenantSlots ∧
      count (isTenantSlot e) p = count (isTenantSlot e) c) := by
  cases h with
  | @insert n =>
    by_cases he : e = r.created
    · subst he
      simp [Registry.insertNew, isTenantSlot]
    · simp [Registry.insertNew, isTenantSlot, he]
      omega
  | @takeTenantSlot e' hs =>
    by_cases he : e' = e
    · subst he
      simp [Registry.setTenantSlots, isTenantSlot]
      omega
    · simp [Registry.setTenantSlots, isTenantSlot, he, Ne.symm he]
  | @giveTenantSlot e' | @giveSlots e' =>
    by_cases he : e' = e
    · subst he
      simp [Registry.setTenantSlots, isTenantSlot]
    · simp [Registry.setTenantSlots, isTenantSlot, he, Ne.symm he]
  | @clear es =>
    left
    refine ⟨id, congrArg _ ?_⟩
    rw [count_eq_zero.mpr, count_eq_zero.mpr] <;> simp [isTenantSlot]
  | _ => simp [Registry.setStage, Registry.setWord, Registry.recordStart, isTenantSlot]

/-- The mutex is locked by the step that produces the guard and unlocked by the
one that consumes it. -/
theorem Rule.locked_balance (h : Rule L r c r' p) :
    (r'.locked.toNat + count isGuard c = r.locked.toNat + count isGuard p) ∨
      (r.locked = false ∧ c = {guard .held}) := by
  cases h with
  | lock hl => simp [isGuard, hl]
  | unlock => cases hl : r.locked <;> simp [isGuard]
  | @clear es =>
    left
    congr 1
    rw [count_eq_zero.mpr, count_eq_zero.mpr] <;> simp [isGuard]
  | _ => simp [Registry.setTenantSlots, Registry.setStage, Registry.setWord,
      Registry.insertNew, Registry.recordStart, isGuard]

end Inversion

end Tinkiva.Protocol
