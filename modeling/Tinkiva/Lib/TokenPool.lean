import Mathlib.Algebra.Order.Group.Multiset
import Mathlib.Tactic.Abel
import Tinkiva.Lib.TaskPool

/-!
# Token pools

What the agents of a concurrent system own and know, as one multiset of tokens.
A step takes tokens out of the pool and puts tokens in; the agents themselves
do not appear.  Some tokens stand for knowledge and not for a resource, and an
agent may forget what it knows at any step.

`Rewrites discard pool consumed produced pool'` is one such step.  The pool is
a frame, the consumed tokens and some discarded ones; after the step it is the
frame and the produced tokens.

There are two groups of lemmas.

* Membership: a token of the new pool is an old one or has been produced, and
  what a step consumes was there.
* Counts: `Rewrites.count_balance` is the balance equation of a kind of token
  that cannot be discarded.  An invariant that ties a counter to the number of
  its tokens is proved from it.
-/

namespace TokenPool

variable {τ : Type*} {discard : τ → Prop} {pool pool' consumed produced : Multiset τ}

/-- One step of a token pool. -/
def Rewrites (discard : τ → Prop) (pool consumed produced pool' : Multiset τ) : Prop :=
  ∃ frame discarded, (∀ x ∈ discarded, discard x) ∧
    pool = frame + consumed + discarded ∧ pool' = frame + produced

/-- A step that forgets nothing. -/
theorem Rewrites.of_frame (frame : Multiset τ) (h : pool = frame + consumed)
    (h' : pool' = frame + produced) : Rewrites discard pool consumed produced pool' :=
  ⟨frame, 0, fun _ hx => absurd hx (Multiset.notMem_zero _), by rw [h, add_zero], h'⟩

/-- The tokens of the other agents are part of the frame. -/
theorem Rewrites.add_left (rest : Multiset τ)
    (h : Rewrites discard pool consumed produced pool') :
    Rewrites discard (rest + pool) consumed produced (rest + pool') := by
  obtain ⟨frame, discarded, hd, rfl, rfl⟩ := h
  exact ⟨rest + frame, discarded, hd, by abel, by abel⟩

/-! ## Membership -/

/-- A token of the new pool is an old one or a new one. -/
theorem Rewrites.mem_cases (h : Rewrites discard pool consumed produced pool') {x : τ}
    (hx : x ∈ pool') : x ∈ pool ∨ x ∈ produced := by
  obtain ⟨frame, discarded, _, rfl, rfl⟩ := h
  rcases Multiset.mem_add.mp hx with hx | hx
  · exact Or.inl (Multiset.mem_add.mpr (Or.inl (Multiset.mem_add.mpr (Or.inl hx))))
  · exact Or.inr hx

/-- What a step consumes was in the pool. -/
theorem Rewrites.mem_of_consumed (h : Rewrites discard pool consumed produced pool') {x : τ}
    (hx : x ∈ consumed) : x ∈ pool := by
  obtain ⟨frame, discarded, _, rfl, rfl⟩ := h
  exact Multiset.mem_add.mpr (Or.inl (Multiset.mem_add.mpr (Or.inr hx)))

theorem Rewrites.mem_of_produced (h : Rewrites discard pool consumed produced pool') {x : τ}
    (hx : x ∈ produced) : x ∈ pool' := by
  obtain ⟨frame, discarded, _, rfl, rfl⟩ := h
  exact Multiset.mem_add.mpr (Or.inr hx)

/-- A token that can neither be discarded nor is consumed stays. -/
theorem Rewrites.mem_of_kept (h : Rewrites discard pool consumed produced pool') {x : τ}
    (hx : x ∈ pool) (hd : ¬ discard x) (hc : x ∉ consumed) : x ∈ pool' := by
  obtain ⟨frame, discarded, hdis, rfl, rfl⟩ := h
  rcases Multiset.mem_add.mp hx with hx | hx
  · rcases Multiset.mem_add.mp hx with hx | hx
    · exact Multiset.mem_add.mpr (Or.inl hx)
    · exact absurd hx hc
  · exact absurd (hdis x hx) hd

/-! ## Counts -/

/-- The number of tokens of a kind. -/
def count (q : τ → Bool) (pool : Multiset τ) : Nat := pool.countP fun x => q x = true

section Counts

variable (q : τ → Bool)

@[simp] theorem count_zero : count q (0 : Multiset τ) = 0 := rfl

@[simp] theorem count_add (M N : Multiset τ) : count q (M + N) = count q M + count q N :=
  Multiset.countP_add _ M N

@[simp] theorem count_cons (x : τ) (M : Multiset τ) :
    count q (x ::ₘ M) = (q x).toNat + count q M := by
  rw [count, Multiset.countP_cons, count]
  cases q x <;> simp [Nat.add_comm]

@[simp] theorem count_singleton (x : τ) : count q {x} = (q x).toNat := by
  rw [← Multiset.cons_zero, count_cons, count_zero, Nat.add_zero]

/-- Counting is additive. -/
def countHom : Multiset τ →+ Nat where
  toFun := count q
  map_zero' := count_zero q
  map_add' := count_add q

variable {q}

theorem count_eq_zero {M : Multiset τ} : count q M = 0 ↔ ∀ x ∈ M, q x = false := by
  rw [count, Multiset.countP_eq_zero]
  simp

theorem count_pos {M : Multiset τ} : 0 < count q M ↔ ∃ x ∈ M, q x = true :=
  Multiset.countP_pos

theorem count_pos_of_mem {M : Multiset τ} {x : τ} (hx : x ∈ M) (hq : q x = true) :
    0 < count q M :=
  count_pos.mpr ⟨x, hx, hq⟩

/-- The balance equation: a kind of token that cannot be discarded changes its
count by what the step produces and consumes of it. -/
theorem Rewrites.count_balance (h : Rewrites discard pool consumed produced pool')
    (hq : ∀ x, discard x → q x = false) :
    count q pool' + count q consumed = count q pool + count q produced := by
  obtain ⟨frame, discarded, hd, rfl, rfl⟩ := h
  have hzero : count q discarded = 0 := count_eq_zero.mpr fun x hx => hq x (hd x hx)
  simp only [count_add, hzero]
  omega

/-- What is consumed counts towards the pool. -/
theorem Rewrites.count_consumed_le (h : Rewrites discard pool consumed produced pool') :
    count q consumed ≤ count q pool := by
  obtain ⟨frame, discarded, _, rfl, rfl⟩ := h
  simp only [count_add]
  omega

/-- If at most one token is of a kind and the step consumes one, then a token
of that kind in the new pool has been produced. -/
theorem Rewrites.mem_produced_of_unique (h : Rewrites discard pool consumed produced pool')
    (hone : count q pool ≤ 1) {x y : τ} (hx : x ∈ consumed) (hqx : q x = true)
    (hy : y ∈ pool') (hqy : q y = true) : y ∈ produced := by
  obtain ⟨frame, discarded, _, rfl, rfl⟩ := h
  rcases Multiset.mem_add.mp hy with hy | hy
  · have h1 := count_pos_of_mem hy hqy
    have h2 := count_pos_of_mem hx hqx
    simp only [count_add] at hone
    omega
  · exact hy

end Counts

/-! ## The tokens of a pool of tasks -/

theorem mem_tally {σ : Type*} {w : σ → Multiset τ} {ts : List σ} {x : τ} :
    x ∈ TaskPool.tally w ts ↔ ∃ t ∈ ts, x ∈ w t := by
  induction ts with
  | nil => simp
  | cons t ts ih => simp [TaskPool.tally_cons, ih]

theorem count_tally {σ : Type*} (q : τ → Bool) (w : σ → Multiset τ) (ts : List σ) :
    count q (TaskPool.tally w ts) = TaskPool.tally (fun t => count q (w t)) ts :=
  TaskPool.map_tally w (countHom q) ts

end TokenPool
