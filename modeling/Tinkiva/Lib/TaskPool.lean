import Mathlib.Algebra.Order.BigOperators.Group.List
import Mathlib.Algebra.Order.Group.Nat
import Mathlib.Tactic.Abel

/-!
# Pools of tasks and conserved quantities

The tasks of a concurrent system as a list.  A step replaces one task and may
start more: `update ts i t' new` puts `t'` in place of task `i` and appends
`new`.  A task keeps its index for ever, so an index names a task.

Two kinds of fact about a pool survive a step, and each has its rule here.

* What every task satisfies: `forall_update` splits the goal into the task
  that moved, the tasks that did not, and the new ones.
* What the tasks hold together: `tally w` sums a weight over the pool, and
  `tally_update` is the balance equation of one step.  `countP_eq_tally` says
  that a count is a tally.
-/

namespace TaskPool

variable {τ : Type*}

/-- One step of the pool: task `i` becomes `t'`, and `new` tasks start. -/
def update (ts : List τ) (i : Nat) (t' : τ) (new : List τ) : List τ := ts.set i t' ++ new

/-- The sum of a weight over the pool.  The weight may be a number, or a
multiset of tokens. -/
def tally {ω : Type*} [AddCommMonoid ω] (w : τ → ω) (ts : List τ) : ω := (ts.map w).sum

/-! ## What every task satisfies -/

/-- A task of the updated pool is the task that moved, a task that did not,
or a new one. -/
theorem mem_update {ts : List τ} {i : Nat} {t' u : τ} {new : List τ}
    (h : u ∈ update ts i t' new) :
    u = t' ∨ (∃ j, j ≠ i ∧ ts[j]? = some u) ∨ u ∈ new := by
  rcases List.mem_append.mp h with hu | hu
  · obtain ⟨j, hj⟩ := List.mem_iff_getElem?.mp hu
    rw [List.getElem?_set] at hj
    split at hj
    · split at hj
      · exact Or.inl (Option.some.inj hj).symm
      · exact absurd hj (by simp)
    · rename_i hne
      exact Or.inr (Or.inl ⟨j, fun he => hne he.symm, hj⟩)
  · exact Or.inr (Or.inr hu)

theorem forall_update {P : τ → Prop} {ts : List τ} {i : Nat} {t' : τ} {new : List τ}
    (hself : P t') (hother : ∀ j u, j ≠ i → ts[j]? = some u → P u)
    (hnew : ∀ u ∈ new, P u) : ∀ u ∈ update ts i t' new, P u := by
  intro u hu
  rcases mem_update hu with rfl | ⟨j, hj, hju⟩ | hu
  · exact hself
  · exact hother j u hj hju
  · exact hnew u hu

theorem getElem?_update_self {ts : List τ} {i : Nat} {t t' : τ} {new : List τ}
    (h : ts[i]? = some t) : (update ts i t' new)[i]? = some t' := by
  obtain ⟨hlt, _⟩ := List.getElem?_eq_some_iff.mp h
  rw [update, List.getElem?_append_left (by rwa [List.length_set]), List.getElem?_set_self hlt]

theorem getElem?_update_ne {ts : List τ} {i j : Nat} {t' u : τ} {new : List τ}
    (hne : j ≠ i) (h : ts[j]? = some u) : (update ts i t' new)[j]? = some u := by
  obtain ⟨hlt, _⟩ := List.getElem?_eq_some_iff.mp h
  rw [update, List.getElem?_append_left (by rwa [List.length_set]),
    List.getElem?_set_ne (Ne.symm hne)]
  exact h

theorem mem_update_self {ts : List τ} {i : Nat} {t t' : τ} {new : List τ}
    (h : ts[i]? = some t) : t' ∈ update ts i t' new :=
  List.mem_iff_getElem?.mpr ⟨i, getElem?_update_self h⟩

theorem mem_update_ne {ts : List τ} {i j : Nat} {t' u : τ} {new : List τ}
    (hne : j ≠ i) (h : ts[j]? = some u) : u ∈ update ts i t' new :=
  List.mem_iff_getElem?.mpr ⟨j, getElem?_update_ne hne h⟩

/-! ## What the tasks hold together -/

section Tally

variable {ω : Type*} [AddCommMonoid ω] (w : τ → ω)

@[simp] theorem tally_nil : tally w [] = 0 := rfl

theorem tally_append (ts us : List τ) : tally w (ts ++ us) = tally w ts + tally w us := by
  simp [tally]

theorem tally_cons (t : τ) (ts : List τ) : tally w (t :: ts) = w t + tally w ts := by
  simp [tally]

/-- A tally through a homomorphism is the tally of the images. -/
theorem map_tally {ω' : Type*} [AddCommMonoid ω'] (f : ω →+ ω') (ts : List τ) :
    f (tally w ts) = tally (fun t => f (w t)) ts := by
  rw [tally, map_list_sum, List.map_map]
  rfl

/-- The frame of task `i`: what the other tasks weigh.  It is the same before
and after task `i` moves. -/
theorem exists_frame {ts : List τ} {i : Nat} {t : τ} (h : ts[i]? = some t) :
    ∃ rest, tally w ts = rest + w t ∧
      ∀ t' new, tally w (update ts i t' new) = rest + (w t' + tally w new) := by
  obtain ⟨hlt, rfl⟩ := List.getElem?_eq_some_iff.mp h
  refine ⟨tally w (ts.take i) + tally w (ts.drop (i + 1)), ?_, ?_⟩
  · conv_lhs => rw [← List.take_append_drop i ts, List.drop_eq_getElem_cons hlt]
    rw [tally_append, tally_cons]
    abel
  · intro t' new
    rw [update, List.set_eq_take_append_cons_drop, if_pos hlt]
    simp only [tally_append, tally_cons]
    abel

/-- The balance equation of one step. -/
theorem tally_update {ts : List τ} {i : Nat} {t : τ} (t' : τ) (new : List τ)
    (h : ts[i]? = some t) :
    tally w (update ts i t' new) + w t = tally w ts + w t' + tally w new := by
  obtain ⟨rest, hts, hup⟩ := exists_frame w h
  rw [hts, hup]
  abel

end Tally

theorem tally_mono {w v : τ → Nat} {ts : List τ} (h : ∀ t ∈ ts, w t ≤ v t) :
    tally w ts ≤ tally v ts :=
  List.sum_le_sum h

theorem tally_eq_zero {w : τ → Nat} {ts : List τ} (h : ∀ t ∈ ts, w t = 0) :
    tally w ts = 0 := by
  rw [tally, List.sum_eq_zero_iff]
  simpa using h

theorem countP_eq_tally (p : τ → Bool) (ts : List τ) :
    ts.countP p = tally (fun t => (p t).toNat) ts := by
  induction ts with
  | nil => rfl
  | cons t ts ih =>
    rw [List.countP_cons, tally_cons, ih]
    cases p t <;> simp [Nat.add_comm]

/-- What at most one task satisfies names its index. -/
theorem index_unique {p : τ → Bool} {ts : List τ} (hone : ts.countP p ≤ 1) {i j : Nat} {t u : τ}
    (hi : ts[i]? = some t) (hj : ts[j]? = some u) (ht : p t = true) (hu : p u = true) :
    i = j := by
  induction ts generalizing i j with
  | nil => simp at hi
  | cons v vs ih =>
    rw [List.countP_cons] at hone
    cases i with
    | zero =>
      cases j with
      | zero => rfl
      | succ j =>
        have hpos : 0 < vs.countP p := List.countP_pos_iff.mpr ⟨u, List.mem_of_getElem? hj, hu⟩
        obtain rfl : v = t := by simpa using hi
        rw [if_pos ht] at hone
        omega
    | succ i =>
      cases j with
      | zero =>
        have hpos : 0 < vs.countP p := List.countP_pos_iff.mpr ⟨t, List.mem_of_getElem? hi, ht⟩
        obtain rfl : v = u := by simpa using hj
        rw [if_pos hu] at hone
        omega
      | succ j => exact congrArg (· + 1) (ih (by omega) hi hj)

end TaskPool
