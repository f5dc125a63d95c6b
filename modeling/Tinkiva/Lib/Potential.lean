import Tinkiva.Lib.StepSystem

/-!
# Counting steps with a potential

A number that no step raises and that every counted step lowers bounds how often a
counted step is done, in any run and however the other steps fall between.
-/

namespace StepSystem

variable {σ α : Type*} {M : StepSystem σ α}

/-- The system with a count of the steps that `paid` picks out. -/
def counted (M : StepSystem σ α) (paid : σ → α → Bool) : StepSystem (σ × Nat) α :=
  M.observe 0 fun n s a _ => n + (paid s a).toNat

variable {paid : σ → α → Bool} {φ : σ → Nat}

/-- A step that pays for itself, in every reachable state, keeps the count below what the
potential has gone down. -/
theorem counted_le
    (hstep : ∀ s a s', M.Reachable s → M.step s a = some s' → φ s' + (paid s a).toNat ≤ φ s)
    {p : σ × Nat} (h : (M.counted paid).Reachable p) : p.2 + φ p.1 ≤ φ M.init := by
  let I : σ × Nat → Prop := fun p => M.Reachable p.1 ∧ p.2 + φ p.1 ≤ φ M.init
  have hinit : I (M.counted paid).init := ⟨.refl, Nat.le_of_eq (Nat.zero_add _)⟩
  suffices hrun : I p from hrun.2
  refine h.invariant hinit ?_
  intro p a p' _ hp _ hs
  obtain ⟨hs', hcount⟩ := observe_step.mp hs
  have hpays := hstep p.1 a p'.1 hp.1 hs'
  refine ⟨hp.1.step trivial hs', ?_⟩
  have hle := hp.2
  rw [hcount]
  omega

end StepSystem
