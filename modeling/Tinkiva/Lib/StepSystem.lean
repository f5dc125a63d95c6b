import Mathlib.Tactic.Common

/-!
# Step systems, their runs, and what a run keeps

A step system is an initial state with a partial step function.  All the
nondeterminism of a system is in the action: the action names the task that
moves, the branch that the environment picks, and the value that it reports.
The step function itself is a function, so a concrete run can be evaluated.

There are three groups.

* Runs.  `run` plays a list of actions.  `RunFrom ok s₀ s` says that some list
  of actions leads from `s₀` to `s` and that every step of it meets `ok`.
  `Reachable` and `ReachableVia` are the runs from the initial state.
* The invariant rules.  `RunFrom.invariant` and `ReachableVia.invariant` take
  the step lemma and give the run lemma.
* Observers.  `observe` runs a second, passive state beside the system.  It is
  how a history variable is added without touching the system, and
  `ReachableVia.observed` says that it restricts no run.
-/

/-- An initial state and a partial step function over labelled actions. -/
structure StepSystem (σ α : Type*) where
  init : σ
  step : σ → α → Option σ

namespace StepSystem

variable {σ α γ : Type*} (M : StepSystem σ α)

/-! ## Runs -/

/-- Plays a list of actions from `s`.  The run stops with `none` at the first
action that is not enabled. -/
def run (s : σ) : List α → Option σ
  | [] => some s
  | a :: as => (M.step s a).bind fun s' => run s' as

/-- `RunFrom ok s₀ s`: the system can go from `s₀` to `s` by steps that all
meet `ok`.  `ok` sees the state before the step and the action. -/
inductive RunFrom (ok : σ → α → Prop) (s₀ : σ) : σ → Prop
  | refl : RunFrom ok s₀ s₀
  | step {s s' : σ} (a : α) :
      RunFrom ok s₀ s → ok s a → M.step s a = some s' → RunFrom ok s₀ s'

/-- The states of the runs whose steps all meet `ok`. -/
def ReachableVia (ok : σ → α → Prop) (s : σ) : Prop := M.RunFrom ok M.init s

/-- The states of all runs. -/
def Reachable (s : σ) : Prop := M.ReachableVia (fun _ _ => True) s

/-- Plays a list of actions and checks `ok` before each of them. -/
def runVia (ok : σ → α → Bool) (s : σ) : List α → Option σ
  | [] => some s
  | a :: as => if ok s a then (M.step s a).bind fun s' => runVia ok s' as else none

variable {M} {ok ok' : σ → α → Prop}

theorem run_append (s : σ) (as bs : List α) :
    M.run s (as ++ bs) = (M.run s as).bind fun s' => M.run s' bs := by
  induction as generalizing s with
  | nil => rfl
  | cons a as ih =>
    simp only [List.cons_append, run]
    cases M.step s a with
    | none => rfl
    | some s' => exact ih s'

theorem RunFrom.trans {s₀ s₁ s₂ : σ} (h : M.RunFrom ok s₀ s₁)
    (h' : M.RunFrom ok s₁ s₂) : M.RunFrom ok s₀ s₂ := by
  induction h' with
  | refl => exact h
  | step a _ hok hs ih => exact .step a ih hok hs

theorem RunFrom.mono {s₀ s : σ} (himp : ∀ s a, ok s a → ok' s a)
    (h : M.RunFrom ok s₀ s) : M.RunFrom ok' s₀ s := by
  induction h with
  | refl => exact .refl
  | step a _ hok hs ih => exact .step a ih (himp _ _ hok) hs

theorem ReachableVia.mono {s : σ} (himp : ∀ s a, ok s a → ok' s a)
    (h : M.ReachableVia ok s) : M.ReachableVia ok' s :=
  RunFrom.mono himp h

theorem ReachableVia.reachable {s : σ} (h : M.ReachableVia ok s) : M.Reachable s :=
  RunFrom.mono (fun _ _ _ => trivial) h

theorem ReachableVia.step {s s' : σ} {a : α} (h : M.ReachableVia ok s) (hok : ok s a)
    (hs : M.step s a = some s') : M.ReachableVia ok s' :=
  RunFrom.step a h hok hs

/-- A played list of actions whose checks pass is a run that meets `ok`. -/
theorem runFrom_of_runVia {check : σ → α → Bool} (hcheck : ∀ s a, check s a = true → ok s a) :
    ∀ (as : List α) {s s' : σ}, M.runVia check s as = some s' → M.RunFrom ok s s'
  | [], s, s', h => by
    obtain rfl := Option.some.inj h
    exact .refl
  | a :: as, s, s', h => by
    rw [runVia] at h
    split at h
    · rename_i hc
      obtain ⟨s₁, hs₁, hrest⟩ := Option.bind_eq_some_iff.mp h
      exact (RunFrom.step a .refl (hcheck s a hc) hs₁).trans
        (runFrom_of_runVia hcheck as hrest)
    · exact absurd h (by simp)

/-- The end of a list of actions played from `s`, or `s` if the list does not
play. -/
def playFrom (M : StepSystem σ α) (check : σ → α → Bool) (s : σ) (as : List α) : σ :=
  (M.runVia check s as).getD s

/-- The end of a list of actions played from the initial state. -/
def play (M : StepSystem σ α) (check : σ → α → Bool) (as : List α) : σ :=
  M.playFrom check M.init as

/-- Whatever is played is a run that meets `ok`. -/
theorem runFrom_playFrom {check : σ → α → Bool} (hcheck : ∀ s a, check s a = true → ok s a)
    (s : σ) (as : List α) : M.RunFrom ok s (M.playFrom check s as) := by
  unfold playFrom
  cases hrun : M.runVia check s as with
  | none => exact .refl
  | some s' => exact runFrom_of_runVia hcheck as hrun

/-- Whatever is played ends in a state of a run that meets `ok`. -/
theorem reachable_play {check : σ → α → Bool} (hcheck : ∀ s a, check s a = true → ok s a)
    (as : List α) : M.ReachableVia ok (M.play check as) :=
  runFrom_playFrom hcheck M.init as

/-! ## The invariant rules -/

/-- What every step of a run keeps, the run keeps. -/
theorem RunFrom.invariant {I : σ → Prop} {s₀ s : σ} (h : M.RunFrom ok s₀ s) (h0 : I s₀)
    (hstep : ∀ s a s', M.RunFrom ok s₀ s → I s → ok s a → M.step s a = some s' → I s') :
    I s := by
  induction h with
  | refl => exact h0
  | step a hr hok hs ih => exact hstep _ a _ hr ih hok hs

/-- A property of the initial state that every step keeps holds in every
reachable state.  The step lemma may use that the state before it is
reachable, so one invariant can lean on another. -/
theorem ReachableVia.invariant {I : σ → Prop} {s : σ} (h : M.ReachableVia ok s)
    (h0 : I M.init)
    (hstep : ∀ s a s', M.ReachableVia ok s → I s → ok s a → M.step s a = some s' → I s') :
    I s :=
  RunFrom.invariant h h0 hstep

/-! ## Observers -/

/-- The system with a passive observer beside it.  `obs` sees each step and
updates the observer state; it can neither block nor change a step. -/
def observe (M : StepSystem σ α) (g₀ : γ) (obs : γ → σ → α → σ → γ) :
    StepSystem (σ × γ) α where
  init := (M.init, g₀)
  step := fun p a => (M.step p.1 a).map fun s' => (s', obs p.2 p.1 a s')

theorem observe_step {g₀ : γ} {obs : γ → σ → α → σ → γ} {p p' : σ × γ} {a : α} :
    (M.observe g₀ obs).step p a = some p' ↔
      M.step p.1 a = some p'.1 ∧ p'.2 = obs p.2 p.1 a p'.1 := by
  simp only [observe, Option.map_eq_some_iff]
  constructor
  · rintro ⟨s', hs, rfl⟩
    exact ⟨hs, rfl⟩
  · rintro ⟨hs, hg⟩
    exact ⟨p'.1, hs, by rw [← hg]⟩

/-- Forgetting the observer gives a run of the system itself. -/
theorem ReachableVia.of_observe (ok : σ → α → Prop) {g₀ : γ} {obs : γ → σ → α → σ → γ}
    {p : σ × γ} (h : (M.observe g₀ obs).ReachableVia (fun q a => ok q.1 a) p) :
    M.ReachableVia ok p.1 := by
  induction h with
  | refl => exact .refl
  | step a _ hok hs ih => exact ih.step hok (observe_step.mp hs).1

/-- The observer restricts no run: every run of the system is the run of the
observed system with some observation. -/
theorem ReachableVia.observed {g₀ : γ} {obs : γ → σ → α → σ → γ} {s : σ}
    (h : M.ReachableVia ok s) :
    ∃ g, (M.observe g₀ obs).ReachableVia (fun q a => ok q.1 a) (s, g) := by
  induction h with
  | refl => exact ⟨g₀, .refl⟩
  | @step s s' a _ hok hs ih =>
    obtain ⟨g, hg⟩ := ih
    exact ⟨obs g s a s', hg.step hok (observe_step.mpr ⟨hs, rfl⟩)⟩

end StepSystem
