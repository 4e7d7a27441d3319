import Mathlib.Init
import Mathlib.Tactic.TypeStar

/-! Machines that take one action at a time, and what holds along their runs. -/

namespace Holt.Lib

variable {σ α : Type*} {step : σ → α → Option σ} {allowed : σ → α → Prop} {s t : σ}

/-- The states a machine reaches by actions that are all allowed where they are taken. -/
inductive Run (step : σ → α → Option σ) (allowed : σ → α → Prop) (s : σ) : σ → Prop
  | start : Run step allowed s s
  | next {t u : σ} {a : α} (before : Run step allowed s t) (may : allowed t a)
      (took : step t a = some u) : Run step allowed s u

theorem Run.invariant {I : σ → Prop} (h : Run step allowed s t) (hs : I s)
    (hstep : ∀ {t u a}, I t → allowed t a → step t a = some u → I u) : I t := by
  induction h with
  | start => exact hs
  | next before may took ih => exact hstep ih may took

theorem Run.mono {allowed' : σ → α → Prop} (h : Run step allowed s t)
    (hallowed : ∀ s a, allowed s a → allowed' s a) : Run step allowed' s t := by
  induction h with
  | start => exact .start
  | next _ may took ih => exact ih.next (hallowed _ _ may) took

/-- Take the actions one after the other, as long as each is allowed. -/
def play (step : σ → α → Option σ) (allowed : σ → α → Prop) [∀ s a, Decidable (allowed s a)] :
    List α → σ → Option σ
  | [], s => some s
  | a :: as, s => if allowed s a then (step s a).bind (play step allowed as) else none

theorem Run.play [∀ s a, Decidable (allowed s a)] {s₀ : σ} (h₀ : Run step allowed s₀ s)
    {as : List α} (h : play step allowed as s = some t) : Run step allowed s₀ t := by
  induction as generalizing s with
  | nil =>
    cases h
    exact h₀
  | cons a as ih =>
    rw [Lib.play] at h
    split at h
    · rename_i may
      obtain ⟨u, took, hrest⟩ := Option.bind_eq_some_iff.mp h
      exact ih (h₀.next may took) hrest
    · cases h

theorem run_of_play [∀ s a, Decidable (allowed s a)] {as : List α}
    (h : play step allowed as s = some t) : Run step allowed s t :=
  Run.start.play h

/-- A run that is evaluated. -/
theorem exists_run_of_play [∀ s a, Decidable (allowed s a)] {as : List α} {p : σ → Prop}
    [DecidablePred p] (h : (play step allowed as s).any fun t => p t) :
    ∃ t, Run step allowed s t ∧ p t := by
  obtain ⟨t, ht, hp⟩ := (Option.any_eq_true _ _).mp h
  exact ⟨t, run_of_play ht, of_decide_eq_true hp⟩

end Holt.Lib
