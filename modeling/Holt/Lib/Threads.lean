import Holt.Lib.Machine
import Mathlib.Algebra.GroupWithZero.Nat
import Mathlib.Logic.Function.Basic

/-! Threads that work on one shared state, one atomic step of one call at a time. -/

namespace Holt.Lib

variable {σ κ : Type*}

structure Threads (σ κ : Type*) where
  state : σ
  calls : Nat → κ

inductive Turn (κ : Type*)
  | call (t : Nat) (c : κ)
  /-- The next step of the thread's call; a weak exchange may fail without cause. -/
  | move (t : Nat) (spurious : Bool)

def Threads.set (w : Threads σ κ) (t : Nat) (s : σ) (c : κ) : Threads σ κ :=
  ⟨s, Function.update w.calls t c⟩

/-- A thread that is idle begins a call; `move` says what the next step of a call does to the state
and where it leaves the call. -/
def Threads.step (idle : κ → Bool) (move : σ → Nat → Bool → κ → Option (σ × κ))
    (w : Threads σ κ) : Turn κ → Option (Threads σ κ)
  | .call t c => if idle (w.calls t) then some (w.set t w.state c) else none
  | .move t spurious => (move w.state t spurious (w.calls t)).map fun (s, c) => w.set t s c

/-- Something holds of the state, and of each call with it. -/
structure Threads.Inv (I : σ → Prop) (C : σ → Nat → κ → Prop) (w : Threads σ κ) : Prop where
  state : I w.state
  calls : ∀ t, C w.state t (w.calls t)

variable {I : σ → Prop} {C : σ → Nat → κ → Prop} {w w₀ w' : Threads σ κ} {t : Nat} {s : σ} {c : κ}
  {idle : κ → Bool} {move : σ → Nat → Bool → κ → Option (σ × κ)}

theorem Threads.Inv.set (h : w.Inv I C) (hs : I s) (hc : C s t c)
    (hothers : ∀ u, u ≠ t → ∀ c, C w.state u c → C s u c) : (w.set t s c).Inv I C :=
  ⟨hs, (Function.forall_update_iff _ fun u c => C s u c).mpr
    ⟨hc, fun u hu => hothers u hu _ (h.calls u)⟩⟩

/-- A turn is the beginning of a call or one step of it. -/
theorem Threads.step_cases {a : Turn κ} {P : Threads σ κ → Prop}
    (hs : w.step idle move a = some w')
    (hcall : ∀ t c, a = .call t c → idle (w.calls t) → P (w.set t w.state c))
    (hmove : ∀ t spurious s c, a = .move t spurious →
      move w.state t spurious (w.calls t) = some (s, c) → P (w.set t s c)) : P w' := by
  cases a with
  | call t c =>
    simp only [Threads.step] at hs
    split at hs <;> cases hs
    exact hcall t c rfl ‹_›
  | move t spurious =>
    obtain ⟨⟨s, c⟩, hm, rfl⟩ := Option.map_eq_some_iff.mp hs
    exact hmove t spurious s c rfl hm

end Holt.Lib
