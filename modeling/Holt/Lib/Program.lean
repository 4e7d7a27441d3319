import Mathlib.Algebra.GroupWithZero.Nat
import Mathlib.Tactic.TypeStar

/-! Programs that change a state and may fail. A failed program keeps the
state it had reached, so a specification says what holds after a failure too. -/

namespace Holt.Lib

universe u

variable {ε σ α β : Type u}

/-- Running `x` from `s` either returns with `ok` or fails with `err`; both see the state
that was left behind. -/
@[irreducible]
def Sat (x : EStateM ε σ α) (s : σ) (ok : α → σ → Prop) (err : ε → σ → Prop) : Prop :=
  match x s with
  | .ok a s' => ok a s'
  | .error e s' => err e s'

theorem Sat.mono {x : EStateM ε σ α} {s : σ} {ok ok' : α → σ → Prop} {err err' : ε → σ → Prop}
    (h : Sat x s ok err) (hok : ∀ a s', ok a s' → ok' a s')
    (herr : ∀ e s', err e s' → err' e s') : Sat x s ok' err' := by
  unfold Sat at h ⊢
  split
  · rename_i hx
    rw [hx] at h
    exact hok _ _ h
  · rename_i hx
    rw [hx] at h
    exact herr _ _ h

@[simp]
theorem sat_pure (a : α) (s : σ) (ok : α → σ → Prop) (err : ε → σ → Prop) :
    Sat (pure a) s ok err ↔ ok a s := by
  unfold Sat
  rfl

@[simp]
theorem sat_throw (e : ε) (s : σ) (ok : α → σ → Prop) (err : ε → σ → Prop) :
    Sat (throw e) s ok err ↔ err e s := by
  unfold Sat
  rfl

@[simp]
theorem sat_get (s : σ) (ok : σ → σ → Prop) (err : ε → σ → Prop) :
    Sat (get : EStateM ε σ σ) s ok err ↔ ok s s := by
  unfold Sat
  rfl

@[simp]
theorem sat_set (s s' : σ) (ok : PUnit → σ → Prop) (err : ε → σ → Prop) :
    Sat (set s' : EStateM ε σ PUnit) s ok err ↔ ok ⟨⟩ s' := by
  unfold Sat
  rfl

@[simp]
theorem sat_modify (f : σ → σ) (s : σ) (ok : PUnit → σ → Prop) (err : ε → σ → Prop) :
    Sat (modify f : EStateM ε σ PUnit) s ok err ↔ ok ⟨⟩ (f s) := by
  unfold Sat
  rfl

@[simp]
theorem sat_bind (x : EStateM ε σ α) (f : α → EStateM ε σ β) (s : σ) (ok : β → σ → Prop)
    (err : ε → σ → Prop) :
    Sat (x >>= f) s ok err ↔ Sat x s (fun a s' => Sat (f a) s' ok err) err := by
  unfold Sat
  change (match EStateM.bind x f s with | .ok a s' => ok a s' | .error e s' => err e s') ↔ _
  unfold EStateM.bind
  cases x s <;> rfl

@[simp]
theorem sat_map (f : α → β) (x : EStateM ε σ α) (s : σ) (ok : β → σ → Prop)
    (err : ε → σ → Prop) : Sat (f <$> x) s ok err ↔ Sat x s (fun a s' => ok (f a) s') err := by
  rw [map_eq_pure_bind, sat_bind]
  simp only [sat_pure]

@[simp]
theorem sat_tryCatch (x : EStateM ε σ α) (handle : ε → EStateM ε σ α) (s : σ)
    (ok : α → σ → Prop) (err : ε → σ → Prop) :
    Sat (tryCatch x handle) s ok err ↔ Sat x s ok (fun e s' => Sat (handle e) s' ok err) := by
  unfold Sat
  change (match EStateM.tryCatch x handle s with
    | .ok a s' => ok a s' | .error e s' => err e s') ↔ _
  unfold EStateM.tryCatch
  cases x s <;> rfl

theorem sat_true (x : EStateM ε σ α) (s : σ) : Sat x s (fun _ _ => True) (fun _ _ => True) := by
  unfold Sat
  cases x s <;> trivial

/-- What a program does, said by the program itself. -/
theorem sat_self (x : EStateM ε σ α) (s : σ) :
    Sat x s (fun a s' => x s = .ok a s') (fun e s' => x s = .error e s') := by
  unfold Sat
  cases x s <;> rfl

theorem Sat.of_ok {x : EStateM ε σ α} {s s' : σ} {a : α} {ok : α → σ → Prop}
    {err : ε → σ → Prop} (h : Sat x s ok err) (hx : x s = .ok a s') : ok a s' := by
  unfold Sat at h
  rwa [hx] at h

theorem Sat.of_error {x : EStateM ε σ α} {s s' : σ} {e : ε} {ok : α → σ → Prop}
    {err : ε → σ → Prop} (h : Sat x s ok err) (hx : x s = .error e s') : err e s' := by
  unfold Sat at h
  rwa [hx] at h

theorem bind_of_ok {x : EStateM ε σ α} {s s' : σ} {a : α} (h : x s = .ok a s')
    (f : α → EStateM ε σ β) : (x >>= f) s = f a s' := by
  change EStateM.bind x f s = _
  rw [EStateM.bind, h]

theorem bind_of_error {x : EStateM ε σ α} {s s' : σ} {e : ε} (h : x s = .error e s')
    (f : α → EStateM ε σ β) : (x >>= f) s = .error e s' := by
  change EStateM.bind x f s = _
  rw [EStateM.bind, h]

theorem bind_ok_iff {x : EStateM ε σ α} {f : α → EStateM ε σ β} {s s' : σ} {b : β} :
    (x >>= f) s = .ok b s' ↔ ∃ a s₁, x s = .ok a s₁ ∧ f a s₁ = .ok b s' := by
  change EStateM.bind x f s = _ ↔ _
  unfold EStateM.bind
  cases x s with
  | ok a s₁ =>
    constructor
    · exact fun h => ⟨a, s₁, rfl, h⟩
    · rintro ⟨_, _, ⟨rfl, rfl⟩, h⟩
      exact h
  | error e s₁ => simp

theorem bind_error_iff {x : EStateM ε σ α} {f : α → EStateM ε σ β} {s s' : σ} {e : ε} :
    (x >>= f) s = .error e s' ↔
      x s = .error e s' ∨ ∃ a s₁, x s = .ok a s₁ ∧ f a s₁ = .error e s' := by
  change EStateM.bind x f s = _ ↔ _
  unfold EStateM.bind
  cases x s with
  | ok a s₁ =>
    constructor
    · exact fun h => .inr ⟨a, s₁, rfl, h⟩
    · rintro (h | ⟨_, _, ⟨rfl, rfl⟩, h⟩)
      · cases h
      · exact h
  | error e s₁ => simp

/-- The state that `x` leaves behind, whether it returns or fails. -/
def leaves (x : EStateM ε σ α) (s : σ) : σ :=
  match x s with
  | .ok _ s' => s'
  | .error _ s' => s'

theorem leaves_of_ok {x : EStateM ε σ α} {s s' : σ} {a : α} (h : x s = .ok a s') :
    leaves x s = s' := by
  rw [leaves, h]

theorem leaves_of_error {x : EStateM ε σ α} {s s' : σ} {e : ε} (h : x s = .error e s') :
    leaves x s = s' := by
  rw [leaves, h]

theorem leaves_bind_of_ok {x : EStateM ε σ α} {s s' : σ} {a : α} (h : x s = .ok a s')
    (f : α → EStateM ε σ β) : leaves (x >>= f) s = leaves (f a) s' := by
  rw [leaves, leaves, bind_of_ok h]

theorem Sat.leaves {x : EStateM ε σ α} {s : σ} {ok : α → σ → Prop} {err : ε → σ → Prop}
    {p : σ → Prop} (h : Sat x s ok err) (hok : ∀ a s', ok a s' → p s')
    (herr : ∀ e s', err e s' → p s') : p (leaves x s) := by
  unfold Sat at h
  unfold Lib.leaves
  split at h
  · exact hok _ _ h
  · exact herr _ _ h

theorem Sat.returns {x : EStateM ε σ α} {s : σ} {ok : α → σ → Prop}
    (h : Sat x s ok fun _ _ => False) : ∃ a s', x s = .ok a s' ∧ ok a s' := by
  unfold Sat at h
  split at h
  · exact ⟨_, _, by assumption, h⟩
  · exact h.elim

/-- Running `x` from `s` returns, and `p` holds then: for programs that are to be evaluated. -/
def returns (x : EStateM ε σ α) (s : σ) (p : α → σ → Bool) : Bool :=
  match x s with
  | .ok a s' => p a s'
  | .error .. => false

theorem returns_iff {x : EStateM ε σ α} {s : σ} {p : α → σ → Bool} :
    returns x s p = true ↔ ∃ a s', x s = .ok a s' ∧ p a s' = true := by
  unfold returns
  cases x s with
  | ok a s' =>
    constructor
    · exact fun h => ⟨a, s', rfl, h⟩
    · rintro ⟨_, _, ⟨rfl, rfl⟩, h⟩
      exact h
  | error e s' => simp

/-- Running `x` from `s` fails, and `p` holds then. -/
def fails (x : EStateM ε σ α) (s : σ) (p : ε → σ → Bool) : Bool :=
  match x s with
  | .ok .. => false
  | .error e s' => p e s'

theorem fails_iff {x : EStateM ε σ α} {s : σ} {p : ε → σ → Bool} :
    fails x s p = true ↔ ∃ e s', x s = .error e s' ∧ p e s' = true := by
  unfold fails
  cases x s with
  | ok a s' => simp
  | error e s' =>
    constructor
    · exact fun h => ⟨e, s', rfl, h⟩
    · rintro ⟨_, _, ⟨rfl, rfl⟩, h⟩
      exact h

/-- One step of a program: what the first part guarantees is what the rest may assume. -/
theorem Sat.bind {x : EStateM ε σ α} {f : α → EStateM ε σ β} {s : σ} {mid : α → σ → Prop}
    {ok : β → σ → Prop} {err err' : ε → σ → Prop} (h : Sat x s mid err')
    (hf : ∀ a s', mid a s' → Sat (f a) s' ok err) (he : ∀ e s', err' e s' → err e s') :
    Sat (x >>= f) s ok err :=
  (sat_bind x f s ok err).mpr (h.mono hf he)

/-- A step of a program after whose failure nothing else is to be shown. -/
theorem Sat.andThen {x : EStateM ε σ α} {f : α → EStateM ε σ β} {s : σ} {mid : α → σ → Prop}
    {ok : β → σ → Prop} {err : ε → σ → Prop} (h : Sat x s mid err)
    (hf : ∀ a s', mid a s' → Sat (f a) s' ok err) : Sat (x >>= f) s ok err :=
  h.bind hf fun _ _ he => he

theorem Sat.imp {x : EStateM ε σ α} {s : σ} {ok ok' : α → σ → Prop} {err : ε → σ → Prop}
    (h : Sat x s ok err) (hok : ∀ a s', ok a s' → ok' a s') : Sat x s ok' err :=
  h.mono hok fun _ _ he => he

theorem Sat.pure {a : α} {s : σ} {ok : α → σ → Prop} {err : ε → σ → Prop} (h : ok a s) :
    Sat (Pure.pure a) s ok err :=
  (sat_pure ..).mpr h

theorem Sat.throw {e : ε} {s : σ} {ok : α → σ → Prop} {err : ε → σ → Prop} (h : err e s) :
    Sat (MonadExcept.throw e) s ok err :=
  (sat_throw ..).mpr h

/-- What comes after `x` does not depend on what `x` does. -/
theorem Sat.after {x : EStateM ε σ α} {f : α → EStateM ε σ β} {s : σ} {ok : β → σ → Prop}
    (hf : ∀ a s', Sat (f a) s' ok (fun _ _ => True)) : Sat (x >>= f) s ok (fun _ _ => True) :=
  (sat_true x s).bind (fun a s' _ => hf a s') fun _ _ h => h

/-- A computation that only reads, run inside a program that also writes. -/
def lift (x : Except ε α) : EStateM ε σ α :=
  match x with
  | .ok a => pure a
  | .error e => throw e

@[simp]
theorem lift_ok (a : α) : (lift (.ok a) : EStateM ε σ α) = pure a := rfl

@[simp]
theorem lift_error (e : ε) : (lift (.error e) : EStateM ε σ α) = throw e := rfl

theorem Sat.and {x : EStateM ε σ α} {s : σ} {ok ok' : α → σ → Prop} {err err' : ε → σ → Prop}
    (h : Sat x s ok err) (h' : Sat x s ok' err') :
    Sat x s (fun a s' => ok a s' ∧ ok' a s') (fun e s' => err e s' ∧ err' e s') := by
  unfold Sat at h h' ⊢
  split
  · rename_i hx
    rw [hx] at h h'
    exact ⟨h, h'⟩
  · rename_i hx
    rw [hx] at h h'
    exact ⟨h, h'⟩

/-! ## What a program does to the state, whether it fails or not -/

def Moves (r : σ → σ → Prop) (x : EStateM ε σ α) : Prop :=
  ∀ s, Sat x s (fun _ s' => r s s') (fun _ s' => r s s')

section Moves

variable {r : σ → σ → Prop}

theorem Moves.pure (hr : ∀ s, r s s) (a : α) : Moves r (Pure.pure a : EStateM ε σ α) := by
  intro s
  exact (sat_pure ..).mpr (hr s)

theorem Moves.throw (hr : ∀ s, r s s) (e : ε) :
    Moves r (MonadExcept.throw e : EStateM ε σ α) := by
  intro s
  exact (sat_throw ..).mpr (hr s)

theorem Moves.lift (hr : ∀ s, r s s) (x : Except ε α) : Moves r (Lib.lift x : EStateM ε σ α) := by
  cases x with
  | ok a => exact Moves.pure hr a
  | error e => exact Moves.throw hr e

theorem Moves.get (hr : ∀ s, r s s) : Moves r (MonadState.get : EStateM ε σ σ) := by
  intro s
  exact (sat_get ..).mpr (hr s)

theorem Moves.update {f : σ → σ} (h : ∀ s, r s (f s)) :
    Moves r (modify f : EStateM ε σ PUnit) := by
  intro s
  exact (sat_modify ..).mpr (h s)

theorem Moves.bind (ht : ∀ {a b c}, r a b → r b c → r a c) {x : EStateM ε σ α}
    {f : α → EStateM ε σ β} (hx : Moves r x) (hf : ∀ a, Moves r (f a)) : Moves r (x >>= f) := by
  intro s
  apply (hx s).bind
  · intro a s' h
    exact (hf a s').mono (fun _ _ h' => ht h h') (fun _ _ h' => ht h h')
  · intro e s' h
    exact h

end Moves

/-- Fuel that is not used up. -/
theorem succ_of_lt {a n : Nat} (h : a < n) : ∃ m, n = m + 1 :=
  Nat.exists_eq_succ_of_ne_zero (Nat.ne_zero_of_lt h)

end Holt.Lib
