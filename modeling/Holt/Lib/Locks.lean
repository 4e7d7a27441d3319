import Mathlib.Data.Finset.Max
import Mathlib.Order.WithBot

/-! Locks taken in an order. A lock is asked for at one height and held at another: who holds one
keeps out those who ask no higher than that. If nobody asks below what they hold already, then no
set of parties waits for itself. -/

namespace Holt.Lib

variable {ι K R : Type*}

/-- Each of these parties waits for something that one of them keeps it from. -/
def Deadlock (clash : K → K → Prop) (held : ι → List K) (wants : ι → Option K) : Prop :=
  ∃ S : Finset ι, S.Nonempty ∧
    ∀ i ∈ S, ∃ k, wants i = some k ∧ ∃ j ∈ S, ∃ k' ∈ held j, clash k k'

theorem not_deadlock [LinearOrder R] {clash : K → K → Prop} {held : ι → List K}
    {wants : ι → Option K} {ask keep : K → R} (hclash : ∀ k k', clash k k' → ask k ≤ keep k')
    (hclimb : ∀ i k, wants i = some k → ∀ k' ∈ held i, keep k' < ask k) :
    ¬ Deadlock clash held wants := by
  rintro ⟨S, hne, hS⟩
  -- Look at one who asks for the highest.
  let height (i : ι) : WithBot R := (wants i).map ask
  obtain ⟨i, hi, hmax⟩ := S.exists_max_image height hne
  obtain ⟨k, hk, j, hj, k', hheld, hkk'⟩ := hS i hi
  obtain ⟨l, hl, -⟩ := hS j hj
  have hle : (ask l : WithBot R) ≤ ask k := by
    have hij := hmax j hj
    simp only [height, hk, hl] at hij
    exact hij
  exact (hclash k k' hkk').not_gt ((hclimb j l hl k' hheld).trans_le (WithBot.coe_le_coe.mp hle))

/-! ## Programs that take and release locks -/

inductive LockAct (K : Type*)
  | acquire (k : K)
  | release (k : K)
  deriving DecidableEq

/-- What a party holds, and what is left of its program. -/
structure Party (K : Type*) where
  held : List K
  todo : List (LockAct K)
  deriving DecidableEq

def Party.wants (p : Party K) : Option K :=
  match p.todo with
  | .acquire k :: _ => some k
  | _ => none

/-- The next act, which waits as long as the lock is not free. -/
def Party.act [DecidableEq K] (p : Party K) (free : K → Bool) : Option (Party K) :=
  match p.todo with
  | [] => none
  | .acquire k :: todo => if free k then some ⟨k :: p.held, todo⟩ else none
  | .release k :: todo => some ⟨p.held.erase k, todo⟩

/-- Take the lock and give it back. -/
def touch (k : K) : List (LockAct K) := [.acquire k, .release k]

section Climbs

variable [DecidableEq K] [LT R] {ask keep : K → R} {held : List K}

/-- Nothing is asked for below what is held by then, and nothing is held in the end. -/
def Climbs (ask keep : K → R) : List K → List (LockAct K) → Prop
  | held, [] => held = []
  | held, .acquire k :: todo =>
    (∀ k' ∈ held, keep k' < ask k) ∧ Climbs ask keep (k :: held) todo
  | held, .release k :: todo => Climbs ask keep (held.erase k) todo

theorem climbs_touches {ks : List K} {todo : List (LockAct K)}
    (hks : ∀ k ∈ ks, ∀ k' ∈ held, keep k' < ask k) (h : Climbs ask keep held todo) :
    Climbs ask keep held (ks.flatMap touch ++ todo) := by
  induction ks with
  | nil => exact h
  | cons k ks ih =>
    refine ⟨hks k List.mem_cons_self, ?_⟩
    change Climbs ask keep ((k :: held).erase k) _
    rw [List.erase_cons_head]
    exact ih fun k' hk' => hks k' (List.mem_cons_of_mem _ hk')

/-- Take a lock, others one at a time while it is held, and give it back. -/
def episode (e : K × List K) : List (LockAct K) :=
  .acquire e.1 :: (e.2.flatMap touch ++ [.release e.1])

theorem climbs_episodes {es : List (K × List K)}
    (h : ∀ e ∈ es, ∀ k ∈ e.2, keep e.1 < ask k) : Climbs ask keep [] (es.flatMap episode) := by
  induction es with
  | nil => rfl
  | cons e es ih =>
    refine ⟨nofun, ?_⟩
    change Climbs ask keep [e.1] (e.2.flatMap touch ++ [.release e.1] ++ es.flatMap episode)
    rw [List.append_assoc]
    apply climbs_touches
    · intro k hk k' hk'
      rw [List.mem_singleton.mp hk']
      exact h e List.mem_cons_self k hk
    · change Climbs ask keep ([e.1].erase e.1) _
      rw [List.erase_cons_head]
      exact ih fun e' he' => h e' (List.mem_cons_of_mem _ he')

/-- Take a lock, act while it is held, and give it back. -/
def under (k : K) (acts : List (LockAct K)) : List (LockAct K) :=
  .acquire k :: (acts ++ [.release k])

/-- While only such locks are held, the acts climb, and leave held what was. -/
def Above (ask keep : K → R) (P : K → Prop) (acts : List (LockAct K)) : Prop :=
  ∀ held todo, (∀ k ∈ held, P k) → Climbs ask keep held todo → Climbs ask keep held (acts ++ todo)

section Above

variable {P Q : K → Prop} {acts acts' : List (LockAct K)} {k : K}

theorem above_nil : Above ask keep P [] := fun _ _ _ h => h

theorem Above.append (h : Above ask keep P acts) (h' : Above ask keep P acts') :
    Above ask keep P (acts ++ acts') := by
  intro held todo hheld hclimbs
  rw [List.append_assoc]
  exact h held _ hheld (h' held todo hheld hclimbs)

theorem above_flatten {scripts : List (List (LockAct K))}
    (h : ∀ acts ∈ scripts, Above ask keep P acts) : Above ask keep P scripts.flatten := by
  induction scripts with
  | nil => exact above_nil
  | cons acts scripts ih =>
    exact (h acts List.mem_cons_self).append (ih fun a ha => h a (List.mem_cons_of_mem _ ha))

theorem Above.under (hk : ∀ k', P k' → keep k' < ask k)
    (h : Above ask keep (fun k' => k' = k ∨ P k') acts) : Above ask keep P (under k acts) := by
  intro held todo hheld hclimbs
  refine ⟨fun k' hk' => hk k' (hheld k' hk'), ?_⟩
  change Climbs ask keep (k :: held) (acts ++ [.release k] ++ todo)
  rw [List.append_assoc]
  apply h
  · intro k' hk'
    exact (List.mem_cons.mp hk').imp_right (hheld k')
  · change Climbs ask keep ((k :: held).erase k) todo
    rwa [List.erase_cons_head]

theorem Above.mono (h : Above ask keep Q acts) (hPQ : ∀ k, P k → Q k) : Above ask keep P acts :=
  fun held todo hheld hclimbs => h held todo (fun k hk => hPQ k (hheld k hk)) hclimbs

theorem Above.climbs (h : Above ask keep P acts) : Climbs ask keep [] acts := by
  have hclimbs := h [] [] nofun rfl
  rwa [List.append_nil] at hclimbs

end Above

/-- Whoever gives up gives back what they hold. -/
theorem climbs_unwind (held : List K) : Climbs ask keep held (held.map .release) := by
  induction held with
  | nil => rfl
  | cons k held ih =>
    change Climbs ask keep ((k :: held).erase k) _
    rwa [List.erase_cons_head]

theorem Climbs.act {p p' : Party K} {free : K → Bool} (h : Climbs ask keep p.held p.todo)
    (hact : p.act free = some p') : Climbs ask keep p'.held p'.todo := by
  unfold Party.act at hact
  split at hact
  · cases hact
  · rename_i htodo
    rw [htodo] at h
    split at hact
    · cases hact
      exact h.2
    · cases hact
  · rename_i htodo
    rw [htodo] at h
    cases hact
    exact h

theorem Climbs.wants {p : Party K} {k : K} (h : Climbs ask keep p.held p.todo)
    (hk : p.wants = some k) : ∀ k' ∈ p.held, keep k' < ask k := by
  unfold Party.wants at hk
  split at hk
  · rename_i htodo
    rw [htodo] at h
    cases hk
    exact h.1
  · cases hk

end Climbs

end Holt.Lib
