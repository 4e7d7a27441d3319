import Mathlib.Data.List.Basic
import Mathlib.Logic.Function.Basic

/-! Writes to a map, one after the other: the last write to a key counts. Making writes again
that were made before therefore changes nothing. -/

namespace Holt.Lib

variable {K V : Type*} [DecidableEq K]

/-- A write sets its key, or deletes it. -/
def overwrite (ws : List (K × Option V)) (m : K → Option V) : K → Option V :=
  ws.foldl (fun m w => Function.update m w.1 w.2) m

@[simp]
theorem overwrite_nil (m : K → Option V) : overwrite [] m = m := rfl

@[simp]
theorem overwrite_cons (w : K × Option V) (ws : List (K × Option V)) (m : K → Option V) :
    overwrite (w :: ws) m = overwrite ws (Function.update m w.1 w.2) := rfl

theorem overwrite_append (ws vs : List (K × Option V)) (m : K → Option V) :
    overwrite (ws ++ vs) m = overwrite vs (overwrite ws m) :=
  List.foldl_append

variable {k : K} {ws : List (K × Option V)}

theorem overwrite_untouched (h : k ∉ ws.map Prod.fst) (m : K → Option V) :
    overwrite ws m k = m k := by
  induction ws generalizing m with
  | nil => rfl
  | cons w ws ih =>
    rw [List.map_cons] at h
    rw [overwrite_cons, ih (List.not_mem_of_not_mem_cons h),
      Function.update_of_ne (List.ne_of_not_mem_cons h)]

/-- What a key holds in the end depends on what it held before only where nothing is written. -/
theorem overwrite_congr {m m' : K → Option V} (h : k ∉ ws.map Prod.fst → m k = m' k) :
    overwrite ws m k = overwrite ws m' k := by
  induction ws generalizing m m' with
  | nil => exact h List.not_mem_nil
  | cons w ws ih =>
    rw [overwrite_cons, overwrite_cons]
    apply ih
    intro hws
    by_cases hk : k = w.1
    · rw [hk, Function.update_self, Function.update_self]
    · rw [Function.update_of_ne hk, Function.update_of_ne hk]
      exact h (List.not_mem_cons_of_ne_of_not_mem hk hws)

/-- What a key holds in the end was there before or was written. -/
theorem overwrite_some {m : K → Option V} {v : V} (h : overwrite ws m k = some v) :
    m k = some v ∨ (k, some v) ∈ ws := by
  induction ws generalizing m with
  | nil => exact .inl h
  | cons w ws ih =>
    rw [overwrite_cons] at h
    rcases ih h with hm | hm
    · by_cases hk : k = w.1
      · subst hk
        rw [Function.update_self] at hm
        exact .inr (hm ▸ List.mem_cons_self)
      · rw [Function.update_of_ne hk] at hm
        exact .inl hm
    · exact .inr (List.mem_cons_of_mem w hm)

/-- A key that is written holds one of the values written to it. -/
theorem overwrite_mem (h : k ∈ ws.map Prod.fst) (m : K → Option V) :
    (k, overwrite ws m k) ∈ ws := by
  induction ws generalizing m with
  | nil => cases h
  | cons w ws ih =>
    by_cases hk : k ∈ ws.map Prod.fst
    · exact List.mem_cons_of_mem w (ih hk _)
    · have hw : k = w.1 := (List.mem_cons.mp h).resolve_right hk
      rw [overwrite_cons, overwrite_untouched hk, hw, Function.update_self]
      exact List.mem_cons_self

/-- Writes to keys that are all written again leave no trace. -/
theorem overwrite_covered {vs : List (K × Option V)}
    (h : ∀ k ∈ ws.map Prod.fst, k ∈ vs.map Prod.fst) (m : K → Option V) :
    overwrite vs (overwrite ws m) = overwrite vs m := by
  funext k
  apply overwrite_congr
  intro hk
  exact overwrite_untouched (fun hws => hk (h k hws)) m

/-- Writes made a second time change nothing. -/
theorem overwrite_again (ws : List (K × Option V)) (m : K → Option V) :
    overwrite ws (overwrite ws m) = overwrite ws m :=
  overwrite_covered (fun _ h => h) m

end Holt.Lib
