import Mathlib.Data.List.Basic
import Mathlib.Data.List.Infix

/-! The longest common prefix of two lists. -/

namespace Holt.Lib

variable {α : Type*} [DecidableEq α]

def longestCommonPrefix : List α → List α → Nat
  | a :: as, b :: bs => if a = b then longestCommonPrefix as bs + 1 else 0
  | _, _ => 0

@[simp]
theorem longestCommonPrefix_nil (bs : List α) : longestCommonPrefix [] bs = 0 := by
  simp [longestCommonPrefix]

@[simp]
theorem longestCommonPrefix_nil_right (as : List α) : longestCommonPrefix as [] = 0 := by
  cases as <;> simp [longestCommonPrefix]

theorem longestCommonPrefix_le_left (as bs : List α) : longestCommonPrefix as bs ≤ as.length := by
  induction as generalizing bs with
  | nil => simp
  | cons a as ih =>
    cases bs with
    | nil => simp
    | cons b bs =>
      simp only [longestCommonPrefix]
      split
      · simpa using ih bs
      · exact Nat.zero_le _

theorem longestCommonPrefix_comm (as bs : List α) :
    longestCommonPrefix as bs = longestCommonPrefix bs as := by
  induction as generalizing bs with
  | nil => simp
  | cons a as ih =>
    cases bs with
    | nil => simp
    | cons b bs => simp only [longestCommonPrefix, ih bs, eq_comm]

theorem longestCommonPrefix_le_right (as bs : List α) : longestCommonPrefix as bs ≤ bs.length :=
  longestCommonPrefix_comm as bs ▸ longestCommonPrefix_le_left bs as

theorem take_longestCommonPrefix (as bs : List α) :
    as.take (longestCommonPrefix as bs) = bs.take (longestCommonPrefix as bs) := by
  induction as generalizing bs with
  | nil => simp
  | cons a as ih =>
    cases bs with
    | nil => simp
    | cons b bs =>
      simp only [longestCommonPrefix]
      split
      · rename_i h
        simp [h, ih bs]
      · simp

theorem longestCommonPrefix_eq_left {as bs : List α} :
    longestCommonPrefix as bs = as.length ↔ as <+: bs := by
  constructor
  · intro h
    rw [List.prefix_iff_eq_take, ← h, ← take_longestCommonPrefix, h, List.take_length]
  · rintro ⟨rest, rfl⟩
    induction as with
    | nil => simp
    | cons a as ih => simpa [longestCommonPrefix] using ih

theorem longestCommonPrefix_eq_right {as bs : List α} :
    longestCommonPrefix as bs = bs.length ↔ bs <+: as := by
  rw [longestCommonPrefix_comm, longestCommonPrefix_eq_left]

/-- Where both lists go on, they differ. -/
theorem getElem_longestCommonPrefix_ne {as bs : List α}
    (ha : longestCommonPrefix as bs < as.length) (hb : longestCommonPrefix as bs < bs.length) :
    as[longestCommonPrefix as bs] ≠ bs[longestCommonPrefix as bs] := by
  induction as generalizing bs with
  | nil => simp at ha
  | cons a as ih =>
    cases bs with
    | nil => simp at hb
    | cons b bs =>
      by_cases h : a = b
      · have he : longestCommonPrefix (a :: as) (b :: bs) = longestCommonPrefix as bs + 1 := by
          simp [longestCommonPrefix, h]
        simp only [he, List.length_cons, Nat.add_lt_add_iff_right, List.getElem_cons_succ]
          at ha hb ⊢
        exact ih ha hb
      · have he : longestCommonPrefix (a :: as) (b :: bs) = 0 := by
          simp [longestCommonPrefix, h]
        simpa [he] using h

theorem longestCommonPrefix_append {xs ys zs : List α}
    (h : longestCommonPrefix xs zs < xs.length ∨ longestCommonPrefix xs zs = zs.length) :
    longestCommonPrefix (xs ++ ys) zs = longestCommonPrefix xs zs := by
  induction xs generalizing zs with
  | nil =>
    simp only [longestCommonPrefix_nil, List.length_nil, Nat.lt_irrefl, false_or] at h
    simp [List.length_eq_zero_iff.mp h.symm]
  | cons x xs ih =>
    cases zs with
    | nil => simp
    | cons z zs =>
      simp only [List.cons_append, longestCommonPrefix]
      split
      · rename_i he
        simp only [longestCommonPrefix, he, if_true, List.length_cons,
          Nat.add_lt_add_iff_right, Nat.add_right_cancel_iff] at h
        rw [ih h]
      · rfl

theorem longestCommonPrefix_append_of_le {xs ys : List α} (zs : List α) (h : xs <+: zs) :
    longestCommonPrefix (xs ++ ys) zs =
      xs.length + longestCommonPrefix ys (zs.drop xs.length) := by
  obtain ⟨rest, rfl⟩ := h
  induction xs with
  | nil => simp
  | cons x xs ih =>
    simp only [List.cons_append, longestCommonPrefix, if_true, ih, List.length_cons,
      List.drop_succ_cons]
    omega

end Holt.Lib
