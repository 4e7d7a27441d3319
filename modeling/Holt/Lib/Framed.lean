import Mathlib.Init
import Mathlib.Tactic.TypeStar

/-! Logs of framed records: a reader takes one record off the front of the bytes, stops where the
end of the bytes cuts a record off, and fails on anything else. What is read back from a log that
lost its end is what was appended to it, up to the first record that is not whole. -/

namespace Holt.Lib

variable {ε α σ : Type*}

/-- `encode` and `read` fit together on the records that are `good`. -/
structure Framed (good : α → Prop) (encode : α → List UInt8)
    (read : List UInt8 → Except ε (Option (α × Nat))) : Prop where
  pos : ∀ a, 0 < (encode a).length
  whole : ∀ {a}, good a → ∀ rest, read (encode a ++ rest) = .ok (some (a, (encode a).length))
  torn : ∀ {a}, good a → ∀ {n}, n < (encode a).length → read ((encode a).take n) = .ok none

/-- Apply one record after the other; `valid` counts the bytes of those applied. No record is
empty, so there are no more rounds than bytes. -/
def replay (read : List UInt8 → Except ε (Option (α × Nat))) (apply : σ → α → σ) :
    Nat → List UInt8 → σ → Nat → Except ε (σ × Nat)
  | 0, _, s, valid => .ok (s, valid)
  | rounds + 1, bytes, s, valid =>
    if bytes.isEmpty then .ok (s, valid)
    else
      match read bytes with
      | .error e => .error e
      | .ok none => .ok (s, valid)
      | .ok (some (a, len)) => replay read apply rounds (bytes.drop len) (apply s a) (valid + len)

/-- The records that are whole within the first `n` bytes. -/
def wholeWithin (encode : α → List UInt8) : List α → Nat → List α
  | [], _ => []
  | a :: as, n =>
    if (encode a).length ≤ n then a :: wholeWithin encode as (n - (encode a).length) else []

variable {good : α → Prop} {encode : α → List UInt8}
  {read : List UInt8 → Except ε (Option (α × Nat))} {apply : σ → α → σ}

theorem replay_take (hf : Framed good encode read) {as : List α} (has : ∀ a ∈ as, good a) {n : Nat}
    {rounds : Nat} (hr : ((as.flatMap encode).take n).length < rounds) (s : σ) (valid : Nat) :
    replay read apply rounds ((as.flatMap encode).take n) s valid =
      .ok ((wholeWithin encode as n).foldl apply s,
        valid + ((wholeWithin encode as n).flatMap encode).length) := by
  obtain ⟨rounds, rfl⟩ : ∃ r, rounds = r + 1 := ⟨rounds - 1, by omega⟩
  induction as generalizing n s valid rounds with
  | nil =>
    rw [List.flatMap_nil, List.take_nil, replay, if_pos List.isEmpty_nil]
    rfl
  | cons a as ih =>
    have hpos := hf.pos a
    have hgood := has a List.mem_cons_self
    rw [List.flatMap_cons] at hr ⊢
    by_cases hle : (encode a).length ≤ n
    · have hsplit : (encode a ++ as.flatMap encode).take n =
          encode a ++ (as.flatMap encode).take (n - (encode a).length) := by
        rw [List.take_append, List.take_of_length_le hle]
      rw [hsplit] at hr ⊢
      rw [List.length_append] at hr
      obtain ⟨rounds, rfl⟩ : ∃ r, rounds = r + 1 := ⟨rounds - 1, by omega⟩
      rw [replay, if_neg (by
        rw [List.isEmpty_iff_length_eq_zero, List.length_append]
        omega), hf.whole hgood]
      dsimp only
      rw [List.drop_left, ih (fun b hb => has b (List.mem_cons_of_mem a hb)) _ _ rounds (by omega),
        wholeWithin, if_pos hle, List.flatMap_cons, List.length_append, List.foldl_cons,
        Nat.add_assoc]
    · have hcut : (encode a ++ as.flatMap encode).take n = (encode a).take n :=
        List.take_append_of_le_length (by omega)
      rw [hcut, wholeWithin, if_neg hle, replay]
      split
      · rfl
      · rw [hf.torn hgood (by omega)]
        rfl

/-- The records in front of anything else are applied first. -/
theorem replay_append (hf : Framed good encode read) {as : List α} (has : ∀ a ∈ as, good a)
    (rest : List UInt8) (rounds : Nat) (s : σ) (valid : Nat) :
    replay read apply (as.length + rounds) (as.flatMap encode ++ rest) s valid =
      replay read apply rounds rest (as.foldl apply s) (valid + (as.flatMap encode).length) := by
  induction as generalizing s valid with
  | nil => rw [List.length_nil, Nat.zero_add]; rfl
  | cons a as ih =>
    have hpos := hf.pos a
    rw [List.flatMap_cons, List.append_assoc, List.length_cons, Nat.add_right_comm, replay,
      if_neg (by
        rw [List.isEmpty_iff_length_eq_zero, List.length_append]
        omega), hf.whole (has a List.mem_cons_self)]
    dsimp only
    rw [List.drop_left, ih fun b hb => has b (List.mem_cons_of_mem a hb), List.length_append,
      Nat.add_assoc, List.foldl_cons]

theorem wholeWithin_eq_take (encode : α → List UInt8) (as : List α) (n : Nat) :
    ∃ k ≤ as.length, wholeWithin encode as n = as.take k := by
  induction as generalizing n with
  | nil => exact ⟨0, Nat.le_refl 0, rfl⟩
  | cons a as ih =>
    rw [wholeWithin]
    split
    · obtain ⟨k, hk, h⟩ := ih (n - (encode a).length)
      exact ⟨k + 1, Nat.succ_le_succ hk, by rw [h, List.take_succ_cons]⟩
    · exact ⟨0, Nat.zero_le _, rfl⟩

/-- What lies within the bytes that are kept is read back whole. -/
theorem wholeWithin_append (encode : α → List UInt8) (as bs : List α) {n : Nat}
    (h : (as.flatMap encode).length ≤ n) :
    wholeWithin encode (as ++ bs) n =
      as ++ wholeWithin encode bs (n - (as.flatMap encode).length) := by
  induction as generalizing n with
  | nil => rfl
  | cons a as ih =>
    rw [List.flatMap_cons, List.length_append] at h
    rw [List.cons_append, wholeWithin, if_pos (by omega), ih (by omega), List.flatMap_cons,
      List.length_append, Nat.sub_sub, List.cons_append]

/-- Their bytes are the first of those kept. -/
theorem wholeWithin_bytes (encode : α → List UInt8) (as : List α) (n : Nat) :
    (wholeWithin encode as n).flatMap encode <+: (as.flatMap encode).take n := by
  induction as generalizing n with
  | nil => exact List.nil_prefix
  | cons a as ih =>
    rw [wholeWithin]
    split
    · rename_i hle
      rw [List.flatMap_cons, List.flatMap_cons, List.take_append, List.take_of_length_le hle]
      exact (List.prefix_append_right_inj _).mpr (ih _)
    · exact List.nil_prefix

end Holt.Lib
