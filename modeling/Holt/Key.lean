import Holt.Lib.Bytes
import Holt.Lib.CommonPrefix

/-! The search key: a user key with its terminator kept virtual. -/

namespace Holt

open Holt.Lib

structure SearchKey where
  bytes : List UInt8
  virtualTerminator : Bool

namespace SearchKey

/-- A key given through the public API. -/
def user (bytes : List UInt8) : SearchKey := ⟨bytes, true⟩

def exact (bytes : List UInt8) : SearchKey := ⟨bytes, false⟩

def len (k : SearchKey) : Nat := k.bytes.length + (if k.virtualTerminator then 1 else 0)

def userPrefix (k : SearchKey) (n : Nat) : Option (List UInt8) :=
  if n ≤ k.bytes.length then some (k.bytes.take n) else none

def remainingLen (k : SearchKey) (depth : Nat) : Nat := k.len - depth

def byteAt (k : SearchKey) (i : Nat) : Option UInt8 :=
  if i < k.bytes.length then k.bytes[i]?
  else if k.virtualTerminator ∧ i = k.bytes.length then some 0
  else none

def eqSlice (k : SearchKey) (other : List UInt8) : Bool :=
  if !k.virtualTerminator then
    k.bytes.length = other.length ∧ longestCommonPrefix k.bytes other = k.bytes.length
  else if other.length ≠ k.bytes.length + 1 then false
  else
    longestCommonPrefix k.bytes (other.take k.bytes.length) = k.bytes.length ∧
      other[k.bytes.length]? = some 0

def rangeEq (k : SearchKey) (depth : Nat) (other : List UInt8) : Bool :=
  if other.isEmpty then depth ≤ k.len
  else if k.remainingLen depth < other.length then false
  else if !k.virtualTerminator ∨ depth + other.length ≤ k.bytes.length then
    longestCommonPrefix ((k.bytes.drop depth).take other.length) other = other.length
  else if depth < k.bytes.length then
    let rawLen := k.bytes.length - depth
    longestCommonPrefix (k.bytes.drop depth) (other.take rawLen) = rawLen ∧ other[rawLen]? = some 0
  else other[0]? = some 0

def commonPrefixWithSlice (k : SearchKey) (depth : Nat) (other : List UInt8) : Nat :=
  if k.len ≤ depth ∨ other.isEmpty then 0
  else if !k.virtualTerminator then longestCommonPrefix (k.bytes.drop depth) other
  else if depth < k.bytes.length then
    let rawTail := k.bytes.drop depth
    let common := longestCommonPrefix rawTail other
    if common < rawTail.length ∨ common = other.length then common
    else common + (if other[common]? = some 0 then 1 else 0)
  else if other[0]? = some 0 then 1 else 0

/-- Fill `dst`, which the caller has sized: the key's bytes, then the terminator. -/
def writeToSlice (k : SearchKey) (dst : List UInt8) : Option (List UInt8) :=
  if dst.length ≠ k.len then none
  else if k.virtualTerminator then
    some ((k.bytes ++ dst.drop k.bytes.length).set k.bytes.length 0)
  else some k.bytes

/-- The bytes a leaf stores for the key. -/
def full (k : SearchKey) : List UInt8 :=
  if k.virtualTerminator then k.bytes ++ [0] else k.bytes

@[simp]
theorem full_user (bs : List UInt8) : (user bs).full = bs ++ [0] := rfl

@[simp]
theorem length_full (k : SearchKey) : k.full.length = k.len := by
  unfold full len
  split <;> simp

theorem writeToSlice_eq (k : SearchKey) (dst : List UInt8) :
    k.writeToSlice dst = if dst.length = k.len then some k.full else none := by
  unfold writeToSlice full
  by_cases hlen : dst.length = k.len
  · rw [if_neg (not_not.mpr hlen), if_pos hlen]
    split
    · rename_i ht
      have hrest : (dst.drop k.bytes.length).length = 1 := by simp [hlen, len, ht]
      obtain ⟨z, hz⟩ := List.length_eq_one_iff.mp hrest
      simp [hz]
    · rfl
  · rw [if_pos hlen, if_neg hlen]

theorem userPrefix_eq {key : SearchKey} {n : Nat} {p : List UInt8}
    (h : key.userPrefix n = some p) :
    p = key.full.take n ∧ p.length = n := by
  unfold userPrefix at h
  split at h
  · rename_i hn
    cases h
    refine ⟨?_, List.length_take_of_le hn⟩
    unfold full
    split
    · rw [List.take_append_of_le_length hn]
    · rfl
  · cases h

theorem byteAt_eq (k : SearchKey) (i : Nat) : k.byteAt i = k.full[i]? := by
  unfold byteAt full
  by_cases h : i < k.bytes.length
  · rw [if_pos h]
    split
    · rw [List.getElem?_append_left h]
    · rfl
  · rw [if_neg h]
    have hge := not_lt.mp h
    by_cases ht : k.virtualTerminator
    · by_cases he : i = k.bytes.length
      · simp [ht, he]
      · have hgt : (k.bytes ++ [0]).length ≤ i := by
          rw [List.length_append, List.length_singleton]
          omega
        rw [if_neg (fun h' => he h'.2), if_pos ht, List.getElem?_eq_none hgt]
    · simp [ht, hge]

theorem append_singleton_eq_iff {xs other : List UInt8} {z : UInt8}
    (hlen : other.length = xs.length + 1) :
    xs ++ [z] = other ↔ xs <+: other.take xs.length ∧ other[xs.length]? = some z := by
  constructor
  · rintro rfl
    simp
  · rintro ⟨hp, hz⟩
    have htake : other.take xs.length = xs := (hp.eq_of_length (by simp; omega)).symm
    have hdrop : other.drop xs.length = [z] := by
      obtain ⟨y, hy⟩ := List.length_eq_one_iff.mp
        (show (other.drop xs.length).length = 1 by simp; omega)
      have hhead : (other.drop xs.length).head? = some z := by rwa [List.head?_drop]
      rw [hy] at hhead ⊢
      simpa using hhead
    rw [← List.take_append_drop xs.length other, htake, hdrop]

theorem eqSlice_iff (k : SearchKey) (other : List UInt8) :
    k.eqSlice other = true ↔ k.full = other := by
  unfold eqSlice full
  by_cases ht : k.virtualTerminator
  · simp only [ht, Bool.not_true, Bool.false_eq_true, if_false, if_true]
    split
    · rename_i hlen
      simp only [Bool.false_eq_true, false_iff]
      rintro rfl
      simp at hlen
    · rename_i hlen
      have hlen' : other.length = k.bytes.length + 1 := not_not.mp hlen
      simp only [decide_eq_true_eq, longestCommonPrefix_eq_left]
      exact (append_singleton_eq_iff hlen').symm
  · simp only [Bool.not_eq_true] at ht
    simp only [ht, Bool.not_false, if_true, decide_eq_true_eq, Bool.false_eq_true, if_false,
      longestCommonPrefix_eq_left]
    constructor
    · rintro ⟨hl, hp⟩
      exact hp.eq_of_length hl
    · rintro rfl
      exact ⟨rfl, List.prefix_refl _⟩

theorem commonPrefixWithSlice_eq (k : SearchKey) (depth : Nat) (other : List UInt8) :
    k.commonPrefixWithSlice depth other = longestCommonPrefix (k.full.drop depth) other := by
  unfold commonPrefixWithSlice
  split
  · rename_i h
    rcases h with h | h
    · rw [List.drop_eq_nil_of_le (by simpa using h), longestCommonPrefix_nil]
    · rw [List.isEmpty_iff.mp h, longestCommonPrefix_nil_right]
  · rename_i h
    simp only [not_or, not_le] at h
    obtain ⟨hd, hne⟩ := h
    unfold full
    by_cases ht : k.virtualTerminator
    · simp only [ht, Bool.not_true, Bool.false_eq_true, if_false, if_true]
      have hd' : depth ≤ k.bytes.length := by simp [len, ht] at hd; omega
      rw [List.drop_append_of_le_length hd']
      split
      · split
        · rename_i hc
          rw [longestCommonPrefix_append hc]
        · rename_i hc
          simp only [not_or, not_lt] at hc
          have hp : k.bytes.drop depth <+: other :=
            longestCommonPrefix_eq_left.mp
              (le_antisymm (longestCommonPrefix_le_left ..) hc.1)
          rw [longestCommonPrefix_append_of_le other hp,
            longestCommonPrefix_eq_left.mpr hp]
          congr 1
          cases hdrop : other.drop (k.bytes.drop depth).length with
          | nil =>
            have hz : other[(k.bytes.drop depth).length]? = none := by
              rw [List.getElem?_eq_none_iff]
              exact List.drop_eq_nil_iff.mp hdrop
            rw [hz]
            simp
          | cons z zs =>
            have hz : other[(k.bytes.drop depth).length]? = some z := by
              have := congrArg List.head? hdrop
              simpa [List.head?_drop] using this
            rw [hz]
            simp [longestCommonPrefix, eq_comm]
      · rename_i hge
        have he : k.bytes.drop depth = [] := List.drop_eq_nil_of_le (not_lt.mp hge)
        rw [he]
        cases other with
        | nil => simp at hne
        | cons z zs => simp [longestCommonPrefix, eq_comm]
    · simp only [Bool.not_eq_true] at ht
      simp [ht]

theorem rangeEq_iff (k : SearchKey) (depth : Nat) (other : List UInt8) :
    k.rangeEq depth other = true ↔ depth ≤ k.len ∧ other <+: k.full.drop depth := by
  unfold rangeEq
  split
  · rename_i h
    simp [List.isEmpty_iff.mp h]
  · rename_i hne
    have hne' : other ≠ [] := fun he => hne (by simp [he])
    have hpos : 0 < other.length := List.length_pos_iff.mpr hne'
    split
    · rename_i hlt
      simp only [remainingLen] at hlt
      simp only [Bool.false_eq_true, false_iff, not_and]
      intro _ hp
      have := hp.length_le
      simp at this
      omega
    · rename_i hlen
      simp only [remainingLen, not_lt] at hlen
      have hd : depth ≤ k.len := by omega
      simp only [hd, true_and]
      by_cases hraw : !k.virtualTerminator ∨ depth + other.length ≤ k.bytes.length
      · rw [if_pos hraw, decide_eq_true_eq, longestCommonPrefix_eq_right, List.prefix_take_iff,
          and_iff_left le_rfl, full]
        by_cases ht : k.virtualTerminator
        · have hle : depth + other.length ≤ k.bytes.length := by simpa [ht] using hraw
          rw [if_pos ht, List.drop_append_of_le_length (by omega)]
          refine ⟨fun hp => hp.trans (List.prefix_append ..), fun hp => ?_⟩
          exact List.prefix_of_prefix_length_le hp (List.prefix_append ..) (by simp; omega)
        · rw [if_neg ht]
      · rw [if_neg hraw]
        -- `other` ends exactly at the terminator
        have ht : k.virtualTerminator = true := by
          by_contra ht
          simp [ht] at hraw
        have hgt : k.bytes.length < depth + other.length := by simpa [ht] using hraw
        have hlen' : other.length ≤ k.bytes.length + 1 - depth := by simpa [len, ht] using hlen
        have hexact : other.length = (k.bytes.drop depth).length + 1 := by simp; omega
        have hfull : k.full.drop depth = k.bytes.drop depth ++ [0] := by
          rw [full, if_pos ht, List.drop_append_of_le_length (by omega)]
        have heq : other <+: k.full.drop depth ↔ k.bytes.drop depth ++ [0] = other := by
          rw [hfull]
          exact ⟨fun hp => (hp.eq_of_length (by simp at hexact ⊢; omega)).symm,
            fun he => he ▸ List.prefix_refl _⟩
        rw [heq, append_singleton_eq_iff hexact, List.length_drop]
        split
        · rw [decide_eq_true_eq, ← List.length_drop, longestCommonPrefix_eq_left]
        · rename_i hge
          have hnil : k.bytes.drop depth = [] := List.drop_eq_nil_of_le (not_lt.mp hge)
          have hz : k.bytes.length - depth = 0 := by omega
          simp [hnil, hz]

end SearchKey

end Holt
