import Mathlib.Data.Nat.Bitwise

/-! Vector registers as streams of bits, the masks taken from them, and loops that go over a slice
in chunks. -/

namespace Holt.Lib

/-- The bits of a register from the lowest on. A cast between lane widths keeps them. -/
abbrev Register := Nat → Bool

namespace Register

variable {n : Nat}

def ofLanes (f : Nat → BitVec n) : Register := fun j => (f (j / n)).getLsbD (j % n)

/-- `w` lanes from index `i` on; there is no load past the end of the slice. -/
def load (w : Nat) (xs : List (BitVec n)) (i : Nat) : Option Register :=
  if i + w ≤ xs.length then some (ofLanes fun k => xs.getD (i + k) 0) else none

def splat (x : BitVec n) : Register := ofLanes fun _ => x

/-- All ones in the lanes of width `n` that are equal, all zeros in the others. -/
def cmpeq (n : Nat) (a b : Register) : Register := fun j =>
  decide (∀ r < n, a (n * (j / n) + r) = b (n * (j / n) + r))

def not (a : Register) : Register := fun j => !a j

/-- The lowest `w` bits as a word. -/
def toWord (w : Nat) (a : Register) : BitVec w :=
  (BitVec.ofBoolListLE ((List.range w).map a)).setWidth w

/-- The highest bit of each of the first `count` lanes of width `n`. -/
def movemask (n count : Nat) (a : Register) : BitVec 32 :=
  toWord 32 fun i => decide (i < count) && a (n * i + (n - 1))

/-- Each lane of 16 bits shifted right by 4 and cut to 8 bits. -/
def shrn4 (a : Register) : Register := fun j => a (16 * (j / 8) + (j % 8 + 4))

theorem ofLanes_lane (hn : 0 < n) (f : Nat → BitVec n) {i r : Nat} (hr : r < n) :
    ofLanes f (n * i + r) = (f i).getLsbD r := by
  rw [ofLanes, Nat.mul_add_div hn, Nat.div_eq_of_lt hr, Nat.mul_add_mod, Nat.mod_eq_of_lt hr,
    Nat.add_zero]

theorem cmpeq_ofLanes (hn : 0 < n) (f g : Nat → BitVec n) (j : Nat) :
    cmpeq n (ofLanes f) (ofLanes g) j = decide (f (j / n) = g (j / n)) := by
  refine decide_eq_decide.mpr ⟨fun h => BitVec.eq_of_getLsbD_eq fun r hr => ?_, fun h r hr => ?_⟩
  · have hbit := h r hr
    rwa [ofLanes_lane hn f hr, ofLanes_lane hn g hr] at hbit
  · rw [ofLanes_lane hn f hr, ofLanes_lane hn g hr, h]

theorem getLsbD_toWord (w : Nat) (a : Register) (i : Nat) :
    (toWord w a).getLsbD i = (decide (i < w) && a i) := by
  rw [toWord, BitVec.getLsbD_setWidth, BitVec.getLsbD_ofBoolListLE]
  by_cases hi : i < w <;> simp [hi]

theorem getLsbD_movemask {count i : Nat} (hn : 0 < n) (hcount : count ≤ 32) (a : Register)
    (f : Nat → Bool) (ha : ∀ j, a j = f (j / n)) :
    (movemask n count a).getLsbD i = (decide (i < count) && f i) := by
  have hdiv : (n * i + (n - 1)) / n = i := by
    rw [Nat.mul_add_div hn, Nat.div_eq_of_lt (by omega), Nat.add_zero]
  rw [movemask, getLsbD_toWord, ha, hdiv]
  by_cases hi : i < count
  · simp [hi, Nat.lt_of_lt_of_le hi hcount]
  · simp [hi]

end Register

/-- Lane `i` of `w` is one to look for when a bit of its block of `s` bits is set; the lowest set
bit is then in the block of the first such lane. -/
theorem first_of_bits {W s w : Nat} {m : BitVec W} {q : Nat → Bool} {c : Prop} [Decidable c]
    (hc : c ↔ ∃ i < w, q i) (hset : ∀ j, m.getLsbD j → j / s < w → q (j / s))
    (hblock : ∀ i < w, q i → ∃ j, j / s = i ∧ m.getLsbD j) :
    (if c then some (m.ctz.toNat / s) else none) = (List.range w).find? q := by
  symm
  by_cases h : c
  · obtain ⟨i, hi, hq⟩ := hc.mp h
    obtain ⟨j, rfl, hj⟩ := hblock i hi hq
    have hbit : m.getLsbD m.ctz.toNat :=
      BitVec.getLsbD_true_ctz_of_ne_zero (by rintro rfl; simp at hj)
    have hle : ∀ {k}, m.getLsbD k → m.ctz.toNat / s ≤ k / s := fun {k} hk =>
      Nat.div_le_div_right (not_lt.mp fun hlt => by simp [BitVec.getLsbD_false_of_lt_ctz hlt] at hk)
    have hlt : m.ctz.toNat / s < w := Nat.lt_of_le_of_lt (hle hj) hi
    rw [if_pos h, List.find?_range_eq_some]
    refine ⟨hset _ hbit hlt, List.mem_range.mpr hlt, fun k hk => ?_⟩
    by_contra hqk
    obtain ⟨j', rfl, hj'⟩ := hblock k (hk.trans hlt) (by simpa using hqk)
    exact absurd (hle hj') (Nat.not_le.mpr hk)
  · rw [if_neg h, List.find?_eq_none]
    exact fun i hi hq => h (hc.mpr ⟨i, List.mem_range.mp hi, hq⟩)

/-- A loop of a search, from an index on: it is left with a hit, or it runs out at an index. A read
outside the slice is no result at all. -/
abbrev Loop := Nat → Option (Nat ⊕ Nat)

/-- `while i + w ≤ len`: a chunk is looked at, and the loop is left at the first hit in it. -/
def chunks (w : Nat) (hit : Nat → Option (Option Nat)) (len i : Nat) : Option (Nat ⊕ Nat) :=
  if 0 < w ∧ i + w ≤ len then
    match hit i with
    | none => none
    | some (some k) => some (.inl (i + k))
    | some none => chunks w hit len (i + w)
  else some (.inr i)
termination_by len - i

/-- Loops one after the other: each goes on where the one before ran out. -/
def loops (last : Loop) : List Loop → Loop
  | [], i => last i
  | l :: ls, i => (l i).bind (Sum.elim (some ∘ .inl) (loops last ls))

variable {q : Nat → Bool} {len w i : Nat} {hit : Nat → Option (Option Nat)}

/-- The first hit from an index on, or the end. -/
def search (q : Nat → Bool) (len i : Nat) : Nat ⊕ Nat :=
  ((List.range' i (len - i)).find? q).elim (.inr len) .inl

/-- The loop is left with the first hit, or with all hits still ahead. -/
def Searches (q : Nat → Bool) (len : Nat) (l : Loop) : Prop :=
  ∀ i ≤ len, ∃ r, l i = some r ∧
    r.elim (search q len i = .inl ·) fun i' => i' ≤ len ∧ search q len i = search q len i'

theorem search_chunk (h : i + w ≤ len) : search q len i =
    ((List.range w).find? fun k => q (i + k)).elim (search q len (i + w))
      fun k => .inl (i + k) := by
  have hsplit : len - i = w + (len - (i + w)) := by omega
  rw [search, hsplit, ← List.range'_append_1, List.find?_append, List.range'_eq_map_range,
    List.find?_map]
  cases h : List.find? (q ∘ (i + ·)) (List.range w) with
  | none => rw [show List.find? (fun k => q (i + k)) _ = none from h]; rfl
  | some k => rw [show List.find? (fun k => q (i + k)) _ = some k from h]; rfl

theorem chunks_searches
    (hhit : ∀ i, i + w ≤ len → hit i = some ((List.range w).find? fun k => q (i + k))) :
    Searches q len (chunks w hit len) := by
  intro i hi
  fun_induction chunks w hit len i with
  | case1 i hc hnone => simp [hhit i hc.2] at hnone
  | case2 i hc k hk =>
    rw [hhit i hc.2, Option.some_inj] at hk
    rw [search_chunk hc.2, hk]
    exact ⟨_, rfl, rfl⟩
  | case3 i hc hnone ih =>
    rw [hhit i hc.2, Option.some_inj] at hnone
    rw [search_chunk hc.2, hnone]
    exact ih hc.2
  | case4 i => exact ⟨_, rfl, hi, rfl⟩

/-- A loop over single elements comes to the first hit or to the end. -/
theorem chunks_one (hhit : ∀ i < len, hit i = some (if q i then some 0 else none)) (hi : i ≤ len) :
    chunks 1 hit len i = some (search q len i) := by
  fun_induction chunks 1 hit len i with
  | case1 i hc hnone => simp [hhit i hc.2] at hnone
  | case2 i hc k hk =>
    rw [hhit i hc.2] at hk
    cases hq : q i <;> simp [hq] at hk
    simp [search_chunk hc.2, List.range_succ, hq, ← hk]
  | case3 i hc hnone ih =>
    rw [hhit i hc.2] at hnone
    cases hq : q i <;> simp [hq] at hnone
    simp [search_chunk hc.2, List.range_succ, hq, ih hc.2]
  | case4 i hc =>
    obtain rfl : i = len := by omega
    simp [search]

theorem loops_search {last : Loop} {ls : List Loop} (hls : ∀ l ∈ ls, Searches q len l)
    (hlast : ∀ i ≤ len, last i = some (search q len i)) (hi : i ≤ len) :
    loops last ls i = some (search q len i) := by
  induction ls generalizing i with
  | nil => exact hlast i hi
  | cons l ls ih =>
    obtain ⟨hl, hls⟩ := List.forall_mem_cons.mp hls
    obtain ⟨r, hr, hkeeps⟩ := hl i hi
    rw [loops, hr]
    cases r with
    | inl j => exact congrArg some (Eq.symm hkeeps)
    | inr i' =>
      rw [hkeeps.2]
      exact ih hls hkeeps.1

end Holt.Lib
