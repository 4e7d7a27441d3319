import Holt.Lib.CommonPrefix
import Holt.Lib.Vectors
import Mathlib.Tactic.IntervalCases

/-! The vector kernels of the walker. Each is a few loops over chunks of falling width, and what a
loop needs to know of its mask is which lanes it marks. -/

namespace Holt.Simd

open Holt.Lib Holt.Lib.Register

/-- What the code was compiled for; on x86-64 AVX2 is looked for at run time. -/
inductive Target
  | x86 (avx2 : Bool)
  | neon
  | scalar

namespace X86

/-- `cmp_byte_eq_mask_16` and `cmp_byte_eq_mask_32`. -/
def cmpByteEqMask (w : Nat) (needle : BitVec 8) (v : Register) : BitVec 32 :=
  movemask 8 w (cmpeq 8 v (splat needle))

def cmpByteNeqZeroMask16 (v : Register) : BitVec 32 :=
  ~~~movemask 8 16 (cmpeq 8 v (splat 0#8)) &&& 0xFFFF#32

def cmpByteNeqZeroMask32 (v : Register) : BitVec 32 :=
  ~~~movemask 8 32 (cmpeq 8 v (splat 0#8))

def cmpU32NeqZeroMask4 (v : Register) : BitVec 32 :=
  ~~~(movemask 32 4 (cmpeq 32 v (splat 0#32)) &&& 0xF#32) &&& 0xF#32

def cmpU32NeqZeroMask8 (v : Register) : BitVec 32 :=
  ~~~(movemask 32 8 (cmpeq 32 v (splat 0#32)) &&& 0xFF#32) &&& 0xFF#32

/-- `cmp_16_bytes_bitmask` and `cmp_32_bytes_bitmask`. -/
def cmpBytesBitmask (w : Nat) (a b : Register) : BitVec 32 := movemask 8 w (cmpeq 8 a b)

end X86

namespace Neon

def byteMaskToNibbleU64 (cmp : Register) : BitVec 64 := toWord 64 (shrn4 cmp)

def nibbleMaskToBitmask16 (nib : BitVec 64) : BitVec 32 :=
  let x := nib &&& 0x1111111111111111#64
  let x := (x ||| x >>> 3) &&& 0x0303030303030303#64
  let x := (x ||| x >>> 6) &&& 0x000f000f000f000f#64
  let x := (x ||| x >>> 12) &&& 0x000000ff000000ff#64
  let x := (x ||| x >>> 24) &&& 0x000000000000ffff#64
  x.setWidth 32

def cmp16BytesNibble (a b : Register) : BitVec 64 := byteMaskToNibbleU64 (cmpeq 8 a b)

def cmpByteEqMask16 (needle : BitVec 8) (v : Register) : BitVec 32 :=
  nibbleMaskToBitmask16 (byteMaskToNibbleU64 (cmpeq 8 v (splat needle)))

def cmpByteNeqZeroMask16 (v : Register) : BitVec 32 :=
  nibbleMaskToBitmask16 (byteMaskToNibbleU64 (cmpeq 8 v (splat 0#8)).not)

def cmpU32NeqZeroMask4 (v : Register) : BitVec 32 :=
  let byteBits :=
    nibbleMaskToBitmask16 (byteMaskToNibbleU64 (cmpeq 32 v (splat 0#32)).not)
  nibbleMaskToBitmask16 ((byteBits &&& 0x1111#32).setWidth 64) &&& 0xF#32

end Neon

/-- The vector loops; with AVX2 one over wide chunks comes first where there are enough for it. -/
def Target.vectors (target : Target) (enough : Bool) (avx2Loop sseLoop neonLoop : Loop) :
    List Loop :=
  match target with
  | .x86 avx2 => (if enough ∧ avx2 then [avx2Loop] else []) ++ [sseLoop]
  | .neon => [neonLoop]
  | .scalar => []

/-- A vector loop of a search: the lowest bit of a mask that is not zero. -/
def maskLoop {n : Nat} (w : Nat) (mask : Register → BitVec 32) (xs : List (BitVec n)) : Loop :=
  chunks w (fun i => (load w xs i).map fun v =>
    if mask v ≠ 0 then some (mask v).ctz.toNat else none) xs.length

/-- The vector loops, then one element at a time. -/
def scan {n : Nat} (vectors : List Loop) (p : BitVec n → Bool) (xs : List (BitVec n))
    (start : Nat) : Option (Option Nat) :=
  if start ≥ xs.length then some none
  else
    let each := chunks 1 (fun i => xs[i]?.map fun x => if p x then some 0 else none) xs.length
    (loops each vectors start).map Sum.getLeft?

def findByte (target : Target) (bytes : List (BitVec 8)) (needle : BitVec 8) (start : Nat) :
    Option (Option Nat) :=
  let vectors := target.vectors (bytes.length - start ≥ 32)
    (maskLoop 32 (X86.cmpByteEqMask 32 needle) bytes)
    (maskLoop 16 (X86.cmpByteEqMask 16 needle) bytes)
    (maskLoop 16 (Neon.cmpByteEqMask16 needle) bytes)
  scan vectors (· == needle) bytes start

def findNextNonzeroByte (target : Target) (bytes : List (BitVec 8)) (start : Nat) :
    Option (Option Nat) :=
  let vectors := target.vectors (bytes.length - start ≥ 32)
    (maskLoop 32 X86.cmpByteNeqZeroMask32 bytes) (maskLoop 16 X86.cmpByteNeqZeroMask16 bytes)
    (maskLoop 16 Neon.cmpByteNeqZeroMask16 bytes)
  scan vectors (· != 0) bytes start

def findNextNonzeroU32 (target : Target) (words : List (BitVec 32)) (start : Nat) :
    Option (Option Nat) :=
  let vectors := target.vectors (words.length - start ≥ 16)
    (maskLoop 8 X86.cmpU32NeqZeroMask8 words) (maskLoop 4 X86.cmpU32NeqZeroMask4 words)
    (maskLoop 4 Neon.cmpU32NeqZeroMask4 words)
  scan vectors (· != 0) words start

/-- A vector loop of the comparison: `hit` finds the first lane that differs. -/
def compareLoop (w : Nat) (hit : Register → Register → Option Nat) (a b : List (BitVec 8))
    (limit : Nat) : Loop :=
  chunks w (fun i => (load w a i).bind fun va => (load w b i).map (hit va)) limit

/-- `full` is `u32::MAX` or `0xFFFF`. -/
def X86.diverges (w : Nat) (va vb : Register) : Option Nat :=
  let mask := X86.cmpBytesBitmask w va vb
  let full := BitVec.ofNat 32 (2 ^ w - 1)
  if mask ≠ full then some (~~~mask).ctz.toNat else none

def Neon.diverges (va vb : Register) : Option Nat :=
  let mask := Neon.cmp16BytesNibble va vb
  if mask ≠ BitVec.allOnes 64 then some ((~~~mask).ctz.toNat / 4) else none

/-- Two words of eight bytes, the lowest first. -/
def wordDiverges (va vb : Register) : Option Nat :=
  let x := toWord 64 va ^^^ toWord 64 vb
  if x ≠ 0 then some (x.ctz.toNat / 8) else none

def longestCommonPrefix (target : Target) (littleEndian : Bool) (a b : List (BitVec 8)) :
    Option Nat :=
  let limit := min a.length b.length
  let vectors := target.vectors (limit ≥ 32) (compareLoop 32 (X86.diverges 32) a b limit)
    (compareLoop 16 (X86.diverges 16) a b limit) (compareLoop 16 Neon.diverges a b limit)
  let words := if littleEndian then [compareLoop 8 wordDiverges a b limit] else []
  let each := chunks 1 (fun i => a[i]?.bind fun x => b[i]?.map fun y =>
    if x = y then none else some 0) limit
  (loops each (vectors ++ words) 0).map (Sum.elim id id)

def node16FindByte (target : Target) (keys : Vector (BitVec 8) 16) (count : Nat)
    (byte : BitVec 8) : Option (Option Nat) :=
  match target with
  | .x86 _ => (load 16 keys.toList 0).map fun v =>
    let countMask := if count ≥ 16 then 0xFFFF#32 else (1#32 <<< count) - 1#32
    let masked := X86.cmpByteEqMask 16 byte v &&& countMask
    if masked ≠ 0 then some masked.ctz.toNat else none
  | .neon => (load 16 keys.toList 0).map fun v =>
    let countBits := min count 16 * 4
    let countMask := if countBits = 64 then BitVec.allOnes 64 else (1#64 <<< countBits) - 1#64
    let masked := Neon.byteMaskToNibbleU64 (cmpeq 8 v (splat byte)) &&& countMask
    if masked ≠ 0 then some (masked.ctz.toNat / 4) else none
  | .scalar =>
    let each := chunks 1 (fun i => keys.toList[i]?.map fun x =>
      if x == byte then some 0 else none) (min count 16)
    (each 0).map Sum.getLeft?

variable {n w k : Nat}

/-- Bit `i` of the mask says whether lane `i` of the first `w` is one to find. -/
def Marks (w : Nat) (mask : Register → BitVec 32) (p : BitVec n → Bool) : Prop :=
  ∀ f i, (mask (ofLanes f)).getLsbD i = (decide (i < w) && p (f i))

theorem getLsbD_low (hk : k ≤ n) (i : Nat) :
    (BitVec.ofNat n (2 ^ k - 1)).getLsbD i = decide (i < k) := by
  rw [BitVec.getLsbD_ofNat, Nat.testBit_two_pow_sub_one]
  by_cases hi : i < k
  · simp [hi, Nat.lt_of_lt_of_le hi hk]
  · simp [hi]

theorem Marks.cut {mask : Register → BitVec 32} {p : BitVec n → Bool} (h : Marks w mask p)
    (hw : w ≤ 32) : Marks w (fun v => mask v &&& BitVec.ofNat 32 (2 ^ w - 1)) p := by
  intro f i
  rw [BitVec.getLsbD_and, h, getLsbD_low hw]
  by_cases hi : i < w <;> simp [hi]

theorem Marks.invert {mask : Register → BitVec 32} (h : Marks w mask (· == (0 : BitVec n)))
    (hw : w ≤ 32) :
    Marks w (fun v => ~~~mask v &&& BitVec.ofNat 32 (2 ^ w - 1)) (· != (0 : BitVec n)) := by
  intro f i
  rw [BitVec.getLsbD_and, BitVec.getLsbD_not, h, getLsbD_low hw]
  by_cases hi : i < w
  · simp [hi, Nat.lt_of_lt_of_le hi hw, bne]
  · simp [hi]

theorem getLsbD_movemask_cmpeq (hn : 0 < n) (hw : w ≤ 32) (f g : Nat → BitVec n) (i : Nat) :
    (movemask n w (cmpeq n (ofLanes f) (ofLanes g))).getLsbD i =
      (decide (i < w) && decide (f i = g i)) :=
  getLsbD_movemask hn hw _ (fun i => decide (f i = g i)) (cmpeq_ofLanes hn f g)

theorem marks_movemask (hn : 0 < n) (hw : w ≤ 32) (x : BitVec n) :
    Marks w (fun v => movemask n w (cmpeq n v (splat x))) (· == x) :=
  fun f => getLsbD_movemask_cmpeq hn hw f fun _ => x

theorem X86.marks_byte_ne_32 : Marks 32 X86.cmpByteNeqZeroMask32 (· != (0 : BitVec 8)) := by
  intro f i
  have h : (_ &&& BitVec.allOnes 32).getLsbD i = _ :=
    (marks_movemask (by decide) (by decide) 0#8).invert (w := 32) (by decide) f i
  rwa [BitVec.and_allOnes] at h

theorem X86.marks_u32_ne (hw : w ≤ 32) :
    Marks w (fun v => ~~~(movemask 32 w (cmpeq 32 v (splat 0#32)) &&&
      BitVec.ofNat 32 (2 ^ w - 1)) &&& BitVec.ofNat 32 (2 ^ w - 1)) (· != (0 : BitVec 32)) :=
  ((marks_movemask (by decide) hw 0#32).cut hw).invert hw

/-- The nibbles of a comparison of lanes of `k` bytes. -/
theorem Neon.getLsbD_nibbles {cmp : Register} {g : Nat → Bool}
    (hcmp : ∀ j, cmp j = g (j / (8 * k))) (i : Nat) :
    (Neon.byteMaskToNibbleU64 cmp).getLsbD i = (decide (i < 64) && g (i / (4 * k))) := by
  have hdiv : (16 * (i / 8) + (i % 8 + 4)) / 8 = i / 4 := by omega
  rw [Neon.byteMaskToNibbleU64, getLsbD_toWord, shrn4, hcmp, ← Nat.div_div_eq_div_mul, hdiv,
    Nat.div_div_eq_div_mul]

theorem Neon.getLsbD_bitmask (nib : BitVec 64) (i : Nat) :
    (Neon.nibbleMaskToBitmask16 nib).getLsbD i = (decide (i < 16) && nib.getLsbD (4 * i)) := by
  unfold Neon.nibbleMaskToBitmask16
  by_cases hi : i < 16
  · interval_cases i <;> simp
  · have hlow : (0x000000000000ffff#64).getLsbD i = false :=
      (getLsbD_low (k := 16) (by decide) i).trans (decide_eq_false hi)
    rw [BitVec.getLsbD_setWidth, BitVec.getLsbD_and, hlow]
    simp [hi]

/-- One bit for each byte of a comparison of lanes of `k` bytes. -/
theorem Neon.getLsbD_compact {cmp : Register} {g : Nat → Bool}
    (hcmp : ∀ j, cmp j = g (j / (8 * k))) (i : Nat) :
    (Neon.nibbleMaskToBitmask16 (Neon.byteMaskToNibbleU64 cmp)).getLsbD i =
      (decide (i < 16) && g (i / k)) := by
  rw [Neon.getLsbD_bitmask, Neon.getLsbD_nibbles hcmp, Nat.mul_div_mul_left _ _ (by decide)]
  by_cases hi : i < 16
  · have hlt : 4 * i < 64 := by omega
    simp [hi, hlt]
  · simp [hi]

theorem Neon.marks_byte_eq (needle : BitVec 8) :
    Marks 16 (Neon.cmpByteEqMask16 needle) (· == needle) := fun f i => by
  have h := Neon.getLsbD_compact (k := 1) (g := fun i => decide (f i = needle))
    (cmpeq_ofLanes (by decide) f fun _ => needle) i
  rwa [Nat.div_one] at h

theorem not_cmpeq_ofLanes (hn : 0 < n) (f : Nat → BitVec n) (j : Nat) :
    (cmpeq n (ofLanes f) (splat 0#n)).not j = (f (j / n) != 0#n) :=
  congrArg (!·) (cmpeq_ofLanes hn f (fun _ => 0#n) j)

theorem Neon.marks_byte_ne : Marks 16 Neon.cmpByteNeqZeroMask16 (· != (0 : BitVec 8)) :=
  fun f i => by
    have h := Neon.getLsbD_compact (k := 1) (g := fun i => f i != 0#8)
      (not_cmpeq_ofLanes (by decide) f) i
    rwa [Nat.div_one] at h

/-- Four bytes of the compacted mask stand for one lane; every fourth is looked at. -/
theorem Neon.marks_u32_ne : Marks 4 Neon.cmpU32NeqZeroMask4 (· != (0 : BitVec 32)) :=
  fun f i => by
    have h := Neon.getLsbD_compact (k := 4) (g := fun i => f i != 0#32)
      (not_cmpeq_ofLanes (by decide) f) (4 * i)
    have hlow : (0xF#32).getLsbD i = decide (i < 4) := getLsbD_low (k := 4) (by decide) i
    simp only [Neon.cmpU32NeqZeroMask4]
    rw [BitVec.getLsbD_and, hlow, Neon.getLsbD_bitmask, BitVec.getLsbD_setWidth,
      BitVec.getLsbD_and, h, Nat.mul_div_cancel_left _ (by decide)]
    by_cases hi : i < 4
    · interval_cases i <;> simp
    · simp [hi]

/-- The first lane with a bit in its block, for a mask that has no other bits. -/
theorem first_of_mask {s : Nat} {m : BitVec n} {q : Nat → Bool}
    (hset : ∀ j, m.getLsbD j → j / s < w ∧ q (j / s))
    (hblock : ∀ i < w, q i → ∃ j, j / s = i ∧ m.getLsbD j) :
    (if m ≠ 0 then some (m.ctz.toNat / s) else none) = (List.range w).find? q := by
  refine first_of_bits ⟨fun h => ?_, ?_⟩ (fun j hj _ => (hset j hj).2) hblock
  · exact ⟨_, hset _ (BitVec.getLsbD_true_ctz_of_ne_zero h)⟩
  · rintro ⟨i, hi, hq⟩ rfl
    obtain ⟨j, -, hj⟩ := hblock i hi hq
    simp at hj

theorem first_of_marks {m : BitVec n} {q : Nat → Bool}
    (h : ∀ i, m.getLsbD i = (decide (i < w) && q i)) :
    (if m ≠ 0 then some m.ctz.toNat else none) = (List.range w).find? q := by
  have hfirst := first_of_mask (s := 1) (w := w) (m := m) (q := q)
    (fun j hj => by simpa [h j] using hj) (fun i hi hq => ⟨i, Nat.div_one i, by simp [h i, hi, hq]⟩)
  rwa [Nat.div_one] at hfirst

theorem load_eq {xs : List (BitVec n)} {i : Nat} (h : i + w ≤ xs.length) :
    load w xs i = some (ofLanes fun k => xs.getD (i + k) 0) := if_pos h

theorem Marks.searches {mask : Register → BitVec 32} {p : BitVec n → Bool} (h : Marks w mask p)
    (xs : List (BitVec n)) :
    Searches (fun i => p (xs.getD i 0)) xs.length (maskLoop w mask xs) :=
  chunks_searches fun i hi => by
    rw [load_eq hi]
    exact congrArg some (first_of_marks (h _))

/-- The first index at or after `start` with an element to find. -/
def firstFrom (p : BitVec n → Bool) (xs : List (BitVec n)) (start : Nat) : Option Nat :=
  (List.range' start (xs.length - start)).find? fun i => p (xs.getD i 0)

theorem scan_eq {vectors : List Loop} {p : BitVec n → Bool} {xs : List (BitVec n)} {start : Nat}
    (h : ∀ l ∈ vectors, Searches (fun i => p (xs.getD i 0)) xs.length l) :
    scan vectors p xs start = some (firstFrom p xs start) := by
  unfold scan firstFrom
  split
  · rename_i hge
    simp [Nat.sub_eq_zero_of_le hge]
  · rename_i hlt
    dsimp only
    rw [loops_search h (fun i => chunks_one fun i hi => by simp [hi]) (Nat.le_of_not_le hlt),
      search]
    cases List.find? _ _ <;> rfl

theorem Target.vectors_search {q : Nat → Bool} {len : Nat} {avx2Loop sseLoop neonLoop : Loop}
    {enough : Bool} (target : Target) (havx2 : Searches q len avx2Loop)
    (hsse : Searches q len sseLoop) (hneon : Searches q len neonLoop) :
    ∀ l ∈ target.vectors enough avx2Loop sseLoop neonLoop, Searches q len l := by
  cases target with
  | x86 avx2 =>
    simp only [Target.vectors]
    split <;> simp [havx2, hsse]
  | neon => simpa [Target.vectors] using hneon
  | scalar => simp [Target.vectors]

/-- The first lane that differs. -/
def Compares (w : Nat) (hit : Register → Register → Option Nat) : Prop :=
  ∀ f g : Nat → BitVec 8,
    hit (ofLanes f) (ofLanes g) = (List.range w).find? fun i => f i != g i

/-- The first lane whose block is not all ones, for a mask that has no bits past `full`. -/
theorem first_of_ones {s : Nat} {mask full : BitVec n} {e : Nat → Bool} (hs : 0 < s)
    (hfull : ∀ j, full.getLsbD j = decide (j / s < w))
    (hmask : ∀ j, mask.getLsbD j = (decide (j / s < w) && e (j / s))) :
    (if mask ≠ full then some ((~~~mask).ctz.toNat / s) else none) =
      (List.range w).find? fun i => !e i := by
  have hlow : ∀ {i}, i < w → s * i / s < w := fun hi => by rwa [Nat.mul_div_cancel_left _ hs]
  refine first_of_bits ⟨fun hne => ?_, ?_⟩ (fun j hj hlt => ?_) fun i hi hq => ⟨s * i, ?_, ?_⟩
  · by_contra hnone
    refine hne (BitVec.eq_of_getLsbD_eq fun j _ => ?_)
    rw [hmask, hfull]
    by_cases hlt : j / s < w
    · have he : e (j / s) = true := by
        by_contra he
        exact hnone ⟨j / s, hlt, by simp [he]⟩
      simp [he]
    · simp [hlt]
  · rintro ⟨i, hi, hq⟩ rfl
    have hbit := (hmask (s * i)).symm.trans (hfull (s * i))
    rw [Nat.mul_div_cancel_left _ hs] at hbit
    simp_all
  · rw [BitVec.getLsbD_not, hmask] at hj
    simp_all
  · exact Nat.mul_div_cancel_left _ hs
  · have hn := BitVec.lt_of_getLsbD ((hfull (s * i)).trans (decide_eq_true (hlow hi)))
    rw [BitVec.getLsbD_not, hmask, Nat.mul_div_cancel_left _ hs]
    simp_all

theorem X86.compares (hw : w ≤ 32) : Compares w (X86.diverges w) := fun f g => by
  have h := first_of_ones (s := 1) (w := w) (e := fun i => decide (f i = g i)) (by decide)
    (fun j => (getLsbD_low hw j).trans (by rw [Nat.div_one]))
    (fun j => (getLsbD_movemask_cmpeq (by decide) hw f g j).trans (by rw [Nat.div_one]))
  rwa [Nat.div_one] at h

theorem Neon.compares : Compares 16 Neon.diverges := fun f g => by
  have hlt : ∀ j, decide (j < 64) = decide (j / 4 < 16) := fun j =>
    decide_eq_decide.mpr (by omega)
  refine first_of_ones (s := 4) (w := 16) (e := fun i => decide (f i = g i)) (by decide)
    (fun j => ?_) (fun j => ?_)
  · rw [BitVec.getLsbD_allOnes, hlt]
  · rw [← hlt]
    exact Neon.getLsbD_nibbles (k := 1) (g := fun i => decide (f i = g i))
      (cmpeq_ofLanes (by decide) f g) j

theorem wordDiverges_compares : Compares 8 wordDiverges := fun f g => by
  have hbit : ∀ j, (toWord 64 (ofLanes f) ^^^ toWord 64 (ofLanes g)).getLsbD j =
      (decide (j < 64) && ((f (j / 8)).getLsbD (j % 8) != (g (j / 8)).getLsbD (j % 8))) :=
    fun j => by
      rw [BitVec.getLsbD_xor, getLsbD_toWord, getLsbD_toWord]
      by_cases hj : j < 64 <;> simp [hj, ofLanes, bne]
  refine first_of_mask (fun j hj => ?_) fun i hi hq => ?_
  · rw [hbit, Bool.and_eq_true, decide_eq_true_iff] at hj
    refine ⟨by omega, bne_iff_ne.mpr fun he => ?_⟩
    rw [he] at hj
    simp at hj
  · obtain ⟨r, hr, hne⟩ : ∃ r < 8, (f i).getLsbD r ≠ (g i).getLsbD r := by
      by_contra hall
      refine bne_iff_ne.mp hq (BitVec.eq_of_getLsbD_eq fun r hr => ?_)
      by_contra hne
      exact hall ⟨r, hr, hne⟩
    have hdiv : (8 * i + r) / 8 = i := by omega
    have hmod : (8 * i + r) % 8 = r := by omega
    have hlt : 8 * i + r < 64 := by omega
    refine ⟨8 * i + r, hdiv, ?_⟩
    rw [hbit, hdiv, hmod]
    simpa [hlt] using hne

theorem Compares.searches {hit : Register → Register → Option Nat} (h : Compares w hit)
    (a b : List (BitVec 8)) :
    Searches (fun i => a.getD i 0 != b.getD i 0) (min a.length b.length)
      (compareLoop w hit a b (min a.length b.length)) :=
  chunks_searches fun i hi => by
    rw [load_eq (by omega), load_eq (by omega)]
    exact congrArg some (h _ _)

theorem search_diverging (a b : List (BitVec 8)) :
    (search (fun i => a.getD i 0 != b.getD i 0) (min a.length b.length) 0).elim id id =
      Lib.longestCommonPrefix a b := by
  rw [search, Nat.sub_zero, ← List.range_eq_range']
  induction a generalizing b with
  | nil => simp
  | cons x a ih =>
    cases b with
    | nil => simp
    | cons y b =>
      rw [List.length_cons, List.length_cons, Nat.add_min_add_right, List.range_succ_eq_map,
        Lib.longestCommonPrefix, ← ih b]
      by_cases hxy : x = y
      · simp [hxy, List.find?_map, Function.comp_def]
        cases List.find? _ _ <;> rfl
      · simp [hxy]

theorem longestCommonPrefix_eq (target : Target) (littleEndian : Bool) (a b : List (BitVec 8)) :
    longestCommonPrefix target littleEndian a b = some (Lib.longestCommonPrefix a b) := by
  unfold longestCommonPrefix
  dsimp only
  rw [loops_search (q := fun i => a.getD i 0 != b.getD i 0) (List.forall_mem_append.mpr ⟨?_, ?_⟩)
    (fun i => chunks_one fun i hi => ?_) (Nat.zero_le _), ← search_diverging a b]
  · rfl
  · exact target.vectors_search ((X86.compares (by decide)).searches a b)
      ((X86.compares (by decide)).searches a b) (Neon.compares.searches a b)
  · split
    · exact List.forall_mem_singleton.mpr (wordDiverges_compares.searches a b)
    · simp
  · obtain ⟨ha, hb⟩ := lt_min_iff.mp hi
    by_cases he : a[i] = b[i] <;> simp [ha, hb, he]

theorem getLsbD_countMask (hk : k < n) (i : Nat) :
    ((1#n <<< k) - 1#n).getLsbD i = decide (i < k) := by
  have hlt := Nat.pow_lt_pow_right (by decide : 1 < 2) hk
  have hpos := Nat.two_pow_pos k
  have hone : (1#n).toNat = 1 := Nat.mod_eq_of_lt (by omega)
  have hshift : (1#n <<< k).toNat = 2 ^ k := by
    rw [BitVec.toNat_shiftLeft, hone, Nat.one_shiftLeft, Nat.mod_eq_of_lt hlt]
  have heq : (1#n <<< k) - 1#n = BitVec.ofNat n (2 ^ k - 1) := BitVec.eq_of_toNat_eq (by
    rw [BitVec.toNat_sub_of_le (by rw [BitVec.le_def, hone, hshift]; exact hpos), hshift, hone,
      BitVec.toNat_ofNat, Nat.mod_eq_of_lt (by omega)])
  rw [heq, getLsbD_low hk.le]

/-- The matching index below the count. -/
def firstBelow (keys : Vector (BitVec 8) 16) (count : Nat) (byte : BitVec 8) : Option Nat :=
  (List.range (min count 16)).find? fun i => keys.toList.getD i 0 == byte

theorem node16FindByte_eq (target : Target) (keys : Vector (BitVec 8) 16) (count : Nat)
    (byte : BitVec 8) :
    node16FindByte target keys count byte = some (firstBelow keys count byte) := by
  have hload : load 16 keys.toList 0 = some (ofLanes fun k => keys.toList.getD k 0) := by
    rw [load_eq (by simp)]
    simp only [Nat.zero_add]
  unfold node16FindByte firstBelow
  cases target with
  | x86 avx2 =>
    dsimp only
    rw [hload]
    refine congrArg some (first_of_marks fun i => ?_)
    have hcount : (if count ≥ 16 then 0xFFFF#32 else (1#32 <<< count) - 1#32).getLsbD i =
        decide (i < min count 16) := by
      split
      · rw [Nat.min_eq_right ‹_›]
        exact getLsbD_low (k := 16) (by decide) i
      · rw [getLsbD_countMask (by omega), Nat.min_eq_left (by omega)]
    rw [BitVec.getLsbD_and, hcount]
    refine (congrArg (· && _) (marks_movemask (by decide) (by decide) byte _ i)).trans ?_
    by_cases hi : i < 16 <;> simp [hi, Bool.and_comm]
  | neon =>
    dsimp only
    rw [hload]
    have hcount : ∀ j, (if min count 16 * 4 = 64 then BitVec.allOnes 64
        else (1#64 <<< (min count 16 * 4)) - 1#64).getLsbD j = decide (j < min count 16 * 4) := by
      intro j
      split
      · rename_i hfull
        rw [hfull, BitVec.getLsbD_allOnes]
      · exact getLsbD_countMask (by omega) j
    have hbit : ∀ j, (Neon.byteMaskToNibbleU64 (cmpeq 8 (ofLanes fun k => keys.toList.getD k 0)
        (splat byte))).getLsbD j = (decide (j < 64) && keys.toList.getD (j / 4) 0 == byte) :=
      Neon.getLsbD_nibbles (k := 1) (g := fun i => keys.toList.getD i 0 == byte)
        (cmpeq_ofLanes (by decide) _ fun _ => byte)
    refine congrArg some (first_of_mask (fun j hj => ?_) fun i hi hq => ⟨4 * i, by omega, ?_⟩)
    · rw [BitVec.getLsbD_and, hcount, hbit] at hj
      simp only [Bool.and_eq_true, decide_eq_true_eq] at hj
      exact ⟨by omega, hj.1.2⟩
    · have hdiv : 4 * i / 4 = i := by omega
      rw [BitVec.getLsbD_and, hcount, hbit, hdiv, hq]
      simp only [Bool.and_true, Bool.and_eq_true, decide_eq_true_eq]
      omega
  | scalar =>
    dsimp only
    rw [chunks_one (q := fun i => keys.toList.getD i 0 == byte)
      (fun i hi => by simp [show i < 16 by omega]) (Nat.zero_le _), search, List.range_eq_range']
    cases List.find? _ _ <;> rfl

/-- Whatever the code is compiled for, every kernel returns what the scalar definition says and
reads nothing outside its slices. -/
theorem kernels_eq_scalar (target : Target) :
    (∀ bytes needle start,
      findByte target bytes needle start = some (firstFrom (· == needle) bytes start)) ∧
    (∀ bytes start,
      findNextNonzeroByte target bytes start = some (firstFrom (· != 0) bytes start)) ∧
    (∀ words start,
      findNextNonzeroU32 target words start = some (firstFrom (· != 0) words start)) ∧
    (∀ littleEndian a b,
      longestCommonPrefix target littleEndian a b = some (Lib.longestCommonPrefix a b)) ∧
    ∀ keys count byte,
      node16FindByte target keys count byte = some (firstBelow keys count byte) := by
  refine ⟨fun bytes needle start => scan_eq ?_, fun bytes start => scan_eq ?_,
    fun words start => scan_eq ?_, longestCommonPrefix_eq target, node16FindByte_eq target⟩
  · have heq : ∀ {w}, w ≤ 32 → Marks w (X86.cmpByteEqMask w needle) (· == needle) := fun hw =>
      marks_movemask (by decide) hw needle
    exact target.vectors_search ((heq (by decide)).searches bytes)
      ((heq (by decide)).searches bytes) ((Neon.marks_byte_eq needle).searches bytes)
  · have hne := (marks_movemask (by decide) (by decide) 0#8).invert (w := 16) (by decide)
    exact target.vectors_search (X86.marks_byte_ne_32.searches bytes) (hne.searches bytes)
      (Neon.marks_byte_ne.searches bytes)
  · exact target.vectors_search ((X86.marks_u32_ne (by decide)).searches words)
      ((X86.marks_u32_ne (by decide)).searches words) (Neon.marks_u32_ne.searches words)

end Holt.Simd
