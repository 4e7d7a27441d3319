import Holt.Allocation
import Holt.Art.Basic
import Mathlib.Data.Set.Lattice
import Mathlib.Order.CompletePartialOrder
import Mathlib.Order.Interval.Finset.Nat

/-! How a frame holds a tree: which slots and bytes it takes, and that other writes cannot
disturb it. -/

namespace Holt

open Holt.Lib

/-- `n as u16`, little end first. -/
def u16ToLeBytes (n : Nat) : List UInt8 := [UInt8.ofNat n, UInt8.ofNat (n / 2 ^ 8)]

def u16FromLeBytes (b₀ b₁ : UInt8) : Nat := b₀.toNat + b₁.toNat * 2 ^ 8

theorem u16_round_trip {n : Nat} (h : n < 2 ^ 16) :
    u16FromLeBytes (UInt8.ofNat n) (UInt8.ofNat (n / 2 ^ 8)) = n := by
  simp only [u16FromLeBytes, UInt8.toNat_ofNat']
  omega

/-- The used bytes of a leaf's extent. -/
def leafBytes (key value : List UInt8) : List UInt8 := u16ToLeBytes key.length ++ key ++ value

@[simp]
theorem length_leafBytes (key value : List UInt8) :
    (leafBytes key value).length = 2 + key.length + value.length := by
  simp [leafBytes, u16ToLeBytes]
  omega

theorem leafExtentSize_ge (k v : Nat) : 2 + k + v ≤ leafExtentSize k v := by
  unfold leafExtentSize
  omega

theorem leafExtentSize_pos (k v : Nat) : 0 < leafExtentSize k v := by
  unfold leafExtentSize
  omega

theorem leafExtentSize_mod (k v : Nat) : leafExtentSize k v % 8 = 0 := by
  unfold leafExtentSize
  omega

namespace Frame

/-- The leaf body `l` and its extent hold the record `r`. -/
structure Stores (F : Frame) (l : Leaf) (r : Record) : Prop where
  valueSize : l.valueSize = r.value.length
  seq : l.seq = r.seq
  tombstone : l.tombstone = r.tombstone
  keyLen : r.key.length < 2 ^ 16
  fits : l.keyOffset + leafExtentSize r.key.length r.value.length ≤ pageSize
  data : ∀ i (hi : i < (leafBytes r.key r.value).length),
    F.data (l.keyOffset + i) = (leafBytes r.key r.value)[i]

/-- Slot `s` of `F` roots the tree, which takes exactly the cells `fp`. -/
def Rep (F : Frame) : Art → Slot → Set Cell → Prop
  | .emptyRoot, s, fp => F.NodeAt s .emptyRoot ∧ fp = {.slot s}
  | .leaf r, s, fp => ∃ l, F.NodeAt s (.leaf l) ∧ F.Stores l r ∧
      fp = insert (.slot s) (extentCells l.keyOffset (leafExtentSize r.key.length r.value.length))
  | .pfx bytes child, s, fp => ∃ (c : Slot) (fpc : Set Cell),
      F.NodeAt s (.pfx ⟨bytes, c⟩) ∧ Rep F child c fpc ∧ .slot s ∉ fpc ∧ fp = insert (.slot s) fpc
  | .inner has child, s, fp => ∃ (n : Inner) (fps : UInt8 → Set Cell),
      F.NodeAt s (.inner n) ∧ n.Wf ∧
      (∀ b, (n.findChild b).isSome = has b) ∧
      (∀ b c, n.findChild b = some c → Rep F (child b) c (fps b)) ∧
      (∀ b, has b = false → fps b = ∅) ∧ (∀ b b', b ≠ b' → Disjoint (fps b) (fps b')) ∧
      (∀ b, .slot s ∉ fps b) ∧ fp = insert (.slot s) (⋃ b, fps b)
  | .blob bytes guid, s, fp => F.NodeAt s (.blob ⟨bytes, guid⟩) ∧ fp = {.slot s}

theorem Stores.congr {F F' : Frame} {l : Leaf} {r : Record} {R : Set Cell} (h : F.Stores l r)
    (hs : Agrees F F' R)
    (hr : extentCells l.keyOffset (leafExtentSize r.key.length r.value.length) ⊆ R) :
    F'.Stores l r := by
  refine ⟨h.valueSize, h.seq, h.tombstone, h.keyLen, h.fits, fun i hi => ?_⟩
  have hge := leafExtentSize_ge r.key.length r.value.length
  rw [length_leafBytes] at hi
  rw [hs.data _ (hr (byte_mem_extentCells.mpr ⟨by omega, by omega⟩)), h.data]

variable {fp : Set Cell} {s : Slot} {t : Art}

/-- A tree reads its own cells only. -/
theorem Rep.congr {F F' : Frame} {R : Set Cell} (h : Rep F t s fp) (hs : Agrees F F' R)
    (hr : fp ⊆ R) : Rep F' t s fp := by
  induction t generalizing s fp with
  | emptyRoot =>
    obtain ⟨hn, rfl⟩ := h
    exact ⟨hn.congr hs (hr rfl), rfl⟩
  | leaf r =>
    obtain ⟨l, hn, hst, rfl⟩ := h
    exact ⟨l, hn.congr hs (hr (Set.mem_insert ..)),
      hst.congr hs ((Set.subset_insert ..).trans hr), rfl⟩
  | pfx bytes child ih =>
    obtain ⟨c, fpc, hn, hc, hfresh, rfl⟩ := h
    exact ⟨c, fpc, hn.congr hs (hr (Set.mem_insert ..)), ih hc ((Set.subset_insert ..).trans hr),
      hfresh, rfl⟩
  | inner has child ih =>
    obtain ⟨n, fps, hn, hw, hhas, hc, hempty, hdis, hfresh, rfl⟩ := h
    refine ⟨n, fps, hn.congr hs (hr (Set.mem_insert ..)), hw, hhas, fun b c hf => ?_, hempty,
      hdis, hfresh, rfl⟩
    exact ih b (hc b c hf) ((Set.subset_iUnion fps b).trans ((Set.subset_insert ..).trans hr))
  | blob bytes guid =>
    obtain ⟨hn, rfl⟩ := h
    exact ⟨hn.congr hs (hr rfl), rfl⟩

theorem Rep.same {F F' : Frame} {R : Set Cell} (h : Rep F t s fp) (hs : Same F F' R) (hr : fp ⊆ R) :
    Rep F' t s fp :=
  h.congr hs.agrees hr

theorem Rep.slot_mem {F : Frame} (h : Rep F t s fp) : .slot s ∈ fp := by
  cases t with
  | emptyRoot => exact h.2 ▸ rfl
  | leaf r =>
    obtain ⟨l, -, -, rfl⟩ := h
    exact Set.mem_insert ..
  | pfx bytes child =>
    obtain ⟨c, fpc, -, -, -, rfl⟩ := h
    exact Set.mem_insert ..
  | inner has child =>
    obtain ⟨n, fps, -, -, -, -, -, -, -, rfl⟩ := h
    exact Set.mem_insert ..
  | blob bytes guid => exact h.2 ▸ rfl

theorem NodeAt.ne_zero {F : Frame} {b : Body} (h : F.NodeAt s b) : s ≠ 0 :=
  (typed_iff.mp h.1).1

/-- The body a tree's root slot holds has the kind of the tree's root. -/
theorem Rep.node {F : Frame} (h : Rep F t s fp) : ∃ b, F.NodeAt s b := by
  cases t with
  | emptyRoot => exact ⟨_, h.1⟩
  | leaf r =>
    obtain ⟨l, hn, -⟩ := h
    exact ⟨_, hn⟩
  | pfx bytes child =>
    obtain ⟨c, fpc, hn, -⟩ := h
    exact ⟨_, hn⟩
  | inner has child =>
    obtain ⟨n, fps, hn, -⟩ := h
    exact ⟨_, hn⟩
  | blob bytes guid => exact ⟨_, h.1⟩

theorem Rep.ne_zero {F : Frame} (h : Rep F t s fp) : s ≠ 0 :=
  h.node.choose_spec.ne_zero

/-! ## Children of an inner node -/

/-- The cells of all children but the one at byte `b`. -/
def others (fps : UInt8 → Set Cell) (b : UInt8) : Set Cell := {x | ∃ b', b' ≠ b ∧ x ∈ fps b'}

theorem mem_iUnion_iff {fps : UInt8 → Set Cell} (b : UInt8) {x : Cell} :
    x ∈ ⋃ b', fps b' ↔ x ∈ fps b ∨ x ∈ others fps b := by
  rw [Set.mem_iUnion]
  constructor
  · rintro ⟨b', hx⟩
    by_cases hb : b' = b
    · exact Or.inl (hb ▸ hx)
    · exact Or.inr ⟨b', hb, hx⟩
  · rintro (hx | ⟨b', -, hx⟩)
    · exact ⟨b, hx⟩
    · exact ⟨b', hx⟩

theorem iUnion_eq_others (fps : UInt8 → Set Cell) (b : UInt8) :
    ⋃ b', fps b' = fps b ∪ others fps b :=
  Set.ext fun _ => mem_iUnion_iff b

theorem iUnion_update (fps : UInt8 → Set Cell) (b : UInt8) (fpb : Set Cell) :
    ⋃ b', Function.update fps b fpb b' = fpb ∪ others fps b := by
  rw [iUnion_eq_others _ b, Function.update_self]
  congr 1
  ext x
  constructor <;> rintro ⟨b', hb, hx⟩ <;> exact ⟨b', hb, by simpa [hb] using hx⟩

/-- The children of `n` hold the trees `child`, each in its own cells. -/
structure Kids (F : Frame) (n : Inner) (has : UInt8 → Bool) (child : UInt8 → Art)
    (fps : UInt8 → Set Cell) : Prop where
  wf : n.Wf
  has_eq : ∀ b, (n.findChild b).isSome = has b
  rep : ∀ b c, n.findChild b = some c → F.Rep (child b) c (fps b)
  empty : ∀ b, has b = false → fps b = ∅
  disjoint : ∀ b b', b ≠ b' → Disjoint (fps b) (fps b')

theorem rep_inner_iff {F : Frame} {has : UInt8 → Bool} {child : UInt8 → Art} :
    F.Rep (.inner has child) s fp ↔ ∃ n fps, F.NodeAt s (.inner n) ∧
      F.Kids n has child fps ∧ (.slot s ∉ ⋃ b, fps b) ∧ fp = insert (.slot s) (⋃ b, fps b) := by
  simp only [Set.mem_iUnion, not_exists]
  constructor
  · rintro ⟨n, fps, hn, hw, hh, hr, he, hd, hs, hfp⟩
    exact ⟨n, fps, hn, ⟨hw, hh, hr, he, hd⟩, hs, hfp⟩
  · rintro ⟨n, fps, hn, hk, hs, hfp⟩
    exact ⟨n, fps, hn, hk.wf, hk.has_eq, hk.rep, hk.empty, hk.disjoint, hs, hfp⟩

namespace Kids

variable {F F' : Frame} {n n' : Inner} {has : UInt8 → Bool} {child : UInt8 → Art}
  {fps : UInt8 → Set Cell} {R : Set Cell}

theorem same (h : F.Kids n has child fps) (hs : F.Same F' R) (hr : ⋃ b, fps b ⊆ R) :
    F'.Kids n has child fps :=
  ⟨h.wf, h.has_eq, fun b c hf => (h.rep b c hf).same hs ((Set.subset_iUnion fps b).trans hr),
    h.empty, h.disjoint⟩

theorem disjoint_others (h : F.Kids n has child fps) (b : UInt8) :
    Disjoint (fps b) (others fps b) := by
  rw [Set.disjoint_left]
  rintro x hx ⟨b', hb, hx'⟩
  exact Set.disjoint_left.mp (h.disjoint b b' (Ne.symm hb)) hx hx'

/-- The cells around the child at `b`, seen from that child. -/
theorem split {s : Slot} (h : F.Kids n has child fps) (hs : .slot s ∉ ⋃ b, fps b)
    (hd : Disjoint R (insert (.slot s) (⋃ b, fps b))) (b : UInt8) :
    R ∪ insert (.slot s) (⋃ b, fps b) = insert (.slot s) (R ∪ others fps b) ∪ fps b ∧
    Disjoint (insert (.slot s) (R ∪ others fps b)) (fps b) ∧ .slot s ∉ others fps b ∧
    Disjoint R (others fps b) := by
  obtain ⟨-, hd⟩ := Set.disjoint_insert_right.mp hd
  rw [iUnion_eq_others fps b] at hs hd ⊢
  obtain ⟨hdb, hdo⟩ := Set.disjoint_union_right.mp hd
  rw [Set.mem_union, not_or] at hs
  refine ⟨?_, ?_, hs.2, hdo⟩
  · rw [Set.union_insert, Set.insert_union, Set.union_comm (fps b), Set.union_assoc]
  · rw [Set.disjoint_insert_left, Set.disjoint_union_left]
    exact ⟨hs.1, hdb, (h.disjoint_others b).symm⟩

variable {b : UInt8}

theorem findChild_none (h : F.Kids n has child fps) (hb : has b = false) :
    n.findChild b = none := by
  rw [← Option.not_isSome_iff_eq_none, h.has_eq, hb]
  exact Bool.false_ne_true

theorem findChild_some (h : F.Kids n has child fps) (hb : has b = true) :
    ∃ c, n.findChild b = some c :=
  Option.isSome_iff_exists.mp ((h.has_eq b).trans hb)

/-- A changed or new child, with the others where they were. -/
theorem replace {c : Slot} {t : Art} {fpb : Set Cell} (h : F.Kids n has child fps)
    (hs : F.Same F' R) (hr : others fps b ⊆ R) (hu : n.Updated n' b c) (ht : F'.Rep t c fpb)
    (hd : Disjoint (others fps b) fpb) :
    F'.Kids n' (Function.update has b true) (Function.update child b t)
      (Function.update fps b fpb) := by
  have hother : ∀ b', b' ≠ b → fps b' ⊆ others fps b := fun b' hb x hx => ⟨b', hb, hx⟩
  have hdis : ∀ b', b' ≠ b → Disjoint (fps b') fpb := fun b' hb => hd.mono_left (hother b' hb)
  refine ⟨hu.1, fun b' => ?_, fun b' c' hf => ?_, fun b' hh => ?_, fun b₁ b₂ hne => ?_⟩
  · rw [hu.2]
    by_cases hb : b' = b
    · simp [hb]
    · simpa [hb] using h.has_eq b'
  · rw [hu.2] at hf
    by_cases hb : b' = b
    · subst hb
      simp only [if_true, Option.some.injEq] at hf
      subst hf
      simpa using ht
    · simp only [if_neg hb] at hf
      simpa [hb] using (h.rep b' c' hf).same hs ((hother b' hb).trans hr)
  · by_cases hb : b' = b
    · simp [hb] at hh
    · simpa [hb] using h.empty b' (by simpa [hb] using hh)
  · by_cases h₁ : b₁ = b
    · subst h₁
      simpa [hne.symm] using (hdis b₂ hne.symm).symm
    · by_cases h₂ : b₂ = b
      · subst h₂
        simpa [hne] using hdis b₁ hne
      · simpa [h₁, h₂] using h.disjoint b₁ b₂ hne

/-- A node of another kind with the same children. -/
theorem of_findChild_eq (h : F.Kids n has child fps) (hw : n'.Wf)
    (hf : ∀ b, n'.findChild b = n.findChild b) : F.Kids n' has child fps :=
  ⟨hw, fun b => by rw [hf, h.has_eq], fun b c hc => h.rep b c (hf b ▸ hc), h.empty, h.disjoint⟩

end Kids

/-- No way down is longer than the number of slots it may use. -/
theorem Rep.height_le {F : Frame} (h : Rep F t s fp) {S : Finset Nat}
    (hS : ∀ x, .slot x ∈ fp → x ∈ S) : t.height ≤ S.card := by
  induction t generalizing s fp S with
  | pfx bytes child ih =>
    obtain ⟨c, fpc, -, hc, hfresh, rfl⟩ := h
    have hs : s ∈ S := hS s (Set.mem_insert ..)
    have := ih hc (S := S.erase s) fun x hx => Finset.mem_erase.mpr
      ⟨fun he => hfresh (he ▸ hx), hS x (Set.mem_insert_of_mem _ hx)⟩
    rw [Finset.card_erase_of_mem hs] at this
    have hpos := Finset.card_pos.mpr ⟨s, hs⟩
    simp only [Art.height]
    omega
  | inner has child ih =>
    obtain ⟨n, fps, -, -, hhas, hc, -, -, hfresh, rfl⟩ := h
    have hs : s ∈ S := hS s (Set.mem_insert ..)
    have hpos := Finset.card_pos.mpr ⟨s, hs⟩
    have hle : ((allBytes.map fun b => if has b then (child b).height else 0).foldr max 0) ≤
        (S.erase s).card := by
      rw [Art.foldr_max_le_iff]
      intro x hx
      obtain ⟨b, -, rfl⟩ := List.mem_map.mp hx
      split
      · rename_i hb
        obtain ⟨c, hf⟩ := Option.isSome_iff_exists.mp ((hhas b).trans hb)
        refine ih b (hc b c hf) fun x hx => Finset.mem_erase.mpr
          ⟨fun he => hfresh b (he ▸ hx), hS x (Set.mem_insert_of_mem _ ?_)⟩
        exact Set.mem_iUnion_of_mem b hx
      · exact Nat.zero_le _
    rw [Finset.card_erase_of_mem hs] at hle
    simp only [Art.height]
    omega
  | emptyRoot => exact Finset.card_pos.mpr ⟨s, hS s h.slot_mem⟩
  | leaf r => exact Finset.card_pos.mpr ⟨s, hS s h.slot_mem⟩
  | blob bytes guid => exact Finset.card_pos.mpr ⟨s, hS s h.slot_mem⟩

/-- The recursion bound the walkers use is never reached. -/
theorem Rep.height_lt {F : Frame} {U : Set Cell} (h : Rep F t s fp) (ha : Alloc F U) (hu : fp ⊆ U) :
    t.height < F.numSlots + 1 := by
  have := h.height_le (S := Finset.Icc 1 F.numSlots) fun x hx => Finset.mem_Icc.mpr
    ⟨Nat.one_le_iff_ne_zero.mpr (ha.used_slot x (hu hx)).1, (ha.used_slot x (hu hx)).2⟩
  rw [Nat.card_Icc] at this
  omega

/-! ## One slot, one tree -/

theorem NodeAt.unique {F : Frame} {b b' : Body} (h : F.NodeAt s b) (h' : F.NodeAt s b') : b = b' :=
  Option.some.inj (h.bodyOfSlot.symm.trans h'.bodyOfSlot)

end Frame

end Holt
