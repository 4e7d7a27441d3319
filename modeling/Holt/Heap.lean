import Holt.Allocation
import Holt.Lib.Machine
import Mathlib.Tactic.Common

/-! The allocator of one blob as a machine: nodes and extents are handed out, nodes are given
back. Beside the frame the machine remembers what became of each slot and each byte. -/

namespace Holt

open Holt.Lib

/-- Bytes handed out: where they start and how many there are. -/
structure Area where
  start : Nat
  size : Nat
  deriving DecidableEq, Repr

namespace Area

def stop (a : Area) : Nat := a.start + a.size

/-- The two share no byte. -/
def Apart (a b : Area) : Prop := a.stop ≤ b.start ∨ b.stop ≤ a.start

/-- An aligned area of the data region that ends by `limit`. -/
structure Inside (a : Area) (limit : Nat) : Prop where
  start_le : dataAreaStart ≤ a.start
  aligned : a.start % 8 = 0
  stop_le : a.stop ≤ limit

variable {a : Area}

theorem Apart.symm {b : Area} (h : a.Apart b) : b.Apart a := Or.symm h

theorem Inside.mono {limit limit' : Nat} (h : a.Inside limit) (hle : limit ≤ limit') :
    a.Inside limit' :=
  ⟨h.start_le, h.aligned, h.stop_le.trans hle⟩

/-- What is cut off at the limit overlaps nothing below it. -/
theorem Inside.apart {limit : Nat} (h : a.Inside limit) (size : Nat) : a.Apart ⟨limit, size⟩ :=
  Or.inl h.stop_le

end Area

/-- What became of a slot. A freed one waits on the list of the type it had. -/
inductive Tenure
  | unused
  | live (ntype : NodeType)
  | freed (ntype : NodeType)
  deriving DecidableEq, Repr

namespace Tenure

/-- The type of the body the slot has room for. -/
def body : Tenure → Option NodeType
  | .unused => none
  | .live ntype => some ntype
  | .freed ntype => some ntype

def isLive : Tenure → Bool
  | .live _ => true
  | _ => false

def release : Tenure → Tenure
  | .live ntype => .freed ntype
  | t => t

end Tenure

structure Heap where
  frame : Frame
  tenure : Slot → Tenure
  /-- Where a slot's body was put when the slot was first handed out. -/
  place : Slot → Nat
  extents : List Area

namespace Heap

inductive Call
  | allocNode (ntype : NodeType)
  | allocExtent (size : Nat)
  | freeNode (slot : Slot)
  deriving DecidableEq, Repr

/-- A fresh blob has handed out its root sentinel. -/
def init (guid : BlobGuid) : Except Error Heap :=
  match Frame.init guid with
  | .error e => .error e
  | .ok F => .ok
    { frame := F
      tenure := Function.update (fun _ => .unused) F.rootSlot (.live .emptyRoot)
      place := fun _ => dataAreaStart
      extents := [] }

def call (H : Heap) : Call → Heap
  | .allocNode ntype =>
    match Frame.allocNode ntype H.frame with
    | .error _ F => { H with frame := F }
    | .ok slot F =>
      { H with
        frame := F
        tenure := Function.update H.tenure slot (.live ntype)
        place := if H.tenure slot = .unused then
          Function.update H.place slot H.frame.spaceUsed else H.place }
  | .allocExtent size =>
    match Frame.allocExtent size H.frame with
    | .error _ F => { H with frame := F }
    | .ok offset F => { H with frame := F, extents := ⟨offset, size⟩ :: H.extents }
  | .freeNode slot =>
    match Frame.freeNode slot H.frame with
    | .error _ F => { H with frame := F }
    | .ok _ F =>
      { H with
        frame := F
        tenure := Function.update H.tenure slot (H.tenure slot).release }

def step (H : Heap) (c : Call) : Option Heap := some (H.call c)

/-- Callers free what they hold, and ask for extents of 1 to 2^18 bytes. -/
def Proper (H : Heap) : Call → Prop
  | .allocNode _ => True
  | .allocExtent size => 1 ≤ size ∧ size ≤ 2 ^ 18
  | .freeNode slot => (H.tenure slot).isLive

instance (H : Heap) (c : Call) : Decidable (H.Proper c) := by
  unfold Proper
  cases c <;> infer_instance

/-- The bytes of the body that a live or freed slot owns. -/
def BodyAt (H : Heap) (s : Slot) (a : Area) : Prop :=
  ∃ t ∈ (H.tenure s).body, a = ⟨H.place s, sizeOfNode t⟩

/-- No two areas share a byte, and all lie in the used part of the data region. -/
structure Laid (H : Heap) : Prop where
  start_le : dataAreaStart ≤ H.frame.spaceUsed
  space_le : H.frame.spaceUsed ≤ pageSize
  aligned : H.frame.spaceUsed % 8 = 0
  bodies_inside : ∀ s a, H.BodyAt s a → a.Inside H.frame.spaceUsed
  extents_inside : ∀ a ∈ H.extents, a.Inside H.frame.spaceUsed
  bodies_apart : ∀ s s' a a', s ≠ s' → H.BodyAt s a → H.BodyAt s' a' → a.Apart a'
  extents_apart : H.extents.Pairwise Area.Apart
  apart : ∀ s a, H.BodyAt s a → ∀ x ∈ H.extents, a.Apart x

/-- The allocator's invariant. -/
structure Safe (H : Heap) : Prop extends H.Laid where
  slots_le : H.frame.numSlots ≤ maxSlots
  unused_iff : ∀ s, H.tenure s = .unused ↔ s = 0 ∨ H.frame.numSlots < s
  valid : ∀ s t, t ∈ (H.tenure s).body → t ≠ .invalid
  /-- The lists are finite chains without repetition that share no slot, and they hold exactly
  the slots that were freed and not handed out again. -/
  lists : ∃ fl, H.frame.FreeLists fl ∧ ∀ t s, s ∈ fl t ↔ H.tenure s = .freed t
  live_entry : ∀ s t, H.tenure s = .live t → H.frame.slotEntry s = some (.live t (H.place s))
  freed_entry : ∀ s t, H.tenure s = .freed t →
    ∃ next, H.frame.slotEntry s = some (.freed next (H.place s))

/-! ## Areas -/

variable {F' : Frame} {H H' : Heap} {e : SlotEntry} {guid : BlobGuid} {s : Slot} {size : Nat}
  {t : NodeType}

theorem Laid.same (h : H.Laid) (hbody : ∀ s a, H'.BodyAt s a → H.BodyAt s a)
    (hextents : H'.extents = H.extents) (hspace : H'.frame.spaceUsed = H.frame.spaceUsed) :
    H'.Laid where
  start_le := hspace ▸ h.start_le
  space_le := hspace ▸ h.space_le
  aligned := hspace ▸ h.aligned
  bodies_inside s a ha := hspace ▸ h.bodies_inside s a (hbody s a ha)
  extents_inside := by
    rw [hextents, hspace]
    exact h.extents_inside
  bodies_apart s s' a a' hne ha ha' := h.bodies_apart s s' a a' hne (hbody s a ha) (hbody s' a' ha')
  extents_apart := hextents ▸ h.extents_apart
  apart s a ha := hextents ▸ h.apart s a (hbody s a ha)

/-- A new body at the end of the used part. -/
theorem Laid.body (h : H.Laid)
    (hbody : ∀ x a, H'.BodyAt x a → x = s ∧ a = ⟨H.frame.spaceUsed, size⟩ ∨ H.BodyAt x a)
    (hextents : H'.extents = H.extents) (hspace : H'.frame.spaceUsed = H.frame.spaceUsed + size)
    (hsize : size % 8 = 0) (hfit : H.frame.spaceUsed + size ≤ pageSize) : H'.Laid where
  start_le := by have := h.start_le; omega
  space_le := by omega
  aligned := by have := h.aligned; omega
  bodies_inside x a ha := by
    rw [hspace]
    rcases hbody x a ha with ⟨-, rfl⟩ | ha
    · exact ⟨h.start_le, h.aligned, le_rfl⟩
    · exact (h.bodies_inside x a ha).mono (Nat.le_add_right ..)
  extents_inside a ha := by
    rw [hextents] at ha
    rw [hspace]
    exact (h.extents_inside a ha).mono (Nat.le_add_right ..)
  bodies_apart x x' a a' hne ha ha' := by
    rcases hbody x a ha with ⟨rfl, rfl⟩ | ha
    · rcases hbody x' a' ha' with ⟨rfl, -⟩ | ha'
      · exact absurd rfl hne
      · exact ((h.bodies_inside x' a' ha').apart size).symm
    · rcases hbody x' a' ha' with ⟨-, rfl⟩ | ha'
      · exact (h.bodies_inside x a ha).apart size
      · exact h.bodies_apart x x' a a' hne ha ha'
  extents_apart := hextents ▸ h.extents_apart
  apart x a ha e he := by
    rw [hextents] at he
    rcases hbody x a ha with ⟨-, rfl⟩ | ha
    · exact ((h.extents_inside e he).apart size).symm
    · exact h.apart x a ha e he

/-- A new extent at the end of the used part; its tail is padded to `size`. -/
theorem Laid.extent (h : H.Laid) {len : Nat} (hbody : ∀ s a, H'.BodyAt s a → H.BodyAt s a)
    (hextents : H'.extents = ⟨H.frame.spaceUsed, len⟩ :: H.extents) (hlen : len ≤ size)
    (hspace : H'.frame.spaceUsed = H.frame.spaceUsed + size) (hsize : size % 8 = 0)
    (hfit : H.frame.spaceUsed + size ≤ pageSize) : H'.Laid where
  start_le := by have := h.start_le; omega
  space_le := by omega
  aligned := by have := h.aligned; omega
  bodies_inside s a ha := by
    rw [hspace]
    exact (h.bodies_inside s a (hbody s a ha)).mono (Nat.le_add_right ..)
  extents_inside a ha := by
    rw [hextents] at ha
    rw [hspace]
    rcases List.mem_cons.mp ha with rfl | ha
    · exact ⟨h.start_le, h.aligned, Nat.add_le_add_left hlen _⟩
    · exact (h.extents_inside a ha).mono (Nat.le_add_right ..)
  bodies_apart s s' a a' hne ha ha' := h.bodies_apart s s' a a' hne (hbody s a ha) (hbody s' a' ha')
  extents_apart := by
    rw [hextents]
    refine List.pairwise_cons.mpr ⟨fun e he => ?_, h.extents_apart⟩
    exact ((h.extents_inside e he).apart len).symm
  apart s a ha e he := by
    rw [hextents] at he
    have ha := hbody s a ha
    rcases List.mem_cons.mp he with rfl | he
    · exact (h.bodies_inside s a ha).apart len
    · exact h.apart s a ha e he

/-! ## Slots -/

/-- A body starts inside the page, at a multiple of eight. -/
theorem Safe.place_lt (h : H.Safe) (ht : t ∈ (H.tenure s).body) :
    H.place s < pageSize ∧ H.place s % 8 = 0 := by
  have hin := h.bodies_inside s _ ⟨t, ht, rfl⟩
  have hpos := Frame.sizeOfNode_pos (h.valid s t ht)
  have hstop : H.place s + sizeOfNode t ≤ H.frame.spaceUsed := hin.stop_le
  have hspace := h.space_le
  exact ⟨by omega, hin.aligned⟩

theorem Safe.in_table (h : H.Safe) (hs : H.tenure s ≠ .unused) : s ≠ 0 ∧ s ≤ H.frame.numSlots := by
  have hs := mt (h.unused_iff s).mpr hs
  push Not at hs
  exact hs

/-- A slot the call does not write keeps its entry. -/
theorem slotEntry_keep {F : Frame} {x : Slot} {w : Nat}
    (hslots : F'.slots = Function.update F.slots s w) (hne : x ≠ s) (hx : x ≤ F.numSlots)
    (hn : F.numSlots ≤ F'.numSlots) : F'.slotEntry x = F.slotEntry x := by
  unfold Frame.slotEntry
  rw [hslots, Function.update_of_ne hne]
  simp [not_lt.mpr hx, not_lt.mpr (hx.trans hn)]

theorem slotEntry_written {F : Frame} (hslots : F'.slots = Function.update F.slots s e.raw)
    (h0 : s ≠ 0) (hs : s ≤ F'.numSlots) (hdec : SlotEntry.decode e.raw = e) :
    F'.slotEntry s = some e := by
  rw [Frame.slotEntry_of_ne h0 hs, hslots, Function.update_self, hdec]

/-! ## One call -/

/-- A call writes the entry of one slot, `s`. What the entry says of that slot, the areas and
the free lists are the call's own; every other slot is as before. -/
theorem Safe.writes (h : H.Safe) {place' : Slot → Nat} {now : Tenure} {extents : List Area}
    (hlaid : Laid ⟨F', Function.update H.tenure s now, place', extents⟩)
    (hplace : ∀ x, x ≠ s → place' x = H.place x)
    (hslots : F'.slots = Function.update H.frame.slots s e.raw)
    (hdec : SlotEntry.decode e.raw = e) (h0 : s ≠ 0) (hs : s ≤ F'.numSlots)
    (hmax : F'.numSlots ≤ maxSlots) (hn : H.frame.numSlots ≤ F'.numSlots)
    (hnew : ∀ x, x ≠ s → H.frame.numSlots < x → F'.numSlots < x)
    (hvalid : ∀ t ∈ now.body, t ≠ .invalid)
    (hentry : (∃ t, now = .live t ∧ e = .live t (place' s)) ∨
      ∃ t next, now = .freed t ∧ e = .freed next (place' s))
    (hlists : ∃ fl, F'.FreeLists fl ∧
      ∀ t x, x ∈ fl t ↔ Function.update H.tenure s now x = .freed t) :
    Safe ⟨F', Function.update H.tenure s now, place', extents⟩ := by
  have hwritten : F'.slotEntry s = some e := slotEntry_written hslots h0 hs hdec
  have hkeep : ∀ x, x ≠ s → H.tenure x ≠ .unused → F'.slotEntry x = H.frame.slotEntry x :=
    fun x hx hu => slotEntry_keep hslots hx (h.in_table hu).2 hn
  refine ⟨hlaid, hmax, ?_, ?_, hlists, ?_, ?_⟩
  · intro x
    by_cases hx : x = s
    · subst hx
      simp only [Function.update_self]
      rcases hentry with ⟨t, rfl, -⟩ | ⟨t, next, rfl, -⟩ <;> simp [h0, hs]
    · simp only [Function.update_of_ne hx, h.unused_iff x]
      exact or_congr_right ⟨hnew x hx, fun hlt => hn.trans_lt hlt⟩
  · intro x t ht
    by_cases hx : x = s
    · subst hx
      simp only [Function.update_self] at ht
      exact hvalid t ht
    · simp only [Function.update_of_ne hx] at ht
      exact h.valid x t ht
  · intro x t ht
    by_cases hx : x = s
    · subst hx
      simp only [Function.update_self] at ht
      rcases hentry with ⟨t', rfl, rfl⟩ | ⟨t', next, rfl, -⟩
      · cases ht
        exact hwritten
      · cases ht
    · simp only [Function.update_of_ne hx] at ht
      change F'.slotEntry x = some (.live t (place' x))
      rw [hkeep x hx (ht ▸ Tenure.noConfusion), hplace x hx]
      exact h.live_entry x t ht
  · intro x t ht
    by_cases hx : x = s
    · subst hx
      simp only [Function.update_self] at ht
      rcases hentry with ⟨t', rfl, -⟩ | ⟨t', next, rfl, rfl⟩
      · cases ht
      · exact ⟨next, hwritten⟩
    · simp only [Function.update_of_ne hx] at ht
      change ∃ next, F'.slotEntry x = some (.freed next (place' x))
      rw [hkeep x hx (ht ▸ Tenure.noConfusion), hplace x hx]
      exact h.freed_entry x t ht

/-- The bodies stay where they are when a slot changes hands for one of the same size. -/
theorem bodyAt_update {now : Tenure} {t' : NodeType} (ht : t ∈ (H.tenure s).body)
    (ht' : now.body = some t') (hsize : sizeOfNode t = sizeOfNode t') (x : Slot) (a : Area)
    (ha : BodyAt { H with frame := F', tenure := Function.update H.tenure s now } x a) :
    H.BodyAt x a := by
  obtain ⟨k, hk, rfl⟩ := ha
  by_cases hx : x = s
  · subst hx
    simp only [Function.update_self, ht', Option.mem_some_iff] at hk
    subst hk
    exact ⟨t, ht, by simp only [hsize]⟩
  · simp only [Function.update_of_ne hx] at hk
    exact ⟨k, hk, rfl⟩

/-- The slot at the head of a list was freed from it. -/
theorem Safe.head_freed (h : H.Safe) {list : NodeType} (h0 : H.frame.freeListHead list ≠ 0) :
    H.tenure (H.frame.freeListHead list) = .freed list := by
  obtain ⟨fl, hfl, hfree⟩ := h.lists
  obtain ⟨rest, hl, -⟩ := (hfl.chain list).head_mem h0
  exact (hfree list _).mp (hl ▸ List.mem_cons_self)

theorem Safe.lists_take (h : H.Safe) (ht : H.frame.Settles F' t s) : ∃ fl, F'.FreeLists fl ∧
    ∀ k x, x ∈ fl k ↔ Function.update H.tenure s (.live t) x = .freed k := by
  obtain ⟨fl, hfl, hfree⟩ := h.lists
  obtain ⟨fl', hfl', hmem⟩ := ht.freeLists hfl
  refine ⟨fl', hfl', fun k x => ?_⟩
  rw [hmem, hfree]
  by_cases hx : x = s <;> simp [hx]

/-- A freed slot is handed out again where it was. -/
theorem Safe.pop (h : H.Safe) {list : NodeType} (ht : H.frame.Settles F' t s)
    (hp : H.frame.Pops F' list t s e) :
    Safe { H with frame := F', tenure := Function.update H.tenure s (.live t) } := by
  have hs : H.tenure s = .freed list := hp.head ▸ h.head_freed (hp.head ▸ hp.ne_zero)
  obtain ⟨h0, hle, rfl⟩ := Frame.slotEntry_inv hp.entry
  have hbody : list ∈ (H.tenure s).body := by
    rw [hs]
    rfl
  have hplace := h.place_lt hbody
  have hslots := hp.slots
  rw [show (SlotEntry.decode (H.frame.slots s)).byteOffset = H.place s by
    obtain ⟨next, he⟩ := h.freed_entry _ list hs
    rw [hp.entry, Option.some.injEq] at he
    rw [he, SlotEntry.byteOffset_freed _ hplace.2]] at hslots
  apply h.writes
  · exact h.toLaid.same (bodyAt_update hbody rfl hp.size) rfl hp.spaceUsed
  · exact fun _ _ => rfl
  · exact hslots
  · exact SlotEntry.decode_live t hplace.1
  · exact h0
  · exact hp.numSlots ▸ hle
  · exact hp.numSlots ▸ h.slots_le
  · exact hp.numSlots.ge
  · exact fun x _ hx => hp.numSlots ▸ hx
  · rintro k hk
    exact Option.mem_some_iff.mp hk ▸ ht.valid
  · exact Or.inl ⟨t, rfl, rfl⟩
  · exact h.lists_take ht

/-- A slot never used before gets the bytes at the end of the used part. -/
theorem Safe.bump (h : H.Safe) (ht : H.frame.Settles F' t s) (hb : H.frame.Bumps F' t s) :
    H.tenure s = .unused ∧
      Safe { H with
        frame := F'
        tenure := Function.update H.tenure s (.live t)
        place := Function.update H.place s H.frame.spaceUsed } := by
  have hpos := Frame.sizeOfNode_pos ht.valid
  have hspace := h.space_le
  have hfit : H.frame.spaceUsed + sizeOfNode t ≤ pageSize := by
    have hfits := hb.fits
    unfold Frame.nodeAvail at hfits
    split at hfits <;> omega
  refine ⟨(h.unused_iff _).mpr (Or.inr (hb.slot ▸ Nat.lt_succ_self _)), ?_⟩
  apply h.writes
  · refine h.toLaid.body (s := s) (fun x a ha => ?_) rfl hb.spaceUsed (sizeOfNode_mod t) hfit
    obtain ⟨k, hk, rfl⟩ := ha
    by_cases hx : x = s
    · subst hx
      simp only [Function.update_self, Tenure.body, Option.mem_some_iff] at hk ⊢
      exact Or.inl ⟨trivial, by rw [hk]⟩
    · simp only [Function.update_of_ne hx] at hk ⊢
      exact Or.inr ⟨k, hk, rfl⟩
  · exact fun x hx => Function.update_of_ne hx _ _
  · exact hb.slots
  · exact SlotEntry.decode_live t (by omega)
  · exact hb.slot ▸ Nat.succ_ne_zero _
  · exact (hb.slot.trans hb.numSlots.symm).le
  · exact hb.numSlots ▸ hb.room
  · exact hb.numSlots ▸ Nat.le_succ _
  · intro x hx hlt
    rw [hb.numSlots, ← hb.slot]
    exact Nat.lt_of_le_of_ne (hb.slot ▸ hlt) (Ne.symm hx)
  · rintro k hk
    exact Option.mem_some_iff.mp hk ▸ ht.valid
  · exact Or.inl ⟨t, rfl, by rw [Function.update_self]⟩
  · exact h.lists_take ht

/-- A live slot waits on the list of its type. -/
theorem Safe.push (h : H.Safe) {k : NodeType} (hs : H.tenure s = .live k)
    (hp : H.frame.Pushes F' s e t) :
    Safe { H with frame := F', tenure := Function.update H.tenure s (.freed k) } := by
  have hentry := h.live_entry s k hs
  rw [hp.entry, Option.some.injEq] at hentry
  subst hentry
  have hk : k = t := by
    have htype := hp.nodeType
    rwa [SlotEntry.nodeType_live, Option.some.injEq] at htype
  subst hk
  obtain ⟨h0, hle, -⟩ := Frame.slotEntry_inv hp.entry
  have hbody : k ∈ (H.tenure s).body := by
    rw [hs]
    rfl
  have hplace := h.place_lt hbody
  have hoff := SlotEntry.byteOffset_live k hplace.2
  have hslots := hp.slots
  rw [hoff] at hslots
  obtain ⟨fl, hfl, hfree⟩ := h.lists
  have hfit : (SlotEntry.live k (H.place s)).byteOffset + sizeOfNode k ≤ pageSize := by
    rw [hoff]
    exact (h.bodies_inside s _ ⟨k, hbody, rfl⟩).stop_le.trans h.space_le
  obtain ⟨fl', hfl', hmem⟩ := hp.freeLists hfl (fun k' hm => by simp [hfree, hs] at hm) hfit
    h.slots_le
  apply h.writes
  · exact h.toLaid.same (bodyAt_update hbody rfl rfl) rfl hp.spaceUsed
  · exact fun _ _ => rfl
  · exact hslots
  · exact SlotEntry.decode_freed ((hfl.head_le k).trans h.slots_le) hplace.1
  · exact h0
  · exact hp.numSlots ▸ hle
  · exact hp.numSlots ▸ h.slots_le
  · exact hp.numSlots.ge
  · exact fun x _ hx => hp.numSlots ▸ hx
  · rintro k' hk'
    exact Option.mem_some_iff.mp hk' ▸ hp.valid
  · exact Or.inr ⟨k, _, rfl, rfl⟩
  · refine ⟨fl', hfl', fun k' x => ?_⟩
    rw [hmem, hfree]
    by_cases hx : x = s <;> simp [hx, hs, eq_comm]

/-- An extent touches no slot. -/
theorem Safe.extent (h : H.Safe) (hfit : H.frame.spaceUsed + (size + 7) / 8 * 8 ≤ pageSize) :
    Safe { H with
      frame := { H.frame with spaceUsed := H.frame.spaceUsed + (size + 7) / 8 * 8 }
      extents := ⟨H.frame.spaceUsed, size⟩ :: H.extents } := by
  obtain ⟨fl, hfl, hfree⟩ := h.lists
  refine ⟨h.toLaid.extent (fun _ _ ha => ha) rfl ?_ rfl ?_ hfit, h.slots_le, h.unused_iff, h.valid,
    ⟨fl, hfl.congr rfl (fun _ _ _ => rfl) le_rfl, hfree⟩, h.live_entry, h.freed_entry⟩
  · omega
  · omega

/-- A freed slot or a new one is handed out, never a live one. -/
theorem Safe.take (h : H.Safe) (ht : H.frame.Settles F' t s) :
    (∀ k, H.tenure s ≠ .live k) ∧
      Safe { H with
        frame := F'
        tenure := Function.update H.tenure s (.live t)
        place := if H.tenure s = .unused then
          Function.update H.place s H.frame.spaceUsed else H.place } := by
  rcases ht.source with ⟨list, e, hp⟩ | hb
  · have hs : H.tenure s = .freed list := hp.head ▸ h.head_freed (hp.head ▸ hp.ne_zero)
    rw [if_neg (hs ▸ Tenure.noConfusion)]
    exact ⟨fun k hk => Tenure.noConfusion (hs.symm.trans hk), h.pop ht hp⟩
  · obtain ⟨hs, hsafe⟩ := h.bump ht hb
    rw [if_pos hs]
    exact ⟨fun k hk => Tenure.noConfusion (hs.symm.trans hk), hsafe⟩

/-- A call is refused and changes nothing, or it does one of these. -/
theorem call_cases {P : Heap → Prop} (H : Heap) (c : Call) (hsame : P H)
    (htake : ∀ t s F', c = .allocNode t → H.frame.Settles F' t s →
      P { H with
        frame := F'
        tenure := Function.update H.tenure s (.live t)
        place := if H.tenure s = .unused then
          Function.update H.place s H.frame.spaceUsed else H.place })
    (hextent : ∀ size,
      H.frame.spaceUsed + (size + 7) / 8 * 8 + spilloverReservation ≤ pageSize →
      P { H with
        frame := { H.frame with spaceUsed := H.frame.spaceUsed + (size + 7) / 8 * 8 }
        extents := ⟨H.frame.spaceUsed, size⟩ :: H.extents })
    (hfree : ∀ s F' e t, c = .freeNode s → H.frame.Pushes F' s e t →
      P { H with frame := F', tenure := Function.update H.tenure s (H.tenure s).release }) :
    P (H.call c) := by
  cases c with
  | allocNode t =>
    have heffect := Frame.allocNode_effect H.frame t
    unfold call
    dsimp only
    split
    · rename_i e F hr
      obtain ⟨rfl, -⟩ := heffect.of_error hr
      exact hsame
    · exact htake t _ _ rfl (heffect.of_ok (by assumption))
  | allocExtent size =>
    have heffect := Frame.allocExtent_effect H.frame size
    unfold call
    dsimp only
    split
    · rename_i e F hr
      obtain ⟨rfl, -⟩ := heffect.of_error hr
      exact hsame
    · rename_i off F hr
      obtain ⟨-, rfl, hfit, rfl⟩ := heffect.of_ok hr
      exact hextent size hfit
  | freeNode s =>
    have heffect := Frame.freeNode_effect H.frame s
    unfold call
    dsimp only
    split
    · rename_i e F hr
      obtain ⟨rfl, -⟩ := heffect.of_error hr
      exact hsame
    · rename_i F hr
      obtain ⟨e, t, hp, -⟩ := heffect.of_ok hr
      exact hfree s F e t rfl hp

theorem Safe.call (h : H.Safe) {c : Call} (hc : H.Proper c) : (H.call c).Safe := by
  apply call_cases H c h
  · exact fun t s F' _ ht => (h.take ht).2
  · exact fun size hfit => h.extent (by omega)
  · rintro s F' e t rfl hp
    change (H.tenure s).isLive at hc
    cases hs : H.tenure s with
    | live k => exact h.push hs hp
    | unused => rw [hs] at hc; cases hc
    | freed k => rw [hs] at hc; cases hc

/-- Only a blob node may end in the reserved tail. -/
theorem call_spaceUsed (H : Heap) {c : Call} (hc : c ≠ .allocNode .blob) :
    (H.call c).frame.spaceUsed = H.frame.spaceUsed ∨
      (H.call c).frame.spaceUsed + spilloverReservation ≤ pageSize := by
  apply call_cases (P := fun H' => H'.frame.spaceUsed = H.frame.spaceUsed ∨
    H'.frame.spaceUsed + spilloverReservation ≤ pageSize) H c (Or.inl rfl)
  · rintro t s F' rfl ht
    rcases ht.source with ⟨list, e, hp⟩ | hb
    · exact Or.inl hp.spaceUsed
    · right
      have hfits := hb.fits
      have hpos := Frame.sizeOfNode_pos ht.valid
      have hspace : F'.spaceUsed = _ := hb.spaceUsed
      rw [Frame.nodeAvail, if_neg fun he => hc (congrArg Call.allocNode he)] at hfits
      change F'.spaceUsed + _ ≤ _
      omega
  · exact fun size hfit => Or.inr hfit
  · exact fun s F' e t _ hp => Or.inl hp.spaceUsed

/-! ## Every run -/

theorem init_safe (h : init guid = .ok H) : H.Safe := by
  let blank : Heap := ⟨Frame.blank guid, fun _ => .unused, fun _ => dataAreaStart, []⟩
  have hblank : blank.Safe := by
    refine ⟨⟨le_rfl, show dataAreaStart ≤ pageSize by decide, show dataAreaStart % 8 = 0 by decide,
      ?_, ?_, ?_, List.Pairwise.nil, ?_⟩, Nat.zero_le _, ?_, ?_, ⟨fun _ => [], ?_, ?_⟩, ?_, ?_⟩
    · rintro s a ⟨t, ht, -⟩
      cases ht
    · exact fun a ha => nomatch ha
    · rintro s s' a a' - ⟨t, ht, -⟩
      cases ht
    · exact fun _ _ _ x hx => nomatch hx
    · intro s
      exact ⟨fun _ => Nat.eq_zero_or_pos s, fun _ => rfl⟩
    · exact fun s t ht => nomatch ht
    · refine ⟨fun _ => rfl, fun _ => List.nodup_nil, ?_, ?_⟩ <;> simp
    · simp [blank]
    · exact fun s t hs => nomatch hs
    · exact fun s t hs => nomatch hs
  have hroot := hblank.call (c := .allocNode .emptyRoot) trivial
  unfold init Frame.init at h
  unfold Heap.call at hroot
  dsimp only [blank] at hroot
  cases hr : Frame.allocNode .emptyRoot (Frame.blank guid) with
  | error e F =>
    rw [hr] at h
    cases h
  | ok s F =>
    rw [hr] at h hroot
    cases h
    simp only [if_true] at hroot
    have hplace : Function.update (fun _ : Slot => dataAreaStart) s (Frame.blank guid).spaceUsed =
        fun _ => dataAreaStart := Function.update_eq_self s _
    rw [hplace] at hroot
    obtain ⟨fl, hfl, hfree⟩ := hroot.lists
    exact ⟨{ hroot.toLaid with }, hroot.slots_le, hroot.unused_iff, hroot.valid,
      ⟨fl, hfl.congr rfl (fun _ _ _ => rfl) le_rfl, hfree⟩, hroot.live_entry, hroot.freed_entry⟩

theorem run_safe {H₀ : Heap} (hinit : init guid = .ok H₀) (hrun : Run step Proper H₀ H) :
    H.Safe := by
  refine hrun.invariant (init_safe hinit) ?_
  intro H H' c h hc hstep
  cases hstep
  exact h.call hc

/-- Whatever a blob is asked for, and whatever is given back to it, the invariant holds; the
next node it hands out is not in use, and the reserved tail is for blob nodes. -/
theorem allocator_safe {guid : BlobGuid} {H₀ H : Heap} (hinit : init guid = .ok H₀)
    (hrun : Run step Proper H₀ H) :
    H.Safe ∧
      (∀ t s F', Frame.allocNode t H.frame = .ok s F' → ∀ k, H.tenure s ≠ .live k) ∧
      ∀ c, c ≠ .allocNode .blob →
        (H.call c).frame.spaceUsed = H.frame.spaceUsed ∨
          (H.call c).frame.spaceUsed + spilloverReservation ≤ pageSize := by
  have hsafe := run_safe hinit hrun
  refine ⟨hsafe, fun t s F' hr => ?_, fun c hc => H.call_spaceUsed hc⟩
  exact (hsafe.take ((Frame.allocNode_effect H.frame t).of_ok hr)).1

/-- A prefix's slot comes back as a blob node's. -/
def reusing : List Call :=
  [.allocNode .leaf, .allocExtent 10, .allocNode .prefixNode, .freeNode 3, .allocNode .blob,
    .freeNode 2]

theorem init_any {p : Heap → Bool} (h : (init guid).toOption.any p = true) :
    ∃ H₀, init guid = .ok H₀ ∧ p H₀ = true := by
  cases hinit : init guid with
  | error e => simp [hinit, Except.toOption] at h
  | ok H₀ =>
    rw [hinit] at h
    exact ⟨H₀, rfl, h⟩

theorem allocator_safe_reusing : ∃ H₀ H, init 0 = .ok H₀ ∧ Run step Proper H₀ H ∧
    H.tenure 3 = .live .blob ∧ H.tenure 2 = .freed .leaf ∧ H.Safe := by
  have hplay : (init 0).toOption.any (fun H₀ => (play step Proper reusing H₀).any fun H =>
      decide (H.tenure 3 = .live .blob ∧ H.tenure 2 = .freed .leaf)) = true := by decide +kernel
  obtain ⟨H₀, hinit, hplay⟩ := init_any hplay
  obtain ⟨H, hH, hfacts⟩ := (Option.any_eq_true _ _).mp hplay
  have hfacts := of_decide_eq_true hfacts
  have hrun := run_of_play hH
  exact ⟨H₀, H, hinit, hrun, hfacts.1, hfacts.2, (allocator_safe hinit hrun).1⟩

end Heap

/-! ## Freed slots -/

namespace Frame

/-- The slots that the links of one free list lead to. -/
inductive OnFreeList (F : Frame) (list : NodeType) : Slot → Prop
  | head {e : SlotEntry} (entry : F.slotEntry (F.freeListHead list) = some e) :
      OnFreeList F list (F.freeListHead list)
  | next {s : Slot} {e e' : SlotEntry} (before : OnFreeList F list s)
      (link : F.slotEntry s = some e) (entry : F.slotEntry e.nextFree = some e') :
      OnFreeList F list e.nextFree

theorem OnFreeList.entry {F : Frame} {list : NodeType} {s : Slot} (h : F.OnFreeList list s) :
    ∃ e, F.slotEntry s = some e := by
  cases h with
  | head entry => exact ⟨_, entry⟩
  | next _ _ entry => exact ⟨_, entry⟩

/-- A link is taken for the tag of a live node when its low byte is one. -/
theorem nodeType_link (e : SlotEntry) :
    (∃ t, e.nodeType = some t ∧ t ≠ .invalid) ↔
      ¬(e.nextFree % 2 ^ 8 = 0 ∨ 8 < e.nextFree % 2 ^ 8) := by
  unfold SlotEntry.nodeType SlotEntry.nextFree
  generalize e.ntypeOrNextFree % 2 ^ 8 = n
  unfold NodeType.fromRaw
  split
  case h_10 =>
    simp only [reduceCtorEq, false_and, exists_false, false_iff, not_not]
    grind
  all_goals simp

/-- A second free of a slot is refused, and its body is not read, exactly when the link that
the slot holds cannot be taken for a tag. -/
theorem freed_rejected_iff {F : Frame} {list : NodeType} {s : Slot} (h : F.OnFreeList list s) :
    ((∃ e, freeNode s F = .error e F) ∧ F.bodyType s = none) ↔
      ∀ e, F.slotEntry s = some e → e.nextFree % 2 ^ 8 = 0 ∨ 8 < e.nextFree % 2 ^ 8 := by
  obtain ⟨e, he⟩ := h.entry
  simp only [he, Option.some.injEq, forall_eq']
  rw [← not_not (a := _ ∨ _), ← nodeType_link]
  constructor
  · rintro ⟨⟨err, hr⟩, -⟩ ⟨t, ht, hi⟩
    have hfrees : Sat (freeNode s) F (fun _ _ => True) fun _ _ => False := by
      simp [freeNode, he, ht, hi]
    exact hfrees.of_error hr
  · intro hnot
    have hinvalid : ∀ t, e.nodeType = some t → t = .invalid := by
      intro t ht
      by_contra hi
      exact hnot ⟨t, ht, hi⟩
    constructor
    · have heffect := freeNode_effect F s
      cases hr : freeNode s F with
      | error err F' =>
        obtain ⟨rfl, -⟩ := heffect.of_error hr
        exact ⟨err, rfl⟩
      | ok _ F' =>
        obtain ⟨e', t, hp, -⟩ := heffect.of_ok hr
        obtain rfl : e = e' := Option.some.inj (he.symm.trans hp.entry)
        exact absurd (hinvalid t hp.nodeType) hp.valid
    · unfold bodyType
      rw [he]
      dsimp only
      split
      · rfl
      · rename_i t ht
        rw [if_pos (Or.inl (hinvalid t ht))]

/-- Two leaves are freed, the second in front of the first. -/
def twoFreed : List Heap.Call :=
  [.allocNode .leaf, .allocNode .leaf, .freeNode 2, .freeNode 3]

/-- The first one freed ends the list. -/
theorem first_freed_rejected : ∃ H₀ H, Heap.init 0 = .ok H₀ ∧ Run Heap.step Heap.Proper H₀ H ∧
    H.frame.OnFreeList .leaf 2 ∧ (∃ e, freeNode 2 H.frame = .error e H.frame) ∧
    H.frame.bodyType 2 = none := by
  have hplay : (Heap.init 0).toOption.any (fun H₀ =>
      (play Heap.step Heap.Proper twoFreed H₀).any fun H =>
        decide (H.frame.freeListHead .leaf = 3 ∧ H.frame.slotEntry 3 = some ⟨5635, 2⟩ ∧
          H.frame.slotEntry 2 = some ⟨5633, 0⟩)) = true := by
    decide +kernel
  obtain ⟨H₀, hinit, hplay⟩ := Heap.init_any hplay
  obtain ⟨H, hrun, hhead, hlink, hlast⟩ := exists_run_of_play hplay
  have hon : H.frame.OnFreeList .leaf 2 :=
    .next (e := ⟨5635, 2⟩) (hhead ▸ .head (hhead.symm ▸ hlink)) hlink hlast
  have hrejected := (freed_rejected_iff hon).mpr (by
    intro e he
    rw [hlast] at he
    cases he
    exact Or.inl rfl)
  exact ⟨H₀, H, hinit, hrun, hon, hrejected⟩

/-- The second one's link is 2, which reads as a prefix node: it is freed once more, onto the
list of prefix nodes. -/
theorem second_freed_accepted : ∃ H₀ H, Heap.init 0 = .ok H₀ ∧ Run Heap.step Heap.Proper H₀ H ∧
    H.frame.OnFreeList .leaf 3 ∧ H.frame.bodyType 3 = some .prefixNode ∧
    ∃ F', freeNode 3 H.frame = .ok () F' ∧ F'.freeListHead .leaf = 3 ∧
      F'.freeListHead .prefixNode = 3 := by
  have hplay : (Heap.init 0).toOption.any (fun H₀ =>
      (play Heap.step Heap.Proper twoFreed H₀).any fun H =>
        decide (H.frame.freeListHead .leaf = 3 ∧ H.frame.slotEntry 3 = some ⟨5635, 2⟩ ∧
          H.frame.bodyType 3 = some .prefixNode ∧
          returns (freeNode 3) H.frame (fun _ F' =>
            F'.freeListHead .leaf = 3 ∧ F'.freeListHead .prefixNode = 3))) = true := by
    decide +kernel
  obtain ⟨H₀, hinit, hplay⟩ := Heap.init_any hplay
  obtain ⟨H, hrun, hhead, hlink, hbody, hfree⟩ := exists_run_of_play hplay
  obtain ⟨_, F', hr, hlists⟩ := (returns_iff ..).mp hfree
  refine ⟨H₀, H, hinit, hrun, ?_, hbody, F', hr, of_decide_eq_true hlists⟩
  exact hhead ▸ .head (hhead.symm ▸ hlink)

end Frame

end Holt
