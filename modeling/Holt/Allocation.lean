import Holt.Frame
import Mathlib.Data.Set.Insert

/-! What a frame's allocator guarantees: a new cell is never in use, and everything in use
stays as it was. -/

namespace Holt

open Holt.Lib

/-- The unit of ownership: a slot with its body, or one byte of the data area. -/
inductive Cell
  | slot (n : Slot)
  | byte (n : Nat)

/-- The error a full blob answers with. -/
def Error.IsResource (e : Error) : Prop :=
  e = .alloc .outOfSlots ∨ ∃ need avail, e = .alloc (.outOfSpace need avail)

/-- The error a broken slot answers with. -/
def Error.IsFault (e : Error) : Prop := ∃ context, e = .corrupt context ∨ e = .internal context

@[simp] theorem Error.corrupt_ne_alloc (context : String) (a : AllocError) :
    Error.corrupt context ≠ .alloc a := by
  rintro ⟨⟩

theorem Error.not_resource {e : Error} (h : ∀ a, e ≠ .alloc a) : ¬e.IsResource := by
  rintro (rfl | ⟨need, avail, rfl⟩) <;> exact h _ rfl

theorem Error.IsFault.not_resource {e : Error} (h : e.IsFault) : ¬e.IsResource := by
  obtain ⟨context, rfl | rfl⟩ := h <;> exact Error.not_resource (by simp)

namespace Frame

/-- The slot is live with type `ntype` and its body lies inside the page. -/
def Typed (F : Frame) (s : Slot) (ntype : NodeType) : Prop := F.bodyType s = some ntype

def NodeAt (F : Frame) (s : Slot) (b : Body) : Prop :=
  F.Typed s b.ntype ∧ (b = .emptyRoot ∨ F.bodies s = b)

/-- `F'` agrees with `F` on the cells of `R`. -/
structure Agrees (F F' : Frame) (R : Set Cell) : Prop where
  slots : ∀ s, .slot s ∈ R → F'.slots s = F.slots s ∧ F'.bodies s = F.bodies s
  data : ∀ a, .byte a ∈ R → F'.data a = F.data a
  numSlots : F.numSlots ≤ F'.numSlots

/-- It is also the same blob with the same root. -/
structure Same (F F' : Frame) (R : Set Cell) : Prop where
  slots : ∀ s, .slot s ∈ R → F'.slots s = F.slots s ∧ F'.bodies s = F.bodies s
  data : ∀ a, .byte a ∈ R → F'.data a = F.data a
  numSlots : F.numSlots ≤ F'.numSlots
  rootSlot : F'.rootSlot = F.rootSlot
  blobGuid : F'.blobGuid = F.blobGuid

/-- `l` is the chain of free slots that starts at `head`. -/
def FreeList (F : Frame) : Slot → List Slot → Prop
  | head, [] => head = 0
  | head, s :: l =>
    head = s ∧ s ≠ 0 ∧ s ≤ F.numSlots ∧ FreeList F (SlotEntry.decode (F.slots s)).nextFree l

structure FreeLists (F : Frame) (fl : NodeType → List Slot) : Prop where
  chain : ∀ t, FreeList F (F.freeListHead t) (fl t)
  nodup : ∀ t, (fl t).Nodup
  disjoint : ∀ t t' s, s ∈ fl t → s ∈ fl t' → t = t'
  fits : ∀ t s, s ∈ fl t → (SlotEntry.decode (F.slots s)).byteOffset + sizeOfNode t ≤ pageSize

/-- The allocator's invariant while the cells of `U` are in use. -/
structure Alloc (F : Frame) (U : Set Cell) : Prop where
  slots_le : F.numSlots ≤ maxSlots
  start_le : dataAreaStart ≤ F.spaceUsed
  space_le : F.spaceUsed ≤ pageSize
  aligned : F.spaceUsed % 8 = 0
  free : ∃ fl, FreeLists F fl ∧ ∀ t s, s ∈ fl t → Cell.slot s ∉ U
  used_slot : ∀ s, .slot s ∈ U → s ≠ 0 ∧ s ≤ F.numSlots
  used_byte : ∀ a, .byte a ∈ U → a < F.spaceUsed

/-- Everything in use before is in use and unchanged after. -/
structure Kept (F F' : Frame) (U : Set Cell) : Prop where
  alloc : Alloc F' U
  same : Same F F' U

variable {F F' : Frame} {R U U' : Set Cell} {b : Body} {fl : NodeType → List Slot} {head s : Slot}
  {l : List Slot} {list t : NodeType} {off : Nat}

theorem Same.agrees (h : Same F F' R) : Agrees F F' R :=
  ⟨h.slots, h.data, h.numSlots⟩

theorem Same.refl (F : Frame) (R : Set Cell) : Same F F R :=
  ⟨fun _ _ => ⟨rfl, rfl⟩, fun _ _ => rfl, le_rfl, rfl, rfl⟩

theorem Same.mono {R' : Set Cell} (h : Same F F' R) (hs : R' ⊆ R) : Same F F' R' :=
  ⟨fun s hr => h.slots s (hs hr), fun a hr => h.data a (hs hr), h.numSlots, h.rootSlot, h.blobGuid⟩

theorem Same.trans {F'' : Frame} (h : Same F F' R) (h' : Same F' F'' R) : Same F F'' R :=
  ⟨fun s hr => ⟨(h'.slots s hr).1.trans (h.slots s hr).1, (h'.slots s hr).2.trans (h.slots s hr).2⟩,
    fun a hr => (h'.data a hr).trans (h.data a hr), h.numSlots.trans h'.numSlots,
    h'.rootSlot.trans h.rootSlot, h'.blobGuid.trans h.blobGuid⟩

theorem Alloc.mono (h : Alloc F U) (hs : U' ⊆ U) : Alloc F U' := by
  obtain ⟨fl, hfl, hu⟩ := h.free
  exact ⟨h.slots_le, h.start_le, h.space_le, h.aligned,
    ⟨fl, hfl, fun t s hm hc => hu t s hm (hs hc)⟩, fun s hm => h.used_slot s (hs hm),
    fun a hm => h.used_byte a (hs hm)⟩

theorem Kept.refl (h : Alloc F U) : Kept F F U := ⟨h, Same.refl F U⟩

theorem Kept.mono (h : Kept F F' U) (hs : U' ⊆ U) :
    Kept F F' U' := ⟨h.alloc.mono hs, h.same.mono hs⟩

theorem Kept.trans {F'' : Frame} (h : Kept F F' U) (h' : Kept F' F'' U') (hs : U ⊆ U') :
    Kept F F'' U :=
  ⟨h'.alloc.mono hs, h.same.trans (h'.same.mono hs)⟩

theorem slotEntry_of_ne (h0 : s ≠ 0) (hle : s ≤ F.numSlots) :
    F.slotEntry s = some (SlotEntry.decode (F.slots s)) := by
  simp [slotEntry, h0, not_lt.mpr hle]

theorem slotEntry_inv {e : SlotEntry} (h : F.slotEntry s = some e) :
    s ≠ 0 ∧ s ≤ F.numSlots ∧ e = SlotEntry.decode (F.slots s) := by
  unfold slotEntry at h
  split at h
  · cases h
  · rename_i hn
    simp only [not_or, not_lt] at hn
    exact ⟨hn.1, hn.2, (Option.some.inj h).symm⟩

theorem sizeOfNode_pos (h : t ≠ .invalid) : 0 < sizeOfNode t := by
  cases t <;> first | exact absurd rfl h | decide

/-- What a typed slot's entry says. -/
theorem typed_iff :
    F.Typed s t ↔ s ≠ 0 ∧ s ≤ F.numSlots ∧ (SlotEntry.decode (F.slots s)).nodeType = some t ∧
      t ≠ .invalid ∧ (SlotEntry.decode (F.slots s)).byteOffset + sizeOfNode t ≤ pageSize := by
  constructor
  · intro h
    unfold Typed bodyType at h
    split at h
    · cases h
    · rename_i e he
      obtain ⟨h0, hle, rfl⟩ := slotEntry_inv he
      split at h
      · cases h
      · rename_i t' ht
        split at h
        · cases h
        · rename_i hc
          cases h
          simp only [not_or, not_lt] at hc
          exact ⟨h0, hle, ht, hc.1, hc.2⟩
  · rintro ⟨h0, hle, ht, hi, hfit⟩
    simp only [Typed, bodyType, slotEntry_of_ne h0 hle, ht]
    rw [if_neg]
    simp [hi, not_lt.mpr hfit]

theorem typed_live (h0 : s ≠ 0) (hle : s ≤ F.numSlots) (ht : t ≠ .invalid) (hoff : off % 8 = 0)
    (hfit : off + sizeOfNode t ≤ pageSize) (hs : F.slots s = (SlotEntry.live t off).raw) :
    F.Typed s t := by
  have hpos := sizeOfNode_pos ht
  have hdec := SlotEntry.decode_live t (show off < pageSize by omega)
  rw [typed_iff, hs, hdec]
  exact ⟨h0, hle, SlotEntry.nodeType_live t _, ht,
    by rw [SlotEntry.byteOffset_live t hoff]; exact hfit⟩

theorem Typed.congr (h : F.Typed s t) (hs : Agrees F F' R) (hm : .slot s ∈ R) : F'.Typed s t := by
  rw [typed_iff] at h ⊢
  rw [(hs.slots s hm).1]
  exact ⟨h.1, h.2.1.trans hs.numSlots, h.2.2⟩

theorem NodeAt.congr (h : F.NodeAt s b) (hs : Agrees F F' R) (hm : .slot s ∈ R) : F'.NodeAt s b :=
  ⟨h.1.congr hs hm, h.2.imp_right ((hs.slots s hm).2.trans ·)⟩

theorem NodeAt.same (h : F.NodeAt s b) (hs : Same F F' R) (hm : .slot s ∈ R) : F'.NodeAt s b :=
  h.congr hs.agrees hm

theorem Typed.ntypeOf (h : F.Typed s t) : F.ntypeOf s = .ok t := by
  obtain ⟨h0, hle, ht, -⟩ := typed_iff.mp h
  simp [Frame.ntypeOf, slotEntry_of_ne h0 hle, ht]

theorem NodeAt.bodyOfSlot (h : F.NodeAt s b) : F.bodyOfSlot s = some b := by
  obtain ⟨ht, hb⟩ := h
  simp only [Frame.bodyOfSlot, show F.bodyType s = some b.ntype from ht]
  rcases hb with rfl | hb
  · simp [Body.ntype]
  · rw [hb]
    cases b with
    | inner n => cases n <;> simp [Body.ntype, Inner.ntype]
    | _ => simp [Body.ntype]

theorem NodeAt.resolveTyped (h : F.NodeAt s b) : F.resolveTyped s = .ok b := by
  simp [Frame.resolveTyped, h.1.ntypeOf, h.bodyOfSlot]

theorem NodeAt.ntypeOf (h : F.NodeAt s b) : F.ntypeOf s = .ok b.ntype := h.1.ntypeOf

theorem NodeAt.slotEntry (h : F.NodeAt s b) :
    ∃ e, F.slotEntry s = some e ∧ e.nodeType = some b.ntype := by
  obtain ⟨h0, hle, ht, -⟩ := typed_iff.mp h.1
  exact ⟨_, slotEntry_of_ne h0 hle, ht⟩

/-! ## Free lists -/

theorem FreeList.congr (h : FreeList F head l) (hs : ∀ s ∈ l, F'.slots s = F.slots s)
    (hn : F.numSlots ≤ F'.numSlots) : FreeList F' head l := by
  induction l generalizing head with
  | nil => exact h
  | cons s l ih =>
    obtain ⟨he, h0, hle, hnext⟩ := h
    refine ⟨he, h0, hle.trans hn, ?_⟩
    rw [hs s List.mem_cons_self]
    exact ih hnext fun s' hm => hs s' (List.mem_cons_of_mem s hm)

theorem FreeLists.congr (h : FreeLists F fl) (hf : F'.freeListHead = F.freeListHead)
    (hs : ∀ t s, s ∈ fl t → F'.slots s = F.slots s) (hn : F.numSlots ≤ F'.numSlots) :
    FreeLists F' fl :=
  ⟨fun t => hf ▸ (h.chain t).congr (hs t) hn, h.nodup, h.disjoint,
    fun t s hm => hs t s hm ▸ h.fits t s hm⟩

/-- The invariant reads the slot table, the free-list heads and the two bump cursors only. -/
theorem Alloc.congr (h : Alloc F U) (hn : F'.numSlots = F.numSlots)
    (hu : F'.spaceUsed = F.spaceUsed) (hf : F'.freeListHead = F.freeListHead)
    (hs : F'.slots = F.slots) : Alloc F' U := by
  obtain ⟨fl, hfl, hfree⟩ := h.free
  exact ⟨hn ▸ h.slots_le, hu ▸ h.start_le, hu ▸ h.space_le, hu ▸ h.aligned,
    ⟨fl, hfl.congr hf (fun _ s _ => by rw [hs]) hn.ge, hfree⟩, hn ▸ h.used_slot,
    hu ▸ h.used_byte⟩

theorem FreeList.head_mem (h : FreeList F head l) (h0 : head ≠ 0) :
    ∃ rest, l = head :: rest ∧ head ≤ F.numSlots ∧
      FreeList F (SlotEntry.decode (F.slots head)).nextFree rest := by
  cases l with
  | nil => exact absurd h h0
  | cons s l =>
    obtain ⟨rfl, -, hle, hnext⟩ := h
    exact ⟨l, rfl, hle, hnext⟩

theorem FreeList.head_le (h : FreeList F head l) : head ≤ F.numSlots := by
  by_cases h0 : head = 0
  · exact h0 ▸ Nat.zero_le _
  · exact (h.head_mem h0).choose_spec.2.1

theorem FreeList.mem_le (h : FreeList F head l) (hs : s ∈ l) : s ≤ F.numSlots := by
  induction l generalizing head with
  | nil => cases hs
  | cons x l ih =>
    rcases List.mem_cons.mp hs with rfl | hs
    · exact h.2.2.1
    · exact ih h.2.2.2 hs

theorem FreeLists.head_le (h : FreeLists F fl) (t : NodeType) :
    F.freeListHead t ≤ F.numSlots := (h.chain t).head_le

theorem FreeList.unique {l' : List Slot} (h : FreeList F head l) (h' : FreeList F head l') :
    l = l' := by
  induction l generalizing head l' with
  | nil =>
    cases l' with
    | nil => rfl
    | cons s l' => exact absurd (h'.1.symm.trans h) h'.2.1
  | cons s l ih =>
    cases l' with
    | nil => exact absurd (h.1.symm.trans h') h.2.1
    | cons s' l' =>
      obtain ⟨rfl, -, -, hnext⟩ := h
      obtain ⟨rfl, -, -, hnext'⟩ := h'
      rw [ih hnext hnext']

/-- The slots that wait on the free list of `t`. -/
def FreeOf (F : Frame) (t : NodeType) : Set Slot :=
  {s | ∃ l, FreeList F (F.freeListHead t) l ∧ s ∈ l}

theorem freeOf_congr (hs : F'.slots = F.slots) (hn : F'.numSlots = F.numSlots)
    (hf : F'.freeListHead = F.freeListHead) (t : NodeType) : F'.FreeOf t = F.FreeOf t := by
  have hlist : ∀ {G G' : Frame} {head : Slot} {l : List Slot}, G'.slots = G.slots →
      G'.numSlots = G.numSlots → FreeList G head l → FreeList G' head l := by
    intro G G' head l hs hn h
    exact h.congr (fun s _ => congrFun hs s) hn.ge
  ext s
  unfold FreeOf
  rw [hf]
  constructor
  · rintro ⟨l, hl, hm⟩
    exact ⟨l, hlist hs.symm hn.symm hl, hm⟩
  · rintro ⟨l, hl, hm⟩
    exact ⟨l, hlist hs hn hl, hm⟩

theorem FreeLists.mem_freeOf (h : FreeLists F fl) : s ∈ F.FreeOf t ↔ s ∈ fl t := by
  constructor
  · rintro ⟨l, hl, hs⟩
    rwa [(h.chain t).unique hl]
  · intro hs
    exact ⟨fl t, h.chain t, hs⟩

theorem Alloc.freeOf_notMem (h : Alloc F U) (hs : s ∈ F.FreeOf t) : .slot s ∉ U := by
  obtain ⟨fl, hfl, hu⟩ := h.free
  exact hu t s (hfl.mem_freeOf.mp hs)

/-- The head says whether anything waits. -/
theorem Alloc.freeOf_eq_empty (h : Alloc F U) : F.FreeOf t = ∅ ↔ F.freeListHead t = 0 := by
  obtain ⟨fl, hfl, -⟩ := h.free
  constructor
  · intro hempty
    by_contra h0
    obtain ⟨rest, hl, -⟩ := (hfl.chain t).head_mem h0
    have hm : F.freeListHead t ∈ F.FreeOf t := hfl.mem_freeOf.mpr (hl ▸ List.mem_cons_self)
    rw [hempty] at hm
    exact hm
  · intro h0
    refine Set.eq_empty_of_forall_notMem fun s hs => ?_
    have hnil : fl t = [] := by
      have hc := hfl.chain t
      rw [h0] at hc
      exact hc.unique rfl
    rw [hfl.mem_freeOf, hnil] at hs
    cases hs

theorem FreeLists.mem_pop (h : FreeLists F fl) {rest : List Slot}
    (hl : fl list = F.freeListHead list :: rest) :
    s ∈ Function.update fl list rest t ↔ s ∈ fl t ∧ s ≠ F.freeListHead list := by
  have hnd : (F.freeListHead list :: rest).Nodup := hl ▸ h.nodup list
  by_cases ht : t = list
  · subst ht
    rw [Function.update_self, hl, List.mem_cons]
    refine ⟨fun hs => ⟨Or.inr hs, ?_⟩, fun hs => hs.1.resolve_left hs.2⟩
    rintro rfl
    exact (List.nodup_cons.mp hnd).1 hs
  · rw [Function.update_of_ne ht]
    refine ⟨fun hs => ⟨hs, ?_⟩, And.left⟩
    rintro rfl
    exact ht (h.disjoint t list _ hs (hl ▸ List.mem_cons_self))

theorem FreeLists.mem_push :
    s ∈ Function.update fl list (head :: fl list) t ↔ s ∈ fl t ∨ t = list ∧ s = head := by
  by_cases ht : t = list
  · subst ht
    simp [or_comm]
  · simp [ht]

/-! ## What one call does to the frame -/

/-- A node of type `t` takes the head `s` of the free list of `list`. -/
structure Pops (F F' : Frame) (list t : NodeType) (s : Slot) (e : SlotEntry) : Prop where
  size : sizeOfNode list = sizeOfNode t
  head : F.freeListHead list = s
  ne_zero : s ≠ 0
  entry : F.slotEntry s = some e
  slots : F'.slots = Function.update F.slots s (SlotEntry.live t e.byteOffset).raw
  heads : F'.freeListHead = Function.update F.freeListHead list e.nextFree
  numSlots : F'.numSlots = F.numSlots
  spaceUsed : F'.spaceUsed = F.spaceUsed

/-- A node of type `t` takes the next slot and the next bytes. -/
structure Bumps (F F' : Frame) (t : NodeType) (s : Slot) : Prop where
  slot : s = F.numSlots + 1
  room : F.numSlots < maxSlots
  fits : sizeOfNode t ≤ F.nodeAvail t
  slots : F'.slots = Function.update F.slots s (SlotEntry.live t F.spaceUsed).raw
  heads : F'.freeListHead = F.freeListHead
  numSlots : F'.numSlots = F.numSlots + 1
  spaceUsed : F'.spaceUsed = F.spaceUsed + sizeOfNode t

/-- The live node at `s` becomes the head of the free list of its type. -/
structure Pushes (F F' : Frame) (s : Slot) (e : SlotEntry) (t : NodeType) : Prop where
  entry : F.slotEntry s = some e
  nodeType : e.nodeType = some t
  valid : t ≠ .invalid
  slots : F'.slots = Function.update F.slots s (SlotEntry.freed (F.freeListHead t) e.byteOffset).raw
  heads : F'.freeListHead = Function.update F.freeListHead t s
  numSlots : F'.numSlots = F.numSlots
  spaceUsed : F'.spaceUsed = F.spaceUsed

/-- A node of type `t` settles at the slot `s`. Bodies and bytes stay, and only blob nodes are
counted. -/
structure Settles (F F' : Frame) (t : NodeType) (s : Slot) : Prop where
  valid : t ≠ .invalid
  source : (∃ list e, F.Pops F' list t s e) ∨ F.Bumps F' t s
  bodies : F'.bodies = F.bodies
  data : F'.data = F.data
  rootSlot : F'.rootSlot = F.rootSlot
  blobGuid : F'.blobGuid = F.blobGuid
  numExtBlobs : t ≠ .blob → F'.numExtBlobs = F.numExtBlobs
  tombstoneLeafCnt : F'.tombstoneLeafCnt = F.tombstoneLeafCnt

/-- Why there is no slot for a node of type `t`. -/
inductive Lacks (F : Frame) (t : NodeType) : Error → Prop
  | request (h : t = .invalid ∨ ∃ list, F.freeListHead list ≠ 0 ∧
      F.slotEntry (F.freeListHead list) = none) : Lacks F t (.alloc .invalidRequest)
  | slots (own : F.freeListHead t = 0) (other : ∀ o ∈ sibling t, F.freeListHead o = 0)
      (h : maxSlots ≤ F.numSlots) : Lacks F t (.alloc .outOfSlots)
  | space {need avail : Nat} (own : F.freeListHead t = 0)
      (other : ∀ o ∈ sibling t, F.freeListHead o = 0) (h : F.nodeAvail t < sizeOfNode t) :
      Lacks F t (.alloc (.outOfSpace need avail))

/-- An allocation reuses a freed slot of its size or cuts new bytes, and a refused one leaves
the frame alone. -/
theorem allocNode_effect (F : Frame) (t : NodeType) :
    Sat (allocNode t) F (fun s F' => F.Settles F' t s) (fun e F' => F' = F ∧ F.Lacks t e) := by
  have htake : t ≠ .invalid → ∀ list, sizeOfNode list = sizeOfNode t → F.freeListHead list ≠ 0 →
      Sat (takeFree list t) F (fun s F' => F.Settles F' t s)
        (fun e F' => F' = F ∧ F.Lacks t e) := by
    intro ht list hsize h0
    simp only [takeFree, sat_bind, sat_get]
    split
    · exact .throw ⟨rfl, .request (Or.inr ⟨list, h0, by assumption⟩)⟩
    · rename_i e he
      simp only [sat_bind, sat_set, sat_pure]
      exact ⟨ht, Or.inl ⟨list, e, hsize, rfl, h0, he, rfl, rfl, rfl, rfl⟩, rfl, rfl, rfl, rfl,
        fun _ => rfl, rfl⟩
  have hbump : t ≠ .invalid → F.freeListHead t = 0 → (∀ o ∈ sibling t, F.freeListHead o = 0) →
      Sat (bumpNode t) F (fun s F' => F.Settles F' t s) (fun e F' => F' = F ∧ F.Lacks t e) := by
    intro ht hown hother
    simp only [bumpNode, sat_bind, sat_get]
    split
    · exact .throw ⟨rfl, .slots hown hother (by assumption)⟩
    · rename_i hslots
      split
      · exact .throw ⟨rfl, .space hown hother (by assumption)⟩
      · rename_i hroom
        simp only [sat_bind, sat_set, sat_pure]
        exact ⟨ht, Or.inr ⟨rfl, not_le.mp hslots, not_lt.mp hroom, rfl, rfl, rfl, rfl⟩, rfl, rfl,
          rfl, rfl, fun _ => rfl, rfl⟩
  have hinner : Sat (allocNodeInner t) F (fun s F' => F.Settles F' t s)
      (fun e F' => F' = F ∧ F.Lacks t e) := by
    simp only [allocNodeInner, sat_bind, sat_get]
    split
    · exact .throw ⟨rfl, .request (Or.inl (by assumption))⟩
    · rename_i ht
      split
      · exact htake ht t rfl (by assumption)
      · rename_i hown
        rw [not_not] at hown
        split
        · rename_i other hother
          split
          · refine htake ht other ?_ (by assumption)
            cases t <;> simp [sibling] at hother <;> subst hother <;> rfl
          · rename_i h0
            refine hbump ht hown fun o ho => ?_
            rw [hother, Option.mem_some_iff] at ho
            exact ho ▸ not_not.mp h0
        · rename_i hnone
          exact hbump ht hown fun o ho => by simp [hnone] at ho
  unfold allocNode
  refine hinner.andThen fun s F₁ h => ?_
  simp only [sat_bind, sat_modify, sat_pure]
  split
  · exact { h with
      source := h.source.imp (Exists.imp fun _ => Exists.imp fun _ h => { h with })
        fun h => { h with }
      numExtBlobs := fun hb => absurd (by assumption) hb }
  · exact h

theorem freeNode_effect (F : Frame) (s : Slot) :
    Sat (freeNode s) F (fun _ F' => ∃ e t, F.Pushes F' s e t ∧ F'.bodies = F.bodies ∧
        F'.data = F.data ∧ F'.rootSlot = F.rootSlot ∧ F'.blobGuid = F.blobGuid)
      (fun e F' => F' = F ∧ ∃ why, e = .free why) := by
  simp only [freeNode, sat_bind, sat_get]
  split
  · exact .throw ⟨rfl, _, rfl⟩
  · rename_i e he
    split
    · exact .throw ⟨rfl, _, rfl⟩
    · rename_i t ht
      split
      · exact .throw ⟨rfl, _, rfl⟩
      · rename_i hi
        exact (sat_set ..).mpr ⟨e, t, ⟨he, ht, hi, rfl, rfl, rfl, rfl⟩, rfl, rfl, rfl, rfl⟩

theorem allocExtent_effect (F : Frame) (size : Nat) :
    Sat (allocExtent size) F
      (fun off F' => 0 < size ∧ off = F.spaceUsed ∧
        F.spaceUsed + (size + 7) / 8 * 8 + spilloverReservation ≤ pageSize ∧
        F' = { F with spaceUsed := F.spaceUsed + (size + 7) / 8 * 8 })
      (fun e F' => F' = F ∧ (size = 0 ∨ e.IsResource ∧
        pageSize - F.spaceUsed - spilloverReservation < (size + 7) / 8 * 8)) := by
  simp only [allocExtent, sat_bind, sat_get]
  split
  · exact .throw ⟨rfl, Or.inl (by assumption)⟩
  · split
    · exact .throw ⟨rfl, Or.inr ⟨Or.inr ⟨_, _, rfl⟩, by assumption⟩⟩
    · simp only [sat_bind, sat_set, sat_pure]
      refine ⟨by omega, trivial, ?_, trivial⟩
      omega

/-- Writing a body changes that slot's body and nothing else, and is refused only for a broken
slot. -/
theorem writeStructToSlot_effect (F : Frame) (s : Slot) (b : Body) :
    Sat (writeStructToSlot s b) F
      (fun _ F' => F' = { F with bodies := Function.update F.bodies s b })
      (fun e F' => F' = F ∧ e.IsFault) := by
  simp only [writeStructToSlot, sat_bind, sat_get]
  split
  · exact .throw ⟨rfl, _, Or.inl rfl⟩
  · split
    · exact (sat_set ..).mpr rfl
    · exact .throw ⟨rfl, _, Or.inr rfl⟩

theorem newNode_effect (F : Frame) (b : Body) :
    Sat (newNode b) F
      (fun s F' => ∃ F₁, F.Settles F₁ b.ntype s ∧
        F' = { F₁ with bodies := Function.update F₁.bodies s b })
      (fun e F' => F' = F ∧ F.Lacks b.ntype e ∨ e.IsFault) := by
  refine (allocNode_effect F b.ntype).bind (fun s F₁ h => ?_) fun _ _ he => Or.inl he
  refine (writeStructToSlot_effect F₁ s b).bind (fun _ F₂ h₂ => ?_) fun _ _ he => Or.inr he.2
  exact .pure ⟨F₁, h, h₂⟩

/-! ### The lists afterwards -/

theorem Pops.freeLists {e : SlotEntry} (h : F.Pops F' list t s e) (hfl : FreeLists F fl) :
    ∃ fl', FreeLists F' fl' ∧ ∀ k x, x ∈ fl' k ↔ x ∈ fl k ∧ x ≠ s := by
  obtain ⟨h0, -, rfl⟩ := slotEntry_inv h.entry
  obtain ⟨rfl⟩ := h.head
  obtain ⟨rest, hl, -, hnext⟩ := (hfl.chain list).head_mem h0
  have hkeep : ∀ {x}, x ≠ F.freeListHead list → F'.slots x = F.slots x :=
    fun hx => by rw [h.slots, Function.update_of_ne hx]
  refine ⟨Function.update fl list rest, ⟨fun k => ?_, fun k => ?_, fun k k' x hx hx' => ?_,
    fun k x hx => ?_⟩, fun k x => hfl.mem_pop hl⟩
  · by_cases hk : k = list
    · subst hk
      rw [h.heads, Function.update_self, Function.update_self]
      refine hnext.congr (fun x hx => hkeep ?_) h.numSlots.ge
      exact ((hfl.mem_pop hl (t := k)).mp (by simpa using hx)).2
    · rw [h.heads, Function.update_of_ne hk, Function.update_of_ne hk]
      refine (hfl.chain k).congr (fun x hx => hkeep ?_) h.numSlots.ge
      exact ((hfl.mem_pop hl (t := k)).mp (by simpa [hk] using hx)).2
  · by_cases hk : k = list
    · subst hk
      rw [Function.update_self]
      exact (List.nodup_cons.mp (hl ▸ hfl.nodup k)).2
    · rw [Function.update_of_ne hk]
      exact hfl.nodup k
  · exact hfl.disjoint k k' x ((hfl.mem_pop hl).mp hx).1 ((hfl.mem_pop hl).mp hx').1
  · obtain ⟨hx, hne⟩ := (hfl.mem_pop hl).mp hx
    rw [hkeep hne]
    exact hfl.fits k x hx

/-- A taken slot leaves the list it came from, if it came from one. -/
theorem Settles.freeLists (h : F.Settles F' t s) (hfl : FreeLists F fl) :
    ∃ fl', FreeLists F' fl' ∧ ∀ k x, x ∈ fl' k ↔ x ∈ fl k ∧ x ≠ s := by
  rcases h.source with ⟨list, e, h⟩ | h
  · exact h.freeLists hfl
  · have hne : ∀ k x, x ∈ fl k → x ≠ s := by
      intro k x hx he
      have hle := (hfl.chain k).mem_le hx
      rw [he, h.slot] at hle
      exact Nat.not_succ_le_self _ hle
    refine ⟨fl, hfl.congr h.heads (fun k x hx => ?_) (h.numSlots ▸ Nat.le_succ _),
      fun k x => ⟨fun hx => ⟨hx, hne k x hx⟩, And.left⟩⟩
    rw [h.slots, Function.update_of_ne (hne k x hx)]

theorem Settles.freeOf (h : F.Settles F' t s) (ha : Alloc F U) (k : NodeType) :
    F'.FreeOf k = F.FreeOf k \ {s} := by
  obtain ⟨fl, hfl, -⟩ := ha.free
  obtain ⟨fl', hfl', hmem⟩ := h.freeLists hfl
  ext x
  rw [hfl'.mem_freeOf, hmem, Set.mem_sdiff, hfl.mem_freeOf, Set.mem_singleton_iff]

/-- A freed slot becomes the head of its list. -/
theorem Pushes.freeLists {e : SlotEntry} (h : F.Pushes F' s e t) (hfl : FreeLists F fl)
    (hfresh : ∀ k, s ∉ fl k) (hfit : e.byteOffset + sizeOfNode t ≤ pageSize)
    (hmax : F.numSlots ≤ maxSlots) :
    ∃ fl', FreeLists F' fl' ∧ ∀ k x, x ∈ fl' k ↔ x ∈ fl k ∨ k = t ∧ x = s := by
  obtain ⟨h0, hle, rfl⟩ := slotEntry_inv h.entry
  have hpos := sizeOfNode_pos h.valid
  have hdec : SlotEntry.decode (F'.slots s) =
      .freed (F.freeListHead t) (SlotEntry.decode (F.slots s)).byteOffset := by
    rw [h.slots, Function.update_self]
    exact SlotEntry.decode_freed ((hfl.head_le t).trans hmax) (by omega)
  have hkeep : ∀ k x, x ∈ fl k → F'.slots x = F.slots x := by
    intro k x hm
    rw [h.slots, Function.update_of_ne]
    rintro rfl
    exact hfresh k hm
  have hold := fun k => (hfl.chain k).congr (hkeep k) h.numSlots.ge
  refine ⟨Function.update fl t (s :: fl t), ⟨fun k => ?_, fun k => ?_, fun k k' x hx hx' => ?_,
    fun k x hx => ?_⟩, fun k x => FreeLists.mem_push⟩
  · by_cases hk : k = t
    · subst hk
      rw [h.heads, Function.update_self, Function.update_self]
      refine ⟨rfl, h0, h.numSlots ▸ hle, ?_⟩
      rw [hdec, SlotEntry.nextFree_freed]
      exact hold k
    · rw [h.heads, Function.update_of_ne hk, Function.update_of_ne hk]
      exact hold k
  · by_cases hk : k = t
    · subst hk
      rw [Function.update_self]
      exact List.nodup_cons.mpr ⟨hfresh k, hfl.nodup k⟩
    · rw [Function.update_of_ne hk]
      exact hfl.nodup k
  · rcases FreeLists.mem_push.mp hx with hm | ⟨rfl, rfl⟩
    · rcases FreeLists.mem_push.mp hx' with hm' | ⟨rfl, rfl⟩
      · exact hfl.disjoint k k' x hm hm'
      · exact absurd hm (hfresh k)
    · rcases FreeLists.mem_push.mp hx' with hm' | ⟨rfl, -⟩
      · exact absurd hm' (hfresh k')
      · rfl
  · rcases FreeLists.mem_push.mp hx with hm | ⟨rfl, rfl⟩
    · rw [hkeep k x hm]
      exact hfl.fits k x hm
    · rw [hdec, SlotEntry.byteOffset_freed _ (SlotEntry.byteOffset_mod _)]
      exact hfit

/-! ## The operations -/

/-- What an allocation of a node hands out. -/
structure NewSlot (F F' : Frame) (U : Set Cell) (s : Slot) (t : NodeType) : Prop where
  fresh : .slot s ∉ U
  ne_zero : s ≠ 0
  alloc : Alloc F' (insert (.slot s) U)
  same : Same F F' U
  typed : F'.Typed s t

/-- Where the slot of a new node comes from, and what it says. -/
theorem Settles.placed (h : F.Settles F' t s) (ha : Alloc F U) :
    .slot s ∉ U ∧ s ≠ 0 ∧ s ≤ F'.numSlots ∧ F.numSlots ≤ F'.numSlots ∧ F'.numSlots ≤ maxSlots ∧
      F.spaceUsed ≤ F'.spaceUsed ∧ F'.spaceUsed ≤ pageSize ∧ F'.spaceUsed % 8 = 0 ∧
      ∃ off, off % 8 = 0 ∧ off + sizeOfNode t ≤ pageSize ∧
        F'.slots = Function.update F.slots s (SlotEntry.live t off).raw := by
  obtain ⟨fl, hfl, hu⟩ := ha.free
  rcases h.source with ⟨list, e, hp⟩ | hb
  · obtain ⟨h0, hle, rfl⟩ := slotEntry_inv hp.entry
    obtain ⟨rest, hl, -⟩ := (hfl.chain list).head_mem (hp.head ▸ h0)
    have hmem : s ∈ fl list := by rw [hl, hp.head]; exact List.mem_cons_self
    have hfit := hfl.fits list s hmem
    rw [hp.size] at hfit
    rw [hp.numSlots, hp.spaceUsed]
    exact ⟨hu list s hmem, h0, hle, le_rfl, ha.slots_le, le_rfl, ha.space_le, ha.aligned, _,
      SlotEntry.byteOffset_mod _, hfit, hp.slots⟩
  · have hfit : F.spaceUsed + sizeOfNode t ≤ pageSize := by
      have hspace := ha.space_le
      have hpos := sizeOfNode_pos h.valid
      have hfits := hb.fits
      unfold nodeAvail at hfits
      split at hfits <;> omega
    have hmod := sizeOfNode_mod t
    have hal := ha.aligned
    have hroom := hb.room
    rw [hb.numSlots, hb.spaceUsed]
    refine ⟨fun hc => ?_, ?_, hb.slot.le, Nat.le_succ _, hroom, Nat.le_add_right .., hfit, by omega,
      _, hal, hfit, hb.slots⟩
    · exact Nat.not_succ_le_self _ (hb.slot ▸ (ha.used_slot _ hc).2)
    · exact hb.slot ▸ Nat.succ_ne_zero _

theorem Settles.newSlot (h : F.Settles F' t s) (ha : Alloc F U) : NewSlot F F' U s t := by
  obtain ⟨hfresh, h0, hle, hn, hmax, hspace, hpage, h8, off, hoff, hfit, hslots⟩ := h.placed ha
  obtain ⟨fl, hfl, hu⟩ := ha.free
  obtain ⟨fl', hfl', hmem⟩ := h.freeLists hfl
  refine ⟨hfresh, h0, ⟨hmax, ha.start_le.trans hspace, hpage, h8, ⟨fl', hfl', ?_⟩, ?_, ?_⟩,
    ⟨fun x hx => ⟨?_, congrFun h.bodies x⟩, fun a _ => congrFun h.data a, hn, h.rootSlot,
      h.blobGuid⟩, typed_live h0 hle h.valid hoff hfit (hslots ▸ Function.update_self ..)⟩
  · rintro k x hx (hc | hc)
    · exact ((hmem k x).mp hx).2 (Cell.slot.inj hc)
    · exact hu k x ((hmem k x).mp hx).1 hc
  · rintro x (hx | hx)
    · cases hx
      exact ⟨h0, hle⟩
    · exact ⟨(ha.used_slot x hx).1, (ha.used_slot x hx).2.trans hn⟩
  · rintro a (hx | hx)
    · cases hx
    · exact Nat.lt_of_lt_of_le (ha.used_byte a hx) hspace
  · rw [hslots, Function.update_of_ne]
    rintro rfl
    exact hfresh hx

/-- Under the invariant a node is refused only for lack of room. -/
theorem Lacks.isResource {e : Error} (h : F.Lacks t e) (ha : Alloc F U) (ht : t ≠ .invalid) :
    e.IsResource := by
  cases h with
  | request h =>
    obtain ⟨fl, hfl, -⟩ := ha.free
    obtain rfl | ⟨list, h0, hnone⟩ := h
    · exact absurd rfl ht
    · rw [slotEntry_of_ne h0 (hfl.head_le list)] at hnone
      cases hnone
  | slots => exact Or.inl rfl
  | space => exact Or.inr ⟨_, _, rfl⟩

theorem allocNode_sat (h : Alloc F U) (ht : t ≠ .invalid) :
    Sat (allocNode t) F (fun s F' => NewSlot F F' U s t) (fun e F' => F' = F ∧ e.IsResource) :=
  (allocNode_effect F t).mono (fun _ _ h' => h'.newSlot h)
    fun _ _ he => ⟨he.1, he.2.isResource h ht⟩

theorem writeStructToSlot_sat (h : F.Typed s b.ntype) (err : Error → Frame → Prop) :
    Sat (writeStructToSlot s b) F
      (fun _ F' => F' = { F with bodies := Function.update F.bodies s b }) err := by
  simp only [writeStructToSlot, sat_bind, sat_get, show F.bodyType s = some b.ntype from h]
  simp

theorem nodeAt_write (h : F.Typed s b.ntype) :
    NodeAt { F with bodies := Function.update F.bodies s b } s b :=
  ⟨h, Or.inr (Function.update_self ..)⟩

theorem same_write (F : Frame) (s : Slot) (b : Body) (hs : .slot s ∉ R) :
    Same F { F with bodies := Function.update F.bodies s b } R := by
  refine ⟨fun s' hs' => ⟨rfl, Function.update_of_ne ?_ _ _⟩, fun _ _ => rfl, le_rfl, rfl, rfl⟩
  rintro rfl
  exact hs hs'

theorem Alloc.write (h : Alloc F U) (s : Slot) (b : Body) :
    Alloc { F with bodies := Function.update F.bodies s b } U :=
  h.congr rfl rfl rfl rfl

/-- A new node with its body written. -/
structure NewNode (F F' : Frame) (U : Set Cell) (s : Slot) (b : Body) : Prop where
  fresh : .slot s ∉ U
  ne_zero : s ≠ 0
  alloc : Alloc F' (insert (.slot s) U)
  same : Same F F' U
  node : F'.NodeAt s b

theorem newNode_sat (h : Alloc F U) (hb : b.ntype ≠ .invalid) :
    Sat (newNode b) F (fun s F' => NewNode F F' U s b) (fun e F' => F' = F ∧ e.IsResource) := by
  unfold newNode
  refine (allocNode_sat h hb).andThen fun s F₁ hs => ?_
  refine (writeStructToSlot_sat hs.typed fun _ _ => False).bind (fun _ F₂ hw => ?_)
    fun _ _ he => he.elim
  subst hw
  rw [sat_pure]
  exact ⟨hs.fresh, hs.ne_zero, hs.alloc.write s b, hs.same.trans (same_write F₁ s b hs.fresh),
    nodeAt_write hs.typed⟩

/-- The cells `fp` are given up: their slots go to the free lists of their types, everything
else in use stays, and so does what the given-up cells held. -/
structure Frees (F F' : Frame) (U fp : Set Cell) : Prop where
  kept : Kept F F' (U \ fp)
  freed : ∀ t, F'.FreeOf t = F.FreeOf t ∪ {s | .slot s ∈ fp ∧ F.Typed s t}
  bodies : F'.bodies = F.bodies
  data : F'.data = F.data
  numSlots : F'.numSlots = F.numSlots
  spaceUsed : F'.spaceUsed = F.spaceUsed

theorem Frees.refl (h : Alloc F U) : Frees F F U ∅ := by
  refine ⟨by simpa using Kept.refl h, fun t => ?_, rfl, rfl, rfl, rfl⟩
  ext s
  simp

/-- Whether a slot is live is read off its entry. -/
theorem Frees.typed_iff {fp : Set Cell} (h : Frees F F' U fp) (hs : .slot s ∈ U \ fp) :
    F'.Typed s t ↔ F.Typed s t := by
  unfold Typed bodyType slotEntry
  rw [(h.kept.same.slots s hs).1, h.numSlots]

/-- Bytes have no list to go to. -/
theorem Frees.widen {A B : Set Cell} (h : Frees F F' U A) (hs : A ⊆ B)
    (hslot : ∀ s, .slot s ∈ B → .slot s ∈ A) : Frees F F' U B := by
  refine ⟨h.kept.mono (Set.sdiff_subset_sdiff_right hs), fun t => ?_, h.bodies, h.data,
    h.numSlots, h.spaceUsed⟩
  rw [h.freed]
  congr 1
  ext s
  exact and_congr_left fun _ => ⟨fun hm => hs hm, hslot s⟩

theorem Frees.trans {F₁ F₂ : Frame} {A B : Set Cell} (h : Frees F F₁ U A)
    (h' : Frees F₁ F₂ (U \ A) B) (hB : B ⊆ U \ A) : Frees F F₂ U (A ∪ B) := by
  refine ⟨?_, fun t => ?_, h'.bodies.trans h.bodies, h'.data.trans h.data,
    h'.numSlots.trans h.numSlots, h'.spaceUsed.trans h.spaceUsed⟩
  · rw [← Set.sdiff_sdiff]
    exact ⟨h'.kept.alloc, (h.kept.same.mono Set.sdiff_subset).trans h'.kept.same⟩
  · rw [h'.freed, h.freed, Set.union_assoc]
    congr 1
    ext s
    constructor
    · rintro (⟨hs, ht⟩ | ⟨hs, ht⟩)
      · exact ⟨Or.inl hs, ht⟩
      · exact ⟨Or.inr hs, (h.typed_iff (hB hs)).mp ht⟩
    · rintro ⟨hs | hs, ht⟩
      · exact Or.inl ⟨hs, ht⟩
      · exact Or.inr ⟨hs, (h.typed_iff (hB hs)).mpr ht⟩

/-- A freed slot leaves the used cells. -/
theorem freeNode_frees (h : Alloc F U) (ht : F.Typed s t) (hs : .slot s ∈ U)
    (err : Error → Frame → Prop) : Sat (freeNode s) F (fun _ F' => Frees F F' U {.slot s}) err := by
  obtain ⟨h0, hle, htype, hi, hfit⟩ := typed_iff.mp ht
  obtain ⟨fl, hfl, hu⟩ := h.free
  simp only [freeNode, sat_bind, sat_get, slotEntry_of_ne h0 hle, htype, if_neg hi, sat_set]
  have hpush : F.Pushes ({ F.writeSlotEntry s
      (.freed (F.freeListHead t) (SlotEntry.decode (F.slots s)).byteOffset) with
      freeListHead := Function.update F.freeListHead t s
      numExtBlobs := if t = NodeType.blob then F.numExtBlobs - 1 else F.numExtBlobs } : Frame) s
      (SlotEntry.decode (F.slots s)) t :=
    ⟨slotEntry_of_ne h0 hle, htype, hi, rfl, rfl, rfl, rfl⟩
  obtain ⟨fl', hfl', hmem⟩ := hpush.freeLists hfl (fun k hm => hu k s hm hs) hfit h.slots_le
  refine ⟨⟨⟨h.slots_le, h.start_le, h.space_le, h.aligned, ⟨fl', hfl', ?_⟩,
    fun s' hm => h.used_slot s' hm.1, fun a hm => h.used_byte a hm.1⟩,
    ⟨fun s' hm => ⟨Function.update_of_ne ?_ _ _, rfl⟩, fun _ _ => rfl, le_rfl, rfl, rfl⟩⟩,
    fun k => ?_, rfl, rfl, rfl, rfl⟩
  · rintro k x hx ⟨hc, hne⟩
    rcases (hmem k x).mp hx with hx | ⟨-, rfl⟩
    · exact hu k x hx hc
    · exact hne rfl
  · rintro rfl
    exact hm.2 rfl
  · ext x
    rw [hfl'.mem_freeOf, hmem, Set.mem_union, hfl.mem_freeOf]
    refine or_congr_right ⟨?_, ?_⟩
    · rintro ⟨rfl, rfl⟩
      exact ⟨rfl, ht⟩
    · rintro ⟨hx, htx⟩
      cases Cell.slot.inj hx
      exact ⟨Option.some.inj (htx.symm.trans ht), rfl⟩

theorem freeNode_sat (h : Alloc F U) (ht : F.Typed s t) (hs : .slot s ∈ U)
    (err : Error → Frame → Prop) : Sat (freeNode s) F (fun _ F' => Kept F F' (U \ {.slot s})) err :=
  (freeNode_frees h ht hs err).imp fun _ _ h => h.kept

/-! ## Extents -/

/-- The bytes `off, …, off + len - 1`. -/
def extentCells (off len : Nat) : Set Cell := {c | ∃ a, c = .byte a ∧ off ≤ a ∧ a < off + len}

theorem slot_notMem_extentCells (s : Slot) (off len : Nat) : .slot s ∉ extentCells off len := by
  rintro ⟨a, ha, -⟩
  cases ha

theorem byte_mem_extentCells {a len : Nat} :
    .byte a ∈ extentCells off len ↔ off ≤ a ∧ a < off + len := by
  constructor
  · rintro ⟨a', ha, h⟩
    cases ha
    exact h
  · exact fun h => ⟨a, rfl, h⟩

structure NewExtent (F F' : Frame) (U : Set Cell) (off len : Nat) : Prop where
  fresh : ∀ a, off ≤ a → a < off + len → .byte a ∉ U
  alloc : Alloc F' (extentCells off len ∪ U)
  same : Same F F' U
  fits : off + len ≤ pageSize

theorem allocExtent_sat (h : Alloc F U) {size : Nat} (h0 : 0 < size) (h8 : size % 8 = 0) :
    Sat (allocExtent size) F (fun off F' => NewExtent F F' U off size)
      (fun e F' => F' = F ∧ e.IsResource) := by
  have hround : (size + 7) / 8 * 8 = size := by omega
  refine (allocExtent_effect F size).mono ?_ fun e F' ⟨hF, he⟩ =>
    ⟨hF, (he.resolve_left h0.ne').1⟩
  rintro off F' ⟨-, rfl, hroom, rfl⟩
  rw [hround] at hroom ⊢
  · obtain ⟨fl, hfl, hu⟩ := h.free
    refine ⟨fun a ha _ hm => absurd (h.used_byte a hm) (by omega), ⟨h.slots_le, ?_, ?_, ?_,
      ⟨fl, hfl.congr rfl (fun _ _ _ => rfl) le_rfl, ?_⟩, ?_, ?_⟩,
      ⟨fun _ _ => ⟨rfl, rfl⟩, fun _ _ => rfl, le_rfl, rfl, rfl⟩, by omega⟩
    · exact h.start_le.trans (Nat.le_add_right ..)
    · change F.spaceUsed + size ≤ pageSize
      omega
    · have := h.aligned
      change (F.spaceUsed + size) % 8 = 0
      omega
    · rintro t s hs (hc | hc)
      · exact slot_notMem_extentCells _ _ _ hc
      · exact hu t s hs hc
    · rintro s (hs | hs)
      · exact absurd hs (slot_notMem_extentCells _ _ _)
      · exact h.used_slot s hs
    · rintro a (ha | ha)
      · exact (byte_mem_extentCells.mp ha).2
      · exact Nat.lt_of_lt_of_le (h.used_byte a ha) (Nat.le_add_right ..)

theorem Alloc.putBytes (h : Alloc F U) (off : Nat) (bs : List UInt8) :
    Alloc (F.putBytes off bs) U :=
  h.congr rfl rfl rfl rfl

theorem same_putBytes (F : Frame) (off : Nat) (bs : List UInt8)
    (h : ∀ a, off ≤ a → a < off + bs.length → .byte a ∉ R) : Same F (F.putBytes off bs) R := by
  refine ⟨fun _ _ => ⟨rfl, rfl⟩, fun a ha => ?_, le_rfl, rfl, rfl⟩
  exact if_neg fun hc => h a hc.1 hc.2 ha

theorem bytesAt_eq_some {bs : List UInt8} (hfit : off + bs.length ≤ pageSize)
    (h : ∀ i (hi : i < bs.length), F.data (off + i) = bs[i]) :
    F.bytesAt off bs.length = some bs := by
  unfold bytesAt
  rw [if_neg (not_lt.mpr hfit)]
  congr 1
  apply List.ext_getElem
  · simp
  · intro i h₁ h₂
    simpa using h i h₂

theorem putBytes_data {bs : List UInt8} {i : Nat} (hi : i < bs.length) :
    (F.putBytes off bs).data (off + i) = bs[i] := by
  unfold putBytes
  simp [hi]

theorem putBytes_data_of_lt (bs : List UInt8) {a : Nat} (h : a < off) :
    (F.putBytes off bs).data a = F.data a :=
  if_neg fun hc => absurd hc.1 (not_le.mpr h)

/-! ## A fresh blob -/

theorem blank_alloc (guid : BlobGuid) : Alloc (blank guid) ∅ where
  slots_le := Nat.zero_le _
  start_le := le_rfl
  space_le := show dataAreaStart ≤ pageSize by decide
  aligned := show dataAreaStart % 8 = 0 by decide
  free := by
    refine ⟨fun _ => [], ⟨fun _ => rfl, fun _ => List.nodup_nil, ?_, ?_⟩, ?_⟩ <;> simp
  used_slot _ h := h.elim
  used_byte _ h := h.elim

theorem init_slot (guid : BlobGuid) :
    Sat (allocNode .emptyRoot) (blank guid) (fun s _ => s = 1) (fun _ _ => False) := by
  simp [allocNode, allocNodeInner, bumpNode, blank, sibling, nodeAvail, maxSlots, pageSize,
    dataAreaStart, spilloverReservation, sizeOfNode]

/-- A fresh blob is an empty tree whose sentinel is the only thing in use. -/
theorem init_spec (guid : BlobGuid) : ∃ F, init guid = .ok F ∧ F.blobGuid = guid ∧
    F.rootSlot = 1 ∧ F.NodeAt 1 .emptyRoot ∧ Alloc F {.slot 1} := by
  have hs := allocNode_sat (t := .emptyRoot) (blank_alloc guid) NodeType.noConfusion
  have h1 := init_slot guid
  cases hr : allocNode .emptyRoot (blank guid) with
  | error e F => exact (h1.of_error hr).elim
  | ok s F =>
    obtain rfl : s = 1 := h1.of_ok hr
    have hn := hs.of_ok hr
    have ha : Alloc { F with rootSlot := 1 } _ := hn.alloc.congr rfl rfl rfl rfl
    exact ⟨{ F with rootSlot := 1 }, by unfold init; rw [hr], hn.same.blobGuid, rfl,
      ⟨hn.typed, Or.inl rfl⟩, by simpa using ha⟩

end Frame

end Holt
