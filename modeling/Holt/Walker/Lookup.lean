import Holt.Rep

/-! The read descent inside one blob. -/

namespace Holt

open Holt.Lib

/-- A borrowed hit: where the value's bytes are in the pinned frame, and the leaf's sequence
number as it was read. -/
structure LookupHit where
  offset : Nat
  len : Nat
  seq : Nat
  deriving DecidableEq, Repr

inductive LookupResult
  | found (hit : LookupHit)
  | notFound
  | crossing (childGuid : BlobGuid) (childDepth : Nat)
  deriving DecidableEq, Repr

/-- The key of a leaf and where its value lies. -/
def leafExtent (F : Frame) (l : Leaf) : Except Error (List UInt8 × Nat × Nat) :=
  match F.bytesAt l.keyOffset 2 with
  | some [b₀, b₁] =>
    let keyLen := u16FromLeBytes b₀ b₁
    match F.bytesAt l.keyOffset (2 + keyLen + l.valueSize) with
    | some extent =>
      .ok ((extent.drop 2).take keyLen, l.keyOffset + 2 + keyLen, l.valueSize)
    | none => .error (.corrupt "leaf extent body out of range")
  | _ => .error (.corrupt "leaf extent header out of range")

def leafKeyExtent (F : Frame) (l : Leaf) : Except Error (List UInt8) :=
  match F.bytesAt l.keyOffset 2 with
  | some [b₀, b₁] =>
    match F.bytesAt (l.keyOffset + 2) (u16FromLeBytes b₀ b₁) with
    | some key => .ok key
    | none => .error (.corrupt "leaf key extent body out of range")
  | _ => .error (.corrupt "leaf key extent header out of range")

def readLeafKeyRef (F : Frame) (slot : Slot) : Except Error (List UInt8 × Leaf) :=
  match F.bodyOfSlot slot with
  | some (.leaf l) => (leafKeyExtent F l).map fun key => (key, l)
  | _ => .error (.corrupt "read_leaf_key_ref: body")

def readPrefix (F : Frame) (slot : Slot) : Except Error Prefix :=
  match F.bodyOfSlot slot with
  | some (.pfx p) => .ok p
  | _ => .error (.corrupt "read_prefix: body")

def leafCheck (F : Frame) (l : Leaf) (key : SearchKey) : Except Error LookupResult :=
  if l.tombstone then .ok .notFound
  else
    match leafExtent F l with
    | .error e => .error e
    | .ok (leafKey, offset, len) =>
      if key.eqSlice leafKey then .ok (.found ⟨offset, len, l.seq⟩) else .ok .notFound

def blobDescend (b : BlobNode) (key : SearchKey) (depth : Nat) : Except Error LookupResult :=
  if blobMaxInline < b.bytes.length then
    .error (.corrupt "walker::blob_descend: prefix_len exceeds inline buffer")
  else if key.rangeEq depth b.bytes then
    .ok (.crossing b.childBlobGuid (depth + b.bytes.length))
  else .ok .notFound

/-- A node of 48 whose index points past its array. -/
def Inner.badIndex : Inner → UInt8 → Bool
  | .node48 n, b => n.index b ≠ 0 ∧ 48 ≤ n.index b - 1
  | _, _ => false

def descend : Nat → Frame → Slot → SearchKey → Nat → Except Error LookupResult
  | 0, _, _, _, _ => .error .diverged
  | fuel + 1, F, slot, key, depth =>
    match F.resolveTyped slot with
    | .error e => .error e
    | .ok .emptyRoot => .ok .notFound
    | .ok (.leaf l) => leafCheck F l key
    | .ok (.pfx p) =>
      if prefixMaxInline < p.bytes.length then
        .error (.corrupt "walker::prefix_descend: prefix_len exceeds inline buffer")
      else if key.rangeEq depth p.bytes then
        descend fuel F p.child key (depth + p.bytes.length)
      else .ok .notFound
    | .ok (.inner n) =>
      match key.byteAt depth with
      | none => .ok .notFound
      | some b =>
        if n.badIndex b then .error (.corrupt "walker::node48_descend: child index out of range")
        else
          match n.findChild b with
          | none => .ok .notFound
          | some child => descend fuel F child key (depth + 1)
    | .ok (.blob b) => blobDescend b key depth

/-- Look up from `startSlot`; a tree is never deeper than the frame has slots. -/
def lookupAt (F : Frame) (startSlot : Slot) (key : SearchKey) (depth : Nat) :
    Except Error LookupResult :=
  descend (F.numSlots + 1) F startSlot key depth

/-! ## Leaf extents -/

namespace Frame

theorem bytesAt_slice {F : Frame} {off a n : Nat} {bs : List UInt8}
    (hdata : ∀ i (hi : i < bs.length), F.data (off + i) = bs[i]) (hfit : off + bs.length ≤ pageSize)
    (hn : a + n ≤ bs.length) : F.bytesAt (off + a) n = some ((bs.drop a).take n) := by
  have hlen : ((bs.drop a).take n).length = n := by
    rw [List.length_take, List.length_drop]
    omega
  have := bytesAt_eq_some (show off + a + ((bs.drop a).take n).length ≤ pageSize by omega)
    fun i hi => by
      rw [hlen] at hi
      rw [Nat.add_assoc, hdata (a + i) (by omega), List.getElem_take, List.getElem_drop]
  rwa [hlen] at this

variable {F : Frame} {l : Leaf} {r : Record}

theorem Stores.slice (h : F.Stores l r) {a n : Nat}
    (hn : a + n ≤ 2 + r.key.length + r.value.length) :
    F.bytesAt (l.keyOffset + a) n = some (((leafBytes r.key r.value).drop a).take n) := by
  have hge := leafExtentSize_ge r.key.length r.value.length
  have hfit := h.fits
  exact bytesAt_slice h.data (by rw [length_leafBytes]; omega) (by rw [length_leafBytes]; exact hn)

theorem Stores.header (h : F.Stores l r) : ∃ b₀ b₁, F.bytesAt l.keyOffset 2 = some [b₀, b₁] ∧
    u16FromLeBytes b₀ b₁ = r.key.length := by
  have := h.slice (a := 0) (n := 2) (by omega)
  exact ⟨_, _, by simpa [leafBytes, u16ToLeBytes] using this, u16_round_trip h.keyLen⟩

theorem Stores.leafKeyExtent (h : F.Stores l r) : leafKeyExtent F l = .ok r.key := by
  obtain ⟨b₀, b₁, hb, hlen⟩ := h.header
  have hkey : F.bytesAt (l.keyOffset + 2) r.key.length = some r.key := by
    rw [h.slice (by omega)]
    simp [leafBytes, u16ToLeBytes]
  simp [Holt.leafKeyExtent, hb, hlen, hkey]

theorem Stores.leafExtent (h : F.Stores l r) :
    leafExtent F l = .ok (r.key, l.keyOffset + 2 + r.key.length, r.value.length) := by
  obtain ⟨b₀, b₁, hb, hlen⟩ := h.header
  have hall : F.bytesAt l.keyOffset (2 + r.key.length + r.value.length) =
      some (leafBytes r.key r.value) := by
    have := h.slice (a := 0) (n := 2 + r.key.length + r.value.length) (by omega)
    rw [List.drop_zero, List.take_of_length_le (by simp)] at this
    simpa using this
  simp [Holt.leafExtent, hb, hlen, h.valueSize, hall, leafBytes, u16ToLeBytes]

theorem Stores.value (h : F.Stores l r) :
    F.bytesAt (l.keyOffset + 2 + r.key.length) r.value.length = some r.value := by
  rw [Nat.add_assoc, h.slice (by omega)]
  congr 1
  simp only [leafBytes]
  rw [List.drop_append_of_le_length (by simp [u16ToLeBytes]; omega),
    List.drop_eq_nil_of_le (by simp [u16ToLeBytes]; omega)]
  simp

end Frame

/-! ## The descent finds what the tree says -/

/-- A lookup's answer for a key that leads to `target`. -/
def LookupResult.Answers (F : Frame) (fp : Set Cell) (res : Except Error LookupResult) :
    Target → Prop
  | .absent => res = .ok .notFound
  | .leaf r =>
    if r.tombstone then res = .ok .notFound
    else ∃ hit, res = .ok (.found hit) ∧ F.bytesAt hit.offset hit.len = some r.value ∧
      hit.seq = r.seq ∧ Frame.extentCells hit.offset hit.len ⊆ fp
  | .crossing guid depth => res = .ok (.crossing guid depth)

theorem LookupResult.Answers.mono {F : Frame} {fp fp' : Set Cell} {res : Except Error LookupResult}
    {t : Target} (h : Answers F fp res t) (hs : fp ⊆ fp') : Answers F fp' res t := by
  cases t with
  | leaf r =>
    by_cases hr : r.tombstone = true
    · simpa [Answers, hr] using h
    · simp only [Answers, if_neg hr] at h ⊢
      obtain ⟨hit, h₁, h₂, h₃, h₄⟩ := h
      exact ⟨hit, h₁, h₂, h₃, h₄.trans hs⟩
  | _ => exact h

theorem Inner.Wf.badIndex {n : Inner} (h : n.Wf) (b : UInt8) : n.badIndex b = false := by
  cases n with
  | node48 n =>
    have := Node48.Shape.index_le (Node48.Wf.toShape h) b
    simp only [Inner.badIndex, ne_eq, decide_eq_false_iff_not, not_and, not_le]
    omega
  | _ => rfl

theorem leafCheck_answers {F : Frame} {l : Leaf} {r : Record} (h : F.Stores l r) (key : SearchKey)
    (d : Nat) (s : Slot) :
    LookupResult.Answers F (insert (.slot s) (Frame.extentCells l.keyOffset
      (leafExtentSize r.key.length r.value.length))) (leafCheck F l key)
      ((Art.leaf r).target key.full d) := by
  unfold leafCheck
  rw [h.leafExtent]
  have hcells : Frame.extentCells (l.keyOffset + 2 + r.key.length) r.value.length ⊆
      insert (.slot s) (Frame.extentCells l.keyOffset
        (leafExtentSize r.key.length r.value.length)) := by
    rintro c ⟨a, rfl, h₁, h₂⟩
    have hge := leafExtentSize_ge r.key.length r.value.length
    exact Set.mem_insert_of_mem _ (Frame.byte_mem_extentCells.mpr ⟨by omega, by omega⟩)
  by_cases hk : r.key = key.full
  · have he : key.eqSlice r.key = true := (key.eqSlice_iff r.key).mpr hk.symm
    cases ht : r.tombstone with
    | true => simp [Art.target, hk, LookupResult.Answers, h.tombstone, ht]
    | false =>
      simp only [h.tombstone, ht, Bool.false_eq_true, if_false, he, if_true, Art.target,
        if_pos hk, LookupResult.Answers]
      exact ⟨_, rfl, h.value, h.seq, hcells⟩
  · have he : key.eqSlice r.key = false := by
      rw [Bool.eq_false_iff]
      exact fun hc => hk ((key.eqSlice_iff r.key).mp hc).symm
    simp [Art.target, hk, LookupResult.Answers, he]

theorem descend_answers {F : Frame} {t : Art} {s : Slot} {fp : Set Cell} {fuel d : Nat}
    (h : F.Rep t s fp) {π : List UInt8} (hw : t.Wf π) (hf : t.height < fuel + 1) (key : SearchKey) :
    LookupResult.Answers F fp (descend (fuel + 1) F s key d) (t.target key.full d) := by
  induction t generalizing s fp fuel d π with
  | emptyRoot => simp [descend, h.1.resolveTyped, Art.target, LookupResult.Answers]
  | leaf r =>
    obtain ⟨l, hn, hst, rfl⟩ := h
    simp only [descend, hn.resolveTyped]
    exact leafCheck_answers hst key d s
  | pfx bytes child ih =>
    obtain ⟨c, fpc, hn, hc, -, rfl⟩ := h
    obtain ⟨-, hcap, hw'⟩ := hw
    simp only [descend, hn.resolveTyped, if_neg (not_lt.mpr hcap)]
    simp only [Art.height] at hf
    obtain ⟨fuel, rfl⟩ : ∃ m, fuel = m + 1 := ⟨fuel - 1, by have := child.height; omega⟩
    by_cases hnext : Art.Next key.full d bytes
    · have hr : key.rangeEq d bytes = true := (key.rangeEq_iff d bytes).mpr (by
        simpa [Art.Next] using hnext)
      rw [if_pos hr]
      simp only [Art.target, if_pos hnext]
      exact (ih hc hw' (by omega)).mono (Set.subset_insert ..)
    · have hr : key.rangeEq d bytes = false := by
        rw [Bool.eq_false_iff, Ne, key.rangeEq_iff]
        simpa [Art.Next] using hnext
      simp [hr, Art.target, hnext, LookupResult.Answers]
  | inner has child ih =>
    obtain ⟨n, fps, hn, hnw, hhas, hc, -, -, -, rfl⟩ := h
    simp only [descend, hn.resolveTyped, SearchKey.byteAt_eq]
    cases hb : key.full[d]? with
    | none => simp [Art.target, hb, LookupResult.Answers]
    | some b =>
      simp only [hnw.badIndex b, Bool.false_eq_true, if_false, Art.target, hb]
      cases hfind : n.findChild b with
      | none =>
        have hhb : has b = false := by rw [← hhas b, hfind]; rfl
        simp [hhb, LookupResult.Answers]
      | some c =>
        have hhb : has b = true := by rw [← hhas b, hfind]; rfl
        rw [if_pos hhb]
        have hlt := Art.height_child child hhb
        obtain ⟨fuel, rfl⟩ : ∃ m, fuel = m + 1 := ⟨fuel - 1, by omega⟩
        exact (ih b (hc b c hfind) (hw b hhb) (by omega)).mono
          ((Set.subset_iUnion fps b).trans (Set.subset_insert ..))
  | blob bytes guid =>
    obtain ⟨hn, rfl⟩ := h
    simp only [descend, hn.resolveTyped, blobDescend, if_neg (not_lt.mpr hw)]
    by_cases hnext : Art.Next key.full d bytes
    · have hr : key.rangeEq d bytes = true := (key.rangeEq_iff d bytes).mpr (by
        simpa [Art.Next] using hnext)
      simp [hr, Art.target, hnext, LookupResult.Answers]
    · have hr : key.rangeEq d bytes = false := by
        rw [Bool.eq_false_iff, Ne, key.rangeEq_iff]
        simpa [Art.Next] using hnext
      simp [hr, Art.target, hnext, LookupResult.Answers]

theorem lookupAt_answers {F : Frame} {t : Art} {s : Slot} {fp U : Set Cell} (h : F.Rep t s fp)
    (ha : F.Alloc U) (hu : fp ⊆ U) {π : List UInt8} (hw : t.Wf π) (key : SearchKey) (d : Nat) :
    LookupResult.Answers F fp (lookupAt F s key d) (t.target key.full d) :=
  descend_answers h hw (h.height_lt ha hu) key

end Holt
