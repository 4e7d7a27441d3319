import Holt.Art.Insert
import Holt.Walker.Writers

/-! Insertion inside one blob, and that it does to the frame what `Art.insert` does to the
tree the frame holds. -/

namespace Holt

open Holt.Lib Holt.Frame

structure InsertReturn where
  slotAfter : Slot
  mutated : Bool
  deriving DecidableEq, Repr

inductive InsertStep
  | done (r : InsertReturn)
  | crossing (childGuid : BlobGuid) (childDepth : Nat)
  deriving DecidableEq, Repr

structure LeafSplitPlan where
  commonPrefix : List UInt8
  byteExisting : UInt8
  byteNew : UInt8

/-- Whether the guard lets a write replace the leaf. -/
def InsertCondition.admitsLeaf (c : InsertCondition) (l : Leaf) : Bool :=
  if l.tombstone then !c.isVersion
  else
    match c with
    | .always => true
    | .ifVersion expected => l.seq = expected
    | .ifAbsent => false

def writeLeafSeq (slot : Slot) (seq : Nat) : FrameM Unit := do
  let F ← get
  match F.bodyOfSlot slot with
  | none => throw (.corrupt "write_leaf_seq: body")
  | some (.leaf l) => set { F with bodies := Function.update F.bodies slot (.leaf { l with seq }) }
  | some _ => throw (.corrupt "write_leaf_seq: non-leaf slot")

/-- A branch between what hangs at `existing` and a new leaf, under the bytes both share. -/
def writeLeafSplit (existing : Slot) (key : SearchKey) (value : List UInt8) (seq : Nat)
    (split : LeafSplitPlan) : FrameM Slot := do
  let newLeaf ← writeLeaf key value seq
  let n4 ← writeNode4With [(split.byteExisting, existing), (split.byteNew, newLeaf)]
  wrapPrefix split.commonPrefix n4

def insertIntoEmptyRoot (emptySlot : Slot) (key : SearchKey) (value : List UInt8) (seq : Nat)
    (condition : InsertCondition) : FrameM InsertReturn :=
  if condition.isVersion then pure ⟨emptySlot, false⟩
  else do
    let newSlot ← writeLeaf key value seq
    freeNode emptySlot
    pure ⟨newSlot, true⟩

/-- A resurrected leaf is no longer counted among the tombstones. -/
def settleTombstone (wasTombstoned : Bool) : FrameM Unit :=
  modify fun F =>
    if wasTombstoned then { F with tombstoneLeafCnt := F.tombstoneLeafCnt - 1 } else F

/-- Overwrite the value of a leaf that has the key already: in place while the new extent is
no larger than the old one, else in a new leaf. -/
def updateLeaf (leafSlot : Slot) (leaf : Leaf) (key : SearchKey) (value : List UInt8)
    (seq : Nat) : FrameM InsertReturn :=
  let valueOffset := leaf.keyOffset + 2 + key.len
  let oldExtentSize := leafExtentSize key.len leaf.valueSize
  let newExtentSize := leafExtentSize key.len value.length
  if leaf.tombstone = false ∧ value.length = leaf.valueSize then
    if pageSize < valueOffset + leaf.valueSize then
      throw (.corrupt "insert_into_leaf: same-size value range out of bounds")
    else do
      modify fun F => F.putBytes valueOffset value
      writeLeafSeq leafSlot seq
      pure ⟨leafSlot, true⟩
  else if newExtentSize ≤ oldExtentSize then
    let valueRoom := oldExtentSize - 2 - key.len
    if pageSize < valueOffset + valueRoom then
      throw (.corrupt "insert_into_leaf: extent value range out of bounds")
    else do
      modify fun F =>
        F.putBytes valueOffset (value ++ List.replicate (valueRoom - value.length) 0)
      writeStructToSlot leafSlot (.leaf (.live leaf.keyOffset (value.length % 2 ^ 16) seq))
      settleTombstone leaf.tombstone
      pure ⟨leafSlot, true⟩
  else do
    let newSlot ← writeLeaf key value seq
    freeNode leafSlot
    settleTombstone leaf.tombstone
    pure ⟨newSlot, true⟩

def insertIntoLeaf (leafSlot : Slot) (key : SearchKey) (value : List UInt8) (depth seq : Nat)
    (condition : InsertCondition) : FrameM InsertReturn := do
  let F ← get
  let (existingKey, leaf) ← lift (readLeafKeyRef F leafSlot)
  if key.eqSlice existingKey then
    if condition.admitsLeaf leaf then updateLeaf leafSlot leaf key value seq
    else pure ⟨leafSlot, false⟩
  else
    let suffix := existingKey.drop depth
    let common := key.commonPrefixWithSlice depth suffix
    if common = suffix.length ∨ common = key.remainingLen depth then
      throw (.notYetImplemented
        "walker::insert_into_leaf: one key is a strict prefix of the other")
    else if condition.isVersion then pure ⟨leafSlot, false⟩
    else
      let finalSlot ← writeLeafSplit leafSlot key value seq
        ⟨suffix.take common, suffix.getD common 0, (key.byteAt (depth + common)).getD 0⟩
      pure ⟨finalSlot, true⟩

/-- Point the prefix node to its child's new slot, if that moved. -/
def relinkPrefix (pfxSlot childSlot slotAfter : Slot) : FrameM Unit :=
  if slotAfter ≠ childSlot then setPrefixChild pfxSlot slotAfter else pure ()

def relinkInner (innerSlot : Slot) (ntype : NodeType) (byte : UInt8)
    (childSlot slotAfter : Slot) : FrameM Unit :=
  if slotAfter ≠ childSlot then innerUpdateChild innerSlot ntype byte slotAfter else pure ()

/-- Hand a child's answer on: a crossing as it is, a finished insertion with the node at `slot`
relinked. -/
def afterChild (slot : Slot) (relink : Slot → FrameM Unit) : InsertStep → FrameM InsertStep
  | .crossing guid depth => pure (.crossing guid depth)
  | .done r => do
    relink r.slotAfter
    pure (.done ⟨slot, r.mutated⟩)

/-- `recur` is the insertion below the node. -/
def insertIntoPrefixStep (recur : Slot → Nat → FrameM InsertStep) (pfxSlot : Slot)
    (key : SearchKey) (value : List UInt8) (depth seq : Nat) (condition : InsertCondition) :
    FrameM InsertStep := do
  let F ← get
  let p ← lift (readPrefix F pfxSlot)
  let common := key.commonPrefixWithSlice depth p.bytes
  if common = p.bytes.length then
    let r ← recur p.child (depth + p.bytes.length)
    afterChild pfxSlot (relinkPrefix pfxSlot p.child) r
  else if key.len ≤ depth + common then
    throw (.notYetImplemented "walker::insert_into_prefix: key terminates inside a prefix")
  else if condition.isVersion then pure (.done ⟨pfxSlot, false⟩)
  else
    let existingBranchSlot ← wrapPrefix (p.bytes.drop (common + 1)) p.child
    let finalSlot ← writeLeafSplit existingBranchSlot key value seq
      ⟨p.bytes.take common, p.bytes.getD common 0, (key.byteAt (depth + common)).getD 0⟩
    freeNode pfxSlot
    pure (.done ⟨finalSlot, true⟩)

def insertIntoInnerStep (recur : Slot → Nat → FrameM InsertStep) (innerSlot : Slot)
    (ntype : NodeType) (key : SearchKey) (value : List UInt8) (depth seq : Nat)
    (condition : InsertCondition) : FrameM InsertStep := do
  match key.byteAt depth with
  | none =>
    throw (.notYetImplemented "walker::insert_into_inner: key terminates at an inner node")
  | some byte =>
    let F ← get
    match ← lift (innerFindChild F innerSlot ntype byte) with
    | some childSlot =>
      let r ← recur childSlot (depth + 1)
      afterChild innerSlot (relinkInner innerSlot ntype byte childSlot) r
    | none =>
      if condition.isVersion then pure (.done ⟨innerSlot, false⟩)
      else
        let newLeaf ← writeLeaf key value seq
        let possiblyGrown ← innerAddChild innerSlot ntype byte newLeaf
        pure (.done ⟨possiblyGrown, true⟩)

/-- A blob node is split without moving it: only its bytes get shorter. -/
def blobNodeInsertStep (slot : Slot) (key : SearchKey) (value : List UInt8) (depth seq : Nat)
    (condition : InsertCondition) : FrameM InsertStep := do
  let F ← get
  match F.bodyOfSlot slot with
  | some (.blob bn) =>
    if blobMaxInline < bn.bytes.length then
      throw (.corrupt "blob_node_insert_step: BlobNode prefix_len exceeds inline buffer")
    else
      let common := key.commonPrefixWithSlice depth bn.bytes
      if common = bn.bytes.length then
        pure (.crossing bn.childBlobGuid (depth + bn.bytes.length))
      else
        match key.byteAt (depth + common) with
        | none =>
          throw (.notYetImplemented "blob_node_insert_step: key terminates inside BlobNode prefix")
        | some newDivByte =>
          if condition.isVersion then pure (.done ⟨slot, false⟩)
          else
            let finalSlot ← writeLeafSplit slot key value seq
              ⟨bn.bytes.take common, bn.bytes.getD common 0, newDivByte⟩
            writeStructToSlot slot (.blob ⟨bn.bytes.drop (common + 1), bn.childBlobGuid⟩)
            pure (.done ⟨finalSlot, true⟩)
  | _ => throw (.corrupt "blob_node_insert_step: BlobNode body resolution failed")

def insertAtStep (key : SearchKey) (value : List UInt8) (seq : Nat)
    (condition : InsertCondition) : Nat → Slot → Nat → FrameM InsertStep
  | 0, _, _ => throw .diverged
  | fuel + 1, slot, depth => do
    let F ← get
    match ← lift (F.ntypeOf slot) with
    | .invalid => throw (.corrupt "walker::insert_at: hit NodeType::Invalid")
    | .emptyRoot => return .done (← insertIntoEmptyRoot slot key value seq condition)
    | .leaf => return .done (← insertIntoLeaf slot key value depth seq condition)
    | .prefixNode =>
      insertIntoPrefixStep (insertAtStep key value seq condition fuel) slot key value depth seq
        condition
    | .blob => blobNodeInsertStep slot key value depth seq condition
    | ntype =>
      insertIntoInnerStep (insertAtStep key value seq condition fuel) slot ntype key value depth
        seq condition

/-! ## What the pieces build -/

/-- The record a successful insertion leaves behind. -/
def newRecord (key : SearchKey) (value : List UInt8) (seq : Nat) : Record :=
  ⟨key.full, value, seq, false⟩

section Pieces

variable {F : Frame} {U R fp : Set Cell} {key : SearchKey} {value : List UInt8} {seq : Nat}
  (hk : key.len < 2 ^ 16) (hv : value.length < 2 ^ 16)

include hk hv

theorem writeLeafSplit_sat (ha : F.Alloc U) {existing : Slot} {split : LeafSplitPlan}
    (hb : split.byteExisting ≠ split.byteNew) :
    Sat (writeLeafSplit existing key value seq split) F
      (fun s F' => ∃ new, Wraps F F' U (fun t => Art.chain split.commonPrefix
        (Art.branch split.byteExisting t split.byteNew (.leaf (newRecord key value seq))))
        existing s new)
      (Refused F U) := by
  refine (writeLeaf_sat ha seq hk hv).andThen fun nl F₁ ⟨fpl, h₁⟩ => ?_
  refine (writeNode4With_sat h₁ hb).andThen fun n4 F₂ ⟨new, h₂⟩ => ?_
  exact (wrapPrefix_sat h₂.alloc _ n4).mono (fun s F₃ ⟨new', h₃⟩ => ⟨_, h₂.trans h₃⟩)
    fun _ _ he => h₂.refused he

theorem insertIntoEmptyRoot_sat {s : Slot} (hn : F.NodeAt s .emptyRoot) (hs : .slot s ∉ R)
    (ha : F.Alloc (insert (.slot s) R)) {condition : InsertCondition}
    (hc : condition.isVersion = false) :
    Sat (insertIntoEmptyRoot s key value seq condition) F
      (fun r F' => r.mutated = true ∧
        ∃ fp, Built F F' R ∅ (.leaf (newRecord key value seq)) r.slotAfter fp)
      (Refused F (insert (.slot s) R)) := by
  unfold insertIntoEmptyRoot
  rw [hc, if_neg Bool.false_ne_true]
  refine (writeLeaf_sat ha seq hk hv).andThen fun nl F₁ ⟨fpl, h₁⟩ => ?_
  have hn₁ := hn.same h₁.same (Set.mem_union_left _ (Set.mem_insert ..))
  refine (freeNode_built h₁ (Set.subset_insert ..) (Set.mem_insert ..) hs hn₁.1
    fun _ _ => False).bind (fun _ F₂ h₂ => ?_) fun _ _ he => he.elim
  exact .pure ⟨rfl, fpl, h₂⟩

end Pieces

/-- The header counter is nobody's cell. -/
theorem settleTombstone_sat {F₀ F : Frame} {R fp₀ fp : Set Cell} {t : Art} {s : Slot}
    (h : Built F₀ F R fp₀ t s fp) (was : Bool) (err : Error → Frame → Prop) :
    Sat (settleTombstone was) F (fun _ F' => Built F₀ F' R ∅ t s fp) err := by
  rw [settleTombstone, sat_modify]
  cases was with
  | false => exact h.after h.alloc (Same.refl ..)
  | true =>
    exact h.after (h.alloc.congr rfl rfl rfl rfl)
      ⟨fun _ _ => ⟨rfl, rfl⟩, fun _ _ => rfl, le_rfl, rfl, rfl⟩

/-- Overwriting from the value's first byte on keeps the length header and the key. -/
theorem Frame.Stores.data_overwrite {F : Frame} {l : Leaf} {r : Record} (h : F.Stores l r)
    {value tail : List UInt8} (hp : value <+: tail) (i : Nat)
    (hi : i < (leafBytes r.key value).length) :
    (F.putBytes (l.keyOffset + 2 + r.key.length) tail).data (l.keyOffset + i) =
      (leafBytes r.key value)[i] := by
  have hlen := hp.length_le
  have hhead : (u16ToLeBytes r.key.length ++ r.key).length = 2 + r.key.length := by
    simp [u16ToLeBytes]
    omega
  rw [length_leafBytes] at hi
  by_cases hlt : i < 2 + r.key.length
  · -- the header and the key come from the old extent
    have hold := h.data i (by rw [length_leafBytes]; omega)
    have hlt' : i < (u16ToLeBytes r.key.length ++ r.key).length := by omega
    rw [putBytes_data_of_lt tail (by omega), hold]
    simp only [leafBytes]
    rw [List.getElem_append_left hlt', List.getElem_append_left hlt']
  · obtain ⟨j, rfl⟩ : ∃ j, i = 2 + r.key.length + j := ⟨i - (2 + r.key.length), by omega⟩
    have hj : j < tail.length := by omega
    have hge : (u16ToLeBytes r.key.length ++ r.key).length ≤ 2 + r.key.length + j := by omega
    rw [show l.keyOffset + (2 + r.key.length + j) = l.keyOffset + 2 + r.key.length + j by omega,
      putBytes_data hj]
    simp only [leafBytes]
    rw [List.getElem_append_right hge]
    simp only [hhead, Nat.add_sub_cancel_left]
    exact (hp.getElem (by omega)).symm

section UpdateLeaf

variable {F : Frame} {R : Set Cell} {key : SearchKey} {value : List UInt8} {seq : Nat} {s : Slot}
  {l : Leaf} {r : Record} (hn : F.NodeAt s (.leaf l)) (hst : F.Stores l r)
  (hkey : r.key = key.full) (hs : .slot s ∉ R)
  (hd : Disjoint R (extentCells l.keyOffset (leafExtentSize r.key.length r.value.length)))
  (ha : F.Alloc
    (R ∪ insert (.slot s) (extentCells l.keyOffset (leafExtentSize r.key.length r.value.length))))
  (hk : key.len < 2 ^ 16)

include hn hst hkey hs hd ha hk

/-- New bytes and a new body in the old extent and the old slot. -/
theorem overwrite_built {tail : List UInt8} {l' : Leaf} (hp : value <+: tail)
    (hfit : 2 + r.key.length + tail.length ≤ leafExtentSize r.key.length r.value.length)
    (hext : leafExtentSize r.key.length value.length ≤
      leafExtentSize r.key.length r.value.length)
    (hl : l' = ⟨value.length, false, l.keyOffset, seq⟩) :
    Built F { F.putBytes (l.keyOffset + 2 + r.key.length) tail with
        bodies := Function.update F.bodies s (.leaf l') } R ∅ (.leaf (newRecord key value seq)) s
      (insert (.slot s) (extentCells l.keyOffset (leafExtentSize r.key.length value.length))) := by
  subst hl
  have hsub : extentCells l.keyOffset (leafExtentSize r.key.length value.length) ⊆
      extentCells l.keyOffset (leafExtentSize r.key.length r.value.length) := by
    rintro _ ⟨a, rfl, h, h'⟩
    exact ⟨a, rfl, h, by omega⟩
  have hput : F.Same (F.putBytes (l.keyOffset + 2 + r.key.length) tail) R := by
    refine same_putBytes _ _ _ fun a h h' hm => Set.disjoint_left.mp hd hm ?_
    exact byte_mem_extentCells.mpr ⟨by omega, by omega⟩
  have hfits := hst.fits
  refine ⟨⟨⟨value.length, false, l.keyOffset, seq⟩, ?_, ⟨rfl, rfl, rfl, ?_, ?_, ?_⟩, ?_⟩,
    Set.empty_subset _, ?_, ?_, ?_⟩
  · exact nodeAt_write (F := F.putBytes (l.keyOffset + 2 + r.key.length) tail) hn.1
  · simpa [newRecord] using hk
  · change l.keyOffset + leafExtentSize key.full.length value.length ≤ pageSize
    rw [← hkey]
    omega
  · rw [newRecord, ← hkey]
    exact hst.data_overwrite hp
  · rw [newRecord, ← hkey]
  · rw [Set.disjoint_insert_right]
    exact ⟨hs, hd.mono_right hsub⟩
  · refine ((ha.mono ?_).putBytes _ tail).write s _
    exact Set.union_subset_union_right R (Set.insert_subset_insert hsub)
  · rw [Set.union_empty]
    exact hput.trans (same_write (F.putBytes _ tail) s _ hs)

theorem updateLeaf_sat (hv : value.length < 2 ^ 16) :
    Sat (updateLeaf s l key value seq) F
      (fun ret F' => ret.mutated = true ∧
        ∃ fp, Built F F' R ∅ (.leaf (newRecord key value seq)) ret.slotAfter fp)
      (Refused F (R ∪ insert (.slot s)
        (extentCells l.keyOffset (leafExtentSize r.key.length r.value.length)))) := by
  have hklen : key.len = r.key.length := by rw [hkey, SearchKey.length_full]
  have hfits := hst.fits
  have hge := leafExtentSize_ge r.key.length r.value.length
  have hge' := leafExtentSize_ge r.key.length value.length
  unfold updateLeaf
  simp only [hklen, hst.valueSize]
  split
  · rename_i hsame
    obtain ⟨htomb, hlen⟩ := hsame
    rw [if_neg (by omega)]
    simp only [sat_bind, sat_modify]
    have hn₁ : (F.putBytes (l.keyOffset + 2 + r.key.length) value).NodeAt s (.leaf l) := hn
    simp only [writeLeafSeq, sat_bind, sat_get, hn₁.bodyOfSlot, sat_set, sat_pure, true_and]
    exact ⟨_, overwrite_built hn hst hkey hs hd ha hk List.prefix_rfl (by omega) (by rw [hlen])
      (by rw [hlen, ← hst.valueSize, ← htomb])⟩
  · split
    · rename_i hle
      have htail : (value ++ List.replicate (leafExtentSize r.key.length r.value.length - 2 -
          r.key.length - value.length) (0 : UInt8)).length =
          leafExtentSize r.key.length r.value.length - 2 - r.key.length := by
        rw [List.length_append, List.length_replicate]
        omega
      rw [if_neg (by omega)]
      simp only [sat_bind, sat_modify]
      have hn₁ : (F.putBytes (l.keyOffset + 2 + r.key.length) (value ++ List.replicate
          (leafExtentSize r.key.length r.value.length - 2 - r.key.length - value.length) 0)).NodeAt
          s (.leaf l) := hn
      refine (writeStructToSlot_sat (b := .leaf (.live l.keyOffset (value.length % 2 ^ 16) seq))
        hn₁.1 fun _ _ => False).mono (fun _ F₁ h₁ => ?_) fun _ _ he => he.elim
      subst h₁
      have hb := overwrite_built hn hst hkey hs hd ha hk (List.prefix_append value _)
        (by rw [htail]; omega) hle
        (show Leaf.live l.keyOffset (value.length % 2 ^ 16) seq = _ by
          rw [Nat.mod_eq_of_lt hv]; rfl)
      refine (settleTombstone_sat hb l.tombstone fun _ _ => False).mono (fun _ F₂ h₂ => ?_)
        fun _ _ he => he.elim
      exact .pure ⟨rfl, _, h₂⟩
    · -- the value outgrew its extent
      apply (writeLeaf_sat ha seq hk hv).andThen
      rintro nl F₁ ⟨fpl, h₁⟩
      have hmem : .slot s ∈ R ∪ insert (.slot s)
          (extentCells l.keyOffset (leafExtentSize r.key.length r.value.length)) :=
        Set.mem_union_right _ (Set.mem_insert ..)
      have hn₁ := hn.same h₁.same (Set.mem_union_left _ hmem)
      refine (freeNode_built h₁ Set.subset_union_left hmem hs hn₁.1 fun _ _ => False).bind
        (fun _ F₂ h₂ => ?_) fun _ _ he => he.elim
      refine (settleTombstone_sat h₂ l.tombstone fun _ _ => False).bind (fun _ F₃ h₃ => ?_)
        fun _ _ he => he.elim
      exact .pure ⟨rfl, _, h₃⟩

end UpdateLeaf

/-! ## The frame mirrors the tree -/

/-- The frame's answer is the tree's answer. An insertion that changes nothing leaves the frame
as it was. -/
def InsertStep.Mirrors (F : Frame) (R : Set Cell) (s : Slot) (F' : Frame) :
    Art.InsertResult → InsertStep → Prop
  | .done t mutated, .done r => r.mutated = mutated ∧ (∃ fp, Built F F' R ∅ t r.slotAfter fp) ∧
      (mutated = false → F' = F ∧ r.slotAfter = s)
  | .crossing guid depth, .crossing guid' depth' => guid' = guid ∧ depth' = depth ∧ F' = F
  | _, _ => False

/-- A failure keeps everything in use; it is a blob too full for what the tree would become, or
the refusal the tree names. -/
def InsertFails (F : Frame) (U : Set Cell) (res : Art.InsertResult) (e : Error) (F' : Frame) :
    Prop :=
  F.Kept F' U ∧ ((e.IsResource ∧ ∃ t, res = .done t true) ∨
    ∃ context, res = .fail context ∧ e = .notYetImplemented context)

/-- From `F` the program does to the tree at `s` what `res` says. Beside it the cells `R` are in
use, and all together `U`. -/
def Frame.Mirrors (F : Frame) (R U : Set Cell) (s : Slot) (res : Art.InsertResult)
    (x : FrameM InsertStep) : Prop :=
  Sat x F (fun st F' => InsertStep.Mirrors F R s F' res st) (InsertFails F U res)

section Mirrors

variable {F : Frame} {R fp : Set Cell} {t : Art} {s : Slot} {key : SearchKey}
  {value : List UInt8} {seq : Nat} {condition : InsertCondition}

variable {F' : Frame} {c : Slot}

theorem Refused.insertFails {U : Set Cell} {e : Error} (h : Refused F U e F') (t : Art) :
    InsertFails F U (.done t true) e F' :=
  ⟨h.1, Or.inl ⟨h.2, t, rfl⟩⟩

theorem InsertFails.of_throw (ha : F.Alloc fp) {res : Art.InsertResult} {context : String}
    (h : res = .fail context) : InsertFails F fp res (.notYetImplemented context) F :=
  ⟨Kept.refl ha, Or.inr ⟨context, h, rfl⟩⟩

theorem Mirrors.unchanged (hr : F.Rep t s fp) (hd : Disjoint R fp) (ha : F.Alloc (R ∪ fp)) :
    InsertStep.Mirrors F R s F (.done t false) (.done ⟨s, false⟩) := by
  refine ⟨rfl, ⟨fp, (Built.refl hr hd ha).after ha (Same.refl ..)⟩, fun _ => ⟨rfl, rfl⟩⟩

theorem Mirrors.changed {r : InsertReturn} (hm : r.mutated = true)
    (h : ∃ fp, Built F F' R ∅ t r.slotAfter fp) :
    InsertStep.Mirrors F R s F' (.done t true) (.done r) :=
  ⟨hm, h, fun h => absurd h Bool.noConfusion⟩

theorem admitsLeaf_eq {l : Leaf} {r : Record} (h : F.Stores l r) (c : InsertCondition) :
    c.admitsLeaf l = c.admits r := by
  cases c <;> simp only [InsertCondition.admitsLeaf, InsertCondition.admits, h.tombstone, h.seq]

theorem readLeafKeyRef_eq {l : Leaf} {r : Record} (hn : F.NodeAt s (.leaf l))
    (h : F.Stores l r) : readLeafKeyRef F s = .ok (r.key, l) := by
  simp [readLeafKeyRef, hn.bodyOfSlot, h.leafKeyExtent, Except.map]

/-- After the child's tree was built at `c'`, the prefix node leads to it. -/
theorem relinkPrefix_sat {bytes : List UInt8} {c' : Slot} {fp' : Set Cell}
    (hb : Built F F' (insert (.slot s) R) ∅ t c' fp') (hn : F.NodeAt s (.pfx ⟨bytes, c⟩))
    (hs : .slot s ∉ R) (err : Error → Frame → Prop) :
    Sat (relinkPrefix s c c') F'
      (fun _ F'' => (∃ fp, Built F F'' R ∅ (.pfx bytes t) s fp) ∧ (c' = c → F'' = F')) err := by
  unfold relinkPrefix
  by_cases hc : c' = c
  · subst hc
    rw [if_neg (not_not.mpr rfl), sat_pure]
    exact ⟨⟨_, hb.pfx_above hn hs⟩, fun _ => rfl⟩
  · rw [if_pos hc]
    have hn' := hn.same hb.same (Set.mem_union_left _ (Set.mem_insert ..))
    refine (setPrefixChild_sat hn' hb.rep hs hb.disjoint hb.alloc err).imp fun _ F'' h => ?_
    refine ⟨⟨_, h.rep, h.sub, h.disjoint, h.alloc, ?_⟩, fun h => absurd h hc⟩
    exact (hb.same.mono (Set.union_subset_union_left _ (Set.subset_insert ..))).trans h.same

/-- The same for an inner node, whose other children stay where they are. -/
theorem relinkInner_sat {n : Inner} {has : UInt8 → Bool} {child : UInt8 → Art}
    {fps : UInt8 → Set Cell} {b : UInt8} {c' : Slot} {fp' : Set Cell}
    (hb : Built F F' (insert (.slot s) (R ∪ others fps b)) ∅ t c' fp')
    (hn : F.NodeAt s (.inner n)) (hk : F.Kids n has child fps) (hf : n.findChild b = some c)
    (hs : .slot s ∉ R) (hso : .slot s ∉ others fps b) (hd : Disjoint R (others fps b))
    (err : Error → Frame → Prop) :
    Sat (relinkInner s n.ntype b c c') F'
      (fun _ F'' => (∃ fp, Built F F'' R ∅ (.inner has (Function.update child b t)) s fp) ∧
        (c' = c → F'' = F')) err := by
  unfold relinkInner
  by_cases hc : c' = c
  · subst hc
    rw [if_neg (not_not.mpr rfl), sat_pure]
    exact ⟨⟨_, hb.inner_above hn hk hf hs hso hd rfl⟩, fun _ => rfl⟩
  · rw [if_pos hc]
    have hn' := hn.same hb.same (Set.mem_union_left _ (Set.mem_insert ..))
    obtain ⟨hkids, hsu, hdu, hau, hR⟩ := hb.kids_above hk hf hs hso hd
    refine (innerUpdateChild_sat hn' hf hb.rep hkids hk.wf hsu hdu hau err).imp fun _ F'' h => ?_
    refine ⟨⟨_, h.rep, Set.empty_subset _, h.disjoint, h.alloc, ?_⟩, fun h => absurd h hc⟩
    rw [Set.union_empty]
    exact hR.trans (h.same.mono Set.subset_union_left)

/-- A node above a changed child mirrors the tree above it. -/
theorem afterChild_mirrors {R' U : Set Cell} {res : Art.InsertResult} {f : Art → Art}
    {relink : Slot → FrameM Unit} {x : FrameM InsertStep}
    (hx : F.Mirrors R' U c res x)
    (hrelink : ∀ t c' fp' F', Built F F' R' ∅ t c' fp' →
      Sat (relink c') F' (fun _ F'' => (∃ fp, Built F F'' R ∅ (f t) s fp) ∧ (c' = c → F'' = F'))
        fun _ _ => False) :
    F.Mirrors R U s (res.mapDone f) (x >>= afterChild s relink) := by
  refine Sat.bind hx (fun st F' h => ?_) fun e F' he => ?_
  · cases res with
    | fail ctx => cases st <;> exact h.elim
    | crossing g d =>
      cases st with
      | done r => exact h.elim
      | crossing g' d' => exact .pure h
    | done t m =>
      cases st with
      | crossing g d => exact h.elim
      | done r =>
        obtain ⟨hm, ⟨fp', hb⟩, hsame⟩ := h
        refine (hrelink t _ fp' F' hb).bind (fun _ F'' h => ?_) fun _ _ he => he.elim
        refine .pure ⟨hm, h.1, fun hf => ?_⟩
        obtain ⟨rfl, hslot⟩ := hsame hf
        exact ⟨h.2 hslot, rfl⟩
  · refine ⟨he.1, he.2.imp ?_ ?_⟩
    · rintro ⟨hres, t, rfl⟩
      exact ⟨hres, f t, rfl⟩
    · rintro ⟨ctx, rfl, rfl⟩
      exact ⟨ctx, rfl, rfl⟩

section

variable (hk : key.len < 2 ^ 16) (hv : value.length < 2 ^ 16)

include hk hv

theorem insertIntoLeaf_mirrors {r : Record} (depth : Nat) (hr : F.Rep (.leaf r) s fp)
    (hd : Disjoint R fp) (ha : F.Alloc (R ∪ fp)) :
    Sat (insertIntoLeaf s key value depth seq condition) F
      (fun ret F' => InsertStep.Mirrors F R s F'
        (Art.insert (newRecord key value seq) condition (.leaf r) depth) (.done ret))
      (InsertFails F (R ∪ fp)
        (Art.insert (newRecord key value seq) condition (.leaf r) depth)) := by
  obtain ⟨l, hn, hst, hfp⟩ := id hr
  have hs : .slot s ∉ R := fun h => Set.disjoint_left.mp hd h hr.slot_mem
  simp only [insertIntoLeaf, sat_bind, sat_get, readLeafKeyRef_eq hn hst, lift_ok, sat_pure]
  unfold Art.insert
  by_cases hkey : r.key = key.full
  · rw [if_pos ((key.eqSlice_iff r.key).mpr hkey.symm), admitsLeaf_eq hst,
      if_pos (show r.key = (newRecord key value seq).key from hkey)]
    by_cases hadm : condition.admits r = true
    · rw [if_pos hadm, if_pos hadm]
      subst hfp
      refine (updateLeaf_sat hn hst hkey hs (hd.mono_right (Set.subset_insert ..)) ha hk hv).mono
        (fun ret F' h => Mirrors.changed h.1 h.2) fun _ _ he => he.insertFails _
    · rw [if_neg hadm, if_neg hadm, sat_pure]
      exact Mirrors.unchanged hr hd ha
  · rw [if_neg (fun h => hkey ((key.eqSlice_iff r.key).mp h).symm),
      if_neg (show r.key ≠ (newRecord key value seq).key from hkey)]
    simp only [SearchKey.commonPrefixWithSlice_eq, SearchKey.remainingLen, List.length_drop,
      ← SearchKey.length_full, newRecord]
    have hle := longestCommonPrefix_le_left (key.full.drop depth) (r.key.drop depth)
    have hle' := longestCommonPrefix_le_right (key.full.drop depth) (r.key.drop depth)
    rw [List.length_drop] at hle hle'
    obtain ⟨c, hc⟩ : ∃ c, longestCommonPrefix (key.full.drop depth) (r.key.drop depth) = c :=
      ⟨_, rfl⟩
    simp only [hc] at hle hle' ⊢
    by_cases hstop : c = r.key.length - depth ∨ c = key.full.length - depth
    · simp only [if_pos hstop, sat_throw]
      exact InsertFails.of_throw ha rfl
    · simp only [if_neg hstop]
      rw [not_or] at hstop
      by_cases hver : condition.isVersion = true
      · simp only [if_pos hver, sat_pure]
        exact Mirrors.unchanged hr hd ha
      · simp only [if_neg hver]
        rw [SearchKey.byteAt_eq, ← List.getD_eq_getElem?_getD]
        have hdrop : (r.key.drop depth).getD c 0 = r.key.getD (depth + c) 0 := by
          rw [List.getD_eq_getElem?_getD, List.getElem?_drop, ← List.getD_eq_getElem?_getD]
        have hne := Art.getD_common_ne hc.symm (show depth + c < key.full.length by omega)
          (show c < (r.key.drop depth).length by rw [List.length_drop]; omega)
        rw [hdrop] at hne ⊢
        refine (writeLeafSplit_sat hk hv ha hne).bind ?_ fun _ _ he => he.insertFails _
        rintro s' F' ⟨new, h⟩
        have hb := h.built hr hd
        exact .pure (Mirrors.changed rfl ⟨_, hb.after hb.alloc (Same.refl ..)⟩)

variable {depth : Nat}

theorem insertIntoPrefixStep_mirrors {bytes : List UInt8} {child : Art}
    {recur : Slot → Nat → FrameM InsertStep} (hr : F.Rep (.pfx bytes child) s fp)
    (hd : Disjoint R fp) (ha : F.Alloc (R ∪ fp))
    (hrec : longestCommonPrefix (key.full.drop depth) bytes = bytes.length → ∀ c fpc,
      F.Rep child c fpc → Disjoint (insert (.slot s) R) fpc → F.Alloc (insert (.slot s) R ∪ fpc) →
      F.Mirrors (insert (.slot s) R) (insert (.slot s) R ∪ fpc) c
        (Art.insert (newRecord key value seq) condition child (depth + bytes.length))
        (recur c (depth + bytes.length))) :
    F.Mirrors R (R ∪ fp) s
      (Art.insert (newRecord key value seq) condition (.pfx bytes child) depth)
      (insertIntoPrefixStep recur s key value depth seq condition) := by
  obtain ⟨c, fpc, hn, hchild, hsc, rfl⟩ := id hr
  obtain ⟨hs, hdc⟩ := Set.disjoint_insert_right.mp hd
  have hunion : R ∪ insert (.slot s) fpc = insert (.slot s) R ∪ fpc := by
    rw [Set.union_insert, Set.insert_union]
  have hle := longestCommonPrefix_le_left (key.full.drop depth) bytes
  have hle' := longestCommonPrefix_le_right (key.full.drop depth) bytes
  rw [List.length_drop] at hle
  obtain ⟨m, hm⟩ : ∃ m, longestCommonPrefix (key.full.drop depth) bytes = m := ⟨_, rfl⟩
  simp only [Frame.Mirrors, insertIntoPrefixStep, sat_bind, sat_get, readPrefix, hn.bodyOfSlot,
    lift_ok, sat_pure, SearchKey.commonPrefixWithSlice_eq, Art.insert,
    show (newRecord key value seq).key = key.full from rfl, hm, ← SearchKey.length_full]
  rw [hm] at hle hle' hrec
  by_cases hall : m = bytes.length
  · simp only [if_pos hall]
    rw [hunion] at ha ⊢
    exact afterChild_mirrors (hrec hall c fpc hchild (Set.disjoint_insert_left.mpr ⟨hsc, hdc⟩) ha)
      fun t c' fp' F' hb => relinkPrefix_sat hb hn hs _
  · simp only [if_neg hall]
    by_cases hend : key.full.length ≤ depth + m
    · simp only [if_pos hend, sat_throw]
      exact InsertFails.of_throw ha rfl
    · simp only [if_neg hend]
      by_cases hver : condition.isVersion = true
      · simp only [if_pos hver, sat_pure]
        exact Mirrors.unchanged hr hd ha
      · simp only [if_neg hver]
        rw [SearchKey.byteAt_eq, ← List.getD_eq_getElem?_getD]
        have hne := Art.getD_common_ne hm.symm (not_le.mp hend) (lt_of_le_of_ne hle' hall)
        rw [hunion] at ha ⊢
        have hdc' : Disjoint (insert (.slot s) R) fpc := Set.disjoint_insert_left.mpr ⟨hsc, hdc⟩
        refine (wrapPrefix_sat ha _ c).bind ?_ fun _ _ he => he.insertFails _
        rintro s₁ F₁ ⟨new₁, h₁⟩
        refine (writeLeafSplit_sat hk hv h₁.alloc hne).bind ?_
          fun _ _ he => (h₁.refused he).insertFails _
        rintro s₂ F₂ ⟨new₂, h₂⟩
        have hb := (h₁.trans h₂).built hchild hdc'
        have hn₂ := hn.same hb.same (Set.mem_union_left _ (Set.mem_insert ..))
        refine (freeNode_built hb (Set.subset_insert ..) (Set.mem_insert ..) hs hn₂.1
          fun _ _ => False).bind (fun _ F₃ h₃ => ?_) fun _ _ he => he.elim
        exact .pure (Mirrors.changed rfl ⟨_, h₃⟩)

theorem insertIntoInnerStep_mirrors {has : UInt8 → Bool} {child : UInt8 → Art} {n : Inner}
    (recur : Slot → Nat → FrameM InsertStep) (hr : F.Rep (.inner has child) s fp)
    (hn : F.NodeAt s (.inner n)) (hd : Disjoint R fp) (ha : F.Alloc (R ∪ fp))
    (hrec : ∀ b c fpc R', key.full[depth]? = some b → has b = true → F.Rep (child b) c fpc →
      Disjoint R' fpc → F.Alloc (R' ∪ fpc) → F.Mirrors R' (R' ∪ fpc) c
        (Art.insert (newRecord key value seq) condition (child b) (depth + 1))
        (recur c (depth + 1))) :
    F.Mirrors R (R ∪ fp) s
      (Art.insert (newRecord key value seq) condition (.inner has child) depth)
      (insertIntoInnerStep recur s n.ntype key value depth seq condition) := by
  have hs : .slot s ∉ R := fun h => Set.disjoint_left.mp hd h hr.slot_mem
  simp only [Frame.Mirrors, insertIntoInnerStep, Art.insert, SearchKey.byteAt_eq,
    show (newRecord key value seq).key = key.full from rfl]
  cases hb : key.full[depth]? with
  | none => exact .throw (InsertFails.of_throw ha rfl)
  | some b =>
    simp only [sat_bind, sat_get, innerFindChild, readInner_eq hn, Except.map, lift_ok, sat_pure]
    obtain ⟨n', fps, hn', hkids, hsk, hfp⟩ := rep_inner_iff.mp hr
    obtain rfl : n' = n := by
      have := hn'.bodyOfSlot.symm.trans hn.bodyOfSlot
      cases this
      rfl
    by_cases hhas : has b = true
    · obtain ⟨c, hf⟩ := hkids.findChild_some hhas
      simp only [hf, if_pos hhas]
      subst hfp
      obtain ⟨hunion, hd', hso, hdo⟩ := hkids.split hsk hd b
      rw [hunion] at ha ⊢
      exact afterChild_mirrors (hrec b c (fps b) _ hb hhas (hkids.rep b c hf) hd' ha)
        fun t c' fp' F' hbt => relinkInner_sat hbt hn hkids hf hs hso hdo _
    · have hhas' : has b = false := Bool.eq_false_iff.mpr hhas
      simp only [hkids.findChild_none hhas', if_neg hhas]
      by_cases hver : condition.isVersion = true
      · simp only [if_pos hver, sat_pure]
        exact Mirrors.unchanged hr hd ha
      · simp only [if_neg hver]
        refine (writeLeaf_sat ha seq hk hv).bind ?_ fun _ _ he => he.insertFails _
        rintro nl F₁ ⟨fpl, h₁⟩
        have hsame₁ : F.Same F₁ (R ∪ fp) := h₁.same.mono Set.subset_union_left
        have hr₁ := hr.same hsame₁ Set.subset_union_right
        have hn₁ := hn.same hsame₁ (Set.mem_union_right _ hr.slot_mem)
        obtain ⟨hdR, hdfp⟩ := Set.disjoint_union_left.mp h₁.disjoint
        have hassoc : R ∪ (fpl ∪ fp) = (R ∪ fp) ∪ fpl := by
          rw [Set.union_comm fpl, Set.union_assoc]
        refine (innerAddChild_sat hr₁ hn₁ h₁.rep hhas' hdfp
          (Set.disjoint_union_right.mpr ⟨hdR, hd⟩) (hassoc ▸ h₁.alloc)).bind ?_ fun e F₂ he => ?_
        · rintro s' F₂ ⟨fp', h₂⟩
          refine .pure (Mirrors.changed rfl
            ⟨fp', h₂.rep, h₂.sub, h₂.disjoint, h₂.alloc, ?_⟩)
          rw [Set.union_empty]
          exact (hsame₁.mono Set.subset_union_left).trans (h₂.same.mono Set.subset_union_left)
        · rw [hassoc] at he
          refine Refused.insertFails ⟨?_, he.2⟩ _
          exact ⟨he.1.alloc.mono Set.subset_union_left,
            hsame₁.trans (he.1.same.mono Set.subset_union_left)⟩

theorem blobNodeInsertStep_mirrors {bytes : List UInt8} {guid : BlobGuid}
    (hr : F.Rep (.blob bytes guid) s fp) (hd : Disjoint R fp) (ha : F.Alloc (R ∪ fp))
    (hw : bytes.length ≤ blobMaxInline) :
    F.Mirrors R (R ∪ fp) s
      (Art.insert (newRecord key value seq) condition (.blob bytes guid) depth)
      (blobNodeInsertStep s key value depth seq condition) := by
  obtain ⟨hn, hfp⟩ := id hr
  have hle := longestCommonPrefix_le_right (key.full.drop depth) bytes
  obtain ⟨m, hm⟩ : ∃ m, longestCommonPrefix (key.full.drop depth) bytes = m := ⟨_, rfl⟩
  simp only [Frame.Mirrors, blobNodeInsertStep, sat_bind, sat_get, hn.bodyOfSlot,
    if_neg (not_lt.mpr hw), SearchKey.commonPrefixWithSlice_eq, SearchKey.byteAt_eq, Art.insert,
    show (newRecord key value seq).key = key.full from rfl, hm]
  rw [hm] at hle
  by_cases hall : m = bytes.length
  · simp only [if_pos hall, sat_pure]
    exact ⟨rfl, rfl, rfl⟩
  · simp only [if_neg hall]
    cases hb : key.full[depth + m]? with
    | none => exact .throw (InsertFails.of_throw ha rfl)
    | some b =>
      by_cases hver : condition.isVersion = true
      · simp only [if_pos hver, sat_pure]
        exact Mirrors.unchanged hr hd ha
      · simp only [if_neg hver]
        obtain ⟨hlt, hget⟩ := List.getElem?_eq_some_iff.mp hb
        have hne := Art.getD_common_ne hm.symm hlt (lt_of_le_of_ne hle hall)
        rw [← List.getElem_eq_getD (h := hlt), hget] at hne
        refine (writeLeafSplit_sat hk hv ha hne).bind ?_ fun _ _ he => he.insertFails _
        rintro s' F₁ ⟨new, h₁⟩
        subst hfp
        obtain ⟨hdR, hds⟩ := Set.disjoint_union_left.mp h₁.fresh
        have hn₁ := hn.same h₁.same (Set.mem_union_right _ rfl)
        refine (writeStructToSlot_sat (b := .blob ⟨bytes.drop (m + 1), guid⟩) hn₁.1
          fun _ _ => False).bind (fun _ F₂ h₂ => ?_) fun _ _ he => he.elim
        subst h₂
        -- the old slot now holds the shorter node, below the new branch
        have hsnew : .slot s ∉ new := Set.disjoint_left.mp hds rfl
        let short : Body := .blob ⟨bytes.drop (m + 1), guid⟩
        have hshort : Rep { F₁ with bodies := Function.update F₁.bodies s short }
            (.blob (bytes.drop (m + 1)) guid) s {.slot s} := ⟨nodeAt_write hn₁.1, rfl⟩
        have hrep := h₁.rep (same_write F₁ s _ hsnew) hshort hds.symm
        refine .pure (Mirrors.changed rfl ⟨_, hrep, Set.empty_subset _, ?_, ?_, ?_⟩)
        · exact Set.disjoint_union_right.mpr ⟨hdR, hd⟩
        · refine (h₁.alloc.mono ?_).write s _
          rw [Set.union_comm new, ← Set.union_assoc]
        · rw [Set.union_empty]
          exact (h₁.same.mono Set.subset_union_left).trans
            (same_write F₁ s _ fun h => Set.disjoint_left.mp hd h rfl)

/-- Inside one blob the walker does to the frame what `Art.insert` does to the tree. -/
theorem insertAtStep_mirrors {π : List UInt8} {fuel : Nat} (hr : F.Rep t s fp)
    (hd : Disjoint R fp) (ha : F.Alloc (R ∪ fp)) (hw : t.Wf π) (hπ : π <+: key.full)
    (hfuel : t.height < fuel) :
    F.Mirrors R (R ∪ fp) s (Art.insert (newRecord key value seq) condition t π.length)
      (insertAtStep key value seq condition fuel s π.length) := by
  induction t generalizing F R s fp π fuel with
  | emptyRoot =>
    obtain ⟨m, rfl⟩ := succ_of_lt hfuel
    obtain ⟨hn, rfl⟩ := id hr
    have hs : .slot s ∉ R := fun h => Set.disjoint_left.mp hd h rfl
    simp only [Frame.Mirrors, insertAtStep, sat_bind, sat_get, hn.ntypeOf, Body.ntype, lift_ok,
      sat_pure, Art.insert]
    by_cases hver : condition.isVersion = true
    · simp only [insertIntoEmptyRoot, hver, if_true, sat_pure]
      exact Mirrors.unchanged hr hd ha
    · simp only [hver, Bool.false_eq_true, if_false]
      rw [Set.union_singleton] at ha ⊢
      exact (insertIntoEmptyRoot_sat hk hv hn hs ha (Bool.eq_false_iff.mpr hver)).mono
        (fun r F' h => Mirrors.changed h.1 h.2) fun _ _ he => he.insertFails _
  | leaf r =>
    obtain ⟨m, rfl⟩ := succ_of_lt hfuel
    obtain ⟨l, hn, -⟩ := id hr
    simp only [Frame.Mirrors, insertAtStep, sat_bind, sat_get, hn.ntypeOf, Body.ntype, lift_ok,
      sat_pure]
    exact insertIntoLeaf_mirrors hk hv _ hr hd ha
  | pfx bytes child ih =>
    obtain ⟨m, rfl⟩ := succ_of_lt hfuel
    obtain ⟨c, fpc, hn, -⟩ := id hr
    simp only [Frame.Mirrors, insertAtStep, sat_bind, sat_get, hn.ntypeOf, Body.ntype, lift_ok,
      sat_pure]
    refine insertIntoPrefixStep_mirrors hk hv hr hd ha fun hc c fpc hchild hdc hac => ?_
    have hnext : π ++ bytes <+: key.full := Art.prefix_of_next hπ
      ⟨hπ.length_le, longestCommonPrefix_eq_right.mp hc⟩
    simp only [Art.height] at hfuel
    have := ih hchild hdc hac hw.2.2 hnext (show child.height < m by omega)
    rwa [List.length_append] at this
  | inner has child ih =>
    obtain ⟨m, rfl⟩ := succ_of_lt hfuel
    obtain ⟨n, fps, hn, -⟩ := rep_inner_iff.mp hr
    have hstep := insertIntoInnerStep_mirrors hk hv (insertAtStep key value seq condition m) hr hn
      hd ha fun b c fpc R' hb hhas hchild hdc hac => by
        have hlt := Art.height_child child hhas
        have := ih b hchild hdc hac (hw b hhas) (Art.prefix_snoc hπ hb)
          (show (child b).height < m by omega)
        rwa [List.length_append, List.length_singleton] at this
    simp only [Frame.Mirrors, insertAtStep, sat_bind, sat_get, hn.ntypeOf, Body.ntype, lift_ok,
      sat_pure]
    cases n <;> exact hstep
  | blob bytes guid =>
    obtain ⟨m, rfl⟩ := succ_of_lt hfuel
    simp only [Frame.Mirrors, insertAtStep, sat_bind, sat_get, hr.1.ntypeOf, Body.ntype, lift_ok,
      sat_pure]
    exact blobNodeInsertStep_mirrors hk hv hr hd ha hw

end

end Mirrors

end Holt
