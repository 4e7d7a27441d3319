import Holt.Inner

/-! One 512 KB blob: header, slot table, node bodies and leaf extents.

Bodies are kept by slot, since a slot's offset never changes once it exists and live bodies do
not overlap. Leaf extents are bytes at their offset. -/

namespace Holt

inductive Body
  | leaf (l : Leaf)
  | pfx (p : Prefix)
  | blob (b : BlobNode)
  | inner (n : Inner)
  | emptyRoot

def Body.ntype : Body → NodeType
  | .leaf _ => .leaf
  | .pfx _ => .prefixNode
  | .blob _ => .blob
  | .inner n => n.ntype
  | .emptyRoot => .emptyRoot

structure Frame where
  blobGuid : BlobGuid
  numSlots : Nat
  rootSlot : Slot
  spaceUsed : Nat
  numExtBlobs : Nat
  compactTimes : Nat
  gapSpace : Nat
  tombstoneLeafCnt : Nat
  freeListHead : NodeType → Slot
  slots : Slot → Nat
  bodies : Slot → Body
  data : Nat → UInt8

/-- Code that works on one frame under its exclusive latch. -/
abbrev FrameM := EStateM Error Frame

namespace Frame

/-- A zeroed page with its name and the start of the data area filled in. -/
def blank (guid : BlobGuid) : Frame where
  blobGuid := guid
  numSlots := 0
  rootSlot := 0
  spaceUsed := dataAreaStart
  numExtBlobs := 0
  compactTimes := 0
  gapSpace := 0
  tombstoneLeafCnt := 0
  freeListHead _ := 0
  slots _ := 0
  bodies _ := .emptyRoot
  data _ := 0

def slotEntry (F : Frame) (slot : Slot) : Option SlotEntry :=
  if slot = 0 ∨ F.numSlots < slot then none else some (SlotEntry.decode (F.slots slot))

def writeSlotEntry (F : Frame) (slot : Slot) (entry : SlotEntry) : Frame :=
  { F with slots := Function.update F.slots slot entry.raw }

/-- The type of the node whose body bytes the slot resolves to. -/
def bodyType (F : Frame) (slot : Slot) : Option NodeType :=
  match F.slotEntry slot with
  | none => none
  | some e =>
    match e.nodeType with
    | none => none
    | some ntype =>
      if ntype = .invalid ∨ pageSize < e.byteOffset + sizeOfNode ntype then none else some ntype

/-- The body read at that type. Bodies are typed here, so one left behind by another kind of
node is refused; an empty root has no content to read. -/
def bodyOfSlot (F : Frame) (slot : Slot) : Option Body :=
  match F.bodyType slot with
  | none => none
  | some ntype =>
    if ntype = .emptyRoot then some .emptyRoot
    else if (F.bodies slot).ntype = ntype then some (F.bodies slot)
    else none

def bytesAt (F : Frame) (offset len : Nat) : Option (List UInt8) :=
  if pageSize < offset + len then none
  else some ((List.range len).map fun i => F.data (offset + i))

/-- Overwrite the bytes at `offset`. -/
def putBytes (F : Frame) (offset : Nat) (bs : List UInt8) : Frame :=
  { F with
    data := fun a =>
      if offset ≤ a ∧ a < offset + bs.length then bs.getD (a - offset) 0 else F.data a }

/-! ## Allocation -/

/-- Pop the head of the free list of `list` and make it a live `ntype`. -/
def takeFree (list ntype : NodeType) : FrameM Slot := do
  let F ← get
  let head := F.freeListHead list
  match F.slotEntry head with
  | none => throw (.alloc .invalidRequest)
  | some e =>
    set { F.writeSlotEntry head (.live ntype e.byteOffset) with
      freeListHead := Function.update F.freeListHead list e.nextFree
      gapSpace := (F.gapSpace + sizeOfNode ntype) % 2 ^ 32 }
    pure head

/-- Prefix and blob bodies have one size and may take each other's freed slots. -/
def sibling : NodeType → Option NodeType
  | .blob => some .prefixNode
  | .prefixNode => some .blob
  | _ => none

/-- Bytes a new node may take; the reserved tail is for blob nodes only. -/
def nodeAvail (F : Frame) (ntype : NodeType) : Nat :=
  if ntype = .blob then pageSize - F.spaceUsed else pageSize - F.spaceUsed - spilloverReservation

/-- Take the next slot index and the next bytes of the data area. -/
def bumpNode (ntype : NodeType) : FrameM Slot := do
  let F ← get
  if maxSlots ≤ F.numSlots then
    throw (.alloc .outOfSlots)
  else if F.nodeAvail ntype < sizeOfNode ntype then
    throw (.alloc (.outOfSpace (sizeOfNode ntype) (F.nodeAvail ntype)))
  else
    let slot := F.numSlots + 1
    set { F.writeSlotEntry slot (.live ntype F.spaceUsed) with
      numSlots := F.numSlots + 1
      spaceUsed := F.spaceUsed + sizeOfNode ntype
      gapSpace := (F.gapSpace + sizeOfNode ntype) % 2 ^ 32 }
    pure slot

def allocNodeInner (ntype : NodeType) : FrameM Slot := do
  let F ← get
  if ntype = .invalid then
    throw (.alloc .invalidRequest)
  else if F.freeListHead ntype ≠ 0 then
    takeFree ntype ntype
  else
    match sibling ntype with
    | some other => if F.freeListHead other ≠ 0 then takeFree other ntype else bumpNode ntype
    | none => bumpNode ntype

def allocNode (ntype : NodeType) : FrameM Slot := do
  let slot ← allocNodeInner ntype
  modify fun F =>
    if ntype = .blob then { F with numExtBlobs := min (F.numExtBlobs + 1) (2 ^ 16 - 1) } else F
  pure slot

def freeNode (slot : Slot) : FrameM Unit := do
  let F ← get
  match F.slotEntry slot with
  | none => throw (.free (.invalidSlot slot))
  | some e =>
    match e.nodeType with
    | none => throw (.free (.typeMismatch slot e.ntypeOrNextFree))
    | some ntype =>
      if ntype = .invalid then
        throw (.free (.typeMismatch slot e.ntypeOrNextFree))
      else
        set { F.writeSlotEntry slot (.freed (F.freeListHead ntype) e.byteOffset) with
          freeListHead := Function.update F.freeListHead ntype slot
          numExtBlobs := if ntype = NodeType.blob then F.numExtBlobs - 1 else F.numExtBlobs }

/-- Take bytes for a leaf's key and value; the slot table is not touched. -/
def allocExtent (size : Nat) : FrameM Nat := do
  let F ← get
  if size = 0 then
    throw (.alloc .invalidRequest)
  else
    let aligned := (size + 7) / 8 * 8
    let avail := pageSize - F.spaceUsed - spilloverReservation
    if avail < aligned then
      throw (.alloc (.outOfSpace aligned avail))
    else
      set { F with spaceUsed := F.spaceUsed + aligned }
      pure F.spaceUsed

/-- A fresh blob: a blank page whose root is the empty-tree sentinel in slot 1. -/
def init (guid : BlobGuid) : Except Error Frame :=
  match allocNode .emptyRoot (blank guid) with
  | .ok slot F => .ok { F with rootSlot := slot }
  | .error e _ => .error e

/-! ## Reading and writing bodies -/

def ntypeOf (F : Frame) (slot : Slot) : Except Error NodeType :=
  match F.slotEntry slot with
  | none => .error (.corrupt "walker: invalid slot")
  | some e =>
    match e.nodeType with
    | none => .error (.corrupt "walker: undecodable node type")
    | some ntype => .ok ntype

def resolveTyped (F : Frame) (slot : Slot) : Except Error Body :=
  match F.ntypeOf slot with
  | .error e => .error e
  | .ok _ =>
    match F.bodyOfSlot slot with
    | none => .error (.corrupt "walker: body resolution failed")
    | some b => .ok b

/-- The copy of a body over bytes of another length would panic. -/
def writeStructToSlot (slot : Slot) (b : Body) : FrameM Unit := do
  let F ← get
  match F.bodyType slot with
  | none => throw (.corrupt "write_struct_to_slot: body")
  | some ntype =>
    if sizeOfNode ntype = sizeOfNode b.ntype then
      set { F with bodies := Function.update F.bodies slot b }
    else
      throw (.internal "copy_from_slice: source slice length does not match")

/-- Allocate a slot of the body's type and write the body. -/
def newNode (b : Body) : FrameM Slot := do
  let slot ← allocNode b.ntype
  writeStructToSlot slot b
  pure slot

end Frame

end Holt
