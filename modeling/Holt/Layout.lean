import Holt.Lib.Program

/-! The on-disk vocabulary: constants, node types, slot entries and node bodies. -/

namespace Holt

/-- A blob's 16-byte name; only equality is ever asked of it. -/
abbrev BlobGuid := Nat

/-- The root blob of a tree. -/
def rootBlobGuid : BlobGuid := 0

/-- A 1-based index into the slot table; 0 is "no slot". -/
abbrev Slot := Nat

def pageSize : Nat := 0x80000

def maxSlots : Nat := 0x2800

def dataAreaStart : Nat := 0xB000

/-- Bytes at the end of the data area that only a blob node may take. -/
def spilloverReservation : Nat := 128

def prefixMaxInline : Nat := 112

def blobMaxInline : Nat := 104

inductive NodeType
  | invalid | leaf | prefixNode | blob | node4 | node16 | node48 | node256 | emptyRoot
  deriving DecidableEq, Repr

namespace NodeType

def asU8 : NodeType → Nat
  | .invalid => 0
  | .leaf => 1
  | .prefixNode => 2
  | .blob => 3
  | .node4 => 4
  | .node16 => 5
  | .node48 => 6
  | .node256 => 7
  | .emptyRoot => 8

def fromRaw : Nat → Option NodeType
  | 0 => some .invalid
  | 1 => some .leaf
  | 2 => some .prefixNode
  | 3 => some .blob
  | 4 => some .node4
  | 5 => some .node16
  | 6 => some .node48
  | 7 => some .node256
  | 8 => some .emptyRoot
  | _ => none

theorem asU8_le (t : NodeType) : t.asU8 ≤ 8 := by cases t <;> decide

end NodeType

/-- Body size by node type. The source asserts that it is never asked of `invalid`. -/
def sizeOfNode : NodeType → Nat
  | .invalid => 0
  | .leaf => 16
  | .prefixNode => 128
  | .blob => 128
  | .node4 => 24
  | .node16 => 88
  | .node48 => 456
  | .node256 => 1032
  | .emptyRoot => 8

theorem sizeOfNode_mod (t : NodeType) : sizeOfNode t % 8 = 0 := by cases t <;> rfl

/-- A slot table entry: where the body is, and either the type of a live node or the next
slot of the free list. -/
structure SlotEntry where
  offsetDiv8 : Nat
  ntypeOrNextFree : Nat
  deriving DecidableEq, Repr

namespace SlotEntry

def live (ntype : NodeType) (byteOffset : Nat) : SlotEntry :=
  ⟨byteOffset / 8, ntype.asU8⟩

def freed (nextFreeSlot : Slot) (byteOffset : Nat) : SlotEntry :=
  ⟨byteOffset / 8, nextFreeSlot⟩

def byteOffset (e : SlotEntry) : Nat := e.offsetDiv8 * 8

/-- The tag is cut to its low eight bits before it is decoded. -/
def nodeType (e : SlotEntry) : Option NodeType := NodeType.fromRaw (e.ntypeOrNextFree % 2 ^ 8)

def nextFree (e : SlotEntry) : Slot := e.ntypeOrNextFree

/-- The packed 32-bit word: 17 bits of offset under 15 bits of tag. -/
def raw (e : SlotEntry) : Nat := ((e.ntypeOrNextFree <<< 17) ||| e.offsetDiv8) % 2 ^ 32

def decode (w : Nat) : SlotEntry := ⟨w &&& (2 ^ 17 - 1), (w >>> 17) % 2 ^ 16⟩

theorem decode_raw (e : SlotEntry) (ho : e.offsetDiv8 < 2 ^ 17) (ht : e.ntypeOrNextFree < 2 ^ 15) :
    decode e.raw = e := by
  obtain ⟨o, t⟩ := e
  change o < 2 ^ 17 at ho
  change t < 2 ^ 15 at ht
  have hr : raw ⟨o, t⟩ = t * 2 ^ 17 + o := by
    change ((t <<< 17) ||| o) % 2 ^ 32 = _
    rw [← Nat.shiftLeft_add_eq_or_of_lt ho, Nat.shiftLeft_eq]
    omega
  simp only [decode, hr, Nat.and_two_pow_sub_one_eq_mod, Nat.shiftRight_eq_div_pow,
    SlotEntry.mk.injEq]
  omega

theorem decode_live (t : NodeType) {off : Nat} (ho : off < pageSize) :
    decode (live t off).raw = live t off := by
  have ht := t.asU8_le
  apply decode_raw
  · simp only [live, pageSize] at *
    omega
  · simp only [live]
    omega

theorem decode_freed {next off : Nat} (hn : next ≤ maxSlots) (ho : off < pageSize) :
    decode (freed next off).raw = freed next off := by
  apply decode_raw
  · simp only [freed, pageSize] at *
    omega
  · simp only [freed, maxSlots] at *
    omega

@[simp]
theorem nodeType_live (t : NodeType) (off : Nat) : (live t off).nodeType = some t := by
  cases t <;> rfl

@[simp]
theorem nextFree_freed (next off : Nat) : (freed next off).nextFree = next := rfl

theorem byteOffset_live (t : NodeType) {off : Nat} (h : off % 8 = 0) :
    (live t off).byteOffset = off := by
  simp only [live, byteOffset]
  omega

theorem byteOffset_freed (next : Slot) {off : Nat} (h : off % 8 = 0) :
    (freed next off).byteOffset = off := by
  simp only [freed, byteOffset]
  omega

theorem byteOffset_mod (e : SlotEntry) : e.byteOffset % 8 = 0 := by
  simp [byteOffset]

end SlotEntry

/-- A leaf's fixed part; key and value bytes sit in an extent at `keyOffset`. -/
structure Leaf where
  valueSize : Nat
  tombstone : Bool
  keyOffset : Nat
  seq : Nat
  deriving DecidableEq, Repr

def Leaf.live (keyOffset valueSize seq : Nat) : Leaf := ⟨valueSize, false, keyOffset, seq⟩

/-- Two bytes of key length, the key, the value, rounded up to eight. -/
def leafExtentSize (keyLen valueLen : Nat) : Nat := (2 + keyLen + valueLen + 7) / 8 * 8

/-- A run of key bytes in front of one child; `bytes` is the used part of the inline array. -/
structure Prefix where
  bytes : List UInt8
  child : Slot
  deriving DecidableEq, Repr

/-- The crossing into another blob. -/
structure BlobNode where
  bytes : List UInt8
  childBlobGuid : BlobGuid
  deriving DecidableEq, Repr

inductive AllocError
  | outOfSlots
  | outOfSpace (need avail : Nat)
  | invalidRequest
  deriving DecidableEq, Repr

inductive FreeError
  | invalidSlot (slot : Slot)
  | typeMismatch (slot : Slot) (tag : Nat)
  deriving DecidableEq, Repr

inductive IoErrorKind
  | notFound
  | unexpectedEof
  | other
  deriving DecidableEq, Repr

inductive Error
  | blobStoreIo (kind : IoErrorKind)
  | alloc (e : AllocError)
  | free (e : FreeError)
  | keyTooLong (len : Nat)
  | valueTooLong (len : Nat)
  | notYetImplemented (context : String)
  | internal (context : String)
  | nodeCorrupt (context : String) (blobGuid : Option BlobGuid) (slot : Option Slot)
  | replaySanityFailed (context : String) (recordOffset : Nat)
  | notFound
  | dstExists
  /-- A recursion of the source went deeper than the bound the model gives it. -/
  | diverged
  deriving DecidableEq, Repr

namespace Error

/-- A failure of a walker or of the store, not an answer about the keys. -/
def Hard (e : Error) : Prop := e ≠ .diverged ∧ e ≠ .notFound ∧ e ≠ .dstExists

def corrupt (context : String) : Error := .nodeCorrupt context none none

def withBlobGuid (e : Error) (guid : BlobGuid) : Error :=
  match e with
  | .nodeCorrupt c none s => .nodeCorrupt c (some guid) s
  | e => e

end Error

end Holt
