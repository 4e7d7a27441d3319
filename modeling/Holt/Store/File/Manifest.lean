import Holt.Journal.Codec
import Holt.Lib.Framed
import Holt.Lib.Overwrites
import Mathlib.Data.List.AList
import Mathlib.Data.List.Sort

/-! The manifest of the file-backed blob store: which slot of the packed data file holds which
blob. `manifest.bin` is a snapshot of it, `manifest.log` the changes since. -/

namespace Holt.FileStore

open Holt.Lib
open Holt.Codec (crc32)

/-- The sixteen bytes of a blob guid. -/
structure Guid where
  bytes : List UInt8
  sized : bytes.length = 16
  deriving DecidableEq

/-- The guid of sixteen equal bytes. -/
def Guid.ofByte (b : UInt8) : Guid := ⟨List.replicate 16 b, List.length_replicate⟩

inductive ManifestDelta
  | set (guid : Guid) (slot : Nat)
  | delete (guid : Guid)
  deriving DecidableEq

/-! ## Slots that may be given out again -/

/-- The slots `next..=stop`. -/
structure FreeSlotRange where
  next : Nat
  stop : Nat
  le : next ≤ stop
  deriving DecidableEq

/-- Both lists stand with the end in front that the source pops from. -/
structure ReusableSlots where
  singles : List Nat
  ranges : List FreeSlotRange
  deriving DecidableEq

namespace ReusableSlots

def pop (r : ReusableSlots) : Option (Nat × ReusableSlots) :=
  match r.singles with
  | slot :: singles => some (slot, { r with singles })
  | [] =>
    match r.ranges with
    | [] => none
    | range :: ranges =>
      if h : range.next = range.stop then some (range.next, { r with ranges })
      else
        let rest : FreeSlotRange := ⟨range.next + 1, range.stop, by have := range.le; omega⟩
        some (range.next, { r with ranges := rest :: ranges })

def appendSlots (r : ReusableSlots) (slots : List Nat) : ReusableSlots :=
  { r with singles := slots.reverse ++ r.singles }

/-- `lower` is the first slot above the used ones passed so far, `previous` the last of them. -/
def reconstructLoop (nextSlot : Nat) :
    List Nat → Option Nat → Nat → Except Error (List FreeSlotRange)
  | [], _, lower =>
    if h : lower < nextSlot then .ok [⟨lower, nextSlot - 1, by omega⟩] else .ok []
  | slot :: rest, previous, lower =>
    if nextSlot ≤ slot then .error (.corrupt "FileBlobStore::Manifest::slot past next_slot")
    else if previous = some slot then .error (.corrupt "FileBlobStore::Manifest::duplicate slot")
    else do
      let ranges ← reconstructLoop nextSlot rest (some slot) (slot + 1)
      if h : lower < slot then .ok (⟨lower, slot - 1, by omega⟩ :: ranges) else .ok ranges

def reconstruct (nextSlot : Nat) (usedSlots : List Nat) : Except Error ReusableSlots := do
  let ranges ← reconstructLoop nextSlot (usedSlots.insertionSort (· ≤ ·)) none 0
  .ok ⟨[], ranges⟩

end ReusableSlots

/-! ## The log -/

/-- `"MLG1"`. -/
def manifestLogMagic : List UInt8 := [77, 76, 71, 49]

def manifestLogHeaderSize : Nat := 9
def manifestLogFooterSize : Nat := 4
def manifestLogTySet : UInt8 := 1
def manifestLogTyDelete : UInt8 := 2
def manifestLogSetBodySize : Nat := 24
def manifestLogDeleteBodySize : Nat := 16

namespace ManifestDelta

def ty : ManifestDelta → UInt8
  | set _ _ => manifestLogTySet
  | delete _ => manifestLogTyDelete

def body : ManifestDelta → List UInt8
  | set guid slot => guid.bytes ++ leBytes 8 slot
  | delete guid => guid.bytes

/-- What the checksum of the record covers. -/
def head (delta : ManifestDelta) : List UInt8 :=
  manifestLogMagic ++ (leBytes 4 delta.body.length ++ ([delta.ty] ++ delta.body))

end ManifestDelta

def encodeManifestDelta (delta : ManifestDelta) : List UInt8 :=
  delta.head ++ leBytes 4 (crc32 delta.head).toNat

def decodeDelta (ty : UInt8) (body : List UInt8) : Except Error ManifestDelta :=
  if ty = manifestLogTySet then
    if h : body.length = manifestLogSetBodySize then
      .ok (.set ⟨body.take 16, by rw [List.length_take, h]; rfl⟩ (leNat (slice body 16 24)))
    else .error (.corrupt "FileBlobStore::ManifestLog::set length")
  else if ty = manifestLogTyDelete then
    if h : body.length = manifestLogDeleteBodySize then
      .ok (.delete ⟨body, by rw [h]; rfl⟩)
    else .error (.corrupt "FileBlobStore::ManifestLog::delete length")
  else .error (.corrupt "FileBlobStore::ManifestLog::unknown op")

/-- One round of the replay loop on what is left of the log: the record it reads and its length,
`none` where the loop breaks. -/
def readManifestDelta (buf : List UInt8) : Except Error (Option (ManifestDelta × Nat)) :=
  if buf.length < manifestLogHeaderSize then .ok none
  else if slice buf 0 4 ≠ manifestLogMagic then
    .error (.corrupt "FileBlobStore::ManifestLog::magic")
  else
    let bodyLen := leNat (slice buf 4 8)
    let ty := (slice buf 8 9).headD 0
    let bodyEnd := manifestLogHeaderSize + bodyLen
    let recordLen := bodyEnd + manifestLogFooterSize
    if buf.length < recordLen then .ok none
    else if leNat (slice buf bodyEnd recordLen) ≠ (crc32 (slice buf 0 bodyEnd)).toNat then
      .error (.corrupt "FileBlobStore::ManifestLog::crc")
    else do
      let delta ← decodeDelta ty (slice buf manifestLogHeaderSize bodyEnd)
      .ok (some (delta, recordLen))

/-- The map and `next_slot`, as the snapshot and the log change them. -/
structure Table where
  slots : AList fun _ : Guid => Nat
  nextSlot : Nat

def Table.empty : Table := ⟨∅, 0⟩

def Table.apply (t : Table) : ManifestDelta → Table
  | .set guid slot => ⟨t.slots.insert guid slot, max t.nextSlot (min (slot + 1) (2 ^ 64 - 1))⟩
  | .delete guid => ⟨t.slots.erase guid, t.nextSlot⟩

def Table.usedSlots (t : Table) : List Nat := t.slots.entries.map Sigma.snd

/-- The table the log leads to, and how many bytes of the log are whole records. -/
def replayLog (buf : List UInt8) (t : Table) : Except Error (Table × Nat) :=
  replay readManifestDelta Table.apply (buf.length + 1) buf t 0

/-! ## The snapshot -/

/-- `"ARTSNMNF"`. -/
def manifestMagic : List UInt8 := [65, 82, 84, 83, 78, 77, 78, 70]

def manifestVersion : Nat := 1

def encodeEntry (entry : Sigma fun _ : Guid => Nat) : List UInt8 :=
  entry.1.bytes ++ leBytes 8 entry.2

/-- The snapshot of `t`, whose entry count fits a `u32`. -/
def Table.snapshot (t : Table) : List UInt8 :=
  manifestMagic ++ (leBytes 2 manifestVersion ++ (leBytes 4 t.slots.entries.length ++ ([0, 0] ++
    (leBytes 8 t.nextSlot ++ t.slots.entries.flatMap encodeEntry))))

def insertNew (slots : AList fun _ : Guid => Nat) (guid : Guid) (slot : Nat) :
    Except Error (AList fun _ : Guid => Nat) :=
  match slots.lookup guid with
  | some _ => .error (.corrupt "FileBlobStore::Manifest::duplicate guid")
  | none => .ok (slots.insert guid slot)

def parseEntries : Nat → List UInt8 → AList (fun _ : Guid => Nat) →
    Except Error (AList fun _ : Guid => Nat)
  | 0, _, slots => .ok slots
  | count + 1, buf, slots =>
    if h : buf.length < 24 then .error (.blobStoreIo .other)
    else
      let guid : Guid := ⟨buf.take 16, by rw [List.length_take]; omega⟩
      let slot := leNat (slice buf 16 24)
      do
        let slots ← insertNew slots guid slot
        parseEntries count (buf.drop 24) slots

def parseSnapshot (buf : List UInt8) : Except Error Table :=
  if buf.length < 24 then .error (.blobStoreIo .other)
  else if slice buf 0 8 ≠ manifestMagic then
    .error (.corrupt "FileBlobStore::Manifest::magic")
  else if leNat (slice buf 8 10) ≠ manifestVersion then
    .error (.corrupt "FileBlobStore::Manifest::version")
  else do
    let slots ← parseEntries (leNat (slice buf 10 14)) (buf.drop 24) ∅
    let t : Table := ⟨slots, leNat (slice buf 16 24)⟩
    let _ ← ReusableSlots.reconstruct t.nextSlot t.usedSlots
    .ok t

/-! ## The manifest in memory -/

structure Manifest extends Table where
  reusableSlots : ReusableSlots
  /-- Slots of deletes that no flush has made durable. -/
  pendingFreeSlots : List Nat
  logBytes : Nat
  /-- Changes that no flush has made durable, oldest first. -/
  pendingLog : List ManifestDelta

namespace Manifest

def allocateSlot (m : Manifest) : Except Error (Nat × Manifest) :=
  match m.reusableSlots.pop with
  | some (slot, reusableSlots) => .ok (slot, { m with reusableSlots })
  | none =>
    if m.nextSlot + 1 < 2 ^ 64 then .ok (m.nextSlot, { m with nextSlot := m.nextSlot + 1 })
    else .error (.internal "attempt to add with overflow")

/-- The slot of `guid`, and whether it had to be given one. -/
def assignSlot (m : Manifest) (guid : Guid) : Except Error (Nat × Bool × Manifest) :=
  match m.slots.lookup guid with
  | some slot => .ok (slot, false, m)
  | none => do
    let (slot, m) ← m.allocateSlot
    .ok (slot, true, { m with
      slots := m.slots.insert guid slot
      pendingLog := m.pendingLog ++ [.set guid slot] })

def assignSlots (m : Manifest) : List Guid → Except Error (List Nat × Bool × Manifest)
  | [] => .ok ([], false, m)
  | guid :: guids => do
    let (slot, fresh, m) ← m.assignSlot guid
    let (slots, dirty, m) ← m.assignSlots guids
    .ok (slot :: slots, fresh || dirty, m)

def deleteBlob (m : Manifest) (guid : Guid) : Bool × Manifest :=
  match m.slots.lookup guid with
  | some slot =>
    (true, { m with
      slots := m.slots.erase guid
      pendingFreeSlots := m.pendingFreeSlots ++ [slot]
      pendingLog := m.pendingLog ++ [.delete guid] })
  | none => (false, m)

def publishPendingFreeSlots (m : Manifest) : Manifest :=
  if m.pendingFreeSlots.isEmpty then m
  else { m with
    reusableSlots := m.reusableSlots.appendSlots m.pendingFreeSlots
    pendingFreeSlots := [] }

def manifestLogMinCompactBytes : Nat := 1024 * 1024
def manifestLogCompactRatio : Nat := 4

def shouldCompactLog (m : Manifest) : Bool :=
  let snapshotBytes := 24 + m.slots.entries.length * 24
  manifestLogMinCompactBytes ≤ m.logBytes && snapshotBytes * manifestLogCompactRatio ≤ m.logBytes

end Manifest

/-! ## The two files -/

/-- `manifest.bin`, `manifest.log`, and how much of the log the last `fsync` of it covered. -/
structure Disk where
  bin : Option (List UInt8)
  log : Option (List UInt8)
  synced : Nat
  deriving DecidableEq

inductive DiskOp
  | appendLog (bytes : List UInt8)
  | syncLog
  /-- The snapshot is written aside and renamed over `manifest.bin`. -/
  | renameSnapshot (bytes : List UInt8)
  | truncateLog
  deriving DecidableEq

namespace Disk

def empty : Disk := ⟨none, none, 0⟩

def apply (d : Disk) : DiskOp → Disk
  | .appendLog bytes => { d with log := some (d.log.getD [] ++ bytes) }
  | .syncLog => { d with synced := (d.log.getD []).length }
  | .renameSnapshot bytes => { d with bin := some bytes }
  | .truncateLog => { d with log := d.log.map fun _ => [], synced := 0 }

/-- What is left when only the first `n` bytes of the log survive; what survives is durable. -/
def crash (d : Disk) (n : Nat) : Disk :=
  { d with log := d.log.map (List.take n), synced := ((d.log.getD []).take n).length }

def parse (d : Disk) : Except Error Table :=
  match d.bin with
  | some bytes => parseSnapshot bytes
  | none => .ok .empty

end Disk

/-- The manifest with the operations on the disk made so far. -/
structure Persist where
  manifest : Manifest
  ops : List DiskOp

abbrev PersistM := EStateM Error Persist

def emit (op : DiskOp) : PersistM Unit := modify fun p => { p with ops := p.ops ++ [op] }

def persistSnapshot : PersistM Unit := do
  let m := (← get).manifest
  if 2 ^ 32 ≤ m.slots.entries.length then throw (.blobStoreIo .other)
  else emit (.renameSnapshot m.snapshot)

def truncateLog : PersistM Unit := do
  emit .truncateLog
  modify fun p => { p with manifest := { p.manifest with logBytes := 0 } }

def compactLog : PersistM Unit := do
  if (← get).manifest.shouldCompactLog then
    persistSnapshot
    truncateLog
  else pure ()

/-- `write_all` of `buf` to the log; it stops after `n` bytes where `stop` is `some n`. -/
def appendToLog (buf : List UInt8) (stop : Option Nat) : PersistM Unit :=
  match stop with
  | none => emit (.appendLog buf)
  | some n => do
    emit (.appendLog (buf.take n))
    throw (.blobStoreIo .other)

def persistPendingDeltas (stop : Option Nat) : PersistM Unit := do
  let m := (← get).manifest
  if m.pendingLog.isEmpty then pure ()
  else
    let buf := m.pendingLog.flatMap encodeManifestDelta
    appendToLog buf stop
    emit .syncLog
    modify fun p =>
      { p with manifest := { p.manifest with logBytes := p.manifest.logBytes + buf.length } }
    compactLog

/-- The manifest the two files lead to; bytes of the log behind its last whole record are cut
off. -/
def loadOrCreate (d : Disk) : Except Error (Manifest × Disk) := do
  let t ← d.parse
  let buf := d.log.getD []
  let (t, validBytes) ← replayLog buf t
  let d : Disk :=
    if validBytes < buf.length then
      { d with log := some (buf.take validBytes), synced := validBytes }
    else d
  let reusableSlots ← ReusableSlots.reconstruct t.nextSlot t.usedSlots
  .ok ({ toTable := t, reusableSlots, pendingFreeSlots := [], logBytes := validBytes,
         pendingLog := [] }, d)

end Holt.FileStore
