import Holt.Store.File.Recovery

/-! The calls of the file-backed blob store. What the file system may do to a call is an input of
it: which step fails, and what the failed step leaves behind. -/

namespace Holt.FileStore

open Holt.Lib

/-- The packed file: how many slots it is long, and what each of them holds; `none` are bytes nobody
wrote as a blob. -/
structure DataFile (I : Type) where
  slots : Nat
  content : Nat → Option I

structure FileBlobStore (I : Type) where
  manifest : Manifest
  manifestDirty : Bool
  preallocatedSlots : Nat
  disk : Disk
  data : DataFile I

/-- How the writes to the data file go. -/
inductive WriteIo (I : Type)
  | done
  | preallocationFails
  /-- `left` is what the slots of the batch hold after the failure, as far as the file goes. -/
  | writeFails (left : List (Option I))

variable {I : Type}

abbrev StoreM (I : Type) := EStateM Error (FileBlobStore I)

def assignSlot (guid : Guid) : StoreM I Nat := do
  let s ← get
  match s.manifest.assignSlot guid with
  | .error e => throw e
  | .ok (slot, fresh, m) => do
    set { s with manifest := m, manifestDirty := s.manifestDirty || fresh }
    pure slot

def assignSlots (guids : List Guid) : StoreM I (List Nat) := do
  let s ← get
  match s.manifest.assignSlots guids with
  | .error e => throw e
  | .ok (slots, dirty, m) => do
    set { s with manifest := m, manifestDirty := s.manifestDirty || dirty }
    pure slots

def dataPreallocSmallChunkSlots : Nat := 8
def dataPreallocLargeChunkSlots : Nat := 64
def dataPreallocLargeAtSlots : Nat := 128

def roundUpSlots (requiredSlots : Nat) : Nat :=
  let chunk :=
    if dataPreallocLargeAtSlots ≤ requiredSlots then dataPreallocLargeChunkSlots
    else dataPreallocSmallChunkSlots
  (requiredSlots + (chunk - 1)) / chunk * chunk

/-- A write behind the end makes the file longer. -/
def DataFile.write (f : DataFile I) (writes : List (Nat × Option I)) : DataFile I :=
  ⟨(writes.map fun w => w.1 + 1).foldl max f.slots, overwrite writes f.content⟩

/-- Preallocation makes the file longer. -/
def ensureDataCapacity (requiredSlots : Nat) (io : WriteIo I) : StoreM I Unit := do
  let s ← get
  if requiredSlots ≤ s.preallocatedSlots then pure ()
  else
    match io with
    | .preallocationFails => throw (.blobStoreIo .other)
    | _ =>
      let target := roundUpSlots requiredSlots
      set { s with
        preallocatedSlots := max s.preallocatedSlots target
        data := { s.data with slots := max s.data.slots target } }

def pwriteManyAt (writes : List (Nat × I)) (io : WriteIo I) : StoreM I Unit :=
  match io with
  | .writeFails left => do
    modify fun s => { s with data := s.data.write ((writes.map Prod.fst).zip left) }
    throw (.blobStoreIo .other)
  | _ => modify fun s => { s with data := s.data.write (writes.map fun w => (w.1, some w.2)) }

def writeBlob (guid : Guid) (src : I) (io : WriteIo I) : StoreM I Unit := do
  let slot ← assignSlot guid
  ensureDataCapacity (slot + 1) io
  pwriteManyAt [(slot, src)] io

def writeBlobs (writes : List (Guid × I)) (io : WriteIo I) : StoreM I Unit := do
  if writes.isEmpty then pure ()
  else
    let slots ← assignSlots (writes.map Prod.fst)
    ensureDataCapacity ((slots.map Nat.succ).foldl max 0) io
    pwriteManyAt (slots.zip (writes.map Prod.snd)) io

def deleteBlob (guid : Guid) : StoreM I Unit :=
  modify fun s =>
    let (dirty, m) := s.manifest.deleteBlob guid
    { s with manifest := m, manifestDirty := s.manifestDirty || dirty }

/-- `stop` is where the append to the log breaks off, if it does. -/
def flush (stop : Option Nat) : StoreM I Unit := do
  let s ← get
  if s.manifestDirty then
    match persistPendingDeltas stop ⟨s.manifest, []⟩ with
    | .ok _ p =>
      let m := { p.manifest with pendingLog := [] }
      set { s with
        manifest := m.publishPendingFreeSlots
        manifestDirty := false
        disk := p.ops.foldl Disk.apply s.disk }
    | .error e p => do
      set { s with manifest := p.manifest, disk := p.ops.foldl Disk.apply s.disk }
      throw e
  else pure ()

/-- The store that a load leaves behind. -/
def FileBlobStore.opened (s : FileBlobStore I) (m : Manifest) (disk : Disk) : FileBlobStore I :=
  ⟨m, false, max s.data.slots m.nextSlot, disk, s.data⟩

def reopen : StoreM I Unit := do
  let s ← get
  match loadOrCreate s.disk with
  | .ok (m, disk) => set (s.opened m disk)
  | .error e => throw e

def readBlob (guid : Guid) : StoreM I (Option I) := do
  let s ← get
  match s.manifest.slots.lookup guid with
  | some slot =>
    if slot < s.data.slots then pure (s.data.content slot)
    else throw (.blobStoreIo .unexpectedEof)
  | none => throw (.blobStoreIo .notFound)

/-- A store on an empty directory. -/
def FileBlobStore.fresh : FileBlobStore I :=
  ⟨⟨.empty, ⟨[], []⟩, [], 0, []⟩, false, 0, .empty, ⟨0, fun _ => none⟩⟩

inductive Call (I : Type)
  | writeBlob (guid : Guid) (src : I) (io : WriteIo I)
  | writeBlobs (writes : List (Guid × I)) (io : WriteIo I)
  | deleteBlob (guid : Guid)
  | flush (stop : Option Nat)

def Call.run : Call I → StoreM I Unit
  | writeBlob guid src io => FileStore.writeBlob guid src io
  | writeBlobs writes io => FileStore.writeBlobs writes io
  | deleteBlob guid => FileStore.deleteBlob guid
  | flush stop => FileStore.flush stop

end Holt.FileStore
