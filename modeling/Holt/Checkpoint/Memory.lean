import Mathlib.Logic.Function.Basic
import Holt.Store.Bookkeeping

/-! What writers and checkpoints share: the buffer manager, the files below it, the log. Whoever
runs, the shared state changes by one call at a time. -/

namespace Holt

variable {I : Type}

/-- An exclusive section on a blob, which `f` describes. -/
def BufferManager.exclusively (bm : BufferManager I) (guid : BlobGuid) (f : I → I) :
    BufferManager I :=
  match bm.view guid with
  | none => bm
  | some b => { bm with cache := bm.cache.insert guid ⟨f b.image, b.version + 1⟩ }

namespace BufferManager

section

variable (bm : BufferManager I) (g : BlobGuid) (f : I → I)

theorem exclusively_eq {b : CachedBlob I} (h : bm.view g = some b) :
    bm.exclusively g f =
      { bm with cache := bm.cache.insert g ⟨f b.image, b.version + 1⟩ } := by
  rw [exclusively, h]

@[simp] theorem exclusively_flushing : (bm.exclusively g f).flushing = bm.flushing := by
  unfold exclusively
  split <;> rfl

@[simp] theorem exclusively_dirty : (bm.exclusively g f).dirty = bm.dirty := by
  unfold exclusively
  split <;> rfl

theorem exclusively_cache {a : BlobGuid} (h : a ∈ bm.cache) : a ∈ (bm.exclusively g f).cache := by
  unfold exclusively
  split
  · exact h
  · exact (AList.mem_insert _).mpr (.inr h)

theorem exclusively_cached {b : CachedBlob I} (h : bm.view g = some b) :
    g ∈ (bm.exclusively g f).cache := by
  rw [exclusively_eq bm g f h]
  exact (AList.mem_insert _).mpr (.inl rfl)

@[simp] theorem markDirtyCached_flushing (seq : Nat) :
    (bm.markDirtyCached g seq).flushing = bm.flushing := by
  unfold markDirtyCached
  split <;> rfl

@[simp] theorem tryEvictCold_flushing (pinned : Bool) :
    (bm.tryEvictCold g pinned).flushing = bm.flushing := by
  unfold tryEvictCold
  split <;> rfl

end

theorem pin_flushing {bm bm' : BufferManager I} {g : BlobGuid} (h : bm.pin g = .ok bm') :
    bm'.flushing = bm.flushing := by
  unfold pin at h
  split at h
  · cases h
  split at h
  · cases h
    rfl
  · split at h
    · cases h
    · cases h
      rfl

end BufferManager

end Holt

namespace Holt.Checkpoint

variable {I : Type}

/-- `durable` is the store as of its last successful flush, manifest and data; `issued` are the
writes since then, each of which may or may not have reached the disk. -/
structure Disk (I : Type) where
  durable : AList fun _ : BlobGuid => I
  issued : List (BlobGuid × I)
  needsFlush : Bool

/-- `log` has the sequence numbers of the records in the log. The rest is bookkeeping of the proof:
`truth` is what the writers made of each linked blob, `known` are all blobs there ever were and
`dead` those that were marked for deletion, `outstanding` has a pair for every blob that a snapshot
drained and did not give back yet. -/
structure Memory (I : Type) where
  bm : BufferManager I
  disk : Disk I
  log : List Nat
  truth : BlobGuid → Option I
  known : List BlobGuid
  dead : List BlobGuid
  outstanding : List (Nat × BlobGuid)

inductive Call (I : Type)
  | nothing
  | load (g : BlobGuid)
  | evict (g : BlobGuid) (pinned : Bool)
  /-- Exclusive sections of writers and maintenance. -/
  | look (g : BlobGuid)
  | edit (g : BlobGuid) (f : I → I)
  | spill (g n : BlobGuid) (f h : I → I) (seq : Nat)
  | merge (p c : BlobGuid) (f : I → I → I)
  | markDirty (g : BlobGuid) (seq : Nat)
  | submit (seq : Nat)
  /-- Checkpoints. -/
  | snapshotDirty (id : Nat)
  | snapshotPending
  | retire (id : Nat) (g : BlobGuid) (seq : Nat)
  | restoreDirty (ids : List Nat) (g : BlobGuid) (seq : Nat)
  | restorePending (g : BlobGuid) (seq : Nat)
  | write (entries : List (WriteThroughEntry I))
  /-- A failed write leaves anything in the slots it was for. -/
  | writeFails (left : List (BlobGuid × I))
  | flush
  | delete (guids : List BlobGuid)
  | truncate

namespace Memory

/-- A store that was just opened. -/
def opened (store : AList fun _ : BlobGuid => I) : Memory I :=
  { bm := { BufferManager.empty with store }
    disk := ⟨store, [], false⟩
    log := [], truth := store.lookup, known := store.keys, dead := [], outstanding := [] }

def issue (m : Memory I) (writes : List (BlobGuid × I)) : Memory I :=
  { m with
    bm := { m.bm with store := writes.foldl (fun store w => store.insert w.1 w.2) m.bm.store }
    disk := { m.disk with issued := m.disk.issued ++ writes, needsFlush := true } }

/-- The snapshots give the blob back. -/
def release (outstanding : List (Nat × BlobGuid)) (ids : List Nat) (g : BlobGuid) :
    List (Nat × BlobGuid) :=
  ids.foldl (fun o id => o.erase (id, g)) outstanding

def perform (m : Memory I) : Call I → Memory I
  | .nothing => m
  | .load g =>
    match m.bm.pin g with
    | .ok bm => { m with bm }
    | .error _ => m
  | .evict g pinned => { m with bm := m.bm.tryEvictCold g pinned }
  | .look g => { m with bm := m.bm.exclusively g id }
  | .edit g f => { m with
      bm := m.bm.exclusively g f
      truth := Function.update m.truth g ((m.truth g).map f) }
  | .spill g n f h seq =>
    match m.bm.view g with
    | none => m
    | some b => { m with
        bm := (m.bm.installNewBlob n (h b.image) seq).exclusively g f
        truth := Function.update (Function.update m.truth g ((m.truth g).map f)) n
          ((m.truth g).map h)
        known := n :: m.known }
  | .merge p c f =>
    match m.bm.view c with
    | none => m
    | some b => { m with
        bm := (m.bm.exclusively p (f b.image)).markForDelete c structuralSeq
        truth := Function.update
          (Function.update m.truth p ((m.truth c).bind fun ic => (m.truth p).map (f ic))) c none
        dead := c :: m.dead }
  | .markDirty g seq => { m with bm := m.bm.markDirtyCached g seq }
  | .submit seq => { m with log := m.log ++ [seq] }
  | .snapshotDirty id => { m with
      bm := m.bm.snapshotDirty.2
      outstanding := m.outstanding ++ m.bm.snapshotDirty.1.map fun e => (id, e.1) }
  | .snapshotPending => { m with bm := m.bm.snapshotPendingDeletes.2 }
  | .retire id g seq => { m with
      bm := m.bm.retireWriteThrough g seq
      outstanding := release m.outstanding [id] g }
  | .restoreDirty ids g seq => { m with
      bm := m.bm.restoreDirtyEntry g seq
      outstanding := release m.outstanding ids g }
  | .restorePending g seq => { m with bm := m.bm.restorePendingDelete g seq }
  | .write entries => m.issue (entries.map fun e => (e.guid, e.bytes))
  | .writeFails left => m.issue left
  | .flush => { m with disk := ⟨m.bm.store, [], false⟩ }
  | .delete guids => { m with
      bm := { m.bm with store := guids.foldl (fun store g => store.erase g) m.bm.store }
      disk := { m.disk with
        needsFlush := m.disk.needsFlush || guids.any fun g => g ∈ m.bm.store } }
  | .truncate => { m with log := [] }

end Memory

end Holt.Checkpoint
