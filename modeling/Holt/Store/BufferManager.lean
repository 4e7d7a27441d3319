import Mathlib.Data.List.AList
import Holt.Layout

/-! The buffer manager: which blobs are in memory, which of them are newer than the store, and
which wait to be deleted from it. It never looks inside a blob, so the image type is free. -/

namespace Holt

variable {I : Type}

/-- The sequence number of changes that no record of the log stands for. -/
def structuralSeq : Nat := 2 ^ 64 - 1

/-- A blob in memory, with the number of exclusive sections its latch has seen. -/
structure CachedBlob (I : Type) where
  image : I
  version : Nat

/-- `store` is what the inner store reads back. The candidates are hints for maintenance. -/
structure BufferManager (I : Type) where
  store : AList fun _ : BlobGuid => I
  cache : AList fun _ : BlobGuid => CachedBlob I
  dirty : AList fun _ : BlobGuid => Nat
  flushing : AList fun _ : BlobGuid => Nat
  pendingDeletes : AList fun _ : BlobGuid => Nat
  compactCandidates : List BlobGuid
  mergeCandidates : List BlobGuid

/-- A blob image on its way to the store. Without a content version it is written as it is. -/
structure WriteThroughEntry (I : Type) where
  guid : BlobGuid
  bytes : I
  expectedSeq : Nat
  contentVersion : Option Nat
  deriving DecidableEq

namespace BufferManager

def empty : BufferManager I := ⟨∅, ∅, ∅, ∅, ∅, [], []⟩

def isPendingDelete (bm : BufferManager I) (guid : BlobGuid) : Bool := guid ∈ bm.pendingDeletes

/-- Bring a blob into memory. -/
def pin (bm : BufferManager I) (guid : BlobGuid) : Except Error (BufferManager I) :=
  if bm.isPendingDelete guid then .error (.blobStoreIo .notFound)
  else if guid ∈ bm.cache then .ok bm
  else
    match bm.store.lookup guid with
    | none => .error (.blobStoreIo .notFound)
    | some image => .ok { bm with cache := bm.cache.insert guid ⟨image, 0⟩ }

/-- The blob as a pin finds it: what is in memory, or else what the store reads back. -/
def view (bm : BufferManager I) (guid : BlobGuid) : Option (CachedBlob I) :=
  match bm.cache.lookup guid with
  | some b => some b
  | none => (bm.store.lookup guid).map fun image => ⟨image, 0⟩

def hasBlob (bm : BufferManager I) (guid : BlobGuid) : Bool :=
  !bm.isPendingDelete guid && decide (guid ∈ bm.cache ∨ guid ∈ bm.store)

/-- Change the bytes behind a pin. -/
def putImage (bm : BufferManager I) (guid : BlobGuid) (image : I) : BufferManager I :=
  match bm.view guid with
  | none => bm
  | some b => { bm with cache := bm.cache.insert guid { b with image } }

/-- The end of an exclusive section, whether it changed the blob or not. -/
def releaseExclusive (bm : BufferManager I) (guid : BlobGuid) : BufferManager I :=
  match bm.view guid with
  | none => bm
  | some b => { bm with cache := bm.cache.insert guid { b with version := b.version + 1 } }

/-- Straight to the store, past the dirty set. -/
def writeBlob (bm : BufferManager I) (guid : BlobGuid) (image : I) : BufferManager I :=
  let bm := if guid ∈ bm.cache then (bm.putImage guid image).releaseExclusive guid else bm
  { bm with
    store := bm.store.insert guid image
    dirty := bm.dirty.erase guid
    flushing := bm.flushing.erase guid
    compactCandidates := bm.compactCandidates.filter (· ≠ guid)
    mergeCandidates := bm.mergeCandidates.filter (· ≠ guid) }

def minMerge (m : AList fun _ : BlobGuid => Nat) (guid : BlobGuid) (seq : Nat) :
    AList fun _ : BlobGuid => Nat :=
  match m.lookup guid with
  | none => m.insert guid seq
  | some cur => m.insert guid (min cur seq)

/-- Tag a cached blob as newer than the store, under the lowest sequence number not flushed. -/
def markDirtyCached (bm : BufferManager I) (guid : BlobGuid) (seq : Nat) : BufferManager I :=
  if bm.isPendingDelete guid then bm else { bm with dirty := minMerge bm.dirty guid seq }

/-- A new blob starts in memory only. -/
def installNewBlob (bm : BufferManager I) (guid : BlobGuid) (image : I) (seq : Nat) :
    BufferManager I :=
  { bm with cache := bm.cache.insert guid ⟨image, 0⟩, dirty := minMerge bm.dirty guid seq }

def noteCompactionCandidate (bm : BufferManager I) (guid : BlobGuid) : BufferManager I :=
  if bm.isPendingDelete guid ∨ guid ∈ bm.compactCandidates then bm
  else { bm with compactCandidates := bm.compactCandidates ++ [guid] }

def noteMergeCandidate (bm : BufferManager I) (guid : BlobGuid) : BufferManager I :=
  if bm.isPendingDelete guid ∨ guid ∈ bm.mergeCandidates then bm
  else { bm with mergeCandidates := bm.mergeCandidates ++ [guid] }

def addFlushing (bm : BufferManager I) (guid : BlobGuid) : BufferManager I :=
  { bm with flushing := bm.flushing.insert guid ((bm.flushing.lookup guid).getD 0 + 1) }

def removeOneFlushing (bm : BufferManager I) (guid : BlobGuid) : BufferManager I :=
  match bm.flushing.lookup guid with
  | none => bm
  | some count =>
    if count - 1 = 0 then { bm with flushing := bm.flushing.erase guid }
    else { bm with flushing := bm.flushing.insert guid (count - 1) }

/-- Hand all dirty entries over to a flush. -/
def snapshotDirty (bm : BufferManager I) : List (BlobGuid × Nat) × BufferManager I :=
  let snap := (bm.dirty.entries.map fun e => (e.1, e.2)).filter fun e => !bm.isPendingDelete e.1
  (snap, snap.foldl (fun bm e => bm.addFlushing e.1) { bm with dirty := ∅ })

/-- Take entries back whose flush did not happen. -/
def restoreDirty (bm : BufferManager I) (entries : List (BlobGuid × Nat)) : BufferManager I :=
  entries.foldl (fun bm e =>
    let bm := bm.removeOneFlushing e.1
    if bm.isPendingDelete e.1 then bm else { bm with dirty := minMerge bm.dirty e.1 e.2 }) bm

def writeSnapshotIsCurrent (bm : BufferManager I) (entry : WriteThroughEntry I) :
    Except Error Bool :=
  match entry.contentVersion with
  | none => .ok true
  | some version =>
    match bm.cache.lookup entry.guid with
    | none => .error (.internal "write_through_batch: flushing entry lost cache image")
    | some b => .ok (b.version = version)

def retireWriteThrough (bm : BufferManager I) (guid : BlobGuid) (expectedSeq : Nat) :
    BufferManager I :=
  let bm := if expectedSeq ≠ structuralSeq ∧ bm.dirty.lookup guid = some expectedSeq then
    { bm with dirty := bm.dirty.erase guid } else bm
  bm.removeOneFlushing guid

def writeBlobs (bm : BufferManager I) (entries : List (WriteThroughEntry I)) : BufferManager I :=
  { bm with store := entries.foldl (fun store e => store.insert e.guid e.bytes) bm.store }

def retireAll (bm : BufferManager I) (entries : List (WriteThroughEntry I)) : BufferManager I :=
  entries.foldl (fun bm e => bm.retireWriteThrough e.guid e.expectedSeq) bm

/-- Write every dirty blob to a store that does not fail. A dirty entry without an image is taken
back and reported. -/
def flushDirtyInline (bm : BufferManager I) : BufferManager I × Option Error :=
  let (snap, bm) := bm.snapshotDirty
  let entries := snap.filterMap fun e =>
    (bm.cache.lookup e.1).map fun b => (⟨e.1, b.image, e.2, none⟩ : WriteThroughEntry I)
  let failed := snap.filter fun e => e.1 ∉ bm.cache
  let bm := (bm.writeBlobs entries).retireAll entries
  if failed.isEmpty then (bm, none)
  else (bm.restoreDirty failed, some (.internal
    "flush_dirty_inline: dirty entry lost cache image — invariant I1 violated"))

def flushPendingDeletesInline (bm : BufferManager I) : BufferManager I :=
  { bm with
    store := bm.pendingDeletes.keys.foldl (fun store g => store.erase g) bm.store
    pendingDeletes := ∅ }

variable {a g : BlobGuid} {b b' bm : BufferManager I} {c : CachedBlob I}

theorem mem_minMerge {m : AList fun _ : BlobGuid => Nat} {seq : Nat} :
    a ∈ minMerge m g seq ↔ a = g ∨ a ∈ m := by
  unfold minMerge
  split <;> exact AList.mem_insert _

/-! ## What a pin finds -/

theorem view_of_cache (h : b.cache.lookup g = some c) : b.view g = some c := by
  rw [view, h]

/-- A blob put into memory is found there, and every other blob where it was. -/
theorem view_insert (hc : b'.cache = b.cache.insert g c) (hs : b'.store = b.store) (a : BlobGuid) :
    b'.view a = if a = g then some c else b.view a := by
  unfold view
  rw [hc, hs]
  by_cases ha : a = g
  · rw [if_pos ha, ha, AList.lookup_insert]
  · rw [if_neg ha, AList.lookup_insert_ne ha]

theorem view_congr (hc : b'.cache = b.cache) (hs : b'.store = b.store) (a : BlobGuid) :
    b'.view a = b.view a := by
  unfold view
  rw [hc, hs]

theorem view_putImage (h : b.view g = some c) (image : I) (a : BlobGuid) :
    (b.putImage g image).view a = if a = g then some { c with image } else b.view a := by
  have hput : b.putImage g image = { b with cache := b.cache.insert g { c with image } } := by
    rw [putImage, h]
  rw [hput]
  exact view_insert (by rfl) (by rfl) a

theorem view_releaseExclusive (h : b.view g = some c) (a : BlobGuid) :
    (b.releaseExclusive g).view a =
      if a = g then some { c with version := c.version + 1 } else b.view a := by
  have hrel : b.releaseExclusive g =
      { b with cache := b.cache.insert g { c with version := c.version + 1 } } := by
    rw [releaseExclusive, h]
  rw [hrel]
  exact view_insert (by rfl) (by rfl) a

theorem view_installNewBlob (b : BufferManager I) (g : BlobGuid) (image : I) (seq : Nat)
    (a : BlobGuid) :
    (b.installNewBlob g image seq).view a = if a = g then some ⟨image, 0⟩ else b.view a :=
  view_insert (by rfl) (by rfl) a

/-- A pin brings a blob into memory as it is. -/
theorem view_pin (h : b.pin g = .ok b') (a : BlobGuid) : b'.view a = b.view a := by
  unfold pin at h
  split at h
  · cases h
  split at h
  · cases h
    rfl
  · rename_i hg
    split at h
    · cases h
    · rename_i image hs
      obtain rfl := Except.ok.inj h
      rw [view_insert (b := b) (g := g) (c := ⟨image, 0⟩) (by rfl) (by rfl) a]
      split
      · rename_i ha
        rw [ha, view, AList.lookup_eq_none.mpr hg, hs]
        rfl
      · rfl

/-- A pin changes at most the cache, and only adds to it. -/
theorem pin_eq (h : b.pin g = .ok b') :
    ∃ cache, b' = { b with cache } ∧ ∀ a, a ∈ cache ↔ a = g ∨ a ∈ b.cache := by
  unfold pin at h
  split at h
  · cases h
  split at h
  · rename_i hg
    cases h
    refine ⟨b.cache, rfl, fun a => ⟨.inr, ?_⟩⟩
    rintro (rfl | ha)
    · exact hg
    · exact ha
  · split at h
    · cases h
    · cases h
      exact ⟨_, rfl, fun a => AList.mem_insert _⟩

theorem cached_of_pin (h : b.pin g = .ok b') : ∀ a ∈ b.cache, a ∈ b'.cache := by
  obtain ⟨_, rfl, hc⟩ := pin_eq h
  exact fun a ha => (hc a).mpr (.inr ha)

theorem mem_cache_of_pin (h : b.pin g = .ok b') : g ∈ b'.cache := by
  obtain ⟨_, rfl, hc⟩ := pin_eq h
  exact (hc g).mpr (.inl rfl)

theorem pin_pendingDeletes (h : b.pin g = .ok b') : b'.pendingDeletes = b.pendingDeletes := by
  obtain ⟨_, rfl, -⟩ := pin_eq h
  rfl

theorem pin_dirty (h : b.pin g = .ok b') : b'.dirty = b.dirty := by
  obtain ⟨_, rfl, -⟩ := pin_eq h
  rfl

theorem store_of_pin (h : b.pin g = .ok b') : b'.store = b.store := by
  obtain ⟨_, rfl, -⟩ := pin_eq h
  rfl

/-- A blob that can be seen can be pinned. -/
theorem pin_of_view (hp : g ∉ b.pendingDeletes) (h : b.view g = some c) :
    ∃ b', b.pin g = .ok b' := by
  unfold pin isPendingDelete
  rw [if_neg (by simpa using hp)]
  split
  · exact ⟨_, rfl⟩
  · rename_i hg
    rw [view, AList.lookup_eq_none.mpr hg] at h
    obtain ⟨image, hs, -⟩ := Option.map_eq_some_iff.mp h
    rw [hs]
    exact ⟨_, rfl⟩

theorem pin_store {image : I} (hp : g ∉ b.pendingDeletes) (hc : g ∉ b.cache)
    (hs : b.store.lookup g = some image) :
    b.pin g = .ok { b with cache := b.cache.insert g ⟨image, 0⟩ } := by
  unfold pin isPendingDelete
  rw [if_neg (by simpa using hp), if_neg hc, hs]

/-! ## Blobs that are gone -/

/-- Nothing of the blob is left that a pin could find. -/
def Gone (bm : BufferManager I) (guid : BlobGuid) : Prop :=
  guid ∉ bm.cache ∧ (guid ∈ bm.pendingDeletes ∨ guid ∉ bm.store)

theorem Gone.pin_self (h : b.Gone g) : b.pin g = .error (.blobStoreIo .notFound) := by
  obtain ⟨hc, hp⟩ := h
  unfold pin isPendingDelete
  by_cases hpend : g ∈ b.pendingDeletes
  · rw [if_pos (by simpa using hpend)]
  · rw [if_neg (by simpa using hpend), if_neg hc,
      AList.lookup_eq_none.mpr (hp.resolve_left hpend)]

theorem Gone.congr (h : b.Gone g) (hc : b'.cache = b.cache) (hs : b'.store = b.store)
    (hp : b'.pendingDeletes = b.pendingDeletes) : b'.Gone g := by
  unfold Gone
  rw [hc, hs, hp]
  exact h

/-- What is put into memory is another blob. -/
theorem Gone.insert (h : b.Gone g) (hne : g ≠ a) (hc : b'.cache = b.cache.insert a c)
    (hs : b'.store = b.store) (hp : b'.pendingDeletes = b.pendingDeletes) : b'.Gone g := by
  unfold Gone
  rw [hc, hs, hp, AList.mem_insert]
  exact ⟨fun hm => hm.elim hne h.1, h.2⟩

theorem Gone.pin (h : b.Gone g) (hpin : b.pin a = .ok b') : b'.Gone g := by
  have hne : g ≠ a := by
    rintro rfl
    cases h.pin_self.symm.trans hpin
  have hpend := pin_pendingDeletes hpin
  unfold BufferManager.pin at hpin
  split at hpin
  · cases hpin
  split at hpin
  · cases hpin
    exact h
  · split at hpin
    · cases hpin
    · rename_i image hs
      obtain rfl := Except.ok.inj hpin
      exact h.insert hne rfl rfl hpend

theorem Gone.putImage (h : b.Gone g) (hne : g ≠ a) (image : I) : (b.putImage a image).Gone g := by
  unfold BufferManager.putImage
  split
  · exact h
  · exact h.insert hne rfl rfl rfl

theorem Gone.releaseExclusive (h : b.Gone g) (hne : g ≠ a) : (b.releaseExclusive a).Gone g := by
  unfold BufferManager.releaseExclusive
  split
  · exact h
  · exact h.insert hne rfl rfl rfl

/-! ## What flushing leaves alone -/

/-- Only the bookkeeping differs. -/
structure SameBlobs (b b' : BufferManager I) : Prop where
  cache : b'.cache = b.cache
  store : b'.store = b.store
  pendingDeletes : b'.pendingDeletes = b.pendingDeletes

theorem SameBlobs.refl (b : BufferManager I) : b.SameBlobs b := ⟨rfl, rfl, rfl⟩

theorem SameBlobs.trans {b'' : BufferManager I} (h : b.SameBlobs b') (h' : b'.SameBlobs b'') :
    b.SameBlobs b'' :=
  ⟨h'.cache.trans h.cache, h'.store.trans h.store, h'.pendingDeletes.trans h.pendingDeletes⟩

theorem markDirtyCached_same (bm : BufferManager I) (g : BlobGuid) (seq : Nat) :
    bm.SameBlobs (bm.markDirtyCached g seq) := by
  unfold markDirtyCached
  split
  · exact .refl bm
  · exact ⟨rfl, rfl, rfl⟩

theorem noteCompactionCandidate_same (bm : BufferManager I) (g : BlobGuid) :
    bm.SameBlobs (bm.noteCompactionCandidate g) := by
  unfold noteCompactionCandidate
  split
  · exact .refl bm
  · exact ⟨rfl, rfl, rfl⟩

theorem noteMergeCandidate_same (bm : BufferManager I) (g : BlobGuid) :
    bm.SameBlobs (bm.noteMergeCandidate g) := by
  unfold noteMergeCandidate
  split
  · exact .refl bm
  · exact ⟨rfl, rfl, rfl⟩

/-- A loop of bookkeeping steps is bookkeeping. -/
theorem SameBlobs.foldl {α : Type} {f : BufferManager I → α → BufferManager I}
    (h : ∀ b a, SameBlobs b (f b a)) (l : List α) (b : BufferManager I) :
    b.SameBlobs (l.foldl f b) := by
  induction l generalizing b with
  | nil => exact .refl b
  | cons a l ih => exact (h b a).trans (ih (f b a))

theorem removeOneFlushing_same (bm : BufferManager I) (g : BlobGuid) :
    bm.SameBlobs (bm.removeOneFlushing g) := by
  unfold removeOneFlushing
  split
  · exact .refl bm
  · split <;> exact ⟨rfl, rfl, rfl⟩

theorem retireWriteThrough_same (bm : BufferManager I) (g : BlobGuid) (seq : Nat) :
    bm.SameBlobs (bm.retireWriteThrough g seq) := by
  unfold retireWriteThrough
  dsimp only
  split
  · obtain ⟨hc, hs, hp⟩ := removeOneFlushing_same { bm with dirty := bm.dirty.erase g } g
    exact ⟨hc, hs, hp⟩
  · exact removeOneFlushing_same _ g

theorem snapshotDirty_same (bm : BufferManager I) : bm.SameBlobs bm.snapshotDirty.2 := by
  unfold snapshotDirty
  generalize List.filter _ _ = snap
  have hstep : ∀ (b : BufferManager I) (e : BlobGuid × Nat), b.SameBlobs (b.addFlushing e.1) :=
    fun _ _ => ⟨rfl, rfl, rfl⟩
  have hfold := SameBlobs.foldl hstep snap { bm with dirty := ∅ }
  exact ⟨hfold.cache, hfold.store, hfold.pendingDeletes⟩

theorem retireAll_same (bm : BufferManager I) (entries : List (WriteThroughEntry I)) :
    bm.SameBlobs (bm.retireAll entries) := by
  apply SameBlobs.foldl
  intro bm e
  exact retireWriteThrough_same bm e.guid e.expectedSeq

theorem restoreDirty_same (bm : BufferManager I) (entries : List (BlobGuid × Nat)) :
    bm.SameBlobs (bm.restoreDirty entries) := by
  apply SameBlobs.foldl
  intro bm e
  dsimp only
  split
  · exact removeOneFlushing_same bm e.1
  · exact (removeOneFlushing_same bm e.1).trans ⟨rfl, rfl, rfl⟩

theorem writeBlobs_store {entries : List (WriteThroughEntry I)} (h : ∀ e ∈ entries, e.guid ≠ g)
    (bm : BufferManager I) : (bm.writeBlobs entries).store.lookup g = bm.store.lookup g := by
  unfold writeBlobs
  dsimp only
  generalize bm.store = store
  induction entries generalizing store with
  | nil => rfl
  | cons e entries ih =>
    have hne := h e List.mem_cons_self
    rw [List.foldl_cons, ih fun e' he' => h e' (List.mem_cons_of_mem _ he'),
      AList.lookup_insert_ne hne.symm]

/-- Flushing writes blobs that are in memory, and changes nothing else of them. -/
theorem flushDirtyInline_blobs (bm : BufferManager I) (g : BlobGuid) :
    (bm.flushDirtyInline).1.cache = bm.cache ∧
      (bm.flushDirtyInline).1.pendingDeletes = bm.pendingDeletes ∧
      (g ∉ bm.cache → (bm.flushDirtyInline).1.store.lookup g = bm.store.lookup g) := by
  have hsnap := snapshotDirty_same bm
  unfold flushDirtyInline
  dsimp only
  generalize hent : (List.filterMap _ _ : List (WriteThroughEntry I)) = entries
  have hguid : g ∉ bm.cache → ∀ e ∈ entries, e.guid ≠ g := by
    rintro hg e he rfl
    rw [← hent] at he
    obtain ⟨d, -, hd⟩ := List.mem_filterMap.mp he
    obtain ⟨b, hb, rfl⟩ := Option.map_eq_some_iff.mp hd
    rw [hsnap.cache] at hb
    exact hg (AList.lookup_isSome.mp (by rw [hb]; rfl))
  have hret := retireAll_same (bm.snapshotDirty.2.writeBlobs entries) entries
  have hstore := fun hg => (writeBlobs_store (hguid hg) bm.snapshotDirty.2).trans
    (congrArg (AList.lookup g) hsnap.store)
  split
  · exact ⟨hret.cache.trans hsnap.cache, hret.pendingDeletes.trans hsnap.pendingDeletes,
      fun hg => (congrArg (AList.lookup g) hret.store).trans (hstore hg)⟩
  · have hres := hret.trans (restoreDirty_same _ (bm.snapshotDirty.1.filter
      fun e => e.1 ∉ bm.snapshotDirty.2.cache))
    exact ⟨hres.cache.trans hsnap.cache, hres.pendingDeletes.trans hsnap.pendingDeletes,
      fun hg => (congrArg (AList.lookup g) hres.store).trans (hstore hg)⟩

theorem flushDirtyInline_pendingDeletes (bm : BufferManager I) :
    (bm.flushDirtyInline).1.pendingDeletes = bm.pendingDeletes :=
  (flushDirtyInline_blobs bm 0).2.1

/-- Flushing does not change what a pin finds. -/
theorem view_flushDirtyInline (bm : BufferManager I) (g : BlobGuid) :
    (bm.flushDirtyInline).1.view g = bm.view g := by
  obtain ⟨hcache, -, hstore⟩ := flushDirtyInline_blobs bm g
  unfold view
  rw [hcache]
  cases hg : bm.cache.lookup g with
  | some b => rfl
  | none =>
    dsimp only
    rw [hstore (AList.lookup_eq_none.mp hg)]

theorem Gone.flushDirtyInline (h : bm.Gone g) : (bm.flushDirtyInline).1.Gone g := by
  obtain ⟨hcache, hpend, hstore⟩ := flushDirtyInline_blobs bm g
  refine ⟨hcache ▸ h.1, h.2.imp (fun hp => hpend ▸ hp) fun hs => ?_⟩
  rw [← AList.lookup_eq_none, hstore h.1, AList.lookup_eq_none]
  exact hs

theorem lookup_eraseAll (gs : List BlobGuid) (store : AList fun _ : BlobGuid => I) (g : BlobGuid) :
    (gs.foldl (fun store g => store.erase g) store).lookup g =
      if g ∈ gs then none else store.lookup g := by
  induction gs generalizing store with
  | nil => simp
  | cons a gs ih =>
    rw [List.foldl_cons, ih]
    by_cases hg : g = a
    · subst hg
      simp
    · simp [hg, AList.lookup_erase_ne hg]

/-- What is deleted from the store was not to be found before. -/
theorem view_flushPendingDeletesInline (h : g ∉ bm.pendingDeletes) :
    bm.flushPendingDeletesInline.view g = bm.view g := by
  unfold view flushPendingDeletesInline
  dsimp only
  rw [lookup_eraseAll, if_neg fun hm => h (AList.mem_keys.mpr hm)]

theorem Gone.flushPendingDeletesInline (h : bm.Gone g) : bm.flushPendingDeletesInline.Gone g := by
  refine ⟨h.1, .inr ?_⟩
  unfold BufferManager.flushPendingDeletesInline
  dsimp only
  rw [← AList.lookup_eq_none, lookup_eraseAll]
  split
  · rfl
  · rename_i hm
    rw [AList.lookup_eq_none]
    exact h.2.resolve_left fun hp => hm (AList.mem_keys.mp hp)

theorem flushDirtyInline_error (bm : BufferManager I) :
    ∀ err, (bm.flushDirtyInline).2 = some err → err.Hard := by
  intro err herr
  unfold flushDirtyInline at herr
  dsimp only at herr
  split at herr
  · cases herr
  · cases herr
    exact ⟨by simp, by simp, by simp⟩

end BufferManager

end Holt
