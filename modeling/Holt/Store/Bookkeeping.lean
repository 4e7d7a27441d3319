import Holt.Store.BufferManager

/-! What checkpoints, maintenance and eviction do to the buffer manager's bookkeeping. -/

namespace Holt

variable {I : Type}

/-- A dirty blob as it was when a checkpoint drained it. -/
structure DirtySnapshotEntry where
  guid : BlobGuid
  expectedSeq : Nat
  contentVersion : Nat
  deriving DecidableEq, Repr

namespace BufferManager

def isProtectedOrPending (bm : BufferManager I) (guid : BlobGuid) : Prop :=
  guid ∈ bm.dirty ∨ guid ∈ bm.flushing ∨ guid ∈ bm.pendingDeletes

instance (bm : BufferManager I) (guid : BlobGuid) : Decidable (bm.isProtectedOrPending guid) :=
  inferInstanceAs (Decidable (_ ∨ _))

/-- `pinned` says that someone else holds the entry. -/
def tryEvictCold (bm : BufferManager I) (guid : BlobGuid) (pinned : Bool) : BufferManager I :=
  if bm.isProtectedOrPending guid ∨ pinned then bm else { bm with cache := bm.cache.erase guid }

/-- The blob is unlinked: forget it here, and queue its deletion from the store. -/
def markForDelete (bm : BufferManager I) (guid : BlobGuid) (seq : Nat) : BufferManager I :=
  { bm with
    pendingDeletes := minMerge bm.pendingDeletes guid seq
    dirty := bm.dirty.erase guid
    flushing := bm.flushing.erase guid
    compactCandidates := bm.compactCandidates.filter (· ≠ guid)
    mergeCandidates := bm.mergeCandidates.filter (· ≠ guid)
    cache := bm.cache.erase guid }

def snapshotPendingDeletes (bm : BufferManager I) : List (BlobGuid × Nat) × BufferManager I :=
  (bm.pendingDeletes.entries.map fun e => (e.1, e.2), { bm with pendingDeletes := ∅ })

def restorePendingDelete (bm : BufferManager I) (guid : BlobGuid) (seq : Nat) : BufferManager I :=
  { bm with pendingDeletes := minMerge bm.pendingDeletes guid seq }

/-- One entry of `restoreDirty`. -/
def restoreDirtyEntry (bm : BufferManager I) (guid : BlobGuid) (seq : Nat) : BufferManager I :=
  let bm := bm.removeOneFlushing guid
  if bm.isPendingDelete guid then bm else { bm with dirty := minMerge bm.dirty guid seq }

def snapshotDirtyVersions (bm : BufferManager I) (snap : List (BlobGuid × Nat)) :
    Except Error (List DirtySnapshotEntry) :=
  snap.mapM fun e =>
    match bm.cache.lookup e.1 with
    | none => .error (.internal "snapshot_dirty_versions: dirty entry lost cache image")
    | some b => .ok ⟨e.1, e.2, b.version⟩

/-- The bytes of a blob, if nobody had it exclusively since its version was taken. -/
def snapshotBytesIfVersion (bm : BufferManager I) (guid : BlobGuid) (contentVersion : Nat) :
    Except Error (Option I) :=
  match bm.cache.lookup guid with
  | none => .error (.internal "snapshot_bytes_if_version: dirty entry lost cache image")
  | some b => .ok (if b.version = contentVersion then some b.image else none)

def hasUnflushedBlob (bm : BufferManager I) (guid : BlobGuid) : Bool :=
  guid ∈ bm.dirty ∨ guid ∈ bm.flushing

def dirtyCount (bm : BufferManager I) : Nat := bm.dirty.entries.length

def flushingCount (bm : BufferManager I) : Nat := (bm.flushing.entries.map fun e => e.2).sum

def pendingDeleteCount (bm : BufferManager I) : Nat := bm.pendingDeletes.entries.length

/-! ## How many flushes own a blob -/

def flushes (bm : BufferManager I) (g : BlobGuid) : Nat := (bm.flushing.lookup g).getD 0

variable {a g : BlobGuid} {bm : BufferManager I}

theorem flushes_pos_mem (h : 0 < bm.flushes g) : g ∈ bm.flushing := by
  apply AList.lookup_isSome.mp
  cases hg : bm.flushing.lookup g with
  | none =>
    rw [flushes, hg] at h
    cases h
  | some n => rfl

theorem flushes_addFlushing (bm : BufferManager I) (g a : BlobGuid) :
    (bm.addFlushing g).flushes a = bm.flushes a + if a = g then 1 else 0 := by
  unfold flushes addFlushing
  by_cases h : a = g
  · subst h
    rw [AList.lookup_insert, if_pos rfl, Option.getD_some]
  · rw [AList.lookup_insert_ne h, if_neg h, Nat.add_zero]

theorem flushes_removeOneFlushing (bm : BufferManager I) (g a : BlobGuid) :
    (bm.removeOneFlushing g).flushes a = bm.flushes a - if a = g then 1 else 0 := by
  unfold flushes removeOneFlushing
  by_cases h : a = g
  · subst h
    rw [if_pos rfl]
    cases hg : bm.flushing.lookup a with
    | none => simp [hg]
    | some n =>
      dsimp only
      split
      · rw [AList.lookup_erase, Option.getD_none, Option.getD_some]
        omega
      · rw [AList.lookup_insert, Option.getD_some, Option.getD_some]
  · rw [if_neg h, Nat.sub_zero]
    cases hg : bm.flushing.lookup g with
    | none => rfl
    | some n =>
      dsimp only
      split
      · rw [AList.lookup_erase_ne h]
      · rw [AList.lookup_insert_ne h]

/-- A snapshot adds one owner to each blob it drains. -/
theorem flushes_snapshotDirty (bm : BufferManager I) (a : BlobGuid) :
    bm.snapshotDirty.2.flushes a =
      bm.flushes a + (bm.snapshotDirty.1.map Prod.fst).count a := by
  unfold snapshotDirty
  dsimp only
  generalize hsnap : List.filter _ _ = snap
  have hfold : ∀ (snap : List (BlobGuid × Nat)) (b : BufferManager I),
      (snap.foldl (fun bm e => bm.addFlushing e.1) b).flushes a =
        b.flushes a + (snap.map Prod.fst).count a := by
    intro snap
    induction snap with
    | nil => intro b; rfl
    | cons e snap ih =>
      intro b
      rw [List.foldl_cons, ih, flushes_addFlushing, List.map_cons, List.count_cons]
      by_cases h : a = e.1
      · rw [if_pos h, h, beq_self_eq_true, if_pos rfl]
        omega
      · rw [if_neg h, if_neg (by simpa using Ne.symm h)]
        omega
  exact hfold snap _

/-! ## What the bookkeeping leaves alone -/

@[simp] theorem removeOneFlushing_dirty (bm : BufferManager I) (g : BlobGuid) :
    (bm.removeOneFlushing g).dirty = bm.dirty := by
  unfold removeOneFlushing
  split
  · rfl
  · split <;> rfl

theorem addFlushing_dirty_foldl (snap : List (BlobGuid × Nat)) (bm : BufferManager I) :
    (snap.foldl (fun bm e => bm.addFlushing e.1) bm).dirty = bm.dirty := by
  induction snap generalizing bm with
  | nil => rfl
  | cons e snap ih => rw [List.foldl_cons, ih]; rfl

@[simp] theorem snapshotDirty_dirty (bm : BufferManager I) : bm.snapshotDirty.2.dirty = ∅ :=
  addFlushing_dirty_foldl _ _

theorem mem_snapshotDirty {e : BlobGuid × Nat} (h : e ∈ bm.snapshotDirty.1) :
    bm.dirty.lookup e.1 = some e.2 ∧ e.1 ∉ bm.pendingDeletes := by
  obtain ⟨hmem, hpending⟩ := List.mem_filter.mp h
  obtain ⟨x, hx, rfl⟩ := List.mem_map.mp hmem
  exact ⟨AList.mem_lookup_iff.mpr hx, by simpa [isPendingDelete] using hpending⟩

theorem retireWriteThrough_flushes (bm : BufferManager I) (g : BlobGuid) (seq : Nat)
    (a : BlobGuid) :
    (bm.retireWriteThrough g seq).flushes a = bm.flushes a - if a = g then 1 else 0 := by
  unfold retireWriteThrough
  dsimp only
  rw [flushes_removeOneFlushing]
  split <;> rfl

theorem retireWriteThrough_dirty {seq : Nat} (h : a ∈ (bm.retireWriteThrough g seq).dirty) :
    a ∈ bm.dirty := by
  unfold retireWriteThrough at h
  dsimp only at h
  rw [removeOneFlushing_dirty] at h
  split at h
  · exact (AList.mem_erase.mp h).2
  · exact h

theorem restoreDirtyEntry_flushes (bm : BufferManager I) (g : BlobGuid) (seq : Nat)
    (a : BlobGuid) :
    (bm.restoreDirtyEntry g seq).flushes a = bm.flushes a - if a = g then 1 else 0 := by
  rw [← flushes_removeOneFlushing]
  unfold restoreDirtyEntry
  dsimp only
  split <;> rfl

theorem restoreDirtyEntry_same (bm : BufferManager I) (g : BlobGuid) (seq : Nat) :
    bm.SameBlobs (bm.restoreDirtyEntry g seq) := by
  have hone := removeOneFlushing_same bm g
  unfold restoreDirtyEntry
  dsimp only
  split
  · exact hone
  · exact hone.trans ⟨rfl, rfl, rfl⟩

theorem restoreDirtyEntry_dirty {seq : Nat} (h : a ∈ (bm.restoreDirtyEntry g seq).dirty) :
    a = g ∨ a ∈ bm.dirty := by
  unfold restoreDirtyEntry at h
  dsimp only at h
  split at h
  · rw [removeOneFlushing_dirty] at h
    exact .inr h
  · rw [removeOneFlushing_dirty] at h
    exact mem_minMerge.mp h

theorem snapshotDirtyVersions_ok {snap : List (BlobGuid × Nat)} (h : ∀ e ∈ snap, e.1 ∈ bm.cache) :
    ∃ entries, bm.snapshotDirtyVersions snap = .ok entries := by
  unfold snapshotDirtyVersions
  induction snap with
  | nil => exact ⟨[], rfl⟩
  | cons e snap ih =>
    obtain ⟨entries, hentries⟩ := ih fun e he => h e (List.mem_cons_of_mem _ he)
    obtain ⟨b, hb⟩ := Option.isSome_iff_exists.mp
      (AList.lookup_isSome.mpr (h e List.mem_cons_self))
    refine ⟨⟨e.1, e.2, b.version⟩ :: entries, ?_⟩
    rw [List.mapM_cons, hentries, hb]
    rfl

/-- Each drained blob with the version it has in memory. -/
theorem snapshotDirtyVersions_spec {snap : List (BlobGuid × Nat)}
    {entries : List DirtySnapshotEntry} (h : bm.snapshotDirtyVersions snap = .ok entries) :
    snap = entries.map (fun e => (e.guid, e.expectedSeq)) ∧
      ∀ e ∈ entries, ∃ b, bm.cache.lookup e.guid = some b ∧ e.contentVersion = b.version := by
  unfold snapshotDirtyVersions at h
  induction snap generalizing entries with
  | nil =>
    cases h
    exact ⟨rfl, nofun⟩
  | cons e snap ih =>
    rw [List.mapM_cons] at h
    cases hb : bm.cache.lookup e.1 with
    | none =>
      rw [hb] at h
      cases h
    | some b =>
      rw [hb] at h
      generalize hrest : (List.mapM _ snap : Except Error (List DirtySnapshotEntry)) = rest at h
      cases rest with
      | error err => cases h
      | ok rest =>
        cases h
        obtain ⟨hsnap, hmem⟩ := ih hrest
        refine ⟨by rw [hsnap]; rfl, fun x hx => ?_⟩
        rcases List.mem_cons.mp hx with rfl | hx
        · exact ⟨b, hb, rfl⟩
        · exact hmem x hx

end BufferManager

end Holt
