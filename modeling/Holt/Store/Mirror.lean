import Mathlib.Data.List.Perm.Basic
import Mathlib.Data.List.Count
import Holt.Checkpoint.Memory
import Holt.Lib.Machine
import Holt.Lib.Maps

/-! Clean blobs in memory and what the store has for them. Loads, writers, flushes and eviction run
next to each other; a load reads the store in one step and fills the cache in another. -/

namespace Holt.Mirror

open Holt.Lib

variable {I : Type}

/-- How far a pin is. A pin that missed reads the store, then fills the cache; between a mutation
and its mark the blob is `unmarked`. -/
inductive Stage (I : Type)
  | missed
  | loaded (image : I)
  | held
  | unmarked

structure Pin (I : Type) where
  guid : BlobGuid
  stage : Stage I

inductive Progress (I : Type)
  | drained
  | cloned (image : I)
  | current (image : I)
  | stale
  | written

/-- A blob of a dirty snapshot on its way to the store. Those that `flush_dirty_inline` takes have
no content version. -/
structure Flush (I : Type) where
  seq : Nat
  version : Option Nat
  progress : Progress I

/-- The flushes are named by their snapshot and their blob. A mark first goes to the hint of its
blob; `announced` are the marks that have yet to reach the map, and whether the hint covered
them. -/
structure World (I : Type) where
  bm : BufferManager I
  pins : AList fun _ : Nat => Pin I
  flushes : AList fun _ : Nat × BlobGuid => Flush I
  hints : BlobGuid → Nat
  announced : AList fun _ : Nat => Nat × Bool

inductive Action (I : Type)
  | pin (t : Nat) (g : BlobGuid)
  | read (t : Nat)
  | insert (t : Nat)
  | mutate (t : Nat) (f : I → I)
  | hint (t seq : Nat)
  | mark (t : Nat)
  | unpin (t : Nat)
  | evict (g : BlobGuid)
  | snapshot (b : Nat)
  | snapshotInline (b : Nat)
  | clone (b : Nat) (g : BlobGuid)
  | check (b : Nat) (g : BlobGuid)
  | write (b : Nat) (g : BlobGuid)
  | retire (b : Nat) (g : BlobGuid)
  | fail (b : Nat) (g : BlobGuid)

/-- The pin is on an entry of the cache. -/
def Pin.holds (x : Pin I) : Bool :=
  match x.stage with
  | .held | .unmarked => true
  | _ => false

def cleanDirtySeq : Nat := 0

namespace World

def opened (store : AList fun _ : BlobGuid => I) : World I :=
  ⟨{ BufferManager.empty with store }, ∅, ∅, fun _ => cleanDirtySeq, ∅⟩

def setPin (s : World I) (t : Nat) (g : BlobGuid) (stage : Stage I) : World I :=
  { s with pins := s.pins.insert t ⟨g, stage⟩ }

def pinned (s : World I) (g : BlobGuid) : Bool :=
  s.pins.entries.any fun e => e.2.holds && e.2.guid = g

/-- The flushes of a snapshot. -/
def startFlushes (b : Nat) (entries : List (BlobGuid × Flush I))
    (flushes : AList fun _ : Nat × BlobGuid => Flush I) :
    AList fun _ : Nat × BlobGuid => Flush I :=
  entries.foldl (fun m e => m.insert (b, e.1) e.2) flushes

def setFlush (s : World I) (b : Nat) (g : BlobGuid) (f : Flush I) : World I :=
  { s with flushes := s.flushes.insert (b, g) f }

def setHint (s : World I) (g : BlobGuid) (seq : Nat) : World I :=
  { s with hints := Function.update s.hints g seq }

/-- The hint has a number as low already. -/
def hintCovers (s : World I) (g : BlobGuid) (seq : Nat) : Bool :=
  s.hints g ≠ cleanDirtySeq ∧ s.hints g ≤ seq

/-- `dirty_hint_needs_map_publish`, for a blob that is in memory. -/
def publishHint (s : World I) (g : BlobGuid) (seq : Nat) : World I :=
  if g ∉ s.bm.cache ∨ s.hintCovers g seq then s
  else s.setHint g (if s.hints g = cleanDirtySeq then seq else min (s.hints g) seq)

/-- What `mark_dirty_with_hint` does under the lock. -/
def publishMark (s : World I) (g : BlobGuid) (seq : Nat) (covered : Bool) : World I :=
  if s.bm.isPendingDelete g then s.setHint g cleanDirtySeq
  else if covered = true ∧ ∃ cur ∈ s.bm.dirty.lookup g, cur ≤ seq then s
  else { (if covered then s.setHint g seq else s) with bm := s.bm.markDirtyCached g seq }

/-- A drained mark is as low as the hint of its blob, and the hint is taken. -/
def takeHint (s : World I) (g : BlobGuid) : World I :=
  if s.hints g = cleanDirtySeq then s
  else { s.setHint g cleanDirtySeq with
    bm := { s.bm with dirty := BufferManager.minMerge s.bm.dirty g (s.hints g) } }

def takeHints (s : World I) : World I := s.bm.dirty.keys.foldl takeHint s

/-- An entry that was not flushed is dirty again. -/
def restore (s : World I) (g : BlobGuid) (seq : Nat) : World I :=
  let s' := { s with bm := s.bm.restoreDirtyEntry g seq }
  if s.bm.isPendingDelete g then s'.setHint g cleanDirtySeq else s'.publishHint g seq

def giveBack (s : World I) (b : Nat) (g : BlobGuid) (seq : Nat) : World I :=
  { s with flushes := s.flushes.erase (b, g) }.restore g seq

/-- The hint goes with the last reason to keep the blob. -/
def retired (s : World I) (b : Nat) (g : BlobGuid) (seq : Nat) : World I :=
  let s' := { s with bm := s.bm.retireWriteThrough g seq, flushes := s.flushes.erase (b, g) }
  if g ∈ s'.bm.dirty ∨ g ∈ s'.bm.flushing then s' else s'.setHint g cleanDirtySeq

/-- A blob takes its hint along. -/
def evicted (s : World I) (g : BlobGuid) : World I :=
  let s' := { s with bm := s.bm.tryEvictCold g (s.pinned g) }
  if g ∈ s'.bm.cache then s' else s'.setHint g cleanDirtySeq

/-- The entries of a batch are checked together, written in one call and then retired one by one,
or given back when the call fails, whatever it has written by then. Here every entry goes its own
way, which only adds interleavings. -/
def step (s : World I) : Action I → Option (World I)
  | .pin t g =>
    if t ∈ s.pins ∨ g ∈ s.bm.pendingDeletes then none
    else some (s.setPin t g (if g ∈ s.bm.cache then .held else .missed))
  | .read t =>
    match s.pins.lookup t with
    | some ⟨g, .missed⟩ =>
      match s.bm.store.lookup g with
      | none => some { s with pins := s.pins.erase t }
      | some image => some (s.setPin t g (.loaded image))
    | _ => none
  -- Whoever comes second takes what the first one brought.
  | .insert t =>
    match s.pins.lookup t with
    | some ⟨g, .loaded image⟩ =>
      some { s.setPin t g .held with
        bm := if g ∈ s.bm.cache then s.bm
          else { s.bm with cache := s.bm.cache.insert g ⟨image, 0⟩ } }
    | _ => none
  | .mutate t f =>
    match s.pins.lookup t with
    | some ⟨g, .held⟩ | some ⟨g, .unmarked⟩ =>
      some { s.setPin t g .unmarked with bm := s.bm.exclusively g f }
    | _ => none
  | .hint t seq =>
    match s.pins.lookup t with
    | some ⟨g, .unmarked⟩ => some { s.publishHint g seq with
        announced := s.announced.insert t (seq, s.hintCovers g seq) }
    | _ => none
  | .mark t =>
    match s.pins.lookup t, s.announced.lookup t with
    | some ⟨g, .unmarked⟩, some (seq, covered) =>
      some { (s.publishMark g seq covered).setPin t g .held with
        announced := s.announced.erase t }
    | _, _ => none
  | .unpin t =>
    match s.pins.lookup t with
    | some ⟨_, .held⟩ => some { s with pins := s.pins.erase t }
    | _ => none
  | .evict g => some (s.evicted g)
  | .snapshot b =>
    let s := s.takeHints
    if ∃ k ∈ s.flushes.keys, k.1 = b then none
    else
      match s.bm.snapshotDirty.2.snapshotDirtyVersions s.bm.snapshotDirty.1 with
      | .ok entries => some { s with
          bm := s.bm.snapshotDirty.2
          flushes := startFlushes b (entries.map fun e =>
            (e.guid, ⟨e.expectedSeq, some e.contentVersion, .drained⟩)) s.flushes }
      | .error _ => some (s.bm.snapshotDirty.1.foldl (fun s e => s.restore e.1 e.2)
          { s with bm := s.bm.snapshotDirty.2 })
  | .snapshotInline b =>
    let s := s.takeHints
    if ∃ k ∈ s.flushes.keys, k.1 = b then none
    else some { s with
      bm := s.bm.snapshotDirty.2
      flushes := startFlushes b
        (s.bm.snapshotDirty.1.map fun e => (e.1, ⟨e.2, none, .drained⟩)) s.flushes }
  | .clone b g =>
    match s.flushes.lookup (b, g) with
    | some ⟨seq, some version, .drained⟩ =>
      match s.bm.snapshotBytesIfVersion g version with
      | .ok (some image) => some (s.setFlush b g ⟨seq, some version, .cloned image⟩)
      | _ => some (s.giveBack b g seq)
    | some ⟨seq, none, .drained⟩ =>
      match s.bm.cache.lookup g with
      | some c => some (s.setFlush b g ⟨seq, none, .cloned c.image⟩)
      | none => some (s.giveBack b g seq)
    | _ => none
  | .check b g =>
    match s.flushes.lookup (b, g) with
    | some ⟨seq, version, .cloned image⟩ =>
      match s.bm.writeSnapshotIsCurrent ⟨g, image, seq, version⟩ with
      | .ok true => some (s.setFlush b g ⟨seq, version, .current image⟩)
      | .ok false => some (s.setFlush b g ⟨seq, version, .stale⟩)
      | .error _ => some (s.giveBack b g seq)
    | _ => none
  | .write b g =>
    match s.flushes.lookup (b, g) with
    | some ⟨seq, version, .current image⟩ =>
      some { s.setFlush b g ⟨seq, version, .written⟩ with
        bm := { s.bm with store := s.bm.store.insert g image } }
    | _ => none
  | .retire b g =>
    match s.flushes.lookup (b, g) with
    | some ⟨seq, _, .stale⟩ | some ⟨seq, _, .written⟩ => some (s.retired b g seq)
    | _ => none
  | .fail b g => (s.flushes.lookup (b, g)).map fun f => s.giveBack b g f.seq

end World

/-- The property: a blob that is in memory, not dirty, on no way to the store and in nobody's
unmarked hands, is what the store reads back. -/
def Mirrors (s : World I) : Prop :=
  ∀ g c, s.bm.cache.lookup g = some c → g ∉ s.bm.dirty → g ∉ s.bm.flushing →
    (∀ t, s.pins.lookup t ≠ some ⟨g, .unmarked⟩) → s.bm.store.lookup g = some c.image

/-- The flush was drained without a version, or since then nobody had the blob exclusively. -/
def Flush.Fresh (f : Flush I) (c : CachedBlob I) : Prop := ∀ v ∈ f.version, v = c.version

/-- The flush will write the blob as it is, if it changes no more. -/
def Flush.Carries (f : Flush I) (c : CachedBlob I) : Prop :=
  match f.progress with
  | .drained => f.Fresh c
  | .cloned image => image = c.image ∧ f.Fresh c
  | .current image => image = c.image
  | _ => False

instance (f : Flush I) (c : CachedBlob I) : Decidable (f.Fresh c) :=
  inferInstanceAs (Decidable (∀ v ∈ f.version, v = c.version))

instance [DecidableEq I] (f : Flush I) (c : CachedBlob I) : Decidable (f.Carries c) := by
  unfold Flush.Carries
  split <;> infer_instance

def Stage.isUnmarked : Stage I → Bool
  | .unmarked => true
  | _ => false

/-- The blob is going to be written as it is by another than `b`: someone has yet to mark it, it is
marked, or a flush has it. -/
def World.Due (s : World I) (b : Nat) (g : BlobGuid) (c : CachedBlob I) : Prop :=
  (∃ e ∈ s.pins.entries, e.2.guid = g ∧ e.2.stage.isUnmarked) ∨ g ∈ s.bm.dirty ∨
    ∃ e ∈ s.flushes.entries, e.1.2 = g ∧ e.1.1 ≠ b ∧ e.2.Carries c

instance [DecidableEq I] (s : World I) (b : Nat) (g : BlobGuid) (c : CachedBlob I) :
    Decidable (s.Due b g c) := by
  unfold World.Due
  infer_instance

/-- No flush of the blob has the number, unless it stands for no record. -/
def World.Unused (s : World I) (g : BlobGuid) (seq : Nat) : Prop :=
  ∀ e ∈ s.flushes.entries, e.1.2 = g → e.2.seq = seq → seq = structuralSeq

/-- A load brings what the store still has, a mark has a number that no flush of the blob has, and
bytes that are no longer those of the blob are written only as long as the blob is due. -/
def Orderly (s : World I) : Action I → Prop
  | .insert t =>
    match s.pins.lookup t with
    | some ⟨g, .loaded image⟩ => g ∈ s.bm.cache ∨ s.bm.store.lookup g = some image
    | _ => True
  | .hint t seq =>
    match s.pins.lookup t with
    | some ⟨g, .unmarked⟩ => s.Unused g seq
    | _ => True
  | .mark t =>
    match s.pins.lookup t, s.announced.lookup t with
    | some ⟨g, .unmarked⟩, some (seq, _) => s.Unused g seq
    | _, _ => True
  | .write b g => ∀ f ∈ s.flushes.lookup (b, g), ∀ c ∈ s.bm.cache.lookup g,
      f.Carries c ∨ s.Due b g c
  | _ => True

instance [DecidableEq I] (s : World I) (a : Action I) : Decidable (Orderly s a) := by
  unfold Orderly World.Unused
  split
  · split <;> infer_instance
  · split <;> infer_instance
  · split <;> infer_instance
  · infer_instance
  · infer_instance

/-- Why a blob in memory is safe: someone will mark it, it is marked, a flush has it in hand, or
the store has it. -/
inductive Covered (s : World I) (g : BlobGuid) (c : CachedBlob I) : Prop
  | unmarked {t : Nat} (h : s.pins.lookup t = some ⟨g, .unmarked⟩)
  | dirty (h : g ∈ s.bm.dirty)
  | flush {b : Nat} {f : Flush I} (h : s.flushes.lookup (b, g) = some f) (hf : f.Carries c)
  | stored (h : s.bm.store.lookup g = some c.image)

/-- How many flushes of the blob there are. -/
def World.flushCount (s : World I) (g : BlobGuid) : Nat := s.flushes.keys.countP fun k => k.2 = g

/-- The bookkeeping agrees with what goes on. -/
structure Books (s : World I) : Prop where
  pendingDeletes : s.bm.pendingDeletes = ∅
  dirty : ∀ g ∈ s.bm.dirty, g ∈ s.bm.cache
  held : ∀ t x, s.pins.lookup t = some x → x.holds → x.guid ∈ s.bm.cache
  flushes : ∀ b g f, s.flushes.lookup (b, g) = some f → g ∈ s.bm.cache
  count : ∀ g, s.bm.flushes g = s.flushCount g
  marks : ∀ b g f, s.flushes.lookup (b, g) = some f → s.bm.dirty.lookup g = some f.seq →
    f.seq = structuralSeq
  seqs : ∀ b b' g f f', s.flushes.lookup (b, g) = some f → s.flushes.lookup (b', g) = some f' →
    f.seq = f'.seq → b = b' ∨ f.seq = structuralSeq
  hinted : ∀ b g f, s.flushes.lookup (b, g) = some f → s.hints g = f.seq →
    f.seq = cleanDirtySeq ∨ f.seq = structuralSeq

structure Inv (s : World I) : Prop extends Books s where
  covered : ∀ g c, s.bm.cache.lookup g = some c → Covered s g c

variable {s t : World I}

variable {a g : BlobGuid} {b' seq : Nat} {c : CachedBlob I} {f f' : Flush I}
  {m : AList fun _ : Nat × BlobGuid => Flush I}

/-- A blob with a flush counts as flushing. -/
theorem Books.flushing (h : Books s) {b : Nat} (hf : s.flushes.lookup (b, g) = some f) :
    g ∈ s.bm.flushing := by
  apply BufferManager.flushes_pos_mem
  rw [h.count, World.flushCount, List.countP_pos_iff]
  refine ⟨(b, g), ?_, by simp⟩
  exact AList.mem_keys.mp (mem_of_lookup hf)

theorem Inv.mirrors (h : Inv s) : Mirrors s := by
  intro g c hc hdirty hflush hheld
  cases h.covered g c hc with
  | unmarked ht => exact absurd ht (hheld _)
  | dirty hd => exact absurd hd hdirty
  | flush hf => exact absurd (h.flushing hf) hflush
  | stored hs => exact hs

theorem inv_opened (store : AList fun _ : BlobGuid => I) : Inv (World.opened store) where
  pendingDeletes := rfl
  dirty := nofun
  held := nofun
  flushes := nofun
  count := fun _ => rfl
  marks := nofun
  seqs := nofun
  hinted := nofun
  covered := nofun

theorem Covered.of_flushes (h : Covered s g c)
    (hheld : ∀ {t'}, s.pins.lookup t' = some ⟨g, .unmarked⟩ →
      t.pins.lookup t' = some ⟨g, .unmarked⟩)
    (hdirty : g ∈ s.bm.dirty → g ∈ t.bm.dirty)
    (hstore : t.bm.store.lookup g = s.bm.store.lookup g)
    (hflush : ∀ b, t.flushes.lookup (b, g) = s.flushes.lookup (b, g)) : Covered t g c := by
  cases h with
  | unmarked ht => exact .unmarked (hheld ht)
  | dirty hd => exact .dirty (hdirty hd)
  | flush hf hc => exact .flush ((hflush _).trans hf) hc
  | stored hs => exact .stored (hstore.trans hs)

/-- Pins come and go, but nobody lets go of a blob that is not marked. -/
theorem Inv.of_pins (h : Inv s) {pins : AList fun _ : Nat => Pin I}
    (hheld : ∀ t x, pins.lookup t = some x → x.holds → x.guid ∈ s.bm.cache)
    (hkeep : ∀ t g, s.pins.lookup t = some ⟨g, .unmarked⟩ →
      pins.lookup t = some ⟨g, .unmarked⟩ ∨ g ∈ s.bm.dirty) :
    Inv { s with pins } := by
  refine { h with held := hheld, covered := fun g c hc => ?_ }
  cases h.covered g c hc with
  | unmarked ht =>
    rcases hkeep _ _ ht with ht' | hd
    · exact .unmarked ht'
    · exact .dirty hd
  | dirty hd => exact .dirty hd
  | flush hf hc => exact .flush hf hc
  | stored hs => exact .stored hs

/-- A pin goes to another stage, but not from `unmarked` unless the blob is marked. -/
theorem Inv.setPin (h : Inv s) {t : Nat} {stage : Stage I}
    (hheld : (⟨g, stage⟩ : Pin I).holds → g ∈ s.bm.cache)
    (hkeep : ∀ a, s.pins.lookup t = some ⟨a, .unmarked⟩ → a ∈ s.bm.dirty) :
    Inv (s.setPin t g stage) := by
  refine h.of_pins ?_ ?_
  · intro t' x hx hholds
    rcases lookup_insert_some hx with ⟨-, rfl⟩ | ⟨-, hx⟩
    · exact hheld hholds
    · exact h.held t' x hx hholds
  · intro t' a ht'
    by_cases htt : t' = t
    · exact .inr (hkeep a (htt ▸ ht'))
    · exact .inl ((AList.lookup_insert_ne htt).trans ht')

theorem Inv.erasePin (h : Inv s) {t : Nat}
    (hkeep : ∀ a, s.pins.lookup t ≠ some ⟨a, .unmarked⟩) :
    Inv { s with pins := s.pins.erase t } := by
  refine h.of_pins (fun t' x hx => h.held t' x (lookup_erase_some hx).2) fun t' a ht' => ?_
  have htt : t' ≠ t := fun htt => hkeep a (htt ▸ ht')
  exact .inl ((AList.lookup_erase_ne htt).trans ht')

theorem Books.insertCache (h : Books s) (g : BlobGuid) (c : CachedBlob I) :
    Books { s with bm := { s.bm with cache := s.bm.cache.insert g c } } :=
  { h with
    dirty := fun a ha => (AList.mem_insert _).mpr (.inr (h.dirty a ha))
    held := fun t x hx hh => (AList.mem_insert _).mpr (.inr (h.held t x hx hh))
    flushes := fun b a f hf => (AList.mem_insert _).mpr (.inr (h.flushes b a f hf)) }

theorem Inv.load (h : Inv s) {image : I} (hs : s.bm.store.lookup g = some image) :
    Inv { s with bm := { s.bm with cache := s.bm.cache.insert g ⟨image, 0⟩ } } := by
  refine ⟨h.toBooks.insertCache g _, fun a c hc => ?_⟩
  rcases lookup_insert_some hc with ⟨rfl, rfl⟩ | ⟨-, hc⟩
  · exact .stored hs
  · exact (h.covered a c hc).of_flushes id id rfl fun _ => rfl

theorem Inv.mutate (h : Inv s) {t : Nat} {stage : Stage I}
    (ht : s.pins.lookup t = some ⟨g, stage⟩) (hholds : (⟨g, stage⟩ : Pin I).holds) (f : I → I) :
    Inv { s.setPin t g .unmarked with bm := s.bm.exclusively g f } := by
  obtain ⟨c₀, hc₀⟩ := exists_lookup (h.held t _ ht hholds)
  rw [BufferManager.exclusively_eq _ _ _ (BufferManager.view_of_cache hc₀)]
  refine ⟨{ h.toBooks.insertCache g _ with held := fun t' x hx hx' => ?_ }, fun a c hc => ?_⟩
  · refine (AList.mem_insert _).mpr ?_
    rcases lookup_insert_some hx with ⟨-, rfl⟩ | ⟨-, hx⟩
    · exact .inl rfl
    · exact .inr (h.held t' x hx hx')
  · rcases lookup_insert_some hc with ⟨rfl, -⟩ | ⟨ha, hc⟩
    · exact .unmarked (AList.lookup_insert _)
    · refine (h.covered a c hc).of_flushes ?_ id rfl fun _ => rfl
      intro t' ht'
      have htt : t' ≠ t := by
        rintro rfl
        rw [ht] at ht'
        cases ht'
        exact ha rfl
      exact (AList.lookup_insert_ne htt).trans ht'

theorem lookup_minMerge_of_ne {m : AList fun _ : BlobGuid => Nat} (h : a ≠ g) :
    (BufferManager.minMerge m g seq).lookup a = m.lookup a := by
  unfold BufferManager.minMerge
  split <;> exact AList.lookup_insert_ne h

theorem lookup_minMerge {m : AList fun _ : BlobGuid => Nat} {q : Nat}
    (h : (BufferManager.minMerge m g seq).lookup g = some q) : q = seq ∨ m.lookup g = some q := by
  unfold BufferManager.minMerge at h
  split at h
  · rw [AList.lookup_insert] at h
    exact .inl (Option.some.inj h).symm
  · rename_i cur hcur
    rw [AList.lookup_insert] at h
    rcases Nat.le_total cur seq with hle | hle
    · rw [Nat.min_eq_left hle] at h
      exact .inr (hcur.trans h)
    · rw [Nat.min_eq_right hle] at h
      exact .inl (Option.some.inj h).symm

/-- The mark of a blob that is in memory, under a number that no flush of the blob has. -/
theorem Books.mark (h : Books s) (hg : g ∈ s.bm.cache)
    (hseq : ∀ b f, s.flushes.lookup (b, g) = some f → f.seq = seq → seq = structuralSeq) :
    Books { s with bm := { s.bm with dirty := BufferManager.minMerge s.bm.dirty g seq } } := by
  refine { h with dirty := fun a ha => ?_, marks := fun b a f hf hd => ?_ }
  · rcases BufferManager.mem_minMerge.mp ha with rfl | ha
    · exact hg
    · exact h.dirty a ha
  · by_cases ha : a = g
    · subst ha
      rcases lookup_minMerge hd with hq | hq
      · exact hq ▸ hseq b f hf hq
      · exact h.marks b a f hf hq
    · exact h.marks b a f hf ((lookup_minMerge_of_ne ha).symm.trans hd)

theorem Inv.mark (h : Inv s) (hg : g ∈ s.bm.cache)
    (hseq : ∀ b f, s.flushes.lookup (b, g) = some f → f.seq = seq → seq = structuralSeq) :
    Inv { s with bm := { s.bm with dirty := BufferManager.minMerge s.bm.dirty g seq } } where
  toBooks := h.toBooks.mark hg hseq
  covered := fun a c hc => (h.covered a c hc).of_flushes id
    (fun hd => BufferManager.mem_minMerge.mpr (.inr hd)) rfl fun _ => rfl

/-- Of the hints the books only say that they have no number of a flush. -/
theorem Inv.of_hints (h : Inv s) {hints : BlobGuid → Nat}
    {announced : AList fun _ : Nat => Nat × Bool}
    (hh : ∀ b g f, s.flushes.lookup (b, g) = some f → hints g = f.seq →
      f.seq = cleanDirtySeq ∨ f.seq = structuralSeq) :
    Inv { s with hints, announced } :=
  { h with
    hinted := hh
    covered := fun a c hc => (h.covered a c hc).of_flushes id id rfl fun _ => rfl }

theorem Inv.setHint (h : Inv s) (hseq : ∀ b f, s.flushes.lookup (b, g) = some f → f.seq = seq →
    seq = cleanDirtySeq ∨ seq = structuralSeq) : Inv (s.setHint g seq) := by
  refine h.of_hints fun b a f hf ha => ?_
  by_cases hag : a = g
  · subst hag
    rw [Function.update_self] at ha
    exact ha ▸ hseq b f hf ha.symm
  · rw [Function.update_of_ne hag] at ha
    exact h.hinted b a f hf ha

theorem Inv.clearHint (h : Inv s) (g : BlobGuid) : Inv (s.setHint g cleanDirtySeq) :=
  h.setHint fun _ _ _ _ => .inl rfl

theorem Inv.publishHint (h : Inv s)
    (hseq : ∀ b f, s.flushes.lookup (b, g) = some f → f.seq = seq → seq = structuralSeq) :
    Inv (s.publishHint g seq) := by
  unfold World.publishHint
  split
  · exact h
  · rename_i hcovers
    -- A hint that does not cover the number is clean or higher.
    have hnew : (if s.hints g = cleanDirtySeq then seq else min (s.hints g) seq) = seq := by
      split
      · rfl
      · simp only [World.hintCovers, decide_eq_true_eq, not_or, not_and, not_le] at hcovers
        exact Nat.min_eq_right (Nat.le_of_lt (hcovers.2 ‹_›))
    rw [hnew]
    exact h.setHint fun b f hf hs => .inr (hseq b f hf hs)

theorem Inv.takeHint (h : Inv s) (hg : g ∈ s.bm.dirty) : Inv (s.takeHint g) := by
  unfold World.takeHint
  split
  · exact h
  · rename_i hclean
    refine (h.mark (h.dirty g hg) fun b f hf hs => ?_).clearHint g
    exact hs ▸ (h.hinted b g f hf hs.symm).resolve_left (hs ▸ hclean)

theorem mem_dirty_takeHint (hg : g ∈ s.bm.dirty) :
    a ∈ (s.takeHint g).bm.dirty ↔ a ∈ s.bm.dirty := by
  unfold World.takeHint
  split
  · exact Iff.rfl
  · exact BufferManager.mem_minMerge.trans ⟨fun ha => ha.elim (· ▸ hg) id, .inr⟩

theorem takeHint_hints : (s.takeHint g).hints = Function.update s.hints g cleanDirtySeq := by
  unfold World.takeHint
  split
  · rename_i hclean
    rw [← hclean, Function.update_eq_self]
  · rfl

theorem Inv.foldl_takeHint (h : Inv s) {l : List BlobGuid} (hl : ∀ g ∈ l, g ∈ s.bm.dirty) :
    Inv (l.foldl World.takeHint s) ∧
      (∀ a, a ∈ (l.foldl World.takeHint s).bm.dirty ↔ a ∈ s.bm.dirty) ∧
      ∀ a, a ∈ l ∨ s.hints a = cleanDirtySeq →
        (l.foldl World.takeHint s).hints a = cleanDirtySeq := by
  induction l generalizing s with
  | nil => exact ⟨h, fun _ => Iff.rfl, fun a ha => ha.resolve_left List.not_mem_nil⟩
  | cons g l ih =>
    have hg := hl g List.mem_cons_self
    obtain ⟨hinv, hdirty, hhints⟩ := ih (h.takeHint hg) fun a ha =>
      (mem_dirty_takeHint hg).mpr (hl a (List.mem_cons_of_mem _ ha))
    refine ⟨hinv, fun a => (hdirty a).trans (mem_dirty_takeHint hg), fun a ha => hhints a ?_⟩
    rw [takeHint_hints]
    by_cases hag : a = g
    · exact .inr (hag ▸ Function.update_self ..)
    · rw [Function.update_of_ne hag]
      exact ha.imp_left fun ha => (List.mem_cons.mp ha).resolve_left hag

/-- When a snapshot starts, no dirty blob has a hint. -/
theorem Inv.takeHints (h : Inv s) : Inv s.takeHints ∧
    ∀ a ∈ s.takeHints.bm.dirty, s.takeHints.hints a = cleanDirtySeq := by
  obtain ⟨hinv, hdirty, hhints⟩ := h.foldl_takeHint fun g hg => AList.mem_keys.mpr hg
  exact ⟨hinv, fun a ha => hhints a (.inl (AList.mem_keys.mp ((hdirty a).mp ha)))⟩

/-- Only a blob that nobody has is taken out of memory. -/
theorem Inv.evict (h : Inv s) (hdirty : g ∉ s.bm.dirty) (hflush : g ∉ s.bm.flushing)
    (hheld : ∀ t x, s.pins.lookup t = some x → x.holds → x.guid ≠ g) :
    Inv { s with bm := { s.bm with cache := s.bm.cache.erase g } } := by
  refine { h with
    dirty := fun a ha => AList.mem_erase.mpr ⟨fun hag => hdirty (hag ▸ ha), h.dirty a ha⟩
    held := fun t x hx hh => AList.mem_erase.mpr ⟨hheld t x hx hh, h.held t x hx hh⟩
    flushes := fun b a f hf =>
      AList.mem_erase.mpr ⟨fun hag => hflush (hag ▸ h.flushing hf), h.flushes b a f hf⟩
    covered := fun a c hc =>
      (h.covered a c (lookup_erase_some hc).2).of_flushes id id rfl fun _ => rfl }

/-- The keys are erased by their decidable equality, not by the one of pairs. -/
theorem flushCount_eq {b : Nat} (hf : s.flushes.lookup (b, g) = some f) (a : BlobGuid) :
    s.flushCount a =
      ((b, g) :: @List.erase _ instBEqOfDecidableEq s.flushes.keys (b, g)).countP (·.2 = a) :=
  (@List.perm_cons_erase _ instBEqOfDecidableEq _ _ _
    (AList.mem_keys.mp (mem_of_lookup hf))).countP_eq _

theorem flushCount_erase {b : Nat} (hf : s.flushes.lookup (b, g) = some f) (a : BlobGuid) :
    (s.flushes.erase (b, g)).keys.countP (fun k => k.2 = a) =
      s.flushCount a - if a = g then 1 else 0 := by
  rw [flushCount_eq hf, AList.keys_erase, List.countP_cons]
  by_cases ha : a = g
  · subst ha
    simp
  · simp [ha, Ne.symm ha]

/-- A flush that is through leaves. -/
theorem Books.drop (h : Books s) {b : Nat} (hf : s.flushes.lookup (b, g) = some f) :
    Books { s with bm := s.bm.removeOneFlushing g, flushes := s.flushes.erase (b, g) } := by
  have hsame := BufferManager.removeOneFlushing_same s.bm g
  have hold {b' : Nat} {a : BlobGuid} {f' : Flush I}
      (hf' : (s.flushes.erase (b, g)).lookup (b', a) = some f') :
      s.flushes.lookup (b', a) = some f' := (lookup_erase_some hf').2
  refine ⟨hsame.pendingDeletes.trans h.pendingDeletes, fun a ha => ?_, hsame.cache ▸ h.held,
    fun b' a f' hf' => hsame.cache ▸ h.flushes b' a f' (hold hf'), fun a => ?_,
    fun b' a f' hf' hd => ?_,
    fun b' b'' a f' f'' hf' hf'' => h.seqs b' b'' a f' f'' (hold hf') (hold hf''),
    fun b' a f' hf' => h.hinted b' a f' (hold hf')⟩
  · rw [BufferManager.removeOneFlushing_dirty] at ha
    exact hsame.cache ▸ h.dirty a ha
  · rw [BufferManager.flushes_removeOneFlushing, h.count]
    exact (flushCount_erase hf a).symm
  · rw [BufferManager.removeOneFlushing_dirty] at hd
    exact h.marks b' a f' (hold hf') hd

/-- Every other blob is covered as before, and the blob of the flush too if it is dirty or the
flush was to write nothing. -/
theorem Covered.drop (h : Covered s a c) {b : Nat} {bm : BufferManager I}
    (hf : s.flushes.lookup (b, g) = some f) (hstore : bm.store = s.bm.store)
    (hdirty : a ∈ s.bm.dirty → a ∈ bm.dirty) (hg : g ∈ bm.dirty ∨ ∀ c, ¬f.Carries c) :
    Covered { s with bm, flushes := s.flushes.erase (b, g) } a c := by
  cases h with
  | unmarked ht => exact .unmarked ht
  | dirty hd => exact .dirty (hdirty hd)
  | @flush b' f' hf' hc =>
    by_cases hk : (b', a) = (b, g)
    · cases hk
      obtain rfl : f = f' := Option.some.inj (hf.symm.trans hf')
      rcases hg with hd | hn
      · exact .dirty hd
      · exact absurd hc (hn c)
    · exact .flush ((AList.lookup_erase_ne hk).trans hf') hc
  | stored hs => exact .stored (by rw [hstore]; exact hs)

theorem Inv.retire (h : Inv s) {b : Nat} (hf : s.flushes.lookup (b, g) = some f)
    (ha : ∀ c, ¬f.Carries c) :
    Inv (s.retired b g f.seq) := by
  suffices hinv : Inv { s with
      bm := s.bm.retireWriteThrough g f.seq, flushes := s.flushes.erase (b, g) } by
    unfold World.retired
    dsimp only
    split
    · exact hinv
    · exact hinv.clearHint g
  -- Since nobody marks a blob with the number of its flush, the mark in the map is newer.
  have hmark : ¬(f.seq ≠ structuralSeq ∧ s.bm.dirty.lookup g = some f.seq) := by
    rintro ⟨hseq, hd⟩
    exact hseq (h.marks b g f hf hd)
  rw [BufferManager.retireWriteThrough, if_neg hmark]
  have hsame := BufferManager.removeOneFlushing_same s.bm g
  refine ⟨h.toBooks.drop hf, fun a c hc => ?_⟩
  refine (h.covered a c (hsame.cache ▸ hc)).drop hf hsame.store ?_ (.inr ha)
  rw [BufferManager.removeOneFlushing_dirty]
  exact id

theorem not_isPendingDelete {bm : BufferManager I} (h : bm.pendingDeletes = ∅) (g : BlobGuid) :
    bm.isPendingDelete g = false := by
  rw [BufferManager.isPendingDelete, h]
  exact decide_eq_false (AList.notMem_empty g)

theorem Inv.restored (hp : s.bm.pendingDeletes = ∅)
    (h : Inv { s with bm := s.bm.restoreDirtyEntry g seq })
    (hseq : ∀ b f, s.flushes.lookup (b, g) = some f → f.seq = seq → seq = structuralSeq) :
    Inv (s.restore g seq) := by
  rw [World.restore, not_isPendingDelete hp]
  exact h.publishHint hseq

theorem Inv.giveBack (h : Inv s) {b : Nat} (hf : s.flushes.lookup (b, g) = some f) :
    Inv (s.giveBack b g f.seq) := by
  have hsame := BufferManager.removeOneFlushing_same s.bm g
  have hother : ∀ b' f', (s.flushes.erase (b, g)).lookup (b', g) = some f' → f'.seq = f.seq →
      f.seq = structuralSeq := by
    intro b' f' hf' hseq
    obtain ⟨hk, hold⟩ := lookup_erase_some hf'
    rcases h.seqs b' b g f' f hold hf hseq with rfl | hs
    · exact absurd rfl hk
    · exact hseq ▸ hs
  have hbm : s.bm.restoreDirtyEntry g f.seq = { s.bm.removeOneFlushing g with
      dirty := BufferManager.minMerge (s.bm.removeOneFlushing g).dirty g f.seq } := by
    rw [BufferManager.restoreDirtyEntry,
      not_isPendingDelete (hsame.pendingDeletes.trans h.pendingDeletes)]
    rfl
  refine Inv.restored h.pendingDeletes ?_ hother
  dsimp only
  rw [hbm]
  refine ⟨(h.toBooks.drop hf).mark ?_ hother, fun a c hc => ?_⟩
  · rw [hsame.cache]
    exact h.flushes b g f hf
  · refine (h.covered a c (hsame.cache ▸ hc)).drop hf hsame.store ?_
      (.inl (BufferManager.mem_minMerge.mpr (.inl rfl)))
    intro hd
    apply BufferManager.mem_minMerge.mpr
    rw [BufferManager.removeOneFlushing_dirty]
    exact .inr hd

theorem flushCount_setFlush {b : Nat} (hf : s.flushes.lookup (b, g) = some f) (a : BlobGuid) :
    (s.setFlush b g f').flushCount a = s.flushCount a := by
  rw [flushCount_eq hf, World.flushCount, World.setFlush, AList.keys_insert]

theorem lookup_setFlush {b : Nat} (h : (s.setFlush b g f').flushes.lookup (b', a) = some f) :
    (b' = b ∧ a = g ∧ f = f') ∨ (b', a) ≠ (b, g) ∧ s.flushes.lookup (b', a) = some f := by
  rcases lookup_insert_some h with ⟨hk, rfl⟩ | h
  · exact .inl ⟨congrArg Prod.fst hk, congrArg Prod.snd hk, rfl⟩
  · exact .inr h

/-- A flush goes one step further. -/
theorem Books.setFlush (h : Books s) {b : Nat} (hf : s.flushes.lookup (b, g) = some f)
    (hseq : f'.seq = f.seq) : Books (s.setFlush b g f') := by
  refine { h with
    flushes := fun b' a x hx => ?_
    count := fun a => (h.count a).trans (flushCount_setFlush hf a).symm
    marks := fun b' a x hx hd => ?_
    seqs := fun b' b'' a x y hx hy hxy => ?_
    hinted := fun b' a x hx hh => ?_ }
  · rcases lookup_setFlush hx with ⟨rfl, rfl, rfl⟩ | ⟨-, hold⟩
    · exact h.flushes _ _ f hf
    · exact h.flushes b' a x hold
  · rcases lookup_setFlush hx with ⟨rfl, rfl, rfl⟩ | ⟨-, hold⟩
    · rw [hseq] at hd ⊢
      exact h.marks _ _ f hf hd
    · exact h.marks b' a x hold hd
  · rcases lookup_setFlush hx with ⟨rfl, rfl, rfl⟩ | ⟨-, hxold⟩ <;>
      rcases lookup_setFlush hy with ⟨hb, ha, rfl⟩ | ⟨-, hyold⟩
    · exact .inl hb.symm
    · rw [hseq] at hxy ⊢
      exact h.seqs _ _ _ f y hf hyold hxy
    · subst hb ha
      rw [hseq] at hxy
      exact h.seqs _ _ _ x f hxold hf hxy
    · exact h.seqs b' b'' a x y hxold hyold hxy
  · rcases lookup_setFlush hx with ⟨rfl, rfl, rfl⟩ | ⟨-, hold⟩
    · rw [hseq] at hh ⊢
      exact h.hinted _ _ f hf hh
    · exact h.hinted b' a x hold hh

/-- A flush that carries its blob goes on to carry it. -/
theorem Inv.setFlush (h : Inv s) {b : Nat} (hf : s.flushes.lookup (b, g) = some f)
    (hc : s.bm.cache.lookup g = some c) (hseq : f'.seq = f.seq)
    (hcarries : f.Carries c → f'.Carries c) : Inv (s.setFlush b g f') := by
  refine ⟨h.toBooks.setFlush hf hseq, fun a x hx => ?_⟩
  change s.bm.cache.lookup a = some x at hx
  cases h.covered a x hx with
  | unmarked ht => exact .unmarked ht
  | dirty hd => exact .dirty hd
  | @flush b' y hy hcy =>
    by_cases hk : (b', a) = (b, g)
    · cases hk
      obtain rfl : f = y := Option.some.inj (hf.symm.trans hy)
      obtain rfl : c = x := Option.some.inj (hc.symm.trans hx)
      exact .flush (AList.lookup_insert _) (hcarries hcy)
    · exact .flush ((AList.lookup_insert_ne hk).trans hy) hcy
  | stored hs => exact .stored hs

theorem World.Due.covered {b : Nat} (h : s.Due b g c) {u : World I} (hpins : u.pins = s.pins)
    (hdirty : u.bm.dirty = s.bm.dirty)
    (hflush : ∀ b' ≠ b, u.flushes.lookup (b', g) = s.flushes.lookup (b', g)) :
    Covered u g c := by
  rcases h with ⟨⟨t, x, stage⟩, he, rfl, hstage⟩ | hd | ⟨⟨⟨b', a⟩, f⟩, he, rfl, hb, hf⟩
  · cases stage <;> cases hstage
    exact .unmarked (hpins ▸ AList.mem_lookup_iff.mpr he)
  · exact .dirty (hdirty ▸ hd)
  · exact .flush ((hflush b' hb).trans (AList.mem_lookup_iff.mpr he)) hf

theorem Inv.write (h : Inv s) {b : Nat} {version : Option Nat} {image : I}
    (hf : s.flushes.lookup (b, g) = some ⟨seq, version, .current image⟩)
    (hmay : Orderly s (.write b g)) :
    Inv { s.setFlush b g ⟨seq, version, .written⟩ with
      bm := { s.bm with store := s.bm.store.insert g image } } := by
  have hbooks : Books (s.setFlush b g ⟨seq, version, .written⟩) := h.toBooks.setFlush hf rfl
  refine ⟨{ hbooks with }, fun a x hx => ?_⟩
  change s.bm.cache.lookup a = some x at hx
  by_cases ha : a = g
  · subst ha
    rcases hmay _ hf x hx with hcarries | hdue
    · obtain rfl : image = x.image := hcarries
      exact .stored (AList.lookup_insert _)
    · exact hdue.covered rfl rfl fun b' hb =>
        AList.lookup_insert_ne fun hk => hb (congrArg Prod.fst hk)
  · refine (h.covered a x hx).of_flushes id id (AList.lookup_insert_ne ha) fun b' => ?_
    exact AList.lookup_insert_ne fun hk => ha (congrArg Prod.snd hk)

theorem lookup_startFlushes_old {b : Nat} (hb : b' ≠ b) (a : BlobGuid)
    (entries : List (BlobGuid × Flush I)) (m : AList fun _ : Nat × BlobGuid => Flush I) :
    (World.startFlushes b entries m).lookup (b', a) = m.lookup (b', a) := by
  unfold World.startFlushes
  induction entries generalizing m with
  | nil => rfl
  | cons e entries ih =>
    rw [List.foldl_cons, ih, AList.lookup_insert_ne]
    exact fun hk => hb (congrArg Prod.fst hk)

theorem lookup_startFlushes {b : Nat} {entries : List (BlobGuid × Flush I)}
    (h : (World.startFlushes b entries m).lookup (b, a) = some f) :
    (a, f) ∈ entries ∨
      m.lookup (b, a) = some f := by
  unfold World.startFlushes at h
  induction entries generalizing m with
  | nil => exact .inr h
  | cons e entries ih =>
    rcases ih h with he | hf
    · exact .inl (List.mem_cons_of_mem _ he)
    · rcases lookup_insert_some hf with ⟨ha, rfl⟩ | ⟨-, hf⟩
      · cases ha
        exact .inl List.mem_cons_self
      · exact .inr hf

theorem mem_startFlushes {b : Nat} {k : Nat × BlobGuid} {entries : List (BlobGuid × Flush I)} :
    k ∈ World.startFlushes b entries m ↔ k ∈ m ∨ ∃ e ∈ entries, (b, e.1) = k := by
  unfold World.startFlushes
  induction entries generalizing m with
  | nil => simp
  | cons e entries ih =>
    rw [List.foldl_cons, ih, AList.mem_insert, List.exists_mem_cons_iff]
    constructor
    · rintro ((rfl | hk) | hk)
      · exact .inr (.inl rfl)
      · exact .inl hk
      · exact .inr (.inr hk)
    · rintro (hk | rfl | hk)
      · exact .inl (.inr hk)
      · exact .inl (.inl rfl)
      · exact .inr hk

theorem count_startFlushes {b : Nat} {entries : List (BlobGuid × Flush I)}
    (hnodup : (entries.map (·.1)).Nodup) (hfresh : ∀ e ∈ entries, (b, e.1) ∉ m)
    (a : BlobGuid) :
    (World.startFlushes b entries m).keys.countP (fun k => k.2 = a) =
      m.keys.countP (fun k => k.2 = a) + (entries.map (·.1)).count a := by
  unfold World.startFlushes
  induction entries generalizing m with
  | nil => rfl
  | cons e entries ih =>
    obtain ⟨hnot, hnodup⟩ := List.nodup_cons.mp hnodup
    have he := hfresh e List.mem_cons_self
    rw [List.foldl_cons, ih hnodup ?_, AList.keys, AList.entries_insert_of_notMem he,
      List.keys_cons, List.countP_cons, List.map_cons, List.count_cons]
    · simp only [decide_eq_true_eq, beq_iff_eq, AList.keys]
      omega
    · intro e' he' hk
      rcases (AList.mem_insert _).mp hk with hk | hk
      · exact hnot (List.mem_map.mpr ⟨e', he', congrArg Prod.snd hk⟩)
      · exact hfresh e' (List.mem_cons_of_mem _ he') hk

theorem snapshotDirty_nodup (bm : BufferManager I) : (bm.snapshotDirty.1.map Prod.fst).Nodup := by
  have hkeys : ((bm.dirty.entries.map fun e => (e.1, e.2)).map Prod.fst).Nodup := by
    rw [List.map_map]
    exact bm.dirty.nodupKeys
  exact hkeys.sublist ((List.filter_sublist).map _)

section

variable {b : Nat} {entries : List (BlobGuid × Flush I)}

/-- The entries are the drained marks, with the versions of their blobs if any. -/
structure Drained (s : World I) (entries : List (BlobGuid × Flush I)) : Prop where
  snap : s.bm.snapshotDirty.1 = entries.map fun e => (e.1, e.2.seq)
  fresh : ∀ e ∈ entries, e.2.progress = .drained ∧
    ∃ c, s.bm.cache.lookup e.1 = some c ∧ e.2.Fresh c

theorem Inv.cached_snapshot (h : Inv s) :
    ∀ e ∈ s.bm.snapshotDirty.1, e.1 ∈ s.bm.cache := by
  intro e he
  obtain ⟨hd, -⟩ := BufferManager.mem_snapshotDirty he
  exact h.dirty _ (mem_of_lookup hd)

theorem drained_versions {entries : List DirtySnapshotEntry}
    (hok : s.bm.snapshotDirty.2.snapshotDirtyVersions s.bm.snapshotDirty.1 = .ok entries) :
    Drained s (entries.map fun e =>
      (e.guid, ⟨e.expectedSeq, some e.contentVersion, .drained⟩)) := by
  obtain ⟨hsnap, hversions⟩ := BufferManager.snapshotDirtyVersions_spec hok
  rw [(BufferManager.snapshotDirty_same s.bm).cache] at hversions
  refine ⟨by rw [hsnap, List.map_map]; rfl, fun x hx => ?_⟩
  obtain ⟨e, he, rfl⟩ := List.mem_map.mp hx
  obtain ⟨c, hc, hv⟩ := hversions e he
  refine ⟨rfl, c, hc, fun v hv' => ?_⟩
  cases hv'
  exact hv

theorem Inv.drained_inline (h : Inv s) :
    Drained s (s.bm.snapshotDirty.1.map fun e => (e.1, ⟨e.2, none, .drained⟩)) := by
  refine ⟨by rw [List.map_map]; exact (List.map_id _).symm, fun x hx => ?_⟩
  obtain ⟨e, he, rfl⟩ := List.mem_map.mp hx
  obtain ⟨c, hc⟩ := exists_lookup (h.cached_snapshot e he)
  exact ⟨rfl, c, hc, nofun⟩

/-- After a snapshot a flush is new, with the mark and the version of its blob, or it was there
before. -/
theorem snapshot_cases (hb : ∀ k ∈ s.flushes.keys, k.1 ≠ b) (hdrained : Drained s entries)
    {b' : Nat} {a : BlobGuid} {f : Flush I}
    (hf : (World.startFlushes b entries s.flushes).lookup (b', a) = some f) :
    (b' = b ∧ s.bm.dirty.lookup a = some f.seq ∧ f.progress = .drained ∧
      ∃ c, s.bm.cache.lookup a = some c ∧ f.Fresh c) ∨
    (b' ≠ b ∧ s.flushes.lookup (b', a) = some f) := by
  by_cases hbb : b' = b
  · subst hbb
    rcases lookup_startFlushes hf with he | hold
    · have hmem : (a, f.seq) ∈ s.bm.snapshotDirty.1 := by
        rw [hdrained.snap]
        exact List.mem_map.mpr ⟨_, he, rfl⟩
      exact .inl ⟨rfl, (BufferManager.mem_snapshotDirty hmem).1, hdrained.fresh _ he⟩
    · have hmem : (b', a) ∈ s.flushes := mem_of_lookup hold
      exact absurd rfl (hb _ (AList.mem_keys.mp hmem))
  · rw [lookup_startFlushes_old hbb] at hf
    exact .inr ⟨hbb, hf⟩

/-- Every dirty blob gets a flush. -/
theorem Inv.snapshot_dirty (h : Inv s) (hb : ∀ k ∈ s.flushes.keys, k.1 ≠ b)
    (hok : Drained s entries) {a : BlobGuid} {c : CachedBlob I} (ha : a ∈ s.bm.dirty)
    (hc : s.bm.cache.lookup a = some c) :
    ∃ f, (World.startFlushes b entries s.flushes).lookup (b, a) = some f ∧ f.Carries c := by
  obtain ⟨seq, hseq⟩ := exists_lookup ha
  have hmem : (a, seq) ∈ s.bm.snapshotDirty.1 := by
    refine List.mem_filter.mpr ⟨List.mem_map.mpr ⟨⟨a, seq⟩, AList.mem_lookup_iff.mp hseq, rfl⟩, ?_⟩
    rw [not_isPendingDelete h.pendingDeletes]
    rfl
  rw [hok.snap] at hmem
  obtain ⟨e, he, hea⟩ := List.mem_map.mp hmem
  have hguid : (b, e.1) = (b, a) := congrArg (Prod.mk b) (congrArg Prod.fst hea)
  obtain ⟨f, hf⟩ := exists_lookup (mem_startFlushes.mpr (.inr ⟨e, he, hguid⟩))
  refine ⟨f, hf, ?_⟩
  rcases snapshot_cases hb hok hf with ⟨-, -, hdrained, c', hc', hfresh⟩ | ⟨hne, -⟩
  · cases hc.symm.trans hc'
    rw [Flush.Carries, hdrained]
    exact hfresh
  · exact absurd rfl hne

theorem Inv.snapshot (h : Inv s) (hb : ∀ k ∈ s.flushes.keys, k.1 ≠ b)
    (hok : Drained s entries) (hclean : ∀ a ∈ s.bm.dirty, s.hints a = cleanDirtySeq) :
    Inv { s with
      bm := s.bm.snapshotDirty.2, flushes := World.startFlushes b entries s.flushes } := by
  have hsame := BufferManager.snapshotDirty_same s.bm
  refine ⟨⟨hsame.pendingDeletes.trans h.pendingDeletes, ?_, hsame.cache ▸ h.held, ?_, ?_, ?_,
    ?_, ?_⟩, ?_⟩
  · intro a ha
    rw [BufferManager.snapshotDirty_dirty] at ha
    exact absurd ha (AList.notMem_empty a)
  · intro b' a f hf
    rw [hsame.cache]
    rcases snapshot_cases hb hok hf with ⟨-, -, -, c, hc, -⟩ | ⟨-, hold⟩
    · exact mem_of_lookup hc
    · exact h.flushes b' a f hold
  · intro a
    have hguids : s.bm.snapshotDirty.1.map Prod.fst = entries.map (·.1) := by
      rw [hok.snap, List.map_map]
      rfl
    rw [BufferManager.flushes_snapshotDirty, h.count, hguids]
    refine (count_startFlushes (hguids ▸ snapshotDirty_nodup s.bm) ?_ a).symm
    intro e _ hk
    exact hb _ (AList.mem_keys.mp hk) rfl
  · intro b' a f _ hd
    rw [BufferManager.snapshotDirty_dirty] at hd
    cases hd
  -- The number of a new flush is that of the mark, which no older flush of the blob has.
  · intro b' b'' a f f' hf hf' hseq
    rcases snapshot_cases hb hok hf with ⟨rfl, hm, -⟩ | ⟨-, hold⟩ <;>
      rcases snapshot_cases hb hok hf' with ⟨rfl, hm', -⟩ | ⟨-, hold'⟩
    · exact .inl rfl
    · exact .inr (hseq ▸ h.marks b'' a f' hold' (hseq ▸ hm))
    · exact .inr (h.marks b' a f hold (hseq ▸ hm'))
    · exact h.seqs b' b'' a f f' hold hold' hseq
  · intro b' a f hf hh
    rcases snapshot_cases hb hok hf with ⟨-, hm, -⟩ | ⟨-, hold⟩
    · exact .inl (hh.symm.trans (hclean a (mem_of_lookup hm)))
    · exact h.hinted b' a f hold hh
  · intro a c hc
    rw [hsame.cache] at hc
    cases h.covered a c hc with
    | unmarked ht => exact .unmarked ht
    | dirty hd =>
      obtain ⟨f, hf, hcarries⟩ := h.snapshot_dirty hb hok hd hc
      exact .flush hf hcarries
    | @flush b' f hf hcarries =>
      have hne : b' ≠ b := hb _ (AList.mem_keys.mp (mem_of_lookup hf))
      exact .flush ((lookup_startFlushes_old hne a entries s.flushes).trans hf) hcarries
    | stored hs => exact .stored (by rw [hsame.store]; exact hs)

end

theorem Inv.step_clone (h : Inv s) {b : Nat} (hstep : s.step (.clone b g) = some t) : Inv t := by
  simp only [World.step] at hstep
  split at hstep
  · rename_i seq version hf
    obtain ⟨c, hc⟩ := exists_lookup (h.flushes b g _ hf)
    split at hstep <;> cases hstep
    · rename_i image himage
      rw [BufferManager.snapshotBytesIfVersion, hc] at himage
      have hsome := Except.ok.inj himage
      simp only [Option.ite_none_right_eq_some, Option.some.injEq] at hsome
      exact h.setFlush hf hc rfl fun hfresh => ⟨hsome.2.symm, hfresh⟩
    · exact (h.giveBack hf :)
  -- Without a version to keep to, the flush takes the blob as it is now.
  · rename_i seq hf
    obtain ⟨c, hc⟩ := exists_lookup (h.flushes b g _ hf)
    simp only [hc] at hstep
    cases hstep
    exact h.setFlush hf hc rfl fun hfresh => ⟨rfl, hfresh⟩
  · cases hstep

theorem Inv.step_check (h : Inv s) {b : Nat} (hstep : s.step (.check b g) = some t) : Inv t := by
  simp only [World.step] at hstep
  split at hstep
  · rename_i seq version image hf
    obtain ⟨c, hc⟩ := exists_lookup (h.flushes b g _ hf)
    split at hstep <;> cases hstep
    · exact h.setFlush hf hc rfl fun hcarries => hcarries.1
    -- The version is not the blob's, so the flush did not carry it.
    · rename_i hcheck
      refine h.setFlush hf hc rfl fun hcarries => ?_
      cases version with
      | none => cases hcheck
      | some v =>
        simp only [BufferManager.writeSnapshotIsCurrent, hc] at hcheck
        exact absurd (hcarries.2 v rfl).symm (of_decide_eq_false (Except.ok.inj hcheck))
    · exact (h.giveBack hf :)
  · cases hstep

theorem Inv.step_insert (h : Inv s) {i : Nat} (hmay : Orderly s (.insert i))
    (hstep : s.step (.insert i) = some t) : Inv t := by
  simp only [World.step] at hstep
  split at hstep
  · rename_i g image hpin
    cases hstep
    have hnot : ∀ a, s.pins.lookup i ≠ some ⟨a, .unmarked⟩ := by
      intro a ha
      cases hpin.symm.trans ha
    rw [Orderly, hpin] at hmay
    by_cases hg : g ∈ s.bm.cache
    · rw [if_pos hg]
      exact h.setPin (fun _ => hg) fun a ha => absurd ha (hnot a)
    · rw [if_neg hg]
      have hload := h.load (hmay.resolve_left hg)
      exact hload.setPin (fun _ => (AList.mem_insert _).mpr (.inl rfl))
        fun a ha => absurd ha (hnot a)
  · cases hstep

theorem World.Unused.flush (h : s.Unused g seq) {b : Nat} (hf : s.flushes.lookup (b, g) = some f)
    (hseq : f.seq = seq) : seq = structuralSeq :=
  h ⟨(b, g), f⟩ (AList.mem_lookup_iff.mp hf) rfl hseq

theorem Inv.step_hint (h : Inv s) {i : Nat} (hmay : Orderly s (.hint i seq))
    (hstep : s.step (.hint i seq) = some t) : Inv t := by
  simp only [World.step] at hstep
  split at hstep
  · rename_i g hpin
    cases hstep
    rw [Orderly, hpin] at hmay
    have hinv := h.publishHint fun b f hf => hmay.flush hf
    exact hinv.of_hints hinv.hinted
  · cases hstep

theorem publishMark_pins (covered : Bool) : (s.publishMark g seq covered).pins = s.pins := by
  unfold World.publishMark
  repeat' split
  all_goals rfl

theorem Inv.publishMark (h : Inv s) (hg : g ∈ s.bm.cache) (hseq : s.Unused g seq)
    (covered : Bool) :
    Inv (s.publishMark g seq covered) ∧ g ∈ (s.publishMark g seq covered).bm.dirty := by
  have hpending := not_isPendingDelete h.pendingDeletes g
  rw [World.publishMark, hpending, if_neg Bool.false_ne_true, BufferManager.markDirtyCached,
    hpending, if_neg Bool.false_ne_true]
  split
  -- The map has the blob already, under a number as low.
  · rename_i hcur
    obtain ⟨-, cur, hcur, -⟩ := hcur
    exact ⟨h, mem_of_lookup hcur⟩
  · refine ⟨?_, BufferManager.mem_minMerge.mpr (.inl ?_)⟩
    · have hmarked := h.mark hg fun b f hf => hseq.flush hf
      cases covered with
      | false => exact hmarked
      | true => exact hmarked.setHint fun b f hf hs => .inr (hseq.flush hf hs)
    · rfl

theorem Inv.step_mark (h : Inv s) {i : Nat} (hmay : Orderly s (.mark i))
    (hstep : s.step (.mark i) = some t) : Inv t := by
  simp only [World.step] at hstep
  split at hstep
  · rename_i g seq covered hpin hannounced
    cases hstep
    rw [Orderly, hpin, hannounced] at hmay
    obtain ⟨hinv, hdirty⟩ := h.publishMark (h.held i _ hpin rfl) hmay covered
    have hheld : (⟨g, .held⟩ : Pin I).holds → g ∈ (s.publishMark g seq covered).bm.cache :=
      fun _ => hinv.dirty g hdirty
    have hset := hinv.setPin (t := i) hheld fun a ha => by
      rw [publishMark_pins, hpin] at ha
      cases ha
      exact hdirty
    exact hset.of_hints hset.hinted
  · cases hstep

theorem Inv.step_evict (h : Inv s) (g : BlobGuid) : Inv (s.evicted g) := by
  suffices hinv : Inv { s with bm := s.bm.tryEvictCold g (s.pinned g) } by
    unfold World.evicted
    dsimp only
    split
    · exact hinv
    · exact hinv.clearHint g
  unfold BufferManager.tryEvictCold
  split
  · exact h
  · rename_i hfree
    obtain ⟨hprotected, hpinned⟩ := not_or.mp hfree
    refine h.evict (fun hd => hprotected (.inl hd)) (fun hf => hprotected (.inr (.inl hf))) ?_
    intro i x hx hholds hguid
    apply hpinned
    refine List.any_eq_true.mpr ⟨⟨i, x⟩, AList.mem_lookup_iff.mp hx, ?_⟩
    rw [hholds, hguid]
    simp

theorem Inv.step_snapshot (h : Inv s) {b : Nat} (hstep : s.step (.snapshot b) = some t) :
    Inv t := by
  obtain ⟨hinv, hclean⟩ := h.takeHints
  simp only [World.step] at hstep
  generalize s.takeHints = u at hinv hclean hstep
  have hcache := (BufferManager.snapshotDirty_same u.bm).cache
  obtain ⟨entries, hok⟩ := BufferManager.snapshotDirtyVersions_ok
    (fun e he => hcache ▸ hinv.cached_snapshot e he)
  simp only [hok, Option.ite_none_left_eq_some] at hstep
  obtain ⟨hb, ht⟩ := hstep
  cases ht
  exact hinv.snapshot (fun k hk hkb => hb ⟨k, hk, hkb⟩) (drained_versions hok) hclean

theorem Inv.step_snapshotInline (h : Inv s) {b : Nat}
    (hstep : s.step (.snapshotInline b) = some t) : Inv t := by
  obtain ⟨hinv, hclean⟩ := h.takeHints
  simp only [World.step, Option.ite_none_left_eq_some] at hstep
  generalize s.takeHints = u at hinv hclean hstep
  obtain ⟨hb, ht⟩ := hstep
  cases ht
  exact hinv.snapshot (fun k hk hkb => hb ⟨k, hk, hkb⟩) hinv.drained_inline hclean

theorem Inv.step (h : Inv s) {a : Action I} (hmay : Orderly s a) (hstep : s.step a = some t) :
    Inv t := by
  cases a with
  | pin i g =>
    simp only [World.step, Option.ite_none_left_eq_some, not_or] at hstep
    obtain ⟨⟨hi, -⟩, ht⟩ := hstep
    cases ht
    refine h.setPin ?_ fun a ha => absurd (mem_of_lookup ha) hi
    split
    · exact fun _ => ‹_›
    · exact fun hx => by cases hx
  | read i =>
    simp only [World.step] at hstep
    split at hstep
    · rename_i g hpin
      have hnot : ∀ a, s.pins.lookup i ≠ some ⟨a, .unmarked⟩ := by
        intro a ha
        cases hpin.symm.trans ha
      split at hstep <;> cases hstep
      · exact h.erasePin hnot
      · exact h.setPin (fun hx => by cases hx) fun a ha => absurd ha (hnot a)
    · cases hstep
  | insert i => exact h.step_insert hmay hstep
  | mutate i f =>
    simp only [World.step] at hstep
    split at hstep <;> cases hstep
    · exact h.mutate ‹_› rfl f
    · exact h.mutate ‹_› rfl f
  | hint i seq => exact h.step_hint hmay hstep
  | mark i => exact h.step_mark hmay hstep
  | unpin i =>
    simp only [World.step] at hstep
    split at hstep <;> cases hstep
    rename_i hpin
    exact h.erasePin fun a ha => by cases hpin.symm.trans ha
  | evict g =>
    cases hstep
    exact h.step_evict g
  | snapshot b => exact h.step_snapshot hstep
  | snapshotInline b => exact h.step_snapshotInline hstep
  | clone b g => exact h.step_clone hstep
  | check b g => exact h.step_check hstep
  | write b g =>
    simp only [World.step] at hstep
    split at hstep <;> cases hstep
    exact h.write ‹_› hmay
  | retire b g =>
    simp only [World.step] at hstep
    split at hstep <;> cases hstep
    · rename_i hf
      exact (h.retire hf fun _ hx => hx :)
    · rename_i hf
      exact (h.retire hf fun _ hx => hx :)
  | fail b g =>
    obtain ⟨f, hf, rfl⟩ := Option.map_eq_some_iff.mp hstep
    exact (h.giveBack hf :)

theorem orderly_clean_blobs_mirror {store : AList fun _ : BlobGuid => I} {s : World I}
    (h : Run World.step Orderly (World.opened store) s) : Mirrors s :=
  (h.invariant (inv_opened store) fun hi may took => hi.step may took).mirrors

/-- One blob, with the number ten in it. -/
def oneBlob : AList fun _ : BlobGuid => Nat := AList.insert (0 : BlobGuid) 10 ∅

/-- A writer loads the blob, changes and marks it, and a checkpoint takes it to the store. -/
def changeAndFlush : List (Action Nat) :=
  [.pin 2 0, .read 2, .insert 2, .mutate 2 (· + 1), .hint 2 5, .mark 2, .unpin 2, .snapshot 0,
    .clone 0 0, .check 0 0, .write 0 0, .retire 0 0]

/-- Two writers change the blob, the second finds the hint of the first and marks the blob before
it, and one of them takes it to the store. -/
def flushInline : List (Action Nat) :=
  [.pin 3 0, .pin 4 0, .mutate 3 (· + 1), .hint 3 7, .mutate 4 (· + 1), .hint 4 8, .mark 4, .mark 3,
    .unpin 3, .unpin 4, .snapshotInline 1, .clone 1 0, .check 1 0, .write 1 0, .retire 1 0]

theorem orderly_clean_blobs_mirror_flushed :
    ∃ s, Run World.step Orderly (World.opened oneBlob) s ∧
      (s.bm.cache.lookup 0).map (·.image) = some 13 ∧ 0 ∉ s.bm.dirty ∧ 0 ∉ s.bm.flushing ∧
      Mirrors s := by
  have hplay : (play World.step Orderly (changeAndFlush ++ flushInline)
      (World.opened oneBlob)).any fun s =>
        (s.bm.cache.lookup 0).map (·.image) = some 13 ∧ 0 ∉ s.bm.dirty ∧ 0 ∉ s.bm.flushing := by
    decide +kernel
  obtain ⟨s, hrun, hcache, hdirty, hflushing⟩ := exists_run_of_play hplay
  exact ⟨s, hrun, hcache, hdirty, hflushing, orderly_clean_blobs_mirror hrun⟩

def Stage.isHeld : Stage I → Bool
  | .held => true
  | _ => false

/-- The blob is clean, in nobody's unmarked hands, and not what the store has. -/
def World.Differs (s : World Nat) : Prop :=
  (s.bm.cache.lookup 0).map (·.image) ≠ s.bm.store.lookup 0 ∧ 0 ∈ s.bm.cache ∧
    0 ∉ s.bm.dirty ∧ 0 ∉ s.bm.flushing ∧ s.pins.entries.all fun e => e.2.stage.isHeld

instance (s : World Nat) : Decidable s.Differs := inferInstanceAs (Decidable (_ ∧ _))

theorem World.Differs.not_mirrors {s : World Nat} (h : s.Differs) : ¬Mirrors s := by
  obtain ⟨hne, hcached, hdirty, hflushing, hpins⟩ := h
  obtain ⟨c, hc⟩ := exists_lookup hcached
  intro hm
  have hmirror := hm 0 c hc hdirty hflushing fun t ht => Bool.false_ne_true
    (List.all_eq_true.mp hpins ⟨t, ⟨0, .unmarked⟩⟩ (AList.mem_lookup_iff.mp ht))
  rw [hc, hmirror] at hne
  exact hne rfl

/-- Someone else reads the blob before the writer does, and puts it into the cache when the writer,
the checkpoint and eviction are done with it. -/
def lateLoad : List (Action Nat) :=
  [.pin 1 0, .read 1] ++ changeAndFlush ++ [.evict 0, .insert 1]

/-- Two writers flush the blob inline. The first has cloned it when the second changes it, and
writes its bytes when the second is done. -/
def overlappingFlushes : List (Action Nat) :=
  changeAndFlush ++ [.pin 1 0, .mutate 1 (· + 1), .hint 1 6, .mark 1, .snapshotInline 2,
    .clone 2 0] ++ flushInline ++ [.check 2 0, .write 2 0, .retire 2 0]

theorem not_mirrors_of_play {run : List (Action Nat)}
    (h : (play World.step (fun _ _ => True) run (World.opened oneBlob)).any fun s => s.Differs) :
    ∃ s, play World.step (fun _ _ => True) run (World.opened oneBlob) = some s ∧ ¬Mirrors s := by
  obtain ⟨s, hs, hdiffers⟩ := (Option.any_eq_true _ _).mp h
  exact ⟨s, hs, (of_decide_eq_true hdiffers).not_mirrors⟩

theorem clean_blob_not_in_store :
    (∃ s, play World.step (fun _ _ => True) lateLoad (World.opened oneBlob) = some s ∧
      ¬Mirrors s) ∧
    ∃ s, play World.step (fun _ _ => True) overlappingFlushes (World.opened oneBlob) = some s ∧
      ¬Mirrors s := by
  constructor
  · exact not_mirrors_of_play (by decide +kernel)
  · exact not_mirrors_of_play (by decide +kernel)

end Holt.Mirror
