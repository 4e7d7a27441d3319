import Holt.Store.Bookkeeping
import Holt.Tree.Calls
import Holt.Walker.Walks

/-! Whether a blob is there at all: a walk brings no blob but under a new name, and takes none out
of the store. -/

namespace Holt

open Holt.Lib

namespace BufferManager

variable {I : Type} {bm : BufferManager I} {g a : BlobGuid}

theorem view_eq_none_iff : bm.view g = none ↔ g ∉ bm.cache ∧ g ∉ bm.store := by
  rw [← AList.lookup_eq_none, ← AList.lookup_eq_none, view]
  cases bm.cache.lookup g with
  | some b => simp
  | none => simp

@[simp] theorem putImage_store (bm : BufferManager I) (a : BlobGuid) (image : I) :
    (bm.putImage a image).store = bm.store := by
  unfold putImage
  split <;> rfl

@[simp] theorem releaseExclusive_store (bm : BufferManager I) (a : BlobGuid) :
    (bm.releaseExclusive a).store = bm.store := by
  unfold releaseExclusive
  split <;> rfl

/-- Bytes change only behind a pin. -/
theorem putImage_absent (image : I) (h : bm.view g = none) :
    (bm.putImage a image).view g = none := by
  cases ha : bm.view a with
  | none => rwa [putImage, ha]
  | some c =>
    have hne : g ≠ a := fun heq => Option.some_ne_none c (ha.symm.trans (heq ▸ h))
    rwa [view_putImage ha, if_neg hne]

theorem releaseExclusive_absent (h : bm.view g = none) :
    (bm.releaseExclusive a).view g = none := by
  cases ha : bm.view a with
  | none => rwa [releaseExclusive, ha]
  | some c =>
    have hne : g ≠ a := fun heq => Option.some_ne_none c (ha.symm.trans (heq ▸ h))
    rwa [view_releaseExclusive ha, if_neg hne]

theorem mem_store_writeBlob (image : I) :
    g ∈ (bm.writeBlob a image).store ↔ g = a ∨ g ∈ bm.store := by
  have hstore : (bm.writeBlob a image).store = bm.store.insert a image := by
    unfold writeBlob
    dsimp only
    split
    · rw [releaseExclusive_store, putImage_store]
    · rfl
  rw [hstore, AList.mem_insert]

theorem writeBlob_absent (hne : g ≠ a) (image : I) (h : bm.view g = none) :
    (bm.writeBlob a image).view g = none := by
  have hstep : (if a ∈ bm.cache then (bm.putImage a image).releaseExclusive a else bm).view g =
      none := by
    split
    · exact releaseExclusive_absent (putImage_absent image h)
    · exact h
  obtain ⟨hcache, -⟩ := view_eq_none_iff.mp hstep
  refine view_eq_none_iff.mpr ⟨hcache, fun hm => ?_⟩
  rcases (mem_store_writeBlob image).mp hm with heq | hm
  · exact hne heq
  · exact (view_eq_none_iff.mp h).2 hm

theorem markForDelete_absent (seq : Nat) (h : bm.view g = none) :
    (bm.markForDelete a seq).view g = none := by
  obtain ⟨hc, hs⟩ := view_eq_none_iff.mp h
  exact view_eq_none_iff.mpr ⟨fun hm => hc (AList.mem_erase.mp hm).2, hs⟩

end BufferManager

/-- A root that was in the store, or nowhere, is in the store once it is ensured. -/
theorem mem_store_ensureRootBlob {bm bm' : BufferManager Frame} {root : BlobGuid}
    (h : ensureRootBlob bm root = .ok bm') (hroot : root ∈ bm.store ∨ bm.view root = none) :
    root ∈ bm'.store := by
  unfold ensureRootBlob at h
  split at h
  · rename_i hblob
    cases h
    rcases hroot with hroot | hnone
    · exact hroot
    · obtain ⟨hc, hs⟩ := BufferManager.view_eq_none_iff.mp hnone
      simp [BufferManager.hasBlob, hc, hs] at hblob
  · cases hinit : Frame.init root with
    | error err =>
      rw [hinit] at h
      cases h
    | ok frame =>
      rw [hinit] at h
      cases h
      exact (BufferManager.mem_store_writeBlob frame).mpr (.inl rfl)

/-- Neither did the store lose or get `g`, nor did `g` come into memory from nowhere. -/
structure Engine.Steady (g : BlobGuid) (e e' : Engine) : Prop where
  store : g ∈ e'.bm.store ↔ g ∈ e.bm.store
  absent : e.bm.view g = none → e'.bm.view g = none

namespace Engine.Steady

variable {g : BlobGuid} {e e₁ e₂ : Engine}

theorem refl (e : Engine) : e.Steady g e := ⟨Iff.rfl, id⟩

theorem trans (h : e.Steady g e₁) (h' : e₁.Steady g e₂) : e.Steady g e₂ :=
  ⟨h'.store.trans h.store, fun hn => h'.absent (h.absent hn)⟩

theorem same (hs : e₁.bm.store = e.bm.store) (hv : ∀ a, e₁.bm.view a = e.bm.view a) :
    e.Steady g e₁ :=
  ⟨by rw [hs], fun hn => (hv g).trans hn⟩

/-- A name that is never drawn stays as it is. -/
theorem walking {root : BlobGuid} {supply : GuidSupply root} (hg : ∀ i, supply.guid i ≠ g) :
    Walking supply (Steady g) where
  refl := .refl
  trans h h' := h.trans h'
  looks _ hs _ hv _ _ := .same hs hv
  put e F _ := ⟨by rw [putFrame, BufferManager.putImage_store],
    fun hn => BufferManager.putImage_absent F hn⟩
  draw e := .same rfl fun _ => rfl
  install e child seq := by
    refine ⟨Iff.rfl, fun hn => ?_⟩
    rwa [BufferManager.view_installNewBlob, if_neg (hg e.drawn).symm]
  release e a := ⟨by rw [BufferManager.releaseExclusive_store],
    fun hn => BufferManager.releaseExclusive_absent hn⟩
  books hs := .same hs.store fun a => BufferManager.view_congr hs.cache hs.store a

/-- Another root is written if it is not there. -/
theorem ensureRootBlob {bm : BufferManager Frame} {root : BlobGuid} (hne : g ≠ root)
    (h : Holt.ensureRootBlob e.bm root = .ok bm) : e.Steady g { e with bm } := by
  unfold Holt.ensureRootBlob at h
  split at h
  · cases h
    exact .refl e
  · cases hinit : Frame.init root with
    | error err =>
      rw [hinit] at h
      cases h
    | ok frame =>
      rw [hinit] at h
      cases h
      refine ⟨?_, fun hn => BufferManager.writeBlob_absent hne frame hn⟩
      rw [BufferManager.mem_store_writeBlob, or_iff_right hne]

theorem pin {bm : BufferManager Frame} {a : BlobGuid} (h : e.bm.pin a = .ok bm) :
    e.Steady g { e with bm } :=
  .same (BufferManager.store_of_pin h) (BufferManager.view_pin h)

/-- A blob that is queued for deletion is still in the store. -/
theorem markForDelete (a : BlobGuid) (seq : Nat) :
    e.Steady g { e with bm := e.bm.markForDelete a seq } :=
  ⟨Iff.rfl, fun hn => BufferManager.markForDelete_absent seq hn⟩

theorem markAll (guids : List BlobGuid) (seq : Nat) :
    e.Steady g { e with bm := guids.foldl (fun bm a => bm.markForDelete a seq) e.bm } := by
  induction guids generalizing e with
  | nil => exact .refl e
  | cons a guids ih => exact (markForDelete a seq).trans ih

end Engine.Steady

end Holt
