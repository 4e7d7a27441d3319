import Holt.Walker.Section

/-! What a latch protects: the sections of the walkers change one blob and bring new ones, and
leave every other blob in memory as it was. -/

namespace Holt

open Holt.Lib

/-- From `e` to `e'` only the blobs of `s` changed. New blobs got names not drawn before, and
no latch was released. -/
structure Engine.Spares {root : BlobGuid} (supply : GuidSupply root) (s : Set BlobGuid)
    (e e' : Engine) : Prop where
  drawn_le : e.drawn ≤ e'.drawn
  blob : ∀ {a b}, (∀ i, e.drawn ≤ i → a ≠ supply.guid i) → e.bm.view a = some b →
    ∃ b', e'.bm.view a = some b' ∧ b'.version = b.version ∧ (a ∉ s → b' = b)

section Spares

variable {root : BlobGuid} {supply : GuidSupply root} {s : Set BlobGuid} {e e₁ e₂ : Engine}
  {g : BlobGuid}

theorem Engine.Spares.same (hd : e₁.drawn = e.drawn) (hv : ∀ a, e₁.bm.view a = e.bm.view a) :
    e.Spares supply s e₁ := by
  constructor
  · exact hd.ge
  · intro a b _ hb
    exact ⟨b, (hv a).trans hb, rfl, fun _ => rfl⟩

theorem Engine.Spares.refl (e : Engine) : e.Spares supply s e := .same rfl fun _ => rfl

theorem Engine.Spares.trans (h : e.Spares supply s e₁) (h' : e₁.Spares supply s e₂) :
    e.Spares supply s e₂ := by
  constructor
  · exact h.drawn_le.trans h'.drawn_le
  · intro a b ha hb
    obtain ⟨b₁, hb₁, hv₁, hs₁⟩ := h.blob ha hb
    obtain ⟨b₂, hb₂, hv₂, hs₂⟩ := h'.blob (fun i hi => ha i (h.drawn_le.trans hi)) hb₁
    exact ⟨b₂, hb₂, hv₂.trans hv₁, fun hn => (hs₂ hn).trans (hs₁ hn)⟩

/-- A blob that comes into memory under a new name. -/
theorem Engine.Spares.insert {new : CachedBlob Frame} {bm : BufferManager Frame} {n i : Nat}
    (hd : e.drawn ≤ n) (hi : e.drawn ≤ i)
    (hv : ∀ a, bm.view a = if a = supply.guid i then some new else e.bm.view a) :
    e.Spares supply s { e with bm, drawn := n } := by
  constructor
  · exact hd
  · intro a b ha hb
    refine ⟨b, ?_, rfl, fun _ => rfl⟩
    rw [hv, if_neg (ha i hi), hb]

theorem Engine.Spares.putFrame (hg : g ∈ s) (F : Frame) : e.Spares supply s (e.putFrame g F) := by
  constructor
  · exact le_rfl
  · intro a b _ hb
    cases hv : e.bm.view g with
    | none =>
      refine ⟨b, ?_, rfl, fun _ => rfl⟩
      rw [Engine.putFrame, BufferManager.putImage, hv]
      exact hb
    | some c =>
      rw [Engine.putFrame, BufferManager.view_putImage hv]
      by_cases ha : a = g
      · subst ha
        cases hv.symm.trans hb
        exact ⟨_, if_pos rfl, rfl, fun hn => absurd hg hn⟩
      · exact ⟨b, (if_neg ha).trans hb, rfl, fun _ => rfl⟩

/-- The new blob of a spillover gets the next name; nothing in memory has it. -/
theorem Engine.Spares.sectional : Sectional supply s (Engine.Spares supply s) where
  refl := .refl
  trans h h' := h.trans h'
  looks hd _ _ hv _ _ := .same hd hv
  put _ F hg := .putFrame hg F
  draw _ := ⟨Nat.le_succ _, fun _ hb => ⟨_, hb, rfl, fun _ => rfl⟩⟩
  install _ _ _ := .insert (Nat.le_succ _) le_rfl (BufferManager.view_installNewBlob _ _ _ _)

/-- The programs that change at most the blobs of `s`. -/
abbrev Within (supply : GuidSupply root) (s : Set BlobGuid) {α : Type} (x : WalkM α) : Prop :=
  Moves (Engine.Spares supply s) x

/-- From `e` to `e'` the latch of `g` was taken and released: the version of `g` went up, and the
blobs that were there otherwise stayed as they were. -/
structure Engine.Latched {root : BlobGuid} (supply : GuidSupply root) (g : BlobGuid)
    (e e' : Engine) : Prop where
  other : ∀ {a b}, a ≠ g → (∀ i, e.drawn ≤ i → a ≠ supply.guid i) →
    e.bm.view a = some b → e'.bm.view a = some b
  self : ∀ {b}, (∀ i, e.drawn ≤ i → g ≠ supply.guid i) → e.bm.view g = some b →
    ∃ b', e'.bm.view g = some b' ∧ b.version < b'.version

theorem Engine.Spares.release (h : e.Spares supply {g} e₁) :
    e.Latched supply g { e₁ with bm := e₁.bm.releaseExclusive g } := by
  constructor
  · intro a b hne ha hb
    obtain ⟨b', hb', -, hs⟩ := h.blob ha hb
    rw [hs hne] at hb'
    cases hv : e₁.bm.view g with
    | none =>
      rw [BufferManager.releaseExclusive, hv]
      exact hb'
    | some c => rw [BufferManager.view_releaseExclusive hv, if_neg hne, hb']
  · intro b hg hb
    obtain ⟨b', hb', hv, -⟩ := h.blob hg hb
    refine ⟨_, (BufferManager.view_releaseExclusive hb' g).trans (if_pos rfl), ?_⟩
    simp [hv]

theorem exclusive_latched {α : Type} {x : WalkM α} (hx : Within supply {g} x) (e : Engine) :
    Sat (exclusive g x) e (fun _ e' => e.Latched supply g e') (fun _ e' => e.Latched supply g e') :=
  exclusive_sat ((hx e).mono (fun _ _ h => h.release) fun _ _ h => h.release)

end Spares

end Holt
