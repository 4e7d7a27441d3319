import Holt.Store.Mirror

/-! Eviction beside calls that take a blob exclusively and change nothing, and beside the return of
entries that a checkpoint found stale. Such a call makes the flush of the blob stale; from then on
until the entry is given back nothing in the books says that the store lacks the blob. -/

namespace Holt.Mirror

open Holt.Lib

variable {I : Type}

/-- The entries that were found stale and are to be given back. -/
structure Hall (I : Type) where
  world : World I
  deferred : List (BlobGuid × Nat)

inductive Deed (I : Type)
  | base (a : Action I)
  /-- The exclusive latch is taken by whoever has the pin, and nothing changes. -/
  | touch (t : Nat)
  | restore (i : Nat)

def World.staleEntry (s : World I) : Action I → List (BlobGuid × Nat)
  | .retire b g =>
    match s.flushes.lookup (b, g) with
    | some ⟨seq, _, .stale⟩ => [(g, seq)]
    | _ => []
  | _ => []

def Hall.step (h : Hall I) : Deed I → Option (Hall I)
  | .base a => (h.world.step a).map fun s => ⟨s, h.deferred ++ h.world.staleEntry a⟩
  | .touch t =>
    match h.world.pins.lookup t with
    | none => none
    | some x =>
      if x.holds then
        some { h with world := { h.world with bm := h.world.bm.exclusively x.guid id } }
      else none
  | .restore i =>
    match h.deferred[i]? with
    | none => none
    | some (g, seq) => some
        { world := h.world.restore g seq, deferred := h.deferred.eraseIdx i }

/-- No flush of the blob is under way. -/
def World.Unflushed (s : World I) (g : BlobGuid) : Prop := ∀ k ∈ s.flushes.keys, k.2 ≠ g

instance (s : World I) (g : BlobGuid) : Decidable (s.Unflushed g) :=
  inferInstanceAs (Decidable (∀ k ∈ s.flushes.keys, k.2 ≠ g))

def Progress.unchecked : Progress I → Bool
  | .drained | .cloned _ => true
  | _ => false

/-- The flush is on its way to the check of its version. -/
def Flush.Watched (f : Flush I) : Prop := f.version ≠ none ∧ f.progress.unchecked

instance (f : Flush I) : Decidable f.Watched := inferInstanceAs (Decidable (_ ∧ _))

/-- A blob that is flushed with a version is not taken exclusively without a change, unless it is
dirty again, and an entry comes back while its blob is still in memory and nobody else flushes
it. -/
def Gentle (h : Hall I) : Deed I → Prop
  | .base a => Orderly h.world a
  | .touch t => ∀ x ∈ h.world.pins.lookup t, x.guid ∈ h.world.bm.dirty ∨
      ∀ e ∈ h.world.flushes.entries, e.1.2 = x.guid → ¬e.2.Watched
  | .restore i => ∀ e ∈ h.deferred[i]?, e.1 ∈ h.world.bm.cache ∧ h.world.Unflushed e.1

instance [DecidableEq I] (h : Hall I) : (d : Deed I) → Decidable (Gentle h d)
  | .base a => inferInstanceAs (Decidable (Orderly h.world a))
  | .touch t => inferInstanceAs (Decidable (∀ x ∈ h.world.pins.lookup t, _))
  | .restore i => inferInstanceAs (Decidable (∀ e ∈ h.deferred[i]?, _))

/-- Whatever an eviction takes out of memory nobody has, and the store has it as it is. Both ways to
choose a victim, by its guid and by a scan, end in the same check under the lock. -/
def EvictsReproducible (s : World I) : Prop :=
  ∀ g c s', s.step (.evict g) = some s' → s.bm.cache.lookup g = some c →
    s'.bm.cache.lookup g = none →
    s.pinned g = false ∧ g ∉ s.bm.dirty ∧ g ∉ s.bm.flushing ∧ g ∉ s.bm.pendingDeletes ∧
      s.bm.store.lookup g = some c.image

variable {s : World I} {g : BlobGuid}

theorem World.Unflushed.lookup (hg : s.Unflushed g) (b : Nat) (f : Flush I) :
    s.flushes.lookup (b, g) ≠ some f := by
  intro hf
  have hmem : (b, g) ∈ s.flushes.keys :=
    AList.mem_keys.mp (AList.lookup_isSome.mp (by rw [hf]; rfl))
  exact hg _ hmem rfl

theorem World.Unflushed.count (hg : s.Unflushed g) : s.flushCount g = 0 :=
  List.countP_eq_zero.mpr fun k hk => by simpa using hg k hk

/-- Taking the blob exclusively makes only those flushes stale that check its version. -/
theorem Flush.Carries.touch {f : Flush I} {c : CachedBlob I} (h : f.Carries c)
    (hf : ¬f.Watched) : f.Carries { c with version := c.version + 1 } := by
  obtain ⟨seq, version, progress⟩ := f
  have hnone (hwaits : ¬version ≠ none) :
      Flush.Fresh ⟨seq, version, progress⟩ { c with version := c.version + 1 } := by
    obtain rfl := not_not.mp hwaits
    exact fun v hv => by cases hv
  cases progress with
  | drained => exact hnone fun hv => hf ⟨hv, rfl⟩
  | cloned image => exact ⟨h.1, hnone fun hv => hf ⟨hv, rfl⟩⟩
  | current image => exact h
  | stale => exact h
  | written => exact h

theorem Inv.touch (h : Inv s) (hcached : g ∈ s.bm.cache) (hg : g ∈ s.bm.dirty ∨
    ∀ e ∈ s.flushes.entries, e.1.2 = g → ¬e.2.Watched) :
    Inv { s with bm := s.bm.exclusively g id } := by
  obtain ⟨c₀, hc₀⟩ := exists_lookup hcached
  rw [BufferManager.exclusively_eq _ _ _ (BufferManager.view_of_cache hc₀)]
  refine ⟨h.toBooks.insertCache g _, fun a c hc => ?_⟩
  rcases lookup_insert_some hc with ⟨rfl, rfl⟩ | ⟨-, hc⟩
  · cases h.covered a c₀ hc₀ with
    | unmarked ht => exact .unmarked ht
    | dirty hd => exact .dirty hd
    | flush hf hcarries =>
      rcases hg with hd | hnone
      · exact .dirty hd
      · exact .flush hf (hcarries.touch (hnone _ (AList.mem_lookup_iff.mp hf) rfl))
    | stored hs => exact .stored hs
  · exact (h.covered a c hc).of_flushes id id rfl fun _ => rfl

theorem Inv.restore (h : Inv s) (hg : s.Unflushed g) (hcached : g ∈ s.bm.cache) (seq : Nat) :
    Inv (s.restore g seq) := by
  have hnone {b : Nat} {f : Flush I} (hf : s.flushes.lookup (b, g) = some f) :
      f.seq = seq → seq = structuralSeq := absurd hf (hg.lookup b f)
  have hsame := BufferManager.removeOneFlushing_same s.bm g
  have hdirty := BufferManager.removeOneFlushing_dirty s.bm g
  have hremoved : Inv { s with bm := s.bm.removeOneFlushing g } := {
    pendingDeletes := hsame.pendingDeletes.trans h.pendingDeletes
    dirty := by rw [hdirty, hsame.cache]; exact h.dirty
    held := by rw [hsame.cache]; exact h.held
    flushes := by rw [hsame.cache]; exact h.flushes
    count := by
      intro a
      rw [BufferManager.flushes_removeOneFlushing, h.count]
      by_cases ha : a = g
      · subst ha
        exact (congrArg (· - _) hg.count).trans ((Nat.zero_sub _).trans hg.count.symm)
      · rw [if_neg ha]
        rfl
    marks := by rw [hdirty]; exact h.marks
    seqs := h.seqs
    hinted := h.hinted
    covered := by
      intro a c hc
      refine (h.covered a c (hsame.cache ▸ hc)).of_flushes id ?_ ?_ fun _ => rfl
      · rw [hdirty]
        exact id
      · rw [hsame.store] }
  refine Inv.restored h.pendingDeletes ?_ fun b f hf => hnone hf
  rw [BufferManager.restoreDirtyEntry, not_isPendingDelete hremoved.pendingDeletes]
  exact hremoved.mark (hsame.cache ▸ hcached) fun b f hf => hnone hf

theorem Hall.step_inv {h h' : Hall I} {d : Deed I} (hi : Inv h.world) (hmay : Gentle h d)
    (hstep : h.step d = some h') : Inv h'.world := by
  cases d with
  | base a =>
    obtain ⟨s, hs, rfl⟩ := Option.map_eq_some_iff.mp hstep
    exact hi.step hmay hs
  | touch t =>
    simp only [Hall.step] at hstep
    split at hstep
    · cases hstep
    · rename_i x hx
      split at hstep
      · cases hstep
        exact hi.touch (hi.held t x hx ‹_›) (hmay x hx)
      · cases hstep
  | restore i =>
    simp only [Hall.step] at hstep
    split at hstep
    · cases hstep
    · rename_i g seq hentry
      cases hstep
      exact hi.restore (hmay _ hentry).2 (hmay _ hentry).1 seq

theorem World.evicted_bm (s : World I) (g : BlobGuid) :
    (s.evicted g).bm = s.bm.tryEvictCold g (s.pinned g) := by
  unfold evicted
  dsimp only
  split <;> rfl

theorem Inv.evictsReproducible (h : Inv s) : EvictsReproducible s := by
  intro g c s' hstep hc hgone
  cases hstep
  rw [World.evicted_bm] at hgone
  unfold BufferManager.tryEvictCold at hgone
  split at hgone
  · rw [hc] at hgone
    cases hgone
  · rename_i hfree
    simp only [BufferManager.isProtectedOrPending, not_or, Bool.not_eq_true] at hfree
    obtain ⟨⟨hdirty, hflushing, hpending⟩, hpinned⟩ := hfree
    refine ⟨hpinned, hdirty, hflushing, hpending, h.mirrors g c hc hdirty hflushing fun t ht => ?_⟩
    -- Whoever has yet to mark the blob has it pinned.
    have hpin : s.pinned g = true :=
      List.any_eq_true.mpr ⟨⟨t, ⟨g, .unmarked⟩⟩, AList.mem_lookup_iff.mp ht, by simp [Pin.holds]⟩
    rw [hpinned] at hpin
    cases hpin

/-- In every run that keeps to the conditions. -/
theorem evictions_reproducible {store : AList fun _ : BlobGuid => I} {h : Hall I}
    (hrun : Run Hall.step Gentle ⟨World.opened store, []⟩ h) : EvictsReproducible h.world :=
  Inv.evictsReproducible (hrun.invariant (I := fun h => Inv h.world) (inv_opened store)
    fun hi may took => Hall.step_inv hi may took)

/-- The blob is changed again while it is flushed, so its entry is stale and comes back, and goes to
the store with the next flush. -/
def staleAndBack : List (Deed Nat) :=
  (changeAndFlush.take 9).map .base ++ [.base (.pin 5 0), .base (.mutate 5 (· + 1)),
    .base (.hint 5 6), .base (.mark 5), .touch 5, .base (.unpin 5), .base (.check 0 0),
    .base (.retire 0 0), .restore 0] ++ flushInline.map .base

theorem evictions_reproducible_flushed :
    ∃ h, Run Hall.step Gentle ⟨World.opened oneBlob, []⟩ h ∧ 0 ∈ h.world.bm.cache ∧
      0 ∉ (h.world.evicted 0).bm.cache ∧ EvictsReproducible h.world := by
  have hplay : (play Hall.step Gentle staleAndBack ⟨World.opened oneBlob, []⟩).any fun h =>
      0 ∈ h.world.bm.cache ∧ 0 ∉ (h.world.evicted 0).bm.cache := by
    decide +kernel
  obtain ⟨h, hrun, hcached, hgone⟩ := exists_run_of_play hplay
  exact ⟨h, hrun, hcached, hgone, evictions_reproducible hrun⟩

/-- The blob is changed and marked, a checkpoint clones it, someone takes it exclusively, and the
checkpoint finds it stale. Before it is given back it can be evicted, with the change. -/
theorem stale_entry_evicted :
    ∃ h, Run Hall.step (fun _ _ => True) ⟨World.opened oneBlob, []⟩ h ∧
      ¬ EvictsReproducible h.world := by
  have hplay : (play Hall.step (fun _ _ => True)
      ((changeAndFlush.take 9).map .base ++ [.base (.pin 3 0), .touch 3, .base (.unpin 3),
        .base (.check 0 0), .base (.retire 0 0)]) ⟨World.opened oneBlob, []⟩).any fun h =>
      (h.world.bm.cache.lookup 0).map (·.image) = some 11 ∧ h.world.bm.store.lookup 0 = some 10 ∧
        (h.world.evicted 0).bm.cache.lookup 0 = none := by
    decide +kernel
  obtain ⟨h, hrun, hcache, hstore, hgone⟩ := exists_run_of_play hplay
  obtain ⟨c, hc, himage⟩ := Option.map_eq_some_iff.mp hcache
  refine ⟨h, hrun, fun hgood => ?_⟩
  obtain ⟨-, -, -, -, hsame⟩ := hgood 0 c _ rfl hc hgone
  rw [hstore, himage] at hsame
  cases hsame

end Holt.Mirror
