import Holt.Checkpoint.Ledger

/-! Dirty blobs have their image in memory, and so has every blob that a snapshot holds. -/

namespace Holt.Checkpoint

open Holt.Lib

variable {I : Type}

/-- Nothing is given back that was given back before, and no child is folded into its parent while
a snapshot still has it. -/
def Orderly (m : Memory I) : Call I → Prop
  | .retire id g _ => (id, g) ∈ m.outstanding
  | .restoreDirty ids g _ => ∃ id ∈ ids, (id, g) ∈ m.outstanding
  | .merge _ c _ => ∀ o ∈ m.outstanding, o.2 ≠ c
  | _ => True

instance (m : Memory I) : (c : Call I) → Decidable (Orderly m c)
  | .retire _ _ _ => inferInstanceAs (Decidable (_ ∈ _))
  | .restoreDirty ids g _ => inferInstanceAs (Decidable (∃ id ∈ ids, (id, g) ∈ m.outstanding))
  | .merge _ c _ => inferInstanceAs (Decidable (∀ o ∈ m.outstanding, o.2 ≠ c))
  | .nothing | .load _ | .evict _ _ | .look _ | .edit _ _ | .spill _ _ _ _ _ | .markDirty _ _
  | .submit _ | .snapshotDirty _ | .snapshotPending | .restorePending _ _ | .write _
  | .writeFails _ | .flush | .delete _ | .truncate => inferInstanceAs (Decidable True)

/-- The call takes the image of the blob out of memory. -/
def Call.Drops (m : Memory I) (g : BlobGuid) : Call I → Prop
  | .evict a pinned => a = g ∧ ¬(m.bm.isProtectedOrPending g ∨ pinned)
  | .merge _ a _ => a = g
  | _ => False

def Call.Marks (g : BlobGuid) : Call I → Prop
  | .markDirty a _ => a = g
  | _ => False

theorem Call.Background.not_drops {c : Call I} (h : c.Background) (m : Memory I) (g : BlobGuid) :
    ¬ c.Drops m g := by
  cases c <;> first | exact h.elim | exact id

theorem Call.Background.not_marks {c : Call I} (h : c.Background) (g : BlobGuid) :
    ¬ c.Marks g := by
  cases c <;> first | exact h.elim | exact id

namespace Memory

structure Imaged (m : Memory I) : Prop where
  dirty : ∀ g ∈ m.bm.dirty, g ∈ m.bm.cache
  owned : ∀ o ∈ m.outstanding, o.2 ∈ m.bm.cache
  counted : ∀ g, m.owners g ≤ m.bm.flushes g

variable {g : BlobGuid} {ids : List Nat} {o : List (Nat × BlobGuid)}

theorem mem_release {x : Nat × BlobGuid} (h : x ∈ release o ids g) : x ∈ o := by
  induction ids generalizing o with
  | nil => exact h
  | cons id ids ih => exact List.mem_of_mem_erase (ih h)

theorem countP_release_le {a : BlobGuid} (h : ∃ id ∈ ids, (id, g) ∈ o) :
    (release o ids g).countP (fun x => x.2 = a) ≤
      o.countP (fun x => x.2 = a) - if a = g then 1 else 0 := by
  have hmono : ∀ (ids : List Nat) (o : List (Nat × BlobGuid)),
      (release o ids g).countP (fun x => x.2 = a) ≤ o.countP (fun x => x.2 = a) := by
    intro ids
    induction ids with
    | nil => intro o; exact Nat.le_refl _
    | cons id ids ih => intro o; exact Nat.le_trans (ih _) List.erase_sublist.countP_le
  induction ids generalizing o with
  | nil =>
    obtain ⟨id, hid, -⟩ := h
    cases hid
  | cons id ids ih =>
    rw [release, List.foldl_cons, ← release]
    by_cases hid : (id, g) ∈ o
    · refine Nat.le_trans (hmono ids _) ?_
      rw [(List.perm_cons_erase hid).countP_eq fun x => decide (x.2 = a), List.countP_cons]
      by_cases ha : a = g
      · simp [ha]
      · simp [ha, Ne.symm ha]
    · rw [List.erase_of_not_mem hid]
      apply ih
      obtain ⟨id', hid', hmem⟩ := h
      rcases List.mem_cons.mp hid' with rfl | hid'
      · exact absurd hmem hid
      · exact ⟨id', hid', hmem⟩

theorem Imaged.congr {m m' : Memory I} (h : m.Imaged) (hdirty : m'.bm.dirty = m.bm.dirty)
    (hflush : m'.bm.flushing = m.bm.flushing) (hout : m'.outstanding = m.outstanding)
    (hcache : ∀ g ∈ m.bm.cache, g ∈ m'.bm.cache) : m'.Imaged where
  dirty g hg := hcache g (h.dirty g (hdirty ▸ hg))
  owned o ho := hcache _ (h.owned o (hout ▸ ho))
  counted g := by
    have := h.counted g
    unfold owners BufferManager.flushes at *
    rwa [hout, hflush]

/-- Giving back leaves the others their count. -/
theorem Imaged.release {m m' : Memory I} (h : m.Imaged)
    (hids : ∃ id ∈ ids, (id, g) ∈ m.outstanding)
    (hflush : ∀ a, m'.bm.flushes a = m.bm.flushes a - if a = g then 1 else 0)
    (hout : m'.outstanding = Memory.release m.outstanding ids g)
    (hdirty : ∀ a ∈ m'.bm.dirty, a = g ∨ a ∈ m.bm.dirty) (hcache : m'.bm.cache = m.bm.cache) :
    m'.Imaged where
  dirty a ha := by
    rw [hcache]
    rcases hdirty a ha with rfl | ha
    · obtain ⟨id, -, hmem⟩ := hids
      exact h.owned _ hmem
    · exact h.dirty a ha
  owned o ho := by
    rw [hcache]
    exact h.owned o (mem_release (hout ▸ ho))
  counted a := by
    have hle := countP_release_le (a := a) hids
    have hcount := h.counted a
    unfold owners at *
    rw [hflush, hout]
    omega

theorem mem_cache_perform {m : Memory I} {c : Call I} (h : g ∈ m.bm.cache)
    (hdrop : ¬ c.Drops m g) : g ∈ (m.perform c).bm.cache := by
  cases c with
  | load a =>
    simp only [Memory.perform]
    split
    · rename_i bm hpin
      unfold BufferManager.pin at hpin
      split at hpin
      · cases hpin
      split at hpin
      · cases hpin
        exact h
      split at hpin
      · cases hpin
      · cases hpin
        exact (AList.mem_insert _).mpr (.inr h)
    · exact h
  | evict a pinned =>
    simp only [Memory.perform, BufferManager.tryEvictCold]
    split
    · exact h
    · rename_i hfree
      refine AList.mem_erase.mpr ⟨?_, h⟩
      rintro rfl
      exact hdrop ⟨rfl, hfree⟩
  | look a => exact BufferManager.exclusively_cache _ _ _ h
  | edit a f => exact BufferManager.exclusively_cache _ _ _ h
  | spill a n f k seq =>
    simp only [Memory.perform]
    split
    · exact h
    · exact BufferManager.exclusively_cache _ _ _ ((AList.mem_insert _).mpr (.inr h))
  | merge p a f =>
    simp only [Memory.perform]
    split
    · exact h
    · refine AList.mem_erase.mpr ⟨?_, BufferManager.exclusively_cache _ _ _ h⟩
      rintro rfl
      exact hdrop rfl
  | markDirty a seq =>
    simp only [Memory.perform, BufferManager.markDirtyCached]
    split <;> exact h
  | snapshotDirty id =>
    change g ∈ m.bm.snapshotDirty.2.cache
    rw [(BufferManager.snapshotDirty_same m.bm).cache]
    exact h
  | retire id a seq =>
    change g ∈ (m.bm.retireWriteThrough a seq).cache
    rw [(BufferManager.retireWriteThrough_same m.bm a seq).cache]
    exact h
  | restoreDirty ids a seq =>
    change g ∈ (m.bm.restoreDirtyEntry a seq).cache
    rw [(BufferManager.restoreDirtyEntry_same m.bm a seq).cache]
    exact h
  | _ => exact h

section

variable {m : Memory I}

theorem Imaged.load (h : m.Imaged) (g : BlobGuid) :
    (m.perform (.load g)).Imaged := by
  simp only [Memory.perform]
  split
  · rename_i bm hpin
    refine h.congr (BufferManager.pin_dirty hpin) (BufferManager.pin_flushing hpin) rfl ?_
    intro a ha
    have := mem_cache_perform (c := .load g) ha id
    simpa only [Memory.perform, hpin] using this
  · exact h

theorem Imaged.evict (h : m.Imaged) (g : BlobGuid) (pinned : Bool) :
    (m.perform (.evict g pinned)).Imaged := by
  -- A dirty blob is protected, and so is one with an owner, by its count.
  have hcache : ∀ a, a ∈ m.bm.cache → a ∈ m.bm.dirty ∨ 0 < m.bm.flushes a →
      a ∈ (m.perform (.evict g pinned)).bm.cache := by
    intro a ha hprot
    refine mem_cache_perform ha fun hdrop => hdrop.2 (.inl ?_)
    rcases hprot with hd | hf
    · exact .inl hd
    · exact .inr (.inl (BufferManager.flushes_pos_mem hf))
  have hdirty : (m.perform (.evict g pinned)).bm.dirty = m.bm.dirty := by
    simp only [Memory.perform, BufferManager.tryEvictCold]
    split <;> rfl
  constructor
  · intro a ha
    rw [hdirty] at ha
    exact hcache a (h.dirty a ha) (.inl ha)
  · intro o ho
    refine hcache _ (h.owned o ho) (.inr (Nat.lt_of_lt_of_le ?_ (h.counted o.2)))
    exact List.countP_pos_iff.mpr ⟨o, ho, by simp⟩
  · intro a
    have := h.counted a
    unfold BufferManager.flushes at *
    simpa [Memory.perform, owners] using this

theorem Imaged.spill (h : m.Imaged) (g n : BlobGuid) (f k : I → I) (seq : Nat) :
    (m.perform (.spill g n f k seq)).Imaged := by
  have hkeep := fun a ha => mem_cache_perform (m := m) (c := .spill g n f k seq) (g := a) ha id
  simp only [Memory.perform] at hkeep ⊢
  split
  · exact h
  · rename_i b hb
    simp only [hb] at hkeep
    constructor
    · intro a ha
      simp only [BufferManager.exclusively_dirty, BufferManager.installNewBlob] at ha
      rcases BufferManager.mem_minMerge.mp ha with rfl | ha
      · exact BufferManager.exclusively_cache _ _ _ ((AList.mem_insert _).mpr (.inl rfl))
      · exact hkeep a (h.dirty a ha)
    · exact fun o ho => hkeep _ (h.owned o ho)
    · intro a
      have := h.counted a
      unfold BufferManager.flushes at *
      simpa [BufferManager.installNewBlob, owners] using this

theorem Imaged.merge (h : m.Imaged) {p c : BlobGuid} {f : I → I → I}
    (hc : ∀ o ∈ m.outstanding, o.2 ≠ c) :
    (m.perform (.merge p c f)).Imaged := by
  have hkeep : ∀ a, a ∈ m.bm.cache → a ≠ c → a ∈ (m.perform (.merge p c f)).bm.cache :=
    fun a ha hne => mem_cache_perform ha hne.symm
  simp only [Memory.perform] at hkeep ⊢
  split
  · exact h
  · rename_i b hb
    simp only [hb] at hkeep
    constructor
    · intro a ha
      simp only [BufferManager.markForDelete, BufferManager.exclusively_dirty] at ha
      obtain ⟨hne, ha⟩ := AList.mem_erase.mp ha
      exact hkeep a (h.dirty a ha) hne
    · exact fun o ho => hkeep _ (h.owned o ho) (hc o ho)
    · intro a
      have hcount := h.counted a
      unfold BufferManager.flushes BufferManager.markForDelete owners at *
      rw [BufferManager.exclusively_flushing]
      by_cases ha : a = c
      · subst ha
        have hnone : m.outstanding.countP (fun o => decide (o.2 = a)) = 0 :=
          List.countP_eq_zero.mpr fun o ho => by simpa using hc o ho
        rw [hnone]
        exact Nat.zero_le _
      · rwa [AList.lookup_erase_ne ha]

theorem Imaged.markDirty (h : m.Imaged) (seq : Nat) (hmark : g ∈ m.bm.cache) :
    (m.perform (.markDirty g seq)).Imaged := by
  constructor
  · intro a ha
    have hmem : a = g ∨ a ∈ m.bm.dirty := by
      simp only [Memory.perform, BufferManager.markDirtyCached] at ha
      split at ha
      · exact .inr ha
      · exact BufferManager.mem_minMerge.mp ha
    rcases hmem with rfl | hmem
    · exact mem_cache_perform hmark id
    · exact mem_cache_perform (h.dirty a hmem) id
  · exact fun o ho => mem_cache_perform (h.owned o ho) id
  · intro a
    have := h.counted a
    unfold BufferManager.flushes at *
    simpa [Memory.perform, owners] using this

theorem Imaged.snapshotDirty (h : m.Imaged) (id : Nat) :
    (m.perform (.snapshotDirty id)).Imaged := by
  have hcache : (m.perform (.snapshotDirty id)).bm.cache = m.bm.cache :=
    (BufferManager.snapshotDirty_same m.bm).cache
  constructor
  · intro a ha
    change a ∈ m.bm.snapshotDirty.2.dirty at ha
    rw [BufferManager.snapshotDirty_dirty] at ha
    cases AList.notMem_empty a ha
  · intro o ho
    rw [hcache]
    rcases List.mem_append.mp ho with ho | ho
    · exact h.owned o ho
    · obtain ⟨e, he, rfl⟩ := List.mem_map.mp ho
      have hlookup := (BufferManager.mem_snapshotDirty he).1
      exact h.dirty _ (AList.lookup_isSome.mp (by rw [hlookup]; rfl))
  · intro a
    have hflush : (m.perform (.snapshotDirty id)).bm.flushes a = _ :=
      BufferManager.flushes_snapshotDirty m.bm a
    rw [hflush]
    change List.countP _ (_ ++ _) ≤ _
    rw [List.countP_append, List.countP_map, List.count, List.countP_map]
    exact Nat.add_le_add_right (h.counted a) _

theorem Imaged.perform (h : m.Imaged) {c : Call I} (hc : Orderly m c)
    (hmark : ∀ g, c.Marks g → g ∈ m.bm.cache) : (m.perform c).Imaged := by
  cases c with
  | load g => exact h.load g
  | evict g pinned => exact h.evict g pinned
  | look g =>
    exact h.congr (by simp [Memory.perform]) (by simp [Memory.perform]) rfl
      fun _ ha => mem_cache_perform (c := .look g) ha id
  | edit g f =>
    exact h.congr (by simp [Memory.perform]) (by simp [Memory.perform]) rfl
      fun _ ha => mem_cache_perform (c := .edit g f) ha id
  | spill g n f k seq => exact h.spill g n f k seq
  | merge p c f => exact h.merge hc
  | markDirty g seq => exact h.markDirty seq (hmark g rfl)
  | snapshotDirty id => exact h.snapshotDirty id
  | retire id g seq =>
    have hids : ∃ i ∈ [id], (i, g) ∈ m.outstanding := ⟨id, by simp, hc⟩
    refine h.release hids (fun a => ?_) rfl (fun a ha => ?_) ?_
    · exact BufferManager.retireWriteThrough_flushes m.bm g seq a
    · exact .inr (BufferManager.retireWriteThrough_dirty ha)
    · exact (BufferManager.retireWriteThrough_same m.bm g seq).cache
  | restoreDirty ids g seq =>
    refine h.release hc (fun a => ?_) rfl (fun a ha => ?_) ?_
    · exact BufferManager.restoreDirtyEntry_flushes m.bm g seq a
    · exact BufferManager.restoreDirtyEntry_dirty ha
    · exact (BufferManager.restoreDirtyEntry_same m.bm g seq).cache
  | nothing => exact h
  | submit seq => exact h.congr rfl rfl rfl fun _ ha => ha
  | snapshotPending => exact h.congr rfl rfl rfl fun _ ha => ha
  | restorePending g seq => exact h.congr rfl rfl rfl fun _ ha => ha
  | write entries => exact h.congr rfl rfl rfl fun _ ha => ha
  | writeFails left => exact h.congr rfl rfl rfl fun _ ha => ha
  | flush => exact h.congr rfl rfl rfl fun _ ha => ha
  | delete guids => exact h.congr rfl rfl rfl fun _ ha => ha
  | truncate => exact h.congr rfl rfl rfl fun _ ha => ha

end

end Memory

/-! ## Pins -/

section

variable {children : I → List BlobGuid} {m : Memory I} {p p' : Parties I} {a : Action I}
  {c : Call I}

/-- Whoever changed a blob and did not mark it has it pinned, and a merge is alone. -/
structure Pins (m : Memory I) (p : Parties I) : Prop where
  cached : ∀ w op, p.ops.lookup w = some op → ∀ g ∈ op.unmarked, g ∈ m.bm.cache
  solo : ∀ w op, p.ops.lookup w = some op → op.kind = .merge →
    p.maintenance = true ∧ ∀ w' ∈ p.ops, w' = w

theorem Parties.pinned_iff {g : BlobGuid} :
    p.pinned g = true ↔ ∃ w op, p.ops.lookup w = some op ∧ g ∈ op.unmarked := by
  unfold Parties.pinned
  rw [List.any_eq_true]
  constructor
  · rintro ⟨o, ho, hg⟩
    exact ⟨o.1, o.2, AList.mem_lookup_iff.mpr ho, of_decide_eq_true hg⟩
  · rintro ⟨w, op, hop, hg⟩
    exact ⟨⟨w, op⟩, AList.mem_lookup_iff.mp hop, decide_eq_true hg⟩

theorem Pins.turn {settles : Prop} (h : Pins m p) (hturn : Turn m settles p p' c) :
    Pins (m.perform c) p' where
  cached w op hop g hg := by
    have hcached := h.cached w op (hturn.ops ▸ hop) g hg
    exact Memory.mem_cache_perform hcached (hturn.call.not_drops m g)
  solo w op hop hkind := by
    rw [hturn.ops] at hop ⊢
    rw [hturn.maintenance]
    exact h.solo w op hop hkind

theorem Pins.keeps (h : Pins m p) (hdrop : ∀ g, ¬ c.Drops m g) :
    ∀ w op, p.ops.lookup w = some op → ∀ g ∈ op.unmarked, g ∈ (m.perform c).bm.cache :=
  fun w op hop g hg => Memory.mem_cache_perform (h.cached w op hop g hg) (hdrop g)

/-- An op that keeps its kind, with pins on blobs in memory. -/
theorem Pins.setOp (h : Pins m p) {w : Nat} {op op' : Op} (here : p.ops.lookup w = some op)
    (hkind : op'.kind = op.kind) (hkeep : ∀ w op, p.ops.lookup w = some op → ∀ g ∈ op.unmarked,
      g ∈ (m.perform c).bm.cache)
    (hop : ∀ g ∈ op'.unmarked, g ∈ (m.perform c).bm.cache) :
    Pins (m.perform c) (p.setOp w op') where
  cached w' op'' hlookup g hg := by
    rcases lookup_insert_some hlookup with ⟨-, rfl⟩ | ⟨-, hlookup⟩
    · exact hop g hg
    · exact hkeep w' op'' hlookup g hg
  solo w' op'' hlookup hmerge := by
    have hback : ∃ o, p.ops.lookup w' = some o ∧ o.kind = .merge := by
      rcases lookup_insert_some hlookup with ⟨rfl, rfl⟩ | ⟨-, hlookup⟩
      · exact ⟨op, here, hkind ▸ hmerge⟩
      · exact ⟨op'', hlookup, hmerge⟩
    obtain ⟨o, ho, hok⟩ := hback
    obtain ⟨hm, hone⟩ := h.solo w' o ho hok
    refine ⟨hm, fun x hx => ?_⟩
    rcases (AList.mem_insert _).mp hx with rfl | hx
    · exact hone x (mem_of_lookup here)
    · exact hone x hx

/-- A new op, when no merge is under way. -/
theorem Pins.enter (h : Pins m p) {w seq : Nat} {kind : OpKind} (hkind : kind ≠ .merge)
    (shared : p.maintenance = false) : Pins m (p.setOp w ⟨kind, seq, [], false⟩) where
  cached w' op' hlookup g hg := by
    rcases lookup_insert_some hlookup with ⟨-, rfl⟩ | ⟨-, hlookup⟩
    · cases hg
    · exact h.cached w' op' hlookup g hg
  solo w' op' hlookup hmerge := by
    rcases lookup_insert_some hlookup with ⟨-, rfl⟩ | ⟨-, hlookup⟩
    · exact absurd hmerge hkind
    · rw [(h.solo w' op' hlookup hmerge).1] at shared
      cases shared

/-- A merge enters when it is alone. -/
theorem Pins.enterMerge (h : Pins m p) {w seq : Nat} (alone : p.ops.entries = []) :
    Pins m { p.setOp w ⟨.merge, seq, [], false⟩ with maintenance := true } where
  cached w' op' hlookup g hg := by
    rcases lookup_insert_some hlookup with ⟨-, rfl⟩ | ⟨-, hlookup⟩
    · cases hg
    · exact h.cached w' op' hlookup g hg
  solo w' op' hlookup _ := by
    have hempty : p.ops = ∅ := AList.ext alone
    refine ⟨rfl, fun x hx => ?_⟩
    rcases lookup_insert_some hlookup with ⟨rfl, -⟩ | ⟨-, hlookup⟩
    · rcases (AList.mem_insert _).mp hx with hx | hx
      · exact hx
      · rw [hempty] at hx
        cases AList.notMem_empty x hx
    · rw [hempty] at hlookup
      cases hlookup

/-- The merge is the only op, and it has no pin on the child that it folds in. -/
theorem Pins.merge (h : Pins m p) {w : Nat} {op : Op} {g d : BlobGuid} {f : I → I → I}
    {b bd : CachedBlob I} (here : p.ops.lookup w = some op) (seen : m.bm.view g = some b)
    (child : m.bm.view d = some bd) (kind : op.kind = .merge) (ne : d ≠ g)
    (unpinned : d ∉ op.unmarked) :
    Pins (m.perform (.merge g d f))
      (p.setOp w { op with unmarked := g :: op.unmarked, mutated := true }) := by
  have hother : ∀ w' op', p.ops.lookup w' = some op' → ∀ a ∈ op'.unmarked, a ≠ d := by
    intro w' op' hop' a ha had
    rw [(h.solo w op here kind).2 w' (mem_of_lookup hop'), here] at hop'
    cases hop'
    exact unpinned (had ▸ ha)
  have hkeep : ∀ w op, p.ops.lookup w = some op → ∀ a ∈ op.unmarked,
      a ∈ (m.perform (.merge g d f)).bm.cache := fun w' op' hop a ha =>
    Memory.mem_cache_perform (h.cached w' op' hop a ha) (hother w' op' hop a ha).symm
  refine h.setOp here rfl hkeep fun a ha => ?_
  rcases List.mem_cons.mp ha with rfl | ha
  · simp only [Memory.perform, child]
    exact AList.mem_erase.mpr ⟨ne.symm, BufferManager.exclusively_cached _ _ _ seen⟩
  · exact hkeep _ _ here a ha

/-- The writers keep their pins, and only a blob that its writer has pinned is marked. -/
theorem planWriter_turn (h : Pins m p) (hplan : planWriter children m p a = some (p', c)) :
    Pins (m.perform c) p' ∧ ∀ g, c.Marks g → g ∈ m.bm.cache := by
  cases a with
  | load g =>
    cases hplan
    exact ⟨⟨h.keeps fun _ => id, h.solo⟩, fun _ => False.elim⟩
  | evict g =>
    cases hplan
    refine ⟨⟨fun w op hop g' hg => ?_, h.solo⟩, fun _ => False.elim⟩
    refine Memory.mem_cache_perform (h.cached w op hop g' hg) fun hdrop => ?_
    obtain ⟨rfl, hfree⟩ := hdrop
    exact hfree (.inr (Parties.pinned_iff.mpr ⟨w, op, hop, hg⟩))
  | enter w kind seq =>
    obtain ⟨hguard, hplan⟩ := Option.ite_none_left_eq_some.mp hplan
    obtain ⟨-, -, shared⟩ := not_or.mp hguard |>.imp_right not_or.mp
    rw [Bool.not_eq_true] at shared
    cases kind with
    | foreground =>
      obtain ⟨-, hplan⟩ := Option.ite_none_left_eq_some.mp hplan
      cases hplan
      have hpins : Pins m (p.setOp w ⟨.foreground, seq, [], false⟩) := h.enter (by decide) shared
      exact ⟨⟨hpins.cached, hpins.solo⟩, fun _ => False.elim⟩
    | compaction =>
      cases hplan
      exact ⟨h.enter (by decide) shared, fun _ => False.elim⟩
    | merge =>
      obtain ⟨⟨alone, -⟩, hplan⟩ := Option.ite_none_right_eq_some.mp hplan
      cases hplan
      exact ⟨h.enterMerge alone, fun _ => False.elim⟩
  | look w g =>
    obtain ⟨op, -, hplan⟩ := Option.bind_eq_some_iff.mp hplan
    obtain ⟨b, -, hplan⟩ := Option.bind_eq_some_iff.mp hplan
    obtain ⟨-, hplan⟩ := Option.ite_none_right_eq_some.mp hplan
    cases hplan
    exact ⟨⟨h.keeps fun _ => id, h.solo⟩, fun _ => False.elim⟩
  | edit w g f =>
    obtain ⟨op, here, hplan⟩ := Option.bind_eq_some_iff.mp hplan
    obtain ⟨b, seen, hplan⟩ := Option.bind_eq_some_iff.mp hplan
    obtain ⟨-, hplan⟩ := Option.ite_none_right_eq_some.mp hplan
    cases hplan
    have hkeep := h.keeps (c := .edit g f) fun _ => id
    refine ⟨h.setOp here rfl hkeep fun a ha => ?_, fun _ => False.elim⟩
    rcases List.mem_cons.mp ha with rfl | ha
    · exact BufferManager.exclusively_cached _ _ _ seen
    · exact hkeep _ _ here a ha
  | spill w g n f k =>
    obtain ⟨op, here, hplan⟩ := Option.bind_eq_some_iff.mp hplan
    obtain ⟨b, seen, hplan⟩ := Option.bind_eq_some_iff.mp hplan
    obtain ⟨⟨-, -, -, ne, -⟩, hplan⟩ := Option.ite_none_right_eq_some.mp hplan
    cases hplan
    have hkeep := h.keeps (c := .spill g n f k op.seq) fun _ => id
    refine ⟨h.setOp here rfl hkeep fun a ha => ?_, fun _ => False.elim⟩
    rcases List.mem_cons.mp ha with rfl | ha
    · simp only [Memory.perform, seen]
      have hview : (m.bm.installNewBlob n (k b.image) op.seq).view a = some b := by
        rw [BufferManager.view_installNewBlob, if_neg ne.symm, seen]
      exact BufferManager.exclusively_cached _ _ _ hview
    · exact hkeep _ _ here a ha
  | merge w g d f =>
    obtain ⟨op, here, hplan⟩ := Option.bind_eq_some_iff.mp hplan
    obtain ⟨b, seen, hplan⟩ := Option.bind_eq_some_iff.mp hplan
    obtain ⟨bd, child, hplan⟩ := Option.bind_eq_some_iff.mp hplan
    obtain ⟨⟨kind, -, -, ne, unpinned, -⟩, hplan⟩ := Option.ite_none_right_eq_some.mp hplan
    cases hplan
    exact ⟨h.merge here seen child kind ne unpinned, fun _ => False.elim⟩
  | mark w g =>
    obtain ⟨op, here, hplan⟩ := Option.bind_eq_some_iff.mp hplan
    obtain ⟨changed, hplan⟩ := Option.ite_none_right_eq_some.mp hplan
    cases hplan
    have hkeep := h.keeps (c := .markDirty g op.seq) fun _ => id
    refine ⟨h.setOp here rfl hkeep fun a ha => hkeep _ _ here a (List.mem_filter.mp ha).1, ?_⟩
    rintro _ rfl
    exact h.cached w op here g changed
  | leave w =>
    obtain ⟨op, here, hplan⟩ := Option.bind_eq_some_iff.mp hplan
    obtain ⟨-, hplan⟩ := Option.ite_none_right_eq_some.mp hplan
    cases hplan
    refine ⟨⟨fun w' op' hlookup g hg => ?_, fun w' op' hlookup hmerge => ?_⟩, ?_⟩
    · have hcached := h.cached w' op' (lookup_erase_some hlookup).2 g hg
      split <;> exact hcached
    · obtain ⟨hw, hop'⟩ := lookup_erase_some hlookup
      exact absurd ((h.solo w' op' hop' hmerge).2 w (mem_of_lookup here)) hw.symm
    · split <;> exact fun _ => False.elim
  | _ => cases hplan

theorem plan_turn (hpins : Pins m p) (hstaged : p.Staged)
    (h : plan children m p a = some (p', c)) :
    Pins (m.perform c) p' ∧ ∀ g, c.Marks g → g ∈ m.bm.cache := by
  have hquiet : Turn m (Settles children ⟨m, p⟩ a) p p' c →
      Pins (m.perform c) p' ∧ ∀ g, c.Marks g → g ∈ m.bm.cache := fun hturn =>
    ⟨hpins.turn hturn, fun g hmark => absurd hmark (hturn.call.not_marks g)⟩
  rcases plan_cases h with h | h | h | h
  · exact planWriter_turn hpins h
  · exact hquiet (planSnapshot_accounts hstaged h)
  · exact hquiet (planWorker_accounts hstaged h)
  · exact hquiet (planManual_accounts hstaged h)

end

/-! ## All runs -/

section

variable {children : I → List BlobGuid} {store : AList fun _ : BlobGuid => I} {s : System I}

/-- Whatever someone holds is outstanding, even where some of it was given back twice. -/
structure Outstanding (s : System I) : Prop where
  staged : s.parties.Staged
  held : ∀ x, s.parties.held.count x ≤ s.memory.outstanding.count x

theorem Outstanding.step {t : System I} {a : Action I} (h : Outstanding s)
    (hstep : step children s a = some t) : Outstanding t := by
  obtain ⟨p, c, hplan, rfl⟩ := step_eq_some hstep
  obtain ⟨hstaged, hheld, -⟩ := plan_accounts h.staged hplan
  refine ⟨hstaged, fun x => ?_⟩
  have hbefore := h.held x
  have hturn := hheld x
  rw [Memory.outstanding_perform]
  dsimp only
  omega

/-- A snapshot under way owns what it drained. -/
theorem Outstanding.capture {seat : Seat} {id : Nat} {cap : Capture I} (h : Outstanding s)
    (here : s.parties.capture seat = some (id, cap)) :
    ∀ o ∈ owned id cap.snap, o ∈ s.memory.outstanding := by
  intro o ho
  have hempty := held_setCapture (.inl ⟨id, cap, here, rfl⟩) id (.drained []) o
  have hheld := h.held o
  have hpos := List.count_pos_iff.mpr ho
  simp only [owned, Capture.snap, List.map_nil, List.count_nil] at hempty hpos
  exact List.count_pos_iff.mp (by omega)

/-- In every run in which nothing is given back twice and no child is folded into its parent while
a snapshot has it, dirty blobs have their image, and so every snapshot gets its versions. -/
theorem dirty_blobs_cached
    (h : Run (step children) (Calls children Orderly) (.opened store) s) :
    (∀ g ∈ s.memory.bm.dirty, g ∈ s.memory.bm.cache) ∧
      ∀ seat id snap pending, s.parties.capture seat = some (id, .captured snap pending) →
        ∃ entries, s.memory.bm.snapshotDirtyVersions snap = .ok entries := by
  have hinv : s.memory.Imaged ∧ Pins s.memory s.parties ∧ Outstanding s := by
    refine h.invariant
      (I := fun s => s.memory.Imaged ∧ Pins s.memory s.parties ∧ Outstanding s)
      ⟨⟨nofun, nofun, fun g => Nat.zero_le _⟩, ⟨nofun, nofun⟩, nofun, fun _ => Nat.le_refl _⟩ ?_
    rintro s t a ⟨himaged, hpins, hout⟩ hmay hstep
    have hout' := hout.step hstep
    obtain ⟨p, c, hplan, rfl⟩ := step_eq_some hstep
    obtain ⟨hpins', hmark⟩ := plan_turn hpins hout.staged hplan
    exact ⟨himaged.perform (hmay.of_plan hplan) hmark, hpins', hout'⟩
  obtain ⟨himaged, -, hout⟩ := hinv
  refine ⟨himaged.dirty, fun seat id snap pending hcap => ?_⟩
  refine BufferManager.snapshotDirtyVersions_ok fun e he => ?_
  exact himaged.owned _ (hout.capture hcap _ (List.mem_map.mpr ⟨e, he, rfl⟩))

end

/-- An epoch has the child when writers touch it again, and its parent; then a manual checkpoint
has both, and neither can be evicted. -/
def captureBoth : List (Action (List BlobGuid)) :=
  [.begin 0, .drainDirty (.manual 0), .drainPending (.manual 0), .evict 0, .evict 1]

theorem dirty_blobs_cached_parent :
    (∃ s : System (List BlobGuid), Run (step id) (Calls id Orderly) (.opened parentAndChild) s ∧
      s.memory.owners 1 = 1 ∧ (∀ g ∈ [0, 1], g ∈ s.memory.bm.dirty ∧ g ∈ s.memory.bm.cache)) ∧
    ∃ s : System (List BlobGuid), Run (step id) (Calls id Orderly) (.opened parentAndChild) s ∧
      s.parties.capture (.manual 0) = some (1, .captured [(0, 3), (1, 2)] []) ∧
      ∃ entries, s.memory.bm.snapshotDirtyVersions [(0, 3), (1, 2)] = .ok entries := by
  refine ⟨?_, ?_⟩
  · have hplay : (play (step id) (Calls id Orderly)
        (touch 1 1 ++ round 1 ++ touch 1 2 ++ touch 0 3 ++ [.evict 0, .evict 1])
        (.opened parentAndChild)).any
        (fun s => s.memory.owners 1 = 1 ∧ ∀ g ∈ [0, 1], g ∈ s.memory.bm.dirty) := by decide +kernel
    obtain ⟨s, hrun, howners, hdirty⟩ := exists_run_of_play hplay
    have hcached := (dirty_blobs_cached hrun).1
    exact ⟨s, hrun, howners, fun g hg => ⟨hdirty g hg, hcached g (hdirty g hg)⟩⟩
  · have hplay : (play (step id) (Calls id Orderly)
        (touch 1 1 ++ round 1 ++ touch 1 2 ++ touch 0 3 ++ captureBoth)
        (.opened parentAndChild)).any (fun s =>
          s.parties.capture (.manual 0) = some (1, .captured [(0, 3), (1, 2)] [])) := by
      decide +kernel
    obtain ⟨s, hrun, hcapture⟩ := exists_run_of_play hplay
    exact ⟨s, hrun, hcapture, (dirty_blobs_cached hrun).2 _ _ _ _ hcapture⟩

/-- The first epoch finds that its child has no image any more, and gives it back as dirty. -/
theorem folded_child_dirty_again :
    ∃ s : System (List BlobGuid), Run (step id) (fun _ _ => True) (.opened parentAndChild) s ∧
      1 ∈ s.memory.bm.dirty ∧ 1 ∉ s.memory.bm.cache := by
  have hplay : (play (step id) (fun _ _ => True)
      (touch 1 1 ++ round 1 ++ fold ++ round 1 ++ [.takeBatch 1, .chooseWave, .checkWave,
        .workerChore]) (.opened parentAndChild)).any
      (fun s => 1 ∈ s.memory.bm.dirty ∧ 1 ∉ s.memory.bm.cache) := by decide +kernel
  obtain ⟨s, hrun, hend⟩ := exists_run_of_play hplay
  exact ⟨s, hrun, hend⟩

end Holt.Checkpoint
