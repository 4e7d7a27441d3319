import Holt.Checkpoint.Turns

/-! The flushing counts, against the ledger of the snapshots under way. -/

namespace Holt.Checkpoint

open Holt.Lib

variable {I : Type}

/-- How many snapshots drained the blob and did not give it back. -/
def Memory.owners (m : Memory I) (g : BlobGuid) : Nat := m.outstanding.countP fun o => o.2 = g

/-! ## The counts -/

namespace Memory

variable {m : Memory I} {c : Call I}

theorem release_eq_diff (o : List (Nat × BlobGuid)) (ids : List Nat) (g : BlobGuid) :
    release o ids g = o.diff (ids.map (·, g)) := by
  rw [release, List.diff_eq_foldl, List.foldl_map]

theorem outstanding_perform (m : Memory I) (c : Call I) (x : Nat × BlobGuid) :
    (m.perform c).outstanding.count x =
      m.outstanding.count x + (c.drained m).count x - c.returned.count x := by
  cases c with
  | load g | spill g n f k seq | merge p d f =>
    simp only [perform]
    split <;> rfl
  | snapshotDirty id => exact List.count_append
  | retire id g seq | restoreDirty ids g seq =>
    simp only [perform, release_eq_diff, List.count_diff]
    rfl
  | _ => rfl

/-- One owner less. -/
theorem owners_release {g : BlobGuid} {id : Nat} (h : (id, g) ∈ m.outstanding) (a : BlobGuid) :
    (release m.outstanding [id] g).countP (fun o => o.2 = a) =
      m.owners a - if a = g then 1 else 0 := by
  change (m.outstanding.erase (id, g)).countP _ = _
  rw [owners, (List.perm_cons_erase h).countP_eq fun x => decide (x.2 = a), List.countP_cons]
  by_cases ha : a = g
  · simp [ha]
  · simp [ha, Ne.symm ha]

theorem flushes_perform (h : ∀ g, m.bm.flushes g = m.owners g) (hfits : c.Fits m)
    (hreturned : ∀ x ∈ c.returned, x ∈ m.outstanding) (g : BlobGuid) :
    (m.perform c).bm.flushes g = (m.perform c).owners g := by
  have hsame : ∀ {m' : Memory I}, m'.bm.flushing = m.bm.flushing →
      m'.outstanding = m.outstanding → m'.bm.flushes g = m'.owners g := fun hflush hout => by
    rw [BufferManager.flushes, hflush, owners, hout]
    exact h g
  cases c with
  | load a =>
    simp only [perform]
    split
    · rename_i bm hpin
      exact hsame (BufferManager.pin_flushing hpin) rfl
    · exact h g
  | spill a n f k seq =>
    simp only [perform]
    split
    · exact h g
    · exact hsame (by simp [BufferManager.installNewBlob]) rfl
  | merge p d f =>
    simp only [perform]
    split
    · exact h g
    · -- The folded child had no count to lose.
      refine Eq.trans ?_ (h g)
      unfold BufferManager.flushes BufferManager.markForDelete
      rw [BufferManager.exclusively_flushing]
      by_cases hg : g = d
      · have hnone : m.bm.flushes d = 0 := hfits
        subst hg
        rw [AList.lookup_erase]
        exact hnone.symm
      · rw [AList.lookup_erase_ne hg]
  | snapshotDirty id =>
    change m.bm.snapshotDirty.2.flushes g = List.countP _ (_ ++ _)
    rw [BufferManager.flushes_snapshotDirty, h, List.countP_append, List.countP_map, List.count,
      List.countP_map]
    rfl
  | retire id a seq =>
    have hmem := hreturned (id, a) List.mem_cons_self
    refine (BufferManager.retireWriteThrough_flushes m.bm a seq g).trans ?_
    rw [h]
    exact (owners_release hmem g).symm
  | restoreDirty ids a seq =>
    obtain ⟨id, rfl⟩ := List.length_eq_one_iff.mp hfits
    have hmem := hreturned (id, a) List.mem_cons_self
    refine (BufferManager.restoreDirtyEntry_flushes m.bm a seq g).trans ?_
    rw [h]
    exact (owners_release hmem g).symm
  | evict a pinned | look a | edit a f | markDirty a seq => exact hsame (by simp [perform]) rfl
  | _ => exact hsame rfl rfl

end Memory

/-- The ledger: whatever is outstanding is held by someone, and counted. -/
structure Balanced (s : System I) : Prop where
  staged : s.parties.Staged
  lone : s.parties.Lone
  held : ∀ x, s.memory.outstanding.count x = s.parties.held.count x
  flushes : ∀ g, s.memory.bm.flushes g = s.memory.owners g

theorem Balanced.step {children : I → List BlobGuid} {s t : System I} {a : Action I}
    (h : Balanced s) (hmay : Settles children s a) (hstep : step children s a = some t) :
    Balanced t := by
  obtain ⟨p, c, hplan, rfl⟩ := step_eq_some hstep
  obtain ⟨hstaged, hheld, hlone⟩ := plan_accounts h.staged hplan
  obtain ⟨hlone, hfits⟩ := hlone hmay h.lone
  refine ⟨hstaged, hlone, fun x => ?_, Memory.flushes_perform h.flushes hfits fun x hx => ?_⟩
  · have hbefore := h.held x
    have hturn := hheld x
    rw [Memory.outstanding_perform]
    dsimp only
    omega
  · -- Nothing is drained and given back in one turn.
    have hdrained : c.drained s.memory = [] := by
      cases c <;> first | rfl | cases hx
    have hturn := hheld x
    rw [hdrained, ← h.held x, List.count_nil, Nat.add_zero] at hturn
    have hpos := List.count_pos_iff.mpr hx
    exact List.count_pos_iff.mp (by omega)

section

variable {children : I → List BlobGuid} {store : AList fun _ : BlobGuid => I} {s : System I}

end

/-- Blobs that hold nothing but their crossings, a parent and its child. -/
def parentAndChild : AList fun _ : BlobGuid => List BlobGuid :=
  let parent : AList fun _ : BlobGuid => List BlobGuid := AList.insert (0 : BlobGuid) [1] ∅
  parent.insert (1 : BlobGuid) []

/-- A writer touches blob `g` under sequence number `seq`. -/
def touch (g : BlobGuid) (seq : Nat) : List (Action (List BlobGuid)) :=
  [.load g, .enter 0 .foreground seq, .edit 0 g id, .mark 0 g, .leave 0]

/-- A round of the planner that finds `n` dirty blobs. -/
def round (n : Nat) : List (Action I) :=
  [.drainDirty .planner, .drainPending .planner, .takeVersions .planner] ++
    List.replicate n (.clone .planner) ++ [.settle .planner, .submit false]

/-- A maintenance pass folds the child into its parent. -/
def fold : List (Action (List BlobGuid)) :=
  [.load 0, .enter 0 .merge 0, .merge 0 0 1 fun _ _ => [], .mark 0 0, .leave 0]

end Holt.Checkpoint
