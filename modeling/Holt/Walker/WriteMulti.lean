import Holt.Art.Census
import Holt.Walker.Erase
import Holt.Walker.LookupMulti
import Holt.Walker.Spillover

/-! Insertion and erasure across blobs: one blob is held at a time, a full one is split and
tried again. -/

namespace Holt

open Holt.Lib

structure InsertOutcome where
  rootDirty : Bool
  mutated : Bool
  deriving DecidableEq, Repr

structure EraseOutcome where
  rootDirty : Bool
  mutated : Bool
  deriving DecidableEq, Repr

def maxSpilloverAttempts : Nat := 64

/-! ## Insertion -/

/-- A finished insertion gives the blob its new root. -/
def settleRoot : InsertStep → FrameM Unit
  | .done r =>
    modify fun F => if r.mutated then { F with rootSlot := r.slotAfter } else F
  | .crossing _ _ => pure ()

def insertInFrame (key : SearchKey) (value : List UInt8) (seq : Nat) (condition : InsertCondition)
    (depth : Nat) : FrameM InsertStep := do
  let F ← get
  let step ← insertAtStep key value seq condition (F.numSlots + 1) F.rootSlot depth
  settleRoot step
  pure step

/-- Move a subtree of a full blob to a new blob. -/
def spilloverBlob {root : BlobGuid} (supply : GuidSupply root) (guid : BlobGuid) (seq : Nat) :
    WalkM Unit := do
  let b ← pinned guid
  let victim ← blame guid (pickVictimSubtree b.image b.image.rootSlot)
  let newGuid ← freshBlobGuid supply
  let child ← blame guid (makeBlobFromNode b.image victim.victimSlot newGuid)
  onManager fun bm => bm.installNewBlob newGuid child seq
  let r ← runFrame guid (replaceVictim b.image.rootSlot victim newGuid)
  let _ ← blame guid r

def compactHeld (guid : BlobGuid) : WalkM Unit := do
  let r ← runFrame guid compactBlob
  blame guid r

def makeRoom {root : BlobGuid} (supply : GuidSupply root) (guid : BlobGuid) (seq : Nat) :
    WalkM Unit := do
  spilloverBlob supply guid seq
  onManager fun bm => bm.noteMergeCandidate guid
  compactHeld guid

/-- Try, make room, try again. The flag says whether the blob was split on the way. -/
def attemptInsert {root : BlobGuid} (supply : GuidSupply root) (key : SearchKey)
    (value : List UInt8) (seq : Nat) (condition : InsertCondition) (guid : BlobGuid)
    (depth : Nat) : Nat → Bool → WalkM (InsertStep × Bool)
  | 0, _ =>
    throw (.notYetImplemented "lock_coupled_insert_in_blob: spillover retry loop exhausted")
  | attempts + 1, dirty => do
    match ← runFrame guid (insertInFrame key value seq condition depth) with
    | .ok step => pure (step, dirty)
    | .error (.alloc (.outOfSpace _ _)) =>
      makeRoom supply guid seq
      attemptInsert supply key value seq condition guid depth attempts true
    | .error err => throw (err.withBlobGuid guid)

/-- The child is pinned before the blob is let go. -/
def pinNext : InsertStep → WalkM Unit
  | .crossing guid _ => pin guid
  | .done _ => pure ()

def insertHeld {root : BlobGuid} (supply : GuidSupply root) (key : SearchKey)
    (value : List UInt8) (seq : Nat) (condition : InsertCondition) (guid : BlobGuid)
    (depth : Nat) : WalkM (InsertStep × Bool) := do
  let r ← attemptInsert supply key value seq condition guid depth maxSpilloverAttempts false
  pinNext r.1
  pure r

/-- The bookkeeping of a finished insertion. -/
def noteInserted (guid : BlobGuid) (isTopBlob mutated : Bool) (seq : Nat) : WalkM Unit := do
  let b ← pinned guid
  onManager fun bm =>
    let bm := if mutated ∧ blobNeedsCompaction b.image then bm.noteCompactionCandidate guid else bm
    if mutated ∧ !isTopBlob then bm.markDirtyCached guid seq else bm

def lockCoupledInsertInBlob {root : BlobGuid} (supply : GuidSupply root) (key : SearchKey)
    (value : List UInt8) (seq : Nat) (condition : InsertCondition) :
    Nat → BlobGuid → Bool → Nat → WalkM InsertOutcome
  | 0, _, _, _ => throw .diverged
  | fuel + 1, guid, isTopBlob, depth => do
    let r ← exclusive guid (insertHeld supply key value seq condition guid depth)
    match r.1 with
    | .done out =>
      noteInserted guid isTopBlob out.mutated seq
      pure ⟨isTopBlob && out.mutated, out.mutated⟩
    | .crossing childGuid childDepth =>
      let outcome ←
        lockCoupledInsertInBlob supply key value seq condition fuel childGuid false childDepth
      onManager fun bm => if r.2 ∧ !isTopBlob then bm.markDirtyCached guid seq else bm
      pure ⟨outcome.rootDirty || (isTopBlob && r.2), outcome.mutated⟩

/-- Where a write starts: at a remembered child, at the child a look into the root shows, or in
the root itself. The root's answer is returned too. -/
def writeStart (root : BlobGuid) (key : SearchKey) :
    WalkM (BlobGuid × Bool × Nat × Option LookupResult) := do
  match ← followRoute root key with
  | some route => pure (route.childGuid, false, route.childDepth, none)
  | none =>
    let b ← pinned root
    match ← lift (lookupAt b.image b.image.rootSlot key 0) with
    | .crossing guid depth =>
      onRoutes fun c => c.learn key ⟨b.image.blobGuid, 0, b.version, guid, depth⟩
      pin guid
      pure (guid, false, depth, none)
    | res => pure (root, true, 0, some res)

def insertMultiConditional {root : BlobGuid} (supply : GuidSupply root) (key : SearchKey)
    (value : List UInt8) (seq : Nat) (condition : InsertCondition) : WalkM InsertOutcome :=
  if 2 ^ 16 - 1 < key.len then throw (.keyTooLong key.len)
  else if 2 ^ 16 - 1 < value.length then throw (.valueTooLong value.length)
  else do
    let start ← writeStart root key
    lockCoupledInsertInBlob supply key value seq condition (key.len + 1) start.1 start.2.1
      start.2.2.1

/-! ## Erasure -/

def eraseTouched (r : EraseReturn) : Bool := r.signal ≠ .unchanged ∨ r.mutated

/-- A subtree that vanished or moved gives the blob another root. -/
def settleErased : EraseStep → FrameM Unit
  | .done r => do
    let F ← get
    if eraseTouched r then
      let newRoot ← resolveNewRootAfterErase F.rootSlot r.signal
      modify fun F => { F with rootSlot := newRoot }
    else pure ()
  | .crossing _ _ => pure ()

def eraseInFrame (key : SearchKey) (condition : EraseCondition) (depth : Nat) :
    FrameM EraseStep := do
  let F ← get
  let step ← eraseAtStep key condition (F.numSlots + 1) F.rootSlot depth
  settleErased step
  pure step

def eraseHeld (key : SearchKey) (condition : EraseCondition) (guid : BlobGuid) (depth : Nat) :
    WalkM EraseStep := do
  let r ← runFrame guid (eraseInFrame key condition depth)
  let step ← blame guid r
  match step with
  | .crossing childGuid _ =>
    pin childGuid
    pure step
  | .done _ => pure step

def lockCoupledEraseInBlob (key : SearchKey) (seq : Nat) (condition : EraseCondition) :
    Nat → BlobGuid → Bool → Nat → WalkM EraseOutcome
  | 0, _, _, _ => throw .diverged
  | fuel + 1, guid, isTopBlob, depth => do
    let step ← exclusive guid (eraseHeld key condition guid depth)
    match step with
    | .crossing childGuid childDepth =>
      lockCoupledEraseInBlob key seq condition fuel childGuid false childDepth
    | .done r =>
      onManager fun bm =>
        if eraseTouched r then
          let bm := bm.noteCompactionCandidate guid
          if isTopBlob then bm else bm.markDirtyCached guid seq
        else bm
      pure ⟨isTopBlob && eraseTouched r, r.mutated⟩

def eraseMultiConditional (root : BlobGuid) (key : SearchKey) (seq : Nat)
    (condition : EraseCondition) : WalkM EraseOutcome := do
  let start ← writeStart root key
  match start.2.2.2 with
  | some .notFound => pure ⟨false, false⟩
  | _ => lockCoupledEraseInBlob key seq condition (key.len + 1) start.1 start.2.1 start.2.2.1

/-! ## One blob -/

/-- What an insertion may fail with: a full blob or a key shape that is refused. -/
def Error.IsRefusal (e : Error) : Prop := e.IsResource ∨ ∃ context, e = .notYetImplemented context

theorem Error.IsRefusal.blame {e : Error} (h : e.IsRefusal) (g : BlobGuid) :
    (e.withBlobGuid g).IsRefusal := by
  have he : e.withBlobGuid g = e := by
    rcases h with (rfl | ⟨need, avail, rfl⟩) | ⟨context, rfl⟩ <;> rfl
  rwa [he]

/-- How an insertion may end in a failure: it is too long for a leaf, or it is refused. -/
def Error.DeclinesInsert (keyLen valueLen : Nat) (e : Error) : Prop :=
  (2 ^ 16 ≤ keyLen ∧ e = .keyTooLong keyLen) ∨ (2 ^ 16 ≤ valueLen ∧ e = .valueTooLong valueLen) ∨
    e.IsRefusal

theorem Error.DeclinesInsert.hard {keyLen valueLen : Nat} {e : Error}
    (h : e.DeclinesInsert keyLen valueLen) : e.Hard := by
  unfold Hard
  rcases h with ⟨-, rfl⟩ | ⟨-, rfl⟩ | (rfl | ⟨need, avail, rfl⟩) | ⟨context, rfl⟩ <;> simp

section OneBlob

variable {F : Frame} {t : Art} {π : List UInt8} {key : SearchKey}

theorem Frame.Rep.setRoot {s : Slot} {fp : Set Cell} (h : F.Rep t s fp) (root : Slot) :
    ({ F with rootSlot := root } : Frame).Rep t s fp :=
  h.congr ⟨fun _ _ => ⟨rfl, rfl⟩, fun _ _ => rfl, le_rfl⟩ subset_rfl

theorem Frame.Alloc.setRoot {fp : Set Cell} (h : F.Alloc fp) (root : Slot) :
    ({ F with rootSlot := root } : Frame).Alloc fp :=
  h.congr rfl rfl rfl rfl

/-- A tree built at another root, once the header names that root. -/
theorem Built.holds {F' : Frame} {s : Slot} {fp : Set Cell} (h : Built F F' ∅ ∅ t s fp) :
    Frame.Holds { F' with rootSlot := s } t := by
  have ha := h.alloc
  rw [Set.empty_union] at ha
  exact ⟨fp, h.rep.setRoot s, ha.setRoot s⟩

theorem Frame.Holds.kept {F' : Frame} {fp : Set Cell} (hr : F.Rep t F.rootSlot fp)
    (h : F.Kept F' fp) : F'.Holds t :=
  ⟨fp, by rw [h.same.rootSlot]; exact hr.same h.same subset_rfl, h.alloc⟩

/-- An insertion that changes nothing leaves the frame as it was, and one that finds no room was
about to change something. -/
theorem insertInFrame_sat {value : List UInt8} {seq : Nat} {condition : InsertCondition}
    (h : F.Holds t) (hw : t.Wf π) (hπ : π <+: key.full) (hk : key.len < 2 ^ 16)
    (hv : value.length < 2 ^ 16) :
    Sat (insertInFrame key value seq condition π.length) F
      (fun step F' => F'.blobGuid = F.blobGuid ∧ match step with
        | .done r => (r.mutated = false → F' = F) ∧ ∃ t', F'.Holds t' ∧
            Art.insert (newRecord key value seq) condition t π.length = .done t' r.mutated
        | .crossing g d => F' = F ∧
            Art.insert (newRecord key value seq) condition t π.length = .crossing g d)
      (fun e F' => F'.Holds t ∧ F'.blobGuid = F.blobGuid ∧
        ((e.IsResource ∧
          ∃ t', Art.insert (newRecord key value seq) condition t π.length = .done t' true) ∨
        ∃ context, Art.insert (newRecord key value seq) condition t π.length = .fail context ∧
          e = .notYetImplemented context)) := by
  obtain ⟨fp, hr, ha⟩ := h
  have hstep : Sat (insertAtStep key value seq condition _ F.rootSlot π.length) F _ _ :=
    insertAtStep_mirrors (R := ∅) hk hv hr (Set.empty_disjoint fp) (by rwa [Set.empty_union]) hw hπ
      (hr.height_lt ha subset_rfl)
  rw [Set.empty_union] at hstep
  simp only [insertInFrame, sat_bind, sat_get]
  refine hstep.mono (fun step F' hm => ?_) fun e F' he => ?_
  · cases step with
    | crossing g d =>
      simp only [settleRoot, sat_pure]
      cases hres : Art.insert (newRecord key value seq) condition t π.length with
      | crossing g' d' =>
        rw [hres] at hm
        obtain ⟨rfl, rfl, rfl⟩ := hm
        exact ⟨rfl, rfl, rfl⟩
      | done t' m => rw [hres] at hm; exact hm.elim
      | fail c => rw [hres] at hm; exact hm.elim
    | done r =>
      simp only [settleRoot, sat_modify, sat_pure]
      cases hres : Art.insert (newRecord key value seq) condition t π.length with
      | done t' m =>
        rw [hres] at hm
        obtain ⟨hmut, ⟨fp', hb⟩, hsame⟩ := hm
        cases hm : r.mutated with
        | true =>
          rw [if_pos rfl]
          exact ⟨hb.same.blobGuid, by simp, t', hb.holds, by rw [← hmut, hm]⟩
        | false =>
          obtain ⟨rfl, hslot⟩ := hsame (hmut.symm.trans hm)
          rw [if_neg Bool.false_ne_true]
          have ha' := hb.alloc
          rw [Set.empty_union] at ha'
          exact ⟨rfl, fun _ => rfl, t', ⟨fp', hslot ▸ hb.rep, ha'⟩, by rw [← hmut, hm]⟩
      | crossing g' d' => rw [hres] at hm; exact hm.elim
      | fail c => rw [hres] at hm; exact hm.elim
  · exact ⟨Frame.Holds.kept hr he.1, he.1.same.blobGuid, he.2⟩

theorem eraseInFrame_sat {condition : EraseCondition} (h : F.Holds t) (hw : t.Wf π) :
    Sat (eraseInFrame key condition π.length) F
      (fun step F' => F'.blobGuid = F.blobGuid ∧ match step with
        | .done r => ∃ t', F'.Holds t' ∧
            Art.erase key.full condition t π.length = .done t' r.mutated
        | .crossing g d => F'.Holds t ∧
            Art.erase key.full condition t π.length = .crossing g d)
      (fun _ _ => False) := by
  obtain ⟨fp, hr, ha⟩ := h
  have hstep : Sat (eraseAtStep key condition _ F.rootSlot π.length) F _ _ :=
    eraseAtStep_mirrors (R := ∅) hr (Set.empty_disjoint fp) (by rwa [Set.empty_union]) hw
      (hr.height_lt ha subset_rfl)
  simp only [eraseInFrame, sat_bind, sat_get]
  refine hstep.imp fun step F' hm => ?_
  cases step with
  | crossing g d =>
    simp only [settleErased, sat_pure]
    cases hres : Art.erase key.full condition t π.length with
    | crossing g' d' =>
      rw [hres] at hm
      obtain ⟨rfl, rfl, rfl⟩ := hm
      exact ⟨rfl, ⟨fp, hr, ha⟩, rfl⟩
    | done t' m => rw [hres] at hm; exact hm.elim
  | done r =>
    cases hres : Art.erase key.full condition t π.length with
    | done t' m =>
      rw [hres] at hm
      obtain ⟨rfl, ⟨fp', hb⟩, -⟩ := hm
      have hroot := hb.same.rootSlot
      have hholds : F'.Holds t' := by
        have := hb.holds
        rwa [← hroot] at this
      simp only [settleErased, sat_bind, sat_get]
      split
      · simp only [resolveNewRootAfterErase, sat_bind, sat_pure, sat_modify]
        exact ⟨hb.same.blobGuid, t', hholds, rfl⟩
      · simp only [sat_pure]
        exact ⟨hb.same.blobGuid, t', hholds, rfl⟩
    | crossing g' d' => rw [hres] at hm; exact hm.elim

/-- Compaction moves no end of a key. -/
theorem Art.prune_live (hw : t.Wf π) :
    (t.prune.getD .emptyRoot).Wf π ∧ ∀ k, π <+: k →
      ((t.prune.getD .emptyRoot).target k π.length).live = (t.target k π.length).live := by
  refine ⟨Art.compacted_wf hw, fun k _ => ?_⟩
  have htarget := t.compacted_target k π.length
  rw [Art.compacted] at htarget
  rw [htarget, Target.live_live]

end OneBlob

/-! ## Many blobs -/

/-- The same keys end at the same places. -/
def Forest.SameEnds (root : BlobGuid) (fo fo' : Forest) : Prop :=
  ∀ k o, fo'.Leads k root o ↔ fo.Leads k root o

/-- What a write to `k` did: it ends at `goal` now if `changed`, and all other keys are as they
were. -/
def Forest.Wrote (root : BlobGuid) (fo fo' : Forest) (k : List UInt8) (changed : Bool)
    (goal : Target) : Prop :=
  ∀ k' o, fo'.Leads k' root o ↔
    if k' = k ∧ changed = true then o = goal else fo.Leads k' root o

section ManyBlobs

variable {root : BlobGuid} {supply : GuidSupply root} {e : Engine} {fo : Forest} {g : BlobGuid}
  {p : Plot} {key : SearchKey}

theorem Forest.Wrote.after {fo₁ fo' : Forest} {k : List UInt8} {changed : Bool} {goal : Target}
    (h : Forest.Wrote root fo₁ fo' k changed goal) (hs : Forest.SameEnds root fo fo₁) :
    Forest.Wrote root fo fo' k changed goal := by
  intro k' o
  rw [h k' o, hs k' o]

theorem Forest.Wrote.unchanged {goal : Target} (fo : Forest) (k : List UInt8) :
    Forest.Wrote root fo fo k false goal := by
  intro k' o
  simp

/-- One key of one blob's tree redirected. -/
theorem Forest.Wf.redirect (hw : fo.Wf root) (hp : fo g = some p) {t : Art} {k : List UInt8}
    {goal : Target} (ht : t.Wf p.path) (hk : p.path <+: k)
    (hr : Art.Redirects p.tree t p.path k goal) (hgoal : ∀ g' d, goal ≠ .crossing g' d)
    (hold : ∀ g' d, p.tree.target k p.path.length ≠ .crossing g' d) :
    (fo.plant g ⟨p.path, t⟩).Wf root ∧
      Forest.Wrote root fo (fo.plant g ⟨p.path, t⟩) k true goal.live := by
  have hself : t.target k p.path.length = goal := by rw [hr k hk, if_pos rfl]
  obtain ⟨hwf, hsame⟩ := hw.plant (K := {k}) hp
    (fun k' hk' hne => by rw [hr k' hk', if_neg (Set.notMem_singleton_iff.mp hne)])
    (fun k' hk' _ => by rw [Set.mem_singleton_iff.mp hk']; exact hold)
    (fun k' hk' _ => by rw [Set.mem_singleton_iff.mp hk', hself]; exact hgoal) ht
  refine ⟨hwf, fun k' o => ?_⟩
  by_cases hne : k' = k
  · subst hne
    have hlead := hwf.leads_target (fo.plant_self g ⟨p.path, t⟩) hk (by rw [hself]; exact hgoal)
    simp only [hself] at hlead
    simp only [and_self, if_true]
    exact ⟨fun h => h.unique hlead, fun h => h ▸ hlead⟩
  · rw [if_neg fun h => hne h.1]
    exact hsame k' hne o

/-- What spillover settles before it touches the blob: the victim, its place in the tree and its
copy in a blob of its own. -/
structure Spills (F : Frame) (t : Art) (newGuid : BlobGuid) (v : Victim) (rel : List UInt8)
    (sub : Art) (plug : Art → Art) (copy : Frame) : Prop where
  picked : pickVictimSubtree F F.rootSlot = .ok v
  edge : VictimAt F t F.rootSlot v rel sub plug
  notBlob : sub.isBlob = false
  copied : makeBlobFromNode F v.victimSlot newGuid = .ok copy
  holds : copy.Holds sub
  name : copy.blobGuid = newGuid

/-- The engine after the copy is installed and the blob's frame is `F`. -/
def Engine.spilled {root : BlobGuid} (supply : GuidSupply root) (e : Engine) (g : BlobGuid)
    (copy F : Frame) (seq : Nat) : Engine :=
  Engine.putFrame { e with
    bm := e.bm.installNewBlob (supply.guid e.drawn) copy seq
    drawn := e.drawn + 1 } g F

section Spills

variable {b : CachedBlob Frame} {t : Art} {fp : Set Cell} {π : List UInt8}
  (hb : e.bm.view g = some b) (hr : b.image.Rep t b.image.rootSlot fp) (ha : b.image.Alloc fp)

include hb

theorem pinned_view : Sat (pinned g) e (fun b' e' => b' = b ∧ e' = e) fun _ _ => False := by
  unfold Sat pinned
  rw [hb]
  exact ⟨rfl, rfl⟩

/-- With the victim copied, the rest of a spillover happens in the blob's own frame. -/
theorem Spills.replaces {v : Victim} {rel : List UInt8} {sub : Art} {plug : Art → Art}
    {copy : Frame} (hsp : Spills b.image t (supply.guid e.drawn) v rel sub plug copy)
    (hne : g ≠ supply.guid e.drawn) (seq : Nat) {ok : Slot → Frame → Prop}
    {bad : Error → Frame → Prop}
    (hrepl : Sat (replaceVictim b.image.rootSlot v (supply.guid e.drawn)) b.image ok bad) :
    Sat (spilloverBlob supply g seq) e
      (fun _ e' => ∃ bn F, ok bn F ∧ e' = e.spilled supply g copy F seq)
      (fun err e' => ∃ er F, bad er F ∧ err = er.withBlobGuid g ∧
        e' = e.spilled supply g copy F seq) := by
  have hview : (e.bm.installNewBlob (supply.guid e.drawn) copy seq).view g = some b := by
    rw [BufferManager.view_installNewBlob, if_neg hne, hb]
  unfold spilloverBlob
  refine (pinned_view hb).bind ?_ fun _ _ he => he.elim
  rintro _ _ ⟨rfl, rfl⟩
  simp only [hsp.picked, blame, freshBlobGuid, sat_bind, sat_pure, sat_get, sat_set, hsp.copied,
    onManager, sat_modify]
  refine (runFrame_sat hview hrepl).imp fun r e₁ h₁ => ?_
  obtain ⟨F, rfl, hF⟩ := h₁
  cases r with
  | ok bn => exact .pure ⟨bn, F, hF, rfl⟩
  | error er => exact .throw ⟨er, F, hF, rfl, rfl⟩

include hr ha

/-- The blob node takes the victim's place, or the victim is given up and no room is found for the
node. -/
theorem Spills.run {v : Victim} {rel : List UInt8} {sub : Art} {plug : Art → Art} {copy : Frame}
    (hsp : Spills b.image t (supply.guid e.drawn) v rel sub plug copy)
    (hne : g ≠ supply.guid e.drawn) (seq : Nat) :
    ∃ fpv, b.image.Rep sub v.victimSlot fpv ∧ fpv ⊆ fp ∧
      Sat (spilloverBlob supply g seq) e
        (fun _ e' => ∃ bn F, Replaced b.image F (plug (.blob [] (supply.guid e.drawn))) fp fpv
          v.parentSlot bn (supply.guid e.drawn) ∧ e' = e.spilled supply g copy F seq)
        (fun err e' => err.IsRefusal ∧ ∃ F, b.image.Frees F fp fpv ∧
          ¬b.image.RoomOnceFreed fpv ∧ e' = e.spilled supply g copy F seq) := by
  obtain ⟨fpv, hrv, hsub, hrepl⟩ := replaceVictim_sat hr ha hsp.edge (supply.guid e.drawn)
  refine ⟨fpv, hrv, hsub, (hsp.replaces hb hne seq hrepl).mono (fun _ _ h => h) ?_⟩
  rintro _ e' ⟨er, F, ⟨hres, hfrees, hfull⟩, rfl, rfl⟩
  exact ⟨Error.IsRefusal.blame (Or.inl hres) g, F, hfrees, hfull, rfl⟩

/-- Without a victim, or without room for its copy, the blob is not touched. -/
theorem spilloverBlob_stops (hw : t.Wf π)
    (hno : ∀ v rel sub plug copy, ¬Spills b.image t (supply.guid e.drawn) v rel sub plug copy)
    (seq : Nat) :
    Sat (spilloverBlob supply g seq) e (fun _ _ => False)
      (fun err e' => err.IsRefusal ∧ (e' = e ∨ e' = { e with drawn := e.drawn + 1 })) := by
  unfold spilloverBlob
  refine (pinned_view hb).bind ?_ fun _ _ he => he.elim
  rintro _ _ ⟨rfl, rfl⟩
  rcases pickVictimSubtree_spec hr ha subset_rfl with ⟨v, rel, sub, plug, hv, hat, hnb⟩ | hv
  · simp only [hv, blame, freshBlobGuid, sat_bind, sat_pure, sat_get, sat_set]
    obtain ⟨fpv, hrv, hsub⟩ := hat.rep hr
    obtain ⟨hws, -⟩ := hat.hangs.wf hw
    rcases makeBlobFromNode_spec hrv ha hsub hws (supply.guid _) with
      ⟨N, hN, hNh, hNg⟩ | ⟨err, herr, hres⟩
    · exact absurd ⟨hv, hat, hnb, hN, hNh, hNg⟩ (hno v rel sub plug N)
    · simp only [herr, sat_throw]
      exact ⟨Error.IsRefusal.blame (Or.inl hres) g, .inr trivial⟩
  · simp only [hv, blame, sat_bind, sat_throw]
    exact ⟨Error.IsRefusal.blame (Or.inr ⟨_, rfl⟩) g, .inl trivial⟩

end Spills

theorem spilloverBlob_sat (h : e.Inv supply fo) (hp : fo g = some p) (seq : Nat) :
    Sat (spilloverBlob supply g seq) e
      (fun _ e' => ∃ fo' t, e'.Inv supply fo' ∧ fo.Extends fo' ∧ Forest.SameEnds root fo fo' ∧
        fo' g = some ⟨p.path, t⟩)
      (fun err _ => err.IsRefusal) := by
  obtain ⟨b, hb, ⟨fp, hr, ha⟩, hguid⟩ := h.blob hp
  have hnew := h.fresh
  have htree := h.wf.tree hp
  by_cases hsome : ∃ v rel sub plug copy,
      Spills b.image p.tree (supply.guid e.drawn) v rel sub plug copy
  · obtain ⟨v, rel, sub, plug, copy, hsp⟩ := hsome
    obtain ⟨hwf, hsame⟩ := Forest.Wf.spill hp hnew hsp.edge.hangs h.wf
      (hsp.edge.path_ne_nil htree) hsp.notBlob
    obtain ⟨fpv, -, -, hrun⟩ := hsp.run hb hr ha (Forest.spill_new_ne hp hnew) seq
    refine hrun.mono (fun _ e' h' => ?_) fun _ _ he => he.1
    obtain ⟨bn, F, hF, rfl⟩ := h'
    exact ⟨_, _, h.spill hp hF.holds (hF.blobGuid.trans hguid) hsp.holds hsp.name hwf,
      Forest.extends_spill hp hnew, hsame, Forest.spill_self hp hnew⟩
  · have hno : ∀ v rel sub plug copy,
        ¬Spills b.image p.tree (supply.guid e.drawn) v rel sub plug copy :=
      fun v rel sub plug copy hsp => hsome ⟨v, rel, sub, plug, copy, hsp⟩
    exact (spilloverBlob_stops hb hr ha htree hno seq).mono (fun _ _ h => h.elim)
      fun _ _ he => he.1

/-- A frame that holds the same tree. -/
theorem Engine.Inv.replant (h : e.Inv supply fo) (hp : fo g = some p) {F : Frame}
    (hF : F.Holds p.tree) (hg : F.blobGuid = g) : (e.putFrame g F).Inv supply fo := by
  have hinv := h.plant hp hF hg (by rw [Forest.plant_same hp]; exact h.wf)
  rwa [Forest.plant_same hp] at hinv

/-- Compaction moves no key, and leaves the blob alone where it fails. -/
theorem compactHeld_sat (h : e.Inv supply fo) (hp : fo g = some p) :
    Sat (compactHeld g) e
      (fun _ e' => ∃ fo' t, e'.Inv supply fo' ∧ fo.Extends fo' ∧ Forest.SameEnds root fo fo' ∧
        fo' g = some ⟨p.path, t⟩)
      (fun err e' => err.IsRefusal ∧ e'.Inv supply fo) := by
  obtain ⟨b, hb, hh, hguid⟩ := h.blob hp
  have htree := h.wf.tree hp
  obtain ⟨hwp, hlive⟩ := Art.prune_live htree
  unfold compactHeld
  refine (runFrame_sat hb (compactBlob_sat hh htree)).andThen fun r e₂ h₂ => ?_
  obtain ⟨F, rfl, hF⟩ := h₂
  cases r with
  | ok u =>
    simp only [blame, sat_pure]
    obtain ⟨hwf, hsame⟩ := h.wf.plant (K := ∅) hp (fun k hk _ => hlive k hk)
      (fun _ hk => hk.elim) (fun _ hk => hk.elim) hwp
    exact ⟨_, _, h.plant hp hF.1 (hF.2.trans hguid) hwf, Forest.extends_plant hp _,
      fun k o => hsame k (Set.notMem_empty k) o, Forest.plant_self ..⟩
  | error er =>
    simp only [blame, sat_throw]
    obtain ⟨rfl, hres⟩ := hF
    exact ⟨Error.IsRefusal.blame (Or.inl hres) g, h.replant hp hh hguid⟩

/-- Room is made without moving the end of any key. -/
theorem makeRoom_sat (h : e.Inv supply fo) (hp : fo g = some p) (seq : Nat) :
    Sat (makeRoom supply g seq) e
      (fun _ e' => ∃ fo' t, e'.Inv supply fo' ∧ fo.Extends fo' ∧ Forest.SameEnds root fo fo' ∧
        fo' g = some ⟨p.path, t⟩)
      (fun err _ => err.IsRefusal) := by
  unfold makeRoom
  refine (spilloverBlob_sat h hp seq).andThen fun _ e₁ h₁ => ?_
  obtain ⟨fo₁, t₁, hinv, hext, hends, hp₁⟩ := h₁
  simp only [onManager, sat_bind, sat_modify]
  refine (compactHeld_sat (hinv.noteMerge g) hp₁).mono (fun _ e₂ h₂ => ?_) fun _ _ he => he.1
  obtain ⟨fo₂, t₂, hinv₂, hext₂, hends₂, hp₂⟩ := h₂
  exact ⟨fo₂, t₂, hinv₂, hext.trans hext₂, fun k o => (hends₂ k o).trans (hends k o), hp₂⟩

/-- What an insertion under the guard `cond` did. -/
def Forest.Inserted (root : BlobGuid) (fo fo' : Forest) (new : Record) (cond : InsertCondition)
    (mutated : Bool) : Prop :=
  (∃ o, fo.Leads new.key root o ∧ mutated = cond.admitsTarget o) ∧
    Forest.Wrote root fo fo' new.key mutated (.leaf new)

def Forest.Erased (root : BlobGuid) (fo fo' : Forest) (k : List UInt8) (cond : EraseCondition)
    (mutated : Bool) : Prop :=
  (∃ o, fo.Leads k root o ∧ mutated = cond.admitsTarget o) ∧
    Forest.Wrote root fo fo' k mutated .absent

section Insert

variable {value : List UInt8} {seq : Nat} {condition : InsertCondition}

/-- The tree of one blob changed by an insertion. -/
theorem Engine.Inv.inserted (h : e.Inv supply fo) (hp : fo g = some p)
    (hk : p.path <+: key.full) {F : Frame} {t : Art} {mutated : Bool} (hF : F.Holds t)
    (hg : F.blobGuid = g) (hins : Art.insert (newRecord key value seq) condition p.tree
      p.path.length = .done t mutated) :
    (e.putFrame g F).Inv supply (fo.plant g ⟨p.path, t⟩) ∧
      fo.Extends (fo.plant g ⟨p.path, t⟩) ∧ Forest.Inserted root fo (fo.plant g ⟨p.path, t⟩)
        (newRecord key value seq) condition mutated := by
  have hm := Art.insert_meets (newRecord key value seq) condition (h.wf.tree hp) hk
  rw [hins] at hm
  cases mutated with
  | false =>
    obtain ⟨rfl, hadm, hx⟩ := hm
    rw [Forest.plant_same hp]
    refine ⟨h.replant hp hF hg, .refl fo, ⟨_, h.wf.leads_target hp hk hx, ?_⟩,
      .unchanged fo _⟩
    rw [InsertCondition.admitsTarget_live]
    exact hadm.symm
  | true =>
    obtain ⟨hwt, hadm, hred⟩ := hm
    have hx : ∀ g' d, p.tree.target key.full p.path.length ≠ .crossing g' d := by
      intro g' d ht
      change condition.admitsTarget (p.tree.target key.full p.path.length) = true at hadm
      rw [ht] at hadm
      cases hadm
    obtain ⟨hwf, hwrote⟩ := h.wf.redirect hp hwt hk hred (by simp) hx
    refine ⟨h.plant hp hF hg hwf, Forest.extends_plant hp t,
      ⟨_, h.wf.leads_target hp hk hx, ?_⟩, hwrote⟩
    rw [InsertCondition.admitsTarget_live]
    exact hadm.symm

theorem Forest.Inserted.after {fo₁ fo' : Forest} {new : Record} {mutated : Bool}
    (h : Forest.Inserted root fo₁ fo' new condition mutated) (hs : Forest.SameEnds root fo fo₁) :
    Forest.Inserted root fo fo' new condition mutated := by
  obtain ⟨⟨o, ho, hm⟩, hw⟩ := h
  exact ⟨⟨o, (hs _ o).mp ho, hm⟩, hw.after hs⟩

variable (hlen : key.len < 2 ^ 16) (hval : value.length < 2 ^ 16)

include hlen hval

theorem attemptInsert_sat {attempts : Nat} {dirty : Bool} (h : e.Inv supply fo)
    (hp : fo g = some p) (hk : p.path <+: key.full) :
    Sat (attemptInsert supply key value seq condition g p.path.length attempts dirty) e
      (fun r e' => ∃ fo', e'.Inv supply fo' ∧ fo.Extends fo' ∧ match r.1 with
        | .done out =>
          Forest.Inserted root fo fo' (newRecord key value seq) condition out.mutated
        | .crossing g' d => Forest.SameEnds root fo fo' ∧
            (∃ t, fo' g' = some ⟨key.full.take d, t⟩) ∧ p.path.length < d ∧ d ≤ key.full.length)
      (fun err _ => err.IsRefusal) := by
  induction attempts generalizing e fo p dirty with
  | zero =>
    simp only [attemptInsert, sat_throw]
    exact Or.inr ⟨_, rfl⟩
  | succ n ih =>
    obtain ⟨b, hb, hh, hguid⟩ := h.blob hp
    have htree := h.wf.tree hp
    simp only [attemptInsert, sat_bind]
    refine (runFrame_sat hb (insertInFrame_sat hh htree hk hlen hval)).imp fun r e₁ h₁ => ?_
    obtain ⟨F, rfl, hF⟩ := h₁
    cases r with
    | ok step =>
      simp only [sat_pure]
      obtain ⟨hFg, hstep⟩ := hF
      cases step with
      | done out =>
        obtain ⟨-, t, hFt, hins⟩ := hstep
        exact ⟨_, h.inserted hp hk hFt (hFg.trans hguid) hins⟩
      | crossing g' d =>
        obtain ⟨rfl, hcross⟩ := hstep
        have hm := Art.insert_meets (newRecord key value seq) condition htree hk
        rw [hcross] at hm
        obtain ⟨hg', hdeep⟩ := h.wf.crossing hp hk hm
        exact ⟨fo, h.replant hp hh hguid, .refl fo, fun _ _ => Iff.rfl, hg', hdeep⟩
    | error er =>
      obtain ⟨hFt, hFg, her⟩ := hF
      have hinv := h.replant hp hFt (hFg.trans hguid)
      have href : er.IsRefusal := her.imp And.left (Exists.imp fun _ => And.right)
      split
      · cases ‹Except.error er = Except.ok _›
      · refine (makeRoom_sat hinv hp seq).andThen fun _ e₂ h₂ => ?_
        obtain ⟨fo₂, t₂, hinv₂, hext, hends, hp₂⟩ := h₂
        refine (ih hinv₂ hp₂ hk).imp fun r e₃ h₃ => ?_
        obtain ⟨fo₃, hinv₃, hext₃, hr⟩ := h₃
        refine ⟨fo₃, hinv₃, hext.trans hext₃, ?_⟩
        split at hr
        · exact Forest.Inserted.after hr hends
        · exact ⟨fun k o => (hr.1 k o).trans (hends k o), hr.2⟩
      · cases ‹Except.error er = Except.error _›
        simp only [sat_throw]
        exact href.blame g

theorem insertHeld_sat (h : e.Inv supply fo) (hp : fo g = some p) (hk : p.path <+: key.full) :
    Sat (insertHeld supply key value seq condition g p.path.length) e
      (fun r e' => ∃ fo', e'.Inv supply fo' ∧ fo.Extends fo' ∧ match r.1 with
        | .done out =>
          Forest.Inserted root fo fo' (newRecord key value seq) condition out.mutated
        | .crossing g' d => Forest.SameEnds root fo fo' ∧
            (∃ t, fo' g' = some ⟨key.full.take d, t⟩) ∧ p.path.length < d ∧ d ≤ key.full.length)
      (fun err _ => err.IsRefusal) := by
  unfold insertHeld
  refine (attemptInsert_sat hlen hval h hp hk).andThen fun r e₁ h₁ => ?_
  obtain ⟨fo₁, hinv, hext, hr⟩ := h₁
  obtain ⟨step, dirty⟩ := r
  cases step with
  | done out =>
    simp only [pinNext, sat_pure, sat_bind]
    exact ⟨fo₁, hinv, hext, hr⟩
  | crossing g' d =>
    obtain ⟨hends, ⟨t', hg'⟩, hdeep⟩ := hr
    simp only [pinNext, sat_bind, sat_pure]
    refine (pin_sat hinv hg').imp fun _ e₂ h₂ => ?_
    exact ⟨fo₁, h₂.1, hext, hends, ⟨t', hg'⟩, hdeep⟩

omit hlen hval in
theorem noteInserted_sat (h : e.Inv supply fo) (hp : fo g = some p) (isTop mutated : Bool)
    {err : Error → Engine → Prop} :
    Sat (noteInserted g isTop mutated seq) e (fun _ e' => e'.Inv supply fo) err := by
  unfold noteInserted
  refine (pinned_sat h hp).andThen fun b e' hb => ?_
  obtain ⟨rfl, -⟩ := hb
  simp only [onManager, sat_modify]
  have h₁ : Engine.Inv supply { e' with
      bm := if mutated ∧ blobNeedsCompaction b.image then e'.bm.noteCompactionCandidate g
        else e'.bm } fo := by
    split
    · exact h.noteCompaction g
    · exact h
  split
  · exact h₁.markDirty g seq
  · exact h₁

theorem lockCoupledInsertInBlob_sat {fuel : Nat} (isTop : Bool) (h : e.Inv supply fo)
    (hp : fo g = some p) (hk : p.path <+: key.full)
    (hfuel : key.full.length - p.path.length < fuel) :
    Sat (lockCoupledInsertInBlob supply key value seq condition fuel g isTop p.path.length) e
      (fun out e' => ∃ fo', e'.Inv supply fo' ∧ fo.Extends fo' ∧
        Forest.Inserted root fo fo' (newRecord key value seq) condition out.mutated)
      (fun err _ => err.IsRefusal) := by
  induction fuel generalizing e fo g p isTop with
  | zero => omega
  | succ fuel ih =>
    simp only [lockCoupledInsertInBlob, sat_bind]
    refine exclusive_sat ((insertHeld_sat hlen hval h hp hk).imp fun r e₁ h₁ => ?_)
    obtain ⟨fo₁, hinv, hext, hr⟩ := h₁
    obtain ⟨step, dirty⟩ := r
    obtain ⟨t₁, hp₁⟩ := hext g p hp
    cases step with
    | done out =>
      simp only [sat_pure, sat_bind]
      exact (noteInserted_sat (hinv.release hp₁) hp₁ isTop out.mutated).imp
        fun _ e₂ h₂ => ⟨fo₁, h₂, hext, hr⟩
    | crossing g' d =>
      obtain ⟨hends, ⟨t', hg'⟩, hlt, hle⟩ := hr
      have hlen' : (key.full.take d).length = d := List.length_take_of_le hle
      rw [sat_bind]
      have hrec := ih false (hinv.release hp₁) hg' (List.take_prefix ..)
        (by simp only [hlen']; omega)
      rw [hlen'] at hrec
      refine hrec.imp fun out e₃ h₃ => ?_
      obtain ⟨fo₃, hinv₃, hext₃, hins⟩ := h₃
      simp only [onManager, sat_bind, sat_modify, sat_pure]
      refine ⟨fo₃, ?_, hext.trans hext₃, Forest.Inserted.after hins hends⟩
      split
      · exact hinv₃.markDirty g seq
      · exact hinv₃

end Insert

/-- The descent of a write starts in a blob on the key's way; a root that answers itself says
where the key ends. -/
theorem writeStart_sat (h : e.Inv supply fo) {err : Error → Engine → Prop} :
    Sat (writeStart root key) e (fun s e' => e'.Inv supply fo ∧
      (∃ p, fo s.1 = some p ∧ p.path <+: key.full ∧ p.path.length = s.2.2.1) ∧
      (s.2.2.2 = some .notFound → fo.Leads key.full root .absent)) err := by
  unfold writeStart
  refine (followRoute_sat h key).andThen fun r e₁ h₁ => ?_
  obtain ⟨hinv, hroute⟩ := h₁
  cases r with
  | some route =>
    obtain ⟨t, ht, hle⟩ := hroute route rfl
    simp only [sat_pure]
    exact ⟨hinv, ⟨_, ht, List.take_prefix .., List.length_take_of_le hle⟩, fun hn => by cases hn⟩
  | none =>
    obtain ⟨t, ht⟩ := hinv.wf.top
    refine (pinned_sat hinv ht).andThen fun b e₂ h₂ => ?_
    obtain ⟨rfl, -, hh, hguid⟩ := h₂
    have hnil : ([] : List UInt8) <+: key.full := List.nil_prefix
    rcases hinv.hop ht hnil hh with ⟨g', d, t', hlook, -, hg', -, hle⟩ | ⟨res, hres, hx, hans⟩
    · simp only [List.length_nil] at hlook
      simp only [hlook, lift_ok, sat_bind, sat_pure, onRoutes, sat_modify]
      have hl := hinv.learn ht hguid hg' (v := b.version) (n := 0)
      refine (pin_sat hl hg').imp fun _ e₃ h₃ => ?_
      exact ⟨h₃.1, ⟨_, hg', List.take_prefix .., List.length_take_of_le hle⟩,
        fun hn => by cases hn⟩
    · have hlead := hinv.wf.leads_target ht List.nil_prefix hx
      simp only [List.length_nil] at hres
      simp only [hres, lift_ok, sat_bind, sat_pure]
      have hgoal : res = .notFound → fo.Leads key.full root .absent := by
        rintro rfl
        revert hans hlead
        cases hl : (t.target key.full ([] : List UInt8).length).live with
        | absent => exact fun hlead _ => hlead
        | leaf r =>
          rintro - ⟨hit, hn, -⟩
          cases hn
        | crossing g' d => exact absurd (Target.live_eq_crossing.mp hl) (hx g' d)
      cases res with
      | crossing g' d =>
        revert hans
        split
        · rintro ⟨hit, hn, -⟩
          cases hn
        · intro hn
          cases hn
      | found hit =>
        simp only [sat_pure]
        exact ⟨hinv, ⟨_, ht, List.nil_prefix, rfl⟩, fun hn => by cases hn⟩
      | notFound =>
        simp only [sat_pure]
        exact ⟨hinv, ⟨_, ht, List.nil_prefix, rfl⟩, fun _ => hgoal rfl⟩

theorem insertMultiConditional_sat (h : e.Inv supply fo) (key : SearchKey) (value : List UInt8)
    (seq : Nat) (condition : InsertCondition) :
    Sat (insertMultiConditional supply key value seq condition) e
      (fun out e' => ∃ fo', e'.Inv supply fo' ∧ fo.Extends fo' ∧
        Forest.Inserted root fo fo' (newRecord key value seq) condition out.mutated)
      (fun err _ => err.DeclinesInsert key.len value.length) := by
  unfold insertMultiConditional
  split
  · exact .throw (.inl ⟨by omega, rfl⟩)
  · split
    · exact .throw (.inr (.inl ⟨by omega, rfl⟩))
    · refine (writeStart_sat h).andThen fun s e₁ h₁ => ?_
      obtain ⟨hinv, ⟨p, hp, hk, hlen⟩, -⟩ := h₁
      rw [← hlen]
      refine (lockCoupledInsertInBlob_sat (by omega) (by omega) _ hinv hp hk ?_).mono
        (fun _ _ h => h) fun err _ he => .inr (.inr he)
      rw [SearchKey.length_full]
      omega

section Erase

variable {seq : Nat} {condition : EraseCondition}

/-- The tree of one blob changed by an erasure. -/
theorem Engine.Inv.erased (h : e.Inv supply fo) (hp : fo g = some p) (hk : p.path <+: key.full)
    {F : Frame} {t : Art} {mutated : Bool} (hF : F.Holds t) (hg : F.blobGuid = g)
    (her : Art.erase key.full condition p.tree p.path.length = .done t mutated) :
    (e.putFrame g F).Inv supply (fo.plant g ⟨p.path, t⟩) ∧
      Forest.Erased root fo (fo.plant g ⟨p.path, t⟩) key.full condition mutated := by
  have hm := Art.erase_meets condition (h.wf.tree hp) hk
  rw [her] at hm
  cases mutated with
  | false =>
    obtain ⟨rfl, hadm, hx⟩ := hm
    rw [Forest.plant_same hp]
    refine ⟨h.replant hp hF hg, ⟨_, h.wf.leads_target hp hk hx, ?_⟩, .unchanged fo _⟩
    rw [EraseCondition.admitsTarget_live]
    exact hadm.symm
  | true =>
    obtain ⟨hwt, r, hr, hadm, hred⟩ := hm
    have hx : ∀ g' d, p.tree.target key.full p.path.length ≠ .crossing g' d := by simp [hr]
    obtain ⟨hwf, hwrote⟩ := h.wf.redirect hp hwt hk hred (by simp) hx
    refine ⟨h.plant hp hF hg hwf, ⟨_, h.wf.leads_target hp hk hx, ?_⟩, hwrote⟩
    rw [EraseCondition.admitsTarget_live, hr]
    exact hadm.symm

theorem eraseHeld_sat (h : e.Inv supply fo) (hp : fo g = some p) (hk : p.path <+: key.full) :
    Sat (eraseHeld key condition g p.path.length) e
      (fun step e' => ∃ fo', e'.Inv supply fo' ∧ fo.Extends fo' ∧ match step with
        | .done r => Forest.Erased root fo fo' key.full condition r.mutated
        | .crossing g' d => fo' = fo ∧ (∃ t, fo g' = some ⟨key.full.take d, t⟩) ∧
            p.path.length < d ∧ d ≤ key.full.length)
      (fun _ _ => False) := by
  obtain ⟨b, hb, hh, hguid⟩ := h.blob hp
  have htree := h.wf.tree hp
  unfold eraseHeld
  refine (runFrame_sat hb (eraseInFrame_sat hh htree)).andThen fun r e₁ h₁ => ?_
  obtain ⟨F, rfl, hF⟩ := h₁
  cases r with
  | error er => exact hF.elim
  | ok step =>
    obtain ⟨hFg, hstep⟩ := hF
    simp only [blame, sat_bind, sat_pure]
    cases step with
    | done r =>
      obtain ⟨t, hFt, her⟩ := hstep
      simp only [sat_pure]
      obtain ⟨hinv, her⟩ := h.erased hp hk hFt (hFg.trans hguid) her
      exact ⟨_, hinv, Forest.extends_plant hp t, her⟩
    | crossing g' d =>
      have hm := Art.erase_meets condition htree hk
      rw [hstep.2] at hm
      obtain ⟨⟨t, hg'⟩, hdeep⟩ := h.wf.crossing hp hk hm
      have hinv := h.replant hp hstep.1 (hFg.trans hguid)
      simp only [sat_bind, sat_pure]
      refine (pin_sat hinv hg').imp fun _ e₂ h₂ => ?_
      exact ⟨fo, h₂.1, .refl fo, rfl, ⟨t, hg'⟩, hdeep⟩

theorem lockCoupledEraseInBlob_sat {fuel : Nat} (isTop : Bool) (h : e.Inv supply fo)
    (hp : fo g = some p) (hk : p.path <+: key.full)
    (hfuel : key.full.length - p.path.length < fuel) :
    Sat (lockCoupledEraseInBlob key seq condition fuel g isTop p.path.length) e
      (fun out e' => ∃ fo', e'.Inv supply fo' ∧
        Forest.Erased root fo fo' key.full condition out.mutated)
      (fun _ _ => False) := by
  induction fuel generalizing e g p isTop with
  | zero => omega
  | succ fuel ih =>
    simp only [lockCoupledEraseInBlob, sat_bind]
    refine exclusive_sat ((eraseHeld_sat h hp hk).imp fun step e₁ h₁ => ?_)
    obtain ⟨fo₁, hinv, hknown, hstep⟩ := h₁
    obtain ⟨t₁, hp₁⟩ := hknown g p hp
    have hrel := hinv.release hp₁
    cases step with
    | done r =>
      have hbooks : ∀ {bm}, (e₁.bm.releaseExclusive g).SameBlobs bm →
          ∃ fo', Engine.Inv supply { e₁ with bm } fo' ∧
            Forest.Erased root fo fo' key.full condition r.mutated := fun hs =>
        ⟨fo₁, hrel.books hs, hstep⟩
      simp only [onManager, sat_bind, sat_modify, sat_pure]
      apply hbooks
      split
      · split
        · exact BufferManager.noteCompactionCandidate_same _ g
        · exact (BufferManager.noteCompactionCandidate_same _ g).trans
            (BufferManager.markDirtyCached_same _ g seq)
      · exact .refl _
    | crossing g' d =>
      obtain ⟨rfl, ⟨t, hg'⟩, hlt, hle⟩ := hstep
      have hlen' : (key.full.take d).length = d := List.length_take_of_le hle
      have hrec := ih false hrel hg' (List.take_prefix ..)
        (by simp only [hlen']; omega)
      rwa [hlen'] at hrec

theorem eraseMultiConditional_sat (h : e.Inv supply fo) (key : SearchKey) (seq : Nat)
    (condition : EraseCondition) :
    Sat (eraseMultiConditional root key seq condition) e
      (fun out e' => ∃ fo', e'.Inv supply fo' ∧
        Forest.Erased root fo fo' key.full condition out.mutated)
      (fun _ _ => False) := by
  unfold eraseMultiConditional
  have hstart : Sat (writeStart root key) e _ fun _ _ => False := writeStart_sat h
  refine hstart.andThen fun s e₁ h₁ => ?_
  · obtain ⟨hinv, ⟨p, hp, hk, hlen⟩, habsent⟩ := h₁
    have hgo : Sat (lockCoupledEraseInBlob key seq condition (key.len + 1) _ _ _) e₁ _ _ :=
      lockCoupledEraseInBlob_sat s.2.1 hinv hp hk (by rw [SearchKey.length_full]; omega)
    rw [hlen] at hgo
    split
    · rename_i hnf
      exact .pure ⟨fo, hinv, ⟨_, habsent hnf, rfl⟩, .unchanged fo _⟩
    · exact hgo

end Erase

end ManyBlobs

end Holt
