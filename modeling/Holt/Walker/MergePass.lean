import Holt.Walker.Merge

/-! Merging as maintenance runs it: a queued parent is taken up, its children are folded one after
the other, and the parent is marked dirty once the whole pass over it went well. -/

namespace Holt

open Holt.Lib Holt.Frame

namespace BufferManager

variable {I : Type}

/-- Tag a blob as newer than the store; nothing happens to one that is not in memory. -/
def markDirty (bm : BufferManager I) (guid : BlobGuid) (seq : Nat) : BufferManager I :=
  if guid ∈ bm.cache then bm.markDirtyCached guid seq else bm

def popMergeCandidates (bm : BufferManager I) (limit : Nat) : List BlobGuid × BufferManager I :=
  (bm.mergeCandidates.take limit, { bm with mergeCandidates := bm.mergeCandidates.drop limit })

end BufferManager

/-- Maintenance that works on the buffer manager alone. -/
abbrev PassM := EStateM Error (BufferManager Frame)

/-- The parent's bytes change in place, so they stay changed when the pass over them fails. -/
def foldChildren (guid : BlobGuid) (b : CachedBlob Frame) : PassM Merging := fun bm =>
  match tryMergeChildren structuralSeq ⟨bm, b.image, 0, 0⟩ with
  | .ok _ s => .ok s ((s.bm.putImage guid s.frame).releaseExclusive guid)
  | .error e s => .error e ((s.bm.putImage guid s.frame).releaseExclusive guid)

/-- Publish a parent that has folded something. -/
def noteMerged (guid : BlobGuid) (s : Merging) : PassM Unit := do
  modify fun bm => bm.markDirty guid structuralSeq
  modify fun bm => if s.frame.numExtBlobs ≠ 0 then bm.noteMergeCandidate guid else bm

def pinParent (guid : BlobGuid) : PassM (CachedBlob Frame) := fun bm =>
  match bm.pin guid with
  | .error e => .error e bm
  | .ok bm =>
    match bm.view guid with
    | none => .error (.internal "pinned blob left the cache") bm
    | some b => .ok b bm

/-- One parent's turn, with the number of children folded. -/
def mergeParent (guid : BlobGuid) : PassM Nat := do
  let bm ← get
  if bm.hasBlob guid then
    let b ← pinParent guid
    let s ← foldChildren guid b
    if 0 < s.merged then noteMerged guid s else pure ()
    pure s.merged
  else pure 0

def mergeCandidateParent (guid : BlobGuid) : PassM Unit := do
  let _ ← mergeParent guid

def mergeParents : List BlobGuid → PassM Nat
  | [] => pure 0
  | guid :: rest => do
    let merged ← mergeParent guid
    let more ← mergeParents rest
    pure (merged + more)

def runMergePass : PassM Nat := do
  let bm ← get
  let (parents, bm) := bm.popMergeCandidates 256
  set bm
  mergeParents parents

/-! ## The dirty map through a pass -/

namespace BufferManager

variable {I : Type} {bm bm₁ bm₂ : BufferManager I}

/-- Blobs leave the dirty map only to be deleted, and none enters it. -/
structure Clears (bm bm' : BufferManager I) : Prop where
  queued : ∀ a, a ∈ bm.pendingDeletes → a ∈ bm'.pendingDeletes
  left : ∀ a, a ∈ bm'.dirty → a ∈ bm.dirty
  gone : ∀ a, a ∈ bm.dirty → a ∈ bm'.dirty ∨ a ∈ bm'.pendingDeletes

theorem Clears.refl (bm : BufferManager I) : bm.Clears bm :=
  ⟨fun _ => id, fun _ => id, fun _ => .inl⟩

theorem Clears.trans (h : bm.Clears bm₁) (h' : bm₁.Clears bm₂) : bm.Clears bm₂ := by
  refine ⟨fun a ha => h'.queued a (h.queued a ha), fun a ha => h.left a (h'.left a ha),
    fun a ha => ?_⟩
  rcases h.gone a ha with ha | ha
  · exact h'.gone a ha
  · exact .inr (h'.queued a ha)

theorem Clears.of_eq (hd : bm₁.dirty = bm.dirty) (hp : bm₁.pendingDeletes = bm.pendingDeletes) :
    bm.Clears bm₁ :=
  ⟨fun _ h => hp ▸ h, fun _ h => hd ▸ h, fun _ h => .inl (hd ▸ h)⟩

theorem Clears.pin {c : BlobGuid} (h : bm.pin c = .ok bm₁) : bm.Clears bm₁ :=
  .of_eq (pin_dirty h) (pin_pendingDeletes h)

theorem Clears.releaseExclusive (bm : BufferManager I) (c : BlobGuid) :
    bm.Clears (bm.releaseExclusive c) := by
  unfold BufferManager.releaseExclusive
  split <;> exact .of_eq rfl rfl

theorem Clears.putImage (bm : BufferManager I) (c : BlobGuid) (image : I) :
    bm.Clears (bm.putImage c image) := by
  unfold BufferManager.putImage
  split <;> exact .of_eq rfl rfl

theorem putImage_pendingDeletes (bm : BufferManager I) (c : BlobGuid) (image : I) :
    (bm.putImage c image).pendingDeletes = bm.pendingDeletes := by
  unfold putImage
  split <;> rfl

theorem releaseExclusive_pendingDeletes (bm : BufferManager I) (c : BlobGuid) :
    (bm.releaseExclusive c).pendingDeletes = bm.pendingDeletes := by
  unfold BufferManager.releaseExclusive
  split <;> rfl

theorem Clears.markForDelete (bm : BufferManager I) (c : BlobGuid) (seq : Nat) :
    bm.Clears (bm.markForDelete c seq) := by
  refine ⟨fun a ha => mem_minMerge.mpr (.inr ha), fun a ha => (AList.mem_erase.mp ha).2,
    fun a ha => ?_⟩
  by_cases hac : a = c
  · exact .inr (mem_minMerge.mpr (.inl hac))
  · exact .inl (AList.mem_erase.mpr ⟨hac, ha⟩)

end BufferManager

section Clears

variable {α : Type}

/-- A program of the pass that clears. -/
def Clearing (x : MergeM α) : Prop := Moves (fun s s' => s.bm.Clears s'.bm) x

theorem Clearing.bind {β : Type} {x : MergeM α} {f : α → MergeM β} (hx : Clearing x)
    (hf : ∀ a, Clearing (f a)) : Clearing (x >>= f) :=
  Moves.bind (fun h h' => h.trans h') hx hf

theorem Clearing.get_bind {f : Merging → MergeM α} (hf : ∀ s, Clearing (f s)) :
    Clearing (get >>= f) :=
  Clearing.bind (Moves.get fun _ => .refl _) hf

theorem Clearing.pure (a : α) : Clearing (Pure.pure a : MergeM α) := Moves.pure (fun _ => .refl _) a

theorem Clearing.throw (e : Error) : Clearing (MonadExcept.throw e : MergeM α) :=
  Moves.throw (fun _ => .refl _) e

theorem Clearing.lift (x : Except Error α) : Clearing (Lib.lift x : MergeM α) :=
  Moves.lift (fun _ => .refl _) x

theorem onParent_clears (x : FrameM α) : Clearing (onParent x) := by
  intro s
  apply (onParent_sat (sat_true x s.frame)).mono <;>
    · rintro _ _ ⟨F, rfl, -⟩
      exact .refl _

theorem ifMoved_clears (newSlot oldSlot : Slot) (rewire : FrameM Unit) :
    Clearing (ifMoved newSlot oldSlot rewire) := by
  unfold ifMoved
  split
  · exact onParent_clears rewire
  · exact Clearing.pure ()

theorem pinChild_clears (c : BlobGuid) : Clearing (pinChild c) := by
  intro s
  unfold Sat pinChild
  cases hpin : s.bm.pin c with
  | error e => exact .refl _
  | ok bm =>
    cases hview : bm.view c with
    | none =>
      simp only [hview]
      exact .pin hpin
    | some b =>
      simp only [hview]
      exact .pin hpin

theorem withChild_clears (c : BlobGuid) {x : MergeM α} (hx : Clearing x) :
    Clearing (withChild c x) := by
  intro s
  apply withChild_sat
  apply (hx s).mono <;>
    · intro _ s' h
      exact h.trans (.releaseExclusive ..)

theorem isMergeable_clears (slot : Slot) : Clearing (isMergeable slot) := by
  apply Clearing.get_bind
  intro s
  apply (Clearing.lift _).bind
  intro bn
  exact (pinChild_clears _).bind fun _ => Clearing.pure _

theorem mergeBlob_clears (seq : Nat) (slot : Slot) : Clearing (mergeBlob seq slot) := by
  apply Clearing.get_bind
  intro s
  apply (Clearing.lift _).bind
  intro bn
  apply (pinChild_clears _).bind
  intro child
  apply (withChild_clears _ (onParent_clears _)).bind
  intro cloned
  cases cloned with
  | none => exact Clearing.throw _
  | some newRoot =>
    apply (onParent_clears _).bind
    intro inlinedRoot
    apply (onParent_clears _).bind
    intro _
    exact Clearing.bind (Moves.update fun s => .markForDelete s.bm bn.childBlobGuid seq)
      fun _ => Clearing.pure _

theorem mergeAtBlobNode_clears (seq : Nat) (slot : Slot) : Clearing (mergeAtBlobNode seq slot) := by
  apply Clearing.get_bind
  intro s
  split
  · split
    · exact Clearing.throw _
    · refine Clearing.bind (Moves.update fun s => .refl s.bm) fun _ => ?_
      apply (isMergeable_clears slot).bind
      intro mergeable
      split
      · apply (mergeBlob_clears seq slot).bind
        intro newSlot
        exact Clearing.bind (Moves.update fun s => .refl s.bm) fun _ => Clearing.pure _
      · exact Clearing.pure _
  · exact Clearing.throw _

theorem mergeEach_clears {recur : Slot → MergeM Slot} (hrec : ∀ x, Clearing (recur x))
    (slot : Slot) (ntype : NodeType) (pairs : List (UInt8 × Slot)) :
    Clearing (mergeEach recur slot ntype pairs) := by
  induction pairs with
  | nil => exact Clearing.pure ()
  | cons pair pairs ih =>
    apply (hrec pair.2).bind
    intro newChild
    exact (ifMoved_clears _ _ _).bind fun _ => ih

theorem tryMergeSubtree_clears (seq fuel : Nat) (slot : Slot) :
    Clearing (tryMergeSubtree seq fuel slot) := by
  induction fuel generalizing slot with
  | zero => exact Clearing.throw _
  | succ fuel ih =>
    apply Clearing.get_bind
    intro s
    apply (Clearing.lift _).bind
    intro ntype
    have hinner : Clearing (do
        let n ← Lib.lift (readInner s.frame slot ntype "merge_under_inner")
        let pairs ← Lib.lift
          (mergePairs (n.edges "merge_under_inner: Node48 index out of range"))
        mergeEach (tryMergeSubtree seq fuel) slot ntype pairs
        pure slot) := by
      apply (Clearing.lift _).bind
      intro n
      apply (Clearing.lift _).bind
      intro pairs
      exact (mergeEach_clears ih slot ntype pairs).bind fun _ => Clearing.pure _
    cases ntype with
    | invalid => exact Clearing.throw _
    | emptyRoot => exact Clearing.pure _
    | leaf => exact Clearing.pure _
    | prefixNode =>
      apply (Clearing.lift _).bind
      intro p
      apply (ih p.child).bind
      intro newChild
      exact (ifMoved_clears _ _ _).bind fun _ => Clearing.pure _
    | blob => exact mergeAtBlobNode_clears seq slot
    | node4 => exact hinner
    | node16 => exact hinner
    | node48 => exact hinner
    | node256 => exact hinner

theorem tryMergeChildren_clears (seq : Nat) : Clearing (tryMergeChildren seq) := by
  apply Clearing.get_bind
  intro s
  exact (tryMergeSubtree_clears _ _ _).bind fun _ => ifMoved_clears _ _ _

end Clears

/-! ## A pass over one parent -/

variable {fo : Forest} {g : BlobGuid} {t : Art}

theorem Art.Folds.known {trees : BlobGuid → Option Art} {t' : Art} {gs : List BlobGuid}
    (h : Folds trees t gs t') : ∀ c ∈ gs, (trees c).isSome = true := by
  induction h with
  | none => exact fun c hc => absurd hc List.not_mem_nil
  | fold _ _ tree _ ih =>
    intro c hc
    rcases List.mem_cons.mp hc with rfl | hc
    · rw [tree, Option.isSome_some]
    · exact ih c hc

/-- The blob `g` holds `t`, and `fo` knows the trees behind its crossings. A blob it crosses to
holds its tree or cannot be read. -/
structure Parent (bm : BufferManager Frame) (fo : Forest) (g : BlobGuid) (t : Art) : Prop where
  holds : ∃ b, bm.view g = some b ∧ b.image.Holds t
  wf : ∃ π, t.Wf π
  crosses : Crosses fo g t
  trees : ∀ {c q}, fo c = some q → q.tree.Wf q.path
  serves : Serves fo g bm

/-- The pass keeps the parent's tree, with some blobs folded in, also where it fails. -/
theorem tryMergeChildren_sat {s : Merging} {π : List UInt8} (seq : Nat)
    (hwf : ∀ {c q}, fo c = some q → q.tree.Wf q.path) (hc : Crosses fo g t)
    (hsv : Serves fo g s.bm) (hh : s.frame.Holds t) (hw : t.Wf π) :
    Sat (tryMergeChildren seq) s
      (fun _ s' => ∃ gs t', Art.Folds (fun c => (fo c).map Plot.tree) t gs t' ∧
        s'.frame.Holds t' ∧ s'.frame.blobGuid = s.frame.blobGuid ∧ s.bm.Drops s'.bm gs)
      (fun _ s' => ∃ gs t', Art.Folds (fun c => (fo c).map Plot.tree) t gs t' ∧
        s'.frame.Holds t' ∧ s'.frame.blobGuid = s.frame.blobGuid ∧ s.bm.Drops s'.bm gs) := by
  obtain ⟨fp, hr, ha⟩ := hh
  have hsub : Sat (tryMergeSubtree seq (s.frame.numSlots + 1) s.frame.rootSlot) s
      (fun slot' s' => Traced fo ∅ t s s' slot')
      (fun _ s' => Traced fo ∅ t s s' s.frame.rootSlot) :=
    tryMergeSubtree_traced hwf hc hsv hr hw (Set.empty_disjoint _) (by rwa [Set.empty_union])
      (hr.height_lt ha subset_rfl)
  simp only [tryMergeChildren, sat_bind, sat_get]
  apply hsub.mono
  · rintro newRoot s₁ ⟨gs, t', fp', hfold, hb, hdrop⟩
    unfold ifMoved
    split
    · have hmove : Sat (modify fun F => { F with rootSlot := newRoot } : FrameM Unit) s₁.frame
          (fun _ F => F = { s₁.frame with rootSlot := newRoot }) fun _ _ => False :=
        (sat_modify ..).mpr rfl
      refine (onParent_sat hmove).mono ?_ fun _ _ he => he.elim fun _ h => h.2.elim
      rintro _ _ ⟨F, rfl, rfl⟩
      exact ⟨gs, t', hfold, hb.holds, hb.same.blobGuid, hdrop⟩
    · rename_i hmoved
      obtain rfl : newRoot = s.frame.rootSlot := not_not.mp hmoved
      refine .pure ⟨gs, t', hfold, ?_, hb.same.blobGuid, hdrop⟩
      have := hb.holds
      rwa [← hb.same.rootSlot] at this
  · rintro _ s₁ ⟨gs, t', fp', hfold, hb, hdrop⟩
    refine ⟨gs, t', hfold, ?_, hb.same.blobGuid, hdrop⟩
    have := hb.holds
    rwa [← hb.same.rootSlot] at this

theorem Parent.without {bm : BufferManager Frame} (h : Parent bm fo g t) :
    Parent bm (Function.update fo g none) g t := by
  have hfo : ∀ {c}, c ≠ g → Function.update fo g none c = fo c :=
    fun hne => Function.update_of_ne hne ..
  refine ⟨h.holds, h.wf, fun hbelow => ?_, fun {c q} hq => ?_, fun {c q} hq hne => ?_⟩
  · obtain ⟨hne, q, hq⟩ := h.crosses hbelow
    exact ⟨hne, q, (hfo hne).trans hq⟩
  · by_cases hne : c = g
    · subst hne
      rw [Function.update_self] at hq
      cases hq
    · exact h.trees ((hfo hne).symm.trans hq)
  · exact h.serves ((hfo hne).symm.trans hq) hne

theorem foldChildren_failure {bm : BufferManager Frame} {b : CachedBlob Frame}
    (h : Parent bm fo g t) (hb : bm.view g = some b) (hpending : g ∉ bm.pendingDeletes) :
    Sat (foldChildren g b) bm (fun _ _ => True) (fun _ bm' => g ∈ bm'.dirty ↔ g ∈ bm.dirty) := by
  have h' := h.without
  obtain ⟨b', hb', hholds⟩ := h.holds
  obtain ⟨π, hw⟩ := h.wf
  cases hb.symm.trans hb'
  have hpass := (tryMergeChildren_sat (s := ⟨bm, b.image, 0, 0⟩) structuralSeq h'.trees h'.crosses
    h'.serves hholds hw).and (tryMergeChildren_clears structuralSeq _)
  unfold Sat foldChildren
  cases hrun : tryMergeChildren structuralSeq ⟨bm, b.image, 0, 0⟩ with
  | ok u s => trivial
  | error e s =>
    obtain ⟨⟨gs, t', hfold, -, -, hdrop⟩, hclears⟩ := hpass.of_error hrun
    have hgs : g ∉ gs := by
      intro hm
      have := hfold.known g hm
      rw [Function.update_self] at this
      cases this
    have hall : bm.Clears ((s.bm.putImage g s.frame).releaseExclusive g) :=
      hclears.trans ((BufferManager.Clears.putImage ..).trans (.releaseExclusive ..))
    have hkept : g ∉ ((s.bm.putImage g s.frame).releaseExclusive g).pendingDeletes := by
      rw [BufferManager.releaseExclusive_pendingDeletes, BufferManager.putImage_pendingDeletes]
      exact fun hm => hpending ((hdrop.pending hgs).mp hm)
    exact ⟨hall.left g, fun hd => (hall.gone g hd).resolve_right hkept⟩

theorem Parent.pin {bm bm₁ : BufferManager Frame} (h : Parent bm fo g t) (hp : bm.pin g = .ok bm₁) :
    Parent bm₁ fo g t := by
  obtain ⟨b, hb, hholds⟩ := h.holds
  exact ⟨⟨b, (BufferManager.view_pin hp g).trans hb, hholds⟩, h.wf, h.crosses, h.trees,
    Serves.drops h.serves (.pin hp)⟩

theorem pinParent_sat (g : BlobGuid) (bm : BufferManager Frame) :
    Sat (pinParent g) bm (fun b bm₁ => bm.pin g = .ok bm₁ ∧ bm₁.view g = some b)
      (fun _ bm₁ => bm₁.dirty = bm.dirty) := by
  unfold Sat pinParent
  cases hp : bm.pin g with
  | error e => rfl
  | ok bm₁ =>
    cases hv : bm₁.view g with
    | none =>
      simp only [hv]
      exact BufferManager.pin_dirty hp
    | some b => simp [hv]

/-- A turn that fails leaves the parent in the dirty map if it was there, and does not put it
there. -/
theorem mergeParent_failure {bm : BufferManager Frame} (h : Parent bm fo g t) :
    Sat (mergeParent g) bm (fun _ _ => True) (fun _ bm' => g ∈ bm'.dirty ↔ g ∈ bm.dirty) := by
  simp only [mergeParent, sat_bind, sat_get]
  split
  · rename_i hhas
    have hpending : g ∉ bm.pendingDeletes := by
      simp only [BufferManager.hasBlob, BufferManager.isPendingDelete, Bool.and_eq_true,
        Bool.not_eq_true', decide_eq_false_iff_not] at hhas
      exact hhas.1
    rw [sat_bind]
    apply (pinParent_sat g bm).mono
    · rintro b bm₁ ⟨hp, hb⟩
      have hpending₁ : g ∉ bm₁.pendingDeletes := by
        rwa [BufferManager.pin_pendingDeletes hp]
      apply (foldChildren_failure (h.pin hp) hb hpending₁).bind
      · intro s bm₂ _
        split
        · simp only [noteMerged, sat_bind, sat_modify, sat_pure]
        · simp only [sat_pure]
      · intro e bm₂ he
        rw [he, BufferManager.pin_dirty hp]
    · rintro e bm₁ hsame
      rw [hsame]
  · exact .pure trivial

/-! ## A pass over the queue -/

/-- The two ways into the pass: `Tree::compact` takes the parents one by one, a checkpoint round
takes what is queued. -/
inductive MergeCall
  | candidateParent (guid : BlobGuid)
  | pass
  deriving DecidableEq, Repr

namespace MergeCall

def run : MergeCall → PassM Unit
  | .candidateParent guid => mergeCandidateParent guid
  | .pass => do
    let _ ← runMergePass

/-- The call comes to the parent `g` while the buffer manager is `bm₁`. -/
def TakesUp (call : MergeCall) (bm : BufferManager Frame) (g : BlobGuid)
    (bm₁ : BufferManager Frame) : Prop :=
  match call with
  | .candidateParent guid => g = guid ∧ bm₁ = bm
  | .pass => ∃ before after n, (bm.popMergeCandidates 256).1 = before ++ g :: after ∧
      mergeParents before (bm.popMergeCandidates 256).2 = .ok n bm₁

theorem mergeParents_stops {parents : List BlobGuid} {bm bm' : BufferManager Frame} {e : Error}
    (h : mergeParents parents bm = .error e bm') :
    ∃ before g after n bm₁, parents = before ++ g :: after ∧ mergeParents before bm = .ok n bm₁ ∧
      mergeParent g bm₁ = .error e bm' := by
  induction parents generalizing bm with
  | nil => cases h
  | cons g rest ih =>
    rcases bind_error_iff.mp h with hfail | ⟨n, bm₁, hg, hrest⟩
    · exact ⟨[], g, rest, 0, bm, rfl, rfl, hfail⟩
    · rcases bind_error_iff.mp hrest with hrest | ⟨m, bm₂, -, hpure⟩
      · obtain ⟨before, g', after, m, bm₂, rfl, hbefore, hfail⟩ := ih hrest
        refine ⟨g :: before, g', after, n + m, bm₂, rfl, ?_, hfail⟩
        exact bind_ok_iff.mpr ⟨n, bm₁, hg, bind_ok_iff.mpr ⟨m, bm₂, hbefore, rfl⟩⟩
      · cases hpure

/-- A call that fails, fails at the parent it has come to. -/
theorem run_stops {call : MergeCall} {bm bm' : BufferManager Frame} {e : Error}
    (h : call.run bm = .error e bm') :
    ∃ g bm₁, call.TakesUp bm g bm₁ ∧ mergeParent g bm₁ = .error e bm' := by
  cases call with
  | candidateParent guid =>
    refine ⟨guid, bm, ⟨rfl, rfl⟩, ?_⟩
    rcases bind_error_iff.mp h with hfail | ⟨n, bm₁, -, hpure⟩
    · exact hfail
    · cases hpure
  | pass =>
    rcases bind_error_iff.mp h with hpass | ⟨n, bm₁, -, hpure⟩
    · have hloop : mergeParents (bm.popMergeCandidates 256).1 (bm.popMergeCandidates 256).2 =
          .error e bm' := hpass
      obtain ⟨before, g, after, n, bm₁, hsplit, hbefore, hfail⟩ := mergeParents_stops hloop
      exact ⟨g, bm₁, ⟨before, after, n, hsplit, hbefore⟩, hfail⟩
    · cases hpure

/-- When a merge fails after it has queued a child for deletion, the parent that dropped the child
is in the dirty map exactly when it was there as its turn came. -/
theorem failed_merge_dirty_iff {call : MergeCall} {bm bm' : BufferManager Frame} {e : Error}
    (h : call.run bm = .error e bm') :
    ∃ g bm₁, call.TakesUp bm g bm₁ ∧ mergeParent g bm₁ = .error e bm' ∧
      ∀ fo t, Parent bm₁ fo g t →
        (∃ c, c ∈ bm'.pendingDeletes ∧ c ∉ bm₁.pendingDeletes) →
        ((∀ c, c ∈ bm'.pendingDeletes → c ∉ bm₁.pendingDeletes → g ∈ bm'.dirty) ↔
          g ∈ bm₁.dirty) := by
  obtain ⟨g, bm₁, htakes, hfail⟩ := run_stops h
  refine ⟨g, bm₁, htakes, hfail, ?_⟩
  rintro fo t hparent ⟨c, hc, hnew⟩
  have hdirty := (mergeParent_failure hparent).of_error hfail
  constructor
  · exact fun hall => hdirty.mp (hall c hc hnew)
  · exact fun hd _ _ _ => hdirty.mpr hd

/-- A blob that crosses to the blobs 1 and 2 below the bytes `a` and `b`. -/
def crossBlob : Frame :=
  { Frame.blank 0 with
    numSlots := 3
    rootSlot := 1
    spaceUsed := 45336
    numExtBlobs := 2
    slots := fun s =>
      if s = 1 then (SlotEntry.live .node4 45056).raw
      else if s = 2 then (SlotEntry.live .blob 45080).raw
      else if s = 3 then (SlotEntry.live .blob 45208).raw else 0
    bodies := fun s =>
      if s = 1 then .inner (.node4 [(97, 2), (98, 3)])
      else if s = 2 then .blob ⟨[], 1⟩
      else if s = 3 then .blob ⟨[], 2⟩ else .emptyRoot }

def crossTree : Art := .branch 97 (.blob [] 1) 98 (.blob [] 2)

theorem crossBlob_holds : crossBlob.Holds crossTree := by
  have hnode : ∀ s b, s ≠ 0 → s ≤ 3 → b.ntype ≠ .invalid →
      (∃ off, off % 8 = 0 ∧ off + sizeOfNode b.ntype ≤ pageSize ∧
        crossBlob.slots s = (SlotEntry.live b.ntype off).raw) →
      crossBlob.bodies s = b → crossBlob.NodeAt s b := by
    rintro s b h0 hle hi ⟨off, h8, hfit, hslot⟩ hbody
    exact ⟨typed_live h0 hle hi h8 hfit hslot, .inr hbody⟩
  have hroot : crossBlob.NodeAt 1 (.inner (.node4 (insertAsc 98 3 [(97, 2)]))) :=
    hnode _ _ (by decide) (by decide) (by decide) ⟨45056, by decide, by decide, rfl⟩ rfl
  have ha : crossBlob.Rep (.blob [] 1) 2 {.slot 2} :=
    ⟨hnode _ _ (by decide) (by decide) (by decide) ⟨45080, by decide, by decide, rfl⟩ rfl, rfl⟩
  have hb : crossBlob.Rep (.blob [] 2) 3 {.slot 3} :=
    ⟨hnode _ _ (by decide) (by decide) (by decide) ⟨45208, by decide, by decide, rfl⟩ rfl, rfl⟩
  refine ⟨_, rep_branch (by decide) hroot ha hb (by simp) (by simp [crossBlob])
    (by simp [crossBlob]), ?_⟩
  refine ⟨show 3 ≤ maxSlots by decide, show dataAreaStart ≤ 45336 by decide,
    show 45336 ≤ pageSize by decide, show 45336 % 8 = 0 by decide, ⟨fun _ => [],
      ⟨fun _ => rfl, fun _ => List.nodup_nil, by simp, by simp⟩, by simp⟩, ?_, ?_⟩
  · rintro s (hs | hs | hs) <;> cases hs
    · exact ⟨by decide, show 1 ≤ 3 by decide⟩
    · exact ⟨by decide, show 3 ≤ 3 by decide⟩
    · exact ⟨by decide, show 2 ≤ 3 by decide⟩
  · rintro a (ha | ha | ha) <;> cases ha

/-- The parent in the dirty map, one empty child in memory, and one child that cannot be read. -/
def crossManager (child : Frame) : BufferManager Frame :=
  { BufferManager.empty with
    cache := ((∅ : AList _).insert 1 ⟨child, 0⟩).insert 0 ⟨crossBlob, 0⟩
    dirty := (∅ : AList _).insert 0 5 }

def crossForest : Forest := fun c =>
  if c = 1 then some ⟨[97], .emptyRoot⟩ else if c = 2 then some ⟨[98], .emptyRoot⟩ else none

theorem crossManager_parent {child : Frame} (h : child.Holds .emptyRoot) :
    Parent (crossManager child) crossForest 0 crossTree := by
  refine ⟨⟨⟨crossBlob, 0⟩, rfl, crossBlob_holds⟩, ⟨[], fun b _ => ?_⟩, fun hbelow => ?_,
    fun {c q} hq => ?_, fun {c q} hq _ => ?_⟩
  · change Art.Wf [b] (if b = 97 then _ else _)
    split <;> exact Nat.zero_le _
  · cases hbelow with
    | inner hb hin =>
      rcases of_decide_eq_true hb with rfl | rfl
      · cases hin
        exact ⟨by decide, _, rfl⟩
      · cases hin
        exact ⟨by decide, _, rfl⟩
  · unfold crossForest at hq
    split_ifs at hq <;> cases hq <;> exact trivial
  · unfold crossForest at hq
    split_ifs at hq with h1 h2
    · cases hq
      subst h1
      exact .inr ⟨AList.notMem_empty 1, ⟨child, 0⟩, rfl, h⟩
    · subst h2
      refine .inl ⟨fun hm => ?_, .inr (AList.notMem_empty 2)⟩
      rcases (AList.mem_insert _).mp hm with h | h
      · cases h
      · rcases (AList.mem_insert _).mp h with h | h
        · cases h
        · exact AList.notMem_empty 2 h

theorem failed_merge_dirty_cross : ∃ child e bm', Frame.init 1 = .ok child ∧
    (MergeCall.candidateParent 0).run (crossManager child) = .error e bm' ∧
      1 ∈ bm'.pendingDeletes ∧ 0 ∈ bm'.dirty := by
  have hrun : (Frame.init 1).toOption.any (fun child =>
      fails (MergeCall.candidateParent 0).run (crossManager child) fun _ bm' =>
        decide (1 ∈ bm'.pendingDeletes)) = true := by decide +kernel
  obtain ⟨child, hinit, hholds, -⟩ := Frame.init_holds 1
  rw [hinit, Except.toOption, Option.any_some] at hrun
  obtain ⟨e, bm', hfail, hqueued⟩ := fails_iff.mp hrun
  replace hqueued := of_decide_eq_true hqueued
  obtain ⟨g, bm₁, ⟨hg, hbm⟩, -, hiff⟩ := failed_merge_dirty_iff hfail
  subst hg hbm
  have hnew : 1 ∉ (crossManager child).pendingDeletes := AList.notMem_empty 1
  have hdirty : 0 ∈ (crossManager child).dirty := (AList.mem_insert _).mpr (.inl rfl)
  have hall := (hiff _ _ (crossManager_parent hholds) ⟨1, hqueued, hnew⟩).mpr hdirty
  exact ⟨child, e, bm', hinit, hfail, hqueued, hall 1 hqueued hnew⟩

/-- Both keys of the pair moved to blobs of their own. -/
def twoSpills : WalkM Unit := do
  spilloverBlob GuidSupply.counting 0 3
  spilloverBlob GuidSupply.counting 0 4

/-- Everything has reached the store, and the blob 2 cannot be read any more. -/
def unreadable (e : Engine) : BufferManager Frame :=
  let bm := (e.bm.markDirtyCached 0 5).flushDirtyInline.1
  { bm with cache := bm.cache.erase 2, store := bm.store.erase 2 }

/-- The pass folds the blob 1 and fails at the blob 2. The next flush deletes the blob 1 while the
parent in the store still crosses to both. -/
theorem failed_merge_loses_child : ∃ e er bm', twoSpills (pairEngine 45128) = .ok () e ∧
    (MergeCall.candidateParent 0).run (unreadable e) = .error er bm' ∧
      1 ∈ bm'.pendingDeletes ∧ 1 ∉ (unreadable e).pendingDeletes ∧ 0 ∉ bm'.dirty ∧
      (bm'.view 0).map (fun b => b.image.numExtBlobs) = some 1 ∧
      1 ∉ bm'.flushDirtyInline.1.flushPendingDeletesInline.store ∧
      (bm'.flushDirtyInline.1.flushPendingDeletesInline.store.lookup 0).map
        (fun F => F.numExtBlobs) = some 2 := by
  have hrun : returns twoSpills (pairEngine 45128) (fun _ e =>
      fails (MergeCall.candidateParent 0).run (unreadable e) fun _ bm' =>
        decide (1 ∈ bm'.pendingDeletes ∧ 1 ∉ (unreadable e).pendingDeletes ∧ 0 ∉ bm'.dirty ∧
          (bm'.view 0).map (fun b => b.image.numExtBlobs) = some 1 ∧
          1 ∉ bm'.flushDirtyInline.1.flushPendingDeletesInline.store ∧
          (bm'.flushDirtyInline.1.flushPendingDeletesInline.store.lookup 0).map
            (fun F => F.numExtBlobs) = some 2)) = true := by decide +kernel
  obtain ⟨⟨⟩, e, he, hrest⟩ := returns_iff.mp hrun
  obtain ⟨er, bm', hfail, hfacts⟩ := fails_iff.mp hrest
  exact ⟨e, er, bm', he, hfail, of_decide_eq_true hfacts⟩

end MergeCall

end Holt
