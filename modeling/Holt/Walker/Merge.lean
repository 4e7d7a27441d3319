import Holt.Store.Bookkeeping
import Holt.Walker.Compact

/-! Folding small child blobs back into the blob that crosses to them. -/

namespace Holt

open Holt.Lib Holt.Frame

/-- The parent's frame in hand, beside the buffer manager, and the counters of the pass. -/
structure Merging where
  bm : BufferManager Frame
  frame : Frame
  merged : Nat
  inspected : Nat

abbrev MergeM := EStateM Error Merging

def onParent {α : Type} (x : FrameM α) : MergeM α := fun s =>
  match x s.frame with
  | .ok a F => .ok a { s with frame := F }
  | .error err F => .error err { s with frame := F }

/-- Rewrite a pointer if what it points to has moved. -/
def ifMoved (newSlot oldSlot : Slot) (rewire : FrameM Unit) : MergeM Unit :=
  if newSlot ≠ oldSlot then onParent rewire else pure ()

/-- The child behind a pin. -/
def pinChild (guid : BlobGuid) : MergeM (CachedBlob Frame) := fun s =>
  match s.bm.pin guid with
  | .error err => .error err s
  | .ok bm =>
    match bm.view guid with
    | none => .error (.internal "pinned blob left the cache") { s with bm }
    | some b => .ok b { s with bm }

/-- Hold the child's exclusive latch. -/
def withChild {α : Type} (guid : BlobGuid) (x : MergeM α) : MergeM α := fun s =>
  match x s with
  | .ok a s => .ok a { s with bm := s.bm.releaseExclusive guid }
  | .error err s => .error err { s with bm := s.bm.releaseExclusive guid }

def mergeReserve : Nat := 0x1000

def readBlobNode (F : Frame) (slot : Slot) : Except Error BlobNode :=
  match F.bodyOfSlot slot with
  | some (.blob b) => .ok b
  | _ => .error (.corrupt "read_blob_node: body resolution failed")

/-- The child fits beside what the parent holds, crosses to nobody and has no tombstones. -/
def fitsInto (parent child : Frame) : Bool :=
  child.spaceUsed - dataAreaStart ≤ pageSize - parent.spaceUsed - mergeReserve ∧
    parent.numSlots + child.numSlots ≤ maxSlots ∧ child.numExtBlobs = 0 ∧
    child.tombstoneLeafCnt = 0

def isMergeable (bnSlot : Slot) : MergeM Bool := do
  let s ← get
  let bn ← lift (readBlobNode s.frame bnSlot)
  let child ← pinChild bn.childBlobGuid
  pure (fitsInto s.frame child.image)

/-- Copy the child's tree into the parent, below the bytes the crossing spelled, and queue the
child for deletion. -/
def mergeBlob (seq : Nat) (bnSlot : Slot) : MergeM Slot := do
  let s ← get
  let bn ← lift (readBlobNode s.frame bnSlot)
  let child ← pinChild bn.childBlobGuid
  let cloned ← withChild bn.childBlobGuid
    (onParent (cloneSubtree child.image false (child.image.numSlots + 1) child.image.rootSlot))
  match cloned with
  | none => throw (.internal "preserve mode never returns None")
  | some newRoot =>
    let inlinedRoot ← onParent (wrapPrefix (bn.bytes.take blobMaxInline) newRoot)
    onParent (freeNode bnSlot)
    modify fun s => { s with bm := s.bm.markForDelete bn.childBlobGuid seq }
    pure inlinedRoot

def mergeAtBlobNode (seq : Nat) (bnSlot : Slot) : MergeM Slot := do
  let s ← get
  match s.frame.bodyOfSlot bnSlot with
  | some (.blob bn) =>
    if blobMaxInline < bn.bytes.length then
      throw (.corrupt "merge_at_blob_node: prefix_len exceeds inline buffer")
    else
      modify fun s => { s with inspected := s.inspected + 1 }
      let mergeable ← isMergeable bnSlot
      if mergeable then
        let newSlot ← mergeBlob seq bnSlot
        modify fun s => { s with merged := s.merged + 1 }
        pure newSlot
      else pure bnSlot
  | _ => throw (.corrupt "merge_at_blob_node: body resolution failed")

/-- The node itself stays where it is, so the children found at the start are still right when
their turn comes. -/
def mergeEach (recur : Slot → MergeM Slot) (innerSlot : Slot) (ntype : NodeType) :
    List (UInt8 × Slot) → MergeM Unit
  | [] => pure ()
  | (byte, childSlot) :: rest => do
    let newChild ← recur childSlot
    ifMoved newChild childSlot (innerUpdateChild innerSlot ntype byte newChild)
    mergeEach recur innerSlot ntype rest

def mergePairs (edges : List (UInt8 × Except Error Slot)) : Except Error (List (UInt8 × Slot)) :=
  edges.mapM fun e => e.2.map fun child => (e.1, child)

def tryMergeSubtree (seq : Nat) : Nat → Slot → MergeM Slot
  | 0, _ => throw .diverged
  | fuel + 1, slot => do
    let s ← get
    match ← lift (s.frame.ntypeOf slot) with
    | .invalid => throw (.corrupt "try_merge_subtree: hit NodeType::Invalid")
    | .emptyRoot => pure slot
    | .leaf => pure slot
    | .prefixNode =>
      let p ← lift (readPrefix s.frame slot)
      let newChild ← tryMergeSubtree seq fuel p.child
      ifMoved newChild p.child (setPrefixChild slot newChild)
      pure slot
    | .blob => mergeAtBlobNode seq slot
    | ntype =>
      let n ← lift (readInner s.frame slot ntype "merge_under_inner")
      let pairs ← lift (mergePairs (n.edges "merge_under_inner: Node48 index out of range"))
      mergeEach (tryMergeSubtree seq fuel) slot ntype pairs
      pure slot

/-- One pass over the parent's crossings. -/
def tryMergeChildren (seq : Nat) : MergeM Unit := do
  let s ← get
  let newRoot ← tryMergeSubtree seq (s.frame.numSlots + 1) s.frame.rootSlot
  ifMoved newRoot s.frame.rootSlot (modify fun F => { F with rootSlot := newRoot })

/-! ## What becomes of the blobs -/

namespace BufferManager

variable {I : Type} {bm bm₁ bm₂ : BufferManager I} {gs gs' : List BlobGuid} {a c : BlobGuid}

/-- The blobs of `gs` went away, and the images of the others stayed. -/
structure Drops (bm bm' : BufferManager I) (gs : List BlobGuid) : Prop where
  there : ∀ c ∈ gs, ¬ bm.Gone c
  gone : ∀ c ∈ gs, bm'.Gone c
  stays : ∀ {a}, bm.Gone a → bm'.Gone a
  view : ∀ {a b}, a ∉ gs → bm.view a = some b →
    ∃ b', bm'.view a = some b' ∧ b'.image = b.image ∧ b.version ≤ b'.version
  pending : ∀ {a}, a ∉ gs → (a ∈ bm'.pendingDeletes ↔ a ∈ bm.pendingDeletes)

theorem Drops.refl (bm : BufferManager I) : bm.Drops bm [] :=
  ⟨(fun _ h => by cases h), (fun _ h => by cases h), id,
    fun _ hb => ⟨_, hb, rfl, le_rfl⟩, fun _ => Iff.rfl⟩

theorem Drops.disjoint (h : bm.Drops bm₁ gs) (h' : bm₁.Drops bm₂ gs') : ∀ c ∈ gs', c ∉ gs :=
  fun c hc hm => h'.there c hc (h.gone c hm)

theorem Drops.trans (h : bm.Drops bm₁ gs) (h' : bm₁.Drops bm₂ gs') :
    bm.Drops bm₂ (gs' ++ gs) := by
  refine ⟨fun c hc => ?_, fun c hc => ?_, fun ha => h'.stays (h.stays ha), fun ha hb => ?_,
    fun ha => ?_⟩
  · rcases List.mem_append.mp hc with hc | hc
    · exact fun hg => h'.there c hc (h.stays hg)
    · exact h.there c hc
  · rcases List.mem_append.mp hc with hc | hc
    · exact h'.gone c hc
    · exact h'.stays (h.gone c hc)
  · rw [List.mem_append, not_or] at ha
    obtain ⟨b₁, hb₁, hi₁, hv₁⟩ := h.view ha.2 hb
    obtain ⟨b₂, hb₂, hi₂, hv₂⟩ := h'.view ha.1 hb₁
    exact ⟨b₂, hb₂, hi₂.trans hi₁, hv₁.trans hv₂⟩
  · rw [List.mem_append, not_or] at ha
    exact (h'.pending ha.1).trans (h.pending ha.2)

theorem Drops.pin (h : bm.pin c = .ok bm₁) : bm.Drops bm₁ [] :=
  ⟨(fun _ h => by cases h), (fun _ h => by cases h), fun ha => ha.pin h,
    fun _ hb => ⟨_, (view_pin h _).trans hb, rfl, le_rfl⟩,
    fun _ => by rw [pin_pendingDeletes h]⟩

theorem Drops.release (hc : c ∈ bm.cache) : bm.Drops (bm.releaseExclusive c) [] := by
  obtain ⟨b, hb⟩ := Option.isSome_iff_exists.mp (AList.lookup_isSome.mpr hc)
  have hv := view_of_cache hb
  have hne : ∀ {a}, bm.Gone a → a ≠ c := by
    rintro a ha rfl
    exact ha.1 hc
  refine ⟨(fun _ h => by cases h), (fun _ h => by cases h),
    fun ha => ha.releaseExclusive (hne ha), fun {a b'} _ hb' => ?_, fun _ => ?_⟩
  · rw [view_releaseExclusive hv]
    split
    · rename_i ha
      subst ha
      cases hv.symm.trans hb'
      exact ⟨_, rfl, rfl, Nat.le_succ _⟩
    · exact ⟨b', hb', rfl, le_rfl⟩
  · rw [releaseExclusive, hv]

theorem mem_cache_releaseExclusive (hc : c ∈ bm.cache) : c ∈ (bm.releaseExclusive a).cache := by
  unfold releaseExclusive
  split
  · exact hc
  · exact (AList.mem_insert _).mpr (.inr hc)

theorem Drops.markForDelete (hc : c ∈ bm.cache) (seq : Nat) :
    bm.Drops (bm.markForDelete c seq) [c] := by
  refine ⟨fun a ha => ?_, fun a ha => ?_, fun {a} ha => ?_, fun {a b} ha hb => ?_,
    fun {a} ha => ?_⟩
  · obtain rfl := List.mem_singleton.mp ha
    exact fun hg => hg.1 hc
  · obtain rfl := List.mem_singleton.mp ha
    exact ⟨fun hm => (AList.mem_erase.mp hm).1 rfl, .inl (mem_minMerge.mpr (.inl rfl))⟩
  · exact ⟨fun hm => ha.1 (AList.mem_erase.mp hm).2,
      ha.2.imp (fun hp => mem_minMerge.mpr (.inr hp)) id⟩
  · rw [List.mem_singleton] at ha
    refine ⟨b, ?_, rfl, le_rfl⟩
    unfold BufferManager.view at hb ⊢
    rw [BufferManager.markForDelete, AList.lookup_erase_ne ha]
    exact hb
  · rw [List.mem_singleton] at ha
    exact mem_minMerge.trans ⟨fun h => h.resolve_left ha, .inr⟩

end BufferManager

/-! ## What the pass builds -/

section Pass

variable {α : Type} {s s₁ s₂ : Merging} {g c : BlobGuid} {fo : Forest}

theorem onParent_sat {x : FrameM α} {ok : α → Frame → Prop} {bad : Error → Frame → Prop}
    (hx : Sat x s.frame ok bad) :
    Sat (onParent x) s (fun a s' => ∃ F, s' = { s with frame := F } ∧ ok a F)
      (fun er s' => ∃ F, s' = { s with frame := F } ∧ bad er F) := by
  unfold Sat onParent
  unfold Sat at hx
  split at hx
  · rename_i hxe
    rw [hxe]
    exact ⟨_, rfl, hx⟩
  · rename_i hxe
    rw [hxe]
    exact ⟨_, rfl, hx⟩

theorem withChild_sat {x : MergeM α} {ok : α → Merging → Prop} {err : Error → Merging → Prop}
    (hx : Sat x s (fun a s' => ok a { s' with bm := s'.bm.releaseExclusive c })
      fun er s' => err er { s' with bm := s'.bm.releaseExclusive c }) :
    Sat (withChild c x) s ok err := by
  unfold Sat withChild
  unfold Sat at hx
  split at hx
  · rename_i hxe
    rw [hxe]
    exact hx
  · rename_i hxe
    rw [hxe]
    exact hx

/-- The blobs of the forest, the parent apart, can be pinned unless they were folded already. -/
def Serves (fo : Forest) (g : BlobGuid) (bm : BufferManager Frame) : Prop :=
  ∀ {c q}, fo c = some q → c ≠ g → bm.Gone c ∨
    c ∉ bm.pendingDeletes ∧ ∃ b, bm.view c = some b ∧ b.image.Holds q.tree

theorem Serves.drops {bm bm' : BufferManager Frame} {gs : List BlobGuid} (h : Serves fo g bm)
    (hd : bm.Drops bm' gs) : Serves fo g bm' := by
  intro c q hq hne
  rcases h hq hne with hg | ⟨hp, b, hb, hh⟩
  · exact .inl (hd.stays hg)
  · by_cases hc : c ∈ gs
    · exact .inl (hd.gone c hc)
    · obtain ⟨b', hb', hi, -⟩ := hd.view hc hb
      exact .inr ⟨fun hm => hp ((hd.pending hc).mp hm), b', hb', hi ▸ hh⟩

/-- What a pin of a child finds; a failure changes nothing. -/
theorem pinChild_sat {q : Plot} (h : Serves fo g s.bm) (hq : fo c = some q) (hne : c ≠ g) :
    Sat (pinChild c) s
      (fun b s' => ∃ bm, s' = { s with bm } ∧ s.bm.Drops bm [] ∧ c ∈ bm.cache ∧
        b.image.Holds q.tree)
      (fun _ s' => s' = s) := by
  unfold Sat pinChild
  cases hpin : s.bm.pin c with
  | error err => rfl
  | ok bm =>
    have hview := BufferManager.view_pin hpin c
    rcases h hq hne with hg | ⟨-, b, hb, hh⟩
    · cases hg.pin_self.symm.trans hpin
    · simp only [hview, hb]
      exact ⟨bm, rfl, .pin hpin, BufferManager.mem_cache_of_pin hpin, hh⟩

/-- The tree `t` of the parent became `t'`, with the blobs `gs` folded in. -/
def Traced (fo : Forest) (R : Set Cell) (t : Art) (s s' : Merging) (slot : Slot) : Prop :=
  ∃ gs t' fp, Art.Folds (fun c => (fo c).map Plot.tree) t gs t' ∧
    Built s.frame s'.frame R ∅ t' slot fp ∧ s.bm.Drops s'.bm gs

theorem Built.before {F F₁ F₂ : Frame} {R fp : Set Cell} {t : Art} {slot : Slot}
    (hs : F.Same F₁ R) (h : Built F₁ F₂ R ∅ t slot fp) : Built F F₂ R ∅ t slot fp :=
  ⟨h.rep, h.sub, h.disjoint, h.alloc, by
    rw [Set.union_empty]
    exact hs.trans (h.same.mono Set.subset_union_left)⟩

theorem Built.at_rest {F F' : Frame} {R fp : Set Cell} {t : Art} {slot : Slot}
    (hr : F.Rep t slot fp) (hd : Disjoint R fp) (hk : F.Kept F' (R ∪ fp)) :
    Built F F' R ∅ t slot fp :=
  ⟨hr.same hk.same Set.subset_union_right, Set.empty_subset _, hd, hk.alloc,
    hk.same.mono (Set.union_subset_union_right _ (Set.empty_subset _))⟩

variable {seq : Nat}

theorem Traced.rest {R fp : Set Cell} {t : Art} {slot : Slot} (hr : s.frame.Rep t slot fp)
    (hd : Disjoint R fp) (ha : s.frame.Alloc (R ∪ fp)) : Traced fo R t s s slot :=
  ⟨[], t, fp, .none, .at_rest hr hd (.refl ha), .refl _⟩

/-- More of the pass over the tree that is there by now. -/
theorem Traced.after {R fp : Set Cell} {t t₁ : Art} {slot slot' : Slot} {gs : List BlobGuid}
    (h : Traced fo R t₁ s₁ s₂ slot') (hfold : Art.Folds (fun c => (fo c).map Plot.tree) t gs t₁)
    (hb : Built s.frame s₁.frame R ∅ t₁ slot fp) (hdrop : s.bm.Drops s₁.bm gs) :
    Traced fo R t s s₂ slot' := by
  obtain ⟨gs', t₂, fp', hfold', hb', hdrop'⟩ := h
  have hsame := hb.same
  rw [Set.union_empty] at hsame
  exact ⟨gs' ++ gs, t₂, fp', hfold.trans hfold' (hdrop.disjoint hdrop'), hb'.before hsame,
    hdrop.trans hdrop'⟩

/-- The child's tree is built beside what the parent holds before the crossing is given up. -/
theorem mergeBlob_sat {R : Set Cell} {bytes : List UInt8} {slot : Slot} {q : Plot}
    (seq : Nat) (hsv : Serves fo g s.bm) (hn : s.frame.NodeAt slot (.blob ⟨bytes, c⟩))
    (hlen : bytes.length ≤ blobMaxInline) (hs : .slot slot ∉ R)
    (ha : s.frame.Alloc (R ∪ {.slot slot})) (hq : fo c = some q) (hwf : q.tree.Wf q.path)
    (hne : c ≠ g) :
    Sat (mergeBlob seq slot) s
      (fun slot' s' => ∃ fp, Built s.frame s'.frame R ∅ (.chain bytes q.tree) slot' fp ∧
        s.bm.Drops s'.bm [c])
      (fun _ s' => s.frame.Kept s'.frame (R ∪ {.slot slot}) ∧ s.bm.Drops s'.bm []) := by
  have hread : readBlobNode s.frame slot = .ok ⟨bytes, c⟩ := by
    rw [readBlobNode, hn.bodyOfSlot]
  simp only [mergeBlob, sat_bind, sat_get, hread, lift_ok, sat_pure, List.take_of_length_le hlen]
  refine (pinChild_sat hsv hq hne).mono (fun b s₁ h₁ => ?_) fun _ s₁ h₁ => ?_
  swap
  · subst h₁
    exact ⟨.refl ha, .refl _⟩
  obtain ⟨bm, rfl, hdrop, hcache, fpc, hrep, halloc⟩ := h₁
  have hclone : Clones _ (q.tree.cloned false) :=
    cloneSubtree_clones hrep hwf (hrep.height_lt halloc subset_rfl)
  have hrel := hdrop.trans (.release hcache)
  refine withChild_sat ((onParent_sat (s := { s with bm }) (hclone ha)).mono ?_ ?_)
  · rintro r _ ⟨F₁, rfl, hr⟩
    cases r with
    | none => exact hr.elim
    | some newRoot =>
      obtain ⟨fp₁, hb₁⟩ := hr
      simp only [sat_bind]
      refine (onParent_sat (s := ⟨bm.releaseExclusive c, F₁, s.merged, s.inspected⟩)
        (wrapPrefix_sat hb₁.alloc bytes newRoot)).mono ?_ ?_
      · rintro inlined _ ⟨F₂, rfl, new, hwrap⟩
        have hb₂ := hb₁.trans (hwrap.built hb₁.rep hb₁.disjoint)
        have hn₂ := hn.same hb₂.same (Set.mem_union_left _ (Set.mem_union_right _ rfl))
        refine (onParent_sat (s := ⟨bm.releaseExclusive c, F₂, s.merged, s.inspected⟩)
          (freeNode_built hb₂ Set.subset_union_left (Set.mem_union_right _ rfl) hs hn₂.1
            fun _ _ => False)).mono ?_ fun _ _ he => he.elim fun _ h => h.2.elim
        rintro _ _ ⟨F₃, rfl, hb₃⟩
        simp only [sat_modify, sat_pure]
        exact ⟨_, hb₃, hrel.trans
          (.markForDelete (BufferManager.mem_cache_releaseExclusive hcache) seq)⟩
      · rintro _ _ ⟨F₂, rfl, hrefused⟩
        have hkept := (hb₁.refused hrefused).1
        rw [Set.union_empty] at hkept
        exact ⟨hkept, hrel⟩
  · rintro _ _ ⟨F₁, rfl, hrefused⟩
    exact ⟨hrefused.1, hrel⟩

/-- A crossing: folded, or left as it was. -/
theorem mergeAtBlobNode_sat {R fp : Set Cell} {bytes : List UInt8} {slot : Slot} {q : Plot}
    (hsv : Serves fo g s.bm) (hr : s.frame.Rep (.blob bytes c) slot fp)
    (hlen : bytes.length ≤ blobMaxInline) (hd : Disjoint R fp) (ha : s.frame.Alloc (R ∪ fp))
    (hq : fo c = some q) (hwf : q.tree.Wf q.path) (hne : c ≠ g) :
    Sat (mergeAtBlobNode seq slot) s (fun slot' s' => Traced fo R (.blob bytes c) s s' slot')
      (fun _ s' => Traced fo R (.blob bytes c) s s' slot) := by
  obtain ⟨hn, rfl⟩ := id hr
  have hrest : ∀ {s' : Merging}, s.frame.Kept s'.frame (R ∪ {.slot slot}) →
      s.bm.Drops s'.bm [] → Traced fo R (.blob bytes c) s s' slot :=
    fun hk hdrop => ⟨[], _, _, .none, .at_rest hr hd hk, hdrop⟩
  have hread : readBlobNode s.frame slot = .ok ⟨bytes, c⟩ := by
    rw [readBlobNode, hn.bodyOfSlot]
  simp only [mergeAtBlobNode, sat_bind, sat_get, hn.bodyOfSlot]
  rw [if_neg (not_lt.mpr hlen)]
  simp only [sat_bind, sat_modify, isMergeable, sat_get, hread, lift_ok, sat_pure]
  refine (pinChild_sat (s := { s with inspected := s.inspected + 1 }) hsv hq hne).mono
    (fun b s₁ h₁ => ?_) fun _ s₁ h₁ => ?_
  · obtain ⟨bm, rfl, hdrop, -, -⟩ := h₁
    split
    · simp only [sat_bind]
      refine (mergeBlob_sat (s := ⟨bm, s.frame, s.merged, s.inspected + 1⟩) seq (hsv.drops hdrop) hn
        hlen (Set.disjoint_singleton_right.mp hd) ha hq hwf hne).mono ?_ ?_
      · rintro slot' s₂ ⟨fp', hb, hdrop'⟩
        simp only [sat_modify, sat_pure]
        exact ⟨[c], _, fp', .fold .none (.here _) (by simp [hq]) List.not_mem_nil, hb,
          hdrop.trans hdrop'⟩
      · rintro _ s₂ ⟨hk, hdrop'⟩
        exact hrest hk (hdrop.trans hdrop')
    · exact .pure (hrest (.refl ha) hdrop)
  · subst h₁
    exact hrest (.refl ha) (.refl _)

section Children

variable {R : Set Cell} {slot : Slot} {n : Inner} {has : UInt8 → Bool} {child : UInt8 → Art}
  {fps : UInt8 → Set Cell} {b : UInt8} {x x' : Slot} {t : Art} {fp : Set Cell}

/-- The node with a child that was rebuilt, pointed to where it is now. -/
theorem repoint_sat {F : Frame}
    (hb : Built F s.frame (insert (.slot slot) (R ∪ others fps b)) ∅ t x' fp)
    (hn : F.NodeAt slot (.inner n)) (hk : F.Kids n has child fps) (hf : n.findChild b = some x)
    (hs : .slot slot ∉ R) (hso : .slot slot ∉ others fps b) (hd : Disjoint R (others fps b)) :
    Sat (ifMoved x' x (innerUpdateChild slot n.ntype b x')) s
      (fun _ s' => ∃ n' fps', n'.ntype = n.ntype ∧ n.Updated n' b x' ∧ s'.bm = s.bm ∧
        s'.frame.NodeAt slot (.inner n') ∧ s'.frame.Kids n' has (Function.update child b t) fps' ∧
        (.slot slot ∉ ⋃ b', fps' b') ∧
        Built F s'.frame R ∅ (.inner has (Function.update child b t)) slot
          (insert (.slot slot) (⋃ b', fps' b')))
      (fun _ _ => False) := by
  obtain ⟨hkids, hsu, hdu, hau, hR⟩ := hb.kids_above hk hf hs hso hd
  have hn' := hn.same hb.same (Set.mem_union_left _ (Set.mem_insert ..))
  unfold ifMoved
  split
  · obtain ⟨n', hup, htype, hupd⟩ := Inner.updateChild_spec hk.wf hb.rep.ne_zero hf
    have ht : s.frame.Typed slot (Body.inner n').ntype := by
      simpa only [Body.ntype, htype] using hn'.1
    have hwrite := (writeInner_sat hn' htype (hkids n' hupd) hsu hdu hau fun _ _ => False).and
      (writeStructToSlot_sat ht fun _ _ => False)
    have hstep : Sat (innerUpdateChild slot n.ntype b x') s.frame (fun _ F' =>
        Built s.frame F' R (⋃ b', Function.update fps b fp b')
          (.inner has (Function.update child b t)) slot
          (insert (.slot slot) (⋃ b', Function.update fps b fp b')) ∧
        F' = { s.frame with bodies := Function.update s.frame.bodies slot (.inner n') })
        (fun _ _ => False ∧ False) := by
      simp only [innerUpdateChild, sat_bind, sat_get, readInner_eq hn', lift_ok, sat_pure, hup]
      exact hwrite
    refine (onParent_sat hstep).mono ?_ fun _ _ he => he.elim fun _ h => h.2.1
    rintro _ _ ⟨F', rfl, hbuilt, rfl⟩
    rw [Set.mem_union, not_or] at hsu
    refine ⟨n', _, htype, hupd, rfl, nodeAt_write ht, ?_, hsu.2, ?_⟩
    · exact (hkids n' hupd).same (same_write _ _ _ hsu.2) subset_rfl
    · refine Built.before hR ⟨hbuilt.rep, Set.empty_subset _, hbuilt.disjoint, hbuilt.alloc, ?_⟩
      exact hbuilt.same.mono (Set.union_subset_union_right _ (Set.empty_subset _))
  · rename_i hx
    obtain rfl : x' = x := not_not.mp hx
    have hself : n.Updated n b x' := by
      refine ⟨hk.wf, fun b' => ?_⟩
      split
      · rename_i h
        rw [h, hf]
      · rfl
    have habove := hb.inner_above hn hk hf hs hso hd rfl
    rw [Set.mem_union, not_or] at hsu
    exact .pure ⟨n, _, rfl, hself, rfl, hn', hkids n hself, hsu.2, habove⟩

/-- The pass over a node's children, one after the other. -/
theorem mergeEach_sat {recur : Slot → MergeM Slot} {child₀ : UInt8 → Art}
    {pairs : List (UInt8 × Slot)} (hnodup : (pairs.map Prod.fst).Nodup)
    (hrec : ∀ b x, (b, x) ∈ pairs → ∀ {s : Merging} {R fp : Set Cell}, Serves fo g s.bm →
      s.frame.Rep (child₀ b) x fp → Disjoint R fp → s.frame.Alloc (R ∪ fp) →
      Sat (recur x) s (fun x' s' => Traced fo R (child₀ b) s s' x')
        (fun _ s' => Traced fo R (child₀ b) s s' x))
    (hsv : Serves fo g s.bm) (hn : s.frame.NodeAt slot (.inner n))
    (hk : s.frame.Kids n has child fps) (hs : .slot slot ∉ ⋃ b, fps b)
    (hd : Disjoint R (insert (.slot slot) (⋃ b, fps b)))
    (ha : s.frame.Alloc (R ∪ insert (.slot slot) (⋃ b, fps b)))
    (hfind : ∀ b x, (b, x) ∈ pairs → n.findChild b = some x ∧ child b = child₀ b) :
    Sat (mergeEach recur slot n.ntype pairs) s
      (fun _ s' => Traced fo R (.inner has child) s s' slot)
      (fun _ s' => Traced fo R (.inner has child) s s' slot) := by
  have hrep : s.frame.Rep (.inner has child) slot _ := rep_inner_iff.mpr ⟨n, fps, hn, hk, hs, rfl⟩
  induction pairs generalizing s n child fps with
  | nil => exact .pure (.rest hrep hd ha)
  | cons pair pairs ih =>
    obtain ⟨b, x⟩ := pair
    obtain ⟨hfb, hchild⟩ := hfind b x List.mem_cons_self
    obtain ⟨hsplit, hdis, hso, hdo⟩ := hk.split hs hd b
    have hsR : .slot slot ∉ R := fun hm => Set.disjoint_left.mp hd hm (Set.mem_insert ..)
    have hb : has b = true := by rw [← hk.has_eq, hfb, Option.isSome_some]
    rw [List.map_cons, List.nodup_cons] at hnodup
    rw [hsplit] at ha
    simp only [mergeEach, sat_bind]
    refine (hrec b x List.mem_cons_self hsv (hchild ▸ hk.rep b x hfb) hdis ha).mono ?_ ?_
    · rintro x' s₁ ⟨gs, t, fp, hfold, hbuilt, hdrop⟩
      rw [← hchild] at hfold
      refine (repoint_sat hbuilt hn hk hfb hsR hso hdo).mono ?_ fun _ _ he => he.elim
      rintro _ s₂ ⟨n', fps', htype, hupd, hbm, hn₂, hk₂, hs₂, hb₂⟩
      rw [← hbm] at hdrop
      have hnext := ih hnodup.2 (fun b x hm => hrec b x (List.mem_cons_of_mem _ hm))
        (hsv.drops hdrop) hn₂ hk₂ hs₂ hb₂.disjoint hb₂.alloc (fun b' x' hm => ?_) hb₂.rep
      · rw [← htype]
        exact hnext.mono (fun _ _ h => h.after (hfold.inner hb) hb₂ hdrop)
          fun _ _ h => h.after (hfold.inner hb) hb₂ hdrop
      · have hne : b' ≠ b := by
          rintro rfl
          exact hnodup.1 (List.mem_map.mpr ⟨_, hm, rfl⟩)
        obtain ⟨hf', hc'⟩ := hfind b' x' (List.mem_cons_of_mem _ hm)
        rw [hupd.2, if_neg hne, Function.update_of_ne hne]
        exact ⟨hf', hc'⟩
    · rintro _ s₁ ⟨gs, t, fp, hfold, hbuilt, hdrop⟩
      rw [← hchild] at hfold
      exact ⟨gs, _, _, hfold.inner hb, hbuilt.inner_above hn hk hfb hsR hso hdo rfl, hdrop⟩

end Children

theorem mergePairs_eq (es : List (UInt8 × Slot)) :
    mergePairs (es.map fun e => (e.1, .ok e.2)) = .ok es := by
  unfold mergePairs
  induction es with
  | nil => rfl
  | cons e es ih =>
    rw [List.map_cons, List.mapM_cons, ih]
    rfl

/-- Crossings below `t` lead to other blobs of the forest. -/
def Crosses (fo : Forest) (g : BlobGuid) (t : Art) : Prop :=
  ∀ {rel bytes c plug}, Art.Below t rel (.blob bytes c) plug → c ≠ g ∧ ∃ q, fo c = some q

theorem tryMergeSubtree_traced {R fp : Set Cell} {t : Art} {slot : Slot} {π : List UInt8}
    {fuel : Nat} (hwf : ∀ {c q}, fo c = some q → q.tree.Wf q.path) (hc : Crosses fo g t)
    (hsv : Serves fo g s.bm) (hr : s.frame.Rep t slot fp) (hw : t.Wf π) (hd : Disjoint R fp)
    (ha : s.frame.Alloc (R ∪ fp)) (hfuel : t.height < fuel) :
    Sat (tryMergeSubtree seq fuel slot) s (fun slot' s' => Traced fo R t s s' slot')
      (fun _ s' => Traced fo R t s s' slot) := by
  induction t generalizing s R fp slot π fuel with
  | emptyRoot =>
    obtain ⟨m, rfl⟩ := succ_of_lt hfuel
    simp only [tryMergeSubtree, sat_bind, sat_get, hr.1.ntypeOf, lift_ok, sat_pure, Body.ntype]
    exact .rest hr hd ha
  | leaf r =>
    obtain ⟨m, rfl⟩ := succ_of_lt hfuel
    obtain ⟨l, hn, -⟩ := id hr
    simp only [tryMergeSubtree, sat_bind, sat_get, hn.ntypeOf, lift_ok, sat_pure, Body.ntype]
    exact .rest hr hd ha
  | pfx bytes child ih =>
    obtain ⟨m, rfl⟩ := succ_of_lt hfuel
    obtain ⟨x, fpc, hn, hrc, hfresh, rfl⟩ := hr
    have hcut : R ∪ insert (.slot slot) fpc = insert (.slot slot) R ∪ fpc := by
      rw [Set.union_insert, Set.insert_union]
    obtain ⟨hs, hdR⟩ := Set.disjoint_insert_right.mp hd
    have hdc : Disjoint (insert (.slot slot) R) fpc := Set.disjoint_insert_left.mpr ⟨hfresh, hdR⟩
    rw [hcut] at ha
    simp only [Art.height] at hfuel
    have hread : readPrefix s.frame slot = .ok ⟨bytes, x⟩ := by
      rw [readPrefix, hn.bodyOfSlot]
    simp only [tryMergeSubtree, sat_bind, sat_get, hn.ntypeOf, lift_ok, sat_pure, Body.ntype,
      hread]
    refine (ih (fun hbelow => hc hbelow.pfx) hsv hrc hw.2.2 hdc ha
      (show child.height < m by omega)).mono ?_ ?_
    · rintro x' s₁ ⟨gs, t, fp, hfold, hbuilt, hdrop⟩
      unfold ifMoved
      split
      · have hsame := hbuilt.same
        rw [Set.union_empty] at hsame
        have hn₁ := hn.same hsame (Set.mem_insert ..)
        refine (onParent_sat (setPrefixChild_sat hn₁ hbuilt.rep hs hbuilt.disjoint hbuilt.alloc
          fun _ _ => False)).mono ?_ fun _ _ he => he.elim fun _ h => h.2.elim
        rintro _ _ ⟨F, rfl, hb⟩
        exact ⟨gs, _, _, hfold.pfx, hb.before (hsame.mono (Set.subset_insert ..)), hdrop⟩
      · rename_i hx
        obtain rfl : x' = x := not_not.mp hx
        exact .pure ⟨gs, _, _, hfold.pfx, hbuilt.pfx_above hn hs, hdrop⟩
    · rintro _ s₁ ⟨gs, t, fp, hfold, hbuilt, hdrop⟩
      exact ⟨gs, _, _, hfold.pfx, hbuilt.pfx_above hn hs, hdrop⟩
  | inner has child ih =>
    obtain ⟨m, rfl⟩ := succ_of_lt hfuel
    obtain ⟨n, fps, hn, hk, hs, rfl⟩ := rep_inner_iff.mp hr
    obtain ⟨es, hes, hasc, hmem⟩ :=
      Inner.edges_spec hk.wf "merge_under_inner: Node48 index out of range"
    have heach : Sat (mergeEach (tryMergeSubtree seq m) slot n.ntype es) s
        (fun _ s' => Traced fo R (.inner has child) s s' slot)
        (fun _ s' => Traced fo R (.inner has child) s s' slot) := by
      refine mergeEach_sat hasc.keys_nodup (fun b x hm => ?_) hsv hn hk hs hd ha
        fun b x hm => ⟨(hmem b x).mp hm, rfl⟩
      intro s' R' fp' hsv' hr' hd' ha'
      have hb : has b = true := by rw [← hk.has_eq, (hmem b x).mp hm, Option.isSome_some]
      have hlt := Art.height_child child hb
      exact ih b (fun hbelow => hc (hbelow.inner hb)) hsv' hr' (hw b hb) hd' ha' (by omega)
    have hpairs : mergePairs (n.edges "merge_under_inner: Node48 index out of range") = .ok es := by
      rw [hes, mergePairs_eq]
    have hgo : ∀ caller, readInner s.frame slot n.ntype caller = .ok n := readInner_eq hn
    cases n <;>
      simp only [tryMergeSubtree, sat_bind, sat_get, hn.ntypeOf, lift_ok, sat_pure, Body.ntype,
        Inner.ntype] <;>
      simp only [Inner.ntype] at hgo heach <;>
      simp only [hgo, lift_ok, sat_pure, hpairs] <;>
      exact heach
  | blob bytes c =>
    obtain ⟨m, rfl⟩ := succ_of_lt hfuel
    obtain ⟨hne, q, hq⟩ := hc (.here _)
    simp only [tryMergeSubtree, sat_bind, sat_get, hr.1.ntypeOf, lift_ok, sat_pure, Body.ntype]
    exact mergeAtBlobNode_sat hsv hr hw hd ha hq (hwf hq) hne

end Pass

end Holt
