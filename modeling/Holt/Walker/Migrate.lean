import Holt.Art.Erase
import Holt.Walker.Writers
import Mathlib.Data.List.Sort

/-! Deep copies: a subtree moved to a blob of its own, and a blob rebuilt without its
tombstones. -/

namespace Holt

open Holt.Lib Holt.Frame

/-! ## Cloning -/

def cloneLeaf (src : Frame) (leaf : Leaf) (filterTombstones : Bool) : FrameM (Option Slot) :=
  if filterTombstones ∧ leaf.tombstone then pure none
  else
    match src.bytesAt leaf.keyOffset 2 with
    | some [b₀, b₁] =>
      let extTotal := leafExtentSize (u16FromLeBytes b₀ b₁) leaf.valueSize
      match src.bytesAt leaf.keyOffset extTotal with
      | none => throw (.corrupt "clone_leaf: extent body out of range")
      | some extent =>
        return some (← storeLeaf "clone_leaf: dst extent out of range" extTotal extent fun offset =>
          if filterTombstones then .live offset leaf.valueSize leaf.seq
          else { leaf with keyOffset := offset })
    | _ => throw (.corrupt "clone_leaf: extent header out of range")

/-- Clone the children one after another. A dropped child is skipped by the filter; without
it there is none. -/
def cloneEach {ι : Type} (recur : Slot → FrameM (Option Slot)) (filterTombstones : Bool) :
    List (ι × Except Error Slot) → FrameM (List (ι × Slot))
  | [] => pure []
  | (i, child) :: rest => do
    let child ← lift child
    match ← recur child with
    | some newChild =>
      let out ← cloneEach recur filterTombstones rest
      pure ((i, newChild) :: out)
    | none =>
      if filterTombstones then cloneEach recur filterTombstones rest
      else throw (.internal "preserve mode never returns None")

def packInnerNode : List (UInt8 × Slot) → FrameM (Option Slot)
  | [] => pure none
  | [(byte, child)] => return some (← writePrefixChain [byte] child)
  | survivors => return some (← newNode (.inner (.pack survivors)))

/-- The child positions of a node of 48 that are in use. -/
def Node48.positions (n : Node48) : List (Nat × Except Error Slot) :=
  ((List.range 48).filter fun i => n.children i ≠ 0).map fun i => (i, .ok (n.children i))

def cloneInner (recur : Slot → FrameM (Option Slot)) (filterTombstones : Bool) (n : Inner) :
    FrameM (Option Slot) :=
  let edges := n.edges "clone_node48: index out of range"
  if filterTombstones then do
    let survivors ← cloneEach recur true edges
    packInnerNode survivors
  else
    match n with
    | .node4 _ => do
      let children ← cloneEach recur false edges
      return some (← newNode (.inner (.node4 children)))
    | .node16 _ => do
      let children ← cloneEach recur false edges
      return some (← newNode (.inner (.node16 children)))
    | .node48 n => do
      let children ← cloneEach recur false n.positions
      return some (← newNode
        (.inner (.node48 { n with children := fun i => (children.lookup i).getD 0 })))
    | .node256 n => do
      let children ← cloneEach recur false edges
      return some (← newNode
        (.inner (.node256 { n with children := fun b => (children.lookup b).getD 0 })))

/-- Copy the subtree at `srcSlot` of `src` into the frame being built. -/
def cloneSubtree (src : Frame) (filterTombstones : Bool) : Nat → Slot → FrameM (Option Slot)
  | 0, _ => throw .diverged
  | fuel + 1, srcSlot =>
    match src.slotEntry srcSlot with
    | none => throw (.corrupt "clone_subtree: invalid src slot")
    | some e =>
      match e.nodeType, src.bodyOfSlot srcSlot with
      | none, _ => throw (.corrupt "clone_subtree: undecodable src ntype")
      | some _, none => throw (.corrupt "clone_subtree: src body resolution failed")
      | some _, some .emptyRoot => return some (← allocNode .emptyRoot)
      | some _, some (.leaf l) => cloneLeaf src l filterTombstones
      | some _, some (.pfx p) => do
        match ← cloneSubtree src filterTombstones fuel p.child with
        | none => pure none
        | some newChild =>
          return some (← newNode (.pfx ⟨p.bytes.take prefixMaxInline, newChild⟩))
      | some _, some (.inner n) =>
        cloneInner (cloneSubtree src filterTombstones fuel) filterTombstones n
      | some _, some (.blob b) =>
        return some (← newNode (.blob ⟨b.bytes.take blobMaxInline, b.childBlobGuid⟩))

/-! ## Whole blobs -/

/-- Run a program on a fresh frame that nobody else sees. -/
def buildFrame (guid : BlobGuid) (x : FrameM Unit) : Except Error Frame :=
  match Frame.init guid with
  | .error e => .error e
  | .ok F =>
    match x F with
    | .ok _ F' => .ok F'
    | .error e _ => .error e

/-- Drop the sentinel of a fresh frame and make `entry` its root. -/
def setRoot (entry : Slot) : FrameM Unit := do
  let F ← get
  if F.rootSlot = 1 ∧ entry ≠ 1 then freeNode 1 else pure ()
  modify fun F => { F with rootSlot := entry }

def makeBlobFromNode (src : Frame) (srcSlot : Slot) (newGuid : BlobGuid) : Except Error Frame :=
  buildFrame newGuid do
    match ← cloneSubtree src false (src.numSlots + 1) srcSlot with
    | none => throw (.internal "preserve mode never returns None")
    | some cloned => setRoot cloned

def blobNeedsCompaction (F : Frame) : Bool :=
  F.tombstoneLeafCnt ≠ 0 ∨ F.freeListHead .leaf ≠ 0

/-- The root of the rebuilt tree; the sentinel again when nothing was alive. -/
def entryOf : Option Slot → FrameM Slot
  | some slot => pure slot
  | none => allocNode .emptyRoot

def rebuild (F : Frame) : FrameM Unit := do
  let cloned ← cloneSubtree F true (F.numSlots + 1) F.rootSlot
  let entry ← entryOf cloned
  setRoot entry
  modify fun N =>
    { N with tombstoneLeafCnt := 0, compactTimes := min (F.compactTimes + 1) (2 ^ 32 - 1) }

/-- Rebuild the blob; a failure leaves the old image. -/
def compactBlob : FrameM Unit := do
  let F ← get
  let rebuilt ← lift (buildFrame F.blobGuid (rebuild F))
  set rebuilt

/-! ## What a clone holds -/

/-- What becomes of a tree that is cloned. -/
def Art.cloned (filterTombstones : Bool) (t : Art) : Option Art :=
  if filterTombstones then t.prune else some t

/-- The copy of a tree, or nothing when nothing of it was alive. -/
def CloneOf (F F' : Frame) (U : Set Cell) : Option Art → Option Slot → Prop
  | some t, some s => ∃ fp, Built F F' U ∅ t s fp
  | none, none => F.Kept F' U
  | _, _ => False

/-- Into any frame, `x` clones to `o` or runs out of room. -/
def Clones (x : FrameM (Option Slot)) (o : Option Art) : Prop :=
  ∀ ⦃F : Frame⦄ ⦃U : Set Cell⦄, F.Alloc U →
    Sat x F (fun r F' => CloneOf F F' U o r) (Refused F U)

section Clone

variable {src F : Frame} {U : Set Cell} {filter : Bool}

theorem emptyRoot_built {F : Frame} {U : Set Cell} (ha : F.Alloc U) :
    Sat (allocNode .emptyRoot) F (fun s F' => ∃ fp, Built F F' U ∅ .emptyRoot s fp)
      (Refused F U) := by
  refine (allocNode_sat ha NodeType.noConfusion).mono (fun s' F' h => ?_)
    fun _ _ he => refused_of_eq ha he
  refine ⟨{.slot s'}, ⟨⟨h.typed, Or.inl rfl⟩, rfl⟩, Set.empty_subset _,
    Set.disjoint_singleton_right.mpr h.fresh, ?_, ?_⟩
  · rw [Set.union_singleton]
    exact h.alloc
  · rw [Set.union_empty]
    exact h.same

theorem cloneLeaf_clones {l : Leaf} {r : Record} (hst : src.Stores l r) :
    Clones (cloneLeaf src l filter) ((Art.leaf r).cloned filter) := by
  intro F U ha
  unfold cloneLeaf
  by_cases hdrop : filter = true ∧ l.tombstone = true
  · rw [if_pos hdrop, sat_pure]
    have : (Art.leaf r).cloned filter = none := by
      simp [Art.cloned, Art.prune, hdrop.1, ← hst.tombstone, hdrop.2]
    rw [this]
    exact Kept.refl ha
  · rw [if_neg hdrop]
    obtain ⟨b₀, b₁, hhdr, hklen⟩ := hst.header
    have hext : ∃ extent, src.bytesAt l.keyOffset (leafExtentSize r.key.length r.value.length) =
        some extent ∧ extent.length = leafExtentSize r.key.length r.value.length ∧
        leafBytes r.key r.value <+: extent := by
      refine ⟨_, if_neg (not_lt.mpr hst.fits), by simp, ?_⟩
      rw [List.prefix_iff_getElem?]
      intro i hi
      have hge := leafExtentSize_ge r.key.length r.value.length
      have hi' := hi
      rw [length_leafBytes] at hi'
      rw [List.getElem?_map, List.getElem?_range (by omega), Option.map_some, hst.data i hi]
    obtain ⟨extent, hread, hlen, hpre⟩ := hext
    have hsome : (Art.leaf r).cloned filter = some (.leaf r) := by
      cases filter with
      | false => rfl
      | true =>
        have : r.tombstone = false := by simpa [← hst.tombstone] using hdrop
        simp [Art.cloned, Art.prune, this]
    simp only [hhdr, hklen, hst.valueSize, hread, hsome, sat_bind, sat_pure]
    refine (storeLeaf_sat ha _ hst.keyLen hpre hlen.le fun off => ?_).imp fun s F' h => h
    cases filter with
    | false => simp [hst.seq, hst.tombstone]
    | true =>
      have : r.tombstone = false := by simpa [← hst.tombstone] using hdrop
      simp [Leaf.live, this, hst.seq]

/-- The copies of several trees, each in cells of its own. -/
structure Cloned {ι : Type} (F F' : Frame) (U : Set Cell) (tr : ι → Option Art)
    (out : List (ι × Slot)) (fps : ι → Set Cell) : Prop where
  rep : ∀ i s, (i, s) ∈ out → ∃ t, tr i = some t ∧ F'.Rep t s (fps i)
  empty : ∀ i, i ∉ out.map Prod.fst → fps i = ∅
  disjoint : ∀ i j, i ≠ j → Disjoint (fps i) (fps j)
  fresh : Disjoint U (⋃ i, fps i)
  alloc : F'.Alloc (U ∪ ⋃ i, fps i)
  same : F.Same F' U

variable {ι : Type}

theorem Cloned.nil {tr : ι → Option Art} (ha : F.Alloc U) : Cloned F F U tr [] fun _ => ∅ :=
  ⟨fun _ _ h => absurd h List.not_mem_nil, fun _ _ => rfl, fun _ _ _ => Set.disjoint_empty _,
    by simp, by simpa using ha, Same.refl ..⟩

theorem Cloned.cons [DecidableEq ι] {tr : ι → Option Art} {F₁ F₂ : Frame} {i : ι} {t : Art}
    {s : Slot} {fp : Set Cell} {out : List (ι × Slot)} {fps : ι → Set Cell} (ht : tr i = some t)
    (hb : Built F F₁ U ∅ t s fp) (h : Cloned F₁ F₂ (U ∪ fp) tr out fps)
    (hi : i ∉ out.map Prod.fst) : Cloned F F₂ U tr ((i, s) :: out) (Function.update fps i fp) := by
  obtain ⟨hfU, hffp⟩ := Set.disjoint_union_left.mp h.fresh
  have hu : ⋃ j, Function.update fps i fp j = fp ∪ ⋃ j, fps j := by
    ext x
    simp only [Set.mem_iUnion, Set.mem_union]
    constructor
    · rintro ⟨j, hx⟩
      by_cases hj : j = i
      · subst hj
        exact Or.inl (by simpa using hx)
      · exact Or.inr ⟨j, by simpa [hj] using hx⟩
    · rintro (hx | ⟨j, hx⟩)
      · exact ⟨i, by simpa using hx⟩
      · have hj : j ≠ i := by
          rintro rfl
          rw [h.empty j hi] at hx
          exact hx
        exact ⟨j, by simpa [hj] using hx⟩
  have hother : ∀ j, j ≠ i → Disjoint fp (fps j) := fun j _ =>
    hffp.mono_right (Set.subset_iUnion fps j)
  refine ⟨fun j s' hm => ?_, fun j hj => ?_, fun j k hjk => ?_, ?_, ?_, ?_⟩
  · rcases List.mem_cons.mp hm with he | hm'
    · cases he
      refine ⟨t, ht, ?_⟩
      simpa using hb.rep.same h.same Set.subset_union_right
    · have hj : j ≠ i := by
        rintro rfl
        exact hi (List.mem_map_of_mem (f := Prod.fst) hm')
      simpa [hj] using h.rep j s' hm'
  · simp only [List.map_cons, List.mem_cons, not_or] at hj
    simpa [hj.1] using h.empty j hj.2
  · by_cases hj : j = i
    · subst hj
      simpa [hjk.symm] using hother k hjk.symm
    · by_cases hk : k = i
      · subst hk
        simpa [hjk] using (hother j hjk).symm
      · simpa [hj, hk] using h.disjoint j k hjk
  · rw [hu, Set.disjoint_union_right]
    exact ⟨hb.disjoint, hfU⟩
  · rw [hu, ← Set.union_assoc]
    exact h.alloc
  · exact (hb.same.mono Set.subset_union_left).trans (h.same.mono Set.subset_union_left)

theorem cloneEach_sat [DecidableEq ι] {recur : Slot → FrameM (Option Slot)} (tr : ι → Option Art)
    {items : List (ι × Slot)} (hnd : (items.map Prod.fst).Nodup)
    (hrec : ∀ i c, (i, c) ∈ items → Clones (recur c) (tr i))
    (hall : filter = false → ∀ i, (tr i).isSome) (ha : F.Alloc U) :
    Sat (cloneEach recur filter (items.map fun e => (e.1, .ok e.2))) F
      (fun out F' => out.map Prod.fst = (items.map Prod.fst).filter (fun i => (tr i).isSome) ∧
        ∃ fps, Cloned F F' U tr out fps) (Refused F U) := by
  induction items generalizing F U with
  | nil => exact .pure ⟨rfl, _, Cloned.nil ha⟩
  | cons e items ih =>
    obtain ⟨i, c⟩ := e
    obtain ⟨hi, hnd⟩ := List.nodup_cons.mp hnd
    simp only [List.map_cons, cloneEach, lift_ok, sat_bind, sat_pure]
    refine (hrec i c List.mem_cons_self ha).imp fun o F₁ h₁ => ?_
    have hrest : ∀ j c, (j, c) ∈ items → Clones (recur c) (tr j) :=
      fun j c hm => hrec j c (List.mem_cons_of_mem _ hm)
    cases ht : tr i with
    | some t =>
      rw [ht] at h₁
      cases o with
      | none => exact h₁.elim
      | some s =>
        obtain ⟨fp, hb⟩ := h₁
        refine (ih hnd hrest hb.alloc).bind (fun out F₂ h₂ => ?_) fun _ _ he => by
          simpa using hb.refused he
        obtain ⟨hkeys, fps, hc⟩ := h₂
        rw [sat_pure]
        refine ⟨by simp [ht, hkeys], _, hc.cons ht hb ?_⟩
        rw [hkeys]
        exact fun hm => hi (List.mem_of_mem_filter hm)
    | none =>
      rw [ht] at h₁
      have hfilter : filter = true := by
        by_contra hf
        have := hall (Bool.eq_false_iff.mpr hf) i
        rw [ht] at this
        exact absurd this Bool.false_ne_true
      cases o with
      | some s => exact h₁.elim
      | none =>
        simp only [hfilter, if_true]
        subst hfilter
        refine (ih hnd hrest h₁.alloc).mono (fun out F₂ h₂ => ?_) fun e F₂ he =>
          ⟨h₁.trans he.1 subset_rfl, he.2⟩
        obtain ⟨hkeys, fps, hc⟩ := h₂
        exact ⟨by simpa [ht] using hkeys, fps,
          ⟨hc.rep, hc.empty, hc.disjoint, hc.fresh, hc.alloc, h₁.same.trans hc.same⟩⟩

section Inner

variable {has : UInt8 → Bool} {child : UInt8 → Art} {n : Inner}

variable {F' : Frame}

theorem Cloned.ne_zero {ι : Type} {tr : ι → Option Art} {out : List (ι × Slot)}
    {fps : ι → Set Cell} (h : Cloned F F' U tr out fps) {i : ι} {s : Slot} (hm : (i, s) ∈ out) :
    s ≠ 0 := by
  obtain ⟨t, -, hr⟩ := h.rep i s hm
  exact hr.ne_zero

/-- Copied children below a node that finds exactly them. -/
theorem Cloned.kids {tr : UInt8 → Option Art} {out : List (UInt8 × Slot)} {fps : UInt8 → Set Cell}
    (h : Cloned F F' U tr out fps) {n' : Inner} (hw : n'.Wf)
    (hf : ∀ b, n'.findChild b = out.lookup b) (hhas : ∀ b, has b = true ↔ b ∈ out.map Prod.fst)
    (hc : ∀ b t, has b = true → tr b = some t → child b = t) : F'.Kids n' has child fps := by
  refine ⟨hw, fun b => ?_, fun b c hb => ?_, fun b hb => h.empty b fun hm => ?_, h.disjoint⟩
  · rw [hf, Bool.eq_iff_iff, hhas, lookup_isSome_iff]
  · rw [hf] at hb
    have hm := lookup_mem hb
    obtain ⟨t, ht, hr⟩ := h.rep b c hm
    rw [hc b t ((hhas b).mpr (List.mem_map_of_mem (f := Prod.fst) hm)) ht]
    exact hr
  · rw [(hhas b).mpr hm] at hb
    exact absurd hb Bool.noConfusion

/-- The two programs that end with a new node over copied children. -/
theorem Cloned.newInner_sat {ι : Type} {tr : ι → Option Art} {out : List (ι × Slot)}
    {fps : ι → Set Cell} (h : Cloned F F' U tr out fps) {n' : Inner} {fpb : UInt8 → Set Cell}
    (hk : F'.Kids n' has child fpb) (hu : ⋃ b, fpb b = ⋃ i, fps i) :
    Sat (newNode (.inner n')) F'
      (fun s F'' => ∃ fp, Built F F'' U ∅ (.inner has child) s fp) (Refused F U) := by
  have hd : Disjoint U (⋃ b, fpb b) := by
    rw [hu]
    exact h.fresh
  have ha : F'.Alloc (U ∪ ⋃ b, fpb b) := by
    rw [hu]
    exact h.alloc
  refine (Holt.newInner_sat hk hd ha).mono (fun s F'' ⟨fp, hb⟩ => ?_) fun e F'' he => ?_
  · refine ⟨fp, hb.rep, Set.empty_subset _, hb.disjoint, hb.alloc, ?_⟩
    rw [Set.union_empty]
    exact h.same.trans (hb.same.mono Set.subset_union_left)
  · exact ⟨⟨he.1.alloc.mono Set.subset_union_left,
      h.same.trans (he.1.same.mono Set.subset_union_left)⟩, he.2⟩

theorem packInnerNode_sat {out : List (UInt8 × Slot)} {fps : UInt8 → Set Cell}
    (hkeys : out.map Prod.fst = allBytes.filter fun b => has b && (child b).prune.isSome)
    (h : Cloned F F' U (fun b => (child b).prune) out fps) :
    Sat (packInnerNode out) F'
      (fun o F'' => CloneOf F F'' U (Art.inner has child).prune o) (Refused F U) := by
  have hmem : ∀ b, (has b && (child b).prune.isSome) = true ↔ b ∈ out.map Prod.fst := by
    simp [hkeys]
  rcases out with _ | ⟨⟨b, s⟩, _ | ⟨e, out⟩⟩
  · rw [List.map_nil] at hkeys
    have hp : (Art.inner has child).prune = none := by
      simp only [Art.prune]
      rw [← hkeys]
    have hu : ⋃ i, fps i = ∅ := by simp [fun i => h.empty i List.not_mem_nil]
    have ha := h.alloc
    rw [hu, Set.union_empty] at ha
    rw [packInnerNode, sat_pure, hp]
    exact ⟨ha, h.same⟩
  · obtain ⟨t, ht, hr⟩ := h.rep b s List.mem_cons_self
    have hp : (Art.inner has child).prune = some (.pfx [b] t) := by
      simp only [Art.prune]
      rw [← hkeys]
      simp [ht]
    have hu : ⋃ i, fps i = fps b := by
      ext x
      rw [Set.mem_iUnion]
      constructor
      · rintro ⟨i, hx⟩
        by_cases hi : i = b
        · exact hi ▸ hx
        · rw [h.empty i (by simpa using hi)] at hx
          exact hx.elim
      · exact fun hx => ⟨b, hx⟩
    have ha := h.alloc
    have hd := h.fresh
    rw [hu] at ha hd
    have hchain : writePrefixChain [b] s = prefixChainLoop 1 [b] s := rfl
    simp only [packInnerNode, hchain, sat_bind, sat_pure, hp]
    refine (prefixChainLoop_sat ha).mono ?_ fun e F'' he => ?_
    · rintro s' F'' ⟨new, hw⟩
      have hb := hw.built hr hd
      have hone : Art.chainN 1 [b] t = .pfx [b] t := by simp [Art.chainN, prefixMaxInline]
      rw [hone] at hb
      refine ⟨_, hb.rep, Set.empty_subset _, hb.disjoint, hb.alloc, ?_⟩
      rw [Set.union_empty]
      exact h.same.trans (hb.same.mono Set.subset_union_left)
    · exact ⟨⟨he.1.alloc.mono Set.subset_union_left,
        h.same.trans (he.1.same.mono Set.subset_union_left)⟩, he.2⟩
  · have hp : (Art.inner has child).prune = some (.inner
        (fun b => has b && (child b).prune.isSome) fun b => (child b).prune.getD .emptyRoot) := by
      simp only [Art.prune]
      rw [← hkeys]
      rfl
    have hasc : Ascending ((b, s) :: e :: out) := by
      rw [Ascending, ← List.pairwise_map (f := Prod.fst) (R := (· < ·)), hkeys]
      exact allBytes_ascending.filter _
    obtain ⟨hw, hf⟩ := Inner.pack_spec hasc fun x hx => h.ne_zero (i := x.1) (s := x.2) hx
    have hkids := h.kids hw hf hmem (show ∀ b t, _ → _ → (child b).prune.getD .emptyRoot = t from
      fun b t _ ht => by simp [ht])
    simp only [packInnerNode, sat_bind, sat_pure, hp]
    exact (h.newInner_sat hkids rfl).imp fun s F'' h => h

theorem edges_keys {sfps : UInt8 → Set Cell} (hk : src.Kids n has child sfps)
    (context : String) : (n.edges context).map Prod.fst = allBytes.filter has := by
  obtain ⟨es, hes, hasc, hmem⟩ := Inner.edges_spec hk.wf context
  rw [hes, List.map_map]
  refine List.Pairwise.eq_of_mem_iff (r := (· < ·)) (List.pairwise_map.mpr hasc)
    (allBytes_ascending.filter _) fun b => ?_
  rw [List.mem_filter, ← hk.has_eq, Option.isSome_iff_exists]
  simp [hmem]

variable {recur : Slot → FrameM (Option Slot)} {sfps : UInt8 → Set Cell}
  (hk : src.Kids n has child sfps)
  (hrec : ∀ b c, n.findChild b = some c → Clones (recur c) ((child b).cloned filter))

include hk hrec

/-- Cloning along the edges, in byte order. -/
theorem cloneEdges_sat (ha : F.Alloc U) (context : String) :
    Sat (cloneEach recur filter (n.edges context)) F
      (fun out F' => out.map Prod.fst = allBytes.filter
          (fun b => has b && ((child b).cloned filter).isSome) ∧
        ∃ fps, Cloned F F' U (fun b => (child b).cloned filter) out fps) (Refused F U) := by
  obtain ⟨es, hes, hasc, hmem⟩ := Inner.edges_spec hk.wf context
  have hkeys := edges_keys hk context
  rw [hes, List.map_map] at hkeys
  rw [hes]
  refine (cloneEach_sat _ hasc.keys_nodup (fun b c hm => hrec b c ((hmem b c).mp hm))
    (fun hf b => by simp [Art.cloned, hf]) ha).imp fun out F' h => ?_
  refine ⟨?_, h.2⟩
  rw [h.1, show es.map Prod.fst = allBytes.filter has from hkeys, List.filter_filter]
  congr 1
  funext b
  exact Bool.and_comm ..

/-- Keeping every child: the same kind of node over the copies. -/
theorem preserveEdges_clones (hf : filter = false) (context : String)
    (mk : List (UInt8 × Slot) → Inner)
    (hmk : ∀ out : List (UInt8 × Slot), Ascending out → (∀ e ∈ out, e.2 ≠ 0) →
      out.map Prod.fst = allBytes.filter has →
      (mk out).Wf ∧ ∀ b, (mk out).findChild b = out.lookup b) :
    Clones (do
      let children ← cloneEach recur false (n.edges context)
      return some (← newNode (.inner (mk children)))) (some (.inner has child)) := by
  intro F U ha
  subst hf
  refine (cloneEdges_sat hk hrec ha context).andThen fun out F' h => ?_
  obtain ⟨hkeys, fps, hc⟩ := h
  simp only [Art.cloned, Bool.false_eq_true, if_false, Option.isSome_some, Bool.and_true] at hkeys
  have hasc : Ascending out := by
    rw [Ascending, ← List.pairwise_map (f := Prod.fst) (R := (· < ·)), hkeys]
    exact allBytes_ascending.filter _
  obtain ⟨hw, hfind⟩ := hmk out hasc (fun e he => hc.ne_zero (i := e.1) (s := e.2) he) hkeys
  have hkids : F'.Kids _ has child fps := hc.kids hw hfind (fun b => by simp [hkeys])
    fun b t _ ht => by simpa [Art.cloned] using ht
  simp only [sat_bind, sat_pure]
  exact (hc.newInner_sat hkids rfl).imp fun s F'' h => h

end Inner

/-- The byte that leads to a position of a node of 48. -/
def Node48.byteOf (n : Node48) (i : Nat) : UInt8 :=
  (allBytes.find? fun b => n.index b = i + 1).getD 0

theorem Node48.Shape.byteOf_eq {n : Node48} (h : n.Shape) {b : UInt8} {i : Nat}
    (hb : n.index b = i + 1) : n.byteOf i = b := by
  have hsome : (allBytes.find? fun b => n.index b = i + 1).isSome := by
    rw [List.find?_isSome]
    exact ⟨b, mem_allBytes b, by simpa using hb⟩
  obtain ⟨b', hb'⟩ := Option.isSome_iff_exists.mp hsome
  have hidx : n.index b' = i + 1 := by simpa using List.find?_some hb'
  rw [byteOf, hb', Option.getD_some]
  exact h.index_inj b' b (by omega) (hidx.trans hb.symm)

/-- A node of 48 is copied position by position. -/
theorem preserve48_clones {has : UInt8 → Bool} {child : UInt8 → Art} {n : Node48}
    {recur : Slot → FrameM (Option Slot)} {sfps : UInt8 → Set Cell}
    (hk : src.Kids (.node48 n) has child sfps)
    (hrec : ∀ b c, (Inner.node48 n).findChild b = some c → Clones (recur c) (some (child b))) :
    Clones (do
      let children ← cloneEach recur false n.positions
      return some (← newNode
        (.inner (.node48 { n with children := fun i => (children.lookup i).getD 0 }))))
      (some (.inner has child)) := by
  intro F U ha
  have hw : n.Wf := hk.wf
  have hfind : ∀ b, (Inner.node48 n).findChild b =
      if n.index b = 0 then none else some (n.children (n.index b - 1)) := fun _ => rfl
  let ps := ((List.range 48).filter fun i => n.children i ≠ 0).map fun i => (i, n.children i)
  have hps : n.positions = ps.map fun e => (e.1, .ok e.2) := by simp [Node48.positions, ps]
  have hkeys : ps.map Prod.fst = (List.range 48).filter fun i => n.children i ≠ 0 := by
    simp [ps, Function.comp_def]
  have hlead : ∀ i c, (i, c) ∈ ps → ∃ b, n.index b = i + 1 ∧ c = n.children i := by
    intro i c hm
    simp only [ps, List.mem_map, List.mem_filter, List.mem_range, decide_eq_true_eq,
      Prod.mk.injEq] at hm
    obtain ⟨j, ⟨hj, hj0⟩, rfl, rfl⟩ := hm
    obtain ⟨b, hb⟩ := hw.covered j hj hj0
    exact ⟨b, hb, rfl⟩
  rw [hps]
  refine (cloneEach_sat (fun i => some (child (n.byteOf i)))
    (hkeys ▸ List.nodup_range.filter _) (fun i c hm => ?_) (fun _ _ => rfl) ha).andThen
    fun out F' h => ?_
  · obtain ⟨b, hb, rfl⟩ := hlead i c hm
    have := hrec b (n.children i) (by rw [hfind, if_neg (by omega), hb, Nat.add_sub_cancel])
    rwa [← hw.byteOf_eq hb] at this
  · obtain ⟨hout, fps, hc⟩ := h
    simp only [Option.isSome_some, List.filter_true, hkeys] at hout
    have hnd : (out.map Prod.fst).Nodup := hout ▸ List.nodup_range.filter _
    have hin : ∀ i, i ∈ out.map Prod.fst ↔ i < 48 ∧ n.children i ≠ 0 := by simp [hout]
    -- a position is taken in the copy exactly where it was taken before
    have htaken : ∀ i, (out.lookup i).getD 0 ≠ 0 ↔ i < 48 ∧ n.children i ≠ 0 := by
      intro i
      rw [← hin i, ← lookup_isSome_iff]
      cases hl : out.lookup i with
      | none => simp
      | some s => simpa using hc.ne_zero (lookup_mem hl)
    have hchild : ∀ b, n.index b ≠ 0 → ∃ s, out.lookup (n.index b - 1) = some s ∧
        F'.Rep (child b) s (fps (n.index b - 1)) := by
      intro b h0
      have hle := hw.index_le b
      have hm := (hin (n.index b - 1)).mpr ⟨by omega, hw.child_ne b h0⟩
      obtain ⟨s, hs⟩ := Option.isSome_iff_exists.mp (lookup_isSome_iff.mpr hm)
      obtain ⟨t, ht, hr⟩ := hc.rep _ s (lookup_mem hs)
      cases ht
      rw [hw.byteOf_eq (b := b) (by omega)] at hr
      exact ⟨s, hs, hr⟩
    have hw' : ({ n with children := fun i => (out.lookup i).getD 0 } : Node48).Wf := by
      refine ⟨⟨hw.index_le, fun b h0 => ?_, hw.index_inj, fun i hi h0 => ?_⟩, ?_⟩
      · have hle := hw.index_le b
        exact (htaken (n.index b - 1)).mpr ⟨by omega, hw.child_ne b h0⟩
      · exact hw.covered i hi ((htaken i).mp h0).2
      · rw [hw.count_eq]
        refine congrArg _ (Finset.filter_congr fun i hi => ?_)
        rw [htaken i, and_iff_right (Finset.mem_range.mp hi)]
    have hhas : ∀ b, has b = true ↔ n.index b ≠ 0 := by
      intro b
      rw [← hk.has_eq, hfind]
      split <;> simp_all
    let fpb : UInt8 → Set Cell := fun b => if n.index b = 0 then ∅ else fps (n.index b - 1)
    have hkids : F'.Kids (.node48 { n with children := fun i => (out.lookup i).getD 0 }) has child
        fpb := by
      refine ⟨hw', fun b => ?_, fun b c hb => ?_, fun b hb => ?_, fun b b' hne => ?_⟩
      · rw [← hk.has_eq, hfind]
        simp only [Inner.findChild]
        split <;> rfl
      · simp only [Inner.findChild] at hb
        split at hb
        · cases hb
        · rename_i h0
          obtain ⟨s, hs, hr⟩ := hchild b h0
          rw [hs, Option.getD_some] at hb
          cases hb
          simpa only [fpb, if_neg h0] using hr
      · have h0 : n.index b = 0 := by
          by_contra h0
          rw [(hhas b).mpr h0] at hb
          cases hb
        simp only [fpb, if_pos h0]
      · simp only [fpb]
        split
        · exact Set.empty_disjoint _
        · split
          · exact Set.disjoint_empty _
          · rename_i h0 h0'
            refine hc.disjoint _ _ fun he => hne (hw.index_inj b b' h0 ?_)
            omega
    have hu : ⋃ b, fpb b = ⋃ i, fps i := by
      ext x
      simp only [Set.mem_iUnion]
      constructor
      · rintro ⟨b, hx⟩
        simp only [fpb] at hx
        split at hx
        · exact hx.elim
        · exact ⟨_, hx⟩
      · rintro ⟨i, hx⟩
        have hm : i ∈ out.map Prod.fst := by
          by_contra hm
          rw [hc.empty i hm] at hx
          exact hx
        obtain ⟨hi, h0⟩ := (hin i).mp hm
        obtain ⟨b, hb⟩ := hw.covered i hi h0
        refine ⟨b, ?_⟩
        simp only [fpb, hb]
        simpa using hx
    simp only [sat_bind, sat_pure]
    exact (hc.newInner_sat hkids hu).imp fun s F'' h => h

theorem cloneInner_clones {has : UInt8 → Bool} {child : UInt8 → Art} {n : Inner}
    {recur : Slot → FrameM (Option Slot)} {sfps : UInt8 → Set Cell}
    (hk : src.Kids n has child sfps)
    (hrec : ∀ b c, n.findChild b = some c → Clones (recur c) ((child b).cloned filter)) :
    Clones (cloneInner recur filter n) ((Art.inner has child).cloned filter) := by
  unfold cloneInner
  cases filter with
  | true =>
    intro F U ha
    refine (cloneEdges_sat hk hrec ha _).andThen fun out F' h => ?_
    obtain ⟨hkeys, fps, hc⟩ := h
    exact packInnerNode_sat hkeys hc
  | false =>
    cases n with
    | node4 es =>
      refine preserveEdges_clones hk hrec rfl _ Inner.node4 fun out hasc h0 hkeys => ?_
      have hlen := congrArg List.length (hkeys.trans (edges_keys hk "").symm)
      simp only [Inner.edges, List.length_map] at hlen
      have hw : (Inner.node4 out).Wf := ⟨hlen.trans_le hk.wf.1, hasc, h0⟩
      exact ⟨hw, Inner.findChild_node4 hw⟩
    | node16 es =>
      refine preserveEdges_clones hk hrec rfl _ Inner.node16 fun out hasc h0 hkeys => ?_
      have hlen := congrArg List.length (hkeys.trans (edges_keys hk "").symm)
      simp only [Inner.edges, List.length_map] at hlen
      exact ⟨⟨hlen.trans_le hk.wf.1, hasc, h0⟩, fun b => rfl⟩
    | node48 n => exact preserve48_clones hk hrec
    | node256 n =>
      refine preserveEdges_clones hk hrec rfl _
        (fun out => .node256 { n with children := fun b => (out.lookup b).getD 0 })
        fun out hasc h0 hkeys => ⟨trivial, fun b => ?_⟩
      simp only [Inner.findChild]
      cases hl : out.lookup b with
      | none => simp
      | some s => simp [h0 _ (lookup_mem hl)]

/-- The copy of a tree holds what `Art.cloned` says, or the new blob is full. -/
theorem cloneSubtree_clones {t : Art} {s : Slot} {fp : Set Cell} {π : List UInt8} {fuel : Nat}
    (hr : src.Rep t s fp) (hw : t.Wf π) (hfuel : t.height < fuel) :
    Clones (cloneSubtree src filter fuel s) (t.cloned filter) := by
  induction t generalizing s fp π fuel with
  | emptyRoot =>
    intro F U ha
    obtain ⟨m, rfl⟩ := succ_of_lt hfuel
    obtain ⟨e, he, ht⟩ := hr.1.slotEntry
    have hsome : Art.emptyRoot.cloned filter = some .emptyRoot := by cases filter <;> rfl
    simp only [cloneSubtree, he, ht, hr.1.bodyOfSlot, sat_bind, sat_pure, hsome]
    exact emptyRoot_built ha
  | leaf r =>
    obtain ⟨m, rfl⟩ := succ_of_lt hfuel
    obtain ⟨l, hn, hst, -⟩ := hr
    obtain ⟨e, he, ht⟩ := hn.slotEntry
    simp only [cloneSubtree, he, ht, hn.bodyOfSlot]
    exact cloneLeaf_clones hst
  | pfx bytes child ih =>
    intro F U ha
    obtain ⟨m, rfl⟩ := succ_of_lt hfuel
    obtain ⟨c, fpc, hn, hchild, -⟩ := hr
    obtain ⟨e, he, ht⟩ := hn.slotEntry
    have hcl : (Art.pfx bytes child).cloned filter = (child.cloned filter).map (.pfx bytes) := by
      cases filter <;> simp [Art.cloned, Art.prune]
    simp only [Art.height] at hfuel
    simp only [cloneSubtree, he, ht, hn.bodyOfSlot, hcl, List.take_of_length_le hw.2.1]
    refine (ih hchild hw.2.2 (show child.height < m by omega) ha).andThen fun o F₁ h₁ => ?_
    cases hc : child.cloned filter with
    | none =>
      rw [hc] at h₁
      cases o with
      | some s => exact h₁.elim
      | none => exact .pure h₁
    | some t =>
      rw [hc] at h₁
      cases o with
      | none => exact h₁.elim
      | some s =>
        obtain ⟨fp₁, hb⟩ := h₁
        simp only [sat_bind, sat_pure]
        refine (newPfx_sat hb.alloc bytes s).mono (fun s' F₂ h₂ => ?_) fun e F₂ he => by
          simpa using hb.refused he
        exact ⟨_, hb.trans (h₂.built hb.rep hb.disjoint)⟩
  | inner has child ih =>
    obtain ⟨m, rfl⟩ := succ_of_lt hfuel
    obtain ⟨n, fps, hn, hk, -⟩ := rep_inner_iff.mp hr
    obtain ⟨e, he, ht⟩ := hn.slotEntry
    simp only [cloneSubtree, he, ht, hn.bodyOfSlot]
    refine cloneInner_clones hk fun b c hf => ?_
    have hb : has b = true := by rw [← hk.has_eq, hf, Option.isSome_some]
    have hlt := Art.height_child child hb
    exact ih b (hk.rep b c hf) (hw b hb) (by omega)
  | blob bytes guid =>
    intro F U ha
    obtain ⟨m, rfl⟩ := succ_of_lt hfuel
    obtain ⟨e, he, ht⟩ := hr.1.slotEntry
    have hsome : (Art.blob bytes guid).cloned filter = some (.blob bytes guid) := by
      cases filter <;> rfl
    simp only [cloneSubtree, he, ht, hr.1.bodyOfSlot, sat_bind, sat_pure, hsome,
      List.take_of_length_le (show bytes.length ≤ blobMaxInline from hw)]
    refine (newNode_sat ha (by simp [Body.ntype])).mono (fun s' F' h => ?_)
      fun _ _ he => refused_of_eq ha he
    refine ⟨{.slot s'}, ⟨h.node, rfl⟩, Set.empty_subset _,
      Set.disjoint_singleton_right.mpr h.fresh, ?_, ?_⟩
    · rw [Set.union_singleton]
      exact h.alloc
    · rw [Set.union_empty]
      exact h.same

end Clone

/-! ## What a blob holds -/

/-- The blob's tree. Its cells are the only ones that must be kept. -/
def Frame.Holds (F : Frame) (t : Art) : Prop := ∃ fp, F.Rep t F.rootSlot fp ∧ F.Alloc fp

theorem Frame.init_holds (guid : BlobGuid) :
    ∃ F, Frame.init guid = .ok F ∧ F.Holds .emptyRoot ∧ F.blobGuid = guid := by
  obtain ⟨F, hF, hg, hroot, hn, ha⟩ := init_spec guid
  exact ⟨F, hF, ⟨{.slot 1}, ⟨hroot ▸ hn, by rw [hroot]⟩, ha⟩, hg⟩

variable {fp : Set Cell} {t : Art} {π : List UInt8}

theorem setRoot_sat {F : Frame} {entry : Slot} (hn : F.NodeAt 1 .emptyRoot)
    (hroot : F.rootSlot = 1) (hr : F.Rep t entry fp) (hd : Disjoint {.slot 1} fp)
    (ha : F.Alloc ({.slot 1} ∪ fp)) (err : Error → Frame → Prop) :
    Sat (setRoot entry) F (fun _ F' => F'.Holds t ∧ F'.blobGuid = F.blobGuid) err := by
  have hne : entry ≠ 1 := by
    rintro rfl
    exact Set.disjoint_left.mp hd rfl hr.slot_mem
  simp only [setRoot, sat_bind, sat_get, hroot, true_and, if_pos hne]
  have hb : Built F F {.slot 1} fp t entry fp := Built.refl hr hd ha
  refine (freeNode_built hb (Set.empty_subset _) rfl (Set.notMem_empty _) hn.1 err).imp
    fun _ F₁ h₁ => ?_
  rw [sat_modify]
  have ha₁ := h₁.alloc
  rw [Set.empty_union] at ha₁
  exact ⟨⟨fp, h₁.rep.congr ⟨fun _ _ => ⟨rfl, rfl⟩, fun _ _ => rfl, le_rfl⟩ subset_rfl,
    ha₁.congr rfl rfl rfl rfl⟩, h₁.same.blobGuid⟩

/-- The header's statistics are not part of what a blob holds. -/
theorem Frame.Holds.header {F F' : Frame} (h : F.Holds t) (hs : F'.slots = F.slots)
    (hb : F'.bodies = F.bodies) (hd : F'.data = F.data) (hn : F'.numSlots = F.numSlots)
    (hu : F'.spaceUsed = F.spaceUsed) (hf : F'.freeListHead = F.freeListHead)
    (hr : F'.rootSlot = F.rootSlot) : F'.Holds t := by
  obtain ⟨fp, hrep, ha⟩ := h
  refine ⟨fp, ?_, ha.congr hn hu hf hs⟩
  rw [hr]
  exact hrep.congr ⟨fun s _ => ⟨by rw [hs], by rw [hb]⟩, fun a _ => by rw [hd], hn.ge⟩ subset_rfl

theorem buildFrame_spec {guid : BlobGuid} {x : FrameM Unit} {P : Frame → Prop}
    {E : Error → Prop} (h : ∀ F, Frame.init guid = .ok F → F.blobGuid = guid → F.rootSlot = 1 →
      F.NodeAt 1 .emptyRoot → F.Alloc {.slot 1} → Sat x F (fun _ F' => P F') fun e _ => E e) :
    (∃ F, buildFrame guid x = .ok F ∧ P F) ∨ ∃ e, buildFrame guid x = .error e ∧ E e := by
  obtain ⟨F, hF, hg, hroot, hn, ha⟩ := init_spec guid
  have hx := h F hF hg hroot hn ha
  unfold buildFrame
  rw [hF]
  cases hr : x F with
  | ok u F' => exact Or.inl ⟨F', by simp only [hr], hx.of_ok hr⟩
  | error e F' => exact Or.inr ⟨e, by simp only [hr], hx.of_error hr⟩

/-- The copied root replaces the sentinel of the fresh frame. -/
theorem setRoot_built {F F₁ : Frame} {entry : Slot} (hroot : F.rootSlot = 1)
    (hn : F.NodeAt 1 .emptyRoot) (hb : Built F F₁ {.slot 1} ∅ t entry fp)
    (err : Error → Frame → Prop) :
    Sat (setRoot entry) F₁ (fun _ F' => F'.Holds t ∧ F'.blobGuid = F.blobGuid) err := by
  have hsame : F.Same F₁ {.slot 1} := hb.same.mono Set.subset_union_left
  refine (setRoot_sat (hn.same hsame rfl) (hsame.rootSlot.trans hroot) hb.rep hb.disjoint hb.alloc
    err).imp fun _ F₂ h₂ => ⟨h₂.1, h₂.2.trans hsame.blobGuid⟩

theorem makeBlobFromNode_spec {src : Frame} {s : Slot} {U : Set Cell} (hr : src.Rep t s fp)
    (ha : src.Alloc U) (hu : fp ⊆ U) (hw : t.Wf π) (guid : BlobGuid) :
    (∃ F, makeBlobFromNode src s guid = .ok F ∧ F.Holds t ∧ F.blobGuid = guid) ∨
    ∃ e, makeBlobFromNode src s guid = .error e ∧ e.IsResource := by
  refine buildFrame_spec fun F _ hg hroot hn haF => ?_
  refine (cloneSubtree_clones hr hw (hr.height_lt ha hu) haF).bind
    (fun o F₁ h₁ => ?_) fun _ _ he => he.2
  cases o with
  | none => exact h₁.elim
  | some c =>
    obtain ⟨fp₁, hb⟩ := h₁
    exact (setRoot_built hroot hn hb _).imp fun _ F₂ h₂ => ⟨h₂.1, h₂.2.trans hg⟩

/-- The root of the rebuilt tree, before the sentinel goes. -/
theorem rebuildEntry_sat {F N : Frame} (h : F.Holds t) (hw : t.Wf π) (haN : N.Alloc {.slot 1}) :
    Sat (cloneSubtree F true (F.numSlots + 1) F.rootSlot >>= entryOf) N
      (fun entry F' => ∃ fp, Built N F' {.slot 1} ∅ (t.prune.getD .emptyRoot) entry fp)
      (fun e _ => e.IsResource) := by
  obtain ⟨fp, hr, ha⟩ := h
  refine (cloneSubtree_clones hr hw (hr.height_lt ha subset_rfl) haN).bind
    (fun o F₁ h₁ => ?_) fun _ _ he => he.2
  simp only [Art.cloned, if_true] at h₁
  cases hp : t.prune with
  | some t' =>
    rw [hp] at h₁
    cases o with
    | none => exact h₁.elim
    | some c => exact .pure h₁
  | none =>
    rw [hp] at h₁
    cases o with
    | some c => exact h₁.elim
    | none =>
      refine (emptyRoot_built h₁.alloc).mono (fun s F₂ ⟨fp, hb⟩ => ?_) fun _ _ he => he.2
      refine ⟨fp, hb.rep, hb.sub, hb.disjoint, hb.alloc, ?_⟩
      rw [Set.union_empty]
      exact h₁.same.trans (hb.same.mono Set.subset_union_left)

theorem rebuild_sat {F N : Frame} (h : F.Holds t) (hw : t.Wf π) (hroot : N.rootSlot = 1)
    (hn : N.NodeAt 1 .emptyRoot) (haN : N.Alloc {.slot 1}) :
    Sat (rebuild F) N
      (fun _ F' => F'.Holds (t.prune.getD .emptyRoot) ∧ F'.blobGuid = N.blobGuid)
      (fun e _ => e.IsResource) := by
  rw [rebuild, ← bind_assoc]
  refine (rebuildEntry_sat h hw haN).andThen fun entry F₂ ⟨fp, hb⟩ => ?_
  refine (setRoot_built hroot hn hb _).andThen fun _ F₃ h₃ => ?_
  rw [sat_modify]
  exact ⟨h₃.1.header rfl rfl rfl rfl rfl rfl rfl, h₃.2⟩

/-- Compaction keeps what is alive; when it fails, the blob is as it was. -/
theorem compactBlob_sat {F : Frame} (h : F.Holds t) (hw : t.Wf π) :
    Sat compactBlob F
      (fun _ F' => F'.Holds (t.prune.getD .emptyRoot) ∧ F'.blobGuid = F.blobGuid)
      (fun e F' => F' = F ∧ e.IsResource) := by
  have hbuild := buildFrame_spec (x := rebuild F)
    (P := fun F' => F'.Holds (t.prune.getD .emptyRoot) ∧ F'.blobGuid = F.blobGuid)
    (E := Error.IsResource) fun N _ hg hroot hn haN =>
      (rebuild_sat h hw hroot hn haN).imp fun _ F' h' => ⟨h'.1, h'.2.trans hg⟩
  simp only [compactBlob, sat_bind, sat_get]
  obtain ⟨F', hF, hP⟩ | ⟨e, hF, hE⟩ := hbuild
  · simpa only [hF, lift_ok, sat_pure, sat_set] using hP
  · simpa only [hF, lift_error, sat_throw, true_and] using hE

end Holt
