import Holt.Walker.Shortage

/-! Compaction to the byte. The rebuilt blob starts without free lists, so it takes exactly what
the live part of the tree weighs; rebuilding it once more takes the same. -/

namespace Holt

open Holt.Lib Holt.Frame

/-! ## Exact costs -/

/-- Nothing waits on a free list. -/
def Frame.Unfreed (F : Frame) : Prop := ∀ t, F.freeListHead t = 0

structure Frame.Grew (F F' : Frame) (slots bytes : Nat) : Prop where
  unfreed : F'.Unfreed
  numSlots : F'.numSlots = F.numSlots + slots
  spaceUsed : F'.spaceUsed = F.spaceUsed + bytes

/-- Where nothing was freed, a program that takes exactly so many nodes and bytes, and runs out of
room only where there are not as many. -/
def Costs {α : Type} (slots bytes : Nat) (x : FrameM α) (ok : α → Frame → Prop) : Prop :=
  ∀ F : Frame, F.Unfreed → Sat x F (fun r F' => ok r F' ∧ F.Grew F' slots bytes)
    (fun e _ => e.IsResource → ¬F.Room slots bytes)

section Costs

variable {α β : Type} {m n a b : Nat} {ok ok' : α → Frame → Prop}

variable {F : Frame}

theorem Frame.Grew.refl (h : F.Unfreed) : F.Grew F 0 0 := ⟨h, rfl, rfl⟩

theorem Frame.Grew.trans {F' F'' : Frame} (h : F.Grew F' m a) (h' : F'.Grew F'' n b) :
    F.Grew F'' (m + n) (a + b) :=
  ⟨h'.unfreed, by rw [h'.numSlots, h.numSlots, Nat.add_assoc],
    by rw [h'.spaceUsed, h.spaceUsed, Nat.add_assoc]⟩

/-- Bodies, bytes and the header's statistics cost nothing. -/
theorem Frame.Grew.congr {F₁ F₂ : Frame} (h : F.Grew F₁ m a)
    (hf : F₂.freeListHead = F₁.freeListHead) (hn : F₂.numSlots = F₁.numSlots)
    (hu : F₂.spaceUsed = F₁.spaceUsed) : F.Grew F₂ m a :=
  ⟨fun t => by rw [hf, h.unfreed t], hn.trans h.numSlots, hu.trans h.spaceUsed⟩

theorem Frame.Room.of_grew {F' : Frame} (h : F.Grew F' m a) (hr : F.Room (m + n) (a + b)) :
    F'.Room n b := by
  unfold Room at *
  rw [h.numSlots, h.spaceUsed]
  omega

theorem Costs.mono {x : FrameM α} (h : Costs m a x ok) (hok : ∀ r F, ok r F → ok' r F) :
    Costs m a x ok' :=
  fun F hF => (h F hF).imp fun r F' h' => ⟨hok r F' h'.1, h'.2⟩

theorem Costs.pure {r : α} (h : ∀ F, ok r F) : Costs 0 0 (Pure.pure r : FrameM α) ok :=
  fun F hF => .pure ⟨h F, Grew.refl hF⟩

theorem Costs.bind {x : FrameM α} {f : α → FrameM β} {ok' : β → Frame → Prop}
    (hx : Costs m a x ok) (hf : ∀ r F, ok r F → Costs n b (f r) ok') :
    Costs (m + n) (a + b) (x >>= f) ok' := by
  intro F hF
  apply (hx F hF).bind
  · intro r F' h'
    apply (hf r F' h'.1 F' h'.2.unfreed).mono
    · exact fun s F'' h'' => ⟨h''.1, h'.2.trans h''.2⟩
    · exact fun e _ he hres hroom => he hres (hroom.of_grew h'.2)
  · intro e F' he hres hroom
    refine he hres ?_
    unfold Room at *
    omega

/-- Something that costs nothing may come after. -/
theorem Costs.map {x : FrameM α} {f : α → β} {ok' : β → Frame → Prop} (hx : Costs m a x ok)
    (hf : ∀ r F, ok r F → ok' (f r) F) : Costs m a (x >>= fun r => Pure.pure (f r)) ok' := by
  intro F hF
  apply (hx F hF).bind
  · exact fun r F' h' => .pure ⟨hf r F' h'.1, h'.2⟩
  · exact fun _ _ he => he

end Costs

/-! ## Allocations -/

theorem Frame.Settles.grew {F F' : Frame} {t : NodeType} {s : Slot} (h : F.Settles F' t s)
    (hF : F.Unfreed) : (t ≠ .blob → F'.Room 0 0) ∧ F.Grew F' 1 (sizeOfNode t) := by
  rcases h.source with ⟨list, e, hp⟩ | hb
  · exact absurd (hp.head.symm.trans (hF list)) hp.ne_zero
  · refine ⟨fun ht => ?_, fun k => by rw [hb.heads, hF], hb.numSlots, hb.spaceUsed⟩
    have hfits := hb.fits
    have hroom := hb.room
    have hpos := sizeOfNode_pos h.valid
    rw [nodeAvail, if_neg ht] at hfits
    unfold Room
    rw [hb.numSlots, hb.spaceUsed]
    omega

theorem allocNode_costs (t : NodeType) :
    Costs 1 (sizeOfNode t) (allocNode t) fun _ F' => t ≠ .blob → F'.Room 0 0 :=
  fun F hF => (allocNode_effect F t).mono (fun _ _ h => h.grew hF) fun _ _ he => he.2.not_room

theorem newNode_costs (b : Body) :
    Costs 1 (sizeOfNode b.ntype) (newNode b) fun _ F' => b.ntype ≠ .blob → F'.Room 0 0 := by
  intro F hF
  apply (newNode_effect F b).mono
  · rintro s _ ⟨F₁, h, rfl⟩
    exact ⟨(h.grew hF).1, (h.grew hF).2.congr rfl rfl rfl⟩
  · rintro e _ (⟨-, he⟩ | he) hres
    · exact he.not_room hres
    · exact absurd hres he.not_resource

theorem storeLeaf_costs {size : Nat} (h0 : 0 < size) (h8 : size % 8 = 0) (context : String)
    (bytes : List UInt8) (leaf : Nat → Leaf) :
    Costs 1 (size + sizeOfNode .leaf) (storeLeaf context size bytes leaf)
      fun _ F' => F'.Room 0 0 := by
  intro F hF
  have hround : (size + 7) / 8 * 8 = size := by omega
  apply (allocExtent_effect F size).bind
  · rintro _ _ ⟨-, rfl, -, rfl⟩
    rw [hround]
    split
    · exact .throw fun hres => absurd hres (Error.not_resource (by simp))
    · rw [sat_bind, sat_modify]
      have hgrew : F.Grew (Frame.putBytes { F with spaceUsed := F.spaceUsed + size } F.spaceUsed
          bytes) 0 size := ⟨hF, rfl, rfl⟩
      apply (newNode_costs (.leaf (leaf F.spaceUsed)) _ hgrew.unfreed).mono
      · rintro s F' ⟨hroom, h⟩
        refine ⟨hroom NodeType.noConfusion, ?_⟩
        have := hgrew.trans h
        rwa [Nat.zero_add] at this
      · intro e _ he hres hroom
        refine he hres (Room.of_grew hgrew ?_)
        rwa [Nat.zero_add]
  · rintro e _ ⟨-, he⟩ _ hroom
    unfold Room at hroom
    omega

/-! ## Cloning what is alive -/

/-- Cloning to `o` takes its nodes and its weight. The reserved tail is only touched by a node that
leads to another blob. -/
def CloneCosts (x : FrameM (Option Slot)) (o : Option Art) : Prop :=
  Costs (o.elim 0 Art.nodes) (o.elim 0 Art.weight) x fun r F' =>
    r.isSome = o.isSome ∧
      (r.isSome = true → (∃ bytes guid, o = some (.blob bytes guid)) ∨ F'.Room 0 0)

theorem cloneLeaf_costs {src : Frame} {l : Leaf} {r : Record} (hst : src.Stores l r) :
    CloneCosts (cloneLeaf src l true) (Art.leaf r).prune := by
  unfold cloneLeaf
  cases hdead : r.tombstone with
  | true =>
    have hp : (Art.leaf r).prune = none := by simp [Art.prune, hdead]
    rw [hp, if_pos ⟨rfl, hst.tombstone.trans hdead⟩]
    exact Costs.pure fun _ => ⟨rfl, fun h => by cases h⟩
  | false =>
    have hp : (Art.leaf r).prune = some (.leaf r) := by simp [Art.prune, hdead]
    have hlive : ¬(true = true ∧ l.tombstone = true) := by simp [hst.tombstone, hdead]
    obtain ⟨b₀, b₁, hhdr, hklen⟩ := hst.header
    rw [hp, if_neg hlive]
    simp only [hhdr, hklen, hst.valueSize]
    split
    · intro F _
      exact .throw fun hres => absurd hres (Error.not_resource (by simp))
    · apply (storeLeaf_costs (leafExtentSize_pos ..) (leafExtentSize_mod ..) _ _ _).map
      exact fun s F' h => ⟨rfl, fun _ => .inr h⟩

theorem cloneEach_costs {ι : Type} {recur : Slot → FrameM (Option Slot)} (tr : ι → Option Art)
    {items : List (ι × Slot)} (hrec : ∀ i c, (i, c) ∈ items → CloneCosts (recur c) (tr i)) :
    Costs (items.map fun e => (tr e.1).elim 0 Art.nodes).sum
      (items.map fun e => (tr e.1).elim 0 Art.weight).sum
      (cloneEach recur true (items.map fun e => (e.1, .ok e.2)))
      fun out _ => out.map Prod.fst = (items.map Prod.fst).filter fun i => (tr i).isSome := by
  induction items with
  | nil => exact Costs.pure fun _ => rfl
  | cons e items ih =>
    obtain ⟨i, c⟩ := e
    have ih := ih fun j c hm => hrec j c (List.mem_cons_of_mem _ hm)
    simp only [List.map_cons, List.sum_cons, cloneEach, lift_ok, pure_bind, if_true]
    apply (hrec i c List.mem_cons_self).bind
    rintro o F ⟨ho, -⟩
    cases o with
    | none =>
      refine ih.mono fun out _ h => ?_
      rw [h, List.filter_cons_of_neg (by simp [← ho])]
    | some s =>
      refine ih.map fun out _ h => ?_
      rw [List.map_cons, h, List.filter_cons_of_pos (by simp [← ho])]

theorem pack_ntype (survivors : List (UInt8 × Slot)) :
    (Inner.pack survivors).ntype = Art.packType survivors.length := by
  unfold Inner.pack Art.packType
  split
  · rfl
  · split
    · rfl
    · split <;> rfl

/-- What a packed node takes: a sole survivor hangs below a one-byte prefix. -/
def packCost (survivors : Nat) : Nat :=
  match survivors with
  | 0 => 0
  | 1 => sizeOfNode .prefixNode
  | n => sizeOfNode (Art.packType n)

theorem packInnerNode_costs (out : List (UInt8 × Slot)) :
    Costs (min out.length 1) (packCost out.length) (packInnerNode out)
      fun o F' => o.isSome = !out.isEmpty ∧ (o.isSome = true → F'.Room 0 0) := by
  rcases out with _ | ⟨⟨b, c⟩, _ | ⟨e, out⟩⟩
  · exact Costs.pure fun _ => ⟨rfl, fun h => by cases h⟩
  · have hchain : writePrefixChain [b] c = newNode (.pfx ⟨[b], c⟩) >>= pure := rfl
    have hnew := newNode_costs (.pfx ⟨[b], c⟩)
    rw [packInnerNode, hchain, bind_pure]
    exact hnew.map fun s F' h => ⟨rfl, fun _ => h NodeType.noConfusion⟩
  · have htype := pack_ntype ((b, c) :: e :: out)
    have hnew := newNode_costs (.inner (.pack ((b, c) :: e :: out)))
    rw [Body.ntype, htype] at hnew
    have hmin : min ((b, c) :: e :: out).length 1 = 1 := by simp
    rw [hmin]
    refine hnew.map fun s F' h => ⟨rfl, fun _ => h ?_⟩
    unfold Art.packType
    split
    · exact NodeType.noConfusion
    · split
      · exact NodeType.noConfusion
      · split <;> exact NodeType.noConfusion

section Inner

variable {has : UInt8 → Bool} {child : UInt8 → Art}

theorem sum_alive (f : Art → Nat) (l : List UInt8) :
    ((l.filter has).map fun b => (child b).prune.elim 0 f).sum =
      ((l.filter fun b => has b && (child b).prune.isSome).map fun b =>
        f ((child b).prune.getD .emptyRoot)).sum := by
  induction l with
  | nil => rfl
  | cons b l ih =>
    cases hb : has b <;> cases hp : (child b).prune <;> simp [hb, hp, ih]

/-- The live parts of the children and the node over them are the live part of the whole. -/
theorem alive_cost (has : UInt8 → Bool) (child : UInt8 → Art) (own : Art → Nat)
    (pack : Nat → Nat) (h0 : pack 0 = 0)
    (hone : ∀ b t, own (.pfx [b] t) = pack 1)
    (hmany : ∀ n has child, (allBytes.filter has).length = n + 2 →
      own (.inner has child) = pack (n + 2)) :
    ((allBytes.filter has).map fun b => (child b).prune.elim 0 (Art.total own)).sum +
      pack (allBytes.filter fun b => has b && (child b).prune.isSome).length =
    (Art.inner has child).prune.elim 0 (Art.total own) := by
  rw [sum_alive]
  cases hf : allBytes.filter fun b => has b && (child b).prune.isSome with
  | nil => simp [Art.prune_inner_none hf, h0]
  | cons b rest =>
    cases rest with
    | nil =>
      have hb := Art.mem_alive.mp (hf ▸ List.mem_cons_self (a := b))
      obtain ⟨tb, htb⟩ := Option.isSome_iff_exists.mp hb.2
      simp [Art.prune_inner_one hf, htb, Art.total, hone]
    | cons b₂ rest =>
      rw [Art.prune_inner_many hf, Option.elim_some, Art.total, hf,
        hmany rest.length _ _ (by simp [hf])]
      rfl

theorem prune_inner_isSome : (Art.inner has child).prune.isSome =
    !(allBytes.filter fun b => has b && (child b).prune.isSome).isEmpty := by
  cases hf : allBytes.filter fun b => has b && (child b).prune.isSome with
  | nil => simp [Art.prune_inner_none hf]
  | cons b rest =>
    cases rest with
    | nil =>
      have hb := Art.mem_alive.mp (hf ▸ List.mem_cons_self (a := b))
      simpa [Art.prune_inner_one hf] using hb.2
    | cons b₂ rest => simp [Art.prune_inner_many hf]

theorem cloneInner_costs {src : Frame} {n : Inner} {recur : Slot → FrameM (Option Slot)}
    {sfps : UInt8 → Set Cell} (hk : src.Kids n has child sfps)
    (hrec : ∀ b c, n.findChild b = some c → CloneCosts (recur c) (child b).prune) :
    CloneCosts (cloneInner recur true n) (Art.inner has child).prune := by
  obtain ⟨es, hes, -, hmem⟩ := Inner.edges_spec hk.wf "clone_node48: index out of range"
  have hkeys := edges_keys hk "clone_node48: index out of range"
  rw [hes, List.map_map] at hkeys
  replace hkeys : es.map Prod.fst = allBytes.filter has := hkeys
  have heach := cloneEach_costs (fun b => (child b).prune)
    fun b c hm => hrec b c ((hmem b c).mp hm)
  have hsum : ∀ f : Art → Nat, (es.map fun e => (child e.1).prune.elim 0 f).sum =
      ((allBytes.filter has).map fun b => (child b).prune.elim 0 f).sum := by
    intro f
    rw [← hkeys, List.map_map]
    rfl
  have hnodes := alive_cost has child (fun _ => 1) (fun n => min n 1) rfl
    (fun _ _ => rfl) fun n _ _ _ => by simp
  have hweight := alive_cost has child Art.ownWeight packCost rfl
    (fun _ _ => rfl) fun n has _ hn => by rw [Art.ownWeight, hn]; rfl
  unfold CloneCosts Art.nodes Art.weight
  rw [← hnodes, ← hweight, ← hsum, ← hsum]
  simp only [cloneInner, if_true, hes]
  apply heach.bind
  intro out F hout
  have hout : out.map Prod.fst = allBytes.filter fun b => has b && (child b).prune.isSome := by
    rw [hout, hkeys, List.filter_filter]
    congr 1
    funext b
    exact Bool.and_comm ..
  rw [← hout, List.length_map]
  refine (packInnerNode_costs out).mono fun o F' h => ⟨?_, fun ho => .inr (h.2 ho)⟩
  rw [h.1, prune_inner_isSome, ← hout, List.isEmpty_map]

end Inner

variable {F : Frame} {t : Art} {π : List UInt8}

/-- Cloning a tree without its tombstones takes what is left of it, to the byte. -/
theorem cloneSubtree_costs {src : Frame} {s : Slot} {fp : Set Cell} {fuel : Nat}
    (hr : src.Rep t s fp) (hw : t.Wf π) (hfuel : t.height < fuel) :
    CloneCosts (cloneSubtree src true fuel s) t.prune := by
  obtain ⟨m, rfl⟩ := succ_of_lt hfuel
  induction t generalizing s fp π m with
  | emptyRoot =>
    obtain ⟨e, he, ht⟩ := hr.1.slotEntry
    simp only [cloneSubtree, he, ht, hr.1.bodyOfSlot]
    exact (allocNode_costs _).map fun s F' h =>
      ⟨rfl, fun _ => .inr (h NodeType.noConfusion)⟩
  | leaf r =>
    obtain ⟨l, hn, hst, -⟩ := hr
    obtain ⟨e, he, ht⟩ := hn.slotEntry
    simp only [cloneSubtree, he, ht, hn.bodyOfSlot]
    exact cloneLeaf_costs hst
  | pfx bytes child ih =>
    obtain ⟨c, fpc, hn, hchild, -⟩ := hr
    obtain ⟨e, he, ht⟩ := hn.slotEntry
    simp only [Art.height] at hfuel
    obtain ⟨k, rfl⟩ := succ_of_lt (show child.height < m by omega)
    have hc := ih hchild hw.2.2 k (by omega)
    rw [cloneSubtree, he]
    simp only [ht, hn.bodyOfSlot, Art.prune]
    cases hp : child.prune with
    | none =>
      rw [hp] at hc
      apply hc.bind (n := 0) (b := 0)
      rintro o _ ⟨ho, -⟩
      cases o with
      | none => exact Costs.pure fun _ => ⟨rfl, fun h => by cases h⟩
      | some s => cases ho
    | some child' =>
      rw [hp] at hc
      apply hc.bind (n := 1) (b := sizeOfNode .prefixNode)
      rintro o _ ⟨ho, -⟩
      cases o with
      | none => cases ho
      | some s =>
        exact (newNode_costs (.pfx _)).map fun s F' h =>
          ⟨rfl, fun _ => .inr (h NodeType.noConfusion)⟩
  | inner has child ih =>
    obtain ⟨n, fps, hn, hk, -⟩ := rep_inner_iff.mp hr
    obtain ⟨e, he, ht⟩ := hn.slotEntry
    simp only [cloneSubtree, he, ht, hn.bodyOfSlot]
    refine cloneInner_costs hk fun b c hf => ?_
    have hb : has b = true := by rw [← hk.has_eq, hf, Option.isSome_some]
    have hlt := Art.height_child child hb
    obtain ⟨k, rfl⟩ := succ_of_lt (show (child b).height < m by omega)
    exact ih b (hk.rep b c hf) (hw b hb) k (by omega)
  | blob bytes guid =>
    obtain ⟨e, he, ht⟩ := hr.1.slotEntry
    simp only [cloneSubtree, he, ht, hr.1.bodyOfSlot]
    exact (newNode_costs (.blob _)).map fun s F' _ =>
      ⟨rfl, fun _ => .inl ⟨bytes, guid, rfl⟩⟩

/-! ## The rebuilt blob -/

/-- A fresh blob: the sentinel's slot and its 8 bytes. -/
theorem Frame.init_cost (guid : BlobGuid) : ∃ F, Frame.init guid = .ok F ∧ F.Unfreed ∧
    F.numSlots = 1 ∧ F.spaceUsed = dataAreaStart + sizeOfNode .emptyRoot := by
  have hcost : Sat (allocNode .emptyRoot) (blank guid) _ _ :=
    allocNode_costs _ (blank guid) fun _ => rfl
  have hslot := init_slot guid
  cases hr : allocNode .emptyRoot (blank guid) with
  | error e F => exact (hslot.of_error hr).elim
  | ok s F =>
    obtain ⟨-, hunfreed, hslots, hspace⟩ := hcost.of_ok hr
    exact ⟨{ F with rootSlot := s }, by unfold init; rw [hr], hunfreed, hslots, hspace⟩

/-- What the header of a rebuilt blob says, when its tree is `t`. -/
structure Rebuilt (F F' : Frame) (t : Art) : Prop where
  numSlots : F'.numSlots = 1 + t.nodes
  spaceUsed : F'.spaceUsed = dataAreaStart + sizeOfNode .emptyRoot + t.weight
  leafList : F'.freeListHead .leaf = 0
  tombstoneLeafCnt : F'.tombstoneLeafCnt = 0
  compactTimes : F'.compactTimes = min (F.compactTimes + 1) (2 ^ 32 - 1)

/-- The blob has room for the sentinel and the tree. -/
def Art.FitsBlob (t : Art) : Prop :=
  1 + t.nodes ≤ maxSlots ∧
    dataAreaStart + sizeOfNode .emptyRoot + t.weight + spilloverReservation ≤ pageSize

theorem rebuildEntry_costs (h : F.Holds t) (hw : t.Wf π) :
    Costs t.compacted.nodes t.compacted.weight
      (cloneSubtree F true (F.numSlots + 1) F.rootSlot >>= entryOf)
      fun _ F' => (∃ bytes guid, t.compacted = .blob bytes guid) ∨ F'.Room 0 0 := by
  obtain ⟨fp, hr, ha⟩ := h
  have hclone := cloneSubtree_costs hr hw (hr.height_lt ha subset_rfl)
  unfold Art.compacted
  cases hp : t.prune with
  | none =>
    rw [hp] at hclone
    rw [show (Option.getD none Art.emptyRoot).nodes = 0 + 1 from rfl,
      show (Option.getD none Art.emptyRoot).weight = 0 + sizeOfNode .emptyRoot from rfl]
    apply hclone.bind
    rintro o _ ⟨ho, -⟩
    cases o with
    | some s => cases ho
    | none =>
      exact (allocNode_costs _).mono fun _ _ h =>
        .inr (h NodeType.noConfusion)
  | some t' =>
    rw [hp] at hclone
    intro N hN
    apply (hclone N hN).bind
    · rintro o F₁ ⟨⟨ho, hroom⟩, hgrew⟩
      cases o with
      | none => cases ho
      | some s =>
        refine .pure ⟨?_, hgrew⟩
        rcases hroom rfl with ⟨bytes, guid, hb⟩ | hroom
        · exact .inl ⟨bytes, guid, by simpa using hb⟩
        · exact .inr hroom
    · exact fun _ _ he => he

theorem setRoot_free {entry : Slot} (hn : F.NodeAt 1 .emptyRoot) (hroot : F.rootSlot = 1)
    (hne : entry ≠ 1) (err : Error → Frame → Prop) :
    Sat (setRoot entry) F (fun _ F' => F'.numSlots = F.numSlots ∧ F'.spaceUsed = F.spaceUsed ∧
      F'.freeListHead .leaf = F.freeListHead .leaf) err := by
  obtain ⟨e, he, ht⟩ := hn.slotEntry
  simp only [setRoot, freeNode, sat_bind, sat_get, hroot, true_and, if_pos hne, he, ht, Body.ntype,
    reduceCtorEq, if_false, sat_set, sat_modify]
  exact ⟨rfl, rfl, rfl⟩

theorem rebuild_costs {N : Frame} (h : F.Holds t) (hw : t.Wf π) (hroot : N.rootSlot = 1)
    (hn : N.NodeAt 1 .emptyRoot) (haN : N.Alloc {.slot 1}) (hunfreed : N.Unfreed)
    (hslots : N.numSlots = 1) (hspace : N.spaceUsed = dataAreaStart + sizeOfNode .emptyRoot) :
    Sat (rebuild F) N (fun _ F' => Rebuilt F F' t.compacted ∧ t.compacted.FitsBlob)
      (fun e _ => e.IsResource → ¬t.compacted.FitsBlob) := by
  rw [rebuild, ← bind_assoc]
  apply ((rebuildEntry_sat h hw haN).and (rebuildEntry_costs h hw N hunfreed)).bind
  · rintro entry F₁ ⟨⟨fp, hb⟩, hroom, hgrew⟩
    have hsame : N.Same F₁ {.slot 1} := hb.same.mono Set.subset_union_left
    have hne : entry ≠ 1 := by
      rintro rfl
      exact Set.disjoint_left.mp hb.disjoint rfl hb.rep.slot_mem
    have hfits : t.compacted.FitsBlob := by
      rcases hroom with ⟨bytes, guid, hblob⟩ | hroom
      · rw [hblob]
        exact show 1 + 1 ≤ maxSlots ∧ dataAreaStart + 8 + 128 + spilloverReservation ≤ pageSize by
          decide
      · unfold Room at hroom
        rw [hgrew.numSlots, hgrew.spaceUsed, hslots, hspace] at hroom
        exact hroom
    apply (setRoot_free (hn.same hsame rfl) (hsame.rootSlot.trans hroot) hne _).bind
    · rintro _ F₂ ⟨hn₂, hu₂, hl₂⟩
      rw [sat_modify]
      refine ⟨⟨?_, ?_, ?_, rfl, rfl⟩, hfits⟩
      · exact hn₂.trans (by rw [hgrew.numSlots, hslots])
      · exact hu₂.trans (by rw [hgrew.spaceUsed, hspace])
      · exact hl₂.trans (hgrew.unfreed .leaf)
    · exact fun _ _ he => he
  · rintro e _ ⟨-, he⟩ hres hfits
    refine he hres ?_
    unfold Room
    rw [hslots, hspace]
    exact hfits

/-- Compaction succeeds exactly when the live part fits a blob of its own, and the blob it leaves is
known to the byte. -/
theorem compactBlob_costs (h : F.Holds t) (hw : t.Wf π) :
    Sat compactBlob F
      (fun _ F' => F'.Holds t.compacted ∧ F'.blobGuid = F.blobGuid ∧ Rebuilt F F' t.compacted ∧
        t.compacted.FitsBlob)
      (fun _ F' => F' = F ∧ ¬t.compacted.FitsBlob) := by
  have hbuild : (∃ F', buildFrame F.blobGuid (rebuild F) = .ok F' ∧ Rebuilt F F' t.compacted ∧
      t.compacted.FitsBlob) ∨ ∃ e, buildFrame F.blobGuid (rebuild F) = .error e ∧
        (e.IsResource → ¬t.compacted.FitsBlob) := by
    apply buildFrame_spec
    intro N hN _ hroot hn haN
    obtain ⟨N', hN', hunfreed, hslots, hspace⟩ := Frame.init_cost F.blobGuid
    cases hN.symm.trans hN'
    exact rebuild_costs h hw hroot hn haN hunfreed hslots hspace
  have hcost : Sat compactBlob F
      (fun _ F' => Rebuilt F F' t.compacted ∧ t.compacted.FitsBlob)
      (fun e _ => e.IsResource → ¬t.compacted.FitsBlob) := by
    simp only [compactBlob, sat_bind, sat_get]
    obtain ⟨F', hF, hP⟩ | ⟨e, hF, hE⟩ := hbuild
    · simpa only [hF, lift_ok, sat_pure, sat_set] using hP
    · simpa only [hF, lift_error, sat_throw] using hE
  apply ((compactBlob_sat h hw).and hcost).mono
  · rintro _ F' ⟨⟨hholds, hguid⟩, hrebuilt, hfits⟩
    exact ⟨hholds, hguid, hrebuilt, hfits⟩
  · rintro e F' ⟨⟨rfl, hres⟩, hno⟩
    exact ⟨rfl, hno hres⟩

/-! ## Once is enough -/

/-- A lookup as its caller sees it: the value's bytes instead of their place. -/
inductive Seen
  | value (bytes : Option (List UInt8)) (seq : Nat)
  | nothing
  | beyond (guid : BlobGuid) (depth : Nat)
  deriving DecidableEq, Repr

def LookupResult.seen (F : Frame) : LookupResult → Seen
  | .found hit => .value (F.bytesAt hit.offset hit.len) hit.seq
  | .notFound => .nothing
  | .crossing guid depth => .beyond guid depth

def Frame.look (F : Frame) (key : SearchKey) (depth : Nat) : Except Error Seen :=
  (lookupAt F F.rootSlot key depth).map (LookupResult.seen F)

def Target.seen : Target → Seen
  | .leaf r => .value (some r.value) r.seq
  | .absent => .nothing
  | .crossing guid depth => .beyond guid depth

theorem Frame.Holds.look (h : F.Holds t) (hw : t.Wf π) (key : SearchKey) (d : Nat) :
    F.look key d = .ok (t.target key.full d).live.seen := by
  obtain ⟨fp, hr, ha⟩ := h
  have hans := lookupAt_answers hr ha subset_rfl hw key d
  unfold Frame.look
  cases ht : t.target key.full d with
  | absent =>
    rw [ht] at hans
    rw [show lookupAt F F.rootSlot key d = .ok .notFound from hans]
    rfl
  | crossing guid depth =>
    rw [ht] at hans
    rw [show lookupAt F F.rootSlot key d = .ok (.crossing guid depth) from hans]
    rfl
  | leaf r =>
    rw [ht] at hans
    cases hdead : r.tombstone with
    | true =>
      simp only [LookupResult.Answers, hdead, if_true] at hans
      simp [hans, Except.map, LookupResult.seen, Target.live, hdead, Target.seen]
    | false =>
      simp only [LookupResult.Answers, hdead, Bool.false_eq_true, if_false] at hans
      obtain ⟨hit, hfound, hvalue, hseq, -⟩ := hans
      simp [hfound, Except.map, LookupResult.seen, Target.live, hdead, Target.seen, hvalue,
        hseq]

theorem Frame.Stores.unique {l : Leaf} {r r' : Record} (h : F.Stores l r) (h' : F.Stores l r') :
    r = r' := by
  have hkey : r.key = r'.key := by simpa [h.leafKeyExtent] using h'.leafKeyExtent
  have hlen : r.value.length = r'.value.length := h.valueSize.symm.trans h'.valueSize
  have hvalue : r.value = r'.value := by
    have := h.value
    rw [hkey, hlen, h'.value] at this
    exact (Option.some.inj this).symm
  cases r
  cases r'
  simp only [Record.mk.injEq]
  exact ⟨hkey, hvalue, h.seq.symm.trans h'.seq, h.tombstone.symm.trans h'.tombstone⟩

theorem pairBlob_holds {used : Nat} (h : 45128 ≤ used) (hle : used ≤ pageSize)
    (h8 : used % 8 = 0) : (pairBlob used).Holds pairTree :=
  ⟨_, pairBlob_rep used, pairBlob_alloc h hle h8⟩

/-- Compaction succeeds without growing the blob exactly when the live part of its tree fits a blob
of its own and weighs no more than the blob had used. -/
theorem compactBlob_shrinks_iff {F : Frame} {t : Art} {π : List UInt8} (h : F.Holds t)
    (hw : t.Wf π) :
    (∃ F', compactBlob F = .ok () F' ∧ F'.spaceUsed ≤ F.spaceUsed) ↔
      t.compacted.FitsBlob ∧
        dataAreaStart + sizeOfNode .emptyRoot + t.compacted.weight ≤ F.spaceUsed := by
  have hcost := compactBlob_costs h hw
  constructor
  · rintro ⟨F', hok, hle⟩
    obtain ⟨-, -, hrebuilt, hfits⟩ := hcost.of_ok hok
    exact ⟨hfits, hrebuilt.spaceUsed ▸ hle⟩
  · rintro ⟨hfits, hle⟩
    cases hrun : compactBlob F with
    | error e F' => exact absurd hfits (hcost.of_error hrun).2
    | ok u F' =>
      obtain ⟨-, -, hrebuilt, -⟩ := hcost.of_ok hrun
      exact ⟨F', rfl, hrebuilt.spaceUsed ▸ hle⟩

theorem compactBlob_shrinks_pair :
    ∃ F', compactBlob (pairBlob 45136) = .ok () F' ∧ F'.spaceUsed ≤ 45136 :=
  (compactBlob_shrinks_iff (pairBlob_holds (by decide) (by decide) (by decide)) pairTree_wf).mpr
    ⟨⟨by decide +kernel, by decide +kernel⟩, by decide +kernel⟩

/-- Two keys, one of them deleted again. -/
def oneOfTwo : FrameM Unit := do
  let _ ← insertInFrame (.user [97]) [1] 1 .always 0
  let _ ← insertInFrame (.user [98]) [2] 2 .always 0
  let _ ← eraseInFrame (.user [98]) .always 0

/-- A node of 4 with one live branch gives way to a prefix, which takes more bytes. -/
theorem compactBlob_grows : ∃ F₀ F F', Frame.init 0 = .ok F₀ ∧ oneOfTwo F₀ = .ok () F ∧
    compactBlob F = .ok () F' ∧ F.spaceUsed < F'.spaceUsed := by
  have hrun : (Frame.init 0).toOption.any (fun F₀ => returns oneOfTwo F₀ fun _ F =>
      returns compactBlob F fun _ F' => decide (F.spaceUsed < F'.spaceUsed)) = true := by
    decide +kernel
  obtain ⟨F₀, hinit, -⟩ := Frame.init_cost 0
  rw [hinit] at hrun
  obtain ⟨⟨⟩, F, hF, hrun⟩ := returns_iff.mp hrun
  obtain ⟨⟨⟩, F', hF', hlt⟩ := returns_iff.mp hrun
  exact ⟨F₀, F, F', hinit, hF, hF', of_decide_eq_true hlt⟩

end Holt
