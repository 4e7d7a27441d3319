import Holt.Walker.Compact

/-! What a subtree takes. Measuring it, copying it and freeing it walk the same slots. -/

namespace Holt

open Holt.Lib Holt.Frame

/-- The children of a node in the order the walks below come to them. -/
def Body.childSlots : Body → List Slot
  | .pfx p => [p.child]
  | .inner n => n.childSlots
  | _ => []

/-- The subtree at `s` has the slots `order`, in the order they are freed in, and weighs
`bytes`: the footprint says so, a copy takes just that, and freeing the subtree frees these slots
one after another. -/
structure Frame.Takes (F : Frame) (fuel : Nat) (s : Slot) (fp : Set Cell) (order : List Slot)
    (bytes : Nat) : Prop where
  rep : ∃ t, F.Rep t s fp ∧ t.height < fuel
  footprint : subtreeFootprint F fuel s = .ok ⟨min order.length u32Max, min bytes u32Max⟩
  clone : Costs order.length bytes (cloneSubtree F false fuel s) fun r _ => r.isSome = true
  nodup : order.Nodup
  slots : ∀ c, c ∈ order ↔ .slot c ∈ fp
  free : ∀ {F' U}, fp ⊆ U → F.Same F' fp → F'.Alloc U →
    freeSubtree fuel s F' = freeEach freeNode order F'

section Children

variable {ι : Type} {F : Frame} {fuel m : Nat} {s : Slot} {fp U : Set Cell} {bs : List ι}
  {slotOf : ι → Slot} {fps : ι → Set Cell} {order : ι → List Slot} {bytes : ι → Nat}

theorem addFootprints_eq {recur : Slot → Except Error SubtreeFootprint} {nodes : ι → Nat}
    (h : ∀ b ∈ bs, recur (slotOf b) = .ok ⟨min (nodes b) u32Max, min (bytes b) u32Max⟩)
    (n k : Nat) :
    addFootprints recur (bs.map slotOf) ⟨min n u32Max, min k u32Max⟩ =
      .ok ⟨min ((bs.map nodes).sum + n) u32Max, min ((bs.map bytes).sum + k) u32Max⟩ := by
  induction bs generalizing n k with
  | nil => simp [addFootprints]
  | cons b bs ih =>
    have hadd : SubtreeFootprint.saturatingAdd ⟨min n u32Max, min k u32Max⟩
        ⟨min (nodes b) u32Max, min (bytes b) u32Max⟩ =
        ⟨min (n + nodes b) u32Max, min (k + bytes b) u32Max⟩ := by
      simp only [SubtreeFootprint.saturatingAdd, SubtreeFootprint.mk.injEq]
      omega
    simp only [List.map_cons, addFootprints, h b List.mem_cons_self, hadd, List.sum_cons]
    rw [ih fun b' hm => h b' (List.mem_cons_of_mem _ hm)]
    congr 3 <;> omega

/-- Without the filter every child is copied. -/
theorem preserveEach_costs {κ : Type} {recur : Slot → FrameM (Option Slot)}
    {items : List (κ × Except Error Slot)} {nodes : ι → Nat}
    (hitems : items.map Prod.snd = bs.map fun b => .ok (slotOf b))
    (h : ∀ b ∈ bs, Costs (nodes b) (bytes b) (recur (slotOf b)) fun r _ => r.isSome = true) :
    Costs (bs.map nodes).sum (bs.map bytes).sum (cloneEach recur false items)
      fun _ _ => True := by
  induction bs generalizing items with
  | nil =>
    rw [List.map_eq_nil_iff.mp hitems]
    exact Costs.pure fun _ => trivial
  | cons b bs ih =>
    obtain ⟨⟨i, c⟩, rest, rfl, hc, hrest⟩ := List.map_eq_cons_iff.mp hitems
    cases hc
    simp only [List.map_cons, List.sum_cons, cloneEach, lift_ok, pure_bind]
    apply (h b List.mem_cons_self).bind
    intro o F' ho
    cases o with
    | none => cases ho
    | some c' => exact (ih hrest fun b' hm => h b' (List.mem_cons_of_mem _ hm)).map fun _ _ h => h

theorem cloneInner_preserves {recur : Slot → FrameM (Option Slot)} {n : Inner} {nodes : ι → Nat}
    (hslots : n.childSlots = bs.map slotOf)
    (h : ∀ b ∈ bs, Costs (nodes b) (bytes b) (recur (slotOf b)) fun r _ => r.isSome = true) :
    Costs ((bs.map nodes).sum + 1) ((bs.map bytes).sum + sizeOfNode n.ntype)
      (cloneInner recur false n) fun r _ => r.isSome = true := by
  have hok : n.childSlots.map Except.ok = bs.map fun b => (.ok (slotOf b) : Except Error Slot) := by
    rw [hslots, List.map_map]
    rfl
  have hnew : ∀ n' : Inner, Costs 1 (sizeOfNode n'.ntype)
      (newNode (.inner n') >>= fun s => pure (some s)) fun r _ => r.isSome = true :=
    fun n' => (newNode_costs (.inner n')).map
      fun _ _ _ => rfl
  simp only [cloneInner, Bool.false_eq_true, if_false]
  cases n with
  | node4 es =>
    refine (preserveEach_costs (.trans ?_ hok) h).bind fun out _ _ => hnew (.node4 out)
    simp [Inner.edges, Inner.childSlots, Function.comp_def]
  | node16 es =>
    refine (preserveEach_costs (.trans ?_ hok) h).bind fun out _ _ => hnew (.node16 out)
    simp [Inner.edges, Inner.childSlots, Function.comp_def]
  | node48 n =>
    refine (preserveEach_costs (.trans ?_ hok) h).bind fun out _ _ => hnew (.node48 _)
    simp [Node48.positions, Inner.childSlots, List.filter_map, Function.comp_def]
  | node256 n =>
    refine (preserveEach_costs (.trans ?_ hok) h).bind fun out _ _ => hnew (.node256 _)
    simp [Inner.edges, Inner.childSlots, List.filter_map, Function.comp_def]

theorem freeEach_append (recur : Slot → FrameM Unit) (xs ys : List Slot) :
    freeEach recur (xs ++ ys) = freeEach recur xs >>= fun _ => freeEach recur ys := by
  induction xs with
  | nil => simp [freeEach]
  | cons x xs ih => simp only [List.cons_append, freeEach, ih, bind_assoc]

theorem freeSubtree_eq {body : Body} (hn : F.NodeAt s body) :
    freeSubtree (m + 1) s F =
      (freeEach (freeSubtree m) body.childSlots >>= fun _ => freeNode s) F := by
  rw [freeSubtree, bind_of_ok (show (get : FrameM Frame) F = .ok F F from rfl), hn.ntypeOf,
    lift_ok, pure_bind, hn.bodyOfSlot]
  cases body <;> simp only [Body.childSlots, freeEach, pure_bind]

/-- Freeing the children frees their slots, child by child: freeing one leaves the others. -/
theorem freeEach_takes (h : ∀ b ∈ bs, F.Takes m (slotOf b) (fps b) (order b) (bytes b))
    (hdis : bs.Pairwise fun b b' => Disjoint (fps b) (fps b')) {F' : Frame}
    (hu : ∀ b ∈ bs, fps b ⊆ U) (hsame : ∀ b ∈ bs, F.Same F' (fps b)) (ha : F'.Alloc U) :
    freeEach (freeSubtree m) (bs.map slotOf) F' = freeEach freeNode (bs.flatMap order) F' ∧
      ∃ F'', freeEach freeNode (bs.flatMap order) F' = .ok () F'' ∧
        ∀ R, (∀ b ∈ bs, Disjoint R (fps b)) → R ⊆ U → F'.Same F'' R := by
  induction bs generalizing F' U with
  | nil => exact ⟨rfl, F', rfl, fun R _ _ => Same.refl ..⟩
  | cons b bs ih =>
    obtain ⟨hb, hdis⟩ := List.pairwise_cons.mp hdis
    have htake := h b List.mem_cons_self
    obtain ⟨t, hr, hlt⟩ := htake.rep
    have hub := hu b List.mem_cons_self
    have hfree := freeSubtree_sat (hr.same (hsame b List.mem_cons_self) subset_rfl) hub ha hlt
    have horder := htake.free hub (hsame b List.mem_cons_self) ha
    cases hx : freeSubtree m (slotOf b) F' with
    | error e F₁ => exact (hfree.of_error hx).elim
    | ok u F₁ =>
      have hkept := (hfree.of_ok hx).kept
      have hkeep : ∀ b' ∈ bs, fps b' ⊆ U \ fps b := fun b' hm x hx =>
        ⟨hu b' (List.mem_cons_of_mem _ hm) hx, Set.disjoint_right.mp (hb b' hm) hx⟩
      obtain ⟨heq, F'', hrun, hrest⟩ := ih (fun b' hm => h b' (List.mem_cons_of_mem _ hm)) hdis
        hkeep (fun b' hm => (hsame b' (List.mem_cons_of_mem _ hm)).trans
          (hkept.same.mono (hkeep b' hm))) hkept.alloc
      rw [List.map_cons, List.flatMap_cons, freeEach, bind_of_ok hx, freeEach_append,
        bind_of_ok (horder.symm.trans hx)]
      refine ⟨heq, F'', hrun, fun R hR hRU => ?_⟩
      have hsub : R ⊆ U \ fps b := fun x hx =>
        ⟨hRU hx, Set.disjoint_left.mp (hR b List.mem_cons_self) hx⟩
      exact (hkept.same.mono hsub).trans
        (hrest R (fun b' hm => hR b' (List.mem_cons_of_mem _ hm)) hsub)

/-- A node over subtrees that are accounted for. -/
theorem Frame.Takes.node {body : Body} (own : Nat) (hn : F.NodeAt s body)
    (hrep : ∃ t, F.Rep t s fp ∧ t.height < m + 1)
    (h : ∀ b ∈ bs, F.Takes m (slotOf b) (fps b) (order b) (bytes b))
    (hslots : body.childSlots = bs.map slotOf)
    (hdis : bs.Pairwise fun b b' => Disjoint (fps b) (fps b')) (hs : ∀ b ∈ bs, .slot s ∉ fps b)
    (hfp : ∀ c, .slot c ∈ fp ↔ (∃ b ∈ bs, .slot c ∈ fps b) ∨ c = s) (hsub : ∀ b ∈ bs, fps b ⊆ fp)
    (hfoot : subtreeFootprint F (m + 1) s =
      addFootprints (subtreeFootprint F m) body.childSlots ⟨min 1 u32Max, min own u32Max⟩)
    (hclone : Costs ((bs.map fun b => (order b).length).sum + 1) ((bs.map bytes).sum + own)
      (cloneSubtree F false (m + 1) s) fun r _ => r.isSome = true) :
    F.Takes (m + 1) s fp (bs.flatMap order ++ [s]) ((bs.map bytes).sum + own) := by
  have hlen : (bs.flatMap order ++ [s]).length = (bs.map fun b => (order b).length).sum + 1 := by
    rw [List.length_append, List.length_flatMap, List.length_singleton]
  have hmem : ∀ c, c ∈ bs.flatMap order ↔ ∃ b ∈ bs, .slot c ∈ fps b := by
    intro c
    rw [List.mem_flatMap]
    exact exists_congr fun b => and_congr_right fun hm => (h b hm).slots c
  refine ⟨hrep, ?_, hlen ▸ hclone, ?_, fun c => ?_, fun {F' U} hu hsame ha => ?_⟩
  · rw [hlen, hfoot, hslots, addFootprints_eq fun b hm => (h b hm).footprint]
  · refine List.nodup_append'.mpr ⟨List.nodup_flatMap.mpr ⟨fun b hm => (h b hm).nodup, ?_⟩,
      List.nodup_singleton s, List.disjoint_singleton.mpr fun hm => ?_⟩
    · refine hdis.imp_of_mem fun {b b'} hm hm' hd c hc hc' => ?_
      exact Set.disjoint_left.mp hd (((h b hm).slots c).mp hc) (((h b' hm').slots c).mp hc')
    · obtain ⟨b, hb, hc⟩ := (hmem s).mp hm
      exact hs b hb hc
  · rw [List.mem_append, List.mem_singleton, hmem, hfp]
  · have hs' : .slot s ∈ fp := (hfp s).mpr (.inr rfl)
    obtain ⟨heq, F'', hrun, -⟩ := freeEach_takes h hdis (fun b hm => (hsub b hm).trans hu)
      (fun b hm => hsame.mono (hsub b hm)) ha
    rw [freeSubtree_eq (hn.same hsame hs'), hslots, bind_of_ok (heq.trans hrun), freeEach_append,
      bind_of_ok hrun, freeEach, freeEach, bind_pure_unit]

end Children

variable {F : Frame} {t : Art} {s : Slot} {fp U : Set Cell} {π : List UInt8}

theorem Frame.Takes.childless {body : Body} {m : Nat} (own : Nat) (hn : F.NodeAt s body)
    (hrep : ∃ t, F.Rep t s fp ∧ t.height < m + 1) (hno : body.childSlots = [])
    (hfp : ∀ c, .slot c ∈ fp ↔ c = s)
    (hfoot : subtreeFootprint F (m + 1) s = .ok ⟨1, min own u32Max⟩)
    (hclone : Costs 1 own (cloneSubtree F false (m + 1) s) fun r _ => r.isSome = true) :
    F.Takes (m + 1) s fp [s] own := by
  have hkids : ∀ b ∈ ([] : List Unit), F.Takes m 0 ∅ [] 0 := fun _ h => by cases h
  have htakes := Takes.node own hn hrep hkids hno .nil (fun _ h => by cases h)
    (fun c => by simp [hfp]) (fun _ h => by cases h) (by rw [hno]; exact hfoot)
    (by simpa using hclone)
  simpa using htakes

theorem cloneLeaf_preserves {l : Leaf} {r : Record} (hst : F.Stores l r) :
    Costs 1 (leafExtentSize r.key.length r.value.length + sizeOfNode .leaf) (cloneLeaf F l false)
      fun o _ => o.isSome = true := by
  obtain ⟨b₀, b₁, hhdr, hklen⟩ := hst.header
  simp only [cloneLeaf, Bool.false_eq_true, false_and, if_false, hhdr, hklen, hst.valueSize]
  split
  · intro F' _
    exact .throw fun hres => absurd hres (Error.not_resource (by simp))
  · exact (storeLeaf_costs (leafExtentSize_pos ..) (leafExtentSize_mod ..) _ _ _).map
      fun _ _ _ => rfl

theorem sizeOfNode_le_u32Max (ty : NodeType) : sizeOfNode ty ≤ u32Max := by
  cases ty <;> decide

theorem Frame.Rep.takes {fuel : Nat} (hr : F.Rep t s fp) (hfuel : t.height < fuel) :
    ∃ order bytes, F.Takes fuel s fp order bytes := by
  obtain ⟨m, rfl⟩ := succ_of_lt hfuel
  have hrep : ∃ t, F.Rep t s fp ∧ t.height < m + 1 := ⟨t, hr, hfuel⟩
  induction t generalizing s fp m with
  | emptyRoot =>
    obtain ⟨hn, rfl⟩ := hr
    obtain ⟨e, he, ht⟩ := hn.slotEntry
    refine ⟨_, _, .childless (sizeOfNode .emptyRoot) hn hrep rfl (fun c => by simp) ?_ ?_⟩
    · simp only [subtreeFootprint, hn.ntypeOf, Body.ntype, hn.bodyOfSlot,
        min_eq_left (sizeOfNode_le_u32Max _)]
    · simp only [cloneSubtree, he, ht, hn.bodyOfSlot]
      exact (allocNode_costs _).map fun _ _ _ => rfl
  | leaf r =>
    obtain ⟨l, hn, hst, rfl⟩ := hr
    obtain ⟨e, he, ht⟩ := hn.slotEntry
    refine ⟨_, _, .childless (leafExtentSize r.key.length r.value.length + sizeOfNode .leaf) hn hrep
      rfl (fun c => ?_) ?_ ?_⟩
    · simp [slot_notMem_extentCells]
    · simp only [subtreeFootprint, hn.ntypeOf, Body.ntype, hn.bodyOfSlot, readLeafKeyRef,
        hst.leafKeyExtent, Except.map, hst.valueSize]
      rw [Nat.add_comm (sizeOfNode .leaf)]
    · simp only [cloneSubtree, he, ht, hn.bodyOfSlot]
      exact cloneLeaf_preserves hst
  | pfx bytes child ih =>
    obtain ⟨c, fpc, hn, hchild, hsc, rfl⟩ := hr
    obtain ⟨e, he, ht⟩ := hn.slotEntry
    simp only [Art.height] at hfuel
    obtain ⟨k, rfl⟩ := succ_of_lt (show child.height < m by omega)
    obtain ⟨order, weight, h⟩ := ih hchild k (by omega) ⟨child, hchild, by omega⟩
    have hkids : ∀ b ∈ [()], F.Takes (k + 1) c fpc order weight := fun _ _ => h
    refine ⟨_, _, .node (sizeOfNode .prefixNode) hn hrep hkids rfl (List.pairwise_singleton ..)
      (fun _ _ => hsc) (fun c' => ?_) (fun _ _ => Set.subset_insert ..) ?_ ?_⟩
    · simp [or_comm]
    · rw [min_eq_left (sizeOfNode_le_u32Max _)]
      simp only [subtreeFootprint, hn.ntypeOf, Body.ntype, hn.bodyOfSlot, Body.childSlots]
      rfl
    · rw [cloneSubtree, he]
      simp only [ht, hn.bodyOfSlot, List.map_cons, List.map_nil, List.sum_cons, List.sum_nil,
        Nat.add_zero]
      apply h.clone.bind
      intro o _ ho
      cases o with
      | none => cases ho
      | some c' =>
        exact (newNode_costs (.pfx _)).map fun _ _ _ => rfl
  | inner has child ih =>
    obtain ⟨n, fps, hn, hk, hsk, rfl⟩ := rep_inner_iff.mp hr
    obtain ⟨e, he, ht⟩ := hn.slotEntry
    obtain ⟨bs, slotOf, hnd, hbs, hslots, hfind, hall⟩ := hk.childSlots
    have hkid : ∀ b, ∃ order weight, b ∈ bs → F.Takes m (slotOf b) (fps b) order weight := by
      intro b
      by_cases hm : b ∈ bs
      · have hlt := Art.height_child child ((hbs b).mp hm)
        obtain ⟨k, rfl⟩ := succ_of_lt (show (child b).height < m by omega)
        have hrb := hk.rep b _ (hfind b hm)
        obtain ⟨order, weight, h⟩ := ih b hrb k (by omega) ⟨child b, hrb, by omega⟩
        exact ⟨order, weight, fun _ => h⟩
      · exact ⟨[], 0, fun h => absurd h hm⟩
    choose order weight h using hkid
    rw [Set.mem_iUnion, not_exists] at hsk
    refine ⟨_, _, .node (sizeOfNode n.ntype) hn hrep (fun b hm => h b hm) hslots
      (hnd.imp fun hne => hk.disjoint _ _ hne) (fun b _ => hsk b) (fun c => ?_)
      (fun b _ => (Set.subset_iUnion fps b).trans (Set.subset_insert ..)) ?_ ?_⟩
    · rw [← hall]
      simp [or_comm]
    · have hown := min_eq_left (sizeOfNode_le_u32Max n.ntype)
      rw [hown]
      simp only [subtreeFootprint, hn.ntypeOf, Body.ntype, hn.bodyOfSlot, Body.childSlots]
      cases n <;> rfl
    · simp only [cloneSubtree, he, ht, hn.bodyOfSlot]
      exact cloneInner_preserves hslots fun b hm => (h b hm).clone
  | blob bytes guid =>
    obtain ⟨hn, rfl⟩ := hr
    obtain ⟨e, he, ht⟩ := hn.slotEntry
    refine ⟨_, _, .childless (sizeOfNode .blob) hn hrep rfl (fun c => by simp) ?_ ?_⟩
    · simp only [subtreeFootprint, hn.ntypeOf, Body.ntype, hn.bodyOfSlot,
        min_eq_left (sizeOfNode_le_u32Max _)]
    · simp only [cloneSubtree, he, ht, hn.bodyOfSlot]
      exact (newNode_costs (.blob _)).map fun _ _ _ => rfl

/-- The footprint of a subtree is what a copy of it takes in a fresh blob that has room, to the
byte, and freeing it frees its slots, each of them once. -/
theorem footprint_clone_free (hr : F.Rep t s fp) (hw : t.Wf π) (hu : fp ⊆ U) (ha : F.Alloc U) :
    ∃ foot, subtreeFootprint F (F.numSlots + 1) s = .ok foot ∧
      (∀ N V, N.Alloc V → N.Unfreed → N.Room foot.nodes foot.bytes →
        ∃ c N', cloneSubtree F false (F.numSlots + 1) s N = .ok (some c) N' ∧
          N'.numSlots = N.numSlots + foot.nodes ∧ N'.spaceUsed = N.spaceUsed + foot.bytes) ∧
      ∃ order : List Slot, order.Nodup ∧ (∀ c, c ∈ order ↔ .slot c ∈ fp) ∧
        order.length = foot.nodes ∧
        ∃ F', freeSubtree (F.numSlots + 1) s F = .ok () F' ∧
          freeEach freeNode order F = .ok () F' := by
  have hheight := hr.height_lt ha hu
  obtain ⟨order, bytes, h⟩ := hr.takes hheight
  have hslots : order.length ≤ F.numSlots := by
    have hsub : order ⊆ List.range' 1 F.numSlots := fun c hc => by
      obtain ⟨h0, hle⟩ := ha.used_slot c (hu ((h.slots c).mp hc))
      rw [List.mem_range'_1]
      omega
    simpa using (h.nodup.subperm hsub).length_le
  have hmax : F.numSlots ≤ u32Max := ha.slots_le.trans (by decide)
  refine ⟨_, h.footprint, fun N V hN hfresh hroom => ?_, order, h.nodup, h.slots, by simp; omega,
    ?_⟩
  · -- a saturated count is larger than any blob
    have hbytes : bytes ≤ u32Max := by
      have hpage : pageSize < u32Max := by decide
      have := hroom.2
      dsimp only at this
      omega
    simp only [min_eq_left hbytes, min_eq_left (hslots.trans hmax)] at hroom ⊢
    have hcost := h.clone N hfresh
    have hclones : Sat (cloneSubtree F false (F.numSlots + 1) s) N _ (Refused N V) :=
      cloneSubtree_clones hr hw hheight hN
    cases hx : cloneSubtree F false (F.numSlots + 1) s N with
    | error e N' => exact absurd hroom (hcost.of_error hx (hclones.of_error hx).2)
    | ok o N' =>
      obtain ⟨ho, hgrew⟩ := hcost.of_ok hx
      obtain ⟨c, rfl⟩ := Option.isSome_iff_exists.mp ho
      exact ⟨c, N', rfl, hgrew.numSlots, hgrew.spaceUsed⟩
  · have hfree := freeSubtree_sat hr hu ha hheight
    have horder := h.free hu (Same.refl ..) ha
    cases hx : freeSubtree (F.numSlots + 1) s F with
    | error e F' => exact (hfree.of_error hx).elim
    | ok u F' => exact ⟨F', rfl, horder.symm.trans hx⟩

theorem footprint_clone_free_pair : ∃ N c N' order F',
    subtreeFootprint (pairBlob 45128) 4 1 = .ok ⟨3, 72⟩ ∧ Frame.init 1 = .ok N ∧
    cloneSubtree (pairBlob 45128) false 4 1 N = .ok (some c) N' ∧ N'.numSlots = 4 ∧
    N'.spaceUsed = N.spaceUsed + 72 ∧ order.Nodup ∧ (∀ c, c ∈ order ↔ c ∈ [1, 2, 3]) ∧
    order.length = 3 ∧ freeSubtree 4 1 (pairBlob 45128) = .ok () F' ∧
    freeEach freeNode order (pairBlob 45128) = .ok () F' := by
  obtain ⟨foot, hfoot, hclone, order, hnodup, hslots, hlen, F', hfree, heach⟩ :=
    footprint_clone_free (pairBlob_rep 45128) pairTree_wf subset_rfl
      (pairBlob_alloc le_rfl (by decide) (by decide))
  have heval : (subtreeFootprint (pairBlob 45128) 4 1).toOption = some ⟨3, 72⟩ := by decide +kernel
  obtain rfl : foot = ⟨3, 72⟩ := by
    rw [show subtreeFootprint (pairBlob 45128) 4 1 = .ok foot from hfoot] at heval
    exact Option.some.inj heval
  obtain ⟨N, hN, -, -, -, ha⟩ := init_spec 1
  obtain ⟨N₁, hN₁, hunfreed, hnum, hspace⟩ := Frame.init_cost 1
  obtain rfl : N₁ = N := Except.ok.inj (hN₁.symm.trans hN)
  have hroom : N₁.Room 3 72 := ⟨by rw [hnum]; decide, by rw [hspace]; decide⟩
  obtain ⟨c, N', hc, hslots', hspace'⟩ := hclone N₁ _ ha hunfreed hroom
  refine ⟨N₁, c, N', order, F', hfoot, hN, hc, by simp [hslots', hnum], hspace', hnodup,
    fun c => ?_, hlen, hfree, heach⟩
  have hleaves : .slot c ∈ (⋃ b, pairCells b) ↔ c = 2 ∨ c = 3 := by
    simp only [Set.mem_iUnion, pairCells]
    constructor
    · rintro ⟨b, hb⟩
      split at hb
      · exact .inl (by simpa [slot_notMem_extentCells] using hb)
      · split at hb
        · exact .inr (by simpa [slot_notMem_extentCells] using hb)
        · cases hb
    · rintro (rfl | rfl)
      · exact ⟨97, by simp⟩
      · exact ⟨98, by simp⟩
  simp [hslots, hleaves]

end Holt
