import Holt.Walker.Room

/-! What is left of a blob when an operation on it runs out of room. -/

namespace Holt

open Holt.Lib Holt.Frame

variable {F' : Frame} {plug : Art → Art} {s : Slot}

/-! ## What a reader sees -/

/-- Every node of a tree roots a tree that hangs in it. -/
theorem Frame.Rep.inside {F : Frame} {t : Art} {x : Slot} {fp : Set Cell} (h : F.Rep t s fp)
    (hx : .slot x ∈ fp) : ∃ k w fp', t.Hangs k w ∧ F.Rep w x fp' ∧ fp' ⊆ fp := by
  have hself : x = s → ∃ k w fp', t.Hangs k w ∧ F.Rep w x fp' ∧ fp' ⊆ fp := by
    rintro rfl
    exact ⟨[], t, fp, ⟨_, .here t⟩, h, subset_rfl⟩
  induction t generalizing s fp with
  | emptyRoot =>
    obtain ⟨-, rfl⟩ := id h
    exact hself (Cell.slot.inj hx)
  | leaf r =>
    obtain ⟨l, -, -, rfl⟩ := id h
    rcases hx with hx | hx
    · exact hself (Cell.slot.inj hx)
    · exact absurd hx (slot_notMem_extentCells _ _ _)
  | pfx bytes child ih =>
    obtain ⟨c, fpc, -, hchild, -, rfl⟩ := id h
    rcases hx with hx | hx
    · exact hself (Cell.slot.inj hx)
    · obtain ⟨k, w, fp', ⟨plug, hb⟩, hr, hsub⟩ := ih hchild hx (by
        rintro rfl
        exact ⟨[], child, fpc, ⟨_, .here child⟩, hchild, subset_rfl⟩)
      exact ⟨_, w, fp', ⟨_, .pfx hb⟩, hr, hsub.trans (Set.subset_insert ..)⟩
  | inner has child ih =>
    obtain ⟨n, fps, -, hk, -, rfl⟩ := rep_inner_iff.mp h
    rcases hx with hx | hx
    · exact hself (Cell.slot.inj hx)
    · obtain ⟨b, hb⟩ := Set.mem_iUnion.mp hx
      have hhas : has b = true := by
        by_contra hno
        rw [hk.empty b (Bool.eq_false_iff.mpr hno)] at hb
        exact hb
      obtain ⟨c, hf⟩ := hk.findChild_some hhas
      have hchild := hk.rep b c hf
      obtain ⟨k, w, fp', ⟨plug, hbel⟩, hr, hsub⟩ := ih b hchild hb (by
        rintro rfl
        exact ⟨[], child b, fps b, ⟨_, .here _⟩, hchild, subset_rfl⟩)
      exact ⟨_, w, fp', ⟨_, .inner hhas hbel⟩, hr,
        hsub.trans ((Set.subset_iUnion fps b).trans (Set.subset_insert ..))⟩
  | blob bytes guid =>
    obtain ⟨-, rfl⟩ := id h
    exact hself (Cell.slot.inj hx)

/-- Two frames that agree on a tree's cells answer every lookup in it alike, with the same bytes
behind a hit. -/
theorem Frame.Rep.descend_same {F : Frame} {t : Art} {fp : Set Cell} (h : F.Rep t s fp)
    (hs : F.Same F' fp) {m m' : Nat} (hm : t.height < m) (hm' : t.height < m') (key : SearchKey)
    (d : Nat) :
    descend m' F' s key d = descend m F s key d ∧
      ∀ hit, descend m F s key d = .ok (.found hit) →
        F'.bytesAt hit.offset hit.len = F.bytesAt hit.offset hit.len := by
  induction t generalizing s fp m m' d with
  | emptyRoot =>
    obtain ⟨k, rfl⟩ := succ_of_lt hm
    obtain ⟨k', rfl⟩ := succ_of_lt hm'
    have h' := h.same hs subset_rfl
    simp only [descend, h.1.resolveTyped, h'.1.resolveTyped]
    exact ⟨trivial, fun hit hh => by cases hh⟩
  | leaf r =>
    obtain ⟨k, rfl⟩ := succ_of_lt hm
    obtain ⟨k', rfl⟩ := succ_of_lt hm'
    obtain ⟨l, hn, hst, rfl⟩ := h
    have hn' := hn.same hs (Set.mem_insert ..)
    have hst' := hst.congr hs.agrees (Set.subset_insert ..)
    simp only [descend, hn.resolveTyped, hn'.resolveTyped, leafCheck, hst.leafExtent,
      hst'.leafExtent]
    refine ⟨trivial, fun hit hh => ?_⟩
    split at hh
    · cases hh
    · split at hh
      · cases hh
        exact hst'.value.trans hst.value.symm
      · cases hh
  | pfx bytes child ih =>
    obtain ⟨k, rfl⟩ := succ_of_lt hm
    obtain ⟨k', rfl⟩ := succ_of_lt hm'
    obtain ⟨c, fpc, hn, hchild, -, rfl⟩ := h
    have hn' := hn.same hs (Set.mem_insert ..)
    simp only [Art.height] at hm hm'
    have hk' : child.height < k' := by omega
    have hc := ih hchild (hs.mono (Set.subset_insert ..)) (m := k) (by omega) hk'
      (d + bytes.length)
    simp only [descend, hn.resolveTyped, hn'.resolveTyped]
    split
    · exact ⟨rfl, fun hit hh => by cases hh⟩
    · split
      · exact hc
      · exact ⟨rfl, fun hit hh => by cases hh⟩
  | inner has child ih =>
    obtain ⟨k, rfl⟩ := succ_of_lt hm
    obtain ⟨k', rfl⟩ := succ_of_lt hm'
    obtain ⟨n, fps, hn, hk, -, rfl⟩ := rep_inner_iff.mp h
    have hn' := hn.same hs (Set.mem_insert ..)
    simp only [descend, hn.resolveTyped, hn'.resolveTyped]
    split
    · exact ⟨rfl, fun hit hh => by cases hh⟩
    · split
      · exact ⟨rfl, fun hit hh => by cases hh⟩
      · split
        · exact ⟨rfl, fun hit hh => by cases hh⟩
        · rename_i b _ _ _ c hf
          have hhas : has b = true := by rw [← hk.has_eq, hf, Option.isSome_some]
          have hlt := Art.height_child child hhas
          exact ih b (hk.rep b c hf)
            (hs.mono ((Set.subset_iUnion fps b).trans (Set.subset_insert ..))) (by omega)
            (by omega) (d + 1)
  | blob bytes guid =>
    obtain ⟨k, rfl⟩ := succ_of_lt hm
    obtain ⟨k', rfl⟩ := succ_of_lt hm'
    have h' := h.same hs subset_rfl
    simp only [descend, h.1.resolveTyped, h'.1.resolveTyped, blobDescend]
    refine ⟨trivial, fun hit hh => ?_⟩
    split at hh
    · cases hh
    · split at hh <;> cases hh

/-- The same for a whole blob. -/
theorem Frame.Rep.lookupAt_same {F : Frame} {t : Art} {fp U : Set Cell} (h : F.Rep t s fp)
    (ha : F.Alloc U) (hu : fp ⊆ U) (hs : F.Same F' fp) (key : SearchKey) (d : Nat) :
    lookupAt F' s key d = lookupAt F s key d ∧
      ∀ hit, lookupAt F s key d = .ok (.found hit) →
        F'.bytesAt hit.offset hit.len = F.bytesAt hit.offset hit.len := by
  have hlt := h.height_lt ha hu
  have hn := hs.numSlots
  exact h.descend_same hs hlt (show t.height < F'.numSlots + 1 by omega) key d

/-- An insertion that runs out of room anywhere in the tree is invisible: lookups from the same
root answer as before, the tree stands as it stood, and the header counts the same. -/
theorem insertAtStep_failure_unseen {F : Frame} {t : Art} {fp : Set Cell} {s : Slot}
    (hr : F.Rep t F.rootSlot fp) (ha : F.Alloc fp) (hs : .slot s ∈ fp) (key : SearchKey)
    (value : List UInt8) (depth seq : Nat) (condition : InsertCondition) (fuel : Nat)
    {e : Error} {F' : Frame}
    (hfail : insertAtStep key value seq condition fuel s depth F = .error e F')
    (hres : e.IsResource) :
    F'.rootSlot = F.rootSlot ∧
      (∀ k d, lookupAt F' F'.rootSlot k d = lookupAt F F.rootSlot k d ∧
        ∀ hit, lookupAt F F.rootSlot k d = .ok (.found hit) →
          F'.bytesAt hit.offset hit.len = F.bytesAt hit.offset hit.len) ∧
      F'.Rep t F'.rootSlot fp ∧ F'.Alloc fp ∧
      F'.numExtBlobs = F.numExtBlobs ∧ F'.tombstoneLeafCnt = F.tombstoneLeafCnt := by
  obtain ⟨-, t', fp', -, hr', hsub⟩ := hr.inside hs
  have hquiet : Quiet F fp F' :=
    ((insertAtStep_short (P := False) hr' hsub ha False.elim fuel depth).of_error hfail hres).1
  have hsame := hquiet.kept.same
  rw [hsame.rootSlot]
  exact ⟨rfl, fun k d => hr.lookupAt_same ha subset_rfl hsame k d, hr.same hsame subset_rfl,
    hquiet.kept.alloc, hquiet.counts⟩

def LookupResult.isFound : Except Error LookupResult → Bool
  | .ok (.found _) => true
  | _ => false

def pairData (a : Nat) : UInt8 :=
  [2, 0, 97, 0, 1, 0, 0, 0, 2, 0, 98, 0, 2, 0, 0, 0].getD (a - 45112) 0

/-- The keys `a` and `b` in a blob with `used` bytes of its page taken. -/
def pairBlob (used : Nat) : Frame :=
  { Frame.blank 0 with
    numSlots := 3
    rootSlot := 1
    spaceUsed := used
    slots := fun s =>
      if s = 1 then (SlotEntry.live .node4 45056).raw
      else if s = 2 then (SlotEntry.live .leaf 45080).raw
      else if s = 3 then (SlotEntry.live .leaf 45096).raw else 0
    bodies := fun s =>
      if s = 1 then .inner (.node4 [(97, 2), (98, 3)])
      else if s = 2 then .leaf ⟨1, false, 45112, 1⟩
      else if s = 3 then .leaf ⟨1, false, 45120, 2⟩ else .emptyRoot
    data := pairData }

def pairTree : Art :=
  .inner (fun b => b = 97 ∨ b = 98) fun b =>
    if b = 97 then .leaf ⟨[97, 0], [1], 1, false⟩ else .leaf ⟨[98, 0], [2], 2, false⟩

def pairCells (b : UInt8) : Set Cell :=
  if b = 97 then insert (.slot 2) (extentCells 45112 8)
  else if b = 98 then insert (.slot 3) (extentCells 45120 8) else ∅

theorem pairTree_wf : pairTree.Wf [] := by
  intro b hb
  rcases of_decide_eq_true hb with rfl | rfl
  · exact ⟨[0], rfl⟩
  · exact ⟨[0], rfl⟩

/-- One of the two leaves, at its slot and in its extent of eight bytes. -/
theorem pairBlob_leaf (used : Nat) {b : UInt8} {c : Slot} {key value : List UInt8}
    {off bodyOff seq : Nat} (hc : c ≠ 0) (hc3 : c ≤ 3)
    (hslot : (pairBlob used).slots c = (SlotEntry.live .leaf bodyOff).raw)
    (hbody : (pairBlob used).bodies c = .leaf ⟨value.length, false, off, seq⟩)
    (hoff : bodyOff % 8 = 0) (hfit : bodyOff + sizeOfNode .leaf ≤ pageSize)
    (hsize : leafExtentSize key.length value.length = 8) (hend : off + 8 ≤ pageSize)
    (hkey : key.length < 2 ^ 16)
    (hdata : ∀ i (hi : i < (leafBytes key value).length),
      pairData (off + i) = (leafBytes key value)[i])
    (hb : pairCells b = insert (.slot c) (extentCells off 8)) :
    (pairBlob used).Rep (.leaf ⟨key, value, seq, false⟩) c (pairCells b) := by
  refine ⟨⟨value.length, false, off, seq⟩, ⟨?_, Or.inr hbody⟩, ⟨rfl, rfl, rfl, hkey, ?_, ?_⟩,
    ?_⟩
  · exact typed_live hc hc3 (by simp [Body.ntype]) hoff hfit hslot
  · rwa [hsize]
  · simp only [pairBlob]
    exact hdata
  · rw [hb, hsize]

theorem mem_pairCells {b : UInt8} {x : Cell} (hx : x ∈ pairCells b) :
    (b = 97 ∧ (x = .slot 2 ∨ ∃ a, x = .byte a ∧ 45112 ≤ a ∧ a < 45120)) ∨
      (b = 98 ∧ (x = .slot 3 ∨ ∃ a, x = .byte a ∧ 45120 ≤ a ∧ a < 45128)) := by
  unfold pairCells at hx
  split_ifs at hx with h1 h2
  · exact Or.inl ⟨h1, hx⟩
  · exact Or.inr ⟨h2, hx⟩
  · exact hx.elim

theorem pairCells_union : ⋃ b, pairCells b = pairCells 98 ∪ pairCells 97 := by
  ext x
  rw [Set.mem_iUnion, Set.mem_union]
  constructor
  · rintro ⟨b, hx⟩
    rcases mem_pairCells hx with ⟨rfl, -⟩ | ⟨rfl, -⟩
    · exact .inr hx
    · exact .inl hx
  · rintro (hx | hx)
    · exact ⟨98, hx⟩
    · exact ⟨97, hx⟩

theorem pairBlob_key (used : Nat) :
    (pairBlob used).Rep (.leaf ⟨[97, 0], [1], 1, false⟩) 2 (pairCells 97) :=
  pairBlob_leaf used (by decide) (by decide) rfl rfl (by decide) (by decide) rfl (by decide)
    (by decide) (by decide) rfl

theorem pairBlob_rep (used : Nat) :
    (pairBlob used).Rep pairTree 1 (insert (.slot 1) (⋃ b, pairCells b)) := by
  have hnode : (pairBlob used).NodeAt 1 (.inner (.node4 (insertAsc 98 3 [(97, 2)]))) := by
    refine ⟨typed_live (by decide) ?_ (by decide) (by decide) (by decide) rfl, Or.inr rfl⟩
    exact show 1 ≤ 3 by decide
  have hb : (pairBlob used).Rep (.leaf ⟨[98, 0], [2], 2, false⟩) 3 (pairCells 98) :=
    pairBlob_leaf used (by decide) (by decide) rfl rfl (by decide) (by decide) rfl (by decide)
      (by decide) (by decide) rfl
  rw [pairCells_union]
  refine rep_branch (by decide) hnode (pairBlob_key used) hb ?_ ?_ ?_
  · rw [Set.disjoint_left]
    intro x hx hx'
    rcases mem_pairCells hx with ⟨h, -⟩ | ⟨-, rfl | ⟨a, rfl, h⟩⟩
    · exact absurd h (by decide)
    · rcases mem_pairCells hx' with ⟨-, hs | ⟨a', hs, -⟩⟩ | ⟨h', -⟩
      · cases hs
      · cases hs
      · exact absurd h' (by decide)
    · rcases mem_pairCells hx' with ⟨-, hs | ⟨a', hs, h'⟩⟩ | ⟨h', -⟩
      · cases hs
      · cases hs
        omega
      · exact absurd h' (by decide)
  all_goals
    intro hx
    rcases mem_pairCells hx with ⟨-, hs | ⟨a, hs, -⟩⟩ | ⟨-, hs | ⟨a, hs, -⟩⟩ <;> cases hs

theorem pairBlob_alloc {used : Nat} (h : 45128 ≤ used) (hle : used ≤ pageSize)
    (h8 : used % 8 = 0) : (pairBlob used).Alloc (insert (.slot 1) (⋃ b, pairCells b)) := by
  refine ⟨show 3 ≤ maxSlots by decide, ?_, hle, h8, ⟨fun _ => [], ⟨fun _ => rfl,
    fun _ => List.nodup_nil, ?_, ?_⟩, ?_⟩, ?_, ?_⟩
  · exact (show dataAreaStart ≤ 45128 by decide).trans h
  · intro t t' s hs
    cases hs
  · intro t s hs
    cases hs
  · intro t s hs
    cases hs
  · rintro s (hs | hs)
    · cases hs
      exact ⟨by decide, show 1 ≤ 3 by decide⟩
    · obtain ⟨b, hb⟩ := Set.mem_iUnion.mp hs
      rcases mem_pairCells hb with ⟨-, hs | ⟨a, hs, -⟩⟩ | ⟨-, hs | ⟨a, hs, -⟩⟩ <;> cases hs
      · exact ⟨by decide, show 2 ≤ 3 by decide⟩
      · exact ⟨by decide, show 3 ≤ 3 by decide⟩
  · rintro a (ha | ha)
    · cases ha
    · obtain ⟨b, hb⟩ := Set.mem_iUnion.mp ha
      change a < used
      rcases mem_pairCells hb with ⟨-, hs | ⟨a', hs, hlt⟩⟩ | ⟨-, hs | ⟨a', hs, hlt⟩⟩ <;>
        cases hs <;> omega

/-- The extent of the new leaf still fits, the leaf does not. -/
theorem insertAtStep_failure_unseen_pair : ∃ e F',
    insertAtStep (.user [99]) [3] 3 .always 4 1 0 (pairBlob 524152) = .error e F' ∧
      e.IsResource ∧ F'.spaceUsed = 524160 ∧ F'.Holds pairTree ∧ F'.tombstoneLeafCnt = 0 ∧
      LookupResult.isFound (lookupAt (pairBlob 524152) 1 (.user [97]) 0) = true ∧
      lookupAt F' F'.rootSlot (.user [97]) 0 = lookupAt (pairBlob 524152) 1 (.user [97]) 0 := by
  have hrun : fails (insertAtStep (.user [99]) [3] 3 .always 4 1 0) (pairBlob 524152)
      (fun e F' => e = .alloc (.outOfSpace 16 0) ∧ F'.spaceUsed = 524160) = true := by
    decide +kernel
  obtain ⟨e, F', hfail, hend⟩ := fails_iff.mp hrun
  obtain ⟨rfl, hused⟩ := of_decide_eq_true hend
  have hres : (Error.alloc (.outOfSpace 16 0)).IsResource := Or.inr ⟨16, 0, rfl⟩
  obtain ⟨-, hlook, hrep, hal, -, hdead⟩ := insertAtStep_failure_unseen (pairBlob_rep 524152)
    (pairBlob_alloc (by decide) (by decide) (by decide)) (Set.mem_insert ..) (.user [99]) [3] 0 3
    .always 4 hfail hres
  exact ⟨_, F', hfail, hres, hused, ⟨_, hrep, hal⟩, hdead, by decide +kernel,
    (hlook (.user [97]) 0).1⟩

/-! ## What spillover moves -/

section Spillover

variable {root : BlobGuid} {supply : GuidSupply root} {e : Engine} {g : BlobGuid}
  {b : CachedBlob Frame} {t : Art} {fp : Set Cell} {π : List UInt8}

theorem Engine.view_spilled (hb : e.bm.view g = some b) (hne : g ≠ supply.guid e.drawn)
    (copy F : Frame) (seq : Nat) (a : BlobGuid) :
    (e.spilled supply g copy F seq).bm.view a =
      if a = g then some { b with image := F }
      else if a = supply.guid e.drawn then some ⟨copy, 0⟩ else e.bm.view a := by
  have hview : (e.bm.installNewBlob (supply.guid e.drawn) copy seq).view g = some b := by
    rw [BufferManager.view_installNewBlob, if_neg hne, hb]
  unfold Engine.spilled Engine.putFrame
  rw [BufferManager.view_putImage hview, BufferManager.view_installNewBlob]

/-- A spillover that succeeds keeps the map. The old frame with its blob node at `rel`, and the
new blob entered at its own root there, have between them the leaves and the crossings of the
tree before. The slots given up are the victim's, less the one the blob node may take, and of
the nodes that stay only the victim's parent is written. -/
theorem spilloverBlob_keeps_map (hb : e.bm.view g = some b)
    (hr : b.image.Rep t b.image.rootSlot fp) (ha : b.image.Alloc fp) (hw : t.Wf π)
    (hne : g ≠ supply.guid e.drawn) {seq : Nat} {e' : Engine}
    (hok : spilloverBlob supply g seq e = .ok () e') :
    ∃ (parent victim bn : Slot) (rel : List UInt8) (sub t' : Art) (fpv : Set Cell)
      (b' child : CachedBlob Frame),
      e'.bm.view g = some b' ∧ e'.bm.view (supply.guid e.drawn) = some child ∧
      b'.image.Holds t' ∧ t'.Wf π ∧ child.image.Holds sub ∧ sub.Wf (π ++ rel) ∧
      t'.Hangs rel (.blob [] (supply.guid e.drawn)) ∧
      (∀ k r, t.Hangs k (.leaf r) ↔
        t'.Hangs k (.leaf r) ∨ ∃ k', k = rel ++ k' ∧ sub.Hangs k' (.leaf r)) ∧
      (∀ k bytes guid, t.Hangs k (.blob bytes guid) ↔
        t'.Hangs k (.blob bytes guid) ∧ k ≠ rel ∨
          ∃ k', k = rel ++ k' ∧ sub.Hangs k' (.blob bytes guid)) ∧
      b.image.Rep sub victim fpv ∧ fpv ⊆ fp ∧
      b'.image.NodeAt bn (.blob ⟨[], supply.guid e.drawn⟩) ∧ .slot bn ∉ fp \ fpv ∧
      (∀ k, b'.image.FreeOf k =
        (b.image.FreeOf k ∪ {x | .slot x ∈ fpv ∧ b.image.Typed x k}) \ {bn}) ∧
      (∀ x, .slot x ∈ fp \ fpv → b'.image.slots x = b.image.slots x ∧
        (x ≠ parent → b'.image.bodies x = b.image.bodies x)) ∧
      ∀ a, .byte a ∈ fp \ fpv → b'.image.data a = b.image.data a := by
  have hsome : ∃ v rel sub plug copy,
      Spills b.image t (supply.guid e.drawn) v rel sub plug copy := by
    by_contra hno
    refine (spilloverBlob_stops hb hr ha hw (fun v rel sub plug copy hsp => hno ?_) seq).of_ok hok
    exact ⟨v, rel, sub, plug, copy, hsp⟩
  obtain ⟨v, rel, sub, plug, copy, hsp⟩ := hsome
  obtain ⟨fpv, hrv, hsub, hrun⟩ := hsp.run hb hr ha hne seq
  obtain ⟨bn, F, hF, rfl⟩ := hrun.of_ok hok
  have hbel := hsp.edge.hangs
  obtain ⟨hws, hwp⟩ := hbel.wf hw
  -- the ends of the tree before, and of the tree with the blob node
  have hold : ∀ k w, w.isEnd = true → (t.Hangs k w ↔
      (∃ k', k = rel ++ k' ∧ sub.Hangs k' w) ∨ ¬rel <+: k ∧ t.Hangs k w) := by
    intro k w hend
    have := hbel.hangs_plug sub hend k
    rwa [hbel.plug_self] at this
  have hnew : ∀ k w, w.isEnd = true → ((plug (.blob [] (supply.guid e.drawn))).Hangs k w ↔
      (k = rel ∧ w = .blob [] (supply.guid e.drawn)) ∨ ¬rel <+: k ∧ t.Hangs k w) := by
    intro k w hend
    rw [hbel.hangs_plug _ hend k]
    simp [Art.hangs_blob]
  refine ⟨v.parentSlot, v.victimSlot, bn, rel, sub, plug (.blob [] (supply.guid e.drawn)), fpv,
    { b with image := F }, ⟨copy, 0⟩, ?_, ?_, hF.holds, hwp _ (Nat.zero_le _), hsp.holds, hws, ?_,
    fun k r => ?_, fun k bytes guid => ?_, hrv, hsub, hF.node, hF.fresh, hF.free,
    fun x hx => ⟨hF.slots x hx, hF.bodies x hx⟩, hF.data⟩
  · rw [Engine.view_spilled hb hne, if_pos rfl]
  · rw [Engine.view_spilled hb hne, if_neg hne.symm, if_pos rfl]
  · exact (hnew _ _ rfl).mpr (Or.inl ⟨rfl, rfl⟩)
  · rw [hold k _ rfl, hnew k _ rfl]
    simp [or_comm]
  · rw [hold k _ rfl, hnew k _ rfl]
    constructor
    · rintro (hin | ⟨hno, ht⟩)
      · exact Or.inr hin
      · exact Or.inl ⟨Or.inr ⟨hno, ht⟩, fun he => hno (he ▸ List.prefix_rfl)⟩
    · rintro (⟨⟨he, -⟩ | hout, hk⟩ | hin)
      · exact absurd he hk
      · exact Or.inr hout
      · exact Or.inl hin

end Spillover

/-- The blob of the two keys is the root blob of a tree. -/
def pairEngine (used : Nat) : Engine :=
  ⟨{ BufferManager.empty with cache := AList.singleton 0 ⟨pairBlob used, 0⟩ }, none, 0⟩

theorem pairEngine_view (used : Nat) :
    (pairEngine used).bm.view 0 = some ⟨pairBlob used, 0⟩ := rfl

theorem spilloverBlob_keeps_map_pair :
    ∃ e' b' child, spilloverBlob GuidSupply.counting 0 3 (pairEngine 45128) = .ok () e' ∧
      e'.bm.view 0 = some b' ∧ e'.bm.view 1 = some child ∧ ∃ rel sub t',
      b'.image.Holds t' ∧ child.image.Holds sub ∧ ∀ k r, pairTree.Hangs k (.leaf r) ↔
        t'.Hangs k (.leaf r) ∨ ∃ k', k = rel ++ k' ∧ sub.Hangs k' (.leaf r) := by
  have hrun : returns (spilloverBlob GuidSupply.counting 0 3) (pairEngine 45128)
      (fun _ _ => true) = true := by decide +kernel
  obtain ⟨u, e', hok, -⟩ := returns_iff.mp hrun
  obtain ⟨-, -, -, rel, sub, t', -, b', child, hb', hchild, ht', -, hsub, -, -, hleaf, -⟩ :=
    spilloverBlob_keeps_map (pairEngine_view 45128) (pairBlob_rep _)
      (pairBlob_alloc le_rfl (by decide) (by decide)) pairTree_wf (by decide) hok
  exact ⟨e', b', child, hok, hb', hchild, rel, sub, t', ht', hsub, hleaf⟩

/-! ## A failed spillover -/

/-- The tree has a prefix or a blob node, whose slot a blob node can take over. -/
def Art.LendsSlot (t : Art) : Prop :=
  ∃ k w, t.Hangs k w ∧ (w.isBlob = true ∨ ∃ bytes child, w = .pfx bytes child)

theorem Art.Below.rep {F : Frame} {t w : Art} {k : List UInt8} (h : Art.Below t k w plug)
    {fp : Set Cell} (hr : F.Rep t s fp) : ∃ x fp', F.Rep w x fp' ∧ fp' ⊆ fp := by
  induction h generalizing s fp with
  | here t => exact ⟨s, fp, hr, subset_rfl⟩
  | pfx _ ih =>
    obtain ⟨c, fpc, -, hchild, -, rfl⟩ := hr
    obtain ⟨x, fp', hx, hsub⟩ := ih hchild
    exact ⟨x, fp', hx, hsub.trans (Set.subset_insert ..)⟩
  | @inner has child b rel v plug hb _ ih =>
    obtain ⟨n, fps, -, hk, -, rfl⟩ := rep_inner_iff.mp hr
    obtain ⟨c, hf⟩ := hk.findChild_some hb
    obtain ⟨x, fp', hx, hsub⟩ := ih (hk.rep b c hf)
    exact ⟨x, fp', hx, hsub.trans ((Set.subset_iUnion fps b).trans (Set.subset_insert ..))⟩

/-- The slots a tree gives up include one of a blob node's size exactly when it has such a node. -/
theorem Frame.Rep.lendsSlot_iff {F : Frame} {t : Art} {fp : Set Cell} (h : F.Rep t s fp) :
    t.LendsSlot ↔ ∃ x, .slot x ∈ fp ∧ (F.Typed x .blob ∨ F.Typed x .prefixNode) := by
  constructor
  · rintro ⟨k, w, ⟨plug, hb⟩, hw⟩
    obtain ⟨x, fp', hx, hsub⟩ := hb.rep h
    refine ⟨x, hsub hx.slot_mem, ?_⟩
    rcases hw with hw | ⟨bytes, child, rfl⟩
    · cases w with
      | blob bytes guid => exact Or.inl hx.1.1
      | _ => cases hw
    · obtain ⟨c, fpc, hn, -⟩ := hx
      exact Or.inr hn.1
  · rintro ⟨x, hx, ht⟩
    obtain ⟨k, w, fp', hk, hr, -⟩ := h.inside hx
    refine ⟨k, w, hk, ?_⟩
    have htype : ∀ body : Body, F.NodeAt x body →
        body.ntype = .blob ∨ body.ntype = .prefixNode := by
      intro body hn
      rcases ht with ht | ht
      · exact Or.inl (Option.some.inj (hn.1.symm.trans ht))
      · exact Or.inr (Option.some.inj (hn.1.symm.trans ht))
    cases w with
    | blob bytes guid => exact Or.inl rfl
    | pfx bytes child => exact Or.inr ⟨bytes, child, rfl⟩
    | emptyRoot => rcases htype _ hr.1 with h | h <;> cases h
    | leaf r =>
      obtain ⟨l, hn, -⟩ := hr
      rcases htype _ hn with h | h <;> cases h
    | inner has child =>
      obtain ⟨n, fps, hn, -⟩ := rep_inner_iff.mp hr
      rcases htype _ hn with h | h <;> cases n <;> cases h

/-- A tree still leads to the victim through the bodies of the nodes above it. -/
theorem VictimAt.victim_mem {F : Frame} {t sub : Art} {v : Victim} {rel : List UInt8}
    (hv : VictimAt F t s v rel sub plug) (hbodies : F'.bodies = F.bodies) {fp : Set Cell}
    (hr : F'.Rep t s fp) : .slot v.victimSlot ∈ fp := by
  have hbody : ∀ {G : Frame} {x : Slot} {body : Body}, G.NodeAt x body → body ≠ .emptyRoot →
      G.bodies x = body := fun hn hne => hn.2.resolve_left hne
  induction hv generalizing fp with
  | pfx hn =>
    obtain ⟨c, fpc, hn', hchild, -, rfl⟩ := hr
    have h := hbody hn (by simp)
    rw [← hbodies, hbody hn' (by simp)] at h
    cases h
    exact Set.mem_insert_of_mem _ hchild.slot_mem
  | @inner _ _ _ _ _ b hn hb hf =>
    obtain ⟨n, fps, hn', hk, -, rfl⟩ := rep_inner_iff.mp hr
    have h := hbody hn (by simp)
    rw [← hbodies, hbody hn' (by simp)] at h
    cases h
    exact Set.mem_insert_of_mem _ (Set.mem_iUnion.mpr ⟨b, (hk.rep b _ hf).slot_mem⟩)
  | inPfx hn _ ih =>
    obtain ⟨c, fpc, hn', hchild, -, rfl⟩ := hr
    have h := hbody hn (by simp)
    rw [← hbodies, hbody hn' (by simp)] at h
    cases h
    exact Set.mem_insert_of_mem _ (ih hchild)
  | @inInner _ _ _ _ _ b _ _ _ _ hn hb hf _ ih =>
    obtain ⟨n, fps, hn', hk, -, rfl⟩ := rep_inner_iff.mp hr
    have h := hbody hn (by simp)
    rw [← hbodies, hbody hn' (by simp)] at h
    cases h
    exact Set.mem_insert_of_mem _ (Set.mem_iUnion.mpr ⟨b, ih (hk.rep b _ hf)⟩)

/-- A blob whose victim was given up no longer holds its tree: the victim's slot waits for reuse
while its parent still points at it. -/
theorem Frame.Frees.not_holds {F : Frame} {t sub : Art} {fp fpv : Set Cell} {v : Victim}
    {rel : List UInt8} (h : F.Frees F' fp fpv) (hroot : F'.rootSlot = F.rootSlot)
    (hv : VictimAt F t F.rootSlot v rel sub plug) (hrv : F.Rep sub v.victimSlot fpv) :
    ¬F'.Holds t := by
  rintro ⟨fp', hr', ha'⟩
  rw [hroot] at hr'
  obtain ⟨body, hn⟩ := hrv.node
  have hfree : v.victimSlot ∈ F'.FreeOf body.ntype := by
    rw [h.freed]
    exact Or.inr ⟨hrv.slot_mem, hn.1⟩
  exact ha'.freeOf_notMem hfree (hv.victim_mem h.bodies hr')

section Spillover

variable {root : BlobGuid} {supply : GuidSupply root} {e : Engine} {g : BlobGuid}
  {b : CachedBlob Frame} {t : Art} {fp : Set Cell} {π : List UInt8}

/-- A failed spillover leaves the blob's tree alone, so that every key is found as before,
exactly when a blob node has a place to go: in the blob as it is, or in a slot of the subtree
that is picked, unless spillover stops before it gives that up. -/
theorem spilloverBlob_failure_keeps_iff (hb : e.bm.view g = some b)
    (hr : b.image.Rep t b.image.rootSlot fp) (ha : b.image.Alloc fp) (hw : t.Wf π)
    (hne : g ≠ supply.guid e.drawn) (seq : Nat) :
    (∀ err e', spilloverBlob supply g seq e = .error err e' → ∃ b', e'.bm.view g = some b' ∧
      b'.image.rootSlot = b.image.rootSlot ∧ b'.image.Holds t ∧
      ∀ key d, lookupAt b'.image b'.image.rootSlot key d =
          lookupAt b.image b.image.rootSlot key d ∧
        ∀ hit, lookupAt b.image b.image.rootSlot key d = .ok (.found hit) →
          b'.image.bytesAt hit.offset hit.len = b.image.bytesAt hit.offset hit.len) ↔
    b.image.RoomForBlobNode ∨ ∀ v rel sub plug copy,
      Spills b.image t (supply.guid e.drawn) v rel sub plug copy → sub.LendsSlot := by
  constructor
  · intro hkeeps
    by_contra hno
    simp only [not_or, not_forall] at hno
    obtain ⟨hroom, v, rel, sub, plug, copy, hsp, hlend⟩ := hno
    obtain ⟨fpv, hrv, -, hrun⟩ := hsp.run hb hr ha hne seq
    have hfull : ¬b.image.RoomOnceFreed fpv := by
      rintro (h | h)
      · exact hroom h
      · exact hlend (hrv.lendsSlot_iff.mpr h)
    cases hres : spilloverBlob supply g seq e with
    | ok u e' =>
      obtain ⟨bn, F, hF, -⟩ := hrun.of_ok hres
      exact hfull hF.room
    | error err e' =>
      obtain ⟨-, F, hfrees, -, rfl⟩ := hrun.of_error hres
      obtain ⟨b', hb', hroot, hholds, -⟩ := hkeeps err _ hres
      rw [Engine.view_spilled hb hne, if_pos rfl] at hb'
      cases hb'
      exact hfrees.not_holds hroot hsp.edge hrv hholds
  · intro hroom err e' hfail
    by_cases hsome : ∃ v rel sub plug copy,
        Spills b.image t (supply.guid e.drawn) v rel sub plug copy
    · obtain ⟨v, rel, sub, plug, copy, hsp⟩ := hsome
      obtain ⟨fpv, hrv, -, hrun⟩ := hsp.run hb hr ha hne seq
      obtain ⟨-, F, -, hfull, -⟩ := hrun.of_error hfail
      refine absurd ?_ hfull
      rcases hroom with hroom | hlend
      · exact Or.inl hroom
      · exact Or.inr (hrv.lendsSlot_iff.mp (hlend v rel sub plug copy hsp))
    · have hno : ∀ v rel sub plug copy,
          ¬Spills b.image t (supply.guid e.drawn) v rel sub plug copy :=
        fun v rel sub plug copy hsp => hsome ⟨v, rel, sub, plug, copy, hsp⟩
      obtain ⟨-, hsame⟩ := (spilloverBlob_stops hb hr ha hw hno seq).of_error hfail
      have hbm : e'.bm = e.bm := by rcases hsame with rfl | rfl <;> rfl
      exact ⟨b, by rw [hbm, hb], rfl, ⟨fp, hr, ha⟩, fun key d => ⟨rfl, fun _ _ => rfl⟩⟩

end Spillover

/-- One key in a page used up to its end, its leaf the root: spillover finds nothing to move. -/
def leafBlob : Frame := { pairBlob pageSize with rootSlot := 2 }

def leafEngine : Engine :=
  ⟨{ BufferManager.empty with cache := AList.singleton 0 ⟨leafBlob, 0⟩ }, none, 0⟩

theorem spilloverBlob_failure_keeps_leaf :
    ∃ err e' b', spilloverBlob GuidSupply.counting 0 3 leafEngine = .error err e' ∧
      e'.bm.view 0 = some b' ∧ b'.image.Holds (.leaf ⟨[97, 0], [1], 1, false⟩) ∧
      LookupResult.isFound (lookupAt leafBlob 2 (.user [97]) 0) = true ∧
      lookupAt b'.image b'.image.rootSlot (.user [97]) 0 =
        lookupAt leafBlob 2 (.user [97]) 0 := by
  have hrun : fails (spilloverBlob GuidSupply.counting 0 3) leafEngine
      (fun _ _ => true) = true := by decide +kernel
  obtain ⟨err, e', hfail, -⟩ := fails_iff.mp hrun
  have hview : leafEngine.bm.view 0 = some ⟨leafBlob, 0⟩ := rfl
  have hpick : pickVictimSubtree leafBlob 2 =
      .error (.notYetImplemented "spillover: no non-Blob subtree to migrate") := rfl
  have hrep : leafBlob.Rep (.leaf ⟨[97, 0], [1], 1, false⟩) 2 (pairCells 97) :=
    (pairBlob_key pageSize).setRoot 2
  have hused := (pairBlob_alloc (by decide) le_rfl (by decide)).mono
    ((Set.subset_iUnion pairCells 97).trans (Set.subset_insert ..))
  have halloc : leafBlob.Alloc (pairCells 97) := hused.setRoot 2
  obtain ⟨b', hb', -, hholds, hlook⟩ := (spilloverBlob_failure_keeps_iff hview hrep halloc
    (π := []) List.nil_prefix (by decide) 3).mpr
    (Or.inr fun v rel sub plug copy hsp => by cases hpick.symm.trans hsp.picked) err e' hfail
  exact ⟨err, e', b', hfail, hb', hholds, by decide +kernel, (hlook (.user [97]) 0).1⟩

/-- In a page used up to its end the leaf that spillover picks is freed, the blob node finds no
place, and the key is gone. -/
theorem spilloverBlob_failure_loses_key :
    ∃ err e' b', (pairBlob pageSize).Holds pairTree ∧ pairTree.Wf [] ∧
      (pairEngine pageSize).bm.view 0 = some ⟨pairBlob pageSize, 0⟩ ∧
      spilloverBlob GuidSupply.counting 0 3 (pairEngine pageSize) = .error err e' ∧
      e'.bm.view 0 = some b' ∧
      LookupResult.isFound (lookupAt (pairBlob pageSize) 1 (.user [97]) 0) = true ∧
      LookupResult.isFound (lookupAt b'.image b'.image.rootSlot (.user [97]) 0) = false := by
  have hrun : fails (spilloverBlob GuidSupply.counting 0 3) (pairEngine pageSize) (fun _ e' =>
      (e'.bm.view 0).any fun b' =>
        !LookupResult.isFound (lookupAt b'.image b'.image.rootSlot (.user [97]) 0)) = true := by
    decide +kernel
  obtain ⟨err, e', hfail, hlost⟩ := fails_iff.mp hrun
  obtain ⟨b', hb', hlost⟩ := (Option.any_eq_true _ _).mp hlost
  refine ⟨err, e', b', ⟨_, pairBlob_rep _, pairBlob_alloc (by decide) le_rfl (by decide)⟩,
    pairTree_wf, rfl, hfail, hb', by decide +kernel, by simpa using hlost⟩

end Holt
