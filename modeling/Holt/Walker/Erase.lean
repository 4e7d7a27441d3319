import Holt.Art.Erase
import Holt.Walker.Insert

/-! Erasure inside one blob. A leaf is only marked; the arms that would unlink nodes exist in
the walker and are never taken. -/

namespace Holt

open Holt.Lib Holt.Frame

inductive EraseSignal
  | unchanged
  | subtreeGone
  | replaced (slot : Slot)
  deriving DecidableEq, Repr

structure EraseReturn where
  signal : EraseSignal
  mutated : Bool
  deriving DecidableEq, Repr

inductive EraseStep
  | done (r : EraseReturn)
  | crossing (childGuid : BlobGuid) (childDepth : Nat)
  deriving DecidableEq, Repr

/-! ## Unlinking a child -/

namespace Inner

def count : Inner → Nat
  | .node4 es => es.length
  | .node16 es => es.length
  | .node48 n => n.count
  | .node256 n => n.count

def remove (byte : UInt8) : Inner → Except Error Inner
  | .node4 es =>
    if (es.lookup byte).isSome then .ok (.node4 (es.filter fun e => e.1 ≠ byte))
    else .error (.corrupt "inner_remove_child_and_collapse: byte not present (Node4)")
  | .node16 es =>
    if (es.lookup byte).isSome then .ok (.node16 (es.filter fun e => e.1 ≠ byte))
    else .error (.corrupt "inner_remove_child_and_collapse: byte not present (Node16)")
  | .node48 n =>
    if n.index byte = 0 then
      .error (.corrupt "inner_remove_child_and_collapse: byte not present (Node48)")
    else
      .ok (.node48 ⟨n.count - 1, Function.update n.index byte 0,
        Function.update n.children (n.index byte - 1) 0⟩)
  | .node256 n =>
    if n.children byte = 0 then
      .error (.corrupt "inner_remove_child_and_collapse: byte not present (Node256)")
    else .ok (.node256 ⟨n.count - 1, Function.update n.children byte 0⟩)

/-- The only child left, when the count says there is one. -/
def survivor : Inner → Except Error (UInt8 × Slot)
  | .node4 es => .ok (es.headD (0, 0))
  | .node16 es => .ok (es.headD (0, 0))
  | .node48 n =>
    match allBytes.find? fun b => n.index b ≠ 0 with
    | some b => .ok (b, n.children (n.index b - 1))
    | none => .error (.corrupt "inner_remove_child_and_collapse: empty Node48")
  | .node256 n =>
    match allBytes.find? fun b => n.children b ≠ 0 with
    | some b => .ok (b, n.children b)
    | none => .error (.corrupt "inner_remove_child_and_collapse: empty Node256")

def shrinkNode16ToNode4At : Nat := 3
def shrinkNode48ToNode16At : Nat := 12
def shrinkNode256ToNode48At : Nat := 37

/-- The next smaller kind, once few enough children are left. -/
def shrink : Inner → Option Inner
  | .node4 _ => none
  | .node16 es => if es.length ≤ shrinkNode16ToNode4At then some (.node4 es) else none
  | .node48 n =>
    if n.count ≤ shrinkNode48ToNode16At then
      some (.node16 ((allBytes.filter fun b => n.index b ≠ 0).map
        fun b => (b, n.children (n.index b - 1))))
    else none
  | .node256 n =>
    if n.count ≤ shrinkNode256ToNode48At then
      some (.node48 (fillNode48 0
        ((allBytes.filter fun b => n.children b ≠ 0).map fun b => (b, n.children b))
        { Node48.empty with count := n.count }))
    else none

end Inner

def innerRemoveChildAndCollapse (slot : Slot) (ntype : NodeType) (byte : UInt8) :
    FrameM EraseSignal := do
  let F ← get
  let n₀ ← lift (readInner F slot ntype "inner_remove_child_and_collapse")
  let n ← lift (n₀.remove byte)
  if n.count = 0 then
    freeNode slot
    pure .subtreeGone
  else if n.count = 1 then
    let (survivingByte, survivingChild) ← lift n.survivor
    freeNode slot
    return .replaced (← writePrefixChain [survivingByte] survivingChild)
  else
    match n.shrink with
    | some small =>
      let newSlot ← newNode (.inner small)
      freeNode slot
      pure (.replaced newSlot)
    | none =>
      writeStructToSlot slot (.inner n)
      pure .unchanged

/-! ## The descent -/

def eraseAtLeaf (leafSlot : Slot) (key : SearchKey) (condition : EraseCondition) :
    FrameM EraseReturn := do
  let F ← get
  let (existingKey, leaf) ← lift (readLeafKeyRef F leafSlot)
  if !key.eqSlice existingKey then pure ⟨.unchanged, false⟩
  else if leaf.tombstone then pure ⟨.unchanged, false⟩
  else
    match condition with
    | .ifVersion expected =>
      if leaf.seq ≠ expected then pure ⟨.unchanged, false⟩ else mark leaf
    | .always => mark leaf
where
  mark (leaf : Leaf) : FrameM EraseReturn := do
    writeStructToSlot leafSlot (.leaf { leaf with tombstone := true })
    modify fun F => { F with tombstoneLeafCnt := min (F.tombstoneLeafCnt + 1) (2 ^ 32 - 1) }
    pure ⟨.unchanged, true⟩

def eraseAtPrefixStep (recur : Slot → Nat → FrameM EraseStep) (pfxSlot : Slot)
    (key : SearchKey) (depth : Nat) : FrameM EraseStep := do
  let F ← get
  let p ← lift (readPrefix F pfxSlot)
  if !key.rangeEq depth p.bytes then pure (.done ⟨.unchanged, false⟩)
  else
    match ← recur p.child (depth + p.bytes.length) with
    | .crossing guid d => pure (.crossing guid d)
    | .done ⟨.unchanged, mutated⟩ => pure (.done ⟨.unchanged, mutated⟩)
    | .done ⟨.replaced newChild, mutated⟩ =>
      setPrefixChild pfxSlot newChild
      pure (.done ⟨.unchanged, mutated⟩)
    | .done ⟨.subtreeGone, mutated⟩ =>
      freeNode pfxSlot
      pure (.done ⟨.subtreeGone, mutated⟩)

def eraseAtInnerStep (recur : Slot → Nat → FrameM EraseStep) (innerSlot : Slot)
    (ntype : NodeType) (key : SearchKey) (depth : Nat) : FrameM EraseStep := do
  match key.byteAt depth with
  | none => pure (.done ⟨.unchanged, false⟩)
  | some byte =>
    let F ← get
    match ← lift (innerFindChild F innerSlot ntype byte) with
    | none => pure (.done ⟨.unchanged, false⟩)
    | some child =>
      match ← recur child (depth + 1) with
      | .crossing guid d => pure (.crossing guid d)
      | .done ⟨.unchanged, mutated⟩ => pure (.done ⟨.unchanged, mutated⟩)
      | .done ⟨.replaced newChild, mutated⟩ =>
        innerUpdateChild innerSlot ntype byte newChild
        pure (.done ⟨.unchanged, mutated⟩)
      | .done ⟨.subtreeGone, mutated⟩ =>
        let signal ← innerRemoveChildAndCollapse innerSlot ntype byte
        pure (.done ⟨signal, mutated⟩)

def blobNodeEraseStep (slot : Slot) (key : SearchKey) (depth : Nat) : FrameM EraseStep := do
  let F ← get
  match F.bodyOfSlot slot with
  | some (.blob bn) =>
    if blobMaxInline < bn.bytes.length then
      throw (.corrupt "blob_node_erase_step: BlobNode prefix_len exceeds inline buffer")
    else if !key.rangeEq depth bn.bytes then pure (.done ⟨.unchanged, false⟩)
    else pure (.crossing bn.childBlobGuid (depth + bn.bytes.length))
  | _ => throw (.corrupt "blob_node_erase_step: BlobNode body resolution failed")

def eraseAtStep (key : SearchKey) (condition : EraseCondition) :
    Nat → Slot → Nat → FrameM EraseStep
  | 0, _, _ => throw .diverged
  | fuel + 1, slot, depth => do
    let F ← get
    match ← lift (F.ntypeOf slot) with
    | .invalid => throw (.corrupt "walker::erase_at: hit NodeType::Invalid")
    | .emptyRoot => pure (.done ⟨.unchanged, false⟩)
    | .leaf => return .done (← eraseAtLeaf slot key condition)
    | .prefixNode => eraseAtPrefixStep (eraseAtStep key condition fuel) slot key depth
    | .blob => blobNodeEraseStep slot key depth
    | ntype => eraseAtInnerStep (eraseAtStep key condition fuel) slot ntype key depth

def resolveNewRootAfterErase (rootSlot : Slot) : EraseSignal → FrameM Slot
  | .unchanged => pure rootSlot
  | .replaced s => pure s
  | .subtreeGone => allocNode .emptyRoot

/-! ## The frame mirrors the tree -/

/-- The frame's answer is the tree's answer, and the parent is never asked to relink. -/
def EraseStep.Mirrors (F : Frame) (R : Set Cell) (s : Slot) (F' : Frame) :
    Art.EraseResult → EraseStep → Prop
  | .done t mutated, .done r => r = ⟨.unchanged, mutated⟩ ∧ (∃ fp, Built F F' R ∅ t s fp) ∧
      (mutated = false → F' = F)
  | .crossing guid depth, .crossing guid' depth' => guid' = guid ∧ depth' = depth ∧ F' = F
  | _, _ => False

section Mirrors

variable {F : Frame} {R fp : Set Cell} {t : Art} {s : Slot} {key : SearchKey}
  {condition : EraseCondition}

theorem EraseStep.Mirrors.same (hr : F.Rep t s fp) (hd : Disjoint R fp)
    (ha : F.Alloc (R ∪ fp)) : Mirrors F R s F (.done t false) (.done ⟨.unchanged, false⟩) :=
  ⟨rfl, ⟨fp, (Built.refl hr hd ha).after ha (Same.refl ..)⟩, fun _ => rfl⟩

/-- A node above a child that keeps its slot. -/
theorem EraseStep.Mirrors.above {R' : Set Cell} {c : Slot} {res : Art.EraseResult}
    {f : Art → Art} {F' : Frame} {st : EraseStep} (h : Mirrors F R' c F' res st)
    (hf : ∀ t fp', Built F F' R' ∅ t c fp' → ∃ fp, Built F F' R ∅ (f t) s fp) :
    Mirrors F R s F' (res.mapDone f) st := by
  cases res with
  | crossing g d => cases st <;> exact h
  | done t m =>
    cases st with
    | crossing g d => exact h.elim
    | done r =>
      obtain ⟨hr, ⟨fp', hb⟩, hsame⟩ := h
      exact ⟨hr, hf t fp' hb, hsame⟩

/-- Whatever an erasure answers, there is nothing to relink. -/
theorem EraseStep.Mirrors.settled {c : Slot} {res : Art.EraseResult} {F' : Frame}
    {st : EraseStep} (h : Mirrors F R c F' res st) :
    (∃ g d, st = .crossing g d) ∨ ∃ m, st = .done ⟨.unchanged, m⟩ := by
  cases st with
  | crossing g d => exact Or.inl ⟨g, d, rfl⟩
  | done r =>
    cases res with
    | crossing g d => exact h.elim
    | done t m => exact Or.inr ⟨m, congrArg _ h.1⟩

theorem eraseAtLeaf_mirrors {r : Record} (depth : Nat) (hr : F.Rep (.leaf r) s fp)
    (hd : Disjoint R fp) (ha : F.Alloc (R ∪ fp)) :
    Sat (eraseAtLeaf s key condition) F
      (fun ret F' => EraseStep.Mirrors F R s F' (Art.erase key.full condition (.leaf r) depth)
        (.done ret)) fun _ _ => False := by
  obtain ⟨l, hn, hst, hfp⟩ := id hr
  have hs : .slot s ∉ R := fun h => Set.disjoint_left.mp hd h hr.slot_mem
  have hmark : Sat (eraseAtLeaf.mark s l) F (fun ret F' => EraseStep.Mirrors F R s F'
      (.done (.leaf { r with tombstone := true }) true) (.done ret)) fun _ _ => False := by
    refine (writeStructToSlot_sat (b := .leaf { l with tombstone := true }) hn.1
      fun _ _ => False).andThen fun _ F₁ h₁ => ?_
    subst h₁
    simp only [sat_bind, sat_modify, sat_pure]
    refine ⟨rfl, ⟨fp, ⟨_, nodeAt_write hn.1, ?_, hfp⟩, Set.empty_subset _, hd,
      ha.congr rfl rfl rfl rfl, ?_⟩, fun h => absurd h Bool.noConfusion⟩
    · exact ⟨hst.valueSize, hst.seq, rfl, hst.keyLen, hst.fits, hst.data⟩
    rw [Set.union_empty]
    have := same_write F s (.leaf { l with tombstone := true }) hs
    exact ⟨this.slots, this.data, this.numSlots, this.rootSlot, this.blobGuid⟩
  simp only [eraseAtLeaf, sat_bind, sat_get, readLeafKeyRef_eq hn hst, lift_ok, sat_pure, Art.erase,
    hst.tombstone, hst.seq]
  by_cases hkey : r.key = key.full
  · have he : key.eqSlice r.key = true := (key.eqSlice_iff r.key).mpr hkey.symm
    simp only [he, Bool.not_true, Bool.false_eq_true, if_false, eq_true hkey, true_and]
    cases htomb : r.tombstone with
    | true =>
      simp only [if_true, sat_pure, EraseCondition.admits, htomb, Bool.false_eq_true, if_false]
      exact EraseStep.Mirrors.same hr hd ha
    | false =>
      simp only [Bool.false_eq_true, if_false, EraseCondition.admits, htomb]
      cases condition with
      | always => simpa using hmark
      | ifVersion v =>
        by_cases hseq : r.seq = v
        · simpa [hseq] using hmark
        · simp only [ne_eq, hseq, not_false_eq_true, if_true, sat_pure, decide_false,
            Bool.false_eq_true, if_false]
          exact EraseStep.Mirrors.same hr hd ha
  · have he : key.eqSlice r.key = false :=
      Bool.eq_false_iff.mpr fun h => hkey ((key.eqSlice_iff r.key).mp h).symm
    simp only [he, Bool.not_false, if_true, sat_pure, hkey, false_and, if_false]
    exact EraseStep.Mirrors.same hr hd ha

/-- Inside one blob the walker does to the frame what `Art.erase` does to the tree; it cannot
fail. -/
theorem eraseAtStep_mirrors {fuel depth : Nat} {π : List UInt8} (hr : F.Rep t s fp)
    (hd : Disjoint R fp) (ha : F.Alloc (R ∪ fp)) (hw : t.Wf π) (hfuel : t.height < fuel) :
    Sat (eraseAtStep key condition fuel s depth) F
      (fun st F' => EraseStep.Mirrors F R s F' (Art.erase key.full condition t depth) st)
      fun _ _ => False := by
  induction t generalizing F R s fp fuel depth π with
  | emptyRoot =>
    obtain ⟨m, rfl⟩ := succ_of_lt hfuel
    simp only [eraseAtStep, sat_bind, sat_get, hr.1.ntypeOf, Body.ntype, lift_ok, sat_pure]
    exact EraseStep.Mirrors.same hr hd ha
  | leaf r =>
    obtain ⟨m, rfl⟩ := succ_of_lt hfuel
    obtain ⟨l, hn, -⟩ := id hr
    simp only [eraseAtStep, sat_bind, sat_get, hn.ntypeOf, Body.ntype, lift_ok, sat_pure]
    exact eraseAtLeaf_mirrors depth hr hd ha
  | pfx bytes child ih =>
    obtain ⟨m, rfl⟩ := succ_of_lt hfuel
    obtain ⟨c, fpc, hn, hchild, hsc, rfl⟩ := id hr
    obtain ⟨hs, hdc⟩ := Set.disjoint_insert_right.mp hd
    have hunion : R ∪ insert (.slot s) fpc = insert (.slot s) R ∪ fpc := by
      rw [Set.union_insert, Set.insert_union]
    simp only [eraseAtStep, eraseAtPrefixStep, sat_bind, sat_get, hn.ntypeOf, Body.ntype, lift_ok,
      sat_pure, readPrefix, hn.bodyOfSlot, Art.erase]
    by_cases hnext : Art.Next key.full depth bytes
    · simp only [Art.rangeEq_eq_next, hnext, decide_true, Bool.not_true, Bool.false_eq_true,
        if_false, if_true, sat_bind]
      rw [hunion] at ha
      simp only [Art.height] at hfuel
      refine (ih hchild (Set.disjoint_insert_left.mpr ⟨hsc, hdc⟩) ha hw.2.2
        (show child.height < m by omega)).imp fun st F' h => ?_
      have h' := h.above (s := s) fun t fp' hb => ⟨_, hb.pfx_above hn hs⟩
      obtain ⟨g, d, rfl⟩ | ⟨m, rfl⟩ := h.settled <;> exact .pure h'
    · simp only [Art.rangeEq_eq_next, hnext, decide_false, Bool.not_false, if_true, if_false,
        sat_pure]
      exact EraseStep.Mirrors.same hr hd ha
  | inner has child ih =>
    obtain ⟨m, rfl⟩ := succ_of_lt hfuel
    obtain ⟨n, fps, hn, hkids, hsk, hfp⟩ := rep_inner_iff.mp hr
    have hs : .slot s ∉ R := fun h => Set.disjoint_left.mp hd h hr.slot_mem
    have hstep : Sat (eraseAtInnerStep (eraseAtStep key condition m) s n.ntype key depth) F
        (fun st F' => EraseStep.Mirrors F R s F'
          (Art.erase key.full condition (.inner has child) depth) st) fun _ _ => False := by
      simp only [eraseAtInnerStep, SearchKey.byteAt_eq, Art.erase]
      cases hb : key.full[depth]? with
      | none => exact .pure (EraseStep.Mirrors.same hr hd ha)
      | some b =>
        simp only [sat_bind, sat_get, innerFindChild, readInner_eq hn, Except.map, lift_ok,
          sat_pure]
        by_cases hhas : has b = true
        · obtain ⟨c, hf⟩ := hkids.findChild_some hhas
          simp only [hf, if_pos hhas, sat_bind]
          subst hfp
          have hlt := Art.height_child child hhas
          obtain ⟨hunion, hd', hso, hdo⟩ := hkids.split hsk hd b
          rw [hunion] at ha
          refine (ih b (hkids.rep b c hf) hd' ha (hw b hhas)
            (show (child b).height < m by omega)).imp fun st F' h => ?_
          have h' := h.above (s := s) fun t fp' hbt =>
            ⟨_, hbt.inner_above hn hkids hf hs hso hdo rfl⟩
          obtain ⟨g, d, rfl⟩ | ⟨m, rfl⟩ := h.settled <;> exact .pure h'
        · have hhas' : has b = false := Bool.eq_false_iff.mpr hhas
          simp only [hkids.findChild_none hhas', if_neg hhas, sat_pure]
          exact EraseStep.Mirrors.same hr hd ha
    simp only [eraseAtStep, sat_bind, sat_get, hn.ntypeOf, Body.ntype, lift_ok, sat_pure]
    cases n <;> exact hstep
  | blob bytes guid =>
    obtain ⟨m, rfl⟩ := succ_of_lt hfuel
    simp only [eraseAtStep, blobNodeEraseStep, sat_bind, sat_get, hr.1.ntypeOf, Body.ntype,
      lift_ok, sat_pure, hr.1.bodyOfSlot, if_neg (not_lt.mpr hw), Art.erase]
    by_cases hnext : Art.Next key.full depth bytes
    · simp only [Art.rangeEq_eq_next, hnext, decide_true, Bool.not_true, Bool.false_eq_true,
        if_false, if_true, sat_pure]
      exact ⟨rfl, rfl, rfl⟩
    · simp only [Art.rangeEq_eq_next, hnext, decide_false, Bool.not_false, if_true, if_false,
        sat_pure]
      exact EraseStep.Mirrors.same hr hd ha

end Mirrors

end Holt
