import Holt.Walker.WriteMulti

/-! How much room an insertion can need, and what it leaves of a blob that does not have it. -/

namespace Holt

open Holt.Lib Holt.Frame

/-- Room for `slots` more nodes and `bytes` more bytes, before the reserved tail. -/
def Frame.Room (F : Frame) (slots bytes : Nat) : Prop :=
  F.numSlots + slots ≤ maxSlots ∧ F.spaceUsed + bytes + spilloverReservation ≤ pageSize

theorem Frame.Lacks.not_room {F : Frame} {t : NodeType} {e : Error} (h : F.Lacks t e)
    (hres : e.IsResource) : ¬F.Room 1 (sizeOfNode t) := by
  unfold Room
  cases h with
  | request => rcases hres with h | ⟨need, avail, h⟩ <;> cases h
  | slots _ _ h => omega
  | space _ _ h =>
    unfold nodeAvail at h
    split at h <;> omega

/-! ## Allocations show nowhere -/

/-- The header's two counters of what the tree holds. -/
def Frame.Counts (F F' : Frame) : Prop :=
  F'.numExtBlobs = F.numExtBlobs ∧ F'.tombstoneLeafCnt = F.tombstoneLeafCnt

/-- Nothing in use has changed, and the counters say the same. -/
structure Quiet (F : Frame) (U : Set Cell) (F' : Frame) : Prop where
  kept : F.Kept F' U
  counts : F.Counts F'

/-- A program that only ever takes unused cells, whether it fails or not: at most so many nodes
and bytes, and it runs out of room only where there are not as many. -/
def Draws {α : Type} (U : Set Cell) (slots bytes : Nat) (x : FrameM α) : Prop :=
  ∀ F : Frame, F.Alloc U → Sat x F
    (fun _ F' => Quiet F U F' ∧ F'.numSlots ≤ F.numSlots + slots ∧
      F'.spaceUsed ≤ F.spaceUsed + bytes)
    (fun e F' => Quiet F U F' ∧ (e.IsResource → ¬F.Room slots bytes))

section Draws

variable {α β : Type} {F F' : Frame} {U : Set Cell} {m n a b : Nat}

theorem Quiet.refl (h : F.Alloc U) : Quiet F U F := ⟨Kept.refl h, rfl, rfl⟩

theorem Quiet.trans {F'' : Frame} (h : Quiet F U F') (h' : Quiet F' U F'') : Quiet F U F'' :=
  ⟨h.kept.trans h'.kept subset_rfl, h'.counts.1.trans h.counts.1, h'.counts.2.trans h.counts.2⟩

theorem Draws.mono {x : FrameM α} (h : Draws U m a x) (hs : m ≤ n) (hb : a ≤ b) :
    Draws U n b x := by
  intro F ha
  apply (h F ha).mono
  · exact fun _ F' ⟨hq, hslots, hbytes⟩ => ⟨hq, by omega, by omega⟩
  · refine fun e F' ⟨hq, he⟩ => ⟨hq, fun hres hroom => he hres ?_⟩
    unfold Room at *
    omega

theorem Draws.pure (r : α) : Draws U 0 0 (Pure.pure r : FrameM α) :=
  fun _ ha => .pure ⟨Quiet.refl ha, le_rfl, le_rfl⟩

theorem Draws.bind {x : FrameM α} {f : α → FrameM β} (hx : Draws U m a x)
    (hf : ∀ r, Draws U n b (f r)) : Draws U (m + n) (a + b) (x >>= f) := by
  intro F ha
  apply (hx F ha).bind
  · rintro r F' ⟨hq, hslots, hbytes⟩
    apply (hf r F' hq.kept.alloc).mono
    · exact fun _ F'' ⟨hq', hslots', hbytes'⟩ => ⟨hq.trans hq', by omega, by omega⟩
    · refine fun e F'' ⟨hq', he⟩ => ⟨hq.trans hq', fun hres hroom => he hres ?_⟩
      unfold Room at *
      omega
  · refine fun e F' ⟨hq, he⟩ => ⟨hq, fun hres hroom => he hres ?_⟩
    unfold Room at *
    omega

theorem newNode_draws {body : Body} (hb : body.ntype ≠ .blob) (hi : body.ntype ≠ .invalid) :
    Draws U 1 (sizeOfNode body.ntype) (newNode body) := by
  intro F ha
  apply ((newNode_sat ha hi).and (newNode_effect F body)).mono
  · rintro s _ ⟨h, F₁, ht, rfl⟩
    refine ⟨⟨⟨h.alloc.mono (Set.subset_insert ..), h.same⟩, ht.numExtBlobs hb,
      ht.tombstoneLeafCnt⟩, ?_⟩
    rcases ht.source with ⟨list, e, hp⟩ | hb
    · simp [hp.numSlots, hp.spaceUsed]
    · simp [hb.numSlots, hb.spaceUsed]
  · rintro e _ ⟨⟨rfl, -⟩, ⟨-, he⟩ | he⟩
    · exact ⟨Quiet.refl ha, he.not_room⟩
    · exact ⟨Quiet.refl ha, fun hres => absurd hres he.not_resource⟩

theorem storeLeaf_draws {size : Nat} {bytes : List UInt8} (h0 : 0 < size) (h8 : size % 8 = 0)
    (hlen : bytes.length ≤ size) (context : String) (leaf : Nat → Leaf) :
    Draws U 1 (size + sizeOfNode .leaf) (storeLeaf context size bytes leaf) := by
  intro F ha
  have hround : (size + 7) / 8 * 8 = size := by omega
  apply ((allocExtent_sat ha h0 h8).and (allocExtent_effect F size)).bind
  · rintro _ _ ⟨h₁, -, rfl, -, rfl⟩
    rw [hround] at h₁ ⊢
    have hkept : F.Kept { F with spaceUsed := F.spaceUsed + size } U :=
      ⟨h₁.alloc.mono Set.subset_union_right, h₁.same⟩
    split
    · exact .throw ⟨⟨hkept, rfl, rfl⟩, fun hres => absurd hres (Error.not_resource (by simp))⟩
    · rw [sat_bind, sat_modify]
      -- the extent is unused, so its bytes may be overwritten
      have hput := same_putBytes (R := U) { F with spaceUsed := F.spaceUsed + size } F.spaceUsed
        bytes fun a h h' => h₁.fresh a h (by omega)
      have hquiet : Quiet F U (Frame.putBytes _ F.spaceUsed bytes) :=
        ⟨⟨hkept.alloc.putBytes _ _, hkept.same.trans hput⟩, rfl, rfl⟩
      have hnew : Draws U 1 (sizeOfNode .leaf) (newNode (.leaf (leaf F.spaceUsed))) :=
        newNode_draws NodeType.noConfusion NodeType.noConfusion
      apply (hnew _ hquiet.kept.alloc).mono
      · exact fun _ F' ⟨hq, hslots, hbytes⟩ =>
          ⟨hquiet.trans hq, hslots, hbytes.trans (Nat.add_assoc ..).le⟩
      · refine fun e F' ⟨hq, he⟩ => ⟨hquiet.trans hq, fun hres hroom => he hres ?_⟩
        unfold Room at *
        dsimp only [Frame.putBytes]
        omega
  · rintro e _ ⟨⟨rfl, -⟩, -, he⟩
    refine ⟨Quiet.refl ha, fun _ hroom => ?_⟩
    unfold Room at hroom
    omega

/-! ## New leaves and branches -/

/-- What a new leaf takes. -/
def leafCost (keyLen valueLen : Nat) : Nat := leafExtentSize keyLen valueLen + sizeOfNode .leaf

/-- How many prefix nodes spell so many bytes. -/
def chunks (len : Nat) : Nat := (len + prefixMaxInline - 1) / prefixMaxInline

theorem chunks_mono {m n : Nat} (h : m ≤ n) : chunks m ≤ chunks n := by
  unfold chunks prefixMaxInline
  omega

theorem writeLeaf_draws (key : SearchKey) (value : List UInt8) (seq : Nat) :
    Draws U 1 (leafCost key.len value.length) (writeLeaf key value seq) := by
  apply storeLeaf_draws (leafExtentSize_pos ..) (leafExtentSize_mod ..)
  rw [length_leafBytes, SearchKey.length_full]
  exact leafExtentSize_ge ..

theorem prefixChainLoop_draws (n : Nat) (bytes : List UInt8) (next : Slot) :
    Draws U (chunks bytes.length) (chunks bytes.length * sizeOfNode .prefixNode)
      (prefixChainLoop n bytes next) := by
  have hdone : ∀ {n b}, Draws U n b (Pure.pure next : FrameM Slot) :=
    (Draws.pure next).mono (Nat.zero_le _) (Nat.zero_le _)
  induction n generalizing bytes next with
  | zero => exact hdone
  | succ n ih =>
    unfold prefixChainLoop
    split
    · exact hdone
    · rename_i hne
      have hpos := List.length_pos_iff.mpr hne
      have hchunks : chunks bytes.length = 1 +
          chunks (bytes.take (bytes.length - min bytes.length prefixMaxInline)).length := by
        rw [List.length_take]
        unfold chunks prefixMaxInline
        omega
      have hnew : ∀ b, Draws U 1 (sizeOfNode .prefixNode) (newNode (.pfx b)) :=
        fun b => newNode_draws NodeType.noConfusion NodeType.noConfusion
      rw [hchunks, Nat.add_mul, Nat.one_mul]
      exact (hnew _).bind fun slot =>
        ih _ slot ((Draws.pure slot).mono (Nat.zero_le _) (Nat.zero_le _))

theorem wrapPrefix_draws (bytes : List UInt8) (child : Slot) :
    Draws U (chunks bytes.length) (chunks bytes.length * sizeOfNode .prefixNode)
      (wrapPrefix bytes child) := by
  unfold wrapPrefix writePrefixChain
  split
  · exact (Draws.pure child).mono (Nat.zero_le _) (Nat.zero_le _)
  · exact prefixChainLoop_draws _ _ _

/-- What the prefix nodes of a key may take. -/
def spellCost (keyLen : Nat) : Nat := chunks keyLen * sizeOfNode .prefixNode

theorem writeLeafSplit_draws (existing : Slot) (key : SearchKey) (value : List UInt8)
    (seq : Nat) {split : LeafSplitPlan} (hle : split.commonPrefix.length ≤ key.len) :
    Draws U (chunks key.len + 2)
      (leafCost key.len value.length + sizeOfNode .node4 + spellCost key.len)
      (writeLeafSplit existing key value seq split) := by
  have hn4 : ∀ newLeaf, Draws U 1 (sizeOfNode .node4)
      (writeNode4With [(split.byteExisting, existing), (split.byteNew, newLeaf)]) :=
    fun newLeaf => newNode_draws NodeType.noConfusion NodeType.noConfusion
  have hchain : ∀ n4, Draws U (chunks key.len) (spellCost key.len)
      (wrapPrefix split.commonPrefix n4) := fun n4 =>
    (wrapPrefix_draws split.commonPrefix n4).mono (chunks_mono hle)
      (Nat.mul_le_mul_right _ (chunks_mono hle))
  refine ((writeLeaf_draws key value seq).bind fun newLeaf =>
    (hn4 newLeaf).bind hchain).mono ?_ ?_
  · omega
  · omega

end Draws

/-! ## What cannot run out of room -/

/-- A program that never runs out of room, whatever else may be wrong. -/
def NeverFull {α : Type} (x : FrameM α) : Prop :=
  ∀ F : Frame, Sat x F (fun _ _ => True) (fun e _ => ¬e.IsResource)

section NeverFull

variable {α β : Type}

theorem NeverFull.pure (a : α) : NeverFull (Pure.pure a : FrameM α) :=
  fun _ => .pure trivial

theorem NeverFull.modify (f : Frame → Frame) : NeverFull (modify f : FrameM PUnit) :=
  fun _ => (sat_modify ..).mpr trivial

theorem NeverFull.bind {x : FrameM α} {f : α → FrameM β} (hx : NeverFull x)
    (hf : ∀ a, NeverFull (f a)) : NeverFull (x >>= f) :=
  fun F => (hx F).andThen fun a F' _ => hf a F'

theorem freeNode_neverFull (s : Slot) : NeverFull (freeNode s) := by
  refine fun F => (freeNode_effect F s).mono (fun _ _ _ => trivial) ?_
  rintro _ _ ⟨-, why, rfl⟩
  exact Error.not_resource (by simp)

theorem Writes.neverFull {s : Slot} {x : FrameM Unit} (h : Writes s x) : NeverFull x :=
  fun F => (h F).mono (fun _ _ _ => trivial) fun _ _ he => he.2.not_resource

theorem writeLeafSeq_neverFull (s : Slot) (seq : Nat) : NeverFull (writeLeafSeq s seq) := by
  intro F
  simp only [writeLeafSeq, sat_bind, sat_get]
  split
  · exact .throw (Error.not_resource (by simp))
  · exact (sat_set ..).mpr trivial
  · exact .throw (Error.not_resource (by simp))

theorem insertChild_not_resource {n : Inner} {b : UInt8} {c : Slot} {e : Error}
    (he : n.insertChild b c = .error e) : ¬e.IsResource := by
  cases n with
  | node4 es => cases he
  | node16 es => cases he
  | node48 n =>
    simp only [Inner.insertChild, node48Insert] at he
    split at he
    · cases he
      exact Error.not_resource (by simp)
    · split at he <;> cases he
      exact Error.not_resource (by simp)
  | node256 n =>
    simp only [Inner.insertChild] at he
    split at he <;> cases he
    exact Error.not_resource (by simp)

theorem afterChild_neverFull {s : Slot} {relink : Slot → FrameM Unit}
    (h : ∀ c, NeverFull (relink c)) (r : InsertStep) : NeverFull (afterChild s relink r) := by
  cases r with
  | crossing guid depth => exact NeverFull.pure _
  | done r => exact NeverFull.bind (h _) fun _ => NeverFull.pure _

end NeverFull

/-! ## Insertions -/

/-- More nodes than an insertion ever takes: a leaf, a branch or the larger kinds of a full node,
the bytes above a branch and those of a prefix cut in two. -/
def insertSlots (keyLen : Nat) : Nat := chunks keyLen + 5

def insertBytes (keyLen valueLen : Nat) : Nat :=
  leafCost keyLen valueLen + 4 * sizeOfNode .node256 + spellCost keyLen + sizeOfNode .prefixNode

/-- An operation that ran out of room has changed nothing in use, and then there was not the room
that `P` promises. -/
def Short (F : Frame) (U : Set Cell) (P : Prop) (e : Error) (F' : Frame) : Prop :=
  e.IsResource → Quiet F U F' ∧ ¬P

section Insert

variable {α β : Type} {F : Frame} {U : Set Cell} {P : Prop} {m n a b : Nat} {key : SearchKey}
  {value : List UInt8} {seq : Nat} {condition : InsertCondition} {s : Slot} {t : Art}
  {π : List UInt8}

theorem Short.of_not {F' F₀ : Frame} {e : Error} (h : ¬e.IsResource) : Short F₀ U P e F' :=
  fun hres => absurd hres h

theorem NeverFull.short {x : FrameM α} (h : NeverFull x) (F₀ : Frame) :
    Sat x F (fun _ _ => True) (Short F₀ U P) :=
  (h F).mono (fun _ _ h => h) fun _ _ => .of_not

/-- First only new cells, then a part that has as much room as is left. -/
theorem Draws.short_bind {x : FrameM α} {f : α → FrameM β} (hx : Draws U m a x) (ha : F.Alloc U)
    (hP : P → F.Room (m + n) (a + b))
    (hf : ∀ r F', Quiet F U F' → (P → F'.Room n b) →
      Sat (f r) F' (fun _ _ => True) (Short F' U P)) :
    Sat (x >>= f) F (fun _ _ => True) (Short F U P) := by
  apply (hx F ha).bind
  · rintro r F' ⟨hq, hslots, hbytes⟩
    refine (hf r F' hq fun h => ?_).mono (fun _ _ h => h) fun _ _ he hres =>
      ⟨hq.trans (he hres).1, (he hres).2⟩
    have := hP h
    unfold Room at *
    omega
  · refine fun e F' ⟨hq, he⟩ hres => ⟨hq, fun h => he hres ?_⟩
    have := hP h
    unfold Room at *
    omega

/-- Nothing after it needs room. -/
theorem Draws.short {x : FrameM α} {f : α → FrameM β} (hx : Draws U m a x) (ha : F.Alloc U)
    (hP : P → F.Room m a) (hf : ∀ r, NeverFull (f r)) :
    Sat (x >>= f) F (fun _ _ => True) (Short F U P) :=
  hx.short_bind (n := 0) (b := 0) ha hP fun r F' _ _ => (hf r).short F'

theorem writeLeaf_drawsInsert (key : SearchKey) (value : List UInt8) (seq : Nat) :
    Draws U (insertSlots key.len) (insertBytes key.len value.length) (writeLeaf key value seq) := by
  apply (writeLeaf_draws key value seq).mono
  · unfold insertSlots
    omega
  · unfold insertBytes
    omega

theorem writeLeafSplit_drawsInsert (existing : Slot) (key : SearchKey) (value : List UInt8)
    (seq : Nat) {split : LeafSplitPlan} (hle : split.commonPrefix.length ≤ key.len) :
    Draws U (insertSlots key.len) (insertBytes key.len value.length)
      (writeLeafSplit existing key value seq split) := by
  apply (writeLeafSplit_draws existing key value seq hle).mono
  · unfold insertSlots
    omega
  · unfold insertBytes
    simp only [sizeOfNode]
    omega

theorem updateLeaf_short (ha : F.Alloc U)
    (hP : P → F.Room (insertSlots key.len) (insertBytes key.len value.length)) (s : Slot)
    (l : Leaf) (seq : Nat) :
    Sat (updateLeaf s l key value seq) F (fun _ _ => True) (Short F U P) := by
  have hsettle : NeverFull (do settleTombstone l.tombstone; pure s) :=
    (NeverFull.modify _).bind fun _ => NeverFull.pure _
  unfold updateLeaf
  dsimp only
  split
  · split
    · exact .throw (.of_not (Error.not_resource (by simp)))
    · exact ((NeverFull.modify _).bind fun _ => (writeLeafSeq_neverFull s seq).bind fun _ =>
        NeverFull.pure _).short F
  · split
    · split
      · exact .throw (.of_not (Error.not_resource (by simp)))
      · exact ((NeverFull.modify _).bind fun _ => (writeStructToSlot_writes s _).neverFull.bind
          fun _ => (NeverFull.modify _).bind fun _ => NeverFull.pure _).short F
    · exact (writeLeaf_drawsInsert key value seq).short ha hP fun _ =>
        (freeNode_neverFull _).bind fun _ => (NeverFull.modify _).bind fun _ => NeverFull.pure _

theorem commonPrefixWithSlice_le (key : SearchKey) (depth : Nat) (other : List UInt8) :
    key.commonPrefixWithSlice depth other ≤ key.len := by
  rw [SearchKey.commonPrefixWithSlice_eq]
  have hle := longestCommonPrefix_le_left (key.full.drop depth) other
  rw [List.length_drop, SearchKey.length_full] at hle
  omega

theorem length_take_common (key : SearchKey) (depth : Nat) (other : List UInt8) :
    (other.take (key.commonPrefixWithSlice depth other)).length ≤ key.len :=
  (List.length_take_le _ _).trans (commonPrefixWithSlice_le key depth other)

theorem insertIntoLeaf_short (ha : F.Alloc U) {fp : Set Cell} {r : Record}
    (hr : F.Rep (.leaf r) s fp)
    (hP : P → F.Room (insertSlots key.len) (insertBytes key.len value.length)) (depth : Nat) :
    Sat (insertIntoLeaf s key value depth seq condition) F (fun _ _ => True) (Short F U P) := by
  obtain ⟨l, hn, hst, -⟩ := hr
  simp only [insertIntoLeaf, sat_bind, sat_get, readLeafKeyRef_eq hn hst, lift_ok, sat_pure]
  split
  · split
    · exact updateLeaf_short ha hP s l seq
    · exact .pure trivial
  · split
    · exact .throw (.of_not (Error.not_resource (by simp)))
    · split
      · exact .pure trivial
      · exact (writeLeafSplit_drawsInsert s key value seq (length_take_common key depth
          (r.key.drop depth))).short ha hP fun _ => NeverFull.pure _

/-- Growing takes a new node first; the grown node then has room for the child. -/
theorem innerAddChild_short (ha : F.Alloc U) {n : Inner} (hn : F.NodeAt s (.inner n))
    (hs : .slot s ∈ U) (hw : n.Wf) (hP : P → F.Room 1 (sizeOfNode .node256)) (b : UInt8)
    (c : Slot) : Sat (innerAddChild s n.ntype b c) F (fun _ _ => True) (Short F U P) := by
  have hroom : ∀ (m : Nat) {F F₀ : Frame} {s : Slot} {n : Inner}, F.NodeAt s (.inner n) →
      n.full = false →
      Sat (innerAddChildN (m + 1) s n.ntype b c) F (fun _ _ => True) (Short F₀ U P) := by
    intro m F F₀ s n hn hfull
    simp only [innerAddChildN, sat_bind, sat_get, readInner_eq hn, lift_ok, sat_pure, hfull,
      Bool.false_eq_true, if_false]
    cases hins : n.insertChild b c with
    | error e => exact .throw (.of_not (insertChild_not_resource hins))
    | ok n' =>
      simp only [lift_ok, sat_pure]
      exact (writeStructToSlot_writes s _).neverFull.short F₀
  unfold innerAddChild
  by_cases hfull : n.full = true
  · rw [innerAddChildN]
    simp only [sat_bind, sat_get, readInner_eq hn, lift_ok, sat_pure, hfull, if_true, growInner]
    have hgrow : Draws U 1 (sizeOfNode .node256) (newNode (.inner n.grow)) := by
      refine (newNode_draws ?_ ?_).mono le_rfl ?_ <;>
        cases n <;> simp [Inner.grow, Body.ntype, Inner.ntype, sizeOfNode]
    apply ((newNode_sat ha (b := .inner n.grow) (by simp [Body.ntype])).and (hgrow F ha)).mono
    · rintro s' F₁ ⟨h₁, -⟩
      have hne : Cell.slot s' ≠ .slot s := fun he => h₁.fresh (he ▸ hs)
      apply (freeNode_sat h₁.alloc (hn.same h₁.same hs).1 (Set.mem_insert_of_mem _ hs)
        fun _ _ => False).mono
      · intro _ F₂ h₂
        exact hroom 2 (h₁.node.same h₂.same ⟨Set.mem_insert .., hne⟩) (Inner.grow_spec hw hfull).2.1
      · exact fun _ _ he => he.elim
    · rintro e F₁ ⟨-, hq, he⟩ hres
      exact ⟨hq, fun h => he hres (hP h)⟩
  · rw [Bool.not_eq_true] at hfull
    exact hroom 3 hn hfull

theorem insertIntoPrefixStep_short (ha : F.Alloc U) {c : Slot} {bytes : List UInt8}
    (hn : F.NodeAt s (.pfx ⟨bytes, c⟩)) {recur : Slot → Nat → FrameM InsertStep}
    (hrec : ∀ depth, Sat (recur c depth) F (fun _ _ => True) (Short F U P))
    (hP : P → F.Room (insertSlots key.len) (insertBytes key.len value.length) ∧
      bytes.length ≤ prefixMaxInline) (depth : Nat) :
    Sat (insertIntoPrefixStep recur s key value depth seq condition) F (fun _ _ => True)
      (Short F U P) := by
  simp only [insertIntoPrefixStep, sat_bind, sat_get, readPrefix, hn.bodyOfSlot, lift_ok, sat_pure]
  split
  · refine (hrec _).andThen fun r F' _ => (afterChild_neverFull (fun c' => ?_) r).short F
    unfold relinkPrefix
    split
    · exact (setPrefixChild_writes _ _).neverFull
    · exact NeverFull.pure _
  · split
    · exact .throw (.of_not (Error.not_resource (by simp)))
    · split
      · exact .pure trivial
      · -- what is left of the prefix, then the branch
        generalize hcut : bytes.drop _ = rest
        refine (wrapPrefix_draws rest c).short_bind ha (fun h => ?_) fun branch F₁ h₁ hP₁ =>
          (writeLeafSplit_draws branch key value seq (length_take_common key depth bytes)).short
            h₁.kept.alloc hP₁ fun _ => (freeNode_neverFull _).bind fun _ => NeverFull.pure _
        obtain ⟨hroom, hlen⟩ := hP h
        have hone : chunks rest.length ≤ 1 := by
          rw [← hcut, List.length_drop]
          unfold chunks prefixMaxInline at *
          omega
        have hbytes := Nat.mul_le_mul_right (sizeOfNode .prefixNode) hone
        unfold Room insertSlots insertBytes at *
        simp only [sizeOfNode] at *
        omega

theorem insertIntoInnerStep_short (ha : F.Alloc U) {n : Inner} (hn : F.NodeAt s (.inner n))
    (hs : .slot s ∈ U) (hw : n.Wf) {recur : Slot → Nat → FrameM InsertStep}
    (hrec : ∀ b c depth, n.findChild b = some c →
      Sat (recur c depth) F (fun _ _ => True) (Short F U P))
    (hP : P → F.Room (insertSlots key.len) (insertBytes key.len value.length)) (depth : Nat) :
    Sat (insertIntoInnerStep recur s n.ntype key value depth seq condition) F (fun _ _ => True)
      (Short F U P) := by
  unfold insertIntoInnerStep
  split
  · exact .throw (.of_not (Error.not_resource (by simp)))
  · rename_i byte _
    simp only [sat_bind, sat_get, innerFindChild, readInner_eq hn, Except.map, lift_ok, sat_pure]
    split
    · rename_i c hf
      refine (hrec byte c _ hf).andThen fun r F' _ =>
        (afterChild_neverFull (fun c' => ?_) r).short F
      unfold relinkInner
      split
      · exact (innerUpdateChild_writes _ _ _ _).neverFull
      · exact NeverFull.pure _
    · split
      · exact .pure trivial
      · refine (writeLeaf_draws key value seq).short_bind (n := 1) (b := sizeOfNode .node256) ha
          (fun h => ?_) fun newLeaf F₁ h₁ hP₁ => ?_
        · have := hP h
          unfold Room insertSlots insertBytes at *
          omega
        · exact (innerAddChild_short h₁.kept.alloc (hn.same h₁.kept.same hs) hs hw hP₁ byte
            newLeaf).andThen fun grown F₂ _ => .pure trivial

theorem blobNodeInsertStep_short (ha : F.Alloc U) {bn : BlobNode} (hn : F.NodeAt s (.blob bn))
    (hP : P → F.Room (insertSlots key.len) (insertBytes key.len value.length)) (depth : Nat) :
    Sat (blobNodeInsertStep s key value depth seq condition) F (fun _ _ => True)
      (Short F U P) := by
  simp only [blobNodeInsertStep, sat_bind, sat_get, hn.bodyOfSlot]
  split
  · exact .throw (.of_not (Error.not_resource (by simp)))
  · split
    · exact .pure trivial
    · split
      · exact .throw (.of_not (Error.not_resource (by simp)))
      · split
        · exact .pure trivial
        · exact (writeLeafSplit_drawsInsert s key value seq (length_take_common key depth
            bn.bytes)).short ha hP fun _ =>
              (writeStructToSlot_writes s _).neverFull.bind fun _ => NeverFull.pure _

/-- Wherever in the tree an insertion runs out of room, it has only taken unused cells: nothing is
taken before the place where the key belongs is found, and a node is relinked only after the call
on its child has succeeded. -/
theorem insertAtStep_short {fp : Set Cell} (hr : F.Rep t s fp) (hu : fp ⊆ U) (ha : F.Alloc U)
    (hP : P → F.Room (insertSlots key.len) (insertBytes key.len value.length) ∧ ∃ π, t.Wf π)
    (fuel depth : Nat) :
    Sat (insertAtStep key value seq condition fuel s depth) F (fun _ _ => True)
      (Short F U P) := by
  induction fuel generalizing t s fp depth with
  | zero => exact .throw (.of_not (Error.not_resource (by simp)))
  | succ fuel ih =>
    have hroom := fun h => (hP h).1
    cases t with
    | emptyRoot =>
      simp only [insertAtStep, sat_bind, sat_get, hr.1.ntypeOf, Body.ntype, lift_ok, sat_pure]
      unfold insertIntoEmptyRoot
      split
      · exact .pure trivial
      · exact (writeLeaf_drawsInsert key value seq).short ha hroom fun _ =>
          (freeNode_neverFull _).bind fun _ => NeverFull.pure _
    | leaf r =>
      obtain ⟨l, hn, -⟩ := id hr
      simp only [insertAtStep, sat_bind, sat_get, hn.ntypeOf, Body.ntype, lift_ok, sat_pure]
      exact insertIntoLeaf_short ha hr hroom depth
    | pfx bytes child =>
      obtain ⟨c, fpc, hn, hchild, -, rfl⟩ := hr
      simp only [insertAtStep, sat_bind, sat_get, hn.ntypeOf, Body.ntype, lift_ok, sat_pure]
      refine insertIntoPrefixStep_short ha hn (ih hchild ((Set.subset_insert ..).trans hu)
        fun h => ?_) (fun h => ?_) depth
      · obtain ⟨hroom, π, -, -, hwc⟩ := hP h
        exact ⟨hroom, _, hwc⟩
      · obtain ⟨hroom, π, -, hcap, -⟩ := hP h
        exact ⟨hroom, hcap⟩
    | inner has child =>
      obtain ⟨n, fps, hn, hk, -, rfl⟩ := rep_inner_iff.mp hr
      have hstep : Sat (insertIntoInnerStep (insertAtStep key value seq condition fuel) s
          n.ntype key value depth seq condition) F (fun _ _ => True) (Short F U P) := by
        refine insertIntoInnerStep_short ha hn (hu (Set.mem_insert ..)) hk.wf
          (fun b c depth hf => ?_) hroom depth
        refine ih (hk.rep b c hf) ((Set.subset_iUnion fps b).trans
          ((Set.subset_insert ..).trans hu)) (fun h => ?_) depth
        obtain ⟨hroom, π, hw⟩ := hP h
        exact ⟨hroom, _, hw b (by rw [← hk.has_eq b, hf, Option.isSome_some])⟩
      simp only [insertAtStep, sat_bind, sat_get, hn.ntypeOf, Body.ntype, lift_ok, sat_pure]
      cases n <;> exact hstep
    | blob bytes guid =>
      simp only [insertAtStep, sat_bind, sat_get, hr.1.ntypeOf, Body.ntype, lift_ok, sat_pure]
      exact blobNodeInsertStep_short ha hr.1 hroom depth

end Insert

end Holt
