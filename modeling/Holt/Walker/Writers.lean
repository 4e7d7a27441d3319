import Holt.Walker.Lookup

/-! Allocating and rewriting nodes. Each function is specified by the tree it builds and by the
cells it leaves alone. -/

namespace Holt

open Holt.Lib Holt.Frame

/-- A new extent with the given bytes and a leaf that points to it. -/
def storeLeaf (context : String) (extSize : Nat) (bytes : List UInt8) (leaf : Nat → Leaf) :
    FrameM Slot := do
  let offset ← allocExtent extSize
  if pageSize < offset + extSize then throw (.corrupt context)
  else
    modify fun F => F.putBytes offset bytes
    newNode (.leaf (leaf offset))

def writeLeaf (key : SearchKey) (value : List UInt8) (seq : Nat) : FrameM Slot :=
  storeLeaf "write_leaf: extent out of range" (leafExtentSize key.len value.length)
    (leafBytes key.full value) fun offset => .live offset (value.length % 2 ^ 16) seq

/-- Prefix nodes for `remaining`, the last chunk first; the answer is the chain's head. -/
def prefixChainLoop : Nat → List UInt8 → Slot → FrameM Slot
  | 0, _, next => pure next
  | n + 1, remaining, next =>
    if remaining = [] then pure next
    else do
      let start := remaining.length - min remaining.length prefixMaxInline
      let slot ← newNode (.pfx ⟨remaining.drop start, next⟩)
      prefixChainLoop n (remaining.take start) slot

def writePrefixChain (bytes : List UInt8) (child : Slot) : FrameM Slot :=
  if bytes = [] then pure 0 else prefixChainLoop bytes.length bytes child

/-- A chain over `bytes`, or the child itself when there is nothing to spell. -/
def wrapPrefix (bytes : List UInt8) (child : Slot) : FrameM Slot :=
  if bytes = [] then pure child else writePrefixChain bytes child

/-- A node of 4 with the given children, sorted by byte. -/
def writeNode4With (children : List (UInt8 × Slot)) : FrameM Slot :=
  newNode (.inner (.node4 (children.foldl (fun es e => insertAsc e.1 e.2 es) [])))

def setPrefixChild (slot newChild : Slot) : FrameM Unit := do
  let F ← get
  let p ← lift (readPrefix F slot)
  writeStructToSlot slot (.pfx { p with child := newChild })

/-- What a reader of the node kind says when the slot has no body; nothing for a kind without
children. -/
def readContext : NodeType → Option String
  | .node4 => some "read_node4: body"
  | .node16 => some "read_node16: body"
  | .node48 => some "read_node48: body"
  | .node256 => some "read_node256: body"
  | _ => none

def readInner (F : Frame) (slot : Slot) (ntype : NodeType) (caller : String) :
    Except Error Inner :=
  match readContext ntype with
  | none => .error (.corrupt (caller ++ ": not an inner node"))
  | some context =>
    match F.bodyOfSlot slot with
    | some (.inner n) => .ok n
    | _ => .error (.corrupt context)

def innerFindChild (F : Frame) (slot : Slot) (ntype : NodeType) (byte : UInt8) :
    Except Error (Option Slot) :=
  (readInner F slot ntype "inner_find_child").map fun n => n.findChild byte

def innerUpdateChild (slot : Slot) (ntype : NodeType) (byte : UInt8) (newChild : Slot) :
    FrameM Unit := do
  let F ← get
  let n ← lift (readInner F slot ntype "inner_update_child")
  let n' ← lift (n.updateChild byte newChild)
  writeStructToSlot slot (.inner n')

/-- Move a full node to the next larger kind. -/
def growInner (slot : Slot) (n : Inner) : FrameM Slot := do
  let grown ← newNode (.inner n.grow)
  freeNode slot
  pure grown

/-- One round per kind is enough: a grown node has room. -/
def innerAddChildN : Nat → Slot → NodeType → UInt8 → Slot → FrameM Slot
  | 0, _, _, _, _ => throw .diverged
  | m + 1, slot, ntype, byte, newChild => do
    let F ← get
    let n ← lift (readInner F slot ntype "inner_add_child")
    if n.full then
      let grown ← growInner slot n
      innerAddChildN m grown n.grow.ntype byte newChild
    else
      let n' ← lift (n.insertChild byte newChild)
      writeStructToSlot slot (.inner n')
      pure slot

def innerAddChild (slot : Slot) (ntype : NodeType) (byte : UInt8) (newChild : Slot) :
    FrameM Slot :=
  innerAddChildN 4 slot ntype byte newChild

/-- A program that writes one body, that of `s`, and is refused only for a broken slot. -/
def Writes (s : Slot) (x : FrameM Unit) : Prop :=
  ∀ F : Frame, Sat x F (fun _ F' => ∃ b, F' = { F with bodies := Function.update F.bodies s b })
    (fun e F' => F' = F ∧ e.IsFault)

theorem writeStructToSlot_writes (s : Slot) (b : Body) : Writes s (writeStructToSlot s b) :=
  fun F => (writeStructToSlot_effect F s b).imp fun _ _ h => ⟨b, h⟩

theorem Writes.lift {α : Type} {s : Slot} {x : Except Error α} {f : α → FrameM Unit}
    (hx : ∀ e, x = .error e → e.IsFault) (hf : ∀ a, Writes s (f a)) :
    Writes s (Lib.lift x >>= f) := by
  intro F
  cases x with
  | ok a => exact hf a F
  | error e => exact .throw ⟨rfl, hx e rfl⟩

theorem setPrefixChild_writes (s c : Slot) : Writes s (setPrefixChild s c) := by
  intro F
  rw [setPrefixChild, sat_bind, sat_get]
  refine Writes.lift (fun e he => ?_) (fun p => writeStructToSlot_writes s _) F
  unfold readPrefix at he
  split at he <;> cases he
  exact ⟨_, Or.inl rfl⟩

theorem innerUpdateChild_writes (s : Slot) (ntype : NodeType) (b : UInt8) (c : Slot) :
    Writes s (innerUpdateChild s ntype b c) := by
  intro F
  rw [innerUpdateChild, sat_bind, sat_get]
  refine Writes.lift (fun e he => ?_)
    (fun n => .lift (fun e he => ?_) fun n' => writeStructToSlot_writes s _) F
  · unfold readInner at he
    split at he
    · cases he
      exact ⟨_, Or.inl rfl⟩
    · split at he <;> cases he
      exact ⟨_, Or.inl rfl⟩
  · cases n <;> simp only [Inner.updateChild] at he
    case node256 => cases he
    all_goals
      split at he <;> cases he
      exact ⟨_, Or.inl rfl⟩

/-! ## Building trees -/

/-- A tree built in `F'` out of the cells `fp₀` and fresh ones, beside the cells `R`. -/
structure Built (F F' : Frame) (R fp₀ : Set Cell) (t : Art) (s : Slot) (fp : Set Cell) : Prop where
  rep : F'.Rep t s fp
  sub : fp₀ ⊆ fp
  disjoint : Disjoint R fp
  alloc : F'.Alloc (R ∪ fp)
  same : F.Same F' (R ∪ fp₀)

/-- A failed allocation: all used cells are as they were. -/
def Refused (F : Frame) (U : Set Cell) (e : Error) (F' : Frame) : Prop :=
  F.Kept F' U ∧ e.IsResource

theorem refused_of_eq {F F' : Frame} {U : Set Cell} {e : Error} (ha : F.Alloc U)
    (h : F' = F ∧ e.IsResource) : Refused F U e F' :=
  ⟨by rw [h.1]; exact Kept.refl ha, h.2⟩

section Built

variable {F F₁ F₂ : Frame} {R fp₀ fp₁ fp₂ : Set Cell} {t t' : Art} {s s' : Slot}

theorem Built.refl (hr : F.Rep t s fp₀) (hd : Disjoint R fp₀) (ha : F.Alloc (R ∪ fp₀)) :
    Built F F R fp₀ t s fp₀ :=
  ⟨hr, subset_rfl, hd, ha, Same.refl ..⟩

theorem Built.trans (h : Built F F₁ R fp₀ t s fp₁) (h' : Built F₁ F₂ R fp₁ t' s' fp₂) :
    Built F F₂ R fp₀ t' s' fp₂ :=
  ⟨h'.rep, h.sub.trans h'.sub, h'.disjoint, h'.alloc,
    h.same.trans (h'.same.mono (Set.union_subset_union_right R h.sub))⟩

theorem Built.refused {e : Error} (h : Built F F₁ R fp₀ t s fp₁)
    (h' : Refused F₁ (R ∪ fp₁) e F₂) : Refused F (R ∪ fp₀) e F₂ := by
  have hs : R ∪ fp₀ ⊆ R ∪ fp₁ := Set.union_subset_union_right R h.sub
  exact ⟨⟨h'.1.alloc.mono hs, h.same.trans (h'.1.same.mono hs)⟩, h'.2⟩

theorem Built.weaken {R' : Set Cell} (h : Built F F₁ R fp₀ t s fp₁) (hr : R' ⊆ R) :
    Built F F₁ R' fp₀ t s fp₁ :=
  ⟨h.rep, h.sub, h.disjoint.mono_left hr, h.alloc.mono (Set.union_subset_union_left _ hr),
    h.same.mono (Set.union_subset_union_left _ hr)⟩

theorem Built.after (h : Built F F₁ R fp₀ t s fp₁) (ha : F₂.Alloc (R ∪ fp₁))
    (hs : F₁.Same F₂ (R ∪ fp₁)) : Built F F₂ R ∅ t s fp₁ := by
  refine ⟨h.rep.same hs Set.subset_union_right, Set.empty_subset _, h.disjoint, ha, ?_⟩
  rw [Set.union_empty]
  exact (h.same.mono Set.subset_union_left).trans (hs.mono Set.subset_union_left)

/-- Give up a cell that the new tree does not use. -/
theorem freeNode_built {R' : Set Cell} {x : Slot} {k : NodeType} (h : Built F F₁ R' fp₀ t s fp₁)
    (hR : R ⊆ R') (hx : .slot x ∈ R') (hxr : .slot x ∉ R) (ht : F₁.Typed x k)
    (err : Error → Frame → Prop) :
    Sat (freeNode x) F₁ (fun _ F₂ => Built F F₂ R ∅ t s fp₁) err := by
  refine (freeNode_sat h.alloc ht (Set.mem_union_left _ hx) err).imp fun _ F₂ h₂ => ?_
  have hsub : R ∪ fp₁ ⊆ (R' ∪ fp₁) \ {.slot x} := by
    rintro c (hc | hc)
    · exact ⟨Set.mem_union_left _ (hR hc), fun he => hxr (he ▸ hc)⟩
    · exact ⟨Set.mem_union_right _ hc, fun he => Set.disjoint_left.mp h.disjoint hx (he ▸ hc)⟩
  exact (h.weaken hR).after (h₂.alloc.mono hsub) (h₂.same.mono hsub)

end Built

variable {bytes : List UInt8} {b₁ b₂ : UInt8} {c₁ c₂ : Slot}

theorem storeLeaf_sat {F : Frame} {U : Set Cell} (ha : F.Alloc U) (context : String) {r : Record}
    {leaf : Nat → Leaf} (hk : r.key.length < 2 ^ 16) (hb : leafBytes r.key r.value <+: bytes)
    (hlen : bytes.length ≤ leafExtentSize r.key.length r.value.length)
    (hl : ∀ offset, leaf offset = ⟨r.value.length, r.tombstone, offset, r.seq⟩) :
    Sat (storeLeaf context (leafExtentSize r.key.length r.value.length) bytes leaf) F
      (fun s F' => ∃ fp, Built F F' U ∅ (.leaf r) s fp) (Refused F U) := by
  unfold storeLeaf
  refine (allocExtent_sat ha (leafExtentSize_pos ..) (leafExtentSize_mod ..)).bind
    (fun off F₁ h₁ => ?_) fun _ _ he => refused_of_eq ha he
  rw [if_neg (not_lt.mpr h₁.fits), sat_bind, sat_modify, hl]
  have hput : F.Same (F₁.putBytes off bytes) U :=
    h₁.same.trans (same_putBytes _ _ _ fun a h h' => h₁.fresh a h (by omega))
  refine (newNode_sat (h₁.alloc.putBytes off _) (by simp [Body.ntype])).mono (fun s F₃ h₃ => ?_)
    fun e F₃ he => ?_
  · have hext : extentCells off (leafExtentSize r.key.length r.value.length) ⊆
        extentCells off (leafExtentSize r.key.length r.value.length) ∪ U := Set.subset_union_left
    refine ⟨insert (.slot s) (extentCells off (leafExtentSize r.key.length r.value.length)),
      ⟨⟨r.value.length, r.tombstone, off, r.seq⟩, h₃.node,
        ⟨rfl, rfl, rfl, hk, h₁.fits, fun i hi => ?_⟩, rfl⟩, Set.empty_subset _, ?_, ?_, ?_⟩
    · have hi' : i < bytes.length := lt_of_lt_of_le hi hb.length_le
      change F₃.data (off + i) = _
      rw [h₃.same.data _ (hext (byte_mem_extentCells.mpr ⟨by omega, by omega⟩)), putBytes_data hi']
      exact (hb.getElem hi).symm
    · rw [Set.disjoint_left]
      rintro c hc (rfl | ⟨a, rfl, h, h'⟩)
      · exact h₃.fresh (Set.mem_union_right _ hc)
      · exact h₁.fresh a h h' hc
    · refine h₃.alloc.mono ?_
      rintro c (hc | hc | hc)
      · exact Set.mem_insert_of_mem _ (Set.mem_union_right _ hc)
      · exact hc ▸ Set.mem_insert ..
      · exact Set.mem_insert_of_mem _ (Set.mem_union_left _ hc)
    · rw [Set.union_empty]
      exact hput.trans (h₃.same.mono Set.subset_union_right)
  · obtain ⟨rfl, he⟩ := he
    exact ⟨⟨(h₁.alloc.putBytes off _).mono Set.subset_union_right, hput⟩, he⟩

theorem writeLeaf_sat {F : Frame} {U : Set Cell} (ha : F.Alloc U) {key : SearchKey}
    {value : List UInt8} (seq : Nat) (hk : key.len < 2 ^ 16) (hv : value.length < 2 ^ 16) :
    Sat (writeLeaf key value seq) F
      (fun s F' => ∃ fp, Built F F' U ∅ (.leaf ⟨key.full, value, seq, false⟩) s fp)
      (Refused F U) := by
  unfold writeLeaf
  rw [← SearchKey.length_full]
  refine storeLeaf_sat (r := ⟨key.full, value, seq, false⟩) ha _ ?_ List.prefix_rfl ?_ fun off => ?_
  · simpa using hk
  · rw [length_leafBytes]
    exact leafExtentSize_ge ..
  · rw [Nat.mod_eq_of_lt hv]
    rfl

/-- Fresh cells `new` whose root `s` leads to whatever tree hangs at slot `c`: they put the
context `ctx` around it. -/
structure Wraps (F F' : Frame) (U : Set Cell) (ctx : Art → Art) (c s : Slot) (new : Set Cell) :
    Prop where
  alloc : F'.Alloc (U ∪ new)
  fresh : Disjoint U new
  same : F.Same F' U
  rep : ∀ {F'' t fp}, F'.Same F'' new → F''.Rep t c fp → Disjoint new fp →
    F''.Rep (ctx t) s (new ∪ fp)

section Wraps

variable {F F₁ F₂ : Frame} {U new new' : Set Cell} {ctx ctx' : Art → Art} {c s s' : Slot}

theorem Wraps.refl (ha : F.Alloc U) (c : Slot) : Wraps F F U (fun t => t) c c ∅ :=
  ⟨by rwa [Set.union_empty], Set.disjoint_empty U, Same.refl .., fun _ hr _ => by
    rwa [Set.empty_union]⟩

theorem Wraps.trans (h : Wraps F F₁ U ctx c s new) (h' : Wraps F₁ F₂ (U ∪ new) ctx' s s' new') :
    Wraps F F₂ U (fun t => ctx' (ctx t)) c s' (new ∪ new') := by
  obtain ⟨hfresh, hnew⟩ := Set.disjoint_union_left.mp h'.fresh
  refine ⟨?_, ?_, h.same.trans (h'.same.mono Set.subset_union_left), fun hs hr hd => ?_⟩
  · rw [← Set.union_assoc]
    exact h'.alloc
  · rw [Set.disjoint_union_right]
    exact ⟨h.fresh, hfresh⟩
  · rw [Set.disjoint_union_left] at hd
    have hs₁ := (h'.same.mono Set.subset_union_right).trans (hs.mono Set.subset_union_left)
    have hr₁ := h.rep hs₁ hr hd.1
    rw [Set.union_comm new, Set.union_assoc]
    refine h'.rep (hs.mono Set.subset_union_right) hr₁ ?_
    rw [Set.disjoint_union_right]
    exact ⟨hnew.symm, hd.2⟩

theorem Wraps.refused {e : Error} (h : Wraps F F₁ U ctx c s new)
    (h' : Refused F₁ (U ∪ new) e F₂) : Refused F U e F₂ :=
  ⟨⟨h'.1.alloc.mono Set.subset_union_left, h.same.trans (h'.1.same.mono Set.subset_union_left)⟩,
    h'.2⟩

/-- What is built around a tree that stays. -/
theorem Wraps.built {R fp : Set Cell} {t : Art} (h : Wraps F F₁ (R ∪ fp) ctx c s new)
    (hr : F.Rep t c fp) (hd : Disjoint R fp) : Built F F₁ R fp (ctx t) s (new ∪ fp) := by
  obtain ⟨hfr, hfp⟩ := Set.disjoint_union_left.mp h.fresh
  refine ⟨h.rep (Same.refl ..) (hr.same h.same Set.subset_union_right) hfp.symm,
    Set.subset_union_right, Set.disjoint_union_right.mpr ⟨hfr, hd⟩, h.alloc.mono ?_, h.same⟩
  rintro c (hc | hc | hc)
  · exact Set.mem_union_left _ (Set.mem_union_left _ hc)
  · exact Set.mem_union_right _ hc
  · exact Set.mem_union_left _ (Set.mem_union_right _ hc)

end Wraps

theorem newPfx_sat {F : Frame} {U : Set Cell} (ha : F.Alloc U) (bytes : List UInt8) (c : Slot) :
    Sat (newNode (.pfx ⟨bytes, c⟩)) F (fun s F' => Wraps F F' U (.pfx bytes) c s {.slot s})
      (Refused F U) := by
  refine (newNode_sat ha (by simp [Body.ntype])).mono (fun s F' h => ?_)
    fun _ _ he => refused_of_eq ha he
  refine ⟨?_, Set.disjoint_singleton_right.mpr h.fresh, h.same, fun {F'' t fp} hs hr hd => ?_⟩
  · rw [Set.union_singleton]
    exact h.alloc
  · rw [Set.singleton_union]
    exact ⟨c, fp, h.node.same hs rfl, hr, Set.disjoint_singleton_left.mp hd, rfl⟩

theorem prefixChainLoop_sat {F : Frame} {U : Set Cell} {n : Nat} {c : Slot} (ha : F.Alloc U) :
    Sat (prefixChainLoop n bytes c) F
      (fun s F' => ∃ new, Wraps F F' U (Art.chainN n bytes) c s new) (Refused F U) := by
  induction n generalizing F U c bytes with
  | zero => exact .pure ⟨∅, Wraps.refl ha c⟩
  | succ n ih =>
    unfold prefixChainLoop
    by_cases hb : bytes = []
    · have hc : Art.chainN (n + 1) bytes = fun t => t := funext fun t => by simp [Art.chainN, hb]
      rw [if_pos hb, hc]
      exact .pure ⟨∅, Wraps.refl ha c⟩
    · have hc : Art.chainN (n + 1) bytes = fun t =>
          Art.chainN n (bytes.take (bytes.length - min bytes.length prefixMaxInline))
            (.pfx (bytes.drop (bytes.length - min bytes.length prefixMaxInline)) t) :=
        funext fun t => by rw [Art.chainN, if_neg hb]
      rw [if_neg hb, hc]
      refine (newPfx_sat ha _ c).andThen fun s F₁ h₁ => ?_
      exact (ih h₁.alloc).mono (fun s' F₂ ⟨new, h₂⟩ => ⟨_, h₁.trans h₂⟩)
        fun _ _ he => h₁.refused he

/-- From `s` a lookup that reads `bytes` off its key goes on at `c`; any other one misses. -/
def Frame.Spells (F : Frame) (s : Slot) (bytes : List UInt8) (c : Slot) : Prop :=
  ∃ nodes, ∀ fuel key depth, descend (fuel + nodes) F s key depth =
    if bytes <+: key.full.drop depth then descend fuel F c key (depth + bytes.length)
    else .ok .notFound

theorem Frame.NodeAt.spells {F : Frame} {s c : Slot} (h : F.NodeAt s (.pfx ⟨bytes, c⟩))
    (hne : bytes ≠ []) (hlen : bytes.length ≤ prefixMaxInline) : F.Spells s bytes c := by
  refine ⟨1, fun fuel key depth => ?_⟩
  have hmatch : key.rangeEq depth bytes = true ↔ bytes <+: key.full.drop depth := by
    rw [SearchKey.rangeEq_iff, and_iff_right_iff_imp]
    intro hp
    have hle := hp.length_le
    have hpos := List.length_pos_iff.mpr hne
    simp only [List.length_drop, SearchKey.length_full] at hle
    omega
  simp only [descend, h.resolveTyped, if_neg (not_lt.mpr hlen), hmatch]

theorem Frame.Spells.trans {F : Frame} {s m c : Slot} {front back : List UInt8}
    (h : F.Spells s front m) (h' : F.Spells m back c) : F.Spells s (front ++ back) c := by
  obtain ⟨n, hn⟩ := h
  obtain ⟨n', hn'⟩ := h'
  refine ⟨n' + n, fun fuel key depth => ?_⟩
  rw [← Nat.add_assoc, hn]
  by_cases hfront : front <+: key.full.drop depth
  · have hback : front ++ back <+: key.full.drop depth ↔
        back <+: key.full.drop (depth + front.length) := by
      obtain ⟨rest, hrest⟩ := hfront
      rw [← List.drop_drop, ← hrest, List.prefix_append_right_inj, List.drop_left]
    simp only [if_pos hfront, hn', hback, List.length_append, Nat.add_assoc]
  · rw [if_neg hfront, if_neg fun hp => hfront ((List.prefix_append ..).trans hp)]

theorem prefixChainLoop_spells {F : Frame} {U : Set Cell} {n : Nat} {c : Slot}
    (ha : F.Alloc U) (hne : bytes ≠ []) (hn : bytes.length ≤ n) :
    Sat (prefixChainLoop n bytes c) F (fun s F' => F'.Spells s bytes c) fun e _ =>
      e.IsResource := by
  induction n generalizing F U c bytes with
  | zero => exact absurd (List.length_eq_zero_iff.mp (Nat.le_zero.mp hn)) hne
  | succ n ih =>
    have hpos := List.length_pos_iff.mpr hne
    have hmax : 0 < prefixMaxInline := by decide
    unfold prefixChainLoop
    rw [if_neg hne]
    dsimp only
    set start := bytes.length - min bytes.length prefixMaxInline with hstart
    have hlast : (bytes.drop start).length ≤ prefixMaxInline := by
      rw [List.length_drop]
      omega
    have hlast_ne : bytes.drop start ≠ [] := by
      rw [Ne, List.drop_eq_nil_iff]
      omega
    refine (newNode_sat ha (by simp [Body.ntype])).bind (fun s F₁ h₁ => ?_) fun _ _ he => he.2
    by_cases hfront : bytes.take start = []
    · have hnil : prefixChainLoop n (bytes.take start) s = pure s := by
        cases n <;> simp [prefixChainLoop, hfront]
      have hall := List.take_append_drop start bytes
      rw [hfront, List.nil_append] at hall
      rw [hnil]
      exact .pure (hall ▸ h₁.node.spells hlast_ne hlast)
    · have hshort : (bytes.take start).length ≤ n := by
        rw [List.length_take]
        omega
      -- the rest of the chain leaves the node just written alone
      refine ((prefixChainLoop_sat h₁.alloc).and (ih h₁.alloc hfront hshort)).mono
        (fun s' F₂ h₂ => ?_) fun _ _ he => he.2
      obtain ⟨⟨new, hw⟩, hs⟩ := h₂
      have hnode := h₁.node.same hw.same (Set.mem_insert ..)
      simpa using hs.trans (hnode.spells hlast_ne hlast)

/-- A search key is its stored bytes to every operation, and a prefix chain is followed by exactly
the keys that go on with its bytes. -/
theorem virtualTerminator_faithful :
    (∀ u : List UInt8,
      (SearchKey.user u).len = (SearchKey.exact (u ++ [0])).len ∧
      (∀ i, (SearchKey.user u).byteAt i = (SearchKey.exact (u ++ [0])).byteAt i) ∧
      (∀ d, (SearchKey.user u).remainingLen d = (SearchKey.exact (u ++ [0])).remainingLen d) ∧
      (∀ s, (SearchKey.user u).eqSlice s = (SearchKey.exact (u ++ [0])).eqSlice s) ∧
      (∀ d s, (SearchKey.user u).rangeEq d s = (SearchKey.exact (u ++ [0])).rangeEq d s) ∧
      (∀ d s, (SearchKey.user u).commonPrefixWithSlice d s =
        (SearchKey.exact (u ++ [0])).commonPrefixWithSlice d s) ∧
      ∀ dst, (SearchKey.user u).writeToSlice dst =
        (SearchKey.exact (u ++ [0])).writeToSlice dst) ∧
    ∀ (F : Frame) (U : Set Cell) (bytes : List UInt8) (child : Slot), F.Alloc U → bytes ≠ [] →
      Sat (writePrefixChain bytes child) F (fun s F' => F'.Spells s bytes child) fun e _ =>
        e.IsResource := by
  refine ⟨fun u => ?_, fun F U bytes child ha hne => ?_⟩
  · have hfull : (SearchKey.user u).full = (SearchKey.exact (u ++ [0])).full := rfl
    have hlen : (SearchKey.user u).len = (SearchKey.exact (u ++ [0])).len := by
      rw [← SearchKey.length_full, hfull, SearchKey.length_full]
    refine ⟨hlen, fun i => ?_, fun d => ?_, fun s => ?_, fun d s => ?_, fun d s => ?_,
      fun dst => ?_⟩
    · simp only [SearchKey.byteAt_eq, hfull]
    · simp only [SearchKey.remainingLen, hlen]
    · rw [Bool.eq_iff_iff, SearchKey.eqSlice_iff, SearchKey.eqSlice_iff, hfull]
    · rw [Bool.eq_iff_iff, SearchKey.rangeEq_iff, SearchKey.rangeEq_iff, hfull, hlen]
    · simp only [SearchKey.commonPrefixWithSlice_eq, hfull]
    · simp only [SearchKey.writeToSlice_eq, hfull, hlen]
  · unfold writePrefixChain
    rw [if_neg hne]
    exact prefixChainLoop_spells ha hne le_rfl

theorem virtualTerminator_faithful_chain :
    Sat (writePrefixChain (List.replicate 300 7) 1) (Frame.blank 0)
      (fun s F' => F'.Spells s (List.replicate 300 7) 1) fun e _ => e.IsResource :=
  virtualTerminator_faithful.2 _ _ _ _ (blank_alloc 0) (List.cons_ne_nil _ _)

theorem wrapPrefix_sat {F : Frame} {U : Set Cell} (ha : F.Alloc U) (bytes : List UInt8)
    (c : Slot) :
    Sat (wrapPrefix bytes c) F (fun s F' => ∃ new, Wraps F F' U (Art.chain bytes) c s new)
      (Refused F U) := by
  unfold wrapPrefix writePrefixChain
  split
  · rename_i hb
    subst hb
    exact .pure ⟨∅, Wraps.refl ha c⟩
  · exact prefixChainLoop_sat ha

theorem node4_findChild (hb : b₁ ≠ b₂) (h₁ : c₁ ≠ 0) (h₂ : c₂ ≠ 0) :
    (Inner.node4 (insertAsc b₂ c₂ [(b₁, c₁)])).Wf ∧
      ∀ b, (Inner.node4 (insertAsc b₂ c₂ [(b₁, c₁)])).findChild b =
        if b = b₂ then some c₂ else if b = b₁ then some c₁ else none := by
  have hasc : Ascending [(b₁, c₁)] := by simp [Ascending]
  have hl : [(b₁, c₁)].lookup b₂ = none := by
    rw [lookup_cons_ite, if_neg hb.symm, List.lookup_nil]
  have hw : (Inner.node4 (insertAsc b₂ c₂ [(b₁, c₁)])).Wf := by
    refine ⟨by simp [insertAsc_length], hasc.insertAsc c₂ hl, fun e he => ?_⟩
    rcases mem_insertAsc.mp he with rfl | he
    · exact h₂
    · exact List.mem_singleton.mp he ▸ h₁
  refine ⟨hw, fun b => ?_⟩
  rw [Inner.findChild_node4 hw, lookup_insertAsc c₂ hl, lookup_cons_ite, List.lookup_nil]

/-- A node of 4 over two trees with cells of their own. -/
theorem rep_branch {F : Frame} {s : Slot} {t₁ t₂ : Art} {fp₁ fp₂ : Set Cell} (hb : b₁ ≠ b₂)
    (hn : F.NodeAt s (.inner (.node4 (insertAsc b₂ c₂ [(b₁, c₁)])))) (h₁ : F.Rep t₁ c₁ fp₁)
    (h₂ : F.Rep t₂ c₂ fp₂) (hd : Disjoint fp₂ fp₁) (hs₁ : .slot s ∉ fp₁) (hs₂ : .slot s ∉ fp₂) :
    F.Rep (Art.branch b₁ t₁ b₂ t₂) s (insert (.slot s) (fp₂ ∪ fp₁)) := by
  obtain ⟨hw, hfind⟩ := node4_findChild hb h₁.ne_zero h₂.ne_zero
  have hfps : ⋃ b, (if b = b₂ then fp₂ else if b = b₁ then fp₁ else ∅) = fp₂ ∪ fp₁ := by
    ext x
    simp only [Set.mem_iUnion, Set.mem_union]
    constructor
    · rintro ⟨b, hx⟩
      split_ifs at hx
      · exact Or.inl hx
      · exact Or.inr hx
      · exact hx.elim
    · rintro (hx | hx)
      · exact ⟨b₂, by simpa using hx⟩
      · exact ⟨b₁, by simpa [hb] using hx⟩
  rw [← hfps]
  refine rep_inner_iff.mpr ⟨_, fun b => if b = b₂ then fp₂ else if b = b₁ then fp₁ else ∅, hn,
    ⟨hw, fun b => ?_, fun b c hc => ?_, fun b hh => ?_, fun b b' hne => ?_⟩, ?_, rfl⟩
  · rw [hfind]
    by_cases h2 : b = b₂
    · simp [h2]
    · by_cases h1 : b = b₁ <;> simp [h1, h2, hb]
  · rw [hfind] at hc
    split_ifs at hc with h2 h1
    · cases hc
      simpa [h2, hb.symm] using h₂
    · cases hc
      simpa [h1, hb] using h₁
  · simp only [decide_eq_false_iff_not, not_or] at hh
    simp [hh.1, hh.2]
  · by_cases h2 : b = b₂
    · rw [if_pos h2, if_neg fun h => hne (h2.trans h.symm)]
      split_ifs
      · exact hd
      · exact Set.disjoint_empty _
    · by_cases h1 : b = b₁
      · rw [if_neg h2, if_pos h1]
        split_ifs with h2' h1'
        · exact hd.symm
        · exact absurd (h1.trans h1'.symm) hne
        · exact Set.disjoint_empty _
      · rw [if_neg h2, if_neg h1]
        exact Set.empty_disjoint _
  · rw [hfps]
    rintro (hx | hx)
    · exact hs₂ hx
    · exact hs₁ hx

/-- A branch between whatever hangs at `c₁` and a new leaf. -/
theorem writeNode4With_sat {F F₀ : Frame} {U fpl : Set Cell} {r : Record}
    (hl : Built F₀ F U ∅ (.leaf r) c₂ fpl) (hb : b₁ ≠ b₂) :
    Sat (writeNode4With [(b₁, c₁), (b₂, c₂)]) F
      (fun s F' => ∃ new, Wraps F₀ F' U (fun t => Art.branch b₁ t b₂ (.leaf r)) c₁ s new)
      (Refused F₀ U) := by
  have hsame₀ : F₀.Same F U := hl.same.mono Set.subset_union_left
  rw [show writeNode4With [(b₁, c₁), (b₂, c₂)] =
    newNode (.inner (.node4 (insertAsc b₂ c₂ [(b₁, c₁)]))) from rfl]
  refine (newNode_sat hl.alloc (by simp [Body.ntype])).mono (fun s F' h => ?_) fun e F' he => ?_
  · have hu : U ∪ insert (.slot s) fpl = insert (.slot s) (U ∪ fpl) := Set.union_insert ..
    refine ⟨insert (.slot s) fpl, hu ▸ h.alloc, ?_,
      hsame₀.trans (h.same.mono Set.subset_union_left), fun {F'' t fp} hs hr hd => ?_⟩
    · rw [Set.disjoint_insert_right]
      exact ⟨fun hm => h.fresh (Set.mem_union_left _ hm), hl.disjoint⟩
    · rw [Set.disjoint_insert_left] at hd
      have hleaf : F''.Rep (.leaf r) c₂ fpl :=
        (hl.rep.same h.same Set.subset_union_right).same (hs.mono (Set.subset_insert ..)) subset_rfl
      have hsl : .slot s ∉ fpl := fun hm => h.fresh (Set.mem_union_right _ hm)
      rw [Set.insert_union]
      exact rep_branch hb (h.node.same hs (Set.mem_insert ..)) hr hleaf hd.2 hd.1 hsl
  · obtain ⟨rfl, he⟩ := he
    exact ⟨⟨hl.alloc.mono Set.subset_union_left, hsame₀⟩, he⟩

/-! ## Rewriting nodes in place -/

theorem setPrefixChild_sat {F : Frame} {R fp : Set Cell} {s c c' : Slot} {t : Art}
    (hn : F.NodeAt s (.pfx ⟨bytes, c⟩)) (hr : F.Rep t c' fp) (hs : .slot s ∉ R)
    (hd : Disjoint (insert (.slot s) R) fp) (ha : F.Alloc (insert (.slot s) R ∪ fp))
    (err : Error → Frame → Prop) :
    Sat (setPrefixChild s c') F
      (fun _ F' => Built F F' R ∅ (.pfx bytes t) s (insert (.slot s) fp)) err := by
  have hsfp : .slot s ∉ fp := Set.disjoint_left.mp hd (Set.mem_insert ..)
  simp only [setPrefixChild, sat_bind, sat_get, readPrefix, hn.bodyOfSlot, lift_ok, sat_pure]
  refine (writeStructToSlot_sat (b := .pfx ⟨bytes, c'⟩) hn.1 err).imp fun _ F' hF => ?_
  subst hF
  refine ⟨⟨c', fp, nodeAt_write hn.1, hr.same (same_write F s _ hsfp) subset_rfl, hsfp, rfl⟩,
    Set.empty_subset _, ?_, (ha.mono ?_).write s _, ?_⟩
  · rw [Set.disjoint_insert_right]
    exact ⟨hs, hd.mono_left (Set.subset_insert ..)⟩
  · rw [Set.union_insert, Set.insert_union]
  · rw [Set.union_empty]
    exact same_write F s _ hs

theorem readInner_eq {F : Frame} {s : Slot} {n : Inner} (hn : F.NodeAt s (.inner n))
    (caller : String) : readInner F s n.ntype caller = .ok n := by
  unfold readInner
  cases n <;> simp [readContext, Inner.ntype, hn.bodyOfSlot]

theorem writeInner_sat {F : Frame} {R : Set Cell} {s : Slot} {n n' : Inner}
    {has : UInt8 → Bool} {child : UInt8 → Art} {fps : UInt8 → Set Cell}
    (hn : F.NodeAt s (.inner n)) (htype : n'.ntype = n.ntype) (hk : F.Kids n' has child fps)
    (hs : .slot s ∉ R ∪ ⋃ b, fps b) (hd : Disjoint R (⋃ b, fps b))
    (ha : F.Alloc (insert (.slot s) (R ∪ ⋃ b, fps b))) (err : Error → Frame → Prop) :
    Sat (writeStructToSlot s (.inner n')) F
      (fun _ F' => Built F F' R (⋃ b, fps b) (.inner has child) s (insert (.slot s) (⋃ b, fps b)))
      err := by
  have ht : F.Typed s (Body.inner n').ntype := by
    simpa only [Body.ntype, htype] using hn.1
  refine (writeStructToSlot_sat ht err).imp fun _ F' hF => ?_
  subst hF
  have hsame := same_write F s (.inner n') hs
  rw [Set.mem_union, not_or] at hs
  refine ⟨rep_inner_iff.mpr ⟨n', fps, nodeAt_write ht, hk.same hsame Set.subset_union_right, hs.2,
    rfl⟩, Set.subset_insert .., ?_, (ha.mono ?_).write s _, hsame⟩
  · rw [Set.disjoint_insert_right]
    exact ⟨hs.1, hd⟩
  · rw [Set.union_insert]

/-- A new inner node over children that are in place. -/
theorem newInner_sat {F : Frame} {R : Set Cell} {n : Inner} {has : UInt8 → Bool}
    {child : UInt8 → Art} {fps : UInt8 → Set Cell} (hk : F.Kids n has child fps)
    (hd : Disjoint R (⋃ b, fps b)) (ha : F.Alloc (R ∪ ⋃ b, fps b)) :
    Sat (newNode (.inner n)) F
      (fun s F' => ∃ fp, Built F F' R (⋃ b, fps b) (.inner has child) s fp)
      (Refused F (R ∪ ⋃ b, fps b)) := by
  refine (newNode_sat ha (by simp [Body.ntype])).mono (fun s F' h => ?_)
    fun _ _ he => refused_of_eq ha he
  have hfresh := h.fresh
  rw [Set.mem_union, not_or] at hfresh
  refine ⟨insert (.slot s) (⋃ b, fps b), rep_inner_iff.mpr ⟨n, fps, h.node,
    hk.same h.same Set.subset_union_right, hfresh.2, rfl⟩, Set.subset_insert .., ?_, ?_, h.same⟩
  · rw [Set.disjoint_insert_right]
    exact ⟨hfresh.1, hd⟩
  · rw [Set.union_insert]
    exact h.alloc

/-- Point the child at byte `b` to `c'`, where a tree has been built beside the other
children. -/
theorem innerUpdateChild_sat {F : Frame} {R fpb : Set Cell} {s old c' : Slot} {n : Inner}
    {has : UInt8 → Bool} {child : UInt8 → Art} {fps : UInt8 → Set Cell} {b : UInt8} {t : Art}
    (hn : F.NodeAt s (.inner n)) (hf : n.findChild b = some old) (hr : F.Rep t c' fpb)
    (hk : ∀ n', n.Updated n' b c' → F.Kids n' has child fps) (hw : n.Wf)
    (hs : .slot s ∉ R ∪ ⋃ b, fps b) (hd : Disjoint R (⋃ b, fps b))
    (ha : F.Alloc (insert (.slot s) (R ∪ ⋃ b, fps b))) (err : Error → Frame → Prop) :
    Sat (innerUpdateChild s n.ntype b c') F
      (fun _ F' => Built F F' R (⋃ b, fps b) (.inner has child) s (insert (.slot s) (⋃ b, fps b)))
      err := by
  obtain ⟨n', hup, htype, hupd⟩ := Inner.updateChild_spec hw hr.ne_zero hf
  simp only [innerUpdateChild, sat_bind, sat_get, readInner_eq hn, lift_ok, sat_pure, hup]
  exact writeInner_sat hn htype (hk n' hupd) hs hd ha err

section AddChild

variable {F : Frame} {R fpc : Set Cell} {s c : Slot} {n : Inner} {has : UInt8 → Bool}
  {child : UInt8 → Art} {fps : UInt8 → Set Cell} {b : UInt8} {t : Art}

theorem others_eq_iUnion (hk : F.Kids n has child fps) (hb : has b = false) :
    others fps b = ⋃ b, fps b := by
  rw [iUnion_eq_others fps b, hk.empty b hb, Set.empty_union]

/-- A node with room takes the new child in place. -/
theorem innerAddChildN_room (m : Nat) (hn : F.NodeAt s (.inner n)) (hfull : n.full = false)
    (hk : F.Kids n has child fps) (hr : F.Rep t c fpc) (hb : has b = false)
    (hdc : Disjoint (⋃ b, fps b) fpc) (hs : .slot s ∉ R ∪ (fpc ∪ ⋃ b, fps b))
    (hd : Disjoint R (fpc ∪ ⋃ b, fps b))
    (ha : F.Alloc (insert (.slot s) (R ∪ (fpc ∪ ⋃ b, fps b)))) (err : Error → Frame → Prop) :
    Sat (innerAddChildN (m + 1) s n.ntype b c) F
      (fun s' F' => ∃ fp, Built F F' R (fpc ∪ ⋃ b, fps b)
        (.inner (Function.update has b true) (Function.update child b t)) s' fp) err := by
  obtain ⟨n', hins, htype, hupd⟩ :=
    Inner.insertChild_spec hk.wf hfull hr.ne_zero (hk.findChild_none hb)
  have ho := others_eq_iUnion hk hb
  have hk' := hk.replace (Same.refl F _) subset_rfl hupd hr (ho ▸ hdc)
  have hu := iUnion_update fps b fpc
  rw [ho] at hu
  simp only [innerAddChildN, sat_bind, sat_get, readInner_eq hn, lift_ok, sat_pure, hfull,
    Bool.false_eq_true, if_false, hins]
  rw [← hu] at hs hd ha ⊢
  exact (writeInner_sat hn htype hk' hs hd ha err).imp fun _ F' h => ⟨_, h⟩

theorem growInner_sat (hn : F.NodeAt s (.inner n)) (hfull : n.full = true)
    (hk : F.Kids n has child fps) (hs : .slot s ∉ R ∪ ⋃ b, fps b)
    (ha : F.Alloc (insert (.slot s) (R ∪ ⋃ b, fps b))) :
    Sat (growInner s n) F
      (fun s' F' => F'.NodeAt s' (.inner n.grow) ∧ F'.Kids n.grow has child fps ∧
        .slot s' ∉ R ∪ (⋃ b, fps b) ∧ F'.Alloc (insert (.slot s') (R ∪ ⋃ b, fps b)) ∧
        F.Same F' (R ∪ ⋃ b, fps b))
      (Refused F (insert (.slot s) (R ∪ ⋃ b, fps b))) := by
  obtain ⟨hw, -, hfind⟩ := Inner.grow_spec hk.wf hfull
  unfold growInner
  refine (newNode_sat ha (b := .inner n.grow) (by simp [Body.ntype])).bind (fun s' F₁ h₁ => ?_)
    fun _ _ he => refused_of_eq ha he
  have hne : s' ≠ s := by
    rintro rfl
    exact h₁.fresh (Set.mem_insert ..)
  have hfresh : .slot s' ∉ R ∪ ⋃ b, fps b := fun h => h₁.fresh (Set.mem_insert_of_mem _ h)
  have hsub : insert (Cell.slot s') (R ∪ ⋃ b, fps b) ⊆
      insert (.slot s') (insert (.slot s) (R ∪ ⋃ b, fps b)) \ {.slot s} := by
    rintro x (rfl | hx)
    · exact ⟨Set.mem_insert .., fun he => hne (Cell.slot.inj he)⟩
    · exact ⟨Set.mem_insert_of_mem _ (Set.mem_insert_of_mem _ hx), fun he => hs (he ▸ hx)⟩
  refine (freeNode_sat h₁.alloc ((hn.same h₁.same (Set.mem_insert ..)).1)
    (Set.mem_insert_of_mem _ (Set.mem_insert ..)) fun _ _ => False).bind (fun _ F₂ h₂ => ?_)
    fun _ _ he => he.elim
  have h₂ := h₂.mono hsub
  have hsame : F.Same F₂ (R ∪ ⋃ b, fps b) :=
    (h₁.same.mono (Set.subset_insert ..)).trans (h₂.same.mono (Set.subset_insert ..))
  rw [sat_pure]
  exact ⟨h₁.node.same h₂.same (Set.mem_insert ..),
    (hk.same hsame Set.subset_union_right).of_findChild_eq hw hfind, hfresh, h₂.alloc, hsame⟩

theorem innerAddChild_sat {fp : Set Cell} (hrep : F.Rep (.inner has child) s fp)
    (hn : F.NodeAt s (.inner n)) (hr : F.Rep t c fpc) (hb : has b = false)
    (hdc : Disjoint fp fpc) (hd : Disjoint R (fpc ∪ fp)) (ha : F.Alloc (R ∪ (fpc ∪ fp))) :
    Sat (innerAddChild s n.ntype b c) F
      (fun s' F' => ∃ fp', Built F F' R ∅
        (.inner (Function.update has b true) (Function.update child b t)) s' fp')
      (Refused F (R ∪ (fpc ∪ fp))) := by
  obtain ⟨n₀, fps, hn₀, hk, hsk, rfl⟩ := rep_inner_iff.mp hrep
  obtain rfl : n₀ = n := by
    have := hn₀.bodyOfSlot.symm.trans hn.bodyOfSlot
    cases this
    rfl
  have hins : R ∪ (fpc ∪ insert (.slot s) (⋃ b, fps b)) =
      insert (.slot s) (R ∪ (fpc ∪ ⋃ b, fps b)) := by
    rw [Set.union_insert, Set.union_insert]
  rw [hins] at ha ⊢
  rw [Set.disjoint_insert_left] at hdc
  have hs : .slot s ∉ R ∪ (fpc ∪ ⋃ b, fps b) := by
    have hsr : .slot s ∉ R := fun h =>
      Set.disjoint_left.mp hd h (Set.mem_union_right _ (Set.mem_insert ..))
    rintro (h | h | h)
    · exact hsr h
    · exact hdc.1 h
    · exact hsk h
  have hd' : Disjoint R (fpc ∪ ⋃ b, fps b) :=
    hd.mono_right (Set.union_subset_union_right _ (Set.subset_insert ..))
  unfold innerAddChild
  by_cases hfull : n₀.full = true
  · -- grow first: the larger node has room
    have hassoc : R ∪ (fpc ∪ ⋃ b, fps b) = (R ∪ fpc) ∪ ⋃ b, fps b := (Set.union_assoc ..).symm
    rw [innerAddChildN]
    simp only [sat_bind, sat_get, readInner_eq hn, lift_ok, sat_pure, hfull, if_true]
    rw [hassoc] at hs ha ⊢
    refine (growInner_sat hn hfull hk hs ha).imp fun s' F₁ h₁ => ?_
    obtain ⟨hn₁, hk₁, hs₁, ha₁, hsame₁⟩ := h₁
    rw [← hassoc] at hs₁ ha₁ hsame₁
    have hr₁ := hr.same hsame₁ (Set.subset_union_left.trans Set.subset_union_right)
    refine (innerAddChildN_room 2 hn₁ (Inner.grow_spec hk.wf hfull).2.1 hk₁ hr₁ hb hdc.2 hs₁ hd'
      ha₁ fun _ _ => False).mono (fun s₂ F₂ h₂ => ?_) fun _ _ he => he.elim
    obtain ⟨fp', h₂⟩ := h₂
    refine ⟨fp', h₂.rep, Set.empty_subset _, h₂.disjoint, h₂.alloc, ?_⟩
    exact (hsame₁.trans h₂.same).mono (Set.union_subset_union_right _ (Set.empty_subset _))
  · rw [Bool.not_eq_true] at hfull
    refine (innerAddChildN_room 3 hn hfull hk hr hb hdc.2 hs hd' ha fun _ _ => False).mono
      (fun s₂ F₂ h₂ => ?_) fun _ _ he => he.elim
    obtain ⟨fp', h₂⟩ := h₂
    refine ⟨fp', h₂.rep, Set.empty_subset _, h₂.disjoint, h₂.alloc, ?_⟩
    exact h₂.same.mono (Set.union_subset_union_right _ (Set.empty_subset _))

end AddChild

/-! ## A changed tree below a node that stays -/

section Above

variable {F F' : Frame} {R fp' : Set Cell} {s c c' : Slot} {t : Art}

theorem Built.pfx_above {bytes : List UInt8}
    (hb : Built F F' (insert (.slot s) R) ∅ t c fp') (hn : F.NodeAt s (.pfx ⟨bytes, c⟩))
    (hs : .slot s ∉ R) : Built F F' R ∅ (.pfx bytes t) s (insert (.slot s) fp') := by
  have hn' := hn.same hb.same (Set.mem_union_left _ (Set.mem_insert ..))
  have hsfp : .slot s ∉ fp' := Set.disjoint_left.mp hb.disjoint (Set.mem_insert ..)
  refine ⟨⟨c, fp', hn', hb.rep, hsfp, rfl⟩, Set.empty_subset _, ?_, ?_, ?_⟩
  · rw [Set.disjoint_insert_right]
    exact ⟨hs, hb.disjoint.mono_left (Set.subset_insert ..)⟩
  · rw [Set.union_insert, ← Set.insert_union]
    exact hb.alloc
  · exact hb.same.mono (Set.union_subset_union_left _ (Set.subset_insert ..))

variable {n : Inner} {has : UInt8 → Bool} {child : UInt8 → Art} {fps : UInt8 → Set Cell}
  {b : UInt8} (hb : Built F F' (insert (.slot s) (R ∪ others fps b)) ∅ t c' fp')
  (hn : F.NodeAt s (.inner n)) (hk : F.Kids n has child fps) (hf : n.findChild b = some c)
  (hs : .slot s ∉ R) (hso : .slot s ∉ others fps b) (hd : Disjoint R (others fps b))

include hb hk hf hs hso hd

/-- The children after the one at `b` was rebuilt: the others did not move. -/
theorem Built.kids_above :
    (∀ n', n.Updated n' b c' → F'.Kids n' has (Function.update child b t)
      (Function.update fps b fp')) ∧
    (.slot s ∉ R ∪ ⋃ b', Function.update fps b fp' b') ∧
    Disjoint R (⋃ b', Function.update fps b fp' b') ∧
    F'.Alloc (insert (.slot s) (R ∪ ⋃ b', Function.update fps b fp' b')) ∧ F.Same F' R := by
  have hsame := hb.same
  rw [Set.union_empty] at hsame
  have hhas : Function.update has b true = has := by
    rw [Function.update_eq_self_iff, ← hk.has_eq, hf, Option.isSome_some]
  obtain ⟨hsfp, hRfp⟩ := Set.disjoint_insert_left.mp hb.disjoint
  obtain ⟨hRfp, hofp⟩ := Set.disjoint_union_left.mp hRfp
  have hu := iUnion_update fps b fp'
  refine ⟨fun n' hupd => ?_, ?_, ?_, hb.alloc.mono ?_,
    hsame.mono (Set.subset_union_left.trans (Set.subset_insert ..))⟩
  · have := hk.replace hsame (Set.subset_union_right.trans (Set.subset_insert ..)) hupd hb.rep hofp
    rwa [hhas] at this
  · rw [hu]
    rintro (h | h | h)
    · exact hs h
    · exact hsfp h
    · exact hso h
  · rw [hu, Set.disjoint_union_right]
    exact ⟨hRfp, hd⟩
  · rw [hu, Set.insert_union, Set.union_comm fp', ← Set.union_assoc]

include hn in
theorem Built.inner_above (hc : c' = c) :
    Built F F' R ∅ (.inner has (Function.update child b t)) s
      (insert (.slot s) (⋃ b', Function.update fps b fp' b')) := by
  subst hc
  have hn' := hn.same hb.same (Set.mem_union_left _ (Set.mem_insert ..))
  obtain ⟨hkids, hsu, hdu, hau, hR⟩ := hb.kids_above hk hf hs hso hd
  have hself : n.Updated n b c' := ⟨hk.wf, fun b' => by
    split
    · rename_i h
      rw [h, hf]
    · rfl⟩
  rw [Set.mem_union, not_or] at hsu
  refine ⟨rep_inner_iff.mpr ⟨n, _, hn', hkids n hself, hsu.2, rfl⟩, Set.empty_subset _, ?_, ?_, ?_⟩
  · rw [Set.disjoint_insert_right]
    exact ⟨hs, hdu⟩
  · rw [Set.union_insert]
    exact hau
  · rw [Set.union_empty]
    exact hR

end Above

end Holt
