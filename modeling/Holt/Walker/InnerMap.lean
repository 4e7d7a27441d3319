import Holt.Walker.RangeOrder
import Holt.Walker.Shortage
import Holt.Lib.Machine

/-! One inner node as a map from byte to child: children are added and replaced one call after
the other, and the node is followed through its growth. -/

namespace Holt

open Holt.Lib Holt.Frame

/-- The slot is in use and holds the well-formed node `n`. -/
structure Frame.InnerAt (F : Frame) (s : Slot) (n : Inner) : Prop where
  node : F.NodeAt s (.inner n)
  wf : n.Wf
  alloc : F.Alloc {.slot s}

section Calls

variable {F : Frame} {s c : Slot} {n : Inner} {b : UInt8}

/-- A body of the same kind over the old one. -/
theorem writeChild_inner {n' : Inner} (h : F.InnerAt s n) (htype : n'.ntype = n.ntype)
    (hw : n'.Wf) :
    Sat (writeStructToSlot s (.inner n')) F (fun _ F' => F'.InnerAt s n') (fun _ _ => False) := by
  have htyped : F.Typed s (Body.inner n').ntype := by
    rw [show (Body.inner n').ntype = n'.ntype from rfl, htype]
    exact h.node.1
  refine (writeStructToSlot_sat htyped fun _ _ => False).mono ?_ fun _ _ he => he
  rintro _ F' rfl
  exact ⟨nodeAt_write htyped, hw, h.alloc.write s _⟩

theorem innerUpdateChild_inner {old : Slot} (h : F.InnerAt s n) (hf : n.findChild b = some old)
    (hc : c ≠ 0) :
    Sat (innerUpdateChild s n.ntype b c) F (fun _ F' => ∃ n', F'.InnerAt s n' ∧ n.Updated n' b c)
      (fun _ _ => False) := by
  obtain ⟨n', hup, htype, hupd⟩ := Inner.updateChild_spec h.wf hc hf
  simp only [innerUpdateChild, sat_bind, sat_get, readInner_eq h.node, lift_ok, sat_pure, hup]
  apply (writeChild_inner h htype hupd.1).mono
  · intro _ F' h'
    exact ⟨n', h', hupd⟩
  · exact fun _ _ he => he

/-- A byte that is not there is refused, except by a node of 256, which takes it. -/
theorem innerUpdateChild_absent (h : F.InnerAt s n) (hf : n.findChild b = none) (hc : c ≠ 0) :
    Sat (innerUpdateChild s n.ntype b c) F (fun _ F' => ∃ n', F'.InnerAt s n' ∧ n.Updated n' b c)
      (fun _ F' => F' = F) := by
  simp only [innerUpdateChild, sat_bind, sat_get, readInner_eq h.node, lift_ok, sat_pure]
  cases n with
  | node4 es =>
    rw [Inner.findChild_node4 h.wf] at hf
    simp only [Inner.updateChild, setValue_eq_none.mpr hf]
    exact .throw rfl
  | node16 es =>
    simp only [Inner.updateChild, setValue_eq_none.mpr hf]
    exact .throw rfl
  | node48 n =>
    have hb : n.index b = 0 := by
      by_contra h0
      simp [Inner.findChild, h0] at hf
    simp only [Inner.updateChild, hb, if_true]
    exact .throw rfl
  | node256 n =>
    simp only [Inner.updateChild, lift_ok, sat_pure]
    have hwrite : Sat (writeStructToSlot s
        (.inner (.node256 { n with children := Function.update n.children b c }))) F
        (fun _ F' => F'.InnerAt s (.node256 { n with children := Function.update n.children b c }))
        (fun _ _ => False) := writeChild_inner h rfl trivial
    apply hwrite.mono
    · intro _ F' h'
      refine ⟨_, h', trivial, fun b' => ?_⟩
      by_cases he : b' = b
      · subst he
        simp [Inner.findChild, hc]
      · simp [Inner.findChild, he]
    · exact fun _ _ he => he.elim

theorem innerAddChildN_fits (m : Nat) (h : F.InnerAt s n) (hfull : n.full = false)
    (hf : n.findChild b = none) (hc : c ≠ 0) :
    Sat (innerAddChildN (m + 1) s n.ntype b c) F
      (fun s' F' => ∃ n', F'.InnerAt s' n' ∧ n.Updated n' b c) (fun _ _ => False) := by
  obtain ⟨n', hins, htype, hupd⟩ := Inner.insertChild_spec h.wf hfull hc hf
  simp only [innerAddChildN, sat_bind, sat_get, readInner_eq h.node, lift_ok, sat_pure, hfull,
    Bool.false_eq_true, if_false, hins]
  apply (writeChild_inner h htype hupd.1).mono
  · intro _ F' h'
    exact ⟨n', h', hupd⟩
  · exact fun _ _ he => he

/-- The node moves to a new slot of the next larger kind. -/
theorem growInner_inner (h : F.InnerAt s n) (hfull : n.full = true) :
    Sat (growInner s n) F (fun s' F' => F'.InnerAt s' n.grow)
      (fun e F' => F' = F ∧ e.IsResource) := by
  obtain ⟨hw, -, -⟩ := Inner.grow_spec h.wf hfull
  unfold growInner
  refine (newNode_sat h.alloc (b := .inner n.grow) (by simp [Body.ntype])).andThen
    fun s' F₁ h₁ => ?_
  have hne : s' ≠ s := fun he => h₁.fresh (he ▸ rfl)
  have htyped : F₁.Typed s n.ntype := (h.node.same h₁.same rfl).1
  refine (freeNode_sat h₁.alloc htyped (Set.mem_insert_of_mem _ rfl) fun _ _ => False).bind
    (fun _ F₂ h₂ => ?_) fun _ _ he => he.elim
  have hmem : Cell.slot s' ∈ (insert (.slot s') {.slot s} \ {.slot s} : Set Cell) :=
    ⟨Set.mem_insert .., fun he => hne (Cell.slot.inj he)⟩
  exact .pure ⟨h₁.node.same h₂.same hmem, hw,
    h₂.alloc.mono (Set.singleton_subset_iff.mpr hmem)⟩

/-- Only a node that has to grow can be refused, and only for lack of room. -/
theorem innerAddChild_inner (h : F.InnerAt s n) (hf : n.findChild b = none) (hc : c ≠ 0) :
    Sat (innerAddChild s n.ntype b c) F
      (fun s' F' => ∃ n', F'.InnerAt s' n' ∧ n.Updated n' b c)
      (fun e F' => F' = F ∧ e.IsResource) := by
  by_cases hfull : n.full = true
  · obtain ⟨-, hnot, hfind⟩ := Inner.grow_spec h.wf hfull
    have hgrow := growInner_inner h hfull
    unfold innerAddChild
    rw [innerAddChildN]
    simp only [sat_bind, sat_get, readInner_eq h.node, lift_ok, sat_pure, hfull, if_true]
    refine hgrow.imp fun s' F₁ h₁ => ?_
    apply (innerAddChildN_fits 2 h₁ hnot ((hfind b).trans hf) hc).mono
    · rintro s'' F₂ ⟨n', h', hw, hget⟩
      refine ⟨n', h', hw, fun b' => ?_⟩
      rw [hget, hfind]
    · exact fun _ _ he => he.elim
  · apply (innerAddChildN_fits 3 h (Bool.not_eq_true _ ▸ hfull) hf hc).mono
    · exact fun _ _ h => h
    · exact fun _ _ he => he.elim

end Calls

/-- A frame, the slot the node is at, and the child last stored under each byte. -/
structure Branching where
  frame : Frame
  slot : Slot
  stored : UInt8 → Option Slot

namespace Branching

inductive Call
  | addChild (byte : UInt8) (child : Slot)
  | updateChild (byte : UInt8) (child : Slot)
  deriving DecidableEq, Repr

def Call.byte : Call → UInt8
  | .addChild byte _ => byte
  | .updateChild byte _ => byte

def Call.child : Call → Slot
  | .addChild _ child => child
  | .updateChild _ child => child

/-- The node's kind is read off its slot before each call; the answer is the slot to follow. -/
def perform (slot : Slot) (c : Call) : FrameM Slot := do
  let F ← get
  let ntype ← lift (F.ntypeOf slot)
  match c with
  | .addChild byte child => innerAddChild slot ntype byte child
  | .updateChild byte child => do
    innerUpdateChild slot ntype byte child
    pure slot

/-- A refused call stores nothing. -/
def step (B : Branching) (c : Call) : Option Branching :=
  match perform B.slot c B.frame with
  | .ok slot F => some ⟨F, slot, Function.update B.stored c.byte (some c.child)⟩
  | .error _ F => some { B with frame := F }

/-- Children are slots, and a byte is added once. -/
def Distinct (B : Branching) (c : Call) : Prop :=
  (c.child ≠ 0 ∧ c.child ≤ maxSlots) ∧
    match c with
    | .addChild byte _ => B.stored byte = none
    | .updateChild .. => True

instance (B : Branching) (c : Call) : Decidable (B.Distinct c) := by
  unfold Distinct
  cases c <;> infer_instance

/-- The node holds what was stored. -/
def Holds (B : Branching) (n : Inner) : Prop :=
  B.frame.InnerAt B.slot n ∧ ∀ b, n.findChild b = B.stored b

/-- A call is refused when it replaces a child that is not there, or when there is no room for
the node to grow; then nothing is changed. -/
def Refuses (B : Branching) (c : Call) (e : Error) : Prop :=
  e.IsResource ∨ ∃ byte child, c = .updateChild byte child ∧ B.stored byte = none

theorem Holds.perform {B : Branching} {n : Inner} (h : B.Holds n) {c : Call}
    (hc : B.Distinct c) :
    Sat (perform B.slot c) B.frame
      (fun s' F' => ∃ n', F'.InnerAt s' n' ∧ n.Updated n' c.byte c.child)
      (fun e F' => F' = B.frame ∧ B.Refuses c e) := by
  obtain ⟨hat, hfind⟩ := h
  simp only [Branching.perform, sat_bind, sat_get, hat.node.ntypeOf, lift_ok, sat_pure]
  cases c with
  | addChild byte child =>
    apply (innerAddChild_inner hat ((hfind byte).trans hc.2) hc.1.1).mono
    · exact fun _ _ h => h
    · exact fun _ _ he => ⟨he.1, Or.inl he.2⟩
  | updateChild byte child =>
    cases hb : B.stored byte with
    | some old =>
      refine (innerUpdateChild_inner hat ((hfind byte).trans hb) hc.1.1).bind
        (fun _ F' h => ?_) fun _ _ he => he.elim
      exact .pure h
    | none =>
      refine (innerUpdateChild_absent hat ((hfind byte).trans hb) hc.1.1).bind
        (fun _ F' h => ?_) fun _ F' he => ⟨he, Or.inr ⟨byte, child, rfl, hb⟩⟩
      exact .pure h

theorem Holds.step {B B' : Branching} {n : Inner} (h : B.Holds n) {c : Call}
    (hc : B.Distinct c) (hstep : B.step c = some B') : ∃ n', B'.Holds n' := by
  have hsat := h.perform hc
  unfold Branching.step at hstep
  split at hstep
  · rename_i s' F' hr
    cases hstep
    obtain ⟨n', hat, -, hget⟩ := hsat.of_ok hr
    refine ⟨n', hat, fun b => ?_⟩
    rw [hget]
    by_cases hb : b = c.byte
    · simp [hb]
    · simp only [if_neg hb, Function.update_of_ne hb]
      exact h.2 b
  · rename_i e F' hr
    cases hstep
    obtain ⟨rfl, -⟩ := hsat.of_error hr
    exact ⟨n, h⟩

/-! ## Coming to the children in order -/

/-- Follow the cursor until there is no next child. -/
def listChildren (next : Nat → Except Error (Option (UInt8 × Slot × Nat))) :
    Nat → Nat → Except Error (List (UInt8 × Slot))
  | 0, _ => .error .diverged
  | fuel + 1, cur =>
    match next cur with
    | .error e => .error e
    | .ok none => .ok []
    | .ok (some (b, c, cur')) => (listChildren next fuel cur').map ((b, c) :: ·)

/-- A byte is come to at most once, and the next one is greater. -/
theorem listChildren_spec {n : Inner} {least : UInt8}
    {next : Nat → Except Error (Option (UInt8 × Slot × Nat))}
    (hnext : ∀ cur, ∃ r, next cur = .ok r ∧ n.Finds cur least r)
    (hleast : ∀ cur b c cur', next cur = .ok (some (b, c, cur')) → least ≤ b) (fuel cur low : Nat)
    (hlow : ∀ b c, n.findChild b = some c → n.ahead cur b → least ≤ b → low ≤ b.toNat)
    (hle : low ≤ 256) (hfuel : 256 < fuel + low) :
    ∃ es, listChildren next fuel cur = .ok es ∧ Ascending es ∧
      ∀ b c, (b, c) ∈ es ↔ n.findChild b = some c ∧ n.ahead cur b ∧ least ≤ b := by
  induction fuel generalizing cur low with
  | zero => omega
  | succ fuel ih =>
    obtain ⟨r, hr, hfinds⟩ := hnext cur
    unfold listChildren
    rw [hr]
    cases r with
    | none =>
      refine ⟨[], rfl, List.Pairwise.nil, fun b c => ?_⟩
      simp only [List.not_mem_nil, false_iff]
      rintro ⟨hb, ha, hl⟩
      exact hfinds b c hb hl ha
    | some next =>
      obtain ⟨b, c, cur'⟩ := next
      have hlow' := hlow b c hfinds.child hfinds.ahead (hleast cur b c cur' hr)
      obtain ⟨es, hes, hasc, hmem⟩ := ih cur' (b.toNat + 1) (by
        intro x s hx ha _
        exact UInt8.lt_iff_toNat_lt.mp ((hfinds.rest x s hx).mp ha)) b.toNat_lt (by omega)
      refine ⟨(b, c) :: es, by simp [hes, Except.map], List.pairwise_cons.mpr ⟨?_, hasc⟩, ?_⟩
      · rintro ⟨x, s⟩ hx
        obtain ⟨hx, ha, -⟩ := (hmem x s).mp hx
        exact (hfinds.rest x s hx).mp ha
      · intro x s
        rw [List.mem_cons, hmem, Prod.mk.injEq]
        constructor
        · rintro (⟨rfl, rfl⟩ | ⟨hx, ha, hl⟩)
          · exact ⟨hfinds.child, hfinds.ahead, hleast cur x s cur' hr⟩
          · exact ⟨hx, hfinds.kept x s hx ha, hl⟩
        · rintro ⟨hx, ha, hl⟩
          rcases (hfinds.first x s hx hl ha).eq_or_lt with rfl | hlt
          · exact Or.inl ⟨rfl, Option.some.inj (hx.symm.trans hfinds.child)⟩
          · exact Or.inr ⟨hx, (hfinds.rest x s hx).mpr hlt, hl⟩

theorem nextInnerChildGe_least {F : Frame} {s : Slot} {ntype : NodeType} {cur cur' : Nat}
    {least : Option UInt8} {b : UInt8} {c : Slot}
    (h : nextInnerChildGe F s ntype cur least = .ok (some (b, c, cur'))) : least.getD 0 ≤ b := by
  have entry : ∀ es : List (UInt8 × Slot), nextEntry es cur (least.getD 0) = some (b, c, cur') →
      least.getD 0 ≤ b := by
    intro es he
    obtain ⟨e, hfind, hpair⟩ := Option.map_eq_some_iff.mp he
    have hp := List.find?_some hfind
    simp only [Bool.decide_and, Bool.and_eq_true, decide_eq_true_eq] at hp
    cases hpair
    exact hp.2
  have byte : ∀ {p : UInt8 → Bool}, allBytes.find? p = some b →
      (p b = true → max cur (least.getD 0).toNat ≤ b.toNat) → least.getD 0 ≤ b := by
    intro p hfind hp
    exact UInt8.le_iff_toNat_le.mpr ((le_max_right ..).trans (hp (List.find?_some hfind)))
  unfold nextInnerChildGe at h
  split at h
  · cases h
  · exact entry _ (Except.ok.inj h)
  · exact entry _ (Except.ok.inj h)
  · unfold nextNode48 at h
    split at h
    · cases h
    · rename_i x hfind
      split at h
      · cases h
      · cases h
        exact byte hfind fun hp => (of_decide_eq_true hp).1
  · obtain ⟨x, hfind, hpair⟩ := Option.map_eq_some_iff.mp (Except.ok.inj h)
    cases hpair
    exact byte hfind fun hp => (of_decide_eq_true hp).1

/-- The node as the calls left it, read in every way there is: by byte, and in order from any
cursor position, from the least byte on or from a given one. -/
theorem Holds.reads {B : Branching} {n : Inner} (h : B.Holds n) :
    B.frame.ntypeOf B.slot = .ok n.ntype ∧
      (∀ b, innerFindChild B.frame B.slot n.ntype b = .ok (B.stored b)) ∧
      (∀ cur least, ∃ es,
        listChildren (fun cur => nextInnerChildGe B.frame B.slot n.ntype cur least) 257 cur =
            .ok es ∧ Ascending es ∧
          ∀ b c, (b, c) ∈ es ↔ B.stored b = some c ∧ n.ahead cur b ∧ least.getD 0 ≤ b) ∧
      ∀ cur, ∃ es,
        listChildren (nextInnerChildFrom B.frame B.slot n.ntype) 257 cur = .ok es ∧ Ascending es ∧
          ∀ b c, (b, c) ∈ es ↔ B.stored b = some c ∧ n.ahead cur b := by
  obtain ⟨hat, hfind⟩ := h
  refine ⟨hat.node.ntypeOf, fun b => ?_, fun cur least => ?_, fun cur => ?_⟩
  · simp [innerFindChild, readInner_eq hat.node, Except.map, hfind]
  · simp only [← hfind]
    exact listChildren_spec (fun cur => nextInnerChildGe_finds hat.node hat.wf cur least)
      (fun _ _ _ _ hr => nextInnerChildGe_least hr) 257 cur 0 (fun _ _ _ _ _ => Nat.zero_le _)
      (Nat.zero_le _) (by omega)
  · obtain ⟨es, hes, hasc, hmem⟩ := listChildren_spec
      (fun cur => nextInnerChildFrom_finds hat.node hat.wf cur)
      (fun _ b _ _ _ => UInt8.zero_le) 257 cur 0 (fun _ _ _ _ _ => Nat.zero_le _) (Nat.zero_le _)
      (by omega)
    refine ⟨es, hes, hasc, fun b c => ?_⟩
    rw [hmem, hfind]
    exact and_congr_right fun _ => and_iff_left UInt8.zero_le

theorem run_holds {B₀ B : Branching} {n₀ : Inner} (h₀ : B₀.Holds n₀)
    (hrun : Run step Distinct B₀ B) : ∃ n, B.Holds n := by
  induction hrun with
  | start => exact ⟨n₀, h₀⟩
  | next _ may took ih =>
    obtain ⟨n, h⟩ := ih
    exact h.step may took

/-- A node of 4 with two children. -/
def two (F : Frame) (s : Slot) (b₁ : UInt8) (c₁ : Slot) (b₂ : UInt8) (c₂ : Slot) : Branching :=
  ⟨F, s, fun b => if b = b₂ then some c₂ else if b = b₁ then some c₁ else none⟩

theorem two_holds {F : Frame} {s c₁ c₂ : Slot} {b₁ b₂ : UInt8}
    (hn : F.NodeAt s (.inner (.node4 [(b₁, c₁), (b₂, c₂)]))) (ha : F.Alloc {.slot s})
    (hb : b₁ < b₂) (h₁ : c₁ ≠ 0) (h₂ : c₂ ≠ 0) :
    (two F s b₁ c₁ b₂ c₂).Holds (.node4 [(b₁, c₁), (b₂, c₂)]) := by
  have hsorted : insertAsc b₂ c₂ [(b₁, c₁)] = [(b₁, c₁), (b₂, c₂)] := by
    simp [insertAsc, hb.le]
  obtain ⟨hw, hfind⟩ := node4_findChild hb.ne h₁ h₂
  rw [hsorted] at hw hfind
  exact ⟨⟨hn, hw, ha⟩, hfind⟩

/-- Through every growth the node is the map of what was stored: a lookup answers with the child
last stored, the children are come to in byte order from any start, the keys are sorted, the
index of a node of 48 matches its children; and a new child is refused only for lack of room. -/
theorem inner_is_map {F : Frame} {s c₁ c₂ : Slot} {b₁ b₂ : UInt8} {B : Branching}
    (hn : F.NodeAt s (.inner (.node4 [(b₁, c₁), (b₂, c₂)]))) (ha : F.Alloc {.slot s})
    (hb : b₁ < b₂) (h₁ : c₁ ≠ 0) (h₂ : c₂ ≠ 0)
    (hrun : Run step Distinct (two F s b₁ c₁ b₂ c₂) B) :
    ∃ n : Inner, B.frame.NodeAt B.slot (.inner n) ∧ n.Wf ∧
      B.frame.ntypeOf B.slot = .ok n.ntype ∧
      (∀ b, innerFindChild B.frame B.slot n.ntype b = .ok (B.stored b)) ∧
      (∀ cur least, ∃ es,
        listChildren (fun cur => nextInnerChildGe B.frame B.slot n.ntype cur least) 257 cur =
            .ok es ∧ Ascending es ∧
          ∀ b c, (b, c) ∈ es ↔ B.stored b = some c ∧ n.ahead cur b ∧ least.getD 0 ≤ b) ∧
      (∀ cur, ∃ es,
        listChildren (nextInnerChildFrom B.frame B.slot n.ntype) 257 cur = .ok es ∧ Ascending es ∧
          ∀ b c, (b, c) ∈ es ↔ B.stored b = some c ∧ n.ahead cur b) ∧
      (∀ b c, B.stored b = some c → n.ahead 0 b) ∧
      ∀ c, B.Distinct c → ∀ e F', perform B.slot c B.frame = .error e F' →
        F' = B.frame ∧ B.Refuses c e := by
  obtain ⟨n, h⟩ := run_holds (two_holds hn ha hb h₁ h₂) hrun
  obtain ⟨htype, hfind, hge, hfrom⟩ := h.reads
  refine ⟨n, h.1.node, h.1.wf, htype, hfind, hge, hfrom, fun b c hbc => ?_, fun c hc e F' hr => ?_⟩
  · exact Inner.ahead_zero h.1.wf ((h.2 b).trans hbc)
  · exact (h.perform hc).of_error hr

/-- Three more children make a node of 16, and one child is replaced. -/
def fiveChildren : List Call :=
  [.addChild 9 11, .addChild 3 12, .addChild 7 13, .updateChild 3 14]

theorem inner_is_map_grown : ∃ F s B, F.NodeAt s (.inner (.node4 [(1, 5), (4, 6)])) ∧
    F.Alloc {.slot s} ∧ Run step Distinct (two F s 1 5 4 6) B ∧
    ∃ n : Inner, n.ntype = .node16 ∧ B.frame.NodeAt B.slot (.inner n) ∧
      innerFindChild B.frame B.slot .node16 3 = .ok (some 14) := by
  have hplay : (init 0).toOption.any (fun F₀ =>
      returns (newNode (.inner (.node4 [(1, 5), (4, 6)]))) F₀ fun s F =>
        (play step Distinct fiveChildren (two F s 1 5 4 6)).any fun B =>
          decide (B.stored 3 = some 14 ∧ B.frame.bodyType B.slot = some .node16)) = true := by
    decide +kernel
  obtain ⟨F₀, hinit, -, -, -, ha⟩ := init_spec 0
  rw [hinit] at hplay
  obtain ⟨s, F, hr, hplay⟩ := returns_iff.mp hplay
  obtain ⟨B, hrun, hstored, htype⟩ := exists_run_of_play hplay
  have hnew := (newNode_sat ha (b := .inner (.node4 [(1, 5), (4, 6)]))
    (by simp [Body.ntype])).of_ok hr
  have halloc := hnew.alloc.mono (Set.singleton_subset_iff.mpr (Set.mem_insert ..))
  obtain ⟨n, hn, -, -, hfind, -⟩ := inner_is_map hnew.node halloc (by decide) (by decide)
    (by decide) hrun
  have hntype : n.ntype = .node16 := Option.some.inj (hn.1.symm.trans htype)
  refine ⟨F, s, B, hnew.node, halloc, hrun, n, hntype, hn, ?_⟩
  rw [← hntype, hfind, hstored]

end Branching

end Holt
