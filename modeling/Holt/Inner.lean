import Holt.Layout
import Holt.Lib.Bytes
import Holt.Lib.SortedAssoc
import Mathlib.Data.Finset.Card

/-! The four inner node kinds and their operations, each a partial map from byte to child. -/

namespace Holt

open Holt.Lib

/-- `index` holds 1-based positions in `children`; 0 is absent. -/
structure Node48 where
  count : Nat
  index : UInt8 → Nat
  children : Nat → Slot

def Node48.empty : Node48 := ⟨0, fun _ => 0, fun _ => 0⟩

/-- Write `child` at position `i` and route `byte` there. -/
def Node48.place (n : Node48) (i : Nat) (byte : UInt8) (child : Slot) : Node48 :=
  { n with
    index := Function.update n.index byte (i + 1)
    children := Function.update n.children i child }

/-- `count` is a statistic; a zero child is what says that a byte is absent. -/
structure Node256 where
  count : Nat
  children : UInt8 → Slot

def Node256.empty : Node256 := ⟨0, fun _ => 0⟩

/-- A node of 4 or 16 keeps its used keys and children as one list of pairs; the list's
length is the node's `count`. -/
inductive Inner
  | node4 (entries : List (UInt8 × Slot))
  | node16 (entries : List (UInt8 × Slot))
  | node48 (n : Node48)
  | node256 (n : Node256)

/-- First free position of a node of 48, taken for `child`. -/
def node48Insert (n : Node48) (byte : UInt8) (child : Slot) : Except Error Node48 :=
  if n.index byte ≠ 0 then
    .error (.corrupt "node48_insert: byte already present")
  else
    match (List.range 48).find? (fun i => n.children i = 0) with
    | some i => .ok { n.place i byte child with count := n.count + 1 }
    | none => .error (.corrupt "node48_insert: no free children[] slot despite count < 48")

/-- Place `entries` at positions `i`, `i + 1`, … -/
def fillNode48 : Nat → List (UInt8 × Slot) → Node48 → Node48
  | _, [], n => n
  | i, (b, c) :: es, n => fillNode48 (i + 1) es (n.place i b c)

def growNode16ToNode48 (entries : List (UInt8 × Slot)) : Node48 :=
  fillNode48 0 entries { Node48.empty with count := entries.length }

def growNode48ToNode256 (n : Node48) : Node256 where
  count := min (allBytes.filter fun b => n.index b ≠ 0).length 255
  children b := if n.index b ≠ 0 then n.children (n.index b - 1) else 0

def fillNode256 : List (UInt8 × Slot) → Node256 → Node256
  | [], n => n
  | (b, c) :: es, n => fillNode256 es { n with children := Function.update n.children b c }

namespace Inner

def ntype : Inner → NodeType
  | .node4 _ => .node4
  | .node16 _ => .node16
  | .node48 _ => .node48
  | .node256 _ => .node256

/-- A node of 4 is scanned up to the first greater key, a node of 16 is searched whole. -/
def findChild : Inner → UInt8 → Option Slot
  | .node4 es, b => scanAsc b es
  | .node16 es, b => es.lookup b
  | .node48 n, b => if n.index b = 0 then none else some (n.children (n.index b - 1))
  | .node256 n, b => if n.children b = 0 then none else some (n.children b)

def updateChild : Inner → UInt8 → Slot → Except Error Inner
  | .node4 es, b, c =>
    match setValue b c es with
    | some es' => .ok (.node4 es')
    | none => .error (.corrupt "inner_update_child: byte not found in Node4")
  | .node16 es, b, c =>
    match setValue b c es with
    | some es' => .ok (.node16 es')
    | none => .error (.corrupt "inner_update_child: byte not found in Node16")
  | .node48 n, b, c =>
    if n.index b = 0 then
      .error (.corrupt "inner_update_child: byte not found in Node48")
    else
      .ok (.node48 { n with children := Function.update n.children (n.index b - 1) c })
  | .node256 n, b, c => .ok (.node256 { n with children := Function.update n.children b c })

/-- Whether the next child needs the next larger kind. -/
def full : Inner → Bool
  | .node4 es => 4 ≤ es.length
  | .node16 es => 16 ≤ es.length
  | .node48 n => 48 ≤ n.count
  | .node256 _ => false

def insertChild : Inner → UInt8 → Slot → Except Error Inner
  | .node4 es, b, c => .ok (.node4 (insertAsc b c es))
  | .node16 es, b, c => .ok (.node16 (insertAsc b c es))
  | .node48 n, b, c => (node48Insert n b c).map .node48
  | .node256 n, b, c =>
    if n.children b ≠ 0 then
      .error (.corrupt "inner_add_child: byte already present on Node256")
    else
      .ok (.node256 ⟨min (n.count + 1) 255, Function.update n.children b c⟩)

def grow : Inner → Inner
  | .node4 es => .node16 es
  | .node16 es => .node48 (growNode16ToNode48 es)
  | .node48 n => .node256 (growNode48ToNode256 n)
  | .node256 n => .node256 n

/-- The smallest kind that holds two or more `survivors`. A node of 256 stores their number
cut to eight bits. -/
def pack (survivors : List (UInt8 × Slot)) : Inner :=
  if survivors.length ≤ 4 then .node4 survivors
  else if survivors.length ≤ 16 then .node16 survivors
  else if survivors.length ≤ 48 then
    .node48 (fillNode48 0 survivors { Node48.empty with count := survivors.length })
  else .node256 (fillNode256 survivors { Node256.empty with count := survivors.length % 2 ^ 8 })

/-- Children in array order. -/
def childSlots : Inner → List Slot
  | .node4 es => es.map Prod.snd
  | .node16 es => es.map Prod.snd
  | .node48 n => ((List.range 48).map n.children).filter (· ≠ 0)
  | .node256 n => (allBytes.map n.children).filter (· ≠ 0)

/-- Children with their bytes, in byte order. In a node of 48 an index may point past the
array; whoever follows it says so. -/
def edges (context : String) : Inner → List (UInt8 × Except Error Slot)
  | .node4 es => es.map fun e => (e.1, .ok e.2)
  | .node16 es => es.map fun e => (e.1, .ok e.2)
  | .node48 n => (allBytes.filter fun b => n.index b ≠ 0).map fun b =>
    (b, if 48 ≤ n.index b - 1 then .error (.corrupt context)
      else .ok (n.children (n.index b - 1)))
  | .node256 n => (allBytes.filter fun b => n.children b ≠ 0).map fun b => (b, .ok (n.children b))

end Inner

/-! ## Well-formed nodes -/

/-- Used bytes and used positions match one to one. -/
structure Node48.Shape (n : Node48) : Prop where
  index_le : ∀ b, n.index b ≤ 48
  child_ne : ∀ b, n.index b ≠ 0 → n.children (n.index b - 1) ≠ 0
  index_inj : ∀ b b', n.index b ≠ 0 → n.index b = n.index b' → b = b'
  covered : ∀ i < 48, n.children i ≠ 0 → ∃ b, n.index b = i + 1

def Node48.used (n : Node48) : Finset Nat := (Finset.range 48).filter fun i => n.children i ≠ 0

structure Node48.Wf (n : Node48) : Prop extends n.Shape where
  count_eq : n.count = n.used.card

def Inner.Wf : Inner → Prop
  | .node4 es => es.length ≤ 4 ∧ Ascending es ∧ ∀ e ∈ es, e.2 ≠ 0
  | .node16 es => es.length ≤ 16 ∧ Ascending es ∧ ∀ e ∈ es, e.2 ≠ 0
  | .node48 n => n.Wf
  | .node256 _ => True

namespace Inner

@[simp]
theorem ntype_ne_invalid (n : Inner) : n.ntype ≠ .invalid := by cases n <;> simp [ntype]

theorem findChild_node4 {es : List (UInt8 × Slot)} (h : (Inner.node4 es).Wf) (b : UInt8) :
    (Inner.node4 es).findChild b = es.lookup b :=
  scanAsc_eq_lookup h.2.1 b

/-- What changing one child does, whatever the kind. -/
def Updated (n n' : Inner) (b : UInt8) (c : Slot) : Prop :=
  n'.Wf ∧ ∀ b', n'.findChild b' = if b' = b then some c else n.findChild b'

theorem updateEntries_wf {es es' : List (UInt8 × Slot)} {b : UInt8} {c : Slot} (hc : c ≠ 0)
    (ha : Ascending es) (hz : ∀ e ∈ es, e.2 ≠ 0) (hs : setValue b c es = some es') :
    es'.length = es.length ∧ Ascending es' ∧ ∀ e ∈ es', e.2 ≠ 0 := by
  obtain ⟨hkeys, -, hmem⟩ := setValue_spec hs
  refine ⟨?_, ha.of_keys hkeys, fun e he => ?_⟩
  · simpa using congrArg List.length hkeys
  · rcases hmem e he with rfl | he
    · exact hc
    · exact hz e he

theorem updateChild_spec {n : Inner} (h : n.Wf) {b : UInt8} {old c : Slot} (hc : c ≠ 0)
    (hf : n.findChild b = some old) :
    ∃ n', n.updateChild b c = .ok n' ∧ n'.ntype = n.ntype ∧ Updated n n' b c := by
  cases n with
  | node4 es =>
    rw [findChild_node4 h] at hf
    obtain ⟨es', hs⟩ := setValue_isSome c hf
    obtain ⟨hl, ha, hz⟩ := updateEntries_wf hc h.2.1 h.2.2 hs
    have hw : (Inner.node4 es').Wf := ⟨hl ▸ h.1, ha, hz⟩
    refine ⟨.node4 es', by simp [updateChild, hs], rfl, hw, fun b' => ?_⟩
    rw [findChild_node4 hw, findChild_node4 h, (setValue_spec hs).2.1]
  | node16 es =>
    obtain ⟨es', hs⟩ := setValue_isSome c hf
    obtain ⟨hl, ha, hz⟩ := updateEntries_wf hc h.2.1 h.2.2 hs
    exact ⟨.node16 es', by simp [updateChild, hs], rfl, ⟨hl ▸ h.1, ha, hz⟩,
      (setValue_spec hs).2.1⟩
  | node48 n =>
    have hb : n.index b ≠ 0 := by
      intro h0
      simp [findChild, h0] at hf
    have hlt : n.index b - 1 < 48 := by have := h.index_le b; omega
    refine ⟨.node48 { n with children := Function.update n.children (n.index b - 1) c },
      by simp [updateChild, hb], rfl, ?_, fun b' => ?_⟩
    · refine ⟨⟨h.index_le, fun b' hb' => ?_, h.index_inj, fun i hi hci => ?_⟩, ?_⟩
      · by_cases he : n.index b' - 1 = n.index b - 1
        · simp [he, hc]
        · simpa [he] using h.child_ne b' hb'
      · by_cases he : i = n.index b - 1
        · exact ⟨b, by simp only [he]; omega⟩
        · simp only [Function.update_of_ne he] at hci
          exact h.covered i hi hci
      · rw [h.count_eq]
        congr 1
        apply Finset.filter_congr
        intro i _
        by_cases he : i = n.index b - 1
        · simp [he, hc, h.child_ne b hb]
        · simp [he]
    · by_cases he : b' = b
      · subst he
        simp [findChild, hb]
      · by_cases h0 : n.index b' = 0
        · simp [findChild, h0, he]
        · have hne : ¬ n.index b' - 1 = n.index b - 1 := by
            intro hi
            exact he (h.index_inj b' b h0 (by omega))
          simp [findChild, h0, he, hne]
  | node256 n =>
    refine ⟨_, rfl, rfl, trivial, fun b' => ?_⟩
    by_cases he : b' = b
    · subst he
      simp [findChild, hc]
    · simp [findChild, he]

end Inner

namespace Node48

theorem empty_shape (count : Nat) : ({ empty with count := count } : Node48).Shape :=
  ⟨fun _ => by simp [empty], fun _ h => absurd rfl h, fun _ _ h => absurd rfl h,
    fun _ _ h => absurd rfl h⟩

section Place

variable {n : Node48} {i : Nat} {b : UInt8} {c : Slot}

theorem Shape.place (h : n.Shape) (hi : i < 48) (hfree : n.children i = 0) (hb : n.index b = 0)
    (hc : c ≠ 0) : (n.place i b c).Shape := by
  -- no used byte points at a free position
  have hpos : ∀ b', n.index b' ≠ 0 → n.index b' - 1 ≠ i := by
    intro b' h0 he
    exact h.child_ne b' h0 (he ▸ hfree)
  refine ⟨fun b' => ?_, fun b' h0 => ?_, fun b₁ b₂ h0 he => ?_, fun p hp hcp => ?_⟩
  · by_cases he : b' = b
    · subst he
      simp only [Node48.place, Function.update_self]
      omega
    · simpa [Node48.place, he] using h.index_le b'
  · by_cases he : b' = b
    · subst he
      simpa [Node48.place] using hc
    · have h0' : n.index b' ≠ 0 := by simpa [Node48.place, he] using h0
      simpa [Node48.place, he, hpos b' h0'] using h.child_ne b' h0'
  · by_cases h₁ : b₁ = b <;> by_cases h₂ : b₂ = b
    · rw [h₁, h₂]
    · subst h₁
      simp only [Node48.place, Function.update_self, Function.update_of_ne h₂] at he
      exact absurd (by omega) (hpos b₂ (by omega))
    · subst h₂
      simp only [Node48.place, Function.update_self, Function.update_of_ne h₁] at he
      exact absurd (by omega) (hpos b₁ (by omega))
    · simp only [Node48.place, Function.update_of_ne h₁, Function.update_of_ne h₂] at he h0
      exact h.index_inj b₁ b₂ h0 he
  · by_cases he : p = i
    · exact ⟨b, by simp [Node48.place, he]⟩
    · simp only [Node48.place, Function.update_of_ne he] at hcp
      obtain ⟨b', hb'⟩ := h.covered p hp hcp
      have hne : b' ≠ b := by
        rintro rfl
        omega
      exact ⟨b', by simpa [Node48.place, hne] using hb'⟩

theorem Shape.findChild_place (h : n.Shape) (hfree : n.children i = 0) (b' : UInt8) :
    (Inner.node48 (n.place i b c)).findChild b' =
      if b' = b then some c else (Inner.node48 n).findChild b' := by
  by_cases he : b' = b
  · subst he
    simp [Inner.findChild, Node48.place]
  · by_cases h0 : n.index b' = 0
    · simp [Inner.findChild, Node48.place, he, h0]
    · have hne : n.index b' - 1 ≠ i := fun hi => h.child_ne b' h0 (hi ▸ hfree)
      simp [Inner.findChild, Node48.place, he, h0, hne]

theorem used_place (hi : i < 48) (hc : c ≠ 0) : (n.place i b c).used = insert i n.used := by
  ext p
  rw [Finset.mem_insert, used, used, Finset.mem_filter, Finset.mem_filter]
  by_cases he : p = i
  · simp [Node48.place, he, hi, hc]
  · simp [Node48.place, he]

end Place

theorem Wf.free_position {n : Node48} (h : n.Wf) (hcount : n.count < 48) :
    ∃ i, (List.range 48).find? (fun i => n.children i = 0) = some i ∧ i < 48 ∧
      n.children i = 0 := by
  cases hfind : (List.range 48).find? (fun i => n.children i = 0) with
  | some i =>
    exact ⟨i, rfl, List.mem_range.mp (List.mem_of_find?_eq_some hfind),
      by simpa using List.find?_some hfind⟩
  | none =>
    -- all positions used: the count would be 48
    rw [List.find?_eq_none] at hfind
    have hall : n.used = Finset.range 48 := by
      apply Finset.filter_true_of_mem
      intro i hi
      simpa using hfind i (by simpa using hi)
    rw [h.count_eq, hall, Finset.card_range] at hcount
    omega

/-- Filling consecutive free positions with fresh bytes. -/
theorem fill_spec {es : List (UInt8 × Slot)} {i : Nat} {n : Node48} (h : n.Shape)
    (hlen : i + es.length ≤ 48) (hfree : ∀ p, i ≤ p → n.children p = 0)
    (hkeys : (es.map Prod.fst).Nodup) (hnew : ∀ e ∈ es, n.index e.1 = 0)
    (hz : ∀ e ∈ es, e.2 ≠ 0) :
    (fillNode48 i es n).Shape ∧ (fillNode48 i es n).count = n.count ∧
    (fillNode48 i es n).used.card = n.used.card + es.length ∧
    ∀ b, (Inner.node48 (fillNode48 i es n)).findChild b =
      (es.lookup b).or ((Inner.node48 n).findChild b) := by
  induction es generalizing i n with
  | nil => exact ⟨h, rfl, rfl, fun b => by simp [fillNode48]⟩
  | cons e es ih =>
    obtain ⟨b, c⟩ := e
    simp only [List.length_cons] at hlen
    simp only [List.map_cons, List.nodup_cons] at hkeys
    have hi : i < 48 := by omega
    have hfi : n.children i = 0 := hfree i le_rfl
    have hc : c ≠ 0 := hz (b, c) List.mem_cons_self
    have hb : n.index b = 0 := hnew (b, c) List.mem_cons_self
    obtain ⟨hs, hcount, hused, hget⟩ := ih (n := n.place i b c) (i := i + 1)
      (h.place hi hfi hb hc) (by omega)
      (fun p hp => by
        have hne : p ≠ i := by omega
        simpa [place, hne] using hfree p (by omega))
      hkeys.2
      (fun e he => by
        have hne : e.1 ≠ b := by
          rintro rfl
          exact hkeys.1 (List.mem_map_of_mem he)
        simpa [place, hne] using hnew e (List.mem_cons_of_mem _ he))
      (fun e he => hz e (List.mem_cons_of_mem _ he))
    have hfresh : i ∉ n.used := by simp [used, hfi]
    refine ⟨hs, hcount, ?_, fun b' => ?_⟩
    · rw [fillNode48, hused, used_place hi hc, Finset.card_insert_of_notMem hfresh,
        List.length_cons]
      omega
    · rw [fillNode48, hget, h.findChild_place hfi, lookup_cons_ite]
      by_cases he : b' = b
      · have : es.lookup b' = none := by
          rw [he, ← Option.not_isSome_iff_eq_none, lookup_isSome_iff]
          exact hkeys.1
        simp [he, he ▸ this]
      · simp [he]

theorem fill_empty_wf {es : List (UInt8 × Slot)} (hlen : es.length ≤ 48) (ha : Ascending es)
    (hz : ∀ e ∈ es, e.2 ≠ 0) :
    (fillNode48 0 es { empty with count := es.length }).Wf ∧
    ∀ b, (Inner.node48 (fillNode48 0 es { empty with count := es.length })).findChild b =
      es.lookup b := by
  obtain ⟨hs, hcount, hused, hget⟩ := fill_spec (i := 0) (empty_shape es.length) (by omega)
    (fun _ _ => rfl) ha.keys_nodup (fun _ _ => rfl) hz
  refine ⟨⟨hs, ?_⟩, fun b => ?_⟩
  · rw [hcount, hused]
    simp [used, empty]
  · rw [hget]
    simp [Inner.findChild, empty]

end Node48

namespace Inner

theorem insertChild_spec {n : Inner} (h : n.Wf) (hfull : n.full = false) {b : UInt8} {c : Slot}
    (hc : c ≠ 0) (hf : n.findChild b = none) :
    ∃ n', n.insertChild b c = .ok n' ∧ n'.ntype = n.ntype ∧ Updated n n' b c := by
  have entries_wf : ∀ es : List (UInt8 × Slot), Ascending es → (∀ e ∈ es, e.2 ≠ 0) →
      es.lookup b = none → Ascending (insertAsc b c es) ∧ ∀ e ∈ insertAsc b c es, e.2 ≠ 0 := by
    intro es ha hz hl
    refine ⟨ha.insertAsc c hl, fun e he => ?_⟩
    rcases mem_insertAsc.mp he with rfl | he
    · exact hc
    · exact hz e he
  cases n with
  | node4 es =>
    rw [findChild_node4 h] at hf
    have hlen : es.length < 4 := by simpa [full] using hfull
    obtain ⟨ha, hz⟩ := entries_wf es h.2.1 h.2.2 hf
    have hw : (Inner.node4 (insertAsc b c es)).Wf :=
      ⟨by rw [insertAsc_length]; omega, ha, hz⟩
    refine ⟨_, rfl, rfl, hw, fun b' => ?_⟩
    rw [findChild_node4 hw, findChild_node4 h, lookup_insertAsc c hf]
  | node16 es =>
    have hlen : es.length < 16 := by simpa [full] using hfull
    obtain ⟨ha, hz⟩ := entries_wf es h.2.1 h.2.2 hf
    exact ⟨_, rfl, rfl, ⟨by rw [insertAsc_length]; omega, ha, hz⟩, lookup_insertAsc c hf⟩
  | node48 n =>
    have hb : n.index b = 0 := by
      by_contra h0
      simp [findChild, h0] at hf
    obtain ⟨i, hfind, hi, hfree⟩ := Node48.Wf.free_position h (by simpa [full] using hfull)
    refine ⟨.node48 { n.place i b c with count := n.count + 1 }, ?_, rfl, ⟨?_, ?_⟩, ?_⟩
    · simp [insertChild, node48Insert, hb, hfind, Except.map]
    · have hs := h.toShape.place hi hfree hb hc
      exact ⟨hs.index_le, hs.child_ne, hs.index_inj, hs.covered⟩
    · change n.count + 1 = (n.place i b c).used.card
      rw [Node48.used_place hi hc, Finset.card_insert_of_notMem (by simp [Node48.used, hfree]),
        h.count_eq]
    · exact h.toShape.findChild_place hfree
  | node256 n =>
    have hb : n.children b = 0 := by
      by_contra h0
      simp [findChild, h0] at hf
    refine ⟨.node256 ⟨min (n.count + 1) 255, Function.update n.children b c⟩,
      by simp [insertChild, hb], rfl, trivial, fun b' => ?_⟩
    by_cases he : b' = b
    · simp [findChild, he, hc]
    · simp [findChild, he]

/-- The next larger kind holds the same children and has room. -/
theorem grow_spec {n : Inner} (h : n.Wf) (hfull : n.full = true) :
    n.grow.Wf ∧ n.grow.full = false ∧ ∀ b, n.grow.findChild b = n.findChild b := by
  cases n with
  | node4 es =>
    have hlen := h.1
    refine ⟨⟨by omega, h.2⟩, ?_, fun b => (findChild_node4 h b).symm⟩
    simp only [grow, full, decide_eq_false_iff_not]
    omega
  | node16 es =>
    have hlen := h.1
    obtain ⟨hw, hget⟩ := Node48.fill_empty_wf (by omega) h.2.1 h.2.2
    refine ⟨hw, ?_, hget⟩
    have hcount := (Node48.fill_spec (i := 0) (Node48.empty_shape es.length) (by omega)
      (fun _ _ => rfl) h.2.1.keys_nodup (fun _ _ => rfl) h.2.2).2.1
    simp only [grow, full, growNode16ToNode48, hcount, decide_eq_false_iff_not]
    omega
  | node48 n =>
    refine ⟨trivial, rfl, fun b => ?_⟩
    by_cases h0 : n.index b = 0
    · simp [grow, findChild, growNode48ToNode256, h0]
    · simp [grow, findChild, growNode48ToNode256, h0, h.child_ne b h0]
  | node256 n => simp [full] at hfull

theorem fillNode256_findChild {es : List (UInt8 × Slot)} (hk : (es.map Prod.fst).Nodup)
    (hz : ∀ e ∈ es, e.2 ≠ 0) (n : Node256) (b : UInt8) :
    (Inner.node256 (fillNode256 es n)).findChild b =
      (es.lookup b).or ((Inner.node256 n).findChild b) := by
  induction es generalizing n with
  | nil => simp [fillNode256]
  | cons e es ih =>
    obtain ⟨b₁, c⟩ := e
    simp only [List.map_cons, List.nodup_cons] at hk
    have hc : c ≠ 0 := hz (b₁, c) List.mem_cons_self
    rw [fillNode256, ih hk.2 (fun e he => hz e (List.mem_cons_of_mem _ he)), lookup_cons_ite]
    by_cases he : b = b₁
    · have : es.lookup b = none := by
        rw [he, ← Option.not_isSome_iff_eq_none, lookup_isSome_iff]
        exact hk.1
      subst he
      simp [this, findChild, hc]
    · simp [he, findChild]

theorem pack_spec {es : List (UInt8 × Slot)} (ha : Ascending es) (hz : ∀ e ∈ es, e.2 ≠ 0) :
    (pack es).Wf ∧ ∀ b, (pack es).findChild b = es.lookup b := by
  unfold pack
  split
  · rename_i hlen
    exact ⟨⟨hlen, ha, hz⟩, findChild_node4 ⟨hlen, ha, hz⟩⟩
  · split
    · rename_i hlen
      exact ⟨⟨hlen, ha, hz⟩, fun _ => rfl⟩
    · split
      · rename_i hlen
        exact Node48.fill_empty_wf hlen ha hz
      · refine ⟨trivial, fun b => ?_⟩
        rw [fillNode256_findChild ha.keys_nodup hz]
        simp [findChild, Node256.empty]

/-- Array order lists every child once, each under its own byte. -/
theorem childSlots_bytes {n : Inner} (h : n.Wf) :
    ∃ bs : List UInt8, bs.Nodup ∧ (∀ b, b ∈ bs ↔ (n.findChild b).isSome) ∧
      n.childSlots.map some = bs.map n.findChild := by
  have entries : ∀ es : List (UInt8 × Slot), Ascending es →
      (es.map Prod.fst).Nodup ∧ (∀ b, b ∈ es.map Prod.fst ↔ (es.lookup b).isSome) ∧
      (es.map Prod.snd).map some = (es.map Prod.fst).map fun b => es.lookup b := by
    intro es ha
    refine ⟨ha.keys_nodup, fun b => lookup_isSome_iff.symm, ?_⟩
    rw [List.map_map, List.map_map]
    apply List.map_congr_left
    intro e he
    exact (lookup_of_mem ha.keys_nodup he).symm
  cases n with
  | node4 es =>
    obtain ⟨hn, hmem, hmap⟩ := entries es h.2.1
    have hfind : (Inner.node4 es).findChild = fun b => es.lookup b := funext (findChild_node4 h)
    exact ⟨es.map Prod.fst, hn, by rw [hfind]; exact hmem, by rw [hfind]; exact hmap⟩
  | node16 es =>
    obtain ⟨hn, hmem, hmap⟩ := entries es h.2.1
    exact ⟨es.map Prod.fst, hn, hmem, hmap⟩
  | node48 n =>
    classical
    -- the byte that owns a used position
    let owner : Nat → UInt8 := fun i =>
      if hi : i < 48 ∧ n.children i ≠ 0 then Classical.choose (h.covered i hi.1 hi.2) else 0
    have howner : ∀ i, i < 48 → n.children i ≠ 0 → n.index (owner i) = i + 1 := by
      intro i hi hci
      simp only [owner, dif_pos (And.intro hi hci)]
      exact Classical.choose_spec (h.covered i hi hci)
    refine ⟨((List.range 48).filter fun i => n.children i ≠ 0).map owner, ?_, fun b => ?_, ?_⟩
    · refine (List.nodup_map_iff_inj_on (List.nodup_range.filter _)).mpr ?_
      intro i hi j hj hij
      simp only [ne_eq, decide_not, List.mem_filter, List.mem_range, Bool.not_eq_eq_eq_not,
        Bool.not_true, decide_eq_false_iff_not] at hi hj
      have h₁ := howner i hi.1 hi.2
      have h₂ := howner j hj.1 hj.2
      rw [hij] at h₁
      omega
    · simp only [ne_eq, decide_not, List.mem_map, List.mem_filter, List.mem_range,
        Bool.not_eq_eq_eq_not, Bool.not_true, decide_eq_false_iff_not]
      constructor
      · rintro ⟨i, ⟨hi, hci⟩, rfl⟩
        simp [findChild, howner i hi hci]
      · intro hs
        have h0 : n.index b ≠ 0 := by
          intro h0
          simp [findChild, h0] at hs
        have hlt : n.index b - 1 < 48 := by have := h.index_le b; omega
        have hci := h.child_ne b h0
        refine ⟨n.index b - 1, ⟨hlt, hci⟩, ?_⟩
        have ho := howner _ hlt hci
        exact h.index_inj _ _ (by omega) (by omega)
    · simp only [childSlots, List.filter_map, List.map_map]
      apply List.map_congr_left
      intro i hi
      have hi' : i < 48 ∧ n.children i ≠ 0 := by simpa using hi
      simp [findChild, howner i hi'.1 hi'.2]
  | node256 n =>
    refine ⟨allBytes.filter fun b => n.children b ≠ 0, allBytes_nodup.filter _, fun b => ?_, ?_⟩
    · by_cases h0 : n.children b = 0 <;> simp [findChild, h0]
    · simp only [childSlots, List.filter_map, List.map_map]
      apply List.map_congr_left
      intro b hb
      have hb' : n.children b ≠ 0 := by simpa using hb
      simp [findChild, hb']

/-- Byte order lists exactly the partial map. -/
theorem edges_spec {n : Inner} (h : n.Wf) (context : String) :
    ∃ es, n.edges context = es.map (fun e => (e.1, .ok e.2)) ∧ Ascending es ∧
      ∀ b c, (b, c) ∈ es ↔ n.findChild b = some c := by
  have entries : ∀ es : List (UInt8 × Slot), Ascending es → ∀ b c,
      (b, c) ∈ es ↔ es.lookup b = some c :=
    fun es ha b c => ⟨lookup_of_mem ha.keys_nodup, lookup_mem⟩
  cases n with
  | node4 es =>
    exact ⟨es, rfl, h.2.1, fun b c => by rw [findChild_node4 h]; exact entries es h.2.1 b c⟩
  | node16 es => exact ⟨es, rfl, h.2.1, entries es h.2.1⟩
  | node48 n =>
    refine ⟨(allBytes.filter fun b => n.index b ≠ 0).map fun b => (b, n.children (n.index b - 1)),
      ?_, ?_, fun b c => ?_⟩
    · rw [edges, List.map_map]
      apply List.map_congr_left
      intro b hb
      have h0 : n.index b ≠ 0 := by simpa using (List.mem_filter.mp hb).2
      have := h.index_le b
      rw [Function.comp_apply, if_neg (by omega)]
    · rw [Ascending, List.pairwise_map]
      exact allBytes_ascending.filter _
    · by_cases h0 : n.index b = 0 <;> simp [findChild, h0]
  | node256 n =>
    refine ⟨(allBytes.filter fun b => n.children b ≠ 0).map fun b => (b, n.children b),
      ?_, ?_, fun b c => ?_⟩
    · rw [edges, List.map_map]
      rfl
    · rw [Ascending, List.pairwise_map]
      exact allBytes_ascending.filter _
    · by_cases h0 : n.children b = 0 <;> simp [findChild, h0]

end Inner

end Holt
