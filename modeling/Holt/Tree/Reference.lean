import Holt.Tree.Calls

/-! Runs of calls on one tree against runs of the same calls on a plain map. -/

namespace Holt

open Holt.Lib

inductive Call
  | put (key value : List UInt8)
  | putIfAbsent (key value : List UInt8)
  | compareAndPut (key : List UInt8) (expected : Nat) (value : List UInt8)
  | delete (key : List UInt8)
  | deleteIfVersion (key : List UInt8) (expected : Nat)
  | get (key : List UInt8)
  | getRecord (key : List UInt8)
  | getVersion (key : List UInt8)
  deriving DecidableEq, Repr

inductive Reply
  | unit
  | bool (b : Bool)
  | value (v : Option (List UInt8))
  | record (r : Option (List UInt8 × Nat))
  | version (v : Option Nat)
  deriving DecidableEq, Repr

def Tree.call {root : BlobGuid} (supply : GuidSupply root) : Call → TreeM Reply
  | .put key value => (fun _ => .unit) <$> Holt.put supply key value
  | .putIfAbsent key value => .bool <$> Holt.putIfAbsent supply key value
  | .compareAndPut key expected value => .bool <$> Holt.compareAndPut supply key expected value
  | .delete key => .bool <$> Holt.delete root key
  | .deleteIfVersion key expected => .bool <$> Holt.deleteIfVersion root key expected
  | .get key => .value <$> getValue root key
  | .getRecord key => .record <$> Holt.getRecord root key
  | .getVersion key => .version <$> Holt.getVersion root key

/-- A run ends at the first call that fails. -/
def Tree.run {root : BlobGuid} (supply : GuidSupply root) : List Call → TreeM (List Reply)
  | [] => pure []
  | c :: cs => do
    let r ← Tree.call supply c
    let rs ← Tree.run supply cs
    pure (r :: rs)

/-! ## The reference -/

/-- A map from keys to values and versions, and the version the next write gets. -/
structure RefMap where
  records : Contents
  nextSeq : Nat

namespace RefMap

def empty : RefMap := ⟨fun _ => none, 1⟩

/-- Every attempt to write uses a version up. -/
def writeIf (m : RefMap) (ok : Bool) (records : Contents) : RefMap :=
  ⟨if ok then records else m.records, m.nextSeq + 1⟩

def call (m : RefMap) : Call → Reply × RefMap
  | .put key value => (.unit, m.writeIf true (m.records.put key value m.nextSeq))
  | .putIfAbsent key value =>
    let ok := (m.records key).isNone
    (.bool ok, m.writeIf ok (m.records.put key value m.nextSeq))
  | .compareAndPut key expected value =>
    let ok := decide (m.records.version key = some expected)
    (.bool ok, m.writeIf ok (m.records.put key value m.nextSeq))
  | .delete key =>
    let ok := (m.records key).isSome
    (.bool ok, m.writeIf ok (m.records.remove key))
  | .deleteIfVersion key expected =>
    let ok := decide (m.records.version key = some expected)
    (.bool ok, m.writeIf ok (m.records.remove key))
  | .get key => (.value ((m.records key).map Prod.fst), m)
  | .getRecord key => (.record (m.records key), m)
  | .getVersion key => (.version (m.records.version key), m)

def run (m : RefMap) : List Call → List Reply
  | [] => []
  | c :: cs => (m.call c).1 :: (m.call c).2.run cs

end RefMap

/-! ## The tree answers as the map does -/

section Refinement

variable {root : BlobGuid} {supply : GuidSupply root} {T : Tree} {m : RefMap}

/-- The tree and the map are at the same point. -/
def Tree.Refines (supply : GuidSupply root) (T : Tree) (m : RefMap) : Prop :=
  T.Shows supply m.records ∧ T.nextSeq = m.nextSeq

theorem putInnerConditional_refines (h : T.Refines supply m) (key value : List UInt8)
    (condition : InsertCondition) :
    Sat (putInnerConditional supply key value condition) T
      (fun out T' => out.mutated = condition.holds (m.records.version key) ∧
        T'.Refines supply (m.writeIf out.mutated (m.records.put key value m.nextSeq)))
      (fun er _ => er ≠ .diverged) := by
  obtain ⟨hm, hs⟩ := h
  refine (putInnerConditional_sat hm key value condition).mono (fun out T' hT => ?_)
    fun _ _ he => he.1
  obtain ⟨hout, hm', hs'⟩ := hT
  rw [hs] at hm' hs'
  exact ⟨hout, hm', hs'⟩

theorem deleteInnerConditional_refines (h : T.Refines supply m) (key : List UInt8)
    (condition : EraseCondition) :
    Sat (deleteInnerConditional root key condition) T
      (fun out T' => out.mutated = condition.holds (m.records.version key) ∧
        T'.Refines supply (m.writeIf out.mutated (m.records.remove key)))
      (fun er _ => er ≠ .diverged) := by
  obtain ⟨hm, hs⟩ := h
  refine (deleteInnerConditional_sat hm key condition).mono (fun out T' hT => ?_)
    fun _ _ he => he.1
  obtain ⟨hout, hm', hs'⟩ := hT
  rw [hs] at hs'
  exact ⟨hout, hm', hs'⟩

theorem call_refines (h : T.Refines supply m) (c : Call) :
    Sat (Tree.call supply c) T (fun r T' => r = (m.call c).1 ∧ T'.Refines supply (m.call c).2)
      (fun er _ => er ≠ .diverged) := by
  cases c with
  | put key value =>
    simp only [Tree.call, put, sat_map]
    refine (putInnerConditional_refines h key value .always).mono ?_ fun _ _ he => he
    rintro out T' ⟨hout, hT⟩
    rw [hout] at hT
    exact ⟨rfl, hT⟩
  | putIfAbsent key value =>
    simp only [Tree.call, putIfAbsent, sat_map]
    refine (putInnerConditional_refines h key value .ifAbsent).mono ?_ fun _ _ he => he
    rintro out T' ⟨hout, hT⟩
    have hok : out.mutated = (m.records key).isNone := by
      rw [hout, InsertCondition.holds, Contents.version, Option.isNone_map]
    rw [hok] at hT ⊢
    exact ⟨rfl, hT⟩
  | compareAndPut key expected value =>
    simp only [Tree.call, compareAndPut, sat_map]
    refine (putInnerConditional_refines h key value (.ifVersion expected)).mono ?_
      fun _ _ he => he
    rintro out T' ⟨hout, hT⟩
    rw [hout] at hT ⊢
    exact ⟨rfl, hT⟩
  | delete key =>
    simp only [Tree.call, delete, sat_map]
    refine (deleteInnerConditional_refines h key .always).mono ?_ fun _ _ he => he
    rintro out T' ⟨hout, hT⟩
    have hok : out.mutated = (m.records key).isSome := by
      rw [hout, EraseCondition.holds, Contents.version, Option.isSome_map]
    rw [hok] at hT ⊢
    exact ⟨rfl, hT⟩
  | deleteIfVersion key expected =>
    simp only [Tree.call, deleteIfVersion, sat_map]
    refine (deleteInnerConditional_refines h key (.ifVersion expected)).mono ?_
      fun _ _ he => he
    rintro out T' ⟨hout, hT⟩
    rw [hout] at hT ⊢
    exact ⟨rfl, hT⟩
  | get key =>
    simp only [Tree.call, getValue, sat_map]
    refine (lookupRecord_sat h.1 key).mono ?_ fun _ _ he => he
    rintro r T' ⟨rfl, hT, hs⟩
    exact ⟨rfl, hT, hs.trans h.2⟩
  | getRecord key =>
    simp only [Tree.call, getRecord, sat_map]
    refine (lookupRecord_sat h.1 key).mono ?_ fun _ _ he => he
    rintro r T' ⟨rfl, hT, hs⟩
    exact ⟨rfl, hT, hs.trans h.2⟩
  | getVersion key =>
    simp only [Tree.call, sat_map]
    refine (getVersion_sat h.1 key).mono ?_ fun _ _ he => he
    rintro r T' ⟨rfl, hT, hs⟩
    exact ⟨rfl, hT, hs.trans h.2⟩

theorem run_refines (h : T.Refines supply m) (calls : List Call) :
    Sat (Tree.run supply calls) T (fun replies _ => replies = m.run calls)
      (fun er _ => er ≠ .diverged) := by
  induction calls generalizing T m with
  | nil => exact .pure rfl
  | cons c cs ih =>
    refine (call_refines h c).andThen fun r T' hr => ?_
    refine (ih hr.2).andThen fun rs T'' hrs => ?_
    rw [sat_pure, hr.1, hrs]
    rfl

/-- From an empty tree, every run in which no call fails answers as the map does; and a call
that fails does return. -/
theorem tree_refines_map (supply : GuidSupply root) (journalled flush : Bool)
    (calls : List Call) :
    ∃ T, openTree root journalled flush = .ok T ∧
      (∀ replies T', Tree.run supply calls T = .ok replies T' → replies = RefMap.empty.run calls) ∧
      ∀ err T', Tree.run supply calls T = .error err T' → err ≠ .diverged := by
  obtain ⟨T, hopen, hm, hs, -⟩ := openTree_shows supply journalled flush
  have hrun := run_refines (m := .empty) ⟨hm, hs⟩ calls
  exact ⟨T, hopen, fun replies T' hok => hrun.of_ok hok, fun err T' herr => hrun.of_error herr⟩

end Refinement

end Holt
