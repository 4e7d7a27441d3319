import Holt.Layout
import Holt.Lib.Bytes
import Holt.Lib.SortedAssoc
import Holt.Lib.Wire
import Mathlib.Data.List.Lex

/-! The catalog of a database: a tree of its own whose records say which named trees there are,
which of them are being dropped, and what number the next tree gets. -/

namespace Holt.Database

open Holt.Lib

abbrev TreeName := List UInt8

def dbRootTag : UInt8 := 0xDB
def dbCatalogTreeId : Nat := 0x686f6c7464620001
def firstUserTreeId : Nat := 1

/-- `"\0next-tree-id"`. -/
def catalogNextTreeIdKey : List UInt8 :=
  [0, 110, 101, 120, 116, 45, 116, 114, 101, 101, 45, 105, 100]

/-- `"holtdb02"`. -/
def catalogValueMagic : List UInt8 := [104, 111, 108, 116, 100, 98, 48, 50]

/-- `"holtnx02"`. -/
def catalogNextIdMagic : List UInt8 := [104, 111, 108, 116, 110, 120, 48, 50]

def catalogStateLive : UInt8 := 1
def catalogStateDropping : UInt8 := 2
def catalogValueLen : Nat := 17
def catalogNextIdLen : Nat := 16

inductive CatalogState
  | live
  | dropping
  deriving DecidableEq, Repr

structure CatalogEntry where
  treeId : Nat
  state : CatalogState
  deriving DecidableEq, Repr

/-- What the calls of a database fail with; `engine` is a failure below it. -/
inductive DbError
  | engine (e : Error)
  | invalidTreeName (reason : String)
  | treeNotFound (name : TreeName)
  | treeExists (name : TreeName)
  | treeDropped
  deriving DecidableEq, Repr

/-! ## Names and values -/

def validateTreeName (name : TreeName) : Except DbError Unit :=
  if name = [] then .error (.invalidTreeName "empty")
  else if name.head? = some 0 then .error (.invalidTreeName "reserved prefix")
  else .ok ()

/-- `"holt-db"` and the tag follow the number of the tree. -/
def rootGuidForTreeId (treeId : Nat) : List UInt8 :=
  leBytes 8 treeId ++ ([104, 111, 108, 116, 45, 100, 98] ++ [dbRootTag])

def CatalogState.byte : CatalogState → UInt8
  | .live => catalogStateLive
  | .dropping => catalogStateDropping

def encodeCatalogValue (entry : CatalogEntry) : List UInt8 :=
  catalogValueMagic ++ ([entry.state.byte] ++ leBytes 8 entry.treeId)

def decodeState (byte : UInt8) : Except DbError CatalogState :=
  if byte = catalogStateLive then .ok .live
  else if byte = catalogStateDropping then .ok .dropping
  else .error (.engine (.corrupt "db catalog state"))

/-- Zero and the catalog's own number are no numbers of user trees. -/
def decodeTreeId (context : String) (raw : List UInt8) : Except DbError Nat :=
  if leNat raw = 0 ∨ leNat raw = dbCatalogTreeId then .error (.engine (.corrupt context))
  else .ok (leNat raw)

def decodeCatalogValue (value : List UInt8) : Except DbError CatalogEntry :=
  if value.length ≠ catalogValueLen ∨ slice value 0 8 ≠ catalogValueMagic then
    .error (.engine (.corrupt "db catalog value"))
  else do
    let state ← decodeState (value.getD 8 0)
    let treeId ← decodeTreeId "db catalog tree id" (slice value 9 17)
    pure ⟨treeId, state⟩

def encodeNextTreeId (treeId : Nat) : List UInt8 := catalogNextIdMagic ++ leBytes 8 treeId

def decodeNextTreeId (value : List UInt8) : Except DbError Nat :=
  if value.length ≠ catalogNextIdLen ∨ slice value 0 8 ≠ catalogNextIdMagic then
    .error (.engine (.corrupt "db catalog next tree id"))
  else decodeTreeId "db catalog next tree id" (slice value 8 16)

/-- `checked_add` on 64 bits. -/
def checkedSucc (n : Nat) : Except DbError Nat :=
  if n + 1 < 2 ^ 64 then .ok (n + 1)
  else .error (.engine (.internal "DB tree id space exhausted"))

/-- The number after `treeId`, past the catalog's own. -/
def nextAllocatedTreeId (treeId : Nat) : Except DbError Nat := do
  let next ← checkedSucc treeId
  if next = dbCatalogTreeId then checkedSucc next else pure next

/-- A number that a user tree can have. -/
def UserTreeId (id : Nat) : Prop := id ≠ 0 ∧ id ≠ dbCatalogTreeId ∧ id < 2 ^ 64

theorem catalogNextTreeIdKey_invalid : validateTreeName catalogNextTreeIdKey ≠ .ok () := by decide

theorem decodeTreeId_leBytes (context : String) {id : Nat} (h : UserTreeId id) :
    decodeTreeId context (leBytes 8 id) = .ok id := by
  obtain ⟨hzero, hcatalog, hlt⟩ := h
  rw [decodeTreeId, leNat_leBytes (by simpa using hlt), if_neg (by simp [hzero, hcatalog])]

/-- The number of a tree can be read off its root. -/
theorem rootGuidForTreeId_inj {id id' : Nat} (h : id < 2 ^ 64) (h' : id' < 2 ^ 64)
    (he : rootGuidForTreeId id = rootGuidForTreeId id') : id = id' := by
  have hbytes : leBytes 8 id = leBytes 8 id' :=
    (List.append_inj he (by rw [length_leBytes, length_leBytes])).1
  rw [← leNat_leBytes (show id < 256 ^ 8 from h), hbytes,
    leNat_leBytes (show id' < 256 ^ 8 from h')]

theorem decodeState_byte (state : CatalogState) : decodeState state.byte = .ok state := by
  cases state <;> rfl

theorem decodeCatalogValue_encode {entry : CatalogEntry} (h : UserTreeId entry.treeId) :
    decodeCatalogValue (encodeCatalogValue entry) = .ok entry := by
  have hlen : (encodeCatalogValue entry).length = catalogValueLen := by
    simp [encodeCatalogValue, catalogValueMagic, catalogValueLen]
  have hmagic : slice (encodeCatalogValue entry) 0 8 = catalogValueMagic :=
    slice_field [] catalogValueMagic _ rfl rfl
  have hstate : (encodeCatalogValue entry).getD 8 0 = entry.state.byte := rfl
  have hid : slice (encodeCatalogValue entry) 9 17 = leBytes 8 entry.treeId := by
    have hfield : slice (catalogValueMagic ++ [entry.state.byte] ++ (leBytes 8 entry.treeId ++ []))
        9 17 = leBytes 8 entry.treeId := slice_field _ _ [] rfl (by simp [catalogValueMagic])
    simpa [encodeCatalogValue] using hfield
  rw [decodeCatalogValue, if_neg (by simp [hlen, hmagic]), hstate, hid, decodeState_byte,
    decodeTreeId_leBytes _ h]
  rfl

theorem decodeNextTreeId_encode {id : Nat} (h : UserTreeId id) :
    decodeNextTreeId (encodeNextTreeId id) = .ok id := by
  have hlen : (encodeNextTreeId id).length = catalogNextIdLen := by
    simp [encodeNextTreeId, catalogNextIdMagic, catalogNextIdLen]
  have hmagic : slice (encodeNextTreeId id) 0 8 = catalogNextIdMagic :=
    slice_field [] catalogNextIdMagic _ rfl rfl
  have hid : slice (encodeNextTreeId id) 8 16 = leBytes 8 id := by
    have hfield : slice (catalogNextIdMagic ++ (leBytes 8 id ++ [])) 8 16 = leBytes 8 id :=
      slice_field _ _ [] rfl (by simp [catalogNextIdMagic])
    simpa [encodeNextTreeId] using hfield
  rw [decodeNextTreeId, if_neg (by simp [hlen, hmagic]), hid, decodeTreeId_leBytes _ h]

theorem checkedSucc_eq {n m : Nat} (h : checkedSucc n = .ok m) : m = n + 1 ∧ m < 2 ^ 64 := by
  unfold checkedSucc at h
  split at h
  · cases h
    exact ⟨rfl, ‹_›⟩
  · cases h

theorem nextAllocatedTreeId_spec {id next : Nat} (h : nextAllocatedTreeId id = .ok next) :
    id < next ∧ UserTreeId next := by
  unfold nextAllocatedTreeId at h
  cases hs : checkedSucc id with
  | error err =>
    rw [hs] at h
    cases h
  | ok succ =>
    obtain ⟨rfl, hlt⟩ := checkedSucc_eq hs
    rw [hs] at h
    have h' : (if id + 1 = dbCatalogTreeId then checkedSucc (id + 1) else .ok (id + 1))
        = .ok next := h
    split at h'
    · rename_i hcatalog
      obtain ⟨rfl, hlt'⟩ := checkedSucc_eq h'
      exact ⟨by omega, by omega, by omega, hlt'⟩
    · rename_i hcatalog
      cases h'
      exact ⟨by omega, by omega, hcatalog, hlt⟩

theorem UserTreeId.of_decode {value : List UInt8} {entry : CatalogEntry}
    (h : decodeCatalogValue value = .ok entry) : UserTreeId entry.treeId := by
  unfold decodeCatalogValue at h
  split at h
  · cases h
  · rename_i hshape
    push Not at hshape
    have hraw : (slice value 9 17).length = 8 := by
      rw [slice, List.length_take, List.length_drop, hshape.1]
      rfl
    have hlt := leNat_lt (slice value 9 17)
    rw [hraw] at hlt
    cases hs : decodeState (value.getD 8 0) with
    | error err =>
      rw [hs] at h
      cases h
    | ok state =>
      rw [hs] at h
      unfold decodeTreeId at h
      by_cases hno : leNat (slice value 9 17) = 0 ∨ leNat (slice value 9 17) = dbCatalogTreeId
      · rw [if_pos hno] at h
        cases h
      · rw [if_neg hno] at h
        cases h
        push Not at hno
        exact ⟨hno.1, hno.2, hlt⟩

/-! ## The records -/

/-- The records of the catalog tree, in key order. -/
structure Catalog where
  records : List (List UInt8 × List UInt8)
  ascending : Ascending records

namespace Catalog

variable (c : Catalog)

def empty : Catalog := ⟨[], List.Pairwise.nil⟩

def get (key : List UInt8) : Option (List UInt8) := scanAsc key c.records

def put (key value : List UInt8) : Catalog :=
  ⟨assign key value c.records, c.ascending.assign key value⟩

def delete (key : List UInt8) : Catalog := ⟨discard key c.records, c.ascending.discard key⟩

/-- The record a scan finds next. -/
def next (cursor : Option (List UInt8)) : Option (List UInt8 × List UInt8) :=
  firstAfter cursor c.records

/-- The entry of a name, if its value can be read. -/
def entry (name : TreeName) : Option CatalogEntry :=
  (c.get name).bind fun value => (decodeCatalogValue value).toOption

def nextTreeId : Except DbError Nat :=
  match c.get catalogNextTreeIdKey with
  | none => .ok firstUserTreeId
  | some value => decodeNextTreeId value

@[simp]
theorem get_put (key value k : List UInt8) :
    (c.put key value).get k = if k = key then some value else c.get k := by
  rw [get, get, scanAsc_eq_lookup (c.put key value).ascending, scanAsc_eq_lookup c.ascending, put,
    lookup_assign]
  congr

@[simp]
theorem get_delete (key k : List UInt8) :
    (c.delete key).get k = if k = key then none else c.get k := by
  rw [get, get, scanAsc_eq_lookup (c.delete key).ascending, scanAsc_eq_lookup c.ascending, delete,
    lookup_discard]
  congr

theorem get_of_mem {e : List UInt8 × List UInt8} (h : e ∈ c.records) : c.get e.1 = some e.2 :=
  scanAsc_of_mem c.ascending h

theorem mem_of_get {key value : List UInt8} (h : c.get key = some value) :
    (key, value) ∈ c.records :=
  mem_of_scanAsc c.ascending h

theorem get_next {cursor : Option (List UInt8)} {e : List UInt8 × List UInt8}
    (h : c.next cursor = some e) : c.get e.1 = some e.2 :=
  c.get_of_mem (mem_of_firstAfter h)

theorem entry_of_get {name : TreeName} {value : List UInt8} {entry : CatalogEntry}
    (h : c.get name = some value) (hd : decodeCatalogValue value = .ok entry) :
    c.entry name = some entry := by
  rw [Catalog.entry, h, Option.bind_some, hd]
  rfl

theorem entry_put (name n : TreeName) {entry : CatalogEntry} (h : UserTreeId entry.treeId) :
    (c.put name (encodeCatalogValue entry)).entry n =
      if n = name then some entry else c.entry n := by
  by_cases hn : n = name
  · rw [if_pos hn]
    exact entry_of_get _ (by rw [get_put, if_pos hn]) (decodeCatalogValue_encode h)
  · rw [if_neg hn, Catalog.entry, get_put, if_neg hn, Catalog.entry]

theorem entry_put_other {key n : List UInt8} (value : List UInt8) (h : n ≠ key) :
    (c.put key value).entry n = c.entry n := by
  rw [Catalog.entry, get_put, if_neg h, Catalog.entry]

theorem entry_delete (name n : TreeName) :
    (c.delete name).entry n = if n = name then none else c.entry n := by
  rw [Catalog.entry, get_delete]
  split
  · rfl
  · rw [Catalog.entry]

theorem nextTreeId_put_other {key : List UInt8} (value : List UInt8)
    (h : key ≠ catalogNextTreeIdKey) : (c.put key value).nextTreeId = c.nextTreeId := by
  rw [nextTreeId, get_put, if_neg (Ne.symm h), nextTreeId]

theorem nextTreeId_delete_other {key : List UInt8} (h : key ≠ catalogNextTreeIdKey) :
    (c.delete key).nextTreeId = c.nextTreeId := by
  rw [nextTreeId, get_delete, if_neg (Ne.symm h), nextTreeId]

theorem nextTreeId_put {id : Nat} (h : UserTreeId id) :
    (c.put catalogNextTreeIdKey (encodeNextTreeId id)).nextTreeId = .ok id := by
  rw [nextTreeId, get_put, if_pos rfl]
  exact decodeNextTreeId_encode h

end Catalog

end Holt.Database
