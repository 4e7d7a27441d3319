import Holt.Key
import Holt.Layout

/-! The tree inside one blob, without slots or bytes: what a node is, where a key leads, and
what insertion, erasure and compaction do to it. -/

namespace Holt

open Holt.Lib

inductive InsertCondition
  | always
  | ifAbsent
  | ifVersion (expected : Nat)
  deriving DecidableEq, Repr

inductive EraseCondition
  | always
  | ifVersion (expected : Nat)
  deriving DecidableEq, Repr

/-- A leaf's content; `key` is the stored key, terminator included. -/
structure Record where
  key : List UInt8
  value : List UInt8
  seq : Nat
  tombstone : Bool
  deriving DecidableEq, Repr

/-- A tree of one blob. An inner node has a child for each byte of `has`; the other values
of `child` mean nothing. -/
inductive Art
  | emptyRoot
  | leaf (r : Record)
  | pfx (bytes : List UInt8) (child : Art)
  | inner (has : UInt8 → Bool) (child : UInt8 → Art)
  | blob (bytes : List UInt8) (guid : BlobGuid)

/-- Where a key leads inside one blob. -/
inductive Target
  | absent
  | leaf (r : Record)
  | crossing (guid : BlobGuid) (depth : Nat)
  deriving DecidableEq, Repr

/-- A tombstoned leaf counts as absent. -/
def Target.live : Target → Target
  | .leaf r => if r.tombstone then .absent else .leaf r
  | t => t

theorem Target.live_live (x : Target) : x.live.live = x.live := by
  cases x with
  | leaf r => cases h : r.tombstone <;> simp [Target.live, h]
  | _ => rfl

namespace InsertCondition

def isVersion : InsertCondition → Bool
  | .ifVersion _ => true
  | _ => false

/-- Whether a write guarded by the condition may replace the leaf `r`. -/
def admits (c : InsertCondition) (r : Record) : Bool :=
  if r.tombstone then !c.isVersion
  else
    match c with
    | .always => true
    | .ifVersion expected => r.seq = expected
    | .ifAbsent => false

def admitsTarget (c : InsertCondition) : Target → Bool
  | .absent => !c.isVersion
  | .leaf r => c.admits r
  | .crossing _ _ => false

theorem admitsTarget_live (c : InsertCondition) (t : Target) :
    c.admitsTarget t.live = c.admitsTarget t := by
  cases t with
  | leaf r => cases h : r.tombstone <;> simp [Target.live, admitsTarget, admits, h]
  | _ => rfl

end InsertCondition

namespace EraseCondition

def admits (c : EraseCondition) (r : Record) : Bool :=
  if r.tombstone then false
  else
    match c with
    | .always => true
    | .ifVersion expected => r.seq = expected

def admitsTarget (c : EraseCondition) : Target → Bool
  | .leaf r => c.admits r
  | _ => false

theorem admitsTarget_live (c : EraseCondition) (t : Target) :
    c.admitsTarget t.live = c.admitsTarget t := by
  cases t with
  | leaf r => cases h : r.tombstone <;> simp [Target.live, admitsTarget, admits, h]
  | _ => rfl

end EraseCondition

namespace Art

/-- Whether `bytes` comes next in the key. -/
def Next (k : List UInt8) (d : Nat) (bytes : List UInt8) : Prop :=
  d ≤ k.length ∧ bytes <+: k.drop d

instance (k : List UInt8) (d : Nat) (bytes : List UInt8) : Decidable (Next k d bytes) :=
  inferInstanceAs (Decidable (_ ∧ _))

theorem rangeEq_eq_next (key : SearchKey) (d : Nat) (bytes : List UInt8) :
    key.rangeEq d bytes = decide (Next key.full d bytes) := by
  rw [Bool.eq_iff_iff, key.rangeEq_iff, decide_eq_true_iff, Next, SearchKey.length_full]

def target : Art → List UInt8 → Nat → Target
  | .emptyRoot, _, _ => .absent
  | .leaf r, k, _ => if r.key = k then .leaf r else .absent
  | .pfx bytes child, k, d =>
    if Next k d bytes then child.target k (d + bytes.length) else .absent
  | .inner has child, k, d =>
    match k[d]? with
    | none => .absent
    | some b => if has b then (child b).target k (d + 1) else .absent
  | .blob bytes guid, k, d => if Next k d bytes then .crossing guid (d + bytes.length) else .absent

/-- A tree that hangs at path `π`: every leaf's key goes on from there and inline prefixes
fit their arrays. -/
def Wf : List UInt8 → Art → Prop
  | _, .emptyRoot => True
  | π, .leaf r => π <+: r.key
  | π, .pfx bytes child => bytes ≠ [] ∧ bytes.length ≤ prefixMaxInline ∧ Wf (π ++ bytes) child
  | π, .inner has child => ∀ b, has b = true → Wf (π ++ [b]) (child b)
  | _, .blob bytes _ => bytes.length ≤ blobMaxInline

/-- Nodes on the longest way down. -/
def height : Art → Nat
  | .pfx _ child => child.height + 1
  | .inner has child =>
    (allBytes.map fun b => if has b then (child b).height else 0).foldr max 0 + 1
  | _ => 1

theorem foldr_max_le_iff {l : List Nat} {m : Nat} : l.foldr max 0 ≤ m ↔ ∀ x ∈ l, x ≤ m := by
  induction l with
  | nil => simp
  | cons x l ih =>
    rw [List.foldr_cons, List.forall_mem_cons, ← ih]
    exact Nat.max_le

theorem height_child {has : UInt8 → Bool} (child : UInt8 → Art) {b : UInt8} (hb : has b = true) :
    (child b).height < (inner has child).height := by
  have h := (foldr_max_le_iff (l := allBytes.map fun b => if has b then (child b).height else 0)).mp
    le_rfl (child b).height (List.mem_map.mpr ⟨b, mem_allBytes b, by simp [hb]⟩)
  simp only [height]
  omega

/-! ## Insertion -/

/-- A chain of prefix nodes over `bytes`, full chunks nearest the child. -/
def chainN : Nat → List UInt8 → Art → Art
  | 0, _, child => child
  | n + 1, bytes, child =>
    if bytes = [] then child
    else
      let start := bytes.length - min bytes.length prefixMaxInline
      chainN n (bytes.take start) (.pfx (bytes.drop start) child)

def chain (bytes : List UInt8) (child : Art) : Art := chainN bytes.length bytes child

/-- A node with two children. -/
def branch (b₁ : UInt8) (t₁ : Art) (b₂ : UInt8) (t₂ : Art) : Art :=
  .inner (fun b => b = b₁ ∨ b = b₂) (fun b => if b = b₁ then t₁ else t₂)

inductive InsertResult
  | done (t : Art) (mutated : Bool)
  | crossing (guid : BlobGuid) (depth : Nat)
  | fail (context : String)

namespace InsertResult

/-- Rebuild the parent around a changed child. -/
def mapDone (f : Art → Art) : InsertResult → InsertResult
  | .done t mutated => .done (f t) mutated
  | r => r

end InsertResult

/-- Put the record `new` under the guard `cond`; the answer is the new tree, the blob to go
on in, or the key shape that is refused. -/
def insert (new : Record) (cond : InsertCondition) : Art → Nat → InsertResult
  | .emptyRoot, _ =>
    if cond.isVersion then .done .emptyRoot false else .done (.leaf new) true
  | .leaf r, d =>
    if r.key = new.key then
      if cond.admits r then .done (.leaf new) true else .done (.leaf r) false
    else
      let c := longestCommonPrefix (new.key.drop d) (r.key.drop d)
      if c = r.key.length - d ∨ c = new.key.length - d then
        .fail "walker::insert_into_leaf: one key is a strict prefix of the other"
      else if cond.isVersion then .done (.leaf r) false
      else
        .done (chain ((r.key.drop d).take c)
          (branch (r.key.getD (d + c) 0) (.leaf r) (new.key.getD (d + c) 0) (.leaf new))) true
  | .pfx bytes child, d =>
    let c := longestCommonPrefix (new.key.drop d) bytes
    if c = bytes.length then
      (insert new cond child (d + bytes.length)).mapDone (.pfx bytes)
    else if new.key.length ≤ d + c then
      .fail "walker::insert_into_prefix: key terminates inside a prefix"
    else if cond.isVersion then .done (.pfx bytes child) false
    else
      .done (chain (bytes.take c)
        (branch (bytes.getD c 0) (chain (bytes.drop (c + 1)) child)
          (new.key.getD (d + c) 0) (.leaf new))) true
  | .inner has child, d =>
    match new.key[d]? with
    | none => .fail "walker::insert_into_inner: key terminates at an inner node"
    | some b =>
      if has b then
        (insert new cond (child b) (d + 1)).mapDone
          (fun t => .inner has (Function.update child b t))
      else if cond.isVersion then .done (.inner has child) false
      else .done (.inner (Function.update has b true) (Function.update child b (.leaf new))) true
  | .blob bytes guid, d =>
    let c := longestCommonPrefix (new.key.drop d) bytes
    if c = bytes.length then .crossing guid (d + bytes.length)
    else
      match new.key[d + c]? with
      | none => .fail "blob_node_insert_step: key terminates inside BlobNode prefix"
      | some b =>
        if cond.isVersion then .done (.blob bytes guid) false
        else
          .done (chain (bytes.take c)
            (branch (bytes.getD c 0) (.blob (bytes.drop (c + 1)) guid) b (.leaf new))) true

/-! ## Erasure and compaction -/

inductive EraseResult
  | done (t : Art) (mutated : Bool)
  | crossing (guid : BlobGuid) (depth : Nat)

def EraseResult.mapDone (f : Art → Art) : EraseResult → EraseResult
  | .done t mutated => .done (f t) mutated
  | r => r

def erase (k : List UInt8) (cond : EraseCondition) : Art → Nat → EraseResult
  | .emptyRoot, _ => .done .emptyRoot false
  | .leaf r, _ =>
    if r.key = k ∧ cond.admits r then .done (.leaf { r with tombstone := true }) true
    else .done (.leaf r) false
  | .pfx bytes child, d =>
    if Next k d bytes then (erase k cond child (d + bytes.length)).mapDone (.pfx bytes)
    else .done (.pfx bytes child) false
  | .inner has child, d =>
    match k[d]? with
    | none => .done (.inner has child) false
    | some b =>
      if has b then
        (erase k cond (child b) (d + 1)).mapDone
          (fun t => .inner has (Function.update child b t))
      else .done (.inner has child) false
  | .blob bytes guid, d =>
    if Next k d bytes then .crossing guid (d + bytes.length) else .done (.blob bytes guid) false

/-- Drop tombstones. An inner node left with one child becomes a one-byte prefix. -/
def prune : Art → Option Art
  | .emptyRoot => some .emptyRoot
  | .leaf r => if r.tombstone then none else some (.leaf r)
  | .pfx bytes child => child.prune.map (.pfx bytes)
  | .inner has child =>
    let alive := fun b => has b && (child b).prune.isSome
    match allBytes.filter alive with
    | [] => none
    | [b] => (child b).prune.map (.pfx [b])
    | _ => some (.inner alive fun b => (child b).prune.getD .emptyRoot)
  | .blob bytes guid => some (.blob bytes guid)

end Art

end Holt
