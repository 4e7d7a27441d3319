import Holt.Walker.Engine
import Mathlib.Data.List.Lex

/-! The range cursor. A step is what the cursor does between two looks at a latched blob, so a
writer may come in between any two steps. -/

namespace Holt

open Holt.Lib

/-- `value` is there when the caller asked for records and not for keys only. -/
inductive RangeEntry
  | key (key : List UInt8) (value : Option (List UInt8)) (version : Nat)
  | commonPrefix (bytes : List UInt8)
  deriving DecidableEq, Repr

inductive RangeProjection
  | records
  | keysOnly
  deriving DecidableEq, Repr

/-! ## Bounds -/

/-- The first key after every key that starts with `key`; nothing comes after a row of 0xFF. -/
def successor : List UInt8 → Option (List UInt8)
  | [] => none
  | b :: bs =>
    match successor bs with
    | some s => some (b :: s)
    | none => if b = 255 then none else some [b + 1]

structure LowerBound where
  key : List UInt8
  inclusive : Bool
  deriving DecidableEq, Repr

namespace LowerBound

def exclusive (key : List UInt8) : LowerBound := ⟨key, false⟩

def allows (bound : LowerBound) (key : List UInt8) : Bool :=
  if bound.inclusive then bound.key ≤ key else bound.key < key

/-- Move the bound past everything that starts with `key`; false when nothing comes after. -/
def setInclusiveSuccessor (bound : LowerBound) (key : List UInt8) : LowerBound × Bool :=
  match successor key with
  | some s => (⟨s, true⟩, true)
  | none => ({ bound with key }, false)

end LowerBound

/-- Whether a key has come to the end of the successor of a prefix, byte by byte. -/
def atOrPast : List UInt8 → List UInt8 → Bool
  | _, [] => true
  | [], _ :: _ => false
  | k :: ks, s :: ss => if k ≠ s then s < k else atOrPast ks ss

def keyAtOrPastPrefixSuccessor (key bytes : List UInt8) : Bool :=
  match successor bytes with
  | none => false
  | some s => atOrPast key s

inductive SeekStart
  | none
  | empty
  | keyPrefix
  | lowerBound
  deriving DecidableEq, Repr

inductive SeekRelation
  | seeking
  | min
  | skip
  deriving DecidableEq, Repr

/-- How the keys below `path` lie to `target`. -/
def pathSeekRelation (path target : List UInt8) : SeekRelation :=
  let common := longestCommonPrefix path target
  if common = path.length ∧ path.length < target.length then .seeking
  else if common = min path.length target.length then
    if target.length ≤ path.length then .min else .skip
  else if target.getD common 0 ≤ path.getD common 0 then .min
  else .skip

inductive SegmentRelation
  | goOn
  | min
  | skip
  deriving DecidableEq, Repr

def segmentSeekRelation (path segment target : List UInt8) : SegmentRelation :=
  match pathSeekRelation path target with
  | .skip => .skip
  | .min => .min
  | .seeking =>
    let remaining := target.drop path.length
    let common := longestCommonPrefix segment remaining
    if common < min segment.length remaining.length then
      if segment.getD common 0 < remaining.getD common 0 then .skip else .min
    else if segment.length < remaining.length then .goOn
    else .min

inductive PrefixFilterRelation
  | hit
  | before
  | past
  deriving DecidableEq, Repr

def prefixFilterRelation (key bytes : List UInt8) : PrefixFilterRelation :=
  if bytes.isEmpty then .hit
  else
    let common := longestCommonPrefix key bytes
    if common = bytes.length then .hit
    else if common = min key.length bytes.length ∨ key.getD common 0 < bytes.getD common 0 then
      .before
    else .past

/-- The first position of `needle` at or after `start`. -/
def findByte (haystack : List UInt8) (needle : UInt8) (start : Nat) : Option Nat :=
  ((haystack.drop start).idxOf? needle).map (start + ·)

/-! ## Leaves and inner nodes -/

/-- The stored key without its terminator. -/
def userKey (stored : List UInt8) : List UInt8 :=
  if stored.getLast? = some 0 then stored.dropLast else stored

inductive LeafAction
  | skip
  | done
  | emit (entry : RangeEntry)
  deriving DecidableEq, Repr

def leafRecord (F : Frame) (l : Leaf) :
    RangeProjection → Except Error (List UInt8 × Option (List UInt8))
  | .records => (leafExtent F l).map fun (key, offset, len) => (key, F.bytesAt offset len)
  | .keysOnly => (leafKeyExtent F l).map fun key => (key, none)

def projectRangeLeaf (F : Frame) (slot : Slot) (keyPrefix : List UInt8)
    (lowerBound : Option LowerBound) (delimiter : Option UInt8) (projection : RangeProjection) :
    Except Error LeafAction :=
  match F.bodyOfSlot slot with
  | some (.leaf l) =>
    if l.tombstone then .ok .skip
    else
      match leafRecord F l projection with
      | .error err => .error err
      | .ok (stored, value) =>
        let key := userKey stored
        match prefixFilterRelation key keyPrefix with
        | .before => .ok .skip
        | .past => .ok .done
        | .hit =>
          if lowerBound.any fun bound => !bound.allows key then .ok .skip
          else
            match delimiter.bind fun d => findByte key d keyPrefix.length with
            | some pos => .ok (.emit (.commonPrefix (key.take (pos + 1))))
            | none => .ok (.emit (.key key value l.seq))
  | _ => .error (.corrupt "project_range_leaf: body")

/-- The first used byte of a node of 48 at or after `start`. -/
def nextNode48 (n : Node48) (start : Nat) (context : String) :
    Except Error (Option (UInt8 × Slot × Nat)) :=
  match allBytes.find? fun b => start ≤ b.toNat ∧ n.index b ≠ 0 with
  | none => .ok none
  | some b =>
    if 48 ≤ n.index b - 1 then .error (.corrupt context)
    else .ok (some (b, n.children (n.index b - 1), b.toNat + 1))

def nextNode256 (n : Node256) (start : Nat) : Option (UInt8 × Slot × Nat) :=
  (allBytes.find? fun b => start ≤ b.toNat ∧ n.children b ≠ 0).map fun b =>
    (b, n.children b, b.toNat + 1)

/-- The next child from cursor position `start`, and the cursor position after it: an index in a
node of 4 or 16, a byte in the larger kinds. -/
def nextInnerChildFrom (F : Frame) (slot : Slot) (ntype : NodeType) (start : Nat) :
    Except Error (Option (UInt8 × Slot × Nat)) :=
  match readInner F slot ntype "range::next_inner_child" with
  | .error err => .error err
  | .ok (.node4 es) => .ok (es[start]?.map fun e => (e.1, e.2, start + 1))
  | .ok (.node16 es) => .ok (es[start]?.map fun e => (e.1, e.2, start + 1))
  | .ok (.node48 n) =>
    nextNode48 n start "range::next_inner_child: Node48 index out of range"
  | .ok (.node256 n) => .ok (nextNode256 n start)

/-- The first entry from `start` on whose byte is at least `least`. -/
def nextEntry (es : List (UInt8 × Slot)) (start : Nat) (least : UInt8) :
    Option (UInt8 × Slot × Nat) :=
  (es.zipIdx.find? fun e => start ≤ e.2 ∧ least ≤ e.1.1).map fun e => (e.1.1, e.1.2, e.2 + 1)

/-- The same, with children below `least` left out. -/
def nextInnerChildGe (F : Frame) (slot : Slot) (ntype : NodeType) (start : Nat)
    (least : Option UInt8) : Except Error (Option (UInt8 × Slot × Nat)) :=
  match readInner F slot ntype "range::next_inner_child_ge" with
  | .error err => .error err
  | .ok (.node4 es) => .ok (nextEntry es start (least.getD 0))
  | .ok (.node16 es) => .ok (nextEntry es start (least.getD 0))
  | .ok (.node48 n) =>
    nextNode48 n (max start (least.getD 0).toNat)
      "range::next_inner_child_ge: Node48 index out of range"
  | .ok (.node256 n) => .ok (nextNode256 n (max start (least.getD 0).toNat))

/-! ## The cursor -/

/-- A node on the way down. `version` is the blob's when the node was come to, `next` says how far
the node's children are used up, `pushedBytes` how much the node's edge added to the path. -/
structure RangeFrame where
  blobGuid : BlobGuid
  slot : Slot
  ntype : NodeType
  version : Nat
  next : Nat
  pushedBytes : Nat
  deriving DecidableEq, Repr

/-- `stack` has the deepest node first; `currKey` is the path to it. -/
structure RangeIter where
  rootGuid : BlobGuid
  stack : List RangeFrame
  currKey : List UInt8
  cursorFloor : Nat
  keyPrefix : List UInt8
  lowerBound : Option LowerBound
  delimiter : Option UInt8
  projection : RangeProjection
  initialized : Bool
  terminated : Bool
  deriving DecidableEq, Repr

/-- Where a call of `next` is. `pin`, `ask` and `push` are the way into a child blob; with a
`source` the cursor is still on its way to the lower bound. -/
inductive RangeStage
  | begin
  | seek (source : SeekStart)
  | advance
  | pin (source : Option SeekStart) (guid : BlobGuid) (bytes : List UInt8)
  | ask (guid : BlobGuid) (bytes : List UInt8)
  | push (source : Option SeekStart) (guid : BlobGuid) (bytes : List UInt8)
  | check (rest : List RangeFrame) (entry : RangeEntry) (fromLeaf : Bool)
  | returned (result : Option (Except Error RangeEntry))

namespace RangeIter

/-- A cursor before its first step. -/
def start (rootGuid : BlobGuid) (keyPrefix : List UInt8) (startAfter : Option (List UInt8))
    (delimiter : Option UInt8) (projection : RangeProjection) : RangeIter where
  rootGuid
  stack := []
  currKey := []
  cursorFloor := 0
  keyPrefix
  lowerBound := startAfter.map .exclusive
  delimiter
  projection
  initialized := false
  terminated := false

def effectiveSeekStart (it : RangeIter) : SeekStart :=
  match it.lowerBound with
  | none => if it.keyPrefix.isEmpty then .none else .keyPrefix
  | some bound =>
    if it.keyPrefix.isEmpty then .lowerBound
    else if bound.key < it.keyPrefix then .keyPrefix
    else if keyAtOrPastPrefixSuccessor bound.key it.keyPrefix then .empty
    else .lowerBound

def seekTarget (it : RangeIter) : SeekStart → List UInt8
  | .keyPrefix => it.keyPrefix
  | .lowerBound => (it.lowerBound.map LowerBound.key).getD []
  | _ => []

def popFrame (it : RangeIter) : RangeIter :=
  match it.stack with
  | [] => it
  | f :: fs =>
    { it with stack := fs, currKey := it.currKey.take (it.currKey.length - f.pushedBytes) }

/-- Note how far the top node is used up. -/
def setNext (it : RangeIter) (next : Nat) : RangeIter :=
  match it.stack with
  | [] => it
  | f :: fs => { it with stack := { f with next } :: fs }

def pushFrame (it : RangeIter) (guid : BlobGuid) (slot : Slot) (ntype : NodeType) (version : Nat)
    (bytes : List UInt8) : RangeIter :=
  { it with
    stack := ⟨guid, slot, ntype, version, 0, bytes.length⟩ :: it.stack
    currKey := it.currKey ++ bytes }

def restartCursor (it : RangeIter) : RangeIter :=
  { it with stack := [], currKey := [], cursorFloor := 0, initialized := false }

def restart (it : RangeIter) : RangeIter × RangeStage := (it.restartCursor, .begin)

def finish (it : RangeIter) : RangeIter × RangeStage :=
  ({ it with terminated := true }, .returned none)

def ready (it : RangeIter) : RangeIter × RangeStage := ({ it with initialized := true }, .advance)

/-- How long the common prefix is that `segment` below the current path would be folded into. -/
def segmentRollupLen (it : RangeIter) (segment : List UInt8) : Option Nat :=
  match it.delimiter with
  | none => none
  | some delimiter =>
    if it.currKey.length + segment.length ≤ it.keyPrefix.length then none
    else if ¬ it.keyPrefix <+: it.currKey ++ segment then none
    else
      let inPath := if it.keyPrefix.length < it.currKey.length then
        findByte it.currKey delimiter it.keyPrefix.length else none
      match inPath with
      | some pos => some (pos + 1)
      | none =>
        (findByte segment delimiter (it.keyPrefix.length - it.currKey.length)).map fun pos =>
          it.currKey.length + pos + 1

/-- The common prefix itself, if the lower bound allows it. -/
def prepareSegmentRollup (it : RangeIter) (segment : List UInt8) : Option (List UInt8) :=
  match it.segmentRollupLen segment with
  | none => none
  | some len =>
    let common := (it.currKey ++ segment).take len
    if it.lowerBound.all fun bound => bound.allows common then some common else none

/-- Leave the subtree of a common prefix of `len` bytes. -/
def popLonger (len : Nat) : Nat → RangeIter → RangeIter
  | 0, it => it
  | n + 1, it =>
    if len < it.currKey.length ∧ it.cursorFloor < it.stack.length then popLonger len n it.popFrame
    else it

def setLowerBoundSuccessor (it : RangeIter) (key : List UInt8) : RangeIter :=
  match successor key with
  | some s => { it with lowerBound := some ⟨s, true⟩ }
  | none =>
    { it with lowerBound := it.lowerBound.map fun bound => { bound with key }, terminated := true }

/-- What returning an entry leaves for the next call. -/
def emit (it : RangeIter) (entry : RangeEntry) (fromLeaf : Bool) : RangeIter :=
  match entry with
  | .key key _ _ => { it with lowerBound := some (.exclusive key) }
  | .commonPrefix common =>
    (if fromLeaf then popLonger common.length it.stack.length it else it).setLowerBoundSuccessor
      common

/-- The versions of the path are compared from the root down. -/
def checkPath (it : RangeIter) (entry : RangeEntry) (fromLeaf : Bool) : RangeIter × RangeStage :=
  (it, .check it.stack.reverse entry fromLeaf)

/-! ## Steps -/

/-- A blob that was folded into another one while the cursor had it pinned is no longer in the
buffer manager. -/
abbrev Orphans := AList fun _ : BlobGuid => CachedBlob Frame

section Step

variable (orphans : Orphans)

/-- The blob behind one of the cursor's pins. -/
def held (guid : BlobGuid) : WalkM (CachedBlob Frame) :=
  match orphans.lookup guid with
  | some b => pure b
  | none => pinned guid

/-- Look at the blob of the top node, unless it has changed since the node was come to. -/
def onTop (it : RangeIter) (top : RangeFrame)
    (look : Frame → Except Error (RangeIter × RangeStage)) : WalkM (RangeIter × RangeStage) := do
  let b ← held orphans top.blobGuid
  if b.version ≠ top.version then pure it.restart else lift (look b.image)

def initDescent (it : RangeIter) : WalkM (RangeIter × RangeStage) :=
  match it.effectiveSeekStart with
  | .empty => pure it.finish
  | source => do
    let b ← held orphans it.rootGuid
    let slot := b.image.rootSlot
    let ntype ← lift (b.image.ntypeOf slot)
    let it := { it.pushFrame it.rootGuid slot ntype b.version [] with
      cursorFloor := it.stack.length + 1 }
    match source with
    | .none => pure it.ready
    | source => pure (it, .seek source)

def readBlobNode (F : Frame) (slot : Slot) (context : String) : Except Error BlobNode :=
  match F.bodyOfSlot slot with
  | some (.blob b) => .ok b
  | _ => .error (.corrupt context)

/-- Go down to a child in the same blob. -/
def descendTo (it : RangeIter) (top : RangeFrame) (F : Frame) (child : Slot) (next : Nat)
    (bytes : List UInt8) : Except Error RangeIter :=
  (F.ntypeOf child).map fun ntype =>
    (it.setNext next).pushFrame top.blobGuid child ntype top.version bytes

/-- The turns of the seek loop, by the kind of the top node. -/
def seekLeaf (it : RangeIter) (source : SeekStart) (top : RangeFrame) :
    WalkM (RangeIter × RangeStage) :=
  if top.next = 0 then
    onTop orphans it top fun F => (readLeafKeyRef F top.slot).map fun (stored, _) =>
      if it.seekTarget source ≤ userKey stored then it.ready else (it.popFrame, .seek source)
  else pure (it.popFrame, .seek source)

def seekPrefix (it : RangeIter) (source : SeekStart) (top : RangeFrame) :
    WalkM (RangeIter × RangeStage) :=
  if top.next ≠ 0 then pure (it.popFrame, .seek source)
  else
    onTop orphans it top fun F => do
      let p ← readPrefix F top.slot
      let bytes := p.bytes.take prefixMaxInline
      let below ← it.descendTo top F p.child 1 bytes
      match segmentSeekRelation it.currKey bytes (it.seekTarget source) with
      | .skip => pure (it.popFrame, .seek source)
      | _ =>
        if (it.segmentRollupLen bytes).isSome then pure it.ready
        else pure (below, .seek source)

def seekBlob (it : RangeIter) (source : SeekStart) (top : RangeFrame) :
    WalkM (RangeIter × RangeStage) :=
  if top.next ≠ 0 then pure (it.popFrame, .seek source)
  else
    onTop orphans it top fun F => do
      let b ← readBlobNode F top.slot "range::seek: BlobNode body resolution"
      let bytes := b.bytes.take blobMaxInline
      match segmentSeekRelation it.currKey bytes (it.seekTarget source) with
      | .skip => pure (it.popFrame, .seek source)
      | _ =>
        if (it.segmentRollupLen bytes).isSome then pure it.ready
        else pure (it.setNext 1, .pin (some source) b.childBlobGuid bytes)

def seekInner (it : RangeIter) (source : SeekStart) (top : RangeFrame) :
    WalkM (RangeIter × RangeStage) :=
  let target := it.seekTarget source
  let relation := pathSeekRelation it.currKey target
  if relation = .skip then pure (it.popFrame, .seek source)
  else
    let least := if relation = .seeking then target[it.currKey.length]? else none
    onTop orphans it top fun F => do
      match ← nextInnerChildGe F top.slot top.ntype top.next least with
      | none => pure (it.popFrame, .seek source)
      | some (byte, child, next) =>
        let below ← it.descendTo top F child next [byte]
        pure (below, .seek source)

def seekTurn (it : RangeIter) (source : SeekStart) (top : RangeFrame) :
    WalkM (RangeIter × RangeStage) :=
  match top.ntype with
  | .leaf => seekLeaf orphans it source top
  | .emptyRoot | .invalid => pure (it.popFrame, .seek source)
  | .prefixNode => seekPrefix orphans it source top
  | .blob => seekBlob orphans it source top
  | .node4 | .node16 | .node48 | .node256 => seekInner orphans it source top

/-- The turns of the advance loop. -/
def advanceLeaf (it : RangeIter) (top : RangeFrame) : WalkM (RangeIter × RangeStage) :=
  if top.next = 0 then
    onTop orphans (it.setNext 1) top fun F =>
      (projectRangeLeaf F top.slot it.keyPrefix it.lowerBound it.delimiter it.projection).map fun
        | .skip => (it.popFrame, .advance)
        | .done => it.finish
        | .emit entry => (it.setNext 1).checkPath entry true
  else pure (it.popFrame, .advance)

def advancePrefix (it : RangeIter) (top : RangeFrame) : WalkM (RangeIter × RangeStage) :=
  if top.next = 0 then
    onTop orphans it top fun F => do
      let p ← readPrefix F top.slot
      let bytes := p.bytes.take prefixMaxInline
      let childType ← F.ntypeOf p.child
      let rollup := if F.tombstoneLeafCnt = 0 ∧ childType ≠ .blob ∧ childType ≠ .emptyRoot then
        it.prepareSegmentRollup bytes else none
      match rollup with
      | some common => pure ((it.setNext 1).checkPath (.commonPrefix common) false)
      | none =>
        let below ← it.descendTo top F p.child 1 bytes
        pure (below, .advance)
  else pure (it.popFrame, .advance)

def advanceBlob (it : RangeIter) (top : RangeFrame) : WalkM (RangeIter × RangeStage) :=
  if top.next = 0 then
    onTop orphans it top fun F => do
      let b ← readBlobNode F top.slot "range::advance: BlobNode body resolution"
      pure (it.setNext 1, .pin none b.childBlobGuid (b.bytes.take blobMaxInline))
  else pure (it.popFrame, .advance)

def advanceInner (it : RangeIter) (top : RangeFrame) : WalkM (RangeIter × RangeStage) :=
  onTop orphans it top fun F => do
    match ← nextInnerChildFrom F top.slot top.ntype top.next with
    | none => pure (it.popFrame, .advance)
    | some (byte, child, next) =>
      let below ← it.descendTo top F child next [byte]
      pure (below, .advance)

def advanceTurn (it : RangeIter) (top : RangeFrame) : WalkM (RangeIter × RangeStage) :=
  match top.ntype with
  | .leaf => advanceLeaf orphans it top
  | .emptyRoot | .invalid => pure (it.popFrame, .advance)
  | .prefixNode => advancePrefix orphans it top
  | .blob => advanceBlob orphans it top
  | .node4 | .node16 | .node48 | .node256 => advanceInner orphans it top

/-- The child blob was pinned before a common prefix could be thought of. -/
def askChild (it : RangeIter) (guid : BlobGuid) (bytes : List UInt8) :
    WalkM (RangeIter × RangeStage) := do
  let b ← held orphans guid
  let ntype ← lift (b.image.ntypeOf b.image.rootSlot)
  let rollup := if b.image.tombstoneLeafCnt = 0 ∧ ntype ≠ .emptyRoot ∧ ntype ≠ .invalid then
    it.prepareSegmentRollup bytes else none
  match rollup with
  | some common => pure (it.checkPath (.commonPrefix common) false)
  | none => pure (it, .push none guid bytes)

def pushPinnedOtherBlob (it : RangeIter) (source : Option SeekStart) (guid : BlobGuid)
    (bytes : List UInt8) : WalkM (RangeIter × RangeStage) := do
  let b ← held orphans guid
  let ntype ← lift (b.image.ntypeOf b.image.rootSlot)
  let it := it.pushFrame guid b.image.rootSlot ntype b.version bytes
  match source with
  | some source => pure (it, .seek source)
  | none => pure (it, .advance)

def stepStage (it : RangeIter) : RangeStage → WalkM (RangeIter × RangeStage)
  | .begin =>
    if it.terminated then pure (it, .returned none)
    else if it.initialized then pure (it, .advance)
    else initDescent orphans it
  | .seek source =>
    match it.stack with
    | [] => pure it.finish
    | top :: _ =>
      if it.stack.length < it.cursorFloor then pure it.finish else seekTurn orphans it source top
  | .advance =>
    match it.stack with
    | [] => pure it.finish
    | top :: _ =>
      if it.stack.length < it.cursorFloor then pure it.finish else advanceTurn orphans it top
  | .pin source guid bytes => do
    pin guid
    match source with
    | some source => pure (it, .push (some source) guid bytes)
    | none => pure (it, .ask guid bytes)
  | .ask guid bytes => askChild orphans it guid bytes
  | .push source guid bytes => pushPinnedOtherBlob orphans it source guid bytes
  | .check [] entry fromLeaf => pure (it.emit entry fromLeaf, .returned (some (.ok entry)))
  | .check (f :: rest) entry fromLeaf => do
    let b ← held orphans f.blobGuid
    if b.version = f.version then pure (it, .check rest entry fromLeaf) else pure it.restart
  | .returned result => pure (it, .returned result)

/-- An error ends the iteration. -/
def step (it : RangeIter) (stage : RangeStage) : WalkM (RangeIter × RangeStage) := fun e =>
  match stepStage orphans it stage e with
  | .ok r e => .ok r e
  | .error err e => .ok ({ it with terminated := true }, .returned (some (.error err))) e

end Step

end RangeIter

end Holt
