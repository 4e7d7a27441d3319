import Holt.Checkpoint.Memory
import Holt.Lib.Machine

/-! Everyone at work on one store: writers and maintenance, the checkpoint planner with its I/O
worker, manual checkpoints, and eviction. Each action is one party's next step; what it does to the
shared memory is one call. -/

namespace Holt.Checkpoint

open Holt.Lib

variable {I : Type}

/-- Bookkeeping a checkpoint still has to do, one blob at a time. -/
inductive Chore
  | retire (id : Nat) (g : BlobGuid) (seq : Nat)
  | restoreDirty (ids : List Nat) (g : BlobGuid) (seq : Nat)
  | restorePending (g : BlobGuid) (seq : Nat)
  deriving DecidableEq, Repr

def Chore.call : Chore → Call I
  | .retire id g seq => .retire id g seq
  | .restoreDirty ids g seq => .restoreDirty ids g seq
  | .restorePending g seq => .restorePending g seq

/-- A snapshot of the dirty set and how far it got. The commit gate is held exclusively until the
versions are taken. -/
inductive Capture (I : Type)
  | drained (snap : List (BlobGuid × Nat))
  | captured (snap pending : List (BlobGuid × Nat))
  | cloning (pending : List (BlobGuid × Nat)) (todo : List DirtySnapshotEntry)
      (bytes : List (WriteThroughEntry I)) (stale : List (BlobGuid × Nat))
  | ready (pending : List (BlobGuid × Nat)) (bytes : List (WriteThroughEntry I))
  deriving DecidableEq

structure CheckpointEpoch (I : Type) where
  id : Nat
  entries : List (WriteThroughEntry I)
  pending : List (BlobGuid × Nat)

/-- Where an entry of a batch is: not in a wave yet, in the wave, found current or stale, or
written and flushed. -/
inductive Progress
  | waiting
  | chosen
  | current
  | stale
  | flushed
  deriving DecidableEq, Repr

structure BatchEntry (I : Type) where
  id : Nat
  entry : WriteThroughEntry I
  progress : Progress

inductive BatchStage
  | choosing
  | checking
  | writing
  | flushing
  | deleting (todo : List (List (BlobGuid × Nat))) (applied : List (BlobGuid × Nat))

/-- At this stage the write of its wave has retired the entry. -/
def BatchStage.retired : BatchStage → Progress → Bool
  | _, .flushed => true
  | .flushing, .current | .flushing, .stale | .choosing, .stale => true
  | _, _ => false

/-- Epochs that the worker commits together. -/
structure Batch (I : Type) where
  entries : List (BatchEntry I)
  pending : List (List (BlobGuid × Nat))
  stage : BatchStage

inductive ManualStage (I : Type)
  | start
  | capture (id : Nat) (c : Capture I)
  | writing (id : Nat) (pending : List (BlobGuid × Nat))
      (current stale : List (WriteThroughEntry I))
  | flushing (pending : List (BlobGuid × Nat)) (wroteAny failed : Bool)
  | deleting (pending : List (BlobGuid × Nat))
  | syncing (applied : List (BlobGuid × Nat)) (failed : Bool)
  | truncating
  | returning

/-- A call of `Tree::checkpoint` or `DB::checkpoint`. -/
structure Manual (I : Type) where
  stage : ManualStage I
  chores : List Chore

inductive OpKind
  /-- A writer's call, with a record of its own in the log. -/
  | foreground
  /-- The rebuild of one blob. -/
  | compaction
  /-- Folding children into their parent, alone on the maintenance gate. -/
  | merge
  deriving DecidableEq, Repr

/-- A call inside the commit gate. It holds a pin on every blob it changed and did not mark. -/
structure Op where
  kind : OpKind
  seq : Nat
  unmarked : List BlobGuid
  mutated : Bool

/-- `exclusive` is the exclusive side of the commit gate, `maintenance` that of the maintenance
gate. `used` are the sequence numbers writers have. -/
structure Parties (I : Type) where
  used : List Nat
  nextId : Nat
  exclusive : Bool
  maintenance : Bool
  ops : AList fun _ : Nat => Op
  planner : Option (Nat × Capture I)
  plannerChores : List Chore
  queue : List (CheckpointEpoch I)
  worker : Option (Batch I)
  workerChores : List Chore
  manuals : AList fun _ : Nat => Manual I

/-- Who takes snapshots. -/
inductive Seat
  | planner
  | manual (m : Nat)

inductive Action (I : Type)
  | load (g : BlobGuid)
  | evict (g : BlobGuid)
  | enter (w : Nat) (kind : OpKind) (seq : Nat)
  | look (w : Nat) (g : BlobGuid)
  | edit (w : Nat) (g : BlobGuid) (f : I → I)
  | spill (w : Nat) (g n : BlobGuid) (f h : I → I)
  | merge (w : Nat) (p c : BlobGuid) (f : I → I → I)
  | mark (w : Nat) (g : BlobGuid)
  | leave (w : Nat)
  /-- Snapshots, of the planner and of manual checkpoints. -/
  | drainDirty (seat : Seat)
  | drainPending (seat : Seat)
  | takeVersions (seat : Seat)
  | walFails (seat : Seat)
  | clone (seat : Seat)
  | settle (seat : Seat)
  | plannerChore
  /-- `merged` says that the round's merge pass folded a child. -/
  | submit (merged : Bool)
  /-- The I/O worker. -/
  | takeBatch (n : Nat)
  | workerChore
  | chooseWave
  | checkWave
  | writeWave
  | writeWaveFails (left : List (BlobGuid × I))
  | flushWave (ok : Bool)
  | deleteEpoch (failed : List BlobGuid)
  | syncDeletes (ok : Bool)
  | truncate
  /-- Manual checkpoints. -/
  | begin (m : Nat)
  | manualChore (m : Nat)
  | manualCheck (m : Nat)
  | manualWrite (m : Nat)
  | manualWriteFails (m : Nat) (left : List (BlobGuid × I))
  | manualFlush (m : Nat) (ok : Bool)
  | manualDelete (m : Nat) (failed : List BlobGuid)
  | manualSync (m : Nat) (ok : Bool)
  | manualTruncate (m : Nat)
  | manualReturn (m : Nat)

namespace Parties

def idle : Parties I :=
  { used := [], nextId := 0, exclusive := false, maintenance := false, ops := ∅
    planner := none, plannerChores := [], queue := [], worker := none, workerChores := []
    manuals := ∅ }

def pinned (p : Parties I) (g : BlobGuid) : Bool :=
  p.ops.entries.any fun o => g ∈ o.2.unmarked

def setOp (p : Parties I) (w : Nat) (op : Op) : Parties I := { p with ops := p.ops.insert w op }

def setManual (p : Parties I) (m : Nat) (stage : ManualStage I) (chores : List Chore) :
    Parties I :=
  { p with manuals := p.manuals.insert m ⟨stage, chores⟩ }

def capture (p : Parties I) : Seat → Option (Nat × Capture I)
  | .planner => p.planner
  | .manual m =>
    match p.manuals.lookup m with
    | some ⟨.capture id c, []⟩ => some (id, c)
    | _ => none

def setCapture (p : Parties I) (seat : Seat) (id : Nat) (c : Capture I) : Parties I :=
  match seat with
  | .planner => { p with planner := some (id, c) }
  | .manual m => p.setManual m (.capture id c) []

/-- The snapshot is given up: everything it drained goes back, and a manual checkpoint goes on as
`next` says. -/
def giveUp (p : Parties I) (seat : Seat) (id : Nat) (snap pending : List (BlobGuid × Nat))
    (next : ManualStage I) : Parties I :=
  let chores := pending.map (fun e => Chore.restorePending e.1 e.2) ++
    snap.map fun e => Chore.restoreDirty [id] e.1 e.2
  match seat with
  | .planner => { p with planner := none, plannerChores := p.plannerChores ++ chores }
  | .manual m => p.setManual m next chores

def seatIdle (p : Parties I) : Seat → Bool
  | .planner => p.planner.isNone && p.plannerChores.isEmpty
  | .manual m =>
    match p.manuals.lookup m with
    | some ⟨.start, []⟩ => true
    | _ => false

end Parties

def maxCoalescedEpochs : Nat := 64

/-- What a `HashMap` makes of a list of entries. -/
def asMap (l : List (BlobGuid × Nat)) : List (BlobGuid × Nat) :=
  (l.foldl (fun m e => m.insert e.1 e.2) (∅ : AList fun _ : BlobGuid => Nat)).entries.map
    fun e => (e.1, e.2)

namespace Batch

def ofEpochs (epochs : List (CheckpointEpoch I)) : Batch I :=
  let entries := epochs.flatMap fun e => e.entries.map fun w => ⟨e.id, w, .waiting⟩
  { entries, pending := epochs.map (·.pending)
    stage := if entries.isEmpty then .flushing else .choosing }

def childrenReady (children : I → List BlobGuid) (b : Batch I) (bm : BufferManager I)
    (e : BatchEntry I) : Bool :=
  (children e.entry.bytes).all fun c =>
    b.entries.any (fun e' => e'.entry.guid = c ∧ e'.progress = .flushed) ||
    (!b.entries.any (fun e' => e'.entry.guid = c ∧ e'.progress ≠ .flushed) &&
      !bm.hasUnflushedBlob c && decide (c ∈ bm.store))

def retired (b : Batch I) (e : BatchEntry I) : Bool := b.stage.retired e.progress

/-- One call for each blob, however many of its entries are handed back. -/
def restoreEntries (b : Batch I) (entries : List (BatchEntry I)) : List Chore :=
  (asMap (entries.map fun e => (e.entry.guid, e.entry.expectedSeq))).map fun g =>
    .restoreDirty ((entries.filter fun e => !b.retired e && e.entry.guid = g.1).map (·.id)) g.1 g.2

def restoreAllPending (b : Batch I) : List Chore :=
  (asMap b.pending.flatten).map fun e => .restorePending e.1 e.2

/-- An error anywhere gives all entries back, written or not. -/
def failed (b : Batch I) : List Chore := b.restoreEntries b.entries ++ b.restoreAllPending

def deferred (b : Batch I) : List Chore :=
  b.restoreEntries (b.entries.filter (·.progress ≠ .flushed)) ++ b.restoreAllPending

def inProgress (b : Batch I) (pr : Progress) : List (BatchEntry I) :=
  b.entries.filter (·.progress = pr)

def move (b : Batch I) (stage : BatchStage) (f : BatchEntry I → Progress) : Batch I :=
  { b with stage, entries := b.entries.map fun e => { e with progress := f e } }

/-- The next wave: every entry whose children are in the store. -/
def choose (children : I → List BlobGuid) (b : Batch I) (bm : BufferManager I) : Batch I :=
  b.move .checking fun e =>
    if e.progress = .waiting ∧ b.childrenReady children bm e then .chosen else e.progress

def check (b : Batch I) (bm : BufferManager I) : Batch I :=
  b.move .writing fun e =>
    if e.progress = .chosen then
      if bm.writeSnapshotIsCurrent e.entry matches .ok true then .current else .stale
    else e.progress

def land (b : Batch I) : Batch I :=
  b.move .choosing fun e => if e.progress = .current then .flushed else e.progress

def retire (entries : List (BatchEntry I)) : List Chore :=
  entries.map fun e => .retire e.id e.entry.guid e.entry.expectedSeq

end Batch

namespace Parties

/-- The batch of the worker, when no bookkeeping is left from its last step. -/
def atWork (p : Parties I) : Option (Batch I) := if p.workerChores = [] then p.worker else none

def endBatch (p : Parties I) (chores : List Chore) : Parties I :=
  { p with worker := none, workerChores := chores }

end Parties

structure System (I : Type) where
  memory : Memory I
  parties : Parties I

def snapshotOf (entries : List DirtySnapshotEntry) : List (BlobGuid × Nat) :=
  entries.map fun e => (e.guid, e.expectedSeq)

def entriesOf (entries : List (WriteThroughEntry I)) : List (BlobGuid × Nat) :=
  entries.map fun e => (e.guid, e.expectedSeq)

/-- The log may go when nothing is dirty, on its way to the store or waiting for deletion. -/
def mayTruncate (m : Memory I) (p : Parties I) : Prop :=
  m.log ≠ [] ∧ p.ops.entries = [] ∧ p.exclusive = false ∧
    m.bm.dirtyCount = 0 ∧ m.bm.flushingCount = 0 ∧ m.bm.pendingDeleteCount = 0

instance (m : Memory I) (p : Parties I) : Decidable (mayTruncate m p) :=
  inferInstanceAs (Decidable (_ ∧ _))

section

variable (children : I → List BlobGuid)

/-- Writers, maintenance and eviction. -/
def planWriter (m : Memory I) (p : Parties I) : Action I → Option (Parties I × Call I)
  | .load g => some (p, .load g)
  | .evict g => some (p, .evict g (p.pinned g))
  | .enter w kind seq =>
    if w ∈ p.ops ∨ p.exclusive ∨ p.maintenance then none
    else
      match kind with
      | .foreground =>
        if seq ∈ p.used ∨ seq = structuralSeq then none
        else some ({ p.setOp w ⟨.foreground, seq, [], false⟩ with used := seq :: p.used }, .nothing)
      | .compaction => some (p.setOp w ⟨.compaction, structuralSeq, [], false⟩, .nothing)
      | .merge =>
        if p.ops.entries = [] ∧ p.manuals.entries = [] then
          some ({ p.setOp w ⟨.merge, structuralSeq, [], false⟩ with maintenance := true }, .nothing)
        else none
  | .look w g => do
    let op ← p.ops.lookup w
    let _ ← m.bm.view g
    if op.kind ≠ .merge ∧ g ∉ m.bm.pendingDeletes then some (p, .look g) else none
  -- Leaves come and go, crossings stay.
  | .edit w g f => do
    let op ← p.ops.lookup w
    let b ← m.bm.view g
    if op.kind ≠ .merge ∧ g ∉ m.bm.pendingDeletes ∧
        ∀ c ∈ children (f b.image), c ∈ children b.image then
      some (p.setOp w { op with unmarked := g :: op.unmarked, mutated := true }, .edit g f)
    else none
  -- A subtree moves to a new blob, with the crossings in it.
  | .spill w g n f h => do
    let op ← p.ops.lookup w
    let b ← m.bm.view g
    if op.kind = .foreground ∧ g ∉ m.bm.pendingDeletes ∧ n ∉ m.known ∧ n ≠ g ∧
        (∀ c ∈ children (f b.image), c = n ∨ c ∈ children b.image) ∧
        (∀ c ∈ children (h b.image), c ∈ children b.image ∧ c ∉ children (f b.image)) then
      some (p.setOp w { op with unmarked := g :: op.unmarked, mutated := true },
        .spill g n f h op.seq)
    else none
  -- Only a child without crossings is folded in.
  | .merge w g c f => do
    let op ← p.ops.lookup w
    let b ← m.bm.view g
    let bc ← m.bm.view c
    if op.kind = .merge ∧ g ∉ m.bm.pendingDeletes ∧ c ∉ m.bm.pendingDeletes ∧ c ≠ g ∧
        c ∉ op.unmarked ∧ c ∈ children b.image ∧ children bc.image = [] ∧
        (∀ d ∈ children (f bc.image b.image), d ≠ c ∧ d ∈ children b.image) then
      some (p.setOp w { op with unmarked := g :: op.unmarked, mutated := true }, .merge g c f)
    else none
  | .mark w g => do
    let op ← p.ops.lookup w
    if g ∈ op.unmarked then
      some (p.setOp w { op with unmarked := op.unmarked.filter (· ≠ g) }, .markDirty g op.seq)
    else none
  | .leave w => do
    let op ← p.ops.lookup w
    if op.unmarked = [] then
      some ({ p with
          ops := p.ops.erase w
          maintenance := p.maintenance && decide (op.kind ≠ .merge) },
        if op.kind = .foreground ∧ op.mutated then .submit op.seq else .nothing)
    else none
  | _ => none

/-- How a checkpoint, the planner's or a manual one, takes its snapshot. -/
def planSnapshot (m : Memory I) (p : Parties I) : Action I → Option (Parties I × Call I)
  | .drainDirty seat =>
    if p.seatIdle seat ∧ p.exclusive = false ∧ p.ops.entries = [] then
      some ({ p.setCapture seat p.nextId (.drained m.bm.snapshotDirty.1) with
        exclusive := true, nextId := p.nextId + 1 }, .snapshotDirty p.nextId)
    else none
  | .drainPending seat =>
    match p.capture seat with
    | some (id, .drained snap) =>
      some (p.setCapture seat id (.captured snap m.bm.snapshotPendingDeletes.1), .snapshotPending)
    | _ => none
  | .takeVersions seat =>
    match p.capture seat with
    | some (id, .captured snap pending) =>
      match m.bm.snapshotDirtyVersions snap with
      | .ok entries =>
        some ({ p.setCapture seat id (.cloning pending entries [] []) with exclusive := false },
          .nothing)
      | .error _ =>
        some ({ p.giveUp seat id snap pending .returning with exclusive := false }, .nothing)
    | _ => none
  | .walFails seat =>
    match p.capture seat with
    | some (id, .cloning pending todo [] []) =>
      some (p.giveUp seat id (snapshotOf todo) pending .returning, .nothing)
    | _ => none
  | .clone seat =>
    match p.capture seat with
    | some (id, .cloning pending (e :: todo) bytes stale) =>
      let all := entriesOf bytes ++ stale ++ snapshotOf (e :: todo)
      match m.bm.snapshotBytesIfVersion e.guid e.contentVersion, seat with
      | .ok (some image), _ =>
        let entry := ⟨e.guid, image, e.expectedSeq, some e.contentVersion⟩
        some (p.setCapture seat id (.cloning pending todo (bytes ++ [entry]) stale), .nothing)
      | .ok none, .planner =>
        some (p.setCapture seat id
          (.cloning pending todo bytes (stale ++ [(e.guid, e.expectedSeq)])), .nothing)
      -- A manual checkpoint starts over.
      | .ok none, .manual _ => some (p.giveUp seat id all pending .start, .nothing)
      | .error _, _ => some (p.giveUp seat id all pending .returning, .nothing)
    | _ => none
  -- The planner takes stale entries back, and with them all deletes. A manual checkpoint has none.
  | .settle seat =>
    match p.capture seat with
    | some (id, .cloning pending [] bytes stale) =>
      if stale.isEmpty then some (p.setCapture seat id (.ready pending bytes), .nothing)
      else some ({ p.setCapture seat id (.ready [] bytes) with
        plannerChores := p.plannerChores ++
          (stale.map (fun e => Chore.restoreDirty [id] e.1 e.2) ++
            pending.map fun e => Chore.restorePending e.1 e.2) }, .nothing)
    | _ => none
  | .plannerChore =>
    match p.plannerChores with
    | c :: chores => some ({ p with plannerChores := chores }, c.call)
    | [] => none
  | .submit merged =>
    match p.planner, p.plannerChores with
    | some (id, .ready pending bytes), [] =>
      let needsStoreFlush := p.queue.isEmpty ∧ p.worker.isNone ∧ p.workerChores = [] ∧
        m.disk.needsFlush
      if bytes.isEmpty ∧ pending.isEmpty ∧ merged = false ∧ ¬ needsStoreFlush then
        some ({ p with planner := none }, .nothing)
      else some ({ p with planner := none, queue := p.queue ++ [⟨id, bytes, pending⟩] }, .nothing)
    | _, _ => none
  | _ => none

/-- The I/O worker, and the truncation that follows when all epochs are through. -/
def planWorker (m : Memory I) (p : Parties I) : Action I → Option (Parties I × Call I)
  | .takeBatch n =>
    if p.worker.isNone ∧ p.workerChores = [] ∧ 0 < n ∧ n ≤ p.queue.length ∧
        n ≤ maxCoalescedEpochs then
      some ({ p with worker := some (Batch.ofEpochs (p.queue.take n)), queue := p.queue.drop n },
        .nothing)
    else none
  | .workerChore =>
    match p.workerChores with
    | c :: chores => some ({ p with workerChores := chores }, c.call)
    | [] => none
  | .chooseWave => do
    let b ← p.atWork
    match b.stage with
    | .choosing =>
      let b' := b.choose children m.bm
      if b'.entries.any (·.progress = .chosen) then
        some ({ p with worker := some b' }, .nothing)
      else if b.entries.any (·.progress ≠ .flushed) then some (p.endBatch b.deferred, .nothing)
      else some ({ p with worker := some { b with stage := .deleting b.pending [] } }, .nothing)
    | _ => none
  | .checkWave => do
    let b ← p.atWork
    match b.stage with
    | .checking =>
      match (b.inProgress .chosen).mapM fun e => m.bm.writeSnapshotIsCurrent e.entry with
      | .ok _ => some ({ p with worker := some (b.check m.bm) }, .nothing)
      | .error _ => some (p.endBatch b.failed, .nothing)
    | _ => none
  | .writeWave => do
    let b ← p.atWork
    match b.stage with
    | .writing =>
      let current := b.inProgress .current
      some ({ p with
        worker := some { b with stage := .flushing }
        workerChores := Batch.retire current ++ Batch.retire (b.inProgress .stale) },
        if current.isEmpty then .nothing else .write (current.map (·.entry)))
    | _ => none
  | .writeWaveFails left => do
    let b ← p.atWork
    match b.stage with
    | .writing =>
      let current := b.inProgress .current
      if current.isEmpty ∨ ∃ w ∈ left, ∀ e ∈ current, e.entry.guid ≠ w.1 then none
      else some (p.endBatch b.failed, .writeFails left)
    | _ => none
  | .flushWave ok => do
    let b ← p.atWork
    match b.stage with
    | .flushing =>
      if ok = false then some (p.endBatch b.failed, .nothing)
      else if b.entries.any (·.progress = .stale) then some (p.endBatch b.land.deferred, .flush)
      else some ({ p with worker := some b.land }, .flush)
    | _ => none
  | .deleteEpoch failed => do
    let b ← p.atWork
    match b.stage with
    | .deleting (pending :: todo) applied =>
      let gone := pending.filter fun e => e.1 ∉ failed
      some ({ p with
        worker := some { b with stage := .deleting todo (applied ++ gone) }
        workerChores := (pending.filter fun e => e.1 ∈ failed).map fun e =>
          Chore.restorePending e.1 e.2 }, .delete (gone.map (·.1)))
    | _ => none
  | .syncDeletes ok => do
    let b ← p.atWork
    match b.stage with
    | .deleting [] applied =>
      if applied.isEmpty then some (p.endBatch [], .nothing)
      else if ok then some (p.endBatch [], .flush)
      else some (p.endBatch ((asMap applied).map fun e => .restorePending e.1 e.2), .nothing)
    | _ => none
  | .truncate =>
    if p.planner.isNone ∧ p.plannerChores = [] ∧ p.queue.isEmpty ∧ p.worker.isNone ∧
        p.workerChores = [] ∧ mayTruncate m p then some (p, .truncate)
    else none
  | _ => none

/-- A manual checkpoint from its written snapshot on. -/
def planManual (m : Memory I) (p : Parties I) : Action I → Option (Parties I × Call I)
  | .begin i =>
    if i ∈ p.manuals ∨ p.maintenance then none else some (p.setManual i .start [], .nothing)
  | .manualChore i =>
    match p.manuals.lookup i with
    | some ⟨stage, c :: chores⟩ => some (p.setManual i stage chores, c.call)
    | _ => none
  | .manualCheck i =>
    match p.manuals.lookup i with
    | some ⟨.capture id (.ready pending bytes), []⟩ =>
      match bytes.mapM fun e => m.bm.writeSnapshotIsCurrent e with
      | .ok _ =>
        let isCurrent := fun e => m.bm.writeSnapshotIsCurrent e matches .ok true
        some (p.setManual i (.writing id pending (bytes.filter isCurrent)
          (bytes.filter fun e => !isCurrent e)) [], .nothing)
      | .error _ =>
        some (p.setManual i (.flushing pending true true)
          (bytes.map fun e => Chore.restoreDirty [id] e.guid e.expectedSeq), .nothing)
    | _ => none
  | .manualWrite i =>
    match p.manuals.lookup i with
    | some ⟨.writing id pending current stale, []⟩ =>
      some (p.setManual i (.flushing pending (!(current.isEmpty && stale.isEmpty)) false)
        ((current ++ stale).map fun e => Chore.retire id e.guid e.expectedSeq),
        if current.isEmpty then .nothing else .write current)
    | _ => none
  | .manualWriteFails i left =>
    match p.manuals.lookup i with
    | some ⟨.writing id pending current stale, []⟩ =>
      if current.isEmpty ∨ ∃ w ∈ left, ∀ e ∈ current, e.guid ≠ w.1 then none
      else some (p.setManual i (.flushing pending true true)
        ((current ++ stale).map fun e => Chore.restoreDirty [id] e.guid e.expectedSeq),
        .writeFails left)
    | _ => none
  | .manualFlush i ok =>
    match p.manuals.lookup i with
    | some ⟨.flushing pending wroteAny failed, []⟩ =>
      let keep := pending.map fun e => Chore.restorePending e.1 e.2
      if wroteAny = false ∧ pending.isEmpty ∧ m.disk.needsFlush = false then
        some (p.setManual i .truncating [], .nothing)
      else if ok = false then some (p.setManual i .returning keep, .nothing)
      else if failed then some (p.setManual i .returning keep, .flush)
      else some (p.setManual i (.deleting pending) [], .flush)
    | _ => none
  | .manualDelete i failed =>
    match p.manuals.lookup i with
    | some ⟨.deleting pending, []⟩ =>
      let gone := pending.filter fun e => e.1 ∉ failed
      let kept := pending.filter fun e => e.1 ∈ failed
      some (p.setManual i (.syncing gone (!kept.isEmpty))
        (kept.map fun e => Chore.restorePending e.1 e.2), .delete (gone.map (·.1)))
    | _ => none
  | .manualSync i ok =>
    match p.manuals.lookup i with
    | some ⟨.syncing applied failed, []⟩ =>
      if applied.isEmpty = false ∧ ok = false then
        some (p.setManual i .returning
          (applied.map fun e => Chore.restorePending e.1 e.2), .nothing)
      else some (p.setManual i (if failed then .returning else .truncating) [],
        if applied.isEmpty then .nothing else .flush)
    | _ => none
  | .manualTruncate i =>
    match p.manuals.lookup i with
    | some ⟨.truncating, []⟩ =>
      some (p.setManual i .returning [], if mayTruncate m p then .truncate else .nothing)
    | _ => none
  | .manualReturn i =>
    match p.manuals.lookup i with
    | some ⟨.returning, []⟩ => some ({ p with manuals := p.manuals.erase i }, .nothing)
    | _ => none
  | _ => none

def plan (m : Memory I) (p : Parties I) (a : Action I) : Option (Parties I × Call I) :=
  planWriter children m p a <|> planSnapshot m p a <|> planWorker children m p a <|>
    planManual m p a

def step (s : System I) (a : Action I) : Option (System I) :=
  (plan children s.memory s.parties a).map fun (p, c) => ⟨s.memory.perform c, p⟩

end

def System.opened (store : AList fun _ : BlobGuid => I) : System I :=
  ⟨.opened store, .idle⟩

/-- A condition on what the action does to the shared memory. -/
def Calls (children : I → List BlobGuid) (cond : Memory I → Call I → Prop) (s : System I)
    (a : Action I) : Prop :=
  match plan children s.memory s.parties a with
  | some (_, c) => cond s.memory c
  | none => True

instance (children : I → List BlobGuid) (cond : Memory I → Call I → Prop)
    [∀ m c, Decidable (cond m c)] (s : System I) (a : Action I) :
    Decidable (Calls children cond s a) := by
  unfold Calls
  split <;> infer_instance

theorem step_eq_some {children : I → List BlobGuid} {s t : System I} {a : Action I}
    (h : step children s a = some t) :
    ∃ p c, plan children s.memory s.parties a = some (p, c) ∧ t = ⟨s.memory.perform c, p⟩ := by
  obtain ⟨⟨p, c⟩, hplan, rfl⟩ := Option.map_eq_some_iff.mp h
  exact ⟨p, c, hplan, rfl⟩

theorem Calls.of_plan {children : I → List BlobGuid} {cond : Memory I → Call I → Prop}
    {s : System I} {a : Action I} {p : Parties I} {c : Call I} (h : Calls children cond s a)
    (hplan : plan children s.memory s.parties a = some (p, c)) : cond s.memory c := by
  unfold Calls at h
  rw [hplan] at h
  exact h

end Holt.Checkpoint
