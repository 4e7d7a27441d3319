import Holt.Journal.Writer
import Holt.Lib.Machine

/-! The journal's worker: writers take a work id, send their record through a channel, and one
thread appends what it receives and syncs for many at once. -/

namespace Holt.GroupCommit

open Holt.Lib Holt.Writer

def groupCommitMaxBytes : Nat := 256 * 1024

def journalQueueDepth : Nat := 65536

/-- `seq` is the work id. -/
structure AppendRequest where
  bytes : List UInt8
  seq : Nat
  sync : Bool
  deriving DecidableEq, Repr

inductive JournalCommand
  | append (r : AppendRequest)
  | flush (upTo : Nat)
  deriving DecidableEq, Repr

/-- What the worker is at: nothing, a batch that may still grow, or the records of a closed batch
that are not appended yet. -/
inductive Worker
  | idle
  | collecting (batch : List AppendRequest)
  | writing (batch rest : List AppendRequest)
  deriving DecidableEq, Repr

/-- `taken` and `sent` are the calls of `submit` that have their id, and those whose record is in
the channel; `returned` are the finished ones. `log` has the records in the order in which they
were appended. -/
structure Journal where
  nextWork : Nat
  queuedWork : Nat
  writtenWork : Nat
  flushedWork : Nat
  channel : List JournalCommand
  backlog : List JournalCommand
  worker : Worker
  writer : WalWriter
  acks : List (Nat × Bool)
  taken : List AppendRequest
  sent : List AppendRequest
  returned : List AppendRequest
  log : List AppendRequest
  deriving DecidableEq, Repr

/-- Records that were there already count as one piece of work that was never synced. -/
def openJournal (w : WalWriter) : Journal :=
  let initialQueuedWork := if hasRecords w then 1 else 0
  { nextWork := initialQueuedWork
    queuedWork := initialQueuedWork
    writtenWork := initialQueuedWork
    flushedWork := initialQueuedWork - 1
    channel := [], backlog := [], worker := .idle, writer := w
    acks := [], taken := [], sent := [], returned := [], log := [] }

inductive Action
  /-- The three steps of `submit`. -/
  | takeId (bytes : List UInt8) (sync : Bool)
  | send (seq : Nat)
  | raise (seq : Nat)
  /-- The two ends of `flush_up_to`. -/
  | callFlush (observed : Nat)
  | receiveAck (observed : Nat) (ok : Bool)
  /-- The worker takes its next command; a flush is done at once. -/
  | receive (io : WalIo)
  /-- One more command while a batch is open, or the end of its window. -/
  | gather
  | close
  /-- One record of the batch, then the end of the batch. -/
  | write (io : WalIo)
  | finish (io : WalIo)

namespace Journal

def maxSeq (batch : List AppendRequest) : Nat := batch.foldl (fun m r => max m r.seq) 0

def serveFlush (j : Journal) (io : WalIo) (upTo : Nat) : Journal :=
  match flush io j.writer with
  | .ok _ w => { j with
      writer := w
      flushedWork := max j.flushedWork upTo
      acks := j.acks ++ [(upTo, true)] }
  | .error _ w => { j with writer := w, acks := j.acks ++ [(upTo, false)] }

def serve (j : Journal) (io : WalIo) : JournalCommand → Journal
  | .append r => { j with worker := .collecting [r] }
  | .flush upTo => j.serveFlush io upTo

/-- The group sync raises the mark to the highest id of the batch. -/
def finishBatch (j : Journal) (io : WalIo) (batch : List AppendRequest) : Journal :=
  let j := { j with writtenWork := max j.writtenWork (maxSeq batch), worker := .idle }
  if batch.any (·.sync) then
    match flush io j.writer with
    | .ok _ w => { j with writer := w, flushedWork := max j.flushedWork (maxSeq batch) }
    | .error _ w => { j with writer := w }
  else j

def step (j : Journal) : Action → Option Journal
  | .takeId bytes sync => some { j with
      nextWork := j.nextWork + 1
      taken := j.taken ++ [⟨bytes, j.nextWork + 1, sync⟩] }
  | .send seq =>
    match j.taken.find? (·.seq = seq) with
    | some r =>
      if j.channel.length < journalQueueDepth then some { j with
          channel := j.channel ++ [.append r]
          taken := j.taken.filter (·.seq ≠ seq)
          sent := j.sent ++ [r] }
      else none
    | none => none
  | .raise seq =>
    match j.sent.find? (·.seq = seq) with
    | some r => some { j with
        queuedWork := max j.queuedWork seq
        sent := j.sent.filter (·.seq ≠ seq)
        returned := j.returned ++ [r] }
    | none => none
  | .callFlush observed =>
    if observed ≤ j.flushedWork then some j
    else if j.channel.length < journalQueueDepth then
      some { j with channel := j.channel ++ [.flush observed] }
    else none
  | .receiveAck observed ok =>
    if (observed, ok) ∈ j.acks then some { j with acks := j.acks.erase (observed, ok) } else none
  | .receive io =>
    match j.worker, j.backlog, j.channel with
    | .idle, c :: backlog, _ => some (serve { j with backlog } io c)
    | .idle, [], c :: channel => some (serve { j with channel } io c)
    | _, _, _ => none
  | .gather =>
    match j.worker, j.channel with
    | .collecting batch, c :: channel =>
      if (batch.map (·.bytes.length)).sum < groupCommitMaxBytes then
        match c with
        | .append r => some { j with channel, worker := .collecting (batch ++ [r]) }
        | other => some { j with
            channel, backlog := j.backlog ++ [other], worker := .writing batch batch }
      else none
    | _, _ => none
  | .close =>
    match j.worker with
    | .collecting batch => some { j with worker := .writing batch batch }
    | _ => none
  | .write io =>
    match j.worker with
    | .writing batch (r :: rest) =>
      match appendEncoded io r.bytes j.writer with
      | .ok _ w => some { j with writer := w, worker := .writing batch rest, log := j.log ++ [r] }
      -- the rest of the batch is given up
      | .error _ w => some { j with writer := w, worker := .idle }
    | _ => none
  | .finish io =>
    match j.worker with
    | .writing batch [] => some (j.finishBatch io batch)
    | _ => none

/-- The step is a return of `flush_up_to` with success. -/
def FlushReturns (j : Journal) (observed : Nat) : Action → Prop
  | .callFlush w => w = observed ∧ w ≤ j.flushedWork
  | .receiveAck w ok => w = observed ∧ ok = true
  | _ => False

/-- The record is in the part of the file that a sync has covered, behind those appended before
it. -/
def Covered (base : List UInt8) (j : Journal) (r : AppendRequest) : Prop :=
  ∃ before after, j.log = before ++ r :: after ∧
    base ++ (before ++ [r]).flatMap (·.bytes) <+: j.writer.file.bytes.take j.writer.file.synced

/-- Records enter the channel in the order of their ids, a flush is asked for up to a queued id,
and no write stops short. A sync may fail. -/
def Orderly (j : Journal) : Action → Prop
  | .send seq => ∀ r ∈ j.taken, seq ≤ r.seq
  | .callFlush observed => observed ≤ j.queuedWork
  | .receive io => io.stopsAfter = none
  | .write io => io.stopsAfter = none
  | .finish io => io.stopsAfter = none
  | _ => True

end Journal

/-! ## The line in front of the file -/

def JournalCommand.level : JournalCommand → Nat
  | .append r => r.seq
  | .flush upTo => upTo

/-- No record comes behind a command of its own id or a higher one. -/
def Before (a b : JournalCommand) : Prop :=
  match b with
  | .append r => a.level < r.seq
  | .flush _ => True

def Worker.rest : Worker → List AppendRequest
  | .idle => []
  | .collecting batch => batch
  | .writing _ rest => rest

namespace Journal

/-- What the worker has not done yet, in the order in which it will. -/
def queue (j : Journal) : List JournalCommand :=
  j.worker.rest.map .append ++ (j.backlog ++ j.channel)

/-- Everything that got an id: appended, on the way, still with its writer. -/
def line (j : Journal) : List JournalCommand :=
  j.log.map .append ++ (j.queue ++ j.taken.map .append)

/-- The bookkeeping of an orderly run. -/
structure Ordered (j : Journal) : Prop where
  line : j.line.Pairwise Before
  named : ∀ c ∈ j.line, c.level ≤ j.nextWork
  queued_le : j.queuedWork ≤ j.nextWork
  flushed_le : j.flushedWork ≤ j.nextWork
  queued : ∀ r ∈ j.taken, j.queuedWork < r.seq
  late : ∀ r, .append r ∈ j.queue ++ j.taken.map .append → j.flushedWork < r.seq
  passed : ∀ r ∈ j.sent ++ j.returned, .append r ∈ j.log.map .append ++ j.queue
  calm : ∀ batch, j.worker = .collecting batch → j.backlog = []
  controls : ∀ r, .append r ∉ j.backlog
  batch : ∀ batch rest, j.worker = .writing batch rest → ∀ r ∈ batch, r ∈ j.log ∨ r ∈ rest
  acked : ∀ w, (w, true) ∈ j.acks → w ≤ j.flushedWork

/-- What is in the file, and what of it is safe. -/
structure Filed (base : List UInt8) (j : Journal) : Prop where
  file : j.writer.file.bytes ++ j.writer.pending = base ++ j.log.flatMap (·.bytes)
  synced : j.writer.file.synced ≤ j.writer.file.bytes.length
  durable : ∀ r ∈ j.log, r.seq ≤ j.flushedWork → Covered base j r

section Steps

variable {base : List UInt8} {j j' : Journal}

theorem Filed.same (h : j.Filed base) (hw : j'.writer = j.writer) (hl : j'.log = j.log)
    (hf : j'.flushedWork = j.flushedWork) : j'.Filed base := by
  refine ⟨?_, ?_, fun r hr hle => ?_⟩
  · rw [hw, hl]
    exact h.file
  · rw [hw]
    exact h.synced
  · rw [hl] at hr
    rw [hf] at hle
    unfold Covered
    rw [hl, hw]
    exact h.durable r hr hle

theorem Ordered.takeId (h : j.Ordered) (bytes : List UInt8) (sync : Bool) :
    Ordered { j with
      nextWork := j.nextWork + 1
      taken := j.taken ++ [⟨bytes, j.nextWork + 1, sync⟩] } := by
  have hline : Journal.line { j with
      nextWork := j.nextWork + 1
      taken := j.taken ++ [⟨bytes, j.nextWork + 1, sync⟩] } =
      j.line ++ [.append ⟨bytes, j.nextWork + 1, sync⟩] := by
    simp [Journal.line, Journal.queue]
  refine { h with
    line := ?_
    named := fun c hc => ?_
    queued_le := Nat.le_succ_of_le h.queued_le
    flushed_le := Nat.le_succ_of_le h.flushed_le
    queued := fun r hr => ?_
    late := fun r hr => ?_ }
  · rw [hline, List.pairwise_append]
    refine ⟨h.line, List.pairwise_singleton .., fun c hc d hd => ?_⟩
    obtain rfl := List.mem_singleton.mp hd
    exact Nat.lt_succ_of_le (h.named c hc)
  · rw [hline, List.mem_append, List.mem_singleton] at hc
    rcases hc with hc | rfl
    · exact Nat.le_succ_of_le (h.named c hc)
    · exact Nat.le_refl _
  · rcases List.mem_append.mp hr with hr | hr
    · exact h.queued r hr
    · obtain rfl := List.mem_singleton.mp hr
      exact Nat.lt_succ_of_le h.queued_le
  · simp only [Journal.queue, List.map_append, List.map_cons, List.map_nil] at hr
    rw [← List.append_assoc, List.mem_append, List.mem_singleton] at hr
    rcases hr with hr | hr
    · exact h.late r hr
    · cases hr
      exact Nat.lt_succ_of_le h.flushed_le

/-- A step that only moves the line forward. -/
theorem Ordered.moves (h : j.Ordered) (hline : j'.line = j.line)
    (hnext : j'.nextWork = j.nextWork) (hqueued : j'.queuedWork = j.queuedWork)
    (hflushed : j'.flushedWork = j.flushedWork) (hacks : j'.acks = j.acks)
    (htaken : ∀ r ∈ j'.taken, r ∈ j.taken)
    (hahead : ∀ c ∈ j'.queue ++ j'.taken.map .append, c ∈ j.queue ++ j.taken.map .append)
    (hpassed : ∀ r ∈ j'.sent ++ j'.returned, .append r ∈ j'.log.map .append ++ j'.queue)
    (hcalm : ∀ batch, j'.worker = .collecting batch → j'.backlog = [])
    (hcontrols : ∀ r, .append r ∉ j'.backlog)
    (hbatch : ∀ batch rest, j'.worker = .writing batch rest → ∀ r ∈ batch, r ∈ j'.log ∨ r ∈ rest) :
    j'.Ordered := by
  constructor
  · exact hline ▸ h.line
  · rw [hline, hnext]
    exact h.named
  · rw [hqueued, hnext]
    exact h.queued_le
  · rw [hflushed, hnext]
    exact h.flushed_le
  · intro r hr
    rw [hqueued]
    exact h.queued r (htaken r hr)
  · intro r hr
    rw [hflushed]
    exact h.late r (hahead _ hr)
  · exact hpassed
  · exact hcalm
  · exact hcontrols
  · exact hbatch
  · rw [hacks, hflushed]
    exact h.acked

variable {backlog channel : List JournalCommand} {batch : List AppendRequest} {r : AppendRequest}
  {seq : Nat} {w writer : WalWriter} {worker : Worker}

/-- The worker takes commands from the channel, but its queue stays what it was. -/
theorem Ordered.takes (h : j.Ordered)
    (hqueue : Journal.queue { j with backlog, channel, worker } = j.queue)
    (hcalm : ∀ batch, worker = .collecting batch → backlog = [])
    (hcontrols : ∀ r, .append r ∉ backlog)
    (hbatch : ∀ batch rest, worker = .writing batch rest → ∀ r ∈ batch, r ∈ j.log ∨ r ∈ rest) :
    Ordered { j with backlog, channel, worker } := by
  refine h.moves ?_ rfl rfl rfl rfl (fun _ ht => ht) ?_ ?_ hcalm hcontrols hbatch
  · simp only [Journal.line, hqueue]
  · rw [hqueue]
    exact fun _ hc => hc
  · rw [hqueue]
    exact h.passed

/-- The lowest id of those not sent is the first of them. -/
theorem Ordered.first_taken (h : j.Ordered) (hr : j.taken.find? (·.seq = seq) = some r)
    (hlow : ∀ r ∈ j.taken, seq ≤ r.seq) : j.taken = r :: j.taken.filter (·.seq ≠ seq) := by
  have hsorted : j.taken.Pairwise (·.seq < ·.seq) := by
    have hline := (List.pairwise_append.mp h.line).2.1
    have htaken : j.taken.Pairwise fun a b => Before (.append a) (.append b) :=
      List.pairwise_map.mp (List.pairwise_append.mp hline).2.1
    exact htaken.imp fun h => h
  cases htaken : j.taken with
  | nil => simp [htaken] at hr
  | cons head rest =>
    rw [htaken] at hr hlow hsorted
    have hmem := List.mem_of_find?_eq_some hr
    have hseq : r.seq = seq := by simpa using List.find?_some hr
    obtain ⟨hhead, -⟩ := List.pairwise_cons.mp hsorted
    have hfirst : head = r := by
      rcases List.mem_cons.mp hmem with heq | hrest
      · exact heq.symm
      · have := hhead r hrest
        have := hlow head List.mem_cons_self
        omega
    subst hfirst
    rw [List.filter_cons, if_neg (by simp [hseq]), List.filter_eq_self.mpr]
    intro t ht
    have := hhead t ht
    simp only [ne_eq, decide_eq_true_eq]
    omega

theorem Ordered.send (h : j.Ordered) (hr : j.taken.find? (·.seq = seq) = some r)
    (hlow : ∀ r ∈ j.taken, seq ≤ r.seq) :
    Ordered { j with
      channel := j.channel ++ [.append r]
      taken := j.taken.filter (·.seq ≠ seq)
      sent := j.sent ++ [r] } := by
  have hfirst := h.first_taken hr hlow
  have hahead : j.worker.rest.map .append ++ (j.backlog ++ (j.channel ++ [.append r])) ++
      (j.taken.filter (·.seq ≠ seq)).map .append = j.queue ++ j.taken.map .append := by
    generalize j.taken.filter (·.seq ≠ seq) = rest at hfirst ⊢
    rw [hfirst]
    simp [queue]
  refine h.moves (congrArg (j.log.map JournalCommand.append ++ ·) hahead) rfl rfl rfl rfl
    (fun t ht => (List.mem_filter.mp ht).1) (fun c hc => hahead ▸ hc) (fun t ht => ?_) h.calm
    h.controls h.batch
  have hpassed := h.passed t
  simp only [queue, List.mem_append, List.mem_singleton] at ht hpassed ⊢
  grind

theorem Ordered.raise (h : j.Ordered) (hr : j.sent.find? (·.seq = seq) = some r) :
    Ordered { j with
      queuedWork := max j.queuedWork seq
      sent := j.sent.filter (·.seq ≠ seq)
      returned := j.returned ++ [r] } := by
  have hmem := List.mem_of_find?_eq_some hr
  have hseq : r.seq = seq := by simpa using List.find?_some hr
  have hin := h.passed r (List.mem_append_left _ hmem)
  refine { h with
    queued_le := Nat.max_le.mpr ⟨h.queued_le, ?_⟩
    queued := fun t ht => ?_
    passed := fun t ht => ?_ }
  · subst hseq
    apply h.named (.append r)
    simp only [Journal.line, List.mem_append] at hin ⊢
    grind
  · -- A record that is on its way is in front of all that are not.
    have hbefore : Before (.append r) (.append t) := by
      have hline := h.line
      rw [Journal.line, ← List.append_assoc] at hline
      exact (List.pairwise_append.mp hline).2.2 _ hin _ (List.mem_map_of_mem ht)
    exact Nat.max_lt.mpr ⟨h.queued t ht, hseq ▸ hbefore⟩
  · simp only [List.mem_append, List.mem_filter, List.mem_singleton] at ht
    rcases ht with ⟨ht, -⟩ | ht | rfl
    · exact h.passed t (List.mem_append_left _ ht)
    · exact h.passed t (List.mem_append_right _ ht)
    · exact hin

theorem Ordered.callFlush (h : j.Ordered) {observed : Nat} (hobs : observed ≤ j.queuedWork) :
    Ordered { j with channel := j.channel ++ [.flush observed] } := by
  have hline : Journal.line { j with channel := j.channel ++ [.flush observed] } =
      (j.log.map .append ++ j.queue) ++ (.flush observed :: j.taken.map .append) := by
    simp [Journal.line, Journal.queue]
  have hold := h.line
  rw [Journal.line, ← List.append_assoc, List.pairwise_append] at hold
  obtain ⟨hfront, htaken, hcross⟩ := hold
  refine { h with
    line := ?_
    named := fun c hc => ?_
    late := fun r hr => h.late r ?_
    passed := fun r hr => ?_ }
  · rw [hline, List.pairwise_append, List.pairwise_cons]
    refine ⟨hfront, ⟨fun c hc => ?_, htaken⟩, fun c hc d hd => ?_⟩
    · obtain ⟨t, ht, rfl⟩ := List.mem_map.mp hc
      exact Nat.lt_of_le_of_lt hobs (h.queued t ht)
    · rcases List.mem_cons.mp hd with rfl | hd
      · trivial
      · exact hcross c hc d hd
  · rw [hline] at hc
    have hnamed := h.named c
    rw [Journal.line] at hnamed
    simp only [List.mem_append, List.mem_cons] at hc hnamed
    rcases hc with hc | rfl | hc
    · grind
    · exact Nat.le_trans hobs h.queued_le
    · grind
  · simp only [Journal.queue, List.mem_append, List.mem_singleton, reduceCtorEq, or_false] at hr ⊢
    grind
  · have := h.passed r hr
    simp only [Journal.queue, List.mem_append, List.mem_singleton] at this ⊢
    grind

/-- The worker has served a flush: everything behind it has a higher id. -/
theorem Ordered.served (h : j.Ordered) {w flushed : Nat} {acks : List (Nat × Bool)}
    (hidle : j.worker = .idle)
    (hfront : j.backlog ++ j.channel = .flush w :: (backlog ++ channel))
    (hcontrols : ∀ r, .append r ∉ backlog) (hlow : j.flushedWork ≤ flushed)
    (hhigh : flushed ≤ max j.flushedWork w)
    (hacks : ∀ v, (v, true) ∈ acks → (v, true) ∈ j.acks ∨ v ≤ flushed) :
    Ordered { j with backlog, channel, writer, acks, flushedWork := flushed } := by
  have hqueue : j.queue = .flush w :: (backlog ++ channel) := by
    simp [Journal.queue, Worker.rest, hidle, hfront]
  have hqueue' : Journal.queue { j with
      backlog, channel, writer, acks, flushedWork := flushed } = backlog ++ channel := by
    simp [Journal.queue, Worker.rest, hidle]
  have hline := h.line
  have hnamed := h.named
  simp only [Journal.line, hqueue, List.cons_append] at hline hnamed
  have hsub : (j.log.map JournalCommand.append ++ (backlog ++ channel ++
      j.taken.map JournalCommand.append)).Sublist (j.log.map JournalCommand.append ++
        .flush w :: (backlog ++ channel ++ j.taken.map JournalCommand.append)) :=
    (List.sublist_cons_self ..).append_left _
  have hbehind := (List.pairwise_cons.mp (List.pairwise_append.mp hline).2.1).1
  have hworker {work : Worker} (hne : work ≠ .idle) : j.worker ≠ work := hidle ▸ hne.symm
  refine { h with
    line := ?_
    named := ?_
    flushed_le := ?_
    late := fun r hr => ?_
    passed := fun r hr => ?_
    calm := fun _ hw => absurd hw (hworker nofun)
    controls := hcontrols
    batch := fun _ _ hw => absurd hw (hworker nofun)
    acked := fun v hv => ?_ }
  · simp only [Journal.line, hqueue']
    exact hline.sublist hsub
  · simp only [Journal.line, hqueue']
    exact fun c hc => hnamed c (hsub.subset hc)
  · have hw : w ≤ j.nextWork := hnamed (.flush w) (by simp)
    exact Nat.le_trans hhigh (Nat.max_le.mpr ⟨h.flushed_le, hw⟩)
  · rw [hqueue'] at hr
    have hflushed : j.flushedWork < r.seq := by
      apply h.late r
      rw [hqueue]
      exact List.mem_cons_of_mem _ hr
    exact Nat.lt_of_le_of_lt hhigh (Nat.max_lt.mpr ⟨hflushed, hbehind _ hr⟩)
  · have hpassed := h.passed r hr
    rw [hqueue] at hpassed
    rw [hqueue']
    simp only [List.mem_append, List.mem_cons, reduceCtorEq, false_or] at hpassed ⊢
    exact hpassed
  · rcases hacks v hv with hold | hle
    · exact Nat.le_trans (h.acked v hold) hlow
    · exact hle

/-- The worker takes the first record of a batch. -/
theorem Ordered.collect (h : j.Ordered) (hidle : j.worker = .idle) (hback : j.backlog = [])
    (hfront : j.channel = .append r :: channel) :
    Ordered { j with channel, worker := .collecting [r] } := by
  refine h.takes ?_ (fun _ _ => hback) h.controls nofun
  simp [Journal.queue, Worker.rest, hidle, hback, hfront]

theorem Ordered.gather (h : j.Ordered) (hworker : j.worker = .collecting batch)
    (hfront : j.channel = .append r :: channel) :
    Ordered { j with channel, worker := .collecting (batch ++ [r]) } := by
  have hback := h.calm batch hworker
  refine h.takes ?_ (fun _ _ => hback) h.controls nofun
  simp [Journal.queue, Worker.rest, hworker, hback, hfront]

/-- A batch is closed, with the command that closed it kept for later, if any. -/
theorem Ordered.close (h : j.Ordered) (hworker : j.worker = .collecting batch)
    (hfront : backlog ++ channel = j.backlog ++ j.channel) (hcontrols : ∀ r, .append r ∉ backlog) :
    Ordered { j with backlog, channel, worker := .writing batch batch } := by
  refine h.takes ?_ nofun hcontrols ?_
  · simp [Journal.queue, Worker.rest, hworker, hfront]
  · rintro _ _ ⟨⟩ r hr
    exact .inr hr

theorem Ordered.write (h : j.Ordered) {rest : List AppendRequest}
    (hworker : j.worker = .writing batch (r :: rest)) :
    Ordered { j with writer, worker := .writing batch rest, log := j.log ++ [r] } := by
  have hqueue : j.queue = .append r :: Journal.queue { j with
      writer, worker := .writing batch rest, log := j.log ++ [r] } := by
    simp [Journal.queue, Worker.rest, hworker]
  refine h.moves ?_ rfl rfl rfl rfl (fun _ ht => ht) (fun c hc => ?_) (fun t ht => ?_) nofun
    h.controls ?_
  · simp [Journal.line, hqueue]
  · rw [hqueue]
    exact List.mem_cons_of_mem _ hc
  · have hpassed := h.passed t ht
    rw [hqueue] at hpassed
    simpa [or_assoc] using hpassed
  · rintro _ _ ⟨⟩ t ht
    have := h.batch _ _ hworker t ht
    simp only [List.mem_append, List.mem_cons, List.not_mem_nil, or_false] at this ⊢
    grind

theorem maxSeq_le {n : Nat} (h : ∀ r ∈ batch, r.seq ≤ n) : maxSeq batch ≤ n := by
  unfold maxSeq
  have hfold : ∀ (l : List AppendRequest) m, m ≤ n → (∀ r ∈ l, r.seq ≤ n) →
      l.foldl (fun m r => max m r.seq) m ≤ n := by
    intro l
    induction l with
    | nil => exact fun m hm _ => hm
    | cons r l ih =>
      intro m hm hl
      exact ih _ (Nat.max_le.mpr ⟨hm, hl r List.mem_cons_self⟩)
        fun t ht => hl t (List.mem_cons_of_mem _ ht)
  exact hfold batch 0 (Nat.zero_le n) h

/-- The end of a batch: everything appended so far is in front of what waits. -/
theorem Ordered.finish (h : j.Ordered) {written flushed : Nat}
    (hworker : j.worker = .writing batch []) (hlow : j.flushedWork ≤ flushed)
    (hhigh : flushed ≤ max j.flushedWork (maxSeq batch)) :
    Ordered { j with writer, writtenWork := written, flushedWork := flushed, worker := .idle } := by
  have hlog : ∀ r ∈ batch, r ∈ j.log := fun r hr => by simpa using h.batch _ _ hworker r hr
  have hqueue : Journal.queue { j with
      writer, writtenWork := written, flushedWork := flushed, worker := .idle } = j.queue := by
    simp [Journal.queue, Worker.rest, hworker]
  refine { h with
    line := ?_
    named := ?_
    flushed_le := ?_
    late := fun t ht => ?_
    passed := ?_
    calm := nofun
    batch := nofun
    acked := fun v hv => Nat.le_trans (h.acked v hv) hlow }
  · simp only [Journal.line, hqueue]
    exact h.line
  · simp only [Journal.line, hqueue]
    exact h.named
  · have hmax : maxSeq batch ≤ j.nextWork := maxSeq_le fun r hr =>
      h.named (.append r) (List.mem_append_left _ (List.mem_map_of_mem (hlog r hr)))
    exact Nat.le_trans hhigh (Nat.max_le.mpr ⟨h.flushed_le, hmax⟩)
  · rw [hqueue] at ht
    have hpos : 0 < t.seq := Nat.lt_of_le_of_lt (Nat.zero_le _) (h.late t ht)
    have hmax : maxSeq batch ≤ t.seq - 1 := maxSeq_le fun r hr => by
      have hbefore : r.seq < t.seq := (List.pairwise_append.mp h.line).2.2 _
        (List.mem_map_of_mem (hlog r hr)) _ ht
      omega
    have := h.late t ht
    change flushed < t.seq
    omega
  · simp only [hqueue]
    exact h.passed

/-! ## The file -/

theorem Covered.stable (h : Covered base j r) (more : List AppendRequest)
    (hlog : j'.log = j.log ++ more)
    (hfile : j.writer.file.bytes.take j.writer.file.synced <+:
      j'.writer.file.bytes.take j'.writer.file.synced) :
    Covered base j' r := by
  obtain ⟨before, after, hsplit, hpre⟩ := h
  exact ⟨before, after ++ more, by rw [hlog, hsplit]; simp, hpre.trans hfile⟩

/-- After a flush the whole log is covered. -/
theorem Filed.flushed (h : j.Filed base) (hl : j'.log = j.log) (hw : j'.writer = w)
    (hbytes : w.file.bytes = j.writer.file.bytes ++ j.writer.pending) (hpending : w.pending = [])
    (hsynced : w.file.synced = w.file.bytes.length) : j'.Filed base := by
  subst hw
  have hfile : j'.writer.file.bytes = base ++ j'.log.flatMap (·.bytes) := by
    rw [hbytes, h.file, hl]
  refine ⟨by rw [hpending, List.append_nil, hfile], Nat.le_of_eq hsynced, fun r hr _ => ?_⟩
  obtain ⟨before, after, hsplit⟩ := List.append_of_mem hr
  refine ⟨before, after, hsplit, ?_⟩
  rw [hsynced, List.take_length, hfile, hsplit]
  exact ⟨after.flatMap (·.bytes), by simp⟩

/-- A flush that could not sync has only moved bytes to the file. -/
theorem Filed.drained (h : j.Filed base) (hl : j'.log = j.log) (hw : j'.writer = w)
    (hf : j'.flushedWork = j.flushedWork)
    (hbytes : w.file.bytes = j.writer.file.bytes ++ j.writer.pending) (hpending : w.pending = [])
    (hsynced : w.file.synced = j.writer.file.synced) : j'.Filed base := by
  subst hw
  refine ⟨by rw [hpending, List.append_nil, hbytes, h.file, hl], ?_, fun r hr hle => ?_⟩
  · rw [hsynced, hbytes, List.length_append]
    exact Nat.le_add_right_of_le h.synced
  · have hlog : j'.log = j.log ++ [] := by rw [hl, List.append_nil]
    have hsame : j'.writer.file.bytes.take j'.writer.file.synced =
        j.writer.file.bytes.take j.writer.file.synced := by
      rw [hsynced, hbytes, List.take_append_of_le_length h.synced]
    exact (h.durable r (hl ▸ hr) (hf ▸ hle)).stable _ hlog (hsame ▸ List.prefix_rfl)

theorem Filed.write (h : j.Filed base) (ho : j.Ordered) {rest : List AppendRequest}
    (hworker : j.worker = .writing batch (r :: rest))
    (hbytes : w.file.bytes ++ w.pending = j.writer.file.bytes ++ (j.writer.pending ++ r.bytes))
    (hgrow : j.writer.file.bytes <+: w.file.bytes)
    (hsynced : w.file.synced = j.writer.file.synced) :
    Filed base { j with writer := w, worker := .writing batch rest, log := j.log ++ [r] } := by
  refine ⟨?_, ?_, fun t ht hle => ?_⟩
  · rw [hbytes, ← List.append_assoc, h.file]
    simp
  · rw [hsynced]
    exact Nat.le_trans h.synced hgrow.length_le
  · rcases List.mem_append.mp ht with ht | ht
    · obtain ⟨tail, htail⟩ := hgrow
      have hsame : w.file.bytes.take w.file.synced =
          j.writer.file.bytes.take j.writer.file.synced := by
        rw [hsynced, ← htail, List.take_append_of_le_length h.synced]
      exact (h.durable t ht hle).stable [r] rfl (hsame ▸ List.prefix_rfl)
    · -- The new record has an id above the mark.
      obtain rfl := List.mem_singleton.mp ht
      have hlate : j.flushedWork < t.seq := by
        apply ho.late t
        simp [queue, Worker.rest, hworker]
      exact absurd hle (Nat.not_le.mpr hlate)

theorem serveFlush_inv (ho : j.Ordered) (hf : j.Filed base) {io : WalIo}
    (hio : io.stopsAfter = none) {w : Nat} (hidle : j.worker = .idle)
    (hfront : j.backlog ++ j.channel = .flush w :: (backlog ++ channel))
    (hcontrols : ∀ r, .append r ∉ backlog) :
    Ordered (serveFlush { j with backlog, channel } io w) ∧
      Filed base (serveFlush { j with backlog, channel } io w) := by
  have hflush := flush_whole hio j.writer
  unfold serveFlush
  dsimp only
  cases hrun : flush io j.writer with
  | ok u writer =>
    obtain ⟨hbytes, hpending, hsynced⟩ := hflush.of_ok hrun
    constructor
    · refine ho.served hidle hfront hcontrols (Nat.le_max_left ..) (Nat.le_refl _) fun v hv => ?_
      rcases List.mem_append.mp hv with hv | hv
      · exact .inl hv
      · cases List.mem_singleton.mp hv
        exact .inr (Nat.le_max_right ..)
    · exact hf.flushed rfl rfl hbytes hpending hsynced
  | error err writer =>
    obtain ⟨-, hbytes, hpending, hsynced⟩ := hflush.of_error hrun
    constructor
    · refine ho.served hidle hfront hcontrols (Nat.le_refl _) (Nat.le_max_left ..) fun v hv => ?_
      rcases List.mem_append.mp hv with hv | hv
      · exact .inl hv
      · cases List.mem_singleton.mp hv
    · exact hf.drained rfl rfl rfl hbytes hpending hsynced

theorem finishBatch_inv (ho : j.Ordered) (hf : j.Filed base) {io : WalIo}
    (hio : io.stopsAfter = none) (hworker : j.worker = .writing batch []) :
    Ordered (j.finishBatch io batch) ∧ Filed base (j.finishBatch io batch) := by
  have hflush := flush_whole hio j.writer
  unfold finishBatch
  dsimp only
  split
  · cases hrun : flush io j.writer with
    | ok u writer =>
      obtain ⟨hbytes, hpending, hsynced⟩ := hflush.of_ok hrun
      exact ⟨ho.finish hworker (Nat.le_max_left ..) (Nat.le_refl _),
        hf.flushed rfl rfl hbytes hpending hsynced⟩
    | error err writer =>
      obtain ⟨-, hbytes, hpending, hsynced⟩ := hflush.of_error hrun
      exact ⟨ho.finish hworker (Nat.le_refl _) (Nat.le_max_left ..),
        hf.drained rfl rfl rfl hbytes hpending hsynced⟩
  · exact ⟨ho.finish hworker (Nat.le_refl _) (Nat.le_max_left ..), hf.same rfl rfl rfl⟩

/-- Every orderly step keeps the line in order and the file true to it. -/
theorem step_inv {a : Action} (hinv : j.Ordered ∧ j.Filed base) (hmay : j.Orderly a)
    (hstep : j.step a = some j') : j'.Ordered ∧ j'.Filed base := by
  obtain ⟨ho, hf⟩ := hinv
  cases a with
  | takeId bytes sync =>
    cases hstep
    exact ⟨ho.takeId bytes sync, hf.same rfl rfl rfl⟩
  | send seq =>
    simp only [step] at hstep
    split at hstep
    · rename_i r hr
      split at hstep
      · cases hstep
        exact ⟨ho.send hr hmay, hf.same rfl rfl rfl⟩
      · cases hstep
    · cases hstep
  | raise seq =>
    simp only [step] at hstep
    split at hstep
    · rename_i r hr
      cases hstep
      exact ⟨ho.raise hr, hf.same rfl rfl rfl⟩
    · cases hstep
  | callFlush observed =>
    simp only [step] at hstep
    split at hstep
    · cases hstep
      exact ⟨ho, hf⟩
    · split at hstep
      · cases hstep
        exact ⟨ho.callFlush hmay, hf.same rfl rfl rfl⟩
      · cases hstep
  | receiveAck observed ok =>
    simp only [step] at hstep
    split at hstep
    · cases hstep
      refine ⟨{ ho with acked := fun v hv => ho.acked v (List.mem_of_mem_erase hv) }, ?_⟩
      exact hf.same rfl rfl rfl
    · cases hstep
  | receive io =>
    simp only [step] at hstep
    split at hstep
    · rename_i c backlog hworker hback
      cases hstep
      have hcontrols := ho.controls
      rw [hback] at hcontrols
      cases c with
      | append r => exact absurd List.mem_cons_self (hcontrols r)
      | flush w =>
        refine serveFlush_inv ho hf hmay hworker ?_
          fun r hr => hcontrols r (List.mem_cons_of_mem _ hr)
        rw [hback, List.cons_append]
    · rename_i c channel hworker hback hchannel
      cases hstep
      cases c with
      | append r => exact ⟨ho.collect hworker hback hchannel, hf.same rfl rfl rfl⟩
      | flush w =>
        refine serveFlush_inv ho hf hmay hworker ?_ ho.controls
        rw [hback, hchannel]
        rfl
    · cases hstep
  | gather =>
    simp only [step] at hstep
    split at hstep
    · rename_i batch c channel hworker hchannel
      split at hstep
      · split at hstep
        · cases hstep
          exact ⟨ho.gather hworker hchannel, hf.same rfl rfl rfl⟩
        · rename_i c hother
          cases hstep
          have hback := ho.calm batch hworker
          refine ⟨ho.close hworker ?_ fun r hr => ?_, hf.same rfl rfl rfl⟩
          · rw [hback, hchannel]
            rfl
          · rw [hback] at hr
            exact hother r (List.mem_singleton.mp hr).symm
      · cases hstep
    · cases hstep
  | close =>
    simp only [step] at hstep
    split at hstep
    · rename_i batch hworker
      cases hstep
      exact ⟨ho.close hworker rfl ho.controls, hf.same rfl rfl rfl⟩
    · cases hstep
  | write io =>
    simp only [step] at hstep
    split at hstep
    · rename_i batch r rest hworker
      obtain ⟨u, w, hrun, hbytes, hgrow, hsynced⟩ :=
        (appendEncoded_whole hmay j.writer r.bytes).returns
      rw [hrun] at hstep
      cases hstep
      exact ⟨ho.write hworker, hf.write ho hworker hbytes hgrow hsynced⟩
    · cases hstep
  | finish io =>
    simp only [step] at hstep
    split at hstep
    · rename_i batch hworker
      cases hstep
      exact finishBatch_inv ho hf hmay hworker
    · cases hstep

end Steps

/-- A log file that was just opened has nothing pending. -/
theorem openOrCreate_clean {file : Option WalFile} {treeId now : Nat} {w : WalWriter}
    (hfile : ∀ f ∈ file, f.synced ≤ f.bytes.length) (hopen : openOrCreate file treeId now = .ok w) :
    w.pending = [] ∧ w.file.synced ≤ w.file.bytes.length := by
  cases file with
  | none =>
    cases hopen
    exact ⟨rfl, Nat.le_of_eq (Codec.length_encodeFileHeader _).symm⟩
  | some f =>
    simp only [openOrCreate, openExisting] at hopen
    split at hopen
    · cases hopen
    · cases hdecode : Codec.decodeFileHeader (f.bytes.take Codec.fileHeaderSize) with
      | error err =>
        rw [hdecode] at hopen
        cases hopen
      | ok header =>
        rw [hdecode] at hopen
        simp only [Except.map, Except.bind] at hopen
        split at hopen
        · cases hopen
        · cases hopen
          exact ⟨rfl, hfile f rfl⟩

theorem openJournal_inv {file : Option WalFile} {treeId now : Nat} {w : WalWriter}
    (hfile : ∀ f ∈ file, f.synced ≤ f.bytes.length) (hopen : openOrCreate file treeId now = .ok w) :
    (openJournal w).Ordered ∧ (openJournal w).Filed w.file.bytes := by
  obtain ⟨hpending, hsynced⟩ := openOrCreate_clean hfile hopen
  constructor
  · constructor
    all_goals simp [openJournal, line, queue, Worker.rest]
  · refine ⟨?_, hsynced, fun r hr => ?_⟩
    · simp [openJournal, hpending]
    · simp [openJournal] at hr

/-- When `flush_up_to` returns, every record up to its id is in the synced part of the file, in
every orderly run. -/
theorem flushed_records_covered {file : Option WalFile} {treeId now : Nat} {w₀ : WalWriter}
    {j j' : Journal} {a : Action} {observed : Nat}
    (hfile : ∀ f ∈ file, f.synced ≤ f.bytes.length)
    (hopen : openOrCreate file treeId now = .ok w₀)
    (hrun : Run step Orderly (openJournal w₀) j) (hmay : j.Orderly a)
    (hstep : j.step a = some j') (hret : j.FlushReturns observed a) :
    ∀ r ∈ j'.returned, r.seq ≤ observed → Covered w₀.file.bytes j' r := by
  have hinv := hrun.invariant (I := fun j => j.Ordered ∧ j.Filed w₀.file.bytes)
    (openJournal_inv hfile hopen) fun h hmay hstep => step_inv h hmay hstep
  obtain ⟨ho, hf⟩ := step_inv hinv hmay hstep
  intro r hr hle
  have hobs : observed ≤ j'.flushedWork := by
    cases a with
    | callFlush w =>
      obtain ⟨rfl, hmark⟩ := hret
      rw [step, if_pos hmark] at hstep
      cases hstep
      exact hmark
    | receiveAck w ok =>
      obtain ⟨rfl, rfl⟩ := hret
      simp only [step] at hstep
      split at hstep
      · rename_i hack
        cases hstep
        exact hinv.1.acked w hack
      · cases hstep
    | _ => exact hret.elim
  have hin := ho.passed r (List.mem_append_right _ hr)
  rcases List.mem_append.mp hin with hlog | hqueue
  · obtain ⟨t, ht, heq⟩ := List.mem_map.mp hlog
    cases heq
    exact hf.durable r ht (Nat.le_trans hle hobs)
  · have := ho.late r (List.mem_append_left _ hqueue)
    omega

/-- Two writers: the first one waits with its id, the second one's record is synced. -/
def overtaking : List Action :=
  [.takeId [1] false, .takeId [2] true, .send 2, .receive .fine, .close, .write .fine,
    .finish .fine, .send 1, .raise 1]

def inTurn : List Action :=
  [.takeId [1] false, .takeId [2] true, .send 1, .send 2, .raise 1, .receive .fine, .gather, .close,
    .write .fine, .write .fine, .finish .fine]

instance (j : Journal) (a : Action) : Decidable (j.Orderly a) := by
  cases a <;> unfold Orderly <;> infer_instance

theorem flushed_records_covered_two :
    ∃ j, play step Orderly inTurn (openJournal (create 0 0)) = some j ∧
      j.step (.callFlush 1) = some j ∧ (⟨[1], 1, false⟩ : AppendRequest) ∈ j.returned ∧
      Covered (create 0 0).file.bytes j ⟨[1], 1, false⟩ := by
  have hplay : (play step Orderly inTurn (openJournal (create 0 0))).any (fun j =>
      decide ((⟨[1], 1, false⟩ : AppendRequest) ∈ j.returned) && decide (1 ≤ j.flushedWork) &&
        decide (1 ≤ j.queuedWork)) = true := by decide +kernel
  obtain ⟨j, hj, hrest⟩ := (Option.any_eq_true _ _).mp hplay
  obtain ⟨hrest, hqueued⟩ := Bool.and_eq_true_iff.mp hrest
  obtain ⟨hmem, hmark⟩ := Bool.and_eq_true_iff.mp hrest
  have hmark := of_decide_eq_true hmark
  have hqueued : 1 ≤ j.queuedWork := of_decide_eq_true hqueued
  have hstep : j.step (.callFlush 1) = some j := by rw [step, if_pos hmark]
  refine ⟨j, hj, hstep, of_decide_eq_true hmem, ?_⟩
  have hopen : openOrCreate none 0 0 = .ok (create 0 0) := rfl
  exact flushed_records_covered (a := .callFlush 1) (fun _ hf => by cases hf) hopen
    (run_of_play hj) hqueued hstep ⟨rfl, hmark⟩ _ (of_decide_eq_true hmem) (Nat.le_refl 1)

/-- The second record's sync raises the mark over the first one's id. -/
theorem overtaken_record_not_covered :
    ∃ j, play step (fun _ _ => True) overtaking (openJournal (create 0 0)) = some j ∧
      j.step (.callFlush 1) = some j ∧ j.FlushReturns 1 (.callFlush 1) ∧
      ⟨[1], 1, false⟩ ∈ j.returned ∧ .append ⟨[1], 1, false⟩ ∈ j.channel ∧
      ¬ Covered (create 0 0).file.bytes j ⟨[1], 1, false⟩ := by
  have hplay : (play step (fun _ _ => True) overtaking (openJournal (create 0 0))).any (fun j =>
      decide ((⟨[1], 1, false⟩ : AppendRequest) ∈ j.returned) && decide (1 ≤ j.flushedWork) &&
        decide (.append ⟨[1], 1, false⟩ ∈ j.channel) &&
        decide (⟨[1], 1, false⟩ ∉ j.log)) = true := by
    decide +kernel
  obtain ⟨j, hj, hrest⟩ := (Option.any_eq_true _ _).mp hplay
  obtain ⟨hrest, hlog⟩ := Bool.and_eq_true_iff.mp hrest
  obtain ⟨hrest, hchannel⟩ := Bool.and_eq_true_iff.mp hrest
  obtain ⟨hmem, hmark⟩ := Bool.and_eq_true_iff.mp hrest
  have hmark := of_decide_eq_true hmark
  refine ⟨j, hj, by rw [step, if_pos hmark], ⟨rfl, hmark⟩, of_decide_eq_true hmem,
    of_decide_eq_true hchannel, ?_⟩
  rintro ⟨before, after, hsplit, -⟩
  exact of_decide_eq_true hlog (by simp [hsplit])

end Journal

end Holt.GroupCommit
