import Holt.Journal.Writer
import Holt.Lib.Machine

/-! Sessions on one log file, each ended by a crash. -/

namespace Holt.Writer

open Holt.Lib Holt.Codec Holt.Reader

/-- What a replay is called with, in order. -/
def collect (op : WalOp) (seq _ : Nat) : EStateM Error (List (WalOp × Nat)) Unit :=
  modify fun seen => seen ++ [(op, seq)]

structure Opened where
  writer : WalWriter
  stats : ReplayStats
  replayed : List (WalOp × Nat)

/-- Replay what is there, then open the file for appending. -/
def openWal (now : Nat) (file : Option WalFile) : Except Error Opened :=
  match file with
  | none => (openOrCreate none 0 now).map fun w => ⟨w, ⟨0, none, none⟩, []⟩
  | some f =>
    match replayBytes collect f.bytes [] with
    | .error err _ => .error err
    | .ok (_, stats) replayed => (openOrCreate (some f) 0 now).map fun w => ⟨w, stats, replayed⟩

/-- `torn` says that the log ended in a part of a record when it was opened; the records of the
session start at `base`. -/
inductive Phase
  | closed (file : Option WalFile)
  | running (w : WalWriter) (base : Nat) (torn : Bool)
  deriving DecidableEq, Repr

/-- `kept` are the records of earlier sessions that survived their crash, `appended` those of this
one; `flushed` were there at the last flush. All are counted from the last truncation. -/
structure Sessions where
  phase : Phase
  kept : List LogRecord
  appended : List LogRecord
  flushed : List LogRecord

inductive Event
  | «open» (now : Nat)
  | append (r : LogRecord)
  /-- The first half of a flush: written, not synced. -/
  | drain
  | flush
  | truncate
  /-- The first `n` bytes of the file are left. -/
  | crash (n : Nat)

namespace Sessions

def fresh : Sessions := ⟨.closed none, [], [], []⟩

def step (s : Sessions) (e : Event) : Option Sessions :=
  match s.phase, e with
  | .closed f, .open now =>
    match openWal now f with
    | .ok o => some { s with
        phase := .running o.writer o.writer.file.bytes.length o.stats.tornTailAt.isSome
        appended := [] }
    | .error _ => none
  | .running w base torn, .append r =>
    -- a record that does not fit its length fields is not encoded
    if r.Fits then
      match appendEncoded .fine r.encode w with
      | .ok _ w => some { s with phase := .running w base torn, appended := s.appended ++ [r] }
      | .error .. => none
    else none
  | .running w base torn, .drain =>
    match drainToOs .fine w with
    | .ok _ w => some { s with phase := .running w base torn }
    | .error .. => none
  | .running w base torn, .flush =>
    match Writer.flush .fine w with
    | .ok _ w => some { s with phase := .running w base torn, flushed := s.kept ++ s.appended }
    | .error .. => none
  | .running w _ _, .truncate =>
    match Writer.truncate .fine w with
    | .ok _ w => some ⟨.running w fileHeaderSize false, [], [], []⟩
    | .error .. => none
  | .running w base _, .crash n =>
    if w.file.synced ≤ n ∧ n ≤ w.file.bytes.length then
      some ⟨.closed (some ⟨w.file.bytes.take n, n⟩), s.kept ++ inside (n - base) s.appended, [],
        s.flushed⟩
    else none
  | _, _ => none

def torn (s : Sessions) : Bool :=
  match s.phase with
  | .running _ _ torn => torn
  | .closed _ => false

end Sessions

def Event.isAppend : Event → Bool
  | .append _ => true
  | _ => false

namespace Sessions

/-- Nothing is appended behind a part of a record. -/
def Whole (s : Sessions) (e : Event) : Prop := s.torn = true → e.isAppend = false

instance (s : Sessions) (e : Event) : Decidable (s.Whole e) :=
  inferInstanceAs (Decidable (_ → _))

/-! ## What the file holds -/

/-- The header of the log of the tree. -/
def Header (h : FileHeader) : Prop := h.treeId = 0 ∧ h.createdAt < 2 ^ 64

/-- The file of a log: its header, and its records as far as they go. -/
structure Holds (file : WalFile) (rs : List LogRecord) (k : Nat) : Prop where
  fits : ∀ r ∈ rs, r.Fits
  bytes : ∃ h, Header h ∧
    file.bytes = encodeFileHeader h ++ (rs.flatMap LogRecord.encode).take k

section Opening

variable {file : WalFile} {rs : List LogRecord} {k : Nat}

theorem takeCalls_collect (offset : Nat) (rs : List LogRecord) (seen : List (WalOp × Nat)) :
    takeCalls (fun op seq _ seen => seen ++ [(op, seq)]) (calls offset rs) seen =
      seen ++ ops (rs.map LogRecord.decoded) := by
  induction rs generalizing offset seen with
  | nil => exact (List.append_nil _).symm
  | cons r rs ih =>
    rw [calls, takeCalls_append, ih, List.map_cons, ops, ops, List.flatMap_cons,
      ← List.append_assoc, takeCalls, List.foldl_map]
    simp [LogRecord.decoded, List.foldl_append_eq_append, ← List.flatMap_def]

/-- A log is opened whatever it ends in, and gives the records that are whole. -/
theorem openWal_holds (h : Holds file rs k) (now : Nat) :
    ∃ o, openWal now (some file) = .ok o ∧ o.writer.file = file ∧ o.writer.pending = [] ∧
      o.replayed = ops ((inside k rs).map LogRecord.decoded) ∧
      (o.stats.tornTailAt = none →
        (rs.flatMap LogRecord.encode).take k = (inside k rs).flatMap LogRecord.encode) := by
  obtain ⟨header, ⟨htree, hcreated⟩, hbytes⟩ := h.bytes
  have hlen := length_encodeFileHeader header
  have hheader : decodeFileHeader (encodeFileHeader header) = .ok header :=
    decodeFileHeader_encode (htree ▸ by decide) hcreated
  obtain ⟨stats, hrun, htorn⟩ : ∃ stats, replayBytes collect file.bytes [] =
        .ok (header, stats) (ops ((inside k rs).map LogRecord.decoded)) ∧
      (stats.tornTailAt = none →
        (rs.flatMap LogRecord.encode).take k = (inside k rs).flatMap LogRecord.encode) := by
    have hcut := replayBytes_cut (fun op seq _ seen => seen ++ [(op, seq)]) hlen hheader h.fits k []
    rw [takeCalls_collect, ← hbytes] at hcut
    refine ⟨_, hcut, fun htorn => ?_⟩
    obtain ⟨_, part, -, htake, -⟩ := take_eq_inside k rs
    rw [htake, List.length_append] at htorn
    split at htorn
    · have hnil : part = [] := List.eq_nil_of_length_eq_zero (by omega)
      rw [htake, hnil, List.append_nil]
    · cases htorn
  have hlong : ¬ file.bytes.length < fileHeaderSize := by
    rw [hbytes, List.length_append, hlen]
    omega
  rw [← List.take_left' hlen, ← hbytes] at hheader
  refine ⟨⟨⟨file, [], file.bytes.length, header⟩, stats, ops _⟩, ?_, rfl, rfl, rfl, htorn⟩
  simp only [openWal, hrun, openOrCreate, openExisting, if_neg hlong, hheader]
  dsimp only [Except.map, Except.bind]
  rw [if_neg (not_not_intro htree)]

end Opening

/-! ## Along the sessions -/

/-- A file that nobody is writing to: it is on the disk, and `kept` are its whole records. -/
structure Rests (file : WalFile) (kept flushed : List LogRecord) : Prop where
  holds : ∃ rs k, Holds file rs k ∧ kept = inside k rs
  synced : file.synced = file.bytes.length
  safe : flushed <+: kept

/-- A writer behind whole records. -/
structure Grows (w : WalWriter) (base : Nat) (kept appended flushed : List LogRecord) : Prop where
  fits : ∀ r ∈ kept ++ appended, r.Fits
  bytes : ∃ h, Header h ∧ w.file.bytes ++ w.pending =
    encodeFileHeader h ++ (kept ++ appended).flatMap LogRecord.encode
  base_eq : base = fileHeaderSize + (kept.flatMap LogRecord.encode).length
  base_le : base ≤ w.file.synced
  synced : w.file.synced ≤ w.file.bytes.length
  safe : flushed <+: kept ++ appended
  there : fileHeaderSize + (flushed.flatMap LogRecord.encode).length ≤ w.file.synced

def Inv (s : Sessions) : Prop :=
  match s.phase with
  | .closed none => s.kept = [] ∧ s.flushed = []
  | .closed (some file) => Rests file s.kept s.flushed
  | .running w base true => Rests w.file s.kept s.flushed ∧ base = w.file.bytes.length ∧
      w.pending = [] ∧ s.appended = []
  | .running w base false => Grows w base s.kept s.appended s.flushed

section Step

variable {s s' : Sessions} {w w' : WalWriter} {base : Nat}
  {kept appended flushed : List LogRecord}

theorem grows_header {h : FileHeader} (hh : Header h)
    (hb : w.file.bytes = encodeFileHeader h) (hp : w.pending = [])
    (hs : w.file.synced = w.file.bytes.length) : Grows w fileHeaderSize [] [] [] := by
  have hlen : w.file.synced = fileHeaderSize := by rw [hs, hb, length_encodeFileHeader]
  exact ⟨nofun, ⟨h, hh, by rw [hb, hp]; rfl⟩, rfl, Nat.le_of_eq hlen.symm, Nat.le_of_eq hs,
    List.nil_prefix, Nat.le_of_eq hlen.symm⟩

/-- A file at rest without a torn record can be written on. -/
theorem Rests.grows (h : Rests w.file kept flushed) (hp : w.pending = []) {rs : List LogRecord}
    {k : Nat} (hk : kept = inside k rs) (hh : Holds w.file rs k)
    (hwhole : (rs.flatMap LogRecord.encode).take k = (inside k rs).flatMap LogRecord.encode) :
    Grows w w.file.bytes.length kept [] flushed := by
  obtain ⟨hd, hhd, hb⟩ := hh.bytes
  rw [hwhole, ← hk] at hb
  have hlen : w.file.bytes.length = fileHeaderSize + (kept.flatMap LogRecord.encode).length := by
    rw [hb, List.length_append, length_encodeFileHeader]
  obtain ⟨more, hmore⟩ := h.safe
  have hshort : (flushed.flatMap LogRecord.encode).length ≤
      (kept.flatMap LogRecord.encode).length := by
    rw [← hmore, List.flatMap_append, List.length_append]
    omega
  refine ⟨fun r hr => hh.fits r ?_, ⟨hd, hhd, ?_⟩, hlen, Nat.le_of_eq h.synced.symm,
    Nat.le_of_eq h.synced, ?_, ?_⟩
  · rw [List.append_nil, hk] at hr
    exact (inside_isPrefix k rs).subset hr
  · rw [hp, List.append_nil, List.append_nil, hb]
  · rw [List.append_nil]
    exact h.safe
  · rw [h.synced, hlen]
    omega

theorem Grows.header (h : Grows w base kept appended flushed) :
    ∃ hd, Header hd ∧ w.file.bytes.take fileHeaderSize = encodeFileHeader hd := by
  obtain ⟨hd, hh, hb⟩ := h.bytes
  have hlong : fileHeaderSize ≤ w.file.bytes.length := by
    have := h.base_eq
    have := h.base_le
    have := h.synced
    omega
  have htake : (w.file.bytes ++ w.pending).take fileHeaderSize = encodeFileHeader hd := by
    rw [hb, List.take_left' (length_encodeFileHeader hd)]
  rw [List.take_append_of_le_length hlong] at htake
  exact ⟨hd, hh, htake⟩

/-- What a crash leaves of a log that grew. -/
theorem Grows.crash (h : Grows w base kept appended flushed) {n : Nat}
    (hlow : w.file.synced ≤ n) (hhigh : n ≤ w.file.bytes.length) :
    Rests ⟨w.file.bytes.take n, n⟩ (kept ++ inside (n - base) appended) flushed := by
  obtain ⟨hd, hh, hb⟩ := h.bytes
  have hbase := h.base_eq
  have hle := h.base_le
  have hthere := h.there
  have htake : w.file.bytes.take n = encodeFileHeader hd ++
      ((kept ++ appended).flatMap LogRecord.encode).take (n - fileHeaderSize) := by
    rw [← List.take_append_of_le_length hhigh, hb, List.take_append, length_encodeFileHeader,
      List.take_of_length_le (by rw [length_encodeFileHeader]; omega)]
  have hinside : kept ++ inside (n - base) appended =
      inside (n - fileHeaderSize) (kept ++ appended) := by
    rw [inside_append (by omega), Nat.sub_sub, ← hbase]
  refine ⟨⟨_, _, ⟨h.fits, hd, hh, htake⟩, hinside⟩, ?_, ?_⟩
  · rw [List.length_take, Nat.min_eq_left hhigh]
  · rw [hinside]
    exact prefix_inside h.safe (by omega)

theorem Grows.append (h : Grows w base kept appended flushed) {r : LogRecord} (hr : r.Fits)
    (hb : w'.file.bytes ++ w'.pending = w.file.bytes ++ (w.pending ++ r.encode))
    (hp : w.file.bytes <+: w'.file.bytes) (hs : w'.file.synced = w.file.synced) :
    Grows w' base kept (appended ++ [r]) flushed := by
  obtain ⟨hd, hh, hbytes⟩ := h.bytes
  have hsynced := h.synced
  have hlen := hp.length_le
  refine ⟨fun q hq => ?_, ⟨hd, hh, ?_⟩, h.base_eq, hs ▸ h.base_le, hs ▸ Nat.le_trans hsynced hlen,
    ?_, hs ▸ h.there⟩
  · rw [← List.append_assoc] at hq
    rcases List.mem_append.mp hq with hq | hq
    · exact h.fits q hq
    · obtain rfl := List.mem_singleton.mp hq
      exact hr
  · rw [hb, ← List.append_assoc, hbytes, ← List.append_assoc kept, List.flatMap_append,
      List.append_assoc]
    simp
  · rw [← List.append_assoc]
    exact h.safe.trans (List.prefix_append _ _)

theorem Grows.drain (h : Grows w base kept appended flushed)
    (hb : w'.file.bytes = w.file.bytes ++ w.pending) (hp : w'.pending = [])
    (hs : w'.file.synced = w.file.synced) : Grows w' base kept appended flushed := by
  have hsynced := h.synced
  refine ⟨h.fits, ?_, h.base_eq, hs ▸ h.base_le, ?_, h.safe, hs ▸ h.there⟩
  · rw [hb, hp, List.append_nil]
    exact h.bytes
  · rw [hs, hb, List.length_append]
    omega

theorem Grows.flush (h : Grows w base kept appended flushed)
    (hb : w'.file.bytes = w.file.bytes ++ w.pending) (hp : w'.pending = [])
    (hs : w'.file.synced = w'.file.bytes.length) :
    Grows w' base kept appended (kept ++ appended) := by
  obtain ⟨hd, hh, hbytes⟩ := h.bytes
  have hsynced := h.synced
  have hle := h.base_le
  have hlen : w'.file.synced =
      fileHeaderSize + ((kept ++ appended).flatMap LogRecord.encode).length := by
    rw [hs, hb, hbytes, List.length_append, length_encodeFileHeader]
  refine ⟨h.fits, ⟨hd, hh, ?_⟩, h.base_eq, ?_, Nat.le_of_eq hs, List.prefix_rfl,
    Nat.le_of_eq hlen.symm⟩
  · rw [hb, hp, List.append_nil, hbytes]
  · rw [hs, hb, List.length_append]
    omega

theorem Rests.same (h : Rests w.file kept flushed) (hb : w'.file.bytes = w.file.bytes)
    (hs : w'.file.synced = w.file.synced) : Rests w'.file kept flushed := by
  have hfile : w'.file = w.file := by
    obtain ⟨⟨b, n⟩⟩ := w
    obtain ⟨⟨b', n'⟩⟩ := w'
    cases hb
    cases hs
    rfl
  rwa [hfile]

theorem Rests.header (h : Rests w.file kept flushed) :
    ∃ hd, Header hd ∧ w.file.bytes.take fileHeaderSize = encodeFileHeader hd := by
  obtain ⟨rs, k, ⟨-, hd, hh, hb⟩, -⟩ := h.holds
  exact ⟨hd, hh, by rw [hb, List.take_left' (length_encodeFileHeader hd)]⟩

theorem inv_open {now : Nat} {file : Option WalFile} (hc : s.phase = .closed file) (h : s.Inv)
    (hs : s.step (.open now) = some s') : s'.Inv := by
  obtain ⟨phase, kept, appended, flushed⟩ := s
  obtain rfl : phase = .closed file := hc
  cases file with
  | none =>
    obtain ⟨hk, hf⟩ : kept = [] ∧ flushed = [] := h
    subst hk hf
    obtain rfl := Option.some.inj hs
    have hgrows : Grows (create 0 now) fileHeaderSize [] [] [] :=
      grows_header ⟨rfl, Nat.mod_lt _ (Nat.two_pow_pos 64)⟩ rfl rfl (length_encodeFileHeader _).symm
    rwa [← length_encodeFileHeader ⟨0, now % 2 ^ 64⟩] at hgrows
  | some file =>
    have hrests : Rests file kept flushed := h
    obtain ⟨rs, k, hholds, hk⟩ := hrests.holds
    obtain ⟨o, hopen, rfl, hp, -, htorn⟩ := openWal_holds hholds now
    simp only [step, hopen, Option.some.injEq] at hs
    subst hs
    rw [Inv]
    cases ht : o.stats.tornTailAt with
    | none => exact hrests.grows hp hk hholds (htorn ht)
    | some offset => exact ⟨hrests, rfl, hp, rfl⟩

theorem step_inv {e : Event} (h : s.Inv) (hw : s.Whole e) (hs : s.step e = some s') : s'.Inv := by
  obtain ⟨phase, kept, appended, flushed⟩ := s
  cases phase with
  | closed file =>
    cases e with
    | «open» now => exact inv_open rfl h hs
    | append | drain | flush | truncate | crash => cases hs
  | running w base torn =>
    cases e with
    | «open» now => cases hs
    | append r =>
      obtain rfl : torn = false := by
        cases torn with
        | false => rfl
        | true => cases hw rfl
      simp only [step] at hs
      split at hs
      · rename_i hr
        obtain ⟨_, w', hrun, hb, hp, hsync⟩ := (appendEncoded_fine w r.encode).returns
        simp only [hrun, Option.some.injEq] at hs
        subst hs
        exact Grows.append h hr hb hp hsync
      · cases hs
    | drain =>
      obtain ⟨_, w', hrun, hb, hp, hsync⟩ := (drainToOs_fine w).returns
      simp only [step, hrun, Option.some.injEq] at hs
      subst hs
      cases torn with
      | false => exact Grows.drain h hb hp hsync
      | true =>
        obtain ⟨hrests, hbase, hidle, happended⟩ := h
        rw [hidle, List.append_nil] at hb
        exact ⟨hrests.same hb hsync, hb ▸ hbase, hp, happended⟩
    | flush =>
      obtain ⟨_, w', hrun, hb, hp, hsync⟩ := (flush_fine w).returns
      simp only [step, hrun, Option.some.injEq] at hs
      subst hs
      cases torn with
      | false => exact Grows.flush h hb hp hsync
      | true =>
        obtain ⟨hrests, hbase, hidle, happended⟩ := h
        rw [hidle, List.append_nil] at hb
        have hsame := hrests.same hb (hsync.trans (hb ▸ hrests.synced.symm))
        have hnone : kept ++ appended = kept := by
          rw [show appended = [] from happended, List.append_nil]
        refine ⟨⟨hsame.holds, hsame.synced, ?_⟩, hb ▸ hbase, hp, happended⟩
        exact ⟨[], by rw [List.append_nil]; exact hnone⟩
    | truncate =>
      obtain ⟨_, w', hrun, hb, hp, hsync⟩ := (truncate_fine w).returns
      simp only [step, hrun, Option.some.injEq] at hs
      subst hs
      obtain ⟨hd, hh, htake⟩ :
          ∃ hd, Header hd ∧ w.file.bytes.take fileHeaderSize = encodeFileHeader hd := by
        cases torn with
        | false => exact Grows.header h
        | true => exact Rests.header h.1
      exact grows_header hh (hb.trans htake) hp hsync
    | crash n =>
      simp only [step] at hs
      split at hs
      · rename_i hn
        obtain rfl := Option.some.inj hs
        cases torn with
        | false => exact Grows.crash h hn.1 hn.2
        | true =>
          -- nothing was written, so nothing is lost
          obtain ⟨hrests, hbase, hidle, happended⟩ := h
          have hn' : n = w.file.bytes.length := Nat.le_antisymm hn.2 (hrests.synced ▸ hn.1)
          have hempty : appended = [] := happended
          have hfile : (⟨w.file.bytes.take n, n⟩ : WalFile) = w.file := by
            rw [hn', List.take_length, ← hrests.synced]
          change Rests ⟨w.file.bytes.take n, n⟩ (kept ++ inside (n - base) appended) flushed
          rw [hfile, hempty, inside, List.append_nil]
          exact hrests
      · cases hs

end Step

/-- As long as nothing is appended behind a part of a record, every open succeeds and replays the
records that survived the crashes of their sessions; what was flushed is among them. -/
theorem open_replays_kept {t : Sessions} (h : Run step Whole fresh t) {file : Option WalFile}
    (hc : t.phase = .closed file) (now : Nat) :
    ∃ o, openWal now file = .ok o ∧ o.replayed = ops (t.kept.map LogRecord.decoded) ∧
      t.flushed <+: t.kept := by
  have hinv : t.Inv := h.invariant ⟨rfl, rfl⟩ step_inv
  rw [Inv, hc] at hinv
  cases file with
  | none =>
    obtain ⟨hk, hf⟩ := hinv
    rw [hk, hf]
    exact ⟨_, rfl, rfl, List.prefix_rfl⟩
  | some file =>
    obtain ⟨rs, k, hholds, hk⟩ := hinv.holds
    obtain ⟨o, hopen, -, -, hseen, -⟩ := openWal_holds hholds now
    exact ⟨o, hopen, hk ▸ hseen, hinv.safe⟩

/-- A record that is not synced when the process crashes, then one that is. -/
def twoCrashes (n m : Nat) : List Event :=
  [.open 0, .append (.insert 1 0 [1] [10]), .drain, .crash n, .open 0,
    .append (.insert 2 0 [2] [20]), .flush, .crash m]

theorem open_replays_kept_two : ∃ t file, play step Whole (twoCrashes 71 110) fresh = some t ∧
    t.phase = .closed file ∧ t.kept.length = 2 ∧
    ∃ o, openWal 0 file = .ok o ∧ o.replayed = ops (t.kept.map LogRecord.decoded) ∧
      t.flushed <+: t.kept := by
  have hrun : (play step Whole (twoCrashes 71 110) fresh).any (fun t =>
      match t.phase with
      | .closed _ => t.kept.length = 2
      | .running .. => false) = true := by decide +kernel
  obtain ⟨t, hplay, ht⟩ := (Option.any_eq_true _ _).mp hrun
  split at ht
  · rename_i file hc
    exact ⟨t, file, hplay, hc, of_decide_eq_true ht, open_replays_kept (run_of_play hplay) hc 0⟩
  · cases ht

/-- The file that nobody is writing to. -/
def rest (s : Sessions) : Option WalFile :=
  match s.phase with
  | .closed file => file
  | .running .. => none

/-- Four bytes of the first record are left. The flushed record behind them is read as the rest of
that record's header, and no open finds it. -/
theorem flushed_record_lost : ∃ t file o, Run step (fun _ _ => True) fresh t ∧
    t.phase = .closed (some file) ∧ t.flushed = [.insert 2 0 [2] [20]] ∧
    t.kept = [.insert 2 0 [2] [20]] ∧ openWal 0 (some file) = .ok o ∧ o.replayed = [] := by
  have hplay : (play step (fun _ _ => True) (twoCrashes 36 75) fresh).any (fun t =>
      (t.rest.any fun file => t.flushed = [.insert 2 0 [2] [20]] ∧
        t.kept = [.insert 2 0 [2] [20]] ∧
        (openWal 0 (some file)).toOption.any fun o => o.replayed = []) = true) := by decide +kernel
  obtain ⟨t, hrun, hrest⟩ := exists_run_of_play hplay
  obtain ⟨file, hfile, hend⟩ := (Option.any_eq_true _ _).mp hrest
  obtain ⟨hflushed, hkept, hopen⟩ := of_decide_eq_true hend
  obtain ⟨o, ho, hseen⟩ := (Option.any_eq_true _ _).mp hopen
  have hphase : t.phase = .closed (some file) := by
    unfold rest at hfile
    split at hfile
    · rename_i hphase
      rw [hphase, hfile]
    · cases hfile
  have hok : openWal 0 (some file) = .ok o := by
    cases hres : openWal 0 (some file) with
    | ok o' =>
      rw [hres] at ho
      exact congrArg _ (Option.some.inj ho)
    | error err =>
      rw [hres] at ho
      cases ho
  exact ⟨t, file, o, hrun, hphase, hflushed, hkept, hok, of_decide_eq_true hseen⟩

end Sessions

end Holt.Writer
