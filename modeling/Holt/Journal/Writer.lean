import Holt.Journal.Reader

/-! The writer of the log file. -/

namespace Holt.Writer

open Holt.Lib Holt.Codec Holt.Reader

def autoFlushThreshold : Nat := 64 * 1024

/-- A file as the operating system has it. The first `synced` bytes are on the disk. -/
structure WalFile where
  bytes : List UInt8
  synced : Nat
  deriving DecidableEq, Repr

/-- How the calls to the operating system turn out: a write may stop after some bytes, a sync may
fail. -/
structure WalIo where
  stopsAfter : Option Nat
  syncs : Bool

def WalIo.fine : WalIo := ⟨none, true⟩

structure WalWriter where
  file : WalFile
  pending : List UInt8
  bytesWritten : Nat
  header : FileHeader
  deriving DecidableEq, Repr

abbrev WriterM := EStateM Error WalWriter

def create (treeId now : Nat) : WalWriter :=
  let header : FileHeader := ⟨treeId, now % 2 ^ 64⟩
  ⟨⟨encodeFileHeader header, fileHeaderSize⟩, [], fileHeaderSize, header⟩

def openExisting (file : WalFile) : Except Error WalWriter :=
  if file.bytes.length < fileHeaderSize then .error (.blobStoreIo .other)
  else (decodeFileHeader (file.bytes.take fileHeaderSize)).map fun header =>
    ⟨file, [], file.bytes.length, header⟩

def openOrCreate (file : Option WalFile) (treeId now : Nat) : Except Error WalWriter :=
  match file with
  | some file => (openExisting file).bind fun w =>
    if w.header.treeId ≠ treeId then
      .error (.replaySanityFailed "WAL file tree_id mismatch on open" 0)
    else .ok w
  | none => .ok (create treeId now)

def hasRecords (w : WalWriter) : Bool := fileHeaderSize < w.bytesWritten + w.pending.length

/-- A write that stops short leaves its bytes pending. -/
def drainToOs (io : WalIo) : WriterM Unit := do
  let w ← get
  if w.pending.isEmpty then pure ()
  else
    match io.stopsAfter with
    | some n => do
      set { w with file := { w.file with bytes := w.file.bytes ++ w.pending.take n } }
      throw (.blobStoreIo .other)
    | none =>
      set { w with
        file := { w.file with bytes := w.file.bytes ++ w.pending }
        bytesWritten := w.bytesWritten + w.pending.length
        pending := [] }

def syncData (io : WalIo) : WriterM Unit :=
  if io.syncs then
    modify fun w => { w with file := { w.file with synced := w.file.bytes.length } }
  else throw (.blobStoreIo .other)

def appendEncoded (io : WalIo) (record : List UInt8) : WriterM Unit := do
  modify fun w => { w with pending := w.pending ++ record }
  let w ← get
  if autoFlushThreshold ≤ w.pending.length then drainToOs io else pure ()

def flush (io : WalIo) : WriterM Unit := do
  drainToOs io
  syncData io

def truncate (io : WalIo) : WriterM Unit := do
  modify fun w => { w with
    pending := []
    file := ⟨w.file.bytes.take fileHeaderSize, min w.file.synced fileHeaderSize⟩ }
  syncData io
  modify fun w => { w with bytesWritten := fileHeaderSize }

/-! ## Without writes that stop short -/

section Whole

variable {io : WalIo} (hio : io.stopsAfter = none) (w : WalWriter)

include hio

theorem drainToOs_whole : Sat (drainToOs io) w
    (fun _ w' => w'.file.bytes = w.file.bytes ++ w.pending ∧ w'.pending = [] ∧
      w'.file.synced = w.file.synced) fun _ _ => False := by
  unfold drainToOs
  rw [hio]
  simp only [sat_bind, sat_get]
  split
  · rename_i hempty
    have hnil : w.pending = [] := List.isEmpty_iff.mp hempty
    rw [sat_pure, hnil, List.append_nil]
    exact ⟨rfl, rfl, rfl⟩
  · rw [sat_set]
    exact ⟨rfl, rfl, rfl⟩

theorem appendEncoded_whole (record : List UInt8) : Sat (appendEncoded io record) w
    (fun _ w' => w'.file.bytes ++ w'.pending = w.file.bytes ++ (w.pending ++ record) ∧
      w.file.bytes <+: w'.file.bytes ∧ w'.file.synced = w.file.synced) fun _ _ => False := by
  unfold appendEncoded
  simp only [sat_bind, sat_modify, sat_get]
  split
  · apply (drainToOs_whole hio _).mono
    · rintro _ w' ⟨hbytes, hpending, hsynced⟩
      rw [hbytes, hpending, List.append_nil]
      exact ⟨rfl, List.prefix_append _ _, hsynced⟩
    · intro _ _ h
      exact h
  · rw [sat_pure]
    exact ⟨rfl, List.prefix_rfl, rfl⟩

/-- A flush whose sync fails has written everything all the same. -/
theorem flush_whole : Sat (flush io) w
    (fun _ w' => w'.file.bytes = w.file.bytes ++ w.pending ∧ w'.pending = [] ∧
      w'.file.synced = w'.file.bytes.length)
    (fun _ w' => io.syncs = false ∧ w'.file.bytes = w.file.bytes ++ w.pending ∧
      w'.pending = [] ∧ w'.file.synced = w.file.synced) := by
  unfold flush
  refine (drainToOs_whole hio w).bind ?_ fun _ _ h => h.elim
  rintro _ w' ⟨hbytes, hpending, hsynced⟩
  unfold syncData
  split
  · exact (sat_modify ..).mpr ⟨hbytes, hpending, rfl⟩
  · rename_i hfails
    exact .throw ⟨Bool.eq_false_iff.mpr hfails, hbytes, hpending, hsynced⟩

end Whole

/-! ## Without failures -/

section Fine

variable (w : WalWriter)

theorem drainToOs_fine : Sat (drainToOs .fine) w
    (fun _ w' => w'.file.bytes = w.file.bytes ++ w.pending ∧ w'.pending = [] ∧
      w'.file.synced = w.file.synced) fun _ _ => False :=
  drainToOs_whole rfl w

theorem appendEncoded_fine (record : List UInt8) : Sat (appendEncoded .fine record) w
    (fun _ w' => w'.file.bytes ++ w'.pending = w.file.bytes ++ (w.pending ++ record) ∧
      w.file.bytes <+: w'.file.bytes ∧ w'.file.synced = w.file.synced) fun _ _ => False :=
  appendEncoded_whole rfl w record

theorem flush_fine : Sat (flush .fine) w
    (fun _ w' => w'.file.bytes = w.file.bytes ++ w.pending ∧ w'.pending = [] ∧
      w'.file.synced = w'.file.bytes.length) fun _ _ => False :=
  (flush_whole rfl w).mono (fun _ _ h => h) fun _ _ h => Bool.noConfusion h.1

theorem truncate_fine : Sat (truncate .fine) w
    (fun _ w' => w'.file.bytes = w.file.bytes.take fileHeaderSize ∧ w'.pending = [] ∧
      w'.file.synced = w'.file.bytes.length) fun _ _ => False := by
  unfold truncate syncData WalIo.fine
  simp only [sat_bind, sat_modify, if_true, and_self]

end Fine

end Holt.Writer
