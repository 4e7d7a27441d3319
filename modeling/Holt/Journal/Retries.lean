import Holt.Journal.Writer
import Holt.Lib.Machine

/-! A writer that is called again after a write stopped short. -/

namespace Holt.Writer.Retries

open Holt.Lib Holt.Codec Holt.Reader

/-- A writer, and the records it was handed so far. -/
structure Appender where
  writer : WalWriter
  appended : List LogRecord

inductive Action
  | append (r : LogRecord) (io : WalIo)
  | drainToOs (io : WalIo)
  | flush (io : WalIo)

/-- The writer after a call, whatever the call returned. -/
def after (x : WriterM Unit) (w : WalWriter) : WalWriter :=
  match x w with
  | .ok _ w' => w'
  | .error _ w' => w'

def step (s : Appender) : Action → Option Appender
  | .append r io =>
    if r.Fits then some ⟨after (appendEncoded io r.encode) s.writer, s.appended ++ [r]⟩ else none
  | .drainToOs io => some { s with writer := after (Writer.drainToOs io) s.writer }
  | .flush io => some { s with writer := after (Writer.flush io) s.writer }

def opened (treeId now : Nat) : Appender := ⟨create treeId now, []⟩

/-- The call gets as far as a write to the file. -/
def Writes (s : Appender) : Action → Prop
  | .append r _ => autoFlushThreshold ≤ s.writer.pending.length + r.encode.length
  | .drainToOs _ | .flush _ => s.writer.pending ≠ []

/-- Nothing is written behind what a failed write left: the file has all the bytes that were
written, and no others. -/
def Careful (s : Appender) (a : Action) : Prop :=
  Writes s a → s.writer.file.bytes.length = s.writer.bytesWritten

instance (s : Appender) : (a : Action) → Decidable (Writes s a)
  | .append _ _ => inferInstanceAs (Decidable (_ ≤ _))
  | .drainToOs _ | .flush _ => inferInstanceAs (Decidable (_ ≠ _))

instance (s : Appender) (a : Action) : Decidable (Careful s a) :=
  inferInstanceAs (Decidable (_ → _))

/-- What a drain may do to a writer. -/
inductive Drained (w : WalWriter) : WalWriter → Prop
  | nothing : w.pending = [] → Drained w w
  | short (n : Nat) : w.pending ≠ [] →
      Drained w { w with file := { w.file with bytes := w.file.bytes ++ w.pending.take n } }
  | whole : w.pending ≠ [] →
      Drained w { w with
        file := { w.file with bytes := w.file.bytes ++ w.pending }
        bytesWritten := w.bytesWritten + w.pending.length
        pending := [] }

theorem drainToOs_drained (io : WalIo) (w : WalWriter) :
    Sat (Writer.drainToOs io) w (fun _ w' => Drained w w') fun _ w' => Drained w w' := by
  unfold Writer.drainToOs
  simp only [sat_bind, sat_get]
  split
  · rename_i hempty
    rw [sat_pure]
    exact .nothing (List.isEmpty_iff.mp hempty)
  · rename_i hsome
    have hne : w.pending ≠ [] := fun h => hsome (List.isEmpty_iff.mpr h)
    split
    · simp only [sat_bind, sat_set, sat_throw]
      exact .short _ hne
    · rw [sat_set]
      exact .whole hne

theorem after_of_sat {x : WriterM Unit} {w : WalWriter} {P : WalWriter → Prop}
    (h : Sat x w (fun _ w' => P w') fun _ w' => P w') : P (after x w) := by
  unfold after
  unfold Sat at h
  split <;> simp_all

/-- The header and the records, as they should stand in the file. -/
def stream (s : Appender) : List UInt8 :=
  encodeFileHeader s.writer.header ++ s.appended.flatMap LogRecord.encode

/-- The file has a part of the stream, and the buffer all that follows unless a failed write left
bytes behind. -/
structure Sound (s : Appender) : Prop where
  fits : ∀ r ∈ s.appended, r.Fits
  header : s.writer.header.treeId < 2 ^ 64 ∧ s.writer.header.createdAt < 2 ^ 64
  begun : fileHeaderSize ≤ s.writer.file.bytes.length
  part : s.writer.file.bytes <+: stream s
  whole : s.writer.file.bytes.length = s.writer.bytesWritten →
    s.writer.file.bytes ++ s.writer.pending = stream s

section

variable {w w' : WalWriter} {rs : List LogRecord}

theorem Sound.push (h : Sound ⟨w, rs⟩) {r : LogRecord} (hr : r.Fits) :
    Sound ⟨{ w with pending := w.pending ++ r.encode }, rs ++ [r]⟩ := by
  have hstream : stream ⟨{ w with pending := w.pending ++ r.encode }, rs ++ [r]⟩ =
      stream ⟨w, rs⟩ ++ r.encode := by
    simp only [stream, List.flatMap_append, List.flatMap_singleton, List.append_assoc]
  constructor
  · intro q hq
    rcases List.mem_append.mp hq with hq | hq
    · exact h.fits q hq
    · exact List.mem_singleton.mp hq ▸ hr
  · exact h.header
  · exact h.begun
  · rw [hstream]
    exact h.part.trans (List.prefix_append _ _)
  · intro hlen
    rw [hstream, ← h.whole hlen, List.append_assoc]

/-- Nothing but the writer's bytes moves, and only when the file has just what was written. -/
theorem Sound.drain (h : Sound ⟨w, rs⟩)
    (hclean : w.pending ≠ [] → w.file.bytes.length = w.bytesWritten) (hd : Drained w w') :
    Sound ⟨w', rs⟩ := by
  cases hd with
  | nothing _ => exact h
  | short n hne =>
    have hwhole : w.file.bytes ++ w.pending = stream ⟨w, rs⟩ := h.whole (hclean hne)
    refine ⟨h.fits, h.header, ?_, ?_, fun hlen => ?_⟩
    · change _ ≤ (w.file.bytes ++ w.pending.take n).length
      rw [List.length_append]
      exact Nat.le_add_right_of_le h.begun
    · change _ <+: stream ⟨w, rs⟩
      rw [← hwhole]
      exact List.prefix_append_right_inj _ |>.mpr (List.take_prefix n w.pending)
    · -- The write failed without a byte.
      have hnone : w.pending.take n = [] := by
        have hlen' : (w.file.bytes ++ w.pending.take n).length = w.bytesWritten := hlen
        rw [List.length_append, ← hclean hne] at hlen'
        exact List.eq_nil_of_length_eq_zero (by omega)
      change w.file.bytes ++ w.pending.take n ++ w.pending = stream ⟨w, rs⟩
      rw [hnone, List.append_nil, hwhole]
  | whole hne =>
    have hwhole : w.file.bytes ++ w.pending = stream ⟨w, rs⟩ := h.whole (hclean hne)
    refine ⟨h.fits, h.header, ?_, ?_, fun _ => ?_⟩
    · change _ ≤ (w.file.bytes ++ w.pending).length
      rw [List.length_append]
      exact Nat.le_add_right_of_le h.begun
    · change w.file.bytes ++ w.pending <+: stream ⟨w, rs⟩
      exact hwhole ▸ List.prefix_rfl
    · change w.file.bytes ++ w.pending ++ [] = stream ⟨w, rs⟩
      rw [List.append_nil, hwhole]

theorem Sound.sync (h : Sound ⟨w, rs⟩) (io : WalIo) :
    Sat (syncData io) w (fun _ w' => Sound ⟨w', rs⟩) fun _ w' => Sound ⟨w', rs⟩ := by
  unfold syncData
  split
  · rw [sat_modify]
    exact ⟨h.fits, h.header, h.begun, h.part, h.whole⟩
  · rw [sat_throw]
    exact h

end

theorem Sound.step {s t : Appender} {a : Action} (h : Sound s) (hmay : Careful s a)
    (hstep : step s a = some t) : Sound t := by
  obtain ⟨w, rs⟩ := s
  cases a with
  | append r io =>
    simp only [Retries.step] at hstep
    split at hstep
    · rename_i hr
      cases hstep
      apply after_of_sat (P := fun w' => Sound ⟨w', rs ++ [r]⟩)
      have hpushed := h.push hr
      unfold appendEncoded
      simp only [sat_bind, sat_modify, sat_get]
      split
      · rename_i hfull
        have hclean := hmay (by simpa [Writes] using hfull)
        exact (drainToOs_drained io _).mono (fun _ w' hd => hpushed.drain (fun _ => hclean) hd)
          fun _ w' hd => hpushed.drain (fun _ => hclean) hd
      · rw [sat_pure]
        exact hpushed
    · cases hstep
  | drainToOs io =>
    cases hstep
    apply after_of_sat (P := fun w' => Sound ⟨w', rs⟩)
    exact (drainToOs_drained io w).mono (fun _ w' hd => h.drain hmay hd)
      fun _ w' hd => h.drain hmay hd
  | flush io =>
    cases hstep
    apply after_of_sat (P := fun w' => Sound ⟨w', rs⟩)
    unfold Writer.flush
    exact (drainToOs_drained io w).bind (fun _ w' hd => (h.drain hmay hd).sync io)
      fun _ w' hd => h.drain hmay hd

theorem sound_opened {treeId : Nat} (ht : treeId < 2 ^ 64) (now : Nat) :
    Sound (opened treeId now) := by
  have hlen : (encodeFileHeader ⟨treeId, now % 2 ^ 64⟩).length = fileHeaderSize :=
    length_encodeFileHeader _
  refine ⟨nofun, ⟨ht, Nat.mod_lt _ (by decide)⟩, Nat.le_of_eq hlen.symm, ?_, fun _ => ?_⟩
  · exact List.prefix_append _ _
  · rfl

/-- The log as the reader wants it: the header, the first records handed in, and after them at most
the beginning of the next. -/
def Intact (s : Appender) : Prop :=
  ∃ kept rest part, s.appended = kept ++ rest ∧
    s.writer.file.bytes =
      encodeFileHeader s.writer.header ++ (kept.flatMap LogRecord.encode ++ part) ∧
    (part = [] ∨ ∃ r more, rest = r :: more ∧ part <+: r.encode ∧ part ≠ r.encode)

/-- In every run that writes nothing behind a write that stopped short, the file is the header,
records in the order they were appended and at most the beginning of one more, and replays. -/
theorem careful_log_intact {treeId now : Nat} {s : Appender} (ht : treeId < 2 ^ 64)
    (h : Run step Careful (opened treeId now) s) :
    Intact s ∧ ∀ {σ : Type} (f : WalOp → Nat → Nat → σ → σ) (s₀ : σ), ∃ out s₁,
      replayBytes (accepting f) s.writer.file.bytes s₀ = .ok out s₁ := by
  have hs : Sound s := h.invariant (I := Sound) (sound_opened ht now)
    fun hs hmay hstep => hs.step hmay hstep
  have hlen : (encodeFileHeader s.writer.header).length = fileHeaderSize :=
    length_encodeFileHeader _
  let n := s.writer.file.bytes.length - fileHeaderSize
  have hbytes : s.writer.file.bytes = encodeFileHeader s.writer.header ++
      (s.appended.flatMap LogRecord.encode).take n := by
    rw [List.prefix_iff_eq_take.mp hs.part, stream, List.take_append,
      List.take_of_length_le (by rw [hlen]; exact hs.begun), hlen]
  constructor
  · obtain ⟨rest, part, hrs, htake, hpart⟩ := take_eq_inside n s.appended
    exact ⟨_, rest, part, hrs, htake ▸ hbytes, hpart⟩
  · intro σ f s₀
    rw [hbytes]
    exact ⟨_, _, replayBytes_cut f hlen (decodeFileHeader_encode hs.header.1 hs.header.2) hs.fits
      n s₀⟩

/-- A write that stops after nine bytes, and nothing after it. -/
theorem careful_log_intact_short :
    ∃ s, Run step Careful (opened 5 6) s ∧ Intact s := by
  have hplay : (play step Careful [.append (.erase 1 5 [7]) .fine, .flush .fine,
      .append (.erase 2 5 [8]) .fine, .flush ⟨some 9, true⟩] (opened 5 6)).isSome := by
    decide +kernel
  obtain ⟨s, hs⟩ := Option.isSome_iff_exists.mp hplay
  have hrun := run_of_play hs
  exact ⟨s, hrun, (careful_log_intact (by decide) hrun).1⟩

/-- The next flush writes the whole record behind its own first twenty bytes, and replay takes the
two for one damaged record. -/
theorem retried_flush_corrupts_log :
    ∃ s, Run step (fun _ _ => True) (opened 5 6) s ∧
      ∃ err cs, replayBytes (accepting fun op seq offset cs => cs ++ [(op, seq, offset)])
        s.writer.file.bytes [] = .error err cs := by
  have hplay : (play step (fun _ _ => True) [.append (.erase 1 5 [7]) .fine,
      .flush ⟨some 20, true⟩, .flush .fine] (opened 5 6)).any fun s =>
      match replayBytes (accepting fun op seq offset cs => cs ++ [(op, seq, offset)])
        s.writer.file.bytes [] with
      | .ok _ _ => false
      | .error _ _ => true := by decide +kernel
  obtain ⟨s, hs, hend⟩ := (Option.any_eq_true _ _).mp hplay
  refine ⟨s, run_of_play hs, ?_⟩
  split at hend
  · cases hend
  · rename_i err cs herr
    exact ⟨err, cs, herr⟩

end Holt.Writer.Retries
