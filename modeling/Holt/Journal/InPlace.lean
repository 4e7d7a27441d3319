import Holt.Journal.Codec

/-! The encoders as they work on the journal's buffer. Lengths and counts are patched in when they
are known, and a batch that is dropped unfinished is cut off again. -/

namespace Holt.Codec.InPlace

open Holt.Lib

/-- `write_record`; `body` is what the variant writes. -/
def writeRecord (out : List UInt8) (seq : Nat) (ty : UInt8) (body : List UInt8) : List UInt8 :=
  let start := out.length
  let out := out ++ leBytes 4 recordMagic
  let lenPos := out.length
  let out := out ++ [0, 0, 0, 0]
  let out := out ++ leBytes 8 seq
  let out := out ++ [ty]
  let bodyStart := out.length
  let out := out ++ body
  let bodyEnd := out.length
  let out := patch out lenPos (leBytes 4 (bodyEnd - bodyStart))
  out ++ leBytes 4 (crc32 (slice out start bodyEnd)).toNat

def encodeInsertRecord (out : List UInt8) (seq treeId : Nat) (key value : List UInt8) :
    List UInt8 :=
  writeRecord out seq tyInsert (insertBody treeId key value)

def encodeEraseRecord (out : List UInt8) (seq treeId : Nat) (key : List UInt8) : List UInt8 :=
  writeRecord out seq tyErase (eraseBody treeId key)

def encodeRenameObjectRecord (out : List UInt8) (seq treeId : Nat) (src dst : List UInt8)
    (force : Bool) : List UInt8 :=
  writeRecord out seq tyRenameObject (renameObjectBody treeId src dst force)

structure BatchEncoder where
  out : List UInt8
  start : Nat
  lenPos : Nat
  bodyStart : Nat
  countPos : Nat
  innerCount : Nat
  finished : Bool

namespace BatchEncoder

def begin (out : List UInt8) (seq treeId : Nat) : BatchEncoder :=
  let start := out.length
  let out := out ++ leBytes 4 recordMagic
  let lenPos := out.length
  let out := out ++ [0, 0, 0, 0]
  let out := out ++ leBytes 8 seq
  let out := out ++ [tyBatch]
  let bodyStart := out.length
  let out := out ++ leBytes 8 treeId
  let countPos := out.length
  let out := out ++ [0, 0, 0, 0]
  ⟨out, start, lenPos, bodyStart, countPos, 0, false⟩

/-- One frame, which stands for `count` operations. -/
def push (enc : BatchEncoder) (ty : UInt8) (body : List UInt8) (count : Nat) : BatchEncoder :=
  { enc with out := enc.out ++ [ty] ++ body, innerCount := enc.innerCount + count }

def pushInsert (enc : BatchEncoder) (treeId : Nat) (key value : List UInt8) : BatchEncoder :=
  enc.push tyInsert (insertBody treeId key value) 1

def pushInsertRun (enc : BatchEncoder) (treeId keyLen valueLen : Nat)
    (items : List (List UInt8 × List UInt8)) : BatchEncoder :=
  match items with
  | [(key, value)] => enc.pushInsert treeId key value
  | items =>
    enc.push tyBatchInsertRun
      (leBytes 8 treeId ++ leBytes 4 items.length ++ leBytes 4 keyLen ++ leBytes 4 valueLen ++
        items.flatMap fun e => e.1 ++ e.2)
      items.length

def pushErase (enc : BatchEncoder) (treeId : Nat) (key : List UInt8) : BatchEncoder :=
  enc.push tyErase (eraseBody treeId key) 1

def pushRenameObject (enc : BatchEncoder) (treeId : Nat) (src dst : List UInt8) (force : Bool) :
    BatchEncoder :=
  enc.push tyRenameObject (renameObjectBody treeId src dst force) 1

def finish (enc : BatchEncoder) : BatchEncoder :=
  let bodyEnd := enc.out.length
  let out := patch enc.out enc.countPos (leBytes 4 enc.innerCount)
  let out := patch out enc.lenPos (leBytes 4 (bodyEnd - enc.bodyStart))
  { enc with
    out := out ++ leBytes 4 (crc32 (slice out enc.start bodyEnd)).toNat
    finished := true }

/-- What the buffer is left with. -/
def drop (enc : BatchEncoder) : List UInt8 :=
  if enc.finished then enc.out else enc.out.take enc.start

end BatchEncoder

end Holt.Codec.InPlace

namespace Holt.Codec

open Holt.Lib

/-- The call on an encoder that writes into the buffer. -/
def Push.applyInPlace (enc : InPlace.BatchEncoder) : Push → InPlace.BatchEncoder
  | .insert treeId key value => enc.pushInsert treeId key value
  | .insertRun treeId keyLen valueLen items => enc.pushInsertRun treeId keyLen valueLen items
  | .erase treeId key => enc.pushErase treeId key
  | .renameObject treeId src dst force => enc.pushRenameObject treeId src dst force

/-- The record goes behind what the buffer holds. -/
def LogRecord.writeTo (out : List UInt8) : LogRecord → List UInt8
  | .insert seq treeId key value => InPlace.encodeInsertRecord out seq treeId key value
  | .erase seq treeId key => InPlace.encodeEraseRecord out seq treeId key
  | .renameObject seq treeId src dst force =>
    InPlace.encodeRenameObjectRecord out seq treeId src dst force
  | .batch seq treeId pushes =>
    (pushes.foldl Push.applyInPlace (.begin out seq treeId)).finish.drop

theorem slice_suffix {α : Type} (out bytes : List α) {stop : Nat}
    (h : stop = out.length + bytes.length) : slice (out ++ bytes) out.length stop = bytes := by
  rw [slice, List.drop_left, h, Nat.add_sub_cancel_left, List.take_length]

/-- The length patched in is the length of the body. -/
theorem InPlace.writeRecord_eq (out : List UInt8) (seq : Nat) (ty : UInt8) (body : List UInt8) :
    InPlace.writeRecord out seq ty body = out ++ Codec.writeRecord seq ty body := by
  have hlen :
      (out ++ leBytes 4 recordMagic ++ [0, 0, 0, 0] ++ leBytes 8 seq ++ [ty] ++ body).length -
        (out ++ leBytes 4 recordMagic ++ [0, 0, 0, 0] ++ leBytes 8 seq ++ [ty]).length =
      body.length := by
    rw [List.length_append, Nat.add_sub_cancel_left]
  have hpatch :
      patch (out ++ leBytes 4 recordMagic ++ [0, 0, 0, 0] ++ leBytes 8 seq ++ [ty] ++ body)
        (out ++ leBytes 4 recordMagic).length (leBytes 4 body.length) =
      out ++ writeHead seq ty body := by
    rw [writeHead]
    simp only [List.append_assoc]
    rw [← List.append_assoc out, patch_field _ [0, 0, 0, 0] _ _ rfl (by simp)]
    simp only [List.append_assoc]
  unfold InPlace.writeRecord
  simp only [hlen, hpatch]
  rw [slice_suffix, Codec.writeRecord, List.append_assoc]
  simp only [List.length_append, length_leBytes, length_writeHead, List.length_cons,
    List.length_nil, recordHeaderSize]
  omega

/-- A batch under way: its frames stand behind a header with two blanks. -/
structure InPlace.BatchEncoder.Holds (out : List UInt8) (enc : InPlace.BatchEncoder)
    (abs : Codec.BatchEncoder) : Prop where
  bytes : enc.out = out ++ (leBytes 4 recordMagic ++ ([0, 0, 0, 0] ++ (leBytes 8 abs.seq ++
    ([tyBatch] ++ (leBytes 8 abs.treeId ++ ([0, 0, 0, 0] ++ abs.inner))))))
  start : enc.start = out.length
  lenPos : enc.lenPos = out.length + 4
  bodyStart : enc.bodyStart = out.length + 17
  countPos : enc.countPos = out.length + 25
  innerCount : enc.innerCount = abs.innerCount
  unfinished : enc.finished = false

namespace InPlace.BatchEncoder

variable {out : List UInt8} {enc : BatchEncoder} {abs : Codec.BatchEncoder}

theorem holds_begin (out : List UInt8) (seq treeId : Nat) :
    (begin out seq treeId).Holds out (.begin seq treeId) := by
  constructor
  case bytes => simp only [begin, Codec.BatchEncoder.begin, List.append_assoc, List.append_nil]
  all_goals simp [begin, Codec.BatchEncoder.begin]

theorem Holds.push (h : enc.Holds out abs) (ty : UInt8) (body : List UInt8) (count : Nat) :
    (enc.push ty body count).Holds out (abs.push ty body count) where
  bytes := by
    simp only [BatchEncoder.push, Codec.BatchEncoder.push, h.bytes, List.append_assoc]
  start := h.start
  lenPos := h.lenPos
  bodyStart := h.bodyStart
  countPos := h.countPos
  innerCount := congrArg (· + count) h.innerCount
  unfinished := h.unfinished

theorem Holds.apply (h : enc.Holds out abs) (p : Push) :
    (p.applyInPlace enc).Holds out (p.apply abs) := by
  cases p with
  | insertRun treeId keyLen valueLen items =>
    match items with
    | [] => exact h.push _ _ _
    | [_] => exact h.push _ _ _
    | _ :: _ :: _ => exact h.push _ _ _
  | _ => exact h.push _ _ _

theorem Holds.foldl (h : enc.Holds out abs) (pushes : List Push) :
    (pushes.foldl Push.applyInPlace enc).Holds out (pushes.foldl Push.apply abs) := by
  induction pushes generalizing enc abs with
  | nil => exact h
  | cons p pushes ih => exact ih (h.apply p)

/-- Unfinished, it leaves no trace. -/
theorem Holds.drop (h : enc.Holds out abs) : enc.drop = out := by
  rw [BatchEncoder.drop, if_neg (by rw [h.unfinished]; exact Bool.false_ne_true), h.bytes, h.start,
    List.take_left]

/-- The count goes into the second blank, the length into the first. -/
theorem Holds.finish (h : enc.Holds out abs) : enc.finish.drop = out ++ abs.finish := by
  have hcount : patch enc.out enc.countPos (leBytes 4 enc.innerCount) =
      out ++ (leBytes 4 recordMagic ++ ([0, 0, 0, 0] ++ (leBytes 8 abs.seq ++ ([tyBatch] ++
        (leBytes 8 abs.treeId ++ (leBytes 4 abs.innerCount ++ abs.inner)))))) := by
    have hfront : (out ++ (leBytes 4 recordMagic ++ ([0, 0, 0, 0] ++ (leBytes 8 abs.seq ++
        ([tyBatch] ++ leBytes 8 abs.treeId))))).length = enc.countPos := by
      simp [h.countPos]
    have hp := patch_field _ [0, 0, 0, 0] abs.inner (leBytes 4 enc.innerCount) hfront (by simp)
    simp only [List.append_assoc] at hp
    rw [h.bytes, hp, h.innerCount]
  have hbody : enc.out.length - enc.bodyStart =
      (leBytes 8 abs.treeId ++ leBytes 4 abs.innerCount ++ abs.inner).length := by
    rw [h.bytes, h.bodyStart]
    simp
    omega
  have hlen : patch (patch enc.out enc.countPos (leBytes 4 enc.innerCount)) enc.lenPos
      (leBytes 4 (enc.out.length - enc.bodyStart)) =
      out ++ writeHead abs.seq tyBatch
        (leBytes 8 abs.treeId ++ leBytes 4 abs.innerCount ++ abs.inner) := by
    have hfront : (out ++ leBytes 4 recordMagic).length = enc.lenPos := by simp [h.lenPos]
    have hp := patch_field _ [0, 0, 0, 0] (leBytes 8 abs.seq ++ ([tyBatch] ++
        (leBytes 8 abs.treeId ++ (leBytes 4 abs.innerCount ++ abs.inner))))
      (leBytes 4 (enc.out.length - enc.bodyStart)) hfront (by simp)
    simp only [List.append_assoc] at hp
    rw [hcount, hp, hbody, writeHead]
    simp only [List.append_assoc]
  have hend : enc.out.length = out.length + (writeHead abs.seq tyBatch
      (leBytes 8 abs.treeId ++ leBytes 4 abs.innerCount ++ abs.inner)).length := by
    rw [h.bytes, length_writeHead, recordHeaderSize]
    simp
    omega
  have hfinished : enc.finish.finished = true := rfl
  rw [BatchEncoder.drop, if_pos hfinished]
  simp only [BatchEncoder.finish, hlen]
  rw [h.start, slice_suffix _ _ hend, Codec.BatchEncoder.finish, Codec.writeRecord,
    List.append_assoc]

end InPlace.BatchEncoder

theorem LogRecord.writeTo_eq (r : LogRecord) (out : List UInt8) :
    r.writeTo out = out ++ r.encode := by
  cases r with
  | batch seq treeId pushes =>
    exact ((InPlace.BatchEncoder.holds_begin out seq treeId).foldl pushes).finish
  | _ => exact InPlace.writeRecord_eq out _ _ _

theorem foldl_writeTo (rs : List LogRecord) (out : List UInt8) :
    rs.foldl LogRecord.writeTo out = out ++ rs.flatMap LogRecord.encode := by
  induction rs generalizing out with
  | nil => exact (List.append_nil out).symm
  | cons r rs ih =>
    rw [List.foldl_cons, ih, LogRecord.writeTo_eq, List.append_assoc, List.flatMap_cons]

/-- `n` records one after another, and what is left then. -/
def decodeRecords : Nat → List UInt8 → Except Error (List DecodedRecord × List UInt8)
  | 0, buf => .ok ([], buf)
  | n + 1, buf => do
    let r ← decodeRecord buf
    let (rs, rest) ← decodeRecords n (buf.drop r.bytesConsumed)
    .ok (r :: rs, rest)

theorem decodeRecords_encode {rs : List LogRecord} (hf : ∀ r ∈ rs, r.Fits) (rest : List UInt8) :
    decodeRecords rs.length (rs.flatMap LogRecord.encode ++ rest) =
      .ok (rs.map LogRecord.decoded, rest) := by
  induction rs with
  | nil => rfl
  | cons r rs ih =>
    have hr := LogRecord.decodeRecord_encode (hf r List.mem_cons_self)
      (rs.flatMap LogRecord.encode ++ rest)
    have hrest := ih fun q hq => hf q (List.mem_cons_of_mem _ hq)
    rw [List.flatMap_cons, List.append_assoc, List.length_cons, decodeRecords, hr]
    change (decodeRecords rs.length (List.drop r.encode.length _)).bind _ = _
    rw [List.drop_left, hrest]
    rfl

/-- What is written behind any buffer is decoded from any continuation, record by record, and a
batch that is dropped unfinished was never there. No run of a batch may be empty. -/
theorem codec_round_trip :
    (∀ (r : LogRecord) (out rest : List UInt8), r.Fits →
      ∃ bytes, r.writeTo out = out ++ bytes ∧
        decodeRecord (bytes ++ rest) = .ok ⟨r.op, r.seq, bytes.length⟩) ∧
    (∀ (rs : List LogRecord) (out rest : List UInt8), (∀ r ∈ rs, r.Fits) →
      ∃ bytes, rs.foldl LogRecord.writeTo out = out ++ bytes ∧
        decodeRecords rs.length (bytes ++ rest) =
          .ok (rs.map fun r => ⟨r.op, r.seq, (r.writeTo []).length⟩, rest)) ∧
    ∀ (out : List UInt8) (seq treeId : Nat) (pushes : List Push),
      (pushes.foldl Push.applyInPlace (.begin out seq treeId)).drop = out := by
  refine ⟨fun r out rest hf => ?_, fun rs out rest hf => ?_, fun out seq treeId pushes => ?_⟩
  · exact ⟨r.encode, r.writeTo_eq out, LogRecord.decodeRecord_encode hf rest⟩
  · refine ⟨rs.flatMap LogRecord.encode, foldl_writeTo rs out, ?_⟩
    rw [decodeRecords_encode hf]
    simp only [LogRecord.writeTo_eq, List.nil_append]
    rfl
  · exact ((InPlace.BatchEncoder.holds_begin out seq treeId).foldl pushes).drop

theorem codec_round_trip_batch :
    ∃ bytes, LogRecord.writeTo [9]
        (.batch 7 0 [.erase 3 [1], .insertRun 3 1 1 [([2], [5]), ([4], [6])]]) = [9] ++ bytes ∧
      decodeRecord (bytes ++ [9]) = .ok
        ⟨.batch [.erase 3 [1], .insert 3 [2] [5], .insert 3 [4] [6]], 7, bytes.length⟩ :=
  codec_round_trip.1 (.batch 7 0 [.erase 3 [1], .insertRun 3 1 1 [([2], [5]), ([4], [6])]]) [9] [9]
    (by decide +kernel)

/-- The decoder rejects the frame of a run without items, which the encoder writes. -/
theorem empty_run_rejected :
    (decodeRecord
      ((LogRecord.batch 7 0 [.insertRun 3 1 1 [], .erase 3 [1]]).writeTo [])).toOption = none := by
  decide +kernel

end Holt.Codec
