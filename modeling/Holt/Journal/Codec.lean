import Holt.Journal.WalOp
import Holt.Layout
import Holt.Lib.Wire

/-! The bytes of a log file: its header, and the records behind it. -/

namespace Holt.Codec

open Holt.Lib

def recordMagic : Nat := 0x52434552

/-- `magic | len | seq | ty`. -/
def recordHeaderSize : Nat := 17

def recordFooterSize : Nat := 4

def fileMagic : Nat := 0x414C4157

def formatVersion : Nat := 3

def fileHeaderSize : Nat := 32

def tyInsert : UInt8 := 0
def tyErase : UInt8 := 1
def tyRenameObject : UInt8 := 5
def tyBatch : UInt8 := 10
def tyBatchInsertRun : UInt8 := 11

/-- The codec does not know where in the file it reads; the reader puts the offset in. -/
def sanity (context : String) : Error := .replaySanityFailed context 0

/-! ## CRC-32, polynomial `0xEDB88320` reflected -/

/-- Shift `n` bits out, then go on with `next`. -/
def crcBits (next : UInt32 → UInt32) : Nat → UInt32 → UInt32
  | 0, c => next c
  | n + 1, c =>
    if c &&& 1 = 1 then crcBits next n ((c >>> 1) ^^^ 0xEDB88320) else crcBits next n (c >>> 1)

def crcBytes : List UInt8 → UInt32 → UInt32
  | [], c => c
  | b :: bs, c => crcBits (crcBytes bs) 8 (c ^^^ b.toUInt32)

def crc32 (bytes : List UInt8) : UInt32 := crcBytes bytes 0xFFFFFFFF ^^^ 0xFFFFFFFF

-- "123456789"
example : crc32 [49, 50, 51, 52, 53, 54, 55, 56, 57] = 0xCBF43926 := by decide +kernel

/-! ## The file header -/

structure FileHeader where
  treeId : Nat
  createdAt : Nat
  deriving DecidableEq, Repr

def encodeFileHeader (h : FileHeader) : List UInt8 :=
  leBytes 4 fileMagic ++ leBytes 4 formatVersion ++ leBytes 8 h.treeId ++ leBytes 8 h.createdAt ++
    leBytes 8 0

def decodeFileHeader (buf : List UInt8) : Except Error FileHeader :=
  if buf.length < fileHeaderSize then .error (sanity "WAL file header truncated")
  else if leNat (slice buf 0 4) ≠ fileMagic then .error (sanity "WAL file magic mismatch")
  else if leNat (slice buf 4 8) ≠ formatVersion then
    .error (sanity "WAL file format version unsupported")
  else .ok ⟨leNat (slice buf 8 16), leNat (slice buf 16 24)⟩

@[simp]
theorem length_encodeFileHeader (h : FileHeader) :
    (encodeFileHeader h).length = fileHeaderSize := by
  simp only [encodeFileHeader, List.length_append, length_leBytes, fileHeaderSize]

theorem decodeFileHeader_written (h : FileHeader) :
    decodeFileHeader (encodeFileHeader h) = .ok
      ⟨leNat (slice (encodeFileHeader h) 8 16), leNat (slice (encodeFileHeader h) 16 24)⟩ := by
  have hmagic : leNat (slice (encodeFileHeader h) 0 4) = fileMagic := by
    simp only [encodeFileHeader, List.append_assoc]
    rw [slice, Nat.sub_zero, List.drop_zero, List.take_left' (length_leBytes 4 _)]
    exact leNat_leBytes (by decide)
  have hversion : leNat (slice (encodeFileHeader h) 4 8) = formatVersion := by
    simp only [encodeFileHeader, List.append_assoc]
    rw [slice_field _ (leBytes 4 formatVersion) _ (by simp) (by simp)]
    exact leNat_leBytes (by decide)
  rw [decodeFileHeader, if_neg (by rw [length_encodeFileHeader]; exact Nat.lt_irrefl _),
    if_neg (not_not_intro hmagic), if_neg (not_not_intro hversion)]

theorem decodeFileHeader_encode {h : FileHeader} (ht : h.treeId < 2 ^ 64)
    (hc : h.createdAt < 2 ^ 64) : decodeFileHeader (encodeFileHeader h) = .ok h := by
  have htree : leNat (slice (encodeFileHeader h) 8 16) = h.treeId := by
    simp only [encodeFileHeader, List.append_assoc]
    rw [← List.append_assoc, slice_field _ (leBytes 8 h.treeId) _ (by simp) (by simp)]
    exact leNat_leBytes ht
  have hcreated : leNat (slice (encodeFileHeader h) 16 24) = h.createdAt := by
    simp only [encodeFileHeader, List.append_assoc]
    rw [← List.append_assoc, ← List.append_assoc,
      slice_field _ (leBytes 8 h.createdAt) _ (by simp) (by simp)]
    exact leNat_leBytes hc
  rw [decodeFileHeader_written, htree, hcreated]

/-! ## Writing records -/

def writeBytes (b : List UInt8) : List UInt8 := leBytes 4 b.length ++ b

/-- What the checksum covers. -/
def writeHead (seq : Nat) (ty : UInt8) (body : List UInt8) : List UInt8 :=
  leBytes 4 recordMagic ++ leBytes 4 body.length ++ leBytes 8 seq ++ [ty] ++ body

def writeRecord (seq : Nat) (ty : UInt8) (body : List UInt8) : List UInt8 :=
  let head := writeHead seq ty body
  head ++ leBytes 4 (crc32 head).toNat

def insertBody (treeId : Nat) (key value : List UInt8) : List UInt8 :=
  leBytes 8 treeId ++ writeBytes key ++ writeBytes value

def eraseBody (treeId : Nat) (key : List UInt8) : List UInt8 :=
  leBytes 8 treeId ++ writeBytes key

def renameObjectBody (treeId : Nat) (src dst : List UInt8) (force : Bool) : List UInt8 :=
  leBytes 8 treeId ++ writeBytes src ++ writeBytes dst ++ [force.toUInt8]

def encodeInsertRecord (seq treeId : Nat) (key value : List UInt8) : List UInt8 :=
  writeRecord seq tyInsert (insertBody treeId key value)

def encodeEraseRecord (seq treeId : Nat) (key : List UInt8) : List UInt8 :=
  writeRecord seq tyErase (eraseBody treeId key)

def encodeRenameObjectRecord (seq treeId : Nat) (src dst : List UInt8) (force : Bool) :
    List UInt8 :=
  writeRecord seq tyRenameObject (renameObjectBody treeId src dst force)

/-- A batch while it is written: what follows the inner count, and the count. -/
structure BatchEncoder where
  seq : Nat
  treeId : Nat
  inner : List UInt8
  innerCount : Nat

namespace BatchEncoder

def begin (seq treeId : Nat) : BatchEncoder := ⟨seq, treeId, [], 0⟩

def push (enc : BatchEncoder) (ty : UInt8) (body : List UInt8) (count : Nat) : BatchEncoder :=
  { enc with inner := enc.inner ++ [ty] ++ body, innerCount := enc.innerCount + count }

def pushInsert (enc : BatchEncoder) (treeId : Nat) (key value : List UInt8) : BatchEncoder :=
  enc.push tyInsert (insertBody treeId key value) 1

/-- A run of inserts whose keys are equally long, and whose values are. -/
def pushInsertRun (enc : BatchEncoder) (treeId keyLen valueLen : Nat)
    (items : List (List UInt8 × List UInt8)) : BatchEncoder :=
  match items with
  | [(key, value)] => enc.pushInsert treeId key value
  | items =>
    enc.push tyBatchInsertRun
      (leBytes 8 treeId ++ leBytes 4 items.length ++ leBytes 4 keyLen ++ leBytes 4 valueLen ++
        items.flatMap fun e => e.1 ++ e.2)
      items.length

def pushErase (enc : BatchEncoder) (treeId : Nat) (key : List UInt8) : BatchEncoder :=
  enc.push tyErase (eraseBody treeId key) 1

def pushRenameObject (enc : BatchEncoder) (treeId : Nat) (src dst : List UInt8) (force : Bool) :
    BatchEncoder :=
  enc.push tyRenameObject (renameObjectBody treeId src dst force) 1

def finish (enc : BatchEncoder) : List UInt8 :=
  writeRecord enc.seq tyBatch (leBytes 8 enc.treeId ++ leBytes 4 enc.innerCount ++ enc.inner)

end BatchEncoder

/-! ## Reading records -/

abbrev Cursor := EStateM Error (List UInt8)

def take (n : Nat) : Cursor (List UInt8) := fun buf =>
  if buf.length < n then .error (sanity "body truncated") buf
  else .ok (buf.take n) (buf.drop n)

def readU8 : Cursor UInt8 := do
  let front ← take 1
  pure (front.headD 0)

def readU32 : Cursor Nat := do
  let front ← take 4
  pure (leNat front)

def readU64 : Cursor Nat := do
  let front ← take 8
  pure (leNat front)

def readBytes : Cursor (List UInt8) := do
  let len ← readU32
  take len

def decodeRunItems (treeId keyLen valueLen : Nat) : Nat → List WalOp → Cursor (List WalOp)
  | 0, ops => pure ops
  | count + 1, ops => do
    let key ← take keyLen
    let value ← take valueLen
    decodeRunItems treeId keyLen valueLen count (ops ++ [.insert treeId key value])

def decodeInsertRun (batchCount : Nat) (ops : List WalOp) : Cursor (List WalOp) := do
  let treeId ← readU64
  let count ← readU32
  if count = 0 then throw (sanity "empty BatchInsertRun is rejected")
  else if batchCount < ops.length + count then
    throw (sanity "BatchInsertRun exceeds batch inner count")
  else do
    let keyLen ← readU32
    let valueLen ← readU32
    decodeRunItems treeId keyLen valueLen count ops

/-- `decode_body_into` for the variants that are not batches. -/
def decodePrimitive (ty : UInt8) : Cursor WalOp :=
  if ty = tyInsert then do
    let treeId ← readU64
    let key ← readBytes
    let value ← readBytes
    pure (.insert treeId key value)
  else if ty = tyErase then do
    let treeId ← readU64
    let key ← readBytes
    pure (.erase treeId key)
  else if ty = tyRenameObject then do
    let treeId ← readU64
    let src ← readBytes
    let dst ← readBytes
    let force ← readU8
    pure (.renameObject treeId src dst (force != 0))
  else throw (sanity "unknown WalOp variant tag")

/-- The frames of a batch. A round adds an operation at least, so there are no more rounds than
operations; `rounds` counts them down. -/
def decodeInner (count rounds : Nat) (ops : List WalOp) : Cursor (List WalOp) :=
  if ops.length < count then
    match rounds with
    | 0 => throw .diverged
    | rounds + 1 => do
      let innerTy ← readU8
      if innerTy = tyBatch then throw (sanity "nested Batch is rejected")
      else if innerTy = tyBatchInsertRun then do
        let ops ← decodeInsertRun count ops
        decodeInner count rounds ops
      else do
        let inner ← decodePrimitive innerTy
        decodeInner count rounds (ops ++ [inner])
  else pure ops

def decodeBodyInto (ty : UInt8) : Cursor WalOp :=
  if ty = tyBatch then do
    let _ ← readU64
    let count ← readU32
    let ops ← decodeInner count count []
    pure (.batch ops)
  else decodePrimitive ty

def decodeBody (ty : UInt8) (body : List UInt8) : Except Error WalOp :=
  match decodeBodyInto ty body with
  | .ok op [] => .ok op
  | .ok _ (_ :: _) => .error (sanity "trailing bytes after variant body")
  | .error err _ => .error err

structure DecodedRecord where
  op : WalOp
  seq : Nat
  bytesConsumed : Nat
  deriving DecidableEq, Repr

def decodeRecord (buf : List UInt8) : Except Error DecodedRecord :=
  if buf.length < recordHeaderSize then .error (sanity "record header truncated")
  else if leNat (slice buf 0 4) ≠ recordMagic then .error (sanity "record magic mismatch")
  else
    let bodyEnd := recordHeaderSize + leNat (slice buf 4 8)
    let total := bodyEnd + recordFooterSize
    if buf.length < total then .error (sanity "record body truncated")
    else if (crc32 (buf.take bodyEnd)).toNat ≠ leNat (slice buf bodyEnd total) then
      .error (sanity "record CRC mismatch")
    else
      (decodeBody ((slice buf 16 17).headD 0) (slice buf recordHeaderSize bodyEnd)).map
        fun op => ⟨op, leNat (slice buf 8 16), total⟩

/-! ## What was written is read back -/

/-- One call on a `BatchEncoder`. -/
inductive Push
  | insert (treeId : Nat) (key value : List UInt8)
  | insertRun (treeId keyLen valueLen : Nat) (items : List (List UInt8 × List UInt8))
  | erase (treeId : Nat) (key : List UInt8)
  | renameObject (treeId : Nat) (src dst : List UInt8) (force : Bool)
  deriving DecidableEq, Repr

namespace Push

def apply (enc : BatchEncoder) : Push → BatchEncoder
  | .insert treeId key value => enc.pushInsert treeId key value
  | .insertRun treeId keyLen valueLen items => enc.pushInsertRun treeId keyLen valueLen items
  | .erase treeId key => enc.pushErase treeId key
  | .renameObject treeId src dst force => enc.pushRenameObject treeId src dst force

/-- The operations the call stands for. -/
def ops : Push → List WalOp
  | .insert treeId key value => [.insert treeId key value]
  | .insertRun treeId _ _ items => items.map fun e => .insert treeId e.1 e.2
  | .erase treeId key => [.erase treeId key]
  | .renameObject treeId src dst force => [.renameObject treeId src dst force]

/-- What the types and the assertions of the encoder demand. -/
def Fits : Push → Prop
  | .insert treeId key value =>
    treeId < 2 ^ 64 ∧ key.length < 2 ^ 32 ∧ value.length < 2 ^ 32
  | .insertRun treeId keyLen valueLen items =>
    treeId < 2 ^ 64 ∧ keyLen < 2 ^ 32 ∧ valueLen < 2 ^ 32 ∧ items ≠ [] ∧
      items.length < 2 ^ 32 ∧ ∀ e ∈ items, e.1.length = keyLen ∧ e.2.length = valueLen
  | .erase treeId key => treeId < 2 ^ 64 ∧ key.length < 2 ^ 32
  | .renameObject treeId src dst _ =>
    treeId < 2 ^ 64 ∧ src.length < 2 ^ 32 ∧ dst.length < 2 ^ 32

instance : (p : Push) → Decidable p.Fits
  | .insert .. => inferInstanceAs (Decidable (_ ∧ _ ∧ _))
  | .insertRun .. => inferInstanceAs (Decidable (_ ∧ _ ∧ _ ∧ _ ∧ _ ∧ _))
  | .erase .. => inferInstanceAs (Decidable (_ ∧ _))
  | .renameObject .. => inferInstanceAs (Decidable (_ ∧ _ ∧ _))

/-- The bytes the call appends to the batch. -/
def bytes (p : Push) : List UInt8 := (p.apply (.begin 0 0)).inner

end Push

/-- A record as the journal is handed it. -/
inductive LogRecord
  | insert (seq treeId : Nat) (key value : List UInt8)
  | erase (seq treeId : Nat) (key : List UInt8)
  | renameObject (seq treeId : Nat) (src dst : List UInt8) (force : Bool)
  | batch (seq treeId : Nat) (pushes : List Push)
  deriving DecidableEq, Repr

namespace LogRecord

def encode : LogRecord → List UInt8
  | .insert seq treeId key value => encodeInsertRecord seq treeId key value
  | .erase seq treeId key => encodeEraseRecord seq treeId key
  | .renameObject seq treeId src dst force => encodeRenameObjectRecord seq treeId src dst force
  | .batch seq treeId pushes => (pushes.foldl Push.apply (.begin seq treeId)).finish

def seq : LogRecord → Nat
  | .insert seq .. | .erase seq .. | .renameObject seq .. | .batch seq .. => seq

def op : LogRecord → WalOp
  | .insert _ treeId key value => .insert treeId key value
  | .erase _ treeId key => .erase treeId key
  | .renameObject _ treeId src dst force => .renameObject treeId src dst force
  | .batch _ _ pushes => .batch (pushes.flatMap Push.ops)

def Fits (r : LogRecord) : Prop :=
  r.seq < 2 ^ 64 ∧ r.encode.length < recordHeaderSize + 2 ^ 32 + recordFooterSize ∧
    match r with
    | .insert _ treeId key value => (Push.insert treeId key value).Fits
    | .erase _ treeId key => (Push.erase treeId key).Fits
    | .renameObject _ treeId src dst force => (Push.renameObject treeId src dst force).Fits
    | .batch _ treeId pushes =>
      treeId < 2 ^ 64 ∧ (pushes.flatMap Push.ops).length < 2 ^ 32 ∧ ∀ p ∈ pushes, p.Fits

instance : (r : LogRecord) → Decidable r.Fits
  | .insert .. => inferInstanceAs (Decidable (_ ∧ _ ∧ (Push.insert ..).Fits))
  | .erase .. => inferInstanceAs (Decidable (_ ∧ _ ∧ (Push.erase ..).Fits))
  | .renameObject .. => inferInstanceAs (Decidable (_ ∧ _ ∧ (Push.renameObject ..).Fits))
  | .batch .. => inferInstanceAs (Decidable (_ ∧ _ ∧ _ ∧ _ ∧ _))

/-- What the decoder makes of the record. -/
def decoded (r : LogRecord) : DecodedRecord := ⟨r.op, r.seq, r.encode.length⟩

end LogRecord

section Primitives

theorem take_reads {n : Nat} {bs : List UInt8} (h : bs.length = n) : Reads (take n) bs bs := by
  intro rest
  subst h
  rw [take, if_neg (by rw [List.length_append]; omega), List.take_left, List.drop_left]

theorem readU8_reads (b : UInt8) : Reads readU8 [b] b := by
  have hr : Reads (take 1) [b] [b] := take_reads rfl
  exact hr.map fun front => front.headD 0

theorem readU32_reads {n : Nat} (h : n < 2 ^ 32) : Reads readU32 (leBytes 4 n) n := by
  have hr := Reads.map leNat (take_reads (length_leBytes 4 n))
  rwa [leNat_leBytes h] at hr

theorem readU64_reads {n : Nat} (h : n < 2 ^ 64) : Reads readU64 (leBytes 8 n) n := by
  have hr := Reads.map leNat (take_reads (length_leBytes 8 n))
  rwa [leNat_leBytes h] at hr

theorem readBytes_reads {b : List UInt8} (h : b.length < 2 ^ 32) :
    Reads readBytes (writeBytes b) b :=
  (readU32_reads h).bind (take_reads rfl)

theorem decode_insert_reads {treeId : Nat} {key value : List UInt8}
    (h : (Push.insert treeId key value).Fits) :
    Reads (decodePrimitive tyInsert) (insertBody treeId key value) (.insert treeId key value) := by
  obtain ⟨ht, hk, hv⟩ := h
  rw [decodePrimitive, if_pos rfl, insertBody, List.append_assoc]
  apply (readU64_reads ht).bind
  apply (readBytes_reads hk).bind
  exact (readBytes_reads hv).map _

theorem decode_erase_reads {treeId : Nat} {key : List UInt8} (h : (Push.erase treeId key).Fits) :
    Reads (decodePrimitive tyErase) (eraseBody treeId key) (.erase treeId key) := by
  obtain ⟨ht, hk⟩ := h
  rw [decodePrimitive, if_neg (by decide), if_pos rfl, eraseBody]
  apply (readU64_reads ht).bind
  exact (readBytes_reads hk).map _

theorem decode_renameObject_reads {treeId : Nat} {src dst : List UInt8} {force : Bool}
    (h : (Push.renameObject treeId src dst force).Fits) :
    Reads (decodePrimitive tyRenameObject) (renameObjectBody treeId src dst force)
      (.renameObject treeId src dst force) := by
  obtain ⟨ht, hs, hd⟩ := h
  rw [decodePrimitive, if_neg (by decide), if_neg (by decide), if_pos rfl, renameObjectBody,
    List.append_assoc, List.append_assoc]
  apply (readU64_reads ht).bind
  apply (readBytes_reads hs).bind
  apply (readBytes_reads hd).bind
  have hf := (readU8_reads force.toUInt8).map
    (fun force : UInt8 => WalOp.renameObject treeId src dst (force != 0))
  cases force <;> exact hf

end Primitives

section Batches

theorem decodeRunItems_reads (treeId : Nat) {keyLen valueLen : Nat}
    {items : List (List UInt8 × List UInt8)}
    (h : ∀ e ∈ items, e.1.length = keyLen ∧ e.2.length = valueLen) (ops : List WalOp) :
    Reads (decodeRunItems treeId keyLen valueLen items.length ops)
      (items.flatMap fun e => e.1 ++ e.2)
      (ops ++ items.map fun e => .insert treeId e.1 e.2) := by
  induction items generalizing ops with
  | nil =>
    rw [List.map_nil, List.append_nil]
    exact reads_pure ops
  | cons e items ih =>
    obtain ⟨hk, hv⟩ := h e List.mem_cons_self
    have hrest := ih (fun e' he' => h e' (List.mem_cons_of_mem _ he'))
      (ops ++ [.insert treeId e.1 e.2])
    rw [List.append_assoc] at hrest
    rw [List.flatMap_cons, List.append_assoc]
    exact (take_reads hk).bind ((take_reads hv).bind hrest)

/-- A run of one item is written as a plain insert. -/
theorem Push.insertRun_bytes {treeId keyLen valueLen : Nat}
    {items : List (List UInt8 × List UInt8)} (h : items.length ≠ 1) :
    (Push.insertRun treeId keyLen valueLen items).bytes =
      [tyBatchInsertRun] ++ (leBytes 8 treeId ++ leBytes 4 items.length ++ leBytes 4 keyLen ++
        leBytes 4 valueLen ++ items.flatMap fun e => e.1 ++ e.2) := by
  match items with
  | [] => rfl
  | [_] => exact absurd rfl h
  | _ :: _ :: _ => rfl

theorem Push.Fits.ops_pos {p : Push} (hf : p.Fits) : 0 < p.ops.length := by
  cases p with
  | insertRun treeId keyLen valueLen items =>
    simpa only [Push.ops, List.length_map] using List.length_pos_iff.mpr hf.2.2.2.1
  | _ => exact Nat.one_pos

/-- One call on the encoder is read back in one round. -/
theorem decodeInner_push {count rounds : Nat} {ops : List WalOp} {p : Push} (hf : p.Fits)
    (hc : ops.length + p.ops.length ≤ count) {rest : List UInt8} {all : List WalOp}
    (hrest : Reads (decodeInner count rounds (ops ++ p.ops)) rest all) :
    Reads (decodeInner count (rounds + 1) ops) (p.bytes ++ rest) all := by
  have hpos := hf.ops_pos
  rw [decodeInner, if_pos (by omega)]
  cases p with
  | insert treeId key value =>
    exact (readU8_reads tyInsert).bind ((decode_insert_reads hf).bind hrest)
  | erase treeId key =>
    exact (readU8_reads tyErase).bind ((decode_erase_reads hf).bind hrest)
  | renameObject treeId src dst force =>
    exact (readU8_reads tyRenameObject).bind ((decode_renameObject_reads hf).bind hrest)
  | insertRun treeId keyLen valueLen items =>
    obtain ⟨ht, hk, hv, hne, hlen, hall⟩ := hf
    by_cases hone : items.length = 1
    · obtain ⟨e, rfl⟩ := List.length_eq_one_iff.mp hone
      obtain ⟨hek, hev⟩ := hall e List.mem_cons_self
      have hfit : (Push.insert treeId e.1 e.2).Fits := ⟨ht, hek ▸ hk, hev ▸ hv⟩
      exact (readU8_reads tyInsert).bind ((decode_insert_reads hfit).bind hrest)
    · rw [Push.insertRun_bytes hone, List.append_assoc]
      apply (readU8_reads tyBatchInsertRun).bind
      refine Reads.bind ?_ hrest
      simp only [List.append_assoc]
      apply (readU64_reads ht).bind
      apply (readU32_reads hlen).bind
      rw [if_neg (Nat.ne_of_gt (List.length_pos_iff.mpr hne)),
        if_neg (by simpa [Push.ops] using hc)]
      apply (readU32_reads hk).bind
      apply (readU32_reads hv).bind
      exact decodeRunItems_reads treeId hall ops

theorem rounds_le {pushes : List Push} (hf : ∀ p ∈ pushes, p.Fits) :
    pushes.length ≤ (pushes.flatMap Push.ops).length := by
  induction pushes with
  | nil => exact Nat.le_refl _
  | cons p pushes ih =>
    have hp := Push.Fits.ops_pos (hf p List.mem_cons_self)
    have hrest := ih fun q hq => hf q (List.mem_cons_of_mem _ hq)
    rw [List.flatMap_cons, List.length_append, List.length_cons]
    omega

theorem decodeInner_reads {count rounds : Nat} {pushes : List Push} (hf : ∀ p ∈ pushes, p.Fits)
    {ops : List WalOp} (hc : ops.length + (pushes.flatMap Push.ops).length = count)
    (hr : pushes.length ≤ rounds) :
    Reads (decodeInner count rounds ops) (pushes.flatMap Push.bytes)
      (ops ++ pushes.flatMap Push.ops) := by
  induction pushes generalizing ops rounds with
  | nil =>
    rw [decodeInner.eq_def, if_neg (by simpa using Nat.le_of_eq hc.symm), List.flatMap_nil,
      List.flatMap_nil, List.append_nil]
    exact reads_pure ops
  | cons p pushes ih =>
    obtain ⟨rounds, rfl⟩ : ∃ n, rounds = n + 1 := ⟨rounds - 1, by simp at hr; omega⟩
    rw [List.flatMap_cons, List.length_append] at hc
    rw [List.flatMap_cons, List.flatMap_cons, ← List.append_assoc]
    apply decodeInner_push (hf p List.mem_cons_self) (by omega)
    apply ih (fun q hq => hf q (List.mem_cons_of_mem _ hq))
    · rw [List.length_append]; omega
    · simpa using hr

end Batches

section Records

variable {seq : Nat} {ty : UInt8} {body : List UInt8}

@[simp]
theorem length_writeHead : (writeHead seq ty body).length = recordHeaderSize + body.length := by
  simp only [writeHead, recordHeaderSize, List.length_append, length_leBytes, List.length_cons,
    List.length_nil]

@[simp]
theorem length_writeRecord :
    (writeRecord seq ty body).length = recordHeaderSize + body.length + recordFooterSize := by
  simp only [writeRecord, recordFooterSize, List.length_append, length_writeHead, length_leBytes]

/-- The fields of the header of a written record. -/
theorem writeRecord_header (ty : UInt8) (rest : List UInt8) (hb : body.length < 2 ^ 32)
    (hs : seq < 2 ^ 64) :
    leNat (slice (writeRecord seq ty body ++ rest) 0 4) = recordMagic ∧
    leNat (slice (writeRecord seq ty body ++ rest) 4 8) = body.length ∧
    leNat (slice (writeRecord seq ty body ++ rest) 8 16) = seq ∧
    slice (writeRecord seq ty body ++ rest) 16 17 = [ty] := by
  obtain ⟨tail, htail⟩ : ∃ tail, writeRecord seq ty body ++ rest =
      leBytes 4 recordMagic ++ leBytes 4 body.length ++ leBytes 8 seq ++ [ty] ++ tail :=
    ⟨body ++ leBytes 4 (crc32 (writeHead seq ty body)).toNat ++ rest,
      by simp only [writeRecord, writeHead, List.append_assoc]⟩
  simp only [htail, List.append_assoc]
  refine ⟨?_, ?_, ?_, ?_⟩
  · rw [slice, Nat.sub_zero, List.drop_zero, List.take_left' (length_leBytes 4 _)]
    exact leNat_leBytes (by decide)
  · rw [slice_field (leBytes 4 recordMagic) (leBytes 4 body.length) _ (by simp) (by simp)]
    exact leNat_leBytes hb
  · rw [← List.append_assoc, slice_field _ (leBytes 8 seq) _ (by simp) (by simp)]
    exact leNat_leBytes hs
  · rw [← List.append_assoc, ← List.append_assoc, slice_field _ [ty] _ (by simp) (by simp)]

/-- What the checksum covers, the checksum, and the body. -/
theorem writeRecord_parts (seq : Nat) (ty : UInt8) (body rest : List UInt8) :
    (writeRecord seq ty body ++ rest).take (recordHeaderSize + body.length) =
      writeHead seq ty body ∧
    slice (writeRecord seq ty body ++ rest) (recordHeaderSize + body.length)
        (recordHeaderSize + body.length + recordFooterSize) =
      leBytes 4 (crc32 (writeHead seq ty body)).toNat ∧
    (writeRecord seq ty body ++ rest).drop recordHeaderSize =
      body ++ (leBytes 4 (crc32 (writeHead seq ty body)).toNat ++ rest) := by
  refine ⟨?_, ?_, ?_⟩
  · rw [writeRecord, List.append_assoc]
    exact List.take_left' length_writeHead
  · rw [writeRecord, List.append_assoc]
    apply slice_field _ _ _ length_writeHead
    rw [length_writeHead, length_leBytes, recordFooterSize]
  · have hsplit : writeRecord seq ty body ++ rest =
        leBytes 4 recordMagic ++ leBytes 4 body.length ++ leBytes 8 seq ++ [ty] ++
          (body ++ (leBytes 4 (crc32 (writeHead seq ty body)).toNat ++ rest)) := by
      simp only [writeRecord, writeHead, List.append_assoc]
    rw [hsplit]
    apply List.drop_left'
    rfl

theorem decodeRecord_writeRecord (rest : List UInt8) (hb : body.length < 2 ^ 32)
    (hs : seq < 2 ^ 64) :
    decodeRecord (writeRecord seq ty body ++ rest) =
      (decodeBody ty body).map fun op => ⟨op, seq, (writeRecord seq ty body).length⟩ := by
  obtain ⟨hmagic, hlen, hseq, hty⟩ := writeRecord_header ty rest hb hs
  obtain ⟨hhead, hcrc, hdrop⟩ := writeRecord_parts seq ty body rest
  have hbody : slice (writeRecord seq ty body ++ rest) recordHeaderSize
      (recordHeaderSize + body.length) = body := by
    rw [slice, hdrop, Nat.add_sub_cancel_left, List.take_left]
  have hlong : ¬ (writeRecord seq ty body ++ rest).length <
      recordHeaderSize + body.length + recordFooterSize := by
    rw [List.length_append, length_writeRecord]
    omega
  rw [decodeRecord, if_neg (by omega), if_neg (not_not_intro hmagic)]
  simp only [hlen]
  rw [if_neg hlong, hhead, hcrc, leNat_leBytes (UInt32.toNat_lt _), if_neg (not_not_intro rfl),
    hbody, hty, hseq, length_writeRecord]
  rfl

/-- A record cut short is taken for the torn end of the log. -/
theorem decodeRecord_torn (hb : body.length < 2 ^ 32) (hs : seq < 2 ^ 64) {n : Nat}
    (hn : n < (writeRecord seq ty body).length) :
    decodeRecord ((writeRecord seq ty body).take n) = .error (sanity "record header truncated") ∨
    decodeRecord ((writeRecord seq ty body).take n) = .error (sanity "record body truncated") := by
  obtain ⟨hmagic, hlen, -, -⟩ := writeRecord_header ty [] hb hs
  rw [List.append_nil] at hmagic hlen
  have hlength : ((writeRecord seq ty body).take n).length = n := by
    rw [List.length_take]
    omega
  unfold decodeRecord
  by_cases hshort : n < recordHeaderSize
  · left
    rw [if_pos (by omega)]
  · right
    have h17 : recordHeaderSize = 17 := rfl
    rw [if_neg (by omega), slice_take _ (by omega), if_neg (not_not_intro hmagic),
      slice_take _ (by omega), hlen]
    exact if_pos (by rw [hlength]; simpa only [length_writeRecord] using hn)

/-- What one call adds to a batch does not depend on what the batch holds. -/
theorem Push.apply_eq (p : Push) (enc : BatchEncoder) :
    p.apply enc =
      { enc with inner := enc.inner ++ p.bytes, innerCount := enc.innerCount + p.ops.length } := by
  have hpush : ∀ (ty : UInt8) (body : List UInt8) (count : Nat), enc.push ty body count =
      { enc with
        inner := enc.inner ++ ((BatchEncoder.begin 0 0).push ty body count).inner
        innerCount := enc.innerCount + count } := by
    intro ty body count
    simp only [BatchEncoder.push, BatchEncoder.begin, List.nil_append, List.append_assoc]
  cases p with
  | insertRun treeId keyLen valueLen items =>
    match items with
    | [] => exact hpush _ _ _
    | [_] => exact hpush _ _ _
    | _ :: _ :: items =>
      rw [show (Push.insertRun treeId keyLen valueLen (_ :: _ :: items)).ops.length =
        (_ :: _ :: items : List _).length from List.length_map _]
      exact hpush _ _ _
  | _ => exact hpush _ _ _

theorem foldl_apply (pushes : List Push) (enc : BatchEncoder) :
    pushes.foldl Push.apply enc =
      { enc with
        inner := enc.inner ++ pushes.flatMap Push.bytes
        innerCount := enc.innerCount + (pushes.flatMap Push.ops).length } := by
  induction pushes generalizing enc with
  | nil => simp
  | cons p pushes ih =>
    rw [List.foldl_cons, ih, Push.apply_eq]
    simp only [List.flatMap_cons, List.length_append, List.append_assoc, Nat.add_assoc]

theorem decodeBody_of_reads {op : WalOp} (h : Reads (decodeBodyInto ty) body op) :
    decodeBody ty body = .ok op := by
  rw [decodeBody, h.all]

theorem decodeBatch_reads {treeId : Nat} {pushes : List Push} (ht : treeId < 2 ^ 64)
    (hc : (pushes.flatMap Push.ops).length < 2 ^ 32) (hf : ∀ p ∈ pushes, p.Fits) :
    Reads (decodeBodyInto tyBatch)
      (leBytes 8 treeId ++ (leBytes 4 (pushes.flatMap Push.ops).length ++
        pushes.flatMap Push.bytes))
      (.batch (pushes.flatMap Push.ops)) := by
  rw [decodeBodyInto, if_pos rfl]
  apply (readU64_reads ht).bind
  apply (readU32_reads hc).bind
  have hinner : Reads (decodeInner _ _ []) _ _ :=
    decodeInner_reads hf (Nat.zero_add _) (rounds_le hf)
  rw [List.nil_append] at hinner
  exact hinner.map WalOp.batch

/-- The tag and the body a record is written with. -/
theorem LogRecord.encode_eq (r : LogRecord) (hf : r.Fits) :
    ∃ ty body, r.encode = writeRecord r.seq ty body ∧ body.length < 2 ^ 32 ∧
      decodeBody ty body = .ok r.op := by
  have hshort : ∀ {seq ty body},
      (writeRecord seq ty body).length < recordHeaderSize + 2 ^ 32 + recordFooterSize →
      body.length < 2 ^ 32 := by
    intro seq ty body h
    rw [length_writeRecord] at h
    omega
  obtain ⟨hseq, hlen, hf⟩ := hf
  cases r with
  | insert seq treeId key value =>
    exact ⟨_, _, rfl, hshort hlen, decodeBody_of_reads (decode_insert_reads hf)⟩
  | erase seq treeId key =>
    exact ⟨_, _, rfl, hshort hlen, decodeBody_of_reads (decode_erase_reads hf)⟩
  | renameObject seq treeId src dst force =>
    exact ⟨_, _, rfl, hshort hlen, decodeBody_of_reads (decode_renameObject_reads hf)⟩
  | batch seq treeId pushes =>
    obtain ⟨ht, hc, hp⟩ := hf
    have henc : (LogRecord.batch seq treeId pushes).encode = writeRecord seq tyBatch
        (leBytes 8 treeId ++ (leBytes 4 (pushes.flatMap Push.ops).length ++
          pushes.flatMap Push.bytes)) := by
      rw [encode, foldl_apply]
      simp only [BatchEncoder.finish, BatchEncoder.begin, List.nil_append, Nat.zero_add,
        List.append_assoc]
    exact ⟨_, _, henc, hshort (henc ▸ hlen), decodeBody_of_reads (decodeBatch_reads ht hc hp)⟩

theorem LogRecord.decodeRecord_encode {r : LogRecord} (hf : r.Fits) (rest : List UInt8) :
    decodeRecord (r.encode ++ rest) = .ok r.decoded := by
  obtain ⟨ty, body, henc, hb, hop⟩ := r.encode_eq hf
  rw [decoded, henc, decodeRecord_writeRecord rest hb hf.1, hop]
  rfl

theorem LogRecord.decodeRecord_torn {r : LogRecord} (hf : r.Fits) {n : Nat}
    (hn : n < r.encode.length) :
    decodeRecord (r.encode.take n) = .error (sanity "record header truncated") ∨
    decodeRecord (r.encode.take n) = .error (sanity "record body truncated") := by
  obtain ⟨ty, body, henc, hb, -⟩ := r.encode_eq hf
  rw [henc] at hn ⊢
  exact Codec.decodeRecord_torn hb hf.1 hn

end Records

end Holt.Codec
