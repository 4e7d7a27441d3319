import Holt.Journal.Reader
import Mathlib.Algebra.Order.BigOperators.Group.List
import Mathlib.Algebra.Order.Group.Nat

/-! The memory that reading a log asks for. Keys and values are copied out of the input and are
never longer than it; the vector of a batch is made as long as the batch says it is. -/

namespace Holt.Codec

open Holt.Lib

/-- Bytes of a `WalOp` in a vector: `RenameObject` is the largest, with two vectors, a tree id and
a flag. -/
def walOpSize : Nat := 64

/-! ## The decoder with its requests on record -/

/-- What is left of the body, and the sizes of the allocations asked for so far. -/
structure Meter where
  body : List UInt8
  requests : List Nat

abbrev Metered := EStateM Error Meter

def request (size : Nat) : Metered Unit :=
  modify fun m => { m with requests := m.requests ++ [size] }

/-- Reading in place asks for nothing. -/
def inPlace {α : Type} (c : Cursor α) : Metered α := fun m =>
  match c m.body with
  | .ok a rest => .ok a { m with body := rest }
  | .error err rest => .error err { m with body := rest }

def toVec (front : List UInt8) : Metered (List UInt8) := do
  request front.length
  pure front

def readBytesMetered : Metered (List UInt8) := do
  let len ← inPlace readU32
  let front ← inPlace (take len)
  toVec front

/-- One insert of a run: both slices are taken before either is copied. -/
def runItemMetered (keyLen valueLen : Nat) : Metered (List UInt8 × List UInt8) := do
  let key ← inPlace (take keyLen)
  let value ← inPlace (take valueLen)
  let key ← toVec key
  let value ← toVec value
  pure (key, value)

/-- The vector has room for every operation of the batch, so `push` asks for nothing. -/
def decodeRunItemsMetered (treeId keyLen valueLen : Nat) :
    Nat → List WalOp → Metered (List WalOp)
  | 0, ops => pure ops
  | count + 1, ops => do
    let (key, value) ← runItemMetered keyLen valueLen
    decodeRunItemsMetered treeId keyLen valueLen count (ops ++ [.insert treeId key value])

def decodeInsertRunMetered (batchCount : Nat) (ops : List WalOp) : Metered (List WalOp) := do
  let treeId ← inPlace readU64
  let count ← inPlace readU32
  if count = 0 then throw (sanity "empty BatchInsertRun is rejected")
  else if batchCount < ops.length + count then
    throw (sanity "BatchInsertRun exceeds batch inner count")
  else do
    let keyLen ← inPlace readU32
    let valueLen ← inPlace readU32
    decodeRunItemsMetered treeId keyLen valueLen count ops

def decodePrimitiveMetered (ty : UInt8) : Metered WalOp :=
  if ty = tyInsert then do
    let treeId ← inPlace readU64
    let key ← readBytesMetered
    let value ← readBytesMetered
    pure (.insert treeId key value)
  else if ty = tyErase then do
    let treeId ← inPlace readU64
    let key ← readBytesMetered
    pure (.erase treeId key)
  else if ty = tyRenameObject then do
    let treeId ← inPlace readU64
    let src ← readBytesMetered
    let dst ← readBytesMetered
    let force ← inPlace readU8
    pure (.renameObject treeId src dst (force != 0))
  else throw (sanity "unknown WalOp variant tag")

def decodeInnerMetered (count rounds : Nat) (ops : List WalOp) : Metered (List WalOp) :=
  if ops.length < count then
    match rounds with
    | 0 => throw .diverged
    | rounds + 1 => do
      let innerTy ← inPlace readU8
      if innerTy = tyBatch then throw (sanity "nested Batch is rejected")
      else if innerTy = tyBatchInsertRun then do
        let ops ← decodeInsertRunMetered count ops
        decodeInnerMetered count rounds ops
      else do
        let inner ← decodePrimitiveMetered innerTy
        decodeInnerMetered count rounds (ops ++ [inner])
  else pure ops

def decodeBodyIntoMetered (ty : UInt8) : Metered WalOp :=
  if ty = tyBatch then do
    let _ ← inPlace readU64
    let count ← inPlace readU32
    -- `Vec::with_capacity(count)`
    request (walOpSize * count)
    let ops ← decodeInnerMetered count count []
    pure (.batch ops)
  else decodePrimitiveMetered ty

/-- The type and the body of a record that is there in full, with the right checksum. -/
def wholeRecord (buf : List UInt8) : Option (UInt8 × List UInt8) :=
  let bodyEnd := recordHeaderSize + leNat (slice buf 4 8)
  let total := bodyEnd + recordFooterSize
  if recordHeaderSize ≤ buf.length ∧ leNat (slice buf 0 4) = recordMagic ∧ total ≤ buf.length ∧
      (crc32 (buf.take bodyEnd)).toNat = leNat (slice buf bodyEnd total) then
    some ((slice buf 16 17).headD 0, slice buf recordHeaderSize bodyEnd)
  else none

/-- What `decode_record` asks for; before it comes to the body, nothing. -/
def requests (buf : List UInt8) : List Nat :=
  match wholeRecord buf with
  | none => []
  | some (ty, body) => (leaves (decodeBodyIntoMetered ty) ⟨body, []⟩).requests

/-- The number of operations a record says it holds, if it says so. -/
def claimedOps (buf : List UInt8) : Nat :=
  match wholeRecord buf with
  | none => 0
  | some (ty, body) => if ty = tyBatch ∧ 12 ≤ body.length then leNat (slice body 8 12) else 0

/-! ## Copies are paid for by the input -/

/-- An outcome with the requests made on the way to it. -/
def stamp {α : Type} (asked : List Nat) :
    EStateM.Result Error (List UInt8) α → EStateM.Result Error Meter α
  | .ok a rest => .ok a ⟨rest, asked⟩
  | .error err rest => .error err ⟨rest, asked⟩

/-- The same reads with the same outcome, and every byte copied is a byte consumed. -/
def Meters {α : Type} (m : Metered α) (c : Cursor α) : Prop :=
  ∀ body asked, ∃ copies : List Nat, copies.sum + (leaves c body).length ≤ body.length ∧
    m ⟨body, asked⟩ = stamp (asked ++ copies) (c body)

namespace Meters

variable {α β : Type}

theorem pure (a : α) : Meters (pure a) (pure a) := fun body asked =>
  ⟨[], Nat.le_of_eq (Nat.zero_add _), by rw [List.append_nil]; rfl⟩

theorem throw (err : Error) : Meters (throw err : Metered α) (throw err) := fun body asked =>
  ⟨[], Nat.le_of_eq (Nat.zero_add _), by rw [List.append_nil]; rfl⟩

theorem bind {m : Metered α} {c : Cursor α} {f : α → Metered β} {g : α → Cursor β}
    (hm : Meters m c) (hf : ∀ a, Meters (f a) (g a)) : Meters (m >>= f) (c >>= g) := by
  intro body asked
  obtain ⟨first, hfirst, hrun⟩ := hm body asked
  cases hc : c body with
  | error err rest =>
    rw [leaves_of_error hc] at hfirst
    rw [hc] at hrun
    rw [leaves_of_error (bind_of_error hc g), bind_of_error hc, bind_of_error hrun]
    exact ⟨first, hfirst, rfl⟩
  | ok a rest =>
    rw [leaves_of_ok hc] at hfirst
    rw [hc] at hrun
    rw [leaves_bind_of_ok hc, bind_of_ok hc, bind_of_ok hrun]
    obtain ⟨second, hsecond, hrest⟩ := hf a rest (asked ++ first)
    refine ⟨first ++ second, ?_, ?_⟩
    · rw [List.sum_append]
      omega
    · rw [← List.append_assoc]
      exact hrest

theorem ite {p : Prop} [Decidable p] {m m' : Metered α} {c c' : Cursor α} (h : Meters m c)
    (h' : Meters m' c') : Meters (if p then m else m') (if p then c else c') := by
  split
  · exact h
  · exact h'

end Meters

/-- Reading in place copies nothing. -/
theorem inPlace_meters {α : Type} {c : Cursor α}
    (h : ∀ body, (leaves c body).length ≤ body.length) : Meters (inPlace c) c := by
  intro body asked
  refine ⟨[], Nat.le_trans (Nat.le_of_eq (Nat.zero_add _)) (h body), ?_⟩
  rw [List.append_nil]
  rfl

theorem inPlace_ok {α : Type} {c : Cursor α} {body rest : List UInt8} {a : α}
    (h : c body = .ok a rest) (asked : List Nat) :
    inPlace c ⟨body, asked⟩ = .ok a ⟨rest, asked⟩ := by
  unfold inPlace
  rw [h]

theorem inPlace_error {α : Type} {c : Cursor α} {body rest : List UInt8} {err : Error}
    (h : c body = .error err rest) (asked : List Nat) :
    inPlace c ⟨body, asked⟩ = .error err ⟨rest, asked⟩ := by
  unfold inPlace
  rw [h]

theorem take_ok {n : Nat} {body : List UInt8} (h : ¬ body.length < n) :
    take n body = .ok (body.take n) (body.drop n) :=
  if_neg h

theorem take_error {n : Nat} {body : List UInt8} (h : body.length < n) :
    take n body = .error (sanity "body truncated") body :=
  if_pos h

theorem take_map_shrinks {α : Type} (n : Nat) (f : List UInt8 → α) (body : List UInt8) :
    (leaves (do pure (f (← take n)) : Cursor α) body).length ≤ body.length := by
  by_cases h : body.length < n
  · rw [leaves_of_error (bind_of_error (take_error h) _)]
  · rw [leaves_bind_of_ok (take_ok h)]
    exact Nat.le_trans (Nat.le_of_eq List.length_drop) (Nat.sub_le ..)

theorem readU8_meters : Meters (inPlace readU8) readU8 := inPlace_meters (take_map_shrinks 1 _)

theorem readU32_meters : Meters (inPlace readU32) readU32 := inPlace_meters (take_map_shrinks 4 _)

theorem readU64_meters : Meters (inPlace readU64) readU64 := inPlace_meters (take_map_shrinks 8 _)

/-- What is taken and copied is consumed. -/
theorem take_toVec_meters (n : Nat) : Meters (do toVec (← inPlace (take n))) (take n) := by
  intro body asked
  by_cases h : body.length < n
  · rw [bind_of_error (inPlace_error (take_error h) asked), leaves_of_error (take_error h),
      take_error h]
    refine ⟨[], Nat.le_of_eq (Nat.zero_add _), ?_⟩
    rw [List.append_nil]
    rfl
  · rw [bind_of_ok (inPlace_ok (take_ok h) asked), leaves_of_ok (take_ok h), take_ok h]
    refine ⟨[(body.take n).length], ?_, rfl⟩
    simp only [List.sum_singleton, List.length_take, List.length_drop]
    omega

theorem readBytes_meters : Meters readBytesMetered readBytes :=
  readU32_meters.bind take_toVec_meters

theorem runItem_meters (keyLen valueLen : Nat) :
    Meters (runItemMetered keyLen valueLen)
      (do
        let key ← take keyLen
        let value ← take valueLen
        pure (key, value)) := by
  intro body asked
  unfold runItemMetered
  by_cases hkey : body.length < keyLen
  · rw [bind_of_error (inPlace_error (take_error hkey) asked),
      leaves_of_error (bind_of_error (take_error hkey) _), bind_of_error (take_error hkey)]
    refine ⟨[], Nat.le_of_eq (Nat.zero_add _), ?_⟩
    rw [List.append_nil]
    rfl
  rw [bind_of_ok (inPlace_ok (take_ok hkey) asked), leaves_bind_of_ok (take_ok hkey),
    bind_of_ok (take_ok hkey)]
  by_cases hvalue : (body.drop keyLen).length < valueLen
  · rw [bind_of_error (inPlace_error (take_error hvalue) asked),
      leaves_of_error (bind_of_error (take_error hvalue) _), bind_of_error (take_error hvalue)]
    refine ⟨[], ?_, ?_⟩
    · rw [List.sum_nil, List.length_drop]
      omega
    · rw [List.append_nil]
      rfl
  · rw [bind_of_ok (inPlace_ok (take_ok hvalue) asked),
      leaves_bind_of_ok (take_ok hvalue), bind_of_ok (take_ok hvalue)]
    refine ⟨[(body.take keyLen).length, ((body.drop keyLen).take valueLen).length], ?_, ?_⟩
    · rw [List.length_drop] at hvalue
      simp only [leaves, pure, EStateM.pure, List.sum_cons, List.sum_nil, List.length_take,
        List.length_drop]
      omega
    · change EStateM.Result.ok _ (Meter.mk _ ((asked ++ [_]) ++ [_])) = _
      rw [List.append_assoc]
      rfl

theorem decodeRunItems_meters (treeId keyLen valueLen count : Nat) (ops : List WalOp) :
    Meters (decodeRunItemsMetered treeId keyLen valueLen count ops)
      (decodeRunItems treeId keyLen valueLen count ops) := by
  induction count generalizing ops with
  | zero => exact .pure ops
  | succ count ih =>
    have hitem := (runItem_meters keyLen valueLen).bind fun item =>
      ih (ops ++ [.insert treeId item.1 item.2])
    simp only [bind_assoc, pure_bind] at hitem
    exact hitem

theorem decodeInsertRun_meters (batchCount : Nat) (ops : List WalOp) :
    Meters (decodeInsertRunMetered batchCount ops) (decodeInsertRun batchCount ops) := by
  apply readU64_meters.bind
  intro treeId
  apply readU32_meters.bind
  intro count
  apply Meters.ite (.throw _)
  apply Meters.ite (.throw _)
  apply readU32_meters.bind
  intro keyLen
  apply readU32_meters.bind
  intro valueLen
  exact decodeRunItems_meters treeId keyLen valueLen count ops

theorem decodePrimitive_meters (ty : UInt8) :
    Meters (decodePrimitiveMetered ty) (decodePrimitive ty) := by
  apply Meters.ite
  · apply readU64_meters.bind
    intro treeId
    apply readBytes_meters.bind
    intro key
    exact readBytes_meters.bind fun value => .pure _
  apply Meters.ite
  · apply readU64_meters.bind
    intro treeId
    exact readBytes_meters.bind fun key => .pure _
  apply Meters.ite
  · apply readU64_meters.bind
    intro treeId
    apply readBytes_meters.bind
    intro src
    apply readBytes_meters.bind
    intro dst
    exact readU8_meters.bind fun force => .pure _
  · exact .throw _

theorem decodeInner_meters (count rounds : Nat) (ops : List WalOp) :
    Meters (decodeInnerMetered count rounds ops) (decodeInner count rounds ops) := by
  induction rounds generalizing ops with
  | zero =>
    unfold decodeInnerMetered decodeInner
    exact .ite (.throw _) (.pure _)
  | succ rounds ih =>
    unfold decodeInnerMetered decodeInner
    apply Meters.ite _ (.pure _)
    apply readU8_meters.bind
    intro innerTy
    apply Meters.ite (.throw _)
    apply Meters.ite
    · exact (decodeInsertRun_meters count ops).bind ih
    · exact (decodePrimitive_meters innerTy).bind fun inner => ih _

/-- What a batch asks for as soon as its count is read. -/
def upfront (ty : UInt8) (body : List UInt8) : List Nat :=
  if ty = tyBatch ∧ 12 ≤ body.length then [walOpSize * leNat (slice body 8 12)] else []

theorem decodeBodyInto_requests (ty : UInt8) (body : List UInt8) :
    ∃ copies : List Nat, copies.sum ≤ body.length ∧
      decodeBodyIntoMetered ty ⟨body, []⟩ =
        stamp (upfront ty body ++ copies) (decodeBodyInto ty body) := by
  unfold decodeBodyIntoMetered decodeBodyInto upfront
  by_cases hty : ty = tyBatch
  · rw [if_pos hty, if_pos hty]
    by_cases hid : body.length < 8
    · have hread : readU64 body = .error (sanity "body truncated") body :=
        bind_of_error (take_error hid) _
      rw [bind_of_error (inPlace_error hread []), bind_of_error hread, if_neg (by omega)]
      exact ⟨[], Nat.zero_le _, rfl⟩
    have hread : readU64 body = .ok _ (body.drop 8) := bind_of_ok (take_ok hid) _
    rw [bind_of_ok (inPlace_ok hread []), bind_of_ok hread]
    by_cases hcount : (body.drop 8).length < 4
    · have hread : readU32 (body.drop 8) = .error (sanity "body truncated") (body.drop 8) :=
        bind_of_error (take_error hcount) _
      rw [List.length_drop] at hcount
      rw [bind_of_error (inPlace_error hread []), bind_of_error hread, if_neg (by omega)]
      exact ⟨[], Nat.zero_le _, rfl⟩
    have hread : readU32 (body.drop 8) = .ok (leNat (slice body 8 12)) ((body.drop 8).drop 4) :=
      bind_of_ok (take_ok hcount) _
    rw [List.length_drop] at hcount
    rw [bind_of_ok (inPlace_ok hread []), bind_of_ok hread, if_pos ⟨hty, by omega⟩]
    obtain ⟨copies, hsum, hrun⟩ :=
      ((decodeInner_meters (leNat (slice body 8 12)) (leNat (slice body 8 12)) []).bind
        fun ops => .pure (WalOp.batch ops)) ((body.drop 8).drop 4)
        [walOpSize * leNat (slice body 8 12)]
    refine ⟨copies, ?_, hrun⟩
    rw [List.length_drop, List.length_drop] at hsum
    omega
  · rw [if_neg hty, if_neg hty, if_neg fun h => hty h.1]
    obtain ⟨copies, hsum, hrun⟩ := decodePrimitive_meters ty body []
    exact ⟨copies, Nat.le_of_add_right_le hsum, hrun⟩

theorem decodeRecord_eq (buf : List UInt8) :
    (wholeRecord buf = none ∧ ∃ err, decodeRecord buf = .error err) ∨
    ∃ ty body, wholeRecord buf = some (ty, body) ∧
      body.length + recordHeaderSize + recordFooterSize ≤ buf.length ∧
      decodeRecord buf = (decodeBody ty body).map fun op =>
        ⟨op, leNat (slice buf 8 16), body.length + recordHeaderSize + recordFooterSize⟩ := by
  unfold wholeRecord decodeRecord
  dsimp only
  by_cases hshort : buf.length < recordHeaderSize
  · rw [if_neg (by omega), if_pos hshort]
    exact .inl ⟨rfl, _, rfl⟩
  by_cases hmagic : leNat (slice buf 0 4) ≠ recordMagic
  · rw [if_neg fun h => hmagic h.2.1, if_neg hshort, if_pos hmagic]
    exact .inl ⟨rfl, _, rfl⟩
  by_cases htorn : buf.length < recordHeaderSize + leNat (slice buf 4 8) + recordFooterSize
  · rw [if_neg (by omega), if_neg hshort, if_neg hmagic, if_pos htorn]
    exact .inl ⟨rfl, _, rfl⟩
  by_cases hcrc : (crc32 (buf.take (recordHeaderSize + leNat (slice buf 4 8)))).toNat ≠
      leNat (slice buf (recordHeaderSize + leNat (slice buf 4 8))
        (recordHeaderSize + leNat (slice buf 4 8) + recordFooterSize))
  · rw [if_neg fun h => hcrc h.2.2.2, if_neg hshort, if_neg hmagic, if_neg htorn, if_pos hcrc]
    exact .inl ⟨rfl, _, rfl⟩
  rw [Decidable.not_not] at hmagic hcrc
  rw [if_pos ⟨Nat.le_of_not_lt hshort, hmagic, Nat.le_of_not_lt htorn, hcrc⟩, if_neg hshort,
    if_neg (not_not_intro hmagic), if_neg htorn, if_neg (not_not_intro hcrc)]
  have hlen : (slice buf recordHeaderSize (recordHeaderSize + leNat (slice buf 4 8))).length =
      leNat (slice buf 4 8) := by
    rw [length_slice]
    omega
  refine .inr ⟨_, _, rfl, ?_, ?_⟩
  · omega
  · rw [hlen, Nat.add_comm recordHeaderSize]

/-- The vector of a batch, and copies of what the record holds. -/
theorem requests_eq (buf : List UInt8) :
    ∃ copies : List Nat, copies.sum ≤ buf.length ∧
      (∀ r, decodeRecord buf = .ok r → copies.sum ≤ r.bytesConsumed) ∧
      (requests buf = walOpSize * claimedOps buf :: copies ∨
        claimedOps buf = 0 ∧ requests buf = copies) := by
  unfold requests claimedOps
  rcases decodeRecord_eq buf with ⟨hnone, err, herr⟩ | ⟨ty, body, hsome, hlen, hdecode⟩
  · rw [hnone, herr]
    exact ⟨[], Nat.zero_le _, nofun, .inr ⟨rfl, rfl⟩⟩
  obtain ⟨copies, hsum, hrun⟩ := decodeBodyInto_requests ty body
  have hrequests : (leaves (decodeBodyIntoMetered ty) ⟨body, []⟩).requests =
      upfront ty body ++ copies := by
    unfold leaves
    rw [hrun]
    cases decodeBodyInto ty body <;> rfl
  rw [hsome]
  dsimp only
  rw [hrequests]
  refine ⟨copies, by omega, fun r hr => ?_, ?_⟩
  · rw [hdecode] at hr
    cases hop : decodeBody ty body with
    | error err =>
      rw [hop] at hr
      cases hr
    | ok op =>
      rw [hop] at hr
      cases hr
      dsimp only
      omega
  · unfold upfront
    split
    · exact .inl rfl
    · exact .inr ⟨rfl, rfl⟩

/-- The largest request a record can lead to is the vector of a batch. -/
theorem requests_le_iff {A B : Nat} (hB : 0 < B) {buf : List UInt8} {n : Nat}
    (hn : buf.length ≤ n) :
    (∀ size ∈ requests buf, size ≤ A + B * n) ↔ walOpSize * claimedOps buf ≤ A + B * n := by
  obtain ⟨copies, hsum, -, heq⟩ := requests_eq buf
  have hn' : n ≤ B * n := Nat.le_mul_of_pos_left n hB
  have hcopies : ∀ size ∈ copies, size ≤ A + B * n := by
    intro size hsize
    have := List.le_sum_of_mem hsize
    omega
  rcases heq with heq | ⟨hzero, heq⟩
  · rw [heq, List.forall_mem_cons]
    exact and_iff_left hcopies
  · rw [heq, hzero]
    exact iff_of_true hcopies (Nat.zero_le _)

end Holt.Codec

namespace Holt.Reader

open Holt.Lib Holt.Codec

section Scan

variable {σ : Type} (callback : WalOp → Nat → Nat → EStateM Error σ Unit)

/-- What `decode_record` is called on, round by round. -/
def scannedLoop : Nat → List UInt8 → Nat → Option Nat → σ → List (List UInt8)
  | 0, _, _, _, _ => []
  | rounds + 1, bytes, offset, highest, s =>
    if bytes.isEmpty then []
    else
      bytes ::
        match decodeRecord bytes with
        | .ok r =>
          match deliver callback offset (r.op.flatten r.seq) highest s with
          | .ok highest s =>
            scannedLoop rounds (bytes.drop r.bytesConsumed) (offset + r.bytesConsumed) highest s
          | .error _ _ => []
        | .error _ => []

def scanned (bytes : List UInt8) (s : σ) : List (List UInt8) :=
  if bytes.length < fileHeaderSize then []
  else
    match decodeFileHeader (bytes.take fileHeaderSize) with
    | .error _ => []
    | .ok _ =>
      scannedLoop callback (bytes.length + 1) (bytes.drop fileHeaderSize) fileHeaderSize none s

/-- What `replay_bytes` asks for: the header is read in place. -/
def replayRequests (bytes : List UInt8) (s : σ) : List Nat :=
  (scanned callback bytes s).flatMap requests

theorem scannedLoop_length_le (rounds : Nat) (bytes : List UInt8) (offset : Nat)
    (highest : Option Nat) (s : σ) :
    ∀ part ∈ scannedLoop callback rounds bytes offset highest s, part.length ≤ bytes.length := by
  induction rounds generalizing bytes offset highest s with
  | zero => exact nofun
  | succ rounds ih =>
    unfold scannedLoop
    split
    · exact nofun
    rw [List.forall_mem_cons]
    refine ⟨Nat.le_refl _, ?_⟩
    split
    · split
      · intro part hpart
        have := ih _ _ _ _ part hpart
        rw [List.length_drop] at this
        omega
      · exact nofun
    · exact nofun

theorem scannedLoop_sum_le (rounds : Nat) (bytes : List UInt8) (offset : Nat)
    (highest : Option Nat) (s : σ) :
    ((scannedLoop callback rounds bytes offset highest s).flatMap requests).sum ≤
      walOpSize * ((scannedLoop callback rounds bytes offset highest s).map claimedOps).sum +
        bytes.length := by
  induction rounds generalizing bytes offset highest s with
  | zero => exact Nat.zero_le _
  | succ rounds ih =>
    unfold scannedLoop
    split
    · exact Nat.zero_le _
    obtain ⟨copies, hall, hread, heq⟩ := requests_eq bytes
    have hfirst : (requests bytes).sum ≤ walOpSize * claimedOps bytes + copies.sum := by
      rcases heq with heq | ⟨-, heq⟩
      · exact Nat.le_of_eq (by rw [heq, List.sum_cons])
      · rw [heq]
        exact Nat.le_add_left ..
    rw [List.flatMap_cons, List.sum_append, List.map_cons, List.sum_cons, Nat.mul_add]
    split
    · rename_i r hr
      have hcopies := hread r hr
      obtain ⟨-, hconsumed, -⟩ := decodeRecord_spec hr
      split
      · rename_i highest' s' _
        have hrest := ih (bytes.drop r.bytesConsumed) (offset + r.bytesConsumed) highest' s'
        rw [List.length_drop] at hrest
        omega
      · simp only [List.flatMap_nil, List.map_nil, List.sum_nil]
        omega
    · simp only [List.flatMap_nil, List.map_nil, List.sum_nil]
      omega

end Scan

/-- A record's body holds what is copied out of it, so decoding asks for memory in proportion to
its input exactly if no batch claims more operations than that. -/
theorem decoding_requests_iff (A : Nat) {B : Nat} (hB : 0 < B) {σ : Type}
    (callback : WalOp → Nat → Nat → EStateM Error σ Unit) (buf : List UInt8) (s : σ) :
    ((∀ size ∈ requests buf, size ≤ A + B * buf.length) ↔
      walOpSize * claimedOps buf ≤ A + B * buf.length) ∧
    (requests buf).sum ≤ walOpSize * claimedOps buf + buf.length ∧
    ((∀ size ∈ replayRequests callback buf s, size ≤ A + B * buf.length) ↔
      ∀ part ∈ scanned callback buf s, walOpSize * claimedOps part ≤ A + B * buf.length) ∧
    (replayRequests callback buf s).sum ≤
      walOpSize * ((scanned callback buf s).map claimedOps).sum + buf.length := by
  refine ⟨requests_le_iff hB (Nat.le_refl _), ?_, ?_, ?_⟩
  · obtain ⟨copies, hall, -, heq | ⟨-, heq⟩⟩ := requests_eq buf
    · rw [heq, List.sum_cons]
      omega
    · rw [heq]
      omega
  · have hlen : ∀ part ∈ scanned callback buf s, part.length ≤ buf.length := by
      unfold scanned
      split
      · exact nofun
      split
      · exact nofun
      · intro part hpart
        have := scannedLoop_length_le callback _ _ _ _ _ part hpart
        rw [List.length_drop] at this
        omega
    simp only [replayRequests, List.mem_flatMap, forall_exists_index, and_imp]
    rw [forall_comm]
    apply forall_congr'
    intro part
    rw [forall_comm]
    apply forall_congr'
    intro hpart
    exact requests_le_iff hB (hlen part hpart)
  · unfold replayRequests scanned
    split
    · exact Nat.zero_le _
    split
    · exact Nat.zero_le _
    · have := scannedLoop_sum_le callback (buf.length + 1) (buf.drop fileHeaderSize)
        fileHeaderSize none s
      rw [List.length_drop] at this
      omega

/-- A callback that takes every operation. -/
def ignoring : WalOp → Nat → Nat → EStateM Error Unit Unit := fun _ _ _ => pure ()

/-- An insert asks for its key and its value. -/
theorem decoding_requests_insert :
    requests (encodeInsertRecord 1 0 [7] [8, 9]) = [1, 2] ∧
    ∀ size ∈ requests (encodeInsertRecord 1 0 [7] [8, 9]),
      size ≤ 0 + 1 * (encodeInsertRecord 1 0 [7] [8, 9]).length :=
  ⟨by decide +kernel, (decoding_requests_iff 0 Nat.one_pos ignoring _ ()).1.mpr (by decide +kernel)⟩

/-- A batch without operations that says it has `2 ^ 32 - 1` of them. -/
def hollowBatch : List UInt8 :=
  writeRecord 0 tyBatch (leBytes 8 0 ++ leBytes 4 (2 ^ 32 - 1))

/-- Its checksum is right, and it is refused only after room for all of them was asked for: four
gigabytes for every byte of the input are not enough. -/
theorem hollow_batch_requests :
    hollowBatch.length = 33 ∧
    decodeRecord hollowBatch = .error (sanity "body truncated") ∧
    ¬ (requests hollowBatch).sum ≤ 2 ^ 32 + 2 ^ 32 * hollowBatch.length ∧
    ¬ (replayRequests ignoring (encodeFileHeader ⟨0, 0⟩ ++ hollowBatch) ()).sum ≤
      2 ^ 31 + 2 ^ 31 * (encodeFileHeader ⟨0, 0⟩ ++ hollowBatch).length := by
  refine ⟨?_, ?_, ?_, ?_⟩ <;> decide +kernel

end Holt.Reader
