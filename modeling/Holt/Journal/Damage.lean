import Holt.Journal.Reader

/-! Damage to one byte of a log file, and whether replay notices. -/

namespace Holt.Codec

open Holt.Lib

/-! ## The checksum -/

/-- One bit shifted out. -/
def crcBit (c : UInt32) : UInt32 := if c &&& 1 = 1 then (c >>> 1) ^^^ 0xEDB88320 else c >>> 1

theorem crcBits_succ (next : UInt32 → UInt32) (n : Nat) (c : UInt32) :
    crcBits next (n + 1) c = crcBits next n (crcBit c) := by
  rw [crcBits, crcBit]
  split <;> rfl

theorem and_one_eq_one_iff (c : UInt32) : c &&& 1 = 1 ↔ c.toNat % 2 = 1 := by
  rw [← UInt32.toNat_inj, UInt32.toNat_and]
  simp [Nat.and_one_is_mod]

theorem toNat_shiftRight_one (c : UInt32) : (c >>> 1).toNat = c.toNat / 2 := by
  rw [UInt32.toNat_shiftRight]
  simp [Nat.shiftRight_eq_div_pow]

theorem le_toNat_xor_poly (c : UInt32) : 2 ^ 31 ≤ ((c >>> 1) ^^^ 0xEDB88320).toNat := by
  apply Nat.ge_two_pow_of_testBit
  rw [UInt32.toNat_xor, Nat.testBit_xor, toNat_shiftRight_one, Nat.testBit_lt_two_pow]
  · rfl
  · have := c.toNat_lt
    omega

/-- The top bit of what comes out is the low bit of what went in. -/
theorem crcBit_injective {c d : UInt32} (h : crcBit c = crcBit d) : c = d := by
  have hc := c.toNat_lt
  have hd := d.toNat_lt
  have hcx := le_toNat_xor_poly c
  have hdx := le_toNat_xor_poly d
  have hcs := toNat_shiftRight_one c
  have hds := toNat_shiftRight_one d
  -- The shifted registers are equal, and so are the bits that went out.
  have hsame : (c >>> 1).toNat = (d >>> 1).toNat ∧ c.toNat % 2 = d.toNat % 2 := by
    unfold crcBit at h
    simp only [and_one_eq_one_iff] at h
    split at h
    · split at h
      · exact ⟨by rw [(UInt32.xor_left_inj _).mp h], by omega⟩
      · rw [h] at hcx
        omega
    · split at h
      · rw [← h] at hdx
        omega
      · exact ⟨by rw [h], by omega⟩
  apply UInt32.toNat_inj.mp
  omega

/-- The bits go first, then what comes next. -/
theorem crcBits_eq (next : UInt32 → UInt32) (n : Nat) (c : UInt32) :
    crcBits next n c = next (crcBits id n c) := by
  induction n generalizing c with
  | zero => rfl
  | succ n ih => rw [crcBits_succ, crcBits_succ, ih]

theorem crcBits_injective {next : UInt32 → UInt32}
    (hnext : ∀ {c d}, next c = next d → c = d) (n : Nat) {c d : UInt32}
    (h : crcBits next n c = crcBits next n d) : c = d := by
  induction n generalizing c d with
  | zero => exact hnext h
  | succ n ih =>
    rw [crcBits_succ, crcBits_succ] at h
    exact crcBit_injective (ih h)

theorem crcBytes_injective (bs : List UInt8) {c d : UInt32}
    (h : crcBytes bs c = crcBytes bs d) : c = d := by
  induction bs generalizing c d with
  | nil => exact h
  | cons b bs ih => exact (UInt32.xor_left_inj _).mp (crcBits_injective ih 8 h)

/-- A checksum shows every change of one byte. -/
theorem crc32_set_ne {bs : List UInt8} {i : Nat} {b : UInt8} (hi : i < bs.length)
    (hb : bs[i]? ≠ some b) : crc32 (bs.set i b) ≠ crc32 bs := by
  intro h
  have hbytes : ∀ {bs : List UInt8} {i : Nat} {c : UInt32}, i < bs.length → bs[i]? ≠ some b →
      crcBytes (bs.set i b) c ≠ crcBytes bs c := by
    intro bs
    induction bs with
    | nil => exact fun hi => absurd hi (Nat.not_lt_zero _)
    | cons a bs ih =>
      intro i c hi hb h
      cases i with
      | zero =>
        have hx := crcBits_injective (crcBytes_injective bs) 8 h
        have ha : b = a := UInt8.toUInt32_inj.mp ((UInt32.xor_right_inj _).mp hx)
        exact hb (by rw [ha]; rfl)
      | succ i =>
        rw [List.set_cons_succ, crcBytes, crcBytes, crcBits_eq, crcBits_eq (crcBytes bs)] at h
        exact ih (Nat.lt_of_succ_lt_succ hi) hb h
  exact hbytes hi hb ((UInt32.xor_left_inj _).mp h)

/-! ## What a reader takes -/

/-- Not an error that a scan takes for the torn end of a log. -/
def Untorn (err : Error) : Prop :=
  ∀ context offset, err = .replaySanityFailed context offset →
    Reader.isTornTail context = false

/-- What the reader takes off the front of a buffer does not depend on what follows. -/
structure Streams {α : Type} (x : Cursor α) : Prop where
  mono : ∀ {buf a rest}, x buf = .ok a rest → ∀ more, x (buf ++ more) = .ok a (rest ++ more)
  untorn : ∀ {buf err rest}, x buf = .error err rest → Untorn err

section

variable {α β : Type}

theorem streams_pure (a : α) : Streams (pure a : Cursor α) where
  mono h more := by
    cases h
    rfl
  untorn h := by cases h

theorem streams_throw {context : String} (h : Reader.isTornTail context = false) :
    Streams (throw (sanity context) : Cursor α) where
  mono h more := by cases h
  untorn h' := by
    cases h'
    intro context' offset heq
    cases heq
    exact h

theorem Streams.bind {x : Cursor α} {f : α → Cursor β} (hx : Streams x) (hf : ∀ a, Streams (f a)) :
    Streams (x >>= f) where
  mono {buf b rest} h more := by
    change EStateM.bind x f _ = _
    change EStateM.bind x f _ = _ at h
    rw [EStateM.bind] at h ⊢
    split at h
    · rename_i hfirst
      rw [hx.mono hfirst more]
      exact (hf _).mono h more
    · cases h
  untorn {buf err rest} h := by
    change EStateM.bind x f _ = _ at h
    rw [EStateM.bind] at h
    split at h
    · exact (hf _).untorn h
    · rename_i hfirst
      cases h
      exact hx.untorn hfirst

theorem take_streams (n : Nat) : Streams (take n) where
  mono {buf a rest} h more := by
    unfold take at h ⊢
    split at h
    · cases h
    · rename_i hlong
      cases h
      rw [if_neg (by rw [List.length_append]; omega), List.take_append_of_le_length (by omega),
        List.drop_append_of_le_length (by omega)]
  untorn {buf err rest} h := by
    unfold take at h
    split at h
    · cases h
      intro context offset heq
      cases heq
      decide
    · cases h

end

theorem readU8_streams : Streams readU8 := (take_streams 1).bind fun _ => streams_pure _

theorem readU32_streams : Streams readU32 := (take_streams 4).bind fun _ => streams_pure _

theorem readU64_streams : Streams readU64 := (take_streams 8).bind fun _ => streams_pure _

theorem readBytes_streams : Streams readBytes := readU32_streams.bind fun _ => take_streams _

theorem decodeRunItems_streams (treeId keyLen valueLen count : Nat) (ops : List WalOp) :
    Streams (decodeRunItems treeId keyLen valueLen count ops) := by
  induction count generalizing ops with
  | zero => exact streams_pure ops
  | succ count ih =>
    exact (take_streams keyLen).bind fun _ => (take_streams valueLen).bind fun _ => ih _

theorem decodeInsertRun_streams (batchCount : Nat) (ops : List WalOp) :
    Streams (decodeInsertRun batchCount ops) := by
  refine readU64_streams.bind fun treeId => readU32_streams.bind fun count => ?_
  split
  · exact streams_throw (by decide)
  split
  · exact streams_throw (by decide)
  · exact readU32_streams.bind fun _ => readU32_streams.bind fun _ =>
      decodeRunItems_streams _ _ _ _ _

theorem decodePrimitive_streams (ty : UInt8) : Streams (decodePrimitive ty) := by
  unfold decodePrimitive
  split
  · exact readU64_streams.bind fun _ => readBytes_streams.bind fun _ =>
      readBytes_streams.bind fun _ => streams_pure _
  split
  · exact readU64_streams.bind fun _ => readBytes_streams.bind fun _ => streams_pure _
  split
  · exact readU64_streams.bind fun _ => readBytes_streams.bind fun _ =>
      readBytes_streams.bind fun _ => readU8_streams.bind fun _ => streams_pure _
  · exact streams_throw (by decide)

theorem decodeInner_streams (count rounds : Nat) (ops : List WalOp) :
    Streams (decodeInner count rounds ops) := by
  induction rounds generalizing ops with
  | zero =>
    rw [decodeInner.eq_def]
    split
    · exact ⟨by rintro _ _ _ ⟨⟩, by rintro _ _ _ ⟨⟩ _ _ ⟨⟩⟩
    · exact streams_pure ops
  | succ rounds ih =>
    rw [decodeInner.eq_def]
    split
    · refine readU8_streams.bind fun innerTy => ?_
      split
      · exact streams_throw (by decide)
      split
      · exact (decodeInsertRun_streams _ _).bind fun _ => ih _
      · exact (decodePrimitive_streams _).bind fun _ => ih _
    · exact streams_pure ops

theorem decodeBodyInto_streams (ty : UInt8) : Streams (decodeBodyInto ty) := by
  unfold decodeBodyInto
  split
  · exact readU64_streams.bind fun _ => readU32_streams.bind fun _ =>
      (decodeInner_streams _ _ _).bind fun _ => streams_pure _
  · exact decodePrimitive_streams ty

theorem decodeBody_untorn {ty : UInt8} {body : List UInt8} {err : Error}
    (h : decodeBody ty body = .error err) : Untorn err := by
  unfold decodeBody at h
  split at h
  · cases h
  · cases h
    intro context offset heq
    cases heq
    decide
  · rename_i hread
    cases h
    exact (decodeBodyInto_streams ty).untorn hread

/-- A body is read to its end, so with more bytes or with fewer it is no body. -/
theorem decodeBody_take {ty : UInt8} {body : List UInt8} (rest : List UInt8) {op : WalOp}
    (h : decodeBody ty body = .ok op) {n : Nat} (hn : n ≠ body.length)
    (hle : n ≤ (body ++ rest).length) :
    ∃ err, decodeBody ty ((body ++ rest).take n) = .error err ∧ Untorn err := by
  have hbody : decodeBodyInto ty body = .ok op [] := by
    unfold decodeBody at h
    split at h
    · rename_i hread
      cases h
      exact hread
    · cases h
    · cases h
  cases hcut : decodeBody ty ((body ++ rest).take n) with
  | error err => exact ⟨err, rfl, decodeBody_untorn hcut⟩
  | ok op' =>
    exfalso
    have hread : decodeBodyInto ty ((body ++ rest).take n) = .ok op' [] := by
      unfold decodeBody at hcut
      split at hcut
      · rename_i hread
        cases hcut
        exact hread
      · cases hcut
      · cases hcut
    by_cases hshort : n < body.length
    · -- The shorter body would leave a rest of the longer one.
      have hmono := (decodeBodyInto_streams ty).mono hread (body.drop n)
      rw [List.take_append_of_le_length (by omega), List.take_append_drop, hbody] at hmono
      have hnil : body.drop n = [] := by
        injection hmono with _ hnil
        exact hnil.symm
      rw [List.drop_eq_nil_iff] at hnil
      omega
    · have hmono := (decodeBodyInto_streams ty).mono hbody (rest.take (n - body.length))
      rw [List.take_append, List.take_of_length_le (by omega), hmono] at hread
      injection hread with _ hnil
      rw [List.nil_append] at hnil
      have hlen := congrArg List.length hnil
      rw [List.length_take, List.length_nil] at hlen
      rw [List.length_append] at hle
      omega

/-! ## A damaged record -/

section

variable {seq : Nat} {ty : UInt8} {body rest buf : List UInt8} {i : Nat} {b : UInt8}

theorem untorn_sanity (context : String) (h : Reader.isTornTail context = false) :
    Untorn (sanity context) := by
  intro context' offset heq
  cases heq
  exact h

/-- The header of a record whose magic and length are whole. -/
theorem decodeRecord_of_header {len : Nat}
    (hmagic : leNat (slice buf 0 4) = recordMagic) (hlen : leNat (slice buf 4 8) = len)
    (hlong : recordHeaderSize + len + recordFooterSize ≤ buf.length)
    (hcrc : (crc32 (buf.take (recordHeaderSize + len))).toNat ≠
      leNat (slice buf (recordHeaderSize + len) (recordHeaderSize + len + recordFooterSize))) :
    decodeRecord buf = .error (sanity "record CRC mismatch") := by
  rw [decodeRecord, if_neg (by omega), if_neg (not_not_intro hmagic)]
  simp only [hlen]
  rw [if_neg (by omega), if_pos hcrc]

/-- Byte `i` of the record in front of `buf` is one of its length, and the length leads past the end
of `buf`. -/
def PastEnd (buf : List UInt8) (i : Nat) : Prop :=
  4 ≤ i ∧ i < 8 ∧ buf.length < recordHeaderSize + leNat (slice buf 4 8) + recordFooterSize

instance : Decidable (PastEnd buf i) := inferInstanceAs (Decidable (_ ∧ _))

/-- Every change of one byte is an error of the record, but a length that leads past the end of the
file looks like the torn end of a log. -/
theorem decodeRecord_damaged {op : WalOp} (hb : body.length < 2 ^ 32) (hs : seq < 2 ^ 64)
    (hop : decodeBody ty body = .ok op) (hi : i < (writeRecord seq ty body).length)
    (hne : (writeRecord seq ty body)[i]? ≠ some b)
    (hbuf : buf = (writeRecord seq ty body ++ rest).set i b) :
    (PastEnd buf i → decodeRecord buf = .error (sanity "record body truncated")) ∧
      (¬ PastEnd buf i → ∃ err, decodeRecord buf = .error err ∧ Untorn err) := by
  obtain ⟨hmagic, hlen, hseq, hty⟩ := writeRecord_header ty rest hb hs
  obtain ⟨hhead, hcrc, hdrop⟩ := writeRecord_parts seq ty body rest
  have hwhole : (writeRecord seq ty body ++ rest).length =
      recordHeaderSize + body.length + recordFooterSize + rest.length := by
    rw [List.length_append, length_writeRecord]
  have hlength : buf.length = recordHeaderSize + body.length + recordFooterSize + rest.length := by
    rw [hbuf, List.length_set, hwhole]
  have hi' : i < (writeRecord seq ty body ++ rest).length := by
    rw [List.length_append]
    omega
  have hne' : (writeRecord seq ty body ++ rest)[i]? ≠ some b := by
    rwa [List.getElem?_append_left hi]
  have h17 : recordHeaderSize = 17 := rfl
  have h4 : recordFooterSize = 4 := rfl
  rw [length_writeRecord] at hi
  -- A field with the changed byte has another value.
  have hfield : ∀ start stop, start ≤ i → i < stop →
      leNat (slice buf start stop) ≠ leNat (slice (writeRecord seq ty body ++ rest) start stop) :=
    fun start stop hstart hstop heq => slice_set_ne hstart hstop hi' hne' (hbuf ▸ leNat_inj (by
      rw [length_slice, length_slice, hbuf, List.length_set]) heq)
  by_cases hm : i < 4
  · -- The magic is damaged.
    refine ⟨fun hpast => absurd hpast.1 (by omega), fun _ => ⟨_, ?_, untorn_sanity
      "record magic mismatch" (by decide)⟩⟩
    rw [decodeRecord, if_neg (by omega), if_pos]
    rw [← hmagic]
    exact hfield _ _ (Nat.zero_le _) hm
  have hmagic' : leNat (slice buf 0 4) = recordMagic := by
    rw [hbuf, slice_set_of_ge _ (by omega), hmagic]
  by_cases hl : i < 8
  · -- The length is damaged.
    have hlen' := hfield 4 8 (by omega) hl
    rw [hlen] at hlen'
    refine ⟨fun hpast => ?_, fun hfits => ?_⟩
    · rw [decodeRecord, if_neg (by omega), if_neg (not_not_intro hmagic')]
      exact if_pos hpast.2.2
    · have hfits' : ¬ buf.length < recordHeaderSize + leNat (slice buf 4 8) + recordFooterSize :=
        fun h => hfits ⟨by omega, hl, h⟩
      have hty' : slice buf 16 17 = [ty] := by rw [hbuf, slice_set_of_lt _ (by omega), hty]
      have hbody' : ∀ n, slice buf recordHeaderSize (recordHeaderSize + n) =
          (body ++ (leBytes 4 (crc32 (writeHead seq ty body)).toNat ++ rest)).take n := by
        intro n
        rw [hbuf, slice_set_of_lt _ (by omega), slice, hdrop, Nat.add_sub_cancel_left]
      obtain ⟨err, herr, huntorn⟩ := decodeBody_take
        (leBytes 4 (crc32 (writeHead seq ty body)).toNat ++ rest) hop hlen' (by
          rw [List.length_append, List.length_append, length_leBytes]
          omega)
      rw [decodeRecord, if_neg (by omega), if_neg (not_not_intro hmagic')]
      dsimp only
      rw [if_neg hfits']
      split
      · exact ⟨_, rfl, untorn_sanity _ (by decide)⟩
      · rw [hty', hbody', List.headD_cons, herr]
        exact ⟨err, rfl, huntorn⟩
  have hlen' : leNat (slice buf 4 8) = body.length := by
    rw [hbuf, slice_set_of_ge _ (by omega), hlen]
  refine ⟨fun hpast => absurd hpast.2.1 hl, fun _ => ⟨_, decodeRecord_of_header hmagic' hlen'
    (by omega) ?_, untorn_sanity _ (by decide)⟩⟩
  by_cases hc : i < recordHeaderSize + body.length
  · -- What the checksum covers is damaged.
    have hcovered : (writeHead seq ty body)[i]? ≠ some b := by
      rwa [← hhead, List.getElem?_take_of_lt hc]
    rw [hbuf, slice_set_of_lt _ hc, hcrc, leNat_leBytes (UInt32.toNat_lt _), List.take_set, hhead]
    intro heq
    exact crc32_set_ne (by rw [length_writeHead]; exact hc) hcovered (UInt32.toNat_inj.mp heq)
  · -- The checksum itself is damaged.
    have hstored := hfield (recordHeaderSize + body.length)
      (recordHeaderSize + body.length + recordFooterSize) (by omega) (by omega)
    rw [hcrc, leNat_leBytes (UInt32.toNat_lt _)] at hstored
    have htake : buf.take (recordHeaderSize + body.length) = writeHead seq ty body := by
      rw [hbuf, List.take_set_of_le (by omega), hhead]
    rw [htake]
    exact hstored.symm

end

end Holt.Codec

namespace Holt.Reader

open Holt.Lib Holt.Codec

/-! ## A damaged log -/

/-- A callback that writes its calls down. -/
def recording : WalOp → Nat → Nat → EStateM Error (List (WalOp × Nat × Nat)) Unit :=
  accepting fun op seq offset cs => cs ++ [(op, seq, offset)]

/-- An error, or the delivery of every record as it was written. -/
def Honest (rs : List LogRecord) :
    EStateM.Result Error (List (WalOp × Nat × Nat)) (FileHeader × ReplayStats) → Prop
  | .error _ _ => True
  | .ok (_, stats) cs => cs = calls fileHeaderSize rs ∧ stats.recordsSeen = rs.length

instance (rs : List LogRecord) : DecidablePred (Honest rs)
  | .error _ _ => inferInstanceAs (Decidable True)
  | .ok (_, _) _ => inferInstanceAs (Decidable (_ ∧ _))

/-- Replay does not lose records of `rs` without an error. -/
def Noticed (bytes : List UInt8) (rs : List LogRecord) : Prop :=
  Honest rs (replayBytes recording bytes [])

/-- A scan that comes to a damaged record. -/
theorem replayLoop_damaged {σ : Type} (f : WalOp → Nat → Nat → σ → σ) {r : LogRecord}
    (hr : r.Fits) {rest bytes : List UInt8} {i : Nat} {b : UInt8} (hi : i < r.encode.length)
    (hne : r.encode[i]? ≠ some b) (hbytes : bytes = (r.encode ++ rest).set i b)
    (rounds offset : Nat) (stats : ReplayStats) (s : σ) :
    (PastEnd bytes i → replayLoop (accepting f) (rounds + 1) bytes offset stats s =
        .ok { stats with tornTailAt := some offset } s) ∧
      (¬ PastEnd bytes i →
        ∃ err, replayLoop (accepting f) (rounds + 1) bytes offset stats s = .error err s) := by
  obtain ⟨ty, body, henc, hb, hop⟩ := r.encode_eq hr
  have hempty : ¬ bytes.isEmpty = true := by
    intro hnil
    have hlen := congrArg List.length (List.isEmpty_iff.mp hnil)
    rw [hbytes, List.length_set, List.length_append, List.length_nil] at hlen
    omega
  obtain ⟨hpast, hfits⟩ := decodeRecord_damaged hb hr.1 hop (henc ▸ hi)
    (henc ▸ hne) (henc ▸ hbytes)
  rw [replayLoop, if_neg hempty]
  refine ⟨fun h => ?_, fun h => ?_⟩
  · rw [hpast h]
    rfl
  · obtain ⟨err, herr, huntorn⟩ := hfits h
    rw [herr]
    cases err with
    | replaySanityFailed context at' =>
      have htail := huntorn context at' rfl
      simp only [htail, Bool.false_eq_true, if_false]
      exact ⟨_, rfl⟩
    | _ => exact ⟨_, rfl⟩

/-- One changed byte goes unnoticed when it makes the length of its record lead past the end of the
file, and only then. -/
theorem damage_noticed_iff {headerBytes : List UInt8} {header : FileHeader}
    (hlen : headerBytes.length = fileHeaderSize)
    (hheader : decodeFileHeader headerBytes = .ok header) {before after : List LogRecord}
    {r : LogRecord} (hf : ∀ q ∈ before ++ r :: after, q.Fits) {i : Nat} {b : UInt8}
    (hi : i < r.encode.length) (hne : r.encode[i]? ≠ some b) :
    Noticed ((headerBytes ++ (before ++ r :: after).flatMap LogRecord.encode).set
        ((headerBytes ++ before.flatMap LogRecord.encode).length + i) b) (before ++ r :: after) ↔
      ¬ PastEnd (((r :: after).flatMap LogRecord.encode).set i b) i := by
  have hbefore : ∀ q ∈ before, q.Fits := fun q hq => hf q (List.mem_append_left _ hq)
  have hr : r.Fits := hf r (List.mem_append_right _ List.mem_cons_self)
  obtain ⟨bytes, hbytes⟩ : ∃ bytes, bytes = ((r :: after).flatMap LogRecord.encode).set i b :=
    ⟨_, rfl⟩
  rw [← hbytes]
  have hset : (headerBytes ++ (before ++ r :: after).flatMap LogRecord.encode).set
      ((headerBytes ++ before.flatMap LogRecord.encode).length + i) b =
      headerBytes ++ (before.flatMap LogRecord.encode ++ bytes) := by
    rw [List.flatMap_append, ← List.append_assoc, List.set_append_right _ _ (Nat.le_add_right _ _),
      Nat.add_sub_cancel_left, List.append_assoc, hbytes]
  obtain ⟨k, hk⟩ : ∃ k, (headerBytes ++ (before.flatMap LogRecord.encode ++ bytes)).length + 1 =
      before.length + (k + 1) := by
    have := length_le_encoded hbefore
    refine ⟨(headerBytes ++ (before.flatMap LogRecord.encode ++ bytes)).length - before.length, ?_⟩
    rw [List.length_append, List.length_append]
    omega
  -- The scan comes to the damaged record, and what happens there is the outcome.
  have hloop := replayLoop_append (fun op seq offset (cs : List (WalOp × Nat × Nat)) =>
    cs ++ [(op, seq, offset)]) hbefore bytes (k + 1) fileHeaderSize ⟨0, none, none⟩ []
  rw [← hk, Nat.zero_add] at hloop
  obtain ⟨hpast, hfits⟩ := replayLoop_damaged (fun op seq offset (cs : List (WalOp × Nat × Nat)) =>
    cs ++ [(op, seq, offset)]) hr hi hne hbytes k
    (fileHeaderSize + (before.flatMap LogRecord.encode).length)
    ⟨before.length, ((calls fileHeaderSize before).map fun c => c.2.1).foldl raise none, none⟩
    (takeCalls (fun op seq offset cs => cs ++ [(op, seq, offset)]) (calls fileHeaderSize before) [])
  have hlong : ¬ (headerBytes ++ (before.flatMap LogRecord.encode ++ bytes)).length <
      fileHeaderSize := by
    rw [List.length_append]
    omega
  rw [hset, Noticed, replayBytes, if_neg hlong, List.take_left' hlen, hheader,
    List.drop_left' hlen]
  change Honest _ (EStateM.bind (replayLoop recording _ _ _ _) _ []) ↔ _
  rw [EStateM.bind, recording, hloop]
  by_cases hp : PastEnd bytes i
  · rw [hpast hp]
    refine iff_of_false ?_ (not_not_intro hp)
    rintro ⟨-, hseen⟩
    have hlt : before.length < (before ++ r :: after).length := by
      rw [List.length_append, List.length_cons]
      omega
    exact Nat.ne_of_lt hlt hseen
  · obtain ⟨err, herr⟩ := hfits hp
    rw [herr]
    exact iff_of_true trivial hp

/-- The key in the first of two records is damaged. -/
theorem damage_noticed_key :
    ∃ pos, Noticed ((encodeFileHeader ⟨5, 6⟩ ++ ([] ++ LogRecord.erase 1 5 [7] ::
      [.erase 2 5 [8]]).flatMap LogRecord.encode).set pos 9)
      ([] ++ LogRecord.erase 1 5 [7] :: [.erase 2 5 [8]]) := by
  have hheader : decodeFileHeader (encodeFileHeader ⟨5, 6⟩) = .ok ⟨5, 6⟩ :=
    decodeFileHeader_encode (by decide) (by decide)
  refine ⟨_, (damage_noticed_iff (length_encodeFileHeader _) hheader (i := 29) ?_ ?_ ?_).mpr ?_⟩
  all_goals decide +kernel

/-- The length of the first record is damaged, and replay ends there without an error. -/
theorem damaged_length_unnoticed :
    ¬ Noticed ((encodeFileHeader ⟨5, 6⟩ ++ [LogRecord.erase 1 5 [7], .erase 2 5 [8]].flatMap
      LogRecord.encode).set 37 1) [LogRecord.erase 1 5 [7], .erase 2 5 [8]] := by
  unfold Noticed
  decide +kernel

/-! ## What a scan went over -/

/-- Only the header and the length of a record can make it look torn. -/
theorem torn_of_decodeRecord {bytes : List UInt8} {context : String} {offset : Nat}
    (h : decodeRecord bytes = .error (.replaySanityFailed context offset))
    (htail : isTornTail context = true) : decodeRecord bytes = .error (sanity context) := by
  have hbody : ∀ {x : Except Error WalOp} {f : WalOp → DecodedRecord},
      (∀ err, x = .error err → Untorn err) →
      x.map f ≠ .error (.replaySanityFailed context offset) := by
    intro x f hx hmap
    cases x with
    | ok op => cases hmap
    | error err =>
      have huntorn := hx err rfl context offset (Except.error.inj hmap)
      rw [htail] at huntorn
      cases huntorn
  rw [h]
  unfold decodeRecord at h
  split at h
  · cases h
    rfl
  split at h
  · cases h
    rfl
  dsimp only at h
  split at h
  · cases h
    rfl
  split at h
  · cases h
    rfl
  · exact absurd h (hbody fun _ => decodeBody_untorn)

/-- A scan that comes to an end went over a log. -/
theorem log_of_replayLoop {σ : Type} {callback : WalOp → Nat → Nat → EStateM Error σ Unit}
    (rounds : Nat) (bytes : List UInt8) (offset : Nat) (stats : ReplayStats) (s : σ) :
    Sat (replayLoop callback rounds bytes offset stats) s (fun _ _ => ∃ rs, Log bytes rs)
      (fun _ _ => True) := by
  induction rounds generalizing bytes offset stats s with
  | zero => exact .throw trivial
  | succ rounds ih =>
    unfold replayLoop
    split
    · rename_i hdone
      rw [List.isEmpty_iff.mp hdone]
      exact .pure ⟨[], .done⟩
    rename_i hsome
    have hne : bytes ≠ [] := fun h => hsome (h ▸ rfl)
    split
    · rename_i r hread
      refine .after fun highest s' => (ih ..).mono ?_ fun _ _ h => h
      rintro _ _ ⟨rs, hlog⟩
      exact ⟨r :: rs, .record hne hread hlog⟩
    · rename_i context at' hread
      split
      · rename_i htail
        exact .pure ⟨[], .torn hne (torn_of_decodeRecord hread htail) htail⟩
      · exact .throw trivial
    · exact .throw trivial

theorem log_of_replayBytes {σ : Type} (callback : WalOp → Nat → Nat → EStateM Error σ Unit)
    (bytes : List UInt8) (s : σ) :
    Sat (replayBytes callback bytes) s
      (fun _ _ => ∃ header rs, decodeFileHeader (bytes.take fileHeaderSize) = .ok header ∧
        Log (bytes.drop fileHeaderSize) rs)
      (fun _ _ => True) := by
  unfold replayBytes
  split
  · exact .throw trivial
  split
  · exact .throw trivial
  · rename_i header hheader
    refine (log_of_replayLoop ..).bind ?_ fun _ _ h => h
    rintro _ _ ⟨rs, hlog⟩
    exact .pure ⟨header, rs, hheader, hlog⟩

end Holt.Reader
