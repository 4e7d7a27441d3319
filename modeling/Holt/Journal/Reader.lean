import Holt.Journal.Codec

/-! The scan of a log file from its first record on. -/

namespace Holt.Reader

open Holt.Lib Holt.Codec

structure ReplayStats where
  recordsSeen : Nat
  highestSeq : Option Nat
  tornTailAt : Option Nat
  deriving DecidableEq, Repr

/-- What a crash during an append leaves behind; any other failure is corruption. -/
def isTornTail (context : String) : Bool :=
  context == "record header truncated" || context == "record body truncated"

def patchOffset (err : Error) (offset : Nat) : Error :=
  match err with
  | .replaySanityFailed context _ => .replaySanityFailed context offset
  | err => err

def raise (highest : Option Nat) (seq : Nat) : Option Nat :=
  match highest with
  | none => some seq
  | some s => some (max s seq)

section Scan

variable {σ : Type} (callback : WalOp → Nat → Nat → EStateM Error σ Unit)

/-- The operations of one record, which starts at `offset`. -/
def deliver (offset : Nat) : List (WalOp × Nat) → Option Nat → EStateM Error σ (Option Nat)
  | [], highest => pure highest
  | (op, seq) :: rest, highest => do
    tryCatch (callback op seq offset) fun err => throw (patchOffset err offset)
    deliver offset rest (raise highest seq)

/-- `bytes` is what the file holds from `offset` on. A record is never empty, so the scan ends
within as many rounds as there are bytes. -/
def replayLoop : Nat → List UInt8 → Nat → ReplayStats → EStateM Error σ ReplayStats
  | 0, _, _, _ => throw .diverged
  | rounds + 1, bytes, offset, stats =>
    if bytes.isEmpty then pure stats
    else
      match decodeRecord bytes with
      | .ok r => do
        let highest ← deliver callback offset (r.op.flatten r.seq) stats.highestSeq
        replayLoop rounds (bytes.drop r.bytesConsumed) (offset + r.bytesConsumed)
          { stats with recordsSeen := stats.recordsSeen + 1, highestSeq := highest }
      | .error (.replaySanityFailed context at') =>
        if isTornTail context then pure { stats with tornTailAt := some offset }
        else throw (patchOffset (.replaySanityFailed context at') offset)
      | .error err => throw (patchOffset err offset)

def replayBytes (bytes : List UInt8) : EStateM Error σ (FileHeader × ReplayStats) :=
  if bytes.length < fileHeaderSize then
    throw (.replaySanityFailed "WAL too short — missing file header" 0)
  else
    match decodeFileHeader (bytes.take fileHeaderSize) with
    | .error err => throw err
    | .ok header => do
      let stats ← replayLoop callback (bytes.length + 1) (bytes.drop fileHeaderSize) fileHeaderSize
        ⟨0, none, none⟩
      pure (header, stats)

end Scan

/-! ## What a scan finds -/

/-- Whole records to the end of `bytes`, or to one that is torn. -/
inductive Log : List UInt8 → List DecodedRecord → Prop
  | done : Log [] []
  | torn {bytes : List UInt8} {context : String} (some : bytes ≠ [])
      (cut : decodeRecord bytes = .error (sanity context)) (tail : isTornTail context = true) :
      Log bytes []
  | record {bytes : List UInt8} {r : DecodedRecord} {rs : List DecodedRecord} (some : bytes ≠ [])
      (read : decodeRecord bytes = .ok r) (rest : Log (bytes.drop r.bytesConsumed) rs) :
      Log bytes (r :: rs)

/-- What the callback is called with, in order. -/
def ops (rs : List DecodedRecord) : List (WalOp × Nat) :=
  rs.flatMap fun r => r.op.flatten r.seq

variable {bytes : List UInt8} {found : List WalOp} {n : Nat} {qs rs : List LogRecord}

/-- A record that is read is there in full, and its body decodes. -/
theorem decodeRecord_spec {r : DecodedRecord} (h : decodeRecord bytes = .ok r) :
    0 < r.bytesConsumed ∧ r.bytesConsumed ≤ bytes.length ∧
      ∃ ty body, decodeBody ty body = .ok r.op := by
  unfold decodeRecord at h
  split at h
  · cases h
  split at h
  · cases h
  dsimp only at h
  split at h
  · cases h
  split at h
  · cases h
  rename_i hlong _
  cases hop : decodeBody ((slice bytes 16 17).headD 0)
      (slice bytes recordHeaderSize (recordHeaderSize + leNat (slice bytes 4 8))) with
  | error err =>
    rw [hop] at h
    cases h
  | ok op =>
    rw [hop] at h
    cases h
    exact ⟨Nat.succ_pos _, Nat.le_of_not_lt hlong, _, _, hop⟩

/-! ### Tree ids -/

/-- What is not a batch names a tree by 64 bits. -/
def NamesTree (op : WalOp) : Prop := ∃ id < 2 ^ 64, op.treeId = some id

theorem readU64_lt (buf : List UInt8) :
    Sat readU64 buf (fun n _ => n < 2 ^ 64) (fun _ _ => True) := by
  simp only [readU64, sat_bind, sat_pure]
  unfold Sat take
  split
  · rename_i h
    split at h
    · cases h
    · rename_i hlong
      cases h
      have hlt := leNat_lt (buf.take 8)
      rwa [List.length_take_of_le (Nat.le_of_not_lt hlong)] at hlt
  · trivial

theorem decodePrimitive_names (ty : UInt8) (buf : List UInt8) :
    Sat (decodePrimitive ty) buf (fun op _ => NamesTree op) (fun _ _ => True) := by
  unfold decodePrimitive
  split
  · refine (readU64_lt buf).andThen fun id _ hid => ?_
    exact .after fun _ _ => .after fun _ _ => .pure ⟨id, hid, rfl⟩
  split
  · refine (readU64_lt buf).andThen fun id _ hid => ?_
    exact .after fun _ _ => .pure ⟨id, hid, rfl⟩
  split
  · refine (readU64_lt buf).andThen fun id _ hid => ?_
    exact .after fun _ _ => .after fun _ _ => .after fun _ _ => .pure ⟨id, hid, rfl⟩
  · exact .throw trivial

theorem decodeRunItems_names {id : Nat} (hid : id < 2 ^ 64) (keyLen valueLen count : Nat)
    (hfound : ∀ op ∈ found, NamesTree op) (buf : List UInt8) :
    Sat (decodeRunItems id keyLen valueLen count found) buf
      (fun found _ => ∀ op ∈ found, NamesTree op) (fun _ _ => True) := by
  induction count generalizing found buf with
  | zero => exact .pure hfound
  | succ count ih =>
    unfold decodeRunItems
    refine .after fun key _ => .after fun value _ => ?_
    apply ih
    intro op hop
    rcases List.mem_append.mp hop with hop | hop
    · exact hfound op hop
    · cases List.mem_singleton.mp hop
      exact ⟨id, hid, rfl⟩

theorem decodeInsertRun_names (count : Nat) (hfound : ∀ op ∈ found, NamesTree op)
    (buf : List UInt8) :
    Sat (decodeInsertRun count found) buf
      (fun found _ => ∀ op ∈ found, NamesTree op) (fun _ _ => True) := by
  unfold decodeInsertRun
  refine (readU64_lt buf).andThen fun id _ hid => ?_
  refine .after fun items _ => ?_
  split
  · exact .throw trivial
  split
  · exact .throw trivial
  · refine .after fun keyLen _ => .after fun valueLen _ => ?_
    exact decodeRunItems_names hid keyLen valueLen items hfound _

theorem decodeInner_names (count rounds : Nat) (hfound : ∀ op ∈ found, NamesTree op)
    (buf : List UInt8) :
    Sat (decodeInner count rounds found) buf
      (fun found _ => ∀ op ∈ found, NamesTree op) (fun _ _ => True) := by
  induction rounds generalizing found buf with
  | zero =>
    unfold decodeInner
    split
    · exact .throw trivial
    · exact .pure hfound
  | succ rounds ih =>
    unfold decodeInner
    split
    · refine .after fun ty _ => ?_
      split
      · exact .throw trivial
      split
      · exact (decodeInsertRun_names count hfound _).andThen fun _ _ h => ih h _
      · refine (decodePrimitive_names ty _).andThen fun op _ hop => ih ?_ _
        intro op' hop'
        rcases List.mem_append.mp hop' with hop' | hop'
        · exact hfound op' hop'
        · cases List.mem_singleton.mp hop'
          exact hop
    · exact .pure hfound

/-- Whatever a record is delivered as names a tree. -/
theorem decodeRecord_names {r : DecodedRecord} (h : decodeRecord bytes = .ok r) :
    ∀ e ∈ r.op.flatten r.seq, NamesTree e.1 := by
  obtain ⟨-, -, ty, body, hbody⟩ := decodeRecord_spec h
  have hinto : decodeBodyInto ty body = .ok r.op [] := by
    unfold decodeBody at hbody
    split at hbody <;> cases hbody
    assumption
  unfold decodeBodyInto at hinto
  split at hinto
  · have hsat : Sat (do
        let _ ← readU64
        let count ← readU32
        let ops ← decodeInner count count []
        pure (WalOp.batch ops)) body
        (fun op _ => ∃ found, op = .batch found ∧ ∀ op ∈ found, NamesTree op)
        (fun _ _ => True) := by
      refine .after fun _ _ => .after fun count _ => ?_
      have hnone : ∀ op ∈ ([] : List WalOp), NamesTree op := by simp
      refine (decodeInner_names count count hnone _).bind ?_ fun _ _ h => h
      intro found _ hfound
      exact .pure ⟨found, rfl, hfound⟩
    obtain ⟨found, hop, hfound⟩ := hsat.of_ok hinto
    rw [hop]
    intro e he
    obtain ⟨⟨op, i⟩, hmem, rfl⟩ := List.mem_map.mp he
    exact hfound op (List.fst_mem_of_mem_zipIdx hmem)
  · obtain ⟨id, hid, hop⟩ := (decodePrimitive_names ty body).of_ok hinto
    intro e he
    unfold WalOp.flatten at he
    split at he
    · rename_i hb
      rw [hb] at hop
      cases hop
    · cases List.mem_singleton.mp he
      exact ⟨id, hid, hop⟩

theorem Log.names {rs : List DecodedRecord} (h : Log bytes rs) : ∀ e ∈ ops rs, NamesTree e.1 := by
  induction h with
  | done => simp [ops]
  | torn => simp [ops]
  | record _ hread _ ih =>
    intro e he
    rw [ops, List.flatMap_cons] at he
    rcases List.mem_append.mp he with he | he
    · exact decodeRecord_names hread e he
    · exact ih e he

/-- Every call of the callback takes what holds after the operations before it to what holds
after one more; `all` is what there is to call it with. -/
def Carries {σ : Type} (callback : WalOp → Nat → Nat → EStateM Error σ Unit)
    (all : List (WalOp × Nat)) (holds : List (WalOp × Nat) → σ → Prop)
    (err : Error → σ → Prop) : Prop :=
  ∀ before op seq after offset s, all = before ++ (op, seq) :: after → holds before s →
    Sat (callback op seq offset) s (fun _ s' => holds (before ++ [(op, seq)]) s')
      (fun e s' => err (patchOffset e offset) s')

section Specs

variable {σ : Type} {callback : WalOp → Nat → Nat → EStateM Error σ Unit}
  {all : List (WalOp × Nat)} {holds : List (WalOp × Nat) → σ → Prop} {err : Error → σ → Prop}

theorem deliver_sat (hc : Carries callback all holds err) {offset : Nat}
    {now before after : List (WalOp × Nat)} {highest : Option Nat} {s : σ}
    (hall : all = before ++ (now ++ after)) (hs : holds before s) :
    Sat (deliver callback offset now highest) s
      (fun highest' s' => holds (before ++ now) s' ∧
        highest' = now.foldl (fun h e => raise h e.2) highest) err := by
  induction now generalizing before highest s with
  | nil =>
    rw [deliver, sat_pure, List.append_nil]
    exact ⟨hs, rfl⟩
  | cons e now ih =>
    obtain ⟨op, seq⟩ := e
    rw [deliver, sat_bind, sat_tryCatch]
    apply (hc before op seq (now ++ after) offset s hall hs).mono
    · intro _ s' hs'
      have hall' : all = before ++ [(op, seq)] ++ (now ++ after) := by
        rw [hall, List.append_assoc]
        rfl
      apply (ih hall' hs').mono
      · intro highest' s'' h
        rwa [List.append_assoc] at h
      · intro e s'' h
        exact h
    · intro e s' h
      rwa [sat_throw]

theorem replayLoop_sat (hc : Carries callback all holds err) {bytes : List UInt8}
    {rs : List DecodedRecord} (hlog : Log bytes rs) {rounds offset : Nat} {stats : ReplayStats}
    {before : List (WalOp × Nat)} {s : σ} (hr : bytes.length < rounds)
    (hall : all = before ++ ops rs) (hs : holds before s) :
    Sat (replayLoop callback rounds bytes offset stats) s
      (fun stats' s' => holds all s' ∧ stats'.recordsSeen = stats.recordsSeen + rs.length ∧
        stats'.highestSeq = (ops rs).foldl (fun h e => raise h e.2) stats.highestSeq) err := by
  obtain ⟨rounds, rfl⟩ : ∃ n, rounds = n + 1 := ⟨rounds - 1, by omega⟩
  induction hlog generalizing rounds offset stats before s with
  | done =>
    have hdone : all = before := by rw [hall]; exact List.append_nil _
    rw [replayLoop, if_pos List.isEmpty_nil, sat_pure, hdone]
    exact ⟨hs, rfl, rfl⟩
  | torn hne hcut htail =>
    have hdone : all = before := by rw [hall]; exact List.append_nil _
    rw [replayLoop, if_neg (by simpa using hne), hcut]
    simp only [sanity, htail, if_true, sat_pure, hdone]
    exact ⟨hs, rfl, rfl⟩
  | @record bytes r rs hne hread hrest ih =>
    obtain ⟨hpos, hle, -⟩ := decodeRecord_spec hread
    have hdrop : (bytes.drop r.bytesConsumed).length < rounds := by
      rw [List.length_drop]
      omega
    obtain ⟨rounds, rfl⟩ : ∃ n, rounds = n + 1 := ⟨rounds - 1, by omega⟩
    have hops : ops (r :: rs) = r.op.flatten r.seq ++ ops rs := List.flatMap_cons
    rw [replayLoop, if_neg (by simpa using hne), hread]
    simp only [sat_bind]
    rw [hops] at hall ⊢
    apply (deliver_sat hc hall hs).mono
    · rintro highest s' ⟨hs', rfl⟩
      have hall' : all = before ++ r.op.flatten r.seq ++ ops rs := by rw [hall, List.append_assoc]
      apply (ih hall' hs' rounds hdrop).mono
      · rintro stats' s'' ⟨h, hseen, hseq⟩
        refine ⟨h, ?_, ?_⟩
        · rw [hseen, List.length_cons]
          dsimp only
          omega
        · rw [hseq, List.foldl_append]
      · intro e s'' h
        exact h
    · intro e s' h
      exact h

theorem replayBytes_sat (hc : Carries callback all holds err) {bytes : List UInt8}
    {header : FileHeader} {rs : List DecodedRecord}
    (hheader : decodeFileHeader (bytes.take fileHeaderSize) = .ok header)
    (hlog : Log (bytes.drop fileHeaderSize) rs) (hall : all = ops rs) {s : σ} (hs : holds [] s) :
    Sat (replayBytes callback bytes) s
      (fun out s' => holds all s' ∧ out.1 = header ∧ out.2.recordsSeen = rs.length ∧
        out.2.highestSeq = all.foldl (fun h e => raise h e.2) none) err := by
  have hlong : ¬ bytes.length < fileHeaderSize := by
    intro hshort
    rw [decodeFileHeader, if_pos (by rw [List.length_take]; omega)] at hheader
    cases hheader
  have hrounds : (bytes.drop fileHeaderSize).length < bytes.length + 1 := by
    rw [List.length_drop]
    omega
  rw [replayBytes, if_neg hlong, hheader]
  simp only [sat_bind, sat_pure]
  apply (replayLoop_sat hc hlog hrounds hall hs).mono
  · rintro stats s' ⟨h, hseen, hseq⟩
    exact ⟨h, trivial, hseen.trans (Nat.zero_add _), hall ▸ hseq⟩
  · intro e s' h
    exact h

end Specs

/-! ## What was written is found -/

/-- The records of `rs` that lie wholly in the first `n` bytes. -/
def inside : Nat → List LogRecord → List LogRecord
  | _, [] => []
  | n, r :: rs => if r.encode.length ≤ n then r :: inside (n - r.encode.length) rs else []

theorem LogRecord.encode_ne_nil (r : LogRecord) (hf : r.Fits) : r.encode ≠ [] := by
  obtain ⟨ty, body, henc, -, -⟩ := r.encode_eq hf
  intro hnil
  have hlen : (writeRecord r.seq ty body).length = 0 := by rw [← henc, hnil, List.length_nil]
  rw [length_writeRecord, recordHeaderSize] at hlen
  omega

theorem log_take (hf : ∀ r ∈ rs, r.Fits) (n : Nat) :
    Log ((rs.flatMap LogRecord.encode).take n) ((inside n rs).map LogRecord.decoded) := by
  induction rs generalizing n with
  | nil =>
    rw [List.flatMap_nil, List.take_nil]
    exact .done
  | cons r rs ih =>
    have hr := hf r List.mem_cons_self
    have hne := LogRecord.encode_ne_nil r hr
    rw [List.flatMap_cons, inside]
    split
    · rename_i hin
      rw [List.take_append, List.take_of_length_le hin, List.map_cons]
      apply Log.record
      · exact fun h => hne (List.append_eq_nil_iff.mp h).1
      · exact LogRecord.decodeRecord_encode hr _
      · rw [LogRecord.decoded, List.drop_left]
        exact ih (fun q hq => hf q (List.mem_cons_of_mem _ hq)) _
    · rename_i hout
      rw [List.take_append_of_le_length (by omega), List.map_nil]
      by_cases h0 : n = 0
      · rw [h0, List.take_zero]
        exact .done
      · have hsome : r.encode.take n ≠ [] := by
          rw [Ne, List.take_eq_nil_iff]
          exact fun h => h.elim h0 hne
        obtain hcut | hcut := LogRecord.decodeRecord_torn hr (Nat.lt_of_not_le hout)
        · exact .torn hsome hcut (by decide)
        · exact .torn hsome hcut (by decide)

theorem inside_all (h : (rs.flatMap LogRecord.encode).length ≤ n) : inside n rs = rs := by
  induction rs generalizing n with
  | nil => rfl
  | cons r rs ih =>
    rw [List.flatMap_cons, List.length_append] at h
    rw [inside, if_pos (by omega), ih (by omega)]

theorem inside_isPrefix (n : Nat) (rs : List LogRecord) : inside n rs <+: rs := by
  induction rs generalizing n with
  | nil => exact List.nil_prefix
  | cons r rs ih =>
    rw [inside]
    split
    · exact List.cons_prefix_cons.mpr ⟨rfl, ih _⟩
    · exact List.nil_prefix

theorem inside_append (h : (rs.flatMap LogRecord.encode).length ≤ n) :
    inside n (rs ++ qs) = rs ++ inside (n - (rs.flatMap LogRecord.encode).length) qs := by
  induction rs generalizing n with
  | nil => rfl
  | cons r rs ih =>
    rw [List.flatMap_cons, List.length_append] at h
    rw [List.cons_append, inside, if_pos (by omega), ih (by omega), List.flatMap_cons,
      List.length_append, Nat.sub_sub, List.cons_append]

/-- Records that end within the first `n` bytes are inside. -/
theorem prefix_inside (h : qs <+: rs) (hn : (qs.flatMap LogRecord.encode).length ≤ n) :
    qs <+: inside n rs := by
  obtain ⟨more, rfl⟩ := h
  rw [inside_append hn]
  exact List.prefix_append _ _

theorem length_inside_le (n : Nat) (rs : List LogRecord) :
    ((inside n rs).flatMap LogRecord.encode).length ≤ n := by
  induction rs generalizing n with
  | nil => exact Nat.zero_le n
  | cons r rs ih =>
    rw [inside]
    split
    · have := ih (n - r.encode.length)
      rw [List.flatMap_cons, List.length_append]
      omega
    · exact Nat.zero_le n

theorem prefix_inside_iff (h : qs <+: rs) :
    qs <+: inside n rs ↔ (qs.flatMap LogRecord.encode).length ≤ n := by
  refine ⟨fun hin => ?_, prefix_inside h⟩
  obtain ⟨more, hmore⟩ := hin
  have hle := length_inside_le n rs
  rw [← hmore, List.flatMap_append, List.length_append] at hle
  omega

/-- What is left of a cut log behind its whole records is the beginning of the next. -/
theorem take_eq_inside (n : Nat) (rs : List LogRecord) :
    ∃ rest part, rs = inside n rs ++ rest ∧
      (rs.flatMap LogRecord.encode).take n = (inside n rs).flatMap LogRecord.encode ++ part ∧
      (part = [] ∨ ∃ r more, rest = r :: more ∧ part <+: r.encode ∧ part ≠ r.encode) := by
  induction rs generalizing n with
  | nil => exact ⟨[], [], rfl, List.take_nil, .inl rfl⟩
  | cons r rs ih =>
    rw [inside, List.flatMap_cons]
    by_cases hin : r.encode.length ≤ n
    · obtain ⟨rest, part, hrs, htake, hpart⟩ := ih (n - r.encode.length)
      refine ⟨rest, part, ?_, ?_, hpart⟩
      · rw [if_pos hin, List.cons_append, ← hrs]
      · rw [if_pos hin, List.take_append, List.take_of_length_le hin, htake, List.flatMap_cons,
          List.append_assoc]
    · refine ⟨r :: rs, r.encode.take n, ?_, ?_, .inr ⟨r, rs, rfl, List.take_prefix _ _, ?_⟩⟩
      · rw [if_neg hin, List.nil_append]
      · rw [if_neg hin, List.take_append_of_le_length (by omega), List.flatMap_nil, List.nil_append]
      · intro heq
        have hlen := congrArg List.length heq
        rw [List.length_take] at hlen
        omega

theorem log_whole (hf : ∀ r ∈ rs, r.Fits) :
    Log (rs.flatMap LogRecord.encode) (rs.map LogRecord.decoded) := by
  have h := log_take hf (rs.flatMap LogRecord.encode).length
  rwa [List.take_length, inside_all (Nat.le_refl _)] at h

/-! ## What a scan of a cut log returns -/

section Cut

variable {σ : Type} (f : WalOp → Nat → Nat → σ → σ)

/-- A callback that takes everything. -/
def accepting : WalOp → Nat → Nat → EStateM Error σ Unit :=
  fun op seq offset => modify (f op seq offset)

/-- The calls for records that stand one after another from `offset` on. -/
def calls : Nat → List LogRecord → List (WalOp × Nat × Nat)
  | _, [] => []
  | offset, r :: rs =>
    (r.op.flatten r.seq).map (fun e => (e.1, e.2, offset)) ++ calls (offset + r.encode.length) rs

/-- What the callback makes of the calls. -/
def takeCalls (cs : List (WalOp × Nat × Nat)) (s : σ) : σ :=
  cs.foldl (fun s c => f c.1 c.2.1 c.2.2 s) s

theorem takeCalls_append (cs ds : List (WalOp × Nat × Nat)) (s : σ) :
    takeCalls f (cs ++ ds) s = takeCalls f ds (takeCalls f cs s) := List.foldl_append

theorem deliver_accepting (offset : Nat) (now : List (WalOp × Nat)) (highest : Option Nat) (s : σ) :
    deliver (accepting f) offset now highest s =
      .ok (now.foldl (fun h e => raise h e.2) highest)
        (takeCalls f (now.map fun e => (e.1, e.2, offset)) s) := by
  induction now generalizing highest s with
  | nil => rfl
  | cons e now ih => exact ih (raise highest e.2) (f e.1 e.2 offset s)

theorem foldl_raise_some (seqs : List Nat) (a : Nat) :
    seqs.foldl raise (some a) = some (seqs.foldl max a) := by
  induction seqs generalizing a with
  | nil => rfl
  | cons b seqs ih => exact ih (max a b)

theorem foldl_raise_none (seqs : List Nat) : seqs.foldl raise none = seqs.max? := by
  cases seqs with
  | nil => rfl
  | cons a seqs => exact foldl_raise_some seqs a

variable {rs : List LogRecord}

/-- Whole records are delivered one after another, and the scan goes on behind them. -/
theorem replayLoop_append (hf : ∀ r ∈ rs, r.Fits) (bytes : List UInt8) (rounds offset : Nat)
    (stats : ReplayStats) (s : σ) :
    replayLoop (accepting f) (rs.length + rounds) (rs.flatMap LogRecord.encode ++ bytes) offset
        stats s =
      replayLoop (accepting f) rounds bytes (offset + (rs.flatMap LogRecord.encode).length)
        ⟨stats.recordsSeen + rs.length,
          ((calls offset rs).map (·.2.1)).foldl raise stats.highestSeq, stats.tornTailAt⟩
        (takeCalls f (calls offset rs) s) := by
  induction rs generalizing offset stats s with
  | nil => rw [List.length_nil, Nat.zero_add]; rfl
  | cons r rs ih =>
    have hfit := hf r List.mem_cons_self
    have hne := LogRecord.encode_ne_nil r hfit
    have hrounds : (r :: rs).length + rounds = rs.length + rounds + 1 := by
      rw [List.length_cons]
      omega
    rw [List.flatMap_cons, List.append_assoc, hrounds, replayLoop, if_neg (by simp [hne]),
      LogRecord.decodeRecord_encode hfit]
    change EStateM.bind (deliver _ offset (r.op.flatten r.seq) stats.highestSeq) _ s = _
    rw [EStateM.bind, deliver_accepting]
    simp only [LogRecord.decoded, List.drop_left]
    rw [ih fun q hq => hf q (List.mem_cons_of_mem _ hq), calls, takeCalls_append, List.map_append,
      List.foldl_append, List.map_map, List.length_append, List.length_cons]
    simp only [Nat.add_assoc, Nat.add_comm 1, List.foldl_map, Function.comp_apply]

theorem length_le_encoded (hf : ∀ r ∈ rs, r.Fits) :
    rs.length ≤ (rs.flatMap LogRecord.encode).length := by
  induction rs with
  | nil => exact Nat.le_refl _
  | cons r rs ih =>
    have hpos := List.length_pos_iff.mpr (LogRecord.encode_ne_nil r (hf r List.mem_cons_self))
    have hrest := ih fun q hq => hf q (List.mem_cons_of_mem _ hq)
    rw [List.flatMap_cons, List.length_append, List.length_cons]
    omega

/-- A scan of a cut log stops behind its last whole record. -/
theorem replayLoop_cut (hf : ∀ r ∈ rs, r.Fits) {n rounds : Nat}
    (hr : ((rs.flatMap LogRecord.encode).take n).length < rounds) (offset : Nat)
    (stats : ReplayStats) (s : σ) :
    replayLoop (accepting f) rounds ((rs.flatMap LogRecord.encode).take n) offset stats s =
      .ok ⟨stats.recordsSeen + (inside n rs).length,
          ((calls offset (inside n rs)).map (·.2.1)).foldl raise stats.highestSeq,
          if ((rs.flatMap LogRecord.encode).take n).length =
            ((inside n rs).flatMap LogRecord.encode).length then stats.tornTailAt
          else some (offset + ((inside n rs).flatMap LogRecord.encode).length)⟩
        (takeCalls f (calls offset (inside n rs)) s) := by
  have hkept : ∀ r ∈ inside n rs, r.Fits := fun r hr => hf r ((inside_isPrefix n rs).subset hr)
  obtain ⟨rest, part, hrs, htake, hpart⟩ := take_eq_inside n rs
  rw [htake, List.length_append] at hr ⊢
  obtain ⟨k, rfl⟩ : ∃ k, rounds = (inside n rs).length + (k + 1) :=
    ⟨rounds - (inside n rs).length - 1, by have := length_le_encoded hkept; omega⟩
  rw [replayLoop_append f hkept, replayLoop]
  by_cases hnil : part = []
  · subst hnil
    rw [if_pos List.isEmpty_nil, List.length_nil, Nat.add_zero, if_pos rfl]
    rfl
  · obtain rfl | ⟨r, more, rfl, hpre, hne⟩ := hpart
    · exact absurd rfl hnil
    have hpos := List.length_pos_iff.mpr hnil
    have hshort : part.length < r.encode.length :=
      Nat.lt_of_le_of_ne hpre.length_le fun h => hne (hpre.eq_of_length h)
    have hfit : r.Fits := hf r (hrs ▸ List.mem_append_right _ List.mem_cons_self)
    rw [if_neg (by simpa using hnil), if_neg (by omega), List.prefix_iff_eq_take.mp hpre]
    obtain hcut | hcut := LogRecord.decodeRecord_torn hfit hshort
    · rw [hcut]
      rfl
    · rw [hcut]
      rfl

theorem replayBytes_cut {headerBytes : List UInt8} {header : FileHeader}
    (hlen : headerBytes.length = fileHeaderSize)
    (hheader : decodeFileHeader headerBytes = .ok header) (hf : ∀ r ∈ rs, r.Fits) (n : Nat)
    (s : σ) :
    replayBytes (accepting f) (headerBytes ++ (rs.flatMap LogRecord.encode).take n) s =
      .ok (header, ⟨(inside n rs).length,
          ((calls fileHeaderSize (inside n rs)).map (·.2.1)).max?,
          if ((rs.flatMap LogRecord.encode).take n).length =
            ((inside n rs).flatMap LogRecord.encode).length then none
          else some (fileHeaderSize + ((inside n rs).flatMap LogRecord.encode).length)⟩)
        (takeCalls f (calls fileHeaderSize (inside n rs)) s) := by
  have hlong : ¬ (headerBytes ++ (rs.flatMap LogRecord.encode).take n).length < fileHeaderSize := by
    rw [List.length_append]
    omega
  have hrounds : ((rs.flatMap LogRecord.encode).take n).length <
      (headerBytes ++ (rs.flatMap LogRecord.encode).take n).length + 1 := by
    rw [List.length_append]
    omega
  have hloop := replayLoop_cut f hf hrounds fileHeaderSize ⟨0, none, none⟩ s
  rw [replayBytes, if_neg hlong, List.take_left' hlen, hheader, List.drop_left' hlen]
  change EStateM.bind _ _ s = _
  rw [EStateM.bind, hloop, Nat.zero_add, foldl_raise_none]
  rfl

/-- What `replay_bytes` returns for a log that was cut off at byte `n`: the records that end at or
before `n` are delivered, and the first that does not is the torn tail. -/
theorem replay_of_cut_log {headerBytes : List UInt8} {header : FileHeader}
    (hlen : headerBytes.length = fileHeaderSize)
    (hheader : decodeFileHeader headerBytes = .ok header) {rs : List LogRecord}
    (hf : ∀ r ∈ rs, r.Fits) {n : Nat} (hn : fileHeaderSize ≤ n)
    (hcut : n ≤ (headerBytes ++ rs.flatMap LogRecord.encode).length) (s : σ) :
    ∃ kept stop, kept <+: rs ∧ (∀ qs, qs <+: rs → (qs <+: kept ↔
        (headerBytes ++ qs.flatMap LogRecord.encode).length ≤ n)) ∧
      stop = (headerBytes ++ kept.flatMap LogRecord.encode).length ∧
      replayBytes (accepting f) ((headerBytes ++ rs.flatMap LogRecord.encode).take n) s =
        .ok (header, ⟨kept.length, ((calls fileHeaderSize kept).map (·.2.1)).max?,
            if n = stop then none else some stop⟩)
          (takeCalls f (calls fileHeaderSize kept) s) := by
  have hle : n - fileHeaderSize ≤ (rs.flatMap LogRecord.encode).length := by
    rw [List.length_append] at hcut
    omega
  have hreplay := replayBytes_cut f hlen hheader hf (n - fileHeaderSize) s
  refine ⟨inside (n - fileHeaderSize) rs, _, inside_isPrefix _ rs, fun qs hqs => ?_, rfl, ?_⟩
  · rw [prefix_inside_iff hqs, List.length_append]
    omega
  · have hiff : ∀ k, (n = fileHeaderSize + k) = (n - fileHeaderSize = k) :=
      fun k => propext ⟨fun h => by omega, fun h => by omega⟩
    have htake : (headerBytes ++ rs.flatMap LogRecord.encode).take n =
        headerBytes ++ (rs.flatMap LogRecord.encode).take (n - fileHeaderSize) := by
      rw [List.take_append, List.take_of_length_le (by omega), hlen]
    rw [htake, hreplay, List.length_take, Nat.min_eq_left hle]
    simp only [List.length_append, hlen, hiff]

end Cut

/-- A log of two records that ends in the middle of the second. -/
theorem replay_of_cut_log_torn :
    ∃ kept stop, stop = (encodeFileHeader ⟨5, 6⟩ ++ kept.flatMap LogRecord.encode).length ∧
      replayBytes (accepting fun op seq offset cs => cs ++ [(op, seq, offset)])
        ((encodeFileHeader ⟨5, 6⟩ ++ [LogRecord.erase 1 5 [], .erase 2 5 [7]].flatMap
          LogRecord.encode).take 70) [] =
      .ok (⟨5, 6⟩, ⟨kept.length, ((calls fileHeaderSize kept).map (·.2.1)).max?,
          if 70 = stop then none else some stop⟩)
        (takeCalls (fun op seq offset cs => cs ++ [(op, seq, offset)])
          (calls fileHeaderSize kept) []) := by
  have hheader : decodeFileHeader (encodeFileHeader ⟨5, 6⟩) = .ok ⟨5, 6⟩ :=
    decodeFileHeader_encode (by decide) (by decide)
  have hfits : ∀ r ∈ [LogRecord.erase 1 5 [], .erase 2 5 [7]], r.Fits := by decide +kernel
  obtain ⟨kept, stop, -, -, hstop, hreplay⟩ := replay_of_cut_log
    (fun op seq offset (cs : List (WalOp × Nat × Nat)) => cs ++ [(op, seq, offset)])
    (length_encodeFileHeader _) hheader hfits (n := 70) (by decide) (by decide +kernel) []
  exact ⟨kept, stop, hstop, hreplay⟩

end Holt.Reader
