import Holt.Journal.Reader
import Holt.Tree.Calls

/-! Replaying a log onto the blobs of a store. -/

namespace Holt

open Holt.Lib Holt.Reader

/-- The trees of one store: where each has its root, and where new blob names come from. -/
structure Trees where
  root : Nat → BlobGuid
  guid : Nat → BlobGuid
  injective : Function.Injective guid
  ne_root : ∀ id i, guid i ≠ root id

def Trees.supply (trees : Trees) (id : Nat) : GuidSupply (trees.root id) :=
  ⟨trees.guid, trees.injective, trees.ne_root id⟩

/-- Roots under even names, other blobs under odd ones. -/
def Trees.counting : Trees where
  root id := 2 * id
  guid i := 2 * i + 1
  injective _ _ h := Nat.mul_left_cancel (Nat.succ_pos 1) (Nat.succ.inj h)
  ne_root id i h := by
    have hodd : 2 * i + 1 = 2 * id := h
    omega

/-- `rootPins` are the trees whose root the replay has pinned. -/
structure Replaying where
  engine : Engine
  rootPins : List Nat

abbrev ReplayM := EStateM Error Replaying

def onBlobs {α : Type} (x : WalkM α) : ReplayM α := fun s =>
  match x s.engine with
  | .ok a engine => .ok a { s with engine }
  | .error err engine => .error err { s with engine }

/-- The root of a tree is looked up and pinned once. -/
def rootPin (trees : Trees) (rootForTreeId : Nat → Except Error Unit) (id : Nat) :
    ReplayM Unit := do
  let s ← get
  if id ∈ s.rootPins then pure ()
  else do
    lift (rootForTreeId id)
    let bm ← lift (ensureRootBlob s.engine.bm (trees.root id))
    let bm ← lift (bm.pin (trees.root id))
    set { engine := { s.engine with bm }, rootPins := id :: s.rootPins : Replaying }

def isPresent (root : BlobGuid) (key : List UInt8) : WalkM Bool :=
  Option.isSome <$> lookupMultiWith root (fun _ _ => ()) (.user key) 1

/-- A rename is redone if its source is there and its target is free or may be replaced. Answers
whether the root changed. -/
def redoRename (trees : Trees) (id : Nat) (src dst : List UInt8) (force : Bool) (seq : Nat) :
    WalkM Bool := do
  let root := trees.root id
  let there ← isPresent root src
  if !there then pure false
  else do
    let taken ← bif force then pure false else isPresent root dst
    if taken then pure false
    else do
      let value ← lookupMultiWith root (fun F hit => (readRecord F hit).1) (.user src) 1
      let eraseOut ← eraseMultiConditional root (.user src) seq .always
      let insertOut ←
        insertMultiConditional (trees.supply id) (.user dst) (value.getD []) seq .always
      pure (eraseOut.rootDirty || insertOut.rootDirty)

def redo (trees : Trees) (id : Nat) (op : WalOp) (seq : Nat) : WalkM Bool :=
  match op with
  | .insert _ key value =>
    InsertOutcome.rootDirty <$>
      insertMultiConditional (trees.supply id) (.user key) value seq .always
  | .erase _ key =>
    EraseOutcome.rootDirty <$> eraseMultiConditional (trees.root id) (.user key) seq .always
  | .renameObject _ src dst force => redoRename trees id src dst force seq
  | .batch _ => pure false

def replayOp (trees : Trees) (rootForTreeId : Nat → Except Error Unit) (op : WalOp) (seq _ : Nat) :
    ReplayM Unit := do
  let id := op.treeId.getD 0
  rootPin trees rootForTreeId id
  let rootDirty ← onBlobs (redo trees id op seq)
  if rootDirty then onBlobs (onManager fun bm => bm.markDirtyCached (trees.root id) seq)
  else pure ()

/-- Answers the next sequence number. -/
def replayWal (trees : Trees) (rootForTreeId : Nat → Except Error Unit) (bytes : List UInt8) :
    ReplayM (Nat × ReplayStats) := do
  let (_, stats) ← replayBytes (replayOp trees rootForTreeId) bytes
  pure (stats.highestSeq.getD 0 + 1, stats)

/-! ## What a replay does to the records -/

/-- What one operation does when it is redone. -/
def Contents.redo (m : Contents) : WalOp × Nat → Contents
  | (.insert _ key value, seq) => m.put key value seq
  | (.erase _ key, _) => m.remove key
  | (.renameObject _ src dst force, seq) =>
    match m src with
    | none => m
    | some r => if !force && (m dst).isSome then m else (m.remove src).put dst r.1 seq
  | (.batch _, _) => m

section Redo

variable {trees : Trees} {id : Nat} {e : Engine} {m : Contents}

theorem Contents.remove_absent (m : Contents) {key : List UInt8}
    (h : (m.version key).isSome = false) : m.remove key = m := by
  funext k
  by_cases hk : k = key
  · subst hk
    have hnone : m k = none := by simpa [version] using h
    rw [remove_self, hnone]
  · exact remove_of_ne m hk

theorem eraseAlways_shows (h : e.Shows (trees.supply id) m) (key : List UInt8) (seq : Nat)
    {err : Error → Engine → Prop} :
    Sat (eraseMultiConditional (trees.root id) (.user key) seq .always) e
      (fun _ e' => e'.Shows (trees.supply id) (m.remove key)) err := by
  apply (h.erase key seq .always).mono
  · rintro out e' ⟨hout, he⟩
    cases hm : out.mutated with
    | true => rwa [hm, if_pos rfl] at he
    | false =>
      rw [hm, if_neg Bool.false_ne_true] at he
      rw [m.remove_absent (hout.symm.trans hm)]
      exact he
  · intro _ _ he
    exact he

theorem insertAlways_shows (h : e.Shows (trees.supply id) m) (key value : List UInt8) (seq : Nat) :
    Sat (insertMultiConditional (trees.supply id) (.user key) value seq .always) e
      (fun _ e' => e'.Shows (trees.supply id) (m.put key value seq))
      (fun _ _ => True) := by
  apply (h.insert key value seq .always).mono
  · rintro out e' ⟨hout, he⟩
    have hm : out.mutated = true := hout
    rwa [hm, if_pos rfl] at he
  · intro _ _ _
    trivial

theorem isPresent_shows (h : e.Shows (trees.supply id) m) (key : List UInt8)
    {err : Error → Engine → Prop} :
    Sat (isPresent (trees.root id) key) e
      (fun r e' => r = (m key).isSome ∧ e'.Shows (trees.supply id) m) err := by
  rw [isPresent, sat_map]
  apply (h.lookup key (f := fun _ => ()) fun _ _ _ _ => rfl).mono
  · rintro r e' ⟨rfl, he⟩
    exact ⟨Option.isSome_map, he⟩
  · intro _ _ he
    exact he

theorem redoRename_shows (h : e.Shows (trees.supply id) m) (tid : Nat) (src dst : List UInt8)
    (force : Bool) (seq : Nat) :
    Sat (redoRename trees id src dst force seq) e
      (fun _ e' => e'.Shows (trees.supply id) (m.redo (.renameObject tid src dst force, seq)))
      (fun _ _ => True) := by
  unfold redoRename
  refine (isPresent_shows h src).bind ?_ fun _ _ he => he
  rintro there e₁ ⟨rfl, h₁⟩
  cases hsrc : m src with
  | none =>
    rw [if_pos (by rfl), sat_pure]
    simpa only [Contents.redo, hsrc] using h₁
  | some r =>
    rw [if_neg (by simp)]
    have htaken : Sat (bif force then pure false else isPresent (trees.root id) dst) e₁
        (fun taken e' => taken = (!force && (m dst).isSome) ∧ e'.Shows (trees.supply id) m)
        fun _ _ => True := by
      cases force with
      | true => exact .pure ⟨rfl, h₁⟩
      | false => exact isPresent_shows h₁ dst
    refine htaken.bind ?_ fun _ _ he => he
    rintro taken e₂ ⟨htaken, h₂⟩
    by_cases hfree : taken = true
    · rw [if_pos hfree, sat_pure]
      simpa only [Contents.redo, hsrc, ← htaken, if_pos hfree] using h₂
    · rw [if_neg hfree]
      simp only [Contents.redo, hsrc, ← htaken, if_neg hfree]
      refine (h₂.lookup src (f := Prod.fst) fun F hit v hv => ?_).bind ?_ fun _ _ he => he
      · rw [readRecord, hv, Option.getD_some]
      rintro value e₃ ⟨rfl, h₃⟩
      refine (eraseAlways_shows h₃ src seq).bind ?_ fun _ _ he => he
      intro eraseOut e₄ h₄
      rw [hsrc]
      refine (insertAlways_shows h₄ dst r.1 seq).bind ?_ fun _ _ he => he
      intro insertOut e₅ h₅
      exact .pure h₅

theorem redo_shows (h : e.Shows (trees.supply id) m) (op : WalOp) (seq : Nat) :
    Sat (redo trees id op seq) e (fun _ e' => e'.Shows (trees.supply id) (m.redo (op, seq)))
      (fun _ _ => True) := by
  cases op with
  | insert tid key value =>
    rw [redo, sat_map]
    exact insertAlways_shows h key value seq
  | erase tid key =>
    rw [redo, sat_map]
    exact eraseAlways_shows h key seq
  | renameObject tid src dst force => exact redoRename_shows h tid src dst force seq
  | batch ops => exact .pure h

end Redo

/-- A tree opened on its own has the one log to itself. -/
def ownTreeOnly (id : Nat) : Except Error Unit :=
  if id = 0 then .ok ()
  else .error (.replaySanityFailed "WAL record tree_id does not belong to this Tree" 0)

section OneTree

variable {trees : Trees} {s : Replaying} {m : Contents}

/-- The replay of a tree on its own: nobody else's root is pinned, and the blobs hold `m`. -/
def Replaying.Shows (trees : Trees) (s : Replaying) (m : Contents) : Prop :=
  (∀ id ∈ s.rootPins, id = 0) ∧ s.engine.Shows (trees.supply 0) m

theorem onBlobs_sat {α : Type} {x : WalkM α} {ok : α → Engine → Prop} {err : Error → Engine → Prop}
    (hx : Sat x s.engine ok err) :
    Sat (onBlobs x) s (fun a s' => s'.rootPins = s.rootPins ∧ ok a s'.engine)
      (fun er s' => s'.rootPins = s.rootPins ∧ err er s'.engine) := by
  unfold Sat onBlobs
  unfold Sat at hx
  split at hx <;> simp_all

theorem ensureRootBlob_of_view {bm : BufferManager Frame} {root : BlobGuid} {b : CachedBlob Frame}
    (hp : root ∉ bm.pendingDeletes) (hv : bm.view root = some b) :
    ensureRootBlob bm root = .ok bm := by
  have hthere : root ∈ bm.cache ∨ root ∈ bm.store := by
    by_contra hnone
    obtain ⟨hc, hs⟩ := not_or.mp hnone
    rw [BufferManager.view, AList.lookup_eq_none.mpr hc, AList.lookup_eq_none.mpr hs] at hv
    cases hv
  have hblob : bm.hasBlob root = true := by
    simp [BufferManager.hasBlob, BufferManager.isPendingDelete, hp, hthere]
  rw [ensureRootBlob, if_pos hblob]

theorem rootPin_sat (h : s.Shows trees m) (id : Nat) :
    Sat (rootPin trees ownTreeOnly id) s (fun _ s' => id = 0 ∧ s'.Shows trees m)
      (fun _ _ => True) := by
  obtain ⟨hpins, fo, hinv, hm⟩ := h
  simp only [rootPin, sat_bind, sat_get]
  split
  · rename_i hin
    exact .pure ⟨hpins id hin, hpins, fo, hinv, hm⟩
  · unfold ownTreeOnly
    split
    · rename_i hid
      subst hid
      obtain ⟨t, htop⟩ := hinv.wf.top
      obtain ⟨b, hb, -⟩ := hinv.blob htop
      obtain ⟨bm, hpin, hinv'⟩ := hinv.pin htop
      simp only [lift_ok, sat_pure, sat_bind, ensureRootBlob_of_view (hinv.pending htop) hb,
        hpin, sat_set]
      refine ⟨trivial, fun id hid => ?_, fo, hinv', hm⟩
      rcases List.mem_cons.mp hid with rfl | hid
      · rfl
      · exact hpins id hid
    · simp only [lift_error, sat_bind, sat_throw]

theorem replayOp_sat (h : s.Shows trees m) (op : WalOp) (seq offset : Nat) :
    Sat (replayOp trees ownTreeOnly op seq offset) s
      (fun _ s' => s'.Shows trees (m.redo (op, seq))) (fun _ _ => True) := by
  unfold replayOp
  refine (rootPin_sat h _).bind ?_ fun _ _ he => he
  rintro _ s₁ ⟨hid, hpins, h₁⟩
  rw [hid]
  refine (onBlobs_sat (redo_shows h₁ op seq)).bind ?_ fun _ _ _ => trivial
  rintro rootDirty s₂ ⟨hsame, h₂⟩
  have hpins₂ : ∀ id ∈ s₂.rootPins, id = 0 := hsame ▸ hpins
  split
  · have hmark : Sat (onManager fun bm => bm.markDirtyCached (trees.root 0) seq) s₂.engine
        (fun _ e' => e'.Shows (trees.supply 0) (m.redo (op, seq))) (fun _ _ => True) :=
      (sat_modify ..).mpr (h₂.markDirty _ seq)
    apply (onBlobs_sat hmark).mono
    · rintro _ s₃ ⟨hsame₃, h₃⟩
      exact ⟨hsame₃ ▸ hpins₂, h₃⟩
    · intro _ _ _
      trivial
  · exact .pure ⟨hpins₂, h₂⟩

/-- A replay that succeeds redoes the operations of the log in order. -/
theorem replayWal_sat {bytes : List UInt8} {header : Codec.FileHeader}
    {rs : List Codec.DecodedRecord}
    (hheader : Codec.decodeFileHeader (bytes.take Codec.fileHeaderSize) = .ok header)
    (hlog : Log (bytes.drop Codec.fileHeaderSize) rs) (h : s.Shows trees m) :
    Sat (replayWal trees ownTreeOnly bytes) s
      (fun out s' => s'.Shows trees ((ops rs).foldl Contents.redo m) ∧
        out.1 = ((ops rs).foldl (fun h e => raise h e.2) none).getD 0 + 1)
      (fun _ _ => True) := by
  have hcarry : Carries (replayOp trees ownTreeOnly) (ops rs)
      (fun before s => s.Shows trees (before.foldl Contents.redo m)) (fun _ _ => True) := by
    intro before op seq after offset s' _ hs'
    apply (replayOp_sat hs' op seq offset).mono
    · intro _ s'' hs''
      change s''.Shows trees ((before ++ [(op, seq)]).foldl Contents.redo m)
      rwa [List.foldl_append]
    · intro _ _ _
      trivial
  unfold replayWal
  refine (replayBytes_sat hcarry hheader hlog rfl h).bind ?_ fun _ _ he => he
  rintro ⟨_, stats⟩ s' ⟨hs', -, -, hseq⟩
  refine .pure ⟨hs', ?_⟩
  rw [← hseq]

end OneTree

/-! ## Redoing inserts and erasures -/

def WalOp.isWrite : WalOp → Bool
  | .insert .. | .erase .. => true
  | .renameObject .. | .batch _ => false

/-- An insert or erasure says itself what its key has afterwards. -/
theorem Contents.redo_at {e : WalOp × Nat} (he : e.1.isWrite = true) (key : List UInt8) :
    (∀ m : Contents, m.redo e key = m key) ∨ ∃ r, ∀ m : Contents, m.redo e key = r := by
  obtain ⟨op, seq⟩ := e
  cases op with
  | insert id k value =>
    by_cases hk : key = k
    · subst hk
      exact .inr ⟨some (value, seq), fun m => put_self m key value seq⟩
    · exact .inl fun m => put_of_ne m value seq hk
  | erase id k =>
    by_cases hk : key = k
    · subst hk
      exact .inr ⟨none, fun m => remove_self m key⟩
    · exact .inl fun m => remove_of_ne m hk
  | renameObject => cases he
  | batch => cases he

theorem Contents.foldl_redo_at {log : List (WalOp × Nat)} (hw : ∀ e ∈ log, e.1.isWrite = true)
    (key : List UInt8) :
    (∀ m : Contents, log.foldl redo m key = m key) ∨
      ∃ r, ∀ m : Contents, log.foldl redo m key = r := by
  induction log with
  | nil => exact .inl fun _ => rfl
  | cons e log ih =>
    rcases ih fun e' he' => hw e' (List.mem_cons_of_mem _ he') with hkeep | ⟨r, hr⟩
    · rcases redo_at (hw e List.mem_cons_self) key with hkeep' | ⟨r, hr⟩
      · exact .inl fun m => (hkeep _).trans (hkeep' m)
      · exact .inr ⟨r, fun m => (hkeep _).trans (hr m)⟩
    · exact .inr ⟨r, fun m => hr _⟩

/-- Redo from any mixture of older and newer records ends where the whole log ends. -/
theorem Contents.redo_mixture {log : List (WalOp × Nat)} (hw : ∀ e ∈ log, e.1.isWrite = true)
    {m m₀ : Contents} (hm : ∀ key, ∃ n, m key = (log.take n).foldl redo m₀ key) :
    log.foldl redo m = log.foldl redo m₀ := by
  funext key
  obtain ⟨n, hn⟩ := hm key
  have hsplit : ∀ m' : Contents,
      log.foldl redo m' = (log.drop n).foldl redo ((log.take n).foldl redo m') := by
    intro m'
    rw [← List.foldl_append, List.take_append_drop]
  rw [hsplit, hsplit]
  rcases foldl_redo_at (fun e he => hw e (List.mem_of_mem_drop he)) key with hkeep | ⟨r, hr⟩
  · rw [hkeep, hkeep, ← hn]
    -- whatever the key has now was written by the first part of the log, or by none of it
    rcases foldl_redo_at (fun e he => hw e (List.mem_of_mem_take he)) key with hkeep' | ⟨r, hr⟩
    · exact hkeep' m
    · rw [hr, hn, hr]
  · rw [hr, hr]

/-- Replaying a log of inserts and erasures onto blobs that already hold any part of it, key by
key, gives what the log gives from the start. -/
theorem replay_of_writes_idempotent {trees : Trees} {bytes : List UInt8}
    {header : Codec.FileHeader} {rs : List Codec.DecodedRecord}
    (hheader : Codec.decodeFileHeader (bytes.take Codec.fileHeaderSize) = .ok header)
    (hlog : Log (bytes.drop Codec.fileHeaderSize) rs) (hw : ∀ e ∈ ops rs, e.1.isWrite = true)
    {e : Engine} {m m₀ : Contents} (he : e.Shows (trees.supply 0) m)
    (hm : ∀ key, ∃ n, m key = ((ops rs).take n).foldl Contents.redo m₀ key)
    {out : Nat × ReplayStats} {s' : Replaying}
    (hrun : replayWal trees ownTreeOnly bytes ⟨e, []⟩ = .ok out s') :
    s'.engine.Shows (trees.supply 0) ((ops rs).foldl Contents.redo m₀) := by
  have hs : Replaying.Shows trees ⟨e, []⟩ m := ⟨fun _ hid => absurd hid List.not_mem_nil, he⟩
  obtain ⟨⟨-, hshows⟩, -⟩ := (replayWal_sat hheader hlog hs).of_ok hrun
  rwa [Contents.redo_mixture hw hm] at hshows

/-- A log file with its header. -/
def logFile (header : Codec.FileHeader) (rs : List Codec.LogRecord) : List UInt8 :=
  Codec.encodeFileHeader header ++ rs.flatMap Codec.LogRecord.encode

/-- A log file cut behind its header. -/
theorem logFile_take (header : Codec.FileHeader) (rs : List Codec.LogRecord)
    (hf : ∀ r ∈ rs, r.Fits) {n : Nat} (hn : Codec.fileHeaderSize ≤ n) :
    (∃ h, Codec.decodeFileHeader (((logFile header rs).take n).take Codec.fileHeaderSize) =
      .ok h) ∧
    Log (((logFile header rs).take n).drop Codec.fileHeaderSize)
      ((inside (n - Codec.fileHeaderSize) rs).map Codec.LogRecord.decoded) := by
  have hlen := Codec.length_encodeFileHeader header
  have htake : (logFile header rs).take n = Codec.encodeFileHeader header ++
      (rs.flatMap Codec.LogRecord.encode).take (n - Codec.fileHeaderSize) := by
    rw [logFile, List.take_append, List.take_of_length_le (by omega), hlen]
  rw [htake, List.take_left' hlen, List.drop_left' hlen]
  exact ⟨⟨_, Codec.decodeFileHeader_written header⟩, log_take hf _⟩

/-- An insert, then a batch of a run of two inserts and an erasure. -/
def smallLog : List Codec.LogRecord :=
  [.insert 1 0 [1] [10], .batch 2 0 [.insertRun 0 1 1 [([2], [20]), ([3], [30])], .erase 0 [1]]]

/-- The blobs hold the third write of the log, but neither of the first two. -/
theorem replay_of_writes_idempotent_later : ∃ T out s' out' s'',
    openTree (Trees.counting.root 0) true false = .ok T ∧
      replayWal Trees.counting ownTreeOnly (logFile ⟨0, 0⟩ [.insert 3 0 [3] [30]])
        ⟨T.engine, []⟩ = .ok out s' ∧
      replayWal Trees.counting ownTreeOnly (logFile ⟨0, 0⟩ smallLog) ⟨s'.engine, []⟩ =
        .ok out' s'' ∧
      s''.engine.Shows (Trees.counting.supply 0)
        ((ops (smallLog.map Codec.LogRecord.decoded)).foldl Contents.redo fun _ => none) := by
  obtain ⟨T, hT, hshows, -⟩ := openTree_shows (Trees.counting.supply 0) true false
  have hrun : ((openTree (Trees.counting.root 0) true false).toOption.any fun T =>
      returns (replayWal Trees.counting ownTreeOnly (logFile ⟨0, 0⟩ [.insert 3 0 [3] [30]]))
        ⟨T.engine, []⟩ fun _ s' => returns (replayWal Trees.counting ownTreeOnly
          (logFile ⟨0, 0⟩ smallLog)) ⟨s'.engine, []⟩ fun _ _ => true) = true := by decide +kernel
  rw [hT, Except.toOption, Option.any_some] at hrun
  obtain ⟨out, s', hok, hrun⟩ := returns_iff.mp hrun
  obtain ⟨out', s'', hok', -⟩ := returns_iff.mp hrun
  have hwhole : ∀ rs : List Codec.LogRecord, (∀ r ∈ rs, r.Fits) →
      (∃ h, Codec.decodeFileHeader ((logFile ⟨0, 0⟩ rs).take Codec.fileHeaderSize) = .ok h) ∧
        Log ((logFile ⟨0, 0⟩ rs).drop Codec.fileHeaderSize) (rs.map Codec.LogRecord.decoded) := by
    intro rs hf
    have hlen := Codec.length_encodeFileHeader ⟨0, 0⟩
    rw [logFile, List.take_left' hlen, List.drop_left' hlen]
    exact ⟨⟨_, Codec.decodeFileHeader_written ⟨0, 0⟩⟩, log_whole hf⟩
  obtain ⟨⟨h, hheader⟩, hlog⟩ := hwhole [.insert 3 0 [3] [30]] (by decide)
  obtain ⟨⟨h', hheader'⟩, hlog'⟩ := hwhole smallLog (by decide)
  have hmiddle :=
    replay_of_writes_idempotent hheader hlog (by decide) hshows (fun _ => ⟨0, rfl⟩) hok
  refine ⟨T, out, s', out', s'', hT, hok, hok',
    replay_of_writes_idempotent hheader' hlog' (by decide) hmiddle (fun key => ?_) hok'⟩
  by_cases hkey : key = [3]
  · exact ⟨3, by subst hkey; rfl⟩
  · have hops : ops ([.insert 3 0 [3] [30]].map Codec.LogRecord.decoded) =
        [(.insert 0 [3] [30], 3)] := rfl
    exact ⟨0, by rw [hops]; simp [Contents.redo, Contents.put, hkey]⟩

/-- From a log file cut at any byte, a fresh tree recovers the records that are wholly there. A
header that is not whole is refused. -/
theorem recovery_of_cut_log (trees : Trees) (header : Codec.FileHeader)
    (rs : List {r : Codec.LogRecord // r.Fits}) (n : Nat) :
    ∃ T, openTree (trees.root 0) true false = .ok T ∧
      Sat (replayWal trees ownTreeOnly ((logFile header rs.unattach).take n)) ⟨T.engine, []⟩
        (fun _ s' => Codec.fileHeaderSize ≤ n ∧ s'.engine.Shows (trees.supply 0)
          ((ops ((inside (n - Codec.fileHeaderSize) rs.unattach).map
            Codec.LogRecord.decoded)).foldl Contents.redo fun _ => none))
        fun _ s' => n < Codec.fileHeaderSize → s' = ⟨T.engine, []⟩ := by
  obtain ⟨T, hT, hshows, -⟩ := openTree_shows (trees.supply 0) true false
  refine ⟨T, hT, ?_⟩
  by_cases hn : Codec.fileHeaderSize ≤ n
  · obtain ⟨⟨h, hheader⟩, hlog⟩ := logFile_take header rs.unattach (by simp +contextual) hn
    have hs : Replaying.Shows trees ⟨T.engine, []⟩ _ := ⟨by simp, hshows⟩
    exact (replayWal_sat hheader hlog hs).mono (fun _ _ h => ⟨hn, h.1.2⟩)
      fun _ _ _ hlt => absurd hn (Nat.not_le_of_lt hlt)
  · have hshort : ((logFile header rs.unattach).take n).length < Codec.fileHeaderSize := by
      rw [List.length_take]
      omega
    rw [replayWal, replayBytes, if_pos hshort]
    exact Sat.throw fun _ => rfl

end Holt
