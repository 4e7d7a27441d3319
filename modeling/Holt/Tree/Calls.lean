import Holt.Journal.WalOp
import Holt.Tree.Contents

/-! The calls of one tree: what they do around the walkers, and what they do to the records. -/

namespace Holt

open Holt.Lib

/-- `journal` is what was submitted to the log, oldest first; a memory tree has none. -/
structure Tree where
  engine : Engine
  treeId : Nat
  nextSeq : Nat
  journal : Option (List (Nat × WalOp))
  memoryFlushOnWrite : Bool

abbrev TreeM := EStateM Error Tree

def ensureRootBlob (bm : BufferManager Frame) (root : BlobGuid) :
    Except Error (BufferManager Frame) :=
  if bm.hasBlob root then .ok bm else (Frame.init root).map fun frame => bm.writeBlob root frame

/-- A tree over an empty store and an empty log. -/
def openTree (root : BlobGuid) (journalled memoryFlushOnWrite : Bool) : Except Error Tree := do
  let bm ← ensureRootBlob .empty root
  let bm ← bm.pin root
  pure ⟨⟨bm, some .empty, 0⟩, 0, 1, if journalled then some [] else none, memoryFlushOnWrite⟩

def onEngine {α : Type} (x : WalkM α) : TreeM α := fun T =>
  match x T.engine with
  | .ok a engine => .ok a { T with engine }
  | .error err engine => .error err { T with engine }

def allocSeq : TreeM Nat := do
  let T ← get
  set { T with nextSeq := T.nextSeq + 1 }
  pure T.nextSeq

def submit (seq : Nat) (op : WalOp) : TreeM Unit :=
  modify fun T => { T with journal := T.journal.map (· ++ [(seq, op)]) }

def markRoot (root : BlobGuid) (dirty : Bool) (seq : Nat) : TreeM Unit :=
  if dirty then onEngine (onManager fun bm => bm.markDirtyCached root seq) else pure ()

/-- The durability of a tree without a log. -/
def flushInline : TreeM Unit := do
  let T ← get
  match T.engine.bm.flushDirtyInline with
  | (bm, some err) => do
    set { T with engine := { T.engine with bm } }
    throw err
  | (bm, none) => set { T with engine := { T.engine with bm := bm.flushPendingDeletesInline } }

/-- After the walker: tag the root, and log or flush what changed. -/
def publish (root : BlobGuid) (seq : Nat) (op : WalOp) (rootDirty mutated : Bool) : TreeM Unit := do
  let T ← get
  match T.journal with
  | some _ =>
    if mutated then do
      markRoot root rootDirty seq
      submit seq op
    else pure ()
  | none => do
    markRoot root rootDirty seq
    if mutated && T.memoryFlushOnWrite then flushInline else pure ()

section Calls

variable {root : BlobGuid} (supply : GuidSupply root)

/-- The value and the version of the leaf that was found. -/
def readRecord (F : Frame) (hit : LookupHit) : List UInt8 × Nat :=
  ((F.bytesAt hit.offset hit.len).getD [], hit.seq)

/-- With nobody else at work the first descent is never thrown away. -/
def lookupRecord (root : BlobGuid) (key : List UInt8) : TreeM (Option (List UInt8 × Nat)) :=
  onEngine (lookupMultiWith root readRecord (.user key) 1)

def getRecord (root : BlobGuid) (key : List UInt8) : TreeM (Option (List UInt8 × Nat)) :=
  lookupRecord root key

def getValue (root : BlobGuid) (key : List UInt8) : TreeM (Option (List UInt8)) :=
  (fun r => r.map Prod.fst) <$> lookupRecord root key

def getVersion (root : BlobGuid) (key : List UInt8) : TreeM (Option Nat) :=
  onEngine (lookupMultiWith root (fun _ hit => hit.seq) (.user key) 1)

def putInnerConditional (key value : List UInt8) (condition : InsertCondition) :
    TreeM InsertOutcome := do
  let seq ← allocSeq
  let out ← onEngine (insertMultiConditional supply (.user key) value seq condition)
  let T ← get
  publish root seq (.insert T.treeId key value) out.rootDirty out.mutated
  pure out

/-- Without a log an erasure tags the root only if it changed something. -/
def deleteInnerConditional (root : BlobGuid) (key : List UInt8) (condition : EraseCondition) :
    TreeM EraseOutcome := do
  let seq ← allocSeq
  let out ← onEngine (eraseMultiConditional root (.user key) seq condition)
  let T ← get
  publish root seq (.erase T.treeId key) (out.mutated && out.rootDirty) out.mutated
  pure out

def put (key value : List UInt8) : TreeM Unit :=
  (fun _ => ()) <$> putInnerConditional supply key value .always

def putIfAbsent (key value : List UInt8) : TreeM Bool :=
  InsertOutcome.mutated <$> putInnerConditional supply key value .ifAbsent

def compareAndPut (key : List UInt8) (expected : Nat) (value : List UInt8) : TreeM Bool :=
  InsertOutcome.mutated <$> putInnerConditional supply key value (.ifVersion expected)

def delete (root : BlobGuid) (key : List UInt8) : TreeM Bool :=
  EraseOutcome.mutated <$> deleteInnerConditional root key .always

def deleteIfVersion (root : BlobGuid) (key : List UInt8) (expected : Nat) : TreeM Bool :=
  EraseOutcome.mutated <$> deleteInnerConditional root key (.ifVersion expected)

/-- Both halves of a rename, then as after any other write. The sequence number is taken before
the keys are looked at. -/
def rename (src dst : List UInt8) (force : Bool) : TreeM Unit := do
  let seq ← allocSeq
  let found ← onEngine (lookupMultiWith root (fun F hit => (readRecord F hit).1) (.user src) 1)
  match found with
  | none => throw .notFound
  | some value =>
    if src = dst then pure ()
    else do
      let taken ← bif force then pure false else Option.isSome <$>
        onEngine (lookupMultiWith root (fun _ _ => ()) (.user dst) 1)
      if taken then throw .dstExists
      else do
        let eraseOut ← onEngine (eraseMultiConditional root (.user src) seq .always)
        let insertOut ← onEngine (insertMultiConditional supply (.user dst) value seq .always)
        let T ← get
        publish root seq (.renameObject T.treeId src dst force)
          (eraseOut.rootDirty || insertOut.rootDirty) true

end Calls

/-! ## What the calls do to the records -/

/-- The tree is in order and shows the records `m`. -/
def Tree.Shows {root : BlobGuid} (supply : GuidSupply root) (T : Tree) (m : Contents) : Prop :=
  T.engine.Shows supply m

section Specs

variable {root : BlobGuid} {supply : GuidSupply root} {T : Tree} {m : Contents}
  {key value : List UInt8} {err : Error → Tree → Prop}

theorem onEngine_sat {α : Type} {x : WalkM α} {ok : α → Engine → Prop}
    {err' : Error → Engine → Prop} (hx : Sat x T.engine ok err') :
    Sat (onEngine x) T (fun a T' => ∃ e, T' = { T with engine := e } ∧ ok a e)
      (fun er T' => ∃ e, T' = { T with engine := e } ∧ err' er e) := by
  unfold Sat onEngine
  unfold Sat at hx
  split at hx <;> simp_all

theorem markRoot_sat (h : T.Shows supply m) (dirty : Bool) (seq : Nat) :
    Sat (markRoot root dirty seq) T
      (fun _ T' => T'.Shows supply m ∧ T'.nextSeq = T.nextSeq) err := by
  obtain ⟨fo, hinv, hm⟩ := h
  unfold markRoot
  split
  · have hmark : Sat (onManager fun bm => bm.markDirtyCached root seq) T.engine
        (fun _ e => e.Inv supply fo) fun _ _ => False :=
      (sat_modify ..).mpr (hinv.markDirty root seq)
    apply (onEngine_sat hmark).mono
    · rintro _ _ ⟨e, rfl, he⟩
      exact ⟨⟨fo, he, hm⟩, rfl⟩
    · rintro _ _ ⟨_, _, he⟩
      exact he.elim
  · exact .pure ⟨⟨fo, hinv, hm⟩, rfl⟩

theorem flushInline_sat (h : T.Shows supply m) :
    Sat flushInline T (fun _ T' => T'.Shows supply m ∧ T'.nextSeq = T.nextSeq)
      (fun er _ => er.Hard) := by
  obtain ⟨fo, hinv, hm⟩ := h
  have herr := BufferManager.flushDirtyInline_error T.engine.bm
  unfold flushInline
  simp only [sat_bind, sat_get]
  split
  · rename_i bm er heq
    rw [heq] at herr
    simp only [sat_bind, sat_set, sat_throw]
    exact herr _ rfl
  · rename_i bm heq
    have hpend := BufferManager.flushDirtyInline_pendingDeletes T.engine.bm
    have hview := BufferManager.view_flushDirtyInline T.engine.bm
    rw [heq] at hpend hview
    refine (sat_set ..).mpr ⟨⟨fo, hinv.bm (fun {a q b} ha hb => ?_) (fun hm => ?_) ?_, hm⟩, rfl⟩
    · have hgone : a ∉ bm.pendingDeletes := hpend ▸ hinv.pending ha
      rw [BufferManager.view_flushPendingDeletesInline hgone, hview]
      exact ⟨b, hb, rfl⟩
    · exact absurd hm (AList.notMem_empty _)
    · intro a _ hgone
      have := hgone.flushDirtyInline
      rw [heq] at this
      exact this.flushPendingDeletesInline

theorem publish_sat (h : T.Shows supply m) (seq : Nat) (op : WalOp) (rootDirty mutated : Bool) :
    Sat (publish root seq op rootDirty mutated) T
      (fun _ T' => T'.Shows supply m ∧ T'.nextSeq = T.nextSeq) (fun er _ => er.Hard) := by
  unfold publish
  simp only [sat_bind, sat_get]
  split
  · split
    · refine (markRoot_sat h rootDirty seq).andThen fun _ T' h' => ?_
      exact (sat_modify ..).mpr h'
    · exact .pure ⟨h, rfl⟩
  · refine (markRoot_sat h rootDirty seq).andThen fun _ T' h' => ?_
    split
    · exact (flushInline_sat h'.1).imp fun _ _ h'' => ⟨h''.1, h''.2.trans h'.2⟩
    · exact .pure h'

/-! The log grows by what was published; nothing else of the tree changes but its blobs. -/

/-- `T'` is `T` with other blobs and `new` behind the log. -/
def Tree.Logged (T T' : Tree) (new : List (Nat × WalOp)) : Prop :=
  T'.treeId = T.treeId ∧ T'.journal = T.journal.map (· ++ new)

theorem Tree.Logged.nil (T : Tree) : T.Logged T [] := by
  refine ⟨rfl, ?_⟩
  cases T.journal <;> simp

theorem onEngine_logged {α : Type} (x : WalkM α) (T : Tree) :
    Sat (onEngine x) T (fun _ T' => T.Logged T' []) (fun _ T' => T.Logged T' []) := by
  apply (onEngine_sat (sat_true x T.engine)).mono
  · rintro _ _ ⟨e, rfl, -⟩
    exact ⟨rfl, (Tree.Logged.nil T).2⟩
  · rintro _ _ ⟨e, rfl, -⟩
    exact ⟨rfl, (Tree.Logged.nil T).2⟩

theorem publish_logged (root : BlobGuid) (seq : Nat) (op : WalOp) (rootDirty mutated : Bool)
    (T : Tree) :
    Sat (publish root seq op rootDirty mutated) T
      (fun _ T' => T.Logged T' (if mutated then [(seq, op)] else [])) (fun _ _ => True) := by
  have hmark : ∀ T : Tree, Sat (markRoot root rootDirty seq) T
      (fun _ T' => T.Logged T' []) (fun _ _ => True) := by
    intro T
    unfold markRoot
    split
    · exact (onEngine_logged _ T).mono (fun _ _ h => h) fun _ _ _ => trivial
    · exact .pure (.nil T)
  unfold publish
  simp only [sat_bind, sat_get]
  split
  · rename_i log hlog
    split
    · refine (hmark T).andThen fun _ T' h => ?_
      refine (sat_modify ..).mpr ⟨h.1, ?_⟩
      rw [h.2, hlog]
      simp
    · exact .pure (.nil T)
  · rename_i hlog
    have hnone : ∀ {T' : Tree} {new : List (Nat × WalOp)}, T.Logged T' [] → T.Logged T' new := by
      intro T' new h
      refine ⟨h.1, ?_⟩
      rw [h.2, hlog]
      rfl
    refine (hmark T).andThen fun _ T' h => ?_
    split
    · simp only [flushInline, sat_bind, sat_get]
      split
      · simp only [sat_bind, sat_set, sat_throw]
      · exact (sat_set ..).mpr (hnone h)
    · exact .pure (hnone h)

/-- A lookup reads the record of its key, through whatever the caller makes of it. -/
theorem lookup_sat {R : Type} {consume : Frame → LookupHit → R} {f : List UInt8 × Nat → R}
    (h : T.Shows supply m) (key : List UInt8)
    (hf : ∀ F hit v, F.bytesAt hit.offset hit.len = some v → consume F hit = f (v, hit.seq)) :
    Sat (onEngine (lookupMultiWith root consume (.user key) 1)) T
      (fun r T' => r = (m key).map f ∧ T'.Shows supply m ∧ T'.nextSeq = T.nextSeq) err := by
  have hlook : Sat _ T.engine _ fun _ _ => False := Engine.Shows.lookup h key hf
  apply (onEngine_sat hlook).mono
  · rintro r _ ⟨e, rfl, hr, he⟩
    exact ⟨hr, he, rfl⟩
  · rintro _ _ ⟨_, _, he⟩
    exact he.elim

theorem lookupRecord_sat (h : T.Shows supply m) (key : List UInt8) :
    Sat (lookupRecord root key) T
      (fun r T' => r = m key ∧ T'.Shows supply m ∧ T'.nextSeq = T.nextSeq) err := by
  refine (lookup_sat h key (f := id) fun F hit v hv => ?_).mono ?_ fun _ _ he => he
  · simp [readRecord, hv]
  · intro r T' hr
    rwa [Option.map_id_fun, id] at hr

theorem getVersion_sat (h : T.Shows supply m) (key : List UInt8) :
    Sat (getVersion root key) T
      (fun r T' => r = m.version key ∧ T'.Shows supply m ∧ T'.nextSeq = T.nextSeq) err :=
  lookup_sat h key fun _ _ _ _ => rfl

/-- A guarded write takes a new sequence number and writes under it if its guard holds. -/
theorem putInnerConditional_sat (h : T.Shows supply m) (key value : List UInt8)
    (condition : InsertCondition) :
    Sat (putInnerConditional supply key value condition) T
      (fun out T' => out.mutated = condition.holds (m.version key) ∧
        T'.Shows supply (if out.mutated then m.put key value T.nextSeq else m) ∧
        T'.nextSeq = T.nextSeq + 1)
      (fun er _ => er.Hard) := by
  unfold putInnerConditional allocSeq
  simp only [sat_bind, sat_get, sat_set, sat_pure]
  refine (onEngine_sat (T := { T with nextSeq := T.nextSeq + 1 }) (Engine.Shows.insert h
    key value T.nextSeq condition)).mono ?_ fun _ _ he => he.elim fun _ h => h.2.hard
  rintro out _ ⟨e, rfl, hout, he⟩
  have hT : Tree.Shows supply { T with engine := e, nextSeq := T.nextSeq + 1 } _ := he
  refine (publish_sat hT _ _ _ _).imp fun _ T' hT' => ?_
  exact ⟨hout, hT'⟩

theorem deleteInnerConditional_sat (h : T.Shows supply m) (key : List UInt8)
    (condition : EraseCondition) :
    Sat (deleteInnerConditional root key condition) T
      (fun out T' => out.mutated = condition.holds (m.version key) ∧
        T'.Shows supply (if out.mutated then m.remove key else m) ∧
        T'.nextSeq = T.nextSeq + 1)
      (fun er _ => er.Hard) := by
  have herase : Sat _ T.engine _ fun _ _ => False :=
    Engine.Shows.erase h key T.nextSeq condition
  unfold deleteInnerConditional allocSeq
  simp only [sat_bind, sat_get, sat_set, sat_pure]
  refine (onEngine_sat (T := { T with nextSeq := T.nextSeq + 1 }) herase).mono ?_
    fun _ _ he => he.elim fun _ h => h.2.elim
  rintro out _ ⟨e, rfl, hout, he⟩
  have hT : Tree.Shows supply { T with engine := e, nextSeq := T.nextSeq + 1 } _ := he
  refine (publish_sat hT _ _ _ _).imp fun _ T' hT' => ?_
  exact ⟨hout, hT'⟩

theorem openTree_eq {F : Frame} (hF : Frame.init root = .ok F) (journalled flush : Bool) :
    ∃ bm, openTree root journalled flush = .ok ⟨⟨bm, some .empty, 0⟩, 0, 1,
        if journalled then some [] else none, flush⟩ ∧
      bm.cache.lookup root = some ⟨F, 0⟩ ∧ bm.pendingDeletes = ∅ ∧ bm.dirty = ∅ := by
  have hempty : (BufferManager.empty : BufferManager Frame).hasBlob root = false := by
    simp [BufferManager.hasBlob, BufferManager.empty]
  have hpin := BufferManager.pin_store (b := BufferManager.empty.writeBlob root F) (g := root)
    (AList.notMem_empty root) (AList.notMem_empty root) (AList.lookup_insert _)
  have hopen : openTree root journalled flush =
      ((BufferManager.empty.writeBlob root F).pin root).bind fun bm => .ok ⟨⟨bm, some .empty, 0⟩,
        0, 1, if journalled then some [] else none, flush⟩ := by
    unfold openTree ensureRootBlob
    rw [hempty, hF]
    rfl
  rw [hpin] at hopen
  exact ⟨_, hopen, AList.lookup_insert _, rfl, rfl⟩

/-- An opened tree is one empty blob. -/
theorem openTree_inv (supply : GuidSupply root) (journalled flush : Bool) :
    ∃ T F, openTree root journalled flush = .ok T ∧ Frame.init root = .ok F ∧
      T.engine.bm.view root = some ⟨F, 0⟩ ∧ T.engine.Inv supply (.seed root) ∧ T.nextSeq = 1 ∧
      T.journal = if journalled then some [] else none := by
  obtain ⟨F, hF, hh, hg⟩ := Frame.init_holds root
  obtain ⟨bm, hopen, hc, hp, -⟩ := openTree_eq hF journalled flush
  have hview := BufferManager.view_of_cache hc
  refine ⟨_, F, hopen, hF, hview, ⟨.seed root, fun hs => ?_, fun _ => ?_, fun hs => ?_, fun _ => ?_,
    fun hr => ?_⟩, rfl, rfl⟩
  · obtain ⟨rfl, rfl⟩ := Forest.seed_some hs
    exact ⟨_, hview, hh, hg⟩
  · exact hp ▸ AList.notMem_empty _
  · exact .inl (Forest.seed_some hs).1
  · exact hp ▸ AList.notMem_empty _
  · cases hr
    refine ⟨fun g => (Forest.seed root g).map Plot.path, .empty _, ?_, ?_, ?_⟩
    · intro g p hp
      rw [hp]
      rfl
    · intro g π hg hn
      rw [hn] at hg
      cases hg
    · intro g π hg
      obtain ⟨p, hp, -⟩ := Option.map_eq_some_iff.mp hg
      exact .inl (Forest.seed_some hp).1

/-- An opened tree has no records. -/
theorem openTree_shows (supply : GuidSupply root) (journalled flush : Bool) :
    ∃ T, openTree root journalled flush = .ok T ∧ T.Shows supply (fun _ => none) ∧
      T.nextSeq = 1 ∧ T.journal = if journalled then some [] else none := by
  obtain ⟨T, F, hopen, -, -, hinv, hseq, hjournal⟩ := openTree_inv supply journalled flush
  refine ⟨T, hopen, ⟨.seed root, hinv, fun key o ho => ?_⟩, hseq, hjournal⟩
  rw [Forest.seed_leads ho]
  rfl

end Specs

end Holt
