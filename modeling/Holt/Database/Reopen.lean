import Holt.Database.Catalog
import Holt.Journal.Damage
import Holt.Tree.Replay
import Holt.Walker.Presence
import Holt.Walker.Topology

/-! Opening a database over what a crash left: the log is replayed, and the drops that it leaves
unfinished are staged. -/

namespace Holt.Reopen

open Holt.Lib Holt.Reader Holt.Database

/-- The blob name a tree has its root under. -/
def rootGuid (treeId : Nat) : BlobGuid := leNat (rootGuidForTreeId treeId)

theorem rootGuid_inj {id id' : Nat} (h : id < 2 ^ 64) (h' : id' < 2 ^ 64)
    (he : rootGuid id = rootGuid id') : id = id' :=
  rootGuidForTreeId_inj h h' (leNat_inj (by simp [rootGuidForTreeId]) he)

/-- Where the names of other blobs come from. -/
structure Names where
  guid : Nat → BlobGuid
  injective : Function.Injective guid
  ne_root : ∀ id i, guid i ≠ rootGuid id

def Names.trees (names : Names) : Trees := ⟨rootGuid, names.guid, names.injective, names.ne_root⟩

/-- A name of 16 bytes is below all of these. -/
def Names.counting : Names where
  guid i := 256 ^ 16 + i
  injective _ _ h := Nat.add_left_cancel h
  ne_root id i h := by
    have hlt := leNat_lt (rootGuidForTreeId id)
    have hlen : (rootGuidForTreeId id).length = 16 := by simp [rootGuidForTreeId]
    have heq : 256 ^ 16 + i = leNat (rootGuidForTreeId id) := h
    rw [hlen] at hlt
    omega

abbrev OpenM := EStateM DbError Engine

def below {α : Type} (x : WalkM α) : OpenM α := fun e =>
  match x e with
  | .ok a e => .ok a e
  | .error err e => .error (.engine err) e

/-- What a record of the catalog says, unless it is the next tree id. -/
def catalogItem : RangeEntry → OpenM (List (TreeName × CatalogEntry))
  | .key key value _ =>
    if key = catalogNextTreeIdKey then pure []
    else do
      let entry ← lift (decodeCatalogValue (value.getD []))
      pure [(key, entry)]
  | .commonPrefix _ => pure []

/-- The loop over the cursor. -/
def catalogLoop : Nat → RangeIter → RangeStage → OpenM (List (TreeName × CatalogEntry))
  | 0, _, _ => throw (.engine .diverged)
  | fuel + 1, it, stage =>
    match stage with
    | .returned none => pure []
    | .returned (some (.error err)) => throw (.engine err)
    | .returned (some (.ok entry)) => do
      let now ← catalogItem entry
      let rest ← catalogLoop fuel it .begin
      pure (now ++ rest)
    | stage => do
      let r ← below (RangeIter.step ∅ it stage)
      catalogLoop fuel r.1 r.2

def ensureRoot (guid : BlobGuid) : WalkM Unit := do
  let e ← get
  let bm ← lift (ensureRootBlob e.bm guid)
  set { e with bm }

def catalogEntries (fuel : Nat) : OpenM (List (TreeName × CatalogEntry)) := do
  let root := rootGuid dbCatalogTreeId
  below (ensureRoot root)
  below (pin root)
  catalogLoop fuel (.start root [] none none .records) .begin

def collectTreeGuids (fuel treeId : Nat) : WalkM (List BlobGuid) := do
  let e ← get
  if e.bm.hasBlob (rootGuid treeId) then collectBlobGuids fuel (rootGuid treeId) else pure []

def stageTreeDeleteGuids (guids : List BlobGuid) (seq : Nat) : WalkM Unit :=
  onManager fun bm => guids.foldl (fun bm g => bm.markForDelete g seq) bm

def stageEach (fuel seq : Nat) : List (TreeName × CatalogEntry) → WalkM Unit
  | [] => pure ()
  | (_, entry) :: rest => do
    if entry.state = .dropping then
      let guids ← collectTreeGuids fuel entry.treeId
      stageTreeDeleteGuids guids seq
    stageEach fuel seq rest

def stageDroppedTrees (fuel seq : Nat) : OpenM Unit := do
  let entries ← catalogEntries fuel
  below (stageEach fuel seq entries)

/-- Every tree id has a root. Answers the next sequence number. -/
def replayLog (names : Names) (bytes : List UInt8) : WalkM Nat := fun e =>
  match replayWal names.trees (fun _ => .ok ()) bytes ⟨e, []⟩ with
  | .ok out s => .ok out.1 s.engine
  | .error err s => .error err s.engine

/-- `fuel` bounds the walks over the catalog and over the trees to be deleted. -/
def openDb (names : Names) (fuel : Nat) (wal : Option (List UInt8)) : OpenM Nat := do
  let nextSeq ← match wal with
    | some bytes => below (replayLog names bytes)
    | none => pure 1
  stageDroppedTrees fuel nextSeq
  pure nextSeq

/-- A crash leaves what the store reads back. -/
def crashed (store : AList fun _ : BlobGuid => Frame) (drawn : Nat) : Engine :=
  ⟨{ BufferManager.empty with store }, none, drawn⟩

/-! ## What a replay does to the root of a tree -/

section Redo

variable {trees : Trees} {id : Nat} {r : Engine → Engine → Prop}

theorem isPresent_moves (h : Walking (trees.supply id) r) (key : List UInt8) :
    Moves r (isPresent (trees.root id) key) := by
  intro e
  rw [isPresent, sat_map]
  exact h.lookupMultiWith _ _ _ e

theorem redoRename_moves (h : Walking (trees.supply id) r) (src dst : List UInt8) (force : Bool)
    (seq : Nat) : Moves r (redoRename trees id src dst force seq) := by
  apply h.bind (isPresent_moves h src)
  intro there
  split
  · exact h.pure _
  apply h.bind
  · cases force with
    | true => exact h.pure _
    | false => exact isPresent_moves h dst
  · intro taken
    split
    · exact h.pure _
    · apply h.bind (h.lookupMultiWith _ _ _)
      intro value
      apply h.bind (h.eraseMultiConditional _ _ _)
      intro eraseOut
      exact h.bind (h.insertMultiConditional _ _ _ _) fun _ => h.pure _

theorem redo_moves (h : Walking (trees.supply id) r) (op : WalOp) (seq : Nat) :
    Moves r (redo trees id op seq) := by
  cases op with
  | insert _ key value =>
    intro e
    rw [redo, sat_map]
    exact h.insertMultiConditional _ _ _ _ e
  | erase _ key =>
    intro e
    rw [redo, sat_map]
    exact h.eraseMultiConditional _ _ _ e
  | renameObject _ src dst force => exact redoRename_moves h src dst force seq
  | batch _ => exact h.pure _

end Redo

section Replay

variable {names : Names} {id : Nat}

/-- An operation of the tree is among those replayed. -/
def Met (id : Nat) (seen : List (WalOp × Nat)) : Prop := ∃ e ∈ seen, e.1.treeId.getD 0 = id

/-- The first operation of a tree brings its root into the store; before, the root is nowhere. -/
structure Recovering (id : Nat) (seen : List (WalOp × Nat)) (s : Replaying) : Prop where
  met : Met id seen → rootGuid id ∈ s.engine.bm.store
  unmet : ¬ Met id seen → s.engine.bm.view (rootGuid id) = none ∧ id ∉ s.rootPins

variable {s : Replaying} {seen : List (WalOp × Nat)}

theorem Recovering.steady {s' : Replaying} (h : Recovering id seen s)
    (hs : s.engine.Steady (rootGuid id) s'.engine) (hp : id ∈ s'.rootPins → id ∈ s.rootPins) :
    Recovering id seen s' := by
  constructor
  · intro hmet
    exact hs.store.mpr (h.met hmet)
  · intro hnot
    obtain ⟨hview, hpins⟩ := h.unmet hnot
    exact ⟨hs.absent hview, fun hin => hpins (hp hin)⟩

theorem steady_walking (names : Names) (id id' : Nat) :
    Walking (names.trees.supply id') (Engine.Steady (rootGuid id)) :=
  Engine.Steady.walking fun i => names.ne_root id i

theorem Met.append {e : WalOp × Nat} :
    Met id (seen ++ [e]) ↔ Met id seen ∨ e.1.treeId.getD 0 = id := by
  simp [Met, or_and_right, exists_or]

theorem Recovering.here {e : WalOp × Nat} (he : e.1.treeId.getD 0 = id)
    (h : rootGuid id ∈ s.engine.bm.store) : Recovering id (seen ++ [e]) s :=
  ⟨fun _ => h, fun hnot => absurd (Met.append.mpr (.inr he)) hnot⟩

theorem Recovering.elsewhere {e : WalOp × Nat} (he : e.1.treeId.getD 0 ≠ id)
    (h : Recovering id seen s) : Recovering id (seen ++ [e]) s := by
  have hmet : Met id (seen ++ [e]) ↔ Met id seen := Met.append.trans (or_iff_left he)
  exact ⟨fun hm => h.met (hmet.mp hm), fun hnot => h.unmet fun hm => hnot (hmet.mpr hm)⟩

/-- Whichever tree the operation is of, its root is ensured first. -/
theorem rootPin_recovering (hid : id < 2 ^ 64) {e : WalOp × Nat} (he : NamesTree e.1)
    (h : Recovering id seen s) :
    Sat (rootPin names.trees (fun _ => .ok ()) (e.1.treeId.getD 0)) s
      (fun _ s' => Recovering id (seen ++ [e]) s') (fun _ _ => True) := by
  obtain ⟨id', hid', hop⟩ := he
  have hget : e.1.treeId.getD 0 = id' := by rw [hop]; rfl
  simp only [rootPin, hget, sat_bind, sat_get]
  split
  · rename_i hpinned
    refine .pure ?_
    by_cases heq : id' = id
    · -- a pinned root was ensured when it was pinned
      by_cases hmet : Met id seen
      · exact .here (hget.trans heq) (h.met hmet)
      · exact absurd (heq ▸ hpinned) (h.unmet hmet).2
    · exact .elsewhere (hget ▸ heq) h
  simp only [lift_ok, sat_pure, sat_bind]
  cases hensure : ensureRootBlob s.engine.bm (names.trees.root id') with
  | error err => simp
  | ok bm =>
    cases hpin : bm.pin (names.trees.root id') with
    | error err => simp [hpin]
    | ok bm' =>
      simp only [lift_ok, sat_pure, hpin, sat_set]
      by_cases heq : id' = id
      · refine .here (hget.trans heq) ?_
        subst heq
        rw [BufferManager.store_of_pin hpin]
        apply mem_store_ensureRootBlob hensure
        by_cases hmet : Met id' seen
        · exact .inl (h.met hmet)
        · exact .inr (h.unmet hmet).1
      · apply Recovering.elsewhere (hget ▸ heq)
        apply h.steady
        · have hne : rootGuid id ≠ rootGuid id' := fun hg => heq (rootGuid_inj hid hid' hg).symm
          have hwrite : s.engine.Steady (rootGuid id) { s.engine with bm } :=
            .ensureRootBlob hne hensure
          exact hwrite.trans (.pin hpin)
        · intro hin
          exact (List.mem_cons.mp hin).resolve_left fun hin => heq hin.symm

theorem replayOp_recovering (hid : id < 2 ^ 64) {e : WalOp × Nat} (he : NamesTree e.1)
    (h : Recovering id seen s) (offset : Nat) :
    Sat (replayOp names.trees (fun _ => .ok ()) e.1 e.2 offset) s
      (fun _ s' => Recovering id (seen ++ [e]) s') (fun _ _ => True) := by
  refine (rootPin_recovering hid he h).bind ?_ fun _ _ _ => trivial
  intro _ s₁ h₁
  have hwalk := steady_walking names id (e.1.treeId.getD 0)
  refine (onBlobs_sat (redo_moves hwalk e.1 e.2 s₁.engine)).bind ?_ fun _ _ _ => trivial
  rintro rootDirty s₂ ⟨hpins₂, hsteady₂⟩
  have h₂ := h₁.steady hsteady₂ fun hin => hpins₂ ▸ hin
  split
  · have hmark : Moves (Engine.Steady (rootGuid id))
        (onManager fun bm => bm.markDirtyCached (names.trees.root (e.1.treeId.getD 0)) e.2) :=
      hwalk.onManager fun bm => bm.markDirtyCached_same _ _
    apply (onBlobs_sat (hmark s₂.engine)).mono
    · rintro _ s₃ ⟨hpins₃, hsteady₃⟩
      exact h₂.steady hsteady₃ fun hin => hpins₃ ▸ hin
    · intro _ _ _
      trivial
  · exact .pure h₂

theorem replayWal_recovering (hid : id < 2 ^ 64) {bytes : List UInt8} {header : Codec.FileHeader}
    {rs : List Codec.DecodedRecord}
    (hheader : Codec.decodeFileHeader (bytes.take Codec.fileHeaderSize) = .ok header)
    (hlog : Log (bytes.drop Codec.fileHeaderSize) rs) (h : Recovering id [] s) :
    Sat (replayWal names.trees (fun _ => .ok ()) bytes) s (fun _ s' => Recovering id (ops rs) s')
      (fun _ _ => True) := by
  have hcarry : Carries (replayOp names.trees fun _ => .ok ()) (ops rs) (Recovering id)
      (fun _ _ => True) := by
    intro before op seq after offset s' hall hs'
    have hmem : (op, seq) ∈ ops rs := by
      rw [hall]
      exact List.mem_append_right _ List.mem_cons_self
    exact replayOp_recovering hid (hlog.names _ hmem) hs' offset
  unfold replayWal
  refine (replayBytes_sat hcarry hheader hlog rfl h).bind ?_ fun _ _ _ => trivial
  rintro ⟨_, stats⟩ s' ⟨hs', -⟩
  exact .pure hs'

end Replay

/-! ## Staging the drops -/

section Stage

variable {r : Engine → Engine → Prop} {root : BlobGuid} {supply : GuidSupply root}

theorem below_moves {α : Type} {x : WalkM α} (hx : Moves r x) : Moves r (below x) := by
  intro e
  have hmove := hx e
  unfold Sat at hmove ⊢
  unfold below
  cases hrun : x e <;> rw [hrun] at hmove <;> exact hmove

theorem bind_moves {α β : Type} (h : Walking supply r) {x : OpenM α} {f : α → OpenM β}
    (hx : Moves r x) (hf : ∀ a, Moves r (f a)) : Moves r (x >>= f) :=
  Moves.bind (r := r) h.trans hx hf

theorem catalogItem_moves (h : Walking supply r) (entry : RangeEntry) :
    Moves r (catalogItem entry) := by
  unfold catalogItem
  split
  · split
    · exact Moves.pure h.refl _
    · exact bind_moves h (Moves.lift h.refl _) fun _ => Moves.pure h.refl _
  · exact Moves.pure h.refl _

theorem catalogLoop_moves (h : Walking supply r) (fuel : Nat) (it : RangeIter)
    (stage : RangeStage) : Moves r (catalogLoop fuel it stage) := by
  induction fuel generalizing it stage with
  | zero => exact Moves.throw h.refl _
  | succ fuel ih =>
    unfold catalogLoop
    split
    · exact Moves.pure h.refl _
    · exact Moves.throw h.refl _
    · apply bind_moves h (catalogItem_moves h _)
      intro now
      exact bind_moves h (ih _ _) fun _ => Moves.pure h.refl _
    · exact bind_moves h (below_moves (h.step ∅ it _)) fun _ => ih _ _

theorem ensureRoot_steady {g a : BlobGuid} (hne : g ≠ a) :
    Moves (Engine.Steady g) (ensureRoot a) := by
  intro e
  simp only [ensureRoot, sat_bind, sat_get]
  cases hensure : ensureRootBlob e.bm a with
  | error err => exact .throw (.refl e)
  | ok bm =>
    simp only [lift_ok, sat_pure, sat_set]
    exact .ensureRootBlob hne hensure

theorem stageEach_steady {g : BlobGuid} (h : Walking supply (Engine.Steady g)) (fuel seq : Nat)
    (entries : List (TreeName × CatalogEntry)) :
    Moves (Engine.Steady g) (stageEach fuel seq entries) := by
  induction entries with
  | nil => exact h.pure _
  | cons e entries ih =>
    have hstage : ∀ guids, Moves (Engine.Steady g) (stageTreeDeleteGuids guids seq) :=
      fun guids => Moves.update fun e => .markAll guids seq
    have hcollect : Moves (Engine.Steady g) (collectTreeGuids fuel e.2.treeId) := by
      apply h.bind (Moves.get h.refl)
      intro e'
      split
      · exact h.collectBlobGuids fuel _
      · exact h.pure _
    unfold stageEach
    by_cases hdrop : e.2.state = .dropping
    · rw [if_pos hdrop]
      apply h.bind hcollect
      intro guids
      exact h.bind (hstage guids) fun _ => ih
    · rw [if_neg hdrop]
      exact ih

theorem stageDroppedTrees_steady {id : Nat} (hid : UserTreeId id) (names : Names) (fuel seq : Nat) :
    Moves (Engine.Steady (rootGuid id)) (stageDroppedTrees fuel seq) := by
  have h := steady_walking names id 0
  have hne : rootGuid id ≠ rootGuid dbCatalogTreeId := fun heq =>
    hid.2.1 (rootGuid_inj hid.2.2 (by decide) heq)
  have hentries : Moves (Engine.Steady (rootGuid id)) (catalogEntries fuel) := by
    apply bind_moves h (below_moves (ensureRoot_steady hne))
    intro _
    exact bind_moves h (below_moves h.pin) fun _ => catalogLoop_moves h fuel _ _
  exact bind_moves h hentries fun entries => below_moves (stageEach_steady h fuel seq entries)

end Stage

/-! ## A drop that was finished -/

section Finished

variable {names : Names} {fuel : Nat} {wal : List UInt8} {e e' : Engine} {seq : Nat}

theorem openDb_sat {ok : Engine → Prop}
    (hreplay : Sat (replayWal names.trees (fun _ => .ok ()) wal) ⟨e, []⟩
      (fun _ s => ok s.engine) (fun _ _ => True))
    (hstage : ∀ seq e₁, ok e₁ → Sat (stageDroppedTrees fuel seq) e₁ (fun _ e' => ok e')
      (fun _ _ => True)) :
    Sat (openDb names fuel (some wal)) e (fun _ e' => ok e') (fun _ _ => True) := by
  have hlog : Sat (below (replayLog names wal)) e (fun _ e' => ok e') (fun _ _ => True) := by
    unfold Sat at hreplay ⊢
    unfold below replayLog
    cases hrun : replayWal names.trees (fun _ => .ok ()) wal ⟨e, []⟩ with
    | ok out s =>
      rw [hrun] at hreplay
      exact hreplay
    | error err s => trivial
  refine hlog.bind ?_ fun _ _ h => h
  intro nextSeq e₁ h₁
  refine (hstage nextSeq e₁ h₁).bind ?_ fun _ _ h => h
  intro _ e₂ h₂
  exact .pure h₂

/-- A database opens only over a log that can be read. -/
theorem log_of_openDb (h : openDb names fuel (some wal) e = .ok seq e') :
    ∃ header rs, Codec.decodeFileHeader (wal.take Codec.fileHeaderSize) = .ok header ∧
      Log (wal.drop Codec.fileHeaderSize) rs := by
  have hsat : Sat (openDb names fuel (some wal)) e (fun _ _ => ∃ header rs,
      Codec.decodeFileHeader (wal.take Codec.fileHeaderSize) = .ok header ∧
        Log (wal.drop Codec.fileHeaderSize) rs) (fun _ _ => True) := by
    apply openDb_sat
    · unfold replayWal
      refine (log_of_replayBytes _ wal _).bind ?_ fun _ _ h => h
      intro _ _ hlog
      exact .pure hlog
    · intro seq e₁ hlog
      exact (sat_true _ _).imp fun _ _ _ => hlog
  exact hsat.of_ok h

/-- What is left of a tree in the store and in memory. -/
def NoneLeft (e : Engine) (id : Nat) : Prop :=
  ∀ g, e.Reaches (rootGuid id) g → g ∉ e.bm.store ∧ g ∉ e.bm.cache

/-- A dropped tree whose blobs are gone from the store stays gone when the database is opened
again, unless the log still has a record of it: then the replay makes it a new root. -/
theorem drop_stays_finished_iff {store : AList fun _ : BlobGuid => Frame} {drawn id : Nat}
    (hid : UserTreeId id) (hgone : rootGuid id ∉ store) {rs : List Codec.DecodedRecord}
    (hlog : Log (wal.drop Codec.fileHeaderSize) rs)
    (hopen : openDb names fuel (some wal) (crashed store drawn) = .ok seq e') :
    NoneLeft e' id ↔ ∀ op ∈ ops rs, op.1.treeId ≠ some id := by
  obtain ⟨header, -, hheader, -⟩ := log_of_openDb hopen
  have hmet : Met id (ops rs) ↔ ∃ op ∈ ops rs, op.1.treeId = some id := by
    refine exists_congr fun op => and_congr_right fun hop => ?_
    obtain ⟨id', -, hname⟩ := hlog.names op hop
    rw [hname, Option.getD_some, Option.some.injEq]
  have hstart : Recovering id [] ⟨crashed store drawn, []⟩ := by
    refine ⟨fun hmet => ?_, fun _ => ⟨?_, List.not_mem_nil⟩⟩
    · obtain ⟨op, hop, -⟩ := hmet
      exact absurd hop List.not_mem_nil
    · exact BufferManager.view_eq_none_iff.mpr ⟨AList.notMem_empty _, hgone⟩
  have hfinal : (Met id (ops rs) → rootGuid id ∈ e'.bm.store) ∧
      (¬ Met id (ops rs) → e'.bm.view (rootGuid id) = none) := by
    have hsat : Sat (openDb names fuel (some wal)) (crashed store drawn) (fun _ e' =>
        (Met id (ops rs) → rootGuid id ∈ e'.bm.store) ∧
          (¬ Met id (ops rs) → e'.bm.view (rootGuid id) = none)) (fun _ _ => True) := by
      apply openDb_sat
      · apply (replayWal_recovering hid.2.2 hheader hlog hstart).mono
        · intro _ s hs
          exact ⟨hs.met, fun hnot => (hs.unmet hnot).1⟩
        · intro _ _ _
          trivial
      · intro nextSeq e₁ ⟨hmet₁, hunmet₁⟩
        apply (stageDroppedTrees_steady hid names fuel nextSeq e₁).mono
        · intro _ e₂ hsteady
          exact ⟨fun hm => hsteady.store.mpr (hmet₁ hm), fun hnot => hsteady.absent (hunmet₁ hnot)⟩
        · intro _ _ _
          trivial
    exact hsat.of_ok hopen
  constructor
  · intro hnone op hop htree
    exact (hnone _ .root).1 (hfinal.1 (hmet.mpr ⟨op, hop, htree⟩))
  · intro hnot g hreach
    have habsent := hfinal.2 fun hm => by
      obtain ⟨op, hop, htree⟩ := hmet.mp hm
      exact hnot op hop htree
    rw [hreach.of_absent habsent]
    exact (BufferManager.view_eq_none_iff.mp habsent).symm

/-- The catalog's root as it was made, and nothing else. -/
def catalogOnly : AList fun _ : BlobGuid => Frame :=
  match ensureRootBlob .empty (rootGuid dbCatalogTreeId) with
  | .ok bm => bm.store
  | .error _ => ∅

/-- The end of a drop: the catalog forgets the tree. -/
def forgotten : List Codec.LogRecord :=
  [.batch 5 dbCatalogTreeId [.erase dbCatalogTreeId [116]]]

/-- A tree is created under number 1, written to, dropped and forgotten. -/
def wholeLife : List Codec.LogRecord :=
  [.batch 1 dbCatalogTreeId
      [.insert dbCatalogTreeId [116] (encodeCatalogValue ⟨1, .live⟩),
        .insert dbCatalogTreeId catalogNextTreeIdKey (encodeNextTreeId 2)],
    .insert 3 1 [107] [7],
    .batch 4 dbCatalogTreeId
      [.insert dbCatalogTreeId [116] (encodeCatalogValue ⟨1, .dropping⟩)]] ++ forgotten

def logFile (rs : List Codec.LogRecord) : List UInt8 :=
  Codec.encodeFileHeader ⟨0, 0⟩ ++ rs.flatMap Codec.LogRecord.encode

theorem drop_stays_finished_truncated :
    ∃ seq e', openDb .counting 64 (some (logFile forgotten)) (crashed catalogOnly 0) = .ok seq e' ∧
      NoneLeft e' 1 := by
  have hrun : (match openDb .counting 64 (some (logFile forgotten)) (crashed catalogOnly 0) with
      | .ok _ _ => true
      | .error _ _ => false) = true := by decide +kernel
  split at hrun
  · rename_i seq e' hopen
    have hlog : Log ((logFile forgotten).drop Codec.fileHeaderSize)
        (forgotten.map Codec.LogRecord.decoded) := by
      rw [logFile, List.drop_left' (Codec.length_encodeFileHeader _)]
      exact log_whole (by decide)
    have hid : UserTreeId 1 := ⟨by decide, by decide, by decide⟩
    have hgone : rootGuid 1 ∉ catalogOnly := by decide +kernel
    exact ⟨seq, e', hopen, (drop_stays_finished_iff hid hgone hlog hopen).mpr (by decide)⟩
  · cases hrun

/-- The replay meets a record of the tree before it meets the end of the drop, and makes the tree a
root that nothing deletes again. -/
theorem finished_drop_undone :
    ∃ seq e', openDb .counting 64 (some (logFile wholeLife)) (crashed catalogOnly 0) = .ok seq e' ∧
      rootGuid 1 ∉ catalogOnly ∧ rootGuid 1 ∈ e'.bm.store ∧ e'.bm.hasBlob (rootGuid 1) = true ∧
      ¬ NoneLeft e' 1 := by
  have hrun : (match openDb .counting 64 (some (logFile wholeLife)) (crashed catalogOnly 0) with
      | .ok _ e' => decide (rootGuid 1 ∈ e'.bm.store) && e'.bm.hasBlob (rootGuid 1)
      | .error _ _ => false) = true := by decide +kernel
  split at hrun
  · rename_i seq e' hopen
    obtain ⟨hstore, hblob⟩ := Bool.and_eq_true_iff.mp hrun
    have hmem := of_decide_eq_true hstore
    exact ⟨seq, e', hopen, by decide +kernel, hmem, hblob, fun hnone => (hnone _ .root).1 hmem⟩
  · cases hrun

end Finished

end Holt.Reopen
