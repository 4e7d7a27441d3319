import Holt.Database.Catalog
import Holt.Lib.Machine

/-! The calls that open, create, drop and list the named trees of a database, and the checkpoint
that completes a drop. Creating and dropping hold the maintenance gate from beginning to end;
opening holds no gate, so its reads and inserts are steps of their own. -/

namespace Holt.Database

open Holt.Lib

/-- A handle on a tree: its number and the runtime state it shares with other handles. -/
structure Handle where
  treeId : Nat
  runtime : Nat
  deriving DecidableEq, Repr

/-- `cache` and `trees` are `catalog_cache` and the table of open trees. A runtime is a number;
`dropped` are the flags of the runtimes. The blobs of a tree are taken as one: `stored` if its
root is in the blob store, `pending` if they wait to be deleted from it. -/
structure Db where
  catalog : Catalog
  cache : TreeName → Option CatalogEntry
  trees : Nat → Option Nat
  runtimes : Nat
  dropped : Nat → Bool
  stored : Nat → Bool
  pending : List Nat

abbrev DbM := EStateM DbError Db

namespace Db

def entry (db : Db) (name : TreeName) : Option CatalogEntry := db.catalog.entry name

def hasBlob (db : Db) (treeId : Nat) : Bool := !db.pending.contains treeId && db.stored treeId

def ensureRootBlob (db : Db) (treeId : Nat) : Db :=
  if db.hasBlob treeId then db
  else { db with stored := Function.update db.stored treeId true }

def cacheInsert (db : Db) (name : TreeName) (entry : CatalogEntry) : Db :=
  { db with cache := Function.update db.cache name (some entry) }

def markRuntimeDropped (db : Db) (treeId : Nat) : Db :=
  match db.trees treeId with
  | some runtime => { db with dropped := Function.update db.dropped runtime true }
  | none => db

/-- Collect the blobs of a tree, if its root is there. -/
def collectTreeGuids (db : Db) (treeId : Nat) : List Nat :=
  if db.hasBlob treeId then [treeId] else []

def stageTreeDeleteGuids (db : Db) (guids : List Nat) : Db :=
  { db with pending := db.pending ++ guids }

/-- The tree gets a root, if it has none, and a runtime. -/
def insertOpenTree (db : Db) (treeId : Nat) : Db :=
  let db := db.ensureRootBlob treeId
  { db with
    trees := Function.update db.trees treeId (some db.runtimes)
    dropped := Function.update db.dropped db.runtimes false
    runtimes := db.runtimes + 1 }

/-- The batch of `create_tree`, and its entry in the cache. -/
def recordLive (db : Db) (name : TreeName) (treeId next : Nat) : Db :=
  let entry : CatalogEntry := ⟨treeId, .live⟩
  let catalog := (db.catalog.put name (encodeCatalogValue entry)).put catalogNextTreeIdKey
    (encodeNextTreeId next)
  { db with catalog }.cacheInsert name entry

/-- The batch of `drop_tree`, and its entry in the cache. -/
def recordDropping (db : Db) (name : TreeName) (treeId : Nat) : Db :=
  let entry : CatalogEntry := ⟨treeId, .dropping⟩
  { db with catalog := db.catalog.put name (encodeCatalogValue entry) }.cacheInsert name entry

end Db

/-! ## Single steps -/

/-- Every write of a handle begins with this, inside the maintenance gate. -/
def ensureLive (handle : Handle) : DbM Unit := do
  let db ← get
  if db.dropped handle.runtime then throw .treeDropped else pure ()

/-- Read an entry from the catalog tree. -/
def readCatalog (name : TreeName) : DbM (Option CatalogEntry) := do
  let db ← get
  match db.catalog.get name with
  | none => pure none
  | some value => some <$> lift (decodeCatalogValue value)

def openTreeState (treeId : Nat) : DbM Nat := do
  let db ← get
  match db.trees treeId with
  | some runtime => if db.dropped runtime then throw .treeDropped else pure runtime
  | none => do
    set (db.insertOpenTree treeId)
    pure db.runtimes

/-- The handle pins its root. -/
def treeFromState (treeId runtime : Nat) : DbM Handle := do
  let db ← get
  if db.hasBlob treeId then pure ⟨treeId, runtime⟩
  else throw (.engine (.blobStoreIo .notFound))

def catalogEntry (name : TreeName) : DbM (Option CatalogEntry) := do
  let db ← get
  match db.cache name with
  | some entry => pure (some entry)
  | none => do
    let entry ← readCatalog name
    match entry with
    | some entry => modify fun db => db.cacheInsert name entry
    | none => pure ()
    pure entry

/-! ## Sections of the maintenance gate -/

section Gate

-- What the catalog tree says to a new key: it may be refused, as by any tree.
variable (refuses : Catalog → TreeName → Option Error)

def createTree (name : TreeName) : DbM Handle := do
  let entry ← catalogEntry name
  if entry.isSome then throw (.treeExists name)
  else do
    let db ← get
    let treeId ← lift db.catalog.nextTreeId
    let next ← lift (nextAllocatedTreeId treeId)
    match refuses db.catalog name with
    | some err => throw (.engine err)
    | none => do
      modify fun db => db.recordLive name treeId next
      let runtime ← openTreeState treeId
      treeFromState treeId runtime

def dropTree (name : TreeName) : DbM Unit := do
  let entry ← catalogEntry name
  match entry with
  | some ⟨treeId, .live⟩ => do
    let db ← get
    let guids := db.collectTreeGuids treeId
    modify fun db => db.recordDropping name treeId
    modify fun db => db.markRuntimeDropped treeId
    modify fun db => db.stageTreeDeleteGuids guids
  | _ => throw (.treeNotFound name)

/-- One turn of the loop of `stage_dropped_trees`. -/
def stageDroppedTree (entry : CatalogEntry) (db : Db) : Db :=
  let db := db.markRuntimeDropped entry.treeId
  db.stageTreeDeleteGuids (db.collectTreeGuids entry.treeId)

/-- The part of a checkpoint that all trees share: what waits to be deleted is deleted. -/
def checkpointSharedParts (db : Db) : Db :=
  { db with stored := fun id => db.stored id && !db.pending.contains id, pending := [] }

/-- The end of `finalize_dropped_trees`, for the trees it chose before it had the gate. -/
def finalizeDroppedTrees (chosen : List (TreeName × CatalogEntry)) (db : Db) : Db :=
  { db with
    catalog := chosen.foldl (fun c e => c.delete e.1) db.catalog
    cache := fun name => if name ∈ chosen.map Prod.fst then none else db.cache name
    trees := fun id => if id ∈ chosen.map (·.2.treeId) then none else db.trees id }

end Gate

/-! ## Calls that nothing interrupts -/

def catalogLookupLive (name : TreeName) : DbM (Option Nat) := do
  let entry ← catalogEntry name
  match entry with
  | some ⟨treeId, .live⟩ => pure (some treeId)
  | _ => pure none

def openTree (name : TreeName) : DbM Handle := do
  lift (validateTreeName name)
  let found ← catalogLookupLive name
  match found with
  | none => throw (.treeNotFound name)
  | some treeId => do
    let runtime ← openTreeState treeId
    treeFromState treeId runtime

def decodeRecord (record : List UInt8 × List UInt8) : Except DbError (TreeName × CatalogEntry) :=
  (decodeCatalogValue record.2).map fun entry => (record.1, entry)

def catalogEntries : DbM (List (TreeName × CatalogEntry)) := do
  let db ← get
  let found ← lift ((db.catalog.records.filter (·.1 ≠ catalogNextTreeIdKey)).mapM decodeRecord)
  modify fun db => found.foldl (fun db e => db.cacheInsert e.1 e.2) db
  pure found

def liveNames (found : List (TreeName × CatalogEntry)) : List TreeName :=
  (found.filter (·.2.state = .live)).map Prod.fst

def listTrees : DbM (List TreeName) := liveNames <$> catalogEntries

/-! ## Calls in steps -/

inductive Request
  | openTree (name : TreeName)
  | openOrCreateTree (name : TreeName)
  | createTree (name : TreeName)
  | dropTree (name : TreeName)
  | listTrees
  | checkpoint
  deriving DecidableEq, Repr

/-- What the entries of a scan are wanted for. -/
inductive Purpose
  | list
  | stage
  | finalize
  deriving DecidableEq, Repr

/-- How far a call has come. The entries in it were read in earlier steps. An `orCreate` call that
finds no tree goes on to create it. -/
inductive Pc
  | idle
  | lookup (name : TreeName) (orCreate : Bool)
  | read (name : TreeName) (orCreate : Bool)
  | fill (name : TreeName) (orCreate : Bool) (entry : CatalogEntry)
  | state (name : TreeName) (treeId : Nat)
  | pin (name : TreeName) (treeId runtime : Nat)
  | create (name : TreeName) (orOpen : Bool)
  | drop (name : TreeName)
  | scan (purpose : Purpose) (cursor : Option TreeName) (found : List (TreeName × CatalogEntry))
  | note (purpose : Purpose) (name : TreeName) (entry : CatalogEntry)
      (found : List (TreeName × CatalogEntry))
  | stage (todo : List (TreeName × CatalogEntry))
  | flush
  | count
  | choose (todo chosen : List (TreeName × CatalogEntry))
  | finalize (chosen : List (TreeName × CatalogEntry))
  | flushAgain
  deriving DecidableEq, Repr

/-- `handles` are all handles given out so far, under the name that was asked for. `gone` are the
names whose last successful `drop_tree` came after their last successful `create_tree`. -/
structure World where
  db : Db
  calls : Nat → Pc
  handles : List (TreeName × Handle)
  gone : TreeName → Bool

inductive Action
  | begin (thread : Nat) (request : Request)
  | move (thread : Nat)
  /-- The store fails a flush. -/
  | fail (thread : Nat)
  deriving DecidableEq, Repr

def Action.thread : Action → Nat
  | .begin t _ => t
  | .move t => t
  | .fail t => t

/-- A call with a name that is not allowed ends at once. -/
def named (name : TreeName) (pc : Pc) : Pc :=
  match validateTreeName name with
  | .ok () => pc
  | .error _ => .idle

def Request.start : Request → Pc
  | .openTree name => named name (.lookup name false)
  | .openOrCreateTree name => named name (.lookup name true)
  | .createTree name => named name (.create name false)
  | .dropTree name => named name (.drop name)
  | .listTrees => .scan .list none []
  | .checkpoint => .scan .stage none []

def missing (name : TreeName) (orCreate : Bool) : Pc :=
  if orCreate then .create name true else .idle

/-- Where an opening call goes with the entry it has. -/
def resolve (name : TreeName) (orCreate : Bool) (entry : CatalogEntry) : Pc :=
  match entry.state with
  | .live => .state name entry.treeId
  | .dropping => missing name orCreate

def scanned (found : List (TreeName × CatalogEntry)) : Purpose → Pc
  | .list => .idle
  | .stage => .stage (found.filter (·.2.state = .dropping))
  | .finalize => .choose found []

namespace World

def goto (w : World) (t : Nat) (pc : Pc) : World := { w with calls := Function.update w.calls t pc }

/-- Thread `t` runs a program on the database and goes on from its answer. -/
def run {α : Type} (w : World) (t : Nat) (x : DbM α) (ok : α → World → World)
    (err : DbError → Pc) : World :=
  match x w.db with
  | .ok a db => ok a { w with db }
  | .error e db => { w with db }.goto t (err e)

def give (w : World) (name : TreeName) (handle : Handle) : World :=
  { w with handles := (name, handle) :: w.handles }

def setGone (w : World) (name : TreeName) (b : Bool) : World :=
  { w with gone := Function.update w.gone name b }

def onDb (w : World) (f : Db → Db) : World := { w with db := f w.db }

/-- One step of the call of thread `t`. -/
def move (refuses : Catalog → TreeName → Option Error) (w : World) (t : Nat) : Option World :=
  match w.calls t with
  | .idle => none
  | .lookup name orCreate =>
    some (w.goto t (match w.db.cache name with
      | some entry => resolve name orCreate entry
      | none => .read name orCreate))
  | .read name orCreate =>
    some (w.run t (readCatalog name)
      (fun entry w => w.goto t (match entry with
        | some entry => .fill name orCreate entry
        | none => missing name orCreate))
      fun _ => .idle)
  | .fill name orCreate entry =>
    some ((w.onDb (·.cacheInsert name entry)).goto t (resolve name orCreate entry))
  | .state name treeId =>
    some (w.run t (openTreeState treeId) (fun runtime w => w.goto t (.pin name treeId runtime))
      fun _ => .idle)
  | .pin name treeId runtime =>
    some (w.run t (treeFromState treeId runtime) (fun handle w => (w.give name handle).goto t .idle)
      fun _ => .idle)
  | .create name orOpen =>
    some (w.run t (createTree refuses name)
      (fun handle w => ((w.give name handle).setGone name false).goto t .idle)
      fun
        | .treeExists _ => if orOpen then .lookup name false else .idle
        | _ => .idle)
  | .drop name =>
    some (w.run t (dropTree name) (fun _ w => (w.setGone name true).goto t .idle) fun _ => .idle)
  | .scan purpose cursor found =>
    some (w.goto t (match w.db.catalog.next cursor with
      | none => scanned found purpose
      | some (key, value) =>
        if key = catalogNextTreeIdKey then .scan purpose (some key) found
        else
          match decodeCatalogValue value with
          | .ok entry => .note purpose key entry found
          | .error _ => .idle))
  | .note purpose name entry found =>
    some ((w.onDb (·.cacheInsert name entry)).goto t
      (.scan purpose (some name) (found ++ [(name, entry)])))
  | .stage [] => some (w.goto t .flush)
  | .stage ((_, entry) :: todo) => some ((w.onDb (stageDroppedTree entry)).goto t (.stage todo))
  | .flush => some ((w.onDb checkpointSharedParts).goto t .count)
  | .count => some (w.goto t (if w.db.pending = [] then .scan .finalize none [] else .idle))
  | .choose [] chosen => some (w.goto t (if chosen = [] then .idle else .finalize chosen))
  | .choose ((name, entry) :: todo) chosen =>
    some (w.goto t (if entry.state = .dropping ∧ w.db.stored entry.treeId = false then
      .choose todo (chosen ++ [(name, entry)]) else .choose todo chosen))
  | .finalize chosen => some ((w.onDb (finalizeDroppedTrees chosen)).goto t .flushAgain)
  | .flushAgain => some ((w.onDb checkpointSharedParts).goto t .idle)

def step (refuses : Catalog → TreeName → Option Error) (w : World) : Action → Option World
  | .begin t request => if w.calls t = .idle then some (w.goto t request.start) else none
  | .move t => w.move refuses t
  | .fail t =>
    if w.calls t = .flush ∨ w.calls t = .flushAgain then some (w.goto t .idle) else none

end World

/-- What `DB::open` leaves when it returns: every entry is in the cache, no tree is open, and the
trees that are being dropped are staged. -/
def Db.opened (catalog : Catalog) (stored : Nat → Bool) : Db where
  catalog := catalog
  cache := catalog.entry
  trees := fun _ => none
  runtimes := 0
  dropped := fun _ => false
  stored := stored
  pending := catalog.records.filterMap fun record =>
    match decodeCatalogValue record.2 with
    | .ok ⟨treeId, .dropping⟩ => if stored treeId then some treeId else none
    | _ => none

def World.opened (catalog : Catalog) (stored : Nat → Bool) : World :=
  ⟨.opened catalog stored, fun _ => .idle, [], fun _ => false⟩

end Holt.Database
