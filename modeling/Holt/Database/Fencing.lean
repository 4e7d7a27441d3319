import Holt.Database.Invariant

/-! What the calls do to the database, and what holds in every state that their steps reach as
long as a tree is taken out of the catalog only while no other call still holds its entry. -/

namespace Holt.Database

open Holt.Lib

section Programs

variable {db : Db} {name : TreeName} {e : CatalogEntry} {id : Nat}

/-- Where the answer of `catalog_entry` comes from. -/
inductive Db.Finds (db : Db) (name : TreeName) : Option CatalogEntry → Db → Prop
  | hit {e : CatalogEntry} (h : db.cache name = some e) : db.Finds name (some e) db
  | found {e : CatalogEntry} (h : db.entry name = some e) :
      db.Finds name (some e) (db.cacheInsert name e)
  | absent (h : db.entry name = none) : db.Finds name none db

theorem readCatalog_sat (db : Db) (name : TreeName) :
    Sat (readCatalog name) db (fun o db' => db' = db ∧ o = db.entry name)
      fun _ db' => db' = db := by
  unfold readCatalog
  simp only [sat_bind, sat_get, Db.entry, Catalog.entry]
  cases db.catalog.get name with
  | none => simp
  | some value =>
    cases hd : decodeCatalogValue value with
    | ok e => simp [hd, Except.toOption]
    | error err => simp [hd]

theorem catalogEntry_sat (db : Db) (name : TreeName) :
    Sat (catalogEntry name) db (fun o db' => db.Finds name o db') fun _ db' => db' = db := by
  unfold catalogEntry
  simp only [sat_bind, sat_get]
  cases hc : db.cache name with
  | some e =>
    simp only [sat_pure]
    exact .hit hc
  | none =>
    simp only [sat_bind]
    apply (readCatalog_sat db name).mono
    · rintro o db' ⟨rfl, ho⟩
      cases o with
      | none =>
        simp only [sat_pure]
        exact .absent ho.symm
      | some e =>
        simp only [sat_bind, sat_modify, sat_pure]
        exact .found ho.symm
    · rintro _ db' rfl
      rfl

theorem openTreeState_sat (db : Db) (id : Nat) :
    Sat (openTreeState id) db
      (fun rt db' => (db' = db ∧ db.trees id = some rt ∧ db.dropped rt = false) ∨
        (db' = db.insertOpenTree id ∧ db.trees id = none ∧ rt = db.runtimes))
      fun err db' => db' = db ∧ ∃ rt, db.trees id = some rt ∧ db.dropped rt = true ∧
        err = .treeDropped := by
  unfold openTreeState
  simp only [sat_bind, sat_get]
  cases ht : db.trees id with
  | some rt =>
    cases hd : db.dropped rt <;> simp [hd]
  | none => simp

theorem treeFromState_sat (db : Db) (id rt : Nat) :
    Sat (treeFromState id rt) db (fun handle db' => db' = db ∧ handle = ⟨id, rt⟩ ∧ db.hasBlob id)
      fun _ db' => db' = db ∧ db.hasBlob id = false := by
  unfold treeFromState
  simp only [sat_bind, sat_get]
  cases h : db.hasBlob id <;> simp

/-- A failed creation at most brings the entry of the name into the cache. -/
theorem createTree_sat {refuses : Catalog → TreeName → Option Error} (h : db.Inv)
    (hname : validateTreeName name = .ok ()) :
    Sat (createTree refuses name) db
      (fun handle db' => handle = ⟨db.catalog.limit, db.runtimes⟩ ∧ db.entry name = none ∧
        ∃ next, nextAllocatedTreeId db.catalog.limit = .ok next ∧
          db' = (db.recordLive name db.catalog.limit next).insertOpenTree db.catalog.limit)
      fun _ db' => db' = db ∨ ∃ e, db.entry name = some e ∧ db' = db.cacheInsert name e := by
  unfold createTree
  apply (catalogEntry_sat db name).bind
  · intro o db' ho
    cases ho with
    | hit hc =>
      simp only [Option.isSome_some, if_true]
      exact .throw (Or.inl rfl)
    | found he =>
      simp only [Option.isSome_some, if_true]
      exact .throw (Or.inr ⟨_, he, rfl⟩)
    | absent hnone =>
      simp only [Option.isSome_none, Bool.false_eq_true, if_false, sat_bind, sat_get, h.sound.next,
        lift_ok, sat_pure]
      cases hnext : nextAllocatedTreeId db.catalog.limit with
      | error err =>
        rw [lift_error]
        exact .throw (Or.inl rfl)
      | ok next =>
        simp only [lift_ok, sat_pure]
        cases refuses db.catalog name with
        | some err =>
          exact .throw (Or.inl rfl)
        | none =>
          simp only [sat_bind, sat_modify]
          have hi := h.recordLive hname hnone hnext
          have hlive : (db.recordLive name db.catalog.limit next).entry name =
              some ⟨db.catalog.limit, .live⟩ := by
            rw [Db.entry_recordLive h hname hnext, if_pos rfl]
          have htrees :
              (db.recordLive name db.catalog.limit next).trees db.catalog.limit = none := by
            cases ht : db.trees db.catalog.limit with
            | none => exact ht
            | some rt => exact absurd (h.numbered ht).1 (lt_irrefl _)
          -- The number is new, so its tree is neither open nor staged, and gets a root.
          have hblob : ((db.recordLive name db.catalog.limit next).insertOpenTree
              db.catalog.limit).hasBlob db.catalog.limit = true := by
            rw [Db.insertOpenTree_eq]
            simp [Db.hasBlob, (hi.live hlive).1]
          apply (openTreeState_sat _ _).mono
          · rintro rt db' (⟨-, ht, -⟩ | ⟨rfl, -, rfl⟩)
            · cases htrees.symm.trans ht
            · apply (treeFromState_sat _ _ _).mono
              · rintro handle db' ⟨rfl, rfl, -⟩
                exact ⟨rfl, hnone, next, rfl, rfl⟩
              · rintro _ db' ⟨-, hno⟩
                cases hblob.symm.trans hno
          · rintro _ _ ⟨-, rt, ht, -⟩
            cases htrees.symm.trans ht
  · rintro _ db' rfl
    exact Or.inl rfl

/-- A drop goes by the entry of the cache, which is filled first if need be; it puts another one
there. -/
theorem dropTree_sat (db : Db) (name : TreeName) :
    Sat (dropTree name) db
      (fun _ db' => ∃ id,
        (db.cache name = some ⟨id, .live⟩ ∨ db.entry name = some ⟨id, .live⟩) ∧
        db' = ((db.recordDropping name id).markRuntimeDropped id).stageTreeDeleteGuids
          (db.collectTreeGuids id))
      fun _ db' => db' = db ∨ ∃ e, db.entry name = some e ∧ db' = db.cacheInsert name e := by
  unfold dropTree
  apply (catalogEntry_sat db name).bind
  · intro o db' ho
    cases ho with
    | @hit e hc =>
      cases e with
      | mk id state =>
        cases state with
        | live =>
          simp only [sat_bind, sat_get, sat_modify]
          exact ⟨id, Or.inl hc, rfl⟩
        | dropping =>
          exact .throw (Or.inl rfl)
    | @found e he =>
      cases e with
      | mk id state =>
        cases state with
        | live =>
          have hsame : (db.cacheInsert name ⟨id, .live⟩).recordDropping name id =
              db.recordDropping name id := by
            simp [Db.recordDropping, Db.cacheInsert]
          simp only [sat_bind, sat_get, sat_modify]
          exact ⟨id, Or.inr he, by rw [hsame]; rfl⟩
        | dropping =>
          exact .throw (Or.inr ⟨_, he, rfl⟩)
    | absent _ =>
      exact .throw (Or.inl rfl)
  · rintro _ db' rfl
    exact Or.inl rfl

end Programs

/-! ## What calls hold between their steps -/

namespace Pc

/-- The entry that a call is about to put into the cache or to open the tree of. -/
def carried : Pc → Option (TreeName × CatalogEntry)
  | .fill name _ entry => some (name, entry)
  | .state name treeId => some (name, ⟨treeId, .live⟩)
  | .note _ name entry _ => some (name, entry)
  | _ => none

/-- The entries that a call keeps from a scan. -/
def kept : Pc → List (TreeName × CatalogEntry)
  | .scan _ _ found => found
  | .note _ _ _ found => found
  | .stage todo => todo
  | .choose todo chosen => todo ++ chosen
  | .finalize chosen => chosen
  | _ => []

def readings (pc : Pc) : List (TreeName × CatalogEntry) := pc.carried.toList ++ pc.kept

/-- The entries that a call keeps because they were being dropped. -/
def picked : Pc → List (TreeName × CatalogEntry)
  | .stage todo => todo
  | .choose _ chosen => chosen
  | .finalize chosen => chosen
  | _ => []

/-- The name a call was made with. -/
def asks : Pc → Option TreeName
  | .lookup name _ => some name
  | .read name _ => some name
  | .fill name _ _ => some name
  | .create name _ => some name
  | .drop name => some name
  | _ => none

/-- What a call goes on with, it had before or has just read. -/
structure Follows (db : Db) (new old : Pc) : Prop where
  carried : ∀ {n e}, new.carried = some (n, e) →
    old.carried = some (n, e) ∨ db.cache n = some e ∨ db.entry n = some e
  kept : ∀ {n e}, (n, e) ∈ new.kept → (n, e) ∈ old.readings
  picked : ∀ {n e}, (n, e) ∈ new.picked → (n, e) ∈ old.picked ∨ e.state = .dropping
  asks : ∀ {n}, new.asks = some n → old.asks = some n
  pins : ∀ {n id rt}, new = .pin n id rt → old = .state n id ∧ db.trees id = some rt
  undropping : ∀ n, new ≠ .drop n

end Pc

attribute [local simp] Pc.carried Pc.kept Pc.readings Pc.picked Pc.asks

namespace Pc.Follows

variable {db : Db} {old : Pc} {name : TreeName}

theorem idle : Follows db .idle old := by
  constructor <;> simp

theorem missing (hname : old.asks = some name) (orCreate : Bool) :
    Follows db (missing name orCreate) old := by
  cases orCreate
  · exact idle
  · constructor <;> simp [Database.missing]
    exact hname

theorem resolve {e : CatalogEntry} (hname : old.asks = some name)
    (he : old.carried = some (name, e) ∨ db.cache name = some e ∨ db.entry name = some e)
    (orCreate : Bool) : Follows db (resolve name orCreate e) old := by
  cases e with
  | mk id state =>
    cases state with
    | dropping => exact missing hname orCreate
    | live =>
      constructor <;> simp [Database.resolve]
      exact he

theorem scanned {purpose : Purpose} {cursor : Option TreeName}
    {found : List (TreeName × CatalogEntry)} :
    Follows db (scanned found purpose) (.scan purpose cursor found) := by
  cases purpose <;> constructor <;> simp +contextual [Database.scanned]

end Pc.Follows

/-- When a call takes trees out of the catalog, no other call holds an entry of one of them. -/
def FinalizesAlone (w : World) (a : Action) : Prop :=
  ∀ t chosen, a = .move t → w.calls t = .finalize chosen →
    ∀ u, u ≠ t → ∀ n ∈ chosen.map Prod.fst, n ∉ (w.calls u).readings.map Prod.fst

/-- When a tree is dropped, no call is about to put an entry of it into the cache or to open it. -/
def DropsAlone (w : World) (a : Action) : Prop :=
  ∀ t n, a = .move t → w.calls t = .drop n →
    ∀ u e, (w.calls u).carried ≠ some (n, e)

namespace World

variable {w w' : World} {t : Nat} {pc : Pc} {db' : Db}

structure Inv (w : World) : Prop where
  db : w.db.Inv
  held : ∀ {t n e}, (n, e) ∈ (w.calls t).readings → w.db.Holds n e
  picked : ∀ {t n e}, (n, e) ∈ (w.calls t).picked → e.state = .dropping
  asks : ∀ {t n}, (w.calls t).asks = some n → validateTreeName n = .ok ()

theorem Inv.opened {c : Catalog} (h : c.Sound) (stored : Nat → Bool) :
    (World.opened c stored).Inv where
  db := .opened h stored
  held hr := by cases hr
  picked hr := by cases hr
  asks ha := by cases ha

/-- What a program of thread `t` may leave, and where it may go on. -/
theorem run_sat {α : Type} {x : DbM α} {ok : α → World → World} {err : DbError → Pc}
    {okP : α → Db → Prop} {errP : DbError → Db → Prop} {p : World → Prop}
    (h : Sat x w.db okP errP) (hok : ∀ a db, okP a db → p (ok a { w with db }))
    (herr : ∀ e db, errP e db → p ({ w with db }.goto t (err e))) : p (w.run t x ok err) := by
  unfold Sat at h
  unfold World.run
  cases hx : x w.db with
  | ok a db =>
    rw [hx] at h
    exact hok a db h
  | error e db =>
    rw [hx] at h
    exact herr e db h

theorem Inv.goto (h : w.Inv) (hheld : ∀ {n e}, (n, e) ∈ pc.readings → w.db.Holds n e)
    (hpicked : ∀ {n e}, (n, e) ∈ pc.picked → e.state = .dropping)
    (hasks : ∀ {n}, pc.asks = some n → validateTreeName n = .ok ()) : (w.goto t pc).Inv where
  db := h.db
  held := by
    intro u n e hr
    simp only [World.goto, Function.update_apply] at hr
    split at hr
    · exact hheld hr
    · exact h.held hr
  picked := by
    intro u n e hr
    simp only [World.goto, Function.update_apply] at hr
    split at hr
    · exact hpicked hr
    · exact h.picked hr
  asks := by
    intro u n ha
    simp only [World.goto, Function.update_apply] at ha
    split at ha
    · exact hasks ha
    · exact h.asks ha

/-- A call that holds nothing and was made with no name. -/
theorem Inv.rest (h : w.Inv) (hreadings : pc.readings = []) (hpicked : pc.picked = [])
    (hasks : pc.asks = none) : (w.goto t pc).Inv :=
  h.goto (fun hr => by rw [hreadings] at hr; cases hr) (fun hr => by rw [hpicked] at hr; cases hr)
    fun ha => by rw [hasks] at ha; cases ha

theorem Inv.idle (h : w.Inv) : (w.goto t .idle).Inv := h.rest rfl rfl rfl

theorem Inv.changeDb (h : w.Inv) (hdb : db'.Inv)
    (hheld : ∀ {t n e}, (n, e) ∈ (w.calls t).readings → db'.Holds n e) :
    { w with db := db' }.Inv where
  db := hdb
  held := hheld
  picked hr := h.picked hr
  asks ha := h.asks ha

/-- A step that takes no tree out of the catalog. -/
theorem Inv.setDb (h : w.Inv) (hdb : db'.Inv)
    (hmono : ∀ {n e}, w.db.Holds n e → db'.Holds n e) : { w with db := db' }.Inv :=
  h.changeDb hdb fun hr => hmono (h.held hr)

theorem Inv.give (h : w.Inv) (name : TreeName) (handle : Handle) : (w.give name handle).Inv :=
  ⟨h.db, h.held, h.picked, h.asks⟩

theorem Inv.setGone (h : w.Inv) (name : TreeName) (b : Bool) : (w.setGone name b).Inv :=
  ⟨h.db, h.held, h.picked, h.asks⟩

theorem Inv.start (h : w.Inv) (request : Request) : (w.goto t request.start).Inv := by
  have hnamed : ∀ name pc, pc.readings = [] → pc.picked = [] → pc.asks = some name →
      (w.goto t (named name pc)).Inv := by
    intro name pc hr hp ha
    unfold named
    cases hv : validateTreeName name with
    | error err => exact h.idle
    | ok u =>
      apply h.goto
      · intro n e hm
        rw [hr] at hm
        cases hm
      · intro n e hm
        rw [hp] at hm
        cases hm
      · intro n hn
        cases ha.symm.trans hn
        exact hv
  cases request with
  | openTree name => exact hnamed name _ rfl rfl rfl
  | openOrCreateTree name => exact hnamed name _ rfl rfl rfl
  | createTree name => exact hnamed name _ rfl rfl rfl
  | dropTree name => exact hnamed name _ rfl rfl rfl
  | listTrees => exact h.rest rfl rfl rfl
  | checkpoint => exact h.rest rfl rfl rfl

/-- An entry that a call brings into the cache. -/
theorem Inv.cacheInsert (h : w.Inv) {name : TreeName} {e : CatalogEntry}
    (he : w.db.Holds name e) : { w with db := w.db.cacheInsert name e }.Inv :=
  h.setDb (h.db.cacheInsert he) id

theorem Inv.created (h : w.Inv) {name : TreeName} (hname : validateTreeName name = .ok ())
    (hnone : w.db.entry name = none) {next : Nat}
    (hnext : nextAllocatedTreeId w.db.catalog.limit = .ok next) :
    { w with
      db := ((w.db.recordLive name w.db.catalog.limit next).insertOpenTree w.db.catalog.limit)
    }.Inv := by
  have hlive := h.db.recordLive hname hnone hnext
  have hentry := Db.entry_recordLive h.db hname hnext
  have hlow : w.db.catalog.limit <
      (w.db.recordLive name w.db.catalog.limit next).catalog.limit :=
    hlive.sound.below ((hentry name).trans (if_pos rfl))
  apply h.setDb (hlive.insertOpenTree hlow)
  rintro n e ⟨e', he', ho⟩
  have hn : n ≠ name := by
    rintro rfl
    cases hnone.symm.trans he'
  refine ⟨e', ?_, ho⟩
  rw [Db.insertOpenTree_eq]
  exact (hentry n).trans ((if_neg hn).trans he')

theorem Inv.dropped (h : w.Inv) {name : TreeName} {id : Nat} {guids : List Nat}
    (hh : w.db.Holds name ⟨id, .live⟩) (hguids : ∀ g ∈ guids, g = id) :
    { w with
      db := (((w.db.recordDropping name id).markRuntimeDropped id).stageTreeDeleteGuids guids)
    }.Inv := by
  have hentry : (w.db.recordDropping name id).entry name = some ⟨id, .dropping⟩ := by
    rw [Db.entry_recordDropping h.db hh, if_pos rfl]
  apply h.setDb ((h.db.recordDropping hh).fence hentry hguids)
  intro n e hold
  obtain ⟨e', he', ho⟩ := Db.Holds.recordDropping h.db hh hold
  refine ⟨e', ?_, ho⟩
  rw [Db.entry, Db.stageTreeDeleteGuids, Db.markRuntimeDropped_catalog]
  exact he'

theorem Inv.stageDroppedTree (h : w.Inv) {name : TreeName} {e : CatalogEntry}
    (he : w.db.Holds name e) (hs : e.state = .dropping) :
    { w with db := Holt.Database.stageDroppedTree e w.db }.Inv := by
  cases e with
  | mk id state =>
    cases hs
    apply h.setDb (h.db.stageDroppedTree he.dropping)
    rintro n e' ⟨e'', he'', ho⟩
    refine ⟨e'', ?_, ho⟩
    rw [Db.entry, Holt.Database.stageDroppedTree, Db.stageTreeDeleteGuids,
      Db.markRuntimeDropped_catalog]
    exact he''

/-- What a call has chosen to take out is still being dropped. -/
theorem Inv.chosen (h : w.Inv) {chosen : List (TreeName × CatalogEntry)}
    (hpc : w.calls t = .finalize chosen) {n : TreeName} {e : CatalogEntry}
    (hmem : (n, e) ∈ chosen) : w.db.entry n = some ⟨e.treeId, .dropping⟩ := by
  have hheld : w.db.Holds n e := h.held (t := t) (by rw [hpc]; exact hmem)
  have hs : e.state = .dropping := h.picked (t := t) (by rw [hpc]; exact hmem)
  cases e with
  | mk id state =>
    cases hs
    exact hheld.dropping

/-- The entries of the call that takes trees out go with it; the others hold none of them. -/
theorem Inv.finalized (h : w.Inv) {chosen : List (TreeName × CatalogEntry)}
    (hpc : w.calls t = .finalize chosen)
    (halone : ∀ u, u ≠ t → ∀ n ∈ chosen.map Prod.fst, n ∉ (w.calls u).readings.map Prod.fst) :
    ({ w with db := finalizeDroppedTrees chosen w.db }.goto t .flushAgain).Inv := by
  have hrest : (w.goto t .flushAgain).Inv := h.rest rfl rfl rfl
  apply hrest.changeDb (h.db.finalizeDroppedTrees fun hmem => h.chosen hpc hmem)
  intro u n e hr
  obtain ⟨e', he', ho⟩ := hrest.held hr
  refine ⟨e', ?_, ho⟩
  have hn : n ∉ chosen.map Prod.fst := by
    intro hn
    simp only [World.goto, Function.update_apply] at hr
    split at hr
    · cases hr
    · rename_i hu
      exact halone u hu n hn (List.mem_map.mpr ⟨_, hr, rfl⟩)
  exact (Db.entry_finalizeDroppedTrees w.db chosen n).trans ((if_neg hn).trans he')

variable {refuses : Catalog → TreeName → Option Error}

/-! ## What a step does -/

/-- What one step of the call of thread `t` may do. -/
inductive Moves (w : World) (t : Nat) : World → Prop
  | goes {pc : Pc} (hf : pc.Follows w.db (w.calls t)) : w.Moves t (w.goto t pc)
  | fills {n : TreeName} {e : CatalogEntry} {pc : Pc}
      (he : (w.calls t).carried = some (n, e) ∨ w.db.entry n = some e)
      (hf : pc.Follows w.db (w.calls t)) : w.Moves t ((w.onDb (·.cacheInsert n e)).goto t pc)
  | opens {n : TreeName} {id : Nat} (hpc : w.calls t = .state n id)
      (hclosed : w.db.trees id = none) :
      w.Moves t ((w.onDb (·.insertOpenTree id)).goto t (.pin n id w.db.runtimes))
  | gives {n : TreeName} {id rt : Nat} (hpc : w.calls t = .pin n id rt) :
      w.Moves t ((w.give n ⟨id, rt⟩).goto t .idle)
  | creates {n : TreeName} {orOpen : Bool} {next : Nat} (hpc : w.calls t = .create n orOpen)
      (hnone : w.db.entry n = none)
      (hnext : nextAllocatedTreeId w.db.catalog.limit = .ok next) :
      w.Moves t ((((w.onDb fun db => (db.recordLive n db.catalog.limit next).insertOpenTree
        db.catalog.limit).give n ⟨w.db.catalog.limit, w.db.runtimes⟩).setGone n false).goto t .idle)
  | drops {n : TreeName} {id : Nat} (hpc : w.calls t = .drop n)
      (he : w.db.cache n = some ⟨id, .live⟩ ∨ w.db.entry n = some ⟨id, .live⟩) :
      w.Moves t (((w.onDb fun db => ((db.recordDropping n id).markRuntimeDropped
        id).stageTreeDeleteGuids (db.collectTreeGuids id)).setGone n true).goto t .idle)
  | stages {n : TreeName} {e : CatalogEntry} {todo : List (TreeName × CatalogEntry)}
      (hpc : w.calls t = .stage ((n, e) :: todo)) :
      w.Moves t ((w.onDb (stageDroppedTree e)).goto t (.stage todo))
  | flushes {pc : Pc} (hf : pc.Follows w.db (w.calls t)) :
      w.Moves t ((w.onDb checkpointSharedParts).goto t pc)
  | finalizes {chosen : List (TreeName × CatalogEntry)} (hpc : w.calls t = .finalize chosen) :
      w.Moves t ((w.onDb (finalizeDroppedTrees chosen)).goto t .flushAgain)

/-- A section that failed at most filled the cache. -/
theorem Moves.filled {name : TreeName} (hf : pc.Follows w.db (w.calls t))
    (hdb : db' = w.db ∨ ∃ e, w.db.entry name = some e ∧ db' = w.db.cacheInsert name e) :
    w.Moves t ({ w with db := db' }.goto t pc) := by
  rcases hdb with rfl | ⟨e, he, rfl⟩
  · exact .goes hf
  · exact .fills (Or.inr he) hf

section Move

variable {name : TreeName} {orCreate : Bool} {id : Nat}

theorem moves_of_lookup (hpc : w.calls t = .lookup name orCreate)
    (hs : w.move refuses t = some w') : w.Moves t w' := by
  rw [World.move, hpc] at hs
  cases hs
  apply Moves.goes
  rw [hpc]
  cases hc : w.db.cache name with
  | some e => exact .resolve rfl (Or.inr (Or.inl hc)) orCreate
  | none => constructor <;> simp

theorem moves_of_read (hpc : w.calls t = .read name orCreate)
    (hs : w.move refuses t = some w') : w.Moves t w' := by
  rw [World.move, hpc] at hs
  cases hs
  apply run_sat (readCatalog_sat w.db name)
  · rintro o db' ⟨rfl, ho⟩
    apply Moves.goes
    rw [hpc]
    cases o with
    | none => exact .missing rfl orCreate
    | some e => constructor <;> simp [ho.symm]
  · rintro _ db' rfl
    exact .goes .idle

theorem moves_of_state (hpc : w.calls t = .state name id) (hs : w.move refuses t = some w') :
    w.Moves t w' := by
  rw [World.move, hpc] at hs
  cases hs
  apply run_sat (openTreeState_sat w.db id)
  · rintro rt db' (⟨rfl, ht, -⟩ | ⟨rfl, hclosed, rfl⟩)
    · apply Moves.goes
      rw [hpc]
      constructor <;> simp
      exact ht
    · exact .opens hpc hclosed
  · rintro _ db' ⟨rfl, -⟩
    exact .goes .idle

theorem moves_of_pin {rt : Nat} (hpc : w.calls t = .pin name id rt)
    (hs : w.move refuses t = some w') : w.Moves t w' := by
  rw [World.move, hpc] at hs
  cases hs
  apply run_sat (treeFromState_sat w.db id rt)
  · rintro handle db' ⟨rfl, rfl, -⟩
    exact .gives hpc
  · rintro _ db' ⟨rfl, -⟩
    exact .goes .idle

theorem moves_of_create {orOpen : Bool} (h : w.Inv) (hpc : w.calls t = .create name orOpen)
    (hs : w.move refuses t = some w') : w.Moves t w' := by
  have hname : validateTreeName name = .ok () := h.asks (by rw [hpc]; rfl)
  rw [World.move, hpc] at hs
  cases hs
  apply run_sat (createTree_sat h.db hname)
  · rintro handle db' ⟨rfl, hnone, next, hnext, rfl⟩
    exact .creates hpc hnone hnext
  · intro err db' hdb
    apply Moves.filled _ hdb
    split
    · split
      · constructor <;> simp [hpc]
      · exact .idle
    · exact .idle

theorem moves_of_drop (hpc : w.calls t = .drop name) (hs : w.move refuses t = some w') :
    w.Moves t w' := by
  rw [World.move, hpc] at hs
  cases hs
  apply run_sat (dropTree_sat w.db name)
  · rintro _ db' ⟨id, he, rfl⟩
    exact .drops hpc he
  · exact fun _ db' hdb => .filled .idle hdb

theorem moves_of_scan {purpose : Purpose} {cursor : Option TreeName}
    {found : List (TreeName × CatalogEntry)} (hpc : w.calls t = .scan purpose cursor found)
    (hs : w.move refuses t = some w') : w.Moves t w' := by
  rw [World.move, hpc] at hs
  cases hs
  apply Moves.goes
  rw [hpc]
  cases hn : w.db.catalog.next cursor with
  | none => exact .scanned
  | some record =>
    dsimp only
    split
    · constructor <;> simp
    · cases hd : decodeCatalogValue record.2 with
      | error err => exact .idle
      | ok e =>
        have he := w.db.catalog.entry_of_get (w.db.catalog.get_next hn) hd
        constructor <;> simp +contextual
        exact Or.inr he

theorem moves_of_choose {todo chosen : List (TreeName × CatalogEntry)}
    (hpc : w.calls t = .choose todo chosen) (hs : w.move refuses t = some w') : w.Moves t w' := by
  rw [World.move, hpc] at hs
  cases todo with
  | nil =>
    cases hs
    apply Moves.goes
    split
    · exact .idle
    · constructor <;> simp +contextual [hpc]
  | cons head todo =>
    cases hs
    apply Moves.goes
    split
    · rename_i hhead
      constructor <;> simp [hpc]
      · rintro n e (hr | hr | ⟨rfl, rfl⟩) <;> simp [*]
      · rintro n e (hr | ⟨rfl, rfl⟩)
        · exact Or.inl hr
        · exact Or.inr hhead.1
    · constructor <;> simp +contextual [hpc]

theorem moves_of_checkpoint (hpc : w.calls t = .flush ∨ w.calls t = .count ∨
    w.calls t = .flushAgain) (hs : w.move refuses t = some w') : w.Moves t w' := by
  rcases hpc with hpc | hpc | hpc
  all_goals rw [World.move, hpc] at hs
  · cases hs
    exact .flushes (by constructor <;> simp)
  · cases hs
    apply Moves.goes
    split
    · constructor <;> simp
    · exact .idle
  · cases hs
    exact .flushes .idle

end Move

theorem moves_of_move (h : w.Inv) (hs : w.move refuses t = some w') : w.Moves t w' := by
  cases hpc : w.calls t with
  | idle =>
    rw [World.move, hpc] at hs
    cases hs
  | lookup name orCreate => exact moves_of_lookup hpc hs
  | read name orCreate => exact moves_of_read hpc hs
  | fill name orCreate e =>
    rw [World.move, hpc] at hs
    cases hs
    exact .fills (by rw [hpc]; exact Or.inl rfl) (by rw [hpc]; exact .resolve rfl (Or.inl rfl) _)
  | state name id => exact moves_of_state hpc hs
  | pin name id rt => exact moves_of_pin hpc hs
  | create name orOpen => exact moves_of_create h hpc hs
  | drop name => exact moves_of_drop hpc hs
  | scan purpose cursor found => exact moves_of_scan hpc hs
  | note purpose name e found =>
    rw [World.move, hpc] at hs
    cases hs
    apply Moves.fills
    · rw [hpc]
      exact Or.inl rfl
    · constructor <;> simp [hpc, or_comm]
  | stage todo =>
    rw [World.move, hpc] at hs
    cases todo with
    | nil =>
      cases hs
      exact .goes (by constructor <;> simp)
    | cons head todo =>
      cases hs
      exact .stages hpc
  | flush => exact moves_of_checkpoint (.inl hpc) hs
  | count => exact moves_of_checkpoint (.inr (.inl hpc)) hs
  | choose todo chosen => exact moves_of_choose hpc hs
  | finalize chosen =>
    rw [World.move, hpc] at hs
    cases hs
    exact .finalizes hpc
  | flushAgain => exact moves_of_checkpoint (.inr (.inr hpc)) hs

theorem Inv.follow (h : w.Inv) (hf : pc.Follows w.db (w.calls t)) : (w.goto t pc).Inv := by
  apply h.goto
  · intro n e hr
    rcases List.mem_append.mp hr with hc | hk
    · rcases hf.carried (Option.mem_toList.mp hc) with hc | hc | he
      · exact h.held (t := t) (List.mem_append_left _ (Option.mem_toList.mpr hc))
      · exact h.db.cached hc
      · exact .of_entry he
    · exact h.held (hf.kept hk)
  · intro n e hp
    exact (hf.picked hp).elim (fun hp => h.picked hp) id
  · exact fun hn => h.asks (hf.asks hn)

theorem Inv.moves (h : w.Inv) (halone : FinalizesAlone w (.move t)) (hm : w.Moves t w') :
    w'.Inv := by
  cases hm with
  | goes hf => exact h.follow hf
  | fills he hf =>
    apply (h.follow hf).cacheInsert
    rcases he with hc | he
    · exact h.held (t := t) (List.mem_append_left _ (Option.mem_toList.mpr hc))
    · exact .of_entry he
  | @opens n id hpc hclosed =>
    have he : w.db.Holds n ⟨id, .live⟩ := h.held (t := t) (by rw [hpc]; exact List.mem_cons_self)
    apply Inv.rest _ rfl rfl rfl
    apply h.setDb (h.db.insertOpenTree (he.below h.db))
    rintro n e ⟨e', he', ho⟩
    rw [Db.insertOpenTree_eq]
    exact ⟨e', he', ho⟩
  | gives hpc => exact (h.give _ _).idle
  | @creates n orOpen next hpc hnone hnext =>
    have hname : validateTreeName n = .ok () := h.asks (t := t) (by rw [hpc]; rfl)
    exact (((h.created hname hnone hnext).give _ _).setGone _ _).idle
  | drops hpc he =>
    have hh := he.elim h.db.cached .of_entry
    exact ((h.dropped hh fun g hg => Db.mem_collectTreeGuids hg).setGone _ _).idle
  | @stages n e todo hpc =>
    have hf : Pc.Follows w.db (.stage todo) (w.calls t) := by
      constructor <;> simp +contextual [hpc]
    exact (h.follow hf).stageDroppedTree (h.held (t := t) (by rw [hpc]; exact List.mem_cons_self))
      (h.picked (t := t) (by rw [hpc]; exact List.mem_cons_self))
  | flushes hf => exact (h.follow hf).setDb h.db.checkpointSharedParts id
  | finalizes hpc => exact h.finalized hpc (halone t _ rfl hpc)

theorem step_begin {request : Request} (hs : w.step refuses (.begin t request) = some w') :
    w.calls t = .idle ∧ w' = w.goto t request.start := by
  simp only [World.step, Option.ite_none_right_eq_some, Option.some.injEq] at hs
  exact ⟨hs.1, hs.2.symm⟩

theorem step_fail (hs : w.step refuses (.fail t) = some w') : w' = w.goto t .idle := by
  simp only [World.step, Option.ite_none_right_eq_some, Option.some.injEq] at hs
  exact hs.2.symm

theorem Inv.step {a : Action} (h : w.Inv) (halone : FinalizesAlone w a)
    (hs : w.step refuses a = some w') : w'.Inv := by
  cases a with
  | begin t request =>
    obtain ⟨-, rfl⟩ := step_begin hs
    exact h.start request
  | move t => exact h.moves halone (moves_of_move h hs)
  | fail t =>
    cases step_fail hs
    exact h.idle

/-! ## Which steps change an entry -/

/-- The next step of thread `t` may change the entry of `n`. -/
def Rewrites (w : World) (t : Nat) (n : TreeName) : Prop :=
  w.calls t = .drop n ∨ (∃ orOpen, w.calls t = .create n orOpen ∧ w.db.entry n = none) ∨
    ∃ chosen, w.calls t = .finalize chosen ∧ n ∈ chosen.map Prod.fst

theorem entry_moves (h : w.Inv) (hm : w.Moves t w') {n : TreeName} (hn : ¬ w.Rewrites t n) :
    w'.db.entry n = w.db.entry n := by
  cases hm with
  | opens hpc hclosed =>
    change Db.entry (Db.insertOpenTree _ _) n = _
    rw [Db.insertOpenTree_eq]
    rfl
  | @creates name orOpen next hpc hnone hnext =>
    have hname : validateTreeName name = .ok () := h.asks (t := t) (by rw [hpc]; rfl)
    have hne : n ≠ name := by
      rintro rfl
      exact hn (Or.inr (Or.inl ⟨orOpen, hpc, hnone⟩))
    change Db.entry (Db.insertOpenTree _ _) n = _
    rw [Db.insertOpenTree_eq]
    exact (Db.entry_recordLive h.db hname hnext n).trans (if_neg hne)
  | drops hpc he =>
    have hne := fun heq : n = _ => hn (Or.inl (by rw [hpc, heq]))
    change Catalog.entry (Db.markRuntimeDropped _ _).catalog n = _
    rw [Db.markRuntimeDropped_catalog]
    exact Catalog.entry_put_other _ _ hne
  | stages hpc =>
    change Catalog.entry (Db.markRuntimeDropped _ _).catalog n = _
    rw [Db.markRuntimeDropped_catalog]
    rfl
  | @finalizes chosen hpc =>
    have hout : n ∉ chosen.map Prod.fst := fun hin => hn (Or.inr (Or.inr ⟨chosen, hpc, hin⟩))
    exact (Db.entry_finalizeDroppedTrees w.db chosen n).trans (if_neg hout)
  | _ => rfl

end World

end Holt.Database
