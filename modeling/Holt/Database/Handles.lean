import Holt.Database.Survival

/-! The handles on a dropped tree are fenced, and no new ones come, as long as a drop and the end
of a drop wait for the calls that still hold an entry of the tree. -/

namespace Holt.Database

open Holt.Lib

/-- A handle under the name `n` is fenced, or its tree is the live one of that name. -/
def Db.Fences (db : Db) (n : TreeName) (handle : Handle) : Prop :=
  handle.runtime < db.runtimes ∧ (db.dropped handle.runtime = true ∨
    db.entry n = some ⟨handle.treeId, .live⟩ ∧ db.trees handle.treeId = some handle.runtime)

namespace Db

variable {db : Db} {n name : TreeName} {handle : Handle} {id : Nat}

theorem Fences.insertOpenTree (h : db.Fences n handle) (hnone : db.trees id = none) :
    (db.insertOpenTree id).Fences n handle := by
  obtain ⟨hlt, hfence⟩ := h
  rw [insertOpenTree_eq]
  refine ⟨Nat.lt_succ_of_lt hlt, hfence.imp (fun hd => ?_) fun ⟨he, ht⟩ => ⟨he, ?_⟩⟩
  · exact (Function.update_of_ne (ne_of_lt hlt) _ _).trans hd
  · have hne : handle.treeId ≠ id := by
      rintro rfl
      cases hnone.symm.trans ht
    exact (Function.update_of_ne hne _ _).trans ht

/-- The new runtime is that of the live tree. -/
theorem Fences.new (he : db.entry n = some ⟨id, .live⟩) :
    (db.insertOpenTree id).Fences n ⟨id, db.runtimes⟩ := by
  rw [insertOpenTree_eq]
  exact ⟨Nat.lt_succ_self _, Or.inr ⟨he, Function.update_self _ _ _⟩⟩

theorem Fences.markRuntimeDropped (h : db.Fences n handle) (id : Nat) :
    (db.markRuntimeDropped id).Fences n handle := by
  unfold Db.markRuntimeDropped
  split
  · refine ⟨h.1, h.2.imp_left fun hd => ?_⟩
    simp only [Function.update_apply]
    split
    · rfl
    · exact hd
  · exact h

/-- A drop fences the handles on the tree it drops. -/
theorem Fences.dropped {guids : List Nat} (hi : db.Inv)
    (he : db.entry name = some ⟨id, .live⟩) (h : db.Fences n handle) :
    (((db.recordDropping name id).markRuntimeDropped id).stageTreeDeleteGuids guids).Fences n
      handle := by
  have hentry := entry_recordDropping hi (.of_entry he)
  obtain ⟨hlt, hd | ⟨hlive, htree⟩⟩ := h
  · have hkeep : (db.recordDropping name id).Fences n handle := ⟨hlt, Or.inl hd⟩
    exact hkeep.markRuntimeDropped id
  · by_cases hn : n = name
    · subst hn
      cases he.symm.trans hlive
      have htree' : (db.recordDropping n handle.treeId).trees handle.treeId =
          some handle.runtime := htree
      refine ⟨?_, Or.inl ?_⟩
      · simp only [Db.stageTreeDeleteGuids, Db.markRuntimeDropped, htree']
        exact hlt
      · simp only [Db.stageTreeDeleteGuids, Db.markRuntimeDropped, htree']
        exact Function.update_self _ _ _
    · have hkeep : (db.recordDropping name id).Fences n handle :=
        ⟨hlt, Or.inr ⟨by rw [hentry, if_neg hn, hlive], htree⟩⟩
      exact hkeep.markRuntimeDropped id

theorem Fences.finalizeDroppedTrees (hi : db.Inv) {chosen : List (TreeName × CatalogEntry)}
    (hchosen : ∀ {m e}, (m, e) ∈ chosen → db.entry m = some ⟨e.treeId, .dropping⟩)
    (h : db.Fences n handle) : (finalizeDroppedTrees chosen db).Fences n handle := by
  refine ⟨h.1, h.2.imp_right fun ⟨he, ht⟩ => ⟨?_, ?_⟩⟩
  · rw [entry_finalizeDroppedTrees, if_neg, he]
    intro hin
    obtain ⟨⟨m, e⟩, hmem, rfl⟩ := List.mem_map.mp hin
    have hboth := (hchosen hmem).symm.trans he
    simp at hboth
  · refine (if_neg fun hin => ?_).trans ht
    obtain ⟨⟨m, e⟩, hmem, hid⟩ := List.mem_map.mp hin
    have hm := hchosen hmem
    rw [show e.treeId = handle.treeId from hid] at hm
    exact hi.not_live hm n he

theorem Fences.recordLive (hi : db.Inv) (hname : validateTreeName name = .ok ())
    (hnone : db.entry name = none) {next : Nat}
    (hnext : nextAllocatedTreeId db.catalog.limit = .ok next) (h : db.Fences n handle) :
    (db.recordLive name db.catalog.limit next).Fences n handle := by
  refine ⟨h.1, h.2.imp_right fun ⟨he, ht⟩ => ⟨?_, ht⟩⟩
  have hn : n ≠ name := by
    rintro rfl
    cases hnone.symm.trans he
  rw [entry_recordLive hi hname hnext, if_neg hn, he]

end Db

namespace World

variable {refuses : Catalog → TreeName → Option Error} {w w' : World} {t : Nat} {pc : Pc} {db' : Db}

/-- What calls and the cache hold of a live tree is up to date, and so are its handles. -/
structure Exact (w : World) : Prop where
  cached : ∀ {n id}, w.db.cache n = some ⟨id, .live⟩ → w.db.entry n = some ⟨id, .live⟩
  carried : ∀ {t n id}, (w.calls t).carried = some (n, ⟨id, .live⟩) →
    w.db.entry n = some ⟨id, .live⟩
  pinned : ∀ {t n id rt}, w.calls t = .pin n id rt → w.db.Fences n ⟨id, rt⟩
  given : ∀ {n handle}, (n, handle) ∈ w.handles → w.db.Fences n handle
  gone : ∀ {n id}, w.gone n = true → w.db.entry n ≠ some ⟨id, .live⟩

theorem Exact.opened (c : Catalog) (stored : Nat → Bool) : (World.opened c stored).Exact where
  cached h := h
  carried h := by cases h
  pinned h := by cases h
  given h := by cases h
  gone h := by cases h

theorem Exact.goto (h : w.Exact)
    (hcarried : ∀ {n id}, pc.carried = some (n, ⟨id, .live⟩) → w.db.entry n = some ⟨id, .live⟩)
    (hpinned : ∀ {n id rt}, pc = .pin n id rt → w.db.Fences n ⟨id, rt⟩) :
    (w.goto t pc).Exact where
  cached := h.cached
  given := h.given
  gone := h.gone
  carried := by
    intro u n id hc
    simp only [World.goto, Function.update_apply] at hc
    split at hc
    · exact hcarried hc
    · exact h.carried hc
  pinned := by
    intro u n id rt hp
    simp only [World.goto, Function.update_apply] at hp
    split at hp
    · exact hpinned hp
    · exact h.pinned hp

/-- A call that carries no entry and is not about to return a handle. -/
theorem Exact.rest (h : w.Exact) (hcarried : pc.carried = none)
    (hpin : ∀ {n id rt}, pc ≠ .pin n id rt) : (w.goto t pc).Exact :=
  h.goto (fun hc => by rw [hcarried] at hc; cases hc) fun hp => absurd hp hpin

theorem Exact.idle (h : w.Exact) : (w.goto t .idle).Exact := h.rest rfl nofun

/-- A change of the database that drops no tree. -/
theorem Exact.setDb (h : w.Exact)
    (hlive : ∀ {n id}, w.db.entry n = some ⟨id, .live⟩ → db'.entry n = some ⟨id, .live⟩)
    (hcached : ∀ {n id}, db'.cache n = some ⟨id, .live⟩ → db'.entry n = some ⟨id, .live⟩)
    (hfences : ∀ {n handle}, w.db.Fences n handle → db'.Fences n handle)
    (hgone : ∀ {n id}, w.gone n = true → db'.entry n ≠ some ⟨id, .live⟩) :
    { w with db := db' }.Exact where
  cached := hcached
  carried hc := hlive (h.carried hc)
  pinned hp := hfences (h.pinned hp)
  given hm := hfences (h.given hm)
  gone := hgone

/-- A change below the catalog and the cache. -/
theorem Exact.setBelow (h : w.Exact) (hcatalog : db'.catalog = w.db.catalog)
    (hcache : db'.cache = w.db.cache)
    (hfences : ∀ {n handle}, w.db.Fences n handle → db'.Fences n handle) :
    { w with db := db' }.Exact := by
  have hentry : db'.entry = w.db.entry := by
    funext n
    rw [Db.entry, hcatalog, Db.entry]
  apply h.setDb
  · intro n id he
    rw [hentry, he]
  · intro n id hc
    rw [hcache] at hc
    rw [hentry]
    exact h.cached hc
  · exact hfences
  · intro n id hg
    rw [hentry]
    exact h.gone hg

theorem Exact.cacheInsert (h : w.Exact) {name : TreeName} {e : CatalogEntry}
    (he : e.state = .live → w.db.entry name = some e) :
    { w with db := w.db.cacheInsert name e }.Exact := by
  apply h.setDb
  · exact id
  · intro n id hc
    rcases Db.cached_cacheInsert hc with ⟨rfl, rfl⟩ | ⟨-, hc⟩
    · exact he rfl
    · exact h.cached hc
  · exact id
  · exact h.gone

theorem Exact.give (h : w.Exact) {name : TreeName} {handle : Handle}
    (hf : w.db.Fences name handle) : (w.give name handle).Exact where
  cached := h.cached
  carried := h.carried
  pinned := h.pinned
  gone := h.gone
  given := by
    intro n handle' hm
    rcases List.mem_cons.mp hm with heq | hm
    · cases heq
      exact hf
    · exact h.given hm

theorem Exact.created (h : w.Exact) (hi : w.Inv) {name : TreeName}
    (hname : validateTreeName name = .ok ()) (hnone : w.db.entry name = none) {next : Nat}
    (hnext : nextAllocatedTreeId w.db.catalog.limit = .ok next) :
    ((({ w with
      db := ((w.db.recordLive name w.db.catalog.limit next).insertOpenTree w.db.catalog.limit)
    } : World).give name ⟨w.db.catalog.limit, w.db.runtimes⟩).setGone name false).Exact := by
  have hentry := Db.entry_recordLive hi.db hname hnext
  have hentry' : ((w.db.recordLive name w.db.catalog.limit next).insertOpenTree
      w.db.catalog.limit).entry = (w.db.recordLive name w.db.catalog.limit next).entry := by
    rw [Db.insertOpenTree_eq]
    rfl
  have hlive : ∀ {n id}, w.db.entry n = some ⟨id, .live⟩ →
      (w.db.recordLive name w.db.catalog.limit next).entry n = some ⟨id, .live⟩ := by
    intro n id he
    have hn : n ≠ name := by
      rintro rfl
      cases hnone.symm.trans he
    rw [hentry, if_neg hn, he]
  have hclosed :
      (w.db.recordLive name w.db.catalog.limit next).trees w.db.catalog.limit = none := by
    cases ht : w.db.trees w.db.catalog.limit with
    | none => exact ht
    | some rt => exact absurd (hi.db.numbered ht).1 (lt_irrefl _)
  have hfences : ∀ {n handle}, w.db.Fences n handle →
      ((w.db.recordLive name w.db.catalog.limit next).insertOpenTree w.db.catalog.limit).Fences n
        handle :=
    fun hf => (hf.recordLive hi.db hname hnone hnext).insertOpenTree hclosed
  exact {
    cached := by
      intro n id hc
      rw [World.setGone, World.give, hentry']
      rw [World.setGone, World.give, Db.insertOpenTree_eq] at hc
      rcases Db.cached_cacheInsert hc with ⟨rfl, heq⟩ | ⟨-, hc⟩
      · rw [heq, hentry, if_pos rfl]
      · exact hlive (h.cached hc)
    carried := fun hc => (congrFun hentry' _).trans (hlive (h.carried hc))
    pinned := fun hp => hfences (h.pinned hp)
    given := by
      intro n handle hm
      rcases List.mem_cons.mp hm with heq | hm
      · cases heq
        exact .new (by rw [hentry, if_pos rfl])
      · exact hfences (h.given hm)
    gone := by
      intro n id hg
      simp only [World.setGone, World.give, Function.update_apply] at hg
      split at hg
      · cases hg
      · rename_i hn
        rw [World.setGone, World.give, hentry', hentry, if_neg hn]
        exact h.gone hg }

/-- The dropped tree was the live one of its name, and no call holds an entry of it. -/
theorem Exact.dropped (h : w.Exact) (hi : w.Inv) {name : TreeName} {id : Nat} {guids : List Nat}
    (he : w.db.entry name = some ⟨id, .live⟩)
    (halone : ∀ u e, (w.calls u).carried ≠ some (name, e)) :
    ({ w with
      db := (((w.db.recordDropping name id).markRuntimeDropped id).stageTreeDeleteGuids guids)
    }.setGone name true).Exact := by
  have hentry : ∀ n, (((w.db.recordDropping name id).markRuntimeDropped id).stageTreeDeleteGuids
      guids).entry n = if n = name then some ⟨id, .dropping⟩ else w.db.entry n := by
    intro n
    rw [← Db.entry_recordDropping hi.db (.of_entry he), Db.entry, Db.stageTreeDeleteGuids,
      Db.markRuntimeDropped_catalog, Db.entry]
  have hcache : (((w.db.recordDropping name id).markRuntimeDropped id).stageTreeDeleteGuids
      guids).cache = (w.db.recordDropping name id).cache := by
    unfold Db.stageTreeDeleteGuids Db.markRuntimeDropped
    split <;> rfl
  exact {
    cached := by
      intro n i hc
      rw [World.setGone, hcache] at hc
      rcases Db.cached_cacheInsert hc with ⟨-, heq⟩ | ⟨hn, hc⟩
      · cases heq
      · exact (hentry n).trans ((if_neg hn).trans (h.cached hc))
    carried := by
      intro u n i hc
      have hn : n ≠ name := by
        rintro rfl
        exact halone u _ hc
      exact (hentry n).trans ((if_neg hn).trans (h.carried hc))
    pinned := fun hp => (h.pinned hp).dropped hi.db he
    given := fun hm => (h.given hm).dropped hi.db he
    gone := by
      intro n i hg
      simp only [World.setGone, Function.update_apply] at hg
      rw [World.setGone, hentry]
      split
      · exact fun h => by cases h
      · rename_i hn
        rw [if_neg hn] at hg
        exact h.gone hg }

/-- Only dropped trees are taken out, with their runtimes. -/
theorem Exact.finalized (h : w.Exact) (hi : w.Inv) {chosen : List (TreeName × CatalogEntry)}
    (hpc : w.calls t = .finalize chosen) :
    { w with db := finalizeDroppedTrees chosen w.db }.Exact := by
  have hentry := w.db.entry_finalizeDroppedTrees chosen
  have hlive : ∀ {n id}, w.db.entry n = some ⟨id, .live⟩ →
      (finalizeDroppedTrees chosen w.db).entry n = some ⟨id, .live⟩ := by
    intro n id he
    rw [hentry, if_neg, he]
    intro hin
    obtain ⟨⟨m, e⟩, hmem, rfl⟩ := List.mem_map.mp hin
    cases (hi.chosen hpc hmem).symm.trans he
  apply h.setDb hlive
  · intro n id hc
    have hold : w.db.cache n = some ⟨id, .live⟩ := by
      unfold finalizeDroppedTrees at hc
      dsimp only at hc
      split at hc
      · cases hc
      · exact hc
    exact hlive (h.cached hold)
  · exact fun hf => hf.finalizeDroppedTrees hi.db fun hmem => hi.chosen hpc hmem
  · intro n id hg
    rw [hentry]
    split
    · nofun
    · exact h.gone hg

theorem stageDroppedTree_below (db : Db) (e : CatalogEntry) :
    (stageDroppedTree e db).catalog = db.catalog ∧ (stageDroppedTree e db).cache = db.cache := by
  unfold stageDroppedTree Db.stageTreeDeleteGuids Db.markRuntimeDropped
  dsimp only
  split <;> exact ⟨rfl, rfl⟩

theorem Exact.follow (h : w.Exact) (hi : w.Inv) (hf : pc.Follows w.db (w.calls t)) :
    (w.goto t pc).Exact := by
  apply h.goto
  · intro n id hc
    rcases hf.carried hc with hc | hc | he
    · exact h.carried hc
    · exact h.cached hc
    · exact he
  · intro n id rt hp
    obtain ⟨hstate, ht⟩ := hf.pins hp
    exact ⟨(hi.db.numbered ht).2, Or.inr ⟨h.carried (t := t) (by rw [hstate]; rfl), ht⟩⟩

theorem Exact.moves (h : w.Exact) (hi : w.Inv) (halone : DropsAlone w (.move t))
    (hm : w.Moves t w') : w'.Exact := by
  cases hm with
  | goes hf => exact h.follow hi hf
  | @fills n e pc he hf =>
    apply (h.follow hi hf).cacheInsert
    intro hstate
    cases e with
    | mk id state =>
      cases hstate
      exact he.elim h.carried fun he => he
  | @opens n id hpc hclosed =>
    have hopened : { w with db := w.db.insertOpenTree id }.Exact := by
      have hsame := Db.insertOpenTree_eq w.db id
      apply h.setBelow
      · rw [hsame]
      · rw [hsame]
      · exact fun hf => hf.insertOpenTree hclosed
    apply hopened.goto (fun hc => by cases hc)
    intro _ _ _ hp
    cases hp
    exact .new (h.carried (t := t) (by rw [hpc]; rfl))
  | gives hpc => exact (h.give (h.pinned hpc)).idle
  | creates hpc hnone hnext =>
    exact (h.created hi (hi.asks (t := t) (by rw [hpc]; rfl)) hnone hnext).idle
  | drops hpc he =>
    exact (h.dropped hi (he.elim h.cached fun he => he) (halone t _ rfl hpc)).idle
  | @stages n e todo hpc =>
    obtain ⟨hcatalog, hcache⟩ := stageDroppedTree_below w.db e
    have hstaged : { w with db := stageDroppedTree e w.db }.Exact :=
      h.setBelow hcatalog hcache fun hf => hf.markRuntimeDropped _
    exact hstaged.rest rfl nofun
  | flushes hf => exact (h.follow hi hf).setBelow rfl rfl fun hf => hf
  | finalizes hpc => exact (h.finalized hi hpc).rest rfl nofun

theorem Exact.step {a : Action} (h : w.Exact) (hi : w.Inv) (halone : DropsAlone w a)
    (hs : w.step refuses a = some w') : w'.Exact := by
  cases a with
  | begin t request =>
    obtain ⟨-, rfl⟩ := step_begin hs
    have hnamed : ∀ name pc, pc.carried = none → (∀ {n id rt}, pc ≠ .pin n id rt) →
        (w.goto t (named name pc)).Exact := by
      intro name pc hc hp
      unfold named
      split
      · exact h.rest hc hp
      · exact h.idle
    cases request with
    | listTrees => exact h.rest rfl nofun
    | checkpoint => exact h.rest rfl nofun
    | _ => exact hnamed _ _ rfl nofun
  | move t => exact h.moves hi halone (moves_of_move hi hs)
  | fail t =>
    cases step_fail hs
    exact h.idle

end World

theorem ensureLive_eq (handle : Handle) (db : Db) : ensureLive handle db =
    (if db.dropped handle.runtime then (throw .treeDropped : DbM Unit) else pure ()) db := rfl

/-- As long as a tree is dropped only while no call is about to cache or open it, and taken out of
the catalog only while no other call holds an entry of it, every write through a handle that was
ever given out under the name of a dropped tree fails. -/
theorem dropped_tree_stays_dropped {refuses : Catalog → TreeName → Option Error} {c : Catalog}
    (hc : c.Sound) (stored : Nat → Bool) {w : World} {n : TreeName} {handle : Handle}
    (reached : Run (World.step refuses) (fun w a => FinalizesAlone w a ∧ DropsAlone w a)
      (.opened c stored) w) (gone : w.gone n = true) (given : (n, handle) ∈ w.handles) :
    ensureLive handle w.db = .error .treeDropped w.db := by
  have hboth : w.Inv ∧ w.Exact := by
    apply reached.invariant (I := fun w => w.Inv ∧ w.Exact)
    · exact ⟨.opened hc stored, .opened c stored⟩
    · intro v v' a h may hs
      exact ⟨h.1.step may.1 hs, h.2.step h.1 may.2 hs⟩
  obtain ⟨-, hfenced | ⟨hlive, -⟩⟩ := hboth.2.given given
  · rw [ensureLive_eq, hfenced]
    rfl
  · exact absurd hlive (hboth.2.gone gone)

/-- Two threads open a tree at the same time. One of them drops it while the other comes back to
open it again, and a checkpoint takes it out. -/
def openedTwice : List Action :=
  [.begin 0 (.createTree [116]), .move 0, .begin 0 (.openTree [116]), .begin 1 (.openTree [116]),
    .move 0, .move 1, .move 1, .move 0, .move 1, .move 0, .begin 1 (.dropTree [116]),
    .begin 0 (.openTree [116]), .move 1, .move 0, .begin 1 .checkpoint] ++
  List.replicate 16 (.move 1)

theorem dropped_tree_stays_dropped_two_threads : ∃ (w : World) (handle : Handle),
    w.gone [116] = true ∧ w.db.entry [116] = none ∧ ([116], handle) ∈ w.handles ∧
    ensureLive handle w.db = .error .treeDropped w.db := by
  have hplay : (play (World.step accepting) (fun w a => Within 2 w a ∧ Freely w a)
      openedTwice .fresh).any (fun w => decide (w.gone [116] = true ∧ w.db.entry [116] = none ∧
        ([116], ⟨1, 0⟩) ∈ w.handles)) = true := by decide +kernel
  obtain ⟨w, hrun, hgone, hentry, hgiven⟩ := exists_run_of_play hplay
  have hrun := (World.alone_of_within (fun _ _ => rfl) hrun).1
  exact ⟨w, ⟨1, 0⟩, hgone, hentry, hgiven,
    dropped_tree_stays_dropped Catalog.empty_sound _ (hrun.mono fun _ _ may => may.1) hgone hgiven⟩

/-- A call reads that the tree is live. The tree is dropped and a checkpoint takes it out. Then the
call finds no runtime for the tree, and makes one. -/
def openAcrossDrop : List Action :=
  [.begin 0 (.createTree [116]), .move 0, .begin 1 (.openTree [116]), .move 1,
    .begin 0 (.dropTree [116]), .move 0, .begin 0 .checkpoint] ++
  List.replicate 16 (.move 0) ++ [.move 1, .move 1]

theorem dropped_tree_written : ∃ (w : World) (handle : Handle),
    Run (World.step accepting) Freely .fresh w ∧ w.gone [116] = true ∧
    ([116], handle) ∈ w.handles ∧ ensureLive handle w.db = .ok () w.db := by
  have hplay : (play (World.step accepting) Freely openAcrossDrop .fresh).any (fun w =>
      decide (w.gone [116] = true ∧ ([116], (⟨1, 1⟩ : Handle)) ∈ w.handles ∧
        w.db.dropped 1 = false)) = true := by
    decide +kernel
  obtain ⟨w, hrun, hgone, hgiven, hlive⟩ := exists_run_of_play hplay
  refine ⟨w, ⟨1, 1⟩, hrun, hgone, hgiven, ?_⟩
  rw [ensureLive_eq, hlive]
  rfl

end Holt.Database
