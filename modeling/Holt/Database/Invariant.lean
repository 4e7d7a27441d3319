import Holt.Database.Calls

/-! What the steps of the calls keep: the numbers of the trees stay apart, what was read is not
newer than the catalog, and a live tree can be opened. -/

namespace Holt.Database

open Holt.Lib

/-- `e'` is `e`, or what a drop made of it. -/
def CatalogEntry.Older (e e' : CatalogEntry) : Prop :=
  e'.treeId = e.treeId ∧ (e'.state = e.state ∨ e'.state = .dropping)

theorem CatalogEntry.Older.refl (e : CatalogEntry) : e.Older e := ⟨rfl, Or.inl rfl⟩

theorem CatalogEntry.Older.eq_live {e : CatalogEntry} {id : Nat} (h : e.Older ⟨id, .live⟩) :
    e = ⟨id, .live⟩ := by
  cases e with
  | mk treeId state =>
    obtain ⟨hid, hstate⟩ := h
    cases state with
    | live => exact congrArg₂ CatalogEntry.mk hid.symm rfl
    | dropping =>
      rcases hstate with hs | hs <;> cases hs

/-! ## The catalog -/

/-- Above the numbers of all trees. -/
def Catalog.limit (c : Catalog) : Nat :=
  match c.nextTreeId with
  | .ok next => next
  | .error _ => 0

structure Catalog.Sound (c : Catalog) : Prop where
  readable : ∀ {name value}, c.get name = some value → name ≠ catalogNextTreeIdKey →
    ∃ e, decodeCatalogValue value = .ok e
  next : c.nextTreeId = .ok c.limit
  user : UserTreeId c.limit
  valid : ∀ {name e}, c.entry name = some e → validateTreeName name = .ok ()
  below : ∀ {name e}, c.entry name = some e → e.treeId < c.limit
  distinct : ∀ {name name' e e'}, c.entry name = some e → c.entry name' = some e' →
    e.treeId = e'.treeId → name = name'

namespace Catalog

variable {c : Catalog} {name : TreeName} {e : CatalogEntry}

theorem empty_sound : Catalog.empty.Sound where
  readable h := by cases h
  next := rfl
  user := ⟨by decide, by decide, by decide⟩
  valid h := by cases h
  below h := by cases h
  distinct h := by cases h

theorem limit_eq {next : Nat} (h : c.nextTreeId = .ok next) : c.limit = next := by
  rw [limit, h]

theorem entry_user (h : c.entry name = some e) : UserTreeId e.treeId := by
  obtain ⟨value, -, hd⟩ := Option.bind_eq_some_iff.mp h
  cases hv : decodeCatalogValue value with
  | error err =>
    rw [hv] at hd
    cases hd
  | ok e' =>
    rw [hv] at hd
    cases hd
    exact .of_decode hv

/-- The record of the next number is no entry. -/
theorem entry_nextTreeIdKey {next : Nat} (h : c.nextTreeId = .ok next) :
    c.entry catalogNextTreeIdKey = none := by
  unfold nextTreeId at h
  rw [entry]
  cases hg : c.get catalogNextTreeIdKey with
  | none => rfl
  | some value =>
    rw [hg] at h
    have hd : decodeNextTreeId value = .ok next := h
    have hlen : value.length = catalogNextIdLen := by
      by_contra hne
      rw [decodeNextTreeId, if_pos (Or.inl hne)] at hd
      cases hd
    have hbad : value.length ≠ catalogValueLen ∨ slice value 0 8 ≠ catalogValueMagic := by
      rw [hlen]
      exact Or.inl (by decide)
    rw [Option.bind_some, decodeCatalogValue, if_pos hbad]
    rfl

theorem ne_next_of_valid (h : validateTreeName name = .ok ()) : name ≠ catalogNextTreeIdKey := by
  rintro rfl
  exact catalogNextTreeIdKey_invalid h

theorem Sound.ne_next (h : c.Sound) (he : c.entry name = some e) :
    name ≠ catalogNextTreeIdKey :=
  ne_next_of_valid (h.valid he)

theorem get_of_entry (h : c.entry name = some e) :
    ∃ value, c.get name = some value ∧ decodeCatalogValue value = .ok e := by
  obtain ⟨value, hg, hd⟩ := Option.bind_eq_some_iff.mp h
  refine ⟨value, hg, ?_⟩
  cases hv : decodeCatalogValue value with
  | error err =>
    rw [hv] at hd
    cases hd
  | ok e' =>
    rw [hv] at hd
    cases hd
    rfl

/-- A new tree takes the next number. -/
theorem Sound.create (h : c.Sound) (hvalid : validateTreeName name = .ok ())
    {next : Nat} (hnext : nextAllocatedTreeId c.limit = .ok next) :
    let c' := (c.put name (encodeCatalogValue ⟨c.limit, .live⟩)).put catalogNextTreeIdKey
      (encodeNextTreeId next)
    c'.Sound ∧ c'.limit = next ∧
      ∀ n, c'.entry n = if n = name then some ⟨c.limit, .live⟩ else c.entry n := by
  obtain ⟨hlt, huser⟩ := nextAllocatedTreeId_spec hnext
  have hname := ne_next_of_valid hvalid
  have hlive : UserTreeId (CatalogEntry.mk c.limit .live).treeId := h.user
  intro c'
  have hnextId : c'.nextTreeId = .ok next := nextTreeId_put _ huser
  have hlimit : c'.limit = next := limit_eq hnextId
  have hentry : ∀ n, c'.entry n = if n = name then some ⟨c.limit, .live⟩ else c.entry n := by
    intro n
    by_cases hn : n = catalogNextTreeIdKey
    · subst hn
      rw [entry_nextTreeIdKey hnextId, if_neg (Ne.symm hname), entry_nextTreeIdKey h.next]
    · rw [entry_put_other _ _ hn]
      exact entry_put c name n hlive
  refine ⟨⟨?_, by rw [hlimit, hnextId], hlimit ▸ huser, ?_, ?_, ?_⟩, hlimit, hentry⟩
  · intro n value hget hn
    rw [get_put, if_neg hn, get_put] at hget
    split at hget
    · cases hget
      exact ⟨_, decodeCatalogValue_encode hlive⟩
    · exact h.readable hget hn
  · intro n e he
    rw [hentry] at he
    split at he
    · rename_i hn
      exact hn ▸ hvalid
    · exact h.valid he
  · intro n e he
    rw [hlimit]
    rw [hentry] at he
    split at he
    · cases he
      exact hlt
    · exact lt_trans (h.below he) hlt
  · intro n n' e e' he he' hid
    rw [hentry] at he he'
    split at he <;> split at he'
    · rename_i hn hn'
      exact hn.trans hn'.symm
    · cases he
      exact absurd (h.below he') (by rw [← hid]; exact lt_irrefl _)
    · cases he'
      exact absurd (h.below he) (by rw [hid]; exact lt_irrefl _)
    · exact h.distinct he he' hid

/-- A drop keeps the number. -/
theorem Sound.drop (h : c.Sound) (he : c.entry name = some e) (state : CatalogState) :
    let c' := c.put name (encodeCatalogValue ⟨e.treeId, state⟩)
    c'.Sound ∧ c'.limit = c.limit ∧
      ∀ n, c'.entry n = if n = name then some ⟨e.treeId, state⟩ else c.entry n := by
  intro c'
  have hname := h.ne_next he
  have hnext : c'.nextTreeId = c.nextTreeId := nextTreeId_put_other _ _ hname
  have hlimit : c'.limit = c.limit := by rw [limit, hnext, limit]
  have hid : UserTreeId e.treeId := entry_user he
  have huser : UserTreeId (CatalogEntry.mk e.treeId state).treeId := hid
  have hentry : ∀ n, c'.entry n = if n = name then some ⟨e.treeId, state⟩ else c.entry n :=
    fun n => entry_put c name n huser
  -- Under another name or not, the number is one that the catalog had under that name.
  have hold : ∀ {n e'}, c'.entry n = some e' → ∃ e'', c.entry n = some e'' ∧
      e''.treeId = e'.treeId := by
    intro n e' he'
    rw [hentry] at he'
    split at he'
    · rename_i hn
      cases he'
      exact ⟨e, hn ▸ he, rfl⟩
    · exact ⟨e', he', rfl⟩
  refine ⟨⟨?_, by rw [hnext, hlimit, h.next], hlimit ▸ h.user, ?_, ?_, ?_⟩, hlimit, hentry⟩
  · intro n value hget hn
    rw [get_put] at hget
    split at hget
    · cases hget
      exact ⟨_, decodeCatalogValue_encode huser⟩
    · exact h.readable hget hn
  · intro n e' he'
    obtain ⟨e'', ho, -⟩ := hold he'
    exact h.valid ho
  · intro n e' he'
    obtain ⟨e'', ho, hid⟩ := hold he'
    rw [hlimit, ← hid]
    exact h.below ho
  · intro n n' e₁ e₂ h₁ h₂ hid
    obtain ⟨o₁, ho₁, hid₁⟩ := hold h₁
    obtain ⟨o₂, ho₂, hid₂⟩ := hold h₂
    exact h.distinct ho₁ ho₂ (by rw [hid₁, hid₂, hid])

theorem entry_foldl_delete (c : Catalog) (names : List TreeName) (n : TreeName) :
    (names.foldl delete c).entry n = if n ∈ names then none else c.entry n := by
  induction names generalizing c with
  | nil => simp
  | cons name names ih =>
    rw [List.foldl_cons, ih, entry_delete]
    by_cases hn : n ∈ names
    · simp [hn]
    · by_cases hname : n = name <;> simp [hn, hname]

theorem Sound.delete (h : c.Sound) (hname : name ≠ catalogNextTreeIdKey) :
    (c.delete name).Sound ∧ (c.delete name).limit = c.limit := by
  have hnext : (c.delete name).nextTreeId = c.nextTreeId := nextTreeId_delete_other _ hname
  have hlimit : (c.delete name).limit = c.limit := by rw [limit, hnext, limit]
  have hold : ∀ {n e}, (c.delete name).entry n = some e → c.entry n = some e := by
    intro n e he
    rw [entry_delete] at he
    split at he
    · cases he
    · exact he
  refine ⟨⟨?_, by rw [hnext, hlimit, h.next], hlimit ▸ h.user, fun he => h.valid (hold he), ?_, ?_⟩,
    hlimit⟩
  · intro n value hget hn
    rw [get_delete] at hget
    split at hget
    · cases hget
    · exact h.readable hget hn
  · intro n e he
    exact hlimit ▸ h.below (hold he)
  · intro n n' e e' he he' hid
    exact h.distinct (hold he) (hold he') hid

theorem Sound.foldl_delete (h : c.Sound) {names : List TreeName}
    (hnames : ∀ n ∈ names, n ≠ catalogNextTreeIdKey) :
    (names.foldl Catalog.delete c).Sound ∧ (names.foldl Catalog.delete c).limit = c.limit := by
  induction names generalizing c with
  | nil => exact ⟨h, rfl⟩
  | cons name names ih =>
    obtain ⟨hs, hlimit⟩ := h.delete (hnames name List.mem_cons_self)
    obtain ⟨hs', hlimit'⟩ := ih hs fun n hn => hnames n (List.mem_cons_of_mem _ hn)
    exact ⟨hs', hlimit'.trans hlimit⟩

end Catalog

/-! ## The database -/

namespace Db

/-- The catalog has `e` under `name`, or what a drop made of it. -/
def Holds (db : Db) (name : TreeName) (e : CatalogEntry) : Prop :=
  ∃ e', db.entry name = some e' ∧ e.Older e'

structure Inv (db : Db) : Prop where
  sound : db.catalog.Sound
  cached : ∀ {name e}, db.cache name = some e → db.Holds name e
  numbered : ∀ {id rt}, db.trees id = some rt → id < db.catalog.limit ∧ rt < db.runtimes
  own : ∀ {id id' rt}, db.trees id = some rt → db.trees id' = some rt → id = id'
  staged : ∀ {id}, id ∈ db.pending → id < db.catalog.limit
  live : ∀ {name id}, db.entry name = some ⟨id, .live⟩ → id ∉ db.pending ∧
    ∀ {rt}, db.trees id = some rt → db.dropped rt = false ∧ db.stored id = true

variable {db : Db} {name : TreeName} {e : CatalogEntry} {id : Nat}

theorem Holds.of_entry (h : db.entry name = some e) : db.Holds name e := ⟨e, h, .refl e⟩

theorem Holds.below (h : db.Holds name e) (hi : db.Inv) : e.treeId < db.catalog.limit := by
  obtain ⟨e', he', hid, -⟩ := h
  exact hid ▸ hi.sound.below he'

/-- What was read as being dropped is being dropped. -/
theorem Holds.dropping (h : db.Holds name ⟨id, .dropping⟩) :
    db.entry name = some ⟨id, .dropping⟩ := by
  obtain ⟨e', he', hid, hs⟩ := h
  rw [he']
  cases e' with
  | mk treeId state =>
    cases hid
    rcases hs with rfl | rfl <;> rfl

/-- No live tree has the number of one that is being dropped. -/
theorem Inv.not_live (h : db.Inv) (he : db.entry name = some ⟨id, .dropping⟩) (name' : TreeName) :
    db.entry name' ≠ some ⟨id, .live⟩ := by
  intro he'
  have hsame := h.sound.distinct he he' rfl
  subst hsame
  cases he.symm.trans he'

theorem Inv.opened {c : Catalog} (h : c.Sound) (stored : Nat → Bool) :
    (Db.opened c stored).Inv := by
  have hpending : ∀ id ∈ (Db.opened c stored).pending,
      ∃ name, c.entry name = some ⟨id, .dropping⟩ := by
    intro id hid
    obtain ⟨record, hmem, hr⟩ := List.mem_filterMap.mp hid
    refine ⟨record.1, ?_⟩
    split at hr
    · rename_i treeId hd
      split at hr
      · cases hr
        exact c.entry_of_get (c.get_of_mem hmem) hd
      · cases hr
    · cases hr
  exact {
    sound := h
    cached := fun he => .of_entry he
    numbered := fun ht => by cases ht
    own := fun ht => by cases ht
    staged := by
      intro id hid
      obtain ⟨name, he⟩ := hpending id hid
      exact h.below he
    live := by
      intro name id he
      refine ⟨fun hid => ?_, fun ht => by cases ht⟩
      obtain ⟨name', he'⟩ := hpending id hid
      have hsame := h.distinct he he' rfl
      subst hsame
      cases he.symm.trans he' }

theorem cached_cacheInsert {n : TreeName} {e' : CatalogEntry}
    (h : (db.cacheInsert name e).cache n = some e') :
    (n = name ∧ e' = e) ∨ (n ≠ name ∧ db.cache n = some e') := by
  have h' : Function.update db.cache name (some e) n = some e' := h
  rw [Function.update_apply] at h'
  split at h'
  · rename_i hn
    exact Or.inl ⟨hn, (Option.some.inj h').symm⟩
  · rename_i hn
    exact Or.inr ⟨hn, h'⟩

theorem Inv.cacheInsert (h : db.Inv) (hh : db.Holds name e) : (db.cacheInsert name e).Inv where
  sound := h.sound
  numbered := h.numbered
  own := h.own
  staged := h.staged
  live := h.live
  cached := by
    intro n e' he'
    rcases cached_cacheInsert he' with ⟨rfl, rfl⟩ | ⟨-, hc⟩
    · exact hh
    · exact h.cached hc

@[simp]
theorem ensureRootBlob_stored_self (db : Db) (id : Nat) :
    (db.ensureRootBlob id).stored id = true := by
  unfold ensureRootBlob
  split
  · rename_i hb
    exact (Bool.and_eq_true_iff.mp hb).2
  · exact Function.update_self id true db.stored

theorem ensureRootBlob_stored_of_ne (db : Db) {id id' : Nat} (h : id' ≠ id) :
    (db.ensureRootBlob id).stored id' = db.stored id' := by
  unfold ensureRootBlob
  split
  · rfl
  · exact Function.update_of_ne h true db.stored

theorem insertOpenTree_eq (db : Db) (id : Nat) : db.insertOpenTree id = { db with
    stored := (db.ensureRootBlob id).stored
    trees := Function.update db.trees id (some db.runtimes)
    dropped := Function.update db.dropped db.runtimes false
    runtimes := db.runtimes + 1 } := by
  unfold insertOpenTree ensureRootBlob
  split <;> rfl

theorem Inv.insertOpenTree (h : db.Inv) (hid : id < db.catalog.limit) :
    (db.insertOpenTree id).Inv := by
  rw [insertOpenTree_eq]
  -- A runtime in the table is the new one or was there before.
  have hcases : ∀ {i rt}, Function.update db.trees id (some db.runtimes) i = some rt →
      (i = id ∧ rt = db.runtimes) ∨ (i ≠ id ∧ db.trees i = some rt ∧ rt < db.runtimes) := by
    intro i rt ht
    by_cases hi : i = id
    · subst hi
      rw [Function.update_self] at ht
      cases ht
      exact Or.inl ⟨rfl, rfl⟩
    · rw [Function.update_of_ne hi] at ht
      exact Or.inr ⟨hi, ht, (h.numbered ht).2⟩
  exact {
    sound := h.sound
    cached := h.cached
    staged := h.staged
    numbered := by
      intro i rt ht
      rcases hcases ht with ⟨rfl, rfl⟩ | ⟨-, ht, -⟩
      · exact ⟨hid, Nat.lt_succ_self _⟩
      · exact ⟨(h.numbered ht).1, Nat.lt_succ_of_lt (h.numbered ht).2⟩
    own := by
      intro i i' rt ht ht'
      rcases hcases ht with ⟨rfl, rfl⟩ | ⟨-, hold, hlt⟩
      · rcases hcases ht' with ⟨rfl, -⟩ | ⟨-, -, hlt⟩
        · rfl
        · exact absurd hlt (lt_irrefl _)
      · rcases hcases ht' with ⟨-, rfl⟩ | ⟨-, hold', -⟩
        · exact absurd hlt (lt_irrefl _)
        · exact h.own hold hold'
    live := by
      intro name i he
      obtain ⟨hpending, htree⟩ := h.live he
      refine ⟨hpending, fun {rt} ht => ?_⟩
      rcases hcases ht with ⟨rfl, rfl⟩ | ⟨hi, hold, hlt⟩
      · exact ⟨Function.update_self _ _ _, ensureRootBlob_stored_self db i⟩
      · obtain ⟨hd, hs⟩ := htree hold
        exact ⟨(Function.update_of_ne (ne_of_lt hlt) _ _).trans hd,
          (ensureRootBlob_stored_of_ne db hi).trans hs⟩ }

theorem Inv.markRuntimeDropped (h : db.Inv) (hno : ∀ name, db.entry name ≠ some ⟨id, .live⟩) :
    (db.markRuntimeDropped id).Inv := by
  unfold Db.markRuntimeDropped
  split
  · rename_i rt hrt
    exact {
      sound := h.sound
      cached := h.cached
      numbered := h.numbered
      own := h.own
      staged := h.staged
      live := by
        intro name i he
        obtain ⟨hpending, htree⟩ := h.live he
        refine ⟨hpending, fun {rt'} ht => ?_⟩
        obtain ⟨hd, hs⟩ := htree ht
        have hne : rt' ≠ rt := by
          rintro rfl
          have hi := h.own ht hrt
          subst hi
          exact hno name he
        exact ⟨(Function.update_of_ne hne _ _).trans hd, hs⟩ }
  · exact h

theorem Inv.stageTreeDeleteGuids (h : db.Inv) {guids : List Nat}
    (hlow : ∀ g ∈ guids, g < db.catalog.limit)
    (hno : ∀ g ∈ guids, ∀ name, db.entry name ≠ some ⟨g, .live⟩) :
    (db.stageTreeDeleteGuids guids).Inv where
  sound := h.sound
  cached := h.cached
  numbered := h.numbered
  own := h.own
  staged := by
    intro id hid
    rcases List.mem_append.mp hid with hid | hid
    · exact h.staged hid
    · exact hlow id hid
  live := by
    intro name id he
    obtain ⟨hpending, htree⟩ := h.live he
    refine ⟨fun hid => ?_, htree⟩
    rcases List.mem_append.mp hid with hid | hid
    · exact hpending hid
    · exact hno id hid name he

theorem mem_collectTreeGuids {g : Nat} (h : g ∈ db.collectTreeGuids id) : g = id := by
  unfold collectTreeGuids at h
  split at h
  · exact List.mem_singleton.mp h
  · cases h

@[simp]
theorem markRuntimeDropped_catalog (db : Db) (id : Nat) :
    (db.markRuntimeDropped id).catalog = db.catalog := by
  unfold Db.markRuntimeDropped
  split <;> rfl

/-- A tree that is being dropped may be fenced and staged again. -/
theorem Inv.fence (h : db.Inv) (he : db.entry name = some ⟨id, .dropping⟩) {guids : List Nat}
    (hguids : ∀ g ∈ guids, g = id) :
    ((db.markRuntimeDropped id).stageTreeDeleteGuids guids).Inv := by
  have hentry : (db.markRuntimeDropped id).entry = db.entry := by
    funext n
    rw [entry, entry, markRuntimeDropped_catalog]
  apply (h.markRuntimeDropped (h.not_live he)).stageTreeDeleteGuids
  · intro g hg
    rw [hguids g hg, markRuntimeDropped_catalog]
    exact h.sound.below he
  · intro g hg n
    rw [hguids g hg, hentry]
    exact h.not_live he n

theorem Inv.stageDroppedTree (h : db.Inv) (he : db.entry name = some ⟨id, .dropping⟩) :
    (Holt.Database.stageDroppedTree ⟨id, .dropping⟩ db).Inv :=
  h.fence he fun _ hg => mem_collectTreeGuids hg

theorem Inv.checkpointSharedParts (h : db.Inv) : (Holt.Database.checkpointSharedParts db).Inv where
  sound := h.sound
  cached := h.cached
  numbered := h.numbered
  own := h.own
  staged hid := by cases hid
  live := by
    intro name id he
    obtain ⟨hpending, htree⟩ := h.live he
    refine ⟨by simp [Holt.Database.checkpointSharedParts], fun ht => ?_⟩
    obtain ⟨hd, hs⟩ := htree ht
    exact ⟨hd, by simp [Holt.Database.checkpointSharedParts, hs, hpending]⟩

/-! ### New entries -/

theorem entry_recordDropping (h : db.Inv) (hh : db.Holds name ⟨id, .live⟩) (n : TreeName) :
    (db.recordDropping name id).entry n =
      if n = name then some ⟨id, .dropping⟩ else db.entry n := by
  obtain ⟨e', he', hid, -⟩ := hh
  have hput := (h.sound.drop he' .dropping).2.2 n
  rw [show e'.treeId = id from hid] at hput
  exact hput

theorem Holds.recordDropping {e' : CatalogEntry} {name' : TreeName} (h : db.Inv)
    (hh : db.Holds name ⟨id, .live⟩) (hold : db.Holds name' e') :
    (db.recordDropping name id).Holds name' e' := by
  obtain ⟨old, he, holder⟩ := hold
  by_cases hn : name' = name
  · subst hn
    have hentry := entry_recordDropping h hh name'
    rw [if_pos rfl] at hentry
    obtain ⟨cur, hcur, hid, -⟩ := hh
    cases he.symm.trans hcur
    exact ⟨⟨id, .dropping⟩, hentry, hid.symm.trans holder.1, Or.inr rfl⟩
  · exact ⟨old, by rw [entry_recordDropping h hh, if_neg hn, he], holder⟩

theorem Inv.recordDropping (h : db.Inv) (hh : db.Holds name ⟨id, .live⟩) :
    (db.recordDropping name id).Inv := by
  have hentry := entry_recordDropping h hh
  have hcurrent := hh
  obtain ⟨e', he', hid, -⟩ := hcurrent
  have hsound := h.sound.drop he' .dropping
  rw [show e'.treeId = id from hid] at hsound
  have hlimit : (db.recordDropping name id).catalog.limit = db.catalog.limit := hsound.2.1
  exact {
    sound := hsound.1
    cached := by
      intro n e hc
      rcases cached_cacheInsert hc with ⟨rfl, rfl⟩ | ⟨-, hc⟩
      · exact .of_entry (by rw [hentry, if_pos rfl])
      · exact Holds.recordDropping h hh (h.cached hc)
    numbered := fun ht => hlimit ▸ h.numbered ht
    own := h.own
    staged := fun hid => hlimit ▸ h.staged hid
    live := by
      intro n i he
      rw [hentry] at he
      split at he
      · cases he
      · exact h.live he }

theorem entry_recordLive (h : db.Inv) (hname : validateTreeName name = .ok ()) {next : Nat}
    (hnext : nextAllocatedTreeId db.catalog.limit = .ok next) (n : TreeName) :
    (db.recordLive name db.catalog.limit next).entry n =
      if n = name then some ⟨db.catalog.limit, .live⟩ else db.entry n :=
  (h.sound.create hname hnext).2.2 n

theorem Inv.recordLive (h : db.Inv) (hname : validateTreeName name = .ok ())
    (hnone : db.entry name = none) {next : Nat}
    (hnext : nextAllocatedTreeId db.catalog.limit = .ok next) :
    (db.recordLive name db.catalog.limit next).Inv := by
  have hentry := entry_recordLive h hname hnext
  obtain ⟨hsound, hlimit, -⟩ := h.sound.create hname hnext
  have hlt := (nextAllocatedTreeId_spec hnext).1
  have hlimit' : db.catalog.limit < (db.recordLive name db.catalog.limit next).catalog.limit :=
    lt_of_lt_of_eq hlt hlimit.symm
  exact {
    sound := hsound
    cached := by
      intro n e hc
      rcases cached_cacheInsert hc with ⟨rfl, rfl⟩ | ⟨-, hc⟩
      · exact .of_entry (by rw [hentry, if_pos rfl])
      · obtain ⟨e', he', ho⟩ := h.cached hc
        have hn : n ≠ name := by
          rintro rfl
          cases hnone.symm.trans he'
        exact ⟨e', by rw [hentry, if_neg hn, he'], ho⟩
    numbered := by
      intro i rt ht
      obtain ⟨hi, hrt⟩ := h.numbered ht
      exact ⟨lt_trans hi hlimit', hrt⟩
    own := h.own
    staged := fun hid => lt_trans (h.staged hid) hlimit'
    live := by
      intro n i he
      rw [hentry] at he
      split at he
      · -- The new number is above all that is open or staged.
        cases he
        refine ⟨fun hid => absurd (h.staged hid) (lt_irrefl _), fun ht => ?_⟩
        exact absurd (h.numbered ht).1 (lt_irrefl _)
      · exact h.live he }

theorem entry_finalizeDroppedTrees (db : Db) (chosen : List (TreeName × CatalogEntry))
    (n : TreeName) : (finalizeDroppedTrees chosen db).entry n =
      if n ∈ chosen.map Prod.fst then none else db.entry n := by
  have hfold := db.catalog.entry_foldl_delete (chosen.map Prod.fst) n
  rw [List.foldl_map] at hfold
  exact hfold

theorem Inv.finalizeDroppedTrees (h : db.Inv) {chosen : List (TreeName × CatalogEntry)}
    (hchosen : ∀ {n e}, (n, e) ∈ chosen → db.entry n = some ⟨e.treeId, .dropping⟩) :
    (Holt.Database.finalizeDroppedTrees chosen db).Inv := by
  have hentry := db.entry_finalizeDroppedTrees chosen
  have hnames : ∀ n ∈ chosen.map Prod.fst, n ≠ catalogNextTreeIdKey := by
    intro n hn
    obtain ⟨⟨n, e⟩, hmem, rfl⟩ := List.mem_map.mp hn
    exact h.sound.ne_next (hchosen hmem)
  have hsound := h.sound.foldl_delete hnames
  rw [List.foldl_map] at hsound
  have hlimit : (Holt.Database.finalizeDroppedTrees chosen db).catalog.limit = db.catalog.limit :=
    hsound.2
  have htrees : ∀ {i rt}, (Holt.Database.finalizeDroppedTrees chosen db).trees i = some rt →
      db.trees i = some rt := by
    intro i rt ht
    rw [Holt.Database.finalizeDroppedTrees] at ht
    dsimp only at ht
    split at ht
    · cases ht
    · exact ht
  exact {
    sound := hsound.1
    cached := by
      intro n e hc
      rw [Holt.Database.finalizeDroppedTrees] at hc
      dsimp only at hc
      split at hc
      · cases hc
      · rename_i hn
        obtain ⟨e', he', ho⟩ := h.cached hc
        exact ⟨e', by rw [hentry, if_neg hn, he'], ho⟩
    numbered := fun ht => hlimit ▸ h.numbered (htrees ht)
    own := fun ht ht' => h.own (htrees ht) (htrees ht')
    staged := fun hid => hlimit ▸ h.staged hid
    live := by
      intro n i he
      rw [hentry] at he
      split at he
      · cases he
      · obtain ⟨hpending, htree⟩ := h.live he
        exact ⟨hpending, fun ht => htree (htrees ht)⟩ }

end Db

end Holt.Database
