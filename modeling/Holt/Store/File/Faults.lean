import Holt.Store.File.Crashes
import Holt.Lib.Machine

/-! The store when steps on its files fail. -/

namespace Holt.FileStore

open Holt.Lib FileBlobStore

variable {I : Type}

inductive Action (I : Type)
  | call (c : Call I)
  | reopen

/-! ## Appends that break off -/

/-- The calls go on after one has failed. -/
def FileBlobStore.step (s : FileBlobStore I) : Action I → Option (FileBlobStore I)
  | .call c => some (leaves c.run s)
  | .reopen =>
    match reopen s with
    | .ok _ s' => some s'
    | .error _ _ => none

/-- An append to the manifest log that breaks off does so between two records. -/
def StopsBetweenRecords (s : FileBlobStore I) : Action I → Prop
  | .call (.flush (some n)) => ∃ k, (s.manifest.pendingLog.flatMap encodeManifestDelta).take n =
      (s.manifest.pendingLog.take k).flatMap encodeManifestDelta
  | _ => True

variable {s s' : FileBlobStore I} {history again : List ManifestDelta}

theorem writeBlobs_inv (h : s.Inv history again) (writes : List (Guid × I)) (io : WriteIo I) :
    (leaves (writeBlobs writes io) s).Inv history again := by
  refine (writeBlobs_sat h.manifest writes io).leaves (p := fun s' => s'.Inv history again) ?_ ?_
  · rintro - s' ⟨hg, -⟩
    exact hg.inv h
  · rintro - s' (rfl | ⟨hg, -⟩)
    · exact h
    · exact hg.inv h

/-- The store after a flush, whether it went well or not. -/
structure Flushed (s s' : FileBlobStore I) : Prop where
  inv : ∃ history' again', s'.Inv history' again'
  table : s'.manifest.toTable = s.manifest.toTable
  data : s'.data = s.data

theorem flush_inv (h : s.Inv history again) : Flushed s (leaves (flush none) s) := by
  refine (flush_sat h).leaves (p := Flushed s) ?_ ?_
  · rintro - s' ⟨hinv, -, htable, hdata, -⟩
    exact ⟨⟨_, _, hinv⟩, htable, hdata⟩
  · rintro - s' ⟨again', hinv, htable, hdata⟩
    exact ⟨⟨_, _, hinv⟩, htable, hdata⟩

theorem flush_stops_inv (h : s.Inv history again) {n k : Nat}
    (hn : (s.manifest.pendingLog.flatMap encodeManifestDelta).take n =
      (s.manifest.pendingLog.take k).flatMap encodeManifestDelta) :
    Flushed s (leaves (flush (some n)) s) := by
  by_cases hnone : s.manifest.pendingLog = []
  · -- there is nothing to append, so nothing breaks off
    have hsame : leaves (flush (some n)) s = leaves (flush none) s := by
      have heq : (flush (some n) : StoreM I Unit) s = flush none s := by
        change (if s.manifestDirty then _ else _ : StoreM I Unit) s =
          (if s.manifestDirty then _ else _ : StoreM I Unit) s
        rw [persistPendingDeltas_nil hnone, persistPendingDeltas_nil hnone]
      rw [leaves, leaves, heq]
    rw [hsame]
    exact flush_inv h
  · have hstops : flush (some n) s = .error (.blobStoreIo .other) { s with
        disk := s.disk.apply
          (.appendLog ((s.manifest.pendingLog.flatMap encodeManifestDelta).take n)) } := by
      change (if s.manifestDirty then _ else _ : StoreM I Unit) s = _
      rw [if_pos (h.dirty hnone), persistPendingDeltas_stops hnone]
      rfl
    rw [leaves, hstops]
    obtain ⟨t, log, hd⟩ := h.disk
    have hholds : (s.disk.apply (.appendLog
        ((s.manifest.pendingLog.flatMap encodeManifestDelta).take n))).Holds s.manifest history
        (again ++ s.manifest.pendingLog.take k) t log := by
      apply hd.stopped h.manifest (fun _ hmem => List.mem_of_mem_take hmem)
      · rfl
      · rw [hn, ← List.append_assoc]
        exact hd.bytes_appended _
    exact ⟨⟨history, _, h.manifest, ⟨t, log, hholds⟩, h.dirty⟩, rfl, rfl⟩

theorem reopen_eq {m : Manifest} {d : Disk} (h : loadOrCreate s.disk = .ok (m, d)) :
    reopen s = .ok () (s.opened m d) := by
  have hget : (get : StoreM I _) s = .ok s s := rfl
  rw [reopen, bind_of_ok hget, h]
  rfl

theorem reopen_inv (h : s.Inv history again) (hr : reopen s = .ok () s') :
    s'.Inv (history ++ again) [] ∧ s'.manifest.map = after (history ++ again) ∧
      s'.data = s.data := by
  obtain ⟨t, log, hd⟩ := h.disk
  obtain ⟨m, d, hf, -⟩ := hd.finds h.manifest
  rw [reopen_eq hf.load] at hr
  cases hr
  obtain ⟨hinv, hdisk⟩ := hf.inv _ rfl
  exact ⟨⟨hinv, hdisk, fun hne => absurd hf.pendingLog hne⟩, hf.map, rfl⟩

/-- An open after a flush that went well finds the map as it was. -/
theorem reopen_after_flush (h : s.Inv history again) (hf : flush none s = .ok () s') :
    ∃ opened, reopen s' = .ok () opened ∧ opened.manifest.map = s.manifest.map ∧
      opened.data = s.data := by
  obtain ⟨hs, hlog, htable, hdata, -⟩ := (flush_sat h).of_ok hf
  obtain ⟨t, log, hd⟩ := hs.disk
  obtain ⟨m, d, hfinds, -⟩ := hd.finds hs.manifest
  refine ⟨s'.opened m d, reopen_eq hfinds.load, ?_, hdata⟩
  change m.map = _
  rw [hfinds.map, List.append_nil, h.manifest.current]

theorem readBlob_eq {g : Guid} {slot : Nat} (h : s.manifest.map g = some slot)
    (hslot : slot < s.data.slots) : readBlob g s = .ok (s.data.content slot) s := by
  have hget : (get : StoreM I _) s = .ok s s := rfl
  rw [readBlob, bind_of_ok hget, show s.manifest.slots.lookup g = some slot from h]
  exact congrFun (if_pos hslot) s

theorem inv_of_run {s : FileBlobStore I}
    (h : Run FileBlobStore.step StopsBetweenRecords .fresh s) :
    ∃ history again, s.Inv history again := by
  refine h.invariant (I := fun s => ∃ history again, s.Inv history again) ⟨[], [], inv_fresh⟩ ?_
  rintro s s' a ⟨history, again, hinv⟩ hmay hstep
  cases a with
  | reopen =>
    rw [FileBlobStore.step] at hstep
    split at hstep
    · rename_i hr
      cases hstep
      exact ⟨_, _, (reopen_inv hinv hr).1⟩
    · cases hstep
  | call c =>
    cases hstep
    cases c with
    | writeBlob guid src io =>
      rw [Call.run, writeBlob_eq]
      exact ⟨_, _, writeBlobs_inv hinv _ io⟩
    | writeBlobs writes io => exact ⟨_, _, writeBlobs_inv hinv writes io⟩
    | deleteBlob guid =>
      refine ⟨history, again, ?_⟩
      exact (deleteBlob_sat hinv guid).leaves (p := fun s' => s'.Inv history again)
        (fun _ _ h => h.1) fun _ _ h => h.elim
    | flush stop =>
      cases stop with
      | none => exact (flush_inv hinv).inv
      | some n =>
        obtain ⟨k, hk⟩ := hmay
        exact (flush_stops_inv hinv hk).inv

/-- As long as appends that break off leave whole records, an open after a flush that went well
finds the manifest as it was then. -/
theorem flush_after_failed_append {s s' : FileBlobStore I}
    (h : Run FileBlobStore.step StopsBetweenRecords .fresh s) (hf : flush none s = .ok () s') :
    ∃ m d, loadOrCreate s'.disk = .ok (m, d) ∧
      (∀ g, m.slots.lookup g = s'.manifest.slots.lookup g) ∧
      m.nextSlot = s'.manifest.nextSlot ∧
      ∀ slot, slot ∈ m.reusableSlots.slots ↔ slot ∈ s'.manifest.reusableSlots.slots := by
  obtain ⟨history, again, hinv⟩ := inv_of_run h
  obtain ⟨hinv', hlog, hfree, -⟩ := (flush_sat hinv).of_ok hf
  obtain ⟨t, log, hd⟩ := hinv'.disk
  obtain ⟨m, d, hfinds, hnext⟩ := hd.finds hinv'.manifest
  have hmap : m.map = s'.manifest.map := by
    rw [hfinds.map, hinv'.manifest.current, hlog]
  have hnext' : m.nextSlot = s'.manifest.nextSlot := by
    rw [hnext, ← hd.next, hlog, List.append_nil (log ++ [])]
  refine ⟨m, d, hfinds.load, congrFun hmap, hnext', ?_⟩
  intro slot
  rw [hfinds.holes slot, hnext', ← hfinds.map, hmap, hinv'.manifest.exact slot,
    hinv'.manifest.published hlog]
  constructor
  · rintro ⟨⟨g, hg⟩ | hs | hs, hunused⟩
    · exact absurd hg (hunused g)
    · exact hs
    · cases hs
  · intro hs
    exact ⟨.inr (.inl hs), fun g hg =>
      hinv'.manifest.free slot hs g (hinv'.manifest.owns hg)⟩

/-- A blob is written, and the append of its record breaks off behind `n` bytes. -/
def brokenOff (n : Nat) : FileBlobStore Unit :=
  leaves (flush (some n)) (leaves (writeBlob (.ofByte 1) () .done) .fresh)

theorem brokenOff_run {may : FileBlobStore Unit → Action Unit → Prop} {n : Nat}
    (hwrite : may .fresh (.call (.writeBlob (.ofByte 1) () .done)))
    (hflush : may (leaves (writeBlob (.ofByte 1) () .done) .fresh) (.call (.flush (some n)))) :
    Run FileBlobStore.step may .fresh (brokenOff n) :=
  (Run.start.next hwrite rfl).next hflush rfl

theorem flush_after_failed_append_retried :
    ∃ s', flush none (brokenOff 0) = .ok () s' ∧ ∃ m d, loadOrCreate s'.disk = .ok (m, d) ∧
      (∀ g, m.slots.lookup g = s'.manifest.slots.lookup g) ∧
      m.nextSlot = s'.manifest.nextSlot ∧
      ∀ slot, slot ∈ m.reusableSlots.slots ↔ slot ∈ s'.manifest.reusableSlots.slots :=
  ⟨_, rfl, flush_after_failed_append (brokenOff_run trivial ⟨0, rfl⟩) rfl⟩

/-- Where the append breaks off behind the first byte, the flush that is tried again goes well, but
the log then starts with `"MMLG1"` and the store cannot be opened. -/
theorem flush_after_torn_append_fails :
    Run FileBlobStore.step (fun _ _ => True) .fresh (brokenOff 1) ∧
      ∃ s', flush none (brokenOff 1) = .ok () s' ∧
        loadOrCreate s'.disk = .error (.corrupt "FileBlobStore::ManifestLog::magic") :=
  ⟨brokenOff_run trivial trivial, _, rfl, rfl⟩

/-- Whatever fails on the way, no two blobs share a slot, and a slot that no blob has is listed
once, as reusable or as waiting for a flush. -/
theorem slots_accounted {s : FileBlobStore I}
    (h : Run FileBlobStore.step StopsBetweenRecords .fresh s) :
    s.manifest.toTable.Sound ∧
    (s.manifest.reusableSlots.slots ++ s.manifest.pendingFreeSlots).Nodup ∧
    ∀ slot, slot ∈ s.manifest.reusableSlots.slots ++ s.manifest.pendingFreeSlots ↔
      slot < s.manifest.nextSlot ∧ ∀ g, s.manifest.slots.lookup g ≠ some slot := by
  obtain ⟨_, _, hinv, -⟩ := inv_of_run h
  refine ⟨hinv.sound, hinv.nodup, fun slot => ?_⟩
  rw [List.mem_append, hinv.exact]
  constructor
  · refine fun hs => ⟨.inr hs, fun g hg => ?_⟩
    exact hs.elim (fun hr => hinv.free slot hr g (hinv.owns hg)) fun hp => hinv.freed slot hp g hg
  · rintro ⟨⟨g, hg⟩ | hs, hnone⟩
    · exact absurd hg (hnone g)
    · exact hs

/-- A blob is written, a flush breaks off, and the blob is deleted. -/
def deletedBroken : FileBlobStore Unit := leaves (deleteBlob (.ofByte 1)) (brokenOff 0)

theorem slots_accounted_broken :
    deletedBroken.manifest.pendingFreeSlots = [0] ∧ deletedBroken.manifest.toTable.Sound ∧
    (deletedBroken.manifest.reusableSlots.slots ++
      deletedBroken.manifest.pendingFreeSlots).Nodup ∧
    ∀ slot, slot ∈ deletedBroken.manifest.reusableSlots.slots ++
        deletedBroken.manifest.pendingFreeSlots ↔
      slot < deletedBroken.manifest.nextSlot ∧
        ∀ g, deletedBroken.manifest.slots.lookup g ≠ some slot :=
  ⟨rfl, slots_accounted ((brokenOff_run trivial ⟨0, rfl⟩).next
    (a := .call (.deleteBlob (.ofByte 1))) trivial rfl)⟩

/-! ## Data writes that fail -/

/-- The store, what its write calls were given, and the blobs whose slot is in doubt: the last
write to it failed, or it was given a slot that no write got to. -/
structure Session (I : Type) where
  store : FileBlobStore I
  supplied : List (Guid × I)
  inDoubt : List Guid

namespace Session

def fresh : Session I := ⟨.fresh, [], []⟩

/-- The blobs that a failed batch puts in doubt. -/
def touched (s : Session I) (guids : List Guid) : WriteIo I → List Guid
  | .writeFails _ => guids
  | _ => guids.filter fun g => (s.store.manifest.slots.lookup g).isNone

/-- A batch went through `result`. -/
def wrote (s : Session I) (writes : List (Guid × I)) (io : WriteIo I)
    (result : EStateM.Result Error (FileBlobStore I) Unit) : Session I :=
  let guids := writes.map Prod.fst
  match result with
  | .ok _ store => ⟨store, writes ++ s.supplied, s.inDoubt.filter fun g => g ∉ guids⟩
  | .error _ store => ⟨store, writes ++ s.supplied, s.touched guids io ++ s.inDoubt⟩

def step (s : Session I) : Action I → Option (Session I)
  | .call (.writeBlob guid src io) =>
    some (s.wrote [(guid, src)] io (writeBlob guid src io s.store))
  | .call (.writeBlobs writes io) => some (s.wrote writes io (writeBlobs writes io s.store))
  | .call (.deleteBlob guid) =>
    some { s with
      store := leaves (deleteBlob guid) s.store
      inDoubt := s.inDoubt.filter fun g => g ≠ guid }
  | .call (.flush stop) => some { s with store := leaves (flush stop) s.store }
  | .reopen =>
    match reopen s.store with
    | .ok _ store => some { s with store }
    | .error _ _ => none

/-- The store is flushed only when every blob of a failed write was written again or deleted since.
A flush that breaks off does so between two records, and on the way the store is opened again only
with nothing pending. -/
def FlushesSettled (s : Session I) : Action I → Prop
  | .call (.flush none) => s.inDoubt = []
  | .call (.flush (some n)) => StopsBetweenRecords s.store (.call (.flush (some n)))
  | .reopen => s.inDoubt = [] ∧ s.store.manifest.pendingLog = []
  | _ => True

/-- A blob that is not in doubt holds what a write call supplied for it. -/
structure Inv (s : Session I) (history again : List ManifestDelta) : Prop where
  store : s.store.Inv history again
  holds : ∀ {g : Guid} {slot : Nat}, s.store.manifest.map g = some slot → g ∉ s.inDoubt →
    ∃ src, (g, src) ∈ s.supplied ∧ s.store.data.content slot = some src ∧ slot < s.store.data.slots

variable {s s' : Session I}

/-- Whatever stands in a slot of the batch was written for the blob that has the slot. -/
theorem mem_of_zip {writes : List (Guid × I)} {slots : List Nat} {r : Guid → Nat → Prop}
    (h : List.Forall₂ r (writes.map Prod.fst) slots) {slot : Nat} {v : Option I}
    (hv : (slot, v) ∈ slots.zip (writes.map fun w => some w.2)) :
    ∃ w ∈ writes, r w.1 slot ∧ v = some w.2 := by
  induction writes generalizing slots with
  | nil =>
    rw [List.map_nil, List.zip_nil_right] at hv
    cases hv
  | cons w writes ih =>
    cases h with
    | cons hw hrest =>
      rcases List.mem_cons.mp hv with heq | hv
      · cases heq
        exact ⟨w, List.mem_cons_self, hw, rfl⟩
      · obtain ⟨w', hmem, hr, hsrc⟩ := ih hrest hv
        exact ⟨w', List.mem_cons_of_mem w hmem, hr, hsrc⟩

theorem mem_left {α β : Type} {r : α → β → Prop} {xs : List α} {ys : List β}
    (h : List.Forall₂ r xs ys) {x : α} (hx : x ∈ xs) : ∃ y ∈ ys, r x y := by
  induction h with
  | nil => cases hx
  | cons hr _ ih =>
    rcases List.mem_cons.mp hx with rfl | hx
    · exact ⟨_, List.mem_cons_self, hr⟩
    · obtain ⟨y, hy, hr'⟩ := ih hx
      exact ⟨y, List.mem_cons_of_mem _ hy, hr'⟩

theorem listed_of_not_touched {guids : List Guid} {io : WriteIo I} {g : Guid} (hg : g ∈ guids)
    (h : g ∉ s.touched guids io) : ∃ slot, s.store.manifest.map g = some slot := by
  apply Option.ne_none_iff_exists'.mp
  intro hnone
  apply h
  cases io with
  | writeFails left => exact hg
  | done | preallocationFails =>
    exact List.mem_filter.mpr ⟨hg, Option.isNone_iff_eq_none.mpr hnone⟩

theorem wrote_inv (h : s.Inv history again) (writes : List (Guid × I)) (io : WriteIo I) :
    (s.wrote writes io (writeBlobs writes io s.store)).Inv history again := by
  have hsat := writeBlobs_sat h.store.manifest writes io
  cases hrun : writeBlobs writes io s.store with
  | ok u store =>
    obtain ⟨hg, slots, hslots, hdata, hlong, hfits⟩ := hsat.of_ok hrun
    obtain ⟨dirty, ha, -⟩ := hg.assigned
    refine ⟨hg.inv h.store, ?_⟩
    intro g slot hmap hdoubt
    change ∃ src, (g, src) ∈ writes ++ s.supplied ∧ store.data.content slot = some src ∧
      slot < store.data.slots
    rw [hdata]
    have hlen : slots.length ≤ (writes.map fun w => some w.2).length := by
      rw [← hslots.length_eq, List.length_map, List.length_map]
    by_cases hslot : slot ∈ (slots.zip (writes.map fun w => some w.2)).map Prod.fst
    · -- the slot was written, and for no other blob
      obtain ⟨w, hw, hwslot, hsrc⟩ := mem_of_zip hslots (overwrite_mem hslot s.store.data.content)
      cases ha.inv.sound.apart hwslot hmap
      rw [List.map_fst_zip hlen] at hslot
      exact ⟨w.2, List.mem_append_left _ hw, hsrc, hfits slot hslot⟩
    · rw [List.map_fst_zip hlen] at hslot
      have hother : g ∉ writes.map Prod.fst := by
        intro hmem
        obtain ⟨slot', hslot', hmap'⟩ := mem_left hslots hmem
        cases hmap.symm.trans hmap'
        exact hslot hslot'
      obtain ⟨src, hsrc, hold, hin⟩ := h.holds (ha.only hother ▸ hmap)
        fun hd => hdoubt (List.mem_filter.mpr ⟨hd, decide_eq_true hother⟩)
      rw [overwrite_untouched (by rwa [List.map_fst_zip hlen])]
      exact ⟨src, List.mem_append_right _ hsrc, hold, hin.trans_le hlong⟩
  | error e store =>
    -- nothing is said about the blobs that this puts in doubt
    have hold : ∀ {g slot}, s.store.manifest.map g = some slot → g ∉ s.inDoubt →
        ∃ src, (g, src) ∈ writes ++ s.supplied ∧ s.store.data.content slot = some src ∧
          slot < s.store.data.slots := by
      intro g slot hmap hdoubt
      obtain ⟨src, hsrc, hdata⟩ := h.holds hmap hdoubt
      exact ⟨src, List.mem_append_right _ hsrc, hdata⟩
    rcases hsat.of_error hrun with rfl | ⟨hg, slots, left, hslots, hdata, hlong, hleft⟩
    · exact ⟨h.store, fun hmap hdoubt =>
        hold hmap fun hd => hdoubt (List.mem_append_right _ hd)⟩
    · obtain ⟨dirty, ha, -⟩ := hg.assigned
      refine ⟨hg.inv h.store, ?_⟩
      intro g slot hmap hdoubt
      have hdoubt' : g ∉ s.inDoubt := fun hd => hdoubt (List.mem_append_right _ hd)
      suffices hkept : ∃ src, (g, src) ∈ writes ++ s.supplied ∧
          store.data.content slot = some src ∧ slot < s.store.data.slots by
        obtain ⟨src, hsrc, hcontent, hin⟩ := hkept
        exact ⟨src, hsrc, hcontent, hin.trans_le hlong⟩
      rw [hdata]
      by_cases hmem : g ∈ writes.map Prod.fst
      · -- its slot was not written to, and it had one before
        have hclear : g ∉ s.touched (writes.map Prod.fst) io :=
          fun ht => hdoubt (List.mem_append_left _ ht)
        have hnone : left = [] := by
          rcases hleft with hnil | ⟨xs, rfl⟩
          · exact hnil
          · exact absurd hmem hclear
        obtain ⟨slot', hslot'⟩ := listed_of_not_touched hmem hclear
        cases (ha.kept hslot').symm.trans hmap
        rw [hnone, List.zip_nil_right, overwrite_nil]
        exact hold hslot' hdoubt'
      · have hslot : slot ∉ (slots.zip left).map Prod.fst := by
          intro hkey
          obtain ⟨⟨slot', v⟩, hzip, rfl⟩ := List.mem_map.mp hkey
          have hin : slot' ∈ slots := (List.of_mem_zip hzip).1
          obtain ⟨g', hg', hmap'⟩ := mem_left hslots.flip hin
          cases ha.inv.sound.apart hmap' hmap
          exact hmem hg'
        rw [overwrite_untouched hslot]
        exact hold (ha.only hmem ▸ hmap) hdoubt'

/-- The map and the data file are as they were. -/
theorem Inv.congr (h : s.Inv history again) {store : FileBlobStore I}
    {history' again' : List ManifestDelta} (hs : store.Inv history' again')
    (hmap : store.manifest.map = s.store.manifest.map) (hdata : store.data = s.store.data) :
    Inv { s with store } history' again' := by
  refine ⟨hs, ?_⟩
  intro g slot hg hdoubt
  change ∃ src, (g, src) ∈ s.supplied ∧ store.data.content slot = some src ∧
    slot < store.data.slots
  rw [hdata]
  exact h.holds (hmap ▸ hg) hdoubt

theorem Inv.deleteBlob (h : s.Inv history again) (guid : Guid) :
    Inv { s with
      store := leaves (deleteBlob guid) s.store
      inDoubt := s.inDoubt.filter fun g => g ≠ guid } history again := by
  refine (deleteBlob_sat h.store guid).leaves (p := fun store => Inv { s with
      store, inDoubt := s.inDoubt.filter fun g => g ≠ guid } history again) ?_
    fun _ _ hfalse => hfalse.elim
  rintro - store ⟨hs, hmap, -, hdata⟩
  refine ⟨hs, ?_⟩
  intro g slot hg hdoubt
  change ∃ src, (g, src) ∈ s.supplied ∧ store.data.content slot = some src ∧
    slot < store.data.slots
  change store.manifest.map g = some slot at hg
  rw [hmap] at hg
  by_cases hk : g = guid
  · rw [hk, Function.update_self] at hg
    cases hg
  · rw [Function.update_of_ne hk] at hg
    rw [hdata]
    exact h.holds hg fun hd => hdoubt (List.mem_filter.mpr ⟨hd, decide_eq_true hk⟩)

theorem inv_of_run (h : Run step FlushesSettled fresh s) :
    ∃ history again, s.Inv history again := by
  refine h.invariant (I := fun s => ∃ history again, s.Inv history again)
    ⟨[], [], inv_fresh, fun hmap => by cases hmap⟩ ?_
  rintro s s' a ⟨history, again, hinv⟩ hmay hstep
  cases a with
  | reopen =>
    obtain ⟨-, hlog⟩ := hmay
    have hagain := hinv.store.again_nil hlog
    rw [step] at hstep
    split at hstep
    · rename_i u store hr
      cases hstep
      obtain ⟨hstore, hmap, hdata⟩ := reopen_inv hinv.store hr
      refine ⟨_, _, hinv.congr hstore ?_ hdata⟩
      rw [hmap, hinv.store.manifest.current, hagain, hlog]
    · cases hstep
  | call c =>
    cases c with
    | writeBlob guid src io =>
      cases hstep
      rw [writeBlob_eq]
      exact ⟨history, again, wrote_inv hinv _ io⟩
    | writeBlobs writes io =>
      cases hstep
      exact ⟨history, again, wrote_inv hinv writes io⟩
    | deleteBlob guid =>
      cases hstep
      exact ⟨history, again, hinv.deleteBlob guid⟩
    | flush stop =>
      cases hstep
      have hflushed : Flushed s.store (leaves (flush stop) s.store) := by
        cases stop with
        | none => exact flush_inv hinv.store
        | some n =>
          obtain ⟨k, hk⟩ := hmay
          exact flush_stops_inv hinv.store hk
      obtain ⟨history', again', hs⟩ := hflushed.inv
      exact ⟨_, _, hinv.congr hs (by rw [hflushed.table]) hflushed.data⟩

/-- As long as failed writes are made good before a flush, every blob that an open after the flush
lists reads back as bytes that a write call supplied for it. -/
theorem flush_exposes_written (h : Run step FlushesSettled fresh s)
    (hsettled : FlushesSettled s (.call (.flush none))) {store : FileBlobStore I}
    (hf : flush none s.store = .ok () store) :
    ∃ opened, reopen store = .ok () opened ∧ ∀ g slot,
      opened.manifest.slots.lookup g = some slot →
        ∃ src, (g, src) ∈ s.supplied ∧ readBlob g opened = .ok (some src) opened := by
  obtain ⟨history, again, hinv⟩ := inv_of_run h
  obtain ⟨opened, hopen, hmap, hdata⟩ := reopen_after_flush hinv.store hf
  refine ⟨opened, hopen, ?_⟩
  intro g slot hg
  have hdoubt : g ∉ s.inDoubt := by
    intro hmem
    rw [show s.inDoubt = [] from hsettled] at hmem
    cases hmem
  have hold : s.store.manifest.map g = some slot := by
    rw [← hmap]
    exact hg
  obtain ⟨src, hsrc, hcontent, hslot⟩ := hinv.holds hold hdoubt
  refine ⟨src, hsrc, ?_⟩
  rw [readBlob_eq hg (by rwa [hdata]), hdata, hcontent]

/-- The first blob is written, and the write of the second one fails. -/
def lost : Session Unit :=
  let s : Session Unit :=
    fresh.wrote [(.ofByte 1, ())] .done (writeBlob (.ofByte 1) () .done .fresh)
  s.wrote [(.ofByte 2, ())] (.writeFails []) (writeBlob (.ofByte 2) () (.writeFails []) s.store)

theorem lost_run {may : Session Unit → Action Unit → Prop}
    (hmay : ∀ s g io, may s (.call (.writeBlob g () io))) : Run step may fresh lost :=
  (Run.start.next (a := .call (.writeBlob (.ofByte 1) () .done)) (hmay ..) rfl).next
    (a := .call (.writeBlob (.ofByte 2) () (.writeFails []))) (hmay ..) rfl

/-- A flush fails as well, and the second blob is written again. -/
def retried : Session Unit :=
  let s : Session Unit := { lost with store := leaves (flush (some 0)) lost.store }
  s.wrote [(.ofByte 2, ())] .done (writeBlob (.ofByte 2) () .done s.store)

theorem flush_exposes_written_retried :
    ∃ store opened, flush none retried.store = .ok () store ∧ reopen store = .ok () opened ∧
      ∀ g slot, opened.manifest.slots.lookup g = some slot →
        ∃ src, (g, src) ∈ retried.supplied ∧ readBlob g opened = .ok (some src) opened := by
  have hrun : Run step FlushesSettled fresh retried :=
    ((lost_run fun _ _ _ => trivial).next (a := .call (.flush (some 0))) ⟨0, rfl⟩ rfl).next
      (a := .call (.writeBlob (.ofByte 2) () .done)) trivial rfl
  obtain ⟨opened, h⟩ := flush_exposes_written hrun rfl rfl
  exact ⟨_, opened, rfl, h⟩

/-- The flush makes the slot of the second blob durable although nothing was written to it: the
blob is listed, and reads back as bytes nobody wrote. -/
theorem flush_exposes_unwritten :
    Run step (fun _ _ => True) fresh lost ∧ ∃ store opened, flush none lost.store = .ok () store ∧
      reopen store = .ok () opened ∧ opened.manifest.slots.lookup (.ofByte 2) = some 1 ∧
      readBlob (.ofByte 2) opened = .ok none opened := by
  have hrun : Run step (fun _ _ => True) fresh lost := lost_run fun _ _ _ => trivial
  obtain ⟨history, again, hinv⟩ := inv_of_run (lost_run fun _ _ _ => trivial)
  obtain ⟨opened, hopen, hmap, hdata⟩ := reopen_after_flush hinv.store rfl
  have hlisted : opened.manifest.map (.ofByte 2) = some 1 := by
    rw [hmap]
    rfl
  have hlong : 1 < opened.data.slots := by
    rw [hdata]
    decide
  refine ⟨hrun, _, opened, rfl, hopen, hlisted, ?_⟩
  rw [readBlob_eq hlisted hlong, hdata]
  rfl

end Session

end Holt.FileStore
