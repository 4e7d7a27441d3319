import Holt.Store.File.Durable

/-! The store over whole runs of calls and crashes. -/

namespace Holt.FileStore

open Holt.Lib

variable {I : Type} {s s' : FileBlobStore I} {history again : List ManifestDelta}

/-! ## What holds between the calls -/

namespace FileBlobStore

/-- `history` is durable; `again` are records that failed flushes left in the log. -/
structure Inv (s : FileBlobStore I) (history again : List ManifestDelta) : Prop where
  manifest : s.manifest.Inv history
  disk : ∃ t log, s.disk.Holds s.manifest history again t log
  dirty : s.manifest.pendingLog ≠ [] → s.manifestDirty = true

theorem inv_fresh : (fresh : FileBlobStore I).Inv [] [] := by
  refine ⟨⟨rfl, ?_, ?_, ?_, ?_, fun _ => rfl, List.nodup_nil, ?_, ?_, Nat.two_pow_pos 64⟩,
    ⟨.empty, [], ?_⟩, fun h => absurd rfl h⟩
  · rintro slot g g' (hg | hg)
    · cases hg
    · cases hg
  · rintro slot g (hg | hg)
    · cases hg
    · cases hg
  · intro slot hs
    cases hs
  · intro slot hs
    cases hs
  · intro slot
    constructor
    · intro h
      cases h
    · rintro (⟨g, hg⟩ | hs | hs)
      · cases hg
      · cases hs
      · cases hs
  · intro delta hd
    cases hd
  · refine ⟨rfl, rfl, ?_, (fun _ hd => by cases hd), rfl, ?_, rfl⟩
    · intro delta hd
      cases hd
    · intro g slot hg
      cases hg

/-- Slots are given to `guids`; the files are not touched. -/
structure Gives (s : FileBlobStore I) (history : List ManifestDelta) (guids : List Guid)
    (s' : FileBlobStore I) : Prop where
  assigned : ∃ dirty, s.manifest.Assigned history guids dirty s'.manifest ∧
    s'.manifestDirty = (s.manifestDirty || dirty)
  disk : s'.disk = s.disk

theorem Gives.inv {guids : List Guid} (hg : s.Gives history guids s')
    (h : s.Inv history again) : s'.Inv history again := by
  obtain ⟨dirty, ha, hdirty⟩ := hg.assigned
  obtain ⟨more, hmore, hnone⟩ := ha.grows
  obtain ⟨t, log, hd⟩ := h.disk
  refine ⟨ha.inv, ⟨t, log, by rw [hg.disk]; exact hd.grows hmore⟩, ?_⟩
  intro hne
  rw [hdirty]
  cases dirty with
  | true => exact Bool.or_true _
  | false =>
    rw [hmore.log, hnone rfl, List.append_nil] at hne
    rw [h.dirty hne, Bool.true_or]

end FileBlobStore

open FileBlobStore

/-! ## The calls -/

theorem assignSlots_sat (h : s.manifest.Inv history) (guids : List Guid) :
    Sat (assignSlots guids) s
      (fun slots s' => s.Gives history guids s' ∧ s'.data = s.data ∧
        List.Forall₂ (fun g slot => s'.manifest.map g = some slot) guids slots)
      (fun _ s' => s' = s) := by
  rw [assignSlots, sat_bind, sat_get]
  cases heq : s.manifest.assignSlots guids with
  | error e => rw [sat_throw]
  | ok r =>
    obtain ⟨slots, dirty, m⟩ := r
    obtain ⟨ha, hslots⟩ := h.assignSlots heq
    simp only [sat_bind, sat_set, sat_pure]
    exact ⟨⟨⟨dirty, ha, rfl⟩, rfl⟩, trivial, hslots⟩

theorem ensureDataCapacity_sat (requiredSlots : Nat) (io : WriteIo I) (s : FileBlobStore I) :
    Sat (ensureDataCapacity requiredSlots io) s
      (fun _ s' => ∃ n slots, s.data.slots ≤ slots ∧
        s' = { s with preallocatedSlots := n, data := { s.data with slots } })
      (fun _ s' => s' = s) := by
  rw [ensureDataCapacity, sat_bind, sat_get]
  split
  · rw [sat_pure]
    exact ⟨_, _, Nat.le_refl _, rfl⟩
  · split
    · rw [sat_throw]
    · simp only [sat_set]
      exact ⟨_, _, Nat.le_max_left .., rfl⟩

/-- A write leaves the file no shorter, and long enough for what it wrote. -/
theorem DataFile.slots_write (f : DataFile I) (writes : List (Nat × Option I)) :
    f.slots ≤ (f.write writes).slots ∧ ∀ w ∈ writes, w.1 < (f.write writes).slots := by
  unfold write
  generalize f.slots = n
  induction writes generalizing n with
  | nil => exact ⟨Nat.le_refl n, fun w hw => by cases hw⟩
  | cons w writes ih =>
    obtain ⟨hle, hall⟩ := ih (max n (w.1 + 1))
    refine ⟨(Nat.le_max_left ..).trans hle, fun v hv => ?_⟩
    rcases List.mem_cons.mp hv with rfl | hv
    · exact (Nat.le_max_right n _).trans hle
    · exact hall v hv

/-- The batch has its slots, and what it writes is in them; a failed one may leave anything in
them, and nothing where the failure came before the writes. -/
theorem writeBlobs_sat (h : s.manifest.Inv history) (writes : List (Guid × I)) (io : WriteIo I) :
    Sat (writeBlobs writes io) s
      (fun _ s' => s.Gives history (writes.map Prod.fst) s' ∧ ∃ slots,
        List.Forall₂ (fun g slot => s'.manifest.map g = some slot) (writes.map Prod.fst) slots ∧
        s'.data.content = overwrite (slots.zip (writes.map fun w => some w.2)) s.data.content ∧
        s.data.slots ≤ s'.data.slots ∧ ∀ slot ∈ slots, slot < s'.data.slots)
      (fun _ s' => s' = s ∨ s.Gives history (writes.map Prod.fst) s' ∧ ∃ slots left,
        List.Forall₂ (fun g slot => s'.manifest.map g = some slot) (writes.map Prod.fst) slots ∧
        s'.data.content = overwrite (slots.zip left) s.data.content ∧
        s.data.slots ≤ s'.data.slots ∧ (left = [] ∨ ∃ xs, io = .writeFails xs)) := by
  rw [writeBlobs]
  by_cases hempty : writes.isEmpty
  · obtain rfl := List.isEmpty_iff.mp hempty
    rw [if_pos hempty, sat_pure]
    exact ⟨⟨⟨false, ⟨h, id, fun _ => rfl, [], .refl _, fun _ => rfl⟩, (Bool.or_false _).symm⟩, rfl⟩,
      [], .nil, rfl, Nat.le_refl _, fun _ hslot => by cases hslot⟩
  · rw [if_neg hempty, sat_bind]
    apply (assignSlots_sat h _).mono
    · rintro slots s₁ ⟨hg, hdata, hslots⟩
      rw [sat_bind]
      apply (ensureDataCapacity_sat _ io s₁).mono
      · rintro - _ ⟨n, k, hk, rfl⟩
        rw [hdata] at hk
        have hlen : slots.length = writes.length := by
          rw [← hslots.length_eq, List.length_map]
        unfold pwriteManyAt
        split
        · rename_i left
          rw [sat_bind, sat_modify, sat_throw]
          refine .inr ⟨⟨hg.assigned, hg.disk⟩, slots, left, hslots, ?_,
            hk.trans (DataFile.slots_write ⟨k, s₁.data.content⟩ _).1, .inr ⟨left, rfl⟩⟩
          dsimp only [DataFile.write]
          rw [hdata, List.map_fst_zip (by rw [List.length_map]; omega)]
        · rw [sat_modify]
          have hzip : slots.zip (writes.map fun w => some w.2) =
              (slots.zip (writes.map Prod.snd)).map fun w => (w.1, some w.2) := by
            change slots.zip (writes.map (some ∘ Prod.snd)) = _
            rw [← List.map_map, List.zip_map_right]
            rfl
          rw [← hzip]
          obtain ⟨hlong, hfits⟩ := DataFile.slots_write (⟨k, s₁.data.content⟩ : DataFile I)
            (slots.zip (writes.map fun w => some w.2))
          refine ⟨⟨hg.assigned, hg.disk⟩, slots, hslots, ?_, hk.trans hlong, fun slot hslot => ?_⟩
          · dsimp only [DataFile.write]
            rw [hdata]
          · have hfst : (slots.zip (writes.map fun w => some w.2)).map Prod.fst = slots :=
              List.map_fst_zip (by rw [List.length_map]; omega)
            rw [← hfst] at hslot
            obtain ⟨w, hw, rfl⟩ := List.mem_map.mp hslot
            exact hfits w hw
      · rintro e s₂ rfl
        exact .inr ⟨hg, slots, [], hslots, by rw [hdata, List.zip_nil_right]; rfl,
          Nat.le_of_eq (by rw [hdata]), .inl rfl⟩
    · rintro e s₁ rfl
      exact .inl rfl

theorem Manifest.assignSlots_singleton (m : Manifest) (guid : Guid) :
    m.assignSlots [guid] = (m.assignSlot guid).map fun r => ([r.1], r.2.1, r.2.2) := by
  rw [Manifest.assignSlots]
  cases m.assignSlot guid with
  | error e => rfl
  | ok r =>
    obtain ⟨slot, fresh, m⟩ := r
    change Except.ok ([slot], fresh || false, m) = _
    rw [Bool.or_false]
    rfl

theorem assignSlots_one (guid : Guid) :
    (assignSlots [guid] : StoreM I _) = assignSlot guid >>= fun slot => pure [slot] := by
  funext s
  have hget : (get : StoreM I _) s = .ok s s := rfl
  rw [assignSlots, assignSlot, bind_of_ok hget, bind_assoc, bind_of_ok hget,
    Manifest.assignSlots_singleton]
  cases s.manifest.assignSlot guid <;> rfl

/-- A single write is a batch of one. -/
theorem writeBlob_eq (guid : Guid) (src : I) (io : WriteIo I) :
    writeBlob guid src io = writeBlobs [(guid, src)] io := by
  simp [writeBlob, writeBlobs, assignSlots_one]

theorem deleteBlob_sat (h : s.Inv history again) (guid : Guid) :
    Sat (deleteBlob guid) s
      (fun _ s' => s'.Inv history again ∧
        s'.manifest.map = Function.update s.manifest.map guid none ∧ s'.disk = s.disk ∧
        s'.data = s.data) (fun _ _ => False) := by
  rw [deleteBlob, sat_modify]
  obtain ⟨t, log, hd⟩ := h.disk
  cases heq : s.manifest.deleteBlob guid with
  | mk dirty m =>
    obtain ⟨hinv, hmap, more, hmore, hnone⟩ := h.manifest.deleteBlob heq
    refine ⟨⟨hinv, ⟨t, log, hd.grows hmore⟩, ?_⟩, hmap, rfl, rfl⟩
    intro hne
    cases dirty with
    | true => exact Bool.or_true _
    | false =>
      have hsame : m.pendingLog = s.manifest.pendingLog := by
        rw [hmore.log, hnone rfl, List.append_nil]
      change (s.manifestDirty || false) = true
      rw [h.dirty (by rw [← hsame]; exact hne), Bool.true_or]

/-- Where nothing is pending, no failed flush left anything behind. -/
theorem FileBlobStore.Inv.again_nil (h : s.Inv history again)
    (hnone : s.manifest.pendingLog = []) : again = [] := by
  obtain ⟨t, log, hd⟩ := h.disk
  apply List.eq_nil_iff_forall_not_mem.mpr
  intro delta hmem
  have hpending := hd.pending delta hmem
  rw [hnone] at hpending
  cases hpending

/-- A flush makes every pending change durable. One that fails after the append leaves the
records in the log. -/
theorem flush_sat (h : s.Inv history again) :
    Sat (flush none) s
      (fun _ s' => s'.Inv (history ++ s.manifest.pendingLog) [] ∧ s'.manifest.pendingLog = [] ∧
        s'.manifest.toTable = s.manifest.toTable ∧ s'.data = s.data ∧
        (s.disk.Synced → s'.disk.Synced))
      (fun _ s' => ∃ again', s'.Inv history again' ∧ s'.manifest.toTable = s.manifest.toTable ∧
        s'.data = s.data) := by
  obtain ⟨t, log, hd⟩ := h.disk
  rw [flush, sat_bind, sat_get]
  by_cases hdirty : s.manifestDirty
  · rw [if_pos hdirty]
    by_cases hnone : s.manifest.pendingLog = []
    · rw [persistPendingDeltas_nil hnone]
      dsimp only
      rw [sat_set]
      have hagain := h.again_nil hnone
      subst hagain
      refine ⟨⟨h.manifest.flushed rfl rfl rfl rfl, ⟨t, log, ?_⟩, ?_⟩, ?_, ?_, rfl, ?_⟩
      · rw [hnone, List.append_nil]
        refine hd.congr ?_ ?_
        · rw [Manifest.pendingLog_publishPendingFreeSlots, hnone]
        · rw [Manifest.toTable_publishPendingFreeSlots]
      · intro hne
        exact absurd (Manifest.pendingLog_publishPendingFreeSlots _) hne
      · exact Manifest.pendingLog_publishPendingFreeSlots _
      · exact Manifest.toTable_publishPendingFreeSlots _
      · exact id
    · obtain ⟨logBytes, hcases⟩ := persistPendingDeltas_appends hnone
      have hinv := h.manifest.flushed_with logBytes
      have hlog := Manifest.pendingLog_publishPendingFreeSlots
        { s.manifest with logBytes, pendingLog := [] }
      have htable := Manifest.toTable_publishPendingFreeSlots
        { s.manifest with logBytes, pendingLog := [] }
      have hnext := congrArg Table.nextSlot htable
      rcases hcases with hok | ⟨hcount, hok⟩ | ⟨e, herr⟩
      · rw [hok]
        dsimp only
        rw [sat_set]
        exact ⟨⟨hinv, ⟨t, _, hd.persisted h.manifest hlog hnext⟩, fun hne => absurd hlog hne⟩,
          hlog, htable, rfl, fun _ => rfl⟩
      · rw [hok]
        dsimp only
        rw [sat_set]
        obtain ⟨t', -, hcompacted⟩ := hd.renamed h.manifest hlog hnext hcount
        exact ⟨⟨hinv, ⟨t', [], hcompacted⟩, fun hne => absurd hlog hne⟩, hlog, htable,
          rfl, fun _ => rfl⟩
      · rw [herr]
        dsimp only
        rw [sat_bind, sat_set, sat_throw]
        have hsame := h.manifest.relogged logBytes
        have hholds : s.disk.Holds { s.manifest with logBytes } history again t log :=
          hd.congr rfl rfl
        refine ⟨again ++ s.manifest.pendingLog, ⟨hsame, ⟨t, log, ?_⟩, fun _ => hdirty⟩, rfl, rfl⟩
        apply hholds.stopped hsame (fun _ hmem => hmem)
        · rfl
        · rw [← List.append_assoc]
          exact hd.bytes_appended s.manifest.pendingLog
  · rw [if_neg hdirty, sat_pure]
    have hnone : s.manifest.pendingLog = [] := by
      by_contra hne
      exact hdirty (h.dirty hne)
    have hagain := h.again_nil hnone
    subst hagain
    rw [hnone, List.append_nil]
    exact ⟨h, rfl, rfl, rfl, id⟩

/-! ## Crashes -/

/-- A point within a call: the files, the changes recorded and not yet known to be durable, and
the slots that the data writes under way go to. -/
structure Moment where
  disk : Disk
  pending : List ManifestDelta
  writing : List (Guid × Nat)

/-- Every step on the disk goes well. -/
def Call.IoSucceeds : Call I → Prop
  | .writeBlob _ _ .done => True
  | .writeBlobs _ .done => True
  | .deleteBlob _ => True
  | .flush none => True
  | _ => False

/-- The files after each of the operations. -/
def Disk.stages (d : Disk) (ops : List DiskOp) : List Disk :=
  (List.range (ops.length + 1)).map fun i => (ops.take i).foldl Disk.apply d

/-- The moments of a call whose steps all go well, from the one before it. -/
def Call.moments (s : FileBlobStore I) : Call I → List Moment
  | .writeBlob guid _ _ =>
    ⟨s.disk, s.manifest.pendingLog, []⟩ ::
      match s.manifest.assignSlot guid with
      | .ok (slot, _, m) => [⟨s.disk, m.pendingLog, [(guid, slot)]⟩]
      | .error _ => []
  | .writeBlobs writes _ =>
    ⟨s.disk, s.manifest.pendingLog, []⟩ ::
      match s.manifest.assignSlots (writes.map Prod.fst) with
      | .ok (slots, _, m) => [⟨s.disk, m.pendingLog, (writes.map Prod.fst).zip slots⟩]
      | .error _ => []
  | .deleteBlob guid =>
    [⟨s.disk, s.manifest.pendingLog, []⟩, ⟨s.disk, (s.manifest.deleteBlob guid).2.pendingLog, []⟩]
  | .flush _ =>
    if s.manifestDirty then
      let ops := match persistPendingDeltas none ⟨s.manifest, []⟩ with
        | .ok _ p => p.ops
        | .error _ p => p.ops
      (s.disk.stages ops).map fun d => ⟨d, s.manifest.pendingLog, []⟩
    else [⟨s.disk, s.manifest.pendingLog, []⟩]

/-- The history that is durable once the call has returned. -/
def Call.persisted (s : FileBlobStore I) (history : List ManifestDelta) :
    Call I → List ManifestDelta
  | .flush _ => history ++ s.manifest.pendingLog
  | _ => history

/-- The stores that calls and crashes lead to, from an empty directory on, each with the history
of changes that the last flush, or the load after a crash, found durable. A crash keeps a prefix of
the log that is no shorter than what was synced. -/
inductive Reach : FileBlobStore I → List ManifestDelta → Prop
  | fresh : Reach .fresh []
  | call {s s' : FileBlobStore I} {history : List ManifestDelta} {c : Call I}
      (before : Reach s history) (io : c.IoSucceeds) (run : c.run s = .ok () s') :
      Reach s' (c.persisted s history)
  | crash {s : FileBlobStore I} {history : List ManifestDelta} {c : Call I} {moment : Moment}
      {n k : Nat} {m : Manifest} {disk : Disk} (before : Reach s history)
      (at' : moment ∈ c.moments s) (kept : moment.disk.synced ≤ n)
      (load : loadOrCreate (moment.disk.crash n) = .ok (m, disk))
      (is : m.map = after (history ++ moment.pending.take k)) (preallocatedSlots : Nat)
      (data : DataFile I) :
      Reach ⟨m, false, preallocatedSlots, disk, data⟩ (history ++ moment.pending.take k)

/-- What a load finds after a crash at the moment. -/
def Moment.Finds (moment : Moment) (history : List ManifestDelta) (n : Nat) : Prop :=
  ∃ k m d, FileStore.Finds (moment.disk.crash n) (after (history ++ moment.pending.take k)) m d ∧
    ∀ g slot, (g, slot) ∈ moment.writing → ∀ g', m.map g' = some slot → g' = g

/-- Before the append of a flush a crash leaves the durable history. -/
theorem FileBlobStore.Inv.idle_finds (h : s.Inv history []) (hs : s.disk.Synced) {n : Nat}
    (hn : s.disk.synced ≤ n) (pending : List ManifestDelta) :
    ∃ m d, FileStore.Finds (s.disk.crash n) (after (history ++ pending.take 0)) m d := by
  obtain ⟨t, log, hd⟩ := h.disk
  rw [List.take_zero, List.append_nil]
  rw [hs] at hn
  exact hd.crash_finds h.manifest hn

/-- The slots that a batch writes mean nothing else to a crash. -/
theorem FileBlobStore.Inv.writing_finds (h : s.Inv history []) (hs : s.disk.Synced)
    {guids : List Guid} {dirty : Bool} {slots : List Nat} {m : Manifest}
    (ha : s.manifest.Assigned history guids dirty m)
    (hslots : List.Forall₂ (fun g slot => m.map g = some slot) guids slots) {n : Nat}
    (hn : s.disk.synced ≤ n) :
    Moment.Finds ⟨s.disk, m.pendingLog, guids.zip slots⟩ history n := by
  obtain ⟨m', d, hf⟩ := h.idle_finds hs hn m.pendingLog
  refine ⟨0, m', d, hf, ?_⟩
  intro g slot hmem g' hg'
  have hg : m.map g = some slot := List.forall₂_zip hslots hmem
  rw [hf.map, List.take_zero, List.append_nil] at hg'
  exact ha.inv.apart (.inl hg') (ha.inv.owns hg)

/-- Every stage of a flush leaves the durable history with some of the pending changes. -/
theorem FileBlobStore.Inv.flush_finds (h : s.Inv history []) (hs : s.disk.Synced)
    {ops : List DiskOp} (hops : ops = match persistPendingDeltas none ⟨s.manifest, []⟩ with
      | .ok _ p => p.ops
      | .error _ p => p.ops) {d : Disk} (hd : d ∈ s.disk.stages ops) {n : Nat}
    (hn : d.synced ≤ n) :
    ∃ k m d', FileStore.Finds (d.crash n)
      (after (history ++ s.manifest.pendingLog.take k)) m d' := by
  obtain ⟨i, -, rfl⟩ := List.mem_map.mp hd
  obtain ⟨t, log, hholds⟩ := h.disk
  have hidle : ∀ ops' : List DiskOp, ops' = [] → (ops'.foldl Disk.apply s.disk).synced ≤ n →
      ∃ k m d', FileStore.Finds ((ops'.foldl Disk.apply s.disk).crash n)
        (after (history ++ s.manifest.pendingLog.take k)) m d' := by
    rintro _ rfl hn
    exact ⟨0, h.idle_finds hs hn _⟩
  by_cases hnone : s.manifest.pendingLog = []
  · rw [persistPendingDeltas_nil hnone] at hops
    exact hidle _ (by rw [hops, List.take_nil]) hn
  obtain ⟨logBytes, hcases⟩ := persistPendingDeltas_appends hnone
  -- the manifest that the flush leaves if it gets to its end
  have hinv := h.manifest.flushed_with logBytes
  have hlog := Manifest.pendingLog_publishPendingFreeSlots
    { s.manifest with logBytes, pendingLog := [] }
  have hnext := congrArg Table.nextSlot (Manifest.toTable_publishPendingFreeSlots
    { s.manifest with logBytes, pendingLog := [] })
  have hall : history ++ s.manifest.pendingLog =
      history ++ s.manifest.pendingLog.take s.manifest.pendingLog.length := by
    rw [List.take_length]
  have hsynced := hholds.persisted h.manifest hlog hnext
  have hdone : ((s.disk.appended s.manifest.pendingLog).apply .syncLog).synced ≤ n →
      ∃ k m d', FileStore.Finds (((s.disk.appended s.manifest.pendingLog).apply .syncLog).crash n)
        (after (history ++ s.manifest.pendingLog.take k)) m d' := by
    intro hn
    have hf := hsynced.crash_finds hinv hn
    rw [hall] at hf
    exact ⟨_, hf⟩
  have hshort : ops = [.appendLog (s.manifest.pendingLog.flatMap encodeManifestDelta), .syncLog] →
      ∃ k m d', FileStore.Finds (((ops.take i).foldl Disk.apply s.disk).crash n)
        (after (history ++ s.manifest.pendingLog.take k)) m d' := by
    intro heq
    rw [heq] at hn ⊢
    match i with
    | 0 => exact hidle _ rfl hn
    | 1 => exact hholds.append_crash_finds h.manifest (by rw [← hs]; exact hn)
    | i + 2 =>
      rw [List.take_of_length_le (by simp)] at hn ⊢
      exact hdone hn
  rcases hcases with hok | ⟨hcount, hok⟩ | ⟨e, herr⟩
  · rw [hok] at hops
    exact hshort hops
  · rw [hok] at hops
    dsimp only at hops
    obtain ⟨t', hrenamed, hcompacted⟩ := hholds.renamed h.manifest hlog hnext hcount
    rw [hops] at hn ⊢
    match i with
    | 0 => exact hidle _ rfl hn
    | 1 => exact hholds.append_crash_finds h.manifest (by rw [← hs]; exact hn)
    | 2 => exact hdone hn
    | 3 =>
      have hf := hrenamed.crash_finds hinv hn
      rw [hall] at hf
      exact ⟨_, hf⟩
    | i + 4 =>
      rw [List.take_of_length_le (by simp)] at hn ⊢
      have hf := hcompacted.crash_finds hinv hn
      rw [hall] at hf
      exact ⟨_, hf⟩
  · rw [herr] at hops
    exact hshort hops

/-- Whatever survives a crash within a call leads to a prefix of the history, and no slot that is
being written means another blob there. -/
theorem FileBlobStore.Inv.moment_finds (h : s.Inv history []) (hs : s.disk.Synced) {c : Call I}
    {moment : Moment} (hm : moment ∈ c.moments s) {n : Nat} (hn : moment.disk.synced ≤ n) :
    moment.Finds history n := by
  have hidle : ∀ pending, moment = ⟨s.disk, pending, []⟩ → moment.Finds history n := by
    rintro pending rfl
    obtain ⟨m, d, hf⟩ := h.idle_finds hs hn pending
    exact ⟨0, m, d, hf, fun g slot hmem => by cases hmem⟩
  cases c with
  | writeBlob guid src io =>
    rcases List.mem_cons.mp hm with hm | hm
    · exact hidle _ hm
    · cases heq : s.manifest.assignSlot guid with
      | error e =>
        rw [heq] at hm
        cases hm
      | ok r =>
        obtain ⟨slot, dirty, m⟩ := r
        rw [heq] at hm
        cases List.mem_singleton.mp hm
        obtain ⟨ha, hslot⟩ := h.manifest.assignSlot heq
        exact h.writing_finds hs ha (.cons hslot .nil) hn
  | writeBlobs writes io =>
    rcases List.mem_cons.mp hm with hm | hm
    · exact hidle _ hm
    · cases heq : s.manifest.assignSlots (writes.map Prod.fst) with
      | error e =>
        rw [heq] at hm
        cases hm
      | ok r =>
        obtain ⟨slots, dirty, m⟩ := r
        rw [heq] at hm
        cases List.mem_singleton.mp hm
        obtain ⟨ha, hslots⟩ := h.manifest.assignSlots heq
        exact h.writing_finds hs ha hslots hn
  | deleteBlob guid =>
    rcases List.mem_cons.mp hm with hm | hm
    · exact hidle _ hm
    · exact hidle _ (List.mem_singleton.mp hm)
  | flush stop =>
    rw [Call.moments] at hm
    split at hm
    · obtain ⟨d, hd, rfl⟩ := List.mem_map.mp hm
      obtain ⟨k, m, d', hf⟩ := h.flush_finds hs rfl hd hn
      exact ⟨k, m, d', hf, fun g slot hmem => by cases hmem⟩
    · exact hidle _ (List.mem_singleton.mp hm)

theorem FileBlobStore.Inv.call (h : s.Inv history []) (hs : s.disk.Synced) {c : Call I}
    (hio : c.IoSucceeds) (hrun : c.run s = .ok () s') :
    s'.Inv (c.persisted s history) [] ∧ s'.disk.Synced := by
  have hwrites : ∀ {writes io}, writeBlobs writes io s = .ok () s' →
      s'.Inv history [] ∧ s'.disk.Synced := by
    intro writes io hrun
    have hgives := ((writeBlobs_sat h.manifest writes io).of_ok hrun).1
    exact ⟨hgives.inv h, by rw [hgives.disk]; exact hs⟩
  cases c with
  | writeBlob guid src io =>
    rw [Call.run, writeBlob_eq] at hrun
    exact hwrites hrun
  | writeBlobs writes io => exact hwrites hrun
  | deleteBlob guid =>
    obtain ⟨hinv, -, hdisk, -⟩ := (deleteBlob_sat h guid).of_ok hrun
    exact ⟨hinv, by rw [hdisk]; exact hs⟩
  | flush stop =>
    cases stop with
    | some n => exact hio.elim
    | none =>
      obtain ⟨hinv, -, -, -, hsynced⟩ := (flush_sat h).of_ok hrun
      exact ⟨hinv, hsynced hs⟩

theorem Reach.inv (h : Reach s history) : s.Inv history [] ∧ s.disk.Synced := by
  induction h with
  | fresh => exact ⟨inv_fresh, rfl⟩
  | call before io run ih => exact ih.1.call ih.2 io run
  | crash before at' kept load is preallocatedSlots data ih =>
    obtain ⟨k, m, d, hf, -⟩ := ih.1.moment_finds ih.2 at' kept
    have hsame := load.symm.trans hf.load
    cases hsame
    obtain ⟨hinv, hd⟩ := hf.inv _ (hf.map.symm.trans is)
    exact ⟨⟨hinv, hd, fun hne => absurd hf.pendingLog hne⟩, hf.synced (Disk.synced_crash _ _)⟩

/-- Whenever a crash comes, the manifest is loaded back: its map is the one after some prefix of
the history of changes that has all of what the last flush made durable, no two blobs share a slot,
`next_slot` lies above them, and exactly the holes are reusable. A slot that is being written for
a blob means no other blob in the manifest a crash at that moment leaves. -/
theorem manifest_recovery_exact (h : Reach s history) {c : Call I} {moment : Moment}
    (hm : moment ∈ c.moments s) {n : Nat} (hn : moment.disk.synced ≤ n) :
    ∃ m d, loadOrCreate (moment.disk.crash n) = .ok (m, d) ∧
      (∃ k, ∀ g, m.slots.lookup g = after (history ++ moment.pending.take k) g) ∧
      (∀ g g' slot, m.slots.lookup g = some slot → m.slots.lookup g' = some slot → g = g') ∧
      (∀ g slot, m.slots.lookup g = some slot → slot < m.nextSlot) ∧
      (∀ slot, slot ∈ m.reusableSlots.slots ↔
        slot < m.nextSlot ∧ ∀ g, m.slots.lookup g ≠ some slot) ∧
      ∀ g slot, (g, slot) ∈ moment.writing → ∀ g', m.slots.lookup g' = some slot → g' = g := by
  obtain ⟨k, m, d, hf, hw⟩ := h.inv.1.moment_finds h.inv.2 hm hn
  refine ⟨m, d, hf.load, ⟨k, congrFun hf.map⟩, fun _ _ _ => hf.sound.apart,
    fun _ _ => hf.sound.below, ?_, hw⟩
  intro slot
  rw [hf.holes slot, ← hf.map]
  rfl

/-- Two blobs are written and flushed, one of them is deleted, and a flush gives its slot back. -/
def oneDeleted : FileBlobStore Unit :=
  [Call.writeBlob (.ofByte 1) () .done, .writeBlob (.ofByte 2) () .done, .flush none,
    .deleteBlob (.ofByte 1), .flush none].foldl (fun s c => leaves c.run s) .fresh

/-- A third blob is being written to that slot. -/
theorem manifest_recovery_exact_reused :
    ∃ m d, loadOrCreate (oneDeleted.disk.crash oneDeleted.disk.synced) = .ok (m, d) ∧
      (∃ k, ∀ g, m.slots.lookup g = after ([.set (.ofByte 1) 0, .set (.ofByte 2) 1,
        .delete (.ofByte 1)] ++ [ManifestDelta.set (.ofByte 3) 0].take k) g) ∧
      (∀ g g' slot, m.slots.lookup g = some slot → m.slots.lookup g' = some slot → g = g') ∧
      (∀ g slot, m.slots.lookup g = some slot → slot < m.nextSlot) ∧
      (∀ slot, slot ∈ m.reusableSlots.slots ↔
        slot < m.nextSlot ∧ ∀ g, m.slots.lookup g ≠ some slot) ∧
      ∀ g slot, (g, slot) ∈ [(Guid.ofByte 3, 0)] →
        ∀ g', m.slots.lookup g' = some slot → g' = g := by
  have hreach : Reach oneDeleted [.set (.ofByte 1) 0, .set (.ofByte 2) 1, .delete (.ofByte 1)] :=
    ((((Reach.fresh.call (c := .writeBlob (.ofByte 1) () .done) trivial rfl).call
      (c := .writeBlob (.ofByte 2) () .done) trivial rfl).call (c := .flush none) trivial rfl).call
      (c := .deleteBlob (.ofByte 1)) trivial rfl).call (c := .flush none) trivial rfl
  have hm : ⟨oneDeleted.disk, [.set (.ofByte 3) 0], [(.ofByte 3, 0)]⟩ ∈
      (Call.writeBlob (.ofByte 3) () .done).moments oneDeleted :=
    List.mem_cons_of_mem _ List.mem_cons_self
  exact manifest_recovery_exact hreach hm (Nat.le_refl _)

end Holt.FileStore
