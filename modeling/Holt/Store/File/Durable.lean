import Holt.Store.File.History

/-! What the two manifest files hold between the calls of the store, and what a load finds in
them. -/

namespace Holt.FileStore

open Holt.Lib

/-- The whole log is synced. -/
def Disk.Synced (d : Disk) : Prop := d.synced = (d.log.getD []).length

/-- The files lead to the map after `history`: the snapshot to the table `t`, and the records
`log` from there on. The records `again` behind them were left by flushes that failed; their
changes are all still pending. -/
structure Disk.Holds (d : Disk) (m : Manifest) (history again : List ManifestDelta) (t : Table)
    (log : List ManifestDelta) : Prop where
  parse : d.parse = .ok t
  bytes : d.log.getD [] = (log ++ again).flatMap encodeManifestDelta
  fits : ∀ delta ∈ log ++ again, delta.Fits
  pending : ∀ delta ∈ again, delta ∈ m.pendingLog
  map : overwrite (log.map ManifestDelta.write) t.map = after history
  below : ∀ {g : Guid} {slot : Nat}, t.map g = some slot → slot < t.nextSlot
  next : ((log ++ again ++ m.pendingLog).foldl Table.apply t).nextSlot = m.nextSlot

section Disk

variable {d : Disk} {m m' : Manifest} {history again log : List ManifestDelta} {t : Table}

theorem Disk.Holds.grows (h : d.Holds m history again t log) {more : List ManifestDelta}
    (hg : m.Grows m' more) : d.Holds m' history again t log := by
  refine ⟨h.parse, h.bytes, h.fits, ?_, h.map, h.below, ?_⟩
  · intro delta hd
    rw [hg.log]
    exact List.mem_append_left _ (h.pending delta hd)
  · rw [hg.log, ← List.append_assoc, List.foldl_append]
    exact hg.next _ h.next

/-- The replay of the records a failed flush left behind is undone by the replay of the pending
changes. -/
theorem Disk.Holds.map_pending (h : d.Holds m history again t log) :
    overwrite ((log ++ again ++ m.pendingLog).map ManifestDelta.write) t.map =
      after (history ++ m.pendingLog) := by
  rw [List.map_append, List.map_append, overwrite_append, overwrite_append, h.map, after_append]
  apply overwrite_covered
  intro g hg
  rw [List.map_map] at hg ⊢
  obtain ⟨delta, hd, rfl⟩ := List.mem_map.mp hg
  exact List.mem_map.mpr ⟨delta, h.pending delta hd, rfl⟩

/-- The pending changes are appended to the log. -/
def Disk.appended (d : Disk) (pending : List ManifestDelta) : Disk :=
  d.apply (.appendLog (pending.flatMap encodeManifestDelta))

theorem Disk.Holds.bytes_appended (h : d.Holds m history again t log)
    (pending : List ManifestDelta) :
    (d.appended pending).log.getD [] =
      (log ++ again ++ pending).flatMap encodeManifestDelta := by
  change d.log.getD [] ++ _ = _
  exact h.bytes ▸ List.flatMap_append.symm

theorem Disk.Holds.congr (h : d.Holds m history again t log) (hlog : m'.pendingLog = m.pendingLog)
    (hnext : m'.nextSlot = m.nextSlot) : d.Holds m' history again t log := by
  refine ⟨h.parse, h.bytes, h.fits, ?_, h.map, h.below, ?_⟩
  · rw [hlog]
    exact h.pending
  · rw [hlog, hnext]
    exact h.next

/-- A failed flush leaves records of pending changes behind. -/
theorem Disk.Holds.stopped (h : d.Holds m history again t log) (hm : m.Inv history)
    {more : List ManifestDelta} (hsub : ∀ delta ∈ more, delta ∈ m.pendingLog) {d' : Disk}
    (hbin : d'.bin = d.bin)
    (hbytes : d'.log.getD [] = (log ++ (again ++ more)).flatMap encodeManifestDelta) :
    d'.Holds m history (again ++ more) t log := by
  have hmem : ∀ delta, delta ∈ log ++ (again ++ more) ++ m.pendingLog ↔
      delta ∈ log ++ again ++ m.pendingLog := by
    intro delta
    have hd := hsub delta
    simp only [List.mem_append]
    tauto
  have hfits : ∀ delta ∈ log ++ again ++ m.pendingLog, delta.Fits := by
    intro delta hd
    rcases List.mem_append.mp hd with hd | hd
    · exact h.fits delta hd
    · exact hm.fits delta hd
  refine ⟨?_, hbytes, ?_, ?_, h.map, h.below, ?_⟩
  · rw [Disk.parse, hbin]
    exact h.parse
  · intro delta hd
    exact hfits delta ((hmem delta).mp (List.mem_append_left _ hd))
  · intro delta hd
    rcases List.mem_append.mp hd with hd | hd
    · exact h.pending delta hd
    · exact hsub delta hd
  · rw [← h.next]
    apply Nat.le_antisymm
    · exact Table.nextSlot_foldl_mono hfits (fun delta => (hmem delta).mp) t
    · exact Table.nextSlot_foldl_mono (fun delta hd => hfits delta ((hmem delta).mp hd))
        (fun delta => (hmem delta).mpr) t

variable (hm : m.Inv history) (hpending : m'.pendingLog = []) (hnext : m'.nextSlot = m.nextSlot)

include hm hpending hnext

/-- The log is appended to and synced. -/
theorem Disk.Holds.persisted (h : d.Holds m history again t log) :
    ((d.appended m.pendingLog).apply .syncLog).Holds m' (history ++ m.pendingLog) [] t
      (log ++ again ++ m.pendingLog) := by
  refine ⟨h.parse, ?_, ?_, (fun _ hd => by cases hd), h.map_pending, h.below, ?_⟩
  · rw [List.append_nil]
    exact h.bytes_appended m.pendingLog
  · rw [List.append_nil]
    intro delta hd
    rcases List.mem_append.mp hd with hd | hd
    · exact h.fits delta hd
    · exact hm.fits delta hd
  · rw [hpending, List.append_nil, List.append_nil, h.next, hnext]

/-- The snapshot has taken the place of the old one, and the old log still stands behind it. -/
theorem Disk.Holds.renamed (h : d.Holds m history again t log)
    (hcount : m.slots.entries.length < 2 ^ 32) :
    ∃ t', (((d.appended m.pendingLog).apply .syncLog).apply (.renameSnapshot m.snapshot)).Holds m'
        (history ++ m.pendingLog) [] t' (log ++ again ++ m.pendingLog) ∧
      ((((d.appended m.pendingLog).apply .syncLog).apply (.renameSnapshot m.snapshot)).apply
        .truncateLog).Holds m' (history ++ m.pendingLog) [] t' [] := by
  obtain ⟨t', hparse, hmap, hnext'⟩ := parseSnapshot_snapshot hm.sound hcount hm.bound
  have hbelow : ∀ {g slot}, t'.map g = some slot → slot < t'.nextSlot := by
    intro g slot hg
    rw [hmap] at hg
    rw [hnext']
    exact hm.sound.below hg
  have hp := h.persisted hm hpending hnext
  -- the log changes nothing a second time
  have hagain : overwrite ((log ++ again ++ m.pendingLog).map ManifestDelta.write) t'.map =
      after (history ++ m.pendingLog) := by
    rw [hmap, hm.current, ← h.map_pending, overwrite_again]
  have hreach : ((log ++ again ++ m.pendingLog).foldl Table.apply t').nextSlot = m'.nextSlot := by
    apply Nat.le_antisymm
    · rw [hnext]
      apply Table.nextSlot_foldl_of_le (Nat.le_of_eq hnext')
      intro g slot hmem
      rw [← h.next]
      apply Table.slot_lt_foldl _ t hmem
      intro delta hd
      exact hp.fits delta (List.mem_append_left _ hd)
    · rw [hnext, ← hnext']
      exact Table.nextSlot_le_foldl _ _
  refine ⟨t', ⟨hparse, hp.bytes, hp.fits, hp.pending, hagain, hbelow, ?_⟩,
    ⟨hparse, rfl, ?_, (fun _ hd => by cases hd), ?_, hbelow, ?_⟩⟩
  · rw [hpending, List.append_nil, List.append_nil]
    exact hreach
  · intro delta hd
    cases hd
  · rw [List.map_nil, overwrite_nil, hmap, hm.current]
  · rw [hpending, hnext, ← hnext']
    rfl

end Disk

/-! ## Loading -/

/-- A load finds the map `f`, and what it leaves stands behind every history that leads there. -/
structure Finds (d : Disk) (f : Guid → Option Nat) (m : Manifest) (d' : Disk) : Prop where
  load : loadOrCreate d = .ok (m, d')
  map : m.map = f
  sound : m.toTable.Sound
  pendingLog : m.pendingLog = []
  holes : ∀ slot, slot ∈ m.reusableSlots.slots ↔ slot < m.nextSlot ∧ ∀ g, f g ≠ some slot
  synced : d.Synced → d'.Synced
  inv : ∀ history, f = after history → m.Inv history ∧ ∃ t log, d'.Holds m history [] t log

/-- The log was kept up to some point behind the records `log`. -/
theorem load_finds {d : Disk} {t : Table} {log more history : List ManifestDelta} {n : Nat}
    (hparse : d.parse = .ok t)
    (hbytes : d.log.getD [] = ((log ++ more).flatMap encodeManifestDelta).take n)
    (hn : (log.flatMap encodeManifestDelta).length ≤ n)
    (hfits : ∀ delta ∈ log ++ more, delta.Fits)
    (hmap : overwrite (log.map ManifestDelta.write) t.map = after history)
    (hbelow : ∀ {g slot}, t.map g = some slot → slot < t.nextSlot)
    (hapart : ∀ {k g g' slot}, after (history ++ more.take k) g = some slot →
      after (history ++ more.take k) g' = some slot → g = g')
    (hbound : ((log ++ more).foldl Table.apply t).nextSlot < 2 ^ 64) :
    ∃ k m d', Finds d (after (history ++ more.take k)) m d' ∧
      m.toTable = (log ++ more.take k).foldl Table.apply t := by
  have hwhole := wholeWithin_append encodeManifestDelta log more hn
  obtain ⟨k, -, hk⟩ := wholeWithin_eq_take encodeManifestDelta more
    (n - (log.flatMap encodeManifestDelta).length)
  rw [hk] at hwhole
  have hsub : ∀ delta ∈ log ++ more.take k, delta.Fits := by
    intro delta hd
    rcases List.mem_append.mp hd with hd | hd
    · exact hfits delta (List.mem_append_left _ hd)
    · exact hfits delta (List.mem_append_right _ (List.mem_of_mem_take hd))
  have hmap' : ((log ++ more.take k).foldl Table.apply t).map =
      after (history ++ more.take k) := by
    rw [Table.map_foldl_apply, List.map_append, overwrite_append, hmap, after_append]
  have hsound : ((log ++ more.take k).foldl Table.apply t).Sound := by
    constructor
    · intro g g' slot hg hg'
      rw [hmap'] at hg hg'
      exact hapart hg hg'
    · intro g slot hg
      exact Table.below_foldl hsub hbelow hg
  have hbound' : ((log ++ more.take k).foldl Table.apply t).nextSlot < 2 ^ 64 := by
    have hle := Table.nextSlot_le_foldl (more.drop k) ((log ++ more.take k).foldl Table.apply t)
    rw [← List.foldl_append, List.append_assoc, List.take_append_drop] at hle
    exact Nat.lt_of_le_of_lt hle hbound
  obtain ⟨m, d', hload, hl⟩ := loadOrCreate_eq hparse hbytes hfits
    (by rw [hwhole]; exact hsound)
  rw [hwhole] at hl
  have hm : m.map = after (history ++ more.take k) := by rw [hl.table, hmap']
  refine ⟨k, m, d', ⟨hload, hm, by rw [hl.table]; exact hsound, hl.pendingLog, ?_, hl.synced, ?_⟩,
    hl.table⟩
  · intro slot
    rw [hl.holes slot, hl.table, hmap']
  · intro history' hh
    refine ⟨Manifest.Inv.loaded hl hsound hbound' (hm.trans hh), t, log ++ more.take k, ?_⟩
    refine ⟨?_, ?_, ?_, (fun _ hd => by cases hd), ?_, hbelow, ?_⟩
    · rw [Disk.parse, hl.bin]
      exact hparse
    · rw [List.append_nil]
      exact hl.log
    · rw [List.append_nil]
      exact hsub
    · rw [← Table.map_foldl_apply, hmap', hh]
    · rw [hl.pendingLog, List.append_nil, List.append_nil, hl.table]

section Loads

variable {d : Disk} {m : Manifest} {history again log : List ManifestDelta} {t : Table}

/-- A load with nothing lost. -/
theorem Disk.Holds.finds (h : d.Holds m history again t log) (hm : m.Inv history) :
    ∃ m' d', Finds d (after (history ++ again)) m' d' ∧
      m'.nextSlot = ((log ++ again).foldl Table.apply t).nextSlot := by
  have hbytes : d.log.getD [] = ((log ++ again ++ []).flatMap encodeManifestDelta).take
      ((log ++ again).flatMap encodeManifestDelta).length := by
    rw [List.append_nil, List.take_length, h.bytes]
  have hmap : overwrite ((log ++ again).map ManifestDelta.write) t.map =
      after (history ++ again) := by
    rw [List.map_append, overwrite_append, h.map, after_append]
  have hbound : ((log ++ again ++ []).foldl Table.apply t).nextSlot < 2 ^ 64 := by
    have hle := Table.nextSlot_le_foldl m.pendingLog ((log ++ again).foldl Table.apply t)
    rw [← List.foldl_append, h.next] at hle
    rw [List.append_nil]
    exact Nat.lt_of_le_of_lt hle hm.bound
  obtain ⟨k, m', d', hf, htable⟩ := load_finds h.parse hbytes (Nat.le_refl _)
    (by rw [List.append_nil]; exact h.fits) hmap h.below (fun {k g g' slot} hg hg' => by
      rw [List.take_nil, List.append_nil] at hg hg'
      exact hm.apart (Manifest.owns_of_after h.pending hg) (Manifest.owns_of_after h.pending hg'))
    hbound
  rw [List.take_nil, List.append_nil] at hf htable
  exact ⟨m', d', hf, congrArg Table.nextSlot htable⟩

theorem Disk.log_crash (d : Disk) (n : Nat) :
    (d.crash n).log.getD [] = (d.log.getD []).take n := by
  change (d.log.map (List.take n)).getD [] = _
  cases d.log with
  | none => rw [Option.map_none, Option.getD_none, List.take_nil]
  | some bytes => rfl

theorem Disk.synced_crash (d : Disk) (n : Nat) : (d.crash n).Synced := by
  rw [Disk.Synced, d.log_crash]
  rfl

/-- What survives a crash that loses nothing. -/
theorem Disk.Holds.crash_finds (h : d.Holds m history [] t log) (hm : m.Inv history) {n : Nat}
    (hn : (d.log.getD []).length ≤ n) : ∃ m' d', Finds (d.crash n) (after history) m' d' := by
  have hcrash : (d.crash n).Holds m history [] t log := by
    refine ⟨h.parse, ?_, h.fits, h.pending, h.map, h.below, h.next⟩
    rw [d.log_crash, List.take_of_length_le hn, h.bytes]
  obtain ⟨m', d', hf, -⟩ := hcrash.finds hm
  rw [List.append_nil] at hf
  exact ⟨m', d', hf⟩

/-- What survives a crash before an append is synced. -/
theorem Disk.Holds.append_crash_finds (h : d.Holds m history [] t log) (hm : m.Inv history)
    {n : Nat} (hn : (d.log.getD []).length ≤ n) :
    ∃ k m' d', Finds ((d.appended m.pendingLog).crash n)
      (after (history ++ m.pendingLog.take k)) m' d' := by
  rw [h.bytes, List.append_nil] at hn
  have hbytes := h.bytes_appended m.pendingLog
  have hnext := h.next
  rw [List.append_nil] at hbytes hnext
  have hparse : ((d.appended m.pendingLog).crash n).parse = .ok t := h.parse
  have hlog := (d.appended m.pendingLog).log_crash n
  rw [hbytes] at hlog
  have hsub : ∀ k, ∀ delta ∈ m.pendingLog.take k, delta ∈ m.pendingLog :=
    fun _ _ hd => List.mem_of_mem_take hd
  have hfits : ∀ delta ∈ log ++ m.pendingLog, delta.Fits := by
    intro delta hd
    rcases List.mem_append.mp hd with hd | hd
    · exact h.fits delta (List.mem_append_left _ hd)
    · exact hm.fits delta hd
  obtain ⟨k, m', d', hf, -⟩ := load_finds hparse hlog hn hfits h.map h.below
    (fun {k g g' slot} hg hg' => hm.apart (Manifest.owns_of_after (hsub k) hg)
      (Manifest.owns_of_after (hsub k) hg')) (by rw [hnext]; exact hm.bound)
  exact ⟨k, m', d', hf⟩

end Loads

/-! ## Flushing -/

theorem persistPendingDeltas_nil {m : Manifest} (h : m.pendingLog = []) (stop : Option Nat) :
    persistPendingDeltas stop ⟨m, []⟩ = .ok () ⟨m, []⟩ := by
  change (if m.pendingLog.isEmpty then (pure () : PersistM Unit) else _) ⟨m, []⟩ = _
  rw [h]
  rfl

theorem persistPendingDeltas_stops {m : Manifest} (h : m.pendingLog ≠ []) (n : Nat) :
    persistPendingDeltas (some n) ⟨m, []⟩ = .error (.blobStoreIo .other)
      ⟨m, [.appendLog ((m.pendingLog.flatMap encodeManifestDelta).take n)]⟩ := by
  change (if m.pendingLog.isEmpty then (pure () : PersistM Unit) else _) ⟨m, []⟩ = _
  rw [if_neg (by rwa [List.isEmpty_iff])]
  rfl

theorem persistSnapshot_eq (p : Persist) :
    persistSnapshot p =
      if 2 ^ 32 ≤ p.manifest.slots.entries.length then .error (.blobStoreIo .other) p
      else .ok () { p with ops := p.ops ++ [.renameSnapshot p.manifest.snapshot] } := by
  change (if 2 ^ 32 ≤ p.manifest.slots.entries.length then
    (throw (.blobStoreIo .other) : PersistM Unit)
    else emit (.renameSnapshot p.manifest.snapshot)) p = _
  split <;> rfl

theorem compactLog_eq (p : Persist) :
    compactLog p =
      if p.manifest.shouldCompactLog then
        if 2 ^ 32 ≤ p.manifest.slots.entries.length then .error (.blobStoreIo .other) p
        else .ok ()
          ⟨{ p.manifest with logBytes := 0 },
            p.ops ++ [.renameSnapshot p.manifest.snapshot] ++ [.truncateLog]⟩
      else .ok () p := by
  change (if p.manifest.shouldCompactLog then persistSnapshot >>= fun _ => truncateLog
    else (pure () : PersistM Unit)) p = _
  split
  · change EStateM.bind persistSnapshot (fun _ => truncateLog) p = _
    rw [EStateM.bind, persistSnapshot_eq]
    by_cases hcount : 2 ^ 32 ≤ p.manifest.slots.entries.length
    · rw [if_pos hcount, if_pos hcount]
    · rw [if_neg hcount, if_neg hcount]
      rfl
  · rfl

/-- Where the append goes well, the log is synced; then it may be compacted. -/
theorem persistPendingDeltas_appends {m : Manifest} (h : m.pendingLog ≠ []) :
    ∃ logBytes, let m' := { m with logBytes }
      let ops := [.appendLog (m.pendingLog.flatMap encodeManifestDelta), .syncLog]
      persistPendingDeltas none ⟨m, []⟩ = .ok () ⟨m', ops⟩ ∨
      (m.slots.entries.length < 2 ^ 32 ∧ persistPendingDeltas none ⟨m, []⟩ =
        .ok () ⟨m', ops ++ [.renameSnapshot m.snapshot, .truncateLog]⟩) ∨
      ∃ e, persistPendingDeltas none ⟨m, []⟩ = .error e ⟨m', ops⟩ := by
  have heq : persistPendingDeltas none ⟨m, []⟩ = compactLog
      ⟨{ m with logBytes := m.logBytes + (m.pendingLog.flatMap encodeManifestDelta).length },
        [.appendLog (m.pendingLog.flatMap encodeManifestDelta), .syncLog]⟩ := by
    change (if m.pendingLog.isEmpty then (pure () : PersistM Unit) else _) ⟨m, []⟩ = _
    rw [if_neg (by rwa [List.isEmpty_iff])]
    rfl
  rw [heq, compactLog_eq]
  generalize m.logBytes + (m.pendingLog.flatMap encodeManifestDelta).length = logBytes
  dsimp only
  split
  · split
    · exact ⟨logBytes, .inr (.inr ⟨_, rfl⟩)⟩
    · rename_i hcount
      exact ⟨0, .inr (.inl ⟨Nat.lt_of_not_le hcount, rfl⟩)⟩
  · exact ⟨logBytes, .inl rfl⟩

end Holt.FileStore
