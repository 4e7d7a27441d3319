import Holt.Journal.Damage
import Holt.Store.File.Recovery

/-! Damage to one byte of the manifest log, and whether the load notices. -/

namespace Holt.FileStore

open Holt.Lib
open Holt.Codec (crc32 crc32_set_ne)

/-- The length of the record in front of `buf` leads past the end of `buf`. -/
def PastEnd (buf : List UInt8) : Prop :=
  buf.length < manifestLogHeaderSize + leNat (slice buf 4 8) + manifestLogFooterSize

instance (buf : List UInt8) : Decidable (PastEnd buf) := inferInstanceAs (Decidable (_ < _))

/-- A body of another length is no body of the same kind of change. -/
theorem decodeDelta_of_length_ne {delta : ManifestDelta} {body : List UInt8}
    (h : body.length ≠ delta.body.length) : ∃ err, decodeDelta delta.ty body = .error err := by
  unfold decodeDelta
  cases delta with
  | set guid slot =>
    rw [if_pos (show (ManifestDelta.set guid slot).ty = manifestLogTySet from rfl), dif_neg]
    · exact ⟨_, rfl⟩
    · intro hlen
      apply h
      rw [hlen, ManifestDelta.body, List.length_append, guid.sized, length_leBytes]
      rfl
  | delete guid =>
    have hset : ¬ manifestLogTyDelete = manifestLogTySet := by decide
    rw [if_neg (show ¬ (ManifestDelta.delete guid).ty = manifestLogTySet from hset),
      if_pos (show (ManifestDelta.delete guid).ty = manifestLogTyDelete from rfl), dif_neg]
    · exact ⟨_, rfl⟩
    · intro hlen
      exact h (hlen.trans guid.sized.symm)

section

variable {delta : ManifestDelta} {rest buf : List UInt8} {i : Nat} {b : UInt8}

/-- Every change of one byte is an error, but a length that leads past the end of the log looks like
its torn end. -/
theorem readManifestDelta_damaged (hi : i < (encodeManifestDelta delta).length)
    (hne : (encodeManifestDelta delta)[i]? ≠ some b)
    (hbuf : buf = (encodeManifestDelta delta ++ rest).set i b) :
    (PastEnd buf → readManifestDelta buf = .ok none) ∧
      (¬ PastEnd buf → ∃ err, readManifestDelta buf = .error err) := by
  obtain ⟨hmagic, hlen, hty⟩ := encodeManifestDelta_header delta rest
  obtain ⟨hhead, hcrc, hbody⟩ := encodeManifestDelta_parts delta rest
  have hwhole : (encodeManifestDelta delta ++ rest).length =
      manifestLogHeaderSize + delta.body.length + manifestLogFooterSize + rest.length := by
    rw [List.length_append, length_encodeManifestDelta]
  have hlength := congrArg List.length hbuf
  rw [List.length_set, hwhole] at hlength
  have hi' : i < (encodeManifestDelta delta ++ rest).length := by
    rw [List.length_append]
    omega
  have hne' : (encodeManifestDelta delta ++ rest)[i]? ≠ some b := by
    rwa [List.getElem?_append_left hi]
  have h9 : manifestLogHeaderSize = 9 := rfl
  have h4 : manifestLogFooterSize = 4 := rfl
  rw [length_encodeManifestDelta] at hi
  have hread := readManifestDelta.eq_1 buf
  rw [if_neg (by omega)] at hread
  have hfield : ∀ start stop, start ≤ i → i < stop →
      slice buf start stop ≠ slice (encodeManifestDelta delta ++ rest) start stop :=
    fun start stop hstart hstop heq => slice_set_ne hstart hstop hi' hne' (hbuf ▸ heq)
  have hnat : ∀ start stop, start ≤ i → i < stop →
      leNat (slice buf start stop) ≠ leNat (slice (encodeManifestDelta delta ++ rest) start stop) :=
    fun start stop hstart hstop heq => hfield start stop hstart hstop (leNat_inj (by
      rw [length_slice, length_slice, hbuf, List.length_set]) heq)
  by_cases hm : i < 4
  · -- The magic is damaged, the length is as it was.
    have hlen' : leNat (slice buf 4 8) = delta.body.length := by
      rw [hbuf, slice_set_of_lt _ hm, hlen]
    refine ⟨fun hpast => absurd hpast ?_, fun _ => ⟨_, hread.trans (if_pos ?_)⟩⟩
    · unfold PastEnd
      omega
    · exact hmagic ▸ hfield _ _ (Nat.zero_le _) hm
  rw [if_neg (not_not_intro (by rw [hbuf, slice_set_of_ge _ (by omega), hmagic]))] at hread
  dsimp only at hread
  by_cases hl : i < 8
  · -- The length is damaged, the kind of change is not.
    have hlen' := hnat 4 8 (by omega) hl
    rw [hlen] at hlen'
    refine ⟨fun hpast => hread.trans (if_pos hpast), fun hfits => ?_⟩
    unfold PastEnd at hfits
    rw [if_neg hfits] at hread
    split at hread
    · exact ⟨_, hread⟩
    · have hty' : slice buf 8 9 = [delta.ty] := by rw [hbuf, slice_set_of_lt _ hl, hty]
      have hshort : (slice buf manifestLogHeaderSize
          (manifestLogHeaderSize + leNat (slice buf 4 8))).length ≠ delta.body.length := by
        rw [length_slice]
        omega
      obtain ⟨err, herr⟩ := decodeDelta_of_length_ne hshort
      rw [hty', List.headD_cons, herr] at hread
      exact ⟨err, hread⟩
  have hlen' : leNat (slice buf 4 8) = delta.body.length := by
    rw [hbuf, slice_set_of_ge _ (by omega), hlen]
  refine ⟨fun hpast => absurd hpast ?_, fun _ => ?_⟩
  · unfold PastEnd
    omega
  rw [hlen', if_neg (by omega), if_pos] at hread
  · exact ⟨_, hread⟩
  by_cases hc : i < manifestLogHeaderSize + delta.body.length
  · -- What the checksum covers is damaged.
    have hcovered : delta.head[i]? ≠ some b := by
      rwa [encodeManifestDelta, List.getElem?_append_left (by rw [delta.length_head]; exact hc)]
        at hne
    have hhead' : slice buf 0 (manifestLogHeaderSize + delta.body.length) = delta.head.set i b := by
      rw [hbuf, slice, Nat.sub_zero, List.drop_zero, List.take_set]
      rw [slice, Nat.sub_zero, List.drop_zero] at hhead
      rw [hhead]
    rw [hhead', hbuf, slice_set_of_lt _ hc, hcrc, leNat_leBytes (UInt32.toNat_lt _)]
    intro heq
    exact crc32_set_ne (by rw [delta.length_head]; exact hc) hcovered
      (UInt32.toNat_inj.mp heq.symm)
  · -- The checksum itself is damaged.
    have hstored := hnat (manifestLogHeaderSize + delta.body.length)
      (manifestLogHeaderSize + delta.body.length + manifestLogFooterSize) (by omega) (by omega)
    rw [hcrc, leNat_leBytes (UInt32.toNat_lt _)] at hstored
    rwa [show slice buf 0 (manifestLogHeaderSize + delta.body.length) = delta.head by
      rw [hbuf, slice_set_of_ge _ (by omega), hhead]]

end

/-- An error, or the table that the records lead to, with the log left as long as it was. -/
def Honest (d : Disk) (log : List ManifestDelta) : Except Error (Manifest × Disk) → Prop
  | .error _ => True
  | .ok (m, d') =>
    d'.log = d.log ∧ ∀ t, d.parse = .ok t → m.toTable.map = (log.foldl Table.apply t).map

/-- The replay comes to what follows the first records. -/
theorem replayLog_append {before : List ManifestDelta} (hbefore : ∀ q ∈ before, q.IsU64)
    (rest : List UInt8) (t : Table) :
    ∃ k, replayLog (before.flatMap encodeManifestDelta ++ rest) t =
      replay readManifestDelta Table.apply (k + 1) rest (before.foldl Table.apply t)
        (before.flatMap encodeManifestDelta).length := by
  have hle : ∀ l : List ManifestDelta, l.length ≤ (l.flatMap encodeManifestDelta).length := by
    intro l
    induction l with
    | nil => exact Nat.le_refl 0
    | cons q l ih =>
      have := manifestLog_framed.pos q
      rw [List.flatMap_cons, List.length_append, List.length_cons]
      omega
  obtain ⟨k, hk⟩ : ∃ k, (before.flatMap encodeManifestDelta ++ rest).length + 1 =
      before.length + (k + 1) := by
    refine ⟨(before.flatMap encodeManifestDelta ++ rest).length - before.length, ?_⟩
    have := hle before
    rw [List.length_append]
    omega
  refine ⟨k, ?_⟩
  rw [replayLog, hk, replay_append manifestLog_framed hbefore, Nat.zero_add]

/-- Loading goes by the table that the log leads to and by the number of its valid bytes. -/
theorem loadOrCreate_of_replay {d : Disk} {buf : List UInt8} (hlog : d.log = some buf)
    {t t' : Table} (hparse : d.parse = .ok t) {n : Nat} (hreplay : replayLog buf t = .ok (t', n)) :
    (∀ err, ReusableSlots.reconstruct t'.nextSlot t'.usedSlots = .error err →
        loadOrCreate d = .error err) ∧
      ∀ r, ReusableSlots.reconstruct t'.nextSlot t'.usedSlots = .ok r →
        ∃ m d', loadOrCreate d = .ok (m, d') ∧
          d'.log = if n < buf.length then some (buf.take n) else some buf := by
  have hbuf : d.log.getD [] = buf := by rw [hlog]; rfl
  constructor
  · intro err herr
    rw [loadOrCreate, hparse]
    simp only [bind, Except.bind, hbuf, hreplay, herr]
  · intro r hr
    rw [loadOrCreate, hparse]
    simp only [bind, Except.bind, hbuf, hreplay, hr]
    refine ⟨_, _, rfl, ?_⟩
    split
    · rfl
    · exact hlog

/-- One changed byte goes unnoticed when it makes the length of its record lead past the end of the
log, and only then. What stands before that record is as it was, and loads. -/
theorem manifest_damage_noticed_iff {d : Disk} {before after : List ManifestDelta}
    {delta : ManifestDelta} (hu64 : ∀ q ∈ before ++ delta :: after, q.IsU64) {i : Nat} {b : UInt8}
    (hi : i < (encodeManifestDelta delta).length)
    (hne : (encodeManifestDelta delta)[i]? ≠ some b)
    (hlog : d.log = some (((before ++ delta :: after).flatMap encodeManifestDelta).set
      ((before.flatMap encodeManifestDelta).length + i) b))
    (hloads : (loadOrCreate { d with
      log := some (before.flatMap encodeManifestDelta) }).isOk = true) :
    Honest d (before ++ delta :: after) (loadOrCreate d) ↔
      ¬ PastEnd (((delta :: after).flatMap encodeManifestDelta).set i b) := by
  have hbefore : ∀ q ∈ before, q.IsU64 := fun q hq => hu64 q (List.mem_append_left _ hq)
  obtain ⟨buf, hbuf⟩ : ∃ buf, buf = ((delta :: after).flatMap encodeManifestDelta).set i b :=
    ⟨_, rfl⟩
  rw [← hbuf]
  rw [List.flatMap_append, List.set_append_right _ _ (Nat.le_add_right _ _),
    Nat.add_sub_cancel_left, ← hbuf] at hlog
  have hlong : 0 < buf.length := by
    rw [hbuf, List.length_set, List.flatMap_cons, List.length_append]
    omega
  obtain ⟨hpast, hfits⟩ := readManifestDelta_damaged hi hne (hbuf.trans (by rw [List.flatMap_cons]))
  have hempty : ¬ buf.isEmpty = true := by
    rw [List.isEmpty_iff_length_eq_zero]
    omega
  cases hparse : d.parse with
  | error err =>
    have hfails : loadOrCreate { d with log := some (before.flatMap encodeManifestDelta) } =
        .error err := by
      rw [loadOrCreate, Disk.parse]
      rw [Disk.parse] at hparse
      rw [hparse]
      rfl
    rw [hfails] at hloads
    cases hloads
  | ok t =>
    have hcut : replayLog (before.flatMap encodeManifestDelta) t =
        .ok (before.foldl Table.apply t, (before.flatMap encodeManifestDelta).length) := by
      obtain ⟨k, hk⟩ := replayLog_append hbefore [] t
      rwa [List.append_nil] at hk
    obtain ⟨k, happ⟩ := replayLog_append hbefore buf t
    rw [replay, if_neg hempty] at happ
    by_cases hp : PastEnd buf
    · -- The replay ends in front of the damaged record, and the log is cut off there.
      rw [hpast hp] at happ
      obtain ⟨-, hopened⟩ := loadOrCreate_of_replay hlog hparse happ
      obtain ⟨hrefused, -⟩ := loadOrCreate_of_replay
        (d := { d with log := some (before.flatMap encodeManifestDelta) }) rfl hparse hcut
      cases hr : ReusableSlots.reconstruct (before.foldl Table.apply t).nextSlot
          (before.foldl Table.apply t).usedSlots with
      | error err =>
        rw [hrefused err hr] at hloads
        cases hloads
      | ok r =>
        obtain ⟨m, d', hload, hlog'⟩ := hopened r hr
        refine iff_of_false ?_ (not_not_intro hp)
        rw [hload]
        rintro ⟨hsame, -⟩
        rw [hlog', if_pos (by rw [List.length_append]; omega), hlog] at hsame
        have hlen := congrArg List.length (Option.some.inj hsame)
        rw [List.length_take, List.length_append] at hlen
        omega
    · obtain ⟨err, herr⟩ := hfits hp
      rw [herr] at happ
      refine iff_of_true ?_ hp
      have hload : loadOrCreate d = .error err := by
        rw [loadOrCreate, hparse, hlog]
        simp only [bind, Except.bind, Option.getD_some, happ]
      rw [hload]
      trivial

/-- Two blobs got their slots, then byte `pos` of the log became `b`. -/
def damagedSets (pos : Nat) (b : UInt8) : Disk :=
  ⟨none, some (([ManifestDelta.set (.ofByte 1) 0, .set (.ofByte 2) 1].flatMap
    encodeManifestDelta).set pos b), 0⟩

/-- The kind of the first change is damaged. -/
theorem manifest_damage_noticed_kind :
    Honest (damagedSets 8 2) [.set (.ofByte 1) 0, .set (.ofByte 2) 1]
      (loadOrCreate (damagedSets 8 2)) := by
  have hu64 : ∀ q ∈ [] ++ ManifestDelta.set (.ofByte 1) 0 :: [.set (.ofByte 2) 1], q.IsU64 := by
    simp [ManifestDelta.IsU64]
  have hiff := manifest_damage_noticed_iff (d := damagedSets 8 2) (i := 8) (b := 2) hu64
    (by decide +kernel) (by decide +kernel) (by
      rw [List.flatMap_nil, List.length_nil, Nat.zero_add]
      rfl) (by decide +kernel)
  rw [List.nil_append] at hiff
  rw [hiff]
  decide +kernel

/-- The length of the first record is damaged: the load succeeds, knows no blob, and leaves an empty
log. -/
theorem damaged_manifest_cut_off :
    ¬ Honest (damagedSets 7 1) [.set (.ofByte 1) 0, .set (.ofByte 2) 1]
      (loadOrCreate (damagedSets 7 1)) := by
  have hload : (loadOrCreate (damagedSets 7 1)).toOption.any
      (fun r => r.2.log = some [] ∧ r.1.slots.lookup (.ofByte 2) = none) := by decide +kernel
  obtain ⟨⟨m, d⟩, hm, hcut⟩ := (Option.any_eq_true _ _).mp hload
  cases hresult : loadOrCreate (damagedSets 7 1) with
  | error err =>
    rw [hresult] at hm
    cases hm
  | ok r =>
    rw [hresult] at hm
    cases hm
    rintro ⟨hlog, -⟩
    rw [(of_decide_eq_true hcut).1] at hlog
    exact absurd hlog (by decide +kernel)

end Holt.FileStore
