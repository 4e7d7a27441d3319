import Holt.Store.File.Manifest
import Mathlib.Data.List.Range
import Mathlib.Data.List.Nodup
import Mathlib.Data.List.Perm.Basic

/-! What the two manifest files lead to when they are loaded. -/

namespace Holt.FileStore

open Holt.Lib
open Holt.Codec (crc32)

/-! ## Reusable slots -/

/-- The slots of the range, in the order they are given out. -/
def FreeSlotRange.slots (r : FreeSlotRange) : List Nat := List.range' r.next (r.stop + 1 - r.next)

namespace ReusableSlots

/-- Every reusable slot, in the order they are given out. -/
def slots (r : ReusableSlots) : List Nat := r.singles ++ r.ranges.flatMap FreeSlotRange.slots

theorem slots_of_pop {r r' : ReusableSlots} {slot : Nat} (h : r.pop = some (slot, r')) :
    r.slots = slot :: r'.slots := by
  obtain ⟨singles, ranges⟩ := r
  cases singles with
  | cons first singles =>
    cases h
    rfl
  | nil =>
    cases ranges with
    | nil => cases h
    | cons range ranges =>
      have hle := range.le
      rw [pop] at h
      dsimp only at h
      split at h
      · rename_i hlast
        cases h
        simp only [slots, List.nil_append, List.flatMap_cons, FreeSlotRange.slots]
        rw [show range.stop + 1 - range.next = 1 by omega]
        rfl
      · rename_i hlast
        cases h
        simp only [slots, List.nil_append, List.flatMap_cons, FreeSlotRange.slots]
        rw [show range.stop + 1 - range.next = (range.stop + 1 - (range.next + 1)) + 1 by omega,
          List.range'_succ, List.cons_append]

theorem slots_appendSlots (r : ReusableSlots) (more : List Nat) :
    (r.appendSlots more).slots = more.reverse ++ r.slots := by
  rw [appendSlots, slots, slots, List.append_assoc]

/-- The slots from `lower` on that are not used. -/
theorem reconstructLoop_eq {nextSlot : Nat} {used : List Nat} (hsorted : used.Pairwise (· < ·))
    {previous : Option Nat} {lower : Nat} (hbelow : ∀ s ∈ used, s < nextSlot)
    (hlower : ∀ s ∈ used, lower ≤ s) (hprev : ∀ p ∈ previous, p < lower) :
    ∃ ranges, reconstructLoop nextSlot used previous lower = .ok ranges ∧
      ranges.flatMap FreeSlotRange.slots =
        (List.range' lower (nextSlot - lower)).filter (fun s => s ∉ used) := by
  induction used generalizing previous lower with
  | nil =>
    rw [reconstructLoop]
    split
    · rename_i h
      refine ⟨_, rfl, ?_⟩
      simp only [List.flatMap_cons, List.flatMap_nil, List.append_nil, FreeSlotRange.slots]
      rw [show nextSlot - 1 + 1 - lower = nextSlot - lower by omega]
      simp
    · rename_i h
      refine ⟨_, rfl, ?_⟩
      rw [show nextSlot - lower = 0 by omega]
      rfl
  | cons slot rest ih =>
    obtain ⟨hrest, hsorted⟩ := List.pairwise_cons.mp hsorted
    have hslot := hbelow slot List.mem_cons_self
    have hge := hlower slot List.mem_cons_self
    have hnew : previous ≠ some slot := by
      intro hp
      have := hprev slot hp
      omega
    have hself : ∀ p ∈ some slot, p < slot + 1 := by
      intro p hp
      cases hp
      exact Nat.lt_succ_self _
    obtain ⟨ranges, heq, hranges⟩ := ih hsorted
      (fun s hs => hbelow s (List.mem_cons_of_mem _ hs)) (fun s hs => hrest s hs) hself
    -- the slots before this one are all free, this one is not, the rest is as it was
    have hsplit : (List.range' lower (nextSlot - lower)).filter (fun s => s ∉ slot :: rest) =
        List.range' lower (slot - lower) ++ ranges.flatMap FreeSlotRange.slots := by
      have hcut : List.range' lower (nextSlot - lower) = List.range' lower (slot - lower) ++
          slot :: List.range' (slot + 1) (nextSlot - (slot + 1)) := by
        rw [← List.range'_succ, show slot = lower + 1 * (slot - lower) by omega,
          show lower + 1 * (slot - lower) - lower = slot - lower by omega, List.range'_append]
        congr 1
        omega
      rw [hcut, List.filter_append, List.filter_cons_of_neg (by simp), hranges]
      congr 1
      · apply List.filter_eq_self.mpr
        intro s hs
        rw [List.mem_range'_1] at hs
        have hne : s ∉ slot :: rest := fun hm => by
          cases hm with
          | head => omega
          | tail _ hm =>
            have := hrest s hm
            omega
        simpa using hne
      · apply List.filter_congr
        intro s hs
        rw [List.mem_range'_1] at hs
        have hne : s ≠ slot := by omega
        simp [hne]
    rw [reconstructLoop, if_neg (by omega), if_neg hnew, heq, hsplit]
    dsimp only [bind, Except.bind]
    split
    · rename_i h
      refine ⟨_, rfl, ?_⟩
      rw [List.flatMap_cons, FreeSlotRange.slots]
      dsimp only
      rw [show slot - 1 + 1 - lower = slot - lower by omega]
    · rename_i h
      refine ⟨_, rfl, ?_⟩
      rw [show slot - lower = 0 by omega]
      rfl

/-- The reusable slots are exactly the holes. -/
theorem reconstruct_eq {nextSlot : Nat} {used : List Nat} (hnodup : used.Nodup)
    (hbelow : ∀ s ∈ used, s < nextSlot) :
    ∃ r, reconstruct nextSlot used = .ok r ∧
      r.slots = (List.range nextSlot).filter (fun s => s ∉ used) := by
  have hperm := List.perm_insertionSort (· ≤ ·) used
  have hsorted : (used.insertionSort (· ≤ ·)).Pairwise (· < ·) := by
    have hle := List.pairwise_insertionSort (· ≤ ·) used
    have hne : (used.insertionSort (· ≤ ·)).Pairwise (· ≠ ·) := hperm.nodup_iff.mpr hnodup
    exact (hle.and hne).imp fun h => Nat.lt_of_le_of_ne h.1 h.2
  have hnone : ∀ p ∈ (none : Option Nat), p < 0 := by
    intro p hp
    cases hp
  obtain ⟨ranges, heq, hranges⟩ := reconstructLoop_eq hsorted
    (fun s hs => hbelow s (hperm.mem_iff.mp hs)) (fun _ _ => Nat.zero_le _) hnone
  refine ⟨⟨[], ranges⟩, by rw [reconstruct, heq]; rfl, ?_⟩
  rw [slots, List.nil_append, hranges, Nat.sub_zero, ← List.range_eq_range']
  apply List.filter_congr
  intro s _
  simp only [hperm.mem_iff]

end ReusableSlots

/-! ## Records of the log -/

namespace ManifestDelta

/-- The slot fits a `u64`, with room for a `next_slot` above it. -/
def Fits : ManifestDelta → Prop
  | set _ slot => slot + 1 < 2 ^ 64
  | delete _ => True

/-- The slot fits a `u64`. -/
def IsU64 : ManifestDelta → Prop
  | set _ slot => slot < 2 ^ 64
  | delete _ => True

theorem Fits.isU64 {delta : ManifestDelta} (h : delta.Fits) : delta.IsU64 := by
  cases delta with
  | set guid slot => exact Nat.lt_of_succ_lt h
  | delete guid => trivial

/-- What the change does to the map. -/
def write : ManifestDelta → Guid × Option Nat
  | set guid slot => (guid, some slot)
  | delete guid => (guid, none)

theorem length_body_lt (delta : ManifestDelta) : delta.body.length < 2 ^ 32 := by
  cases delta with
  | set guid slot =>
    rw [body, List.length_append, guid.sized, length_leBytes]
    decide
  | delete guid =>
    rw [body, guid.sized]
    decide

theorem length_head (delta : ManifestDelta) :
    delta.head.length = manifestLogHeaderSize + delta.body.length := by
  simp only [head, List.length_append, length_leBytes, List.length_singleton]
  simp only [manifestLogMagic, manifestLogHeaderSize, List.length_cons, List.length_nil]
  omega

end ManifestDelta

theorem length_encodeManifestDelta (delta : ManifestDelta) :
    (encodeManifestDelta delta).length =
      manifestLogHeaderSize + delta.body.length + manifestLogFooterSize := by
  rw [encodeManifestDelta, List.length_append, delta.length_head, length_leBytes]
  rfl

theorem decodeDelta_body {delta : ManifestDelta} (h : delta.IsU64) :
    decodeDelta delta.ty delta.body = .ok delta := by
  cases delta with
  | set guid slot =>
    have hlen : (ManifestDelta.set guid slot).body.length = manifestLogSetBodySize := by
      rw [ManifestDelta.body, List.length_append, guid.sized, length_leBytes]
      rfl
    have hguid : (ManifestDelta.set guid slot).body.take 16 = guid.bytes :=
      List.take_left' guid.sized
    have hslot : slice (ManifestDelta.set guid slot).body 16 24 = leBytes 8 slot := by
      rw [slice, ManifestDelta.body, List.drop_left' guid.sized]
      exact List.take_of_length_le (by rw [length_leBytes])
    have hty : (ManifestDelta.set guid slot).ty = manifestLogTySet := rfl
    rw [decodeDelta, if_pos hty, dif_pos hlen]
    have hnat : leNat (leBytes 8 slot) = slot :=
      leNat_leBytes h
    simp only [hguid, hslot, hnat]
  | delete guid =>
    have hlen : (ManifestDelta.delete guid).body.length = manifestLogDeleteBodySize := guid.sized
    have hset : ¬(ManifestDelta.delete guid).ty = manifestLogTySet :=
      show ¬manifestLogTyDelete = manifestLogTySet by decide
    have hty : (ManifestDelta.delete guid).ty = manifestLogTyDelete := rfl
    rw [decodeDelta, if_neg hset, if_pos hty, dif_pos hlen]
    rfl

/-- The fields in front of the body. -/
theorem encodeManifestDelta_header (delta : ManifestDelta) (rest : List UInt8) :
    slice (encodeManifestDelta delta ++ rest) 0 4 = manifestLogMagic ∧
    leNat (slice (encodeManifestDelta delta ++ rest) 4 8) = delta.body.length ∧
    slice (encodeManifestDelta delta ++ rest) 8 9 = [delta.ty] := by
  obtain ⟨tail, htail⟩ : ∃ tail, encodeManifestDelta delta ++ rest =
      manifestLogMagic ++ (leBytes 4 delta.body.length ++ ([delta.ty] ++ tail)) :=
    ⟨delta.body ++ (leBytes 4 (crc32 delta.head).toNat ++ rest),
      by simp only [encodeManifestDelta, ManifestDelta.head, List.append_assoc]⟩
  rw [htail]
  refine ⟨?_, ?_, ?_⟩
  · exact slice_field [] manifestLogMagic _ rfl rfl
  · have hlen : slice (manifestLogMagic ++ (leBytes 4 delta.body.length ++ ([delta.ty] ++ tail)))
        4 8 = leBytes 4 delta.body.length := by
      apply slice_field manifestLogMagic _ _ rfl
      rw [length_leBytes]
      rfl
    rw [hlen]
    exact leNat_leBytes delta.length_body_lt
  · rw [← List.append_assoc]
    apply slice_field _ [delta.ty] tail
    · rw [List.length_append, length_leBytes]
      rfl
    · rw [List.length_append, length_leBytes]
      rfl

/-- What the checksum covers, the checksum, and the body. -/
theorem encodeManifestDelta_parts (delta : ManifestDelta) (rest : List UInt8) :
    slice (encodeManifestDelta delta ++ rest) 0 (manifestLogHeaderSize + delta.body.length) =
      delta.head ∧
    slice (encodeManifestDelta delta ++ rest) (manifestLogHeaderSize + delta.body.length)
        (manifestLogHeaderSize + delta.body.length + manifestLogFooterSize) =
      leBytes 4 (crc32 delta.head).toNat ∧
    slice (encodeManifestDelta delta ++ rest) manifestLogHeaderSize
        (manifestLogHeaderSize + delta.body.length) = delta.body := by
  rw [encodeManifestDelta, List.append_assoc]
  refine ⟨?_, ?_, ?_⟩
  · exact slice_field [] delta.head _ rfl (by rw [delta.length_head, List.length_nil, Nat.zero_add])
  · apply slice_field _ _ rest delta.length_head
    rw [delta.length_head, length_leBytes]
    rfl
  · have hsplit : delta.head = manifestLogMagic ++ leBytes 4 delta.body.length ++ [delta.ty] ++
        delta.body := by
      simp only [ManifestDelta.head, List.append_assoc]
    rw [hsplit, List.append_assoc (manifestLogMagic ++ leBytes 4 delta.body.length ++ [delta.ty])]
    have hlen : (manifestLogMagic ++ leBytes 4 delta.body.length ++ [delta.ty]).length =
        manifestLogHeaderSize := by
      rw [List.length_append, List.length_append, length_leBytes]
      rfl
    exact slice_field _ delta.body _ hlen (by rw [hlen])

theorem manifestLog_framed :
    Framed ManifestDelta.IsU64 encodeManifestDelta readManifestDelta where
  pos delta := by
    rw [length_encodeManifestDelta]
    exact Nat.succ_pos _
  whole {delta} hfits rest := by
    obtain ⟨hmagic, hlen, hty⟩ := encodeManifestDelta_header delta rest
    obtain ⟨hhead, hcrc, hbody⟩ := encodeManifestDelta_parts delta rest
    have hlong : (encodeManifestDelta delta ++ rest).length =
        manifestLogHeaderSize + delta.body.length + manifestLogFooterSize + rest.length := by
      rw [List.length_append, length_encodeManifestDelta]
    rw [readManifestDelta, if_neg (by omega), if_neg (not_not_intro hmagic)]
    have hsum : leNat (leBytes 4 (crc32 delta.head).toNat) = (crc32 delta.head).toNat :=
      leNat_leBytes (UInt32.toNat_lt _)
    simp only [hlen, hty, hhead, hcrc, hbody]
    rw [if_neg (by omega), if_neg (not_not_intro hsum), List.headD_cons, decodeDelta_body hfits,
      length_encodeManifestDelta]
    rfl
  torn {delta} _ n hn := by
    have hlength : ((encodeManifestDelta delta).take n).length = n := by
      rw [List.length_take]
      omega
    rw [readManifestDelta]
    by_cases hshort : n < manifestLogHeaderSize
    · rw [if_pos (by omega)]
    · obtain ⟨hmagic, hlen, -⟩ := encodeManifestDelta_header delta []
      rw [List.append_nil] at hmagic hlen
      have h9 : manifestLogHeaderSize = 9 := rfl
      rw [if_neg (by omega), slice_take _ (by omega), if_neg (not_not_intro hmagic),
        slice_take _ (by omega), hlen]
      exact if_pos (by rw [hlength, ← length_encodeManifestDelta]; exact hn)

/-! ## Tables -/

namespace Table

/-- Which slot a blob has. -/
def map (t : Table) (g : Guid) : Option Nat := t.slots.lookup g

/-- No two blobs share a slot, and every slot lies below `next_slot`. -/
structure Sound (t : Table) : Prop where
  apart : ∀ {g g' : Guid} {slot : Nat}, t.map g = some slot → t.map g' = some slot → g = g'
  below : ∀ {g : Guid} {slot : Nat}, t.map g = some slot → slot < t.nextSlot

variable {log : List ManifestDelta} {t : Table}

theorem Sound.congr {t' : Table} (h : t.Sound) (hmap : t.map = t'.map)
    (hnext : t.nextSlot ≤ t'.nextSlot) : t'.Sound := by
  constructor
  · intro g g' slot hg hg'
    rw [← hmap] at hg hg'
    exact h.apart hg hg'
  · intro g slot hg
    rw [← hmap] at hg
    exact Nat.lt_of_lt_of_le (h.below hg) hnext

theorem mem_usedSlots (t : Table) (slot : Nat) :
    slot ∈ t.usedSlots ↔ ∃ g, t.map g = some slot := by
  rw [usedSlots, List.mem_map]
  constructor
  · rintro ⟨⟨g, _⟩, hmem, rfl⟩
    exact ⟨g, AList.mem_lookup_iff.mpr hmem⟩
  · rintro ⟨g, hg⟩
    exact ⟨⟨g, slot⟩, AList.mem_lookup_iff.mp hg, rfl⟩

theorem Sound.nodup (h : t.Sound) : t.usedSlots.Nodup := by
  apply List.Nodup.map_on
  · rintro ⟨g, slot⟩ hg ⟨g', slot'⟩ hg' heq
    cases heq
    cases h.apart (AList.mem_lookup_iff.mpr hg) (AList.mem_lookup_iff.mpr hg')
    rfl
  · exact t.slots.nodupKeys.nodup

/-- The reusable slots of a sound table are exactly its holes. -/
theorem Sound.reconstruct (h : t.Sound) :
    ∃ r, ReusableSlots.reconstruct t.nextSlot t.usedSlots = .ok r ∧ r.slots.Nodup ∧
      ∀ slot, slot ∈ r.slots ↔ slot < t.nextSlot ∧ ∀ g, t.map g ≠ some slot := by
  have hbelow : ∀ slot ∈ t.usedSlots, slot < t.nextSlot := by
    intro slot hslot
    obtain ⟨g, hg⟩ := (t.mem_usedSlots slot).mp hslot
    exact h.below hg
  obtain ⟨r, hr, hslots⟩ := ReusableSlots.reconstruct_eq h.nodup hbelow
  refine ⟨r, hr, by rw [hslots]; exact List.nodup_range.filter _, fun slot => ?_⟩
  rw [hslots, List.mem_filter, List.mem_range, decide_eq_true_eq, t.mem_usedSlots, not_exists]

theorem map_apply (t : Table) (delta : ManifestDelta) :
    (t.apply delta).map = Function.update t.map delta.write.1 delta.write.2 := by
  funext g
  rw [map]
  cases delta with
  | set guid slot =>
    by_cases hg : g = guid
    · subst hg
      rw [apply, ManifestDelta.write, Function.update_self, AList.lookup_insert]
    · rw [apply, ManifestDelta.write, Function.update_of_ne hg, AList.lookup_insert_ne hg,
        map]
  | delete guid =>
    by_cases hg : g = guid
    · subst hg
      rw [apply, ManifestDelta.write, Function.update_self, AList.lookup_erase]
    · rw [apply, ManifestDelta.write, Function.update_of_ne hg, AList.lookup_erase_ne hg,
        map]

theorem map_foldl_apply (log : List ManifestDelta) (t : Table) :
    (log.foldl apply t).map = overwrite (log.map ManifestDelta.write) t.map := by
  induction log generalizing t with
  | nil => rfl
  | cons delta log ih => rw [List.foldl_cons, ih, map_apply, List.map_cons, overwrite_cons]

theorem nextSlot_le_apply (t : Table) (delta : ManifestDelta) :
    t.nextSlot ≤ (t.apply delta).nextSlot := by
  cases delta with
  | set guid slot => exact Nat.le_max_left _ _
  | delete guid => exact Nat.le_refl _

theorem nextSlot_le_foldl (log : List ManifestDelta) (t : Table) :
    t.nextSlot ≤ (log.foldl apply t).nextSlot := by
  induction log generalizing t with
  | nil => exact Nat.le_refl _
  | cons delta log ih => exact Nat.le_trans (t.nextSlot_le_apply delta) (ih _)

/-- The `next_slot` of the replay lies above every slot the replay puts into the map. -/
theorem below_foldl (hfits : ∀ delta ∈ log, delta.Fits)
    (ht : ∀ {g slot}, t.map g = some slot → slot < t.nextSlot) {g : Guid} {slot : Nat}
    (h : (log.foldl apply t).map g = some slot) : slot < (log.foldl apply t).nextSlot := by
  induction log generalizing t with
  | nil => exact ht h
  | cons delta log ih =>
    apply ih (fun d hd => hfits d (List.mem_cons_of_mem _ hd)) _ h
    intro g slot hg
    have hfit := hfits delta List.mem_cons_self
    have hle := t.nextSlot_le_apply delta
    rw [map_apply] at hg
    cases delta with
    | set guid slot' =>
      by_cases hk : g = guid
      · have hslot : some slot' = some slot := by
          rw [← hg, hk, ManifestDelta.write, Function.update_self]
        cases hslot
        have hroom : slot + 1 < 2 ^ 64 := hfit
        have hmax : min (slot + 1) (2 ^ 64 - 1) ≤ (t.apply (.set guid slot)).nextSlot :=
          Nat.le_max_right _ _
        omega
      · rw [ManifestDelta.write, Function.update_of_ne hk] at hg
        exact Nat.lt_of_lt_of_le (ht hg) hle
    | delete guid =>
      by_cases hk : g = guid
      · rw [hk, ManifestDelta.write, Function.update_self] at hg
        cases hg
      · rw [ManifestDelta.write, Function.update_of_ne hk] at hg
        exact ht hg

/-- The `next_slot` of the replay lies above every slot of the log. -/
theorem slot_lt_foldl (hfits : ∀ delta ∈ log, delta.Fits) (t : Table) {g : Guid} {slot : Nat}
    (h : .set g slot ∈ log) : slot < (log.foldl apply t).nextSlot := by
  obtain ⟨before, rest, rfl⟩ := List.append_of_mem h
  have hfit : slot + 1 < 2 ^ 64 := hfits _ h
  rw [List.foldl_append, List.foldl_cons]
  apply Nat.lt_of_lt_of_le _ (nextSlot_le_foldl rest _)
  have hmax : min (slot + 1) (2 ^ 64 - 1) ≤
      ((before.foldl apply t).apply (.set g slot)).nextSlot := Nat.le_max_right _ _
  omega

/-- A log whose slots all lie below `next_slot` does not raise it. -/
theorem nextSlot_foldl_of_le {bound : Nat} (ht : t.nextSlot ≤ bound)
    (hlog : ∀ g slot, ManifestDelta.set g slot ∈ log → slot < bound) :
    (log.foldl apply t).nextSlot ≤ bound := by
  induction log generalizing t with
  | nil => exact ht
  | cons delta log ih =>
    apply ih _ (fun g slot h => hlog g slot (List.mem_cons_of_mem _ h))
    cases delta with
    | set guid slot =>
      have hslot := hlog guid slot List.mem_cons_self
      exact Nat.max_le.mpr ⟨ht, Nat.le_trans (Nat.min_le_left _ _) hslot⟩
    | delete guid => exact ht

/-- Where a replay takes `next_slot` depends only on which changes the log holds. -/
theorem nextSlot_foldl_mono {log' : List ManifestDelta} (hfits : ∀ delta ∈ log', delta.Fits)
    (hsub : ∀ delta ∈ log, delta ∈ log') (t : Table) :
    (log.foldl apply t).nextSlot ≤ (log'.foldl apply t).nextSlot :=
  nextSlot_foldl_of_le (nextSlot_le_foldl log' t)
    fun _ _ h => slot_lt_foldl hfits t (hsub _ h)

end Table

/-! ## The snapshot -/

theorem encodeEntry_parts {entry : Sigma fun _ : Guid => Nat} (hslot : entry.2 < 2 ^ 64)
    (rest : List UInt8) :
    (encodeEntry entry ++ rest).take 16 = entry.1.bytes ∧
    leNat (slice (encodeEntry entry ++ rest) 16 24) = entry.2 ∧
    (encodeEntry entry ++ rest).drop 24 = rest := by
  rw [encodeEntry, List.append_assoc]
  refine ⟨List.take_left' entry.1.sized, ?_, ?_⟩
  · have hfield : slice (entry.1.bytes ++ (leBytes 8 entry.2 ++ rest)) 16 24 =
        leBytes 8 entry.2 := by
      apply slice_field _ _ _ entry.1.sized
      rw [entry.1.sized, length_leBytes]
    rw [hfield]
    exact leNat_leBytes hslot
  · rw [← List.append_assoc]
    apply List.drop_left'
    rw [List.length_append, entry.1.sized, length_leBytes]

theorem parseEntries_eq {entries : List (Sigma fun _ : Guid => Nat)} (hkeys : entries.NodupKeys)
    (hslots : ∀ e ∈ entries, e.2 < 2 ^ 64) {slots : AList fun _ : Guid => Nat}
    (hnew : ∀ e ∈ entries, slots.lookup e.1 = none) :
    ∃ slots', parseEntries entries.length (entries.flatMap encodeEntry) slots = .ok slots' ∧
      ∀ g, slots'.lookup g = (entries.dlookup g).or (slots.lookup g) := by
  induction entries generalizing slots with
  | nil => exact ⟨slots, rfl, fun g => rfl⟩
  | cons entry entries ih =>
    obtain ⟨hfirst, hkeys⟩ := List.nodupKeys_cons.mp hkeys
    obtain ⟨hguid, hslot, hrest⟩ := encodeEntry_parts (hslots entry List.mem_cons_self)
      (entries.flatMap encodeEntry)
    have hlen : ¬ (encodeEntry entry ++ entries.flatMap encodeEntry).length < 24 := by
      rw [List.length_append, encodeEntry, List.length_append, entry.1.sized, length_leBytes]
      omega
    have hnew' : ∀ e ∈ entries, (slots.insert entry.1 entry.2).lookup e.1 = none := by
      intro e he
      have hne : e.1 ≠ entry.1 := fun heq => hfirst (heq ▸ List.mem_keys_of_mem he)
      rw [AList.lookup_insert_ne hne]
      exact hnew e (List.mem_cons_of_mem _ he)
    obtain ⟨slots', hparse, hlookup⟩ := ih hkeys
      (fun e he => hslots e (List.mem_cons_of_mem _ he)) hnew'
    refine ⟨slots', ?_, fun g => ?_⟩
    · rw [List.length_cons, List.flatMap_cons, parseEntries, dif_neg hlen]
      have hentry : (⟨(encodeEntry entry ++ entries.flatMap encodeEntry).take 16,
          by rw [hguid]; exact entry.1.sized⟩ : Guid) = entry.1 := by
        obtain ⟨⟨bytes, sized⟩, slot⟩ := entry
        simp only [hguid]
      have hinsert : insertNew slots entry.1 entry.2 = .ok (slots.insert entry.1 entry.2) := by
        rw [insertNew, hnew entry List.mem_cons_self]
      simp only [hentry, hslot, hrest, hinsert]
      exact hparse
    · rw [hlookup]
      obtain ⟨guid, slot⟩ := entry
      by_cases hg : g = guid
      · subst hg
        rw [AList.lookup_insert, List.dlookup_cons_eq, List.dlookup_eq_none.mpr hfirst]
        rfl
      · rw [AList.lookup_insert_ne hg, List.dlookup_cons_ne _ _ hg]

variable {t : Table}

/-- The fields in front of the entries. -/
theorem snapshot_header (hcount : t.slots.entries.length < 2 ^ 32) (hnext : t.nextSlot < 2 ^ 64) :
    slice t.snapshot 0 8 = manifestMagic ∧ leNat (slice t.snapshot 8 10) = manifestVersion ∧
    leNat (slice t.snapshot 10 14) = t.slots.entries.length ∧
    leNat (slice t.snapshot 16 24) = t.nextSlot ∧
    t.snapshot.drop 24 = t.slots.entries.flatMap encodeEntry ∧ ¬ t.snapshot.length < 24 := by
  have hlength : ∀ tail, (manifestMagic ++ (leBytes 2 manifestVersion ++
      (leBytes 4 t.slots.entries.length ++ ([0, 0] ++ (leBytes 8 t.nextSlot ++ tail))))).length =
      24 + tail.length := by
    intro tail
    simp only [List.length_append, length_leBytes, List.length_cons, List.length_nil, manifestMagic]
    omega
  have hversion : slice t.snapshot 8 10 = leBytes 2 manifestVersion :=
    slice_field manifestMagic _ _ rfl (by rw [length_leBytes]; rfl)
  have hfield : slice t.snapshot 10 14 = leBytes 4 t.slots.entries.length := by
    rw [Table.snapshot, ← List.append_assoc]
    apply slice_field
    · rw [List.length_append, length_leBytes]
      rfl
    · rw [List.length_append, length_leBytes, length_leBytes]
      rfl
  have hnextField : slice t.snapshot 16 24 = leBytes 8 t.nextSlot := by
    rw [Table.snapshot, ← List.append_assoc, ← List.append_assoc, ← List.append_assoc]
    apply slice_field
    · rw [List.length_append, List.length_append, List.length_append, length_leBytes,
        length_leBytes]
      rfl
    · rw [List.length_append, List.length_append, List.length_append, length_leBytes,
        length_leBytes, length_leBytes]
      rfl
  refine ⟨slice_field [] manifestMagic _ rfl rfl, ?_, ?_, ?_, ?_, ?_⟩
  · rw [hversion]
    exact leNat_leBytes (by decide)
  · rw [hfield]
    exact leNat_leBytes hcount
  · rw [hnextField]
    exact leNat_leBytes hnext
  · rw [Table.snapshot, ← List.append_assoc, ← List.append_assoc, ← List.append_assoc,
      ← List.append_assoc]
    apply List.drop_left'
    have h := hlength []
    simp only [List.append_nil, List.length_nil, Nat.add_zero] at h
    rw [List.append_assoc, List.append_assoc, List.append_assoc]
    exact h
  · rw [Table.snapshot, hlength]
    omega

/-- A snapshot of a sound table is read back. -/
theorem parseSnapshot_snapshot (ht : t.Sound) (hcount : t.slots.entries.length < 2 ^ 32)
    (hnext : t.nextSlot < 2 ^ 64) :
    ∃ t', parseSnapshot t.snapshot = .ok t' ∧ t'.map = t.map ∧ t'.nextSlot = t.nextSlot := by
  obtain ⟨hmagic, hversion, hcnt, hnxt, hrest, hlen⟩ := snapshot_header hcount hnext
  have hslots : ∀ e ∈ t.slots.entries, e.2 < 2 ^ 64 := by
    intro e he
    exact Nat.lt_trans (ht.below (AList.mem_lookup_iff.mpr he)) hnext
  have hempty : ∀ e ∈ t.slots.entries, (∅ : AList fun _ : Guid => Nat).lookup e.1 = none :=
    fun _ _ => AList.lookup_empty _
  obtain ⟨slots, hparse, hlookup⟩ := parseEntries_eq t.slots.nodupKeys hslots hempty
  have heq : Table.map ⟨slots, t.nextSlot⟩ = t.map := by
    funext g
    rw [Table.map, hlookup, AList.lookup_empty, Option.or_none]
    rfl
  have hsound : Table.Sound ⟨slots, t.nextSlot⟩ := ht.congr heq.symm (Nat.le_refl _)
  obtain ⟨r, hr, -⟩ := hsound.reconstruct
  refine ⟨⟨slots, t.nextSlot⟩, ?_, heq, rfl⟩
  rw [parseSnapshot, if_neg hlen, if_neg (not_not_intro hmagic), if_neg (not_not_intro hversion),
    hcnt, hrest, hparse]
  simp only [hnxt, bind, Except.bind, hr]

/-! ## Loading -/

/-- What `load_or_create` leaves, in memory and on disk, when the whole records of the log are
`log` and lead to the table `t`. -/
structure Loaded (d : Disk) (log : List ManifestDelta) (t : Table) (m : Manifest) (d' : Disk) :
    Prop where
  table : m.toTable = t
  pendingLog : m.pendingLog = []
  pendingFreeSlots : m.pendingFreeSlots = []
  nodup : m.reusableSlots.slots.Nodup
  holes : ∀ slot, slot ∈ m.reusableSlots.slots ↔ slot < t.nextSlot ∧ ∀ g, t.map g ≠ some slot
  bin : d'.bin = d.bin
  log : d'.log.getD [] = log.flatMap encodeManifestDelta
  synced : d.synced = (d.log.getD []).length → d'.synced = (d'.log.getD []).length

theorem loadOrCreate_eq {d : Disk} {log : List ManifestDelta} {n : Nat} (hparse : d.parse = .ok t)
    (hlog : d.log.getD [] = (log.flatMap encodeManifestDelta).take n)
    (hfits : ∀ delta ∈ log, delta.Fits)
    (hsound : ((wholeWithin encodeManifestDelta log n).foldl Table.apply t).Sound) :
    ∃ m d', loadOrCreate d = .ok (m, d') ∧ Loaded d (wholeWithin encodeManifestDelta log n)
      ((wholeWithin encodeManifestDelta log n).foldl Table.apply t) m d' := by
  obtain ⟨r, hr, hnodup, hholes⟩ := hsound.reconstruct
  have hreplay : replayLog (d.log.getD []) t =
      .ok ((wholeWithin encodeManifestDelta log n).foldl Table.apply t,
        ((wholeWithin encodeManifestDelta log n).flatMap encodeManifestDelta).length) := by
    rw [replayLog, hlog, replay_take manifestLog_framed (fun a ha => (hfits a ha).isU64)
      (Nat.lt_succ_self _), Nat.zero_add]
  rw [loadOrCreate, hparse]
  simp only [bind, Except.bind, hreplay, hr]
  have hbytes := wholeWithin_bytes encodeManifestDelta log n
  rw [← hlog] at hbytes
  have htake := List.prefix_iff_eq_take.mp hbytes
  refine ⟨_, _, rfl, rfl, rfl, rfl, hnodup, hholes, ?_, ?_, ?_⟩
  · split <;> rfl
  · split
    · exact htake.symm
    · rename_i hlen
      exact (hbytes.eq_of_length_le (Nat.le_of_not_lt hlen)).symm
  · intro hsynced
    split
    · rename_i hlen
      exact (List.length_take_of_le (Nat.le_of_lt hlen)).symm
    · exact hsynced

end Holt.FileStore
