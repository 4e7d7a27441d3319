import Holt.Store.File.Calls
import Mathlib.Tactic.Push

/-! The manifest against the history of its changes: the changes a flush made durable, and behind
them the pending ones, which a crash keeps up to some point. -/

namespace Holt.FileStore

open Holt.Lib

/-- The map after a history. -/
def after (history : List ManifestDelta) : Guid → Option Nat :=
  overwrite (history.map ManifestDelta.write) fun _ => none

theorem after_append (history more : List ManifestDelta) :
    after (history ++ more) = overwrite (more.map ManifestDelta.write) (after history) := by
  rw [after, List.map_append, overwrite_append, after]

theorem after_concat (history : List ManifestDelta) (delta : ManifestDelta) :
    after (history ++ [delta]) =
      Function.update (after history) delta.write.1 delta.write.2 := by
  rw [after_append]
  rfl

/-- What the map holds after more changes, it held before or is set by one of them. -/
theorem after_append_some {history more : List ManifestDelta} {g : Guid} {slot : Nat}
    (h : after (history ++ more) g = some slot) :
    after history g = some slot ∨ .set g slot ∈ more := by
  rw [after_append] at h
  rcases overwrite_some h with h | h
  · exact .inl h
  · right
    obtain ⟨delta, hd, heq⟩ := List.mem_map.mp h
    cases delta with
    | set guid slot' =>
      cases heq
      exact hd
    | delete guid => cases heq

namespace Manifest

variable {m : Manifest} {history : List ManifestDelta}

/-- The slot means the blob after the durable `history`, or a pending change gives it to the
blob. -/
def Owns (m : Manifest) (history : List ManifestDelta) (slot : Nat) (g : Guid) : Prop :=
  after history g = some slot ∨ .set g slot ∈ m.pendingLog

variable {guid : Guid} {m' : Manifest} {slot : Nat}

/-- Some of the pending changes behind the history give a slot to none but an owner of it. -/
theorem owns_of_after {more : List ManifestDelta} (hsub : ∀ delta ∈ more, delta ∈ m.pendingLog)
    {g : Guid} (h : after (history ++ more) g = some slot) : m.Owns history slot g :=
  (after_append_some h).imp id (hsub _)

/-- The changes in memory stand behind the durable `history`. No slot has two owners, and a
reusable slot has none: a slot is given out again only when the change that freed it is durable. -/
structure Inv (m : Manifest) (history : List ManifestDelta) : Prop where
  current : m.map = after (history ++ m.pendingLog)
  apart : ∀ {slot : Nat} {g g' : Guid}, m.Owns history slot g → m.Owns history slot g' → g = g'
  below : ∀ {slot : Nat} {g : Guid}, m.Owns history slot g → slot < m.nextSlot
  free : ∀ slot ∈ m.reusableSlots.slots, ∀ g, ¬ m.Owns history slot g
  freed : ∀ slot ∈ m.pendingFreeSlots, ∀ g, m.map g ≠ some slot
  published : m.pendingLog = [] → m.pendingFreeSlots = []
  nodup : (m.reusableSlots.slots ++ m.pendingFreeSlots).Nodup
  exact : ∀ slot, slot < m.nextSlot ↔
    (∃ g, m.map g = some slot) ∨ slot ∈ m.reusableSlots.slots ∨ slot ∈ m.pendingFreeSlots
  fits : ∀ delta ∈ m.pendingLog, delta.Fits
  bound : m.nextSlot < 2 ^ 64

theorem Inv.owns (h : m.Inv history) {g : Guid} (hg : m.map g = some slot) :
    m.Owns history slot g := by
  rw [h.current] at hg
  exact owns_of_after (fun _ hd => hd) hg

theorem Inv.sound (h : m.Inv history) : m.toTable.Sound :=
  ⟨fun hg hg' => h.apart (h.owns hg) (h.owns hg'), fun hg => h.below (h.owns hg)⟩

/-- A slot given out: it had no owner. -/
structure Allocated (m : Manifest) (history : List ManifestDelta) (slot : Nat) (m' : Manifest) :
    Prop where
  slots : m'.slots = m.slots
  pendingLog : m'.pendingLog = m.pendingLog
  pendingFreeSlots : m'.pendingFreeSlots = m.pendingFreeSlots
  nextSlot : m'.nextSlot = max m.nextSlot (slot + 1)
  bound : m'.nextSlot < 2 ^ 64
  unused : ∀ g, ¬ m.Owns history slot g
  nodup : (slot :: (m'.reusableSlots.slots ++ m'.pendingFreeSlots)).Nodup
  spare : ∀ s ∈ m'.reusableSlots.slots, s ∈ m.reusableSlots.slots
  exact : ∀ s, s < m'.nextSlot ↔ s = slot ∨
    (∃ g, m.map g = some s) ∨ s ∈ m'.reusableSlots.slots ∨ s ∈ m'.pendingFreeSlots

theorem Inv.allocateSlot (h : m.Inv history) (heq : m.allocateSlot = .ok (slot, m')) :
    m.Allocated history slot m' := by
  rw [Manifest.allocateSlot] at heq
  split at heq
  · rename_i slot' reusableSlots hpop
    cases heq
    have hslots := ReusableSlots.slots_of_pop hpop
    have hmem : slot ∈ m.reusableSlots.slots := by
      rw [hslots]
      exact List.mem_cons_self
    have hlt : slot < m.nextSlot := (h.exact slot).mpr (.inr (.inl hmem))
    refine ⟨rfl, rfl, rfl, (Nat.max_eq_left hlt).symm, h.bound, h.free slot hmem, ?_, ?_, ?_⟩
    · have hnodup := h.nodup
      rwa [hslots] at hnodup
    · intro s hs
      rw [hslots]
      exact List.mem_cons_of_mem _ hs
    · intro s
      rw [h.exact s, hslots, List.mem_cons]
      tauto
  · split at heq
    · rename_i hroom
      cases heq
      have hnot : ∀ s, s ∈ m.reusableSlots.slots ++ m.pendingFreeSlots → s < m.nextSlot := by
        intro s hs
        exact (h.exact s).mpr (.inr (List.mem_append.mp hs))
      refine ⟨rfl, rfl, rfl, (Nat.max_eq_right (Nat.le_succ _)).symm, hroom, ?_, ?_, ?_, ?_⟩
      · intro g hg
        exact Nat.lt_irrefl _ (h.below hg)
      · exact List.nodup_cons.mpr ⟨fun hs => Nat.lt_irrefl _ (hnot _ hs), h.nodup⟩
      · exact fun s hs => hs
      · intro s
        rw [← h.exact s]
        dsimp only
        omega
    · cases heq

/-- The slot is written into the map and into the log. -/
def put (m : Manifest) (guid : Guid) (slot : Nat) : Manifest :=
  { m with
    slots := m.slots.insert guid slot
    pendingLog := m.pendingLog ++ [.set guid slot] }

theorem map_put (m : Manifest) (guid : Guid) (slot : Nat) :
    (m.put guid slot).map = Function.update m.map guid (some slot) :=
  m.toTable.map_apply (.set guid slot)

theorem Inv.put (h : m.Inv history) (hnew : m.map guid = none) (ha : m.Allocated history slot m') :
    (m'.put guid slot).Inv history := by
  have hmap' : m'.map = m.map := by
    funext g
    rw [Table.map, Table.map, ha.slots]
  have hmap : (m'.put guid slot).map = Function.update m.map guid (some slot) := by
    rw [map_put, hmap']
  have hpending : (m'.put guid slot).pendingLog = m.pendingLog ++ [.set guid slot] := by
    rw [Manifest.put, ha.pendingLog]
  have hslot : slot < m'.nextSlot := by
    rw [ha.nextSlot]
    omega
  have hnext : m.nextSlot ≤ m'.nextSlot := by
    rw [ha.nextSlot]
    exact Nat.le_max_left _ _
  -- the blob owns its slot now, and nothing else has changed hands
  have howns : ∀ {s g}, (m'.put guid slot).Owns history s g →
      m.Owns history s g ∨ s = slot ∧ g = guid := by
    rintro s g (hg | hg)
    · exact .inl (.inl hg)
    · rw [hpending] at hg
      rcases List.mem_append.mp hg with hg | hg
      · exact .inl (.inr hg)
      · cases List.mem_singleton.mp hg
        exact .inr ⟨rfl, rfl⟩
  have hupdate : ∀ {g s}, Function.update m.map guid (some slot) g = some s →
      m.map g = some s ∨ s = slot := by
    intro g s hg
    by_cases hk : g = guid
    · rw [hk, Function.update_self] at hg
      cases hg
      exact .inr rfl
    · rw [Function.update_of_ne hk] at hg
      exact .inl hg
  refine ⟨?_, ?_, ?_, ?_, ?_, ?_, ?_, ?_, ?_, ha.bound⟩
  · rw [hmap, hpending, ← List.append_assoc, after_concat, ← h.current]
    rfl
  · intro s g g' hg hg'
    rcases howns hg with hg | ⟨rfl, rfl⟩ <;> rcases howns hg' with hg' | ⟨hs, hk⟩
    · exact h.apart hg hg'
    · exact absurd (hs ▸ hg) (ha.unused g)
    · exact absurd hg' (ha.unused g')
    · exact hk.symm
  · intro s g hg
    rcases howns hg with hg | ⟨rfl, -⟩
    · exact Nat.lt_of_lt_of_le (h.below hg) hnext
    · exact hslot
  · intro s hs g hg
    rcases howns hg with hg | ⟨rfl, -⟩
    · exact h.free s (ha.spare s hs) g hg
    · exact (List.nodup_cons.mp ha.nodup).1 (List.mem_append_left _ hs)
  · intro s hs g hg
    rw [hmap] at hg
    rcases hupdate hg with hg | rfl
    · exact h.freed s (ha.pendingFreeSlots ▸ hs) g hg
    · exact (List.nodup_cons.mp ha.nodup).1 (List.mem_append_right _ hs)
  · intro hnil
    rw [hpending] at hnil
    exact absurd hnil (List.append_ne_nil_of_right_ne_nil _ (List.cons_ne_nil _ _))
  · exact (List.nodup_cons.mp ha.nodup).2
  · intro s
    have hex : (∃ g, (m'.put guid slot).map g = some s) ↔ s = slot ∨ ∃ g, m.map g = some s := by
      rw [hmap]
      constructor
      · rintro ⟨g, hg⟩
        rcases hupdate hg with hg | rfl
        · exact .inr ⟨g, hg⟩
        · exact .inl rfl
      · rintro (rfl | ⟨g, hg⟩)
        · exact ⟨guid, Function.update_self ..⟩
        · have hne : g ≠ guid := by
            rintro rfl
            rw [hnew] at hg
            cases hg
          exact ⟨g, by rw [Function.update_of_ne hne]; exact hg⟩
    rw [hex, or_assoc]
    exact ha.exact s
  · intro delta hd
    rw [hpending] at hd
    rcases List.mem_append.mp hd with hd | hd
    · exact h.fits delta hd
    · cases List.mem_singleton.mp hd
      have hbound := ha.bound
      change slot + 1 < 2 ^ 64
      omega

/-! ## What the calls do to it -/

/-- `more` are the changes recorded on the way from `m` to `m'`. -/
structure Grows (m m' : Manifest) (more : List ManifestDelta) : Prop where
  log : m'.pendingLog = m.pendingLog ++ more
  next : ∀ t : Table, t.nextSlot = m.nextSlot → (more.foldl Table.apply t).nextSlot = m'.nextSlot

theorem Grows.refl (m : Manifest) : Grows m m [] :=
  ⟨(List.append_nil _).symm, fun _ h => h⟩

theorem Grows.trans {m₁ m₂ m₃ : Manifest} {xs ys : List ManifestDelta} (h : Grows m₁ m₂ xs)
    (h' : Grows m₂ m₃ ys) : Grows m₁ m₃ (xs ++ ys) := by
  constructor
  · rw [h'.log, h.log, List.append_assoc]
  · intro t ht
    rw [List.foldl_append]
    exact h'.next _ (h.next t ht)

/-- What giving slots to `guids` does; `dirty` says whether one of them had none. -/
structure Assigned (m : Manifest) (history : List ManifestDelta) (guids : List Guid)
    (dirty : Bool) (m' : Manifest) : Prop where
  inv : m'.Inv history
  kept : ∀ {g : Guid} {slot : Nat}, m.map g = some slot → m'.map g = some slot
  only : ∀ {g : Guid}, g ∉ guids → m'.map g = m.map g
  grows : ∃ more, Grows m m' more ∧ (dirty = false → more = [])

theorem Inv.assignSlot (h : m.Inv history) {fresh : Bool}
    (heq : m.assignSlot guid = .ok (slot, fresh, m')) :
    m.Assigned history [guid] fresh m' ∧ m'.map guid = some slot := by
  rw [Manifest.assignSlot] at heq
  split at heq
  · rename_i slot' hlookup
    cases heq
    exact ⟨⟨h, id, fun _ => rfl, [], Grows.refl m, fun _ => rfl⟩, hlookup⟩
  · rename_i hlookup
    cases hal : m.allocateSlot with
    | error e =>
      rw [hal] at heq
      cases heq
    | ok r =>
      obtain ⟨slot', m₁⟩ := r
      rw [hal] at heq
      cases heq
      have ha := h.allocateSlot hal
      have hmap : (m₁.put guid slot).map = Function.update m.map guid (some slot) := by
        rw [map_put, show m₁.map = m.map by funext g; rw [Table.map, Table.map, ha.slots]]
      refine ⟨⟨h.put hlookup ha, ?_, ?_, [.set guid slot], ⟨?_, ?_⟩, fun hf => by cases hf⟩, ?_⟩
      · intro g s hg
        have hne : g ≠ guid := by
          rintro rfl
          rw [Table.map, hlookup] at hg
          cases hg
        rw [← hg]
        exact (congrFun hmap g).trans (Function.update_of_ne hne _ _)
      · intro g hg
        exact (congrFun hmap g).trans
          (Function.update_of_ne (List.ne_of_not_mem_cons hg) _ _)
      · change m₁.pendingLog ++ _ = _
        rw [ha.pendingLog]
      · intro t ht
        have hbound := ha.bound
        have hnext := ha.nextSlot
        change max t.nextSlot (min (slot + 1) (2 ^ 64 - 1)) = m₁.nextSlot
        omega
      · exact (congrFun hmap guid).trans (Function.update_self ..)

theorem Inv.assignSlots (h : m.Inv history) {guids : List Guid} {slots : List Nat} {dirty : Bool}
    (heq : m.assignSlots guids = .ok (slots, dirty, m')) :
    m.Assigned history guids dirty m' ∧
      List.Forall₂ (fun g slot => m'.map g = some slot) guids slots := by
  induction guids generalizing m m' slots dirty with
  | nil =>
    cases heq
    exact ⟨⟨h, id, fun _ => rfl, [], Grows.refl _, fun _ => rfl⟩, .nil⟩
  | cons guid guids ih =>
    rw [Manifest.assignSlots] at heq
    cases hfirst : m.assignSlot guid with
    | error e =>
      rw [hfirst] at heq
      cases heq
    | ok r =>
      obtain ⟨slot, fresh, m₁⟩ := r
      obtain ⟨ha, hslot⟩ := h.assignSlot hfirst
      rw [hfirst] at heq
      dsimp only [bind, Except.bind] at heq
      cases hrest : m₁.assignSlots guids with
      | error e =>
        rw [hrest] at heq
        cases heq
      | ok r =>
        obtain ⟨slots', dirty', m₂⟩ := r
        obtain ⟨hb, hslots⟩ := ih ha.inv hrest
        rw [hrest] at heq
        cases heq
        obtain ⟨xs, hxs, hnone⟩ := ha.grows
        obtain ⟨ys, hys, hnone'⟩ := hb.grows
        refine ⟨⟨hb.inv, fun hg => hb.kept (ha.kept hg), ?_, xs ++ ys, hxs.trans hys, ?_⟩,
          .cons (hb.kept hslot) hslots⟩
        · intro g hg
          rw [List.mem_cons, not_or] at hg
          rw [hb.only hg.2, ha.only (List.not_mem_cons_of_ne_of_not_mem hg.1 List.not_mem_nil)]
        · intro hd
          rw [Bool.or_eq_false_iff] at hd
          rw [hnone hd.1, hnone' hd.2]
          rfl

/-- What a delete does; `dirty` says whether there was something to delete. -/
theorem Inv.deleteBlob (h : m.Inv history) {dirty : Bool} (heq : m.deleteBlob guid = (dirty, m')) :
    m'.Inv history ∧ m'.map = Function.update m.map guid none ∧
      ∃ more, Grows m m' more ∧ (dirty = false → more = []) := by
  rw [Manifest.deleteBlob] at heq
  split at heq
  · rename_i slot hlookup
    cases heq
    have hmap : Table.map ⟨m.slots.erase guid, m.nextSlot⟩ = Function.update m.map guid none :=
      m.toTable.map_apply (.delete guid)
    have hsub : ∀ {g s}, Function.update m.map guid none g = some s →
        g ≠ guid ∧ m.map g = some s := by
      intro g s hg
      by_cases hk : g = guid
      · rw [hk, Function.update_self] at hg
        cases hg
      · rw [Function.update_of_ne hk] at hg
        exact ⟨hk, hg⟩
    -- a delete gives nothing to anyone
    have howns : ∀ {s g}, after history g = some s ∨
        .set g s ∈ m.pendingLog ++ [ManifestDelta.delete guid] → m.Owns history s g := by
      rintro s g (hg | hg)
      · exact .inl hg
      · rcases List.mem_append.mp hg with hg | hg
        · exact .inr hg
        · cases List.mem_singleton.mp hg
    have hused : slot ∉ m.reusableSlots.slots ++ m.pendingFreeSlots := by
      intro hs
      rcases List.mem_append.mp hs with hs | hs
      · exact h.free slot hs guid (h.owns hlookup)
      · exact h.freed slot hs guid hlookup
    refine ⟨⟨?_, ?_, ?_, ?_, ?_, ?_, ?_, ?_, ?_, h.bound⟩, hmap, [.delete guid], ⟨rfl, ?_⟩,
      fun hf => by cases hf⟩
    · change Table.map ⟨m.slots.erase guid, m.nextSlot⟩ = _
      rw [hmap, ← List.append_assoc, after_concat, ← h.current]
      rfl
    · intro s g g' hg hg'
      exact h.apart (howns hg) (howns hg')
    · intro s g hg
      exact h.below (howns hg)
    · intro s hs g hg
      exact h.free s hs g (howns hg)
    · intro s hs g hg
      change Table.map ⟨m.slots.erase guid, m.nextSlot⟩ g = some s at hg
      rw [hmap] at hg
      rcases List.mem_append.mp hs with hs | hs
      · exact h.freed s hs g (hsub hg).2
      · cases List.mem_singleton.mp hs
        exact (hsub hg).1 (h.sound.apart (hsub hg).2 hlookup)
    · intro hnil
      exact absurd hnil (List.append_ne_nil_of_right_ne_nil _ (List.cons_ne_nil _ _))
    · change (m.reusableSlots.slots ++ (m.pendingFreeSlots ++ [slot])).Nodup
      rw [← List.append_assoc]
      exact List.nodup_append.mpr ⟨h.nodup, List.nodup_singleton slot, fun a ha b hb hab => by
        cases List.mem_singleton.mp hb
        exact hused (hab ▸ ha)⟩
    · intro s
      change s < m.nextSlot ↔ (∃ g, Table.map ⟨m.slots.erase guid, m.nextSlot⟩ g = some s) ∨
        s ∈ m.reusableSlots.slots ∨ s ∈ m.pendingFreeSlots ++ [slot]
      rw [h.exact s, hmap, List.mem_append, List.mem_singleton]
      constructor
      · rintro (⟨g, hg⟩ | hs | hs)
        · by_cases hk : g = guid
          · subst hk
            have hsame : some s = some slot := by rw [← hg]; exact hlookup
            cases hsame
            exact .inr (.inr (.inr rfl))
          · exact .inl ⟨g, by rw [Function.update_of_ne hk]; exact hg⟩
        · exact .inr (.inl hs)
        · exact .inr (.inr (.inl hs))
      · rintro (⟨g, hg⟩ | hs | hs | rfl)
        · exact .inl ⟨g, (hsub hg).2⟩
        · exact .inr (.inl hs)
        · exact .inr (.inr hs)
        · exact .inl ⟨guid, hlookup⟩
    · intro delta hd
      rcases List.mem_append.mp hd with hd | hd
      · exact h.fits delta hd
      · cases List.mem_singleton.mp hd
        trivial
    · intro t ht
      exact ht
  · rename_i hlookup
    cases heq
    refine ⟨h, ?_, [], Grows.refl m, fun _ => rfl⟩
    funext g
    by_cases hk : g = guid
    · rw [hk, Function.update_self]
      exact hlookup
    · rw [Function.update_of_ne hk]

@[simp]
theorem toTable_publishPendingFreeSlots (m : Manifest) :
    m.publishPendingFreeSlots.toTable = m.toTable := by
  rw [publishPendingFreeSlots]
  split <;> rfl

@[simp]
theorem pendingLog_publishPendingFreeSlots (m : Manifest) :
    m.publishPendingFreeSlots.pendingLog = m.pendingLog := by
  rw [publishPendingFreeSlots]
  split <;> rfl

/-- The pending changes are durable now, and the slots they freed may be given out again. -/
theorem Inv.flushed (h : m.Inv history) (htable : m'.toTable = m.toTable)
    (hreuse : m'.reusableSlots = m.reusableSlots)
    (hfree : m'.pendingFreeSlots = m.pendingFreeSlots) (hlog : m'.pendingLog = []) :
    m'.publishPendingFreeSlots.Inv (history ++ m.pendingLog) := by
  have htable' : m'.publishPendingFreeSlots.toTable = m.toTable := by
    rw [toTable_publishPendingFreeSlots, htable]
  have hlog' : m'.publishPendingFreeSlots.pendingLog = [] := by
    rw [pendingLog_publishPendingFreeSlots, hlog]
  have hfree' : m'.publishPendingFreeSlots.pendingFreeSlots = [] := by
    rw [publishPendingFreeSlots]
    split
    · rename_i hempty
      exact List.isEmpty_iff.mp hempty
    · rfl
  have hreuse' : m'.publishPendingFreeSlots.reusableSlots.slots =
      m.pendingFreeSlots.reverse ++ m.reusableSlots.slots := by
    rw [publishPendingFreeSlots]
    split
    · rename_i hempty
      rw [hfree] at hempty
      rw [hreuse, List.isEmpty_iff.mp hempty]
      rfl
    · change (m'.reusableSlots.appendSlots m'.pendingFreeSlots).slots = _
      rw [ReusableSlots.slots_appendSlots, hreuse, hfree]
  have howns : ∀ {slot g}, m'.publishPendingFreeSlots.Owns (history ++ m.pendingLog) slot g →
      m.map g = some slot := by
    rintro slot g (hg | hg)
    · rwa [h.current]
    · rw [hlog'] at hg
      cases hg
  have hnext : m'.publishPendingFreeSlots.nextSlot = m.nextSlot := by rw [htable']
  have hfreed : ∀ slot ∈ m'.publishPendingFreeSlots.reusableSlots.slots, ∀ g,
      m.map g ≠ some slot := by
    intro slot hs g
    rw [hreuse', List.mem_append, List.mem_reverse] at hs
    rcases hs with hs | hs
    · exact h.freed slot hs g
    · exact fun hg => h.free slot hs g (h.owns hg)
  refine ⟨?_, ?_, ?_, ?_, ?_, fun _ => hfree', ?_, ?_, ?_, by rw [hnext]; exact h.bound⟩
  · rw [hlog', List.append_nil, htable', h.current]
  · intro slot g g' hg hg'
    exact h.sound.apart (howns hg) (howns hg')
  · intro slot g hg
    rw [hnext]
    exact h.sound.below (howns hg)
  · intro slot hs g hg
    exact hfreed slot hs g (howns hg)
  · intro slot hs
    rw [hfree'] at hs
    cases hs
  · rw [hfree', hreuse', List.append_nil]
    exact (List.perm_append_comm.trans
      (List.Perm.append_left _ (List.reverse_perm _))).nodup_iff.mpr h.nodup
  · intro slot
    rw [hnext, htable', hfree', hreuse', h.exact slot, List.mem_append, List.mem_reverse,
      or_comm (a := slot ∈ m.pendingFreeSlots)]
    simp
  · intro delta hd
    rw [hlog'] at hd
    cases hd

theorem Inv.flushed_with (h : m.Inv history) (logBytes : Nat) :
    (publishPendingFreeSlots { m with logBytes, pendingLog := [] }).Inv (history ++ m.pendingLog) :=
  h.flushed rfl rfl rfl rfl

/-- How long the log is says nothing about the map. -/
theorem Inv.relogged (h : m.Inv history) (logBytes : Nat) :
    Inv { m with logBytes } history :=
  ⟨h.current, h.apart, h.below, h.free, h.freed, h.published, h.nodup, h.exact, h.fits, h.bound⟩

/-- A manifest just loaded stands behind every history that leads to its map. -/
theorem Inv.loaded {d d' : Disk} {log : List ManifestDelta} {t : Table} (h : Loaded d log t m d')
    (ht : t.Sound) (hbound : t.nextSlot < 2 ^ 64) (hmap : m.map = after history) :
    m.Inv history := by
  have howns : ∀ {slot g}, m.Owns history slot g → t.map g = some slot := by
    rintro slot g (hg | hg)
    · rwa [← hmap, h.table] at hg
    · rw [h.pendingLog] at hg
      cases hg
  have hnext : m.nextSlot = t.nextSlot := by rw [h.table]
  refine ⟨?_, ?_, ?_, ?_, ?_, fun _ => h.pendingFreeSlots, ?_, ?_, ?_,
    by rw [hnext]; exact hbound⟩
  · rw [h.pendingLog, List.append_nil, hmap]
  · intro slot g g' hg hg'
    exact ht.apart (howns hg) (howns hg')
  · intro slot g hg
    rw [hnext]
    exact ht.below (howns hg)
  · intro slot hs g hg
    exact ((h.holes slot).mp hs).2 g (howns hg)
  · intro slot hs
    rw [h.pendingFreeSlots] at hs
    cases hs
  · rw [h.pendingFreeSlots, List.append_nil]
    exact h.nodup
  · intro slot
    rw [hnext, h.pendingFreeSlots, h.holes slot, h.table]
    constructor
    · intro hs
      by_cases hused : ∃ g, t.map g = some slot
      · exact .inl hused
      · exact .inr (.inl ⟨hs, not_exists.mp hused⟩)
    · rintro (⟨g, hg⟩ | ⟨hs, -⟩ | hs)
      · exact ht.below hg
      · exact hs
      · cases hs
  · intro delta hd
    rw [h.pendingLog] at hd
    cases hd

end Manifest

end Holt.FileStore
