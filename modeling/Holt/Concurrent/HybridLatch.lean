import Holt.Lib.Threads
import Mathlib.Data.List.Basic

/-! The hybrid latch of a blob and the admission gate, one atomic step of one thread at a time.
Whatever the threads do, who is inside is what the one word of each says. -/

namespace Holt

open Holt.Lib

/-- Whoever is inside exclusively is alone. -/
def Excludes (readers writers : List Nat) : Prop :=
  writers = [] ∨ ∃ t, writers = [t] ∧ readers = []

/-- `fetch_sub(1)` on a word of `bits` bits. -/
@[irreducible]
def fetchSub (bits n : Nat) : Nat := (n + 2 ^ bits - 1) % 2 ^ bits

theorem fetchSub_succ {bits n : Nat} (h : n < 2 ^ bits) : fetchSub bits (n + 1) = n := by
  rw [fetchSub, Nat.add_right_comm, Nat.add_sub_cancel, Nat.add_mod_right, Nat.mod_eq_of_lt h]

namespace HybridLatch

def writer : Nat := 2 ^ 32 - 1

/-- The exclusive sections at one moment: how many have begun, and who is inside. -/
structure Moment where
  begun : Nat
  inside : List Nat
  deriving DecidableEq

/-- The version that `acquire_optimistic` returns, and the moment it saw the latch not held. -/
structure Snapshot where
  version : Nat
  seen : Moment
  deriving DecidableEq

inductive Call
  | idle
  | acquireOptimistic
  | optimisticCounter (version : Nat)
  | validate (s : Snapshot)
  | validateVersion (s : Snapshot) (read : Moment)
  | acquireShared
  | sharedCas (cur : Nat)
  | releaseShared
  | acquireExclusive
  | releaseExclusive
  | releaseStore

def Call.isIdle : Call → Bool
  | .idle => true
  | _ => false

/-- The two words, and what the run has done: who is inside, the sections begun and released, the
snapshots taken and those that `validate` accepted, with the moment it read the counter. -/
structure Latch where
  counter : Nat
  version : Nat
  readers : List Nat
  writers : List Nat
  begun : Nat
  released : Nat
  snapshots : List Snapshot
  valid : List (Snapshot × Moment)

def new : Threads Latch Call := ⟨⟨0, 0, [], [], 0, 0, [], []⟩, fun _ => .idle⟩

def Latch.now (l : Latch) : Moment := ⟨l.begun, l.writers⟩

def move (l : Latch) (t : Nat) (spurious : Bool) : Call → Option (Latch × Call)
  | .idle => none
  | .acquireOptimistic => some (l, .optimisticCounter l.version)
  | .optimisticCounter v =>
    if l.counter ≠ writer then some ({ l with snapshots := ⟨v, l.now⟩ :: l.snapshots }, .idle)
    else some (l, .acquireOptimistic)
  | .validate s =>
    if l.counter = writer then some (l, .idle) else some (l, .validateVersion s l.now)
  | .validateVersion s read =>
    if l.version = s.version then some ({ l with valid := (s, read) :: l.valid }, .idle)
    else some (l, .idle)
  | .acquireShared =>
    if l.counter = writer ∨ l.counter ≥ writer - 1 then some (l, .acquireShared)
    else some (l, .sharedCas l.counter)
  | .sharedCas cur =>
    if l.counter = cur ∧ !spurious then
      some ({ l with counter := cur + 1, readers := t :: l.readers }, .idle)
    else some (l, .acquireShared)
  | .releaseShared =>
    some ({ l with counter := fetchSub 32 l.counter, readers := l.readers.erase t }, .idle)
  | .acquireExclusive =>
    if l.counter = 0 ∧ !spurious then
      some ({ l with counter := writer, writers := t :: l.writers, begun := l.begun + 1 }, .idle)
    else some (l, .acquireExclusive)
  | .releaseExclusive =>
    some ({ l with version := (l.version + 1) % 2 ^ 64, released := l.released + 1 },
      .releaseStore)
  | .releaseStore => some ({ l with counter := 0, writers := l.writers.erase t }, .idle)

/-- Calls begin at their first step, a release matches an acquisition of its thread, and there are
fewer than `2 ^ 64` exclusive releases. -/
def Orderly (w : Threads Latch Call) : Turn Call → Prop
  | .call _ c => match c with
    | .acquireOptimistic | .acquireShared | .releaseShared | .acquireExclusive
    | .releaseExclusive => True
    | .validate s => s ∈ w.state.snapshots
    | _ => False
  | .move t _ => match w.calls t with
    | .releaseShared => t ∈ w.state.readers
    | .releaseExclusive => t ∈ w.state.writers ∧ w.state.released + 1 < 2 ^ 64
    | _ => True

instance (w : Threads Latch Call) (a : Turn Call) : Decidable (Orderly w a) := by
  unfold Orderly
  repeat' split
  all_goals infer_instance

/-- Nobody was inside at either moment, and no section began between them. -/
def Undisturbed (seen read : Moment) : Prop :=
  seen.inside = [] ∧ read.inside = [] ∧ seen.begun = read.begun

/-- The version was read before the latch was seen free, and all that had begun by then was over. -/
structure Snapshot.Sound (s : Snapshot) (released : Nat) : Prop where
  free : s.seen.inside = []
  version : s.version ≤ s.seen.begun
  past : s.seen.begun ≤ released

def Knows (released : Nat) : Call → Prop
  | .optimisticCounter v => v ≤ released
  | .validate s => s.Sound released
  | .validateVersion s read => s.Sound released ∧ read.inside = [] ∧
      s.seen.begun ≤ read.begun ∧ read.begun ≤ released
  | .sharedCas cur => cur + 1 < writer
  | _ => True

/-- The sections of a holder that are not in the version yet. -/
def Call.unreleased : Call → Nat
  | .releaseStore => 0
  | _ => 1

structure Coherent (begun released : Nat) (writers : List Nat) (t : Nat) (c : Call) : Prop where
  knows : Knows released c
  storing : c.unreleased = 0 → t ∈ writers
  inside : t ∈ writers → begun = released + c.unreleased

/-- What the words say of who is inside. -/
structure Sound (l : Latch) : Prop where
  version : l.version = l.released
  bounded : l.released < 2 ^ 64
  phase : (l.counter = l.readers.length ∧ l.counter < writer ∧ l.writers = [] ∧
      l.begun = l.released) ∨
    (l.counter = writer ∧ l.readers = [] ∧ ∃ t, l.writers = [t])
  snapshots : ∀ s ∈ l.snapshots, s.Sound l.released
  valid : ∀ v ∈ l.valid, Undisturbed v.1.seen v.2

abbrev Inv : Threads Latch Call → Prop :=
  Threads.Inv Sound fun l => Coherent l.begun l.released l.writers

variable {w : Threads Latch Call} {l : Latch} {t : Nat} {c c' : Call}
  {begun begun' released released' : Nat} {writers writers' : List Nat}

theorem Snapshot.Sound.mono {s : Snapshot} (h : s.Sound released) (hle : released ≤ released') :
    s.Sound released' :=
  { h with past := Nat.le_trans h.past hle }

theorem Knows.mono (h : Knows released c) (hle : released ≤ released') : Knows released' c := by
  cases c with
  | optimisticCounter => exact Nat.le_trans h hle
  | validate => exact h.mono hle
  | validateVersion => exact ⟨h.1.mono hle, h.2.1, h.2.2.1, Nat.le_trans h.2.2.2 hle⟩
  | sharedCas => exact h
  | _ => trivial

theorem Coherent.goto (h : Coherent begun released writers t c) (hk : Knows released c')
    (hc : c'.unreleased = c.unreleased) : Coherent begun released writers t c' :=
  ⟨hk, hc ▸ h.storing, hc ▸ h.inside⟩

/-- A thread that is not inside does not see another one begin, release or leave a section. -/
theorem Coherent.outside (h : Coherent begun released writers t c) (hle : released ≤ released')
    (ht : t ∉ writers) (ht' : t ∉ writers') : Coherent begun' released' writers' t c :=
  ⟨h.knows.mono hle, fun hc => absurd (h.storing hc) ht, fun hm => absurd hm ht'⟩

theorem Sound.free (h : Sound l) (hc : l.counter ≠ writer) :
    l.counter = l.readers.length ∧ l.writers = [] ∧ l.begun = l.released := by
  obtain ⟨hcount, -, hrest⟩ | ⟨heq, -⟩ := h.phase
  · exact ⟨hcount, hrest⟩
  · exact absurd heq hc

theorem Sound.held (h : Sound l) (ht : t ∈ l.writers) :
    l.counter = writer ∧ l.readers = [] ∧ l.writers = [t] := by
  obtain ⟨-, -, hnone, -⟩ | ⟨hc, hr, u, hu⟩ := h.phase
  · rw [hnone] at ht
    cases ht
  · rw [hu, List.mem_singleton] at ht
    exact ⟨hc, hr, ht ▸ hu⟩

theorem Inv.move {spurious : Bool} (h : Inv w) (may : Orderly w (.move t spurious))
    (hs : move w.state t spurious (w.calls t) = some (l, c)) : Inv (w.set t l c) := by
  have hc := h.calls t
  have hsound := h.state
  have hgo := fun c hk he => h.set (t := t) (c := c) hsound (hc.goto hk he) fun _ _ _ => id
  simp only [Orderly] at may
  generalize w.calls t = at_ at hs hc may hgo
  cases at_ with
  | idle => cases hs
  | acquireOptimistic =>
    cases hs
    exact hgo (.optimisticCounter _) (Nat.le_of_eq hsound.version) rfl
  | optimisticCounter v =>
    rw [HybridLatch.move] at hs
    split at hs <;> cases hs
    · obtain ⟨-, hnone, hbegun⟩ := hsound.free ‹_›
      have hnew : Snapshot.Sound ⟨v, w.state.now⟩ w.state.released :=
        ⟨hnone, Nat.le_trans hc.knows (Nat.le_of_eq hbegun.symm), Nat.le_of_eq hbegun⟩
      exact h.set { hsound with snapshots := List.forall_mem_cons.mpr ⟨hnew, hsound.snapshots⟩ }
        (hc.goto trivial rfl) fun _ _ _ => id
    · exact hgo .acquireOptimistic trivial rfl
  | validate s =>
    rw [HybridLatch.move] at hs
    split at hs <;> cases hs
    · exact hgo .idle trivial rfl
    · obtain ⟨-, hnone, hbegun⟩ := hsound.free ‹_›
      have hover := Nat.le_trans hc.knows.past (Nat.le_of_eq hbegun.symm)
      exact hgo (.validateVersion s _) ⟨hc.knows, hnone, hover, Nat.le_of_eq hbegun⟩ rfl
  | validateVersion s read =>
    rw [HybridLatch.move] at hs
    split at hs <;> cases hs
    · obtain ⟨hs, hnone, hle, hover⟩ := hc.knows
      have hversion := hs.version
      have heq := hsound.version
      have hnew : Undisturbed s.seen read := ⟨hs.free, hnone, by omega⟩
      exact h.set { hsound with valid := List.forall_mem_cons.mpr ⟨hnew, hsound.valid⟩ }
        (hc.goto trivial rfl) fun _ _ _ => id
    · exact hgo .idle trivial rfl
  | acquireShared =>
    rw [HybridLatch.move] at hs
    split at hs <;> cases hs
    · exact hgo .acquireShared trivial rfl
    · have hlt : w.state.counter + 1 < writer := by omega
      exact hgo (.sharedCas _) hlt rfl
  | sharedCas cur =>
    rw [HybridLatch.move] at hs
    split at hs <;> cases hs
    · obtain ⟨rfl, -⟩ := ‹_ ∧ _›
      have hlt : w.state.counter + 1 < writer := hc.knows
      obtain ⟨hcount, hrest⟩ := hsound.free (by omega)
      exact h.set { hsound with phase := .inl ⟨congrArg (· + 1) hcount, hlt, hrest⟩ }
        (hc.goto trivial rfl) fun _ _ _ => id
    · exact hgo .acquireShared trivial rfl
  | releaseShared =>
    cases hs
    obtain ⟨hcount, hlt, hrest⟩ | ⟨-, hr, -⟩ := hsound.phase
    · have hlen := List.length_erase_add_one may
      have hlt' : (w.state.readers.erase t).length < writer := by omega
      have hcount' : fetchSub 32 w.state.counter = (w.state.readers.erase t).length := by
        rw [hcount, ← hlen]
        exact fetchSub_succ (Nat.lt_of_lt_of_le hlt' (Nat.sub_le _ _))
      exact h.set { hsound with phase := .inl ⟨hcount', hcount' ▸ hlt', hrest⟩ }
        (hc.goto trivial rfl) fun _ _ _ => id
    · rw [hr] at may
      cases may
  | acquireExclusive =>
    rw [HybridLatch.move] at hs
    split at hs <;> cases hs
    · obtain ⟨hzero, -⟩ := ‹_ ∧ _›
      obtain ⟨hcount, hnone, hbegun⟩ := hsound.free (by rw [hzero]; decide)
      have hreaders : w.state.readers = [] :=
        List.length_eq_zero_iff.mp (hcount.symm.trans hzero)
      refine h.set { hsound with phase := .inr ⟨rfl, hreaders, t, congrArg _ hnone⟩ }
        ⟨trivial, nofun, fun _ => congrArg (· + 1) hbegun⟩
        fun u hu _ hc => hc.outside (Nat.le_refl _) ?_ ?_ <;> simp [hnone, hu]
    · exact hgo .acquireExclusive trivial rfl
  | releaseExclusive =>
    cases hs
    obtain ⟨hcounter, hreaders, hone⟩ := hsound.held may.1
    have hversion : (w.state.version + 1) % 2 ^ 64 = w.state.released + 1 := by
      rw [hsound.version]
      exact Nat.mod_eq_of_lt may.2
    refine h.set
      { hsound with
        version := hversion
        bounded := may.2
        phase := .inr ⟨hcounter, hreaders, t, hone⟩
        snapshots := fun s hs => (hsound.snapshots s hs).mono (Nat.le_succ _) }
      ⟨trivial, fun _ => may.1, fun _ => hc.inside may.1⟩
      fun u hu _ hc => hc.outside (Nat.le_succ _) ?_ ?_ <;> simp [hone, hu]
  | releaseStore =>
    cases hs
    have ht := hc.storing rfl
    obtain ⟨-, hreaders, hone⟩ := hsound.held ht
    have hgone : w.state.writers.erase t = [] := by simp [hone]
    have hcount := (congrArg List.length hreaders).symm
    refine h.set
      { hsound with phase := .inl ⟨hcount, Nat.zero_lt_succ _, hgone, hc.inside ht⟩ }
      ⟨trivial, nofun, hgone ▸ nofun⟩
      fun u hu _ hc => hc.outside (Nat.le_refl _) ?_ ?_ <;> simp [hone, hu]

theorem Inv.step {a : Turn Call} {w' : Threads Latch Call} (h : Inv w) (may : Orderly w a)
    (hs : w.step Call.isIdle HybridLatch.move a = some w') : Inv w' := by
  refine Threads.step_cases hs ?_ ?_
  · rintro t c rfl hidle
    have hone : (w.calls t).unreleased = 1 := by
      cases hc : w.calls t <;> first | rfl | (rw [hc] at hidle; cases hidle)
    have hgo := fun (hk : Knows _ c) he => h.set h.state ((h.calls t).goto hk he) fun _ _ _ => id
    cases c with
    | acquireOptimistic | acquireShared | releaseShared | acquireExclusive | releaseExclusive =>
      exact hgo trivial hone.symm
    | validate s => exact hgo (h.state.snapshots s may) hone.symm
    | _ => cases may
  · rintro t spurious l c rfl hmove
    exact h.move may hmove

theorem inv_new : Inv new where
  state := ⟨rfl, by decide, .inl ⟨rfl, by decide, rfl, rfl⟩, nofun, nofun⟩
  calls := fun _ => ⟨trivial, nofun, nofun⟩

end HybridLatch

namespace Gate

def writeBit : Nat := 2 ^ 63

inductive Call
  | idle
  | enterShared
  | sharedCas (cur : Nat)
  | enterExclusive
  | exclusiveCas (cur : Nat)
  | drain
  | leaveShared
  | leaveExclusive

def Call.isIdle : Call → Bool
  | .idle => true
  | _ => false

/-- The gate's word, and who is inside; `entrants` are the exclusive ones from the moment they set
the pending bit until they leave. -/
structure Word where
  state : Nat
  readers : List Nat
  writers : List Nat
  entrants : List Nat

def new : Threads Word Call := ⟨⟨0, [], [], []⟩, fun _ => .idle⟩

/-- The word is below `2 ^ 64`, so its pending bit is set when it is not below `writeBit`. -/
def move (g : Word) (t : Nat) (spurious : Bool) : Call → Option (Word × Call)
  | .idle => none
  | .enterShared =>
    if g.state < writeBit ∧ g.state % writeBit ≠ writeBit - 1 then some (g, .sharedCas g.state)
    else some (g, .enterShared)
  | .sharedCas cur =>
    if g.state = cur ∧ !spurious then
      some ({ g with state := cur + 1, readers := t :: g.readers }, .idle)
    else some (g, .enterShared)
  | .enterExclusive =>
    if writeBit ≤ g.state then some (g, .enterExclusive) else some (g, .exclusiveCas g.state)
  | .exclusiveCas cur =>
    if g.state = cur ∧ !spurious then
      some ({ g with state := cur + writeBit, entrants := t :: g.entrants }, .drain)
    else some (g, .enterExclusive)
  | .drain =>
    if g.state % writeBit ≠ 0 then some (g, .drain)
    else some ({ g with writers := t :: g.writers }, .idle)
  | .leaveShared =>
    some ({ g with state := fetchSub 64 g.state, readers := g.readers.erase t }, .idle)
  | .leaveExclusive =>
    some ({ g with
      state := 0, writers := g.writers.erase t, entrants := g.entrants.erase t }, .idle)

/-- Calls begin at their first step, and a guard leaves what its thread entered. -/
def Orderly (w : Threads Word Call) : Turn Call → Prop
  | .call _ c => match c with
    | .enterShared | .enterExclusive | .leaveShared | .leaveExclusive => True
    | _ => False
  | .move t _ => match w.calls t with
    | .leaveShared => t ∈ w.state.readers
    | .leaveExclusive => t ∈ w.state.writers
    | _ => True

instance (w : Threads Word Call) (a : Turn Call) : Decidable (Orderly w a) := by
  unfold Orderly
  repeat' split
  all_goals infer_instance

def Coherent (entrants writers : List Nat) (t : Nat) : Call → Prop
  | .sharedCas cur => cur + 1 < writeBit
  | .exclusiveCas cur => cur < writeBit
  | .drain => t ∈ entrants ∧ writers = []
  | _ => True

/-- What the word says of who is inside. -/
def Sound (g : Word) : Prop :=
  (g.state = g.readers.length ∧ g.state < writeBit ∧ g.entrants = [] ∧ g.writers = []) ∨
    ∃ e, g.entrants = [e] ∧ g.state = g.readers.length + writeBit ∧
      g.readers.length < writeBit ∧ (g.writers = [] ∨ g.writers = [e] ∧ g.readers = [])

abbrev Inv : Threads Word Call → Prop :=
  Threads.Inv Sound fun g => Coherent g.entrants g.writers

variable {w : Threads Word Call} {g : Word} {t : Nat} {c : Call}

/-- Without the pending bit nobody is entering exclusively or inside. -/
theorem Sound.clear (h : Sound g) (hlt : g.state < writeBit) :
    g.state = g.readers.length ∧ g.entrants = [] ∧ g.writers = [] := by
  obtain ⟨hs, -, hrest⟩ | ⟨e, -, hs, -⟩ := h
  · exact ⟨hs, hrest⟩
  · omega

theorem Sound.entered (h : Sound g) (ht : t ∈ g.entrants) : g.entrants = [t] ∧
    g.state = g.readers.length + writeBit ∧ g.readers.length < writeBit := by
  obtain ⟨-, -, hnone, -⟩ | ⟨e, he, hstate, hlt, -⟩ := h
  · rw [hnone] at ht
    cases ht
  · rw [he, List.mem_singleton] at ht
    exact ⟨ht ▸ he, hstate, hlt⟩

theorem Sound.inside (h : Sound g) (ht : t ∈ g.writers) :
    g.writers = [t] ∧ g.readers = [] ∧ g.entrants = [t] := by
  obtain ⟨-, -, -, hnone⟩ | ⟨e, he, -, -, hnone | ⟨hw, hr⟩⟩ := h
  · rw [hnone] at ht
    cases ht
  · rw [hnone] at ht
    cases ht
  · rw [hw, List.mem_singleton] at ht
    subst ht
    exact ⟨hw, hr, he⟩

/-- Only an entrant drains, so any other thread's call stands whatever the entrant does. -/
theorem Coherent.other {entrants entrants' writers writers' : List Nat} (ht : t ∉ entrants)
    (h : Coherent entrants writers t c) : Coherent entrants' writers' t c := by
  cases c with
  | drain => exact absurd h.1 ht
  | _ => exact h

theorem Inv.move {spurious : Bool} (h : Inv w) (may : Orderly w (.move t spurious))
    (hs : move w.state t spurious (w.calls t) = some (g, c)) : Inv (w.set t g c) := by
  have hc := h.calls t
  have hsound := h.state
  have hgo := fun c hc => h.set (t := t) (c := c) hsound hc fun _ _ _ => id
  simp only [Orderly] at may
  generalize w.calls t = at_ at hs hc may
  cases at_ with
  | idle => cases hs
  | enterShared =>
    rw [Gate.move] at hs
    split at hs <;> cases hs
    · obtain ⟨hlt, hne⟩ := ‹_ ∧ _›
      rw [Nat.mod_eq_of_lt hlt] at hne
      have hroom : w.state.state + 1 < writeBit := by omega
      exact hgo (.sharedCas _) hroom
    · exact hgo .enterShared trivial
  | sharedCas cur =>
    rw [Gate.move] at hs
    split at hs <;> cases hs
    · obtain ⟨rfl, -⟩ := ‹_ ∧ _›
      have hlt : w.state.state + 1 < writeBit := hc
      obtain ⟨hcount, hnone⟩ := hsound.clear (by omega)
      exact h.set (.inl ⟨congrArg (· + 1) hcount, hlt, hnone⟩) trivial fun _ _ _ => id
    · exact hgo .enterShared trivial
  | enterExclusive =>
    rw [Gate.move] at hs
    split at hs <;> cases hs
    · exact hgo .enterExclusive trivial
    · exact hgo (.exclusiveCas _) (Nat.lt_of_not_le ‹_›)
  | exclusiveCas cur =>
    rw [Gate.move] at hs
    split at hs <;> cases hs
    · obtain ⟨rfl, -⟩ := ‹_ ∧ _›
      obtain ⟨hcount, hnone, hw⟩ := hsound.clear hc
      exact h.set (.inr ⟨t, congrArg _ hnone, congrArg (· + writeBit) hcount, hcount ▸ hc, .inl hw⟩)
        ⟨List.mem_cons_self, hw⟩ fun u _ _ => .other (by simp [hnone])
    · exact hgo .enterExclusive trivial
  | drain =>
    rw [Gate.move] at hs
    split at hs <;> cases hs
    · exact hgo .drain hc
    · obtain ⟨hone, hstate, hlt⟩ := hsound.entered hc.1
      have hzero := not_not.mp ‹¬_›
      rw [hstate, Nat.add_mod_right, Nat.mod_eq_of_lt hlt] at hzero
      exact h.set (.inr ⟨t, hone, hstate, hlt,
        .inr ⟨congrArg _ hc.2, List.length_eq_zero_iff.mp hzero⟩⟩) trivial
        fun u hu _ => .other (by simp [hone, hu])
  | leaveShared =>
    cases hs
    have hlen := List.length_erase_add_one may
    obtain ⟨hcount, hlt, hrest⟩ | ⟨e, he, hcount, hlt, hw | ⟨-, hr⟩⟩ := hsound
    · have hcount' : fetchSub 64 w.state.state = (w.state.readers.erase t).length := by
        rw [hcount, ← hlen]
        exact fetchSub_succ (by unfold writeBit at hlt; omega)
      exact h.set (.inl ⟨hcount', by simp only [hcount']; omega, hrest⟩) trivial fun _ _ _ => id
    · have hcount' : fetchSub 64 w.state.state =
          (w.state.readers.erase t).length + writeBit := by
        rw [hcount, ← hlen, Nat.add_right_comm]
        exact fetchSub_succ (by unfold writeBit at hlt ⊢; omega)
      exact h.set (.inr ⟨e, he, hcount', by simp only; omega, .inl hw⟩) trivial fun _ _ _ => id
    · rw [hr] at may
      cases may
  | leaveExclusive =>
    cases hs
    obtain ⟨hw, hr, he⟩ := hsound.inside may
    exact h.set (.inl ⟨by simp [hr], Nat.two_pow_pos 63, by simp [he], by simp [hw]⟩) trivial
      fun u hu _ => .other (by simp [he, hu])

theorem Inv.step {a : Turn Call} {w' : Threads Word Call} (h : Inv w) (may : Orderly w a)
    (hs : w.step Call.isIdle Gate.move a = some w') : Inv w' := by
  refine Threads.step_cases hs ?_ ?_
  · rintro t c rfl -
    refine h.set h.state ?_ fun _ _ _ => id
    cases c <;> trivial
  · rintro t spurious g c rfl hmove
    exact h.move may hmove

theorem inv_new : Inv new :=
  ⟨.inl ⟨rfl, Nat.two_pow_pos 63, rfl, rfl⟩, fun _ => trivial⟩

/-- With the pending bit set no exchange of a shared entrant succeeds: it was loaded without. -/
theorem Inv.admits_none {a : Turn Call} {w' : Threads Word Call} (h : Inv w)
    (ht : t ∈ w.state.entrants) (hs : w.step Call.isIdle Gate.move a = some w') :
    w'.state.readers.Sublist w.state.readers := by
  refine Threads.step_cases (P := fun w' => w'.state.readers.Sublist w.state.readers) hs
    (fun _ _ _ _ => .refl _) fun u spurious g c _ hmove => ?_
  have hc := h.calls u
  generalize w.calls u = at_ at hmove hc
  cases at_ with
  | idle => cases hmove
  | sharedCas cur =>
    rw [Gate.move] at hmove
    split at hmove <;> cases hmove
    · obtain ⟨rfl, -⟩ := ‹_ ∧ _›
      have hlt : w.state.state + 1 < writeBit := hc
      have hset := (h.state.entered ht).2.1
      omega
    · exact .refl _
  | leaveShared =>
    cases hmove
    exact List.erase_sublist
  | leaveExclusive =>
    cases hmove
    exact .refl _
  | _ =>
    rw [Gate.move] at hmove
    split at hmove <;> cases hmove <;> exact .refl _

end Gate

/-- On every run of a latch and of a gate whoever is inside exclusively is alone; a snapshot is
validated only if no exclusive section touches the time between; and while an exclusive entrant of
the gate is pending or inside, no step admits a shared one. -/
theorem latch_and_gate_exclude {l : Threads HybridLatch.Latch HybridLatch.Call}
    {g : Threads Gate.Word Gate.Call}
    (hl : Run (Threads.step HybridLatch.Call.isIdle HybridLatch.move) HybridLatch.Orderly
      HybridLatch.new l)
    (hg : Run (Threads.step Gate.Call.isIdle Gate.move) Gate.Orderly Gate.new g) :
    Excludes l.state.readers l.state.writers ∧
      (∀ v ∈ l.state.valid, HybridLatch.Undisturbed v.1.seen v.2) ∧
      Excludes g.state.readers g.state.writers ∧
      ∀ t ∈ g.state.entrants, ∀ a g', g.step Gate.Call.isIdle Gate.move a = some g' →
        g'.state.readers.Sublist g.state.readers := by
  have hli : HybridLatch.Inv l := hl.invariant HybridLatch.inv_new .step
  have hgi : Gate.Inv g := hg.invariant Gate.inv_new .step
  refine ⟨?_, hli.state.valid, ?_, fun t ht a g' => hgi.admits_none ht⟩
  · obtain ⟨-, -, hnone, -⟩ | ⟨-, hr, t, ht⟩ := hli.state.phase
    · exact .inl hnone
    · exact .inr ⟨t, ht, hr⟩
  · obtain ⟨-, -, -, hnone⟩ | ⟨e, -, -, -, hnone | ⟨hw, hr⟩⟩ := hgi.state
    · exact .inl hnone
    · exact .inl hnone
    · exact .inr ⟨e, hw, hr⟩

/-- A snapshot of before another thread's exclusive section is refused, one of after it validated.
At the gate a thread is inside when an exclusive one comes, and a third has to wait. -/
theorem latch_and_gate_exclude_validated : ∃ l g,
    Run (Threads.step HybridLatch.Call.isIdle HybridLatch.move) HybridLatch.Orderly
      HybridLatch.new l ∧
    Run (Threads.step Gate.Call.isIdle Gate.move) Gate.Orderly Gate.new g ∧
    l.state.snapshots = [⟨1, ⟨1, []⟩⟩, ⟨0, ⟨0, []⟩⟩] ∧
    l.state.valid = [(⟨1, ⟨1, []⟩⟩, ⟨1, []⟩)] ∧
    HybridLatch.Undisturbed ⟨1, []⟩ ⟨1, []⟩ ∧
    g.state.entrants = [1] ∧ g.state.readers = [0] ∧
    ∀ a g', g.step Gate.Call.isIdle Gate.move a = some g' → g'.state.readers.Sublist [0] := by
  have hlatch : (play (Threads.step HybridLatch.Call.isIdle HybridLatch.move) HybridLatch.Orderly
      [.call 0 .acquireOptimistic, .move 0 false, .move 0 false, .call 1 .acquireExclusive,
        .move 1 true, .move 1 false, .call 1 .releaseExclusive, .move 1 false,
        .call 0 (.validate ⟨0, ⟨0, []⟩⟩), .move 1 false, .move 0 false, .move 0 false,
        .call 0 .acquireOptimistic, .move 0 false, .move 0 false,
        .call 0 (.validate ⟨1, ⟨1, []⟩⟩), .move 0 false, .move 0 false]
      HybridLatch.new).any fun l => l.state.snapshots = [⟨1, ⟨1, []⟩⟩, ⟨0, ⟨0, []⟩⟩] ∧
        l.state.valid = [(⟨1, ⟨1, []⟩⟩, ⟨1, []⟩)] := by decide +kernel
  have hgate : (play (Threads.step Gate.Call.isIdle Gate.move) Gate.Orderly
      [.call 0 .enterShared, .move 0 false, .move 0 false, .call 1 .enterExclusive, .move 1 false,
        .call 2 .enterShared, .move 2 false, .move 1 false, .move 1 false, .move 2 false]
      Gate.new).any fun g => g.state.entrants = [1] ∧ g.state.readers = [0] := by decide +kernel
  obtain ⟨l, hl, hsnapshots, hvalid⟩ := exists_run_of_play hlatch
  obtain ⟨g, hg, hentrants, hreaders⟩ := exists_run_of_play hgate
  obtain ⟨-, hall, -, hnone⟩ := latch_and_gate_exclude hl hg
  refine ⟨l, g, hl, hg, hsnapshots, hvalid, ?_, hentrants, hreaders, fun a g' hstep => ?_⟩
  · exact hall (⟨1, ⟨1, []⟩⟩, ⟨1, []⟩) (by simp [hvalid])
  · rw [← hreaders]
    exact hnone 1 (by simp [hentrants]) a g' hstep

end Holt
