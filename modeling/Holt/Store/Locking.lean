import Holt.Lib.Locks
import Holt.Lib.Machine
import Mathlib.Data.List.Basic

/-! The mutexes of the bookkeeping shards and the locks of the cache map. A drain looks cached
blobs up while it holds a mutex; an eviction takes a mutex while it holds a lock of the map. -/

namespace Holt.Locking

open Holt.Lib

def bookkeepingShards : Nat := 64

inductive Lock
  | book (i : Nat)
  | shard (i : Nat) (write : Bool)
  deriving DecidableEq

/-- A mutex keeps everybody out, a lock of the map all but readers from readers. -/
def clash : Lock → Lock → Bool
  | .book i, .book j => i == j
  | .shard i write, .shard j write' => i == j && (write || write')
  | _, _ => false

/-- Where a guid is kept, and how many shards the map has. -/
structure Placement (G : Type) where
  book : G → Nat
  shard : G → Nat
  shards : Nat

/-- A call with what decides its way: what it finds protected, pinned, cached or pending delete. -/
inductive Call (G : Type)
  /-- `gets i` is looked up under the mutex of shard `i`. -/
  | snapshotDirty (gets : Nat → List G)
  /-- The victim, and whether `remove_if` comes to ask the books. -/
  | tryEvictCold (guid : G) (removes : Option Bool)
  | tryEvictUntil (victim : Option (G × Bool))
  | markDirty (guid : G) (cached : Bool)
  | markForDelete (guid : G)
  | restoreDirty (guids : List G)
  | retireWriteThrough (guid : G) (stillDirty : Bool)
  /-- A hit, or a miss that may evict others. -/
  | pin (guid : G) (asks : Bool) (miss : Option (Bool × List (Option (G × Bool))))

inductive Kind
  | drains
  | evicts
  | neither
  deriving DecidableEq

section Programs

variable {G : Type} (at' : Placement G)

def removeIf (guid : G) (asks : Bool) : Lock × List Lock :=
  (.shard (at'.shard guid) true, if asks then [.book (at'.book guid)] else [])

/-- The protected keys of every shard, a walk over the map, and the removal. -/
def evictUntil (victim : Option (G × Bool)) : List (Lock × List Lock) :=
  (List.range bookkeepingShards).map (fun i => (.book i, [])) ++
    (List.range at'.shards).map (fun i => (.shard i false, [])) ++
    victim.toList.map fun v => removeIf at' v.1 v.2

/-- The locks taken one after the other, each with those taken while it is held. -/
def Call.episodes : Call G → List (Lock × List Lock)
  | .snapshotDirty gets =>
    (List.range bookkeepingShards).map fun i =>
      (.book i, (gets i).map fun g => .shard (at'.shard g) false)
  | .tryEvictCold g removes =>
    (.book (at'.book g), []) :: removes.toList.map (removeIf at' g)
  | .tryEvictUntil victim => evictUntil at' victim
  | .markDirty g cached =>
    (.shard (at'.shard g) false, []) :: if cached then [(.book (at'.book g), [])] else []
  | .markForDelete g => [(.book (at'.book g), []), (.shard (at'.shard g) true, [])]
  | .restoreDirty gs =>
    gs.flatMap fun g => [(.shard (at'.shard g) false, []), (.book (at'.book g), [])]
  | .retireWriteThrough g stillDirty =>
    (.book (at'.book g), []) :: if stillDirty then [] else [(.shard (at'.shard g) false, [])]
  | .pin g asks miss =>
    (if asks then [(.book (at'.book g), [])] else []) ++ [(.shard (at'.shard g) false, [])] ++
      miss.toList.flatMap fun m =>
        (if m.1 then [(.book (at'.book g), [])] else []) ++ [(.shard (at'.shard g) true, [])] ++
          m.2.flatMap (evictUntil at')

def Call.kind : Call G → Kind
  | .snapshotDirty _ => .drains
  | .tryEvictCold _ _ | .tryEvictUntil _ | .pin _ _ (some (_, _ :: _)) => .evicts
  | _ => .neither

structure Thread where
  kind : Kind
  party : Party Lock
  deriving DecidableEq

/-- The thread is in the middle of a call of the kind. -/
def Thread.Under (t : Thread) (kind : Kind) : Prop := t.kind = kind ∧ t.party.todo ≠ []

inductive Action (G : Type)
  | start (i : Nat) (call : Call G)
  | act (i : Nat)

def free (threads : List Thread) (k : Lock) : Bool :=
  threads.all fun t => t.party.held.all fun k' => !clash k k'

def step (threads : List Thread) : Action G → Option (List Thread)
  | .start i call => do
    let t ← threads[i]?
    if t.party.todo.isEmpty then
      some (threads.set i ⟨call.kind, t.party.held, (call.episodes at').flatMap episode⟩)
    else none
  | .act i => do
    let t ← threads[i]?
    let party ← t.party.act (free threads)
    some (threads.set i { t with party := party })

end Programs

def idle (n : Nat) : List Thread := List.replicate n ⟨.neither, [], []⟩

/-- A cycle of threads that wait for each other. -/
def Stuck (threads : List Thread) : Prop :=
  Deadlock (fun k k' => clash k k' = true)
    (fun i : Nat => (threads[i]?).elim [] fun t : Thread => t.party.held)
    fun i => (threads[i]?).bind fun t : Thread => t.party.wants

/-- A drain does not begin during an eviction, nor an eviction during a drain. -/
def Apart {G : Type} (threads : List Thread) : Action G → Prop
  | .start _ call =>
    (call.kind = .drains → ∀ t ∈ threads, ¬ t.Under .evicts) ∧
      (call.kind = .evicts → ∀ t ∈ threads, ¬ t.Under .drains)
  | .act _ => True

instance (t : Thread) (kind : Kind) : Decidable (t.Under kind) :=
  inferInstanceAs (Decidable (_ ∧ _))

instance {G : Type} (threads : List Thread) : (a : Action G) → Decidable (Apart threads a)
  | .start _ _ => inferInstanceAs (Decidable (_ ∧ _))
  | .act _ => inferInstanceAs (Decidable True)

/-! ## Two orders -/

/-- The order of a drain. -/
def booksFirst : Lock → Nat
  | .book _ => 0
  | .shard _ _ => 1

/-- The order of an eviction. -/
def shardsFirst : Lock → Nat
  | .book _ => 1
  | .shard _ _ => 0

theorem clash_level {k k' : Lock} (h : clash k k' = true) :
    booksFirst k = booksFirst k' ∧ shardsFirst k = shardsFirst k' := by
  cases k <;> cases k' <;> first | exact ⟨rfl, rfl⟩ | cases h

section Programs

variable {G : Type} {at' : Placement G} {call : Call G}

theorem removeIf_inner {g : G} {asks : Bool} {k : Lock} (hk : k ∈ (removeIf at' g asks).2) :
    shardsFirst (removeIf at' g asks).1 < shardsFirst k := by
  unfold removeIf at hk
  split at hk
  · rw [List.mem_singleton.mp hk]
    exact Nat.zero_lt_one
  · cases hk

theorem evictUntil_inner {victim : Option (G × Bool)} {e : Lock × List Lock} {k : Lock}
    (he : e ∈ evictUntil at' victim) (hk : k ∈ e.2) : shardsFirst e.1 < shardsFirst k := by
  simp only [evictUntil, List.mem_append, List.mem_map] at he
  rcases he with (⟨i, -, rfl⟩ | ⟨i, -, rfl⟩) | ⟨v, -, rfl⟩
  · cases hk
  · cases hk
  · exact removeIf_inner hk

/-- Only a drain and an eviction take one lock inside another. -/
theorem episodes_inner {e : Lock × List Lock} {k : Lock} (he : e ∈ call.episodes at')
    (hk : k ∈ e.2) :
    call.kind = .drains ∧ booksFirst e.1 < booksFirst k ∨
      call.kind = .evicts ∧ shardsFirst e.1 < shardsFirst k := by
  cases call with
  | snapshotDirty gets =>
    obtain ⟨i, -, rfl⟩ := List.mem_map.mp he
    obtain ⟨g, -, rfl⟩ := List.mem_map.mp hk
    exact .inl ⟨rfl, Nat.zero_lt_one⟩
  | tryEvictCold g removes =>
    rcases List.mem_cons.mp he with rfl | he
    · cases hk
    · obtain ⟨asks, -, rfl⟩ := List.mem_map.mp he
      exact .inr ⟨rfl, removeIf_inner hk⟩
  | tryEvictUntil victim => exact .inr ⟨rfl, evictUntil_inner he hk⟩
  | pin g asks miss =>
    rcases List.mem_append.mp he with he | he
    · cases asks <;> simp at he <;> rcases he with rfl | rfl <;> cases hk
    · obtain ⟨⟨asks', victims⟩, hmiss, he⟩ := List.mem_flatMap.mp he
      rw [Option.mem_toList.mp hmiss]
      rcases List.mem_append.mp he with he | he
      · cases asks' <;> simp at he <;> rcases he with rfl | rfl <;> cases hk
      · obtain ⟨victim, hvictim, hin⟩ := List.mem_flatMap.mp he
        cases victims with
        | nil => cases hvictim
        | cons _ _ => exact .inr ⟨rfl, evictUntil_inner hin hk⟩
  | markDirty g cached =>
    cases cached <;> simp [Call.episodes] at he <;> rcases he with rfl | rfl <;> cases hk
  | markForDelete g => simp [Call.episodes] at he; rcases he with rfl | rfl <;> cases hk
  | restoreDirty gs =>
    simp [Call.episodes] at he
    obtain ⟨g, -, rfl | rfl⟩ := he <;> cases hk
  | retireWriteThrough g stillDirty =>
    cases stillDirty <;> simp [Call.episodes] at he <;> rcases he with rfl | rfl <;> cases hk

/-! ## Runs -/

/-- The order a thread keeps to, given what kind of call it is in. -/
structure Thread.Orderly (t : Thread) : Prop where
  booksFirst : ¬ t.Under .evicts → Climbs booksFirst booksFirst t.party.held t.party.todo
  shardsFirst : ¬ t.Under .drains → Climbs shardsFirst shardsFirst t.party.held t.party.todo

structure Inv (threads : List Thread) : Prop where
  orderly : ∀ t ∈ threads, t.Orderly
  apart : (∀ t ∈ threads, ¬ t.Under .evicts) ∨ ∀ t ∈ threads, ¬ t.Under .drains

theorem Thread.Orderly.held_nil {t : Thread} (h : t.Orderly) (hdone : t.party.todo = []) :
    t.party.held = [] := by
  have hclimbs := h.booksFirst fun hunder => hunder.2 hdone
  rwa [hdone] at hclimbs

theorem orderly_done {t : Thread} (hdone : t.party.todo = []) (hheld : t.party.held = []) :
    t.Orderly := by
  constructor <;> intro _ <;> rw [hdone] <;> exact hheld

theorem orderly_start (call : Call G) :
    Thread.Orderly ⟨call.kind, [], (call.episodes at').flatMap episode⟩ := by
  by_cases hdone : (call.episodes at').flatMap episode = []
  · exact orderly_done hdone rfl
  constructor <;> intro hunder <;> apply climbs_episodes <;> intro e he k hk
  · rcases episodes_inner he hk with ⟨-, hlt⟩ | ⟨hkind, -⟩
    · exact hlt
    · exact absurd ⟨hkind, hdone⟩ hunder
  · rcases episodes_inner he hk with ⟨hkind, -⟩ | ⟨-, hlt⟩
    · exact absurd ⟨hkind, hdone⟩ hunder
    · exact hlt

theorem Thread.Orderly.act {t : Thread} {free : Lock → Bool} {party : Party Lock} (h : t.Orderly)
    (hact : t.party.act free = some party) : Thread.Orderly { t with party := party } := by
  have hbooks (hkind : t.kind ≠ .evicts) := (h.booksFirst fun hunder => hkind hunder.1).act hact
  have hshards (hkind : t.kind ≠ .drains) := (h.shardsFirst fun hunder => hkind hunder.1).act hact
  by_cases hdone : party.todo = []
  · apply orderly_done hdone
    by_cases hkind : t.kind = .evicts
    · have hclimbs := hshards (by rw [hkind]; nofun)
      rwa [hdone] at hclimbs
    · have hclimbs := hbooks hkind
      rwa [hdone] at hclimbs
  · exact ⟨fun hunder => hbooks fun hkind => hunder ⟨hkind, hdone⟩,
      fun hunder => hshards fun hkind => hunder ⟨hkind, hdone⟩⟩

theorem step_inv {threads threads' : List Thread} {a : Action G} (h : Inv threads)
    (hapart : Apart threads a) (hstep : step at' threads a = some threads') : Inv threads' := by
  cases a with
  | start i call =>
    obtain ⟨t, ht, hstep⟩ := Option.bind_eq_some_iff.mp hstep
    have hmem := List.mem_of_getElem? ht
    split at hstep
    · rename_i hdone
      rw [List.isEmpty_iff] at hdone
      cases hstep
      rw [(h.orderly t hmem).held_nil hdone]
      constructor
      · intro u hu
        rcases List.mem_or_eq_of_mem_set hu with hu | rfl
        · exact h.orderly u hu
        · exact orderly_start call
      · obtain ⟨hdrains, hevicts⟩ := hapart
        by_cases hkind : call.kind = .drains
        · refine .inl fun u hu => ?_
          rcases List.mem_or_eq_of_mem_set hu with hu | rfl
          · exact hdrains hkind u hu
          · exact fun hunder => nomatch hkind.symm.trans hunder.1
        by_cases hkind' : call.kind = .evicts
        · refine .inr fun u hu => ?_
          rcases List.mem_or_eq_of_mem_set hu with hu | rfl
          · exact hevicts hkind' u hu
          · exact fun hunder => hkind hunder.1
        · refine h.apart.imp (fun hall u hu => ?_) fun hall u hu => ?_
          · rcases List.mem_or_eq_of_mem_set hu with hu | rfl
            · exact hall u hu
            · exact fun hunder => hkind' hunder.1
          · rcases List.mem_or_eq_of_mem_set hu with hu | rfl
            · exact hall u hu
            · exact fun hunder => hkind hunder.1
    · cases hstep
  | act i =>
    obtain ⟨t, ht, hstep⟩ := Option.bind_eq_some_iff.mp hstep
    obtain ⟨party, hact, hset⟩ := Option.bind_eq_some_iff.mp hstep
    have hmem := List.mem_of_getElem? ht
    have htodo : t.party.todo ≠ [] := by
      intro hnil
      rw [Party.act, hnil] at hact
      cases hact
    cases hset
    have hunder : ∀ kind, (∀ u ∈ threads, ¬ u.Under kind) →
        ∀ u ∈ threads.set i { t with party := party }, ¬ u.Under kind := by
      intro kind hall u hu
      rcases List.mem_or_eq_of_mem_set hu with hu | rfl
      · exact hall u hu
      · exact fun hunder => hall t hmem ⟨hunder.1, htodo⟩
    constructor
    · intro u hu
      rcases List.mem_or_eq_of_mem_set hu with hu | rfl
      · exact h.orderly u hu
      · exact (h.orderly t hmem).act hact
    · exact h.apart.imp (hunder _) (hunder _)

/-- As long as drains and evictions keep apart, no threads wait for each other. -/
theorem bookkeeping_never_stuck {n : Nat} {threads : List Thread}
    (hrun : Run (step at') Apart (idle n) threads) : ¬ Stuck threads := by
  have hidle : Inv (idle n) := by
    refine ⟨fun t ht => ?_, .inl fun t ht => ?_⟩ <;> obtain rfl := (List.mem_replicate.mp ht).2
    · exact orderly_done rfl rfl
    · exact fun hunder => hunder.2 rfl
  have hinv := hrun.invariant hidle fun h hapart hstep => step_inv h hapart hstep
  -- One order holds for all threads.
  have hclimb : ∀ level : Lock → Nat,
      (∀ t ∈ threads, Climbs level level t.party.held t.party.todo) →
      (∀ k k', clash k k' = true → level k ≤ level k') → ¬ Stuck threads := by
    intro level hall hclash
    refine not_deadlock (R := Nat) hclash fun i k hk k' hk' => ?_
    obtain ⟨t, ht, hwants⟩ := Option.bind_eq_some_iff.mp hk
    rw [ht] at hk'
    exact (hall t (List.mem_of_getElem? ht)).wants hwants k' hk'
  rcases hinv.apart with hall | hall
  · exact hclimb booksFirst (fun t ht => (hinv.orderly t ht).booksFirst (hall t ht))
      fun k k' hkk' => (clash_level hkk').1.le
  · exact hclimb shardsFirst (fun t ht => (hinv.orderly t ht).shardsFirst (hall t ht))
      fun k k' hkk' => (clash_level hkk').2.le

end Programs

/-- One guid, kept in the first shards. -/
def alone : Placement Unit := ⟨fun _ => 0, fun _ => 0, 1⟩

/-- A drain runs to its end while another thread marks its guid dirty. Then that thread evicts it,
has the shard of the map and asks for the mutex, and the first one waits for the shard. -/
theorem bookkeeping_never_stuck_eviction :
    ∃ threads, Run (step alone) Apart (idle 2) threads ∧
      (threads[1]?.map fun t => (t.kind, t.party.held, t.party.wants)) =
        some (.evicts, [.shard 0 true], some (.book 0)) ∧
      (threads[0]?.bind fun t => t.party.wants) = some (.shard 0 false) ∧ ¬ Stuck threads := by
  have hplay : (play (step alone) Apart
      (.start 0 (.snapshotDirty fun _ => [()]) :: .act 0 :: .start 1 (.markDirty () true) ::
        List.replicate 255 (.act 0) ++ List.replicate 4 (.act 1) ++
        [.start 1 (.tryEvictCold () (some true)), .act 1, .act 1, .act 1,
          .start 0 (.markDirty () true)]) (idle 2)).any (fun threads =>
      (threads[1]?.map fun t => (t.kind, t.party.held, t.party.wants)) =
        some (.evicts, [.shard 0 true], some (.book 0)) ∧
      (threads[0]?.bind fun t => t.party.wants) = some (.shard 0 false)) := by decide +kernel
  obtain ⟨threads, hrun, hevicts, hwaits⟩ := exists_run_of_play hplay
  exact ⟨threads, hrun, hevicts, hwaits, bookkeeping_never_stuck hrun⟩

/-- An eviction has the shard of the map and asks for the mutex; a drain has the mutex and looks
the same guid up. -/
theorem drain_and_eviction_stuck :
    ∃ threads, Run (step alone) (fun _ _ => True) (idle 2) threads ∧ Stuck threads := by
  have hplay : (play (step alone) (fun _ _ => True)
      [.start 0 (.tryEvictCold () (some true)), .act 0, .act 0, .act 0,
        .start 1 (.snapshotDirty fun _ => [()]), .act 1] (idle 2)).any (fun threads =>
      (threads[0]?.any fun t =>
          t.party.held == [.shard 0 true] && t.party.wants == some (.book 0)) &&
        threads[1]?.any fun t =>
          t.party.held == [.book 0] && t.party.wants == some (.shard 0 false)) = true := by
    decide +kernel
  obtain ⟨threads, hthreads, hend⟩ := (Option.any_eq_true _ _).mp hplay
  simp only [Bool.and_eq_true, Option.any_eq_true, beq_iff_eq] at hend
  obtain ⟨⟨t, ht, hheld, hwants⟩, u, hu, hheld', hwants'⟩ := hend
  refine ⟨threads, run_of_play hthreads, {0, 1}, ⟨0, by decide⟩, fun i hi => ?_⟩
  rw [Finset.mem_insert, Finset.mem_singleton] at hi
  rcases hi with rfl | rfl
  · refine ⟨.book 0, by simp [ht, hwants], 1, by decide, .book 0, ?_, rfl⟩
    simp [hu, hheld']
  · refine ⟨.shard 0 false, by simp [hu, hwants'], 0, by decide, .shard 0 true, ?_, rfl⟩
    simp [ht, hheld]

end Holt.Locking
