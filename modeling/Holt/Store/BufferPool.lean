import Holt.Lib.Threads
import Mathlib.Data.List.Nodup

/-! The fixed buffers of the ring: a free list of slots that calls pop and push by compare-exchange
on one tagged head, while the links between the slots are plain atomics. A stale link can only be
installed by a call whose tag has come round again. -/

namespace Holt.BufferPool

open Holt.Lib

def emptyFixedSlot : Nat := 2 ^ 32 - 1

/-- A `u32` tag above a `u32` index. -/
def packFreeHead (tag index : Nat) : Nat := tag * 2 ^ 32 + index

def unpackFreeHead (head : Nat) : Nat × Nat := (head / 2 ^ 32, head % 2 ^ 32)

/-- Where a call stands. `since` is the number of head updates there were when it loaded the head;
the code has no such counter. -/
inductive Call
  | idle
  | allocLoad
  | allocNext (head since : Nat)
  | allocCas (head next since : Nat)
  | freeLoad (slot : Nat)
  | freeStore (slot head since : Nat)
  | freeCas (slot head since : Nat)

def Call.isIdle : Call → Bool
  | .idle => true
  | _ => false

def Call.frees : Call → Option Nat
  | .freeLoad slot | .freeStore slot _ _ | .freeCas slot _ _ => some slot
  | _ => none

/-- The slot whose link the call reads or writes next. -/
def Call.touches : Call → Option Nat
  | .allocNext head _ => some (unpackFreeHead head).2
  | .freeStore slot _ _ => some slot
  | _ => none

structure Pool where
  slots : Nat
  head : Nat
  next : Nat → Nat
  /-- One entry for each lease; a slot stays with the caller of `free_slot` until its exchange. -/
  leased : List Nat
  updates : Nat

abbrev World := Threads Pool Call

def new (slots : Nat) : Option World :=
  if slots = 0 ∨ slots > 2 ^ 16 then none
  else
    let next := fun i => if i + 1 < slots then i + 1 else emptyFixedSlot
    some ⟨⟨slots, packFreeHead 0 0, next, [], 0⟩, fun _ => .idle⟩

/-- The exchange that a call of either kind ends with: the tag goes up by one. -/
def Pool.exchange (p : Pool) (head index : Nat) (leased : List Nat) : Pool :=
  { p with
    head := packFreeHead (((unpackFreeHead head).1 + 1) % 2 ^ 32) index
    updates := p.updates + 1
    leased }

def move (p : Pool) (_ : Nat) (spurious : Bool) : Call → Option (Pool × Call)
  | .idle => none
  | .allocLoad =>
    if (unpackFreeHead p.head).2 = emptyFixedSlot then some (p, .idle)
    else some (p, .allocNext p.head p.updates)
  | .allocNext head since => some (p, .allocCas head (p.next (unpackFreeHead head).2) since)
  | .allocCas head next _ =>
    if p.head = head ∧ !spurious then
      some (p.exchange head next ((unpackFreeHead head).2 % 2 ^ 16 :: p.leased), .idle)
    else some (p, .allocLoad)
  | .freeLoad slot => some (p, .freeStore slot p.head p.updates)
  | .freeStore slot head since =>
    some ({ p with next := Function.update p.next slot (unpackFreeHead head).2 },
      .freeCas slot head since)
  | .freeCas slot head _ =>
    if p.head = head ∧ !spurious then some (p.exchange head slot (p.leased.erase slot), .idle)
    else some (p, .freeLoad slot)

/-- A call frees a slot that its caller leases, and between its load and its exchange the head is
updated fewer than `2 ^ 32` times. -/
def Orderly (w : World) : Turn Call → Prop
  | .call _ c => match c with
    | .allocLoad => True
    | .freeLoad slot => slot ∈ w.state.leased ∧ ∀ u, (w.calls u).frees ≠ some slot
    | _ => False
  | .move t _ => match w.calls t with
    | .allocCas _ _ since | .freeCas _ _ since => w.state.updates < since + 2 ^ 32
    | _ => True

/-- The slots of the list that starts at `i`. -/
def Links (next : Nat → Nat) : Nat → List Nat → Prop
  | i, [] => i = emptyFixedSlot
  | i, s :: l => i = s ∧ Links next (next s) l

/-- What a call that has loaded the head knows: an unchanged count means an unchanged head. -/
structure Loaded (p : Pool) (head since : Nat) : Prop where
  past : since ≤ p.updates
  tag : head / 2 ^ 32 = since % 2 ^ 32
  index : head % 2 ^ 32 = emptyFixedSlot ∨ head % 2 ^ 32 < p.slots
  fresh : since = p.updates → head = p.head

def Coherent (p : Pool) : Call → Prop
  | .idle | .allocLoad => True
  | .allocNext head since => Loaded p head since ∧ head % 2 ^ 32 ≠ emptyFixedSlot
  | .allocCas head next since => Loaded p head since ∧ head % 2 ^ 32 ≠ emptyFixedSlot ∧
      (since = p.updates → next = p.next (head % 2 ^ 32))
  | .freeLoad slot => slot ∈ p.leased
  | .freeStore slot head since => slot ∈ p.leased ∧ Loaded p head since
  | .freeCas slot head since =>
    slot ∈ p.leased ∧ Loaded p head since ∧ p.next slot = head % 2 ^ 32

/-- The free list and the leases share out the slots. -/
structure Shared (slots : Nat) (p : Pool) (free : List Nat) : Prop where
  slots_eq : p.slots = slots
  small : slots ≤ 2 ^ 16
  tag : p.head / 2 ^ 32 = p.updates % 2 ^ 32
  links : Links p.next (p.head % 2 ^ 32) free
  nodup : free.Nodup
  once : p.leased.Nodup
  exact : ∀ s, s ∈ free ∨ s ∈ p.leased ↔ s < slots
  disjoint : ∀ s ∈ free, s ∉ p.leased

structure Inv (slots : Nat) (w : World) (free : List Nat) : Prop
    extends Shared slots w.state free where
  calls : ∀ t, Coherent w.state (w.calls t)
  apart : ∀ t u s, (w.calls t).frees = some s → (w.calls u).frees = some s → t = u

variable {slots : Nat} {w : World} {p : Pool} {free free' : List Nat} {t : Nat} {call : Call}

theorem Links.congr {next next' : Nat → Nat} {i : Nat} {l : List Nat} (h : Links next i l)
    (heq : ∀ s ∈ l, next' s = next s) : Links next' i l := by
  induction l generalizing i with
  | nil => exact h
  | cons s l ih =>
    refine ⟨h.1, ?_⟩
    rw [heq s List.mem_cons_self]
    exact ih h.2 fun a ha => heq a (List.mem_cons_of_mem _ ha)

theorem links_range (slots : Nat) : ∀ k i, i + k = slots → 0 < k →
    Links (fun i => if i + 1 < slots then i + 1 else emptyFixedSlot) i (List.range' i k)
  | 1, i, hi, _ => ⟨rfl, if_neg (by omega)⟩
  | k + 2, i, hi, _ => by
    have hnext : (if i + 1 < slots then i + 1 else emptyFixedSlot) = i + 1 := if_pos (by omega)
    exact ⟨rfl, hnext ▸ links_range slots (k + 1) (i + 1) (by omega) (by omega)⟩

theorem Coherent.frees_mem (h : Coherent p call) {s : Nat} (hs : call.frees = some s) :
    s ∈ p.leased := by
  cases call with
  | idle | allocLoad | allocNext | allocCas => cases hs
  | freeLoad => exact Option.some_inj.mp hs ▸ h
  | freeStore | freeCas => exact Option.some_inj.mp hs ▸ h.1

/-- The head's own index, as long as the list is not empty. -/
theorem Shared.head_mem (h : Shared slots p free) (hne : p.head % 2 ^ 32 ≠ emptyFixedSlot) :
    ∃ l, free = p.head % 2 ^ 32 :: l := by
  cases free with
  | nil => exact absurd h.links hne
  | cons s l => exact ⟨l, by rw [h.links.1]⟩

theorem Shared.loaded (h : Shared slots p free) : Loaded p p.head p.updates where
  past := Nat.le_refl _
  tag := h.tag
  fresh := fun _ => rfl
  index := by
    by_cases hne : p.head % 2 ^ 32 = emptyFixedSlot
    · exact .inl hne
    · obtain ⟨l, rfl⟩ := h.head_mem hne
      exact .inr (h.slots_eq ▸ (h.exact _).mp (.inl List.mem_cons_self))

/-- A head that compares equal was loaded after the last update: the tag tells fewer than `2 ^ 32`
updates apart. -/
theorem Shared.since_eq (h : Shared slots p free) {since : Nat} (hl : Loaded p p.head since)
    (hlt : p.updates < since + 2 ^ 32) : since = p.updates := by
  have htag := hl.tag.symm.trans h.tag
  have hpast := hl.past
  omega

/-- One call moves on; the others find what they know in the new pool. -/
theorem Inv.set (h : Inv slots w free) (hp : Shared slots p free')
    (hothers : ∀ u, u ≠ t → Coherent p (w.calls u)) (hc : Coherent p call)
    (hfrees : ∀ s, call.frees = some s → ∀ u, u ≠ t → (w.calls u).frees ≠ some s) :
    Inv slots (w.set t p call) free' := by
  have hcase : ∀ u, (w.set t p call).calls u = if u = t then call else w.calls u := fun u =>
    Function.update_apply ..
  refine ⟨hp, fun u => ?_, fun u v s hu hv => ?_⟩
  · rw [hcase]
    split
    · exact hc
    · exact hothers u ‹_›
  · rw [hcase] at hu hv
    split at hu <;> split at hv
    · omega
    · exact absurd hv (hfrees s hu v ‹_›)
    · exact absurd hu (hfrees s hv u ‹_›)
    · exact h.apart u v s hu hv

/-- The call goes on with the slot it frees, or with none. -/
theorem Inv.goto (h : Inv slots w free) (hc : Coherent w.state call)
    (hfrees : ∀ s, call.frees = some s → (w.calls t).frees = some s) :
    Inv slots (w.set t w.state call) free :=
  h.set h.toShared (fun u _ => h.calls u) hc
    fun s hs u hu huf => hu (h.apart u t s huf (hfrees s hs))

/-- An update of the head leaves what the other calls know: none of them is up to date after it. -/
theorem Coherent.exchange (h : Coherent p call) {head index : Nat} {leased : List Nat}
    (hkeep : ∀ s, call.frees = some s → s ∈ leased) :
    Coherent (p.exchange head index leased) call := by
  have hlate : ∀ {head' since}, Loaded p head' since → since ≠ p.updates + 1 := fun hl he =>
    absurd hl.past (he ▸ Nat.not_succ_le_self _)
  have hloaded : ∀ {head' since}, Loaded p head' since →
      Loaded (p.exchange head index leased) head' since := fun hl =>
    ⟨Nat.le_succ_of_le hl.past, hl.tag, hl.index, fun he => absurd he (hlate hl)⟩
  cases call with
  | idle | allocLoad => trivial
  | allocNext => exact ⟨hloaded h.1, h.2⟩
  | allocCas => exact ⟨hloaded h.1, h.2.1, fun he => absurd he (hlate h.1)⟩
  | freeLoad slot => exact hkeep slot rfl
  | freeStore slot => exact ⟨hkeep slot rfl, hloaded h.2⟩
  | freeCas slot => exact ⟨hkeep slot rfl, hloaded h.2.1, h.2.2⟩

/-- What both exchanges do to the list and to the leases. -/
theorem Inv.exchange (h : Inv slots w free) {index : Nat} {leased : List Nat}
    (hindex : index = emptyFixedSlot ∨ index < slots) (hlinks : Links w.state.next index free')
    (hnodup : free'.Nodup) (honce : leased.Nodup)
    (hexact : ∀ s, s ∈ free' ∨ s ∈ leased ↔ s < slots) (hdisjoint : ∀ s ∈ free', s ∉ leased)
    (hkeep : ∀ u, u ≠ t → ∀ s, (w.calls u).frees = some s → s ∈ leased) :
    Inv slots (w.set t (w.state.exchange w.state.head index leased) .idle) free' := by
  have hpack : ∀ tag, packFreeHead tag index / 2 ^ 32 = tag ∧
      packFreeHead tag index % 2 ^ 32 = index := fun tag => by
    have hsmall := h.small
    unfold emptyFixedSlot at hindex
    unfold packFreeHead
    omega
  have htag := h.tag
  have hup : (w.state.head / 2 ^ 32 + 1) % 2 ^ 32 = (w.state.updates + 1) % 2 ^ 32 := by omega
  exact h.set
    { slots_eq := h.slots_eq
      small := h.small
      tag := (hpack _).1.trans hup
      links := (hpack ((w.state.head / 2 ^ 32 + 1) % 2 ^ 32)).2.symm ▸ hlinks
      nodup := hnodup
      once := honce
      exact := hexact
      disjoint := hdisjoint }
    (fun u hu => (h.calls u).exchange (hkeep u hu)) trivial nofun

theorem Inv.pop (h : Inv slots w free) {next : Nat}
    (hc : Coherent w.state (.allocCas w.state.head next w.state.updates)) : ∃ free',
    Inv slots (w.set t (w.state.exchange w.state.head next
      ((unpackFreeHead w.state.head).2 % 2 ^ 16 :: w.state.leased)) .idle) free' := by
  obtain ⟨l, rfl⟩ := h.head_mem hc.2.1
  have hmem := (h.exact _).mp (.inl List.mem_cons_self)
  have hmod : (unpackFreeHead w.state.head).2 % 2 ^ 16 = w.state.head % 2 ^ 32 :=
    Nat.mod_eq_of_lt (Nat.lt_of_lt_of_le hmem h.small)
  have hlinks : Links w.state.next next l := hc.2.2 rfl ▸ h.links.2
  have hindex : next = emptyFixedSlot ∨ next < slots := by
    cases l with
    | nil => exact .inl hlinks
    | cons s l =>
      exact .inr (hlinks.1 ▸ (h.exact s).mp (.inl (List.mem_cons_of_mem _ List.mem_cons_self)))
  have hnodup := List.nodup_cons.mp h.nodup
  rw [hmod]
  refine ⟨l, h.exchange hindex hlinks hnodup.2
    (List.nodup_cons.mpr ⟨h.disjoint _ List.mem_cons_self, h.once⟩) (fun s => ?_)
    (fun s hs hleased => ?_)
    (fun u _ s hs => List.mem_cons_of_mem _ ((h.calls u).frees_mem hs))⟩
  · rw [← h.exact s, List.mem_cons, List.mem_cons, or_left_comm, or_assoc]
  · cases List.mem_cons.mp hleased with
    | inl heq => exact hnodup.1 (heq ▸ hs)
    | inr hleased => exact h.disjoint s (List.mem_cons_of_mem _ hs) hleased

theorem Inv.push (h : Inv slots w free) {slot since : Nat}
    (hcall : w.calls t = .freeCas slot w.state.head since) :
    Inv slots (w.set t (w.state.exchange w.state.head slot (w.state.leased.erase slot)) .idle)
      (slot :: free) := by
  obtain ⟨hleased, hl, hnext⟩ : Coherent w.state (.freeCas slot w.state.head since) :=
    hcall ▸ h.calls t
  have hfree : slot ∉ free := fun hf => h.disjoint slot hf hleased
  refine h.exchange (.inr ((h.exact slot).mp (.inr hleased))) ⟨rfl, hnext ▸ h.links⟩
    (List.nodup_cons.mpr ⟨hfree, h.nodup⟩) (h.once.erase slot) (fun s => ?_) (fun s hs => ?_)
    (fun u hu s hs => ?_)
  · rw [← h.exact s, List.mem_cons, h.once.mem_erase_iff]
    by_cases hs : s = slot
    · subst hs
      exact iff_of_true (.inl (.inl rfl)) (.inr hleased)
    · simp [hs]
  · rw [h.once.mem_erase_iff]
    rintro ⟨hne, hs'⟩
    exact h.disjoint s ((List.mem_cons.mp hs).resolve_left hne) hs'
  · refine (h.once.mem_erase_iff).mpr ⟨?_, (h.calls u).frees_mem hs⟩
    rintro rfl
    exact hu (h.apart u t s hs (by rw [hcall]; rfl))

/-- A link is written only by the call that frees its slot, and no call that is up to date has read
it: the slot is leased and the head is free. -/
theorem Inv.store (h : Inv slots w free) {slot head since : Nat}
    (hcall : w.calls t = .freeStore slot head since) :
    Inv slots (w.set t { w.state with next := Function.update w.state.next slot (head % 2 ^ 32) }
      (.freeCas slot head since)) free := by
  obtain ⟨hleased, hl⟩ : Coherent w.state (.freeStore slot head since) := hcall ▸ h.calls t
  have hfree : ∀ s ∈ free, s ≠ slot := fun s hs he => h.disjoint s hs (he ▸ hleased)
  have hown : ∀ u, u ≠ t → (w.calls u).frees ≠ some slot := fun u hu huf =>
    hu (h.apart u t slot huf (by rw [hcall]; rfl))
  refine h.set { h.toShared with links := ?_ } (fun u hu => ?_)
    ⟨hleased, { hl with }, Function.update_self ..⟩ (fun s hs => Option.some_inj.mp hs ▸ hown)
  · exact h.links.congr fun s hs => Function.update_of_ne (hfree s hs) _ _
  · have hc := h.calls u
    have hne := hown u hu
    generalize w.calls u = call at hc hne
    cases call with
    | idle | allocLoad => trivial
    | allocNext => exact ⟨{ hc.1 with }, hc.2⟩
    | allocCas head' next' since' =>
      refine ⟨{ hc.1 with }, hc.2.1, fun he => ?_⟩
      have hhead := hc.1.fresh he
      obtain ⟨l, rfl⟩ := h.head_mem (hhead ▸ hc.2.1)
      have hne : head' % 2 ^ 32 ≠ slot := hhead ▸ hfree _ List.mem_cons_self
      exact (hc.2.2 he).trans (Function.update_of_ne hne _ _).symm
    | freeLoad => exact hc
    | freeStore => exact ⟨hc.1, { hc.2 with }⟩
    | freeCas slot' head' since' =>
      have hother : slot' ≠ slot := fun he => hne (congrArg some he)
      exact ⟨hc.1, { hc.2.1 with }, (Function.update_of_ne hother _ _).trans hc.2.2⟩

theorem Inv.move {spurious : Bool} (h : Inv slots w free) (may : Orderly w (.move t spurious))
    (hs : move w.state t spurious (w.calls t) = some (p, call)) :
    ∃ free', Inv slots (w.set t p call) free' := by
  have hc := h.calls t
  have hgo := fun call (hc : Coherent w.state call) => h.goto (t := t) hc
  simp only [Orderly] at may
  generalize hcall : w.calls t = at_ at hs hc may hgo
  cases at_ with
  | idle => cases hs
  | allocLoad =>
    rw [BufferPool.move] at hs
    split at hs <;> cases hs
    · exact ⟨free, hgo .idle trivial nofun⟩
    · exact ⟨free, hgo _ ⟨h.loaded, ‹_›⟩ nofun⟩
  | allocNext head since =>
    cases hs
    exact ⟨free, hgo _ ⟨hc.1, hc.2, fun _ => rfl⟩ nofun⟩
  | allocCas head next since =>
    rw [BufferPool.move] at hs
    split at hs <;> cases hs
    · obtain ⟨rfl, -⟩ := ‹_ ∧ _›
      exact h.pop (h.since_eq hc.1 may ▸ hc)
    · exact ⟨free, hgo .allocLoad trivial nofun⟩
  | freeLoad slot =>
    cases hs
    exact ⟨free, hgo _ ⟨hc, h.loaded⟩ fun s hs => hs⟩
  | freeStore slot head since =>
    cases hs
    exact ⟨free, h.store hcall⟩
  | freeCas slot head since =>
    rw [BufferPool.move] at hs
    split at hs <;> cases hs
    · obtain ⟨rfl, -⟩ := ‹_ ∧ _›
      exact ⟨_, h.push hcall⟩
    · exact ⟨free, hgo (.freeLoad slot) hc.1 fun s hs => hs⟩

theorem Inv.step {a : Turn Call} {w' : World} (h : Inv slots w free) (may : Orderly w a)
    (hs : w.step Call.isIdle BufferPool.move a = some w') : ∃ free', Inv slots w' free' := by
  refine Threads.step_cases (P := fun w' => ∃ free', Inv slots w' free') hs ?_ ?_
  · rintro t c rfl -
    cases c with
    | allocLoad => exact ⟨free, h.goto trivial nofun⟩
    | freeLoad slot =>
      exact ⟨free, h.set h.toShared (fun u _ => h.calls u) may.1
        fun s hs u _ => Option.some_inj.mp hs ▸ may.2 u⟩
    | _ => cases may
  · rintro t spurious p c rfl hmove
    exact h.move may hmove

theorem inv_new {w : World} (h : new slots = some w) : Inv slots w (List.range' 0 slots) := by
  unfold new at h
  split at h
  · cases h
  · cases h
    exact
      { slots_eq := rfl
        small := by omega
        tag := by simp [packFreeHead]
        links := links_range slots slots 0 (by omega) (by omega)
        nodup := List.nodup_range'
        once := List.nodup_nil
        exact := fun s => by simp
        disjoint := fun _ _ => List.not_mem_nil
        calls := fun _ => trivial
        apart := nofun }

/-- No slot is leased twice, no index leaves the pool, and at rest the free list holds exactly the
slots that are not leased, each once. -/
theorem slots_leased_once {w₀ : World} (h₀ : new slots = some w₀)
    (h : Run (Threads.step Call.isIdle move) Orderly w₀ w) :
    w.state.leased.Nodup ∧ (∀ s ∈ w.state.leased, s < slots) ∧
      (∀ t s, (w.calls t).touches = some s → s < slots) ∧
      ((∀ t, w.calls t = .idle) →
        ∃ free, Links w.state.next (unpackFreeHead w.state.head).2 free ∧ free.Nodup ∧
          ∀ s, s ∈ free ↔ s < slots ∧ s ∉ w.state.leased) := by
  obtain ⟨free, hi⟩ : ∃ free, Inv slots w free :=
    h.invariant (I := fun w => ∃ free, Inv slots w free) ⟨_, inv_new h₀⟩
      fun ⟨_, hi⟩ may took => hi.step may took
  refine ⟨hi.once, fun s hs => (hi.exact s).mp (.inr hs), fun t s ht => ?_,
    fun _ => ⟨free, hi.links, hi.nodup, fun s => ?_⟩⟩
  · have hc := hi.calls t
    generalize w.calls t = call at hc ht
    cases call with
    | idle | allocLoad | allocCas | freeLoad | freeCas => cases ht
    | allocNext => exact hi.slots_eq ▸ Option.some_inj.mp ht ▸ hc.1.index.resolve_left hc.2
    | freeStore => exact (hi.exact _).mp (.inr (Option.some_inj.mp ht ▸ hc.1))
  · rw [← hi.exact s]
    constructor
    · exact fun hs => ⟨.inl hs, hi.disjoint s hs⟩
    · exact fun hs => hs.1.resolve_right hs.2

/-- Two threads load the same head. One of them gets its slot, the exchange of the other fails and
it gets the second slot. Then the first slot is freed. -/
theorem slots_leased_once_retry : ∃ w₀ w, new 2 = some w₀ ∧
    Run (Threads.step Call.isIdle move) Orderly w₀ w ∧ w.state.leased = [1] ∧
      ∃ free, Links w.state.next (unpackFreeHead w.state.head).2 free ∧
        ∀ s, s ∈ free ↔ s < 2 ∧ s ∉ [1] := by
  have first : Run (Threads.step Call.isIdle move) Orderly ((new 2).get rfl) _ :=
    Run.start.next (a := Turn.call 0 .allocLoad) trivial rfl
  have both := first.next (a := Turn.call 1 Call.allocLoad) trivial rfl
  have loaded := both.next (a := Turn.move 0 false) trivial rfl
  have loaded' := loaded.next (a := Turn.move 1 false) trivial rfl
  have linked := loaded'.next (a := Turn.move 0 false) trivial rfl
  have linked' := linked.next (a := Turn.move 1 false) trivial rfl
  have leases := linked'.next (a := Turn.move 0 false) (Nat.two_pow_pos 32) rfl
  have refused := leases.next (a := Turn.move 1 false) (show 1 < 0 + 2 ^ 32 by decide) rfl
  have reloaded := refused.next (a := Turn.move 1 false) trivial rfl
  have relinked := reloaded.next (a := Turn.move 1 false) trivial rfl
  have leases' := relinked.next (a := Turn.move 1 false) (show 1 < 1 + 2 ^ 32 by decide) rfl
  have frees := leases'.next (a := Turn.call 0 (Call.freeLoad 0))
    ⟨by decide, fun u => by rcases u with _ | _ | u <;> exact fun h => by cases h⟩ rfl
  have reads := frees.next (a := Turn.move 0 false) trivial rfl
  have writes := reads.next (a := Turn.move 0 false) trivial rfl
  have freed := writes.next (a := Turn.move 0 false) (show 2 < 2 + 2 ^ 32 by decide) rfl
  obtain ⟨-, -, -, hrest⟩ := slots_leased_once (Option.some_get _).symm freed
  obtain ⟨free, hlinks, -, hfree⟩ := hrest fun t => by rcases t with _ | _ | t <;> rfl
  exact ⟨_, _, rfl, freed, rfl, free, hlinks, hfree⟩

end Holt.BufferPool
