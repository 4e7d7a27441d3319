import Mathlib.Logic.Function.Basic
import Holt.Lib.Machine
import Holt.Lib.Maps

/-! Listings that are kept, and whether they are out of date when they are served again. Writers and
visits of one tree run next to each other; the epoch of a kept listing is the sequence counter. -/

namespace Holt.Listings

open Holt.Lib

def prefixListCacheSlots : Nat := 256

def prefixListCacheMaxLimit : Nat := 256

/-- What a visit asks for. -/
structure Query where
  keyPrefix : List UInt8
  startAfter : Option (List UInt8)
  delimiter : Option UInt8
  limit : Nat
  deriving DecidableEq, Repr

def cacheableLimit (limit : Nat) : Bool := limit ≠ 0 && limit ≤ prefixListCacheMaxLimit

/-- The records of the tree are an `M`, and a listing of them an `L`. -/
structure PrefixListCacheEntry (L : Type) where
  epoch : Nat
  query : Query
  entries : L

/-- A put, a delete, a rename or a batch. It takes `count` numbers from `base` on and changes the
records in one step; `index` says which state of the records that made. -/
inductive WriterStage
  | entered
  | bumped (base count : Nat)
  | mutated (index : Nat)
  deriving DecidableEq, Repr

structure Writer where
  exclusive : Bool
  stage : WriterStage
  deriving DecidableEq, Repr

inductive VisitStage (L : Type)
  | probing (epoch : Nat)
  | missed
  | opened (before : Nat)
  | entered (before : Nat)
  | scanned (before : Nat) (entries : L)
  | storing (epoch : Nat) (entries : L)
  | done (entries : L)
  deriving DecidableEq

/-- A call of `visit`; when it started, every write that had returned was in the state `since` of
the records. -/
structure Visit (L : Type) where
  query : Query
  since : Nat
  stage : VisitStage L
  deriving DecidableEq

/-- `past` has the states of the records before the one they are in, and `settled` is the last of
all states that a write made which has returned. -/
structure World (M L : Type) where
  nextSeq : Nat
  past : List M
  records : M
  settled : Nat
  slots : Nat → Option (PrefixListCacheEntry L)
  writers : AList fun _ : Nat => Writer
  visits : AList fun _ : Nat => Visit L

inductive Action (M : Type)
  | enter (w : Nat) (exclusive : Bool)
  | bump (w count : Nat)
  | mutate (w : Nat) (f : M → M)
  | leave (w : Nat)
  /-- A writer of another tree with the same counter. -/
  | bumpElsewhere (count : Nat)
  | start (v : Nat) (q : Query)
  | lookup (v : Nat)
  | loadBefore (v : Nat)
  | enterVisit (v : Nat)
  | scan (v : Nat)
  | loadAfter (v : Nat)
  | store (v : Nat)

section

variable {M L : Type}

/-- The visit holds the gates. -/
def VisitStage.inside : VisitStage L → Bool
  | .entered _ | .scanned _ _ | .storing _ _ => true
  | _ => false

namespace World

def opened (records : M) : World M L :=
  ⟨0, [], records, 0, fun _ => none, ∅, ∅⟩

/-- All states of the records so far. -/
def states (s : World M L) : List M := s.past ++ [s.records]

def setWriter (s : World M L) (w : Nat) (x : Writer) : World M L :=
  { s with writers := s.writers.insert w x }

def setVisit (s : World M L) (v : Nat) (q : Query) (since : Nat) (stage : VisitStage L) :
    World M L :=
  { s with visits := s.visits.insert v ⟨q, since, stage⟩ }

/-- Nobody has the mutation gate to themselves. -/
def shared (s : World M L) : Bool := s.writers.entries.all fun e => !e.2.exclusive

/-- Nobody has passed the gates. -/
def free (s : World M L) : Bool :=
  s.writers.entries.isEmpty && s.visits.entries.all fun e => !e.2.stage.inside

variable (list : Query → M → L) (slotIndex : Query → Nat)

def step (s : World M L) : Action M → Option (World M L)
  | .enter w exclusive =>
    if w ∉ s.writers ∧ (if exclusive then s.free else s.shared) then
      some (s.setWriter w ⟨exclusive, .entered⟩)
    else none
  | .bump w count =>
    match s.writers.lookup w with
    | some ⟨exclusive, .entered⟩ =>
      some { s.setWriter w ⟨exclusive, .bumped s.nextSeq count⟩ with nextSeq := s.nextSeq + count }
    | _ => none
  | .mutate w f =>
    match s.writers.lookup w with
    | some ⟨exclusive, .bumped _ count⟩ =>
      if 0 < count then
        some { s.setWriter w ⟨exclusive, .mutated (s.past.length + 1)⟩ with
          past := s.past ++ [s.records], records := f s.records }
      else none
    | _ => none
  -- A write may return without a mutation.
  | .leave w =>
    match s.writers.lookup w with
    | some ⟨_, .mutated index⟩ =>
      some { s with writers := s.writers.erase w, settled := max s.settled index }
    | some _ => some { s with writers := s.writers.erase w }
    | none => none
  | .bumpElsewhere count => some { s with nextSeq := s.nextSeq + count }
  -- With the limit 0 the call returns at once, and reports nothing.
  | .start v q =>
    if v ∈ s.visits ∨ q.limit = 0 then none
    else some (s.setVisit v q s.settled (.probing s.nextSeq))
  | .lookup v =>
    match s.visits.lookup v with
    | some ⟨q, since, .probing epoch⟩ =>
      match s.slots (slotIndex q % prefixListCacheSlots) with
      | some entry =>
        if cacheableLimit q.limit ∧ entry.epoch = epoch ∧ entry.query = q then
          some (s.setVisit v q since (.done entry.entries))
        else some (s.setVisit v q since .missed)
      | none => some (s.setVisit v q since .missed)
    | _ => none
  | .loadBefore v =>
    match s.visits.lookup v with
    | some ⟨q, since, .missed⟩ => some (s.setVisit v q since (.opened s.nextSeq))
    | _ => none
  | .enterVisit v =>
    match s.visits.lookup v with
    | some ⟨q, since, .opened before⟩ =>
      if s.shared then some (s.setVisit v q since (.entered before)) else none
    | _ => none
  | .scan v =>
    match s.visits.lookup v with
    | some ⟨q, since, .entered before⟩ =>
      some (s.setVisit v q since (.scanned before (list q s.records)))
    | _ => none
  | .loadAfter v =>
    match s.visits.lookup v with
    | some ⟨q, since, .scanned before entries⟩ =>
      if cacheableLimit q.limit ∧ before = s.nextSeq then
        some (s.setVisit v q since (.storing s.nextSeq entries))
      else some (s.setVisit v q since (.done entries))
    | _ => none
  | .store v =>
    match s.visits.lookup v with
    | some ⟨q, since, .storing epoch entries⟩ =>
      some { s.setVisit v q since (.done entries) with
        slots := Function.update s.slots (slotIndex q % prefixListCacheSlots)
          (some ⟨epoch, q, entries⟩) }
    | _ => none

end World

/-- The writer has its numbers, and its mutation is still to come. -/
def Writer.Pending (x : Writer) : Prop :=
  match x.stage with
  | .bumped _ count => 0 < count
  | _ => False

instance (x : Writer) : Decidable x.Pending := by
  unfold Writer.Pending
  split <;> infer_instance

/-- A listing that may be kept is not made next to a write that has its number already. -/
def Calm (s : World M L) : Action M → Prop
  | .scan v =>
    match s.visits.lookup v with
    | some ⟨q, _, .entered before⟩ =>
      cacheableLimit q.limit → before = s.nextSeq → ∀ e ∈ s.writers.entries, ¬e.2.Pending
    | _ => True
  | _ => True

instance (s : World M L) (a : Action M) : Decidable (Calm s a) := by
  unfold Calm
  split
  · split <;> infer_instance
  · infer_instance

section

variable (list : Query → M → L)

/-- The listing is that of a state in which every write is that had returned by `since`. -/
def From (s : World M L) (since : Nat) (q : Query) (entries : L) : Prop :=
  ∃ m ∈ s.states.drop since, entries = list q m

/-- Whatever a visit reports has every write that had returned when it started. -/
def UpToDate (s : World M L) : Prop :=
  ∀ v q since entries, s.visits.lookup v = some ⟨q, since, .done entries⟩ →
    From list s since q entries

/-- As long as the counter stands at the epoch, the listing is that of the records and nobody is
about to change them. -/
def Current (s : World M L) (epoch : Nat) (q : Query) (entries : L) : Prop :=
  epoch ≤ s.nextSeq ∧ (epoch = s.nextSeq →
    entries = list q s.records ∧ ∀ w x, s.writers.lookup w = some x → ¬x.Pending)

/-- A listing that lookups with the epoch find, or will find. -/
inductive Held (s : World M L) (epoch : Nat) (q : Query) (entries : L) : Prop
  | slot {i : Nat} (h : s.slots i = some ⟨epoch, q, entries⟩)
  | storing {v since : Nat} (h : s.visits.lookup v = some ⟨q, since, .storing epoch entries⟩)
  | scanned {v since : Nat} (h : s.visits.lookup v = some ⟨q, since, .scanned epoch entries⟩)
      (hc : cacheableLimit q.limit)

/-- What the stage of a visit says about the listings it has to do with. -/
def StageOk (s : World M L) (q : Query) (since : Nat) : VisitStage L → Prop
  | .probing epoch => ∀ entries, Held s epoch q entries → From list s since q entries
  | .missed => True
  | .opened before | .entered before => before ≤ s.nextSeq
  | .scanned before entries =>
    From list s since q entries ∧ (cacheableLimit q.limit → Current list s before q entries)
  | .storing epoch entries => From list s since q entries ∧ Current list s epoch q entries
  | .done entries => From list s since q entries

structure Inv (s : World M L) : Prop where
  settled : s.settled ≤ s.past.length
  writers : ∀ w e index, s.writers.lookup w = some ⟨e, .mutated index⟩ → index ≤ s.past.length
  slots : ∀ i entry, s.slots i = some entry → Current list s entry.epoch entry.query entry.entries
  since : ∀ v x, s.visits.lookup v = some x → x.since ≤ s.past.length
  stage : ∀ v x, s.visits.lookup v = some x → StageOk list s x.query x.since x.stage

end

variable {list : Query → M → L} {slotIndex : Query → Nat} {s t : World M L}

theorem inv_opened (records : M) : Inv list (World.opened records : World M L) :=
  ⟨Nat.le_refl _, nofun, nofun, nofun, nofun⟩

variable {count since v w : Nat} {exclusive : Bool} {q : Query} {stage : VisitStage L}

theorem from_now (h : since ≤ s.past.length) (q : Query) :
    From list s since q (list q s.records) := by
  refine ⟨s.records, ?_, rfl⟩
  rw [World.states, List.drop_append_of_le_length h]
  exact List.mem_append_right _ (List.mem_singleton_self _)

/-- The counter did not go back, no state was lost, and what was current still is. -/
structure Later (list : Query → M → L) (s t : World M L) : Prop where
  nextSeq : s.nextSeq ≤ t.nextSeq
  states : s.states <+: t.states
  current : ∀ {epoch q entries}, Current list s epoch q entries → Current list t epoch q entries

theorem From.later {entries : L} (h : From list s since q entries) (hl : Later list s t) :
    From list t since q entries := by
  obtain ⟨m, hm, he⟩ := h
  obtain ⟨more, hmore⟩ := hl.states
  have hlt : since ≤ s.states.length := by
    by_contra hgt
    rw [List.drop_eq_nil_of_le (by omega)] at hm
    cases hm
  refine ⟨m, ?_, he⟩
  rw [← hmore, List.drop_append_of_le_length hlt]
  exact List.mem_append_left _ hm

theorem Later.length (h : Later list s t) : s.past.length ≤ t.past.length := by
  have := h.states.length_le
  simp only [World.states, List.length_append, List.length_singleton] at this
  omega

/-- A step that keeps the counter and the records, and lets no writer begin to wait. -/
theorem later_of_calm (hseq : t.nextSeq = s.nextSeq) (hpast : t.past = s.past)
    (hrec : t.records = s.records)
    (hw : ∀ w x, t.writers.lookup w = some x → x.Pending → ∃ w', s.writers.lookup w' = some x) :
    Later list s t where
  nextSeq := Nat.le_of_eq hseq.symm
  states := by
    have hsame : t.states = s.states := by rw [World.states, World.states, hpast, hrec]
    exact ⟨[], by rw [List.append_nil, hsame]⟩
  current := by
    intro epoch q entries h
    refine ⟨hseq ▸ h.1, fun he => ?_⟩
    obtain ⟨hlist, hno⟩ := h.2 (he.trans hseq)
    refine ⟨hrec ▸ hlist, fun w x hx hp => ?_⟩
    obtain ⟨w', hx'⟩ := hw w x hx hp
    exact hno w' x hx' hp

/-- A step that moves the counter leaves nothing to be current. -/
theorem later_of_bump (hseq : s.nextSeq < t.nextSeq) (hpast : t.past = s.past)
    (hrec : t.records = s.records) : Later list s t where
  nextSeq := Nat.le_of_lt hseq
  states := by
    have hsame : t.states = s.states := by rw [World.states, World.states, hpast, hrec]
    exact ⟨[], by rw [List.append_nil, hsame]⟩
  current := by
    intro epoch q entries h
    have := h.1
    exact ⟨by omega, fun he => by omega⟩

theorem StageOk.later (h : StageOk list s q since stage) (hl : Later list s t)
    (hs : since ≤ t.past.length)
    (hheld : ∀ {epoch entries}, Held t epoch q entries →
      Held s epoch q entries ∨ entries = list q t.records) :
    StageOk list t q since stage := by
  cases stage with
  | probing epoch =>
    intro entries hh
    rcases hheld hh with hold | rfl
    · exact (h entries hold).later hl
    · exact from_now hs q
  | missed => trivial
  | opened before | entered before => exact Nat.le_trans h hl.nextSeq
  | scanned before entries => exact ⟨h.1.later hl, fun hc => hl.current (h.2 hc)⟩
  | storing epoch entries => exact ⟨h.1.later hl, hl.current h.2⟩
  | done entries => exact From.later h hl

/-- A step of a writer: the visits and the kept listings are as they were. -/
theorem Inv.of_writer (h : Inv list s) (hl : Later list s t) (hv : t.visits = s.visits)
    (hslots : t.slots = s.slots) (hsettled : t.settled ≤ t.past.length)
    (hw : ∀ w e index, t.writers.lookup w = some ⟨e, .mutated index⟩ → index ≤ t.past.length) :
    Inv list t where
  settled := hsettled
  writers := hw
  slots := fun i entry he => hl.current (h.slots i entry (hslots ▸ he))
  since := fun v x hx => Nat.le_trans (h.since v x (hv ▸ hx)) hl.length
  stage := by
    intro v x hx
    have hx' := hv ▸ hx
    refine (h.stage v x hx').later hl (Nat.le_trans (h.since v x hx') hl.length) ?_
    intro epoch entries hh
    left
    cases hh with
    | slot hi => exact .slot (hslots ▸ hi)
    | storing hi => exact .storing (hv ▸ hi)
    | scanned hi hc => exact .scanned (hv ▸ hi) hc

/-- A step of a visit: it goes to another stage, and the slots may have got a listing that the
visit was storing. -/
theorem Inv.of_visit (h : Inv list s) (hl : Later list s t)
    (hv : t.visits = s.visits.insert v ⟨q, since, stage⟩) (hpast : t.past = s.past)
    (hw : t.writers = s.writers) (hsettled : t.settled = s.settled)
    (hslots : ∀ i entry, t.slots i = some entry → s.slots i = some entry ∨
      Current list s entry.epoch entry.query entry.entries ∧
        Held s entry.epoch entry.query entry.entries)
    (hsince : since ≤ s.past.length)
    (hheld : ∀ {epoch entries}, stage = .storing epoch entries ∨ stage = .scanned epoch entries →
      Held s epoch q entries ∨ entries = list q t.records)
    (hstage : StageOk list s q since stage) : Inv list t where
  settled := by
    rw [hsettled, hpast]
    exact h.settled
  writers := by
    rw [hw, hpast]
    exact h.writers
  slots := by
    intro i entry he
    rcases hslots i entry he with hold | ⟨hnew, -⟩
    · exact hl.current (h.slots i entry hold)
    · exact hl.current hnew
  since := by
    intro v' x hx
    rw [hpast]
    rw [hv] at hx
    rcases lookup_insert_some hx with ⟨-, rfl⟩ | ⟨-, hx⟩
    · exact hsince
    · exact h.since v' x hx
  stage := by
    -- What is held now was held before, or is a fresh listing of the records.
    have hback : ∀ {q' epoch entries}, Held t epoch q' entries →
        Held s epoch q' entries ∨ entries = list q' t.records := by
      intro q' epoch entries hh
      cases hh with
      | slot hi =>
        rcases hslots _ _ hi with hold | ⟨-, hnew⟩
        · exact .inl (.slot hold)
        · exact .inl hnew
      | storing hi =>
        rw [hv] at hi
        rcases lookup_insert_some hi with ⟨-, hnew⟩ | ⟨-, hold⟩
        · cases hnew
          exact hheld (.inl rfl)
        · exact .inl (.storing hold)
      | scanned hi hc =>
        rw [hv] at hi
        rcases lookup_insert_some hi with ⟨-, hnew⟩ | ⟨-, hold⟩
        · cases hnew
          exact hheld (.inr rfl)
        · exact .inl (.scanned hold hc)
    intro v' x hx
    rw [hv] at hx
    rcases lookup_insert_some hx with ⟨-, rfl⟩ | ⟨-, hx⟩
    · exact hstage.later hl (hpast ▸ hsince) hback
    · exact (h.stage v' x hx).later hl (hpast ▸ h.since v' x hx) hback

theorem inv_enter (h : Inv list s) : Inv list (s.setWriter w ⟨exclusive, .entered⟩) := by
  refine h.of_writer (later_of_calm rfl rfl rfl ?_) rfl rfl h.settled ?_
  · intro w' x hx hp
    rcases lookup_insert_some hx with ⟨-, rfl⟩ | ⟨-, hold⟩
    · exact absurd hp id
    · exact ⟨w', hold⟩
  · intro w' e index hx
    rcases lookup_insert_some hx with ⟨-, hnew⟩ | ⟨-, hold⟩
    · cases hnew
    · exact h.writers w' e index hold

theorem inv_bump (h : Inv list s) :
    Inv list { s.setWriter w ⟨exclusive, .bumped s.nextSeq count⟩ with
      nextSeq := s.nextSeq + count } := by
  refine h.of_writer ?_ rfl rfl h.settled ?_
  · rcases Nat.eq_zero_or_pos count with rfl | hpos
    · refine later_of_calm rfl rfl rfl ?_
      intro w' x hx hp
      rcases lookup_insert_some hx with ⟨-, rfl⟩ | ⟨-, hold⟩
      · exact absurd hp (Nat.lt_irrefl 0)
      · exact ⟨w', hold⟩
    · exact later_of_bump (Nat.lt_add_of_pos_right hpos) rfl rfl
  · intro w' e index hx
    rcases lookup_insert_some hx with ⟨-, hnew⟩ | ⟨-, hold⟩
    · cases hnew
    · exact h.writers w' e index hold

/-- The records change only while a writer waits for its mutation, when no listing is current. -/
theorem inv_mutate {base : Nat} {f : M → M} (h : Inv list s)
    (hw : s.writers.lookup w = some ⟨exclusive, .bumped base count⟩) (hpos : 0 < count) :
    Inv list { s.setWriter w ⟨exclusive, .mutated (s.past.length + 1)⟩ with
      past := s.past ++ [s.records], records := f s.records } := by
  refine h.of_writer ⟨Nat.le_refl _, ⟨[f s.records], rfl⟩, ?_⟩ rfl rfl ?_ ?_
  · intro epoch q entries hc
    exact ⟨hc.1, fun he => absurd hpos ((hc.2 he).2 w _ hw)⟩
  · have := h.settled
    simp only [World.setWriter, List.length_append, List.length_singleton]
    omega
  · intro w' e index hx
    simp only [List.length_append, List.length_singleton]
    rcases lookup_insert_some hx with ⟨-, hnew⟩ | ⟨-, hold⟩
    · cases hnew
      exact Nat.le_refl _
    · have := h.writers w' e index hold
      omega

theorem inv_leave {settled : Nat} (h : Inv list s) (hs : settled ≤ s.past.length) :
    Inv list { s with writers := s.writers.erase w, settled } := by
  refine h.of_writer (later_of_calm rfl rfl rfl ?_) rfl rfl hs ?_
  · intro w' x hx _
    exact ⟨w', (lookup_erase_some hx).2⟩
  · intro w' e index hx
    exact h.writers w' e index (lookup_erase_some hx).2

theorem inv_bumpElsewhere (h : Inv list s) : Inv list { s with nextSeq := s.nextSeq + count } := by
  refine h.of_writer ?_ rfl rfl h.settled h.writers
  rcases Nat.eq_zero_or_pos count with rfl | hpos
  · exact later_of_calm rfl rfl rfl fun w x hx _ => ⟨w, hx⟩
  · exact later_of_bump (Nat.lt_add_of_pos_right hpos) rfl rfl

/-- The visit goes to a stage in which it holds no listing but one it held before or a fresh one. -/
theorem inv_setVisit {old : VisitStage L} (h : Inv list s)
    (hv : s.visits.lookup v = some ⟨q, since, old⟩)
    (hheld : ∀ {epoch entries}, stage = .storing epoch entries ∨ stage = .scanned epoch entries →
      Held s epoch q entries ∨ entries = list q s.records)
    (hstage : StageOk list s q since stage) : Inv list (s.setVisit v q since stage) :=
  h.of_visit (later_of_calm rfl rfl rfl fun w _ hx _ => ⟨w, hx⟩) rfl rfl rfl rfl
    (fun _ _ => .inl) (h.since v _ hv) hheld hstage

theorem inv_start (h : Inv list s) : Inv list (s.setVisit v q s.settled (.probing s.nextSeq)) := by
  refine h.of_visit (later_of_calm rfl rfl rfl fun w _ hx _ => ⟨w, hx⟩) rfl rfl rfl rfl
    (fun _ _ => .inl) h.settled nofun ?_
  -- Every listing that is held with the epoch of this moment is that of the records.
  intro entries hh
  cases hh with
  | slot hi =>
    have hc : Current list s s.nextSeq q entries := h.slots _ _ hi
    exact (hc.2 rfl).1 ▸ from_now h.settled q
  | storing hi =>
    have hc : Current list s s.nextSeq q entries := (h.stage _ _ hi).2
    exact (hc.2 rfl).1 ▸ from_now h.settled q
  | scanned hi hcache =>
    have hc : Current list s s.nextSeq q entries := (h.stage _ _ hi).2 hcache
    exact (hc.2 rfl).1 ▸ from_now h.settled q

theorem inv_lookup {epoch : Nat} (h : Inv list s)
    (hv : s.visits.lookup v = some ⟨q, since, .probing epoch⟩) {i : Nat}
    {entry : PrefixListCacheEntry L} (hi : s.slots i = some entry) (he : entry.epoch = epoch)
    (hq : entry.query = q) : Inv list (s.setVisit v q since (.done entry.entries)) := by
  subst he hq
  exact inv_setVisit h hv nofun (h.stage v _ hv entry.entries (.slot hi))

/-- The listing is fresh. It may be kept only if nobody waits for a mutation that its epoch
promises. -/
theorem inv_scan {before : Nat} (h : Inv list s)
    (hv : s.visits.lookup v = some ⟨q, since, .entered before⟩) (hcalm : Calm s (.scan v)) :
    Inv list (s.setVisit v q since (.scanned before (list q s.records))) := by
  refine inv_setVisit h hv ?_ ⟨from_now (h.since v _ hv) q, fun hc => ⟨h.stage v _ hv, ?_⟩⟩
  · rintro epoch entries (hst | hst) <;> cases hst
    exact .inr rfl
  · intro hb
    rw [Calm, hv] at hcalm
    refine ⟨rfl, fun w x hx => ?_⟩
    exact hcalm hc hb ⟨w, x⟩ (AList.mem_lookup_iff.mp hx)

theorem inv_store {epoch : Nat} {entries : L} (h : Inv list s)
    (hv : s.visits.lookup v = some ⟨q, since, .storing epoch entries⟩) (i : Nat) :
    Inv list { s.setVisit v q since (.done entries) with
      slots := Function.update s.slots i (some ⟨epoch, q, entries⟩) } := by
  obtain ⟨hfrom, hcurrent⟩ := h.stage v _ hv
  refine h.of_visit (later_of_calm rfl rfl rfl fun w _ hx _ => ⟨w, hx⟩) rfl rfl rfl rfl ?_
    (h.since v _ hv) nofun hfrom
  intro j entry he
  change Function.update s.slots i _ j = some entry at he
  by_cases hij : j = i
  · rw [hij, Function.update_self] at he
    cases he
    exact .inr ⟨hcurrent, .storing hv⟩
  · rw [Function.update_of_ne hij] at he
    exact .inl he

theorem Inv.step {a : Action M} (h : Inv list s) (hcalm : Calm s a)
    (hstep : s.step list slotIndex a = some t) : Inv list t := by
  cases a with
  | enter w exclusive =>
    simp only [World.step, Option.ite_none_right_eq_some] at hstep
    obtain ⟨-, ht⟩ := hstep
    cases ht
    exact inv_enter h
  | bump w count =>
    simp only [World.step] at hstep
    split at hstep <;> cases hstep
    exact inv_bump h
  | mutate w f =>
    simp only [World.step] at hstep
    split at hstep
    · split at hstep <;> cases hstep
      exact inv_mutate h ‹_› ‹_›
    · cases hstep
  | leave w =>
    simp only [World.step] at hstep
    split at hstep <;> cases hstep
    · exact inv_leave h (Nat.max_le.mpr ⟨h.settled, h.writers _ _ _ ‹_›⟩)
    · exact inv_leave h h.settled
  | bumpElsewhere count =>
    cases hstep
    exact inv_bumpElsewhere h
  | start v q =>
    simp only [World.step, Option.ite_none_left_eq_some] at hstep
    obtain ⟨-, ht⟩ := hstep
    cases ht
    exact inv_start h
  | lookup v =>
    simp only [World.step] at hstep
    split at hstep
    · rename_i hv
      split at hstep
      · rename_i hi
        split at hstep <;> cases hstep
        · rename_i hkey
          exact inv_lookup h hv hi hkey.2.1 hkey.2.2
        · exact inv_setVisit h hv nofun trivial
      · cases hstep
        exact inv_setVisit h hv nofun trivial
    · cases hstep
  | loadBefore v =>
    simp only [World.step] at hstep
    split at hstep <;> cases hstep
    exact inv_setVisit h ‹_› nofun (Nat.le_refl _)
  | enterVisit v =>
    simp only [World.step] at hstep
    split at hstep
    · split at hstep <;> cases hstep
      rename_i hv _
      exact inv_setVisit h hv nofun (h.stage v _ hv)
    · cases hstep
  | scan v =>
    simp only [World.step] at hstep
    split at hstep <;> cases hstep
    exact inv_scan h ‹_› hcalm
  | loadAfter v =>
    simp only [World.step] at hstep
    split at hstep
    · rename_i q since before entries hv
      obtain ⟨hfrom, hcurrent⟩ := h.stage v _ hv
      split at hstep <;> cases hstep
      · rename_i hkeep
        obtain ⟨hcache, hsame⟩ := hkeep
        refine inv_setVisit h hv ?_ ⟨hfrom, hsame ▸ hcurrent hcache⟩
        rintro epoch entries' (hst | hst) <;> cases hst
        exact .inl (.scanned (hsame ▸ hv) hcache)
      · exact inv_setVisit h hv nofun hfrom
    · cases hstep
  | store v =>
    simp only [World.step] at hstep
    split at hstep <;> cases hstep
    exact inv_store h ‹_› _

/-- The records of the tree, the listing of them and the hash of the queries may be any. -/
theorem calm_listings_up_to_date (list : Query → M → L) (slotIndex : Query → Nat) {records : M}
    {s : World M L}
    (h : Run (World.step list slotIndex) Calm (World.opened records) s) : UpToDate list s := by
  have hinv : Inv list s := h.invariant (inv_opened records) fun hi may took => hi.step may took
  intro v q since entries hv
  exact hinv.stage v _ hv

end

/-- The records as a list of keys, and the plain listing of them. -/
def keysUnder (q : Query) (keys : List (List UInt8)) : List (List UInt8) :=
  (keys.filter fun k => q.keyPrefix.isPrefixOf k).take q.limit

def everything : Query := ⟨[], none, none, 10⟩

/-- The put has left when the first visit comes, and the second is served what that one kept. -/
def visitsAfterPut : List (Action (List (List UInt8))) :=
  [.enter 0 false, .bump 0 1, .mutate 0 ([97] :: ·), .leave 0, .start 1 everything, .lookup 1,
    .loadBefore 1, .enterVisit 1, .scan 1, .loadAfter 1, .store 1, .start 2 everything, .lookup 2]

/-- The put has its number but not yet its key when the first visit comes. -/
def visitBesidePut : List (Action (List (List UInt8))) :=
  [.enter 0 false, .bump 0 1, .start 1 everything, .lookup 1, .loadBefore 1, .enterVisit 1,
    .scan 1, .loadAfter 1, .store 1, .mutate 0 ([97] :: ·), .leave 0, .start 2 everything,
    .lookup 2]

theorem calm_listings_up_to_date_kept :
    ∃ s, Run (World.step keysUnder fun _ => 0) Calm (World.opened []) s ∧
      s.visits.lookup 2 = some ⟨everything, 1, .done [[97]]⟩ ∧ UpToDate keysUnder s := by
  have hplay : (play (World.step keysUnder fun _ => 0) Calm visitsAfterPut (World.opened [])).any
      fun s => s.visits.lookup 2 = some ⟨everything, 1, .done [[97]]⟩ := by decide +kernel
  obtain ⟨s, hrun, hend⟩ := exists_run_of_play hplay
  exact ⟨s, hrun, hend, calm_listings_up_to_date keysUnder _ hrun⟩

/-- The put has returned, and the second visit is served the empty listing. -/
theorem kept_listing_misses_put :
    ∃ s, Run (World.step keysUnder fun _ => 0) (fun _ _ => True) (World.opened []) s ∧
      s.visits.lookup 2 = some ⟨everything, 1, .done []⟩ ∧ ¬UpToDate keysUnder s := by
  have hplay : (play (World.step keysUnder fun _ => 0) (fun _ _ => True) visitBesidePut
      (World.opened [])).any fun s => s.visits.lookup 2 = some ⟨everything, 1, .done []⟩ ∧
        s.states = [[], [[97]]] := by decide +kernel
  obtain ⟨s, hrun, hdone, hstates⟩ := exists_run_of_play hplay
  refine ⟨s, hrun, hdone, fun h => ?_⟩
  obtain ⟨m, hm, hlist⟩ := h 2 _ _ _ hdone
  rw [hstates, List.drop_one, List.tail_cons, List.mem_singleton] at hm
  subst hm
  cases hlist

end Holt.Listings
