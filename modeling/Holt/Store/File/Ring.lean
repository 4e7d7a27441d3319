import Holt.Lib.Machine
import Mathlib.Data.List.GetD
import Mathlib.Data.List.Perm.Basic
import Mathlib.Tactic.Common

/-! The ring under the data file. A call queues its entries, hands them to the kernel and takes as
many completions off the ring as it queued entries. What it takes are its own only if the ring was
empty when it began. -/

namespace Holt.Uring

open Holt.Lib

def ringDepth : Nat := 256

/-- `full` is the result of a complete transfer; `userData` is what a completion says of the entry
it belongs to. -/
structure Entry where
  call : Nat
  userData : Nat
  full : Nat
  deriving DecidableEq, Repr

/-- Entries queued and not submitted, submitted and not completed, and completions not yet taken
with their results. -/
structure Ring where
  sq : List Entry
  submitted : List Entry
  cq : List (Entry × Int)
  deriving DecidableEq, Repr

inductive Kind
  /-- `pread_at` and `sync_data`: one entry, and a completion is not asked whose it is. -/
  | single
  /-- `submit_write_batch`. -/
  | batch
  /-- `submit_write_stream`. -/
  | stream
  deriving DecidableEq, Repr

/-- The lengths are those of the sorted and thinned-out writes. -/
structure Stage where
  kind : Kind
  lens : List Nat
  deriving DecidableEq, Repr

inductive Op
  | preadAt (len : Nat)
  | pwriteAt (len : Nat)
  | pwriteManyAt (lens : List Nat)
  | pwriteManyAndSyncAt (lens : List Nat)
  | syncData
  deriving DecidableEq, Repr

def writeStage (lens : List Nat) : Stage :=
  ⟨if lens.length ≤ ringDepth then .batch else .stream, lens⟩

/-- Nothing to write is nothing to do. -/
def Op.stages : Op → List Stage
  | .preadAt len => [⟨.single, [len]⟩]
  | .pwriteAt len => [⟨.batch, [len]⟩]
  | .pwriteManyAt lens => if lens.isEmpty then [] else [writeStage lens]
  | .pwriteManyAndSyncAt lens =>
    if lens.isEmpty then [] else [writeStage lens, ⟨.single, [0]⟩]
  | .syncData => [⟨.single, [0]⟩]

inductive Phase
  | fill (pushed : Bool)
  | submit
  | submitAndWait (least : Nat)
  | await (least : Nat)
  /-- A stream takes what is there, waits if that was nothing, and takes again. -/
  | drain (drained waited : Bool)
  deriving DecidableEq, Repr

structure Call where
  id : Nat
  stage : Stage
  later : List Stage
  phase : Phase
  next : Nat
  inFlight : Nat
  completed : Nat
  seen : List Nat
  failed : Bool
  /-- All entries of the call, and all completions it took. -/
  pushed : List Entry
  taken : List (Entry × Int)
  deriving DecidableEq, Repr

/-- `completions` is all the kernel ever completed; `returned` is the call that has just returned
`Ok`. -/
structure World where
  ring : Ring
  calls : Nat
  current : Option Call
  completions : List (Entry × Int)
  returned : Option Call
  deriving DecidableEq, Repr

def World.fresh : World := ⟨⟨[], [], []⟩, 0, none, [], none⟩

/-- A push finds the queue full or not; a system call takes over the first `count` queued entries
and succeeds only with all of them; a wait may be interrupted. -/
inductive Action
  | begin (op : Op)
  | push (ok : Bool)
  | filled
  | enter (count : Nat) (ok : Bool)
  | wake (ok : Bool)
  | take
  | complete (i : Nat) (result : Int)
  deriving DecidableEq, Repr

namespace Call

def entry (c : Call) : Entry := ⟨c.id, c.next, c.stage.lens.getD c.next 0⟩

def mayPush (c : Call) : Bool :=
  !c.failed && c.next < c.stage.lens.length &&
    (c.stage.kind != .stream || c.inFlight < ringDepth)

/-- The checks made on a completion. -/
def complains (c : Call) (r : Entry × Int) : Bool :=
  match c.stage.kind with
  | .single => r.2 != c.stage.lens.getD 0 0
  | .batch | .stream =>
    c.stage.lens.length ≤ r.1.userData || c.seen.contains r.1.userData ||
      r.2 != c.stage.lens.getD r.1.userData 0

def took (c : Call) (r : Entry × Int) : Call :=
  { c with
    completed := c.completed + 1
    inFlight := c.inFlight - 1
    failed := c.failed || c.complains r
    seen := r.1.userData :: c.seen
    taken := c.taken ++ [r] }

def queued (c : Call) : Call :=
  { c with
    next := c.next + 1
    inFlight := c.inFlight + 1
    pushed := c.pushed ++ [c.entry] }

def start (c : Call) (stage : Stage) (later : List Stage) : Call :=
  { c with
    stage := stage
    later := later
    phase := .fill false
    next := 0
    inFlight := 0
    completed := 0
    seen := []
    failed := false }

end Call

namespace World

def goOn (w : World) (c : Call) (phase : Phase) : World :=
  { w with current := some { c with phase := phase }, returned := none }

def fail (w : World) : World := { w with current := none, returned := none }

/-- The stage is over: on to the next one, or back to the caller. -/
def finish (w : World) (c : Call) : World :=
  if c.failed || c.completed != c.stage.lens.length then w.fail
  else
    match c.later with
    | [] => { w with current := none, returned := some c }
    | stage :: later => { w with current := some (c.start stage later), returned := none }

/-- A stream with nothing in flight has nothing to wait for. -/
def checkFlight (w : World) (c : Call) : World :=
  if c.inFlight = 0 then w.fail else w.goOn c (.drain false false)

/-- The end of a stream's round, with no completion left to take. -/
def endRound (w : World) (c : Call) : World :=
  if c.failed && c.inFlight == 0 then w.fail
  else if c.completed < c.stage.lens.length then w.goOn c (.fill false)
  else w.finish c

def pushStep (w : World) (c : Call) (pushed ok : Bool) : World :=
  if ok then
    let w := { w with ring := { w.ring with sq := w.ring.sq ++ [c.entry] } }
    let c := c.queued
    if c.stage.kind != .stream && c.next == c.stage.lens.length then
      w.goOn c (.submitAndWait c.next)
    else w.goOn c (.fill true)
  else if c.stage.kind != .stream then w.fail
  else if pushed then w.goOn c .submit
  else w.checkFlight c

def takeStep (w : World) (c : Call) (drained waited : Bool) : World :=
  match w.ring.cq with
  | [] =>
    if c.stage.kind != .stream then w.fail
    else if drained || waited then w.endRound c
    else w.goOn c (.submitAndWait 1)
  | r :: cq =>
    let w := { w with ring := { w.ring with cq := cq } }
    if c.stage.kind == .stream && c.inFlight == 0 then w.fail
    else
      let c := c.took r
      if c.stage.kind != .stream && c.completed == c.stage.lens.length then w.finish c
      else w.goOn c (.drain true waited)

/-- What the current call does next. -/
def callStep (w : World) (c : Call) : Action → Option World
  | .push ok =>
    match c.phase with
    | .fill pushed => if c.mayPush then some (w.pushStep c pushed ok) else none
    | _ => none
  | .filled =>
    match c.phase with
    | .fill pushed =>
      if c.stage.kind == .stream && !c.mayPush then
        some (if pushed then w.goOn c .submit else w.checkFlight c)
      else none
    | _ => none
  | .enter count ok =>
    let after := { w with ring :=
      { w.ring with
        sq := w.ring.sq.drop count
        submitted := w.ring.submitted ++ w.ring.sq.take count } }
    if ok && !(w.ring.sq.drop count).isEmpty then none
    else
      match c.phase with
      | .submit => some (if ok then after.checkFlight c else after.fail)
      | .submitAndWait least => some (if ok then after.goOn c (.await least) else after.fail)
      | _ => none
  | .wake ok =>
    match c.phase with
    | .await least =>
      if ok then
        if least ≤ w.ring.cq.length then some (w.goOn c (.drain false true)) else none
      else some w.fail
    | _ => none
  | .take =>
    match c.phase with
    | .drain drained waited => some (w.takeStep c drained waited)
    | _ => none
  | .begin _ | .complete _ _ => none

def step (w : World) : Action → Option World
  | .begin op =>
    match w.current, op.stages with
    | none, stage :: later =>
      some { w with
        calls := w.calls + 1
        current := some ⟨w.calls, stage, later, .fill false, 0, 0, 0, [], false, [], []⟩
        returned := none }
    | _, _ => none
  | .complete i result =>
    match w.ring.submitted[i]? with
    | none => none
    | some e =>
      some { w with
        ring := { w.ring with
          submitted := w.ring.submitted.eraseIdx i
          cq := w.ring.cq ++ [(e, result)] }
        completions := (e, result) :: w.completions
        returned := none }
  | a => w.current.bind fun c => w.callStep c a

end World

/-! ## A call that begins on an empty ring -/

namespace Ring

/-- Nothing is queued, submitted or waiting to be taken. -/
def Idle (r : Ring) : Prop := r.sq = [] ∧ r.submitted = [] ∧ r.cq = []

instance (r : Ring) : Decidable r.Idle := inferInstanceAs (Decidable (_ ∧ _ ∧ _))

def entries (r : Ring) : List Entry := r.sq ++ r.submitted ++ r.cq.map Prod.fst

end Ring

/-- What is on the ring was pushed by the call's current stage, and together with what was taken
it is all that the call pushed. -/
structure Owns (w : World) (c : Call) : Prop where
  ledger : (w.ring.entries ++ c.taken.map Prod.fst).Perm c.pushed
  stage : ∀ e ∈ w.ring.entries, e.call = c.id ∧ c.stage.lens[e.userData]? = some e.full
  single : ∀ s ∈ c.stage :: c.later, s.kind = .single → s.lens.length = 1
  own : ∀ r ∈ c.taken, r.1.call = c.id ∧ r ∈ w.completions
  full : c.failed = false → ∀ r ∈ c.taken, r.2 = r.1.full
  count : c.pushed.length + c.completed = c.taken.length + c.next
  bound : c.next ≤ c.stage.lens.length

/-- The call's entries have completed with full length, and it took no other call's completions. -/
def Served (w : World) (c : Call) : Prop :=
  (∀ e ∈ c.pushed, (e, (e.full : Int)) ∈ w.completions) ∧ ∀ r ∈ c.taken, r.1.call = c.id

structure Inv (w : World) : Prop where
  completions : ∀ r ∈ w.ring.cq, r ∈ w.completions
  current : ∀ c, w.current = some c → Owns w c
  returned : ∀ c, w.returned = some c → Served w c

/-- A call begins only when the ring is empty. -/
def StartsIdle (w : World) : Action → Prop
  | .begin _ => w.ring.Idle
  | _ => True

instance (w : World) : (a : Action) → Decidable (StartsIdle w a)
  | .begin _ => inferInstanceAs (Decidable w.ring.Idle)
  | .push _ | .filled | .enter _ _ | .wake _ | .take | .complete _ _ =>
    inferInstanceAs (Decidable True)

theorem Op.stages_single (op : Op) :
    ∀ s ∈ op.stages, s.kind = .single → s.lens.length = 1 := by
  have hwrite : ∀ lens, (writeStage lens).kind ≠ .single := by
    intro lens
    unfold writeStage
    dsimp only
    split <;> nofun
  cases op <;> simp only [Op.stages] <;> try split
  all_goals simp [hwrite]

section Call

variable {w w' : World} {c : Call}

/-- Entries may move about on the ring. -/
theorem Owns.of_perm (h : Owns w c) (hentries : w'.ring.entries.Perm w.ring.entries)
    (hcompletions : ∀ r ∈ w.completions, r ∈ w'.completions) : Owns w' c where
  ledger := (hentries.append_right _).trans h.ledger
  stage e he := h.stage e (hentries.mem_iff.mp he)
  single := h.single
  own r hr := ⟨(h.own r hr).1, hcompletions r (h.own r hr).2⟩
  full := h.full
  count := h.count
  bound := h.bound

theorem fail_inv (hcq : ∀ r ∈ w.ring.cq, r ∈ w.completions) : Inv w.fail := ⟨hcq, nofun, nofun⟩

theorem Owns.goOn (h : Owns w c) (hcq : ∀ r ∈ w.ring.cq, r ∈ w.completions) (phase : Phase) :
    Inv (w.goOn c phase) := by
  refine ⟨hcq, ?_, nofun⟩
  rintro _ ⟨rfl⟩
  exact ⟨h.ledger, h.stage, h.single, h.own, h.full, h.count, h.bound⟩

/-- Once as many completions are taken as the stage has entries, none of its entries is left on
the ring. -/
theorem Owns.entries_nil (h : Owns w c) (hall : c.completed = c.stage.lens.length) :
    w.ring.entries = [] := by
  have hlen := h.ledger.length_eq
  rw [List.length_append, List.length_map] at hlen
  have hcount := h.count
  have hbound := h.bound
  exact List.eq_nil_of_length_eq_zero (by omega)

theorem Owns.finish (h : Owns w c) (hcq : ∀ r ∈ w.ring.cq, r ∈ w.completions) :
    Inv (w.finish c) := by
  unfold World.finish
  split
  · exact fail_inv hcq
  rename_i hgood
  simp only [Bool.or_eq_true, bne_iff_ne, not_or, Bool.not_eq_true, ne_eq, not_not] at hgood
  obtain ⟨hfailed, hall⟩ := hgood
  have hnil := h.entries_nil hall
  have hledger := h.ledger
  rw [hnil, List.nil_append] at hledger
  split
  · refine ⟨hcq, nofun, ?_⟩
    rintro _ ⟨rfl⟩
    refine ⟨fun e he => ?_, fun r hr => (h.own r hr).1⟩
    obtain ⟨r, hr, rfl⟩ := List.mem_map.mp (hledger.mem_iff.mpr he)
    rw [← h.full hfailed r hr]
    exact (h.own r hr).2
  · rename_i stage later hlater
    refine ⟨hcq, ?_, nofun⟩
    rintro _ ⟨rfl⟩
    have hlen := hledger.length_eq
    rw [List.length_map] at hlen
    exact {
      ledger := h.ledger
      stage := by rw [hnil]; exact nofun
      single := fun s hs => h.single s (List.mem_cons_of_mem _ (hlater ▸ hs))
      own := h.own
      full := fun _ => h.full hfailed
      count := hlen.symm
      bound := Nat.zero_le _ }

theorem Owns.checkFlight (h : Owns w c) (hcq : ∀ r ∈ w.ring.cq, r ∈ w.completions) :
    Inv (w.checkFlight c) := by
  unfold World.checkFlight
  split
  · exact fail_inv hcq
  · exact h.goOn hcq _

theorem Owns.endRound (h : Owns w c) (hcq : ∀ r ∈ w.ring.cq, r ∈ w.completions) :
    Inv (w.endRound c) := by
  unfold World.endRound
  split
  · exact fail_inv hcq
  split
  · exact h.goOn hcq _
  · exact h.finish hcq

theorem Owns.queued (h : Owns w c) (hnext : c.next < c.stage.lens.length) :
    Owns { w with ring := { w.ring with sq := w.ring.sq ++ [c.entry] } } c.queued where
  ledger := by
    have hledger := h.ledger
    rw [List.perm_iff_count] at hledger ⊢
    intro e
    have he := hledger e
    simp only [Ring.entries, Call.queued, List.count_append] at he ⊢
    omega
  stage := by
    intro e he
    simp only [Ring.entries, List.mem_append, List.mem_singleton] at he
    by_cases hold : e ∈ w.ring.entries
    · exact h.stage e hold
    · simp only [Ring.entries, List.mem_append] at hold
      obtain rfl : e = c.entry := by tauto
      refine ⟨rfl, ?_⟩
      rw [Call.entry, List.getD_eq_getElem _ _ hnext]
      exact List.getElem?_eq_getElem hnext
  single := h.single
  own := h.own
  full := h.full
  count := by
    have := h.count
    simp only [Call.queued, List.length_append, List.length_singleton]
    omega
  bound := hnext

theorem Owns.took (h : Owns w c) (hcq : ∀ r ∈ w.ring.cq, r ∈ w.completions) {r : Entry × Int}
    {cq : List (Entry × Int)} (hr : w.ring.cq = r :: cq) :
    Owns { w with ring := { w.ring with cq := cq } } (c.took r) := by
  have hentries : w.ring.entries = w.ring.sq ++ w.ring.submitted ++ r.1 :: cq.map Prod.fst := by
    rw [Ring.entries, hr, List.map_cons]
  obtain ⟨hcall, hlen⟩ := h.stage r.1 (by simp [hentries])
  have hledger := h.ledger
  rw [hentries] at hledger
  exact {
    ledger := by
      rw [List.perm_iff_count] at hledger ⊢
      intro e
      have he := hledger e
      simp only [Ring.entries, Call.took, List.count_append, List.count_cons, List.map_append,
        List.map_cons, List.map_nil, List.count_nil] at he ⊢
      omega
    stage := by
      intro e he
      apply h.stage e
      rw [hentries]
      simp only [Ring.entries, List.mem_append, List.mem_cons] at he ⊢
      tauto
    single := h.single
    own := by
      intro q hq
      rcases List.mem_append.mp hq with hq | hq
      · exact h.own q hq
      · obtain rfl := List.mem_singleton.mp hq
        exact ⟨hcall, hcq q (hr ▸ List.mem_cons_self)⟩
    full := by
      intro hgood q hq
      simp only [Call.took, Bool.or_eq_false_iff] at hgood
      rcases List.mem_append.mp hq with hq | hq
      · exact h.full hgood.1 q hq
      · obtain rfl := List.mem_singleton.mp hq
        obtain ⟨hi, hfull⟩ := List.getElem?_eq_some_iff.mp hlen
        have hcheck := hgood.2
        unfold Call.complains at hcheck
        split at hcheck
        · rename_i hkind
          have hone := h.single c.stage List.mem_cons_self hkind
          have hzero : q.1.userData = 0 := by omega
          rw [bne_eq_false_iff_eq] at hcheck
          rw [hcheck, ← hzero, List.getD_eq_getElem _ _ hi, hfull]
        all_goals
          simp only [Bool.or_eq_false_iff, bne_eq_false_iff_eq] at hcheck
          rw [hcheck.2, List.getD_eq_getElem _ _ hi, hfull]
    count := by
      have := h.count
      simp only [Call.took, List.length_append, List.length_singleton]
      omega
    bound := h.bound }

theorem enter_entries (r : Ring) (count : Nat) :
    (Ring.entries { r with
      sq := r.sq.drop count
      submitted := r.submitted ++ r.sq.take count }).Perm r.entries := by
  rw [List.perm_iff_count]
  intro e
  have hsq := congrArg (List.count e) (List.take_append_drop count r.sq)
  simp only [Ring.entries, List.count_append] at hsq ⊢
  omega

theorem callStep_inv {a : Action} (hcq : ∀ r ∈ w.ring.cq, r ∈ w.completions) (h : Owns w c)
    (hstep : w.callStep c a = some w') : Inv w' := by
  cases a with
  | push ok =>
    simp only [World.callStep] at hstep
    split at hstep
    · rename_i pushed hphase
      split at hstep
      · rename_i hmay
        cases hstep
        simp only [Call.mayPush, Bool.and_eq_true, decide_eq_true_eq] at hmay
        unfold World.pushStep
        split
        · have hqueued := h.queued hmay.1.2
          dsimp only
          split
          · exact hqueued.goOn hcq _
          · exact hqueued.goOn hcq _
        · split
          · exact fail_inv hcq
          · split
            · exact h.goOn hcq _
            · exact h.checkFlight hcq
      · cases hstep
    · cases hstep
  | filled =>
    simp only [World.callStep] at hstep
    split at hstep
    · split at hstep
      · cases hstep
        split
        · exact h.goOn hcq _
        · exact h.checkFlight hcq
      · cases hstep
    · cases hstep
  | enter count ok =>
    simp only [World.callStep] at hstep
    have hafter : Owns { w with ring := _ } c :=
      h.of_perm (enter_entries w.ring count) fun _ hr => hr
    split at hstep
    · cases hstep
    split at hstep
    · cases hstep
      split
      · exact hafter.checkFlight hcq
      · exact fail_inv hcq
    · cases hstep
      split
      · exact hafter.goOn hcq _
      · exact fail_inv hcq
    · cases hstep
  | wake ok =>
    simp only [World.callStep] at hstep
    split at hstep
    · split at hstep
      · split at hstep
        · cases hstep
          exact h.goOn hcq _
        · cases hstep
      · cases hstep
        exact fail_inv hcq
    · cases hstep
  | take =>
    simp only [World.callStep] at hstep
    split at hstep
    · cases hstep
      unfold World.takeStep
      split
      · split
        · exact fail_inv hcq
        · split
          · exact h.endRound hcq
          · exact h.goOn hcq _
      · rename_i r cq hr
        have htook := h.took hcq hr
        have hcq' : ∀ q ∈ cq, q ∈ w.completions := fun q hq =>
          hcq q (hr ▸ List.mem_cons_of_mem _ hq)
        dsimp only
        split
        · exact fail_inv hcq'
        · split
          · exact htook.finish hcq'
          · exact htook.goOn hcq' _
    · cases hstep
  | begin op => cases hstep
  | complete i result => cases hstep

end Call

theorem step_inv {w w' : World} {a : Action} (h : Inv w) (hidle : StartsIdle w a)
    (hstep : w.step a = some w') : Inv w' := by
  cases a with
  | begin op =>
    simp only [World.step] at hstep
    split at hstep
    · rename_i stage later _ hstages
      cases hstep
      obtain ⟨hsq, hsubmitted, hcq⟩ := hidle
      have hnil : w.ring.entries = [] := by
        rw [Ring.entries, hsq, hsubmitted, hcq]
        rfl
      refine ⟨h.completions, ?_, nofun⟩
      rintro _ ⟨rfl⟩
      exact {
        ledger := by rw [hnil]; exact .nil
        stage := by rw [hnil]; exact nofun
        single := fun s hs => op.stages_single s (hstages ▸ hs)
        own := nofun
        full := nofun
        count := rfl
        bound := Nat.zero_le _ }
    · cases hstep
  | complete i result =>
    simp only [World.step] at hstep
    split at hstep
    · cases hstep
    · rename_i e he
      cases hstep
      refine ⟨?_, fun c hc => (h.current c hc).of_perm ?_ fun r hr => List.mem_cons_of_mem _ hr,
        nofun⟩
      · intro r hr
        rcases List.mem_append.mp hr with hr | hr
        · exact List.mem_cons_of_mem _ (h.completions r hr)
        · exact List.mem_singleton.mp hr ▸ List.mem_cons_self
      · obtain ⟨hi, rfl⟩ := List.getElem?_eq_some_iff.mp he
        have hperm := List.perm_iff_count.mp (List.getElem_cons_eraseIdx_perm hi)
        rw [List.perm_iff_count]
        intro e
        have he := hperm e
        simp only [Ring.entries, List.count_append, List.count_cons, List.map_append,
          List.map_cons, List.map_nil, List.count_nil] at he ⊢
        omega
  | push ok | filled | enter count ok | wake ok | take =>
    obtain ⟨c, hc, hcall⟩ := Option.bind_eq_some_iff.mp hstep
    exact callStep_inv h.completions (h.current c hc) hcall

/-- As long as no call begins with something left on the ring by another, a call that returns `Ok`
has had its own entries completed in full, and took no other completions. -/
theorem ring_calls_served {w : World} (hrun : Run World.step StartsIdle .fresh w) :
    ∀ c, w.returned = some c → Served w c := by
  have hfresh : Inv .fresh := ⟨nofun, nofun, nofun⟩
  exact (hrun.invariant hfresh fun h hidle hstep => step_inv h hidle hstep).returned

/-- After a read, two writes that complete in the other order, and their sync. -/
theorem ring_calls_served_writes :
    ∃ w c, Run World.step StartsIdle .fresh w ∧ w.returned = some c ∧ c.id = 1 ∧
      c.taken.map (fun r => r.1.full) = [16, 8, 0] ∧ Served w c := by
  have hplay : (play World.step StartsIdle
      [.begin (.preadAt 8), .push true, .enter 1 true, .complete 0 8, .wake true, .take,
        .begin (.pwriteManyAndSyncAt [8, 16]), .push true, .push true, .enter 2 true,
        .complete 1 16, .complete 0 8, .wake true, .take, .take, .push true, .enter 1 true,
        .complete 0 0, .wake true, .take] .fresh).any (fun w => w.returned.any fun c =>
      c.id = 1 ∧ c.taken.map (fun r => r.1.full) = [16, 8, 0]) = true := by decide +kernel
  obtain ⟨w, hw, hend⟩ := (Option.any_eq_true _ _).mp hplay
  obtain ⟨c, hc, hend⟩ := (Option.any_eq_true _ _).mp hend
  obtain ⟨hid, htaken⟩ := of_decide_eq_true hend
  exact ⟨w, c, run_of_play hw, hc, hid, htaken, ring_calls_served (run_of_play hw) c hc⟩

/-- The wait of a `pwrite_at` is interrupted; its write completes afterwards, and the next
`pread_at` takes that completion for its own. -/
theorem interrupted_write_taken :
    ∃ w c, Run World.step (fun _ _ => True) .fresh w ∧ w.returned = some c ∧
      (∃ e ∈ c.pushed, ∀ n, (e, n) ∉ w.completions) ∧ ∃ r ∈ c.taken, r.1.call < c.id := by
  have hplay : (play World.step (fun _ _ => True)
      [.begin (.pwriteAt 8), .push true, .enter 1 true, .wake false, .complete 0 8,
        .begin (.preadAt 8), .push true, .enter 1 true, .wake true, .take] .fresh).any
      (fun w => w.returned.any fun c =>
        (c.pushed.any fun e => w.completions.all fun r => r.1 != e) &&
          c.taken.any fun r => r.1.call < c.id) = true := by
    decide +kernel
  obtain ⟨w, hw, hend⟩ := (Option.any_eq_true _ _).mp hplay
  obtain ⟨c, hc, hend⟩ := (Option.any_eq_true _ _).mp hend
  simp only [Bool.and_eq_true, List.any_eq_true, List.all_eq_true, bne_iff_ne,
    decide_eq_true_eq] at hend
  obtain ⟨⟨e, he, hnone⟩, hother⟩ := hend
  exact ⟨w, c, run_of_play hw, hc, ⟨e, he, fun n hn => hnone _ hn rfl⟩, hother⟩

end Holt.Uring
