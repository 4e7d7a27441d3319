import Mathlib.Data.List.Count
import Holt.Checkpoint.Parties
import Holt.Lib.Maps

/-! Who holds which blob of a snapshot, and what a turn of anyone does to that: whatever is drained
in it is held after it, and whatever is given back was held. -/

namespace Holt.Checkpoint

open Holt.Lib

variable {I : Type}

/-! ## The condition -/

/-- Each blob of these entries is handed back for exactly one snapshot: one entry of it was not
retired before. -/
def Batch.Once (b : Batch I) (entries : List (BatchEntry I)) : Prop :=
  ∀ e ∈ entries,
    (entries.filter fun e' => !b.retired e' && e'.entry.guid = e.entry.guid).length = 1

/-- Where the worker hands entries back, it does so once for each snapshot: when no entry is ready,
when a wave cannot be checked, written or flushed, and when it had stale entries. Only a child that
no snapshot has is folded into its parent. -/
def Settles (children : I → List BlobGuid) (s : System I) : Action I → Prop
  | .merge _ _ c _ => s.memory.bm.flushes c = 0
  | .chooseWave => ∀ b ∈ s.parties.atWork,
    (b.choose children s.memory.bm).entries.any (·.progress = .chosen) ∨
      b.Once (b.entries.filter (·.progress ≠ .flushed))
  | .checkWave => ∀ b ∈ s.parties.atWork,
    ((b.inProgress .chosen).mapM fun e => s.memory.bm.writeSnapshotIsCurrent e.entry).isOk ∨
      b.Once b.entries
  | .writeWaveFails _ => ∀ b ∈ s.parties.atWork, b.Once b.entries
  | .flushWave false => ∀ b ∈ s.parties.atWork, b.Once b.entries
  | .flushWave true => ∀ b ∈ s.parties.atWork,
    (∀ e ∈ b.entries, e.progress ≠ .stale) ∨
      b.land.Once (b.land.entries.filter (·.progress ≠ .flushed))
  | _ => True

instance (b : Batch I) (entries : List (BatchEntry I)) : Decidable (b.Once entries) :=
  inferInstanceAs (Decidable (∀ e ∈ entries, _))

instance (children : I → List BlobGuid) (s : System I) :
    (a : Action I) → Decidable (Settles children s a)
  | .merge _ _ _ _ => inferInstanceAs (Decidable (_ = _))
  | .chooseWave | .checkWave | .writeWaveFails _ | .flushWave false | .flushWave true =>
    inferInstanceAs (Decidable (∀ b ∈ s.parties.atWork, _))
  | .load _ | .evict _ | .enter _ _ _ | .look _ _ | .edit _ _ _ | .spill _ _ _ _ _ | .mark _ _
  | .leave _ | .drainDirty _ | .drainPending _ | .takeVersions _ | .walFails _ | .clone _
  | .settle _ | .plannerChore | .submit _ | .takeBatch _ | .workerChore | .writeWave
  | .deleteEpoch _ | .syncDeletes _ | .truncate | .begin _ | .manualChore _ | .manualCheck _
  | .manualWrite _ | .manualWriteFails _ _ | .manualFlush _ _ | .manualDelete _ _
  | .manualSync _ _ | .manualTruncate _ | .manualReturn _ => inferInstanceAs (Decidable True)

/-! ## Who holds what -/

def owned (id : Nat) (snap : List (BlobGuid × Nat)) : List (Nat × BlobGuid) :=
  snap.map fun e => (id, e.1)

def Chore.held : Chore → List (Nat × BlobGuid)
  | .retire id g _ => [(id, g)]
  | .restoreDirty ids g _ => ids.map (·, g)
  | .restorePending _ _ => []

def Capture.snap : Capture I → List (BlobGuid × Nat)
  | .drained snap | .captured snap _ => snap
  | .cloning _ todo bytes stale => entriesOf bytes ++ stale ++ snapshotOf todo
  | .ready _ bytes => entriesOf bytes

def BatchEntry.owner (e : BatchEntry I) : Nat × BlobGuid := (e.id, e.entry.guid)

def Batch.held (b : Batch I) : List (Nat × BlobGuid) :=
  (b.entries.filter (!b.retired ·)).map (·.owner)

def ManualStage.held : ManualStage I → List (Nat × BlobGuid)
  | .capture id c => owned id c.snap
  | .writing id _ current stale => owned id (entriesOf (current ++ stale))
  | _ => []

def Manual.held (x : Manual I) : List (Nat × BlobGuid) :=
  x.stage.held ++ x.chores.flatMap Chore.held

def Parties.held (p : Parties I) : List (Nat × BlobGuid) :=
  (p.planner.elim [] fun x => owned x.1 x.2.snap) ++ p.plannerChores.flatMap Chore.held ++
    p.queue.flatMap (fun e => owned e.id (entriesOf e.entries)) ++ p.worker.elim [] Batch.held ++
    p.workerChores.flatMap Chore.held ++ p.manuals.entries.flatMap fun x => x.2.held

def Call.drained (m : Memory I) : Call I → List (Nat × BlobGuid)
  | .snapshotDirty id => owned id m.bm.snapshotDirty.1
  | _ => []

def Call.returned : Call I → List (Nat × BlobGuid)
  | .retire id g _ => [(id, g)]
  | .restoreDirty ids g _ => ids.map (·, g)
  | _ => []

/-- Not a call of writers, maintenance or eviction. -/
def Call.Background : Call I → Prop
  | .load _ | .evict _ _ | .look _ | .edit _ _ | .spill _ _ _ _ _ | .merge _ _ _ | .markDirty _ _
  | .submit _ => False
  | _ => True

/-- It neither drains nor gives back. -/
def Call.Quiet : Call I → Prop
  | .nothing | .snapshotPending | .write _ | .writeFails _ | .flush | .delete _ | .truncate => True
  | _ => False

/-- It gives back what one snapshot has, or folds a child that none has. -/
def Call.Fits (m : Memory I) : Call I → Prop
  | .restoreDirty ids _ _ => ids.length = 1
  | .merge _ c _ => m.bm.flushes c = 0
  | _ => True

def Chore.Lone : Chore → Prop
  | .restoreDirty ids _ _ => ids.length = 1
  | _ => True

/-- How far an entry of the batch can be at this stage. -/
def BatchStage.Allows : BatchStage → Progress → Prop
  | .choosing, pr => pr = .waiting ∨ pr = .flushed
  | .checking, pr => pr = .waiting ∨ pr = .chosen ∨ pr = .flushed
  | .writing, pr | .flushing, pr => pr ≠ .chosen
  | .deleting _ _, pr => pr = .flushed

def Batch.Staged (b : Batch I) : Prop := ∀ e ∈ b.entries, b.stage.Allows e.progress

def Parties.Staged (p : Parties I) : Prop := ∀ b, p.worker = some b → b.Staged

structure Parties.Lone (p : Parties I) : Prop where
  plannerChores : ∀ ch ∈ p.plannerChores, ch.Lone
  workerChores : ∀ ch ∈ p.workerChores, ch.Lone
  manuals : ∀ i x, p.manuals.lookup i = some x → ∀ ch ∈ x.chores, ch.Lone

/-- A turn, and what it does to what is held. If it `settles`, nobody gives back at once what
several snapshots have. -/
structure Accounts (m : Memory I) (settles : Prop) (p p' : Parties I) (c : Call I) : Prop where
  staged : p'.Staged
  held : ∀ x, p.held.count x + (c.drained m).count x = p'.held.count x + c.returned.count x
  lone : settles → p.Lone → p'.Lone ∧ c.Fits m

/-- A turn of a checkpoint, which has no part in the calls of writers. -/
structure Turn (m : Memory I) (settles : Prop) (p p' : Parties I) (c : Call I) : Prop
    extends Accounts m settles p p' c where
  ops : p'.ops = p.ops
  maintenance : p'.maintenance = p.maintenance
  call : c.Background

section

variable {m : Memory I} {settles : Prop} {p p' : Parties I} {c : Call I} {seat : Seat} {id i : Nat}
  {cap : Capture I} {stage : ManualStage I} {chores : List Chore} {x : Manual I}
  {snap pending : List (BlobGuid × Nat)} {b : Batch I}

theorem Call.Quiet.spec (h : c.Quiet) :
    (c.Fits m ∧ c.drained m = [] ∧ c.returned = []) ∧ c.Background := by
  cases c <;> first | exact ⟨⟨trivial, rfl, rfl⟩, trivial⟩ | exact h.elim

theorem Chore.call_background (ch : Chore) : (ch.call : Call I).Background := by
  cases ch <;> trivial

theorem Chore.call_fits {ch : Chore} (h : ch.Lone) : (ch.call : Call I).Fits m := by
  cases ch with
  | restoreDirty ids g seq => exact h
  | retire id g seq => trivial
  | restorePending g seq => trivial

theorem Chore.call_drained (ch : Chore) : (ch.call : Call I).drained m = [] := by
  cases ch <;> rfl

theorem Chore.call_returned (ch : Chore) : (ch.call : Call I).returned = ch.held := by
  cases ch <;> rfl

@[simp] theorem held_restoreDirty (id : Nat) (snap : List (BlobGuid × Nat)) :
    (snap.map fun e => Chore.restoreDirty [id] e.1 e.2).flatMap Chore.held = owned id snap := by
  rw [List.flatMap_map]
  exact List.flatMap_pure_eq_map _ _

@[simp] theorem held_restorePending (pending : List (BlobGuid × Nat)) :
    (pending.map fun e => Chore.restorePending e.1 e.2).flatMap Chore.held = [] := by
  induction pending with
  | nil => rfl
  | cons e pending ih => exact ih

@[simp] theorem held_retire (id : Nat) (entries : List (WriteThroughEntry I)) :
    (entries.map fun e => Chore.retire id e.guid e.expectedSeq).flatMap Chore.held =
      owned id (entriesOf entries) := by
  rw [List.flatMap_map, owned, entriesOf, List.map_map]
  exact List.flatMap_pure_eq_map _ _

@[simp] theorem held_restoreAll (id : Nat) (entries : List (WriteThroughEntry I)) :
    (entries.map fun e => Chore.restoreDirty [id] e.guid e.expectedSeq).flatMap Chore.held =
      owned id (entriesOf entries) := by
  rw [← held_restoreDirty, entriesOf, List.map_map]
  rfl

theorem lone_map {α : Type} {l : List α} {f : α → Chore} (hf : ∀ a, (f a).Lone) :
    ∀ ch ∈ l.map f, ch.Lone :=
  List.forall_mem_map.mpr fun a _ => hf a

theorem pending_lone : ∀ ch ∈ pending.map (fun e => Chore.restorePending e.1 e.2), ch.Lone :=
  lone_map fun _ => trivial

/-! ## Manual checkpoints -/

theorem held_setManual (here : p.manuals.lookup i = some x) (stage : ManualStage I)
    (chores : List Chore) (y : Nat × BlobGuid) :
    (p.setManual i stage chores).held.count y + x.held.count y =
      p.held.count y + (⟨stage, chores⟩ : Manual I).held.count y := by
  have hold := ((entries_perm here).flatMap_right fun z => z.2.held).count_eq y
  simp only [Parties.held, Parties.setManual, AList.entries_insert, List.count_append,
    List.flatMap_cons] at hold ⊢
  omega

theorem Parties.Lone.setManual (h : p.Lone) (hlone : ∀ ch ∈ chores, ch.Lone) :
    (p.setManual i stage chores).Lone := by
  refine { h with manuals := fun j y hy => ?_ }
  rcases lookup_insert_some hy with ⟨-, rfl⟩ | ⟨-, hy⟩
  · exact hlone
  · exact h.manuals j y hy

theorem Turn.manual (h : p.Staged) (here : p.manuals.lookup i = some x)
    (hlone : (∀ ch ∈ x.chores, ch.Lone) → (∀ ch ∈ chores, ch.Lone) ∧ c.Fits m)
    (hcall : c.Background) (hheld : ∀ y, x.held.count y + (c.drained m).count y =
      (⟨stage, chores⟩ : Manual I).held.count y + c.returned.count y) :
    Turn m settles p (p.setManual i stage chores) c := by
  refine ⟨⟨h, fun y => ?_, fun _ hp => ?_⟩, rfl, rfl, hcall⟩
  · have := held_setManual here stage chores y
    have := hheld y
    omega
  · exact (hlone (hp.manuals i x here)).imp_left hp.setManual

/-- A turn of a manual checkpoint that neither drains nor gives back. -/
theorem Turn.quiet (h : p.Staged) (here : p.manuals.lookup i = some x)
    (hlone : ∀ ch ∈ chores, ch.Lone) (hcall : c.Quiet)
    (hheld : x.held.Perm (⟨stage, chores⟩ : Manual I).held) :
    Turn m settles p (p.setManual i stage chores) c := by
  obtain ⟨⟨hfits, hdrained, hreturned⟩, hbackground⟩ := hcall.spec (m := m)
  refine .manual h here (fun _ => ⟨hlone, hfits⟩) hbackground fun y => ?_
  rw [hdrained, hreturned, hheld.count_eq]

theorem manualCheck_accounts (h : p.Staged)
    (hplan : planManual m p (.manualCheck i) = some (p', c)) : Turn m settles p p' c := by
  simp only [planManual] at hplan
  split at hplan
  · rename_i id pending bytes here
    split at hplan
    · cases hplan
      refine .quiet h here (by simp) trivial ?_
      simp only [Manual.held, ManualStage.held, Capture.snap, owned, entriesOf, List.map_map]
      exact ((List.filter_append_perm _ bytes).symm.map _).append_right _
    · cases hplan
      exact .quiet h here (lone_map fun _ => rfl) trivial
        (by simp [Manual.held, ManualStage.held, Capture.snap])
  · cases hplan

theorem manualFlush_accounts {ok : Bool} (h : p.Staged)
    (hplan : planManual m p (.manualFlush i ok) = some (p', c)) : Turn m settles p p' c := by
  simp only [planManual] at hplan
  split at hplan
  · rename_i here
    split at hplan
    · cases hplan
      exact .quiet h here (by simp) trivial (.refl _)
    split at hplan
    · cases hplan
      exact .quiet h here pending_lone trivial (by simp [Manual.held, ManualStage.held])
    split at hplan
    · cases hplan
      exact .quiet h here pending_lone trivial (by simp [Manual.held, ManualStage.held])
    · cases hplan
      exact .quiet h here (by simp) trivial (.refl _)
  · cases hplan

theorem manualReturn_accounts (h : p.Staged)
    (hplan : planManual m p (.manualReturn i) = some (p', c)) : Turn m settles p p' c := by
  simp only [planManual] at hplan
  split at hplan
  · rename_i here
    cases hplan
    refine ⟨⟨h, fun y => ?_, fun _ hp => ⟨{ hp with
      manuals := fun j y hy => hp.manuals j y (lookup_erase_some hy).2 }, trivial⟩⟩, rfl, rfl,
      trivial⟩
    have hold := ((entries_perm here).flatMap_right fun z => z.2.held).count_eq y
    have hnone : (⟨.returning, []⟩ : Manual I).held = [] := rfl
    have herase : (p.manuals.erase i).entries = p.manuals.entries.kerase i := rfl
    simp only [Parties.held, herase, hnone, List.count_append, List.flatMap_cons, List.count_nil,
      Call.drained, Call.returned] at hold ⊢
    omega
  · cases hplan

theorem planManual_accounts {a : Action I} (h : p.Staged)
    (hplan : planManual m p a = some (p', c)) : Turn m settles p p' c := by
  cases a with
  | begin i =>
    obtain ⟨hnew, hplan⟩ := Option.ite_none_left_eq_some.mp hplan
    cases hplan
    refine ⟨⟨h, fun y => ?_, fun _ hp => ⟨hp.setManual (by simp), trivial⟩⟩, rfl, rfl, trivial⟩
    simp only [Parties.held, Parties.setManual, AList.entries_insert_of_notMem (not_or.mp hnew).1]
    rfl
  | manualChore i =>
    simp only [planManual] at hplan
    split at hplan
    · rename_i stage ch chores here
      cases hplan
      refine .manual h here (fun hx => ?_) ch.call_background fun y => ?_
      · obtain ⟨hhead, htail⟩ := List.forall_mem_cons.mp hx
        exact ⟨htail, Chore.call_fits hhead⟩
      rw [ch.call_drained, ch.call_returned]
      simp only [Manual.held, List.flatMap_cons, List.count_append, List.count_nil]
      omega
    · cases hplan
  | manualCheck i => exact manualCheck_accounts h hplan
  | manualWrite i =>
    simp only [planManual] at hplan
    split at hplan
    · rename_i here
      cases hplan
      refine .quiet h here (lone_map fun _ => trivial) ?_
        (by simp only [Manual.held, ManualStage.held, held_retire]; simp)
      split <;> trivial
    · cases hplan
  | manualWriteFails i left =>
    simp only [planManual] at hplan
    split at hplan
    · rename_i here
      obtain ⟨-, hplan⟩ := Option.ite_none_left_eq_some.mp hplan
      cases hplan
      exact .quiet h here (lone_map fun _ => rfl) trivial
        (by simp only [Manual.held, ManualStage.held, held_restoreAll]; simp)
    · cases hplan
  | manualFlush i ok => exact manualFlush_accounts h hplan
  | manualDelete i failed =>
    simp only [planManual] at hplan
    split at hplan
    · rename_i here
      cases hplan
      exact .quiet h here pending_lone trivial (by simp [Manual.held, ManualStage.held])
    · cases hplan
  | manualSync i ok =>
    simp only [planManual] at hplan
    split at hplan
    · rename_i applied failed here
      split at hplan
      · cases hplan
        exact .quiet h here pending_lone trivial (by simp [Manual.held, ManualStage.held])
      · cases hplan
        refine .quiet h here (by simp) ?_ (by cases failed <;> rfl)
        split <;> trivial
    · cases hplan
  | manualTruncate i =>
    simp only [planManual] at hplan
    split at hplan
    · rename_i here
      cases hplan
      refine .quiet h here (by simp) ?_ (.refl _)
      split <;> trivial
    · cases hplan
  | manualReturn i => exact manualReturn_accounts h hplan
  | _ => cases hplan

/-! ## Snapshots -/

theorem Parties.Lone.setCapture (h : p.Lone) : (p.setCapture seat id cap).Lone := by
  cases seat with
  | planner => exact { h with }
  | manual i => exact h.setManual (by simp)

theorem Parties.Staged.setCapture (h : p.Staged) : (p.setCapture seat id cap).Staged := by
  cases seat <;> exact h

/-- The snapshot at a seat goes on, or one begins there. -/
theorem held_setCapture {old : List (Nat × BlobGuid)}
    (here : (∃ id cap, p.capture seat = some (id, cap) ∧ old = owned id cap.snap) ∨
      p.seatIdle seat = true ∧ old = []) (id' : Nat) (cap' : Capture I) (y : Nat × BlobGuid) :
    (p.setCapture seat id' cap').held.count y + old.count y =
      p.held.count y + (owned id' cap'.snap).count y := by
  cases seat with
  | planner =>
    have hold : old = p.planner.elim [] fun x => owned x.1 x.2.snap := by
      rcases here with ⟨id, cap, here, rfl⟩ | ⟨hidle, rfl⟩
      · rw [show p.planner = some (id, cap) from here]
        rfl
      · rw [Option.isNone_iff_eq_none.mp (Bool.and_eq_true_iff.mp hidle).1]
        rfl
    simp only [Parties.setCapture, Parties.held, List.count_append, hold, Option.elim_some]
    omega
  | manual i =>
    have hold : ∃ x, p.manuals.lookup i = some x ∧ old = x.held := by
      rcases here with ⟨id, cap, here, rfl⟩ | ⟨hidle, rfl⟩
      · simp only [Parties.capture] at here
        split at here
        · rename_i hlookup
          cases here
          exact ⟨_, hlookup, by simp [Manual.held, ManualStage.held]⟩
        · cases here
      · simp only [Parties.seatIdle] at hidle
        split at hidle
        · rename_i hlookup
          exact ⟨_, hlookup, rfl⟩
        · cases hidle
    obtain ⟨x, hlookup, rfl⟩ := hold
    have := held_setManual hlookup (.capture id' cap') [] y
    simp only [Manual.held, ManualStage.held, List.flatMap_nil, List.append_nil] at this ⊢
    exact this

theorem held_giveUp {next : ManualStage I} (here : p.capture seat = some (id, cap))
    (hnext : next.held = []) (snap pending : List (BlobGuid × Nat)) (y : Nat × BlobGuid) :
    (p.giveUp seat id snap pending next).held.count y + (owned id cap.snap).count y =
      p.held.count y + (owned id snap).count y := by
  cases seat with
  | planner =>
    simp only [Parties.giveUp, Parties.held, List.count_append, List.flatMap_append,
      held_restorePending, held_restoreDirty, show p.planner = some (id, cap) from here,
      Option.elim_some, Option.elim_none, List.count_nil]
    omega
  | manual i =>
    simp only [Parties.capture] at here
    split at here
    · rename_i hlookup
      cases here
      have := held_setManual hlookup next (pending.map (fun e => .restorePending e.1 e.2) ++
        snap.map fun e => .restoreDirty [id] e.1 e.2) y
      simp only [Manual.held, hnext, List.flatMap_append, held_restorePending, held_restoreDirty,
        List.flatMap_nil, List.append_nil, List.nil_append] at this
      exact this
    · cases here

theorem Parties.Lone.giveUp {next : ManualStage I} (h : p.Lone) :
    (p.giveUp seat id snap pending next).Lone := by
  have hlone : ∀ ch ∈ pending.map (fun e => Chore.restorePending e.1 e.2) ++
      snap.map (fun e => Chore.restoreDirty [id] e.1 e.2), ch.Lone :=
    List.forall_mem_append.mpr ⟨pending_lone, lone_map fun _ => rfl⟩
  cases seat with
  | planner =>
    exact { h with plannerChores := List.forall_mem_append.mpr ⟨h.plannerChores, hlone⟩ }
  | manual i => exact h.setManual hlone

/-- The gate and the count of snapshots have no part in it. -/
theorem Turn.gate {exclusive : Bool} {nextId : Nat} (h : Turn m settles p p' c) :
    Turn m settles p { p' with exclusive, nextId } c where
  staged := h.staged
  held := h.held
  lone hs hp := (h.lone hs hp).imp_left fun hp' => { hp' with }
  ops := h.ops
  maintenance := h.maintenance
  call := h.call

/-- A snapshot goes on, with the same blobs. -/
theorem Turn.capture {cap' : Capture I} (h : p.Staged) (here : p.capture seat = some (id, cap))
    (hcall : c.Quiet) (hsnap : cap'.snap.Perm cap.snap) :
    Turn m settles p (p.setCapture seat id cap') c := by
  obtain ⟨⟨hfits, hdrained, hreturned⟩, hbackground⟩ := hcall.spec (m := m)
  refine ⟨⟨h.setCapture, fun y => ?_, fun _ hp => ⟨hp.setCapture, hfits⟩⟩, ?_, ?_, hbackground⟩
  · have := held_setCapture (.inl ⟨id, cap, here, rfl⟩) id cap' y
    have hsame : (owned id cap'.snap).count y = (owned id cap.snap).count y :=
      (hsnap.map _).count_eq y
    rw [hdrained, hreturned]
    omega
  · cases seat <;> rfl
  · cases seat <;> rfl

/-- A snapshot is given up, with all its blobs. -/
theorem Turn.giveUp {next : ManualStage I} (h : p.Staged) (here : p.capture seat = some (id, cap))
    (hnext : next.held = []) (hsnap : cap.snap = snap) :
    Turn m settles p (p.giveUp seat id snap pending next) .nothing := by
  refine ⟨⟨?_, fun y => ?_, fun _ hp => ⟨hp.giveUp, trivial⟩⟩, ?_, ?_, trivial⟩
  · cases seat <;> exact h
  · have := held_giveUp here hnext snap pending y
    rw [hsnap] at this
    exact (Nat.add_right_cancel this).symm
  · cases seat <;> rfl
  · cases seat <;> rfl

theorem drainDirty_accounts (h : p.Staged)
    (hplan : planSnapshot m p (.drainDirty seat) = some (p', c)) : Turn m settles p p' c := by
  obtain ⟨⟨hidle, -⟩, hplan⟩ := Option.ite_none_right_eq_some.mp hplan
  cases hplan
  have hdrain := held_setCapture (.inr ⟨hidle, rfl⟩) p.nextId (.drained m.bm.snapshotDirty.1)
  have hturn : Turn m settles p (p.setCapture seat p.nextId (.drained m.bm.snapshotDirty.1))
      (.snapshotDirty p.nextId) := by
    refine ⟨⟨h.setCapture, fun y => (hdrain y).symm, fun _ hp => ⟨hp.setCapture, trivial⟩⟩,
      ?_, ?_, trivial⟩ <;> cases seat <;> rfl
  exact hturn.gate

theorem takeVersions_accounts (h : p.Staged)
    (hplan : planSnapshot m p (.takeVersions seat) = some (p', c)) : Turn m settles p p' c := by
  simp only [planSnapshot] at hplan
  split at hplan
  · rename_i id snap pending here
    split at hplan
    · rename_i entries hentries
      cases hplan
      have hsnap := (BufferManager.snapshotDirtyVersions_spec hentries).1
      have hturn : Turn m settles p (p.setCapture seat id (.cloning pending entries [] []))
          .nothing :=
        .capture h here trivial (by rw [Capture.snap, Capture.snap, hsnap]; exact .refl _)
      exact hturn.gate
    · cases hplan
      have hturn : Turn m settles p (p.giveUp seat id snap pending .returning) .nothing :=
        .giveUp h here rfl rfl
      exact hturn.gate
  · cases hplan

theorem clone_accounts (h : p.Staged)
    (hplan : planSnapshot m p (.clone seat) = some (p', c)) : Turn m settles p p' c := by
  simp only [planSnapshot] at hplan
  split at hplan
  · rename_i id pending e todo bytes stale here
    split at hplan
    · cases hplan
      refine .capture h here trivial ?_
      simp only [Capture.snap, entriesOf, snapshotOf, List.map_append, List.map_cons,
        List.map_nil, List.append_assoc, List.singleton_append]
      exact List.perm_middle.symm.append_left _
    · cases hplan
      refine .capture h here trivial ?_
      simp [Capture.snap, snapshotOf]
    · cases hplan
      exact .giveUp h here rfl rfl
    · cases hplan
      exact .giveUp h here rfl rfl
  · cases hplan

theorem settle_accounts (h : p.Staged)
    (hplan : planSnapshot m p (.settle seat) = some (p', c)) : Turn m settles p p' c := by
  simp only [planSnapshot] at hplan
  split at hplan
  · rename_i id pending bytes stale here
    split at hplan
    · rename_i hstale
      cases hplan
      refine .capture h here trivial ?_
      simp [Capture.snap, snapshotOf, List.isEmpty_iff.mp hstale]
    · cases hplan
      refine ⟨⟨h.setCapture, fun y => ?_, fun _ hp => ⟨{ hp.setCapture with
        plannerChores := ?_ }, trivial⟩⟩, by cases seat <;> rfl, by cases seat <;> rfl, trivial⟩
      · have hsettle := held_setCapture (.inl ⟨id, _, here, rfl⟩) id (.ready [] bytes) y
        have hchores : (p.setCapture seat id (.ready [] bytes)).plannerChores =
            p.plannerChores := by cases seat <;> rfl
        simp only [Parties.held, hchores, Capture.snap, snapshotOf, List.map_nil,
          List.append_nil, owned, List.map_append, List.count_append, List.flatMap_append,
          held_restoreDirty, held_restorePending, Call.drained, Call.returned,
          List.count_nil] at hsettle ⊢
        omega
      · refine List.forall_mem_append.mpr ⟨hp.plannerChores, List.forall_mem_append.mpr ?_⟩
        exact ⟨lone_map fun _ => rfl, pending_lone⟩
  · cases hplan

theorem submit_accounts {merged : Bool} (h : p.Staged)
    (hplan : planSnapshot m p (.submit merged) = some (p', c)) : Turn m settles p p' c := by
  simp only [planSnapshot] at hplan
  split at hplan
  · rename_i id pending bytes here hdone
    split at hplan
    · rename_i hempty
      cases hplan
      refine ⟨⟨h, fun y => ?_, fun _ hp => ⟨{ hp with }, trivial⟩⟩, rfl, rfl, trivial⟩
      simp [Parties.held, here, Capture.snap, List.isEmpty_iff.mp hempty.1, owned, entriesOf,
        Call.drained, Call.returned]
    · cases hplan
      refine ⟨⟨h, fun y => ?_, fun _ hp => ⟨{ hp with }, trivial⟩⟩, rfl, rfl, trivial⟩
      simp only [Parties.held, here, Capture.snap, List.flatMap_append, List.flatMap_cons,
        List.flatMap_nil, List.append_nil, List.count_append, Option.elim_some, Option.elim_none,
        List.count_nil, Call.drained, Call.returned]
      omega
  · cases hplan

theorem planSnapshot_accounts {a : Action I} (h : p.Staged)
    (hplan : planSnapshot m p a = some (p', c)) : Turn m settles p p' c := by
  cases a with
  | drainDirty seat => exact drainDirty_accounts h hplan
  | drainPending seat =>
    simp only [planSnapshot] at hplan
    split at hplan
    · rename_i here
      cases hplan
      exact .capture h here trivial (.refl _)
    · cases hplan
  | takeVersions seat => exact takeVersions_accounts h hplan
  | walFails seat =>
    simp only [planSnapshot] at hplan
    split at hplan
    · rename_i here
      cases hplan
      exact .giveUp h here rfl rfl
    · cases hplan
  | clone seat => exact clone_accounts h hplan
  | settle seat => exact settle_accounts h hplan
  | plannerChore =>
    simp only [planSnapshot] at hplan
    split at hplan
    · rename_i ch chores here
      cases hplan
      refine ⟨⟨h, fun y => ?_, fun _ hp => ?_⟩, rfl, rfl, ch.call_background⟩
      · rw [ch.call_drained, ch.call_returned]
        simp only [Parties.held, here, List.flatMap_cons, List.count_append, List.count_nil]
        omega
      · obtain ⟨hhead, htail⟩ := List.forall_mem_cons.mp (here ▸ hp.plannerChores)
        exact ⟨{ hp with plannerChores := htail }, Chore.call_fits hhead⟩
    · cases hplan
  | submit merged => exact submit_accounts h hplan
  | _ => cases hplan

/-! ## The worker -/

theorem atWork_eq (h : p.atWork = some b) : p.worker = some b ∧ p.workerChores = [] := by
  unfold Parties.atWork at h
  split at h
  · rename_i hdone
    exact ⟨h, hdone⟩
  · cases h

theorem restoreEntries_held (entries : List (BatchEntry I)) :
    ((b.restoreEntries entries).flatMap Chore.held).Perm
      ((entries.filter (!b.retired ·)).map (·.owner)) := by
  let pairs := entries.map fun e => (e.entry.guid, e.entry.expectedSeq)
  let keys := (pairs.foldl (fun m e => m.insert e.1 e.2) (∅ : AList fun _ : BlobGuid => Nat)).keys
  have hheld : (b.restoreEntries entries).flatMap Chore.held = (keys.flatMap fun g =>
      (entries.filter (!b.retired ·)).filter (·.entry.guid = g)).map (·.owner) := by
    simp only [Batch.restoreEntries, asMap, keys, AList.keys, List.keys, List.map_flatMap,
      List.flatMap_map, List.filter_filter]
    refine List.flatMap_congr fun g _ => ?_
    rw [Chore.held, List.map_map]
    refine (List.map_congr_left fun e he => ?_).trans
      (congrArg _ (List.filter_congr fun e _ => Bool.and_comm ..))
    have hguid := of_decide_eq_true (Bool.and_eq_true_iff.mp (List.mem_filter.mp he).2).2
    exact congrArg _ hguid.symm
  rw [hheld]
  refine (flatMap_filter_perm _ (AList.keys_nodup _) fun e he => ?_).map _
  rw [← AList.mem_keys, mem_foldl_insert, List.map_map]
  exact .inr (List.mem_map_of_mem (List.mem_of_mem_filter he))

theorem failed_held : (b.failed.flatMap Chore.held).Perm b.held := by
  rw [Batch.failed, List.flatMap_append, Batch.restoreAllPending, held_restorePending,
    List.append_nil]
  exact restoreEntries_held b.entries

theorem deferred_held : (b.deferred.flatMap Chore.held).Perm b.held := by
  rw [Batch.deferred, List.flatMap_append, Batch.restoreAllPending, held_restorePending,
    List.append_nil]
  refine (restoreEntries_held _).trans (.of_eq ?_)
  rw [List.filter_filter]
  refine congrArg _ (List.filter_congr fun e _ => ?_)
  -- What is flushed was retired.
  cases he : e.progress <;> simp [Batch.retired, BatchStage.retired, he]

theorem restoreEntries_lone {entries : List (BatchEntry I)} (h : b.Once entries) :
    ∀ ch ∈ b.restoreEntries entries, ch.Lone := by
  refine List.forall_mem_map.mpr fun g hg => ?_
  have hmem : g.1 ∈ entries.map (·.entry.guid) := by
    obtain ⟨e, he, rfl⟩ := List.mem_map.mp hg
    have hkey := AList.mem_keys.mpr (List.mem_map_of_mem he)
    simpa [mem_foldl_insert] using hkey
  obtain ⟨e, he, hguid⟩ := List.mem_map.mp hmem
  have := h e he
  rw [hguid] at this
  rw [Chore.Lone, List.length_map, this]

theorem held_move {stage : BatchStage} {f : BatchEntry I → Progress}
    (hf : ∀ e ∈ b.entries, stage.retired (f e) = b.stage.retired e.progress) :
    (b.move stage f).held = b.held := by
  rw [Batch.held, Batch.held, Batch.move, List.filter_map, List.map_map]
  refine congrArg _ (List.filter_congr fun e he => ?_)
  exact congrArg _ (hf e he)

theorem held_flushed (h : ∀ e ∈ b.entries, e.progress = .flushed) : b.held = [] := by
  rw [Batch.held, List.filter_eq_nil_iff.mpr fun e he => ?_]
  · rfl
  · simp [Batch.retired, h e he, BatchStage.retired]

theorem Turn.worker {w : Option (Batch I)} (here : p.atWork = some b)
    (hstaged : ∀ b', w = some b' → b'.Staged) (hlone : settles → ∀ ch ∈ chores, ch.Lone)
    (hcall : c.Quiet) (hheld : ∀ y, b.held.count y =
      (w.elim [] Batch.held).count y + (chores.flatMap Chore.held).count y) :
    Turn m settles p { p with worker := w, workerChores := chores } c := by
  obtain ⟨⟨hfits, hdrained, hreturned⟩, hbackground⟩ := hcall.spec (m := m)
  refine ⟨⟨hstaged, fun y => ?_, fun hs hp => ⟨{ hp with workerChores := hlone hs }, hfits⟩⟩, rfl,
    rfl, hbackground⟩
  have := hheld y
  simp only [Parties.held, (atWork_eq here).1, (atWork_eq here).2, hdrained, hreturned,
    List.count_append, List.flatMap_nil, List.count_nil, Option.elim_some]
  omega

/-- The batch goes on, and holds what it held. -/
theorem Turn.goesOn {b' : Batch I} (here : p.atWork = some b) (hstaged : b'.Staged)
    (hcall : c.Quiet) (hheld : b'.held = b.held) :
    Turn m settles p { p with worker := some b' } c := by
  have hturn : Turn m settles p { p with worker := some b', workerChores := [] } c := by
    refine .worker here (fun _ hb' => by cases hb'; exact hstaged) (by simp) hcall fun y => ?_
    rw [← hheld]
    rfl
  rw [← (atWork_eq here).2] at hturn
  exact hturn

/-- The batch ends, and hands back what it held. -/
theorem Turn.ends (here : p.atWork = some b)
    (hlone : settles → ∀ ch ∈ chores, ch.Lone) (hcall : c.Quiet)
    (hheld : (chores.flatMap Chore.held).Perm b.held) :
    Turn m settles p (p.endBatch chores) c := by
  refine .worker here (fun _ hb' => by cases hb') hlone hcall fun y => ?_
  rw [← hheld.count_eq]
  exact (Nat.zero_add _).symm

theorem failed_lone (h : b.Once b.entries) : ∀ ch ∈ b.failed, ch.Lone :=
  List.forall_mem_append.mpr ⟨restoreEntries_lone h, pending_lone⟩

theorem deferred_lone (h : b.Once (b.entries.filter (·.progress ≠ .flushed))) :
    ∀ ch ∈ b.deferred, ch.Lone :=
  List.forall_mem_append.mpr ⟨restoreEntries_lone h, pending_lone⟩

/-- The entries of a wave that is written go from the batch to those that retire them. -/
theorem writeWave_held (entries : List (BatchEntry I)) (y : Nat × BlobGuid) :
    ((entries.filter (!BatchStage.writing.retired ·.progress)).map (·.owner)).count y =
      ((entries.filter (!BatchStage.flushing.retired ·.progress)).map (·.owner)).count y +
        (((entries.filter (·.progress = .current)).map (·.owner)).count y +
          ((entries.filter (·.progress = .stale)).map (·.owner)).count y) := by
  induction entries with
  | nil => rfl
  | cons e entries ih =>
    cases he : e.progress <;>
      simp only [BatchStage.retired, he, List.filter_cons, Bool.not_true, Bool.not_false,
        reduceCtorEq, decide_true, decide_false, Bool.false_eq_true, if_true, if_false,
        List.map_cons, List.count_cons] at ih ⊢ <;>
      omega

theorem held_retireWave (entries : List (BatchEntry I)) :
    (Batch.retire entries).flatMap Chore.held = entries.map (·.owner) := by
  rw [Batch.retire, List.flatMap_map]
  exact List.flatMap_pure_eq_map _ _

theorem Batch.Staged.move {stage : BatchStage} {f : BatchEntry I → Progress}
    (hf : ∀ e ∈ b.entries, stage.Allows (f e)) : (b.move stage f).Staged :=
  List.forall_mem_map.mpr hf

theorem Parties.Staged.batch (h : p.Staged) (here : p.atWork = some b) {stage : BatchStage}
    (hstage : b.stage = stage) : ∀ e ∈ b.entries, stage.Allows e.progress :=
  hstage ▸ h b (atWork_eq here).1

section

variable {children : I → List BlobGuid}

theorem takeBatch_accounts {n : Nat}
    (hplan : planWorker children m p (.takeBatch n) = some (p', c)) : Turn m settles p p' c := by
  obtain ⟨⟨hnone, hdone, -⟩, hplan⟩ := Option.ite_none_right_eq_some.mp hplan
  cases hplan
  have hwaiting : ∀ e ∈ (Batch.ofEpochs (p.queue.take n)).entries, e.progress = .waiting := by
    intro e he
    obtain ⟨ep, -, hmem⟩ := List.mem_flatMap.mp he
    obtain ⟨w, -, rfl⟩ := List.mem_map.mp hmem
    rfl
  have hstage : (Batch.ofEpochs (p.queue.take n)).stage = .flushing ∨
      (Batch.ofEpochs (p.queue.take n)).stage = .choosing := by
    unfold Batch.ofEpochs
    dsimp only
    split
    · exact .inl rfl
    · exact .inr rfl
  have hheld : (Batch.ofEpochs (p.queue.take n)).held =
      (p.queue.take n).flatMap fun e => owned e.id (entriesOf e.entries) := by
    rw [Batch.held, List.filter_eq_self.mpr fun e he => ?_]
    · simp only [Batch.ofEpochs, List.map_flatMap, owned, entriesOf, List.map_map]
      rfl
    · rcases hstage with hs | hs <;> simp [Batch.retired, hwaiting e he, hs, BatchStage.retired]
  refine ⟨⟨?_, fun y => ?_, fun _ hp => ⟨{ hp with }, trivial⟩⟩, rfl, rfl, trivial⟩
  · rintro _ ⟨⟩ e he
    rw [hwaiting e he]
    rcases hstage with hs | hs <;> rw [hs]
    · exact fun hpr => by cases hpr
    · exact .inl rfl
  · have hqueue := congrArg (fun q => (q.flatMap fun e : CheckpointEpoch I =>
      owned e.id (entriesOf e.entries)).count y) (List.take_append_drop n p.queue)
    simp only [List.flatMap_append, List.count_append] at hqueue
    simp only [Parties.held, Option.isNone_iff_eq_none.mp hnone, Option.elim_some,
      Option.elim_none, hheld, List.count_append, List.count_nil, Call.drained, Call.returned]
    omega

variable (h : p.Staged)

include h

theorem chooseWave_accounts (hplan : planWorker children m p .chooseWave = some (p', c)) :
    Turn m (Settles children ⟨m, p⟩ .chooseWave) p p' c := by
  obtain ⟨b, here, hplan⟩ := Option.bind_eq_some_iff.mp hplan
  split at hplan
  · rename_i hstage
    have hb := h.batch here hstage
    dsimp only at hplan
    split at hplan
    · cases hplan
      refine .goesOn here (.move fun e he => ?_) trivial (held_move fun e he => ?_)
      · split
        · exact .inr (.inl rfl)
        · exact (hb e he).imp_right .inr
      · rw [hstage]
        split
        · rename_i hpick
          rw [hpick.1]
          rfl
        · rcases hb e he with hpr | hpr <;> rw [hpr] <;> rfl
    · rename_i hpick
      split at hplan
      · cases hplan
        exact .ends here (fun hmay => deferred_lone ((hmay b here).resolve_left hpick)) trivial
          deferred_held
      · rename_i hall
        cases hplan
        have hflushed : ∀ e ∈ b.entries, e.progress = .flushed := by simpa using hall
        refine .goesOn here hflushed trivial ?_
        rw [held_flushed hflushed]
        exact held_flushed hflushed
  · cases hplan

theorem checkWave_accounts (hplan : planWorker children m p .checkWave = some (p', c)) :
    Turn m (Settles children ⟨m, p⟩ .checkWave) p p' c := by
  obtain ⟨b, here, hplan⟩ := Option.bind_eq_some_iff.mp hplan
  split at hplan
  · rename_i hstage
    have hb := h.batch here hstage
    split at hplan
    · cases hplan
      refine .goesOn here (.move fun e he => ?_) trivial (held_move fun e he => ?_)
      · split
        · split <;> exact fun hpr => by cases hpr
        · rename_i hpr
          exact hpr
      · rw [hstage]
        split
        · rename_i hpr
          rw [hpr]
          split <;> rfl
        · rcases hb e he with hpr | hpr | hpr <;> rw [hpr] <;> rfl
    · rename_i e hfail
      cases hplan
      refine .ends here (fun hmay => failed_lone ?_) trivial failed_held
      exact (hmay b here).resolve_left (by rw [hfail]; exact Bool.false_ne_true)
  · cases hplan

theorem writeWave_accounts (hplan : planWorker children m p .writeWave = some (p', c)) :
    Turn m settles p p' c := by
  obtain ⟨b, here, hplan⟩ := Option.bind_eq_some_iff.mp hplan
  split at hplan
  · rename_i hstage
    have hb := h.batch here hstage
    cases hplan
    refine .worker here ?_ ?_ ?_ fun y => ?_
    · rintro _ ⟨⟩
      exact hb
    · exact fun _ => List.forall_mem_append.mpr
        ⟨lone_map fun _ => trivial, lone_map fun _ => trivial⟩
    · split <;> trivial
    · rw [List.flatMap_append, held_retireWave, held_retireWave, List.count_append]
      have := writeWave_held b.entries y
      rw [← hstage] at this
      exact this
  · cases hplan

theorem flushWave_accounts {ok : Bool}
    (hplan : planWorker children m p (.flushWave ok) = some (p', c)) :
    Turn m (Settles children ⟨m, p⟩ (.flushWave ok)) p p' c := by
  obtain ⟨b, here, hplan⟩ := Option.bind_eq_some_iff.mp hplan
  split at hplan
  · rename_i hstage
    have hb := h.batch here hstage
    have hland : b.land.held = b.held := held_move fun e _ => by
      rw [hstage]
      cases he : e.progress <;> rfl
    cases ok with
    | false =>
      cases hplan
      exact .ends here (fun hmay => failed_lone (hmay b here)) trivial failed_held
    | true =>
      rw [if_neg (by decide)] at hplan
      split at hplan
      · rename_i hstale
        cases hplan
        refine .ends here (fun hmay => deferred_lone ?_) trivial (hland ▸ deferred_held)
        exact (hmay b here).resolve_left (by simpa using hstale)
      · rename_i hstale
        cases hplan
        refine .goesOn here (.move fun e he => ?_) trivial hland
        split
        · exact .inr rfl
        · rename_i hcurrent
          have hnotStale : e.progress ≠ .stale := fun hpr =>
            hstale (List.any_eq_true.mpr ⟨e, he, decide_eq_true hpr⟩)
          have hnotChosen := hb e he
          cases hpr : e.progress with
          | waiting => exact .inl rfl
          | flushed => exact .inr rfl
          | chosen => exact absurd hpr hnotChosen
          | current => exact absurd hpr hcurrent
          | stale => exact absurd hpr hnotStale
  · cases hplan

theorem planWorker_accounts {a : Action I} (hplan : planWorker children m p a = some (p', c)) :
    Turn m (Settles children ⟨m, p⟩ a) p p' c := by
  cases a with
  | takeBatch n => exact takeBatch_accounts hplan
  | chooseWave => exact chooseWave_accounts h hplan
  | checkWave => exact checkWave_accounts h hplan
  | writeWave => exact writeWave_accounts h hplan
  | flushWave ok => exact flushWave_accounts h hplan
  | workerChore =>
    simp only [planWorker] at hplan
    split at hplan
    · rename_i ch chores here
      cases hplan
      refine ⟨⟨h, fun y => ?_, fun _ hp => ?_⟩, rfl, rfl, ch.call_background⟩
      · rw [ch.call_drained, ch.call_returned]
        simp only [Parties.held, here, List.flatMap_cons, List.count_append, List.count_nil]
        omega
      · obtain ⟨hhead, htail⟩ := List.forall_mem_cons.mp (here ▸ hp.workerChores)
        exact ⟨{ hp with workerChores := htail }, Chore.call_fits hhead⟩
    · cases hplan
  | writeWaveFails left =>
    obtain ⟨b, here, hplan⟩ := Option.bind_eq_some_iff.mp hplan
    split at hplan
    · obtain ⟨-, hplan⟩ := Option.ite_none_left_eq_some.mp hplan
      cases hplan
      exact .ends here (fun hmay => failed_lone (hmay b here)) trivial failed_held
    · cases hplan
  | deleteEpoch failed =>
    obtain ⟨b, here, hplan⟩ := Option.bind_eq_some_iff.mp hplan
    split at hplan
    · rename_i hstage
      have hflushed := h.batch here hstage
      cases hplan
      refine .worker here ?_ (fun _ => lone_map fun _ => trivial) trivial fun y => ?_
      · rintro _ ⟨⟩
        exact hflushed
      · have hnone : ∀ stage, ({ b with stage } : Batch I).held = [] := fun _ =>
          held_flushed hflushed
        rw [held_restorePending, held_flushed hflushed, Option.elim_some, hnone]
        rfl
    · cases hplan
  | syncDeletes ok =>
    obtain ⟨b, here, hplan⟩ := Option.bind_eq_some_iff.mp hplan
    split at hplan
    · rename_i hstage
      have hnone : b.held = [] := held_flushed (h.batch here hstage)
      split at hplan
      · cases hplan
        exact .ends here (by simp) trivial (by rw [hnone]; exact .refl _)
      split at hplan
      · cases hplan
        exact .ends here (by simp) trivial (by rw [hnone]; exact .refl _)
      · cases hplan
        exact .ends here (fun _ => lone_map fun _ => trivial) trivial
          (by rw [hnone, held_restorePending])
    · cases hplan
  | truncate =>
    obtain ⟨-, hplan⟩ := Option.ite_none_right_eq_some.mp hplan
    cases hplan
    exact ⟨⟨h, fun _ => rfl, fun _ hp => ⟨hp, trivial⟩⟩, rfl, rfl, trivial⟩
  | _ => cases hplan

end

/-! ## Everyone -/

theorem Accounts.writer (h : p.Staged) {used : List Nat} {ops : AList fun _ : Nat => Op}
    {maintenance : Bool} (hfits : settles → c.Fits m) (hdrained : c.drained m = [])
    (hreturned : c.returned = []) : Accounts m settles p { p with used, ops, maintenance } c := by
  refine ⟨h, fun y => ?_, fun hs hp => ⟨{ hp with }, hfits hs⟩⟩
  rw [hdrained, hreturned]
  rfl

theorem planWriter_accounts {children : I → List BlobGuid} {a : Action I} (h : p.Staged)
    (hplan : planWriter children m p a = some (p', c)) :
    Accounts m (Settles children ⟨m, p⟩ a) p p' c := by
  cases a with
  | load g =>
    cases hplan
    exact .writer h (fun _ => trivial) rfl rfl
  | evict g =>
    cases hplan
    exact .writer h (fun _ => trivial) rfl rfl
  | enter w kind seq =>
    obtain ⟨-, hplan⟩ := Option.ite_none_left_eq_some.mp hplan
    cases kind with
    | foreground =>
      obtain ⟨-, hplan⟩ := Option.ite_none_left_eq_some.mp hplan
      cases hplan
      exact .writer h (fun _ => trivial) rfl rfl
    | compaction =>
      cases hplan
      exact .writer h (fun _ => trivial) rfl rfl
    | merge =>
      obtain ⟨-, hplan⟩ := Option.ite_none_right_eq_some.mp hplan
      cases hplan
      exact .writer h (fun _ => trivial) rfl rfl
  | look w g | edit w g f | spill w g n f k =>
    obtain ⟨op, -, hplan⟩ := Option.bind_eq_some_iff.mp hplan
    obtain ⟨b, -, hplan⟩ := Option.bind_eq_some_iff.mp hplan
    obtain ⟨-, hplan⟩ := Option.ite_none_right_eq_some.mp hplan
    cases hplan
    exact .writer h (fun _ => trivial) rfl rfl
  | merge w g d f =>
    obtain ⟨op, -, hplan⟩ := Option.bind_eq_some_iff.mp hplan
    obtain ⟨b, -, hplan⟩ := Option.bind_eq_some_iff.mp hplan
    obtain ⟨bd, -, hplan⟩ := Option.bind_eq_some_iff.mp hplan
    obtain ⟨-, hplan⟩ := Option.ite_none_right_eq_some.mp hplan
    cases hplan
    exact .writer h id rfl rfl
  | mark w g =>
    obtain ⟨op, -, hplan⟩ := Option.bind_eq_some_iff.mp hplan
    obtain ⟨-, hplan⟩ := Option.ite_none_right_eq_some.mp hplan
    cases hplan
    exact .writer h (fun _ => trivial) rfl rfl
  | leave w =>
    obtain ⟨op, -, hplan⟩ := Option.bind_eq_some_iff.mp hplan
    obtain ⟨-, hplan⟩ := Option.ite_none_right_eq_some.mp hplan
    cases hplan
    refine .writer h (fun _ => ?_) ?_ ?_ <;> split <;> trivial
  | _ => cases hplan

theorem plan_cases {children : I → List BlobGuid} {m : Memory I} {a : Action I}
    (h : plan children m p a = some (p', c)) :
    planWriter children m p a = some (p', c) ∨ planSnapshot m p a = some (p', c) ∨
      planWorker children m p a = some (p', c) ∨ planManual m p a = some (p', c) := by
  simp only [plan, Option.orElse_eq_orElse, Option.orElse_eq_or, Option.or_eq_some_iff] at h
  tauto

theorem plan_accounts {children : I → List BlobGuid} {a : Action I} (h : p.Staged)
    (hplan : plan children m p a = some (p', c)) :
    Accounts m (Settles children ⟨m, p⟩ a) p p' c := by
  rcases plan_cases hplan with hplan | hplan | hplan | hplan
  · exact planWriter_accounts h hplan
  · exact (planSnapshot_accounts h hplan).toAccounts
  · exact (planWorker_accounts h hplan).toAccounts
  · exact (planManual_accounts h hplan).toAccounts

end

end Holt.Checkpoint
