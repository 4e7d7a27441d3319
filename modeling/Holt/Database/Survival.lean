import Holt.Database.Fencing

/-! A live tree stays in the catalog, and can be listed and opened, until it is dropped. -/

namespace Holt.Database

open Holt.Lib

/-! ## A live tree is listed and opened -/

theorem mapM_ok {α β ε : Type} {f : α → Except ε β} {as : List α}
    (h : ∀ a ∈ as, ∃ b, f a = .ok b) :
    ∃ bs, as.mapM f = .ok bs ∧ ∀ a ∈ as, ∀ b, f a = .ok b → b ∈ bs := by
  induction as with
  | nil => exact ⟨[], rfl, fun _ ha => by cases ha⟩
  | cons a as ih =>
    obtain ⟨b, hb⟩ := h a List.mem_cons_self
    obtain ⟨bs, hbs, hmem⟩ := ih fun a' ha' => h a' (List.mem_cons_of_mem a ha')
    refine ⟨b :: bs, ?_, fun a' ha' b' hb' => ?_⟩
    · rw [List.mapM_cons, hb, hbs]
      rfl
    · rcases List.mem_cons.mp ha' with rfl | ha'
      · cases hb.symm.trans hb'
        exact List.mem_cons_self
      · exact List.mem_cons_of_mem b (hmem a' ha' b' hb')

section Observed

variable {db : Db} {n : TreeName} {id : Nat}

theorem listTrees_sat (h : db.Inv) (live : db.entry n = some ⟨id, .live⟩) :
    Sat listTrees db (fun names _ => n ∈ names) fun _ _ => False := by
  have hread : ∀ record ∈ db.catalog.records.filter (·.1 ≠ catalogNextTreeIdKey),
      ∃ e, decodeRecord record = .ok e := by
    intro record hmem
    obtain ⟨hrecord, hkey⟩ := List.mem_filter.mp hmem
    obtain ⟨e, hd⟩ := h.sound.readable (db.catalog.get_of_mem hrecord) (by simpa using hkey)
    exact ⟨(record.1, e), by rw [decodeRecord, hd]; rfl⟩
  obtain ⟨found, hfound, hmem⟩ := mapM_ok hread
  obtain ⟨value, hget, hd⟩ := Catalog.get_of_entry live
  have hin : (n, ⟨id, .live⟩) ∈ found := by
    apply hmem (n, value)
    · exact List.mem_filter.mpr ⟨Catalog.mem_of_get _ hget, by simpa using h.sound.ne_next live⟩
    · rw [decodeRecord, hd]
      rfl
  unfold listTrees catalogEntries
  simp only [sat_map, sat_bind, sat_get, hfound, lift_ok, sat_pure, sat_modify]
  exact List.mem_map.mpr ⟨_, List.mem_filter.mpr ⟨hin, rfl⟩, rfl⟩

theorem Db.Finds.live (h : db.Inv) (live : db.entry n = some ⟨id, .live⟩)
    {o : Option CatalogEntry} {db' : Db} (ho : db.Finds n o db') :
    o = some ⟨id, .live⟩ ∧ db'.Inv ∧ db'.entry n = some ⟨id, .live⟩ := by
  cases ho with
  | hit hc =>
    obtain ⟨e', he', hold⟩ := h.cached hc
    cases live.symm.trans he'
    rw [hold.eq_live]
    exact ⟨rfl, h, live⟩
  | found he =>
    cases live.symm.trans he
    exact ⟨rfl, h.cacheInsert (.of_entry live), live⟩
  | absent he => cases live.symm.trans he

/-- Nothing stands in the way of opening a live tree: it is not fenced, not staged for deletion,
and has its root or gets one. -/
theorem openTree_sat (h : db.Inv) (live : db.entry n = some ⟨id, .live⟩) :
    Sat (openTree n) db
      (fun handle db' => handle.treeId = id ∧ db'.dropped handle.runtime = false)
      fun _ _ => False := by
  unfold openTree catalogLookupLive
  rw [h.sound.valid live]
  simp only [lift_ok, sat_bind, sat_pure]
  have hread : Sat (catalogEntry n) db (fun o db' => db.Finds n o db') fun _ _ => False := by
    unfold catalogEntry readCatalog
    obtain ⟨value, hget, hd⟩ := Catalog.get_of_entry live
    simp only [sat_bind, sat_get]
    cases hc : db.cache n with
    | some e =>
      simp only [sat_pure]
      exact .hit hc
    | none =>
      simp only [sat_bind, sat_get, hget, hd, lift_ok, sat_map, sat_pure, sat_modify]
      exact .found live
  apply hread.mono
  · intro o db₁ ho
    obtain ⟨rfl, hi, hlive⟩ := ho.live h live
    obtain ⟨hpending, htree⟩ := hi.live hlive
    simp only [sat_pure, sat_bind]
    unfold openTreeState treeFromState
    cases ht : db₁.trees id with
    | some rt =>
      obtain ⟨hdropped, hstored⟩ := htree ht
      simp [ht, hdropped, Db.hasBlob, hpending, hstored]
    | none =>
      simp only [sat_bind, sat_get, ht, sat_set, sat_pure, Db.insertOpenTree_eq]
      simp [Db.hasBlob, hpending]
  · exact fun _ _ hno => hno

end Observed

/-! ## Along a run -/

def Pc.settles : Pc → Bool
  | .drop _ | .finalize _ => true
  | _ => false

/-- Only the first `k` threads do anything, and when one of them drops a tree or takes trees out,
the others hold no entries. -/
def Within (k : Nat) (w : World) (a : Action) : Prop :=
  a.thread < k ∧ ((w.calls a.thread).settles = true →
    ∀ u < k, u ≠ a.thread → (w.calls u).readings = [])

instance (k : Nat) (w : World) (a : Action) : Decidable (Within k w a) :=
  inferInstanceAs (Decidable (_ ∧ _))

namespace World

variable {refuses : Catalog → TreeName → Option Error} {w w' : World} {t : Nat} {n : TreeName}

theorem calls_run {α : Type} {x : DbM α} {ok : α → World → World} {err : DbError → Pc} {u : Nat}
    (hu : u ≠ t) (hok : ∀ a v, (ok a v).calls u = v.calls u) :
    (w.run t x ok err).calls u = w.calls u := by
  apply run_sat (p := fun w' => w'.calls u = w.calls u) (sat_true _ _)
  · exact fun a db _ => hok a { w with db }
  · exact fun _ _ _ => Function.update_of_ne hu _ _

/-- A step leaves the calls of other threads where they are. -/
theorem calls_step {a : Action} (hs : w.step refuses a = some w') {u : Nat} (hu : u ≠ a.thread) :
    w'.calls u = w.calls u := by
  cases a with
  | begin t request =>
    obtain ⟨-, rfl⟩ := step_begin hs
    exact Function.update_of_ne hu _ _
  | move t =>
    have hgoto : ∀ (v : World) pc, (v.goto t pc).calls u = v.calls u :=
      fun v pc => Function.update_of_ne hu _ _
    change w.move refuses t = some w' at hs
    unfold World.move at hs
    split at hs <;> cases hs
    all_goals first
      | exact hgoto _ _
      | exact calls_run hu fun _ _ => hgoto _ _
  | fail t =>
    cases step_fail hs
    exact Function.update_of_ne hu _ _

theorem calls_play {allowed : World → Action → Prop} [∀ w a, Decidable (allowed w a)]
    {as : List Action} (h : play (World.step refuses) allowed as w = some w') {u : Nat}
    (hu : ∀ a ∈ as, u ≠ a.thread) : w'.calls u = w.calls u := by
  induction as generalizing w with
  | nil =>
    cases h
    rfl
  | cons a as ih =>
    rw [play] at h
    split at h
    · obtain ⟨v, hv, hrest⟩ := Option.bind_eq_some_iff.mp h
      rw [ih hrest fun b hb => hu b (List.mem_cons_of_mem a hb)]
      exact calls_step hv (hu a List.mem_cons_self)
    · cases h

/-- The threads that never do anything are in nobody's way. -/
theorem alone_of_within {allowed : World → Action → Prop} {k : Nat}
    (hidle : ∀ u, k ≤ u → w.calls u = .idle)
    (h : Run (World.step refuses) (fun w a => Within k w a ∧ allowed w a) w w') :
    Run (World.step refuses) (fun w a => (FinalizesAlone w a ∧ DropsAlone w a) ∧ allowed w a) w w' ∧
      ∀ u, k ≤ u → w'.calls u = .idle := by
  induction h with
  | start => exact ⟨.start, hidle⟩
  | @next v v' a before may took ih =>
    obtain ⟨hrun, hrest⟩ := ih
    obtain ⟨⟨hlt, halone⟩, hallowed⟩ := may
    have hnone : (v.calls a.thread).settles = true → ∀ u, u ≠ a.thread →
        (v.calls u).readings = [] := by
      intro hsettles u hu
      by_cases huk : u < k
      · exact halone hsettles u huk hu
      · rw [hrest u (Nat.le_of_not_lt huk)]
        rfl
    refine ⟨hrun.next ⟨⟨?_, ?_⟩, hallowed⟩ took, fun u hu => ?_⟩
    · rintro t chosen rfl hpc u hu n -
      rw [hnone (by rw [Action.thread, hpc]; rfl) u hu]
      exact List.not_mem_nil
    · rintro t n rfl hpc u e hc
      by_cases hu : u = t
      · rw [hu, hpc] at hc
        cases hc
      · have hread := hnone (by rw [Action.thread, hpc]; rfl) u hu
        rw [Pc.readings, hc] at hread
        cases hread
    · rw [calls_step took (by omega), hrest u hu]

/-- A call moves on, and not to a drop. -/
theorem Moves.calls (hm : w.Moves t w') :
    ∃ pc, w'.calls = Function.update w.calls t pc ∧ ∀ n, pc ≠ .drop n := by
  cases hm with
  | goes hf | fills _ hf | flushes hf => exact ⟨_, rfl, hf.undropping⟩
  | _ => exact ⟨_, rfl, nofun⟩

/-- The tree is live under this number, and nobody is about to drop it. -/
structure Alive (n : TreeName) (id : Nat) (w : World) : Prop where
  inv : w.Inv
  live : w.db.entry n = some ⟨id, .live⟩
  undisturbed : ∀ t, w.calls t ≠ .drop n

theorem Alive.goto {id : Nat} (h : Alive n id w) {pc : Pc} (hi : (w.goto t pc).Inv)
    (hpc : pc ≠ .drop n) : Alive n id (w.goto t pc) := by
  refine ⟨hi, h.live, fun u => ?_⟩
  simp only [World.goto, Function.update_apply]
  split
  · exact hpc
  · exact h.undisturbed u

theorem named_ne_drop {name : TreeName} {pc : Pc} (h : pc ≠ .drop n) :
    named name pc ≠ .drop n := by
  unfold named
  split
  · exact h
  · nofun

theorem Alive.step {id : Nat} {a : Action} (h : Alive n id w) (halone : FinalizesAlone w a)
    (hno : a ≠ .begin a.thread (.dropTree n)) (hs : w.step refuses a = some w') :
    Alive n id w' := by
  have hi := h.inv.step halone hs
  cases a with
  | begin t request =>
    obtain ⟨-, rfl⟩ := step_begin hs
    apply h.goto hi
    cases request with
    | dropTree name =>
      apply named_ne_drop
      intro heq
      cases heq
      exact hno rfl
    | listTrees => nofun
    | checkpoint => nofun
    | _ => exact named_ne_drop nofun
  | fail t =>
    cases step_fail hs
    exact h.goto hi nofun
  | move t =>
    have hm := moves_of_move h.inv hs
    refine ⟨hi, ?_, fun u => ?_⟩
    · refine (entry_moves h.inv hm ?_).trans h.live
      -- The entry is there, so it is not created, and it is live, so it is not taken out.
      rintro (hdrop | ⟨orOpen, -, hnone⟩ | ⟨chosen, hfinal, hin⟩)
      · exact h.undisturbed t hdrop
      · cases hnone.symm.trans h.live
      · obtain ⟨⟨name, e⟩, hmem, rfl⟩ := List.mem_map.mp hin
        cases (h.inv.chosen hfinal hmem).symm.trans h.live
    · obtain ⟨pc, hcalls, hpc⟩ := hm.calls
      rw [hcalls, Function.update_apply]
      split
      · exact hpc n
      · exact h.undisturbed u

end World

/-- No call of `drop_tree(n)` begins. -/
def NotDropped (n : TreeName) (_ : World) (a : Action) : Prop :=
  a ≠ .begin a.thread (.dropTree n)

instance (n : TreeName) (w : World) (a : Action) : Decidable (NotDropped n w a) :=
  inferInstanceAs (Decidable (_ ≠ _))

/-- As long as a checkpoint takes trees out of the catalog only while no other call holds an entry
of one of them, a live tree can be listed and opened until a drop of it begins. -/
theorem live_tree_survives {refuses : Catalog → TreeName → Option Error} {c : Catalog}
    (hc : c.Sound) (stored : Nat → Bool) {w w' : World} {n : TreeName} {id : Nat}
    (reached : Run (World.step refuses) FinalizesAlone (.opened c stored) w)
    (live : w.db.entry n = some ⟨id, .live⟩) (undisturbed : ∀ t, w.calls t ≠ .drop n)
    (later : Run (World.step refuses) (fun w a => FinalizesAlone w a ∧ NotDropped n w a) w w') :
    (∃ names db', listTrees w'.db = .ok names db' ∧ n ∈ names) ∧
      ∃ handle db', openTree n w'.db = .ok handle db' ∧ handle.treeId = id ∧
        db'.dropped handle.runtime = false := by
  have hinv : w.Inv :=
    reached.invariant (.opened hc stored) fun hi halone hs => hi.step halone hs
  have halive : World.Alive n id w' :=
    later.invariant ⟨hinv, live, undisturbed⟩ fun h may hs => h.step may.1 may.2 hs
  exact ⟨(listTrees_sat halive.inv.db halive.live).returns,
    (openTree_sat halive.inv.db halive.live).returns⟩

/-- A catalog tree that takes every name. -/
def accepting : Catalog → TreeName → Option Error := fun _ _ => none

def Freely (_ : World) (_ : Action) : Prop := True

instance (w : World) (a : Action) : Decidable (Freely w a) := .isTrue trivial

/-- The empty database. -/
def World.fresh : World := .opened .empty fun _ => false

/-- A tree is created, dropped, taken out by a checkpoint and created again; the next checkpoint
comes to look for trees to take out. -/
theorem live_tree_survives_one_thread : ∃ w w' : World,
    w.db.entry [116] = some ⟨2, .live⟩ ∧ w'.calls 0 = .scan .finalize none [] ∧
    (∃ names db', listTrees w'.db = .ok names db' ∧ [116] ∈ names) ∧
      ∃ handle db', openTree [116] w'.db = .ok handle db' ∧ handle.treeId = 2 ∧
        db'.dropped handle.runtime = false := by
  have hplay : (play (World.step accepting) (fun w a => Within 1 w a ∧ Freely w a)
      ([.begin 0 (.createTree [116]), .move 0, .begin 0 (.dropTree [116]), .move 0,
        .begin 0 .checkpoint] ++ List.replicate 16 (.move 0) ++
        [.begin 0 (.createTree [116]), .move 0]) .fresh).any (fun w =>
      decide (w.db.entry [116] = some ⟨2, .live⟩ ∧ w.calls 0 = .idle) &&
      (play (World.step accepting) (fun w a => Within 1 w a ∧ NotDropped [116] w a)
        ([.begin 0 .checkpoint] ++ List.replicate 7 (.move 0)) w).any fun w' =>
          decide (w'.calls 0 = .scan .finalize none [])) = true := by
    decide +kernel
  obtain ⟨w, hw, hfacts⟩ := (Option.any_eq_true _ _).mp hplay
  obtain ⟨hcreated, hlater⟩ := Bool.and_eq_true_iff.mp hfacts
  obtain ⟨hlive, hidle⟩ := of_decide_eq_true hcreated
  obtain ⟨w', hw', hscan⟩ := (Option.any_eq_true _ _).mp hlater
  obtain ⟨hrun, hothers⟩ := World.alone_of_within (fun _ _ => rfl) (run_of_play hw)
  have hrun' := (World.alone_of_within hothers (run_of_play hw')).1
  have hundisturbed : ∀ t, w.calls t ≠ .drop [116] := by
    intro t
    by_cases ht : t = 0
    · rw [ht, hidle]
      nofun
    · rw [hothers t (Nat.pos_of_ne_zero ht)]
      nofun
  exact ⟨w, w', hlive, of_decide_eq_true hscan, live_tree_survives Catalog.empty_sound _
    (hrun.mono fun _ _ may => may.1.1) hlive hundisturbed
    (hrun'.mono fun _ _ may => ⟨may.1.1, may.2⟩)⟩

/-- Two checkpoints both choose a dropped tree. The first takes it out, the name is created again,
and the second takes the new tree out. -/
def overlappingCheckpoints : List Action :=
  [.begin 0 (.createTree [116]), .move 0, .begin 0 (.dropTree [116]), .move 0,
    .begin 0 .checkpoint, .begin 1 .checkpoint] ++
  List.replicate 14 (.move 0) ++ List.replicate 14 (.move 1) ++
  [.move 0, .move 0, .begin 0 (.createTree [116]), .move 0]

theorem second_finalize_removes_live_tree : ∃ w w' : World,
    Run (World.step accepting) Freely .fresh w ∧ w.db.entry [116] = some ⟨2, .live⟩ ∧
    (∀ t, w.calls t ≠ .drop [116]) ∧ Run (World.step accepting) (NotDropped [116]) w w' ∧
    (∃ db', listTrees w'.db = .ok [] db') ∧
      ∃ db', openTree [116] w'.db = .error (.treeNotFound [116]) db' := by
  have hplay : (play (World.step accepting) Freely overlappingCheckpoints .fresh).any (fun w =>
      decide (w.db.entry [116] = some ⟨2, .live⟩ ∧ w.calls 0 ≠ .drop [116] ∧
        w.calls 1 ≠ .drop [116]) && (w.step accepting (.move 1)).any fun w' =>
          returns listTrees w'.db (fun names _ => decide (names = [])) &&
          fails (openTree [116]) w'.db fun err _ => decide (err = .treeNotFound [116])) = true := by
    decide +kernel
  obtain ⟨w, hw, hfacts⟩ := (Option.any_eq_true _ _).mp hplay
  obtain ⟨hbefore, hafter⟩ := Bool.and_eq_true_iff.mp hfacts
  obtain ⟨hlive, h0, h1⟩ := of_decide_eq_true hbefore
  obtain ⟨w', hw', hgone⟩ := (Option.any_eq_true _ _).mp hafter
  obtain ⟨hlist, hopen⟩ := Bool.and_eq_true_iff.mp hgone
  obtain ⟨names, db₁, hnames, hempty⟩ := returns_iff.mp hlist
  obtain ⟨err, db₂, herr, hnotFound⟩ := fails_iff.mp hopen
  refine ⟨w, w', run_of_play hw, hlive, fun t => ?_, Run.start.next (a := .move 1) nofun hw', ?_,
    ?_⟩
  · by_cases ht : t = 0
    · exact ht ▸ h0
    · by_cases ht' : t = 1
      · exact ht' ▸ h1
      · have hthreads : ∀ a ∈ overlappingCheckpoints, a.thread = 0 ∨ a.thread = 1 := by decide
        have hidle : w.calls t = World.fresh.calls t := by
          apply World.calls_play hw
          intro a ha heq
          rcases hthreads a ha with h | h
          · exact ht (heq.trans h)
          · exact ht' (heq.trans h)
        rw [hidle]
        nofun
  · exact ⟨db₁, of_decide_eq_true hempty ▸ hnames⟩
  · exact ⟨db₂, of_decide_eq_true hnotFound ▸ herr⟩

end Holt.Database
