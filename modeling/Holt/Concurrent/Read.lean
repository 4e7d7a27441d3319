import Holt.Tree.Calls
import Holt.Walker.Latch

/-! One reader among writers. A writer's latched section is one step; the reader takes a
version, walks, compares the version, and only then copies the value out of the blob. -/

namespace Holt

open Holt.Lib

/-! ## Writers -/

/-- What a writer does to the blob it comes to. Maintenance goes down `hops` blobs first. -/
inductive Task
  | insert (value : List UInt8) (seq : Nat) (condition : InsertCondition)
  | erase (seq : Nat) (condition : EraseCondition)
  | compact (hops : Nat)
  | spillover (seq : Nat) (hops : Nat)

/-- A writer between two sections: the next blob is pinned and not latched yet. -/
structure Writer where
  task : Task
  key : List UInt8
  guid : BlobGuid
  depth : Nat

/-- The size checks before the descent. -/
def Task.fits (key : List UInt8) : Task → Bool
  | .insert value _ _ => key.length + 1 < 2 ^ 16 ∧ value.length < 2 ^ 16
  | _ => true

/-- Go on to the blob the key crosses to. -/
def Writer.descend (w : Writer) (task : Task) : WalkM (Option Writer) := do
  let b ← pinned w.guid
  match ← lift (lookupAt b.image b.image.rootSlot (.user w.key) w.depth) with
  | .crossing guid depth =>
    pin guid
    pure (some ⟨task, w.key, guid, depth⟩)
  | _ => pure none

/-- What a writer does while it holds the latch. -/
def Writer.held {root : BlobGuid} (supply : GuidSupply root) (w : Writer) :
    WalkM (Option Writer) :=
  match w.task with
  | .insert value seq condition => do
    let r ← insertHeld supply (.user w.key) value seq condition w.guid w.depth
    match r.1 with
    | .crossing guid depth => pure (some { w with guid, depth })
    | .done _ => pure none
  | .erase _ condition => do
    let step ← eraseHeld (.user w.key) condition w.guid w.depth
    match step with
    | .crossing guid depth => pure (some { w with guid, depth })
    | .done _ => pure none
  | .compact 0 => do
    compactHeld w.guid
    pure none
  | .compact (hops + 1) => w.descend (.compact hops)
  | .spillover seq 0 => do
    makeRoom supply w.guid seq
    pure none
  | .spillover seq (hops + 1) => w.descend (.spillover seq hops)

/-! ## Sections that lose keys -/

/-- A spillover gives its victim up before it has a place for the blob node. With a victim, a copy
of it and no such place it fails, and the victim is gone. -/
def spilloverStrands {root : BlobGuid} (supply : GuidSupply root) (guid : BlobGuid) (seq : Nat)
    (e : Engine) : Bool :=
  match e.bm.view guid, spilloverBlob supply guid seq e with
  | some b, .error _ _ =>
    match pickVictimSubtree b.image b.image.rootSlot with
    | .ok victim => (makeBlobFromNode b.image victim.victimSlot (supply.guid e.drawn)).isOk
    | .error _ => false
  | _, _ => false

/-- The same of the spillovers that an insertion comes to. -/
def insertStrands {root : BlobGuid} (supply : GuidSupply root) (key : SearchKey)
    (value : List UInt8) (seq : Nat) (condition : InsertCondition) (guid : BlobGuid)
    (depth : Nat) : Nat → Engine → Bool
  | 0, _ => false
  | attempts + 1, e =>
    match runFrame guid (insertInFrame key value seq condition depth) e with
    | .ok (.error (.alloc (.outOfSpace _ _))) e =>
      spilloverStrands supply guid seq e ||
        match makeRoom supply guid seq e with
        | .ok _ e => insertStrands supply key value seq condition guid depth attempts e
        | .error _ _ => false
    | _ => false

def Writer.strands {root : BlobGuid} (supply : GuidSupply root) (w : Writer) (e : Engine) : Bool :=
  match w.task with
  | .insert value seq condition => insertStrands supply (.user w.key) value seq condition w.guid
      w.depth maxSpilloverAttempts e
  | .spillover seq 0 => spilloverStrands supply w.guid seq e
  | _ => false

/-! ## The reader -/

/-- Where a `get_record` is. -/
inductive Reader
  | idle
  | begun
  | arrived (guid : BlobGuid) (depth : Nat)
  | snapped (guid : BlobGuid) (depth version : Nat)
  | walked (guid : BlobGuid) (depth version : Nat) (result : Except Error LookupResult)
  | crossing (guid : BlobGuid) (depth : Nat) (childGuid : BlobGuid) (childDepth : Nat)
  | validated (guid : BlobGuid) (hit : LookupHit)
  | done (answer : Option (List UInt8 × Nat))
  | failed (err : Error)

/-- The call has started and has not returned. -/
def Reader.active : Reader → Bool
  | .idle | .done _ | .failed _ => false
  | _ => true

def Reader.answer : Reader → Option (Option (List UInt8 × Nat))
  | .done answer => some answer
  | _ => none

theorem Reader.answer_eq_some {r : Reader} {a : Option (List UInt8 × Nat)} :
    r.answer = some a ↔ r = .done a := by
  cases r <;> simp [Reader.answer]

def Reader.next (root : BlobGuid) (key : List UInt8) : Reader → WalkM Reader
  | .begun => do
    let route ← followRoute root (.user key)
    pure (.arrived (startOf root route).1 (startOf root route).2)
  | .arrived guid depth => do
    let b ← pinned guid
    pure (.snapped guid depth b.version)
  | .snapped guid depth version => do
    let b ← pinned guid
    pure (.walked guid depth version (lookupAt b.image b.image.rootSlot (.user key) depth))
  | .walked guid depth version result => do
    let b ← pinned guid
    if b.version ≠ version then pure .begun
    else
      match ← lift result with
      | .found hit => pure (.validated guid hit)
      | .notFound => pure (.done none)
      | .crossing childGuid childDepth => pure (.crossing guid depth childGuid childDepth)
  | .crossing guid depth childGuid childDepth => do
    match ← pinValidatedChild (.user key) guid depth childGuid childDepth with
    | none => pure .begun
    | some (childGuid, childDepth) => pure (.arrived childGuid childDepth)
  | .validated guid hit => do
    let b ← pinned guid
    pure (.done (some (readRecord b.image hit)))
  | r => pure r

/-! ## Both together -/

structure World where
  engine : Engine
  writers : List Writer
  reader : Reader

inductive Action
  | spawn (task : Task) (key : List UInt8)
  | work (i : Nat)
  | start
  | read

/-- One step of somebody. A section that fails ends the writer's call. -/
def World.step {root : BlobGuid} (supply : GuidSupply root) (key : List UInt8) (w : World) :
    Action → Option World
  | .spawn task k =>
    if task.fits k then
      match writeStart root (.user k) w.engine with
      | .ok s engine =>
        some { w with engine, writers := w.writers ++ [⟨task, k, s.1, s.2.2.1⟩] }
      | .error _ engine => some { w with engine }
    else none
  | .work i =>
    match w.writers[i]? with
    | none => none
    | some wr =>
      match exclusive wr.guid (wr.held supply) w.engine with
      | .ok next engine => some { w with engine, writers := w.writers.eraseIdx i ++ next.toList }
      | .error _ engine => some { w with engine, writers := w.writers.eraseIdx i }
  | .start =>
    match w.reader with
    | .idle => some { w with reader := .begun }
    | _ => none
  | .read =>
    if w.reader.active then
      match w.reader.next root key w.engine with
      | .ok reader engine => some { w with engine, reader }
      | .error err engine => some { w with engine, reader := .failed err }
    else none

def World.run {root : BlobGuid} (supply : GuidSupply root) (key : List UInt8) (w : World) :
    List Action → Option World
  | [] => some w
  | a :: as => (w.step supply key a).bind fun w' => w'.run supply key as

/-- Nobody works on the blob whose value the reader is about to copy, and no section loses keys. -/
def World.calm {root : BlobGuid} (supply : GuidSupply root) (w : World) : Action → Bool
  | .work i =>
    match w.writers[i]? with
    | none => true
    | some wr => !wr.strands supply w.engine &&
        match w.reader with
        | .validated guid _ => wr.guid ≠ guid
        | _ => true
  | _ => true

/-- Every step of the run is calm. -/
def World.calmRun {root : BlobGuid} (supply : GuidSupply root) (key : List UInt8) (w : World) :
    List Action → Bool
  | [] => true
  | a :: as =>
    w.calm supply a && match w.step supply key a with
      | some w' => w'.calmRun supply key as
      | none => true

/-- The record a key has at one instant: what an undisturbed lookup finds. -/
def World.record (root : BlobGuid) (key : List UInt8) (w : World) :
    Option (Option (List UInt8 × Nat)) :=
  match lookupMultiWith root readRecord (.user key) 1 w.engine with
  | .ok r _ => some r
  | .error _ _ => none

/-- At some instant of the run, after the call's start and before its return, the key had the
record `r`. -/
def World.Had {root : BlobGuid} (supply : GuidSupply root) (key : List UInt8) (w : World)
    (as : List Action) (r : Option (List UInt8 × Nat)) : Prop :=
  ∃ n ≤ as.length, (w.run supply key (as.take n)).any
    (fun w' => w'.reader.active && decide (w'.record root key = some r)) = true

instance {root : BlobGuid} (supply : GuidSupply root) (key : List UInt8) (w : World)
    (as : List Action) (r : Option (List UInt8 × Nat)) : Decidable (w.Had supply key as r) :=
  inferInstanceAs (Decidable (∃ n ≤ as.length, _))

/-- A tree that was just opened, with nobody at work. -/
def World.opened (root : BlobGuid) (journalled flush : Bool) : Option World :=
  match openTree root journalled flush with
  | .ok T => some ⟨T.engine, [], .idle⟩
  | .error _ => none

/-! ## What every calm run keeps -/

section Invariant

variable {root : BlobGuid} {supply : GuidSupply root} {e e' : Engine} {fo fo' : Forest}
  {g : BlobGuid} {key : List UInt8}

def Writer.On (fo : Forest) (w : Writer) : Prop :=
  w.task.fits w.key = true ∧ fo.Passes (w.key ++ [0]) w.guid w.depth

/-- The reader stands at a blob its key comes by. A walk is worth something as long as the
version has not moved; a validated hit is worth something as it is. -/
def Reader.On (key : List UInt8) (fo : Forest) (e : Engine) : Reader → Prop
  | .idle | .begun | .done _ => True
  | .failed _ => False
  | .arrived g d => fo.Passes (key ++ [0]) g d
  | .snapped g d v => fo.Passes (key ++ [0]) g d ∧
      ∀ b, e.bm.view g = some b → v ≤ b.version
  | .walked g d v res => fo.Passes (key ++ [0]) g d ∧
      ∀ b, e.bm.view g = some b → v ≤ b.version ∧
        (b.version = v → res = lookupAt b.image b.image.rootSlot (.user key) d)
  | .crossing g d _ _ => fo.Passes (key ++ [0]) g d
  | .validated g hit => ∃ d, fo.Passes (key ++ [0]) g d ∧
      ∀ b, e.bm.view g = some b →
        lookupAt b.image b.image.rootSlot (.user key) d = .ok (.found hit)

structure World.Inv (supply : GuidSupply root) (key : List UInt8) (w : World) (fo : Forest) :
    Prop where
  engine : w.engine.Inv supply fo
  writers : ∀ wr ∈ w.writers, wr.On fo
  reader : w.reader.On key fo w.engine

theorem Writer.On.mono {w : Writer} (h : w.On fo) (hx : fo.Extends fo') : w.On fo' :=
  ⟨h.1, h.2.mono hx⟩

theorem Engine.Inv.named {p : Plot} (h : e.Inv supply fo) (hp : fo g = some p) :
    ∀ i, e.drawn ≤ i → g ≠ supply.guid i := by
  intro i hi
  rcases h.names hp with rfl | ⟨j, hj, rfl⟩
  · exact (supply.ne_root i).symm
  · intro hji
    have := supply.injective hji
    omega

/-- A section latched on `l`, and what it leaves of the reader's knowledge. -/
theorem Reader.On.latched {r : Reader} {l : BlobGuid} (h : e.Inv supply fo) (hr : r.On key fo e)
    (hx : fo.Extends fo') (hl : e.Latched supply l e')
    (hcalm : ∀ g hit, r = .validated g hit → l ≠ g) : r.On key fo' e' := by
  have hcase : ∀ {g d}, fo.Passes (key ++ [0]) g d → ∃ b, e.bm.view g = some b ∧
      ((g ≠ l ∧ e'.bm.view g = some b) ∨
        ∃ b', e'.bm.view g = some b' ∧ b.version < b'.version) := by
    rintro g d ⟨p, hp, -⟩
    obtain ⟨b, hb, -⟩ := h.blob hp
    by_cases hgl : g = l
    · subst hgl
      exact ⟨b, hb, .inr (hl.self (h.named hp) hb)⟩
    · exact ⟨b, hb, .inl ⟨hgl, hl.other hgl (h.named hp) hb⟩⟩
  cases r with
  | idle => trivial
  | begun => trivial
  | done answer => trivial
  | failed err => exact hr
  | arrived g d => exact hr.mono hx
  | crossing g d g' d' => exact hr.mono hx
  | snapped g d v =>
    obtain ⟨hp, hv⟩ := hr
    refine ⟨hp.mono hx, fun b' hb' => ?_⟩
    obtain ⟨b, hb, ⟨-, hsame⟩ | ⟨b₁, hb₁, hlt⟩⟩ := hcase hp
    · cases hsame.symm.trans hb'
      exact hv _ hb
    · cases hb₁.symm.trans hb'
      exact (hv b hb).trans hlt.le
  | walked g d v res =>
    obtain ⟨hp, hv⟩ := hr
    refine ⟨hp.mono hx, fun b' hb' => ?_⟩
    obtain ⟨b, hb, ⟨-, hsame⟩ | ⟨b₁, hb₁, hlt⟩⟩ := hcase hp
    · cases hsame.symm.trans hb'
      exact hv _ hb
    · cases hb₁.symm.trans hb'
      have := (hv b hb).1
      exact ⟨by omega, fun heq => by omega⟩
  | validated g hit =>
    obtain ⟨d, hp, hv⟩ := hr
    refine ⟨d, hp.mono hx, fun b' hb' => ?_⟩
    obtain ⟨p, hfo, -⟩ := hp
    obtain ⟨b, hb, -⟩ := h.blob hfo
    have hsame := hl.other (hcalm g hit rfl).symm (h.named hfo) hb
    cases hsame.symm.trans hb'
    exact hv _ hb

/-- The steps that change no blob. -/
theorem Reader.On.spared {r : Reader} (h : e.Inv supply fo) (hr : r.On key fo e)
    (hs : e.Spares supply ∅ e') : r.On key fo e' := by
  have hcase : ∀ {g d}, fo.Passes (key ++ [0]) g d → ∀ b', e'.bm.view g = some b' →
      e.bm.view g = some b' := by
    rintro g d ⟨p, hp, -⟩ b' hb'
    obtain ⟨b, hb, -⟩ := h.blob hp
    obtain ⟨b₁, hb₁, -, hsame⟩ := hs.blob (h.named hp) hb
    rw [hsame (Set.notMem_empty g)] at hb₁
    cases hb₁.symm.trans hb'
    exact hb
  cases r with
  | idle => trivial
  | begun => trivial
  | done answer => trivial
  | failed err => exact hr
  | arrived g d => exact hr
  | crossing g d g' d' => exact hr
  | snapped g d v => exact ⟨hr.1, fun b' hb' => hr.2 b' (hcase hr.1 b' hb')⟩
  | walked g d v res => exact ⟨hr.1, fun b' hb' => hr.2 b' (hcase hr.1 b' hb')⟩
  | validated g hit =>
    obtain ⟨d, hp, hv⟩ := hr
    exact ⟨d, hp, fun b' hb' => hv b' (hcase hp b' hb')⟩

/-! ## A writer's section -/

theorem Writer.descend_within (w : Writer) (task : Task) :
    Within supply {w.guid} (w.descend task) := by
  have hs : Sectional supply {w.guid} (Engine.Spares supply {w.guid}) := Engine.Spares.sectional
  apply hs.bind hs.pinned
  intro b
  apply hs.bind (hs.lift _)
  intro res
  split
  · exact hs.bind hs.pin fun _ => hs.pure _
  · exact hs.pure _

theorem Writer.held_within (w : Writer) : Within supply {w.guid} (w.held supply) := by
  have hs : Sectional supply {w.guid} (Engine.Spares supply {w.guid}) := Engine.Spares.sectional
  unfold held
  split
  · apply hs.bind (hs.insertHeld _ _ _ _ _)
    intro r
    split <;> exact hs.pure _
  · apply hs.bind (hs.eraseHeld _ _ _)
    intro step
    split <;> exact hs.pure _
  · exact hs.bind hs.compactHeld fun _ => hs.pure _
  · exact w.descend_within _
  · exact hs.bind (hs.makeRoom _) fun _ => hs.pure _
  · exact w.descend_within _

theorem Writer.descend_sat {w : Writer} {task : Task} (h : e.Inv supply fo)
    (hp : fo.Passes (w.key ++ [0]) w.guid w.depth) (ht : task.fits w.key = true) :
    Sat (w.descend task) e
      (fun next e' => e'.Inv supply fo ∧ ∀ w' ∈ next, w'.On fo) (fun _ _ => False) := by
  obtain ⟨p, hfo, hk, hd⟩ := hp
  have hk' : p.path <+: (SearchKey.user w.key).full := hk
  unfold descend
  refine (pinned_sat h hfo).andThen fun b e' hb => ?_
  obtain ⟨rfl, -, hh, -⟩ := hb
  rw [← hd]
  rcases h.hop hfo hk' hh with ⟨g', d, t, hlook, -, hg', -, hle⟩ | ⟨res, hres, -, hans⟩
  · simp only [hlook, lift_ok, sat_bind, sat_pure]
    refine (pin_sat h hg').imp fun _ e₁ h₁ => ?_
    refine ⟨h₁.1, fun w' hw' => ?_⟩
    cases hw'
    exact ⟨ht, Forest.passes_take hg' hle⟩
  · simp only [hres, lift_ok, sat_bind, sat_pure]
    split
    · split at hans
      · obtain ⟨hit, hcross, -⟩ := hans
        cases hcross
      · cases hans
    · exact .pure ⟨h, fun w' hw' => by cases hw'⟩

theorem spilloverBlob_fails {p : Plot} {seq : Nat} (h : e.Inv supply fo) (hp : fo g = some p)
    (hsafe : spilloverStrands supply g seq e = false) :
    Sat (spilloverBlob supply g seq) e (fun _ _ => True) (fun _ e' => e'.Inv supply fo) := by
  obtain ⟨b, hb, ⟨fp, hr, ha⟩, -⟩ := h.blob hp
  refine (sat_self _ e).mono (fun _ _ _ => trivial) fun err e' hfail => ?_
  have hno : ∀ v rel sub plug copy,
      ¬Spills b.image p.tree (supply.guid e.drawn) v rel sub plug copy := by
    intro v rel sub plug copy hsp
    simp only [spilloverStrands, hb, hfail, hsp.picked, hsp.copied] at hsafe
    cases hsafe
  obtain ⟨-, rfl | rfl⟩ := (spilloverBlob_stops hb hr ha (h.wf.tree hp) hno seq).of_error hfail
  · exact h
  · exact h.draw

theorem makeRoom_fails {p : Plot} {seq : Nat} (h : e.Inv supply fo) (hp : fo g = some p)
    (hsafe : spilloverStrands supply g seq e = false) :
    Sat (makeRoom supply g seq) e (fun _ _ => True)
      (fun _ e' => ∃ fo', e'.Inv supply fo' ∧ fo.Extends fo') := by
  unfold makeRoom
  refine ((spilloverBlob_sat h hp seq).and (spilloverBlob_fails h hp hsafe)).bind ?_
    fun _ e₁ he => ⟨fo, he.2, .refl fo⟩
  rintro _ e₁ ⟨⟨fo₁, t₁, hinv, hext, -, hp₁⟩, -⟩
  simp only [onManager, sat_bind, sat_modify]
  exact (compactHeld_sat (hinv.noteMerge g) hp₁).mono (fun _ _ _ => trivial)
    fun _ _ he => ⟨fo₁, he.2, hext⟩

section Insert

variable {p : Plot} {k : SearchKey} {value : List UInt8} {seq : Nat} {condition : InsertCondition}
  (hlen : k.len < 2 ^ 16) (hval : value.length < 2 ^ 16)

include hlen hval

/-- An insertion that fails leaves every key where it was, however often room was made for it. -/
theorem attemptInsert_fails {attempts : Nat} {dirty : Bool} (h : e.Inv supply fo)
    (hp : fo g = some p) (hk : p.path <+: k.full)
    (hsafe : insertStrands supply k value seq condition g p.path.length attempts e = false) :
    Sat (attemptInsert supply k value seq condition g p.path.length attempts dirty) e
      (fun _ _ => True) (fun _ e' => ∃ fo', e'.Inv supply fo' ∧ fo.Extends fo') := by
  induction attempts generalizing e fo p dirty with
  | zero => exact .throw ⟨fo, h, .refl fo⟩
  | succ n ih =>
    obtain ⟨b, hb, hh, hguid⟩ := h.blob hp
    have htry : Sat (runFrame g (insertInFrame k value seq condition p.path.length)) e _
        fun _ _ => False := runFrame_sat hb (insertInFrame_sat hh (h.wf.tree hp) hk hlen hval)
    unfold attemptInsert
    refine (htry.and (sat_self _ e)).bind ?_ fun _ _ he => he.1.elim
    rintro r e₁ ⟨⟨F, rfl, hF⟩, hrun⟩
    simp only [insertStrands, hrun] at hsafe
    split
    · exact .pure trivial
    · obtain ⟨hFt, hFg, -⟩ := hF
      have hinv := h.replant hp hFt (hFg.trans hguid)
      simp only [Bool.or_eq_false_iff] at hsafe
      have hroom := ((makeRoom_sat hinv hp seq).and (makeRoom_fails hinv hp hsafe.1)).and
        (sat_self _ _)
      refine hroom.bind ?_ fun _ _ he => he.1.2
      rintro _ e₂ ⟨⟨⟨fo₂, t₂, hinv₂, hext, -, hp₂⟩, -⟩, hmade⟩
      simp only [hmade] at hsafe
      refine (ih hinv₂ hp₂ hk hsafe.2).mono (fun _ _ _ => trivial) ?_
      rintro _ e₃ ⟨fo₃, hinv₃, hext₃⟩
      exact ⟨fo₃, hinv₃, hext.trans hext₃⟩
    · exact .throw ⟨fo, h.replant hp hF.1 (hF.2.1.trans hguid), .refl fo⟩

theorem insertHeld_fails (h : e.Inv supply fo) (hp : fo g = some p) (hk : p.path <+: k.full)
    (hsafe : insertStrands supply k value seq condition g p.path.length maxSpilloverAttempts e =
      false) :
    Sat (insertHeld supply k value seq condition g p.path.length) e
      (fun _ _ => True) (fun _ e' => ∃ fo', e'.Inv supply fo' ∧ fo.Extends fo') := by
  unfold insertHeld
  refine ((attemptInsert_sat hlen hval h hp hk).and
    (attemptInsert_fails hlen hval h hp hk hsafe)).bind ?_ fun _ _ he => he.2
  rintro ⟨step, dirty⟩ e₁ ⟨⟨fo₁, hinv, -, hr⟩, -⟩
  cases step with
  | done out => exact .pure trivial
  | crossing g' d =>
    obtain ⟨-, ⟨t', hg'⟩, -⟩ := hr
    exact (pin_sat hinv hg').bind (fun _ _ _ => .pure trivial) fun _ _ he => he

end Insert

/-- A section leaves a forest in which every blob is where it was, whether it fails or not, and its
writer, if there is more to do, at a blob its key comes by. -/
theorem Writer.held_sat {w : Writer} (h : e.Inv supply fo) (hw : w.On fo)
    (hsafe : w.strands supply e = false) :
    Sat (w.held supply) e
      (fun next e' => ∃ fo', e'.Inv supply fo' ∧ fo.Extends fo' ∧ ∀ w' ∈ next, w'.On fo')
      (fun _ e' => ∃ fo', e'.Inv supply fo' ∧ fo.Extends fo') := by
  obtain ⟨task, k, g, n⟩ := w
  obtain ⟨hfits, hpass⟩ := hw
  obtain ⟨p, hp, hk, rfl⟩ := id hpass
  have hk' : p.path <+: (SearchKey.user k).full := hk
  have hgo : ∀ {task'}, Task.fits k task' = true →
      Sat (Writer.descend ⟨task, k, g, p.path.length⟩ task') e
        (fun next e' => ∃ fo', e'.Inv supply fo' ∧ fo.Extends fo' ∧ ∀ w' ∈ next, w'.On fo')
        (fun _ e' => ∃ fo', e'.Inv supply fo' ∧ fo.Extends fo') := by
    intro task' ht
    apply (Writer.descend_sat (w := ⟨task, k, g, p.path.length⟩) h hpass ht).mono
    · intro next e' hn
      exact ⟨fo, hn.1, .refl fo, hn.2⟩
    · intro _ _ hn
      exact hn.elim
  unfold held
  cases task with
  | insert value seq condition =>
    simp only [Task.fits, decide_eq_true_eq] at hfits
    have hlen : (SearchKey.user k).len < 2 ^ 16 := hfits.1
    have hheld := insertHeld_fails hlen hfits.2 h hp hk' hsafe
    refine ((insertHeld_sat hlen hfits.2 h hp hk').and hheld).bind (fun r e₁ h₁ => ?_)
      fun _ _ he => he.2
    obtain ⟨⟨fo₁, hinv, hext, hr⟩, -⟩ := h₁
    cases hstep : r.1 with
    | done out => exact .pure ⟨fo₁, hinv, hext, fun w' hw' => by cases hw'⟩
    | crossing g' d =>
      rw [hstep] at hr
      obtain ⟨-, ⟨t, hg'⟩, -, hle⟩ := hr
      refine .pure ⟨fo₁, hinv, hext, fun w' hw' => ?_⟩
      cases hw'
      exact ⟨decide_eq_true hfits, Forest.passes_take hg' hle⟩
  | erase seq condition =>
    refine (eraseHeld_sat h hp hk').bind (fun step e₁ h₁ => ?_) fun _ _ he => he.elim
    obtain ⟨fo₁, hinv, hext, hr⟩ := h₁
    cases step with
    | done out => exact .pure ⟨fo₁, hinv, hext, fun w' hw' => by cases hw'⟩
    | crossing g' d =>
      obtain ⟨rfl, ⟨t, hg'⟩, -, hle⟩ := hr
      refine .pure ⟨_, hinv, .refl _, fun w' hw' => ?_⟩
      cases hw'
      exact ⟨rfl, Forest.passes_take hg' hle⟩
  | compact hops =>
    cases hops with
    | zero =>
      refine (compactHeld_sat h hp).bind (fun _ e₁ h₁ => ?_) fun _ _ he => ⟨fo, he.2, .refl fo⟩
      obtain ⟨fo₁, t, hinv, hext, -⟩ := h₁
      exact .pure ⟨fo₁, hinv, hext, fun w' hw' => by cases hw'⟩
    | succ hops => exact hgo rfl
  | spillover seq hops =>
    cases hops with
    | zero =>
      refine ((makeRoom_sat h hp seq).and (makeRoom_fails h hp hsafe)).bind (fun _ e₁ h₁ => ?_)
        fun _ _ he => he.2
      obtain ⟨⟨fo₁, t, hinv, hext, -⟩, -⟩ := h₁
      exact .pure ⟨fo₁, hinv, hext, fun w' hw' => by cases hw'⟩
    | succ hops => exact hgo rfl

theorem Writer.section_sat {w : Writer} (h : e.Inv supply fo) (hw : w.On fo)
    (hsafe : w.strands supply e = false) :
    Sat (exclusive w.guid (w.held supply)) e
      (fun next e' => ∃ fo', e'.Inv supply fo' ∧ fo.Extends fo' ∧ ∀ w' ∈ next, w'.On fo')
      (fun _ e' => ∃ fo', e'.Inv supply fo' ∧ fo.Extends fo') := by
  obtain ⟨p, hp, -⟩ := hw.2
  apply exclusive_sat
  apply (Writer.held_sat h hw hsafe).mono
  · rintro next e' ⟨fo', hinv, hext, hnext⟩
    obtain ⟨t, hp'⟩ := hext w.guid p hp
    exact ⟨fo', hinv.release hp', hext, hnext⟩
  · rintro err e' ⟨fo', hinv, hext⟩
    obtain ⟨t, hp'⟩ := hext w.guid p hp
    exact ⟨fo', hinv.release hp', hext⟩

/-! ## A step of the reader -/

/-- A blob the key comes by either crosses on or says where the key ends. -/
theorem Engine.Inv.answer {b : CachedBlob Frame} {d : Nat} {res : LookupResult}
    (h : e.Inv supply fo) (hp : fo.Passes (key ++ [0]) g d) (hb : e.bm.view g = some b)
    (hres : lookupAt b.image b.image.rootSlot (.user key) d = .ok res) :
    (∃ g' d', res = .crossing g' d') ∨
      ∃ o, fo.Leads (key ++ [0]) root o ∧
        ((∃ hit, res = .found hit ∧ some (readRecord b.image hit) = o.record) ∨
          (res = .notFound ∧ none = o.record)) := by
  obtain ⟨p, hfo, hk, rfl⟩ := hp
  obtain ⟨b', hb', hh, -⟩ := h.blob hfo
  cases hb.symm.trans hb'
  have hk' : p.path <+: (SearchKey.user key).full := hk
  rcases h.hop hfo hk' hh with ⟨g', d', t, hlook, -⟩ | ⟨res', hres', hx, hans⟩
  · cases hlook.symm.trans hres
    exact .inl ⟨g', d', rfl⟩
  · cases hres'.symm.trans hres
    rw [SearchKey.full_user] at hx hans
    refine .inr ⟨_, h.wf.leads_target hfo hk hx, ?_⟩
    revert hans
    cases (p.tree.target (key ++ [0]) p.path.length).live with
    | leaf r =>
      rintro ⟨hit, rfl, hv, hs⟩
      exact .inl ⟨hit, rfl, by simp [readRecord, hv, hs, Target.record]⟩
    | absent =>
      rintro rfl
      exact .inr ⟨rfl, rfl⟩
    | crossing g' d' =>
      rintro rfl
      exact .inr ⟨rfl, rfl⟩

/-- The reader never fails, and what it returns is what the key has at that moment. -/
theorem Reader.next_sat {r : Reader} (h : e.Inv supply fo) (hr : r.On key fo e)
    (hact : r.active = true) :
    Sat (r.next root key) e
      (fun r' e' => e'.Inv supply fo ∧ r'.On key fo e' ∧
        ∀ a, r' = .done a → ∃ o, fo.Leads (key ++ [0]) root o ∧ a = o.record)
      (fun _ _ => False) := by
  cases r with
  | idle => cases hact
  | done a => cases hact
  | failed err => cases hact
  | begun =>
    simp only [Reader.next]
    refine (followRoute_sat h (.user key)).andThen fun route e' h' => ?_
    obtain ⟨p, hp, hk, hd⟩ := startOf_spec h'.1 h'.2
    exact .pure ⟨h'.1, ⟨p, hp, hk, hd⟩, fun a ha => by cases ha⟩
  | arrived g d =>
    obtain ⟨p, hp, -⟩ := id hr
    simp only [Reader.next]
    refine (pinned_sat h hp).andThen fun b e' hb => ?_
    obtain ⟨rfl, hb, -⟩ := hb
    refine .pure ⟨h, ⟨hr, fun b' hb' => ?_⟩, fun a ha => by cases ha⟩
    cases hb.symm.trans hb'
    exact le_rfl
  | snapped g d v =>
    obtain ⟨hpass, hv⟩ := hr
    obtain ⟨p, hp, -⟩ := id hpass
    simp only [Reader.next]
    refine (pinned_sat h hp).andThen fun b e' hb => ?_
    obtain ⟨rfl, hb, -⟩ := hb
    refine .pure ⟨h, ⟨hpass, fun b' hb' => ⟨hv b' hb', fun _ => ?_⟩⟩,
      fun a ha => by cases ha⟩
    cases hb.symm.trans hb'
    rfl
  | walked g d v res =>
    obtain ⟨hpass, hv⟩ := hr
    obtain ⟨p, hp, -⟩ := id hpass
    simp only [Reader.next]
    refine (pinned_sat h hp).andThen fun b e' hb => ?_
    obtain ⟨rfl, hb, -⟩ := hb
    by_cases hver : b.version = v
    · rw [if_neg (not_not.mpr hver)]
      have hres := (hv b hb).2 hver
      cases res with
      | error err =>
        obtain ⟨p', hp', hk', rfl⟩ := hpass
        obtain ⟨b', hb', hh, -⟩ := h.blob hp'
        cases hb.symm.trans hb'
        have hk'' : p'.path <+: (SearchKey.user key).full := hk'
        rcases h.hop hp' hk'' hh with ⟨g', d', t, hlook, -⟩ | ⟨res', hres', -⟩
        · cases hres.trans hlook
        · cases hres.trans hres'
      | ok res =>
        simp only [lift_ok, sat_bind, sat_pure]
        rcases h.answer hpass hb hres.symm with
          ⟨g', d', rfl⟩ | ⟨o, ho, ⟨hit, rfl, -⟩ | ⟨rfl, hn⟩⟩
        · exact .pure ⟨h, hpass, fun a ha => by cases ha⟩
        · refine .pure ⟨h, ⟨d, hpass, fun b' hb' => ?_⟩, fun a ha => by cases ha⟩
          cases hb.symm.trans hb'
          exact hres.symm
        · refine .pure ⟨h, trivial, fun a ha => ?_⟩
          cases ha
          exact ⟨o, ho, hn⟩
    · rw [if_pos hver]
      exact .pure ⟨h, trivial, fun a ha => by cases ha⟩
  | crossing g d g' d' =>
    have hpass : fo.Passes (SearchKey.user key).full g d := hr
    simp only [Reader.next]
    refine (pinValidatedChild_passes h hpass).andThen fun c e' h' => ?_
    cases c with
    | none => exact .pure ⟨h'.1, trivial, fun a ha => by cases ha⟩
    | some c => exact .pure ⟨h'.1, h'.2 c rfl, fun a ha => by cases ha⟩
  | validated g hit =>
    obtain ⟨d, hpass, hv⟩ := hr
    obtain ⟨p, hp, -⟩ := id hpass
    simp only [Reader.next]
    refine (pinned_sat h hp).andThen fun b e' hb => ?_
    obtain ⟨rfl, hb, -⟩ := hb
    refine .pure ⟨h, trivial, fun a ha => ?_⟩
    cases ha
    rcases h.answer hpass hb (hv b hb) with ⟨_, _, hc⟩ | ⟨o, ho, ⟨hit', hf, ha⟩ | ⟨hn, -⟩⟩
    · cases hc
    · cases hf
      exact ⟨o, ho, ha⟩
    · cases hn

/-! ## Runs -/

variable {w w' : World}

theorem World.Inv.record {o : Target} (h : w.engine.Inv supply fo)
    (ho : fo.Leads (key ++ [0]) root o) : w.record root key = some o.record := by
  have hlook : Sat (lookupMultiWith root readRecord (.user key) 1) w.engine _ fun _ _ => False :=
    lookupMultiWith_sat readRecord (.user key) h 0
  unfold World.record
  cases hx : lookupMultiWith root readRecord (.user key) 1 w.engine with
  | error err e' => exact (hlook.of_error hx).elim
  | ok r e' =>
    obtain ⟨-, o', ho', hr⟩ := hlook.of_ok hx
    obtain rfl := ho'.unique ho
    cases o' with
    | leaf rec =>
      obtain ⟨F, hit, rfl, hv, hs⟩ := hr
      simp [readRecord, hv, hs, Target.record]
    | absent => exact congrArg some hr
    | crossing g d => exact congrArg some hr

theorem World.Inv.spawn {task : Task} {k : List UInt8} (h : w.Inv supply key fo)
    (hstep : w.step supply key (.spawn task k) = some w') :
    w'.Inv supply key fo ∧ w'.reader = w.reader := by
  have hstart : Sat (writeStart root (.user k)) w.engine _ fun _ _ => False :=
    writeStart_sat h.engine
  have hwithin : Within supply ∅ (writeStart root (.user k)) :=
    Engine.Spares.sectional.writeStart _
  have hsat := hstart.and (hwithin w.engine)
  simp only [World.step] at hstep
  split at hstep
  · rename_i hfits
    split at hstep
    · rename_i s engine hs
      obtain ⟨⟨hinv, hpass, -⟩, hspare⟩ := hsat.of_ok hs
      cases hstep
      refine ⟨⟨hinv, fun wr hwr => ?_, h.reader.spared h.engine hspare⟩, rfl⟩
      rcases List.mem_append.mp hwr with hwr | hwr
      · exact h.writers wr hwr
      · cases List.mem_singleton.mp hwr
        exact ⟨hfits, hpass⟩
    · rename_i err engine hs
      exact (hsat.of_error hs).1.elim
  · cases hstep

theorem World.Inv.work {i : Nat} (h : w.Inv supply key fo)
    (hcalm : w.calm supply (.work i) = true)
    (hstep : w.step supply key (.work i) = some w') :
    (∃ fo', w'.Inv supply key fo') ∧ w'.reader = w.reader := by
  simp only [World.step] at hstep
  split at hstep
  · cases hstep
  · rename_i wr hwr
    have hon := h.writers wr (List.mem_of_getElem? hwr)
    simp only [World.calm, hwr, Bool.and_eq_true, Bool.not_eq_true'] at hcalm
    obtain ⟨hsafe, hcalm⟩ := hcalm
    have hsat := (Writer.section_sat h.engine hon hsafe).and
      (exclusive_latched wr.held_within w.engine)
    have hfree : ∀ g hit, w.reader = .validated g hit → wr.guid ≠ g := by
      intro g hit hr
      simpa only [hr, decide_eq_true_eq] using hcalm
    split at hstep
    · rename_i next engine hs
      obtain ⟨⟨fo', hinv, hext, hnext⟩, hlatched⟩ := hsat.of_ok hs
      cases hstep
      refine ⟨⟨fo', hinv, fun wr' hwr' => ?_, h.reader.latched h.engine hext hlatched hfree⟩, rfl⟩
      rcases List.mem_append.mp hwr' with hwr' | hwr'
      · exact (h.writers wr' (List.mem_of_mem_eraseIdx hwr')).mono hext
      · exact hnext wr' (Option.mem_toList.mp hwr')
    · rename_i err engine hs
      obtain ⟨⟨fo', hinv, hext⟩, hlatched⟩ := hsat.of_error hs
      cases hstep
      exact ⟨⟨fo', hinv, fun wr' hwr' => (h.writers wr' (List.mem_of_mem_eraseIdx hwr')).mono hext,
        h.reader.latched h.engine hext hlatched hfree⟩, rfl⟩

theorem World.Inv.read (h : w.Inv supply key fo) (hstep : w.step supply key .read = some w') :
    w'.Inv supply key fo ∧ w.reader.active = true ∧
      ∀ r, w'.reader = .done r → w.record root key = some r := by
  simp only [World.step] at hstep
  split at hstep
  · rename_i hact
    have hsat := Reader.next_sat h.engine h.reader hact
    split at hstep
    · rename_i reader engine hs
      obtain ⟨hinv, hon, hdone⟩ := hsat.of_ok hs
      cases hstep
      refine ⟨⟨hinv, h.writers, hon⟩, hact, fun r hr => ?_⟩
      obtain ⟨o, ho, rfl⟩ := hdone r hr
      exact World.Inv.record h.engine ho
    · rename_i err engine hs
      exact (hsat.of_error hs).elim
  · cases hstep

/-- One calm step keeps the invariant; if it is the one in which the call returns, it returns
the record the key has just then. -/
theorem World.Inv.step {a : Action} (h : w.Inv supply key fo) (hcalm : w.calm supply a = true)
    (hstep : w.step supply key a = some w') :
    (∃ fo', w'.Inv supply key fo') ∧ ∀ r, w'.reader = .done r →
      w.reader = .done r ∨ (w.reader.active = true ∧ w.record root key = some r) := by
  cases a with
  | spawn task k =>
    obtain ⟨hinv, hr⟩ := h.spawn hstep
    exact ⟨⟨fo, hinv⟩, fun r hdone => .inl (hr.symm.trans hdone)⟩
  | work i =>
    obtain ⟨hinv, hr⟩ := h.work hcalm hstep
    exact ⟨hinv, fun r hdone => .inl (hr.symm.trans hdone)⟩
  | start =>
    simp only [World.step] at hstep
    split at hstep
    · cases hstep
      exact ⟨⟨fo, h.engine, h.writers, trivial⟩, fun r hdone => by cases hdone⟩
    · cases hstep
  | read =>
    obtain ⟨hinv, hact, hr⟩ := h.read hstep
    exact ⟨⟨fo, hinv⟩, fun r hdone => .inr ⟨hact, hr r hdone⟩⟩

theorem World.Inv.had {as : List Action} {r : Option (List UInt8 × Nat)}
    (h : w.Inv supply key fo) (hnot : w.reader ≠ .done r)
    (hcalm : w.calmRun supply key as = true) (hrun : w.run supply key as = some w')
    (hdone : w'.reader = .done r) : w.Had supply key as r := by
  induction as generalizing w fo with
  | nil =>
    cases hrun
    exact absurd hdone hnot
  | cons a as ih =>
    obtain ⟨w₁, hstep, hrest⟩ := Option.bind_eq_some_iff.mp hrun
    simp only [World.calmRun, hstep, Bool.and_eq_true] at hcalm
    obtain ⟨⟨fo', hinv⟩, hret⟩ := h.step hcalm.1 hstep
    by_cases hr : w₁.reader = .done r
    · obtain hd | ⟨hact, hrec⟩ := hret r hr
      · exact absurd hd hnot
      · refine ⟨0, Nat.zero_le _, ?_⟩
        simp [World.run, hact, hrec]
    · obtain ⟨n, hn, hhad⟩ := ih hinv hr hcalm.2 hrest
      refine ⟨n + 1, Nat.succ_le_succ hn, ?_⟩
      rw [List.take_succ_cons, World.run, hstep]
      exact hhad

theorem opened_inv (supply : GuidSupply root) {journalled flush : Bool}
    (h : World.opened root journalled flush = some w) :
    w.reader = .idle ∧ ∃ fo, w.Inv supply key fo := by
  obtain ⟨T, hopen, ⟨fo, hinv, -⟩, -⟩ := openTree_shows supply journalled flush
  unfold World.opened at h
  rw [hopen] at h
  obtain rfl := Option.some.inj h
  refine ⟨rfl, fo, ⟨hinv, ?_, ?_⟩⟩
  · intro wr hwr
    cases hwr
  · trivial

/-- In every run in which nobody works on the blob whose value the reader is about to copy, and no
spillover fails once it has given up its victim, a call returns a record its key had while the call
was going on. -/
theorem calm_read_linearizes (supply : GuidSupply root) (key : List UInt8)
    {journalled flush : Bool} {as : List Action} {r : Option (List UInt8 × Nat)}
    (hopen : World.opened root journalled flush = some w)
    (hcalm : w.calmRun supply key as = true) (hrun : w.run supply key as = some w')
    (hdone : w'.reader = .done r) : w.Had supply key as r := by
  obtain ⟨hidle, fo, hinv⟩ := opened_inv supply hopen
  exact hinv.had (by simp [hidle]) hcalm hrun hdone

end Invariant

/-- A key is written, and read while it is written again and a key that is refused comes by. -/
def readAmongWrites : List Action :=
  [.spawn (.insert [65] 1 .always) [1], .work 0, .start, .read, .read,
    .spawn (.insert [67] 3 .always) [1, 0], .work 0, .spawn (.insert [66] 2 .always) [1], .work 0,
    .read, .read, .read, .read, .read, .read, .read]

theorem calm_read_linearizes_retry : ∃ w, World.opened 0 false true = some w ∧
    w.Had .counting [1] readAmongWrites (some ([66], 2)) := by
  have hrun : (World.opened 0 false true).any (fun w =>
      w.calmRun .counting [1] readAmongWrites &&
      (w.run .counting [1] readAmongWrites).any fun w' =>
        decide (w'.reader.answer = some (some ([66], 2)))) = true := by decide +kernel
  obtain ⟨w, hw, h⟩ := (Option.any_eq_true _ _).mp hrun
  obtain ⟨hcalm, h⟩ := Bool.and_eq_true_iff.mp h
  obtain ⟨w', hw', ha⟩ := (Option.any_eq_true _ _).mp h
  exact ⟨w, hw, calm_read_linearizes .counting [1] hw hcalm hw'
    (Reader.answer_eq_some.mp (of_decide_eq_true ha))⟩

/-! ## The copy comes after the check -/

/-- A key is written, read up to the check, written again with a value of the same length, and
then its value is copied. -/
def tornRead : List Action :=
  [.spawn (.insert [65] 1 .always) [1], .work 0, .start, .read, .read, .read, .read,
    .spawn (.insert [66] 2 .always) [1], .work 0, .read]

/-- The reader returns the value of the second write with the version of the first, a record the
key never had. -/
theorem torn_read : ∃ w w', World.opened 0 false true = some w ∧
    w.run .counting [1] tornRead = some w' ∧ w'.reader = .done (some ([66], 1)) ∧
    ¬ w.Had .counting [1] tornRead (some ([66], 1)) := by
  have hrun : (World.opened 0 false true).any (fun w =>
      ((w.run .counting [1] tornRead).any fun w' =>
        decide (w'.reader.answer = some (some ([66], 1)))) &&
      decide (¬ w.Had .counting [1] tornRead (some ([66], 1)))) = true := by decide +kernel
  obtain ⟨w, hw, h⟩ := (Option.any_eq_true _ _).mp hrun
  obtain ⟨hend, hnot⟩ := Bool.and_eq_true_iff.mp h
  obtain ⟨w', hw', ha⟩ := (Option.any_eq_true _ _).mp hend
  exact ⟨w, w', hw, hw', Reader.answer_eq_some.mp (of_decide_eq_true ha), of_decide_eq_true hnot⟩

end Holt
