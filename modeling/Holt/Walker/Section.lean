import Holt.Walker.WriteMulti

/-! What the sections of the walkers do to the engine, whether they fail or not: a relation that
every single step keeps is kept by all of them. -/

namespace Holt

open Holt.Lib

/-- The relations between engines that the steps of a section keep, when it holds the blobs of
`s`. -/
structure Sectional {root : BlobGuid} (supply : GuidSupply root) (s : Set BlobGuid)
    (r : Engine → Engine → Prop) : Prop where
  refl : ∀ e, r e e
  trans : ∀ {e e₁ e₂}, r e e₁ → r e₁ e₂ → r e e₂
  /-- Pins, routes and notes change no blob. -/
  looks : ∀ {e e' : Engine}, e'.drawn = e.drawn → e'.bm.store = e.bm.store →
    (∀ a ∈ e.bm.cache, a ∈ e'.bm.cache) → (∀ a, e'.bm.view a = e.bm.view a) →
    e'.bm.dirty = e.bm.dirty → e'.bm.pendingDeletes = e.bm.pendingDeletes → r e e'
  put : ∀ {g} e F, g ∈ s → r e (e.putFrame g F)
  draw : ∀ e, r e { e with drawn := e.drawn + 1 }
  install : ∀ e child seq, r e { e with
    bm := e.bm.installNewBlob (supply.guid e.drawn) child seq, drawn := e.drawn + 1 }

namespace Sectional

variable {root : BlobGuid} {supply : GuidSupply root} {s : Set BlobGuid}
  {r : Engine → Engine → Prop} {g : BlobGuid}

theorem bind {α β : Type} (hr : Sectional supply s r) {x : WalkM α} {f : α → WalkM β}
    (hx : Moves r x) (hf : ∀ a, Moves r (f a)) : Moves r (x >>= f) :=
  Moves.bind (r := r) hr.trans hx hf

theorem pure {α : Type} (hr : Sectional supply s r) (a : α) : Moves r (Pure.pure a : WalkM α) :=
  Moves.pure hr.refl a

theorem throw {α : Type} (hr : Sectional supply s r) (err : Error) :
    Moves r (MonadExcept.throw err : WalkM α) :=
  Moves.throw hr.refl err

theorem lift {α : Type} (hr : Sectional supply s r) (x : Except Error α) :
    Moves r (Lib.lift x : WalkM α) :=
  Moves.lift hr.refl x

theorem blame {α : Type} (hr : Sectional supply s r) (x : Except Error α) :
    Moves r (Holt.blame g x) := by
  cases x with
  | ok a => exact hr.pure a
  | error err => exact hr.throw _

theorem pinned (hr : Sectional supply s r) : Moves r (Holt.pinned g) := by
  intro e
  unfold Sat Holt.pinned
  cases e.bm.view g <;> exact hr.refl e

theorem pin (hr : Sectional supply s r) : Moves r (Holt.pin g) := by
  intro e
  unfold Sat Holt.pin
  cases h : e.bm.pin g with
  | ok bm =>
    exact hr.looks rfl (BufferManager.store_of_pin h) (BufferManager.cached_of_pin h)
      (BufferManager.view_pin h) (BufferManager.pin_dirty h) (BufferManager.pin_pendingDeletes h)
  | error err => exact hr.refl e

theorem tryPin (hr : Sectional supply s r) : Moves r (Holt.tryPin g) := by
  intro e
  unfold Sat Holt.tryPin
  cases h : e.bm.pin g with
  | ok bm =>
    exact hr.looks rfl (BufferManager.store_of_pin h) (BufferManager.cached_of_pin h)
      (BufferManager.view_pin h) (BufferManager.pin_dirty h) (BufferManager.pin_pendingDeletes h)
  | error err =>
    cases err with
    | blobStoreIo kind => cases kind <;> exact hr.refl e
    | _ => exact hr.refl e

theorem onRoutes (hr : Sectional supply s r) (f : RouteCache → RouteCache) :
    Moves r (Holt.onRoutes f) :=
  Moves.update fun _ => hr.looks rfl rfl (fun _ ha => ha) (fun _ => rfl) rfl rfl

theorem runFrame {α : Type} (hr : Sectional supply s r) (hg : g ∈ s) (x : FrameM α) :
    Moves r (Holt.runFrame g x) := by
  intro e
  unfold Sat Holt.runFrame
  split <;> rename_i h
  · split at h
    · cases h
    · split at h <;> cases h <;> exact hr.put e _ hg
  · split at h
    · cases h
      exact hr.refl e
    · split at h <;> cases h

/-! ## Looking -/

theorem routeStillHolds (hr : Sectional supply s r) (key : SearchKey) (route : RouteEntry) :
    Moves r (Holt.routeStillHolds root key route) := by
  apply hr.bind hr.pinned
  intro parent
  split
  · exact hr.pure _
  · apply hr.bind (hr.lift _)
    intro valid
    split
    · exact hr.bind (hr.onRoutes _) fun _ => hr.pure _
    · exact hr.pure _

theorem useRoute (hr : Sectional supply s r) (key : SearchKey) (route : RouteEntry) :
    Moves r (Holt.useRoute root key route) := by
  have hparent : Moves r (pinRouteParent route) := by
    unfold pinRouteParent
    split
    · exact hr.pure _
    · exact hr.tryPin
  apply hr.bind hparent
  intro found
  split
  · apply hr.bind (hr.routeStillHolds key route)
    intro holds
    split
    · exact hr.tryPin
    · exact hr.pure _
  · exact hr.pure _

theorem followRoute (hr : Sectional supply s r) (key : SearchKey) :
    Moves r (Holt.followRoute root key) := by
  apply hr.bind (Moves.get hr.refl)
  intro e
  split
  · exact hr.pure _
  · apply hr.bind (hr.useRoute key _)
    intro usable
    split
    · exact hr.pure _
    · exact hr.bind (hr.onRoutes _) fun _ => hr.pure _

theorem writeStart (hr : Sectional supply s r) (key : SearchKey) :
    Moves r (Holt.writeStart root key) := by
  apply hr.bind (hr.followRoute key)
  intro route
  split
  · exact hr.pure _
  · apply hr.bind hr.pinned
    intro b
    apply hr.bind (hr.lift _)
    intro res
    split
    · exact hr.bind (hr.onRoutes _) fun _ => hr.bind hr.pin fun _ => hr.pure _
    · exact hr.pure _

theorem pinValidatedChild (hr : Sectional supply s r) (key : SearchKey) (n d : Nat)
    (expected : BlobGuid) : Moves r (Holt.pinValidatedChild key g n expected d) := by
  apply hr.bind hr.pinned
  intro b
  apply hr.bind (hr.lift _)
  intro found
  split
  · split
    · exact hr.bind (hr.onRoutes _) fun _ => hr.bind hr.pin fun _ => hr.pure _
    · exact hr.pure _
  · exact hr.pure _

theorem lookupFromPinnedBlob {R : Type} (hr : Sectional supply s r)
    (consume : Frame → LookupHit → R) (key : SearchKey) (fuel depth : Nat) :
    Moves r (Holt.lookupFromPinnedBlob consume key fuel g depth) := by
  induction fuel generalizing g depth with
  | zero => exact hr.throw _
  | succ fuel ih =>
    apply hr.bind hr.pinned
    intro b
    apply hr.bind (hr.lift _)
    intro found
    split
    · exact hr.pure _
    · exact hr.pure _
    · apply hr.bind (hr.pinValidatedChild key depth _ _)
      intro child
      split
      · exact hr.pure _
      · exact ih _

theorem lookupMultiWith {R : Type} (hr : Sectional supply s r) (consume : Frame → LookupHit → R)
    (key : SearchKey) (restarts : Nat) :
    Moves r (Holt.lookupMultiWith root consume key restarts) := by
  induction restarts with
  | zero => exact hr.throw _
  | succ restarts ih =>
    apply hr.bind (hr.followRoute key)
    intro route
    apply hr.bind (hr.lookupFromPinnedBlob consume key _ _)
    intro found
    split
    · exact hr.pure _
    · exact ih

/-! ## Sections -/

theorem spilloverBlob (hr : Sectional supply {g} r) (seq : Nat) :
    Moves r (Holt.spilloverBlob supply g seq) := by
  apply hr.bind hr.pinned
  intro b
  apply hr.bind (hr.blame _)
  intro victim e
  have hrest : ∀ new, Moves r (do
      let r ← Holt.runFrame g (replaceVictim b.image.rootSlot victim new)
      let _ ← Holt.blame g r : WalkM Unit) := by
    intro new
    apply hr.bind (hr.runFrame (Set.mem_singleton g) _)
    intro _
    exact hr.bind (hr.blame _) fun _ => hr.pure _
  simp only [freshBlobGuid, sat_bind, sat_get, sat_set, sat_pure]
  cases makeBlobFromNode b.image victim.victimSlot (supply.guid e.drawn) with
  | error err =>
    simp only [Holt.blame, sat_throw]
    exact hr.draw e
  | ok child =>
    -- The name is drawn and the new blob installed under it: one step for the relation.
    simp only [Holt.blame, sat_pure, Holt.onManager, sat_modify]
    have hnew := hr.install e child seq
    have hmove := hrest (supply.guid e.drawn) { e with
      bm := e.bm.installNewBlob (supply.guid e.drawn) child seq, drawn := e.drawn + 1 }
    simp only [sat_bind, sat_pure] at hmove
    exact hmove.mono (fun _ _ h => h.mono (fun _ _ h' => hr.trans hnew h')
      fun _ _ h' => hr.trans hnew h') fun _ _ h => hr.trans hnew h

theorem compactHeld (hr : Sectional supply {g} r) : Moves r (Holt.compactHeld g) :=
  hr.bind (hr.runFrame (Set.mem_singleton g) _) hr.blame

theorem makeRoom (hr : Sectional supply {g} r) (seq : Nat) :
    Moves r (Holt.makeRoom supply g seq) := by
  apply hr.bind (hr.spilloverBlob seq)
  intro _
  apply hr.bind
  · apply Moves.update
    intro e
    dsimp only
    unfold BufferManager.noteMergeCandidate
    split
    · exact hr.refl e
    · exact hr.looks rfl rfl (fun _ ha => ha) (fun _ => rfl) rfl rfl
  · intro _
    exact hr.compactHeld

theorem attemptInsert (hr : Sectional supply {g} r) (key : SearchKey) (value : List UInt8)
    (seq : Nat) (condition : InsertCondition) (d n : Nat) (dirty : Bool) :
    Moves r (Holt.attemptInsert supply key value seq condition g d n dirty) := by
  induction n generalizing dirty with
  | zero => exact hr.throw _
  | succ n ih =>
    apply hr.bind (hr.runFrame (Set.mem_singleton g) _)
    intro result
    split
    · exact hr.pure _
    · exact hr.bind (hr.makeRoom seq) fun _ => ih true
    · exact hr.throw _

theorem insertHeld (hr : Sectional supply {g} r) (key : SearchKey) (value : List UInt8) (seq : Nat)
    (condition : InsertCondition) (d : Nat) :
    Moves r (Holt.insertHeld supply key value seq condition g d) := by
  apply hr.bind (hr.attemptInsert key value seq condition d _ _)
  intro _
  apply hr.bind
  · unfold pinNext
    split
    · exact hr.pin
    · exact hr.pure _
  · intro _
    exact hr.pure _

theorem eraseHeld (hr : Sectional supply {g} r) (key : SearchKey) (condition : EraseCondition)
    (d : Nat) : Moves r (Holt.eraseHeld key condition g d) := by
  apply hr.bind (hr.runFrame (Set.mem_singleton g) _)
  intro result
  apply hr.bind (hr.blame result)
  intro step
  split
  · exact hr.bind hr.pin fun _ => hr.pure _
  · exact hr.pure _

end Sectional

end Holt
