import Holt.Art.Forest
import Holt.RouteCache
import Holt.Store.BufferManager
import Holt.Walker.Migrate

/-! What the walkers share when a descent leaves a blob: pins, latches, routes, and the
invariant that the blobs in memory hold the trees of a forest. -/

namespace Holt

open Holt.Lib

/-- Where new blob names come from: no name comes twice and none is the root's. -/
structure GuidSupply (root : BlobGuid) where
  guid : Nat → BlobGuid
  injective : Function.Injective guid
  ne_root : ∀ i, guid i ≠ root

/-- Names one after the other. -/
def GuidSupply.counting : GuidSupply rootBlobGuid :=
  ⟨fun i => i + 1, fun _ _ h => Nat.succ.inj h, fun i => Nat.succ_ne_zero i⟩

/-- `routes` is `none` while a log is replayed; `drawn` counts the names taken so far. -/
structure Engine where
  bm : BufferManager Frame
  routes : Option RouteCache
  drawn : Nat

abbrev WalkM := EStateM Error Engine

/-! ## Pins and latches -/

def pin (guid : BlobGuid) : WalkM Unit := fun e =>
  match e.bm.pin guid with
  | .ok bm => .ok () { e with bm }
  | .error err => .error err e

/-- Pin a blob that a route names; `false` if there is no such blob. -/
def tryPin (guid : BlobGuid) : WalkM Bool := fun e =>
  match e.bm.pin guid with
  | .ok bm => .ok true { e with bm }
  | .error (.blobStoreIo .notFound) => .ok false e
  | .error err => .error err e

/-- The blob behind a pin. A pinned blob stays in memory. -/
def pinned (guid : BlobGuid) : WalkM (CachedBlob Frame) := fun e =>
  match e.bm.view guid with
  | some b => .ok b e
  | none => .error (.internal "pinned blob left the cache") e

def Engine.putFrame (e : Engine) (guid : BlobGuid) (F : Frame) : Engine :=
  { e with bm := e.bm.putImage guid F }

/-- Run a program on a pinned frame. The bytes written before a failure stay written. -/
def runFrame {α : Type} (guid : BlobGuid) (x : FrameM α) : WalkM (Except Error α) := fun e =>
  match e.bm.view guid with
  | none => .error (.internal "pinned blob left the cache") e
  | some b =>
    match x b.image with
    | .ok a F => .ok (.ok a) (e.putFrame guid F)
    | .error err F => .ok (.error err) (e.putFrame guid F)

/-- Say in which blob the failure was found. -/
def blame {α : Type} (guid : BlobGuid) : Except Error α → WalkM α
  | .ok a => pure a
  | .error err => throw (err.withBlobGuid guid)

/-- Hold the blob's exclusive latch. Releasing it counts, also after a failure. -/
def exclusive {α : Type} (guid : BlobGuid) (x : WalkM α) : WalkM α := fun e =>
  match x e with
  | .ok a e => .ok a { e with bm := e.bm.releaseExclusive guid }
  | .error err e => .error err { e with bm := e.bm.releaseExclusive guid }

def onManager (f : BufferManager Frame → BufferManager Frame) : WalkM Unit :=
  modify fun e => { e with bm := f e.bm }

def onRoutes (f : RouteCache → RouteCache) : WalkM Unit :=
  modify fun e => { e with routes := e.routes.map f }

def freshBlobGuid {root : BlobGuid} (supply : GuidSupply root) : WalkM BlobGuid := do
  let e ← get
  set { e with drawn := e.drawn + 1 }
  pure (supply.guid e.drawn)

/-! ## Routes -/

def routeParent (root : BlobGuid) (route : RouteEntry) : BlobGuid :=
  if route.parentGuid = rootBlobGuid then root else route.parentGuid

/-- The tree keeps its root pinned. -/
def pinRouteParent (route : RouteEntry) : WalkM Bool :=
  if route.parentGuid = rootBlobGuid then pure true else tryPin route.parentGuid

def validateRouteEdge (F : Frame) (key : SearchKey) (route : RouteEntry) : Except Error Bool :=
  (lookupAt F F.rootSlot key route.parentDepth).map fun
    | .crossing guid depth => guid = route.childGuid ∧ depth = route.childDepth
    | _ => false

/-- An edge seen in an older state of the parent is looked up again. -/
def routeStillHolds (root : BlobGuid) (key : SearchKey) (route : RouteEntry) : WalkM Bool := do
  let parent ← pinned (routeParent root route)
  if parent.version = route.parentVersion then pure true
  else
    let valid ← lift (validateRouteEdge parent.image key route)
    if valid then
      onRoutes fun c => c.refreshParentVersion key route parent.version
      pure true
    else pure false

def useRoute (root : BlobGuid) (key : SearchKey) (route : RouteEntry) : WalkM Bool := do
  let found ← pinRouteParent route
  if found then
    let holds ← routeStillHolds root key route
    if holds then tryPin route.childGuid else pure false
  else pure false

/-- The child blob to start in, if the cache knows one for the key. -/
def followRoute (root : BlobGuid) (key : SearchKey) : WalkM (Option RouteEntry) := do
  let e ← get
  match e.routes.bind (·.lookup key) with
  | none => pure none
  | some route =>
    let usable ← useRoute root key route
    if usable then pure (some route)
    else
      onRoutes fun c => c.invalidate key route
      pure none

/-! ## The blobs hold a forest -/

/-- The paths of the blobs that routes may name: those of the forest, and those that were merged
away and left nothing behind. -/
structure Engine.Charts {root : BlobGuid} (supply : GuidSupply root) (e : Engine) (fo : Forest)
    (path : BlobGuid → Option (List UInt8)) : Prop where
  alive : ∀ {g p}, fo g = some p → path g = some p.path
  gone : ∀ {g π}, path g = some π → fo g = none → e.bm.Gone g
  names : ∀ {g π}, path g = some π → g = root ∨ ∃ i < e.drawn, g = supply.guid i

/-- Every blob of the forest can be pinned and holds its tree. -/
structure Engine.Inv {root : BlobGuid} (supply : GuidSupply root) (e : Engine) (fo : Forest) :
    Prop where
  wf : fo.Wf root
  blob : ∀ {g p}, fo g = some p →
    ∃ b, e.bm.view g = some b ∧ b.image.Holds p.tree ∧ b.image.blobGuid = g
  pending : ∀ {g p}, fo g = some p → g ∉ e.bm.pendingDeletes
  names : ∀ {g p}, fo g = some p → g = root ∨ ∃ i < e.drawn, g = supply.guid i
  unborn : ∀ {i}, e.drawn ≤ i → supply.guid i ∉ e.bm.pendingDeletes
  routes : ∀ {c}, e.routes = some c → ∃ path, c.Sound path ∧ e.Charts supply fo path

section Inv

variable {root : BlobGuid} {supply : GuidSupply root} {e : Engine} {fo : Forest} {g : BlobGuid}
  {p : Plot} {err : Error → Engine → Prop}

/-- The blob's latch and the bookkeeping are not part of what it holds. -/
theorem Engine.Inv.bm {bm : BufferManager Frame} (h : e.Inv supply fo)
    (hv : ∀ {a q b}, fo a = some q → e.bm.view a = some b →
      ∃ b', bm.view a = some b' ∧ b'.image = b.image)
    (hp : ∀ {a}, a ∈ bm.pendingDeletes → a ∈ e.bm.pendingDeletes)
    (hgone : ∀ {a}, fo a = none → e.bm.Gone a → bm.Gone a) :
    Engine.Inv supply { e with bm } fo := by
  refine ⟨h.wf, fun hg => ?_, fun hg hm => h.pending hg (hp hm), h.names,
    fun hi hm => h.unborn hi (hp hm), fun hc => ?_⟩
  · obtain ⟨b, hb, hh⟩ := h.blob hg
    obtain ⟨b', hb', hi⟩ := hv hg hb
    exact ⟨b', hb', hi ▸ hh⟩
  · obtain ⟨path, hsound, hchart⟩ := h.routes hc
    exact ⟨path, hsound, hchart.alive, fun ha hn => hgone hn (hchart.gone ha hn), hchart.names⟩

theorem Engine.Inv.same_view {bm : BufferManager Frame} (h : e.Inv supply fo)
    (hv : ∀ a, bm.view a = e.bm.view a) (hp : bm.pendingDeletes = e.bm.pendingDeletes)
    (hgone : ∀ {a}, e.bm.Gone a → bm.Gone a) : Engine.Inv supply { e with bm } fo :=
  h.bm (fun {a _ b} _ hb => ⟨b, (hv a).trans hb, rfl⟩) (fun ha => hp ▸ ha) fun _ => hgone

/-- Only the bookkeeping differs. -/
theorem Engine.Inv.books {bm : BufferManager Frame} (h : e.Inv supply fo)
    (hs : e.bm.SameBlobs bm) : Engine.Inv supply { e with bm } fo :=
  h.same_view (BufferManager.view_congr hs.cache hs.store) hs.pendingDeletes
    fun hg => hg.congr hs.cache hs.store hs.pendingDeletes

theorem Engine.Inv.pin (h : e.Inv supply fo) (hp : fo g = some p) :
    ∃ bm, e.bm.pin g = .ok bm ∧ Engine.Inv supply { e with bm } fo := by
  obtain ⟨b, hb, -⟩ := h.blob hp
  obtain ⟨bm, hpin⟩ := BufferManager.pin_of_view (h.pending hp) hb
  exact ⟨bm, hpin, h.same_view (BufferManager.view_pin hpin)
    (BufferManager.pin_pendingDeletes hpin) fun hg => hg.pin hpin⟩

theorem pin_sat (h : e.Inv supply fo) (hp : fo g = some p) :
    Sat (pin g) e (fun _ e' => e'.Inv supply fo ∧ ∀ a, e'.bm.view a = e.bm.view a) err := by
  obtain ⟨bm, hpin, hinv⟩ := h.pin hp
  unfold Sat Holt.pin
  rw [hpin]
  exact ⟨hinv, BufferManager.view_pin hpin⟩

theorem pinned_sat (h : e.Inv supply fo) (hp : fo g = some p) :
    Sat (pinned g) e (fun b e' => e' = e ∧ e.bm.view g = some b ∧
      b.image.Holds p.tree ∧ b.image.blobGuid = g) err := by
  obtain ⟨b, hb, hh, hg⟩ := h.blob hp
  unfold Sat pinned
  rw [hb]
  exact ⟨rfl, rfl, hh, hg⟩

theorem runFrame_sat {α : Type} {x : FrameM α} {b : CachedBlob Frame} {ok : α → Frame → Prop}
    {bad : Error → Frame → Prop} (hb : e.bm.view g = some b)
    (hx : Sat x b.image ok bad) :
    Sat (runFrame g x) e (fun r e' => ∃ F, e' = e.putFrame g F ∧ match r with
      | .ok a => ok a F
      | .error er => bad er F) err := by
  unfold Sat runFrame
  unfold Sat at hx
  rw [hb]
  dsimp only
  split at hx
  · rename_i hxe
    rw [hxe]
    exact ⟨_, rfl, hx⟩
  · rename_i hxe
    rw [hxe]
    exact ⟨_, rfl, hx⟩

theorem exclusive_sat {α : Type} {x : WalkM α} {ok : α → Engine → Prop}
    (hx : Sat x e (fun a e' => ok a { e' with bm := e'.bm.releaseExclusive g })
      fun er e' => err er { e' with bm := e'.bm.releaseExclusive g }) :
    Sat (exclusive g x) e ok err := by
  unfold Sat exclusive
  unfold Sat at hx
  split at hx
  · rename_i hxe
    rw [hxe]
    exact hx
  · rename_i hxe
    rw [hxe]
    exact hx

theorem Engine.Inv.release (h : e.Inv supply fo) (hp : fo g = some p) :
    Engine.Inv supply { e with bm := e.bm.releaseExclusive g } fo := by
  obtain ⟨c, hg, -⟩ := h.blob hp
  have hview := BufferManager.view_releaseExclusive hg
  refine h.bm (fun {a q b} _ hb => ?_) (fun ha => ?_) fun hn hgone => ?_
  · rw [hview]
    split
    · rename_i ha
      subst ha
      cases hg.symm.trans hb
      exact ⟨_, rfl, rfl⟩
    · exact ⟨b, hb, rfl⟩
  · rwa [BufferManager.releaseExclusive, hg] at ha
  · refine hgone.releaseExclusive ?_
    rintro rfl
    cases hn.symm.trans hp

theorem Engine.Inv.markDirty (h : e.Inv supply fo) (g : BlobGuid) (seq : Nat) :
    Engine.Inv supply { e with bm := e.bm.markDirtyCached g seq } fo :=
  h.books (e.bm.markDirtyCached_same g seq)

theorem Engine.Inv.noteCompaction (h : e.Inv supply fo) (g : BlobGuid) :
    Engine.Inv supply { e with bm := e.bm.noteCompactionCandidate g } fo :=
  h.books (e.bm.noteCompactionCandidate_same g)

theorem Engine.Inv.noteMerge (h : e.Inv supply fo) (g : BlobGuid) :
    Engine.Inv supply { e with bm := e.bm.noteMergeCandidate g } fo :=
  h.books (e.bm.noteMergeCandidate_same g)

theorem Engine.Inv.onRoutes (h : e.Inv supply fo) {f : RouteCache → RouteCache}
    (hf : ∀ c path, c.Sound path → e.Charts supply fo path → (f c).Sound path) :
    Engine.Inv supply { e with routes := e.routes.map f } fo := by
  refine ⟨h.wf, h.blob, h.pending, h.names, h.unborn, fun {c'} hc' => ?_⟩
  obtain ⟨c, hc, rfl⟩ := Option.map_eq_some_iff.mp hc'
  obtain ⟨path, hsound, hchart⟩ := h.routes hc
  exact ⟨path, hf c path hsound hchart, hchart.alive, hchart.gone, hchart.names⟩

/-- No name on a chart is drawn later. -/
theorem Engine.Charts.fresh {path : BlobGuid → Option (List UInt8)}
    (h : e.Charts supply fo path) {i : Nat} (hi : e.drawn ≤ i) : path (supply.guid i) = none := by
  cases hn : path (supply.guid i) with
  | none => rfl
  | some π =>
    rcases h.names hn with hr | ⟨j, hj, hg⟩
    · exact absurd hr (supply.ne_root _)
    · exact absurd (supply.injective hg) (by omega)

variable {F : Frame} {route : RouteEntry} {t : Art}

/-- One blob's frame replaced by one that holds another tree. -/
theorem Engine.Inv.plant (h : e.Inv supply fo) (hp : fo g = some p) (hF : F.Holds t)
    (hg : F.blobGuid = g) (hw : (fo.plant g ⟨p.path, t⟩).Wf root) :
    (e.putFrame g F).Inv supply (fo.plant g ⟨p.path, t⟩) := by
  obtain ⟨b, hb, -⟩ := h.blob hp
  have hpend : (e.putFrame g F).bm.pendingDeletes = e.bm.pendingDeletes := by
    rw [Engine.putFrame, BufferManager.putImage, hb]
  have hpath : ∀ {a q}, fo.plant g ⟨p.path, t⟩ a = some q → ∃ q', fo a = some q' ∧
      q'.path = q.path := by
    intro a q hq
    by_cases ha : a = g
    · subst ha
      cases (fo.plant_self ..).symm.trans hq
      exact ⟨p, hp, rfl⟩
    · rw [Forest.plant_of_ne _ _ ha] at hq
      exact ⟨q, hq, rfl⟩
  refine ⟨hw, fun {a q} hq => ?_, fun {a q} hq => ?_, fun {a q} hq => ?_,
    fun hi => hpend ▸ h.unborn hi, fun hc => ?_⟩
  · rw [Engine.putFrame, BufferManager.view_putImage hb]
    by_cases ha : a = g
    · subst ha
      cases (fo.plant_self ..).symm.trans hq
      rw [if_pos rfl]
      exact ⟨_, rfl, hF, hg⟩
    · rw [Forest.plant_of_ne _ _ ha] at hq
      rw [if_neg ha]
      exact h.blob hq
  · obtain ⟨q', hq', -⟩ := hpath hq
    exact hpend ▸ h.pending hq'
  · obtain ⟨q', hq', -⟩ := hpath hq
    exact h.names hq'
  · obtain ⟨path, hsound, hchart⟩ := h.routes hc
    refine ⟨path, hsound, fun hq => ?_, fun {a π} ha hn => ?_, hchart.names⟩
    · obtain ⟨q', hq', hsame⟩ := hpath hq
      rw [hchart.alive hq', hsame]
    · have hne : a ≠ g := by
        rintro rfl
        cases (fo.plant_self ..).symm.trans hn
      rw [Forest.plant_of_ne _ _ hne] at hn
      exact (hchart.gone ha hn).putImage hne F

/-- A name not drawn yet is no blob's name. -/
theorem Engine.Inv.fresh (h : e.Inv supply fo) : fo (supply.guid e.drawn) = none := by
  cases hn : fo (supply.guid e.drawn) with
  | none => rfl
  | some q =>
    rcases h.names hn with hr | ⟨i, hi, hg⟩
    · exact absurd hr (supply.ne_root _)
    · exact absurd (supply.injective hg) (by omega)

theorem GuidSupply.drawn_succ {n : Nat} {a : BlobGuid}
    (h : a = root ∨ ∃ i < n, a = supply.guid i) : a = root ∨ ∃ i < n + 1, a = supply.guid i :=
  h.imp id (Exists.imp fun _ => And.imp_left Nat.lt_succ_of_lt)

/-- A name drawn and not used. -/
theorem Engine.Inv.draw (h : e.Inv supply fo) :
    Engine.Inv supply { e with drawn := e.drawn + 1 } fo := by
  refine ⟨h.wf, h.blob, h.pending, fun hg => GuidSupply.drawn_succ (h.names hg),
    fun hi => h.unborn (Nat.le_of_succ_le hi), fun hc => ?_⟩
  obtain ⟨path, hsound, hchart⟩ := h.routes hc
  exact ⟨path, hsound, hchart.alive, hchart.gone,
    fun hg => GuidSupply.drawn_succ (hchart.names hg)⟩

/-- A new blob installed beside the frame that lost a subtree to it. -/
theorem Engine.Inv.spill (h : e.Inv supply fo) (hp : fo g = some p) {N : Frame} {sub : Art}
    {rel : List UInt8} {plug : Art → Art} {seq : Nat}
    (hF : F.Holds (plug (.blob [] (supply.guid e.drawn)))) (hg : F.blobGuid = g)
    (hN : N.Holds sub) (hNg : N.blobGuid = supply.guid e.drawn)
    (hw : (fo.spill g p rel sub plug (supply.guid e.drawn)).Wf root) :
    Engine.Inv supply (Engine.putFrame { e with
      bm := e.bm.installNewBlob (supply.guid e.drawn) N seq
      drawn := e.drawn + 1 } g F) (fo.spill g p rel sub plug (supply.guid e.drawn)) := by
  have hnew := h.fresh
  have hne := Forest.spill_new_ne hp hnew
  obtain ⟨b, hb, -⟩ := h.blob hp
  have hview := BufferManager.view_installNewBlob e.bm (supply.guid e.drawn) N seq
  have hb' : (e.bm.installNewBlob (supply.guid e.drawn) N seq).view g = some b := by
    rw [hview, if_neg hne, hb]
  have hpend : ((e.bm.installNewBlob (supply.guid e.drawn) N seq).putImage g F).pendingDeletes =
      e.bm.pendingDeletes := by
    rw [BufferManager.putImage, hb']
    rfl
  refine ⟨hw, fun {a q} hq => ?_, fun {a q} hq => ?_, fun {a q} hq => ?_, fun hi => ?_,
    fun hc => ?_⟩
  · rw [Engine.putFrame, BufferManager.view_putImage hb', hview]
    rcases Forest.spill_cases hp hnew hq with ⟨rfl, rfl⟩ | ⟨rfl, rfl⟩ | ⟨ha, hq⟩
    · rw [if_pos rfl]
      exact ⟨_, rfl, hF, hg⟩
    · rw [if_neg (Ne.symm hne), if_pos rfl]
      exact ⟨_, rfl, hN, hNg⟩
    · have han : a ≠ supply.guid e.drawn := by
        rintro rfl
        simp [hq] at hnew
      rw [if_neg ha, if_neg han]
      exact h.blob hq
  · rw [Engine.putFrame, hpend]
    rcases Forest.spill_cases hp hnew hq with ⟨rfl, -⟩ | ⟨rfl, -⟩ | ⟨-, hq⟩
    · exact h.pending hp
    · exact h.unborn le_rfl
    · exact h.pending hq
  · rcases Forest.spill_cases hp hnew hq with ⟨rfl, -⟩ | ⟨rfl, -⟩ | ⟨-, hq⟩
    · exact GuidSupply.drawn_succ (h.names hp)
    · exact .inr ⟨e.drawn, Nat.lt_succ_self _, rfl⟩
    · exact GuidSupply.drawn_succ (h.names hq)
  · rw [Engine.putFrame, hpend]
    exact h.unborn (Nat.le_of_succ_le hi)
  · obtain ⟨path, hsound, hchart⟩ := h.routes hc
    have hunknown := hchart.fresh le_rfl
    refine ⟨fun a => if a = supply.guid e.drawn then some (p.path ++ rel) else path a,
      hsound.mono fun a π ha => ?_, fun {a q} hq => ?_, fun {a π} ha hn => ?_, fun {a π} ha => ?_⟩
    · rw [if_neg (by rintro rfl; cases hunknown.symm.trans ha), ha]
    · rcases Forest.spill_cases hp hnew hq with ⟨rfl, rfl⟩ | ⟨rfl, rfl⟩ | ⟨-, hq⟩
      · rw [if_neg hne, hchart.alive hp]
      · rw [if_pos rfl]
      · rw [if_neg (by rintro rfl; cases hnew.symm.trans hq), hchart.alive hq]
    · have han : a ≠ supply.guid e.drawn := by
        rintro rfl
        cases Forest.spill_new.symm.trans hn
      have hag : a ≠ g := by
        rintro rfl
        cases (Forest.spill_self hp hnew).symm.trans hn
      rw [if_neg han] at ha
      have hfo : fo a = none := by
        rw [Forest.spill, Forest.plant_of_ne _ _ han, Forest.plant_of_ne _ _ hag] at hn
        exact hn
      have hgone : (e.bm.installNewBlob _ N seq).Gone a :=
        (hchart.gone ha hfo).insert han rfl rfl rfl
      exact hgone.putImage hag F
    · split at ha
      · rename_i ha'
        exact .inr ⟨e.drawn, Nat.lt_succ_self _, ha'⟩
      · exact GuidSupply.drawn_succ (hchart.names ha)

/-! ## Looking into one blob -/

theorem Frame.Holds.answers {π : List UInt8} (h : F.Holds t) (hw : t.Wf π) (key : SearchKey)
    (d : Nat) :
    ∃ fp, LookupResult.Answers F fp (lookupAt F F.rootSlot key d) (t.target key.full d) := by
  obtain ⟨fp, hr, ha⟩ := h
  exact ⟨fp, lookupAt_answers hr ha subset_rfl hw key d⟩

theorem Frame.Holds.lookup_ok {π : List UInt8} (h : F.Holds t) (hw : t.Wf π) (key : SearchKey)
    (d : Nat) : ∃ res, lookupAt F F.rootSlot key d = .ok res := by
  obtain ⟨fp, ha⟩ := h.answers hw key d
  cases htgt : t.target key.full d with
  | absent =>
    rw [htgt] at ha
    exact ⟨_, ha⟩
  | leaf r =>
    rw [htgt] at ha
    by_cases hr : r.tombstone = true
    · simp only [LookupResult.Answers, hr, if_true] at ha
      exact ⟨_, ha⟩
    · simp only [LookupResult.Answers, if_neg hr] at ha
      obtain ⟨hit, hres, -⟩ := ha
      exact ⟨_, hres⟩
  | crossing guid depth =>
    rw [htgt] at ha
    exact ⟨_, ha⟩

theorem routeStillHolds_sat (h : e.Inv supply fo) (hq : fo (routeParent root route) = some p)
    (key : SearchKey) :
    Sat (routeStillHolds root key route) e (fun _ e' => e'.Inv supply fo ∧ e'.bm = e.bm) err := by
  unfold routeStillHolds
  refine (pinned_sat h hq).andThen fun b e' hb => ?_
  obtain ⟨rfl, -, hh, -⟩ := hb
  split
  · exact .pure ⟨h, rfl⟩
  · obtain ⟨res, hres⟩ := hh.lookup_ok (h.wf.tree hq) key route.parentDepth
    obtain ⟨valid, hvalid⟩ : ∃ valid, validateRouteEdge b.image key route = .ok valid := by
      rw [validateRouteEdge, hres]
      exact ⟨_, rfl⟩
    simp only [hvalid, lift_ok, sat_bind, sat_pure]
    split
    · simp only [onRoutes, sat_bind, sat_modify, sat_pure]
      exact ⟨h.onRoutes fun c path hs _ => hs.refreshParentVersion key route _, trivial⟩
    · exact .pure ⟨h, rfl⟩

/-- A pin finds a blob of the forest, or else one that is gone stays so. -/
theorem tryPin_known (h : e.Inv supply fo) (hg : fo g = none → e.bm.Gone g) :
    Sat (tryPin g) e (fun found e' => e'.Inv supply fo ∧ (found = true → ∃ q, fo g = some q) ∧
      ∀ a, e.bm.Gone a → e'.bm.Gone a) err := by
  cases hfo : fo g with
  | some q =>
    obtain ⟨bm, hpin, hinv⟩ := h.pin hfo
    unfold Sat tryPin
    rw [hpin]
    exact ⟨hinv, fun _ => ⟨q, rfl⟩, fun a ha => ha.pin hpin⟩
  | none =>
    unfold Sat tryPin
    rw [(hg hfo).pin_self]
    exact ⟨h, (fun hf => by cases hf), fun _ ha => ha⟩

theorem pinRouteParent_sat (h : e.Inv supply fo)
    (hg : fo route.parentGuid = none → e.bm.Gone route.parentGuid) :
    Sat (pinRouteParent route) e (fun found e' => e'.Inv supply fo ∧
      (found = true → ∃ q, fo (routeParent root route) = some q) ∧
      ∀ a, e.bm.Gone a → e'.bm.Gone a) err := by
  unfold pinRouteParent routeParent
  split
  · obtain ⟨t, ht⟩ := h.wf.top
    exact .pure ⟨h, fun _ => ⟨_, ht⟩, fun _ ha => ha⟩
  · exact tryPin_known h hg

/-- A route that can be used leads to a blob of the forest. -/
theorem useRoute_sat (h : e.Inv supply fo) (key : SearchKey)
    (hpar : fo route.parentGuid = none → e.bm.Gone route.parentGuid)
    (hchild : fo route.childGuid = none → e.bm.Gone route.childGuid) :
    Sat (useRoute root key route) e (fun usable e' => e'.Inv supply fo ∧
      (usable = true → ∃ q, fo route.childGuid = some q)) err := by
  unfold useRoute
  refine (pinRouteParent_sat h hpar).andThen fun found e₁ h₁ => ?_
  obtain ⟨h₁, hfound, hgone⟩ := h₁
  split
  · rename_i hf
    obtain ⟨q, hq⟩ := hfound hf
    refine (routeStillHolds_sat h₁ hq key).andThen fun holds e₂ h₂ => ?_
    split
    · refine (tryPin_known h₂.1 fun hn => ?_).imp fun _ _ h₃ => ⟨h₃.1, h₃.2.1⟩
      rw [h₂.2]
      exact hgone _ (hchild hn)
    · exact .pure ⟨h₂.1, fun hf => by cases hf⟩
  · exact .pure ⟨h₁, fun hf => by cases hf⟩

/-- A route that is followed leads to the blob that hangs at a prefix of the key. -/
theorem followRoute_sat (h : e.Inv supply fo) (key : SearchKey) :
    Sat (followRoute root key) e (fun r e' => e'.Inv supply fo ∧ ∀ route, r = some route →
      ∃ t, fo route.childGuid = some ⟨key.full.take route.childDepth, t⟩ ∧
        route.childDepth ≤ key.full.length) err := by
  simp only [followRoute, sat_bind, sat_get]
  cases hl : e.routes.bind (·.lookup key) with
  | none => exact .pure ⟨h, fun _ hr => by cases hr⟩
  | some route =>
    obtain ⟨c, hc, hlook⟩ := Option.bind_eq_some_iff.mp hl
    obtain ⟨path, hsound, hchart⟩ := h.routes hc
    obtain ⟨hpath, hle, hpar⟩ := hsound.lookup hlook
    obtain ⟨π, hpar⟩ := Option.isSome_iff_exists.mp hpar
    refine (useRoute_sat h key (hchart.gone hpar) (hchart.gone hpath)).andThen
      fun usable e' h' => ?_
    split
    · rename_i husable
      refine .pure ⟨h'.1, fun r hr => ?_⟩
      cases hr
      obtain ⟨q, hq⟩ := h'.2 husable
      have hqp : q.path = _ := Option.some.inj ((hchart.alive hq).symm.trans hpath)
      exact ⟨q.tree, by rw [hq, ← hqp], hle⟩
    · simp only [onRoutes, sat_bind, sat_modify, sat_pure]
      exact ⟨h'.1.onRoutes fun c path hs _ => hs.invalidate key route, fun _ hr => by cases hr⟩

end Inv

end Holt
