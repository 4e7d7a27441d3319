import Holt.Walker.Engine

/-! The read descent across blobs, with nobody else at work: a snapshot that is validated at once
is valid. -/

namespace Holt

open Holt.Lib

inductive CrossBlobLookup (R : Type)
  | done (result : Option R)
  | restart

/-- Look the crossing up again, remember it, and pin the child. -/
def pinValidatedChild (key : SearchKey) (parent : BlobGuid) (parentDepth : Nat)
    (expectedGuid : BlobGuid) (expectedDepth : Nat) : WalkM (Option (BlobGuid × Nat)) := do
  let b ← pinned parent
  match ← lift (lookupAt b.image b.image.rootSlot key parentDepth) with
  | .crossing guid depth =>
    if guid = expectedGuid ∧ depth = expectedDepth then
      onRoutes fun c => c.learn key ⟨b.image.blobGuid, parentDepth, b.version, guid, depth⟩
      pin guid
      pure (some (guid, depth))
    else pure none
  | _ => pure none

/-- Hop from blob to blob. `consume` reads the value out of the frame it was found in. -/
def lookupFromPinnedBlob {R : Type} (consume : Frame → LookupHit → R) (key : SearchKey) :
    Nat → BlobGuid → Nat → WalkM (CrossBlobLookup R)
  | 0, _, _ => throw .diverged
  | fuel + 1, guid, depth => do
    let b ← pinned guid
    match ← lift (lookupAt b.image b.image.rootSlot key depth) with
    | .found hit => pure (.done (some (consume b.image hit)))
    | .notFound => pure (.done none)
    | .crossing childGuid childDepth =>
      match ← pinValidatedChild key guid depth childGuid childDepth with
      | none => pure .restart
      | some (childGuid, childDepth) => lookupFromPinnedBlob consume key fuel childGuid childDepth

/-- The blob and the depth a descent starts at. -/
def startOf (root : BlobGuid) : Option RouteEntry → BlobGuid × Nat
  | some route => (route.childGuid, route.childDepth)
  | none => (root, 0)

def lookupMultiWith {R : Type} (root : BlobGuid) (consume : Frame → LookupHit → R)
    (key : SearchKey) : Nat → WalkM (Option R)
  | 0 => throw .diverged
  | restarts + 1 => do
    let route ← followRoute root key
    match ← lookupFromPinnedBlob consume key (key.len + 1) (startOf root route).1
      (startOf root route).2 with
    | .done result => pure result
    | .restart => lookupMultiWith root consume key restarts

/-- The answer for a key that ends at `o`. -/
def Reads {R : Type} (consume : Frame → LookupHit → R) (result : Option R) : Target → Prop
  | .leaf r => ∃ F hit, result = some (consume F hit) ∧
      F.bytesAt hit.offset hit.len = some r.value ∧ hit.seq = r.seq
  | _ => result = none

section Lookup

variable {root : BlobGuid} {supply : GuidSupply root} {e : Engine} {fo : Forest} {g : BlobGuid}
  {p : Plot} {key : SearchKey} {err : Error → Engine → Prop}

/-- What a lookup in one blob says about where the key ends. -/
theorem Engine.Inv.hop {b : CachedBlob Frame} (h : e.Inv supply fo) (hp : fo g = some p)
    (hk : p.path <+: key.full) (hh : b.image.Holds p.tree) :
    (∃ g' d t, lookupAt b.image b.image.rootSlot key p.path.length = .ok (.crossing g' d) ∧
      p.tree.target key.full p.path.length = .crossing g' d ∧
      fo g' = some ⟨key.full.take d, t⟩ ∧ p.path.length < d ∧ d ≤ key.full.length) ∨
    ∃ res, lookupAt b.image b.image.rootSlot key p.path.length = .ok res ∧
      (∀ g' d, p.tree.target key.full p.path.length ≠ .crossing g' d) ∧
      match (p.tree.target key.full p.path.length).live with
      | .leaf r => ∃ hit, res = .found hit ∧
          b.image.bytesAt hit.offset hit.len = some r.value ∧ hit.seq = r.seq
      | _ => res = .notFound := by
  obtain ⟨fp, ha⟩ := hh.answers (h.wf.tree hp) key p.path.length
  cases htgt : p.tree.target key.full p.path.length with
  | absent =>
    rw [htgt] at ha
    exact Or.inr ⟨_, ha, by simp, rfl⟩
  | leaf r =>
    rw [htgt] at ha
    refine Or.inr ?_
    by_cases hr : r.tombstone = true
    · simp only [LookupResult.Answers, hr, if_true] at ha
      exact ⟨_, ha, by simp, by simp [Target.live, hr]⟩
    · simp only [LookupResult.Answers, if_neg hr] at ha
      obtain ⟨hit, hres, hv, hs, -⟩ := ha
      exact ⟨_, hres, by simp, by simpa [Target.live, hr] using ⟨hv, hs⟩⟩
  | crossing g' d =>
    rw [htgt] at ha
    obtain ⟨⟨t, hg'⟩, hlt, hle⟩ := h.wf.crossing hp hk htgt
    exact Or.inl ⟨g', d, t, ha, rfl, hg', hlt, hle⟩

/-- A crossing that was seen may be remembered. -/
theorem Engine.Inv.learn (h : e.Inv supply fo) (hp : fo g = some p) {a g' : BlobGuid}
    {d v n : Nat} {t : Art} (ha : a = g) (hg' : fo g' = some ⟨key.full.take d, t⟩) :
    Engine.Inv supply { e with routes := e.routes.map fun c => c.learn key ⟨a, n, v, g', d⟩ }
      fo := by
  subst ha
  refine h.onRoutes fun c path hs hchart => hs.learn (hchart.alive hg') ?_
  rw [hchart.alive hp]
  rfl

theorem pinValidatedChild_sat (h : e.Inv supply fo) (hp : fo g = some p) {g' : BlobGuid} {d : Nat}
    {t : Art} (hg' : fo g' = some ⟨key.full.take d, t⟩)
    (hlook : ∀ b, e.bm.view g = some b →
      lookupAt b.image b.image.rootSlot key p.path.length = .ok (.crossing g' d)) :
    Sat (pinValidatedChild key g p.path.length g' d) e
      (fun r e' => e'.Inv supply fo ∧ r = some (g', d)) err := by
  unfold pinValidatedChild
  refine (pinned_sat h hp).andThen fun b e' hb => ?_
  obtain ⟨rfl, hcache, -, hguid⟩ := hb
  simp only [hlook b hcache, lift_ok, sat_bind, sat_pure, and_self, if_true, onRoutes, sat_modify]
  have h' := h.learn hp hguid hg' (v := b.version) (n := p.path.length)
  exact (pin_sat h' hg').imp fun _ _ he => ⟨he.1, trivial⟩

/-- Whatever was expected, the child that is pinned is one the key comes by. -/
theorem pinValidatedChild_passes {n d : Nat} {g' : BlobGuid} (h : e.Inv supply fo)
    (hg : fo.Passes key.full g n) :
    Sat (pinValidatedChild key g n g' d) e
      (fun r e' => e'.Inv supply fo ∧ ∀ c, r = some c → fo.Passes key.full c.1 c.2) err := by
  obtain ⟨p, hp, hk, rfl⟩ := hg
  unfold pinValidatedChild
  refine (pinned_sat h hp).andThen fun b e' hb => ?_
  obtain ⟨rfl, hcache, hh, hguid⟩ := hb
  rcases h.hop hp hk hh with ⟨g₁, d₁, t, hlook, -, hg₁, -, hle⟩ | ⟨res, hres, -, hans⟩
  · simp only [hlook, lift_ok, sat_bind, sat_pure]
    split
    · simp only [onRoutes, sat_bind, sat_modify, sat_pure]
      have h' := h.learn hp hguid hg₁ (v := b.version) (n := p.path.length)
      refine (pin_sat h' hg₁).imp fun _ e₁ h₁ => ?_
      refine ⟨h₁.1, fun c hc => ?_⟩
      cases hc
      exact Forest.passes_take hg₁ hle
    · exact .pure ⟨h, fun c hc => by cases hc⟩
  · simp only [hres, lift_ok, sat_bind, sat_pure]
    split
    · rename_i guid depth
      split at hans
      · obtain ⟨hit, hcross, -⟩ := hans
        cases hcross
      · cases hans
    · exact .pure ⟨h, fun c hc => by cases hc⟩

variable {R : Type} (consume : Frame → LookupHit → R)

/-- The descent answers for where the key ends. -/
theorem lookupFromPinnedBlob_sat {fuel : Nat} (h : e.Inv supply fo) (hp : fo g = some p)
    (hk : p.path <+: key.full) (hfuel : key.full.length - p.path.length < fuel) :
    Sat (lookupFromPinnedBlob consume key fuel g p.path.length) e
      (fun r e' => e'.Inv supply fo ∧ ∃ o result, fo.Leads key.full root o ∧ r = .done result ∧
        Reads consume result o) err := by
  induction fuel generalizing e g p with
  | zero => omega
  | succ fuel ih =>
    simp only [lookupFromPinnedBlob]
    refine (pinned_sat h hp).andThen fun b e' hb => ?_
    obtain ⟨rfl, hcache, hh, -⟩ := hb
    rcases h.hop hp hk hh with ⟨g', d, t, hlook, -, hg', hlt, hle⟩ | ⟨res, hres, hx, hans⟩
    · have hlen : (key.full.take d).length = d := List.length_take_of_le hle
      simp only [hlook, lift_ok, sat_bind, sat_pure]
      refine (pinValidatedChild_sat h hp hg' fun b' hb' => ?_).imp fun r e₁ h₁ => ?_
      · cases hcache.symm.trans hb'
        exact hlook
      · obtain ⟨h₁, rfl⟩ := h₁
        have := ih h₁ hg' (List.take_prefix ..) (by simp only [hlen]; omega)
        rwa [hlen] at this
    · have hlead := h.wf.leads_target hp hk hx
      simp only [hres, lift_ok, sat_bind, sat_pure]
      revert hans hlead
      cases (p.tree.target key.full p.path.length).live with
      | leaf r =>
        rintro ⟨hit, rfl, hv, hs⟩ hlead
        exact .pure ⟨h, _, _, hlead, rfl, b.image, hit, rfl, hv, hs⟩
      | absent =>
        rintro rfl hlead
        exact .pure ⟨h, _, _, hlead, rfl, rfl⟩
      | crossing guid depth =>
        rintro rfl hlead
        exact .pure ⟨h, _, _, hlead, rfl, rfl⟩

theorem startOf_spec (h : e.Inv supply fo) {r : Option RouteEntry}
    (hr : ∀ route, r = some route →
      ∃ t, fo route.childGuid = some ⟨key.full.take route.childDepth, t⟩ ∧
        route.childDepth ≤ key.full.length) :
    ∃ p, fo (startOf root r).1 = some p ∧ p.path <+: key.full ∧
      p.path.length = (startOf root r).2 := by
  cases r with
  | none =>
    obtain ⟨t, ht⟩ := h.wf.top
    exact ⟨_, ht, List.nil_prefix, rfl⟩
  | some route =>
    obtain ⟨t, ht, hle⟩ := hr route rfl
    exact ⟨_, ht, List.take_prefix .., List.length_take_of_le hle⟩

theorem lookupMultiWith_sat (key : SearchKey) (h : e.Inv supply fo) (restarts : Nat) :
    Sat (lookupMultiWith root consume key (restarts + 1)) e
      (fun result e' => e'.Inv supply fo ∧ ∃ o, fo.Leads key.full root o ∧
        Reads consume result o) err := by
  simp only [lookupMultiWith]
  refine (followRoute_sat h key).andThen fun route e' h' => ?_
  obtain ⟨p, hp, hk, hlen⟩ := startOf_spec h'.1 h'.2
  rw [sat_bind, ← hlen]
  refine (lookupFromPinnedBlob_sat consume h'.1 hp hk ?_).imp fun r e₁ h₁ => ?_
  · rw [SearchKey.length_full]
    omega
  · obtain ⟨hinv, o, result, hlead, rfl, hreads⟩ := h₁
    exact .pure ⟨hinv, o, hlead, hreads⟩

end Lookup

end Holt
