import Mathlib.Logic.Relation
import Holt.Art.Below

/-! A tree spread over several blobs: which blobs a key passes, where it ends, and what
changing one blob's tree or moving a subtree to a new blob does to the ends. -/

namespace Holt

open Art

/-- One blob's share of the tree: the path its root hangs at and the tree below. -/
structure Plot where
  path : List UInt8
  tree : Art

abbrev Forest := BlobGuid → Option Plot

theorem Target.live_eq_crossing {t : Target} {g : BlobGuid} {d : Nat} :
    t.live = .crossing g d ↔ t = .crossing g d := by
  cases t with
  | leaf r => cases h : r.tombstone <;> simp [live, h]
  | _ => rfl

/-- Below anything but a blob node a crossing lies deeper than the root. -/
theorem Art.crossing_deeper {t : Art} {π k : List UInt8} {g : BlobGuid} {d : Nat} (hw : t.Wf π)
    (hb : t.isBlob = false) (h : t.target k π.length = .crossing g d) : π.length < d := by
  have hle : ∀ {t : Art} {n : Nat}, t.target k n = .crossing g d → n ≤ d := by
    intro t
    induction t with
    | emptyRoot => simp [target]
    | leaf r =>
      intro n h
      simp only [target] at h
      split at h <;> cases h
    | pfx bytes child ih =>
      intro n h
      simp only [target] at h
      split at h
      · have := ih h
        omega
      · cases h
    | inner has child ih =>
      intro n h
      simp only [target] at h
      split at h
      · cases h
      · split at h
        · have := ih _ h
          omega
        · cases h
    | blob bytes guid =>
      intro n h
      simp only [target] at h
      split at h
      · cases h
        omega
      · cases h
  cases t with
  | emptyRoot => cases h
  | leaf r =>
    simp only [target] at h
    split at h <;> cases h
  | pfx bytes child =>
    simp only [target] at h
    split at h
    · have := hle h
      have := List.length_pos_iff.mpr hw.1
      omega
    · cases h
  | inner has child =>
    simp only [target] at h
    split at h
    · cases h
    · split at h
      · exact hle h
      · cases h
  | blob bytes guid => cases hb

namespace Forest

/-- The key `k` crosses from blob `g` to blob `g'`. -/
def Goes (fo : Forest) (k : List UInt8) (g g' : BlobGuid) : Prop :=
  ∃ p, fo g = some p ∧ p.path <+: k ∧ ∃ d, p.tree.target k p.path.length = .crossing g' d

/-- Followed from blob `g`, the key `k` ends at `o`; a tombstone is an end at nothing. -/
inductive Leads (fo : Forest) (k : List UInt8) : BlobGuid → Target → Prop
  | ends {g : BlobGuid} {p : Plot} (h : fo g = some p) (hk : p.path <+: k)
      (hx : ∀ g' d, p.tree.target k p.path.length ≠ .crossing g' d) :
      Leads fo k g (p.tree.target k p.path.length).live
  | goes {g g' : BlobGuid} {o : Target} (h : fo.Goes k g g') (h' : Leads fo k g' o) : Leads fo k g o

/-- What holds of the blobs of a tree. Crossings lead to known blobs, always deeper, and a blob
is passed by every key that spells the path to it. -/
structure Wf (fo : Forest) (root : BlobGuid) : Prop where
  top : ∃ t, fo root = some ⟨[], t⟩
  tree : ∀ {g p}, fo g = some p → p.tree.Wf p.path
  crossing : ∀ {g p k g' d}, fo g = some p → p.path <+: k →
    p.tree.target k p.path.length = .crossing g' d →
      (∃ t, fo g' = some ⟨k.take d, t⟩) ∧ p.path.length < d ∧ d ≤ k.length
  reached : ∀ {g p k}, fo g = some p → p.path <+: k → Relation.ReflTransGen (fo.Goes k) root g

variable {fo fo' : Forest} {root g g' : BlobGuid} {k : List UInt8} {o o' : Target} {p : Plot}

theorem Goes.unique {a b : BlobGuid} (h : fo.Goes k g a) (h' : fo.Goes k g b) : a = b := by
  obtain ⟨p, hp, -, d, ht⟩ := h
  obtain ⟨p', hp', -, d', ht'⟩ := h'
  cases hp.symm.trans hp'
  cases ht.symm.trans ht'
  rfl

theorem Leads.unique (h : fo.Leads k g o) (h' : fo.Leads k g o') : o = o' := by
  induction h with
  | ends hp hk hx =>
    cases h' with
    | ends hp' _ _ =>
      cases hp.symm.trans hp'
      rfl
    | goes hg _ =>
      obtain ⟨p', hp', -, d, ht⟩ := hg
      cases hp.symm.trans hp'
      exact absurd ht (hx _ d)
  | goes hg _ ih =>
    cases h' with
    | ends hp hk hx =>
      obtain ⟨p', hp', -, d, ht⟩ := hg
      cases hp.symm.trans hp'
      exact absurd ht (hx _ d)
    | goes hg' h' =>
      cases hg.unique hg'
      exact ih h'

theorem Leads.ended (h : fo.Leads k g o) :
    o = .absent ∨ ∃ r, o = .leaf r ∧ r.tombstone = false := by
  induction h with
  | @ends _ p _ _ hx =>
    cases ht : p.tree.target k p.path.length with
    | absent => exact .inl rfl
    | leaf r => cases hr : r.tombstone <;> simp [Target.live, hr]
    | crossing g' d => exact absurd ht (hx g' d)
  | goes _ _ ih => exact ih

theorem leads_of_goes (h : Relation.ReflTransGen (fo.Goes k) g g') (h' : fo.Leads k g' o) :
    fo.Leads k g o := by
  induction h using Relation.ReflTransGen.head_induction_on with
  | refl => exact h'
  | head hg _ ih => exact .goes hg ih

/-- Every key that comes by a blob ends somewhere. -/
theorem Wf.leads (hw : fo.Wf root) (hp : fo g = some p) (hk : p.path <+: k) :
    ∃ o, fo.Leads k g o := by
  -- every crossing uses up a part of the key
  induction hn : k.length - p.path.length using Nat.strong_induction_on generalizing g p with
  | h n ih =>
    by_cases hx : ∀ g' d, p.tree.target k p.path.length ≠ .crossing g' d
    · exact ⟨_, .ends hp hk hx⟩
    · simp only [ne_eq, not_forall, not_not] at hx
      obtain ⟨g', d, hx⟩ := hx
      obtain ⟨⟨t, hg'⟩, hlt, hle⟩ := hw.crossing hp hk hx
      have hlen : (k.take d).length = d := List.length_take_of_le hle
      obtain ⟨o, ho⟩ := ih (k.length - d) (by omega) hg' (List.take_prefix ..)
        (by simp only [hlen])
      exact ⟨o, .goes ⟨p, hp, hk, d, hx⟩ ho⟩

/-- Where a key ends does not depend on the blob of its way one starts from. -/
theorem Wf.leads_root (hw : fo.Wf root) (hp : fo g = some p) (hk : p.path <+: k)
    (h : fo.Leads k g o) : fo.Leads k root o :=
  leads_of_goes (hw.reached hp hk) h

theorem Wf.leads_target (hw : fo.Wf root) (hp : fo g = some p) (hk : p.path <+: k)
    (hx : ∀ g' d, p.tree.target k p.path.length ≠ .crossing g' d) :
    fo.Leads k root (p.tree.target k p.path.length).live :=
  hw.leads_root hp hk (.ends hp hk hx)

theorem Wf.total (hw : fo.Wf root) (k : List UInt8) : ∃ o, fo.Leads k root o := by
  obtain ⟨t, ht⟩ := hw.top
  exact hw.leads ht (List.nil_prefix)

/-! ## One empty blob -/

/-- The root blob alone, and empty. -/
def seed (root : BlobGuid) : Forest := fun g => if g = root then some ⟨[], .emptyRoot⟩ else none

theorem seed_some (h : seed root g = some p) : g = root ∧ p = ⟨[], .emptyRoot⟩ := by
  unfold seed at h
  split at h
  · cases h
    exact ⟨‹_›, rfl⟩
  · cases h

theorem seed_leads (h : (seed root).Leads k g o) : o = .absent := by
  induction h with
  | ends hp _ _ =>
    obtain ⟨rfl, rfl⟩ := seed_some hp
    rfl
  | goes _ _ ih => exact ih

theorem Wf.seed (root : BlobGuid) : (seed root).Wf root where
  top := ⟨.emptyRoot, if_pos rfl⟩
  tree := fun hp => by
    obtain ⟨rfl, rfl⟩ := seed_some hp
    trivial
  crossing := fun hp _ hx => by
    obtain ⟨rfl, rfl⟩ := seed_some hp
    cases hx
  reached := fun hp _ => by
    obtain ⟨rfl, rfl⟩ := seed_some hp
    exact .refl

/-! ## One blob's tree changed -/

def plant (fo : Forest) (g : BlobGuid) (p : Plot) : Forest := Function.update fo g (some p)

@[simp]
theorem plant_self (fo : Forest) (g : BlobGuid) (p : Plot) : fo.plant g p g = some p := by
  simp [plant]

theorem plant_of_ne (fo : Forest) {g a : BlobGuid} (p : Plot) (h : a ≠ g) :
    fo.plant g p a = fo a := by
  simp [plant, h]

theorem plant_same {fo : Forest} {g : BlobGuid} {p : Plot} (h : fo g = some p) :
    fo.plant g ⟨p.path, p.tree⟩ = fo := by
  unfold plant
  rw [Function.update_eq_self_iff, h]

/-- Known blobs keep their paths. -/
def Extends (fo fo' : Forest) : Prop := ∀ g p, fo g = some p → ∃ t, fo' g = some ⟨p.path, t⟩

theorem Extends.refl (fo : Forest) : fo.Extends fo := fun _ p h => ⟨p.tree, h⟩

theorem Extends.trans {fo₁ fo₂ fo₃ : Forest} (h : fo₁.Extends fo₂) (h' : fo₂.Extends fo₃) :
    fo₁.Extends fo₃ := fun g p hp => by
  obtain ⟨t, ht⟩ := h g p hp
  exact h' g ⟨p.path, t⟩ ht

/-- The key `k` comes by the blob `g`, which hangs at its first `d` bytes. -/
def Passes (fo : Forest) (k : List UInt8) (g : BlobGuid) (d : Nat) : Prop :=
  ∃ p, fo g = some p ∧ p.path <+: k ∧ p.path.length = d

theorem Passes.mono {d : Nat} (h : fo.Passes k g d) (hx : fo.Extends fo') : fo'.Passes k g d := by
  obtain ⟨p, hp, hk, hd⟩ := h
  obtain ⟨t, ht⟩ := hx g p hp
  exact ⟨_, ht, hk, hd⟩

theorem passes_take {d : Nat} {t : Art} (h : fo g = some ⟨k.take d, t⟩) (hd : d ≤ k.length) :
    fo.Passes k g d :=
  ⟨_, h, List.take_prefix .., List.length_take_of_le hd⟩

theorem extends_plant (hp : fo g = some p) (t : Art) : fo.Extends (fo.plant g ⟨p.path, t⟩) := by
  intro a q hq
  by_cases ha : a = g
  · subst ha
    cases hp.symm.trans hq
    exact ⟨t, plant_self ..⟩
  · exact ⟨q.tree, (plant_of_ne fo _ ha).trans hq⟩

section Replace

variable {t : Art} {K : Set (List UInt8)} (hp : fo g = some p)
  (hsame : ∀ k, p.path <+: k → k ∉ K →
    (t.target k p.path.length).live = (p.tree.target k p.path.length).live)
  (hold : ∀ k ∈ K, p.path <+: k → ∀ g' d, p.tree.target k p.path.length ≠ .crossing g' d)
  (hnew : ∀ k ∈ K, p.path <+: k → ∀ g' d, t.target k p.path.length ≠ .crossing g' d)

include hsame hold hnew

theorem crossing_plant {d : Nat} (hk : p.path <+: k) : t.target k p.path.length = .crossing g' d ↔
    p.tree.target k p.path.length = .crossing g' d := by
  by_cases hK : k ∈ K
  · exact iff_of_false (hnew k hK hk g' d) (hold k hK hk g' d)
  · rw [← Target.live_eq_crossing, hsame k hk hK, Target.live_eq_crossing]

include hp

theorem goes_plant : (fo.plant g ⟨p.path, t⟩).Goes k = fo.Goes k := by
  funext a b
  refine propext ?_
  by_cases ha : a = g
  · subst ha
    simp only [Goes, plant_self, hp, Option.some.injEq, exists_eq_left']
    constructor
    · rintro ⟨hk, d, ht⟩
      exact ⟨hk, d, (crossing_plant hsame hold hnew hk).mp ht⟩
    · rintro ⟨hk, d, ht⟩
      exact ⟨hk, d, (crossing_plant hsame hold hnew hk).mpr ht⟩
  · simp only [Goes, plant_of_ne fo _ ha]

theorem leads_plant (hK : k ∉ K) {a : BlobGuid} (h : fo.Leads k a o) :
    (fo.plant g ⟨p.path, t⟩).Leads k a o := by
  induction h with
  | goes hg _ ih => exact .goes (by rwa [goes_plant hp hsame hold hnew]) ih
  | @ends a q hq hk hx =>
    by_cases ha : a = g
    · subst ha
      cases hp.symm.trans hq
      rw [← hsame k hk hK]
      exact .ends (plant_self ..) hk fun g' d ht =>
        hx g' d ((crossing_plant hsame hold hnew hk).mp ht)
    · exact .ends ((plant_of_ne fo _ ha).trans hq) hk hx

/-- A change that leaves crossings alone moves the ends of the keys in `K` only. -/
theorem Wf.plant (hw : fo.Wf root) (ht : t.Wf p.path) :
    (fo.plant g ⟨p.path, t⟩).Wf root ∧
    ∀ k, k ∉ K → ∀ o, (fo.plant g ⟨p.path, t⟩).Leads k root o ↔ fo.Leads k root o := by
  have hext : fo.Extends (fo.plant g ⟨p.path, t⟩) := extends_plant hp t
  refine ⟨⟨?_, ?_, ?_, ?_⟩, fun k hK o => ⟨fun h => ?_, leads_plant hp hsame hold hnew hK⟩⟩
  · obtain ⟨t₀, h₀⟩ := hw.top
    exact hext _ _ h₀
  · intro a q hq
    by_cases ha : a = g
    · subst ha
      cases (plant_self ..).symm.trans hq
      exact ht
    · exact hw.tree ((plant_of_ne fo _ ha).symm.trans hq)
  · intro a q k g' d hq hk hx
    have key : ∃ q', fo a = some q' ∧ q'.path = q.path ∧
        q'.tree.target k q'.path.length = .crossing g' d := by
      by_cases ha : a = g
      · subst ha
        cases (plant_self ..).symm.trans hq
        exact ⟨p, hp, rfl, (crossing_plant hsame hold hnew hk).mp hx⟩
      · exact ⟨q, (plant_of_ne fo _ ha).symm.trans hq, rfl, hx⟩
    obtain ⟨q', hq', hpath, hx'⟩ := key
    obtain ⟨⟨t', hg'⟩, hlt⟩ := hw.crossing hq' (by rw [hpath]; exact hk) hx'
    rw [hpath] at hlt
    exact ⟨hext _ _ hg', hlt⟩
  · intro a q k hq hk
    rw [goes_plant hp hsame hold hnew]
    by_cases ha : a = g
    · subst ha
      cases (plant_self ..).symm.trans hq
      exact hw.reached hp hk
    · exact hw.reached ((plant_of_ne fo _ ha).symm.trans hq) hk
  · obtain ⟨o', h'⟩ := hw.total k
    cases h.unique (leads_plant hp hsame hold hnew hK h')
    exact h'

end Replace

/-! ## A subtree moved to a blob of its own -/

/-- `sub` goes to the new blob `new`, and a crossing takes its place. -/
def spill (fo : Forest) (g : BlobGuid) (p : Plot) (rel : List UInt8) (sub : Art)
    (plug : Art → Art) (new : BlobGuid) : Forest :=
  (fo.plant g ⟨p.path, plug (.blob [] new)⟩).plant new ⟨p.path ++ rel, sub⟩

section Spill

variable {rel : List UInt8} {sub : Art} {plug : Art → Art} {new : BlobGuid}
  (hp : fo g = some p) (hnew : fo new = none)

include hp hnew

theorem spill_new_ne : g ≠ new := by
  rintro rfl
  simp [hp] at hnew

theorem spill_self : fo.spill g p rel sub plug new g = some ⟨p.path, plug (.blob [] new)⟩ := by
  rw [spill, plant_of_ne _ _ (spill_new_ne hp hnew), plant_self]

omit hp hnew in
@[simp]
theorem spill_new : fo.spill g p rel sub plug new new = some ⟨p.path ++ rel, sub⟩ :=
  plant_self ..

omit hp in
theorem spill_of_ne {a : BlobGuid} {q : Plot} (ha : a ≠ g) (hq : fo a = some q) :
    fo.spill g p rel sub plug new a = some q := by
  have hn : a ≠ new := by
    rintro rfl
    simp [hq] at hnew
  rw [spill, plant_of_ne _ _ hn, plant_of_ne _ _ ha, hq]

theorem extends_spill : fo.Extends (fo.spill g p rel sub plug new) := by
  intro a q hq
  by_cases ha : a = g
  · subst ha
    cases hp.symm.trans hq
    exact ⟨_, spill_self hp hnew⟩
  · exact ⟨q.tree, spill_of_ne hnew ha hq⟩

variable (hb : Below p.tree rel sub plug)

include hb

omit hp hnew in
theorem target_cut (hπ : p.path <+: k) : (plug (.blob [] new)).target k p.path.length =
    if p.path ++ rel <+: k then .crossing new (p.path ++ rel).length
    else p.tree.target k p.path.length := by
  rw [hb.target_plug _ hπ]
  by_cases hk : p.path ++ rel <+: k
  · simp only [if_pos hk, target, next_nil, if_pos hk.length_le, List.length_nil, Nat.add_zero]
  · simp only [if_neg hk]

theorem goes_cut (hk : p.path ++ rel <+: k) : (fo.spill g p rel sub plug new).Goes k g new := by
  have hπ : p.path <+: k := (List.prefix_append ..).trans hk
  exact ⟨_, spill_self hp hnew, hπ, _, by rw [target_cut hb hπ, if_pos hk]⟩

/-- An old step is a step still, or the new blob stands in between. -/
theorem goes_spill {a b : BlobGuid} (h : fo.Goes k a b) :
    Relation.ReflTransGen ((fo.spill g p rel sub plug new).Goes k) a b := by
  obtain ⟨q, hq, hk, d, ht⟩ := h
  by_cases ha : a = g
  · subst ha
    cases hp.symm.trans hq
    by_cases hc : p.path ++ rel <+: k
    · refine .head (goes_cut hp hnew hb hc) (.single ⟨_, spill_new, hc, d, ?_⟩)
      rw [hb.target_moved hc, ht]
    · refine .single ⟨_, spill_self hp hnew, hk, d, ?_⟩
      rw [target_cut hb hk, if_neg hc, ht]
  · exact .single ⟨q, spill_of_ne hnew ha hq, hk, d, ht⟩

theorem leads_spill {a : BlobGuid} (h : fo.Leads k a o) :
    (fo.spill g p rel sub plug new).Leads k a o := by
  induction h with
  | goes hg _ ih => exact leads_of_goes (goes_spill hp hnew hb hg) ih
  | @ends a q hq hk hx =>
    by_cases ha : a = g
    · subst ha
      cases hp.symm.trans hq
      by_cases hc : p.path ++ rel <+: k
      · refine .goes (goes_cut hp hnew hb hc) ?_
        have hmoved := hb.target_moved hc
        rw [← hmoved] at hx ⊢
        exact .ends (p := ⟨p.path ++ rel, sub⟩) spill_new hc hx
      · have hcut : (plug (.blob [] new)).target k p.path.length =
            p.tree.target k p.path.length := by rw [target_cut hb hk, if_neg hc]
        rw [← hcut] at hx ⊢
        exact .ends (p := ⟨p.path, plug (.blob [] new)⟩) (spill_self hp hnew) hk hx
    · exact .ends (spill_of_ne hnew ha hq) hk hx

omit hb in
/-- The blobs after the move: the old ones, one of them cut, and the new one. -/
theorem spill_cases {a : BlobGuid} {q : Plot} (hq : fo.spill g p rel sub plug new a = some q) :
    (a = g ∧ q = ⟨p.path, plug (.blob [] new)⟩) ∨ (a = new ∧ q = ⟨p.path ++ rel, sub⟩) ∨
      (a ≠ g ∧ fo a = some q) := by
  by_cases hn : a = new
  · subst hn
    cases spill_new.symm.trans hq
    exact Or.inr (Or.inl ⟨rfl, rfl⟩)
  · by_cases ha : a = g
    · subst ha
      cases (spill_self hp hnew).symm.trans hq
      exact Or.inl ⟨rfl, rfl⟩
    · rw [spill, plant_of_ne _ _ hn, plant_of_ne _ _ ha] at hq
      exact Or.inr (Or.inr ⟨ha, hq⟩)

/-- Moving a subtree changes where no key ends. -/
theorem Wf.spill (hw : fo.Wf root) (hrel : rel ≠ []) (hsub : sub.isBlob = false) :
    (fo.spill g p rel sub plug new).Wf root ∧
    ∀ k o, (fo.spill g p rel sub plug new).Leads k root o ↔ fo.Leads k root o := by
  have hext : fo.Extends (fo.spill g p rel sub plug new) := extends_spill hp hnew
  obtain ⟨hws, hplug⟩ := hb.wf (hw.tree hp)
  have hlift : ∀ {k a}, Relation.ReflTransGen (fo.Goes k) root a →
      Relation.ReflTransGen ((fo.spill g p rel sub plug new).Goes k) root a := by
    intro k a h
    induction h with
    | refl => exact .refl
    | tail _ hg ih => exact ih.trans (goes_spill hp hnew hb hg)
  refine ⟨⟨?_, ?_, ?_, ?_⟩, fun k o => ⟨fun h => ?_, leads_spill hp hnew hb⟩⟩
  · obtain ⟨t₀, h₀⟩ := hw.top
    exact hext _ _ h₀
  · intro a q hq
    rcases spill_cases hp hnew hq with ⟨rfl, rfl⟩ | ⟨rfl, rfl⟩ | ⟨-, hq⟩
    · exact hplug _ (Nat.zero_le _)
    · exact hws
    · exact hw.tree hq
  · intro a q k g' d hq hk hx
    rcases spill_cases hp hnew hq with ⟨rfl, rfl⟩ | ⟨rfl, rfl⟩ | ⟨-, hq⟩
    · rw [target_cut hb hk] at hx
      split at hx
      · rename_i hc
        cases hx
        refine ⟨⟨sub, ?_⟩, ?_, hc.length_le⟩
        · rw [← List.prefix_iff_eq_take.mp hc]
          exact spill_new
        · rw [List.length_append]
          exact Nat.lt_add_of_pos_right (List.length_pos_iff.mpr hrel)
      · obtain ⟨⟨t, ht⟩, hlt⟩ := hw.crossing hp hk hx
        exact ⟨hext _ _ ht, hlt⟩
    · have hlt := crossing_deeper hws hsub hx
      rw [hb.target_moved hk] at hx
      obtain ⟨⟨t, ht⟩, -, hle⟩ := hw.crossing hp ((List.prefix_append ..).trans hk) hx
      exact ⟨hext _ _ ht, hlt, hle⟩
    · obtain ⟨⟨t, ht⟩, hlt⟩ := hw.crossing hq hk hx
      exact ⟨hext _ _ ht, hlt⟩
  · intro a q k hq hk
    rcases spill_cases hp hnew hq with ⟨rfl, rfl⟩ | ⟨rfl, rfl⟩ | ⟨-, hq⟩
    · exact hlift (hw.reached hp hk)
    · exact (hlift (hw.reached hp ((List.prefix_append ..).trans hk))).tail
        (goes_cut hp hnew hb hk)
    · exact hlift (hw.reached hq hk)
  · obtain ⟨o', h'⟩ := hw.total k
    cases h.unique (leads_spill hp hnew hb h')
    exact h'

end Spill

end Forest

end Holt
