import Holt.Art.Target

/-! What erasure and compaction do to the places keys lead to. -/

namespace Holt

open Holt.Lib

namespace Art

/-- What an erasure at path `π` may answer. -/
def EraseResult.Meets (t : Art) (π k : List UInt8) (cond : EraseCondition) : EraseResult → Prop
  | .done t' true => Wf π t' ∧ ∃ r, t.target k π.length = .leaf r ∧ cond.admits r = true ∧
      Redirects t t' π k (.leaf { r with tombstone := true })
  | .done t' false => t' = t ∧ cond.admitsTarget (t.target k π.length) = false ∧
      ∀ g d, t.target k π.length ≠ .crossing g d
  | .crossing g d => t.target k π.length = .crossing g d

/-- Erasure turns one leaf into a tombstone and moves nothing. -/
theorem erase_meets {t : Art} {π k : List UInt8} (cond : EraseCondition) (ht : Wf π t)
    (hπ : π <+: k) : EraseResult.Meets t π k cond (erase k cond t π.length) := by
  induction t generalizing π with
  | emptyRoot => exact ⟨rfl, rfl, by simp [target]⟩
  | leaf r =>
    unfold erase
    split
    · rename_i h
      refine ⟨ht, r, by simp [target, h.1], h.2, fun k' _ => ?_⟩
      by_cases he : k' = k
      · simp [target, he, h.1]
      · have : ¬ r.key = k' := fun hr => he (hr.symm.trans h.1)
        simp [target, he, this]
    · rename_i h
      refine ⟨rfl, ?_, ?_⟩
      · by_cases hk : r.key = k
        · simpa [target, hk, EraseCondition.admitsTarget] using h
        · simp [target, hk, EraseCondition.admitsTarget]
      · intro g d
        simp only [target]
        split <;> simp
  | pfx bytes child ih =>
    obtain ⟨hne, hcap, hw⟩ := ht
    unfold erase
    split
    · rename_i hnext
      have hsub := ih hw (prefix_of_next hπ hnext)
      rw [List.length_append] at hsub
      generalize hres : erase k cond child (π.length + bytes.length) = res at hsub
      have htk := target_pfx child hnext
      cases res with
      | done t' m =>
        cases m with
        | true =>
          obtain ⟨hw', r, hr, ha, hall⟩ := hsub
          rw [List.length_append] at hr
          exact ⟨⟨hne, hcap, hw'⟩, r, htk.trans hr, ha, hall.pfx hnext⟩
        | false =>
          obtain ⟨rfl, ha, hno⟩ := hsub
          rw [List.length_append] at ha hno
          exact ⟨rfl, by rw [htk]; exact ha, by rw [htk]; exact hno⟩
      | crossing g d =>
        change child.target _ _ = _ at hsub
        rw [List.length_append] at hsub
        exact htk.trans hsub
    · rename_i hnext
      exact ⟨rfl, by simp [target, hnext, EraseCondition.admitsTarget], by simp [target, hnext]⟩
  | inner has child ih =>
    unfold erase
    cases hb : k[π.length]? with
    | none =>
      exact ⟨rfl, by simp [target, hb, EraseCondition.admitsTarget], by simp [target, hb]⟩
    | some b =>
      simp only
      split
      · rename_i hh
        have hsub := ih b (ht b hh) (prefix_snoc hπ hb)
        rw [List.length_append, List.length_singleton] at hsub
        generalize hres : erase k cond (child b) (π.length + 1) = res at hsub
        have htk := target_inner child hb hh
        cases res with
        | done t' m =>
          cases m with
          | true =>
            obtain ⟨hw', r, hr, ha, hall⟩ := hsub
            rw [List.length_append, List.length_singleton] at hr
            exact ⟨wf_update ht hw', r, htk.trans hr, ha, hall.inner hb hh⟩
          | false =>
            obtain ⟨rfl, ha, hno⟩ := hsub
            rw [List.length_append, List.length_singleton] at ha hno
            exact ⟨by simp, by rw [htk]; exact ha, by rw [htk]; exact hno⟩
        | crossing g d =>
          change (child b).target _ _ = _ at hsub
          rw [List.length_append, List.length_singleton] at hsub
          exact htk.trans hsub
      · rename_i hh
        exact ⟨rfl, by simp [target, hb, hh, EraseCondition.admitsTarget],
          by simp [target, hb, hh]⟩
  | blob bytes guid =>
    unfold erase
    split
    · rename_i hnext
      simp [EraseResult.Meets, target, hnext]
    · rename_i hnext
      exact ⟨rfl, by simp [target, hnext, EraseCondition.admitsTarget], by simp [target, hnext]⟩

/-! ## Compaction -/

section Prune

variable {has : UInt8 → Bool} {child : UInt8 → Art}

theorem mem_alive {b : UInt8} :
    b ∈ allBytes.filter (fun b => has b && (child b).prune.isSome) ↔
      has b = true ∧ (child b).prune.isSome = true := by
  simp

theorem prune_inner_none
    (h : allBytes.filter (fun b => has b && (child b).prune.isSome) = []) :
    (inner has child).prune = none := by
  simp only [prune, h]

theorem prune_inner_one {b : UInt8}
    (h : allBytes.filter (fun b => has b && (child b).prune.isSome) = [b]) :
    (inner has child).prune = (child b).prune.map (.pfx [b]) := by
  simp only [prune, h]

theorem prune_inner_many {b b₂ : UInt8} {rest : List UInt8}
    (h : allBytes.filter (fun b => has b && (child b).prune.isSome) = b :: b₂ :: rest) :
    (inner has child).prune = some (.inner (fun b => has b && (child b).prune.isSome)
      fun b => (child b).prune.getD .emptyRoot) := by
  simp only [prune, h]

/-- The ways something is left of a tree, by induction on the tree. -/
@[elab_as_elim]
theorem prune_induction {motive : (t t' : Art) → t.prune = some t' → Prop}
    (emptyRoot : motive .emptyRoot .emptyRoot rfl)
    (leaf : ∀ r (hr : r.tombstone = false), motive (.leaf r) (.leaf r) (by simp [prune, hr]))
    (pfx : ∀ bytes child child' (hc : child.prune = some child'), motive child child' hc →
      motive (.pfx bytes child) (.pfx bytes child') (by simp [prune, hc]))
    (one : ∀ has child b tb
      (hf : allBytes.filter (fun b => has b && (child b).prune.isSome) = [b]), has b = true →
      ∀ htb : (child b).prune = some tb, motive (child b) tb htb →
        motive (.inner has child) (.pfx [b] tb) (by simp [prune_inner_one hf, htb]))
    (many : ∀ has child b b₂ rest
      (hf : allBytes.filter (fun b => has b && (child b).prune.isSome) = b :: b₂ :: rest),
      (∀ b tb (htb : (child b).prune = some tb), motive (child b) tb htb) →
      motive (.inner has child) (.inner (fun b => has b && (child b).prune.isSome)
        fun b => (child b).prune.getD .emptyRoot) (prune_inner_many hf))
    (blob : ∀ bytes guid, motive (.blob bytes guid) (.blob bytes guid) rfl) {t t' : Art}
    (hp : t.prune = some t') : motive t t' hp := by
  induction t generalizing t' with
  | emptyRoot =>
    cases hp
    exact emptyRoot
  | leaf r =>
    simp only [prune] at hp
    split at hp
    · cases hp
    · rename_i hr
      cases hp
      exact leaf r (by simpa using hr)
  | pfx bytes child ih =>
    simp only [prune, Option.map_eq_some_iff] at hp
    obtain ⟨child', hc, rfl⟩ := hp
    exact pfx bytes child child' hc (ih hc)
  | inner has child ih =>
    cases hf : allBytes.filter (fun b => has b && (child b).prune.isSome) with
    | nil =>
      rw [prune_inner_none hf] at hp
      cases hp
    | cons b rest =>
      cases rest with
      | nil =>
        rw [prune_inner_one hf, Option.map_eq_some_iff] at hp
        obtain ⟨tb, htb, rfl⟩ := hp
        obtain ⟨hb, -⟩ := mem_alive.mp (hf ▸ List.mem_cons_self)
        exact one has child b tb hf hb htb (ih b htb)
      | cons b₂ rest =>
        rw [prune_inner_many hf] at hp
        cases hp
        exact many has child b b₂ rest hf fun b tb htb => ih b htb
  | blob bytes guid =>
    cases hp
    exact blob bytes guid

theorem prune_wf {t t' : Art} {π : List UInt8} (ht : Wf π t) (hp : t.prune = some t') :
    Wf π t' := by
  induction hp using prune_induction generalizing π with
  | emptyRoot => exact trivial
  | leaf r _ => exact ht
  | pfx bytes child child' _ ih => exact ⟨ht.1, ht.2.1, ih ht.2.2⟩
  | one has child b tb _ hb _ ih => exact ⟨by simp, by simp [prefixMaxInline], ih (ht b hb)⟩
  | many has child _ _ _ _ ih =>
    intro b hb
    rw [Bool.and_eq_true] at hb
    obtain ⟨tb, htb⟩ := Option.isSome_iff_exists.mp hb.2
    simpa [htb] using ih b tb htb (ht b hb.1)
  | blob bytes guid => exact ht

/-- What is left of a tree leads every key where it led, tombstones counting as absent. -/
theorem target_pruned (t : Art) (k : List UInt8) (d : Nat) :
    (match t.prune with
      | some t' => t'.target k d
      | none => .absent) = (t.target k d).live := by
  induction t generalizing d with
  | emptyRoot => rfl
  | leaf r =>
    cases hr : r.tombstone <;> by_cases hk : r.key = k <;>
      simp [prune, target, Target.live, hr, hk]
  | pfx bytes child ih =>
    have hc := ih (d + bytes.length)
    by_cases hn : Next k d bytes
    · cases hp : child.prune <;> simpa [prune, target, hp, hn] using hc
    · cases hp : child.prune <;> simp [prune, target, hp, hn, Target.live]
  | inner has child ih =>
    -- a byte that leads on to something alive, and one that does not
    have hlive : ∀ b, (has b && (child b).prune.isSome) = true → k[d]? = some b →
        ((inner has child).target k d).live =
          ((child b).prune.getD .emptyRoot).target k (d + 1) := by
      intro b hb hbyte
      rw [Bool.and_eq_true] at hb
      obtain ⟨tb, htb⟩ := Option.isSome_iff_exists.mp hb.2
      rw [target_inner _ hbyte hb.1, ← ih b, htb, Option.getD_some]
    have hdead : (∀ b, k[d]? = some b → (has b && (child b).prune.isSome) = false) →
        ((inner has child).target k d).live = .absent := by
      intro h
      cases hbyte : k[d]? with
      | none => simp [target, hbyte, Target.live]
      | some b =>
        cases hb : has b with
        | false => simp [target, hbyte, hb, Target.live]
        | true =>
          have hnone : (child b).prune = none := by simpa [hb] using h b hbyte
          rw [target_inner _ hbyte hb, ← ih b, hnone]
    cases hf : allBytes.filter (fun b => has b && (child b).prune.isSome) with
    | nil =>
      rw [prune_inner_none hf, hdead]
      intro b _
      rw [← Bool.not_eq_true]
      exact fun hb => absurd (hf ▸ mem_alive.mpr (by simpa using hb)) List.not_mem_nil
    | cons b rest =>
      have hb := mem_alive.mp (hf ▸ List.mem_cons_self (a := b))
      cases rest with
      | nil =>
        obtain ⟨tb, htb⟩ := Option.isSome_iff_exists.mp hb.2
        rw [prune_inner_one hf, htb, Option.map_some]
        by_cases hbyte : k[d]? = some b
        · rw [hlive b (by simp [hb]) hbyte, htb, Option.getD_some]
          exact target_pfx _ (next_singleton.mpr hbyte)
        · have hn : ¬Next k d [b] := fun h => hbyte (next_singleton.mp h)
          rw [hdead]
          · simp only [target, if_neg hn]
          · intro b' hb'
            rw [← Bool.not_eq_true]
            intro ha
            have hm := hf ▸ mem_alive.mpr (by simpa using ha)
            exact hbyte (List.mem_singleton.mp hm ▸ hb')
      | cons b₂ rest =>
        rw [prune_inner_many hf]
        cases hbyte : k[d]? with
        | none =>
          rw [hdead fun b' hb' => by rw [hbyte] at hb'; cases hb']
          simp only [target, hbyte]
        | some b' =>
          cases ha : has b' && (child b').prune.isSome with
          | true =>
            rw [hlive b' ha hbyte]
            exact target_inner _ hbyte ha
          | false =>
            rw [hdead fun b'' h => Option.some.inj (hbyte.symm.trans h) ▸ ha]
            simp [target, hbyte, ha]
  | blob bytes guid => by_cases hn : Next k d bytes <;> simp [prune, target, hn, Target.live]

end Prune

end Art

end Holt
