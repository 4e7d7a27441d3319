import Holt.Art.Target

/-! What an insertion does to the places keys lead to. -/

namespace Holt

open Holt.Lib

namespace Art

/-- What an insertion at path `π` may answer. -/
def InsertResult.Meets (t : Art) (π : List UInt8) (new : Record) (cond : InsertCondition) :
    InsertResult → Prop
  | .done t' true => Wf π t' ∧ cond.admitsTarget (t.target new.key π.length) = true ∧
      Redirects t t' π new.key (.leaf new)
  | .done t' false => t' = t ∧ cond.admitsTarget (t.target new.key π.length) = false ∧
      ∀ g d, t.target new.key π.length ≠ .crossing g d
  | .crossing g d => t.target new.key π.length = .crossing g d
  | .fail _ => True

variable {bytes k π : List UInt8} {c d : Nat} {t : Art} {new : Record} {cond : InsertCondition}

/-- A key that is not there has no version to compare with. -/
theorem meets_kept (habs : t.target new.key π.length = .absent) (hv : cond.isVersion = true) :
    InsertResult.Meets t π new cond (.done t false) :=
  ⟨rfl, by simp [habs, InsertCondition.admitsTarget, hv], by simp [habs]⟩

/-- An answer from below is the node's answer, with the node rebuilt around it. -/
theorem InsertResult.Meets.mapDone {child : Art} {rel : List UInt8} {res : InsertResult}
    {f : Art → Art} (h : InsertResult.Meets child (π ++ rel) new cond res)
    (htk : t.target new.key π.length = child.target new.key (π.length + rel.length))
    (hself : f child = t)
    (hf : ∀ t', Wf (π ++ rel) t' → Redirects child t' (π ++ rel) new.key (.leaf new) →
      Wf π (f t') ∧ Redirects t (f t') π new.key (.leaf new)) :
    InsertResult.Meets t π new cond (res.mapDone f) := by
  cases res with
  | done t' mutated =>
    cases mutated with
    | true =>
      obtain ⟨hw, ha, hall⟩ := h
      rw [List.length_append, ← htk] at ha
      exact ⟨(hf t' hw hall).1, ha, (hf t' hw hall).2⟩
    | false =>
      obtain ⟨rfl, ha, hno⟩ := h
      rw [List.length_append, ← htk] at ha hno
      exact ⟨hself, ha, hno⟩
  | crossing g d =>
    change child.target _ _ = _ at h
    rwa [List.length_append, ← htk] at h
  | fail context => trivial

theorem next_take_common (hd : d ≤ k.length) :
    Next k d (bytes.take (longestCommonPrefix (k.drop d) bytes)) :=
  ⟨hd, by rw [← take_longestCommonPrefix]; exact List.take_prefix ..⟩

theorem split_at (hc : c < bytes.length) :
    bytes = bytes.take c ++ [bytes.getD c 0] ++ bytes.drop (c + 1) := by
  rw [List.append_assoc, List.singleton_append, ← List.getElem_eq_getD (h := hc),
    ← List.drop_eq_getElem_cons hc, List.take_append_drop]

theorem getD_common_ne (hc : c = longestCommonPrefix (k.drop d) bytes) (hk : d + c < k.length)
    (hb : c < bytes.length) : bytes.getD c 0 ≠ k.getD (d + c) 0 := by
  subst hc
  have hlt : longestCommonPrefix (k.drop d) bytes < (k.drop d).length := by
    rw [List.length_drop]
    omega
  have hne := getElem_longestCommonPrefix_ne hlt hb
  rw [List.getElem_drop] at hne
  rw [← List.getElem_eq_getD (h := hb), ← List.getElem_eq_getD (h := hk)]
  exact Ne.symm hne

theorem prefix_getD {p : List UInt8} (hπ : π <+: k) (hp : Next k π.length p)
    (hlt : π.length + p.length < k.length) :
    π ++ (p ++ [k.getD (π.length + p.length) 0]) <+: k := by
  refine prefix_of_next hπ (next_append.mpr ⟨hp, next_singleton.mpr ?_⟩)
  rw [← List.getElem_eq_getD (h := hlt)]
  exact List.getElem?_eq_getElem hlt

/-- Splitting an inline prefix in front of `old` so that a fresh leaf fits beside it. -/
theorem split_meets {old : Art} (hπ : π <+: new.key)
    (hc : c = longestCommonPrefix (new.key.drop π.length) bytes) (hb : c < bytes.length)
    (hk : π.length + c < new.key.length) (hv : cond.isVersion = false)
    (hw : Wf (π ++ (bytes.take c ++ [bytes.getD c 0])) old)
    (hold : ∀ k', π <+: k' → t.target k' π.length =
      if Next k' π.length (bytes.take c ++ [bytes.getD c 0]) then old.target k' (π.length + c + 1)
      else .absent) :
    InsertResult.Meets t π new cond (.done (chain (bytes.take c)
      (branch (bytes.getD c 0) old (new.key.getD (π.length + c) 0) (.leaf new))) true) := by
  have hlen : (bytes.take c).length = c := List.length_take_of_le hb.le
  have hnext : Next new.key π.length (bytes.take c) := hc ▸ next_take_common (by omega)
  have hne : bytes.getD c 0 ≠ new.key.getD (π.length + c) 0 := getD_common_ne hc hk hb
  have hbyte : new.key[π.length + (bytes.take c).length]? =
      some (new.key.getD (π.length + c) 0) := by
    rw [hlen, ← List.getElem_eq_getD (h := hk)]
    exact List.getElem?_eq_getElem hk
  refine ⟨wf_split hw ?_, ?_, fun k' hk' => ?_⟩
  · have := prefix_getD hπ hnext (by rw [hlen]; exact hk)
    rwa [hlen] at this
  · have habs : t.target new.key π.length = .absent := by
      rw [hold _ hπ, if_neg]
      rw [next_append, next_singleton, hbyte]
      rintro ⟨-, he⟩
      exact hne (Option.some.inj he).symm
    simp [habs, InsertCondition.admitsTarget, hv]
  · rw [target_split hnext hbyte hne rfl hk'.length_le, hlen]
    by_cases he : k' = new.key
    · simp [he]
    · rw [if_neg he, if_neg he, hold k' hk']

theorem target_inline (hb : c < bytes.length) (whole rest : List UInt8 → Nat → Target)
    (ht : ∀ k', t.target k' π.length =
      if Next k' π.length bytes then whole k' (π.length + bytes.length) else .absent)
    (hr : ∀ k' : List UInt8, π.length + c + 1 ≤ k'.length → rest k' (π.length + c + 1) =
      if Next k' (π.length + c + 1) (bytes.drop (c + 1)) then whole k' (π.length + bytes.length)
      else .absent)
    (k' : List UInt8) :
    t.target k' π.length =
      if Next k' π.length (bytes.take c ++ [bytes.getD c 0]) then rest k' (π.length + c + 1)
      else .absent := by
  have hlen : (bytes.take c ++ [bytes.getD c 0]).length = c + 1 := by
    simp [Nat.min_eq_left hb.le]
  have hsplit : Next k' π.length bytes ↔ Next k' π.length (bytes.take c ++ [bytes.getD c 0]) ∧
      Next k' (π.length + c + 1) (bytes.drop (c + 1)) := by
    conv_lhs => rw [split_at hb]
    rw [next_append, hlen, Nat.add_assoc]
  rw [ht]
  generalize bytes.take c ++ [bytes.getD c 0] = q at hlen hsplit ⊢
  by_cases h₁ : Next k' π.length q
  · have hle := next_length h₁
    rw [if_pos h₁, hr k' (by omega)]
    simp [hsplit, h₁]
  · simp [hsplit, h₁]

/-- An inline prefix that the key leaves before its end. -/
theorem common_lt (hc : longestCommonPrefix (k.drop d) bytes = c) (hpart : ¬ c = bytes.length) :
    c < bytes.length ∧ ¬ Next k d bytes := by
  have hle := longestCommonPrefix_le_right (k.drop d) bytes
  exact ⟨by omega, fun hn => hpart (hc.symm.trans (longestCommonPrefix_eq_right.mpr hn.2))⟩

theorem insert_emptyRoot_meets (hπ : π <+: new.key) :
    InsertResult.Meets .emptyRoot π new cond (insert new cond .emptyRoot π.length) := by
  unfold insert
  split
  · exact meets_kept rfl ‹_›
  · rename_i hv
    refine ⟨hπ, by simpa [target, InsertCondition.admitsTarget] using hv, fun k' _ => ?_⟩
    by_cases he : k' = new.key
    · simp [target, he]
    · simp [target, he, Ne.symm he]

theorem insert_leaf_meets {r : Record} (hr : π <+: r.key) (hπ : π <+: new.key) :
    InsertResult.Meets (.leaf r) π new cond (insert new cond (.leaf r) π.length) := by
  unfold insert
  by_cases hk : r.key = new.key
  · rw [if_pos hk]
    split
    · rename_i ha
      refine ⟨hπ, by simpa [target, hk, InsertCondition.admitsTarget] using ha, fun k' _ => ?_⟩
      by_cases he : k' = new.key
      · simp [target, he]
      · simp [target, he, hk, Ne.symm he]
    · rename_i ha
      exact ⟨rfl, by simpa [target, hk, InsertCondition.admitsTarget] using ha,
        by simp [target, hk]⟩
  · rw [if_neg hk]
    simp only
    generalize hc : longestCommonPrefix (new.key.drop π.length) (r.key.drop π.length) = c
    have hle₁ := longestCommonPrefix_le_left (new.key.drop π.length) (r.key.drop π.length)
    have hle₂ := longestCommonPrefix_le_right (new.key.drop π.length) (r.key.drop π.length)
    rw [hc, List.length_drop] at hle₁ hle₂
    split
    · trivial
    · rename_i hno
      simp only [not_or] at hno
      have hb : c < (r.key.drop π.length).length := by rw [List.length_drop]; omega
      have hgetD : r.key.getD (π.length + c) 0 = (r.key.drop π.length).getD c 0 := by
        simp [List.getD_eq_getElem?_getD, List.getElem?_drop]
      -- the old leaf lies past the byte where the keys part
      have hkeep : Next r.key π.length ((r.key.drop π.length).take c ++
          [(r.key.drop π.length).getD c 0]) := by
        refine ⟨hr.length_le, ?_⟩
        conv_rhs => rw [split_at hb]
        exact List.prefix_append ..
      split
      · exact meets_kept (by simp [target, hk]) ‹_›
      · rename_i hv
        rw [hgetD]
        refine split_meets hπ hc.symm hb (by omega) (by simpa using hv) ?_ fun k' _ => ?_
        · exact prefix_of_next hr hkeep
        · by_cases he : r.key = k'
          · subst he
            simp only [target, if_true, if_pos hkeep]
          · simp only [target, if_neg he, ite_self]

theorem Next.byte {b : UInt8} (h : k[d]? = some b) : d < k.length :=
  (List.getElem?_eq_some_iff.mp h).1

theorem insert_pfx_meets {child : Art} (ht : Wf π (.pfx bytes child)) (hπ : π <+: new.key)
    (hsub : π ++ bytes <+: new.key → InsertResult.Meets child (π ++ bytes) new cond
      (insert new cond child (π.length + bytes.length))) :
    InsertResult.Meets (.pfx bytes child) π new cond
      (insert new cond (.pfx bytes child) π.length) := by
  obtain ⟨hne, hcap, hw⟩ := ht
  unfold insert
  simp only
  generalize hc : longestCommonPrefix (new.key.drop π.length) bytes = c
  split
  · rename_i hfull
    have hnext : Next new.key π.length bytes :=
      ⟨hπ.length_le, longestCommonPrefix_eq_right.mp (hc.trans hfull)⟩
    exact (hsub (prefix_of_next hπ hnext)).mapDone (target_pfx child hnext) rfl
      fun t' hw' hall => ⟨⟨hne, hcap, hw'⟩, hall.pfx hnext⟩
  · rename_i hpart
    obtain ⟨hb, hnn⟩ := common_lt hc hpart
    split
    · trivial
    · split
      · exact meets_kept (by simp [target, hnn]) ‹_›
      · rename_i hv
        refine split_meets hπ hc.symm hb (by omega) (by simpa using hv) (wf_chain ?_)
          fun k' _ => target_inline hb child.target _ (fun k' => by simp [target]) ?_ k'
        · rwa [List.append_assoc, ← split_at hb]
        · intro k'' hle''
          rw [target_chain _ _ hle'']
          have : π.length + c + 1 + (bytes.drop (c + 1)).length = π.length + bytes.length := by
            rw [List.length_drop]
            omega
          rw [this]

/-- A leaf under a byte the node did not have. -/
theorem grow_meets {has : UInt8 → Bool} {child : UInt8 → Art} {b : UInt8}
    (ht : Wf π (.inner has child)) (hπ : π <+: new.key) (hb : new.key[π.length]? = some b)
    (hh : ¬ has b = true) (hv : cond.isVersion = false) :
    InsertResult.Meets (.inner has child) π new cond
      (.done (.inner (Function.update has b true) (Function.update child b (.leaf new))) true) := by
  have habs : (inner has child).target new.key π.length = .absent := by
    simp [target, hb, hh]
  refine ⟨fun b' hb' => ?_, by simp [habs, InsertCondition.admitsTarget, hv], fun k' hk' => ?_⟩
  · by_cases he : b' = b
    · subst he
      simpa [Wf] using prefix_snoc hπ hb
    · simp only [Function.update_of_ne he] at hb' ⊢
      exact ht b' hb'
  · cases hb' : k'[π.length]? with
    | none =>
      have he : k' ≠ new.key := by
        rintro rfl
        simp [hb] at hb'
      simp [target, hb', he]
    | some b' =>
      by_cases he : b' = b
      · subst he
        by_cases hk : k' = new.key
        · simp [target, hk, hb]
        · simp [target, hb', hk, Ne.symm hk, hh]
      · have hne : k' ≠ new.key := by
          rintro rfl
          exact he (Option.some.inj (hb'.symm.trans hb))
        simp [target, hb', he, hne]

theorem insert_inner_meets {has : UInt8 → Bool} {child : UInt8 → Art}
    (ht : Wf π (.inner has child)) (hπ : π <+: new.key)
    (hsub : ∀ b, has b = true → π ++ [b] <+: new.key → InsertResult.Meets (child b) (π ++ [b]) new
      cond (insert new cond (child b) (π.length + 1))) :
    InsertResult.Meets (.inner has child) π new cond
      (insert new cond (.inner has child) π.length) := by
  unfold insert
  cases hb : new.key[π.length]? with
  | none => trivial
  | some b =>
    simp only
    split
    · rename_i hh
      exact (hsub b hh (prefix_snoc hπ hb)).mapDone (target_inner child hb hh) (by simp)
        fun t' hw' hall => ⟨wf_update ht hw', hall.inner hb hh⟩
    · rename_i hh
      split
      · exact meets_kept (by simp [target, hb, hh]) ‹_›
      · rename_i hv
        exact grow_meets ht hπ hb hh (by simpa using hv)

theorem insert_blob_meets {guid : BlobGuid} (ht : Wf π (.blob bytes guid)) (hπ : π <+: new.key) :
    InsertResult.Meets (.blob bytes guid) π new cond
      (insert new cond (.blob bytes guid) π.length) := by
  unfold insert
  simp only
  generalize hc : longestCommonPrefix (new.key.drop π.length) bytes = c
  split
  · rename_i hfull
    have hnext : Next new.key π.length bytes :=
      ⟨hπ.length_le, longestCommonPrefix_eq_right.mp (hc.trans hfull)⟩
    simp [InsertResult.Meets, target, hnext]
  · rename_i hpart
    obtain ⟨hb, hnn⟩ := common_lt hc hpart
    cases hbyte : new.key[π.length + c]? with
    | none => trivial
    | some b =>
      simp only
      split
      · exact meets_kept (by simp [target, hnn]) ‹_›
      · rename_i hv
        have hbD : b = new.key.getD (π.length + c) 0 := by
          simp [List.getD_eq_getElem?_getD, hbyte]
        rw [hbD]
        refine split_meets hπ hc.symm hb (Next.byte hbyte) (by simpa using hv) ?_
          fun k' _ => target_inline hb (fun _ d => .crossing guid d) _
            (fun k' => by simp [target]) ?_ k'
        · have hcap : bytes.length ≤ blobMaxInline := ht
          change (bytes.drop (c + 1)).length ≤ blobMaxInline
          rw [List.length_drop]
          omega
        · intro k'' _
          have : π.length + c + 1 + (bytes.drop (c + 1)).length = π.length + bytes.length := by
            rw [List.length_drop]
            omega
          simp only [target, this]

/-- Insertion changes where one key leads and nothing else. -/
theorem insert_meets (new : Record) (cond : InsertCondition) (ht : Wf π t) (hπ : π <+: new.key) :
    InsertResult.Meets t π new cond (insert new cond t π.length) := by
  induction t generalizing π with
  | emptyRoot => exact insert_emptyRoot_meets hπ
  | leaf r => exact insert_leaf_meets ht hπ
  | pfx bytes child ih =>
    refine insert_pfx_meets ht hπ fun hpre => ?_
    rw [← List.length_append]
    exact ih ht.2.2 hpre
  | inner has child ih =>
    refine insert_inner_meets ht hπ fun b hh hpre => ?_
    have hsub := ih b (ht b hh) hpre
    rwa [List.length_append, List.length_singleton] at hsub
  | blob bytes guid => exact insert_blob_meets ht hπ

end Art

end Holt
