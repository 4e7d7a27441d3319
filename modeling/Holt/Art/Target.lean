import Holt.Art.Basic

/-! Where keys lead in prefix chains and branches, and how one redirected key shows in the
nodes above it. -/

namespace Holt

open Holt.Lib

namespace Art

variable {b : UInt8} {bytes k π : List UInt8} {child child' : Art} {d : Nat} {has : UInt8 → Bool}

theorem next_nil : Next k d [] ↔ d ≤ k.length := by simp [Next]

theorem next_length (h : Next k d bytes) : d + bytes.length ≤ k.length := by
  have := h.2.length_le
  rw [List.length_drop] at this
  have := h.1
  omega

theorem next_append {xs ys : List UInt8} :
    Next k d (xs ++ ys) ↔ Next k d xs ∧ Next k (d + xs.length) ys := by
  unfold Next
  constructor
  · rintro ⟨hd, rest, hr⟩
    rw [List.append_assoc] at hr
    have hlen := congrArg List.length hr
    simp only [List.length_append, List.length_drop] at hlen
    refine ⟨⟨hd, _, hr⟩, ⟨by omega, rest, ?_⟩⟩
    rw [← List.drop_drop, ← hr, List.drop_left]
  · rintro ⟨⟨hd, rest, hr⟩, -, rest', hr'⟩
    refine ⟨hd, rest', ?_⟩
    rw [← List.drop_drop, ← hr, List.drop_left] at hr'
    rw [List.append_assoc, hr', hr]

theorem next_singleton : Next k d [b] ↔ k[d]? = some b := by
  unfold Next
  constructor
  · rintro ⟨-, rest, hr⟩
    have := congrArg List.head? hr
    simpa [List.head?_drop] using this.symm
  · intro h
    have hd := (List.getElem?_eq_some_iff.mp h).1
    refine ⟨by omega, k.drop (d + 1), ?_⟩
    rw [List.drop_eq_getElem_cons hd, (List.getElem?_eq_some_iff.mp h).2]
    rfl

theorem prefix_of_next (hπ : π <+: k) (h : Next k π.length bytes) : π ++ bytes <+: k := by
  obtain ⟨rest, rfl⟩ := hπ
  obtain ⟨-, rest', hr⟩ := h
  rw [List.drop_left] at hr
  exact ⟨rest', by rw [List.append_assoc, hr]⟩

theorem prefix_snoc (hπ : π <+: k) (h : k[π.length]? = some b) : π ++ [b] <+: k :=
  prefix_of_next hπ (next_singleton.mpr h)

/-! ## Chains and branches -/

theorem target_chainN {n : Nat} (hn : bytes.length ≤ n) (child : Art) (hd : d ≤ k.length) :
    (chainN n bytes child).target k d =
      if Next k d bytes then child.target k (d + bytes.length) else .absent := by
  induction n generalizing bytes child with
  | zero =>
    have hb : bytes = [] := List.length_eq_zero_iff.mp (by omega)
    simp [chainN, hb, next_nil, hd]
  | succ n ih =>
    unfold chainN
    split
    · rename_i hb
      simp [hb, next_nil, hd]
    · rename_i hb
      have hpos := List.length_pos_iff.mpr hb
      have hcap : 0 < prefixMaxInline := by decide
      rw [ih (by simp; omega)]
      generalize hs : bytes.length - min bytes.length prefixMaxInline = start
      have hle : start ≤ bytes.length := by omega
      have hsplit : Next k d bytes ↔ Next k d (bytes.take start) ∧
          Next k (d + start) (bytes.drop start) := by
        conv_lhs => rw [← List.take_append_drop start bytes]
        rw [next_append, List.length_take_of_le hle]
      have hsum : d + start + (bytes.length - start) = d + bytes.length := by omega
      by_cases h₁ : Next k d (bytes.take start) <;>
        by_cases h₂ : Next k (d + start) (bytes.drop start)
        <;> simp [target, hsplit, h₁, h₂, List.length_take_of_le hle, hsum]

theorem target_chain (bytes : List UInt8) (child : Art) (hd : d ≤ k.length) :
    (chain bytes child).target k d =
      if Next k d bytes then child.target k (d + bytes.length) else .absent :=
  target_chainN le_rfl child hd

theorem wf_chainN {n : Nat} (hn : bytes.length ≤ n) (h : Wf (π ++ bytes) child) :
    Wf π (chainN n bytes child) := by
  induction n generalizing bytes child with
  | zero =>
    have hb : bytes = [] := List.length_eq_zero_iff.mp (by omega)
    simpa [chainN, hb] using h
  | succ n ih =>
    unfold chainN
    split
    · rename_i hb
      simpa [hb] using h
    · rename_i hb
      have hpos := List.length_pos_iff.mpr hb
      have hcap : 0 < prefixMaxInline := by decide
      refine ih (by simp; omega) ⟨?_, ?_, ?_⟩
      · intro he
        have := congrArg List.length he
        simp at this
        omega
      · simp
        omega
      · rwa [List.append_assoc, List.take_append_drop]

theorem wf_chain (h : Wf (π ++ bytes) child) : Wf π (chain bytes child) := wf_chainN le_rfl h

theorem target_inner (child : UInt8 → Art) (hb : k[d]? = some b) (hh : has b = true) :
    (inner has child).target k d = (child b).target k (d + 1) := by
  simp [target, hb, hh]

/-- A fresh leaf beside what was reached by the byte `e` after `p`. -/
theorem target_split {p k' : List UInt8} {e : UInt8} {old : Art} {new : Record} (hp : Next k d p)
    (hb : k[d + p.length]? = some b) (hne : e ≠ b) (hnew : new.key = k) (hd : d ≤ k'.length) :
    (chain p (branch e old b (.leaf new))).target k' d =
      if k' = k then .leaf new
      else if Next k' d (p ++ [e]) then old.target k' (d + p.length + 1) else .absent := by
  rw [target_chain p _ hd]
  by_cases hk : k' = k
  · subst hk
    have hbe : b ≠ e := Ne.symm hne
    rw [if_pos hp, if_pos rfl]
    simp [branch, target, hb, hbe, hnew]
  · rw [if_neg hk]
    simp only [next_append]
    by_cases hnext : Next k' d p
    · rw [if_pos hnext]
      cases hb' : k'[d + p.length]? with
      | none => simp [branch, target, hb', next_singleton]
      | some b' =>
        by_cases he : b' = e
        · subst he
          simp [branch, target, hb', next_singleton, hnext]
        · have hkey : new.key ≠ k' := fun h => hk (h.symm.trans hnew)
          have hn : ¬ Next k' (d + p.length) [e] := by
            rw [next_singleton, hb']
            simpa using he
          simp only [branch, target, hb', hn, and_false, if_false, he, false_or,
            decide_eq_true_eq, if_neg hkey, ite_self]
    · simp [hnext]

theorem wf_split {p : List UInt8} {e : UInt8} {old : Art} {new : Record}
    (hold : Wf (π ++ (p ++ [e])) old) (hnew : π ++ (p ++ [b]) <+: new.key) :
    Wf π (chain p (branch e old b (.leaf new))) := by
  apply wf_chain
  intro b' hb'
  rw [List.append_assoc]
  by_cases he : b' = e
  · subst he
    simpa using hold
  · have hb : b' = b := by simpa [he] using hb'
    subst hb
    simpa [he, Wf] using hnew

/-! ## One key changed -/

/-- `t'` sends `k` to `goal` and every other key where `t` sends it. -/
def Redirects (t t' : Art) (π k : List UInt8) (goal : Target) : Prop :=
  ∀ k', π <+: k' → t'.target k' π.length = if k' = k then goal else t.target k' π.length

theorem target_pfx (child : Art) (h : Next k d bytes) :
    (pfx bytes child).target k d = child.target k (d + bytes.length) := by
  simp [target, h]

theorem Redirects.pfx {goal : Target} (hk : Next k π.length bytes)
    (h : Redirects child child' (π ++ bytes) k goal) :
    Redirects (.pfx bytes child) (.pfx bytes child') π k goal := by
  intro k' hk'
  by_cases hn : Next k' π.length bytes
  · have := h k' (prefix_of_next hk' hn)
    rw [List.length_append] at this
    rw [target_pfx _ hn, target_pfx _ hn, this]
  · have he : k' ≠ k := by
      rintro rfl
      exact hn hk
    simp [target, hn, he]

theorem Redirects.inner {child : UInt8 → Art} {goal : Target} (hk : k[π.length]? = some b)
    (hh : has b = true) (h : Redirects (child b) child' (π ++ [b]) k goal) :
    Redirects (.inner has child) (.inner has (Function.update child b child')) π k goal := by
  intro k' hk'
  cases hb' : k'[π.length]? with
  | none =>
    have he : k' ≠ k := by
      rintro rfl
      simp [hk] at hb'
    simp [target, hb', he]
  | some b' =>
    by_cases he : b' = b
    · subst he
      have := h k' (prefix_snoc hk' hb')
      rw [List.length_append, List.length_singleton] at this
      simpa [target, hb', hh] using this
    · have hne : k' ≠ k := by
        rintro rfl
        exact he (Option.some.inj (hb'.symm.trans hk))
      simp [target, hb', he, hne]

theorem wf_update {child : UInt8 → Art} (ht : Wf π (.inner has child)) (h : Wf (π ++ [b]) child') :
    Wf π (.inner has (Function.update child b child')) := by
  intro b' hb'
  by_cases he : b' = b
  · subst he
    simpa using h
  · simpa [he] using ht b' hb'

end Art

end Holt
