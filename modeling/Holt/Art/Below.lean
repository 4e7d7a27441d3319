import Holt.Art.Target

/-! A subtree in its place: where it hangs, and what putting another tree there changes. -/

namespace Holt.Art

open Holt.Lib

def isBlob : Art → Bool
  | .blob _ _ => true
  | _ => false

/-- `v` hangs below `t` at the path `rel`; `plug` puts another tree there. -/
inductive Below : Art → List UInt8 → Art → (Art → Art) → Prop
  | here (t : Art) : Below t [] t fun x => x
  | pfx {bytes rel : List UInt8} {child v : Art} {plug : Art → Art} (h : Below child rel v plug) :
      Below (.pfx bytes child) (bytes ++ rel) v fun x => .pfx bytes (plug x)
  | inner {has : UInt8 → Bool} {child : UInt8 → Art} {b : UInt8} {rel : List UInt8} {v : Art}
      {plug : Art → Art} (hb : has b = true) (h : Below (child b) rel v plug) :
      Below (.inner has child) ([b] ++ rel) v
        fun x => .inner has (Function.update child b (plug x))

namespace Below

variable {plug : Art → Art} {rel π : List UInt8} {v : Art}

theorem plug_self {t : Art} (h : Below t rel v plug) : plug v = t := by
  induction h with
  | here t => rfl
  | pfx _ ih => simp [ih]
  | inner _ _ ih => simp [ih]

/-- A key goes through the plugged tree exactly when it spells the path to it. -/
theorem target_plug {t : Art} (h : Below t rel v plug) (x : Art) {k : List UInt8} (hπ : π <+: k) :
    (plug x).target k π.length =
      if π ++ rel <+: k then x.target k (π ++ rel).length else t.target k π.length := by
  induction h generalizing π with
  | here t => simp [hπ]
  | @pfx bytes rel child v plug _ ih =>
    by_cases hn : Next k π.length bytes
    · have := ih (prefix_of_next hπ hn)
      rw [List.length_append] at this
      rw [target_pfx _ hn, target_pfx _ hn, this, List.append_assoc]
    · rw [if_neg]
      · simp [target, hn]
      · intro hp
        refine hn ⟨hπ.length_le, ?_⟩
        obtain ⟨rest, rfl⟩ := hp
        simp
  | @inner has child b rel v plug hb _ ih =>
    by_cases hbyte : k[π.length]? = some b
    · have := ih (prefix_snoc hπ hbyte)
      rw [List.length_append, List.length_singleton] at this
      rw [List.append_assoc] at this
      simp [target, hbyte, hb, this]
    · rw [if_neg]
      · cases hk : k[π.length]? with
        | none => simp [target, hk]
        | some b' =>
          have hne : b' ≠ b := fun he => hbyte (he ▸ hk)
          simp [target, hk, hne]
      · intro hp
        apply hbyte
        obtain ⟨rest, rfl⟩ := hp
        simp

/-- A key that spells the path to the subtree goes through it. -/
theorem target_moved {t : Art} {k : List UInt8} (h : Below t rel v plug) (hk : π ++ rel <+: k) :
    v.target k (π ++ rel).length = t.target k π.length := by
  have hthrough := h.target_plug v ((List.prefix_append π rel).trans hk)
  rw [h.plug_self, if_pos hk] at hthrough
  exact hthrough.symm

theorem wf {t : Art} (h : Below t rel v plug) (hw : Wf π t) :
    Wf (π ++ rel) v ∧ ∀ x, Wf (π ++ rel) x → Wf π (plug x) := by
  induction h generalizing π with
  | here t => simpa using hw
  | @pfx bytes rel child v plug _ ih =>
    obtain ⟨hv, hp⟩ := ih hw.2.2
    rw [List.append_assoc] at hv hp
    exact ⟨hv, fun x hx => ⟨hw.1, hw.2.1, hp x hx⟩⟩
  | @inner has child b rel v plug hb _ ih =>
    obtain ⟨hv, hp⟩ := ih (hw b hb)
    rw [List.append_assoc] at hv hp
    refine ⟨hv, fun x hx b' hb' => ?_⟩
    by_cases he : b' = b
    · subst he
      simpa using hp x hx
    · simpa [he] using hw b' hb'

end Below

/-! ## Where the ends of a tree are -/

/-- `w` hangs in `t` at the path `k`. -/
def Hangs (t : Art) (k : List UInt8) (w : Art) : Prop := ∃ plug, Below t k w plug

/-- A leaf or a crossing: the tree does not go on below it. -/
def isEnd : Art → Bool
  | .leaf _ => true
  | .blob _ _ => true
  | _ => false

variable {k : List UInt8} {w : Art}

theorem hangs_pfx {bytes : List UInt8} {child : Art} (hw : w.isEnd = true) :
    (Art.pfx bytes child).Hangs k w ↔ ∃ k', k = bytes ++ k' ∧ child.Hangs k' w := by
  constructor
  · rintro ⟨plug, h⟩
    cases h with
    | here => cases hw
    | pfx h => exact ⟨_, rfl, _, h⟩
  · rintro ⟨k', rfl, plug, h⟩
    exact ⟨_, .pfx h⟩

theorem hangs_inner {has : UInt8 → Bool} {child : UInt8 → Art} (hw : w.isEnd = true) :
    (Art.inner has child).Hangs k w ↔
      ∃ b k', has b = true ∧ k = [b] ++ k' ∧ (child b).Hangs k' w := by
  constructor
  · rintro ⟨plug, h⟩
    cases h with
    | here => cases hw
    | inner hb h => exact ⟨_, _, hb, rfl, _, h⟩
  · rintro ⟨b, k', hb, rfl, plug, h⟩
    exact ⟨_, .inner hb h⟩

theorem hangs_blob {bytes : List UInt8} {guid : BlobGuid} :
    (Art.blob bytes guid).Hangs k w ↔ k = [] ∧ w = .blob bytes guid := by
  constructor
  · rintro ⟨plug, h⟩
    cases h
    exact ⟨rfl, rfl⟩
  · rintro ⟨rfl, rfl⟩
    exact ⟨_, .here _⟩

/-- The ends of a tree in which another subtree was put: those of the new subtree behind its
path, and those that hung elsewhere. -/
theorem Below.hangs_plug {t v : Art} {rel : List UInt8} {plug : Art → Art}
    (h : Below t rel v plug) (x : Art) (hw : w.isEnd = true) (k : List UInt8) :
    (plug x).Hangs k w ↔ (∃ k', k = rel ++ k' ∧ x.Hangs k' w) ∨ ¬rel <+: k ∧ t.Hangs k w := by
  induction h generalizing k with
  | here t => simp
  | @pfx bytes rel child v plug _ ih =>
    rw [hangs_pfx hw, hangs_pfx hw]
    constructor
    · rintro ⟨k', rfl, hk⟩
      rcases (ih k').mp hk with ⟨k'', rfl, hx⟩ | ⟨hno, ht⟩
      · exact Or.inl ⟨k'', by simp, hx⟩
      · exact Or.inr ⟨fun hp => hno ((List.prefix_append_right_inj bytes).mp hp), k', rfl, ht⟩
    · rintro (⟨k'', rfl, hx⟩ | ⟨hno, k', rfl, ht⟩)
      · exact ⟨rel ++ k'', by simp, (ih _).mpr (Or.inl ⟨k'', rfl, hx⟩)⟩
      · refine ⟨k', rfl, (ih k').mpr (Or.inr ⟨fun hp => hno ?_, ht⟩)⟩
        exact (List.prefix_append_right_inj bytes).mpr hp
  | @inner has child b rel v plug hb _ ih =>
    rw [hangs_inner hw, hangs_inner hw]
    constructor
    · rintro ⟨b', k', hb', rfl, hk⟩
      by_cases he : b' = b
      · subst he
        rw [Function.update_self] at hk
        rcases (ih k').mp hk with ⟨k'', rfl, hx⟩ | ⟨hno, ht⟩
        · exact Or.inl ⟨k'', by simp, hx⟩
        · refine Or.inr ⟨fun hp => hno ?_, b', k', hb', rfl, ht⟩
          exact (List.prefix_append_right_inj [b']).mp hp
      · rw [Function.update_of_ne he] at hk
        refine Or.inr ⟨fun hp => he ?_, b', k', hb', rfl, hk⟩
        exact (List.cons_prefix_cons.mp hp).1.symm
    · rintro (⟨k'', rfl, hx⟩ | ⟨hno, b', k', hb', rfl, hk⟩)
      · refine ⟨b, rel ++ k'', hb, by simp, ?_⟩
        rw [Function.update_self]
        exact (ih _).mpr (Or.inl ⟨k'', rfl, hx⟩)
      · refine ⟨b', k', hb', rfl, ?_⟩
        by_cases he : b' = b
        · subst he
          rw [Function.update_self]
          refine (ih k').mpr (Or.inr ⟨fun hp => hno ?_, hk⟩)
          exact (List.prefix_append_right_inj [b']).mpr hp
        · rwa [Function.update_of_ne he]

/-! ## Several blobs folded into one -/

/-- `t'` is `t` with the blobs `gs` folded in, each in the place of a crossing to it. -/
inductive Folds (trees : BlobGuid → Option Art) (t : Art) : List BlobGuid → Art → Prop
  | none : Folds trees t [] t
  | fold {gs : List BlobGuid} {t' child : Art} {rel bytes : List UInt8} {c : BlobGuid}
      {plug : Art → Art} (h : Folds trees t gs t') (below : Below t' rel (.blob bytes c) plug)
      (tree : trees c = some child) (first : c ∉ gs) :
      Folds trees t (c :: gs) (plug (chain bytes child))

namespace Folds

variable {trees : BlobGuid → Option Art} {t t' t'' : Art} {gs gs' : List BlobGuid}

theorem trans (h : Folds trees t gs t') (h' : Folds trees t' gs' t'')
    (hd : ∀ c ∈ gs', c ∉ gs) : Folds trees t (gs' ++ gs) t'' := by
  induction h' with
  | none => exact h
  | @fold gs' t' child rel bytes c plug _ below tree first ih =>
    have hc : c ∉ gs' ++ gs := by
      rw [List.mem_append, not_or]
      exact ⟨first, hd c List.mem_cons_self⟩
    exact .fold (ih fun a ha => hd a (List.mem_cons_of_mem _ ha)) below tree hc

theorem pfx {bytes : List UInt8} (h : Folds trees t gs t') :
    Folds trees (.pfx bytes t) gs (.pfx bytes t') := by
  induction h with
  | none => exact .none
  | fold _ below tree first ih => exact .fold ih below.pfx tree first

theorem inner {has : UInt8 → Bool} {child : UInt8 → Art} {b : UInt8} (hb : has b = true)
    (h : Folds trees (child b) gs t') :
    Folds trees (.inner has child) gs (.inner has (Function.update child b t')) := by
  induction h with
  | none =>
    rw [Function.update_eq_self]
    exact .none
  | @fold gs t' sub rel bytes c plug _ below tree first ih =>
    have hself : Below (Function.update child b t' b) rel (.blob bytes c) plug := by
      rwa [Function.update_self]
    have hstep := Folds.fold ih (hself.inner hb) tree first
    rwa [Function.update_idem] at hstep

end Folds

end Holt.Art
