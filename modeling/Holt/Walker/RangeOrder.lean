import Holt.Walker.Range
import Mathlib.Data.List.GetD
import Mathlib.Order.Bounds.Basic

/-! Where the keys below a path lie to a bound, and in which order the children of a node are
come to. -/

namespace Holt

open Holt.Lib

/-! ## Bounds

What lies below a path is what starts with it. -/

section Bounds

variable {key p s path segment target w : List UInt8}

theorem successor_eq_none_iff : successor p = none ↔ ∀ b ∈ p, b = 255 := by
  induction p with
  | nil => simp [successor]
  | cons b p ih =>
    rw [successor, List.forall_mem_cons, ← ih]
    cases successor p <;> simp

/-- Below a row of 0xFF there is something at or after any key. -/
theorem exists_not_lt_append (h : successor p = none) (key : List UInt8) :
    ∃ t, ¬ p ++ t < key := by
  induction p generalizing key with
  | nil => exact ⟨key, lt_irrefl key⟩
  | cons b p ih =>
    have hall := successor_eq_none_iff.mp h
    obtain ⟨t, ht⟩ := ih (successor_eq_none_iff.mpr fun x hx => hall x (List.mem_cons_of_mem _ hx))
      key.tail
    refine ⟨t, fun hlt => ?_⟩
    cases key with
    | nil => exact List.not_lt_nil _ hlt
    | cons y key =>
      rw [hall b List.mem_cons_self, List.cons_append, List.cons_lt_cons_iff] at hlt
      rcases hlt with hlt | ⟨-, hlt⟩
      · have hy := y.toNat_lt
        rw [UInt8.lt_iff_toNat_lt] at hlt
        exact absurd hlt (Nat.not_lt.mpr (Nat.le_of_lt_succ hy))
      · exact ht hlt

/-- The successor is the least key after everything below `p`. -/
theorem not_lt_successor_iff (h : successor p = some s) : ¬ key < s ↔ ∀ t, p ++ t < key := by
  induction p generalizing s key with
  | nil => cases h
  | cons b p ih =>
    cases key with
    | nil =>
      have hs : s ≠ [] := by
        rintro rfl
        unfold successor at h
        split at h
        · cases h
        · split at h <;> cases h
      obtain ⟨x, s, rfl⟩ := List.exists_cons_of_ne_nil hs
      exact iff_of_false (not_not.mpr (List.nil_lt_cons x s)) fun hall =>
        List.not_lt_nil _ (hall [])
    | cons y key =>
      simp only [List.cons_append, List.cons_lt_cons_iff]
      unfold successor at h
      split at h
      · rename_i s' hs'
        cases h
        have hrec : ¬ key < s' ↔ ∀ t, p ++ t < key := ih hs'
        rw [List.cons_lt_cons_iff, not_or, not_and, not_lt]
        constructor
        · rintro ⟨hle, hkey⟩ t
          exact hle.lt_or_eq.imp id fun he => ⟨he, hrec.mp (hkey he.symm) t⟩
        · intro hall
          refine ⟨(hall []).elim le_of_lt fun he => he.1.le, fun he => hrec.mpr fun t => ?_⟩
          exact (hall t).resolve_left (fun hlt => hlt.ne he.symm) |>.2
      · rename_i hnone
        split at h
        · cases h
        · rename_i hb
          cases h
          obtain ⟨t, ht⟩ := exists_not_lt_append hnone key
          have hnext : y < b + 1 ↔ y ≤ b := by
            have hlt : b.toNat < 255 := lt_of_le_of_ne (Nat.le_of_lt_succ b.toNat_lt)
              fun he => hb (UInt8.toNat.inj he)
            rw [UInt8.lt_iff_toNat_lt, UInt8.le_iff_toNat_le, UInt8.toNat_add]
            simp only [UInt8.reduceToNat]
            omega
          have hnil : ¬ key < [] := List.not_lt_nil key
          rw [List.cons_lt_cons_iff, hnext]
          constructor
          · exact fun hno t => .inl (not_le.mp fun hle => hno (.inl hle))
          · rintro hall (hle | ⟨-, hlt⟩)
            · exact (hall t).elim (fun hlt => not_lt.mpr hle hlt) fun he => ht he.2
            · exact hnil hlt

theorem atOrPast_iff : atOrPast key s = true ↔ ¬ key < s := by
  induction s generalizing key with
  | nil => cases key <;> simp [atOrPast, List.not_lt_nil]
  | cons b s ih =>
    cases key with
    | nil => simp [atOrPast, List.nil_lt_cons]
    | cons y key =>
      rw [List.cons_lt_cons_iff, atOrPast]
      by_cases h : y = b
      · simp [h, ih]
      · simp [h, le_iff_lt_or_eq, Ne.symm h]

/-- Lists that differ at the end of their common prefix are ordered there. -/
theorem lt_of_common (ha : longestCommonPrefix path target < path.length)
    (hb : longestCommonPrefix path target < target.length)
    (h : path.getD (longestCommonPrefix path target) 0 <
      target.getD (longestCommonPrefix path target) 0) (t t' : List UInt8) :
    path ++ t < target ++ t' := by
  rw [List.getD_eq_getElem _ _ ha, List.getD_eq_getElem _ _ hb] at h
  have hpath := List.take_append_drop (longestCommonPrefix path target) path
  have htarget := List.take_append_drop (longestCommonPrefix path target) target
  rw [List.drop_eq_getElem_cons ha, take_longestCommonPrefix] at hpath
  rw [List.drop_eq_getElem_cons hb] at htarget
  conv_lhs => rw [← hpath]
  conv_rhs => rw [← htarget]
  rw [List.append_assoc, List.append_assoc]
  exact List.append_left_lt (List.cons_lt_cons_iff.mpr (.inl h))

theorem lt_of_common' (ha : longestCommonPrefix path target < path.length)
    (hb : longestCommonPrefix path target < target.length)
    (h : ¬ path.getD (longestCommonPrefix path target) 0 <
      target.getD (longestCommonPrefix path target) 0) (t t' : List UInt8) :
    target ++ t' < path ++ t := by
  have hne := getElem_longestCommonPrefix_ne ha hb
  rw [← List.getD_eq_getElem _ 0 ha, ← List.getD_eq_getElem _ 0 hb] at hne
  have hlt := lt_of_le_of_ne (not_lt.mp h) hne.symm
  rw [longestCommonPrefix_comm] at ha hb hlt
  exact lt_of_common hb ha hlt t' t

theorem le_append (h : target <+: path) (t : List UInt8) : target ≤ path ++ t :=
  not_lt.mp (List.IsPrefix.le (h.trans (List.prefix_append path t)))

/-- What a relation says about everything below a path. -/
theorem pathSeekRelation_spec (path target t : List UInt8) :
    match pathSeekRelation path target with
    | .skip => path ++ t < target
    | .min => target ≤ path ++ t
    | .seeking => path <+: target := by
  have hle := longestCommonPrefix_le_left path target
  have hle' := longestCommonPrefix_le_right path target
  unfold pathSeekRelation
  dsimp only
  split_ifs with hseek hall hlong hge
  · exact longestCommonPrefix_eq_left.mp hseek.1
  · exact le_append (longestCommonPrefix_eq_right.mp (by omega)) t
  · omega
  · exact (List.append_nil target ▸ lt_of_common' (by omega) (by omega) (not_lt.mpr hge) t []).le
  · exact List.append_nil target ▸ lt_of_common (by omega) (by omega) (not_le.mp hge) t []

theorem segmentSeekRelation_spec (path segment target t : List UInt8) :
    match segmentSeekRelation path segment target with
    | .skip => path ++ segment ++ t < target
    | .min => target ≤ path ++ segment ++ t
    | .goOn => True := by
  have hpath := pathSeekRelation_spec path target (segment ++ t)
  rw [← List.append_assoc] at hpath
  unfold segmentSeekRelation
  cases hrel : pathSeekRelation path target with
  | skip => rwa [hrel] at hpath
  | min => rwa [hrel] at hpath
  | seeking =>
    rw [hrel] at hpath
    obtain ⟨rest, rfl⟩ := hpath
    have hle := longestCommonPrefix_le_right segment rest
    dsimp only
    rw [List.drop_left, List.append_assoc]
    split_ifs with hcommon hlt hshort
    · have hbelow := lt_of_common (by omega) (by omega) hlt t []
      rw [List.append_nil] at hbelow
      exact List.append_left_lt hbelow
    · have habove := lt_of_common' (by omega) (by omega) hlt t []
      rw [List.append_nil] at habove
      exact (List.append_left_lt habove).le
    · trivial
    · have hprefix : rest <+: segment := longestCommonPrefix_eq_right.mp (by omega)
      rw [← List.append_assoc]
      exact le_append ((List.prefix_append_right_inj path).mpr hprefix) t

/-- Seek bounds and relations are exact: the prefix interval ends at the successor, and a path is
skipped or taken whole only when everything below it lies on that side of the target. -/
theorem seekBounds_exact :
    (∀ key p : List UInt8, keyAtOrPastPrefixSuccessor key p = true ↔ ∀ w, p <+: w → w < key) ∧
    (∀ key p : List UInt8, (∀ b ∈ p, b = 255) → keyAtOrPastPrefixSuccessor key p = false) ∧
    (∀ (bound : LowerBound) (p : List UInt8),
      ((bound.setInclusiveSuccessor p).2 = false ↔ ¬ ∃ key, ∀ w, p <+: w → w < key) ∧
      ((bound.setInclusiveSuccessor p).2 = true →
        (bound.setInclusiveSuccessor p).1.inclusive = true ∧
        IsLeast { key | ∀ w, p <+: w → w < key } (bound.setInclusiveSuccessor p).1.key)) ∧
    (∀ path target w : List UInt8, path <+: w →
      (pathSeekRelation path target = .skip → w < target) ∧
      (pathSeekRelation path target = .min → target ≤ w)) ∧
    ∀ path segment target w : List UInt8, path ++ segment <+: w →
      (segmentSeekRelation path segment target = .skip → w < target) ∧
      (segmentSeekRelation path segment target = .min → target ≤ w) := by
  have hbelow : ∀ key p : List UInt8, (∀ w, p <+: w → w < key) ↔ ∀ t, p ++ t < key :=
    fun key p => ⟨fun h t => h _ (List.prefix_append ..), fun h w ⟨t, ht⟩ => ht ▸ h t⟩
  refine ⟨fun key p => ?_, fun key p hall => ?_, fun bound p => ?_, ?_, ?_⟩
  · unfold keyAtOrPastPrefixSuccessor
    rw [hbelow]
    split
    · rename_i hnone
      obtain ⟨t, ht⟩ := exists_not_lt_append hnone key
      exact iff_of_false Bool.false_ne_true fun h => ht (h t)
    · rename_i s hs
      rw [atOrPast_iff, not_lt_successor_iff hs]
  · rw [keyAtOrPastPrefixSuccessor, successor_eq_none_iff.mpr hall]
  · unfold LowerBound.setInclusiveSuccessor
    simp only [hbelow]
    split
    · rename_i s hs
      refine ⟨iff_of_false Bool.noConfusion (not_not.mpr ⟨s, ?_⟩), fun _ =>
        ⟨rfl, ?_, fun key hkey => ?_⟩⟩
      · exact (not_lt_successor_iff hs).mp (lt_irrefl s)
      · exact (not_lt_successor_iff hs).mp (lt_irrefl s)
      · exact not_lt.mp ((not_lt_successor_iff hs).mpr hkey)
    · rename_i hnone
      refine ⟨iff_of_true rfl ?_, fun h => absurd h Bool.false_ne_true⟩
      rintro ⟨key, hkey⟩
      obtain ⟨t, ht⟩ := exists_not_lt_append hnone key
      exact ht (hkey t)
  · rintro path target w ⟨t, rfl⟩
    have hspec := pathSeekRelation_spec path target t
    exact ⟨fun h => by rwa [h] at hspec, fun h => by rwa [h] at hspec⟩
  · rintro path segment target w ⟨t, rfl⟩
    have hspec := segmentSeekRelation_spec path segment target t
    exact ⟨fun h => by rwa [h] at hspec, fun h => by rwa [h] at hspec⟩

theorem seekBounds_exact_path :
    [97, 47, 98] < ([97, 48] : List UInt8) :=
  (seekBounds_exact.2.2.2.1 [97, 47] [97, 48] [97, 47, 98] (by decide)).1 (by decide)

end Bounds

/-! ## Children in order -/

/-- Whether the cursor position `cur` has not gone past the child of byte `b`. -/
def Inner.ahead : Inner → Nat → UInt8 → Prop
  | .node4 es, cur, b => ∃ i, cur ≤ i ∧ (es.map Prod.fst)[i]? = some b
  | .node16 es, cur, b => ∃ i, cur ≤ i ∧ (es.map Prod.fst)[i]? = some b
  | .node48 _, cur, b => cur ≤ b.toNat
  | .node256 _, cur, b => cur ≤ b.toNat

/-- `b` is the first child from `cur` on that is not below `least`, and `cur'` is right after. -/
structure Inner.Next (n : Inner) (cur : Nat) (least : UInt8) (b : UInt8) (c : Slot) (cur' : Nat) :
    Prop where
  child : n.findChild b = some c
  ahead : n.ahead cur b
  first : ∀ x s, n.findChild x = some s → least ≤ x → n.ahead cur x → b ≤ x
  rest : ∀ x s, n.findChild x = some s → (n.ahead cur' x ↔ b < x)
  kept : ∀ x s, n.findChild x = some s → n.ahead cur' x → n.ahead cur x

/-- What a search for the next child tells. -/
def Inner.Finds (n : Inner) (cur : Nat) (least : UInt8) : Option (UInt8 × Slot × Nat) → Prop
  | none => ∀ x s, n.findChild x = some s → least ≤ x → ¬ n.ahead cur x
  | some (b, c, cur') => n.Next cur least b c cur'

theorem Inner.ahead_zero {n : Inner} (h : n.Wf) {b : UInt8} {c : Slot}
    (hb : n.findChild b = some c) : n.ahead 0 b := by
  have entries : ∀ es : List (UInt8 × Slot), es.lookup b = some c →
      ∃ i, 0 ≤ i ∧ (es.map Prod.fst)[i]? = some b := by
    intro es hl
    obtain ⟨i, hi⟩ := List.mem_iff_getElem?.mp (List.mem_map_of_mem (f := Prod.fst) (lookup_mem hl))
    exact ⟨i, Nat.zero_le i, hi⟩
  cases n with
  | node4 es => exact entries es (findChild_node4 h b ▸ hb)
  | node16 es => exact entries es hb
  | node48 n => exact Nat.zero_le _
  | node256 n => exact Nat.zero_le _

section Entries

variable {es : List (UInt8 × Slot)} {cur : Nat} {least b : UInt8} {c : Slot}

theorem ascending_getElem (ha : Ascending es) {i j : Nat} {x y : UInt8 × Slot}
    (hi : es[i]? = some x) (hj : es[j]? = some y) : i < j ↔ x.1 < y.1 := by
  obtain ⟨hi', rfl⟩ := List.getElem?_eq_some_iff.mp hi
  obtain ⟨hj', rfl⟩ := List.getElem?_eq_some_iff.mp hj
  have hlt : ∀ {i j : Nat} (hi : i < es.length) (hj : j < es.length), i < j → es[i].1 < es[j].1 :=
    fun hi hj h => List.pairwise_iff_getElem.mp ha _ _ hi hj h
  refine ⟨hlt hi' hj', fun h => ?_⟩
  rcases Nat.lt_trichotomy i j with h' | rfl | h'
  · exact h'
  · exact absurd h (lt_irrefl _)
  · exact absurd (h.trans (hlt hj' hi' h')) (lt_irrefl _)

/-- A child found in a list of entries. -/
theorem Inner.Next.of_entry {n : Inner} {i : Nat} (hfind : ∀ x, n.findChild x = es.lookup x)
    (hahead : ∀ cur x, n.ahead cur x ↔ ∃ i, cur ≤ i ∧ (es.map Prod.fst)[i]? = some x)
    (ha : Ascending es) (hi : es[i]? = some (b, c)) (hcur : cur ≤ i)
    (hfirst : ∀ j e, es[j]? = some e → cur ≤ j → least ≤ e.1 → i ≤ j) :
    n.Next cur least b c (i + 1) := by
  have hat : ∀ {cur : Nat} {x : UInt8}, n.ahead cur x ↔ ∃ j e, cur ≤ j ∧ es[j]? = some e ∧
      e.1 = x := by
    intro cur x
    rw [hahead]
    constructor
    · rintro ⟨j, hj, hx⟩
      rw [List.getElem?_map] at hx
      obtain ⟨e, he, rfl⟩ := Option.map_eq_some_iff.mp hx
      exact ⟨j, e, hj, he, rfl⟩
    · rintro ⟨j, e, hj, he, rfl⟩
      exact ⟨j, hj, by rw [List.getElem?_map, he]; rfl⟩
  refine ⟨?_, ?_, ?_, ?_, ?_⟩
  · rw [hfind]
    exact lookup_of_mem ha.keys_nodup (List.mem_of_getElem? hi)
  · exact hat.mpr ⟨i, _, hcur, hi, rfl⟩
  · intro x s _ hl hx
    obtain ⟨j, e, hj, he, rfl⟩ := hat.mp hx
    rcases Nat.lt_or_eq_of_le (hfirst j e he hj hl) with hlt | rfl
    · exact ((ascending_getElem ha hi he).mp hlt).le
    · cases hi.symm.trans he
      exact le_rfl
  · intro x s hx
    rw [hfind] at hx
    constructor
    · intro hx'
      obtain ⟨j, e, hj, he, rfl⟩ := hat.mp hx'
      exact (ascending_getElem ha hi he).mp hj
    · intro hlt
      obtain ⟨j, hj⟩ := List.mem_iff_getElem?.mp (lookup_mem hx)
      exact hat.mpr ⟨j, _, (ascending_getElem ha hi hj).mpr hlt, hj, rfl⟩
  · intro x s _ hx
    obtain ⟨j, e, hj, he, rfl⟩ := hat.mp hx
    exact hat.mpr ⟨j, e, by omega, he, rfl⟩

theorem Inner.Finds.of_nextEntry {n : Inner} (hfind : ∀ x, n.findChild x = es.lookup x)
    (hahead : ∀ cur x, n.ahead cur x ↔ ∃ i, cur ≤ i ∧ (es.map Prod.fst)[i]? = some x)
    (ha : Ascending es) : n.Finds cur least (nextEntry es cur least) := by
  unfold nextEntry
  cases hf : es.zipIdx.find? fun e => decide (cur ≤ e.2 ∧ least ≤ e.1.1) with
  | none =>
    intro x s hx hl hx'
    rw [hahead] at hx'
    obtain ⟨i, hi, hx'⟩ := hx'
    rw [List.getElem?_map] at hx'
    obtain ⟨e, he, rfl⟩ := Option.map_eq_some_iff.mp hx'
    have hmem : (e, i) ∈ es.zipIdx := List.mem_zipIdx_iff_getElem?.mpr he
    have hno := List.find?_eq_none.mp hf _ hmem
    simp only [decide_eq_true_eq] at hno
    exact hno ⟨hi, hl⟩
  | some e =>
    obtain ⟨⟨b, c⟩, i⟩ := e
    obtain ⟨hp, j, hj, hji, hbefore⟩ := List.find?_eq_some_iff_getElem.mp hf
    simp only [decide_eq_true_eq] at hp
    rw [List.getElem_zipIdx] at hji
    obtain ⟨hjb, rfl⟩ := Prod.mk.inj hji
    rw [List.length_zipIdx] at hj
    rw [Nat.zero_add] at hp hf ⊢
    refine .of_entry hfind hahead ha ?_ hp.1 ?_
    · rw [List.getElem?_eq_getElem hj, hjb]
    · intro k e he hk hl
      by_contra hlt
      have hklt : k < es.length := by omega
      have hno := hbefore k (by omega)
      rw [List.getElem_zipIdx] at hno
      rw [(List.getElem?_eq_some_iff.mp he).2] at hno
      simp only [Nat.zero_add, hk, hl, and_self, decide_true, Bool.not_true] at hno
      cases hno

theorem Inner.Finds.of_getElem {n : Inner} (hfind : ∀ x, n.findChild x = es.lookup x)
    (hahead : ∀ cur x, n.ahead cur x ↔ ∃ i, cur ≤ i ∧ (es.map Prod.fst)[i]? = some x)
    (ha : Ascending es) : n.Finds cur 0 (es[cur]?.map fun e => (e.1, e.2, cur + 1)) := by
  cases hf : es[cur]? with
  | none =>
    intro x s _ _ hx
    obtain ⟨i, hi, hx⟩ := (hahead ..).mp hx
    rw [List.getElem?_map] at hx
    obtain ⟨e, he, -⟩ := Option.map_eq_some_iff.mp hx
    have := (List.getElem?_eq_some_iff.mp he).1
    have := List.getElem?_eq_none_iff.mp hf
    omega
  | some e =>
    refine .of_entry hfind hahead ha hf le_rfl ?_
    intro j e _ hj _
    exact hj

end Entries

/-- The first byte with a property is the least one. -/
theorem allBytes_find {p : UInt8 → Bool} {b : UInt8} (h : allBytes.find? p = some b) :
    p b = true ∧ ∀ x, p x = true → b ≤ x := by
  obtain ⟨hp, i, hi, rfl, hbefore⟩ := List.find?_eq_some_iff_getElem.mp h
  refine ⟨hp, fun x hx => ?_⟩
  obtain ⟨j, hj, rfl⟩ := List.mem_iff_getElem.mp (mem_allBytes x)
  rcases Nat.lt_trichotomy i j with hlt | rfl | hlt
  · exact (List.pairwise_iff_getElem.mp allBytes_ascending i j hi hj hlt).le
  · exact le_rfl
  · have := hbefore j hlt
    rw [hx] at this
    cases this

theorem Inner.Next.of_byte {n : Inner} {cur : Nat} {least b : UInt8} {c : Slot}
    (hahead : ∀ cur x, n.ahead cur x ↔ cur ≤ x.toNat) (hb : n.findChild b = some c)
    (hcur : cur ≤ b.toNat)
    (hfirst : ∀ x s, n.findChild x = some s → cur ≤ x.toNat → least ≤ x → b ≤ x) :
    n.Next cur least b c (b.toNat + 1) := by
  refine ⟨hb, (hahead ..).mpr hcur, ?_, ?_, ?_⟩
  · intro x s hx hl hx'
    exact hfirst x s hx ((hahead ..).mp hx') hl
  · intro x s _
    rw [hahead, UInt8.lt_iff_toNat_lt]
    exact Nat.succ_le_iff
  · intro x s _ hx
    rw [hahead] at hx ⊢
    omega

theorem nextNode48_finds {n : Node48} (h : n.Wf) (cur : Nat) (least : UInt8) (context : String) :
    ∃ r, nextNode48 n (max cur least.toNat) context = .ok r ∧
      (Inner.node48 n).Finds cur least r := by
  have hchild : ∀ {x s}, (Inner.node48 n).findChild x = some s → n.index x ≠ 0 := by
    intro x s hx h0
    simp [Inner.findChild, h0] at hx
  unfold nextNode48
  split
  · rename_i hf
    refine ⟨none, rfl, fun x s hx hl hx' => ?_⟩
    have hno := List.find?_eq_none.mp hf x (mem_allBytes x)
    simp only [decide_eq_true_eq] at hno
    exact hno ⟨max_le hx' (UInt8.le_iff_toNat_le.mp hl), hchild hx⟩
  · rename_i b hf
    obtain ⟨hp, hfirst⟩ := allBytes_find hf
    simp only [decide_eq_true_eq] at hp hfirst
    have hle := h.index_le b
    rw [if_neg (by omega)]
    refine ⟨_, rfl, .of_byte (fun _ _ => Iff.rfl) (by simp [Inner.findChild, hp.2])
      ((le_max_left ..).trans hp.1) ?_⟩
    intro x s hx hcur hl
    exact hfirst x ⟨max_le hcur (UInt8.le_iff_toNat_le.mp hl), hchild hx⟩

theorem nextNode256_finds (n : Node256) (cur : Nat) (least : UInt8) :
    (Inner.node256 n).Finds cur least (nextNode256 n (max cur least.toNat)) := by
  have hchild : ∀ {x s}, (Inner.node256 n).findChild x = some s → n.children x ≠ 0 := by
    intro x s hx h0
    simp [Inner.findChild, h0] at hx
  unfold nextNode256
  cases hf : allBytes.find? fun b =>
      decide (max cur least.toNat ≤ b.toNat ∧ n.children b ≠ 0) with
  | none =>
    intro x s hx hl hx'
    have hno := List.find?_eq_none.mp hf x (mem_allBytes x)
    simp only [decide_eq_true_eq] at hno
    exact hno ⟨max_le hx' (UInt8.le_iff_toNat_le.mp hl), hchild hx⟩
  | some b =>
    obtain ⟨hp, hfirst⟩ := allBytes_find hf
    simp only [decide_eq_true_eq] at hp hfirst
    refine .of_byte (fun _ _ => Iff.rfl) (by simp [Inner.findChild, hp.2])
      ((le_max_left ..).trans hp.1) ?_
    intro x s hx hcur hl
    exact hfirst x ⟨max_le hcur (UInt8.le_iff_toNat_le.mp hl), hchild hx⟩

section Found

variable {F : Frame} {s : Slot} {n : Inner}

theorem nextInnerChildGe_finds (hn : F.NodeAt s (.inner n)) (hw : n.Wf) (cur : Nat)
    (least : Option UInt8) :
    ∃ r, nextInnerChildGe F s n.ntype cur least = .ok r ∧ n.Finds cur (least.getD 0) r := by
  unfold nextInnerChildGe
  rw [readInner_eq hn]
  cases n with
  | node4 es =>
    exact ⟨_, rfl, .of_nextEntry (Inner.findChild_node4 hw) (fun _ _ => Iff.rfl) hw.2.1⟩
  | node16 es => exact ⟨_, rfl, .of_nextEntry (fun _ => rfl) (fun _ _ => Iff.rfl) hw.2.1⟩
  | node48 n => exact nextNode48_finds hw cur _ _
  | node256 n => exact ⟨_, rfl, nextNode256_finds n cur _⟩

theorem nextInnerChildFrom_finds (hn : F.NodeAt s (.inner n)) (hw : n.Wf) (cur : Nat) :
    ∃ r, nextInnerChildFrom F s n.ntype cur = .ok r ∧ n.Finds cur 0 r := by
  unfold nextInnerChildFrom
  rw [readInner_eq hn]
  cases n with
  | node4 es =>
    exact ⟨_, rfl, .of_getElem (Inner.findChild_node4 hw) (fun _ _ => Iff.rfl) hw.2.1⟩
  | node16 es => exact ⟨_, rfl, .of_getElem (fun _ => rfl) (fun _ _ => Iff.rfl) hw.2.1⟩
  | node48 n =>
    have hfinds := nextNode48_finds hw cur 0 "range::next_inner_child: Node48 index out of range"
    rwa [UInt8.toNat_zero, Nat.max_zero] at hfinds
  | node256 n =>
    have hfinds := nextNode256_finds n cur 0
    rw [UInt8.toNat_zero, Nat.max_zero] at hfinds
    exact ⟨_, rfl, hfinds⟩

end Found

end Holt
