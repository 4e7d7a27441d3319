import Mathlib.Order.Lattice
import Mathlib.Data.List.Basic

/-! Association lists in ascending key order: search, replacement and insertion. -/

namespace Holt.Lib

variable {α β : Type*}

theorem lookup_cons_ite [DecidableEq α] (k : α) (e : α × β) (es : List (α × β)) :
    (e :: es).lookup k = if k = e.1 then some e.2 else es.lookup k := by
  rw [List.lookup_cons]
  by_cases h : k = e.1
  · simp [h]
  · simp [h, beq_eq_false_iff_ne.mpr h]

theorem lookup_mem [DecidableEq α] {k : α} {v : β} {es : List (α × β)}
    (h : es.lookup k = some v) : (k, v) ∈ es := by
  obtain ⟨l₁, l₂, rfl, _⟩ := List.lookup_eq_some_iff.mp h
  simp

theorem lookup_of_mem [DecidableEq α] {k : α} {v : β} {es : List (α × β)}
    (hn : (es.map Prod.fst).Nodup) (h : (k, v) ∈ es) : es.lookup k = some v := by
  induction es with
  | nil => simp at h
  | cons e es ih =>
    simp only [List.map_cons, List.nodup_cons] at hn
    rw [lookup_cons_ite]
    rcases List.mem_cons.mp h with rfl | h
    · simp
    · have hk : k ≠ e.1 := by
        rintro rfl
        exact hn.1 (List.mem_map.mpr ⟨_, h, rfl⟩)
      rw [if_neg hk]
      exact ih hn.2 h

theorem lookup_isSome_iff [DecidableEq α] {k : α} {es : List (α × β)} :
    (es.lookup k).isSome ↔ k ∈ es.map Prod.fst := by
  induction es with
  | nil => simp
  | cons e es ih =>
    rw [lookup_cons_ite]
    by_cases h : k = e.1
    · simp [h]
    · rw [if_neg h, ih]
      simp [h]

/-- Replace the value of the first entry with key `k`. -/
def setValue [DecidableEq α] (k : α) (v : β) : List (α × β) → Option (List (α × β))
  | [] => none
  | e :: es => if e.1 = k then some ((e.1, v) :: es) else (setValue k v es).map (e :: ·)

theorem setValue_isSome [DecidableEq α] {k : α} {old : β} (v : β) {es : List (α × β)}
    (h : es.lookup k = some old) : ∃ es', setValue k v es = some es' := by
  induction es with
  | nil => simp at h
  | cons e es ih =>
    rw [lookup_cons_ite] at h
    unfold setValue
    by_cases hk : k = e.1
    · exact ⟨(e.1, v) :: es, by simp [hk]⟩
    · rw [if_neg hk] at h
      obtain ⟨es', hs⟩ := ih h
      exact ⟨e :: es', by simp [Ne.symm hk, hs]⟩

/-- Replacement keeps the keys and changes one answer. -/
theorem setValue_spec [DecidableEq α] {k : α} {v : β} {es es' : List (α × β)}
    (h : setValue k v es = some es') :
    es'.map Prod.fst = es.map Prod.fst ∧
    (∀ k', es'.lookup k' = if k' = k then some v else es.lookup k') ∧
    ∀ e ∈ es', e = (k, v) ∨ e ∈ es := by
  induction es generalizing es' with
  | nil => simp [setValue] at h
  | cons e es ih =>
    unfold setValue at h
    by_cases hk : e.1 = k
    · rw [if_pos hk] at h
      cases h
      refine ⟨rfl, fun k' => ?_, fun x hx => ?_⟩
      · rw [lookup_cons_ite, lookup_cons_ite, hk]
        by_cases h' : k' = k <;> simp [h']
      · rcases List.mem_cons.mp hx with rfl | hx
        · exact Or.inl (by rw [hk])
        · exact Or.inr (List.mem_cons_of_mem e hx)
    · rw [if_neg hk] at h
      obtain ⟨tail, ht, rfl⟩ := Option.map_eq_some_iff.mp h
      obtain ⟨hkeys, hget, hmem⟩ := ih ht
      refine ⟨by simp [hkeys], fun k' => ?_, fun x hx => ?_⟩
      · rw [lookup_cons_ite, lookup_cons_ite, hget]
        by_cases h' : k' = e.1
        · have hne : ¬ k' = k := fun he => hk (h'.symm.trans he)
          simp [h', hk]
        · simp [h']
      · rcases List.mem_cons.mp hx with rfl | hx
        · exact Or.inr List.mem_cons_self
        · exact (hmem x hx).imp_right (List.mem_cons_of_mem e)

variable [LinearOrder α]

def Ascending (es : List (α × β)) : Prop := es.Pairwise (fun x y => x.1 < y.1)

theorem Ascending.keys_nodup {es : List (α × β)} (h : Ascending es) :
    (es.map Prod.fst).Nodup := by
  rw [List.Nodup, List.pairwise_map]
  exact h.imp (fun hlt => ne_of_lt hlt)

theorem Ascending.of_keys {es es' : List (α × β)} (h : Ascending es)
    (hk : es'.map Prod.fst = es.map Prod.fst) : Ascending es' := by
  unfold Ascending at h ⊢
  rw [← List.pairwise_map (f := Prod.fst) (R := (· < ·))] at h ⊢
  rwa [hk]

/-- Search that gives up at the first greater key. -/
def scanAsc (k : α) : List (α × β) → Option β
  | [] => none
  | e :: es => if e.1 = k then some e.2 else if k < e.1 then none else scanAsc k es

theorem scanAsc_eq_lookup {es : List (α × β)} (h : Ascending es) (k : α) :
    scanAsc k es = es.lookup k := by
  induction es with
  | nil => rfl
  | cons e es ih =>
    obtain ⟨hhead, htail⟩ := List.pairwise_cons.mp h
    rw [lookup_cons_ite, scanAsc]
    by_cases hk : k = e.1
    · simp [hk]
    · rw [if_neg (Ne.symm hk), if_neg hk]
      split
      · rename_i hlt
        refine (List.lookup_eq_none_iff.mpr fun p hp => ?_).symm
        simpa using ne_of_lt (lt_trans hlt (hhead p hp))
      · exact ih htail

theorem mem_of_scanAsc {es : List (α × β)} (h : Ascending es) {k : α} {v : β}
    (hk : scanAsc k es = some v) : (k, v) ∈ es := by
  rw [scanAsc_eq_lookup h] at hk
  exact lookup_mem hk

theorem scanAsc_of_mem {es : List (α × β)} (h : Ascending es) {e : α × β} (he : e ∈ es) :
    scanAsc e.1 es = some e.2 := by
  rw [scanAsc_eq_lookup h]
  exact lookup_of_mem h.keys_nodup he

/-- Put a new entry before the first greater key. -/
def insertAsc (k : α) (v : β) : List (α × β) → List (α × β)
  | [] => [(k, v)]
  | e :: es => if k < e.1 then (k, v) :: e :: es else e :: insertAsc k v es

theorem insertAsc_length (k : α) (v : β) (es : List (α × β)) :
    (insertAsc k v es).length = es.length + 1 := by
  induction es with
  | nil => rfl
  | cons e es ih =>
    unfold insertAsc
    split <;> simp [ih]

theorem mem_insertAsc {k : α} {v : β} {es : List (α × β)} {x : α × β} :
    x ∈ insertAsc k v es ↔ x = (k, v) ∨ x ∈ es := by
  induction es with
  | nil => simp [insertAsc]
  | cons e es ih =>
    unfold insertAsc
    split
    · simp
    · simp only [List.mem_cons, ih]
      exact or_left_comm

theorem lookup_insertAsc {k : α} (v : β) {es : List (α × β)} (h : es.lookup k = none) (k' : α) :
    (insertAsc k v es).lookup k' = if k' = k then some v else es.lookup k' := by
  induction es with
  | nil => simp [insertAsc, lookup_cons_ite]
  | cons e es ih =>
    rw [lookup_cons_ite] at h
    have hk : ¬ k = e.1 := by
      intro he
      simp [he] at h
    rw [if_neg hk] at h
    unfold insertAsc
    split
    · rw [lookup_cons_ite]
    · rw [lookup_cons_ite, lookup_cons_ite, ih h]
      by_cases h' : k' = e.1
      · have : ¬ e.1 = k := fun he => hk he.symm
        simp [h', this]
      · simp [h']

theorem Ascending.insertAsc {k : α} {es : List (α × β)} (h : Ascending es) (v : β)
    (hn : es.lookup k = none) : Ascending (insertAsc k v es) := by
  induction es with
  | nil => simp [Holt.Lib.insertAsc, Ascending]
  | cons e es ih =>
    obtain ⟨hhead, htail⟩ := List.pairwise_cons.mp h
    rw [lookup_cons_ite] at hn
    have hk : ¬ k = e.1 := by
      intro he
      simp [he] at hn
    rw [if_neg hk] at hn
    unfold Holt.Lib.insertAsc
    split
    · rename_i hlt
      refine List.pairwise_cons.mpr ⟨fun x hx => ?_, h⟩
      rcases List.mem_cons.mp hx with rfl | hx
      · exact hlt
      · exact lt_trans hlt (hhead x hx)
    · rename_i hge
      have hlt : e.1 < k := lt_of_le_of_ne (not_lt.mp hge) (Ne.symm hk)
      refine List.pairwise_cons.mpr ⟨fun x hx => ?_, ih htail hn⟩
      rcases mem_insertAsc.mp hx with rfl | hx
      · exact hlt
      · exact hhead x hx

/-- Give `k` the value `v`, as a new entry if it has none. -/
def assign (k : α) (v : β) (es : List (α × β)) : List (α × β) :=
  (setValue k v es).getD (insertAsc k v es)

theorem setValue_eq_none {k : α} {v : β} {es : List (α × β)} :
    setValue k v es = none ↔ es.lookup k = none := by
  constructor
  · intro h
    cases hk : es.lookup k with
    | none => rfl
    | some old =>
      obtain ⟨es', hs⟩ := setValue_isSome v hk
      cases h.symm.trans hs
  · intro h
    cases hs : setValue k v es with
    | none => rfl
    | some es' =>
      obtain ⟨hkeys, hget, -⟩ := setValue_spec hs
      have hmem : k ∈ es.map Prod.fst := by
        rw [← hkeys]
        exact lookup_isSome_iff.mp (by simp [hget])
      rw [← lookup_isSome_iff, h] at hmem
      cases hmem

theorem lookup_assign (k : α) (v : β) (es : List (α × β)) (k' : α) :
    (assign k v es).lookup k' = if k' = k then some v else es.lookup k' := by
  unfold assign
  cases hs : setValue k v es with
  | some es' => exact (setValue_spec hs).2.1 k'
  | none => exact lookup_insertAsc v (setValue_eq_none.mp hs) k'

theorem Ascending.assign {es : List (α × β)} (h : Ascending es) (k : α) (v : β) :
    Ascending (assign k v es) := by
  unfold Holt.Lib.assign
  cases hs : setValue k v es with
  | some es' => exact h.of_keys (setValue_spec hs).1
  | none => exact h.insertAsc v (setValue_eq_none.mp hs)

/-- Take `k` out. -/
def discard (k : α) (es : List (α × β)) : List (α × β) := es.filter fun e => e.1 ≠ k

theorem lookup_discard (k : α) (es : List (α × β)) (k' : α) :
    (discard k es).lookup k' = if k' = k then none else es.lookup k' := by
  induction es with
  | nil => simp [discard]
  | cons e es ih =>
    unfold discard at ih ⊢
    rw [List.filter_cons, lookup_cons_ite]
    by_cases he : e.1 = k
    · rw [if_neg (by simpa using he), ih]
      by_cases hk : k' = k
      · rw [if_pos hk, if_pos hk]
      · have hne : ¬ k' = e.1 := fun h => hk (h.trans he)
        rw [if_neg hk, if_neg hk, if_neg hne]
    · rw [if_pos (by simpa using he), lookup_cons_ite, ih]
      by_cases hk : k' = e.1
      · have hne : ¬ k' = k := fun h => he (hk.symm.trans h)
        rw [if_pos hk, if_neg hne, if_pos hk]
      · rw [if_neg hk, if_neg hk]

theorem Ascending.discard {es : List (α × β)} (h : Ascending es) (k : α) :
    Ascending (discard k es) :=
  h.sublist List.filter_sublist

/-- The first entry past `k`, or the first of all. -/
def firstAfter (k : Option α) (es : List (α × β)) : Option (α × β) :=
  es.find? fun e => k.all (· < e.1)

theorem mem_of_firstAfter {es : List (α × β)} {k : Option α} {e : α × β}
    (h : firstAfter k es = some e) : e ∈ es :=
  List.mem_of_find?_eq_some h

end Holt.Lib
