import Mathlib.Data.List.AList

/-! Finite maps: what a lookup finds after an update. -/

namespace Holt.Lib

variable {κ β : Type*} [DecidableEq κ] {m : AList fun _ : κ => β} {k k' : κ} {v v' : β}

theorem lookup_insert_some (h : (m.insert k v).lookup k' = some v') :
    k' = k ∧ v = v' ∨ k' ≠ k ∧ m.lookup k' = some v' := by
  by_cases hk : k' = k
  · subst hk
    rw [AList.lookup_insert] at h
    exact .inl ⟨rfl, Option.some.inj h⟩
  · rw [AList.lookup_insert_ne hk] at h
    exact .inr ⟨hk, h⟩

theorem lookup_erase_some (h : (m.erase k).lookup k' = some v) : k' ≠ k ∧ m.lookup k' = some v := by
  by_cases hk : k' = k
  · subst hk
    rw [AList.lookup_erase] at h
    cases h
  · rw [AList.lookup_erase_ne hk] at h
    exact ⟨hk, h⟩

theorem mem_of_lookup (h : m.lookup k = some v) : k ∈ m :=
  AList.lookup_isSome.mp (by rw [h]; rfl)

theorem exists_lookup (h : k ∈ m) : ∃ v, m.lookup k = some v :=
  Option.isSome_iff_exists.mp (AList.lookup_isSome.mpr h)

theorem entries_perm (h : m.lookup k = some v) : m.entries.Perm (⟨k, v⟩ :: m.entries.kerase k) := by
  obtain ⟨v', before, after, -, hentries, herase⟩ :=
    List.exists_of_kerase (AList.mem_keys.mp (mem_of_lookup h))
  have hv : v' = v := by
    have hmem : (⟨k, v'⟩ : Sigma fun _ : κ => β) ∈ m.entries := by
      rw [hentries]
      simp
    exact Option.some.inj ((AList.mem_lookup_iff.mpr hmem).symm.trans h)
  rw [herase, hentries, hv]
  exact List.perm_middle

theorem mem_foldl_insert (l : List (κ × β)) (m : AList fun _ : κ => β) :
    k ∈ l.foldl (fun m e => m.insert e.1 e.2) m ↔ k ∈ m ∨ k ∈ l.map Prod.fst := by
  induction l generalizing m with
  | nil => simp
  | cons e l ih =>
    rw [List.foldl_cons, ih, AList.mem_insert, List.map_cons, List.mem_cons, or_comm (a := k = _),
      or_assoc]

/-- The parts of a list under each key make up the list. -/
theorem flatMap_filter_perm {α : Type*} (key : α → κ) {ks : List κ} (hnodup : ks.Nodup)
    {l : List α} (hkeys : ∀ a ∈ l, key a ∈ ks) :
    (ks.flatMap fun k => l.filter (key · = k)).Perm l := by
  induction ks generalizing l with
  | nil =>
    cases l with
    | nil => exact .refl _
    | cons a l => cases hkeys a List.mem_cons_self
  | cons k ks ih =>
    obtain ⟨hk, hnodup⟩ := List.nodup_cons.mp hnodup
    have hrest : ∀ a ∈ l.filter (fun a => !decide (key a = k)), key a ∈ ks := fun a ha => by
      obtain ⟨ha, hne⟩ := List.mem_filter.mp ha
      exact (List.mem_cons.mp (hkeys a ha)).resolve_left (by simpa using hne)
    have hsame : (ks.flatMap fun k' => l.filter (key · = k')) =
        ks.flatMap fun k' => (l.filter fun a => !decide (key a = k)).filter (key · = k') := by
      refine List.flatMap_congr fun k' hk' => ?_
      rw [List.filter_filter]
      refine List.filter_congr fun a _ => ?_
      by_cases ha : key a = k'
      · have hne : k' ≠ k := fun e => hk (e ▸ hk')
        simp [ha, hne]
      · simp [ha]
    rw [List.flatMap_cons, hsame]
    exact ((ih hnodup hrest).append_left _).trans (List.filter_append_perm _ l)

end Holt.Lib
