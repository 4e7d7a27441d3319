import Holt.Walker.WriteMulti

/-! What a tree is for: a map from user keys to values and versions. -/

namespace Holt

open Holt.Lib

/-- The live records of a tree: value and version of every key that has one. -/
abbrev Contents := List UInt8 → Option (List UInt8 × Nat)

namespace Contents

def version (m : Contents) (key : List UInt8) : Option Nat := (m key).map Prod.snd

def put (m : Contents) (key value : List UInt8) (seq : Nat) : Contents :=
  Function.update m key (some (value, seq))

def remove (m : Contents) (key : List UInt8) : Contents := Function.update m key none

@[simp]
theorem put_self (m : Contents) (key value : List UInt8) (seq : Nat) :
    m.put key value seq key = some (value, seq) := Function.update_self ..

theorem put_of_ne (m : Contents) {key k : List UInt8} (value : List UInt8) (seq : Nat)
    (h : k ≠ key) : m.put key value seq k = m k := Function.update_of_ne h ..

@[simp]
theorem remove_self (m : Contents) (key : List UInt8) : m.remove key key = none :=
  Function.update_self ..

theorem remove_of_ne (m : Contents) {key k : List UInt8} (h : k ≠ key) : m.remove key k = m k :=
  Function.update_of_ne h ..

end Contents

def InsertCondition.holds : InsertCondition → Option Nat → Bool
  | .always, _ => true
  | .ifAbsent, version => version.isNone
  | .ifVersion expected, version => version = some expected

def EraseCondition.holds : EraseCondition → Option Nat → Bool
  | .always, version => version.isSome
  | .ifVersion expected, version => version = some expected

def Target.record : Target → Option (List UInt8 × Nat)
  | .leaf r => some (r.value, r.seq)
  | _ => none

/-- The blobs of the tree hold the records of `m`. -/
def Forest.Shows (root : BlobGuid) (fo : Forest) (m : Contents) : Prop :=
  ∀ key o, fo.Leads (key ++ [0]) root o → m key = o.record

section Shows

variable {root : BlobGuid} {fo fo' : Forest} {m : Contents} {key value : List UInt8} {seq : Nat}
  {mutated : Bool}

theorem InsertCondition.admitsTarget_eq (c : InsertCondition) {g : BlobGuid} {k : List UInt8}
    {o : Target} (h : fo.Leads k g o) : c.admitsTarget o = c.holds (o.record.map Prod.snd) := by
  obtain rfl | ⟨r, rfl, hr⟩ := h.ended
  · cases c <;> simp [admitsTarget, isVersion, holds, Target.record]
  · cases c <;> simp [admitsTarget, admits, hr, holds, Target.record]

theorem EraseCondition.admitsTarget_eq (c : EraseCondition) {g : BlobGuid} {k : List UInt8}
    {o : Target} (h : fo.Leads k g o) : c.admitsTarget o = c.holds (o.record.map Prod.snd) := by
  obtain rfl | ⟨r, rfl, hr⟩ := h.ended
  · cases c <;> simp [admitsTarget, holds, Target.record]
  · cases c <;> simp [admitsTarget, admits, hr, holds, Target.record]

theorem Forest.Shows.wrote {goal : Target} (h : fo.Shows root m)
    (hw : Forest.Wrote root fo fo' (key ++ [0]) mutated goal) :
    fo'.Shows root (if mutated then Function.update m key goal.record else m) := by
  intro k o ho
  have hk := (hw _ o).mp ho
  by_cases hc : k ++ [0] = key ++ [0] ∧ mutated = true
  · rw [if_pos hc] at hk
    rw [if_pos hc.2, List.append_cancel_right hc.1, Function.update_self, hk]
  · rw [if_neg hc] at hk
    rw [← h k o hk]
    split
    · rename_i hm
      exact Function.update_of_ne (fun hkey => hc ⟨by rw [hkey], hm⟩) _ _
    · rfl

theorem Forest.Shows.inserted {cond : InsertCondition} (h : fo.Shows root m)
    (hi : Forest.Inserted root fo fo' (newRecord (.user key) value seq) cond mutated) :
    mutated = cond.holds (m.version key) ∧
      fo'.Shows root (if mutated then m.put key value seq else m) := by
  obtain ⟨⟨o, ho, hm⟩, hw⟩ := hi
  refine ⟨?_, h.wrote hw⟩
  rw [hm, cond.admitsTarget_eq ho, Contents.version, h key o ho]

theorem Forest.Shows.erased {cond : EraseCondition} (h : fo.Shows root m)
    (he : Forest.Erased root fo fo' (SearchKey.user key).full cond mutated) :
    mutated = cond.holds (m.version key) ∧
      fo'.Shows root (if mutated then m.remove key else m) := by
  obtain ⟨⟨o, ho, hm⟩, hw⟩ := he
  refine ⟨?_, h.wrote hw⟩
  rw [hm, cond.admitsTarget_eq ho, Contents.version, h key o ho]

end Shows

/-! ## What the walkers do to the records -/

/-- The blobs of the tree are in order and hold the records of `m`. -/
def Engine.Shows {root : BlobGuid} (supply : GuidSupply root) (e : Engine) (m : Contents) : Prop :=
  ∃ fo, e.Inv supply fo ∧ fo.Shows root m

section Walkers

variable {root : BlobGuid} {supply : GuidSupply root} {e : Engine} {m : Contents}
  {err : Error → Engine → Prop}

/-- A lookup reads the record of its key, through whatever the caller makes of it. -/
theorem Engine.Shows.lookup {R : Type} {consume : Frame → LookupHit → R} {f : List UInt8 × Nat → R}
    (h : e.Shows supply m) (key : List UInt8)
    (hf : ∀ F hit v, F.bytesAt hit.offset hit.len = some v → consume F hit = f (v, hit.seq)) :
    Sat (lookupMultiWith root consume (.user key) 1) e
      (fun r e' => r = (m key).map f ∧ e'.Shows supply m) err := by
  obtain ⟨fo, hinv, hm⟩ := h
  apply (lookupMultiWith_sat consume (.user key) hinv 0).mono
  · rintro r e' ⟨he, o, ho, hr⟩
    refine ⟨?_, fo, he, hm⟩
    rw [hm key o ho]
    cases o with
    | leaf rec =>
      obtain ⟨F, hit, rfl, hv, hs⟩ := hr
      simp [hf F hit _ hv, hs, Target.record]
    | absent => exact hr
    | crossing g d => exact hr
  · intro _ _ he
    exact he

theorem Engine.Shows.insert (h : e.Shows supply m) (key value : List UInt8) (seq : Nat)
    (condition : InsertCondition) :
    Sat (insertMultiConditional supply (.user key) value seq condition) e
      (fun out e' => out.mutated = condition.holds (m.version key) ∧
        e'.Shows supply (if out.mutated then m.put key value seq else m))
      (fun er _ => er.DeclinesInsert (key.length + 1) value.length) := by
  obtain ⟨fo, hinv, hm⟩ := h
  apply (insertMultiConditional_sat hinv (.user key) value seq condition).mono
  · rintro out e' ⟨fo', hinv', -, hi⟩
    obtain ⟨hout, hm'⟩ := hm.inserted hi
    exact ⟨hout, fo', hinv', hm'⟩
  · intro _ _ he
    exact he

theorem Engine.Shows.erase (h : e.Shows supply m) (key : List UInt8) (seq : Nat)
    (condition : EraseCondition) :
    Sat (eraseMultiConditional root (.user key) seq condition) e
      (fun out e' => out.mutated = condition.holds (m.version key) ∧
        e'.Shows supply (if out.mutated then m.remove key else m)) err := by
  obtain ⟨fo, hinv, hm⟩ := h
  apply (eraseMultiConditional_sat hinv (.user key) seq condition).mono
  · rintro out e' ⟨fo', hinv', hi⟩
    obtain ⟨hout, hm'⟩ := hm.erased hi
    exact ⟨hout, fo', hinv', hm'⟩
  · intro _ _ he
    exact he.elim

theorem Engine.Shows.markDirty (h : e.Shows supply m) (g : BlobGuid) (seq : Nat) :
    Engine.Shows supply { e with bm := e.bm.markDirtyCached g seq } m := by
  obtain ⟨fo, hinv, hm⟩ := h
  exact ⟨fo, hinv.markDirty g seq, hm⟩

end Walkers

end Holt
