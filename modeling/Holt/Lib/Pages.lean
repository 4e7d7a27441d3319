import Mathlib.Data.List.GetD
import Mathlib.Data.List.Induction
import Mathlib.Order.Defs.LinearOrder
import Mathlib.Tactic.Common

/-! A file written at given offsets. If all writes are as long as each other and aligned to that
length, a page holds the last write to it, whatever the order of the writes to other pages. -/

namespace Holt.Lib

/-- What lies past the end is read as zeros once the file grows over it. -/
@[ext]
structure File where
  size : Nat
  byte : Nat → UInt8

abbrev Write := Nat × List UInt8

namespace File

/-- An empty write does not move the end of the file. -/
def pwrite (f : File) (offset : Nat) (data : List UInt8) : File where
  size := if data.isEmpty then f.size else max f.size (offset + data.length)
  byte i := if offset ≤ i then data.getD (i - offset) (f.byte i) else f.byte i

def writeAll (f : File) (ws : List Write) : File := ws.foldl (fun f w => f.pwrite w.1 w.2) f

theorem writeAll_append (f : File) (ws vs : List Write) :
    f.writeAll (ws ++ vs) = (f.writeAll ws).writeAll vs :=
  List.foldl_append

theorem pwrite_nil (f : File) (offset : Nat) : f.pwrite offset [] = f := by
  simp [pwrite]

/-- One write for two that touch. -/
theorem pwrite_append (f : File) (offset : Nat) (a b : List UInt8) :
    f.pwrite offset (a ++ b) = (f.pwrite offset a).pwrite (offset + a.length) b := by
  rcases a.eq_nil_or_concat with rfl | ⟨_, _, ha⟩
  · rw [pwrite_nil, List.nil_append, List.length_nil, Nat.add_zero]
  rcases b.eq_nil_or_concat with rfl | ⟨_, _, hb⟩
  · rw [pwrite_nil, List.append_nil]
  have ha : a ≠ [] := by simp [ha]
  have hb : b ≠ [] := by simp [hb]
  ext i
  · simp [pwrite, ha, hb]
    omega
  · simp only [pwrite]
    by_cases hlow : offset ≤ i
    · by_cases hhigh : offset + a.length ≤ i
      · rw [if_pos hlow, if_pos hhigh, if_pos hlow,
          List.getD_append_right _ _ _ _ (by omega), Nat.sub_add_eq]
        rw [List.getD_eq_default a _ (by omega)]
      · rw [if_pos hlow, if_neg hhigh, if_pos hlow, List.getD_append _ _ _ _ (by omega)]
    · rw [if_neg hlow, if_neg (by omega), if_neg hlow]

end File

/-! ## The last write to a page -/

def Aligned (n : Nat) (w : Write) : Prop := n ∣ w.1 ∧ w.2.length = n

/-- What the last write at the offset wrote. -/
def lastAt (offset : Nat) (ws : List Write) : Option (List UInt8) :=
  ((ws.filter fun w => w.1 == offset).getLast?).map Prod.snd

theorem lastAt_append (offset : Nat) (ws : List Write) (w : Write) :
    lastAt offset (ws ++ [w]) = if w.1 = offset then some w.2 else lastAt offset ws := by
  by_cases hw : w.1 = offset <;> simp [lastAt, hw]

theorem exists_mem_of_lastAt {offset : Nat} {ws : List Write} {data : List UInt8}
    (h : lastAt offset ws = some data) : (offset, data) ∈ ws := by
  obtain ⟨w, hw, rfl⟩ := Option.map_eq_some_iff.mp h
  obtain ⟨hmem, hoff⟩ := List.mem_filter.mp (List.mem_of_getLast? hw)
  rwa [← beq_iff_eq.mp hoff]

theorem lastAt_of_mem {w : Write} {ws : List Write} (h : w ∈ ws) :
    ∃ data, lastAt w.1 ws = some data := by
  have hmem : w ∈ ws.filter fun v => v.1 == w.1 := List.mem_filter.mpr ⟨h, beq_self_eq_true _⟩
  rw [lastAt, List.getLast?_eq_some_getLast (List.ne_nil_of_mem hmem)]
  exact ⟨_, rfl⟩

namespace File

variable {n : Nat} {f : File} {ws vs : List Write}

theorem writeAll_byte (hn : 0 < n) (h : ∀ w ∈ ws, Aligned n w) (i : Nat) :
    (f.writeAll ws).byte i =
      ((lastAt (i / n * n) ws).bind fun data => data[i % n]?).getD (f.byte i) := by
  induction ws using List.reverseRecOn with
  | nil => rfl
  | append_singleton ws w ih =>
    have hws := ih fun v hv => h v (List.mem_append_left _ hv)
    obtain ⟨⟨k, hk⟩, hlen⟩ := h w (List.mem_append_right _ (List.mem_singleton_self w))
    have hi := Nat.div_add_mod i n
    have hmod := Nat.mod_lt i hn
    rw [Nat.mul_comm] at hi
    rw [writeAll_append, lastAt_append]
    change (if w.1 ≤ i then w.2.getD (i - w.1) ((f.writeAll ws).byte i)
      else (f.writeAll ws).byte i) = _
    by_cases hw : w.1 = i / n * n
    · rw [if_pos (by omega), if_pos hw, show i - w.1 = i % n by omega, Option.bind_some,
        List.getElem?_eq_getElem (hlen ▸ hmod), List.getD_eq_getElem _ _ (hlen ▸ hmod)]
      rfl
    · rw [if_neg hw]
      split
      · -- The write lies wholly before the page of `i`.
        rename_i hle
        have hpage : k + 1 ≤ i / n := by
          apply Nat.lt_of_le_of_ne
          · rw [Nat.le_div_iff_mul_le hn, Nat.mul_comm]
            omega
          · rintro rfl
            exact hw (hk.trans (Nat.mul_comm ..))
        have hend : (k + 1) * n ≤ i / n * n := Nat.mul_le_mul_right n hpage
        rw [Nat.add_mul, Nat.mul_comm k, ← hk] at hend
        rw [List.getD_eq_default _ _ (by omega)]
        exact hws
      · exact hws

theorem writeAll_size_le_iff (hn : 0 < n) (h : ∀ w ∈ ws, Aligned n w) (m : Nat) :
    (f.writeAll ws).size ≤ m ↔ f.size ≤ m ∧ ∀ w ∈ ws, w.1 + n ≤ m := by
  induction ws using List.reverseRecOn with
  | nil => simp [writeAll]
  | append_singleton ws w ih =>
    have hlen := (h w (List.mem_append_right _ (List.mem_singleton_self w))).2
    have hne : w.2 ≠ [] := by
      rintro he
      rw [he, List.length_nil] at hlen
      omega
    rw [writeAll_append, List.forall_mem_append, List.forall_mem_singleton, ← and_assoc,
      ← ih fun v hv => h v (List.mem_append_left _ hv), ← hlen, ← Nat.max_le]
    change (if w.2.isEmpty then _ else _) ≤ m ↔ _
    rw [if_neg (by rwa [List.isEmpty_iff])]

/-- Which writes came last decides what the file holds. -/
theorem writeAll_congr (hn : 0 < n) (hws : ∀ w ∈ ws, Aligned n w) (hvs : ∀ w ∈ vs, Aligned n w)
    (h : ∀ offset, lastAt offset ws = lastAt offset vs) : f.writeAll ws = f.writeAll vs := by
  have hsize : ∀ {as bs : List Write}, (∀ w ∈ as, Aligned n w) → (∀ w ∈ bs, Aligned n w) →
      (∀ offset, lastAt offset as = lastAt offset bs) →
      (f.writeAll as).size ≤ (f.writeAll bs).size := by
    intro as bs has hbs hsame
    rw [writeAll_size_le_iff hn has]
    obtain ⟨hf, hall⟩ := (writeAll_size_le_iff (f := f) hn hbs _).mp (Nat.le_refl _)
    refine ⟨hf, fun w hw => ?_⟩
    obtain ⟨data, hdata⟩ := lastAt_of_mem hw
    exact hall (w.1, data) (exists_mem_of_lastAt ((hsame w.1).symm.trans hdata))
  ext i
  · exact Nat.le_antisymm (hsize hws hvs h) (hsize hvs hws fun o => (h o).symm)
  · rw [writeAll_byte hn hws, writeAll_byte hn hvs, h]

end File

end Holt.Lib
