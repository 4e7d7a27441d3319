import Mathlib.Algebra.GroupWithZero.Nat
import Mathlib.Tactic.TypeStar

/-! Bytes on the wire: integers little end first, slices of a buffer, and readers that take off
the front of a buffer what a writer put there. -/

namespace Holt.Lib

/-! ## Little-endian integers -/

/-- The low `width` bytes of `n`, little end first. -/
def leBytes : Nat → Nat → List UInt8
  | 0, _ => []
  | width + 1, n => UInt8.ofNat n :: leBytes width (n / 256)

def leNat : List UInt8 → Nat
  | [] => 0
  | b :: bs => b.toNat + 256 * leNat bs

@[simp]
theorem length_leBytes (width n : Nat) : (leBytes width n).length = width := by
  induction width generalizing n with
  | zero => rfl
  | succ width ih => rw [leBytes, List.length_cons, ih]

theorem leNat_leBytes {width n : Nat} (h : n < 256 ^ width) : leNat (leBytes width n) = n := by
  induction width generalizing n with
  | zero =>
    have h0 : n = 0 := by simpa using h
    rw [leBytes, leNat, h0]
  | succ width ih =>
    have hq : n / 256 < 256 ^ width := by
      apply Nat.div_lt_of_lt_mul
      rwa [Nat.pow_succ, Nat.mul_comm] at h
    rw [leBytes, leNat, ih hq, UInt8.toNat_ofNat']
    exact Nat.mod_add_div n 256

theorem leNat_inj {as bs : List UInt8} (hlen : as.length = bs.length) (h : leNat as = leNat bs) :
    as = bs := by
  induction as generalizing bs with
  | nil => exact (List.eq_nil_of_length_eq_zero hlen.symm).symm
  | cons a as ih =>
    cases bs with
    | nil => cases hlen
    | cons b bs =>
      rw [leNat, leNat] at h
      have ha := a.toNat_lt
      have hb := b.toNat_lt
      have htail := ih (Nat.succ.inj hlen) (by omega)
      have hhead : a = b := UInt8.toNat_inj.mp (by omega)
      rw [htail, hhead]

theorem leNat_lt (bs : List UInt8) : leNat bs < 256 ^ bs.length := by
  induction bs with
  | nil => exact Nat.one_pos
  | cons b bs ih =>
    have hb := b.toNat_lt
    rw [leNat, List.length_cons, Nat.pow_succ]
    omega

/-! ## Slices -/

/-- `buf[start..stop]`. -/
def slice {α : Type*} (buf : List α) (start stop : Nat) : List α :=
  (buf.drop start).take (stop - start)

variable {i start stop : Nat}

/-- A slice of a buffer written field by field is the field that stands there. -/
theorem slice_field {α : Type*} (before field after : List α) (hb : before.length = start)
    (hf : before.length + field.length = stop) :
    slice (before ++ (field ++ after)) start stop = field := by
  subst hb
  rw [slice, List.drop_left]
  apply List.take_left'
  omega

theorem slice_take {α : Type*} (buf : List α) {n : Nat} (h : stop ≤ n) :
    slice (buf.take n) start stop = slice buf start stop := by
  rw [slice, slice, List.drop_take, List.take_take, Nat.min_eq_left (by omega)]

theorem slice_set_of_lt {α : Type*} (buf : List α) {a : α} (h : i < start) :
    slice (buf.set i a) start stop = slice buf start stop := by
  rw [slice, slice, List.drop_set, if_pos h]

theorem slice_set_of_ge {α : Type*} (buf : List α) {a : α} (h : stop ≤ i) :
    slice (buf.set i a) start stop = slice buf start stop := by
  rw [slice, slice, List.drop_set]
  split
  · rfl
  · rw [List.take_set_of_le (by omega)]

/-- A slice shows the change of an element in it. -/
theorem slice_set_ne {α : Type*} {buf : List α} {a : α} (hi : start ≤ i) (hstop : i < stop)
    (hlen : i < buf.length) (ha : buf[i]? ≠ some a) :
    slice (buf.set i a) start stop ≠ slice buf start stop := by
  intro h
  have hget := congrArg (fun l => l[i - start]?) h
  simp only [slice, List.getElem?_take, List.getElem?_drop] at hget
  rw [if_pos (by omega), if_pos (by omega), show start + (i - start) = i by omega,
    List.getElem?_set_self hlen] at hget
  exact ha hget.symm

theorem length_slice {α : Type*} (buf : List α) (start stop : Nat) :
    (slice buf start stop).length = min (stop - start) (buf.length - start) := by
  rw [slice, List.length_take, List.length_drop]

/-- `buf[start..start + bytes.len()].copy_from_slice(bytes)`. -/
def patch {α : Type*} (buf : List α) (start : Nat) (bytes : List α) : List α :=
  buf.take start ++ (bytes ++ buf.drop (start + bytes.length))

/-- Only the field that stands there is written over. -/
theorem patch_field {α : Type*} (before field after bytes : List α) (hb : before.length = start)
    (hf : bytes.length = field.length) :
    patch (before ++ (field ++ after)) start bytes = before ++ (bytes ++ after) := by
  subst hb
  have hafter : (before ++ (field ++ after)).drop (before.length + bytes.length) = after := by
    rw [hf, ← List.append_assoc, ← List.length_append, List.drop_left]
  rw [patch, List.take_left, hafter]

/-! ## Readers -/

section Readers

variable {ε α β : Type}

/-- From every buffer that starts with `bytes`, `x` returns `a` and leaves the rest. -/
def Reads (x : EStateM ε (List UInt8) α) (bytes : List UInt8) (a : α) : Prop :=
  ∀ rest, x (bytes ++ rest) = .ok a rest

theorem Reads.all {x : EStateM ε (List UInt8) α} {bytes : List UInt8} {a : α}
    (h : Reads x bytes a) : x bytes = .ok a [] := by
  have hx := h []
  rwa [List.append_nil] at hx

theorem reads_pure (a : α) : Reads (pure a : EStateM ε (List UInt8) α) [] a :=
  fun _ => rfl

theorem Reads.bind {x : EStateM ε (List UInt8) α} {f : α → EStateM ε (List UInt8) β}
    {xs ys : List UInt8} {a : α} {b : β} (hx : Reads x xs a) (hf : Reads (f a) ys b) :
    Reads (x >>= f) (xs ++ ys) b := by
  intro rest
  change EStateM.bind x f _ = _
  rw [EStateM.bind, List.append_assoc, hx]
  exact hf rest

/-- The last step of a reader takes no more bytes. -/
theorem Reads.map {x : EStateM ε (List UInt8) α} {xs : List UInt8} {a : α} (f : α → β)
    (hx : Reads x xs a) : Reads (x >>= fun a => pure (f a)) xs (f a) := by
  have h : Reads (x >>= fun a => pure (f a)) (xs ++ []) (f a) := hx.bind (reads_pure (f a))
  rwa [List.append_nil] at h

end Readers

end Holt.Lib
