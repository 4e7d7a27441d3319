import Holt.Layout
import Holt.Lib.Pages
import Mathlib.Data.List.Sort

/-! Many pages written at once: sorted and gathered into one `pwritev` for each contiguous run, or
sorted, thinned out and handed to the ring. -/

namespace Holt.FileStore.DataFile

open Holt.Lib

def pwritevIovMax : Nat := 1024

structure AlignedBlobBuf where
  bytes : List UInt8
  sized : bytes.length = pageSize

structure OrderedWrite where
  offset : Nat
  src : AlignedBlobBuf
  order : Nat

namespace OrderedWrite

def write (w : OrderedWrite) : Write := (w.offset, w.src.bytes)

/-- The comparison of `sort_by`. -/
def Before (a b : OrderedWrite) : Prop :=
  a.offset < b.offset ∨ a.offset = b.offset ∧ a.order ≤ b.order

instance : DecidableRel Before := fun _ _ => inferInstanceAs (Decidable (_ ∨ _))

instance : Std.Total Before :=
  ⟨fun _ _ => by unfold Before; omega⟩

instance : IsTrans OrderedWrite Before :=
  ⟨fun _ _ _ => by unfold Before; omega⟩

end OrderedWrite

open OrderedWrite

/-- The writes in the order they were given. -/
def enumerated (writes : List (Nat × AlignedBlobBuf)) : List OrderedWrite :=
  writes.zipIdx.map fun w => ⟨w.1.1, w.1.2, w.2⟩

def sortWrites (writes : List (Nat × AlignedBlobBuf)) : List OrderedWrite :=
  (enumerated writes).insertionSort Before

/-! ## `pwritev` -/

/-- The rest of a run that goes on at `next`, and what comes after it. -/
def runFrom (next : Nat) : List OrderedWrite → List OrderedWrite × List OrderedWrite
  | [] => ([], [])
  | w :: ws =>
    if w.offset = next then
      let (run, rest) := runFrom (next + w.src.bytes.length) ws
      (w :: run, rest)
    else ([], w :: ws)

def pwritevContiguous (f : File) : List OrderedWrite → File
  | [] => f
  | w :: ws =>
    pwritevContiguous
      (f.pwrite w.offset (((w :: ws).take pwritevIovMax).flatMap fun w => w.src.bytes))
      ((w :: ws).drop pwritevIovMax)
termination_by ws => ws.length
decreasing_by
  simp only [pwritevIovMax, List.length_drop, List.length_cons]
  omega

theorem runFrom_append (next : Nat) (ws : List OrderedWrite) :
    (runFrom next ws).1 ++ (runFrom next ws).2 = ws := by
  induction ws generalizing next with
  | nil => rfl
  | cons w ws ih =>
    unfold runFrom
    split
    · exact congrArg (w :: ·) (ih _)
    · rfl

theorem length_runFrom_le (next : Nat) (ws : List OrderedWrite) :
    (runFrom next ws).2.length ≤ ws.length := by
  have h := congrArg List.length (runFrom_append next ws)
  rw [List.length_append] at h
  omega

/-- The loop of `pwrite_many_at` over the sorted writes. -/
def writeRuns (f : File) : List OrderedWrite → File
  | [] => f
  | w :: ws =>
    let split := runFrom (w.offset + w.src.bytes.length) ws
    writeRuns (pwritevContiguous f (w :: split.1)) split.2
termination_by ws => ws.length
decreasing_by exact Nat.lt_succ_of_le (length_runFrom_le _ ws)

def pwriteManyAt (f : File) (writes : List (Nat × AlignedBlobBuf)) : File :=
  writeRuns f (sortWrites writes)

/-! ## The ring -/

/-- Of the writes to one offset, the last. -/
def keepLast : List OrderedWrite → List OrderedWrite
  | [] => []
  | [w] => [w]
  | w :: v :: ws => if v.offset = w.offset then keepLast (v :: ws) else w :: keepLast (v :: ws)

def orderedWrites (writes : List (Nat × AlignedBlobBuf)) : List OrderedWrite :=
  keepLast (sortWrites writes)

/-- What the file may hold once every entry has completed: the kernel is free to take them in any
order. -/
def RingWrote (f : File) (writes : List (Nat × AlignedBlobBuf)) (f' : File) : Prop :=
  ∃ done : List OrderedWrite, done.Perm (orderedWrites writes) ∧ f' = f.writeAll (done.map write)

/-! ## A run is written as a whole -/

/-- Each write starts where the one before it ends, the first at `next`. -/
def IsRun : Nat → List OrderedWrite → Prop
  | _, [] => True
  | next, w :: ws => w.offset = next ∧ IsRun (next + w.src.bytes.length) ws

theorem isRun_runFrom (next : Nat) (ws : List OrderedWrite) : IsRun next (runFrom next ws).1 := by
  induction ws generalizing next with
  | nil => trivial
  | cons w ws ih =>
    unfold runFrom
    split
    · exact ⟨‹_›, ih _⟩
    · trivial

variable {next : Nat} {ws : List OrderedWrite}

theorem isRun_append {as bs : List OrderedWrite} :
    IsRun next (as ++ bs) ↔
      IsRun next as ∧ IsRun (next + (as.flatMap fun w => w.src.bytes).length) bs := by
  induction as generalizing next with
  | nil => simp [IsRun]
  | cons a as ih =>
    rw [List.cons_append, IsRun, IsRun, ih, List.flatMap_cons, List.length_append, and_assoc,
      Nat.add_assoc]

theorem pwrite_run (h : IsRun next ws) (f : File) :
    f.pwrite next (ws.flatMap fun w => w.src.bytes) = f.writeAll (ws.map write) := by
  induction ws generalizing next f with
  | nil => exact f.pwrite_nil next
  | cons w ws ih =>
    obtain ⟨rfl, hws⟩ := h
    rw [List.flatMap_cons, File.pwrite_append, ih hws]
    rfl

theorem pwritevContiguous_eq (h : IsRun next ws) (f : File) :
    pwritevContiguous f ws = f.writeAll (ws.map write) := by
  induction f, ws using pwritevContiguous.induct generalizing next with
  | case1 f => rw [pwritevContiguous]; rfl
  | case2 f w ws ih =>
    have hsplit := List.take_append_drop pwritevIovMax (w :: ws)
    obtain ⟨rfl, -⟩ := id h
    rw [← hsplit, isRun_append] at h
    rw [pwritevContiguous, ih h.2, pwrite_run h.1, ← File.writeAll_append, ← List.map_append,
      hsplit]

theorem writeRuns_eq (f : File) (ws : List OrderedWrite) :
    writeRuns f ws = f.writeAll (ws.map write) := by
  induction f, ws using writeRuns.induct with
  | case1 f => rw [writeRuns]; rfl
  | case2 f w ws split ih =>
    have hrun : IsRun w.offset (w :: split.1) := ⟨rfl, isRun_runFrom _ ws⟩
    rw [writeRuns, ih, pwritevContiguous_eq hrun, ← File.writeAll_append, ← List.map_append,
      List.cons_append, runFrom_append]

/-! ## The last write to a page -/

theorem sortWrites_perm (writes : List (Nat × AlignedBlobBuf)) :
    (sortWrites writes).Perm (enumerated writes) :=
  List.perm_insertionSort _ _

/-- The writes to one offset keep the order they were given in. -/
theorem sortWrites_filter (writes : List (Nat × AlignedBlobBuf)) (offset : Nat) :
    (sortWrites writes).filter (fun w => w.offset == offset) =
      (enumerated writes).filter fun w => w.offset == offset := by
  have hperm := sortWrites_perm writes
  have hget : ∀ w ∈ enumerated writes, writes[w.order]? = some (w.offset, w.src) := by
    intro w hw
    obtain ⟨v, hv, rfl⟩ := List.mem_map.mp hw
    exact List.mem_zipIdx_iff_getElem?.mp hv
  have hanti : ∀ a b, a ∈ (sortWrites writes).filter (fun w => w.offset == offset) →
      b ∈ (enumerated writes).filter (fun w => w.offset == offset) →
      a.order ≤ b.order → b.order ≤ a.order → a = b := by
    intro a b ha hb hab hba
    have ha := hget a (hperm.mem_iff.mp (List.mem_of_mem_filter ha))
    have hb := hget b (List.mem_of_mem_filter hb)
    have horder := Nat.le_antisymm hab hba
    rw [horder, hb] at ha
    cases a
    cases b
    cases ha
    cases horder
    rfl
  refine List.Perm.eq_of_pairwise hanti ?_ ?_ (hperm.filter _)
  · rw [List.pairwise_filter]
    apply (List.pairwise_insertionSort Before (enumerated writes)).imp
    intro a b hab ha hb
    rw [beq_iff_eq] at ha hb
    unfold Before at hab
    omega
  · apply List.Pairwise.filter
    have horders : ((enumerated writes).map OrderedWrite.order).Pairwise (· ≤ ·) := by
      rw [enumerated, List.map_map]
      change (writes.zipIdx.map Prod.snd).Pairwise (· ≤ ·)
      rw [List.zipIdx_map_snd]
      exact List.pairwise_le_range'
    exact List.pairwise_map.mp horders

theorem lastAt_map_write (offset : Nat) (ws : List OrderedWrite) :
    lastAt offset (ws.map write) =
      ((ws.filter fun w => w.offset == offset).getLast?).map fun w => w.src.bytes := by
  rw [lastAt, List.filter_map, List.getLast?_map, Option.map_map]
  rfl

theorem keepLast_filter (h : ws.Pairwise fun a b => a.offset ≤ b.offset) (offset : Nat) :
    (keepLast ws).filter (fun w => w.offset == offset) =
      (ws.filter fun w => w.offset == offset).getLast?.toList := by
  induction ws using keepLast.induct with
  | case1 => rfl
  | case2 w =>
    rw [keepLast, List.filter_singleton]
    cases w.offset == offset <;> rfl
  | case3 w v ws hsame ih =>
    rw [keepLast, if_pos hsame, ih h.of_cons]
    by_cases hw : w.offset = offset
    · simp [hsame, hw]
    · simp [hsame, hw]
  | case4 w v ws hnext ih =>
    rw [keepLast, if_neg hnext, List.filter_cons, List.filter_cons, ih h.of_cons]
    by_cases hw : w.offset = offset
    · have hrest : (v :: ws).filter (fun w => w.offset == offset) = [] := by
        rw [List.filter_eq_nil_iff]
        intro u hu
        have hv := List.rel_of_pairwise_cons h List.mem_cons_self
        have hvu : v.offset ≤ u.offset := by
          rcases List.mem_cons.mp hu with rfl | hu
          · exact Nat.le_refl _
          · exact List.rel_of_pairwise_cons h.of_cons hu
        rw [beq_iff_eq]
        omega
      simp [hw, hrest]
    · simp [hw]

theorem sortWrites_sorted (writes : List (Nat × AlignedBlobBuf)) :
    (sortWrites writes).Pairwise fun a b => a.offset ≤ b.offset := by
  apply (List.pairwise_insertionSort Before (enumerated writes)).imp
  intro a b hab
  unfold Before at hab
  omega

theorem mem_of_mem_keepLast {w : OrderedWrite} (h : ws.Pairwise fun a b => a.offset ≤ b.offset)
    (hw : w ∈ keepLast ws) : w ∈ ws := by
  have hmem : w ∈ (keepLast ws).filter fun v => v.offset == w.offset :=
    List.mem_filter.mpr ⟨hw, beq_self_eq_true _⟩
  rw [keepLast_filter h, Option.mem_toList] at hmem
  exact List.mem_of_mem_filter (List.mem_of_getLast? hmem)

/-- Some of the given writes, in any order that has the last write to each page last. -/
theorem writeAll_of_last (f : File) {writes : List (Nat × AlignedBlobBuf)}
    (haligned : ∀ w ∈ writes, pageSize ∣ w.1) (hmem : ∀ w ∈ ws, w ∈ enumerated writes)
    (hlast : ∀ offset, (ws.filter fun w => w.offset == offset).getLast? =
      ((enumerated writes).filter fun w => w.offset == offset).getLast?) :
    f.writeAll (ws.map write) = f.writeAll (writes.map fun w => (w.1, w.2.bytes)) := by
  have hgiven : (enumerated writes).map write = writes.map fun w => (w.1, w.2.bytes) := by
    rw [enumerated, List.map_map]
    change writes.zipIdx.map ((fun w => (w.1, w.2.bytes)) ∘ Prod.fst) = _
    rw [← List.map_map, List.zipIdx_map_fst]
  have hall : ∀ w ∈ writes.map (fun w => (w.1, w.2.bytes)), Aligned pageSize w := by
    intro w hw
    obtain ⟨v, hv, rfl⟩ := List.mem_map.mp hw
    exact ⟨haligned v hv, v.2.sized⟩
  rw [← hgiven] at hall ⊢
  apply File.writeAll_congr (by decide) _ hall
  · intro offset
    rw [lastAt_map_write, lastAt_map_write, hlast]
  · intro w hw
    obtain ⟨v, hv, rfl⟩ := List.mem_map.mp hw
    exact hall _ (List.mem_map_of_mem (hmem v hv))

/-- Both ways of writing many pages leave the file as writing them one by one does. -/
theorem batched_writes_eq (f : File) {writes : List (Nat × AlignedBlobBuf)}
    (haligned : ∀ w ∈ writes, pageSize ∣ w.1) :
    let singly := f.writeAll (writes.map fun w => (w.1, w.2.bytes))
    pwriteManyAt f writes = singly ∧ ∀ f', RingWrote f writes f' ↔ f' = singly := by
  have hring : ∀ done : List OrderedWrite, done.Perm (orderedWrites writes) →
      f.writeAll (done.map write) = f.writeAll (writes.map fun w => (w.1, w.2.bytes)) := by
    intro done hdone
    apply writeAll_of_last f haligned
    · intro w hw
      have hkept := mem_of_mem_keepLast (sortWrites_sorted writes) (hdone.mem_iff.mp hw)
      exact (sortWrites_perm writes).mem_iff.mp hkept
    · intro offset
      have hfilter := hdone.filter fun w => w.offset == offset
      rw [orderedWrites, keepLast_filter (sortWrites_sorted writes), sortWrites_filter] at hfilter
      -- At most one write is left for an offset, so its place among the others does not matter.
      cases hlast : ((enumerated writes).filter fun w => w.offset == offset).getLast? with
      | none =>
        rw [hlast] at hfilter
        rw [hfilter.eq_nil]
        rfl
      | some w =>
        rw [hlast] at hfilter
        rw [List.perm_singleton.mp hfilter]
        rfl
  refine ⟨?_, fun f' => ⟨?_, ?_⟩⟩
  · rw [pwriteManyAt, writeRuns_eq]
    apply writeAll_of_last f haligned
    · exact fun w hw => (sortWrites_perm writes).mem_iff.mp hw
    · exact fun offset => by rw [sortWrites_filter]
  · rintro ⟨done, hdone, rfl⟩
    exact hring done hdone
  · rintro rfl
    exact ⟨_, .refl _, (hring _ (.refl _)).symm⟩

def AlignedBlobBuf.ofByte (b : UInt8) : AlignedBlobBuf :=
  ⟨List.replicate pageSize b, List.length_replicate⟩

/-- Page 1 twice and page 0 after it, to an empty file. -/
theorem batched_writes_eq_repeated :
    let writes := [(pageSize, .ofByte 1), (pageSize, .ofByte 2), (0, AlignedBlobBuf.ofByte 3)]
    pwriteManyAt ⟨0, fun _ => 0⟩ writes =
      File.writeAll ⟨0, fun _ => 0⟩ (writes.map fun w => (w.1, w.2.bytes)) :=
  (batched_writes_eq ⟨0, fun _ => 0⟩ (by decide)).1

end Holt.FileStore.DataFile
