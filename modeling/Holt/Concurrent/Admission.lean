import Holt.Lib.Locks
import Holt.Lib.Machine
import Mathlib.Data.List.Chain
import Mathlib.Data.List.Dedup
import Mathlib.Data.List.Sort
import Mathlib.Data.Prod.Lex

/-! How operations are admitted: the maintenance gate, the mutation gate of each tree, the shards
for a key, the commit gate, and under them the latches of the blobs a walk goes through. -/

namespace Holt.Admission

open Holt.Lib

inductive Gate
  | maintenance
  | mutation (tree : Nat)
  | commit
  deriving DecidableEq

/-- An exclusive entrant closes the gate first and then waits for those inside to leave. -/
inductive Entry
  | shared
  | exclusive
  | drain
  deriving DecidableEq

/-- The last is none: it marks where blobs are latched. -/
inductive Lock
  | gate (gate : Gate) (entry : Entry)
  | shard (tree i : Nat)
  | walk
  deriving DecidableEq

/-- What a wanted entry of a gate waits for. -/
def Entry.waitsFor : Entry → Entry → Bool
  | .shared, .exclusive | .exclusive, .exclusive | .drain, .shared => true
  | _, _ => false

section Scripts

abbrev Script := List (LockAct Lock)

def enterShared (gate : Gate) (body : Script) : Script := under (.gate gate .shared) body

def enterExclusive (gate : Gate) (body : Script) : Script :=
  under (.gate gate .exclusive) (under (.gate gate .drain) [] ++ body)

def lockKey (tree i : Nat) (body : Script) : Script := under (.shard tree i) body

def lockPair (tree src dst : Nat) (body : Script) : Script :=
  if src = dst then lockKey tree src body
  else if src < dst then lockKey tree src (lockKey tree dst body)
  else lockKey tree dst (lockKey tree src body)

def walk : Script := under .walk []

/-- Sorted by id, each gate once. -/
def enterTrees (trees : List Nat) (body : Script) : Script :=
  (trees.insertionSort (· ≤ ·)).dedup.foldr
    (fun tree body => enterExclusive (.mutation tree) body) body

/-- An operation with what decides its way through the gates. -/
inductive Op
  | put (tree shard : Nat)
  | delete (tree shard : Nat)
  | rename (tree src dst : Nat)
  | atomic (tree : Nat)
  | dbAtomic (trees : List Nat)
  | dbView (trees : List Nat)
  | rangeNext (tree : Option Nat)
  | compact (tree : Nat) (seeds : Bool) (compacted : Nat) (reseeds : Bool) (merged : Nat)
  | createTree
  | dropTree
  /-- The calls of `next` on the catalog, the trees staged, the rounds of each checkpoint, and
  whether one follows the last of the dropped trees. -/
  | dbCheckpoint (listed staged rounds : Nat) (finalized : Option (Nat × Nat))
  | round (merged : Nat) (truncates : Bool)

variable (journaled : Bool)

def enterWriter (body : Script) : Script :=
  if journaled then enterShared .commit body else body

def enterCheckpoint : Script :=
  if journaled then enterExclusive .commit [] else []

def iterNext (tree : Option Nat) : Script :=
  enterShared .maintenance (tree.elim walk fun tree => enterShared (.mutation tree) walk)

def seedMaintenanceCandidates (tree : Nat) : Script :=
  enterShared .maintenance (enterShared (.mutation tree) walk)

def applyBatch (tree : Nat) : Script :=
  enterShared .maintenance (enterExclusive (.mutation tree) (walk ++ enterWriter journaled walk))

/-- It looks at the blob before it enters the commit gate, as a batch does. -/
def compactCandidateBlob (tree : Nat) : Script := applyBatch journaled tree

def mergeCandidateParent (tree : Nat) : Script :=
  enterExclusive .maintenance (enterExclusive (.mutation tree) (enterWriter journaled walk))

def applySystemBatch : Script :=
  enterExclusive .maintenance (walk ++ enterWriter journaled walk ++ walk)

/-- Captured again as long as a blob has changed before it is cloned. -/
def checkpointSharedParts (rounds : Nat) : Script :=
  enterShared .maintenance
    ((List.replicate rounds (enterCheckpoint journaled ++ walk)).flatten ++
      enterCheckpoint journaled)

def repeated (n : Nat) (script : Script) : Script := (List.replicate n script).flatten

def Op.script : Op → Script
  | .put tree shard | .delete tree shard =>
    enterShared .maintenance
      (enterShared (.mutation tree) (lockKey tree shard (enterWriter journaled walk)))
  | .rename tree src dst =>
    enterShared .maintenance
      (enterShared (.mutation tree) (lockPair tree src dst (walk ++ enterWriter journaled walk)))
  | .atomic tree => applyBatch journaled tree
  | .dbAtomic trees =>
    enterShared .maintenance (walk ++ enterTrees trees (walk ++ enterWriter journaled walk))
  | .dbView trees => enterShared .maintenance (walk ++ enterTrees trees walk)
  | .rangeNext tree => iterNext tree
  | .compact tree seeds compacted reseeds merged =>
    repeated seeds.toNat (seedMaintenanceCandidates tree) ++
      repeated compacted (compactCandidateBlob journaled tree) ++
      repeated reseeds.toNat (seedMaintenanceCandidates tree) ++
      repeated merged (mergeCandidateParent journaled tree)
  | .createTree | .dropTree => applySystemBatch journaled
  | .dbCheckpoint listed staged rounds finalized =>
    repeated listed (iterNext (some 0)) ++ repeated staged (enterExclusive .maintenance walk) ++
      checkpointSharedParts journaled rounds ++
      finalized.elim [] fun (listed, rounds) =>
        repeated listed (iterNext (some 0)) ++ applySystemBatch journaled ++
          checkpointSharedParts journaled rounds
  | .round merged truncates =>
    repeated merged (enterExclusive .maintenance (enterWriter journaled walk)) ++
      enterCheckpoint journaled ++ walk ++ repeated truncates.toNat (enterCheckpoint journaled)

end Scripts

/-! ## Threads -/

section Threads

variable (G : Type)

/-- `latches` are the blobs latched, each with whether it may be written; `asks` is the latch the
thread waits for. -/
structure Thread where
  party : Party Lock
  latches : List (G × Bool)
  asks : Option (G × Bool)
  deriving DecidableEq

/-- `edges` are the crossings of the blobs, parents first. -/
structure World where
  threads : List (Thread G)
  edges : List (G × G)
  deriving DecidableEq

inductive Move
  | start (op : Op)
  | act
  /-- An early return. -/
  | unwind
  /-- The blob is reached over others from the one latched. -/
  | ask (via : List G) (blob : G) (write : Bool)
  | latch
  | unlatch (blob : G × Bool)
  | spillover (blob fresh : G) (moved : List G)
  | merge (blob child : G)

end Threads

variable {G : Type} [DecidableEq G]

def Thread.held (t : Thread G) : List (Lock ⊕ G × Bool) :=
  t.latches.map .inr ++ t.party.held.map .inl

def Thread.wants (t : Thread G) : Option (Lock ⊕ G × Bool) :=
  match t.asks with
  | some latch => some (.inr latch)
  | none => if t.latches = [] then t.party.wants.map .inl else none

def clash : Lock ⊕ G × Bool → Lock ⊕ G × Bool → Bool
  | .inl (.gate g entry), .inl (.gate g' entry') => g == g' && entry.waitsFor entry'
  | .inl (.shard tree i), .inl (.shard tree' i') => tree == tree' && i == i'
  | .inr (blob, write), .inr (blob', write') => blob == blob' && (write || write')
  | _, _ => false

def World.free (w : World G) (k : Lock ⊕ G × Bool) : Bool :=
  w.threads.all fun t => t.held.all fun k' => !clash k k'

/-- Nobody has heard of the blob. -/
def World.fresh (w : World G) (blob : G) : Bool :=
  w.edges.all (fun e => e.1 != blob && e.2 != blob) &&
    w.threads.all fun t => (t.latches ++ t.asks.toList).all fun l => l.1 != blob

/-- Some children go below a new one. -/
def spilled (blob fresh : G) (moved : List G) (edges : List (G × G)) : List (G × G) :=
  (blob, fresh) ::
    edges.map fun e => if e.1 = blob ∧ e.2 ∈ moved then (fresh, e.2) else e

/-- The child's children become the blob's own. -/
def merged (blob child : G) (edges : List (G × G)) : List (G × G) :=
  (edges.filter (·.2 != child)).map fun e => if e.1 = child then (blob, e.2) else e

def World.move (journaled : Bool) (w : World G) (t : Thread G) :
    Move G → Option (Thread G × List (G × G))
  | .start op =>
    if t.party.todo = [] ∧ t.latches = [] ∧ t.asks = none then
      some (⟨⟨t.party.held, op.script journaled⟩, [], none⟩, w.edges)
    else none
  | .act =>
    if t.latches = [] ∧ t.asks = none then
      (t.party.act fun k => w.free (.inl k)).map fun party => (⟨party, [], none⟩, w.edges)
    else none
  | .unwind =>
    if t.asks = none then
      some (⟨⟨t.party.held, t.party.held.map .release⟩, [], none⟩, w.edges)
    else none
  | .ask via blob write =>
    if t.asks = none ∧ .walk ∈ t.party.held ∧ t.latches.length ≤ 1 ∧
        ∀ l ∈ t.latches, (l.1 :: (via ++ [blob])).IsChain fun x y => (x, y) ∈ w.edges then
      some (⟨t.party, t.latches, some (blob, write)⟩, w.edges)
    else none
  | .latch =>
    t.asks.bind fun l =>
      if w.free (.inr l) then some (⟨t.party, l :: t.latches, none⟩, w.edges) else none
  | .unlatch l =>
    if t.asks = none then some (⟨t.party, t.latches.erase l, none⟩, w.edges) else none
  | .spillover blob fresh moved =>
    if t.asks = none ∧ (blob, true) ∈ t.latches ∧ w.fresh fresh then
      some (t, spilled blob fresh moved w.edges)
    else none
  | .merge blob child =>
    if t.asks = none ∧ (blob, true) ∈ t.latches ∧ (blob, child) ∈ w.edges then
      some (t, merged blob child w.edges)
    else none

def step (journaled : Bool) (w : World G) (a : Nat × Move G) : Option (World G) := do
  let t ← w.threads[a.1]?
  let (t', edges) ← w.move journaled t a.2
  some ⟨w.threads.set a.1 t', edges⟩

def idle (n : Nat) : World G := ⟨List.replicate n ⟨⟨[], []⟩, [], none⟩, []⟩

/-- Threads that wait for each other. -/
def Stuck (w : World G) : Prop :=
  Deadlock (fun k k' => clash k k' = true)
    (fun i : Nat => (w.threads[i]?).elim [] Thread.held) fun i => (w.threads[i]?).bind Thread.wants

/-! ## The order -/

@[simp] def Gate.level : Gate → Nat
  | .maintenance => 1
  | .mutation _ => 2
  | .commit => 4

def Gate.index : Gate → Nat
  | .mutation tree => tree
  | _ => 0

@[simp] def Lock.level : Lock → Nat
  | .gate g _ => g.level
  | .shard _ _ => 3
  | .walk => 5

/-- Where a lock is asked for; who drains a gate asks again. -/
def Lock.ask : Lock → ℕ ×ₗ ℕ
  | .gate g .drain => toLex (g.level, 2 * g.index + 1)
  | .gate g _ => toLex (g.level, 2 * g.index)
  | .shard _ i => toLex (3, i)
  | .walk => toLex (5, 0)

def Lock.keep : Lock → ℕ ×ₗ ℕ
  | .gate g .exclusive => toLex (g.level, 2 * g.index)
  | .gate g _ => toLex (g.level, 2 * g.index + 1)
  | .shard _ i => toLex (3, i)
  | .walk => toLex (5, 0)

/-- Latches come last, parents before children. -/
def height (rank : G → Nat) (own : Lock → ℕ ×ₗ ℕ) : Lock ⊕ G × Bool → ℕ ×ₗ ℕ
  | .inl k => own k
  | .inr (blob, _) => toLex (6, rank blob)

theorem clash_height (rank : G → Nat) {k k' : Lock ⊕ G × Bool} (h : clash k k' = true) :
    height rank Lock.ask k ≤ height rank Lock.keep k' := by
  unfold clash at h
  split at h
  · rename_i g entry g' entry'
    simp only [Bool.and_eq_true, beq_iff_eq] at h
    obtain ⟨rfl, hwaits⟩ := h
    cases entry <;> cases entry' <;> first | exact le_rfl | cases hwaits
  · simp only [Bool.and_eq_true, beq_iff_eq] at h
    obtain ⟨rfl, rfl⟩ := h
    exact le_rfl
  · simp only [Bool.and_eq_true, beq_iff_eq] at h
    obtain ⟨rfl, -⟩ := h
    exact le_rfl
  · cases h

theorem Lock.ask_level (k : Lock) : (ofLex k.ask).1 = k.level := by
  cases k with
  | gate g entry => cases entry <;> rfl
  | shard _ _ => rfl
  | walk => rfl

theorem Lock.keep_level (k : Lock) : (ofLex k.keep).1 = k.level := by
  cases k with
  | gate g entry => cases entry <;> rfl
  | shard _ _ => rfl
  | walk => rfl

theorem keep_lt_ask {k k' : Lock} (h : k.level < k'.level) : k.keep < k'.ask := by
  rw [Prod.Lex.lt_iff, k.keep_level, k'.ask_level]
  exact .inl h

theorem keep_lt_latch (k : Lock) (n : Nat) : k.keep < toLex (6, n) := by
  have hlevel : k.level < 6 := by
    cases k with
    | gate g entry => cases g <;> simp
    | shard _ _ => simp
    | walk => simp
  rw [Prod.Lex.lt_iff, k.keep_level]
  exact .inl hlevel

/-! ## Every script climbs -/

/-- The script climbs while nothing above the level is held. -/
def Rises (level : Nat) (script : Script) : Prop :=
  Above Lock.ask Lock.keep (fun k => k.level ≤ level) script

section Rises

variable {level : Nat} {body : Script} {journaled : Bool}

theorem rises_under {k : Lock} (hk : level < k.level) (hbody : Rises k.level body) :
    Rises level (under k body) := by
  refine .under (fun k' hk' => keep_lt_ask (hk'.trans_lt hk)) (hbody.mono fun k' hk' => ?_)
  rcases hk' with rfl | hk'
  · exact le_rfl
  · exact hk'.trans hk.le

/-- Only others of its kind may be held below the gate. -/
theorem above_enterExclusive {P : Lock → Prop} {gate : Gate}
    (hP : ∀ k, P k → k.keep < (Lock.gate gate .exclusive).ask)
    (hbody : Above Lock.ask Lock.keep (fun k => k = .gate gate .exclusive ∨ P k) body) :
    Above Lock.ask Lock.keep P (enterExclusive gate body) := by
  have hdrain : (Lock.gate gate .exclusive).keep < (Lock.gate gate .drain).ask := by
    rw [Prod.Lex.lt_iff]
    exact .inr ⟨rfl, Nat.lt_succ_self _⟩
  refine .under hP (.append (.under (fun k hk => ?_) above_nil) hbody)
  rcases hk with rfl | hk
  · exact hdrain
  · exact (hP k hk).trans hdrain

theorem rises_enterExclusive {gate : Gate} (hgate : level < gate.level)
    (hbody : Rises gate.level body) : Rises level (enterExclusive gate body) := by
  refine above_enterExclusive (fun k hk => keep_lt_ask (hk.trans_lt hgate)) ?_
  refine hbody.mono fun k hk => ?_
  rcases hk with rfl | hk
  · exact le_rfl
  · exact hk.trans hgate.le

theorem rises_walk (hlevel : level < 5) : Rises level walk := rises_under hlevel above_nil

theorem rises_enterWriter (hlevel : level < 4) : Rises level (enterWriter journaled walk) := by
  unfold enterWriter
  split
  · exact rises_under hlevel (rises_walk (by decide))
  · exact rises_walk (by omega)

theorem rises_enterCheckpoint (hlevel : level < 4) : Rises level (enterCheckpoint journaled) := by
  unfold enterCheckpoint
  split
  · exact rises_enterExclusive hlevel above_nil
  · exact above_nil

/-- A walk, and then the writes. -/
theorem rises_walkWrite (hlevel : level < 4) :
    Rises level (walk ++ enterWriter journaled walk) :=
  (rises_walk (by omega)).append (rises_enterWriter hlevel)

theorem above_lockKeys {tree i j : Nat} (hij : i < j) (hbody : Rises 3 body) :
    Rises 2 (lockKey tree i (lockKey tree j body)) := by
  refine .under (fun k hk => keep_lt_ask (Nat.lt_succ_of_le hk)) (.under (fun k hk => ?_) ?_)
  · rcases hk with rfl | hk
    · rw [Prod.Lex.lt_iff]
      exact .inr ⟨rfl, hij⟩
    · exact keep_lt_ask (Nat.lt_succ_of_le hk)
  · refine hbody.mono fun k hk => ?_
    rcases hk with rfl | rfl | hk
    · exact le_rfl
    · exact le_rfl
    · exact Nat.le_succ_of_le hk

theorem rises_lockPair {tree src dst : Nat} (hbody : Rises 3 body) :
    Rises 2 (lockPair tree src dst body) := by
  unfold lockPair
  split
  · exact rises_under (by simp) hbody
  · split
    · exact above_lockKeys ‹_› hbody
    · exact above_lockKeys (by omega) hbody

/-- The gates of other trees are held only for trees before all of these. -/
theorem above_trees {trees : List Nat} (htrees : trees.Pairwise (· < ·)) (hbody : Rises 2 body) :
    Above Lock.ask Lock.keep
      (fun k => k.level ≤ 1 ∨ ∃ t, k = .gate (.mutation t) .exclusive ∧ ∀ tree ∈ trees, t < tree)
      (trees.foldr (fun tree body => enterExclusive (.mutation tree) body) body) := by
  induction trees with
  | nil =>
    refine hbody.mono fun k hk => ?_
    rcases hk with hk | ⟨t, rfl, -⟩
    · exact Nat.le_succ_of_le hk
    · exact le_rfl
  | cons tree trees ih =>
    obtain ⟨hfirst, hrest⟩ := List.pairwise_cons.mp htrees
    refine above_enterExclusive (fun k hk => ?_) ((ih hrest).mono fun k hk => ?_)
    · rcases hk with hk | ⟨t, rfl, ht⟩
      · exact keep_lt_ask (Nat.lt_succ_of_le hk)
      · rw [Prod.Lex.lt_iff]
        exact .inr ⟨rfl, Nat.mul_lt_mul_of_pos_left (ht tree List.mem_cons_self) Nat.two_pos⟩
    · rcases hk with rfl | hk | ⟨t, rfl, ht⟩
      · exact .inr ⟨tree, rfl, hfirst⟩
      · exact .inl hk
      · exact .inr ⟨t, rfl, fun t' ht' => ht t' (List.mem_cons_of_mem _ ht')⟩

theorem rises_enterTrees {trees : List Nat} (hbody : Rises 2 body) :
    Rises 1 (enterTrees trees body) := by
  have hle := (List.pairwise_insertionSort (· ≤ ·) trees).sublist (List.dedup_sublist _)
  have hsorted := (hle.and (List.nodup_dedup _)).imp fun h => lt_of_le_of_ne h.1 h.2
  exact (above_trees hsorted hbody).mono fun k hk => .inl hk

theorem rises_repeated {n : Nat} (hbody : Rises level body) : Rises level (repeated n body) :=
  above_flatten fun _ hacts => (List.mem_replicate.mp hacts).2 ▸ hbody

theorem rises_iterNext {tree : Option Nat} : Rises 0 (iterNext tree) := by
  refine rises_under (by simp) ?_
  cases tree with
  | none => exact rises_walk (by simp)
  | some tree => exact rises_under (by simp) (rises_walk (by simp))

theorem rises_seed {tree : Nat} : Rises 0 (seedMaintenanceCandidates tree) :=
  rises_under (by simp) (rises_under (by simp) (rises_walk (by simp)))

theorem rises_applyBatch {tree : Nat} : Rises 0 (applyBatch journaled tree) :=
  rises_under (by simp) (rises_enterExclusive (by simp) (rises_walkWrite (by simp)))

theorem rises_applySystemBatch : Rises 0 (applySystemBatch journaled) :=
  rises_enterExclusive (by simp) (.append (rises_walkWrite (by simp)) (rises_walk (by simp)))

theorem rises_checkpointSharedParts {rounds : Nat} :
    Rises 0 (checkpointSharedParts journaled rounds) := by
  have hcheckpoint : Rises 1 (enterCheckpoint journaled) := rises_enterCheckpoint (by simp)
  exact rises_under (by simp)
    (.append (rises_repeated (hcheckpoint.append (rises_walk (by simp)))) hcheckpoint)

theorem script_rises (op : Op) : Rises 0 (op.script journaled) := by
  cases op with
  | put tree shard | delete tree shard =>
    exact rises_under (by simp) (rises_under (by simp)
      (rises_under (by simp) (rises_enterWriter (by simp))))
  | rename tree src dst =>
    exact rises_under (by simp) (rises_under (by simp)
      (rises_lockPair (rises_walkWrite (by simp))))
  | atomic tree => exact rises_applyBatch
  | dbAtomic trees =>
    exact rises_under (by simp) (.append (rises_walk (by simp))
      (rises_enterTrees (rises_walkWrite (by simp))))
  | dbView trees =>
    exact rises_under (by simp) (.append (rises_walk (by simp))
      (rises_enterTrees (rises_walk (by simp))))
  | rangeNext tree => exact rises_iterNext
  | compact tree seeds compacted reseeds merged =>
    refine .append (.append (.append (rises_repeated rises_seed) ?_) (rises_repeated rises_seed)) ?_
    · exact rises_repeated rises_applyBatch
    · exact rises_repeated (rises_enterExclusive (by simp)
        (rises_enterExclusive (by simp) (rises_enterWriter (by simp))))
  | createTree | dropTree => exact rises_applySystemBatch
  | dbCheckpoint listed staged rounds finalized =>
    refine .append (.append (.append (rises_repeated rises_iterNext) ?_)
      rises_checkpointSharedParts) ?_
    · exact rises_repeated (rises_enterExclusive (by simp) (rises_walk (by simp)))
    · cases finalized with
      | none => exact above_nil
      | some _ =>
        exact .append (.append (rises_repeated rises_iterNext) rises_applySystemBatch)
          rises_checkpointSharedParts
  | round merged truncates =>
    have hcheckpoint : Rises 0 (enterCheckpoint journaled) := rises_enterCheckpoint (by simp)
    refine .append (.append (.append ?_ hcheckpoint) (rises_walk (by simp)))
      (rises_repeated hcheckpoint)
    exact rises_repeated (rises_enterExclusive (by simp) (rises_enterWriter (by simp)))

end Rises

/-! ## Runs -/

/-- Children rank above their parents, and a thread asks above what it has latched. -/
structure Ranked (rank : G → Nat) (w : World G) : Prop where
  edges : ∀ e ∈ w.edges, rank e.1 < rank e.2
  asks : ∀ t ∈ w.threads, ∀ a ∈ t.asks, ∀ l ∈ t.latches, rank l.1 < rank a.1

structure Inv (w : World G) : Prop where
  climbs : ∀ t ∈ w.threads, Climbs Lock.ask Lock.keep t.party.held t.party.todo
  ranked : ∃ rank, Ranked rank w

/-- A new blob ranks between its parent and everything above it. -/
theorem Ranked.spilled {rank : G → Nat} {w : World G} {blob fresh : G} {moved : List G}
    (h : Ranked rank w) (hfresh : w.fresh fresh) (hblob : blob ≠ fresh) :
    ∃ rank', Ranked rank' ⟨w.threads, spilled blob fresh moved w.edges⟩ := by
  simp only [World.fresh, Bool.and_eq_true, List.all_eq_true, bne_iff_ne] at hfresh
  obtain ⟨hedges, hthreads⟩ := hfresh
  let rank' (b : G) : Nat := if b = fresh then 2 * rank blob + 1 else 2 * rank b
  have hnew : rank' fresh = 2 * rank blob + 1 := if_pos rfl
  have hold {b : G} (hb : b ≠ fresh) : rank' b = 2 * rank b := if_neg hb
  refine ⟨rank', fun e he => ?_, fun t ht a ha l hl => ?_⟩
  · rcases List.mem_cons.mp he with rfl | he
    · rw [hnew, hold hblob]
      exact Nat.lt_succ_self _
    · obtain ⟨e, hmem, rfl⟩ := List.mem_map.mp he
      have hlt := h.edges e hmem
      obtain ⟨hparent, hchild⟩ := hedges e hmem
      split
      · rename_i hmoved
        rw [hmoved.1] at hlt
        rw [hnew, hold hchild]
        omega
      · rw [hold hparent, hold hchild]
        omega
  · have hlt := h.asks t ht a ha l hl
    have hl' := hthreads t ht l (List.mem_append_left _ hl)
    have ha' := hthreads t ht a (List.mem_append_right _ (Option.mem_toList.mpr ha))
    rw [hold hl', hold ha']
    omega

theorem Ranked.merged {rank : G → Nat} {w : World G} {blob child : G} (h : Ranked rank w)
    (hedge : (blob, child) ∈ w.edges) : Ranked rank ⟨w.threads, merged blob child w.edges⟩ := by
  refine ⟨fun e he => ?_, h.asks⟩
  obtain ⟨e, hmem, rfl⟩ := List.mem_map.mp he
  have hlt := h.edges e (List.mem_of_mem_filter hmem)
  split
  · rename_i hchild
    rw [hchild] at hlt
    exact (h.edges _ hedge).trans hlt
  · exact hlt

omit [DecidableEq G] in
/-- One thread moves. -/
theorem Inv.set {w : World G} {i : Nat} {t' : Thread G} (h : Inv w)
    (hclimbs : Climbs Lock.ask Lock.keep t'.party.held t'.party.todo)
    (hasks : ∀ rank, Ranked rank w → ∀ a ∈ t'.asks, ∀ l ∈ t'.latches, rank l.1 < rank a.1) :
    Inv ⟨w.threads.set i t', w.edges⟩ := by
  obtain ⟨rank, hrank⟩ := h.ranked
  refine ⟨fun u hu => ?_, rank, hrank.edges, fun u hu => ?_⟩
  · rcases List.mem_or_eq_of_mem_set hu with hu | rfl
    · exact h.climbs u hu
    · exact hclimbs
  · rcases List.mem_or_eq_of_mem_set hu with hu | rfl
    · exact hrank.asks u hu
    · exact hasks rank hrank

theorem step_inv {journaled : Bool} {w w' : World G} {a : Nat × Move G} (h : Inv w)
    (hstep : step journaled w a = some w') : Inv w' := by
  obtain ⟨i, m⟩ := a
  obtain ⟨t, ht, hstep⟩ := Option.bind_eq_some_iff.mp hstep
  obtain ⟨⟨t', edges⟩, hmove, hset⟩ := Option.bind_eq_some_iff.mp hstep
  cases hset
  have hmem := List.mem_of_getElem? ht
  have hclimbs := h.climbs t hmem
  have hsame : w.threads.set i t = w.threads := by
    obtain ⟨hi, rfl⟩ := List.getElem?_eq_some_iff.mp ht
    exact List.set_getElem_self hi
  cases m with
  | start op =>
    obtain ⟨⟨htodo, -⟩, hres⟩ := Option.ite_none_right_eq_some.mp hmove
    cases hres
    rw [htodo] at hclimbs
    refine h.set ?_ nofun
    rw [show t.party.held = [] from hclimbs]
    exact (script_rises op).climbs
  | act =>
    obtain ⟨-, hres⟩ := Option.ite_none_right_eq_some.mp hmove
    obtain ⟨party, hact, hres⟩ := Option.map_eq_some_iff.mp hres
    cases hres
    exact h.set (hclimbs.act hact) nofun
  | unwind =>
    obtain ⟨-, hres⟩ := Option.ite_none_right_eq_some.mp hmove
    cases hres
    exact h.set (climbs_unwind _) nofun
  | ask via blob write =>
    obtain ⟨⟨-, -, -, hvia⟩, hres⟩ := Option.ite_none_right_eq_some.mp hmove
    cases hres
    refine h.set hclimbs fun rank hrank a ha l hl => ?_
    rw [← Option.mem_some_iff.mp ha]
    have hchain := (hvia l hl).imp (S := fun x y => rank x < rank y) fun x y hxy =>
      hrank.edges _ hxy
    exact hchain.rel_cons (List.mem_append_right _ List.mem_cons_self)
  | latch =>
    obtain ⟨l, -, hres⟩ := Option.bind_eq_some_iff.mp hmove
    obtain ⟨-, hres⟩ := Option.ite_none_right_eq_some.mp hres
    cases hres
    exact h.set hclimbs nofun
  | unlatch l =>
    obtain ⟨-, hres⟩ := Option.ite_none_right_eq_some.mp hmove
    cases hres
    exact h.set hclimbs nofun
  | spillover blob fresh moved =>
    obtain ⟨⟨-, hblob, hfresh⟩, hres⟩ := Option.ite_none_right_eq_some.mp hmove
    cases hres
    obtain ⟨rank, hrank⟩ := h.ranked
    rw [hsame]
    refine ⟨h.climbs, hrank.spilled hfresh ?_⟩
    simp only [World.fresh, Bool.and_eq_true, List.all_eq_true, bne_iff_ne] at hfresh
    exact hfresh.2 t hmem _ (List.mem_append_left _ hblob)
  | merge blob child =>
    obtain ⟨⟨-, -, hedge⟩, hres⟩ := Option.ite_none_right_eq_some.mp hmove
    cases hres
    obtain ⟨rank, hrank⟩ := h.ranked
    rw [hsame]
    exact ⟨h.climbs, rank, hrank.merged hedge⟩

/-- However many threads there are and whatever they run, no set of them waits for itself. -/
theorem admission_never_stuck {journaled : Bool} {n : Nat} {w : World G}
    (hrun : Run (step journaled) (fun _ _ => True) (idle n) w) : ¬ Stuck w := by
  have hidle : Inv (idle n : World G) := by
    constructor
    · intro t ht
      rw [(List.mem_replicate.mp ht).2]
      rfl
    · refine ⟨fun _ => 0, nofun, fun t ht a ha => ?_⟩
      rw [(List.mem_replicate.mp ht).2] at ha
      cases ha
  have hinv := hrun.invariant hidle fun h _ hstep => step_inv h hstep
  obtain ⟨rank, hrank⟩ := hinv.ranked
  refine not_deadlock (R := ℕ ×ₗ ℕ) (fun k k' => clash_height rank) fun i k hk k' hk' => ?_
  obtain ⟨t, ht, hwants⟩ := Option.bind_eq_some_iff.mp hk
  have hmem := List.mem_of_getElem? ht
  rw [ht] at hk'
  unfold Thread.wants at hwants
  split at hwants
  · rename_i l hasks
    cases hwants
    rcases List.mem_append.mp hk' with hk' | hk'
    · obtain ⟨l', hl', rfl⟩ := List.mem_map.mp hk'
      rw [Prod.Lex.lt_iff]
      exact .inr ⟨rfl, hrank.asks t hmem l hasks l' hl'⟩
    · obtain ⟨k', -, rfl⟩ := List.mem_map.mp hk'
      exact keep_lt_latch k' _
  · obtain ⟨hlatches, hwants⟩ := Option.ite_none_right_eq_some.mp hwants
    obtain ⟨k, hparty, rfl⟩ := Option.map_eq_some_iff.mp hwants
    simp only [Option.elim, Thread.held, hlatches, List.map_nil, List.nil_append] at hk'
    obtain ⟨k', hheld, rfl⟩ := List.mem_map.mp hk'
    exact (hinv.climbs t hmem).wants hparty k' hheld

/-- One thread puts and another wants to compact the tree. -/
theorem admission_never_stuck_pair :
    ∃ w : World Nat, Run (step true) (fun _ _ => True) (idle 2) w ∧
      (w.threads.map Thread.wants = [some (.inl (.shard 7 0)),
        some (.inl (.gate (.mutation 7) .drain))]) ∧ ¬ Stuck w := by
  have hplay : (play (step true) (fun _ _ => True)
      [(0, .start (.put 7 0)), (1, .start (.compact 7 false 1 false 0)), (0, .act), (0, .act),
        (1, .act), (1, .act)] (idle 2 : World Nat)).any (fun w =>
      w.threads.map Thread.wants = [some (.inl (.shard 7 0)),
        some (.inl (.gate (.mutation 7) .drain))]) = true := by
    decide +kernel
  obtain ⟨w, hrun, hwants⟩ := exists_run_of_play hplay
  exact ⟨w, hrun, hwants, admission_never_stuck hrun⟩

end Holt.Admission
