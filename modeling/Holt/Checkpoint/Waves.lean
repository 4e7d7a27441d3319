import Holt.Layout
import Mathlib.Data.Fintype.Card
import Mathlib.Data.List.FinRange
import Mathlib.Order.Preorder.Finite

/-! The batch of the I/O worker, wave by wave. An entry is written once its children are in the
store, so children reach the store before the blobs that cross to them. -/

namespace Holt.Waves

variable {G : Type} [DecidableEq G]

structure BatchEntry (G : Type) where
  epochIdx : Nat
  guid : G
  children : List G

/-- What a wave meets: which blobs are dirty or flushing, what `store_has_blob` says, whether the
write or the flush fails, and which entries are found stale. -/
structure Env (G : Type) (n : Nat) where
  hasUnflushed : G → Bool
  storeHas : G → Except Error Bool
  fails : Option Error
  stale : Fin n → Bool

/-- The entries written in each wave so far, the counters, and the guids that are durable. -/
structure Progress (G : Type) (n : Nat) where
  waves : List (List (Fin n))
  remaining : G → Nat
  durable : List G
  flushedByEpoch : Nat → Nat

/-- What the loop comes to. Of a wave that failed, any entry may be in the store. -/
structure Report (G : Type) (n : Nat) where
  progress : Progress G n
  failed : List (Fin n)
  deferred : Except Error Bool

section Code

variable (es : List (BatchEntry G))

def start : Progress G es.length :=
  ⟨[], fun g => es.countP (·.guid = g), [], fun _ => 0⟩

def Progress.flushed {n : Nat} (p : Progress G n) : List (Fin n) := p.waves.flatten

def childrenReady {n : Nat} (env : Env G n) (p : Progress G n) : List G → Except Error Bool
  | [] => .ok true
  | c :: cs =>
    if c ∈ p.durable then childrenReady env p cs
    else if 0 < p.remaining c ∨ env.hasUnflushed c then .ok false
    else
      match env.storeHas c with
      | .error e => .error e
      | .ok false => .ok false
      | .ok true => childrenReady env p cs

def choose (env : Env G es.length) (p : Progress G es.length) :
    List (Fin es.length) → Except Error (List (Fin es.length))
  | [] => .ok []
  | i :: is =>
    if i ∈ p.flushed then choose env p is
    else
      match childrenReady env p (es.get i).children with
      | .error e => .error e
      | .ok true => (choose env p is).map (i :: ·)
      | .ok false => choose env p is

def wrote (p : Progress G es.length) (i : Fin es.length) : Progress G es.length :=
  { p with
    remaining := Function.update p.remaining (es.get i).guid (p.remaining (es.get i).guid - 1)
    durable := (es.get i).guid :: p.durable
    flushedByEpoch := Function.update p.flushedByEpoch (es.get i).epochIdx
      (p.flushedByEpoch (es.get i).epochIdx + 1) }

def land (p : Progress G es.length) (written : List (Fin es.length)) : Progress G es.length :=
  { written.foldl (wrote es) p with waves := p.waves ++ [written] }

/-- `none` is a loop that is still going after `fuel` waves. -/
def writeWaves (env : Nat → Env G es.length) :
    Nat → Nat → Progress G es.length → Option (Report G es.length)
  | 0, _, _ => none
  | fuel + 1, k, p =>
    match choose es (env k) p (List.finRange es.length) with
    | .error e => some ⟨p, [], .error e⟩
    | .ok [] => some ⟨p, [], .ok ((List.finRange es.length).any (· ∉ p.flushed))⟩
    | .ok (i :: is) =>
      let written := (i :: is).filter fun j => !(env k).stale j
      match (env k).fails with
      | some e => some ⟨p, written, .error e⟩
      | none =>
        if (i :: is).any (env k).stale then some ⟨land es p written, [], .ok true⟩
        else writeWaves env fuel (k + 1) (land es p written)

/-- A loop of one more wave than there are entries. -/
def writeEntriesInDependencyOrder (env : Nat → Env G es.length) :
    Option (Report G es.length) :=
  writeWaves es env (es.length + 1) 0 (start es)

end Code

/-! ## What every wave keeps -/

variable {es : List (BatchEntry G)} {env : Nat → Env G es.length} {p : Progress G es.length}

/-- A child of an entry of wave `k` is in the store, or was written in an earlier wave. -/
def ChildrenFirst (es : List (BatchEntry G)) (env : Nat → Env G es.length)
    (waves : List (List (Fin es.length))) : Prop :=
  ∀ k wave, waves[k]? = some wave → ∀ i ∈ wave, ∀ c ∈ (es.get i).children,
    (env k).storeHas c = .ok true ∨
      ∃ j ∈ (waves.take k).flatten, (es.get j).guid = c

structure Inv (es : List (BatchEntry G)) (env : Nat → Env G es.length)
    (p : Progress G es.length) : Prop where
  once : p.flushed.Nodup
  durable : ∀ c, c ∈ p.durable ↔ ∃ j ∈ p.flushed, (es.get j).guid = c
  remaining : ∀ g, p.remaining g + p.flushed.countP (fun j => (es.get j).guid = g) =
    es.countP (·.guid = g)
  childrenFirst : ChildrenFirst es env p.waves

theorem inv_start : Inv es env (start es) where
  once := List.nodup_nil
  durable := by simp [start, Progress.flushed]
  remaining := by simp [start, Progress.flushed]
  childrenFirst := nofun

omit [DecidableEq G] in
theorem ChildrenFirst.concat {waves : List (List (Fin es.length))}
    (h : ChildrenFirst es env waves) {wave : List (Fin es.length)}
    (hwave : ∀ i ∈ wave, ∀ c ∈ (es.get i).children,
      (env waves.length).storeHas c = .ok true ∨ ∃ j ∈ waves.flatten, (es.get j).guid = c) :
    ChildrenFirst es env (waves ++ [wave]) := by
  intro k w hk i hi c hc
  by_cases hlast : k < waves.length
  · rw [List.getElem?_append_left hlast] at hk
    rw [List.take_append_of_le_length hlast.le]
    exact h k w hk i hi c hc
  · obtain ⟨hlt, -⟩ := List.getElem?_eq_some_iff.mp hk
    rw [List.length_append, List.length_singleton] at hlt
    obtain rfl : k = waves.length := by omega
    rw [List.getElem?_concat_length] at hk
    cases hk
    rw [List.take_left]
    exact hwave i hi c hc

theorem Inv.land_nil (h : Inv es env p) : Inv es env (land es p []) := by
  have hflushed : (land es p []).flushed = p.flushed := by
    simp [land, Progress.flushed]
  refine ⟨hflushed ▸ h.once, hflushed ▸ h.durable, hflushed ▸ h.remaining, ?_⟩
  exact h.childrenFirst.concat fun i hi => absurd hi List.not_mem_nil

theorem childrenReady_true {n : Nat} {env : Env G n} {p : Progress G n} {cs : List G}
    (h : childrenReady env p cs = .ok true) {c : G} (hc : c ∈ cs) :
    c ∈ p.durable ∨ env.storeHas c = .ok true := by
  induction cs with
  | nil => cases hc
  | cons d cs ih =>
    unfold childrenReady at h
    split at h
    · rcases List.mem_cons.mp hc with rfl | hc
      · exact .inl ‹_›
      · exact ih h hc
    · split at h
      · cases h
      · split at h
        · cases h
        · cases h
        · rcases List.mem_cons.mp hc with rfl | hc
          · exact .inr ‹_›
          · exact ih h hc

theorem choose_ok {env : Env G es.length} {is wave : List (Fin es.length)}
    (h : choose es env p is = .ok wave) :
    wave.Sublist is ∧ ∀ i, i ∈ wave ↔
      i ∈ is ∧ i ∉ p.flushed ∧ childrenReady env p (es.get i).children = .ok true := by
  induction is generalizing wave with
  | nil =>
    cases h
    simp
  | cons j is ih =>
    unfold choose at h
    split at h
    · obtain ⟨hsub, hmem⟩ := ih h
      refine ⟨hsub.cons j, fun i => ?_⟩
      rw [hmem, List.mem_cons]
      constructor
      · rintro ⟨hi, hrest⟩
        exact ⟨.inr hi, hrest⟩
      · rintro ⟨rfl | hi, hrest⟩
        · exact absurd ‹_› hrest.1
        · exact ⟨hi, hrest⟩
    · split at h
      · cases h
      · obtain ⟨wave', hwave', rfl⟩ : ∃ wave', choose es env p is = .ok wave' ∧
            j :: wave' = wave := by
          cases hrest : choose es env p is with
          | error e => rw [hrest] at h; cases h
          | ok wave' => rw [hrest] at h; cases h; exact ⟨wave', rfl, rfl⟩
        obtain ⟨hsub, hmem⟩ := ih hwave'
        refine ⟨hsub.cons_cons j, fun i => ?_⟩
        rw [List.mem_cons, List.mem_cons, hmem]
        constructor
        · rintro (rfl | ⟨hi, hrest⟩)
          · exact ⟨.inl rfl, ‹_›, ‹_›⟩
          · exact ⟨.inr hi, hrest⟩
        · rintro ⟨rfl | hi, hrest⟩
          · exact .inl rfl
          · exact .inr ⟨hi, hrest⟩
      · rename_i hready
        obtain ⟨hsub, hmem⟩ := ih h
        refine ⟨hsub.cons j, fun i => ?_⟩
        rw [hmem, List.mem_cons]
        constructor
        · rintro ⟨hi, hrest⟩
          exact ⟨.inr hi, hrest⟩
        · rintro ⟨rfl | hi, hrest⟩
          · rw [hready] at hrest
            cases hrest.2
          · exact ⟨hi, hrest⟩

theorem countP_guid (g : G) :
    (List.finRange es.length).countP (fun i => (es.get i).guid = g) = es.countP (·.guid = g) := by
  conv_rhs => rw [← List.map_get_finRange es, List.countP_map]
  rfl

theorem foldl_wrote (written : List (Fin es.length)) (p : Progress G es.length) :
    (∀ c, c ∈ (written.foldl (wrote es) p).durable ↔
      c ∈ p.durable ∨ ∃ j ∈ written, (es.get j).guid = c) ∧
    ∀ g, (written.foldl (wrote es) p).remaining g =
      p.remaining g - written.countP (fun j => (es.get j).guid = g) := by
  induction written generalizing p with
  | nil => simp
  | cons i written ih =>
    obtain ⟨hdurable, hremaining⟩ := ih (wrote es p i)
    refine ⟨fun c => ?_, fun g => ?_⟩
    · rw [List.foldl_cons, hdurable]
      simp only [wrote, List.mem_cons, exists_eq_or_imp]
      tauto
    · rw [List.foldl_cons, hremaining, List.countP_cons]
      simp only [wrote, Function.update_apply]
      by_cases hg : (es.get i).guid = g
      · subst hg
        simp only [if_true, decide_true]
        omega
      · rw [if_neg (Ne.symm hg), if_neg (by simpa using hg), Nat.add_zero]

/-- The entries of a wave that were not stale. -/
theorem Inv.landed (h : Inv es env p) {wave written : List (Fin es.length)}
    (hwave : choose es (env p.waves.length) p (List.finRange es.length) = .ok wave)
    (hwritten : written.Sublist wave) : Inv es env (land es p written) := by
  obtain ⟨hsub, hmem⟩ := choose_ok hwave
  obtain ⟨hdurable, hremaining⟩ := foldl_wrote written p
  have hflushed : (Waves.land es p written).flushed = p.flushed ++ written := by
    simp [Waves.land, Progress.flushed]
  have honce : (p.flushed ++ written).Nodup := by
    refine h.once.append ((hwritten.trans hsub).nodup (List.nodup_finRange _)) ?_
    intro i hi hi'
    exact ((hmem i).mp (hwritten.subset hi')).2.1 hi
  refine ⟨hflushed ▸ honce, fun c => ?_, fun g => ?_, ?_⟩
  · rw [hflushed]
    simp only [Waves.land, hdurable, h.durable, List.mem_append, or_and_right, exists_or]
  · have hall := (List.subperm_of_subset honce fun i _ => List.mem_finRange i).countP_le
      fun i => (es.get i).guid = g
    have hold := h.remaining g
    rw [countP_guid, List.countP_append] at hall
    rw [hflushed, List.countP_append]
    simp only [Waves.land, hremaining]
    omega
  · refine h.childrenFirst.concat fun i hi c hc => ?_
    rcases childrenReady_true ((hmem i).mp (hwritten.subset hi)).2.2 hc with hd | hs
    · exact .inr ((h.durable c).mp hd)
    · exact .inl hs

/-! ## Batches without a cycle -/

/-- The entry `j` is of a child of entry `i`. -/
def IsChild (es : List (BatchEntry G)) (j i : Fin es.length) : Prop :=
  (es.get j).guid ∈ (es.get i).children

/-- No cycle among the entries, nothing amiss with the children outside the batch, and no write
that is stale or fails. -/
structure Smooth (es : List (BatchEntry G)) (env : Nat → Env G es.length) : Prop where
  acyclic : ∀ i, ¬ Relation.TransGen (IsChild es) i i
  children : ∀ k i, ∀ c ∈ (es.get i).children, (∃ j, (es.get j).guid = c) ∨
    (env k).storeHas c = .ok true ∧ (env k).hasUnflushed c = false
  writes : ∀ k, (env k).fails = none ∧ ∀ i, (env k).stale i = false

theorem childrenReady_ok {n : Nat} {env : Env G n} {p : Progress G n} {cs : List G}
    (h : ∀ c ∈ cs, c ∈ p.durable ∨ 0 < p.remaining c ∨ env.storeHas c = .ok true) :
    ∃ b, childrenReady env p cs = .ok b ∧
      (b = false → ∃ c ∈ cs, c ∉ p.durable ∧ (0 < p.remaining c ∨ env.hasUnflushed c = true)) := by
  induction cs with
  | nil => exact ⟨true, rfl, nofun⟩
  | cons c cs ih =>
    obtain ⟨b, hb, hwhy⟩ := ih fun d hd => h d (List.mem_cons_of_mem _ hd)
    have hwhy' := fun hf => (hwhy hf).imp fun d hd => hd.imp_left (List.mem_cons_of_mem c)
    unfold childrenReady
    split
    · exact ⟨b, hb, hwhy'⟩
    · rename_i hdurable
      split
      · rename_i hbusy
        exact ⟨false, rfl, fun _ => ⟨c, List.mem_cons_self, hdurable, hbusy⟩⟩
      · rename_i hfree
        rw [not_or] at hfree
        rcases h c List.mem_cons_self with hd | hr | hs
        · exact absurd hd hdurable
        · exact absurd hr hfree.1
        · rw [hs]
          exact ⟨b, hb, hwhy'⟩

theorem choose_exists {env : Env G es.length} {is : List (Fin es.length)}
    (h : ∀ i ∈ is, ∃ b, childrenReady env p (es.get i).children = .ok b) :
    ∃ wave, choose es env p is = .ok wave := by
  induction is with
  | nil => exact ⟨[], rfl⟩
  | cons i is ih =>
    obtain ⟨wave, hwave⟩ := ih fun j hj => h j (List.mem_cons_of_mem _ hj)
    obtain ⟨b, hb⟩ := h i List.mem_cons_self
    unfold choose
    rw [hb, hwave]
    split
    · exact ⟨_, rfl⟩
    · cases b <;> exact ⟨_, rfl⟩

/-- While an entry is left, some entry can be written. -/
theorem Smooth.choose (hs : Smooth es env) (h : Inv es env p) (k : Nat) :
    ∃ wave, choose es (env k) p (List.finRange es.length) = .ok wave ∧
      (wave = [] → ∀ i, i ∈ p.flushed) := by
  have hready : ∀ i, ∃ b, childrenReady (env k) p (es.get i).children = .ok b ∧
      (b = false → ∃ j, IsChild es j i ∧ j ∉ p.flushed) := by
    intro i
    have hknown : ∀ c ∈ (es.get i).children,
        c ∈ p.durable ∨ 0 < p.remaining c ∨ (env k).storeHas c = .ok true := by
      intro c hc
      by_cases hd : c ∈ p.durable
      · exact .inl hd
      rcases hs.children k i c hc with ⟨j, rfl⟩ | hout
      · -- None of the entries of the child is written, so the counter still has them.
        have hnone : p.flushed.countP (fun l => (es.get l).guid = (es.get j).guid) = 0 := by
          rw [List.countP_eq_zero]
          intro l hl hguid
          exact hd ((h.durable _).mpr ⟨l, hl, of_decide_eq_true hguid⟩)
        have hcount := h.remaining (es.get j).guid
        have hpos : 0 < es.countP (·.guid = (es.get j).guid) :=
          List.countP_pos_iff.mpr ⟨es.get j, List.get_mem es j, decide_eq_true rfl⟩
        exact .inr (.inl (by omega))
      · exact .inr (.inr hout.1)
    obtain ⟨b, hb, hwhy⟩ := childrenReady_ok hknown
    refine ⟨b, hb, fun hf => ?_⟩
    obtain ⟨c, hc, hd, hbusy⟩ := hwhy hf
    have hin : ∃ j, (es.get j).guid = c := by
      rcases hs.children k i c hc with hin | ⟨-, hidle⟩
      · exact hin
      rcases hbusy with hleft | hbusy
      · have hcount := h.remaining c
        have hpos : 0 < es.countP (·.guid = c) := by omega
        obtain ⟨e, he, hguid⟩ := List.countP_pos_iff.mp hpos
        obtain ⟨j, rfl⟩ := List.get_of_mem he
        exact ⟨j, of_decide_eq_true hguid⟩
      · rw [hidle] at hbusy
        cases hbusy
    obtain ⟨j, rfl⟩ := hin
    exact ⟨j, hc, fun hj => hd ((h.durable _).mpr ⟨j, hj, rfl⟩)⟩
  obtain ⟨wave, hwave⟩ := choose_exists fun i _ => (hready i).imp fun _ hb => hb.1
  refine ⟨wave, hwave, ?_⟩
  rintro rfl i
  have : Std.Irrefl (Relation.TransGen (IsChild es)) := ⟨hs.acyclic⟩
  -- Below an entry that is left there is one that is left, and nothing else keeps it back.
  induction i using (Finite.wellFounded_of_trans_of_irrefl
    (Relation.TransGen (IsChild es))).induction with
  | _ i ih =>
    by_contra hi
    obtain ⟨b, hb, hwhy⟩ := hready i
    cases b with
    | false =>
      obtain ⟨j, hj, hleft⟩ := hwhy rfl
      exact hleft (ih j (.single hj))
    | true => exact List.not_mem_nil (((choose_ok hwave).2 i).mpr ⟨List.mem_finRange i, hi, hb⟩)

theorem writeWaves_report (fuel : Nat) (h : Inv es env p)
    (hfuel : es.length < fuel + p.flushed.length) :
    ∃ r, writeWaves es env fuel p.waves.length p = some r ∧
      Inv es env (land es r.progress r.failed) ∧
      (Smooth es env → r.deferred = .ok false ∧ ∀ i, i ∈ r.progress.flushed) := by
  induction fuel generalizing p with
  | zero =>
    have hle := h.once.length_le_card
    rw [Fintype.card_fin] at hle
    omega
  | succ fuel ih =>
    unfold writeWaves
    split
    · rename_i e hchoose
      refine ⟨_, rfl, h.land_nil, fun hs => ?_⟩
      obtain ⟨wave, hwave, -⟩ := hs.choose h p.waves.length
      cases hchoose.symm.trans hwave
    · rename_i hchoose
      refine ⟨_, rfl, h.land_nil, fun hs => ?_⟩
      obtain ⟨wave, hwave, hall⟩ := hs.choose h p.waves.length
      cases hchoose.symm.trans hwave
      exact ⟨by simpa using hall rfl, hall rfl⟩
    · rename_i i is hchoose
      have hland : Inv es env (land es p ((i :: is).filter _)) :=
        h.landed hchoose (List.filter_sublist (p := fun j => !(env p.waves.length).stale j))
      dsimp only
      split
      · rename_i e hfails
        refine ⟨_, rfl, hland, fun hs => ?_⟩
        cases hfails.symm.trans (hs.writes _).1
      · split
        · rename_i hstale
          refine ⟨_, rfl, hland.land_nil, fun hs => ?_⟩
          obtain ⟨j, -, hj⟩ := List.any_eq_true.mp hstale
          cases hj.symm.trans ((hs.writes _).2 j)
        · rename_i hfresh
          have hsome : (i :: is).filter (fun j => !(env p.waves.length).stale j) = i :: is := by
            rw [List.filter_eq_self]
            intro j hj
            simpa using fun hstale => hfresh (List.any_eq_true.mpr ⟨j, hj, hstale⟩)
          rw [hsome] at hland ⊢
          have hlen : (land es p (i :: is)).waves.length = p.waves.length + 1 := by
            simp [land]
          rw [← hlen]
          apply ih hland
          have : (land es p (i :: is)).flushed.length = p.flushed.length + (is.length + 1) := by
            simp [land, Progress.flushed]
          omega

/-- The loop ends within one wave more than there are entries, and writes no entry twice and none
before its children, also in a wave that fails. Without a cycle, and with nothing in its way, it
writes all of them. -/
theorem waves_children_first (es : List (BatchEntry G)) (env : Nat → Env G es.length) :
    ∃ r, writeEntriesInDependencyOrder es env = some r ∧
      ChildrenFirst es env (r.progress.waves ++ [r.failed]) ∧
      (r.progress.waves ++ [r.failed]).flatten.Nodup ∧
      (Smooth es env → r.deferred = .ok false ∧ ∀ i, i ∈ r.progress.waves.flatten) := by
  have hstart : Inv es env (start es) := inv_start
  obtain ⟨r, hr, hinv, hall⟩ :=
    writeWaves_report (es.length + 1) hstart (Nat.lt_add_right _ (Nat.lt_succ_self _))
  exact ⟨r, hr, hinv.childrenFirst, hinv.once, hall⟩

/-- A blob and the one it crosses to, in the wrong order. -/
def pair : List (BatchEntry Nat) := [⟨0, 0, [1]⟩, ⟨0, 1, []⟩]

def calm (n : Nat) : Env Nat n := ⟨fun _ => false, fun _ => .ok false, none, fun _ => false⟩

theorem waves_children_first_pair :
    ∃ r, writeEntriesInDependencyOrder pair (fun _ => calm 2) = some r ∧
      r.deferred = .ok false ∧ ∀ i, i ∈ r.progress.waves.flatten := by
  have hchild : ∀ i j, (pair.get j).guid ∈ (pair.get i).children → i < j := by decide
  have hsmooth : Smooth pair fun _ => calm 2 := {
    acyclic := fun i hi => by
      have hlt : ∀ j, Relation.TransGen (IsChild pair) j i → i < j := by
        intro j hj
        induction hj using Relation.TransGen.head_induction_on with
        | single h => exact hchild _ _ h
        | head h _ ih => exact ih.trans (hchild _ _ h)
      exact lt_irrefl i (hlt i hi)
    children := fun _ => by decide
    writes := fun _ => ⟨rfl, fun _ => rfl⟩ }
  obtain ⟨r, hr, -, -, hall⟩ := waves_children_first pair fun _ => calm 2
  exact ⟨r, hr, hall hsmooth⟩

end Holt.Waves
