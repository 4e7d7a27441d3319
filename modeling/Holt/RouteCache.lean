import Mathlib.Data.List.AList
import Mathlib.Data.List.Dedup
import Mathlib.Data.List.Sort
import Holt.Key
import Holt.Layout

/-! The cache of crossings: for a key prefix, the blob that every key with this prefix reaches. -/

namespace Holt

abbrev Bytes := List UInt8

structure RouteEntry where
  parentGuid : BlobGuid
  parentDepth : Nat
  parentVersion : Nat
  childGuid : BlobGuid
  childDepth : Nat
  deriving DecidableEq, Repr

abbrev RouteMap := AList fun _ : Bytes => RouteEntry

structure RouteCache where
  map : RouteMap
  order : List Bytes
  lengths : List Nat
  replaceCursor : Nat

namespace RouteCache

def capacity : Nat := 16384

def prefixMax : Nat := 96

def empty : RouteCache := ⟨∅, [], [], 0⟩

/-- The longest known prefix of the key. -/
def lookup (c : RouteCache) (key : SearchKey) : Option RouteEntry :=
  c.lengths.findSome? fun len =>
    match key.userPrefix len with
    | none => none
    | some p => c.map.lookup p

def rebuildPrefixLengths (map : RouteMap) : List Nat :=
  ((map.keys.map List.length).mergeSort (fun a b => b ≤ a)).dedup

def rememberPrefixLen (lengths : List Nat) (len : Nat) : List Nat :=
  if len ∈ lengths then lengths else lengths.orderedInsert (· ≥ ·) len

/-- Drop a route that a caller found stale. -/
def invalidate (c : RouteCache) (key : SearchKey) (route : RouteEntry) : RouteCache :=
  match key.userPrefix route.childDepth with
  | none => c
  | some p =>
    if c.map.lookup p = some route then
      let map := c.map.erase p
      { c with map, order := c.order.filter (· != p), lengths := rebuildPrefixLengths map }
    else c

def refreshParentVersion (c : RouteCache) (key : SearchKey) (route : RouteEntry)
    (parentVersion : Nat) : RouteCache :=
  match key.userPrefix route.childDepth with
  | none => c
  | some p =>
    if c.map.lookup p = some route then
      { c with map := c.map.insert p { route with parentVersion } }
    else c

/-- Whether two entries stand for the same edge. -/
def sameEdge (e : RouteEntry) (parentGuid : BlobGuid) (parentDepth : Nat) (childGuid : BlobGuid) :
    Bool :=
  e.parentGuid = parentGuid ∧ e.parentDepth = parentDepth ∧ e.childGuid = childGuid

def hasDominatingPrefix (c : RouteCache) (p : Bytes) (new : RouteEntry) : Bool :=
  c.lengths.any fun len =>
    if p.length ≤ len then false
    else
      match c.map.lookup (p.take len) with
      | some e => sameEdge e new.parentGuid new.parentDepth new.childGuid
      | none => false

def dominated (map : RouteMap) (p : Bytes) (new : RouteEntry) (known : Bytes) : Bool :=
  if p.length < known.length ∧ p <+: known then
    match map.lookup known with
    | some e => sameEdge e new.parentGuid new.parentDepth new.childGuid
    | none => false
  else false

/-- Walk `order`, dropping what the new prefix makes superfluous. -/
def pruneLoop (p : Bytes) (new : RouteEntry) : List Bytes → RouteMap → List Bytes × RouteMap
  | [], map => ([], map)
  | known :: rest, map =>
    if dominated map p new known then pruneLoop p new rest (map.erase known)
    else
      let (order, map) := pruneLoop p new rest map
      (known :: order, map)

def pruneDominatedPrefixes (c : RouteCache) (p : Bytes) (new : RouteEntry) : RouteCache :=
  let (order, map) := pruneLoop p new c.order c.map
  if order.length = c.order.length then c
  else { c with map, order, lengths := rebuildPrefixLengths map }

/-- Put a new prefix in; a full cache gives up the entry the cursor points at. -/
def install (c : RouteCache) (p : Bytes) (new : RouteEntry) : RouteCache :=
  let c := { c with lengths := rememberPrefixLen c.lengths p.length }
  if c.map.keys.length < capacity then
    { c with order := c.order ++ [p], map := c.map.insert p new }
  else
    let idx := c.replaceCursor % capacity
    { c with
      order := c.order.set idx p
      map := (c.map.erase (c.order.getD idx [])).insert p new
      replaceCursor := c.replaceCursor + 1 }

/-- Remember a crossing just seen. -/
def learn (c : RouteCache) (key : SearchKey) (new : RouteEntry) : RouteCache :=
  match key.userPrefix new.childDepth with
  | none => c
  | some p =>
    if prefixMax < p.length then c
    else if p ∈ c.map then { c with map := c.map.insert p new }
    else if c.hasDominatingPrefix p new then c
    else (c.pruneDominatedPrefixes p new).install p new

/-! ## The bookkeeping -/

/-- `order` lists the map's keys, each once. -/
structure Listed (c : RouteCache) : Prop where
  nodup : c.order.Nodup
  ordered : ∀ p, p ∈ c.order ↔ p ∈ c.map

variable {path path' : BlobGuid → Option Bytes} {c : RouteCache} {key : SearchKey}
  {e new : RouteEntry} {p : Bytes}

theorem Listed.perm (h : Listed c) : c.order.Perm c.map.keys :=
  (List.perm_ext_iff_of_nodup h.nodup c.map.keys_nodup).mpr fun q => by
    rw [h.ordered, AList.mem_keys]

theorem Listed.erase (h : Listed c) (p : Bytes) (lengths : List Nat) :
    Listed { c with map := c.map.erase p, order := c.order.filter (· != p), lengths } where
  nodup := h.nodup.filter _
  ordered q := by
    simp only [List.mem_filter, AList.mem_erase, bne_iff_ne, h.ordered]
    exact and_comm

theorem mem_insert_known (hp : p ∈ c.map) (q : Bytes) : q ∈ c.map.insert p new ↔ q ∈ c.map := by
  rw [AList.mem_insert]
  exact ⟨fun hq => hq.elim (fun he => he ▸ hp) id, Or.inr⟩

/-- A prefix that is known gets a new entry. -/
theorem Listed.update (h : Listed c) (hp : p ∈ c.map) :
    Listed { c with map := c.map.insert p new } :=
  ⟨h.nodup, fun q => by rw [h.ordered, mem_insert_known hp]⟩

theorem lookup_of_erase {map : RouteMap} {q : Bytes} (h : (map.erase p).lookup q = some e) :
    map.lookup q = some e := by
  by_cases hq : q = p
  · subst hq
    rw [AList.lookup_erase] at h
    cases h
  · rwa [AList.lookup_erase_ne hq] at h

theorem pruneLoop_spec (p : Bytes) (new : RouteEntry) {order : List Bytes} (hn : order.Nodup)
    (map : RouteMap) :
    (∀ q e, (pruneLoop p new order map).2.lookup q = some e → map.lookup q = some e) ∧
    (pruneLoop p new order map).1.Sublist order ∧
    ∀ q, q ∈ (pruneLoop p new order map).2 ↔
      q ∈ map ∧ (q ∈ order → q ∈ (pruneLoop p new order map).1) := by
  induction order generalizing map with
  | nil => simp [pruneLoop]
  | cons known order ih =>
    obtain ⟨hnot, hn⟩ := List.nodup_cons.mp hn
    unfold pruneLoop
    split
    · obtain ⟨hl, hs, hm⟩ := ih hn (map.erase known)
      refine ⟨fun q e he => lookup_of_erase (hl q e he), hs.cons known, fun q => ?_⟩
      have hk : known ∉ (pruneLoop p new order (map.erase known)).1 := fun h => hnot (hs.subset h)
      rw [hm, AList.mem_erase, List.mem_cons]
      by_cases hq : q = known
      · subst hq
        simp [hk]
      · simp [hq]
    · obtain ⟨hl, hs, hm⟩ := ih hn map
      refine ⟨hl, hs.cons_cons known, fun q => ?_⟩
      rw [hm, List.mem_cons, List.mem_cons]
      by_cases hq : q = known
      · subst hq
        simp [hnot]
      · simp [hq]

theorem Listed.prune (h : Listed c) (p : Bytes) (new : RouteEntry) :
    Listed (c.pruneDominatedPrefixes p new) ∧
      (c.pruneDominatedPrefixes p new).order.Sublist c.order ∧
      ∀ q e, (c.pruneDominatedPrefixes p new).map.lookup q = some e → c.map.lookup q = some e := by
  obtain ⟨hl, hs, hm⟩ := pruneLoop_spec p new h.nodup c.map
  unfold pruneDominatedPrefixes
  dsimp only
  split
  · exact ⟨h, .refl _, fun _ _ he => he⟩
  · refine ⟨⟨hs.nodup h.nodup, fun q => ?_⟩, hs, hl⟩
    rw [hm, ← h.ordered]
    exact ⟨fun hq => ⟨hs.subset hq, fun _ => hq⟩, fun hq => hq.2 hq.1⟩

theorem Listed.notMem_prune (h : Listed c) (hp : p ∉ c.map) (q : Bytes) (new : RouteEntry) :
    p ∉ (c.pruneDominatedPrefixes q new).map := by
  obtain ⟨hs, hsub, -⟩ := h.prune q new
  exact fun hm => hp ((h.ordered p).mp (hsub.subset ((hs.ordered p).mpr hm)))

/-- The cursor of a full cache points into `order`. -/
theorem Listed.cursor_lt (h : Listed c) (hfull : ¬ c.map.keys.length < capacity) :
    c.replaceCursor % capacity < c.order.length := by
  rw [h.perm.length_eq]
  exact (Nat.mod_lt _ (by decide)).trans_le (not_lt.mp hfull)

theorem mem_set_iff {order : List Bytes} {i : Nat} (hn : order.Nodup) (hi : i < order.length)
    (p q : Bytes) : q ∈ order.set i p ↔ q = p ∨ q ≠ order.getD i [] ∧ q ∈ order := by
  induction order generalizing i with
  | nil => cases hi
  | cons known order ih =>
    obtain ⟨hnot, hn⟩ := List.nodup_cons.mp hn
    cases i with
    | zero =>
      have hne : q ∈ order → q ≠ known := fun hq he => hnot (he ▸ hq)
      simp only [List.set_cons_zero, List.mem_cons, List.getD_cons_zero]
      tauto
    | succ i =>
      have hlt : i < order.length := by simpa using hi
      have hmem : order.getD i [] ∈ order := by
        rw [← List.getElem_eq_getD (h := hlt)]
        exact List.getElem_mem hlt
      have hne : q = known → q ≠ order.getD i [] := fun he hg => hnot (he ▸ hg ▸ hmem)
      rw [List.set_cons_succ, List.mem_cons, ih hn hlt, List.getD_cons_succ, List.mem_cons]
      tauto

theorem Listed.install (h : Listed c) (hp : p ∉ c.map) : Listed (c.install p new) := by
  have hpo : p ∉ c.order := fun hm => hp ((h.ordered p).mp hm)
  unfold RouteCache.install
  dsimp only
  split
  · refine ⟨List.nodup_append'.mpr ⟨h.nodup, List.nodup_singleton p,
      List.disjoint_singleton.mpr hpo⟩, fun q => ?_⟩
    rw [List.mem_append, List.mem_singleton, AList.mem_insert, h.ordered]
    exact or_comm
  · rename_i hfull
    refine ⟨h.nodup.set hpo, fun q => ?_⟩
    rw [mem_set_iff h.nodup (h.cursor_lt hfull), AList.mem_insert, AList.mem_erase, h.ordered]

/-- What is to be found after an install: the new route, or one that was there. -/
theorem lookup_install {q : Bytes} (h : (c.install p new).map.lookup q = some e) :
    q = p ∧ e = new ∨ c.map.lookup q = some e := by
  by_cases hq : q = p
  · subst hq
    unfold RouteCache.install at h
    dsimp only at h
    split at h <;> rw [AList.lookup_insert] at h <;> exact .inl ⟨rfl, (Option.some.inj h).symm⟩
  · unfold RouteCache.install at h
    dsimp only at h
    split at h
    · rw [AList.lookup_insert_ne hq] at h
      exact .inr h
    · rw [AList.lookup_insert_ne hq] at h
      exact .inr (lookup_of_erase h)

/-- The lists beside the map: `order` within the capacity, `lengths` descending and with the
length of every key. -/
structure Bookkept (c : RouteCache) : Prop extends Listed c where
  room : c.order.length ≤ capacity
  descending : c.lengths.Pairwise (· > ·)
  covers : ∀ p ∈ c.map, p.length ∈ c.lengths

theorem Bookkept.empty : Bookkept .empty where
  nodup := List.nodup_nil
  ordered p := by simp [RouteCache.empty]
  room := Nat.zero_le _
  descending := .nil
  covers p h := by simp [RouteCache.empty] at h

theorem rebuildPrefixLengths_descending (map : RouteMap) :
    (rebuildPrefixLengths map).Pairwise (· > ·) := by
  have hsort := @List.pairwise_mergeSort _ (fun a b : Nat => decide (b ≤ a))
    (fun a b c hab hbc => by simp only [decide_eq_true_eq] at *; omega)
    (fun a b => by simp only [Bool.or_eq_true, decide_eq_true_eq]; omega)
    (map.keys.map List.length)
  have hle := hsort.sublist (List.dedup_sublist _)
  refine (hle.and (List.nodup_dedup _)).imp fun h => ?_
  have hge := of_decide_eq_true h.1
  omega

theorem mem_rebuildPrefixLengths {map : RouteMap} (hp : p ∈ map) :
    p.length ∈ rebuildPrefixLengths map := by
  unfold rebuildPrefixLengths
  rw [List.mem_dedup, List.mem_mergeSort]
  exact List.mem_map_of_mem (AList.mem_keys.mpr hp)

theorem rememberPrefixLen_descending {lengths : List Nat} (h : lengths.Pairwise (· > ·))
    (len : Nat) : (rememberPrefixLen lengths len).Pairwise (· > ·) := by
  unfold rememberPrefixLen
  split
  · exact h
  · rename_i hm
    have hsort := (h.imp fun h => Nat.le_of_lt h : lengths.Pairwise (· ≥ ·)).orderedInsert len
    have hnodup : (lengths.orderedInsert (· ≥ ·) len).Nodup :=
      (List.perm_orderedInsert (· ≥ ·) len lengths).nodup_iff.mpr
        (List.nodup_cons.mpr ⟨hm, h.imp fun h => h.ne'⟩)
    exact (hsort.and hnodup).imp fun h => lt_of_le_of_ne h.1 h.2.symm

theorem mem_rememberPrefixLen (lengths : List Nat) (len n : Nat) :
    n ∈ rememberPrefixLen lengths len ↔ n = len ∨ n ∈ lengths := by
  unfold rememberPrefixLen
  split
  · exact ⟨Or.inr, fun h => h.elim (fun he => he ▸ ‹_›) id⟩
  · exact List.mem_orderedInsert _

theorem Bookkept.invalidate (h : Bookkept c) (key : SearchKey) (route : RouteEntry) :
    Bookkept (c.invalidate key route) := by
  unfold RouteCache.invalidate
  split
  · exact h
  · split
    · exact ⟨h.toListed.erase _ _, (List.length_filter_le ..).trans h.room,
        rebuildPrefixLengths_descending _, fun _ => mem_rebuildPrefixLengths⟩
    · exact h

theorem Bookkept.update (h : Bookkept c) (hp : p ∈ c.map) :
    Bookkept { c with map := c.map.insert p new } :=
  ⟨h.toListed.update hp, h.room, h.descending,
    fun q hq => h.covers q ((mem_insert_known hp q).mp hq)⟩

theorem Bookkept.refreshParentVersion (h : Bookkept c) (key : SearchKey) (route : RouteEntry)
    (v : Nat) : Bookkept (c.refreshParentVersion key route v) := by
  unfold RouteCache.refreshParentVersion
  split
  · exact h
  · split
    · rename_i he
      exact h.update (AList.lookup_isSome.mp (by rw [he]; rfl))
    · exact h

theorem Bookkept.prune (h : Bookkept c) (p : Bytes) (new : RouteEntry) :
    Bookkept (c.pruneDominatedPrefixes p new) := by
  obtain ⟨hl, hs, -⟩ := h.toListed.prune p new
  refine ⟨hl, hs.length_le.trans h.room, ?_, ?_⟩ <;> unfold pruneDominatedPrefixes <;> dsimp only
  · split
    · exact h.descending
    · exact rebuildPrefixLengths_descending _
  · split
    · exact h.covers
    · exact fun _ => mem_rebuildPrefixLengths

theorem Bookkept.install (h : Bookkept c) (hp : p ∉ c.map) : Bookkept (c.install p new) := by
  refine ⟨h.toListed.install hp, ?_, ?_, fun q hq => ?_⟩
  · unfold RouteCache.install
    dsimp only
    split
    · rename_i hlt
      rw [List.length_append, h.perm.length_eq]
      exact hlt
    · rw [List.length_set]
      exact h.room
  · unfold RouteCache.install
    dsimp only
    split <;> exact rememberPrefixLen_descending h.descending _
  · have hlen : (c.install p new).lengths = rememberPrefixLen c.lengths p.length := by
      unfold RouteCache.install
      dsimp only
      split <;> rfl
    obtain ⟨e, he⟩ := Option.isSome_iff_exists.mp (AList.lookup_isSome.mpr hq)
    rw [hlen, mem_rememberPrefixLen]
    rcases lookup_install he with ⟨rfl, -⟩ | hold
    · exact .inl rfl
    · exact .inr (h.covers q (AList.lookup_isSome.mp (by rw [hold]; rfl)))

theorem Bookkept.learn (h : Bookkept c) (key : SearchKey) (new : RouteEntry) :
    Bookkept (c.learn key new) := by
  unfold RouteCache.learn
  split
  · exact h
  · split
    · exact h
    · split
      · exact h.update ‹_›
      · split
        · exact h
        · exact (h.prune _ new).install (h.toListed.notMem_prune ‹_› _ new)

/-- One call on the cache. A lookup only counts a hit or a miss. -/
inductive Call
  | learn (key : SearchKey) (new : RouteEntry)
  | invalidate (key : SearchKey) (route : RouteEntry)
  | refreshParentVersion (key : SearchKey) (route : RouteEntry) (parentVersion : Nat)
  | lookup (key : SearchKey)

def apply (c : RouteCache) : Call → RouteCache
  | .learn key new => c.learn key new
  | .invalidate key route => c.invalidate key route
  | .refreshParentVersion key route v => c.refreshParentVersion key route v
  | .lookup _ => c

/-- The cache after a sequence of calls. -/
def after (calls : List Call) : RouteCache := calls.foldl apply .empty

theorem Bookkept.apply (h : Bookkept c) (call : Call) : Bookkept (c.apply call) := by
  cases call with
  | learn key new => exact h.learn key new
  | invalidate key route => exact h.invalidate key route
  | refreshParentVersion key route v => exact h.refreshParentVersion key route v
  | lookup key => exact h

theorem bookkept_after (calls : List Call) : Bookkept (after calls) := by
  suffices hrun : ∀ c, Bookkept c → Bookkept (calls.foldl RouteCache.apply c) from
    hrun _ .empty
  induction calls with
  | nil => exact fun c h => h
  | cons call calls ih => exact fun c h => ih _ (h.apply call)

/-- What one length contributes to a lookup. -/
theorem probe_eq_some {len : Nat} :
    (match key.userPrefix len with
      | none => none
      | some p => c.map.lookup p) = some e ↔
    ∃ p, p.length = len ∧ p <+: key.bytes ∧ c.map.lookup p = some e := by
  unfold SearchKey.userPrefix
  constructor
  · intro h
    split at h
    · cases h
    · rename_i p hp
      split at hp
      · rename_i hlen
        cases hp
        exact ⟨_, List.length_take_of_le hlen, List.take_prefix .., h⟩
      · cases hp
  · rintro ⟨p, rfl, hp, he⟩
    simp only [hp.length_le, if_true, ← List.prefix_iff_eq_take.mp hp, he]

/-- A lookup finds the entry at the longest known prefix. -/
theorem Bookkept.lookup_eq_some (h : Bookkept c) : c.lookup key = some e ↔
    ∃ p, c.map.lookup p = some e ∧ p <+: key.bytes ∧
      ∀ q ∈ c.map, q <+: key.bytes → q.length ≤ p.length := by
  have hlongest : ∀ {e}, c.lookup key = some e → ∃ p, c.map.lookup p = some e ∧
      p <+: key.bytes ∧ ∀ q ∈ c.map, q <+: key.bytes → q.length ≤ p.length := by
    intro e hl
    obtain ⟨l₁, len, l₂, hsplit, hat, hbefore⟩ := List.findSome?_eq_some_iff.mp hl
    obtain ⟨p, rfl, hp, he⟩ := probe_eq_some.mp hat
    refine ⟨p, he, hp, fun q hq hpre => ?_⟩
    -- a longer prefix would have been tried before
    have hmem := h.covers q hq
    have hdesc := h.descending
    rw [hsplit] at hmem hdesc
    rcases List.mem_append.mp hmem with hfirst | hlater
    · obtain ⟨e', he'⟩ := Option.isSome_iff_exists.mp (AList.lookup_isSome.mpr hq)
      have hfound := probe_eq_some.mpr ⟨q, rfl, hpre, he'⟩
      rw [hbefore _ hfirst] at hfound
      cases hfound
    · rcases List.mem_cons.mp hlater with heq | hlater
      · exact heq.le
      · exact ((List.pairwise_cons.mp (List.pairwise_append.mp hdesc).2.1).1 _ hlater).le
  refine ⟨hlongest, ?_⟩
  rintro ⟨p, he, hp, hmax⟩
  have hmem : p ∈ c.map := AList.lookup_isSome.mp (by rw [he]; rfl)
  cases hl : c.lookup key with
  | none =>
    have hnone := List.findSome?_eq_none_iff.mp hl _ (h.covers p hmem)
    have hfound := probe_eq_some.mpr ⟨p, rfl, hp, he⟩
    rw [hnone] at hfound
    cases hfound
  | some e' =>
    obtain ⟨p', he', hp', hmax'⟩ := hlongest hl
    have hin : p' ∈ c.map := AList.lookup_isSome.mp (by rw [he']; rfl)
    have hlen := Nat.le_antisymm (hmax p' hin hp') (hmax' p hmem hp)
    have heq : p' = p := List.prefix_of_prefix_length_le hp' hp hlen.le |>.eq_of_length hlen
    rw [← he, ← he', heq]

/-- After any calls the cache's lists describe its map, and a lookup answers with the entry at the
longest key of the map that is a prefix of the user key. -/
theorem bookkeeping_exact (calls : List Call) :
    (after calls).order.Nodup ∧ (∀ p, p ∈ (after calls).order ↔ p ∈ (after calls).map) ∧
    (after calls).map.keys.length ≤ 16384 ∧ (after calls).lengths.Pairwise (· > ·) ∧
    (∀ p ∈ (after calls).map, p.length ∈ (after calls).lengths) ∧
    ∀ key : SearchKey,
      (∀ e, (after calls).lookup key = some e ↔
        ∃ p, (after calls).map.lookup p = some e ∧ p <+: key.bytes ∧
          ∀ q ∈ (after calls).map, q <+: key.bytes → q.length ≤ p.length) ∧
      ((after calls).lookup key = none ↔ ∀ p ∈ (after calls).map, ¬ p <+: key.bytes) := by
  have h := bookkept_after calls
  refine ⟨h.nodup, h.ordered, h.perm.length_eq ▸ h.room, h.descending, h.covers,
    fun key => ⟨fun e => h.lookup_eq_some, fun hl p hm hp => ?_, fun hno => ?_⟩⟩
  · obtain ⟨e, he⟩ := Option.isSome_iff_exists.mp (AList.lookup_isSome.mpr hm)
    have hnone := List.findSome?_eq_none_iff.mp hl _ (h.covers p hm)
    have hfound := probe_eq_some.mpr ⟨p, rfl, hp, he⟩
    rw [hnone] at hfound
    cases hfound
  · cases hl : (after calls).lookup key with
    | none => rfl
    | some e =>
      obtain ⟨p, he, hp, -⟩ := h.lookup_eq_some.mp hl
      exact absurd hp (hno p (AList.lookup_isSome.mp (by rw [he]; rfl)))

/-! ## What the cache may say -/

/-- Every route leads from a known blob to the one that hangs at the route's prefix, and `order`
lists the map's keys. -/
structure Sound (path : BlobGuid → Option Bytes) (c : RouteCache) : Prop where
  route : ∀ p e, c.map.lookup p = some e →
    e.childDepth = p.length ∧ path e.childGuid = some p ∧ (path e.parentGuid).isSome
  nodup : c.order.Nodup
  ordered : ∀ p, p ∈ c.order ↔ p ∈ c.map

theorem Sound.listed (h : Sound path c) : Listed c := ⟨h.nodup, h.ordered⟩

theorem Sound.empty (path : BlobGuid → Option Bytes) : Sound path .empty where
  route p e h := by simp [RouteCache.empty] at h
  nodup := List.nodup_nil
  ordered p := by simp [RouteCache.empty]

theorem Sound.mono (h : Sound path c) (hp : ∀ g p, path g = some p → path' g = some p) :
    Sound path' c := by
  refine ⟨fun p e he => ?_, h.nodup, h.ordered⟩
  obtain ⟨hd, hc, hpar⟩ := h.route p e he
  obtain ⟨q, hq⟩ := Option.isSome_iff_exists.mp hpar
  exact ⟨hd, hp _ _ hc, by rw [hp _ _ hq]; rfl⟩

/-- Routes that were there, and one more that hangs at its prefix. -/
theorem Sound.of_listed {c' : RouteCache} (h : Sound path c) (hl : Listed c')
    (hd : new.childDepth = p.length) (hpath : path new.childGuid = some p)
    (hpar : (path new.parentGuid).isSome)
    (hmap : ∀ q e, c'.map.lookup q = some e → q = p ∧ e = new ∨ c.map.lookup q = some e) :
    Sound path c' := by
  refine ⟨fun q e he => ?_, hl.nodup, hl.ordered⟩
  rcases hmap q e he with ⟨rfl, rfl⟩ | hold
  · exact ⟨hd, hpath, hpar⟩
  · exact h.route q e hold

/-- A route found for a key hangs at a prefix of the key. -/
theorem Sound.lookup (h : Sound path c) (hl : c.lookup key = some e) :
    path e.childGuid = some (key.full.take e.childDepth) ∧ e.childDepth ≤ key.full.length ∧
      (path e.parentGuid).isSome := by
  obtain ⟨len, -, hm⟩ := List.exists_of_findSome?_eq_some hl
  split at hm
  · cases hm
  · rename_i p hp
    obtain ⟨hpe, hlen⟩ := SearchKey.userPrefix_eq hp
    obtain ⟨hd, hpath, hpar⟩ := h.route p e hm
    rw [hd, hlen, ← hpe]
    refine ⟨hpath, ?_, hpar⟩
    have := congrArg List.length hpe
    rw [List.length_take] at this
    omega

theorem Sound.invalidate (h : Sound path c) (key : SearchKey) (route : RouteEntry) :
    Sound path (c.invalidate key route) := by
  unfold RouteCache.invalidate
  split
  · exact h
  · rename_i p hp
    split
    · have hl := h.listed.erase p (rebuildPrefixLengths (c.map.erase p))
      exact ⟨fun q e he => h.route q e (lookup_of_erase he), hl.nodup, hl.ordered⟩
    · exact h

theorem Sound.update (h : Sound path c) (hp : p ∈ c.map) (hd : new.childDepth = p.length)
    (hpath : path new.childGuid = some p) (hpar : (path new.parentGuid).isSome) :
    Sound path { c with map := c.map.insert p new } := by
  refine h.of_listed (h.listed.update hp) hd hpath hpar fun q e he => ?_
  by_cases hq : q = p
  · subst hq
    rw [AList.lookup_insert] at he
    exact .inl ⟨rfl, (Option.some.inj he).symm⟩
  · rw [AList.lookup_insert_ne hq] at he
    exact .inr he

theorem Sound.refreshParentVersion (h : Sound path c) (key : SearchKey) (route : RouteEntry)
    (v : Nat) : Sound path (c.refreshParentVersion key route v) := by
  unfold RouteCache.refreshParentVersion
  split
  · exact h
  · rename_i p hp
    split
    · rename_i he
      obtain ⟨hd, hpath, hpar⟩ := h.route p route he
      exact h.update (AList.lookup_isSome.mp (by rw [he]; rfl)) hd hpath hpar
    · exact h

/-- What a crossing taught may be used by every key with the same prefix. -/
theorem Sound.learn (h : Sound path c)
    (hpath : path new.childGuid = some (key.full.take new.childDepth))
    (hpar : (path new.parentGuid).isSome) : Sound path (c.learn key new) := by
  unfold RouteCache.learn
  split
  · exact h
  · rename_i p hp
    obtain ⟨hpe, hlen⟩ := SearchKey.userPrefix_eq hp
    rw [← hpe] at hpath
    split
    · exact h
    · split
      · rename_i hm
        exact h.update hm hlen.symm hpath hpar
      · rename_i hm
        split
        · exact h
        · obtain ⟨hl, -, hsub⟩ := h.listed.prune p new
          refine h.of_listed (hl.install (h.listed.notMem_prune hm p new)) hlen.symm hpath hpar ?_
          exact fun q e he => (lookup_install he).imp id (hsub q e)

end RouteCache

end Holt
