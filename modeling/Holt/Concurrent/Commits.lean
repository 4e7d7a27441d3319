import Holt.Lib.Machine
import Holt.Tree.History

/-! Writers of one journalled tree side by side. Each call locks the shards of its keys, takes a
number, works on the records step by step, and submits its log record before it lets the shards
go. -/

namespace Holt.Commits

open Holt.Lib

def endpointLockShards : Nat := 256

def shardIndex (key : List UInt8) : Nat :=
  let h := key.foldl (fun h b => (h ^^^ b.toUInt64) * 0x100000001b3) (0xcbf29ce484222325 : UInt64)
  h.toNat % endpointLockShards

/-- Two shards are locked in ascending order, one shard once. -/
def lockPair (src dst : List UInt8) : List Nat :=
  let srcIdx := shardIndex src
  let dstIdx := shardIndex dst
  if srcIdx = dstIdx then [srcIdx]
  else if srcIdx < dstIdx then [srcIdx, dstIdx] else [dstIdx, srcIdx]

/-- The shards a call locks, in this order. -/
def shards : Mutation → List Nat
  | .put key _ | .putIfAbsent key _ | .compareAndPut key _ _ => [shardIndex key]
  | .delete key | .deleteIfVersion key _ => [shardIndex key]
  | .rename src dst _ => lockPair src dst

inductive Stage
  | waiting
  /-- The first of two shards is locked. -/
  | locking
  | entered
  | numbered (seq : Nat)
  /-- A rename has found its source, then its target free, then erased the source. -/
  | found (seq : Nat) (value : List UInt8)
  | free (seq : Nat) (value : List UInt8)
  | erased (seq : Nat) (value : List UInt8)
  /-- The records are changed, the log record is not submitted. -/
  | written (seq : Nat) (op : WalOp)
  | leaving
  deriving DecidableEq, Repr

structure Call where
  mutation : Mutation
  stage : Stage
  deriving DecidableEq, Repr

/-- `locks` says which call holds a shard. A call that has returned is gone from `calls`. -/
structure Shared where
  records : Contents
  nextSeq : Nat
  journal : List (WalOp × Nat)
  locks : Nat → Option Nat
  calls : Nat → Option Call

def start (m : Contents) (nextSeq : Nat) : Shared := ⟨m, nextSeq, [], fun _ => none, fun _ => none⟩

inductive Action
  | begin (t : Nat) (m : Mutation)
  | proceed (t : Nat)

namespace Shared

def goes (s : Shared) (t : Nat) (m : Mutation) (stage : Stage) : Shared :=
  { s with calls := Function.update s.calls t (some ⟨m, stage⟩) }

def lock (s : Shared) (t shard : Nat) : Option Shared :=
  if s.locks shard = none then some { s with locks := Function.update s.locks shard (some t) }
  else none

def unlock (s : Shared) (held : List Nat) : Shared :=
  { s with locks := fun shard => if shard ∈ held then none else s.locks shard }

/-- A conditional insertion or erasure is one step on the records; only one that changed them is
logged. -/
def insertIf (s : Shared) (t : Nat) (m : Mutation) (seq : Nat) (key value : List UInt8)
    (condition : InsertCondition) : Shared :=
  if condition.holds (s.records.version key) then
    Shared.goes { s with records := s.records.put key value seq } t m
      (.written seq (.insert 0 key value))
  else s.goes t m .leaving

def eraseIf (s : Shared) (t : Nat) (m : Mutation) (seq : Nat) (key : List UInt8)
    (condition : EraseCondition) : Shared :=
  if condition.holds (s.records.version key) then
    Shared.goes { s with records := s.records.remove key } t m (.written seq (.erase 0 key))
  else s.goes t m .leaving

/-- The work of a numbered call, up to its first change or its answer. -/
def work (s : Shared) (t seq : Nat) (m : Mutation) : Shared :=
  match m with
  | .put key value => s.insertIf t m seq key value .always
  | .putIfAbsent key value => s.insertIf t m seq key value .ifAbsent
  | .compareAndPut key expected value => s.insertIf t m seq key value (.ifVersion expected)
  | .delete key => s.eraseIf t m seq key .always
  | .deleteIfVersion key expected => s.eraseIf t m seq key (.ifVersion expected)
  | .rename src dst _ =>
    match s.records src with
    | none => s.goes t m .leaving
    | some r => if src = dst then s.goes t m .leaving else s.goes t m (.found seq r.1)

def proceed (s : Shared) (t : Nat) (c : Call) : Option Shared :=
  let m := c.mutation
  match c.stage, m with
  | .waiting, _ =>
    match shards m with
    | [shard] => (s.lock t shard).map (·.goes t m .entered)
    | shard :: _ => (s.lock t shard).map (·.goes t m .locking)
    | [] => none
  | .locking, _ =>
    match shards m with
    | [_, shard] => (s.lock t shard).map (·.goes t m .entered)
    | _ => none
  | .entered, _ => some (Shared.goes { s with nextSeq := s.nextSeq + 1 } t m (.numbered s.nextSeq))
  | .numbered seq, _ => some (s.work t seq m)
  | .found seq value, .rename _ dst force =>
    if !force && (s.records dst).isSome then some (s.goes t m .leaving)
    else some (s.goes t m (.free seq value))
  | .free seq value, .rename src _ _ =>
    some (Shared.goes { s with records := s.records.remove src } t m (.erased seq value))
  | .erased seq value, .rename src dst force =>
    some (Shared.goes { s with records := s.records.put dst value seq } t m
      (.written seq (.renameObject 0 src dst force)))
  | .written seq op, _ =>
    some (Shared.goes { s with journal := s.journal ++ [(op, seq)] } t m .leaving)
  | .leaving, _ =>
    some { s.unlock (shards m) with calls := Function.update s.calls t none }
  | _, _ => none

def step (s : Shared) : Action → Option Shared
  | .begin t m => if s.calls t = none then some (s.goes t m .waiting) else none
  | .proceed t => (s.calls t).bind (s.proceed t)

end Shared

/-! ## The log explains the records -/

def Call.holds (c : Call) : List Nat :=
  match c.stage with
  | .waiting => []
  | .locking => (shards c.mutation).take 1
  | _ => shards c.mutation

/-- What the records are on the shards of a call, given what the log says so far. -/
def Call.expects (c : Call) (logged : Contents) : Contents :=
  match c.stage, c.mutation with
  | .erased _ _, .rename src _ _ => logged.remove src
  | .written seq op, _ => logged.redo (op, seq)
  | _, _ => logged

/-- What a call has learned and relies on. -/
def Call.Knows (c : Call) (logged : Contents) : Prop :=
  match c.stage with
  | .found _ value => ∃ src dst force, c.mutation = .rename src dst force ∧ src ≠ dst ∧
      ∃ version, logged src = some (value, version)
  | .free _ value | .erased _ value => ∃ src dst force, c.mutation = .rename src dst force ∧
      src ≠ dst ∧ (∃ version, logged src = some (value, version)) ∧
      (force = true ∨ logged dst = none)
  | .written _ op => ∀ key ∈ op.keys, shardIndex key ∈ shards c.mutation
  | _ => True

section Shards

variable {c : Call} {logged logged' : Contents}

theorem shardIndex_src (src dst : List UInt8) : shardIndex src ∈ lockPair src dst := by
  unfold lockPair
  dsimp only
  split
  · simp
  · split <;> simp

theorem shardIndex_dst (src dst : List UInt8) : shardIndex dst ∈ lockPair src dst := by
  unfold lockPair
  dsimp only
  split
  · rename_i h
    simp [h]
  · split <;> simp

theorem redo_congr {e : WalOp × Nat} {key : List UInt8}
    (h : ∀ k ∈ e.1.keys, logged' k = logged k) (hkey : logged' key = logged key) :
    logged'.redo e key = logged.redo e key := by
  by_cases hmem : key ∈ e.1.keys
  · obtain ⟨op, seq⟩ := e
    cases op with
    | insert id k value =>
      obtain rfl : key = k := by simpa [WalOp.keys] using hmem
      rw [Contents.redo, Contents.redo, Contents.put_self, Contents.put_self]
    | erase id k =>
      obtain rfl : key = k := by simpa [WalOp.keys] using hmem
      rw [Contents.redo, Contents.redo, Contents.remove_self, Contents.remove_self]
    | batch ops => exact hkey
    | renameObject id src dst force =>
      have hsrc := h src (by simp [WalOp.keys])
      have hdst := h dst (by simp [WalOp.keys])
      simp only [Contents.redo, hsrc, hdst]
      cases logged src with
      | none => exact hkey
      | some r =>
        dsimp only
        split
        · exact hkey
        · by_cases hk : key = dst
          · rw [hk, Contents.put_self, Contents.put_self]
          · rw [Contents.put_of_ne _ _ _ hk, Contents.put_of_ne _ _ _ hk]
            by_cases hs : key = src
            · rw [hs, Contents.remove_self, Contents.remove_self]
            · rw [Contents.remove_of_ne _ hs, Contents.remove_of_ne _ hs, hkey]
  · rw [Contents.redo_of_not_mem _ hmem, Contents.redo_of_not_mem _ hmem, hkey]

/-- A call depends on the log only through its own shards. -/
theorem Call.expects_congr (hk : c.Knows logged)
    (h : ∀ key, shardIndex key ∈ c.holds → logged' key = logged key) {key : List UInt8}
    (hkey : shardIndex key ∈ c.holds) : c.expects logged' key = c.expects logged key := by
  obtain ⟨mutation, stage⟩ := c
  cases stage with
  | erased seq value =>
    obtain ⟨src, dst, force, rfl, -⟩ := hk
    simp only [expects]
    by_cases hs : key = src
    · rw [hs, Contents.remove_self, Contents.remove_self]
    · rw [Contents.remove_of_ne _ hs, Contents.remove_of_ne _ hs, h key hkey]
  | written seq op => exact redo_congr (fun k hmem => h k (hk k hmem)) (h key hkey)
  | _ => exact h key hkey

theorem Call.Knows.congr (hk : c.Knows logged)
    (h : ∀ key, shardIndex key ∈ c.holds → logged' key = logged key) : c.Knows logged' := by
  obtain ⟨mutation, stage⟩ := c
  cases stage with
  | found seq value =>
    obtain ⟨src, dst, force, rfl, hne, version, hsrc⟩ := hk
    exact ⟨src, dst, force, rfl, hne, version, (h src (shardIndex_src src dst)).trans hsrc⟩
  | free seq value =>
    obtain ⟨src, dst, force, rfl, hne, ⟨version, hsrc⟩, hdst⟩ := hk
    exact ⟨src, dst, force, rfl, hne, ⟨version, (h src (shardIndex_src src dst)).trans hsrc⟩,
      hdst.imp_right (h dst (shardIndex_dst src dst)).trans⟩
  | erased seq value =>
    obtain ⟨src, dst, force, rfl, hne, ⟨version, hsrc⟩, hdst⟩ := hk
    exact ⟨src, dst, force, rfl, hne, ⟨version, (h src (shardIndex_src src dst)).trans hsrc⟩,
      hdst.imp_right (h dst (shardIndex_dst src dst)).trans⟩
  | written seq op => exact hk
  | _ => trivial

end Shards

namespace Shared

/-- The records, as the log tells them. -/
def logged (m₀ : Contents) (s : Shared) : Contents := s.journal.foldl Contents.redo m₀

/-- A shard that nobody holds has the records the log tells of; on the shards of a call they
differ by what the call has done and not submitted yet. -/
structure Inv (m₀ : Contents) (s : Shared) : Prop where
  held : ∀ {t c shard}, s.calls t = some c → shard ∈ c.holds → s.locks shard = some t
  holder : ∀ {t shard}, s.locks shard = some t → ∃ c, s.calls t = some c ∧ shard ∈ c.holds
  quiet : ∀ key, s.locks (shardIndex key) = none → s.records key = s.logged m₀ key
  busy : ∀ {t c} key, s.calls t = some c → shardIndex key ∈ c.holds →
    s.records key = c.expects (s.logged m₀) key
  knows : ∀ {t c}, s.calls t = some c → c.Knows (s.logged m₀)

section Steps

variable {m₀ : Contents} {s s' : Shared} {t : Nat} {c : Call}

theorem update_cases {calls : Nat → Option Call} {u : Nat} {o : Option Call} {d : Call}
    (h : Function.update calls t o u = some d) : u = t ∧ o = some d ∨ u ≠ t ∧ calls u = some d := by
  by_cases hu : u = t
  · subst hu
    rw [Function.update_self] at h
    exact .inl ⟨rfl, h⟩
  · rw [Function.update_of_ne hu] at h
    exact .inr ⟨hu, h⟩

/-- A step of a call on its own shards. -/
theorem Inv.inside (h : s.Inv m₀) (hc : s.calls t = some c) (c' : Call)
    (hholds : c'.holds = c.holds)
    (hlocks : s'.locks = s.locks) (hcalls : s'.calls = Function.update s.calls t (some c'))
    (hrecords : ∀ key, shardIndex key ∉ c.holds → s'.records key = s.records key)
    (hlogged : ∀ key, shardIndex key ∉ c.holds → s'.logged m₀ key = s.logged m₀ key)
    (hself : ∀ key, shardIndex key ∈ c.holds → s'.records key = c'.expects (s'.logged m₀) key)
    (hknows : c'.Knows (s'.logged m₀)) : s'.Inv m₀ := by
  -- The shards of another call are not ours.
  have hother : ∀ {u d}, u ≠ t → s.calls u = some d → ∀ key, shardIndex key ∈ d.holds →
      shardIndex key ∉ c.holds := by
    intro u d hne hd key hin hours
    have := (h.held hd hin).symm.trans (h.held hc hours)
    exact hne (Option.some.inj this)
  have hcase : ∀ {u d}, s'.calls u = some d → u = t ∧ d = c' ∨ u ≠ t ∧ s.calls u = some d := by
    intro u d hd
    rw [hcalls] at hd
    exact (update_cases hd).imp_left fun h => ⟨h.1, (Option.some.inj h.2).symm⟩
  constructor
  · intro u d shard hd hin
    rw [hlocks]
    rcases hcase hd with ⟨rfl, rfl⟩ | ⟨-, hd⟩
    · exact h.held hc (hholds ▸ hin)
    · exact h.held hd hin
  · intro u shard hlock
    rw [hlocks] at hlock
    obtain ⟨d, hd, hin⟩ := h.holder hlock
    by_cases hu : u = t
    · subst hu
      cases hc.symm.trans hd
      exact ⟨c', by rw [hcalls, Function.update_self], hholds ▸ hin⟩
    · exact ⟨d, by rw [hcalls, Function.update_of_ne hu, hd], hin⟩
  · intro key hnone
    rw [hlocks] at hnone
    have hout : shardIndex key ∉ c.holds := fun hin => by
      rw [h.held hc hin] at hnone
      cases hnone
    rw [hrecords key hout, hlogged key hout, h.quiet key hnone]
  · intro u d key hd hin
    rcases hcase hd with ⟨rfl, rfl⟩ | ⟨hne, hd⟩
    · exact hself key (hholds ▸ hin)
    · have hout := hother hne hd
      rw [hrecords key (hout key hin), h.busy key hd hin]
      exact (Call.expects_congr (h.knows hd) (fun k hk => hlogged k (hout k hk)) hin).symm
  · intro u d hd
    rcases hcase hd with ⟨rfl, rfl⟩ | ⟨hne, hd⟩
    · exact hknows
    · exact (h.knows hd).congr fun k hk => hlogged k (hother hne hd k hk)

theorem Inv.begin (h : s.Inv m₀) (hnone : s.calls t = none) (m : Mutation) :
    (s.goes t m .waiting).Inv m₀ := by
  have hcase : ∀ {u d}, (s.goes t m .waiting).calls u = some d →
      d = ⟨m, .waiting⟩ ∨ s.calls u = some d := by
    intro u d hd
    exact (update_cases hd).imp (fun h => (Option.some.inj h.2).symm) fun h => h.2
  constructor
  · intro u d shard hd hin
    rcases hcase hd with rfl | hd
    · cases hin
    · exact h.held hd hin
  · intro u shard hlock
    obtain ⟨d, hd, hin⟩ := h.holder hlock
    have hu : u ≠ t := by
      rintro rfl
      rw [hnone] at hd
      cases hd
    exact ⟨d, (Function.update_of_ne hu ..).trans hd, hin⟩
  · exact h.quiet
  · intro u d key hd hin
    rcases hcase hd with rfl | hd
    · cases hin
    · exact h.busy key hd hin
  · intro u d hd
    rcases hcase hd with rfl | hd
    · trivial
    · exact h.knows hd

/-- A call that has not touched anything takes one more shard. -/
theorem Inv.lock (h : s.Inv m₀) (hc : s.calls t = some c) {shard : Nat} {stage : Stage}
    (hlock : s.lock t shard = some s')
    (hholds : ∀ x, x ∈ (⟨c.mutation, stage⟩ : Call).holds ↔ x = shard ∨ x ∈ c.holds)
    (hbefore : ∀ l, c.expects l = l) (hafter : ∀ l, (⟨c.mutation, stage⟩ : Call).expects l = l)
    (hknows : ∀ l, (⟨c.mutation, stage⟩ : Call).Knows l) : (s'.goes t c.mutation stage).Inv m₀ := by
  unfold Shared.lock at hlock
  split at hlock
  · rename_i hfree
    cases hlock
    have hcase : ∀ {u d}, Function.update s.calls t (some ⟨c.mutation, stage⟩) u = some d →
        u = t ∧ d = ⟨c.mutation, stage⟩ ∨ u ≠ t ∧ s.calls u = some d := by
      intro u d hd
      exact (update_cases hd).imp_left fun h => ⟨h.1, (Option.some.inj h.2).symm⟩
    constructor
    · intro u d x hd hin
      dsimp only [goes] at hd ⊢
      by_cases hx : x = shard
      · subst hx
        rw [Function.update_self]
        rcases hcase hd with ⟨rfl, rfl⟩ | ⟨-, hd⟩
        · rfl
        · have := h.held hd hin
          rw [hfree] at this
          cases this
      · rw [Function.update_of_ne hx]
        rcases hcase hd with ⟨rfl, rfl⟩ | ⟨-, hd⟩
        · exact h.held hc (((hholds x).mp hin).resolve_left hx)
        · exact h.held hd hin
    · intro u x hlock
      dsimp only [goes] at hlock ⊢
      by_cases hx : x = shard
      · subst hx
        rw [Function.update_self] at hlock
        cases hlock
        exact ⟨_, Function.update_self .., (hholds x).mpr (.inl rfl)⟩
      · rw [Function.update_of_ne hx] at hlock
        obtain ⟨d, hd, hin⟩ := h.holder hlock
        by_cases hu : u = t
        · subst hu
          cases hc.symm.trans hd
          exact ⟨_, Function.update_self .., (hholds x).mpr (.inr hin)⟩
        · exact ⟨d, (Function.update_of_ne hu ..).trans hd, hin⟩
    · intro key hnone
      dsimp only [goes] at hnone
      by_cases hx : shardIndex key = shard
      · rw [hx, Function.update_self] at hnone
        cases hnone
      · rw [Function.update_of_ne hx] at hnone
        exact h.quiet key hnone
    · intro u d key hd hin
      rcases hcase hd with ⟨rfl, rfl⟩ | ⟨-, hd⟩
      · rw [hafter]
        rcases (hholds _).mp hin with hx | hold
        · exact h.quiet key (hx ▸ hfree)
        · exact (h.busy key hc hold).trans (congrFun (hbefore _) key)
      · exact h.busy key hd hin
    · intro u d hd
      rcases hcase hd with ⟨rfl, rfl⟩ | ⟨-, hd⟩
      · exact hknows _
      · exact h.knows hd
  · cases hlock

/-- The log tells everything a call has done when it lets its shards go. -/
theorem Inv.leave (h : s.Inv m₀) (hc : s.calls t = some c) (hstage : c.stage = .leaving) :
    Inv m₀ { s.unlock (shards c.mutation) with calls := Function.update s.calls t none } := by
  have hholds : c.holds = shards c.mutation := by simp [Call.holds, hstage]
  have hexpects : ∀ l, c.expects l = l := fun l => by simp [Call.expects, hstage]
  have hcase : ∀ {u d}, Function.update s.calls t none u = some d → u ≠ t ∧ s.calls u = some d := by
    intro u d hd
    exact (update_cases hd).resolve_left fun h => by cases h.2
  constructor
  · intro u d shard hd hin
    obtain ⟨hne, hd⟩ := hcase hd
    have hlock := h.held hd hin
    have hout : shard ∉ shards c.mutation := fun hmem =>
      hne (Option.some.inj (hlock.symm.trans (h.held hc (hholds ▸ hmem))))
    exact (if_neg hout).trans hlock
  · intro u shard hlock
    dsimp only [unlock] at hlock
    split at hlock
    · cases hlock
    · rename_i hout
      obtain ⟨d, hd, hin⟩ := h.holder hlock
      have hu : u ≠ t := by
        rintro rfl
        cases hc.symm.trans hd
        exact hout (hholds ▸ hin)
      exact ⟨d, (Function.update_of_ne hu ..).trans hd, hin⟩
  · intro key hnone
    by_cases hin : shardIndex key ∈ shards c.mutation
    · exact (h.busy key hc (hholds ▸ hin)).trans (congrFun (hexpects _) key)
    · exact h.quiet key ((if_neg hin).symm.trans hnone)
  · intro u d key hd hin
    exact h.busy key (hcase hd).2 hin
  · intro u d hd
    exact h.knows (hcase hd).2

/-- A step that only looks. -/
theorem Inv.looks (h : s.Inv m₀) (hc : s.calls t = some c) {n : Nat} {stage : Stage}
    (hholds : (⟨c.mutation, stage⟩ : Call).holds = c.holds)
    (hexpects : ∀ l, (⟨c.mutation, stage⟩ : Call).expects l = c.expects l)
    (hknows : (⟨c.mutation, stage⟩ : Call).Knows (s.logged m₀)) :
    (Shared.goes { s with nextSeq := n } t c.mutation stage).Inv m₀ := by
  refine h.inside hc _ hholds rfl rfl (fun _ _ => rfl) (fun _ _ => rfl) (fun key hin => ?_) hknows
  exact (h.busy key hc hin).trans (congrFun (hexpects _).symm key)

variable {m : Mutation} {seq : Nat}

/-- A change of the records that the log will tell of. -/
theorem Inv.writes (h : s.Inv m₀) {op : WalOp} (hc : s.calls t = some ⟨m, .numbered seq⟩)
    (hop : ∀ key ∈ op.keys, shardIndex key ∈ shards m) :
    (Shared.goes { s with records := s.records.redo (op, seq) } t m (.written seq op)).Inv m₀ := by
  refine h.inside hc ⟨m, .written seq op⟩ rfl rfl rfl (fun k hk => ?_) (fun _ _ => rfl)
    (fun k hk => ?_) hop
  · exact Contents.redo_of_not_mem _ fun hmem => hk (hop k hmem)
  · exact redo_congr (fun k' hk' => h.busy k' hc (hop k' hk')) (h.busy k hc hk)

theorem Inv.insertIf (h : s.Inv m₀) {key : List UInt8} (hc : s.calls t = some ⟨m, .numbered seq⟩)
    (hkey : shards m = [shardIndex key]) (value : List UInt8) (cond : InsertCondition) :
    (s.insertIf t m seq key value cond).Inv m₀ := by
  unfold Shared.insertIf
  split
  · have hop : ∀ k ∈ (WalOp.insert 0 key value).keys, shardIndex k ∈ shards m := by
      simp [WalOp.keys, hkey]
    exact h.writes hc hop
  · exact h.looks (n := s.nextSeq) hc rfl (fun _ => rfl) trivial

theorem Inv.eraseIf (h : s.Inv m₀) {key : List UInt8} (hc : s.calls t = some ⟨m, .numbered seq⟩)
    (hkey : shards m = [shardIndex key]) (cond : EraseCondition) :
    (s.eraseIf t m seq key cond).Inv m₀ := by
  unfold Shared.eraseIf
  split
  · have hop : ∀ k ∈ (WalOp.erase 0 key).keys, shardIndex k ∈ shards m := by
      simp [WalOp.keys, hkey]
    exact h.writes hc hop
  · exact h.looks (n := s.nextSeq) hc rfl (fun _ => rfl) trivial

theorem Inv.work (h : s.Inv m₀) (hc : s.calls t = some ⟨m, .numbered seq⟩) :
    (s.work t seq m).Inv m₀ := by
  have hleave : ∀ {m : Mutation}, s.calls t = some ⟨m, .numbered seq⟩ →
      (s.goes t m .leaving).Inv m₀ :=
    fun hc => h.looks (n := s.nextSeq) hc rfl (fun _ => rfl) trivial
  cases m with
  | put key value => exact h.insertIf hc rfl value _
  | putIfAbsent key value => exact h.insertIf hc rfl value _
  | compareAndPut key expected value => exact h.insertIf hc rfl value _
  | delete key => exact h.eraseIf hc rfl _
  | deleteIfVersion key expected => exact h.eraseIf hc rfl _
  | rename src dst force =>
    unfold Shared.work
    dsimp only
    split
    · exact hleave hc
    · rename_i r hr
      split
      · exact hleave hc
      · rename_i hne
        have hsrc : s.logged m₀ src = some r :=
          (h.busy src hc (shardIndex_src src dst)).symm.trans hr
        exact h.looks (n := s.nextSeq) hc rfl (fun _ => rfl)
          ⟨src, dst, force, rfl, hne, r.2, hsrc⟩

/-! ## The steps of a rename -/

theorem Inv.erases (h : s.Inv m₀) {src dst value : List UInt8} {force : Bool}
    (hc : s.calls t = some ⟨.rename src dst force, .free seq value⟩) :
    (Shared.goes { s with records := s.records.remove src } t (.rename src dst force)
      (.erased seq value)).Inv m₀ := by
  have hknows := h.knows hc
  refine h.inside hc ⟨.rename src dst force, .erased seq value⟩ rfl rfl rfl
    (fun k hk => ?_) (fun _ _ => rfl) (fun k hk => ?_) hknows
  · exact Contents.remove_of_ne _ fun heq => hk (heq ▸ shardIndex_src src dst)
  · have hsame : s.records k = s.logged m₀ k := h.busy k hc hk
    change s.records.remove src k = (s.logged m₀).remove src k
    by_cases hs : k = src
    · rw [hs, Contents.remove_self, Contents.remove_self]
    · rw [Contents.remove_of_ne _ hs, Contents.remove_of_ne _ hs, hsame]

/-- Both halves of a rename are what its log record says. -/
theorem Inv.moves (h : s.Inv m₀) {src dst value : List UInt8} {force : Bool}
    (hc : s.calls t = some ⟨.rename src dst force, .erased seq value⟩) :
    (Shared.goes { s with records := s.records.put dst value seq } t (.rename src dst force)
      (.written seq (.renameObject 0 src dst force))).Inv m₀ := by
  obtain ⟨src', dst', force', heq, hne, ⟨version, hsrc⟩, hfree⟩ := h.knows hc
  cases heq
  refine h.inside hc ⟨.rename src dst force, .written seq (.renameObject 0 src dst force)⟩
    rfl rfl rfl (fun k hk => ?_) (fun _ _ => rfl) (fun k hk => ?_) ?_
  · exact Contents.put_of_ne _ _ _ fun heq => hk (heq ▸ shardIndex_dst src dst)
  · have hsame : s.records k = (s.logged m₀).remove src k := h.busy k hc hk
    have hgo : (!force && (s.logged m₀ dst).isSome) = false := by
      rcases hfree with rfl | hnone
      · rfl
      · simp [hnone]
    change s.records.put dst value seq k =
      (s.logged m₀).redo (.renameObject 0 src dst force, seq) k
    simp only [Contents.redo, hsrc, hgo]
    by_cases hd : k = dst
    · simp [hd]
    · rw [Contents.put_of_ne _ _ _ hd, hsame]
      exact (Contents.put_of_ne _ _ _ hd).symm
  · intro k hk
    simp only [WalOp.keys, List.mem_cons, List.not_mem_nil, or_false] at hk
    rcases hk with rfl | rfl
    · exact shardIndex_src ..
    · exact shardIndex_dst ..

/-- The log record makes what the call did part of what the log tells. -/
theorem Inv.submits (h : s.Inv m₀) {op : WalOp} (hc : s.calls t = some ⟨m, .written seq op⟩) :
    (Shared.goes { s with journal := s.journal ++ [(op, seq)] } t m .leaving).Inv m₀ := by
  have hlogged : ∀ s' : Shared, s'.journal = s.journal ++ [(op, seq)] →
      s'.logged m₀ = (s.logged m₀).redo (op, seq) := by
    intro s' hj
    rw [logged, hj, List.foldl_append]
    rfl
  refine h.inside hc ⟨m, .leaving⟩ rfl rfl rfl (fun _ _ => rfl) (fun k hk => ?_)
    (fun k hk => ?_) trivial
  · rw [hlogged _ rfl]
    exact Contents.redo_of_not_mem _ fun hmem => hk (h.knows hc k hmem)
  · rw [hlogged _ rfl]
    exact h.busy k hc hk

theorem Inv.proceed (h : s.Inv m₀) (hc : s.calls t = some c) (hstep : s.proceed t c = some s') :
    s'.Inv m₀ := by
  obtain ⟨m, stage⟩ := c
  cases stage with
  | waiting =>
    simp only [Shared.proceed] at hstep
    split at hstep
    · rename_i shard hshards
      obtain ⟨s₁, hlock, rfl⟩ := Option.map_eq_some_iff.mp hstep
      exact h.lock hc hlock (fun x => by simp [Call.holds, hshards]) (fun _ => rfl)
        (fun _ => rfl) fun _ => trivial
    · rename_i shard rest _ hshards
      obtain ⟨s₁, hlock, rfl⟩ := Option.map_eq_some_iff.mp hstep
      exact h.lock hc hlock (fun x => by simp [Call.holds, hshards]) (fun _ => rfl)
        (fun _ => rfl) fun _ => trivial
    · cases hstep
  | locking =>
    simp only [Shared.proceed] at hstep
    split at hstep
    · rename_i first shard hshards
      obtain ⟨s₁, hlock, rfl⟩ := Option.map_eq_some_iff.mp hstep
      exact h.lock hc hlock (fun x => by simp [Call.holds, hshards, or_comm]) (fun _ => rfl)
        (fun _ => rfl) fun _ => trivial
    · cases hstep
  | entered =>
    cases hstep
    exact h.looks hc rfl (fun _ => rfl) trivial
  | numbered seq =>
    cases hstep
    exact h.work hc
  | found seq value =>
    obtain ⟨src, dst, force, rfl, hne, hsrc⟩ := h.knows hc
    simp only [Shared.proceed] at hstep
    split at hstep
    · cases hstep
      exact h.looks (n := s.nextSeq) hc rfl (fun _ => rfl) trivial
    · rename_i hfree
      cases hstep
      refine h.looks (n := s.nextSeq) hc rfl (fun _ => rfl) ⟨src, dst, force, rfl, hne, hsrc, ?_⟩
      have hdst : s.records dst = s.logged m₀ dst := h.busy dst hc (shardIndex_dst src dst)
      rw [← hdst]
      cases force <;> simp_all
  | free seq value =>
    obtain ⟨src, dst, force, rfl, -⟩ := h.knows hc
    cases hstep
    exact h.erases hc
  | erased seq value =>
    obtain ⟨src, dst, force, rfl, -⟩ := h.knows hc
    cases hstep
    exact h.moves hc
  | written seq op =>
    cases hstep
    exact h.submits hc
  | leaving =>
    cases hstep
    exact h.leave hc rfl

theorem step_inv {a : Action} (h : s.Inv m₀) (hstep : s.step a = some s') : s'.Inv m₀ := by
  cases a with
  | begin t m =>
    simp only [step] at hstep
    split at hstep
    · rename_i hnone
      cases hstep
      exact h.begin hnone m
    · cases hstep
  | proceed t =>
    obtain ⟨c, hc, hgo⟩ := Option.bind_eq_some_iff.mp hstep
    exact h.proceed hc hgo

theorem start_inv (m₀ : Contents) (n : Nat) : (start m₀ n).Inv m₀ := by
  constructor
  · intro t c shard hc
    cases hc
  · intro t shard hlock
    cases hlock
  · exact fun _ _ => rfl
  · intro t c key hc
    cases hc
  · intro t c hc
    cases hc

end Steps

/-- Once every call has returned, the log applied to the records of the start gives the records,
with their versions. -/
theorem log_explains_records {m₀ : Contents} {n : Nat} {s : Shared}
    (hrun : Run step (fun _ _ => True) (start m₀ n) s) (hdone : ∀ t, s.calls t = none) :
    s.journal.foldl Contents.redo m₀ = s.records := by
  have h : s.Inv m₀ := hrun.invariant (start_inv m₀ n) fun h _ hstep => step_inv h hstep
  funext key
  cases hlock : s.locks (shardIndex key) with
  | none => exact (h.quiet key hlock).symm
  | some t =>
    obtain ⟨c, hc, -⟩ := h.holder hlock
    rw [hdone t] at hc
    cases hc

/-- A rename takes its number first, but a put of another key is submitted before it. -/
def renameAndPut : List Action :=
  [.begin 0 (.rename [1] [2] false), .begin 1 (.put [3] [9])] ++ List.replicate 3 (.proceed 0) ++
    List.replicate 5 (.proceed 1) ++ List.replicate 6 (.proceed 0)

def oneRecord : Contents := Contents.put (fun _ => none) [1] [7] 1

theorem log_explains_records_rename :
    ∃ s, play step (fun _ _ => True) renameAndPut (start oneRecord 2) = some s ∧
      s.journal = [(.insert 0 [3] [9], 3), (.renameObject 0 [1] [2] false, 2)] ∧
      s.journal.foldl Contents.redo oneRecord = s.records := by
  have hplay : (play step (fun _ _ => True) renameAndPut (start oneRecord 2)).any (fun s => decide
      (s.journal = [(.insert 0 [3] [9], 3), (.renameObject 0 [1] [2] false, 2)])) = true := by
    decide +kernel
  obtain ⟨s, hs, hjournal⟩ := (Option.any_eq_true _ _).mp hplay
  have hdone : ∀ t, s.calls t = none := by
    intro t
    have hcalls : (play step (fun _ _ => True) renameAndPut (start oneRecord 2)).bind
        (fun s => s.calls t) = none := by
      match t with
      | 0 => rfl
      | 1 => rfl
      | t + 2 => rfl
    rwa [hs] at hcalls
  exact ⟨s, hs, of_decide_eq_true hjournal, log_explains_records (run_of_play hs) hdone⟩

end Shared

end Holt.Commits
