import Holt.Tree.Replay

/-! Histories of writes on one tree, and what their log says about the records. -/

namespace Holt

open Holt.Lib Holt.Reader

inductive Mutation
  | put (key value : List UInt8)
  | putIfAbsent (key value : List UInt8)
  | compareAndPut (key : List UInt8) (expected : Nat) (value : List UInt8)
  | delete (key : List UInt8)
  | deleteIfVersion (key : List UInt8) (expected : Nat)
  | rename (src dst : List UInt8) (force : Bool)
  deriving DecidableEq, Repr

section

variable {root : BlobGuid} (supply : GuidSupply root)

/-- Whether the call wrote. -/
def Tree.mutate : Mutation → TreeM Bool
  | .put key value => InsertOutcome.mutated <$> putInnerConditional supply key value .always
  | .putIfAbsent key value => Holt.putIfAbsent supply key value
  | .compareAndPut key expected value => Holt.compareAndPut supply key expected value
  | .delete key => Holt.delete root key
  | .deleteIfVersion key expected => Holt.deleteIfVersion root key expected
  | .rename src dst force => (fun _ => true) <$> Holt.rename supply src dst force

/-- A rename that finds no source or a taken target is an answer like any other. -/
def Tree.attempt (c : Mutation) : TreeM Unit :=
  tryCatch ((fun _ => ()) <$> Tree.mutate supply c) fun err =>
    if err = .notFound ∨ err = .dstExists then pure () else throw err

def Tree.history : List Mutation → TreeM Unit
  | [] => pure ()
  | c :: cs => do
    Tree.attempt supply c
    Tree.history cs

end

/-! ## Logs that tell what happened -/

/-- A rename is logged when it happened. -/
def WalOp.Happened (m : Contents) : WalOp → Prop
  | .renameObject _ src dst force =>
    (m src).isSome = true ∧ src ≠ dst ∧ (force = true ∨ (m dst).isSome = false)
  | _ => True

def Tells : Contents → List (WalOp × Nat) → Prop
  | _, [] => True
  | m, e :: log => e.1.Happened m ∧ Tells (m.redo e) log

theorem Tells.append {m : Contents} {log new : List (WalOp × Nat)} (h : Tells m log)
    (hn : Tells (log.foldl Contents.redo m) new) : Tells m (log ++ new) := by
  induction log generalizing m with
  | nil => exact hn
  | cons e log ih => exact ⟨h.1, ih h.2 hn⟩

/-- The log entries as a replay is called with them. -/
def logOps (log : List (Nat × WalOp)) : List (WalOp × Nat) := log.map Prod.swap

section Live

variable {root : BlobGuid} {supply : GuidSupply root} {T : Tree} {m : Contents}

/-- One call: its log entries are what it did to the records. -/
structure Tree.Stepped (supply : GuidSupply root) (T : Tree) (m : Contents) (T' : Tree)
    (new : List (Nat × WalOp)) : Prop where
  logged : T.Logged T' new
  showing : T'.Shows supply ((logOps new).foldl Contents.redo m)
  tells : Tells m (logOps new)
  seq : T'.nextSeq = T.nextSeq + 1
  stamped : ∀ e ∈ new, e.1 = T.nextSeq

theorem putInnerConditional_logged (key value : List UInt8) (condition : InsertCondition) :
    Sat (putInnerConditional supply key value condition) T
      (fun out T' => T.Logged T'
        (if out.mutated then [(T.nextSeq, .insert T.treeId key value)] else []))
      (fun _ _ => True) := by
  unfold putInnerConditional allocSeq
  simp only [sat_bind, sat_get, sat_set, sat_pure]
  refine (onEngine_sat (T := { T with nextSeq := T.nextSeq + 1 }) (sat_true _ _)).mono ?_
    fun _ _ _ => trivial
  rintro out _ ⟨e, rfl, -⟩
  exact publish_logged root T.nextSeq _ out.rootDirty out.mutated _

theorem deleteInnerConditional_logged (key : List UInt8) (condition : EraseCondition) :
    Sat (deleteInnerConditional root key condition) T
      (fun out T' => T.Logged T' (if out.mutated then [(T.nextSeq, .erase T.treeId key)] else []))
      (fun _ _ => True) := by
  unfold deleteInnerConditional allocSeq
  simp only [sat_bind, sat_get, sat_set, sat_pure]
  refine (onEngine_sat (T := { T with nextSeq := T.nextSeq + 1 }) (sat_true _ _)).mono ?_
    fun _ _ _ => trivial
  rintro out _ ⟨e, rfl, -⟩
  exact publish_logged root T.nextSeq _ _ out.mutated _

theorem putInnerConditional_stepped (h : T.Shows supply m) (key value : List UInt8)
    (condition : InsertCondition) :
    Sat (putInnerConditional supply key value condition) T
      (fun _ T' => ∃ new, T.Stepped supply m T' new) (fun er _ => er.Hard) := by
  apply ((putInnerConditional_sat h key value condition).and
    (putInnerConditional_logged key value condition)).mono
  · rintro out T' ⟨⟨-, hm, hseq⟩, hlog⟩
    refine ⟨_, hlog, ?_, ?_, hseq, ?_⟩
    · cases hmut : out.mutated <;> rw [hmut] at hm <;> exact hm
    · cases out.mutated
      · trivial
      · exact ⟨trivial, trivial⟩
    · cases out.mutated <;> simp
  · rintro er _ ⟨he, -⟩
    exact he

theorem deleteInnerConditional_stepped (h : T.Shows supply m) (key : List UInt8)
    (condition : EraseCondition) :
    Sat (deleteInnerConditional root key condition) T
      (fun _ T' => ∃ new, T.Stepped supply m T' new) (fun er _ => er.Hard) := by
  apply ((deleteInnerConditional_sat h key condition).and
    (deleteInnerConditional_logged key condition)).mono
  · rintro out T' ⟨⟨-, hm, hseq⟩, hlog⟩
    refine ⟨_, hlog, ?_, ?_, hseq, ?_⟩
    · cases hmut : out.mutated <;> rw [hmut] at hm <;> exact hm
    · cases out.mutated
      · trivial
      · exact ⟨trivial, trivial⟩
    · cases out.mutated <;> simp
  · rintro er _ ⟨he, -⟩
    exact he

/-- A call that only looked took a sequence number. -/
theorem Tree.Stepped.looked {e : Engine} (h : e.Shows supply m) :
    T.Stepped supply m { T with engine := e, nextSeq := T.nextSeq + 1 } [] :=
  ⟨⟨rfl, (Tree.Logged.nil T).2⟩, h, trivial, rfl, fun _ he => absurd he List.not_mem_nil⟩

/-- A rename logs nothing or itself. -/
theorem rename_logs (h : T.Shows supply m) (src dst : List UInt8) (force : Bool) :
    Sat (rename supply src dst force) T
      (fun _ T' => ∃ new, T.Stepped supply m T' new ∧
        ∀ e ∈ new, e.2 = .renameObject T.treeId src dst force)
      (fun er T' => er.Hard ∨ T.Stepped supply m T' []) := by
  have hread : ∀ F hit v, Frame.bytesAt F hit.offset hit.len = some v →
      (readRecord F hit).1 = Prod.fst (v, hit.seq) := by
    intro F hit v hv
    rw [readRecord, hv, Option.getD_some]
  unfold rename allocSeq
  simp only [sat_bind, sat_get, sat_set, sat_pure]
  have hsrc : Sat _ T.engine _ fun _ _ => False := Engine.Shows.lookup h src hread
  refine (onEngine_sat (T := { T with nextSeq := T.nextSeq + 1 }) hsrc).mono ?_
    fun _ _ he => he.elim fun _ h => h.2.elim
  rintro found _ ⟨e₁, rfl, rfl, h₁⟩
  cases hr : m src with
  | none => exact .throw (.inr (.looked h₁))
  | some r =>
    simp only [Option.map_some]
    split
    · exact .pure ⟨[], .looked h₁, fun _ he => absurd he List.not_mem_nil⟩
    rename_i hne
    have htaken : Sat (bif force then pure false else Option.isSome <$>
        onEngine (lookupMultiWith root (fun _ _ => ()) (.user dst) 1))
        { T with engine := e₁, nextSeq := T.nextSeq + 1 }
        (fun taken T' => taken = (!force && (m dst).isSome) ∧
          ∃ e, T' = { T with engine := e, nextSeq := T.nextSeq + 1 } ∧ e.Shows supply m)
        (fun er T' => er.Hard ∨ T.Stepped supply m T' []) := by
      cases force with
      | true => exact .pure ⟨rfl, e₁, rfl, h₁⟩
      | false =>
        have hdst : Sat _ e₁ _ fun _ _ => False :=
          h₁.lookup dst (f := fun _ => ()) fun _ _ _ _ => rfl
        rw [cond_false, sat_map]
        refine (onEngine_sat (T := { T with engine := e₁, nextSeq := T.nextSeq + 1 }) hdst).mono ?_
          fun _ _ he => he.elim fun _ h => h.2.elim
        rintro taken _ ⟨e₂, rfl, rfl, h₂⟩
        exact ⟨Option.isSome_map, e₂, rfl, h₂⟩
    rw [sat_bind]
    refine htaken.mono ?_ fun _ _ he => he
    rintro taken _ ⟨htaken, e₂, rfl, h₂⟩
    split
    · exact .throw (.inr (.looked h₂))
    rename_i hfree
    rw [htaken] at hfree
    have herase : Sat _ e₂ _ fun _ _ => False := h₂.erase src T.nextSeq .always
    rw [sat_bind]
    refine (onEngine_sat (T := { T with engine := e₂, nextSeq := T.nextSeq + 1 }) herase).mono ?_
      fun _ _ he => he.elim fun _ h => h.2.elim
    rintro eraseOut _ ⟨e₃, rfl, hout, h₃⟩
    have hgone : eraseOut.mutated = true := by
      rw [hout, EraseCondition.holds, Contents.version, hr]
      rfl
    rw [hgone, if_pos rfl] at h₃
    rw [sat_bind]
    refine (onEngine_sat (T := { T with engine := e₃, nextSeq := T.nextSeq + 1 })
      (h₃.insert dst r.1 T.nextSeq .always)).mono ?_
      fun _ _ he => .inl (he.elim fun _ h => h.2.hard)
    rintro insertOut _ ⟨e₄, rfl, hout', h₄⟩
    have hput : insertOut.mutated = true := hout'
    rw [hput, if_pos rfl] at h₄
    simp only [sat_bind, sat_get]
    have hT : Tree.Shows supply { T with engine := e₄, nextSeq := T.nextSeq + 1 } _ := h₄
    apply ((publish_sat hT T.nextSeq (.renameObject T.treeId src dst force) _ true).and
      (publish_logged root T.nextSeq _ _ true _)).mono
    · rintro _ T' ⟨⟨hshow, hseq⟩, hlog⟩
      refine ⟨_, ⟨hlog, ?_, ⟨⟨?_, hne, ?_⟩, trivial⟩, hseq, by simp⟩, by simp⟩
      · simpa only [logOps, if_true, List.map_cons, List.map_nil, Prod.swap_prod_mk,
          List.foldl_cons, List.foldl_nil, Contents.redo, hr, if_neg hfree] using hshow
      · rw [hr]
        rfl
      · simpa [or_iff_not_imp_left] using hfree
    · rintro er _ ⟨he, -⟩
      exact .inl he

theorem rename_stepped (h : T.Shows supply m) (src dst : List UInt8) (force : Bool) :
    Sat (rename supply src dst force) T (fun _ T' => ∃ new, T.Stepped supply m T' new)
      (fun er T' => er.Hard ∨ T.Stepped supply m T' []) := by
  apply (rename_logs h src dst force).mono
  · rintro _ T' ⟨new, hstep, -⟩
    exact ⟨new, hstep⟩
  · exact fun _ _ he => he

theorem Tree.mutate_stepped (h : T.Shows supply m) (c : Mutation) :
    Sat (Tree.mutate supply c) T (fun _ T' => ∃ new, T.Stepped supply m T' new)
      (fun er T' => er.Hard ∨ T.Stepped supply m T' []) := by
  have hput := fun key value condition =>
    (putInnerConditional_stepped h key value condition).mono (fun _ _ h => h)
      fun er T' he => show er.Hard ∨ T.Stepped supply m T' [] from .inl he
  have hdelete := fun key condition =>
    (deleteInnerConditional_stepped h key condition).mono (fun _ _ h => h)
      fun er T' he => show er.Hard ∨ T.Stepped supply m T' [] from .inl he
  cases c with
  | put key value => exact (sat_map ..).mpr (hput key value .always)
  | putIfAbsent key value => exact (sat_map ..).mpr (hput key value .ifAbsent)
  | compareAndPut key expected value =>
    exact (sat_map ..).mpr (hput key value (.ifVersion expected))
  | delete key => exact (sat_map ..).mpr (hdelete key .always)
  | deleteIfVersion key expected => exact (sat_map ..).mpr (hdelete key (.ifVersion expected))
  | rename src dst force => exact (sat_map ..).mpr (rename_stepped h src dst force)

theorem Tree.attempt_stepped (h : T.Shows supply m) (c : Mutation) :
    Sat (Tree.attempt supply c) T (fun _ T' => ∃ new, T.Stepped supply m T' new)
      (fun _ _ => True) := by
  rw [Tree.attempt, sat_tryCatch, sat_map]
  apply (Tree.mutate_stepped h c).mono
  · intro _ _ h'
    exact h'
  · intro er T' he
    split
    · rename_i hsoft
      rcases he with hhard | hstep
      · exact absurd hsoft (not_or.mpr ⟨hhard.2.1, hhard.2.2⟩)
      · exact .pure ⟨[], hstep⟩
    · exact .throw trivial

/-- A history: what it put into the log is what it did to the records. -/
structure Tree.Lived (supply : GuidSupply root) (T : Tree) (m : Contents) (T' : Tree)
    (new : List (Nat × WalOp)) : Prop where
  logged : T.Logged T' new
  showing : T'.Shows supply ((logOps new).foldl Contents.redo m)
  tells : Tells m (logOps new)

theorem Tree.history_lived (h : T.Shows supply m) (cs : List Mutation) :
    Sat (Tree.history supply cs) T (fun _ T' => ∃ new, T.Lived supply m T' new)
      (fun _ _ => True) := by
  induction cs generalizing T m with
  | nil => exact .pure ⟨[], .nil T, h, trivial⟩
  | cons c cs ih =>
    refine (Tree.attempt_stepped h c).bind ?_ fun _ _ he => he
    rintro _ T₁ ⟨new, hstep⟩
    apply (ih hstep.showing).mono
    · rintro _ T₂ ⟨new', hlived⟩
      have hops : logOps (new ++ new') = logOps new ++ logOps new' := List.map_append
      refine ⟨new ++ new', ⟨hlived.logged.1.trans hstep.logged.1, ?_⟩, ?_, ?_⟩
      · rw [hlived.logged.2, hstep.logged.2]
        cases T.journal <;> simp
      · rw [hops, List.foldl_append]
        exact hlived.showing
      · rw [hops]
        exact hstep.tells.append hlived.tells
    · intro _ _ _
      trivial

/-- The log of a tree, from its opening on, says what its records are. -/
theorem history_explained (supply : GuidSupply root) (calls : List Mutation) :
    ∃ T, openTree root true false = .ok T ∧ Sat (Tree.history supply calls) T
      (fun _ T' => ∃ log, T'.journal = some log ∧ Tells (fun _ => none) (logOps log) ∧
        T'.Shows supply ((logOps log).foldl Contents.redo fun _ => none)) fun _ _ => True := by
  obtain ⟨T, hT, hshows, -, hj⟩ := openTree_shows supply true false
  refine ⟨T, hT, (Tree.history_lived hshows calls).mono ?_ fun _ _ h => h⟩
  rintro _ T' ⟨new, hlived⟩
  exact ⟨new, by simp [hlived.logged.2, hj], hlived.tells, hlived.showing⟩

end Live

/-! ## Redoing renames -/

def WalOp.keys : WalOp → List (List UInt8)
  | .insert _ key _ => [key]
  | .erase _ key => [key]
  | .renameObject _ src dst _ => [src, dst]
  | .batch _ => []

theorem Contents.redo_of_not_mem (m : Contents) {e : WalOp × Nat} {key : List UInt8}
    (h : key ∉ e.1.keys) : m.redo e key = m key := by
  obtain ⟨op, seq⟩ := e
  cases op with
  | insert id k value => exact put_of_ne m value seq (by simpa [WalOp.keys] using h)
  | erase id k => exact remove_of_ne m (by simpa [WalOp.keys] using h)
  | batch ops => rfl
  | renameObject id src dst force =>
    simp only [WalOp.keys, List.mem_cons, List.not_mem_nil, or_false, not_or] at h
    rw [redo]
    cases m src with
    | none => rfl
    | some r =>
      dsimp only
      split
      · rfl
      · rw [put_of_ne _ _ _ h.2, remove_of_ne _ h.1]

end Holt
