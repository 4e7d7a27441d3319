import Holt.Walker.Walks

/-! The blobs that can be reached from a root: the crossings of one blob, and from there the
crossings of its children. -/

namespace Holt

open Holt.Lib

/-- The children of one node, in byte order. -/
def scanEdges (recur : Slot → Except Error (List BlobGuid)) :
    List (UInt8 × Except Error Slot) → Except Error (List BlobGuid)
  | [] => .ok []
  | (_, child) :: rest => do
    let slot ← child
    let here ← recur slot
    let more ← scanEdges recur rest
    pure (here ++ more)

/-- The children that a subtree crosses to. -/
def scanSubtree (F : Frame) : Nat → Slot → Except Error (List BlobGuid)
  | 0, _ => .error .diverged
  | fuel + 1, slot =>
    match F.resolveTyped slot with
    | .error e => .error e
    | .ok .emptyRoot | .ok (.leaf _) => .ok []
    | .ok (.pfx p) => scanSubtree F fuel p.child
    | .ok (.inner n) =>
      scanEdges (scanSubtree F fuel)
        (n.edges "walker::scan::scan_subtree: Node48 index out of range")
    | .ok (.blob b) =>
      if blobMaxInline < b.bytes.length then
        .error (.corrupt "walker::scan::scan_subtree: BlobNode prefix_len exceeds inline")
      else .ok [b.childBlobGuid]

def collectBlobChildrenFromFrame (F : Frame) : Except Error (List BlobGuid) :=
  scanSubtree F (F.numSlots + 1) F.rootSlot

inductive PinAccess
  | scan
  | silent

/-- The access decides what a pin counts and refreshes, none of which the manager here has. -/
def pinWithAccess (guid : BlobGuid) (_ : PinAccess) : WalkM Unit := pin guid

structure BlobTopologyEntry where
  guid : BlobGuid
  depth : Nat
  deriving DecidableEq, Repr

/-- Breadth first. `all` is what was found so far; `queue` is the part not scanned yet. -/
def collectBlobTopologyInner (silent : Bool) :
    Nat → List BlobTopologyEntry → List BlobTopologyEntry → WalkM (List BlobTopologyEntry)
  | _, all, [] => pure all
  | 0, _, _ :: _ => throw .diverged
  | fuel + 1, all, entry :: queue => do
    pinWithAccess entry.guid (if silent then .silent else .scan)
    let b ← pinned entry.guid
    let found ← lift (collectBlobChildrenFromFrame b.image)
    let children := found.map fun guid => ⟨guid, min (entry.depth + 1) (2 ^ 32 - 1)⟩
    collectBlobTopologyInner silent fuel (all ++ children) (queue ++ children)

def collectBlobTopology (silent : Bool) (fuel : Nat) (root : BlobGuid) :
    WalkM (List BlobTopologyEntry) :=
  collectBlobTopologyInner silent fuel [⟨root, 0⟩] [⟨root, 0⟩]

def collectBlobGuids (fuel : Nat) (root : BlobGuid) : WalkM (List BlobGuid) := do
  let entries ← collectBlobTopology false fuel root
  pure (entries.map (·.guid))

/-- A blob that a walk from `root` comes to. -/
inductive Engine.Reaches (e : Engine) (root : BlobGuid) : BlobGuid → Prop
  | root : e.Reaches root root
  | child {g c : BlobGuid} {b : CachedBlob Frame} {found : List BlobGuid} :
      e.Reaches root g → e.bm.view g = some b →
      collectBlobChildrenFromFrame b.image = .ok found → c ∈ found → e.Reaches root c

/-- From a root that is not there, nothing else is reached. -/
theorem Engine.Reaches.of_absent {e : Engine} {root g : BlobGuid} (h : e.Reaches root g)
    (habsent : e.bm.view root = none) : g = root := by
  induction h with
  | root => rfl
  | child _ hb _ _ ih =>
    rw [ih, habsent] at hb
    cases hb

section Walking

variable {root : BlobGuid} {supply : GuidSupply root} {r : Engine → Engine → Prop}

theorem Walking.collectBlobTopologyInner (h : Walking supply r) (silent : Bool) (fuel : Nat)
    (all queue : List BlobTopologyEntry) :
    Moves r (Holt.collectBlobTopologyInner silent fuel all queue) := by
  induction fuel generalizing all queue with
  | zero =>
    cases queue with
    | nil => exact h.pure _
    | cons entry queue => exact h.throw _
  | succ fuel ih =>
    cases queue with
    | nil => exact h.pure _
    | cons entry queue =>
      apply h.bind h.pin
      intro _
      apply h.bind h.pinned
      intro b
      apply h.bind (h.lift _)
      intro found
      exact ih _ _

theorem Walking.collectBlobGuids (h : Walking supply r) (fuel : Nat) (start : BlobGuid) :
    Moves r (Holt.collectBlobGuids fuel start) :=
  h.bind (h.collectBlobTopologyInner false fuel _ _) fun _ => h.pure _

end Walking

/-! ## The walk over a tree of blobs -/

section Tree

variable {e : Engine} {root g g' c : BlobGuid} {m n : Nat}

/-- A node of the blob `g` leads to the blob `c`. -/
def Engine.Crosses (e : Engine) (g c : BlobGuid) : Prop :=
  ∃ b found, e.bm.view g = some b ∧ collectBlobChildrenFromFrame b.image = .ok found ∧ c ∈ found

/-- A way of `n` crossings from the root. -/
inductive Engine.Crossings (e : Engine) (root : BlobGuid) : Nat → BlobGuid → Prop
  | root : e.Crossings root 0 root
  | step {n : Nat} {g c : BlobGuid} : e.Crossings root n g → e.Crosses g c →
      e.Crossings root (n + 1) c

/-- The blobs from `root` on are there and readable, no way leads back to where it came from, and
to each blob leads one edge. -/
structure Engine.BlobTree (e : Engine) (root : BlobGuid) : Prop where
  present : ∀ {n g}, e.Crossings root n g → g ∉ e.bm.pendingDeletes ∧
    ∃ b found, e.bm.view g = some b ∧ collectBlobChildrenFromFrame b.image = .ok found ∧
      found.Nodup
  acyclic : ∀ {n g}, e.Crossings root n g → ¬ Relation.TransGen e.Crosses g g
  parent : ∀ {m n g g' c}, e.Crossings root m g → e.Crossings root n g' → e.Crosses g c →
    e.Crosses g' c → g = g'

theorem Engine.Crossings.to_root (h : e.Crossings root n g) (hc : e.Crosses g c) :
    Relation.TransGen e.Crosses root c := by
  induction h generalizing c with
  | root => exact .single hc
  | step _ hg ih => exact (ih hg).tail hc

theorem Engine.BlobTree.root_ne (ht : e.BlobTree root) (h : e.Crossings root n g)
    (hc : e.Crosses g c) : c ≠ root := by
  rintro rfl
  exact ht.acyclic .root (h.to_root hc)

/-- How far a walk has come: `done` is scanned and `queue` is waiting. -/
structure Engine.Walked (e : Engine) (root : BlobGuid) (done queue : List BlobTopologyEntry) :
    Prop where
  nodup : ((done ++ queue).map (·.guid)).Nodup
  start : root ∈ (done ++ queue).map (·.guid)
  sound : ∀ x ∈ done ++ queue, ∃ n, e.Crossings root n x.guid ∧ x.depth = min n (2 ^ 32 - 1)
  origin : ∀ x ∈ done ++ queue, x.guid = root ∨ ∃ p ∈ done, e.Crosses p.guid x.guid
  closed : ∀ x ∈ done, ∀ c, e.Crosses x.guid c → c ∈ (done ++ queue).map (·.guid)

theorem Engine.Walked.scan {done queue : List BlobTopologyEntry} {x : BlobTopologyEntry}
    {b : CachedBlob Frame} {found : List BlobGuid} (ht : e.BlobTree root)
    (h : e.Walked root done (x :: queue)) (hb : e.bm.view x.guid = some b)
    (hfound : collectBlobChildrenFromFrame b.image = .ok found) (hnd : found.Nodup) :
    e.Walked root (done ++ [x])
      (queue ++ found.map fun guid => ⟨guid, min (x.depth + 1) (2 ^ 32 - 1)⟩) := by
  have hcross : ∀ c, e.Crosses x.guid c ↔ c ∈ found := by
    intro c
    refine ⟨?_, fun hc => ⟨b, found, hb, hfound, hc⟩⟩
    rintro ⟨b', found', hb', hfound', hc⟩
    cases hb.symm.trans hb'
    cases hfound.symm.trans hfound'
    exact hc
  have hx : x ∈ done ++ x :: queue := List.mem_append_right _ List.mem_cons_self
  obtain ⟨k, hk, hdepth⟩ := h.sound x hx
  set children := found.map fun guid =>
    (⟨guid, min (x.depth + 1) (2 ^ 32 - 1)⟩ : BlobTopologyEntry) with hchildren
  have hguids : children.map (·.guid) = found := by
    rw [hchildren, List.map_map]
    exact List.map_id _
  have hsplit : done ++ [x] ++ (queue ++ children) = done ++ x :: queue ++ children := by simp
  have hxdone : x.guid ∉ done.map (·.guid) := fun hm => by
    have hnd := h.nodup
    rw [List.map_append, List.nodup_append'] at hnd
    exact hnd.2.2 hm (List.mem_map_of_mem List.mem_cons_self)
  refine ⟨?_, ?_, ?_, ?_, ?_⟩ <;> rw [hsplit]
  · rw [List.map_append, hguids]
    refine List.nodup_append'.mpr ⟨h.nodup, hnd, fun c hold hc => ?_⟩
    obtain ⟨y, hy, rfl⟩ := List.mem_map.mp hold
    have hxy := (hcross y.guid).mpr hc
    -- who was found before is the root, or was found in a blob scanned before
    rcases h.origin y hy with hroot | ⟨p, hp, hpy⟩
    · exact ht.root_ne hk hxy hroot
    · obtain ⟨j, hj, -⟩ := h.sound p (List.mem_append_left _ hp)
      exact hxdone (ht.parent hj hk hpy hxy ▸ List.mem_map_of_mem hp)
  · rw [List.map_append]
    exact List.mem_append_left _ h.start
  · intro y hy
    rcases List.mem_append.mp hy with hy | hy
    · exact h.sound y hy
    · obtain ⟨c, hc, rfl⟩ := List.mem_map.mp hy
      exact ⟨k + 1, hk.step ((hcross c).mpr hc), by simp only [hdepth]; omega⟩
  · intro y hy
    rcases List.mem_append.mp hy with hy | hy
    · refine (h.origin y hy).imp id ?_
      rintro ⟨p, hp, hpy⟩
      exact ⟨p, List.mem_append_left _ hp, hpy⟩
    · obtain ⟨c, hc, rfl⟩ := List.mem_map.mp hy
      exact .inr ⟨x, by simp, (hcross c).mpr hc⟩
  · intro y hy c hc
    rw [List.map_append, hguids]
    rcases List.mem_append.mp hy with hy | hy
    · exact List.mem_append_left _ (h.closed y hy c hc)
    · cases List.mem_singleton.mp hy
      exact List.mem_append_right _ ((hcross c).mp hc)

end Tree

/-! ## A long row of blobs -/

section Row

variable {n k g c : Nat}

end Row

end Holt
