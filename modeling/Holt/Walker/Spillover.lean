import Holt.Art.Below
import Holt.Walker.Migrate

/-! Making room in a full blob: choose a subtree, copy it to a blob of its own and leave a
blob node in its place. -/

namespace Holt

open Holt.Lib Holt.Frame

def u32Max : Nat := 2 ^ 32 - 1

structure SubtreeFootprint where
  nodes : Nat
  bytes : Nat
  deriving DecidableEq, Repr

def SubtreeFootprint.saturatingAdd (a b : SubtreeFootprint) : SubtreeFootprint :=
  ⟨min (a.nodes + b.nodes) u32Max, min (a.bytes + b.bytes) u32Max⟩

inductive VictimEdgeKind
  | prefixEdge
  | inner (ntype : NodeType)
  deriving DecidableEq, Repr

structure Victim where
  parentSlot : Slot
  kind : VictimEdgeKind
  byte : UInt8
  victimSlot : Slot
  viaHeaderRoot : Bool
  deriving DecidableEq, Repr

inductive BoundaryQuality
  | arbitrary
  | pathComponent
  deriving DecidableEq, Repr

structure VictimCandidate where
  victim : Victim
  footprint : SubtreeFootprint
  boundary : BoundaryQuality
  boundaryDepth : Nat
  deriving DecidableEq, Repr

/-! ## Scoring -/

def spilloverDataCapacity : Nat := pageSize - dataAreaStart
def spilloverTargetChildBytes : Nat := spilloverDataCapacity * 70 / 100
def spilloverMinChildBytes : Nat := spilloverDataCapacity * 35 / 100

def absDiff (a b : Nat) : Nat := (a - b) + (b - a)

def candidateTie (candidate current : VictimCandidate) (candidateScore currentScore : Nat) :
    Bool :=
  if candidateScore ≠ currentScore then candidateScore < currentScore
  else if candidate.boundary ≠ current.boundary then candidate.boundary = .pathComponent
  else if candidate.boundaryDepth ≠ current.boundaryDepth then
    candidate.boundaryDepth < current.boundaryDepth
  else current.footprint.nodes < candidate.footprint.nodes

def candidateTieInBand (candidate current : VictimCandidate)
    (candidateScore currentScore : Nat) : Bool :=
  if candidate.boundary ≠ current.boundary then candidate.boundary = .pathComponent
  else candidateTie candidate current candidateScore currentScore

def candidateIsBetter (candidate current : VictimCandidate) : Bool :=
  let c := candidate.footprint.bytes
  let b := current.footprint.bytes
  let target := spilloverTargetChildBytes
  let min := spilloverMinChildBytes
  let cInBand : Bool := min ≤ c ∧ c ≤ target
  let bInBand : Bool := min ≤ b ∧ b ≤ target
  if cInBand ≠ bInBand then cInBand
  else if cInBand then
    candidateTieInBand candidate current (absDiff c target) (absDiff b target)
  else if c < min ∧ b < min then candidateTie candidate current b c
  else if target < c ∧ target < b then candidateTie candidate current c b
  else candidateTie candidate current (absDiff c target) (absDiff b target)

def boundaryQualityForByte (byte : UInt8) : BoundaryQuality :=
  if byte = 47 then .pathComponent else .arbitrary

def boundaryQualityForPrefix (pfx : List UInt8) : BoundaryQuality :=
  match pfx.getLast? with
  | some byte => boundaryQualityForByte byte
  | none => .arbitrary

/-! ## Choosing a victim -/

def addFootprints (recur : Slot → Except Error SubtreeFootprint) :
    List Slot → SubtreeFootprint → Except Error SubtreeFootprint
  | [], out => .ok out
  | c :: cs, out =>
    match recur c with
    | .error e => .error e
    | .ok fp => addFootprints recur cs (out.saturatingAdd fp)

def subtreeFootprint (F : Frame) : Nat → Slot → Except Error SubtreeFootprint
  | 0, _ => .error .diverged
  | fuel + 1, root =>
    match F.ntypeOf root with
    | .error e => .error e
    | .ok .invalid => .error (.corrupt "subtree_footprint: Invalid")
    | .ok ntype =>
      let out : SubtreeFootprint := ⟨1, sizeOfNode ntype⟩
      match F.bodyOfSlot root with
      | none => .error (.corrupt "subtree_footprint: body resolution failed")
      | some (.leaf _) =>
        (readLeafKeyRef F root).map fun (key, leaf) =>
          { out with bytes := min (out.bytes + leafExtentSize key.length leaf.valueSize) u32Max }
      | some .emptyRoot => .ok out
      | some (.blob _) => .ok out
      | some (.pfx p) => addFootprints (subtreeFootprint F fuel) [p.child] out
      | some (.inner n) => addFootprints (subtreeFootprint F fuel) n.childSlots out

/-- `recur` is the search below the edge; it is entered when the child is larger than a child
blob should be. -/
def visitChildEdge (F : Frame)
    (recur : Slot → Nat → Option VictimCandidate → Except Error (Option VictimCandidate))
    (victim : Victim) (boundary : BoundaryQuality) (boundaryDepth : Nat)
    (best : Option VictimCandidate) : Except Error (Option VictimCandidate) :=
  match F.ntypeOf victim.victimSlot with
  | .error e => .error e
  | .ok .invalid => .error (.corrupt "visit_child_edge: Invalid child")
  | .ok .blob => .ok best
  | .ok _ =>
    match subtreeFootprint F (F.numSlots + 1) victim.victimSlot with
    | .error e => .error e
    | .ok footprint =>
      let candidate : VictimCandidate := ⟨victim, footprint, boundary, boundaryDepth⟩
      let best :=
        match best with
        | none => some candidate
        | some current =>
          if candidateIsBetter candidate current then some candidate else some current
      if spilloverTargetChildBytes < footprint.bytes then
        recur victim.victimSlot boundaryDepth best
      else .ok best

def visitEdges (F : Frame)
    (recur : Slot → Nat → Option VictimCandidate → Except Error (Option VictimCandidate))
    (current : Slot) (ntype : NodeType) (childDepth : Nat) :
    List (UInt8 × Except Error Slot) → Option VictimCandidate →
      Except Error (Option VictimCandidate)
  | [], best => .ok best
  | (_, .error e) :: _, _ => .error e
  | (byte, .ok child) :: rest, best =>
    match visitChildEdge F recur ⟨current, .inner ntype, byte, child, false⟩
      (boundaryQualityForByte byte) childDepth best with
    | .error e => .error e
    | .ok best => visitEdges F recur current ntype childDepth rest best

def collectVictimCandidates (F : Frame) :
    Nat → Slot → Nat → Option VictimCandidate → Except Error (Option VictimCandidate)
  | 0, _, _, _ => .error .diverged
  | fuel + 1, current, depth, best =>
    match F.ntypeOf current with
    | .error e => .error e
    | .ok .invalid => .error (.corrupt "collect_victim_candidates: Invalid")
    | .ok .leaf => .ok best
    | .ok .emptyRoot => .ok best
    | .ok .blob => .ok best
    | .ok .prefixNode =>
      match readPrefix F current with
      | .error e => .error e
      | .ok p =>
        visitChildEdge F (collectVictimCandidates F fuel)
          ⟨current, .prefixEdge, 0, p.child, false⟩
          (boundaryQualityForPrefix p.bytes) (depth + p.bytes.length) best
    | .ok ntype =>
      match readInner F current ntype "collect_victim_candidates" with
      | .error e => .error e
      | .ok n =>
        visitEdges F (collectVictimCandidates F fuel) current ntype (depth + 1)
          (n.edges "collect_victim_candidates: Node48 index out of range") best

def pickVictimSubtree (F : Frame) (startSlot : Slot) : Except Error Victim :=
  match collectVictimCandidates F (F.numSlots + 1) startSlot 0 none with
  | .error e => .error e
  | .ok (some candidate) => .ok candidate.victim
  | .ok none => .error (.notYetImplemented "spillover: no non-Blob subtree to migrate")

/-! ## Moving it -/

def freeEach (recur : Slot → FrameM Unit) : List Slot → FrameM Unit
  | [] => pure ()
  | c :: cs => do
    recur c
    freeEach recur cs

def freeSubtree : Nat → Slot → FrameM Unit
  | 0, _ => throw .diverged
  | fuel + 1, root => do
    let F ← get
    let _ ← lift (F.ntypeOf root)
    match F.bodyOfSlot root with
    | none => throw (.corrupt "free_subtree: body resolution failed")
    | some (.pfx p) =>
      freeEach (freeSubtree fuel) [p.child]
      freeNode root
    | some (.inner n) =>
      freeEach (freeSubtree fuel) n.childSlots
      freeNode root
    | some _ => freeNode root

/-- Point the victim's parent at `newChild`. -/
def rewire (victim : Victim) (newChild : Slot) : FrameM Unit :=
  match victim.kind with
  | .prefixEdge => setPrefixChild victim.parentSlot newChild
  | .inner ntype => innerUpdateChild victim.parentSlot ntype victim.byte newChild

/-- What happens to the full blob once the victim has its own one. -/
def replaceVictim (rootSlot : Slot) (victim : Victim) (newGuid : BlobGuid) : FrameM Slot := do
  let F ← get
  freeSubtree (F.numSlots + 1) victim.victimSlot
  let bnSlot ← newNode (.blob ⟨[], newGuid⟩)
  if victim.parentSlot = rootSlot ∧ victim.viaHeaderRoot then
    modify fun F => { F with rootSlot := bnSlot }
    pure bnSlot
  else
    rewire victim bnSlot
    pure bnSlot

/-! ## The victim is an edge of the tree -/

/-- The edge `v` leads from a node of the tree at slot `s` to the subtree `sub`. -/
inductive VictimAt (F : Frame) : Art → Slot → Victim → List UInt8 → Art → (Art → Art) → Prop
  | pfx {bytes : List UInt8} {child : Art} {s c : Slot} (hn : F.NodeAt s (.pfx ⟨bytes, c⟩)) :
      VictimAt F (.pfx bytes child) s ⟨s, .prefixEdge, 0, c, false⟩ (bytes ++ []) child
        fun x => .pfx bytes x
  | inner {has : UInt8 → Bool} {child : UInt8 → Art} {n : Inner} {s c : Slot} {b : UInt8}
      (hn : F.NodeAt s (.inner n)) (hb : has b = true) (hf : n.findChild b = some c) :
      VictimAt F (.inner has child) s ⟨s, .inner n.ntype, b, c, false⟩ ([b] ++ []) (child b)
        fun x => .inner has (Function.update child b x)
  | inPfx {bytes rel : List UInt8} {child sub : Art} {s c : Slot} {v : Victim} {plug : Art → Art}
      (hn : F.NodeAt s (.pfx ⟨bytes, c⟩)) (h : VictimAt F child c v rel sub plug) :
      VictimAt F (.pfx bytes child) s v (bytes ++ rel) sub fun x => .pfx bytes (plug x)
  | inInner {has : UInt8 → Bool} {child : UInt8 → Art} {n : Inner} {s c : Slot} {b : UInt8}
      {rel : List UInt8} {sub : Art} {v : Victim} {plug : Art → Art} (hn : F.NodeAt s (.inner n))
      (hb : has b = true) (hf : n.findChild b = some c)
      (h : VictimAt F (child b) c v rel sub plug) :
      VictimAt F (.inner has child) s v ([b] ++ rel) sub
        fun x => .inner has (Function.update child b (plug x))

variable {plug : Art → Art} {rel : List UInt8} {s : Slot} {sub t : Art} {v : Victim}

theorem VictimAt.hangs {F : Frame} (h : VictimAt F t s v rel sub plug) :
    Art.Below t rel sub plug := by
  induction h with
  | pfx hn => exact .pfx (.here _)
  | inner hn hb hf => exact .inner hb (.here _)
  | inPfx hn _ ih => exact .pfx ih
  | inInner hn hb hf _ ih => exact .inner hb ih

theorem VictimAt.path_ne_nil {F : Frame} {π : List UInt8} (h : VictimAt F t s v rel sub plug)
    (hw : t.Wf π) : rel ≠ [] := by
  cases h with
  | pfx hn => simpa using hw.1
  | inPfx hn _ => simp [hw.1]
  | inner hn hb hf => simp
  | inInner hn hb hf _ => simp

theorem VictimAt.via_parent {F : Frame} (h : VictimAt F t s v rel sub plug) :
    v.viaHeaderRoot = false := by
  induction h with
  | inPfx _ _ ih => exact ih
  | inInner _ _ _ _ ih => exact ih
  | _ => rfl

section Search

variable {F : Frame}

theorem addFootprints_ok {recur : Slot → Except Error SubtreeFootprint} {cs : List Slot}
    (h : ∀ c ∈ cs, ∃ r, recur c = .ok r) (out : SubtreeFootprint) :
    ∃ r, addFootprints recur cs out = .ok r := by
  induction cs generalizing out with
  | nil => exact ⟨out, rfl⟩
  | cons c cs ih =>
    obtain ⟨r, hr⟩ := h c List.mem_cons_self
    simp only [addFootprints, hr]
    exact ih (fun c' hc => h c' (List.mem_cons_of_mem _ hc)) _

theorem Frame.Kids.mem_childSlots {n : Inner} {has : UInt8 → Bool} {child : UInt8 → Art}
    {fps : UInt8 → Set Cell} (hk : F.Kids n has child fps) {c : Slot} (hc : c ∈ n.childSlots) :
    ∃ b, has b = true ∧ n.findChild b = some c := by
  obtain ⟨bs, -, hbs, hcs⟩ := Inner.childSlots_bytes hk.wf
  have hm : some c ∈ n.childSlots.map some := List.mem_map_of_mem hc
  rw [hcs, List.mem_map] at hm
  obtain ⟨b, hb, hf⟩ := hm
  exact ⟨b, by rw [← hk.has_eq, hf, Option.isSome_some], hf⟩

variable {P : Victim → Prop} {fp : Set Cell} {s : Slot} {t : Art}

theorem subtreeFootprint_ok {fuel : Nat} (hr : F.Rep t s fp) (hfuel : t.height < fuel) :
    ∃ r, subtreeFootprint F fuel s = .ok r := by
  induction t generalizing s fp fuel with
  | emptyRoot =>
    obtain ⟨m, rfl⟩ := succ_of_lt hfuel
    simp only [subtreeFootprint, hr.1.ntypeOf, Body.ntype, hr.1.bodyOfSlot]
    exact ⟨_, rfl⟩
  | leaf r =>
    obtain ⟨m, rfl⟩ := succ_of_lt hfuel
    obtain ⟨l, hn, hst, -⟩ := hr
    simp only [subtreeFootprint, hn.ntypeOf, Body.ntype, hn.bodyOfSlot, readLeafKeyRef,
      hst.leafKeyExtent, Except.map]
    exact ⟨_, rfl⟩
  | pfx bytes child ih =>
    obtain ⟨m, rfl⟩ := succ_of_lt hfuel
    obtain ⟨c, fpc, hn, hchild, -⟩ := hr
    simp only [Art.height] at hfuel
    simp only [subtreeFootprint, hn.ntypeOf, Body.ntype, hn.bodyOfSlot]
    refine addFootprints_ok (fun c' hc => ?_) _
    rw [List.mem_singleton.mp hc]
    exact ih hchild (by omega)
  | inner has child ih =>
    obtain ⟨m, rfl⟩ := succ_of_lt hfuel
    obtain ⟨n, fps, hn, hk, -⟩ := rep_inner_iff.mp hr
    have hadd : ∀ out, ∃ r, addFootprints (subtreeFootprint F m) n.childSlots out = .ok r := by
      refine addFootprints_ok fun c hc => ?_
      obtain ⟨b, hb, hf⟩ := hk.mem_childSlots hc
      have hlt := Art.height_child child hb
      exact ih b (hk.rep b c hf) (by omega)
    simp only [subtreeFootprint, hn.ntypeOf, Body.ntype, hn.bodyOfSlot]
    cases n <;> exact hadd _
  | blob bytes guid =>
    obtain ⟨m, rfl⟩ := succ_of_lt hfuel
    simp only [subtreeFootprint, hr.1.ntypeOf, Body.ntype, hr.1.bodyOfSlot]
    exact ⟨_, rfl⟩

theorem Frame.Rep.isBlob_eq_false {b : Body} (hr : F.Rep t s fp) (hn : F.NodeAt s b)
    (hb : b.ntype ≠ .blob) : t.isBlob = false := by
  cases t with
  | blob bytes guid =>
    cases hn.bodyOfSlot.symm.trans hr.1.bodyOfSlot
    exact absurd rfl hb
  | _ => rfl

/-- A search that ends, and every candidate it keeps satisfies `P`. -/
def Finds (P : Victim → Prop) (res : Except Error (Option VictimCandidate)) : Prop :=
  ∃ best, res = .ok best ∧ ∀ c ∈ best, P c.victim

theorem visitChildEdge_finds
    {recur : Slot → Nat → Option VictimCandidate → Except Error (Option VictimCandidate)}
    {U : Set Cell} {victim : Victim} {best : Option VictimCandidate}
    (hr : F.Rep t victim.victimSlot fp) (ha : F.Alloc U) (hu : fp ⊆ U)
    (hP : t.isBlob = false → P victim) (hbest : ∀ c ∈ best, P c.victim)
    (hrec : ∀ d best, (∀ c ∈ best, P c.victim) → Finds P (recur victim.victimSlot d best))
    (q : BoundaryQuality) (d : Nat) : Finds P (visitChildEdge F recur victim q d best) := by
  obtain ⟨b, hn⟩ := hr.node
  obtain ⟨r, hfoot⟩ := subtreeFootprint_ok hr (hr.height_lt ha hu)
  have hnext : b.ntype ≠ .blob → ∀ candidate : VictimCandidate, candidate.victim = victim →
      ∀ c ∈ (match best with
        | none => some candidate
        | some current => if candidateIsBetter candidate current then some candidate
          else some current), P c.victim := by
    intro hnb candidate hc c hm
    have hP : P victim := hP (hr.isBlob_eq_false hn hnb)
    cases best with
    | none =>
      cases hm
      exact hc ▸ hP
    | some current =>
      dsimp only at hm
      split at hm
      · cases hm
        exact hc ▸ hP
      · cases hm
        exact hbest _ rfl
  simp only [visitChildEdge, hn.ntypeOf, hfoot]
  split
  · rename_i he
    cases he
  · rename_i he
    have hinv : b.ntype = .invalid := Except.ok.inj he
    exact absurd hinv (typed_iff.mp hn.1).2.2.2.1
  · exact ⟨best, rfl, hbest⟩
  · rename_i hnb he
    have hnb : b.ntype ≠ .blob := fun h => hnb ((Except.ok.inj he).symm.trans h)
    split
    · exact hrec _ _ (hnext hnb _ rfl)
    · exact ⟨_, rfl, hnext hnb _ rfl⟩

theorem visitEdges_finds
    {recur : Slot → Nat → Option VictimCandidate → Except Error (Option VictimCandidate)}
    {current : Slot} {ntype : NodeType} {d : Nat} {es : List (UInt8 × Slot)}
    {best : Option VictimCandidate} (hbest : ∀ c ∈ best, P c.victim)
    (hvisit : ∀ b c, (b, c) ∈ es → ∀ q best, (∀ c ∈ best, P c.victim) →
      Finds P (visitChildEdge F recur ⟨current, .inner ntype, b, c, false⟩ q d best)) :
    Finds P (visitEdges F recur current ntype d (es.map fun e => (e.1, .ok e.2)) best) := by
  induction es generalizing best with
  | nil => exact ⟨best, rfl, hbest⟩
  | cons e es ih =>
    obtain ⟨best', hb, hbest'⟩ := hvisit e.1 e.2 List.mem_cons_self
      (boundaryQualityForByte e.1) best hbest
    simp only [List.map_cons, visitEdges, hb]
    exact ih hbest' fun b c hm => hvisit b c (List.mem_cons_of_mem _ hm)

theorem collectVictimCandidates_finds {U : Set Cell} {fuel d : Nat}
    (best : Option VictimCandidate) (hr : F.Rep t s fp) (ha : F.Alloc U) (hu : fp ⊆ U)
    (hfuel : t.height < fuel)
    (hP : ∀ v rel sub plug, VictimAt F t s v rel sub plug → sub.isBlob = false → P v)
    (hbest : ∀ c ∈ best, P c.victim) : Finds P (collectVictimCandidates F fuel s d best) := by
  induction t generalizing s fp fuel d best with
  | emptyRoot =>
    obtain ⟨m, rfl⟩ := succ_of_lt hfuel
    simp only [collectVictimCandidates, hr.1.ntypeOf, Body.ntype]
    exact ⟨best, rfl, hbest⟩
  | leaf r =>
    obtain ⟨m, rfl⟩ := succ_of_lt hfuel
    obtain ⟨l, hn, -⟩ := hr
    simp only [collectVictimCandidates, hn.ntypeOf, Body.ntype]
    exact ⟨best, rfl, hbest⟩
  | pfx bytes child ih =>
    obtain ⟨m, rfl⟩ := succ_of_lt hfuel
    obtain ⟨c, fpc, hn, hchild, -, rfl⟩ := hr
    have huc : fpc ⊆ U := (Set.subset_insert ..).trans hu
    simp only [Art.height] at hfuel
    simp only [collectVictimCandidates, hn.ntypeOf, Body.ntype, readPrefix, hn.bodyOfSlot]
    refine visitChildEdge_finds hchild ha huc (hP _ _ _ _ (.pfx hn)) hbest
      (fun d best hb => ?_) _ _
    exact ih _ hchild huc (by omega) (fun v rel sub plug hv => hP v _ sub _ (.inPfx hn hv)) hb
  | inner has child ih =>
    obtain ⟨m, rfl⟩ := succ_of_lt hfuel
    obtain ⟨n, fps, hn, hk, -, rfl⟩ := rep_inner_iff.mp hr
    obtain ⟨es, hes, -, hmem⟩ := Inner.edges_spec hk.wf
      "collect_victim_candidates: Node48 index out of range"
    have hvisit : Finds P (visitEdges F (collectVictimCandidates F m) s n.ntype (d + 1)
        (n.edges "collect_victim_candidates: Node48 index out of range") best) := by
      rw [hes]
      refine visitEdges_finds hbest fun b c hm q best hb => ?_
      have hf := (hmem b c).mp hm
      have hhas : has b = true := by rw [← hk.has_eq, hf, Option.isSome_some]
      have hub : fps b ⊆ U := (Set.subset_iUnion fps b).trans ((Set.subset_insert ..).trans hu)
      have hlt := Art.height_child child hhas
      refine visitChildEdge_finds (hk.rep b c hf) ha hub (hP _ _ _ _ (.inner hn hhas hf)) hb
        (fun d best hb => ?_) _ _
      exact ih b _ (hk.rep b c hf) hub (by omega)
        (fun v rel sub plug hv => hP v _ sub _ (.inInner hn hhas hf hv)) hb
    have hread := readInner_eq hn "collect_victim_candidates"
    simp only [collectVictimCandidates, hn.ntypeOf, Body.ntype]
    cases n <;> simp only [Inner.ntype] at hread hvisit ⊢ <;> simpa only [hread] using hvisit
  | blob bytes guid =>
    obtain ⟨m, rfl⟩ := succ_of_lt hfuel
    simp only [collectVictimCandidates, hr.1.ntypeOf, Body.ntype]
    exact ⟨best, rfl, hbest⟩

/-- The search answers with an edge of the tree, or there is no subtree to move. -/
theorem pickVictimSubtree_spec {U : Set Cell} (hr : F.Rep t s fp) (ha : F.Alloc U) (hu : fp ⊆ U) :
    (∃ v rel sub plug, pickVictimSubtree F s = .ok v ∧ VictimAt F t s v rel sub plug ∧
      sub.isBlob = false) ∨
    pickVictimSubtree F s =
      .error (.notYetImplemented "spillover: no non-Blob subtree to migrate") := by
  obtain ⟨best, hb, hbest⟩ := collectVictimCandidates_finds
    (P := fun v => ∃ rel sub plug, VictimAt F t s v rel sub plug ∧ sub.isBlob = false) (d := 0)
    none hr ha hu (hr.height_lt ha hu) (fun v rel sub plug hv hb => ⟨rel, sub, plug, hv, hb⟩)
    (fun _ h => by cases h)
  unfold pickVictimSubtree
  rw [hb]
  cases best with
  | none => exact Or.inr rfl
  | some c =>
    obtain ⟨rel, sub, plug, hv, hnb⟩ := hbest c rfl
    exact Or.inl ⟨c.victim, rel, sub, plug, rfl, hv, hnb⟩

end Search

/-! ## Moving keeps the rest of the tree -/

section Move

variable {F : Frame} {U : Set Cell}

/-- Freeing the trees at `cs` one after another gives up their cells and no others. -/
theorem freeEach_sat {recur : Slot → FrameM Unit} {child : UInt8 → Art}
    {fps : UInt8 → Set Cell} {slotOf : UInt8 → Slot} {bs : List UInt8} (hnd : bs.Nodup)
    (hdis : ∀ b b', b ≠ b' → Disjoint (fps b) (fps b'))
    (hrep : ∀ b ∈ bs, F.Rep (child b) (slotOf b) (fps b)) (hu : ∀ b ∈ bs, fps b ⊆ U)
    (ha : F.Alloc U)
    (hrec : ∀ b ∈ bs, ∀ {F : Frame} {U : Set Cell}, F.Rep (child b) (slotOf b) (fps b) →
      fps b ⊆ U → F.Alloc U →
      Sat (recur (slotOf b)) F (fun _ F' => F.Frees F' U (fps b)) fun _ _ => False) :
    Sat (freeEach recur (bs.map slotOf)) F
      (fun _ F' => F.Frees F' U (⋃ b ∈ bs, fps b)) fun _ _ => False := by
  induction bs generalizing F U with
  | nil =>
    refine .pure ?_
    simpa using Frees.refl ha
  | cons b bs ih =>
    obtain ⟨hb, hnd⟩ := List.nodup_cons.mp hnd
    refine (hrec b List.mem_cons_self (hrep b List.mem_cons_self) (hu b List.mem_cons_self)
      ha).andThen fun _ F₁ h₁ => ?_
    have hkeep : ∀ b' ∈ bs, fps b' ⊆ U \ fps b := by
      intro b' hm x hx
      have hne : b' ≠ b := fun he => hb (he ▸ hm)
      exact ⟨hu b' (List.mem_cons_of_mem _ hm) hx, Set.disjoint_left.mp (hdis b' b hne) hx⟩
    refine (ih hnd
      (fun b' hm => (hrep b' (List.mem_cons_of_mem _ hm)).same h₁.kept.same (hkeep b' hm))
      hkeep h₁.kept.alloc fun b' hm => hrec b' (List.mem_cons_of_mem _ hm)).imp fun _ F₂ h₂ => ?_
    have hset : ⋃ b' ∈ b :: bs, fps b' = fps b ∪ ⋃ b' ∈ bs, fps b' := by
      ext x
      simp
    rw [hset]
    exact h₁.trans h₂ (Set.iUnion₂_subset hkeep)

/-- The children in the order they are freed in. -/
theorem Frame.Kids.childSlots {n : Inner} {has : UInt8 → Bool} {child : UInt8 → Art}
    {fps : UInt8 → Set Cell} (hk : F.Kids n has child fps) :
    ∃ (bs : List UInt8) (slotOf : UInt8 → Slot), bs.Nodup ∧ (∀ b, b ∈ bs ↔ has b = true) ∧
      n.childSlots = bs.map slotOf ∧ (∀ b ∈ bs, n.findChild b = some (slotOf b)) ∧
      ⋃ b ∈ bs, fps b = ⋃ b, fps b := by
  obtain ⟨bs, hnd, hbs, hcs⟩ := Inner.childSlots_bytes hk.wf
  have hhas : ∀ b, b ∈ bs ↔ has b = true := fun b => by rw [hbs, hk.has_eq]
  have hfind : ∀ b ∈ bs, n.findChild b = some ((n.findChild b).getD 0) := by
    intro b hm
    obtain ⟨c, hc⟩ := Option.isSome_iff_exists.mp ((hbs b).mp hm)
    simp [hc]
  refine ⟨bs, fun b => (n.findChild b).getD 0, hnd, hhas, ?_, hfind, ?_⟩
  · refine List.map_injective_iff.mpr (Option.some_injective _) ?_
    rw [hcs, List.map_map]
    exact List.map_congr_left fun b hm => hfind b hm
  · ext x
    simp only [Set.mem_iUnion]
    constructor
    · rintro ⟨b, -, hx⟩
      exact ⟨b, hx⟩
    · rintro ⟨b, hx⟩
      refine ⟨b, (hhas b).mpr ?_, hx⟩
      by_contra hb
      rw [hk.empty b (Bool.eq_false_iff.mpr hb)] at hx
      exact hx

variable {fp : Set Cell} {plug : Art → Art} {rel : List UInt8} {s : Slot} {sub t : Art} {v : Victim}

theorem freeSubtree_sat {fuel : Nat} (hr : F.Rep t s fp) (hu : fp ⊆ U) (ha : F.Alloc U)
    (hfuel : t.height < fuel) :
    Sat (freeSubtree fuel s) F (fun _ F' => F.Frees F' U fp) fun _ _ => False := by
  induction t generalizing F U s fp fuel with
  | emptyRoot =>
    obtain ⟨m, rfl⟩ := succ_of_lt hfuel
    obtain ⟨hn, rfl⟩ := hr
    simp only [freeSubtree, sat_bind, sat_get, hn.ntypeOf, lift_ok, sat_pure, hn.bodyOfSlot]
    exact freeNode_frees ha hn.1 (hu rfl) _
  | leaf r =>
    obtain ⟨m, rfl⟩ := succ_of_lt hfuel
    obtain ⟨l, hn, -, rfl⟩ := hr
    simp only [freeSubtree, sat_bind, sat_get, hn.ntypeOf, lift_ok, sat_pure, hn.bodyOfSlot]
    refine (freeNode_frees ha hn.1 (hu (Set.mem_insert ..)) _).imp
      fun _ F' h => h.widen (Set.singleton_subset_iff.mpr (Set.mem_insert ..)) ?_
    rintro x (hx | hx)
    · exact hx
    · exact absurd hx (slot_notMem_extentCells _ _ _)
  | pfx bytes child ih =>
    obtain ⟨m, rfl⟩ := succ_of_lt hfuel
    obtain ⟨c, fpc, hn, hchild, hsc, rfl⟩ := hr
    simp only [Art.height] at hfuel
    simp only [freeSubtree, sat_bind, sat_get, hn.ntypeOf, lift_ok, sat_pure, hn.bodyOfSlot,
      freeEach]
    refine (ih hchild ((Set.subset_insert ..).trans hu) ha (by omega)).imp fun _ F₁ h₁ => ?_
    have hs : .slot s ∈ U \ fpc := ⟨hu (Set.mem_insert ..), hsc⟩
    refine (freeNode_frees h₁.kept.alloc (hn.same h₁.kept.same hs).1 hs _).imp fun _ F₂ h₂ => ?_
    rw [← Set.union_singleton]
    exact h₁.trans h₂ (Set.singleton_subset_iff.mpr hs)
  | inner has child ih =>
    obtain ⟨m, rfl⟩ := succ_of_lt hfuel
    obtain ⟨n, fps, hn, hk, hsk, rfl⟩ := rep_inner_iff.mp hr
    obtain ⟨bs, slotOf, hnd, hbs, hslots, hfind, hall⟩ := hk.childSlots
    have hub : ∀ b ∈ bs, fps b ⊆ U := fun b _ =>
      (Set.subset_iUnion fps b).trans ((Set.subset_insert ..).trans hu)
    simp only [freeSubtree, sat_bind, sat_get, hn.ntypeOf, lift_ok, sat_pure, hn.bodyOfSlot]
    rw [hslots]
    refine (freeEach_sat hnd hk.disjoint (fun b hm => hk.rep b _ (hfind b hm)) hub ha
      fun b hm {F U} hrb hsb hab => ?_).imp fun _ F₁ h₁ => ?_
    · have hlt := Art.height_child child ((hbs b).mp hm)
      exact ih b hrb hsb hab (by omega)
    · rw [hall] at h₁
      have hs : .slot s ∈ U \ ⋃ b, fps b := ⟨hu (Set.mem_insert ..), hsk⟩
      refine (freeNode_frees h₁.kept.alloc (hn.same h₁.kept.same hs).1 hs _).imp fun _ F₂ h₂ => ?_
      rw [← Set.union_singleton]
      exact h₁.trans h₂ (Set.singleton_subset_iff.mpr hs)
  | blob bytes guid =>
    obtain ⟨m, rfl⟩ := succ_of_lt hfuel
    obtain ⟨hn, rfl⟩ := hr
    simp only [freeSubtree, sat_bind, sat_get, hn.ntypeOf, lift_ok, sat_pure, hn.bodyOfSlot]
    exact freeNode_frees ha hn.1 (hu rfl) _

/-- The cells around the victim, seen from the child it lies in. -/
theorem around_victim {R A B fpc fpv : Set Cell} (h : R ∪ A = B ∪ fpc) (hA : Disjoint R A)
    (hB : Disjoint B fpc) (hc : fpc ⊆ A) (hv : fpv ⊆ fpc) :
    R ∪ (A \ fpv) = B ∪ (fpc \ fpv) := by
  have h' := congrArg (· \ fpv) h
  simpa only [Set.union_sdiff_distrib, (hA.mono_right (hv.trans hc)).sdiff_eq_left,
    (hB.mono_right hv).sdiff_eq_left] using h'

/-- Once a tree `x` stands where the victim was cut out, linking it from the victim's parent puts
it into the whole tree. -/
theorem rewire_sat {R : Set Cell} (hv : VictimAt F t s v rel sub plug) (hr : F.Rep t s fp)
    (hd : Disjoint R fp) :
    ∃ fpv, F.Rep sub v.victimSlot fpv ∧ fpv ⊆ fp ∧ .slot v.parentSlot ∈ fp \ fpv ∧
      ∀ {F' : Frame} {x : Art} {c' : Slot} {fpx : Set Cell},
        Built F F' (R ∪ (fp \ fpv)) ∅ x c' fpx →
        Sat (rewire v c') F' (fun _ F'' => ∃ fp', Built F F'' R ∅ (plug x) s fp')
          fun _ _ => False := by
  induction hv generalizing R fp with
  | pfx hn =>
    obtain ⟨c₁, fpc, hn₁, hchild, hsc, rfl⟩ := hr
    cases hn.bodyOfSlot.symm.trans hn₁.bodyOfSlot
    obtain ⟨hsR, hRc⟩ := Set.disjoint_insert_right.mp hd
    refine ⟨fpc, hchild, Set.subset_insert .., ⟨Set.mem_insert .., hsc⟩,
      fun {F'} x c' fpx hb => ?_⟩
    rw [around_victim (by rw [Set.union_insert, Set.insert_union]) hd
      (Set.disjoint_insert_left.mpr ⟨hsc, hRc⟩) (Set.subset_insert ..) subset_rfl,
      Set.sdiff_self, Set.union_empty] at hb
    have hn' := hn.same hb.same (Set.mem_union_left _ (Set.mem_insert ..))
    refine (setPrefixChild_sat hn' hb.rep hsR hb.disjoint hb.alloc _).imp fun _ F'' h => ?_
    refine ⟨_, h.rep, Set.empty_subset _, h.disjoint, h.alloc, ?_⟩
    exact (hb.same.mono (Set.union_subset_union_left _ (Set.subset_insert ..))).trans h.same
  | @inner _ _ _ s _ b hn hb hf =>
    obtain ⟨n₁, fps, hn₁, hk, hsk, rfl⟩ := rep_inner_iff.mp hr
    cases hn.bodyOfSlot.symm.trans hn₁.bodyOfSlot
    have hsR := (Set.disjoint_insert_right.mp hd).1
    have hbk := (Set.subset_iUnion fps b).trans (Set.subset_insert (Cell.slot s) _)
    obtain ⟨hset, hdis, hso, hRo⟩ := hk.split hsk hd b
    have hsb : .slot s ∉ fps b := fun hm => hsk (Set.mem_iUnion.mpr ⟨b, hm⟩)
    refine ⟨fps b, hk.rep b _ hf, hbk, ⟨Set.mem_insert .., hsb⟩,
      fun {F'} x c' fpx hbuilt => ?_⟩
    rw [around_victim hset hd hdis hbk subset_rfl, Set.sdiff_self, Set.union_empty] at hbuilt
    have hn' := hn.same hbuilt.same (Set.mem_union_left _ (Set.mem_insert ..))
    obtain ⟨hkids, hsu, hdu, hau, hR⟩ := hbuilt.kids_above hk hf hsR hso hRo
    refine (innerUpdateChild_sat hn' hf hbuilt.rep hkids hk.wf hsu hdu hau _).imp fun _ F'' h => ?_
    refine ⟨_, h.rep, Set.empty_subset _, h.disjoint, h.alloc, ?_⟩
    rw [Set.union_empty]
    exact hR.trans (h.same.mono Set.subset_union_left)
  | inPfx hn _ ih =>
    obtain ⟨c₁, fpc, hn₁, hchild, hsc, rfl⟩ := hr
    cases hn.bodyOfSlot.symm.trans hn₁.bodyOfSlot
    obtain ⟨hsR, hRc⟩ := Set.disjoint_insert_right.mp hd
    have hdis := Set.disjoint_insert_left.mpr ⟨hsc, hRc⟩
    obtain ⟨fpv, hrv, hsub, hpar, hrw⟩ := ih hchild hdis
    refine ⟨fpv, hrv, hsub.trans (Set.subset_insert ..),
      ⟨Set.mem_insert_of_mem _ hpar.1, hpar.2⟩, fun {F'} x c' fpx hb => ?_⟩
    rw [around_victim (by rw [Set.union_insert, Set.insert_union]) hd hdis
      (Set.subset_insert ..) hsub] at hb
    exact (hrw hb).imp fun _ F'' ⟨fp', h⟩ => ⟨_, h.pfx_above hn hsR⟩
  | @inInner _ _ _ s _ b _ _ _ _ hn hb hf _ ih =>
    obtain ⟨n₁, fps, hn₁, hk, hsk, rfl⟩ := rep_inner_iff.mp hr
    cases hn.bodyOfSlot.symm.trans hn₁.bodyOfSlot
    have hsR := (Set.disjoint_insert_right.mp hd).1
    have hbk := (Set.subset_iUnion fps b).trans (Set.subset_insert (Cell.slot s) _)
    obtain ⟨hset, hdis, hso, hRo⟩ := hk.split hsk hd b
    obtain ⟨fpv, hrv, hsub, hpar, hrw⟩ := ih (hk.rep b _ hf) hdis
    refine ⟨fpv, hrv, hsub.trans hbk, ⟨hbk hpar.1, hpar.2⟩, fun {F'} x c' fpx hbuilt => ?_⟩
    rw [around_victim hset hd hdis hbk hsub] at hbuilt
    exact (hrw hbuilt).imp fun _ F'' ⟨fp', h⟩ => ⟨_, h.inner_above hn hk hf hsR hso hRo rfl⟩

theorem VictimAt.rep (hv : VictimAt F t s v rel sub plug) (hr : F.Rep t s fp) :
    ∃ fpv, F.Rep sub v.victimSlot fpv ∧ fpv ⊆ fp := by
  obtain ⟨fpv, hrv, hsub, -, -⟩ := rewire_sat hv hr (Set.empty_disjoint fp)
  exact ⟨fpv, hrv, hsub⟩

/-! ## The blob node that takes its place -/

/-- Whether one more blob node finds a place: a freed slot of its size, or a new one. -/
def Frame.RoomForBlobNode (F : Frame) : Prop :=
  F.freeListHead .blob ≠ 0 ∨ F.freeListHead .prefixNode ≠ 0 ∨
    F.numSlots < maxSlots ∧ sizeOfNode .blob ≤ pageSize - F.spaceUsed

theorem newBlobNode_room (ha : F.Alloc U) (bn : BlobNode) :
    Sat (newNode (.blob bn)) F
      (fun s F' => F.RoomForBlobNode ∧ ∀ k, F'.FreeOf k = F.FreeOf k \ {s})
      (fun e _ => e.IsResource → ¬F.RoomForBlobNode) := by
  apply (newNode_effect F (.blob bn)).mono
  · rintro s _ ⟨F₁, h, rfl⟩
    constructor
    · rcases h.source with ⟨list, e, hp⟩ | hb
      · have hsize := hp.size
        have h0 : F.freeListHead list ≠ 0 := hp.head ▸ hp.ne_zero
        cases list <;> simp only [Body.ntype, sizeOfNode] at hsize
        case blob => exact Or.inl h0
        case prefixNode => exact Or.inr (Or.inl h0)
        all_goals omega
      · exact Or.inr (Or.inr ⟨hb.room, hb.fits⟩)
    · intro k
      rw [← h.freeOf ha k]
      apply freeOf_congr <;> rfl
  · rintro e _ (⟨-, h⟩ | h) hres
    · cases h with
      | request => rcases hres with h | ⟨need, avail, h⟩ <;> cases h
      | slots own other h =>
        rintro (h' | h' | h')
        · exact h' own
        · exact h' (other _ rfl)
        · omega
      | space own other h =>
        rintro (h' | h' | h')
        · exact h' own
        · exact h' (other _ rfl)
        · exact absurd h'.2 (not_le.mpr h)
    · exact absurd hres h.not_resource

/-- Whether a blob node finds a place once the slots of `fpv` are given up. -/
def Frame.RoomOnceFreed (F : Frame) (fpv : Set Cell) : Prop :=
  F.RoomForBlobNode ∨
    ∃ s, .slot s ∈ fpv ∧ (F.Typed s .blob ∨ F.Typed s .prefixNode)

theorem Frame.Frees.room_iff {F' : Frame} {fpv : Set Cell} (h : F.Frees F' U fpv)
    (ha : F.Alloc U) : F'.RoomForBlobNode ↔ F.RoomOnceFreed fpv := by
  have hhead : ∀ t, F'.freeListHead t ≠ 0 ↔
      F.freeListHead t ≠ 0 ∨ ∃ s, .slot s ∈ fpv ∧ F.Typed s t := by
    intro t
    rw [← not_iff_not, not_not, not_or, not_not, ← h.kept.alloc.freeOf_eq_empty,
      ← ha.freeOf_eq_empty, h.freed, Set.union_empty_iff, Set.eq_empty_iff_forall_notMem (s := {s |
        _})]
    simp
  unfold Frame.RoomOnceFreed Frame.RoomForBlobNode
  rw [hhead, hhead, h.numSlots, h.spaceUsed]
  constructor
  · rintro ((h | ⟨s, hs, ht⟩) | (h | ⟨s, hs, ht⟩) | h)
    · exact Or.inl (Or.inl h)
    · exact Or.inr ⟨s, hs, Or.inl ht⟩
    · exact Or.inl (Or.inr (Or.inl h))
    · exact Or.inr ⟨s, hs, Or.inr ht⟩
    · exact Or.inl (Or.inr (Or.inr h))
  · rintro ((h | h | h) | ⟨s, hs, ht | ht⟩)
    · exact Or.inl (Or.inl h)
    · exact Or.inr (Or.inl (Or.inl h))
    · exact Or.inr (Or.inr h)
    · exact Or.inl (Or.inr ⟨s, hs, ht⟩)
    · exact Or.inr (Or.inl (Or.inr ⟨s, hs, ht⟩))

/-- Only the parent's body is written. -/
structure Relinks (parent : Slot) (F F' : Frame) : Prop where
  bodies : ∀ s, s ≠ parent → F'.bodies s = F.bodies s
  slots : F'.slots = F.slots
  data : F'.data = F.data
  numSlots : F'.numSlots = F.numSlots
  freeListHead : F'.freeListHead = F.freeListHead

theorem Relinks.refl (parent : Slot) (F : Frame) : Relinks parent F F :=
  ⟨fun _ _ => rfl, rfl, rfl, rfl, rfl⟩

theorem Writes.relinks {s : Slot} {x : FrameM Unit} (h : Writes s x) : Moves (Relinks s) x := by
  refine fun F => (h F).mono ?_ fun _ _ he => he.1 ▸ .refl s F
  rintro _ _ ⟨b, rfl⟩
  exact ⟨fun s' hs => Function.update_of_ne hs _ _, rfl, rfl, rfl, rfl⟩

theorem rewire_relinks (v : Victim) (c : Slot) : Moves (Relinks v.parentSlot) (rewire v c) := by
  unfold rewire
  split
  · exact (setPrefixChild_writes _ _).relinks
  · exact (innerUpdateChild_writes _ _ _ _).relinks

/-- The full blob afterwards: its tree with the victim replaced by the blob node `bn`. The slots
given up are the victim's, and of the nodes that stay only the parent is written. -/
structure Replaced (F F' : Frame) (t : Art) (fp fpv : Set Cell) (parent bn : Slot)
    (newGuid : BlobGuid) : Prop where
  holds : F'.Holds t
  blobGuid : F'.blobGuid = F.blobGuid
  node : F'.NodeAt bn (.blob ⟨[], newGuid⟩)
  fresh : .slot bn ∉ fp \ fpv
  free : ∀ k, F'.FreeOf k = (F.FreeOf k ∪ {x | .slot x ∈ fpv ∧ F.Typed x k}) \ {bn}
  slots : ∀ x, .slot x ∈ fp \ fpv → F'.slots x = F.slots x
  bodies : ∀ x, .slot x ∈ fp \ fpv → x ≠ parent → F'.bodies x = F.bodies x
  data : ∀ a, .byte a ∈ fp \ fpv → F'.data a = F.data a
  room : F.RoomOnceFreed fpv

/-- Only the blob node can fail to find a place, and then the victim is gone from the frame. -/
theorem replaceVictim_sat (hr : F.Rep t F.rootSlot fp) (ha : F.Alloc fp)
    (hv : VictimAt F t F.rootSlot v rel sub plug) (newGuid : BlobGuid) :
    ∃ fpv, F.Rep sub v.victimSlot fpv ∧ fpv ⊆ fp ∧
      Sat (replaceVictim F.rootSlot v newGuid) F
        (fun bn F' => Replaced F F' (plug (.blob [] newGuid)) fp fpv v.parentSlot bn newGuid)
        (fun e F' => e.IsResource ∧ F.Frees F' fp fpv ∧ ¬F.RoomOnceFreed fpv) := by
  obtain ⟨fpv, hrv, hsub, hpar, hrw⟩ := rewire_sat hv hr (Set.empty_disjoint fp)
  refine ⟨fpv, hrv, hsub, ?_⟩
  simp only [replaceVictim, sat_bind, sat_get]
  refine (freeSubtree_sat hrv hsub ha (hrv.height_lt ha hsub)).mono (fun _ F₁ h₁ => ?_)
    fun _ _ he => he.elim
  have ha₁ := h₁.kept.alloc
  refine ((newNode_sat ha₁ (b := .blob ⟨[], newGuid⟩) (by simp [Body.ntype])).and
    (newBlobNode_room ha₁ ⟨[], newGuid⟩)).mono (fun bn F₂ h₂ => ?_) fun e F₂ he => ?_
  · obtain ⟨h₂, hroom, hfree⟩ := h₂
    have hsame₂ := h₁.kept.same.trans h₂.same
    have hb : Built F F₂ (∅ ∪ (fp \ fpv)) ∅ (.blob [] newGuid) bn {.slot bn} := by
      rw [Set.empty_union]
      refine ⟨⟨h₂.node, rfl⟩, Set.empty_subset _, Set.disjoint_singleton_right.mpr h₂.fresh,
        ?_, ?_⟩
      · rw [Set.union_singleton]
        exact h₂.alloc
      · rw [Set.union_empty]
        exact hsame₂
    simp only [hv.via_parent, Bool.false_eq_true, and_false, if_false, sat_bind, sat_pure]
    refine ((hrw hb).and (rewire_relinks v bn F₂)).mono (fun _ F₃ h₃ => ?_)
      fun _ _ he => he.1.elim
    obtain ⟨⟨fp', h₃⟩, hre⟩ := h₃
    have ha₃ := h₃.alloc
    rw [Set.empty_union] at ha₃
    refine ⟨⟨fp', ?_, ha₃⟩, h₃.same.blobGuid, ?_, h₂.fresh, fun k => ?_, fun x hx => ?_,
      fun x hx hp => ?_, fun a hx => ?_, (h₁.room_iff ha).mp hroom⟩
    · rw [h₃.same.rootSlot]
      exact h₃.rep
    · -- the blob node is not the parent that was written
      have hne : bn ≠ v.parentSlot := by
        rintro rfl
        exact h₂.fresh hpar
      refine h₂.node.congr (R := {.slot bn}) ⟨?_, ?_, hre.numSlots.ge⟩ rfl
      · rintro s hs
        cases hs
        exact ⟨congrFun hre.slots bn, hre.bodies bn hne⟩
      · rintro a ha
        cases ha
    · rw [freeOf_congr hre.slots hre.numSlots hre.freeListHead, hfree, h₁.freed]
    · rw [hre.slots]
      exact (hsame₂.slots x hx).1
    · rw [hre.bodies x hp]
      exact (hsame₂.slots x hx).2
    · rw [hre.data]
      exact hsame₂.data a hx
  · obtain ⟨⟨rfl, hres⟩, hroom⟩ := he
    exact ⟨hres, h₁, fun h => hroom hres ((h₁.room_iff ha).mpr h)⟩

end Move

end Holt
