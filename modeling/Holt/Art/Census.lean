import Holt.Art.Erase
import Mathlib.Algebra.BigOperators.Group.List.Basic

/-! Counting the nodes of a tree: how many there are, how many are tombstones or lead to other
blobs, and what they take in a blob that was just rebuilt. -/

namespace Holt

open Holt.Lib

namespace Art

/-- The sum of `own` over the nodes of a tree. -/
def total (own : Art → Nat) : Art → Nat
  | .pfx bytes child => child.total own + own (.pfx bytes child)
  | .inner has child =>
    ((allBytes.filter has).map fun b => (child b).total own).sum + own (.inner has child)
  | t => own t

def nodes : Art → Nat := total fun _ => 1

/-- The smallest inner node for so many children. -/
def packType (children : Nat) : NodeType :=
  if children ≤ 4 then .node4
  else if children ≤ 16 then .node16
  else if children ≤ 48 then .node48
  else .node256

/-- Bytes a rebuilt blob spends on the node: its body, and the extent of a leaf. -/
def ownWeight : Art → Nat
  | .emptyRoot => sizeOfNode .emptyRoot
  | .leaf r => leafExtentSize r.key.length r.value.length + sizeOfNode .leaf
  | .pfx _ _ => sizeOfNode .prefixNode
  | .inner has _ => sizeOfNode (packType (allBytes.filter has).length)
  | .blob _ _ => sizeOfNode .blob

def weight : Art → Nat := total ownWeight

section Prune

/-- What compaction leaves in place of a tree. -/
def compacted (t : Art) : Art := t.prune.getD .emptyRoot

theorem compacted_wf {t : Art} {π : List UInt8} (h : Wf π t) : Wf π t.compacted := by
  unfold compacted
  cases hp : t.prune with
  | none => exact trivial
  | some t' => exact prune_wf h hp

theorem compacted_target (t : Art) (k : List UInt8) (d : Nat) :
    t.compacted.target k d = (t.target k d).live := by
  rw [← target_pruned, compacted]
  cases t.prune <;> rfl

end Prune

end Art

end Holt
