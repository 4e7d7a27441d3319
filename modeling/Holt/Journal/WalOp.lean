import Mathlib.Algebra.GroupWithZero.Nat

/-! The logical operations a log record stands for. -/

namespace Holt

inductive WalOp
  | insert (treeId : Nat) (key value : List UInt8)
  | erase (treeId : Nat) (key : List UInt8)
  | renameObject (treeId : Nat) (srcKey dstKey : List UInt8) (force : Bool)
  | batch (ops : List WalOp)
  deriving Repr

mutual

def WalOp.decEq : (a b : WalOp) → Decidable (a = b)
  | .insert i k v, .insert i' k' v' =>
    decidable_of_iff (i = i' ∧ k = k' ∧ v = v') (by simp)
  | .erase i k, .erase i' k' => decidable_of_iff (i = i' ∧ k = k') (by simp)
  | .renameObject i s d f, .renameObject i' s' d' f' =>
    decidable_of_iff (i = i' ∧ s = s' ∧ d = d' ∧ f = f') (by simp)
  | .batch ops, .batch ops' =>
    have := WalOp.decEqList ops ops'
    decidable_of_iff (ops = ops') (by simp)
  | .insert .., .erase .. | .insert .., .renameObject .. | .insert .., .batch _
  | .erase .., .insert .. | .erase .., .renameObject .. | .erase .., .batch _
  | .renameObject .., .insert .. | .renameObject .., .erase .. | .renameObject .., .batch _
  | .batch _, .insert .. | .batch _, .erase .. | .batch _, .renameObject .. => .isFalse nofun

def WalOp.decEqList : (a b : List WalOp) → Decidable (a = b)
  | [], [] => .isTrue rfl
  | a :: as, b :: bs =>
    have := WalOp.decEq a b
    have := WalOp.decEqList as bs
    decidable_of_iff (a = b ∧ as = bs) (by simp)
  | [], _ :: _ | _ :: _, [] => .isFalse nofun

end

instance : DecidableEq WalOp := WalOp.decEq

namespace WalOp

def treeId : WalOp → Option Nat
  | .insert id _ _ => some id
  | .erase id _ => some id
  | .renameObject id _ _ _ => some id
  | .batch _ => none

/-- What a replay is called with for one record: the operations of a batch take consecutive
sequence numbers, which wrap. -/
def flatten (op : WalOp) (seq : Nat) : List (WalOp × Nat) :=
  match op with
  | .batch ops => ops.zipIdx.map fun e => (e.1, (seq + e.2) % 2 ^ 64)
  | op => [(op, seq)]

end WalOp

end Holt
