import GlusterFS.Core.ForestSum
import GlusterFS.Core.Transition

/-!
# The update transaction of marker-quota

A transaction brings the contribution of an inode to its parent up to the size of the inode, adds
the difference to the size of the parent, and goes on with the parent.  It works under the lock
of the parent.  Each call to the child is one step, and so is each callback that touches memory
shared between transactions; a callback that only winds the next call is taken together with the
call before it.
-/

namespace GlusterFS.Marker

variable {Node : Type} [DecidableEq Node]

/-- The files and directories of a volume. -/
structure Tree (Node : Type) extends Forest Node where
  isDir : Node → Bool
  parent_isDir : ∀ child directory, parent child = some directory → isDir directory = true

inductive TxnPhase
  /-- `mq_get_lock_on_parent` has wound `inodelk`. -/
  | locking
  /-- `mq_markdirty` has wound `setxattr`. -/
  | markingDirty
  /-- At `mq_fetch_child_size_and_contri`. -/
  | markedDirty
  /-- The `lookup` is on its way. -/
  | lookingUp
  /-- At `mq_update_inode_contribution`, with what the lookup returned. -/
  | lookedUp (size contri : Int)
  /-- The `xattrop` on the inode is on its way. -/
  | addingContri (delta : Int)
  /-- At `mq_update_parent_size`. -/
  | addedContri (delta : Int)
  /-- The `xattrop` on the parent is on its way. -/
  | addingSize (delta : Int)
  /-- `mq_mark_undirty` has wound `setxattr`. -/
  | undirtying (delta : Int)
  /-- `mq_release_parent_lock` has wound `inodelk`. -/
  | unlocking (delta : Int)
  /-- At `mq_inodelk_cbk`. -/
  | unlocked (delta : Int)

structure Txn (Node : Type) where
  node : Node
  phase : TxnPhase

/-- The xattrs, the locks, the contexts in memory and the transactions.  `size` is the number of
bytes of a file and the size xattr of a directory. -/
structure QuotaState (Node : Type) where
  size : Node → Int
  contri : Node → Int
  dirty : Node → Bool
  locked : Node → Bool
  updationStatus : Node → Bool
  contribution : Node → Int
  txns : List (Txn Node)
  /-- The files whose size has changed and for which `mq_initiate_quota_txn` is yet to come. -/
  changed : List Node

inductive QuotaLabel (Node : Type)
  /-- The size of a file changes. -/
  | change (file : Node) (size : Int)
  /-- `mq_initiate_quota_txn` -/
  | initiate (file : Node)
  /-- The next step of a transaction. -/
  | proceed (txn : Nat)

section Step

variable (tree : Tree Node) (s : QuotaState Node)

def QuotaState.setPhase (txn : Nat) (node : Node) (phase : TxnPhase) : QuotaState Node :=
  { s with txns := s.txns.set txn ⟨node, phase⟩ }

/-- `mq_test_and_set_ctx_updation_status`, and the start of a transaction if none was under
way. -/
def startTxn (node : Node) : QuotaState Node :=
  if s.updationStatus node then s
  else
    { s with
      updationStatus := Function.update s.updationStatus node true
      txns := s.txns ++ [⟨node, .locking⟩] }

/-- `mq_update_inode_contribution` -/
def updateInodeContribution (txn : Nat) (node : Node) (size contri : Int) : QuotaState Node :=
  let delta := size - contri
  { s with contribution := Function.update s.contribution node contri }.setPhase txn node
    (if delta = 0 then .undirtying 0 else .addingContri delta)

/-- `mq_inodelk_cbk` after the lock has been released. -/
def inodelkCbk (txn : Nat) (parent : Node) (delta : Int) : QuotaState Node :=
  let s := { s with txns := s.txns.eraseIdx txn }
  if (tree.parent parent).isNone ∨ delta = 0 then s else startTxn s parent

/-- The next step of a transaction on an inode. -/
def txnStep (txn : Nat) (node parent : Node) : TxnPhase → Option (QuotaState Node)
  | .locking =>
    if s.locked parent then none
    else some ({ s with locked := Function.update s.locked parent true }.setPhase txn node
      .markingDirty)
  | .markingDirty =>
    some ({ s with dirty := Function.update s.dirty parent true }.setPhase txn node .markedDirty)
  | .markedDirty =>
    some ({ s with updationStatus := Function.update s.updationStatus node false }.setPhase txn
      node .lookingUp)
  | .lookingUp => some (s.setPhase txn node (.lookedUp (s.size node) (s.contri node)))
  | .lookedUp size contri => some (updateInodeContribution s txn node size contri)
  | .addingContri delta =>
    some ({ s with contri := Function.update s.contri node (s.contri node + delta) }.setPhase txn
      node (.addedContri delta))
  | .addedContri delta =>
    some ({ s with
      contribution := Function.update s.contribution node (s.contribution node + delta)
      }.setPhase txn node (.addingSize delta))
  | .addingSize delta =>
    some ({ s with size := Function.update s.size parent (s.size parent + delta) }.setPhase txn
      node (.undirtying delta))
  | .undirtying delta =>
    some ({ s with dirty := Function.update s.dirty parent false }.setPhase txn node
      (.unlocking delta))
  | .unlocking delta =>
    some ({ s with locked := Function.update s.locked parent false }.setPhase txn node
      (.unlocked delta))
  | .unlocked delta => some (inodelkCbk tree s txn parent delta)

def quotaStep : QuotaLabel Node → Option (QuotaState Node)
  | .change file size =>
    if tree.isDir file then none
    else some { s with size := Function.update s.size file size, changed := file :: s.changed }
  | .initiate file =>
    if file ∈ s.changed then
      let s := { s with changed := s.changed.erase file }
      -- without a parent there is no contribution to update
      some (if (tree.parent file).isSome then startTxn s file else s)
    else none
  | .proceed txn =>
    match s.txns[txn]? with
    | some ⟨node, phase⟩ => (tree.parent node).bind fun parent =>
        txnStep tree s txn node parent phase
    | none => none

end Step

/-- No transaction is in flight, and none is still to be started. -/
def QuotaState.Quiet (s : QuotaState Node) : Prop := s.txns = [] ∧ s.changed = []

section Accounting

variable [Fintype Node]

open Classical in
/-- The xattrs tell the sizes of the files. -/
structure Accounted (tree : Tree Node) (s : QuotaState Node) : Prop where
  contribution : ∀ child directory, tree.parent child = some directory →
    s.contri child = s.size child
  sum : ∀ directory, tree.isDir directory = true →
    s.size directory = ∑ child with tree.parent child = some directory, s.contri child
  total : ∀ directory, tree.isDir directory = true →
    s.size directory = ∑ file with tree.isDir file = false ∧ tree.Below file directory, s.size file

end Accounting

end GlusterFS.Marker
