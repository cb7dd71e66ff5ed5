import GlusterFS.Core.ProcessTable
import GlusterFS.Core.Transition

/-!
# Eager locking on one file descriptor

Data transactions on one fd lock the whole file for one owner.  While
`lock_acquired[i]` is not zero a transaction takes no lock on child `i` but leaves
a token in `lock_piggyback[i]`, and an unlock that finds a token takes it instead
of unlocking.  A transaction that misses a lock gives back what it got and goes
on with blocking locks on its own range.  One atomic action is a section under
`fd->lock`, the work of a child or that of a callback; the callback raises
`lock_acquired` under `frame->lock` only, which is taken as one action too.
-/

namespace GlusterFS.Afr

open Transition ProcessTable

variable {n : Nat}

/-- `l_start` and `l_len` of a lock call. -/
structure LockRange where
  start : Nat
  len : Nat
  deriving DecidableEq

/-- `full_flock` -/
def fullFlock : LockRange := ⟨0, 0⟩

/-- What there is of one child: `lock_acquired[i]` and `lock_piggyback[i]` of the fd
context and, on the child, the locks of the fd's owner.  The counters are
integers, so that an underflow shows. -/
structure EagerChild where
  lockAcquired : Int
  lockPiggyback : Int
  held : List LockRange

/-- How far a transaction is with one child.  `eager` is `transaction.eager_lock[i]`. -/
inductive EagerPhase
  | free
  | lockWound (eager : Bool)
  /-- The child has answered and the reply is under way. -/
  | lockAnswered (eager granted : Bool)
  /-- `inode_locked_nodes[i]` is set. -/
  | locked (eager : Bool)
  | unlockWound (eager : Bool)
  | unlockAnswered (eager : Bool)
  deriving DecidableEq

namespace EagerPhase

def eagerLock : EagerPhase → Bool
  | .free => false
  | .lockWound eager | .lockAnswered eager _ | .locked eager | .unlockWound eager
  | .unlockAnswered eager => eager

def isLocked : EagerPhase → Bool
  | .locked _ => true
  | _ => false

/-- A call to the child has not been answered. -/
def underWay : EagerPhase → Bool
  | .free | .locked _ => false
  | _ => true

end EagerPhase

/-! ## One child -/

/-- `afr_nonblocking_inodelk_cbk` up to the test of `call_count`. -/
def afrNonblockingInodelkCbk (child : EagerChild) (eager : Bool) (opRet : Int) :
    EagerChild × EagerPhase :=
  if opRet < 0 then (child, .free)
  else if eager ∧ opRet = 0 then
    ({ child with lockAcquired := child.lockAcquired + 1 }, .locked eager)
  else (child, .locked eager)

/-- The turn of `afr_nonblocking_inodelk` for one child. -/
def afrNonblockingInodelk (child : EagerChild) : EagerChild × EagerPhase :=
  if child.lockAcquired ≠ 0 then
    afrNonblockingInodelkCbk { child with lockPiggyback := child.lockPiggyback + 1 } true 1
  else (child, .lockWound true)

/-- `afr_lock_cbk`, the callback of a blocking lock. -/
def afrLockCbk (child : EagerChild) (eager : Bool) (opRet : Int) : EagerChild × EagerPhase :=
  (child, if opRet = 0 then .locked eager else .free)

/-- The turn of `afr_unlock_inodelk` for one child that is locked. -/
def afrUnlockInodelk (child : EagerChild) (eager : Bool) : EagerChild × EagerPhase :=
  if eager = false then (child, .unlockWound eager)
  else if child.lockPiggyback ≠ 0 then
    ({ child with lockPiggyback := child.lockPiggyback - 1 }, .free)
  else ({ child with lockAcquired := child.lockAcquired - 1 }, .unlockWound eager)

/-- The child grants a lock or not. -/
def EagerChild.setlk (child : EagerChild) (range : LockRange) (granted : Bool) : EagerChild :=
  if granted then { child with held := range :: child.held } else child

/-- The child takes one lock on the range away. -/
def EagerChild.unlck (child : EagerChild) (range : LockRange) : EagerChild :=
  { child with held := child.held.erase range }

/-! ## Transactions -/

inductive EagerStage (n : Nat)
  /-- The loop of `afr_nonblocking_inodelk`, with the children still to come. -/
  | nonblocking (todo : List (Fin n))
  /-- `afr_lock_blocking`, with the children still to come. -/
  | blocking (todo : List (Fin n))
  | operating
  /-- The loop of `afr_unlock_inodelk`.  With `retry` blocking locks are next. -/
  | unlocking (todo : List (Fin n)) (retry : Bool)
  | finished
  deriving DecidableEq

structure EagerTxn (n : Nat) where
  childUp : Fin n → Bool
  flock : LockRange
  stage : EagerStage n
  phase : Fin n → EagerPhase

namespace EagerTxn

variable (txn : EagerTxn n)

/-- The range of the lock calls on a child. -/
def range (eager : Bool) : LockRange := if eager then fullFlock else txn.flock

def upChildren : List (Fin n) := (List.finRange n).filter txn.childUp

def lockedChildren : List (Fin n) := (List.finRange n).filter fun i => (txn.phase i).isLocked

/-- No reply is outstanding: `lk_call_count` is zero once the loop is done. -/
def Quiet : Prop := ∀ i, (txn.phase i).underWay = false
  deriving Decidable

def begin (childUp : Fin n → Bool) (flock : LockRange) : EagerTxn n where
  childUp := childUp
  flock := flock
  stage := .nonblocking ((List.finRange n).filter childUp)
  phase := fun _ => .free

/-- The stage after the last reply of a loop. -/
def nextStage : Option (EagerStage n) :=
  match txn.stage with
  | .nonblocking [] =>
    if txn.upChildren ≠ [] ∧ txn.upChildren.all fun i => (txn.phase i).isLocked then
      some .operating
    else some (.unlocking txn.lockedChildren true)
  | .blocking [] =>
    if txn.lockedChildren = [] then some (.unlocking [] false) else some .operating
  | .operating => some (.unlocking txn.lockedChildren false)
  | .unlocking [] retry => some (if retry then .blocking txn.upChildren else .finished)
  | _ => none

end EagerTxn

structure EagerState (n : Nat) where
  child : Fin n → EagerChild
  txns : List (EagerTxn n)

def EagerState.start : EagerState n := ⟨fun _ => ⟨0, 0, []⟩, []⟩

/-- Something happens between a transaction and one child. -/
def EagerState.turn (s : EagerState n) (k : Nat) (txn : EagerTxn n) (i : Fin n)
    (result : EagerChild × EagerPhase) (stage : EagerStage n) : EagerState n where
  child := Function.update s.child i result.1
  txns := s.txns.set k { txn with stage := stage, phase := Function.update txn.phase i result.2 }

def EagerState.setStage (s : EagerState n) (k : Nat) (txn : EagerTxn n) (stage : EagerStage n) :
    EagerState n :=
  { s with txns := s.txns.set k { txn with stage := stage } }

inductive EagerAction (n : Nat)
  | lock
  | childLock (i : Fin n) (granted : Bool)
  /-- `enosys`: a lock that was not granted failed with `ENOSYS`. -/
  | lockReply (i : Fin n) (enosys : Bool)
  | unlock
  | childUnlock (i : Fin n)
  | unlockReply (i : Fin n)
  | proceed

inductive EagerLabel (n : Nat)
  | begin (childUp : Fin n → Bool) (flock : LockRange)
  | act (k : Nat) (action : EagerAction n)

def EagerState.act (s : EagerState n) (k : Nat) (txn : EagerTxn n) :
    EagerAction n → Option (EagerState n)
  | .lock =>
    match txn.stage with
    | .nonblocking (i :: todo) =>
      some (s.turn k txn i (afrNonblockingInodelk (s.child i)) (.nonblocking todo))
    | .blocking (i :: todo) =>
      if txn.Quiet then some (s.turn k txn i (s.child i, .lockWound false) (.blocking todo))
      else none
    | _ => none
  | .childLock i granted =>
    match txn.phase i with
    | .lockWound eager => some (s.turn k txn i
        ((s.child i).setlk (txn.range eager) granted, .lockAnswered eager granted) txn.stage)
    | _ => none
  | .lockReply i enosys =>
    match txn.phase i with
    | .lockAnswered eager granted =>
      let opRet : Int := if granted then 0 else -1
      match txn.stage with
      | .nonblocking todo => some (s.turn k txn i
          (afrNonblockingInodelkCbk (s.child i) eager opRet) (.nonblocking todo))
      -- `afr_unlock` finds nothing in `inode_locked_nodes` and the transaction is over
      | .blocking todo => some (s.turn k txn i (afrLockCbk (s.child i) eager opRet)
          (if enosys ∧ granted = false then .finished else .blocking todo))
      | _ => none
    | _ => none
  | .unlock =>
    match txn.stage with
    | .unlocking (i :: todo) retry =>
      match txn.phase i with
      | .locked eager =>
        some (s.turn k txn i (afrUnlockInodelk (s.child i) eager) (.unlocking todo retry))
      | _ => some (s.setStage k txn (.unlocking todo retry))
    | _ => none
  | .childUnlock i =>
    match txn.phase i with
    | .unlockWound eager => some (s.turn k txn i
        ((s.child i).unlck (txn.range eager), .unlockAnswered eager) txn.stage)
    | _ => none
  | .unlockReply i =>
    match txn.phase i with
    | .unlockAnswered _ => some (s.turn k txn i (s.child i, .free) txn.stage)
    | _ => none
  | .proceed => if txn.Quiet then txn.nextStage.map (s.setStage k txn) else none

def eagerStep (s : EagerState n) : EagerLabel n → Option (EagerState n)
  | .begin childUp flock => some { s with txns := s.txns ++ [.begin childUp flock] }
  | .act k action => s.txns[k]?.bind fun txn => s.act k txn action

end GlusterFS.Afr
