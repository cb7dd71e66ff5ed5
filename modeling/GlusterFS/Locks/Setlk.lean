import GlusterFS.Core.Transition
import GlusterFS.Locks.PosixLock

/-!
# `pl_setlk`, `pl_flush` and the granting of waiting locks

The operations on the fcntl lock table of one inode.  Each operation runs its
critical section under `pl_inode->mutex` and then lets
`grant_blocked_locks` wake the waiters.  The trace records what an operation
does besides changing the table: the calls of `__insert_and_merge` it makes
and the frames it answers.
-/

namespace GlusterFS.Locks

def eagain : Int := 11

def einval : Int := 22

inductive LkEvent
  /-- `__insert_and_merge` is called on this table with this lock. -/
  | merge (extList : List PosixLock) (lock : PosixLock)
  /-- A lock request is answered. -/
  | unwind (frame : Option Nat) (opRet opErrno : Int)
  deriving DecidableEq

/-- The part of `pl_inode_t` that the fcntl locks use, with the trace of the
run so far. -/
structure PlInode where
  extList : List PosixLock
  trace : List LkEvent

def PlInode.fresh : PlInode := ⟨[], []⟩

def PlInode.insertAndMerge (inode : PlInode) (lock : PosixLock) : PlInode where
  extList := Locks.insertAndMerge inode.extList lock
  trace := inode.trace ++ [.merge inode.extList lock]

/-- `__insert_lock`, without the time stamps. -/
def PlInode.insertLock (inode : PlInode) (lock : PosixLock) : PlInode :=
  { inode with extList := inode.extList ++ [lock] }

def firstOverlap (extList : List PosixLock) (lock : PosixLock) :
    Option PosixLock :=
  extList.find? fun l => !l.blocked && decide (locksOverlap l lock)

/-- The test `__is_lock_grantable` makes on each entry of the list. -/
def refuses (l lock : PosixLock) : Prop :=
  (l.blocked = false ∧ locksOverlap lock l) ∧
    (l.flType = .wrlck ∨ lock.flType = .wrlck) ∧ lock.flType ≠ .unlck ∧
    ¬sameOwner l lock
  deriving Decidable

def isLockGrantable (extList : List PosixLock) (lock : PosixLock) : Prop :=
  ∀ l ∈ extList, ¬refuses l lock
  deriving Decidable

/-- A waiter that the first loop of `__grant_blocked_locks` moves away.  The
loop only looks at granted locks, so moving one waiter does not change what it
decides for the next. -/
def wakes (extList : List PosixLock) (l : PosixLock) : Bool :=
  l.blocked && (firstOverlap extList l).isNone

/-- One turn of the second loop of `__grant_blocked_locks`; the frames granted
so far are kept last first. -/
def grantOne (state : PlInode × List (Option Nat)) (waiter : PosixLock) :
    PlInode × List (Option Nat) :=
  if isLockGrantable state.1.extList { waiter with blocked := false } then
    (state.1.insertAndMerge { waiter with blocked := false, frame := none },
      waiter.frame :: state.2)
  else
    (state.1.insertLock { waiter with blocked := true }, state.2)

/-- `__grant_blocked_locks` and the unwinding of the granted frames. -/
def grantBlockedLocks (inode : PlInode) : PlInode :=
  let tmpList := inode.extList.filter (wakes inode.extList)
  let start := { inode with
    extList := inode.extList.filter fun l => !wakes inode.extList l }
  let (result, granted) := tmpList.foldl grantOne (start, [])
  { result with
    trace := result.trace ++ granted.map fun frame => .unwind frame 0 0 }

/-- The unlock that `pl_send_prelock_unlock` inserts for a request. -/
def prelockUnlock (oldLock : PosixLock) : PosixLock :=
  newPosixLock { GfFlock.zeroed with
      lType := .unlck
      lWhence := oldLock.userFlock.lWhence
      lStart := oldLock.userFlock.lStart
      lLen := oldLock.userFlock.lLen }
    oldLock.transport oldLock.clientPid oldLock.owner oldLock.fdNum

def plSendPrelockUnlock (inode : PlInode) (oldLock : PosixLock) : PlInode :=
  grantBlockedLocks (inode.insertAndMerge (prelockUnlock oldLock))

/-- The critical section of `pl_setlk`, with its return value. -/
def plSetlkLocked (inode : PlInode) (lock : PosixLock) (canBlock : Bool) : Int × PlInode :=
  let inode :=
    if canBlock = true ∧ ¬isLockGrantable inode.extList lock then
      plSendPrelockUnlock inode lock
    else inode
  if isLockGrantable inode.extList lock then
    (0, inode.insertAndMerge lock)
  else if canBlock then
    (-1, inode.insertLock { lock with blocked := true })
  else
    (-1, inode)

def plSetlk (inode : PlInode) (lock : PosixLock) (canBlock : Bool) : Int × PlInode :=
  let (ret, inode) := plSetlkLocked inode lock canBlock
  (ret, grantBlockedLocks inode)

/-- `delete_locks_of_fd` up to the waking of the other waiters: waiting locks
of the descriptor are answered with `EAGAIN`. -/
def deleteLocksOfFdLocked (inode : PlInode) (fdNum : Nat) : PlInode where
  extList := inode.extList.filter fun l => l.fdNum ≠ fdNum
  trace := inode.trace ++ (inode.extList.filter fun l => l.fdNum = fdNum ∧ l.blocked = true).map
      fun l => .unwind l.frame (-1) eagain

def deleteLocksOfFd (inode : PlInode) (fdNum : Nat) : PlInode :=
  grantBlockedLocks (deleteLocksOfFdLocked inode fdNum)

def deleteLocksOfOwner (inode : PlInode) (transport : Nat) (owner : LkOwner) :
    PlInode :=
  { inode with
    extList := inode.extList.filter fun l =>
      ¬(l.blocked = false ∧ l.transport = transport ∧ l.owner = owner) }

/-- `pl_flush` up to the waking of the waiters.  A zero lk-owner comes from a
client that went away, and then all the locks of the descriptor go. -/
def plFlushLocked (inode : PlInode) (transport : Nat) (owner : LkOwner) (fdNum : Nat) : PlInode :=
  if owner.length = 0 then deleteLocksOfFdLocked inode fdNum
  else deleteLocksOfOwner inode transport owner

/-! ## Runs -/

/-- The arguments of a lock request that `pl_lk` accepts, with a range that
lies within the 63-bit offsets. -/
structure LkArgs where
  flock : GfFlock
  transport : Nat
  clientPid : Nat
  owner : LkOwner
  fdNum : Nat
  frame : Nat
  start_nonneg : 0 ≤ flock.lStart
  len_nonneg : 0 ≤ flock.lLen
  in_range : flock.lStart + flock.lLen ≤ 2 ^ 63 ∧ flock.lStart < 2 ^ 63

/-- The `reqlock` of `pl_lk`; only a blocking request keeps its frame. -/
def LkArgs.reqlock (args : LkArgs) (canBlock : Bool) : PosixLock :=
  { newPosixLock args.flock args.transport args.clientPid args.owner
      args.fdNum with
    userFlock := args.flock
    frame := if canBlock then some args.frame else none }

inductive PlRequest
  | setlk (args : LkArgs) (canBlock : Bool)
  | flush (transport : Nat) (owner : LkOwner) (fdNum : Nat)
  | deleteFd (fdNum : Nat)

/-- What a request does before it wakes the waiters. -/
def PlRequest.locked (inode : PlInode) : PlRequest → PlInode
  | .setlk args canBlock =>
    (plSetlkLocked inode (args.reqlock canBlock) canBlock).2
  | .flush transport owner fdNum => plFlushLocked inode transport owner fdNum
  | .deleteFd fdNum => deleteLocksOfFdLocked inode fdNum

def plStep (inode : PlInode) (request : PlRequest) : Option PlInode :=
  some (grantBlockedLocks (request.locked inode))

end GlusterFS.Locks
