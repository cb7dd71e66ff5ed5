import Mathlib.Data.UInt

/-!
# Posix (fcntl) locks of one inode

The lock objects of the locks translator and the interval arithmetic that
`__insert_and_merge` does on them.  A `pl_inode` keeps granted and waiting
locks on one list, `ext_list`, told apart by the `blocked` flag.
-/

namespace GlusterFS.Locks

/-- Largest `off_t`, the end of a lock that reaches to the end of the file. -/
def llongMax : Int := 2 ^ 63 - 1

/-- A 64-bit signed `off_t` value after wrap-around. -/
def toOffT (value : Int) : Int := Int.bmod value (2 ^ 64)

inductive LockType
  | rdlck
  | wrlck
  | unlck
  deriving DecidableEq, Repr

/-- `gf_lkowner_t`, as its bytes. -/
abbrev LkOwner := List UInt8

structure GfFlock where
  lType : LockType
  lWhence : Nat
  lStart : Int
  lLen : Int
  lPid : Nat
  lOwner : LkOwner
  deriving DecidableEq

/-- What `GF_CALLOC` leaves in a flock; `F_RDLCK` is zero. -/
def GfFlock.zeroed : GfFlock := ⟨.rdlck, 0, 0, 0, 0, []⟩

/-- `posix_lock_t`.  A lock is bound to the connection and the lock owner that
asked for it, and to the frame that waits for the answer when it blocks. -/
structure PosixLock where
  flType : LockType
  flStart : Int
  flEnd : Int
  blocked : Bool
  userFlock : GfFlock
  fdNum : Nat
  frame : Option Nat
  transport : Nat
  owner : LkOwner
  clientPid : Nat
  deriving DecidableEq

/-- A lock fresh from `GF_CALLOC`. -/
def PosixLock.zeroed : PosixLock where
  flType := .rdlck
  flStart := 0
  flEnd := 0
  blocked := false
  userFlock := GfFlock.zeroed
  fdNum := 0
  frame := none
  transport := 0
  owner := []
  clientPid := 0

def newPosixLock (flock : GfFlock) (transport clientPid : Nat)
    (owner : LkOwner) (fdNum : Nat) : PosixLock :=
  { PosixLock.zeroed with
    flStart := flock.lStart
    flType := flock.lType
    flEnd := if flock.lLen = 0 then llongMax
      else toOffT (flock.lStart + flock.lLen - 1)
    transport := transport
    fdNum := fdNum
    clientPid := clientPid
    owner := owner }

/-- Overwrites the fields a lock determines; `l_whence` stays. -/
def posixLockToFlock (lock : PosixLock) (flock : GfFlock) : GfFlock :=
  { flock with
    lPid := lock.clientPid
    lType := lock.flType
    lStart := lock.flStart
    lOwner := lock.owner
    lLen := if lock.flEnd = llongMax then 0
      else lock.flEnd - lock.flStart + 1 }

/-- Refresh `user_flock` from the lock, as done before re-inserting a piece. -/
def PosixLock.refreshFlock (lock : PosixLock) : PosixLock :=
  { lock with userFlock := posixLockToFlock lock lock.userFlock }

def locksOverlap (l1 l2 : PosixLock) : Prop :=
  l1.flEnd ≥ l2.flStart ∧ l2.flEnd ≥ l1.flStart
  deriving Decidable

def sameOwner (l1 l2 : PosixLock) : Prop :=
  l1.owner = l2.owner ∧ l1.transport = l2.transport
  deriving Decidable

def deleteUnlckLocks (extList : List PosixLock) : List PosixLock :=
  extList.filter fun l => l.flType ≠ .unlck

/-- The hull of two locks; everything but the range is zeroed. -/
def addLocks (l1 l2 : PosixLock) : PosixLock :=
  { PosixLock.zeroed with
    flStart := min l1.flStart l2.flStart
    flEnd := max l1.flEnd l2.flEnd }

/-- The pieces of `big` around `small`, with `small` itself, in the order of
the array `v.locks`.  `none` is the assertion at the end of the function. -/
def subtractLocks (big small : PosixLock) : Option (List PosixLock) :=
  if big.flStart = small.flStart ∧ big.flEnd = small.flEnd then
    some [{ big with flType := small.flType }]
  else if small.flStart > big.flStart ∧ small.flEnd < big.flEnd then
    some [{ big with flEnd := small.flStart - 1 }, small, { big with flStart := small.flEnd + 1 }]
  else if small.flStart = big.flStart then
    some [{ big with flStart := small.flEnd + 1 }, small]
  else if small.flEnd = big.flEnd then
    some [{ big with flEnd := small.flStart - 1 }, small]
  else
    none

/-- What the scan of `__insert_and_merge` over `ext_list` ends with. -/
inductive MergeScan
  /-- A granted lock of the same owner overlaps; it is taken off the list. -/
  | merge (conf : PosixLock) (others : List PosixLock)
  /-- A read lock met a read lock of another owner. -/
  | insertNow
  /-- The end of the list. -/
  | exhausted
  deriving DecidableEq

/-- Step over a lock that the scan leaves on the list. -/
def MergeScan.keep (skipped : PosixLock) : MergeScan → MergeScan
  | .merge conf others => .merge conf (skipped :: others)
  | .insertNow => .insertNow
  | .exhausted => .exhausted

def mergeScan (lock : PosixLock) : List PosixLock → MergeScan
  | [] => .exhausted
  | conf :: rest =>
    if conf.blocked then (mergeScan lock rest).keep conf
    else if ¬locksOverlap conf lock then (mergeScan lock rest).keep conf
    else if sameOwner conf lock then .merge conf rest
    else if lock.flType = .unlck then (mergeScan lock rest).keep conf
    else if conf.flType = .rdlck ∧ lock.flType = .rdlck then .insertNow
    else (mergeScan lock rest).keep conf

/-- The union of `lock` with a lock of the same owner and type. -/
def unionLock (lock conf : PosixLock) : PosixLock :=
  PosixLock.refreshFlock { addLocks lock conf with
      flType := lock.flType
      transport := lock.transport
      fdNum := lock.fdNum
      clientPid := lock.clientPid
      owner := lock.owner }

/-- The hull that `lock` is cut out of when the types differ. -/
def hullLock (lock conf : PosixLock) : PosixLock :=
  { addLocks lock conf with
    flType := conf.flType
    transport := conf.transport
    fdNum := conf.fdNum
    clientPid := conf.clientPid
    owner := conf.owner }

/-- The locks inserted in place of `lock` and `conf` when the types differ. -/
def splitLocks (lock conf : PosixLock) : List PosixLock :=
  ((subtractLocks (hullLock lock conf) lock).getD []).map PosixLock.refreshFlock

/-- `__insert_and_merge` to a given depth of recursion. -/
def insertAndMergeFuel : Nat → List PosixLock → PosixLock → Option (List PosixLock)
  | 0, _, _ => none
  | fuel + 1, extList, lock =>
    match mergeScan lock extList with
    | .insertNow => some (extList ++ [lock])
    | .exhausted =>
      if lock.flType ≠ .unlck then some (extList ++ [lock])
      else some extList
    | .merge conf others =>
      if conf.flType = lock.flType then
        insertAndMergeFuel fuel others (unionLock lock conf)
      else
        ((splitLocks lock conf).foldlM (insertAndMergeFuel fuel) others).map deleteUnlckLocks

def PosixLock.length (lock : PosixLock) : Nat :=
  (lock.flEnd - lock.flStart + 1).toNat

/-- Lock owners are told apart by the lk-owner and the connection. -/
def PosixLock.key (lock : PosixLock) : LkOwner × Nat :=
  (lock.owner, lock.transport)

/-- Offsets covered by the granted locks of one owner, each counted once per
lock. -/
def ownMass (who : LkOwner × Nat) (extList : List PosixLock) : Nat :=
  (extList.map fun l =>
    if l.blocked = false ∧ l.key = who then l.length else 0).sum

/-- `__insert_and_merge`.  The recursion always ends within the given depth,
see `insertAndMergeFuel_isSome`. -/
def insertAndMerge (extList : List PosixLock) (lock : PosixLock) :
    List PosixLock :=
  (insertAndMergeFuel (ownMass lock.key extList + lock.length + 1) extList lock).getD extList

end GlusterFS.Locks
