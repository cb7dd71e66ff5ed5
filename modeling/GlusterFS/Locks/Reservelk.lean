import GlusterFS.Core.WaitQueue
import GlusterFS.Locks.LkReplies

/-!
# Reserve locks

A reserve lock on a range defers the fcntl requests of other owners for the same
range: they are parked on `blocked_calls`.  The list `granted` of
`grant_blocked_lock_calls`, which is never initialised, is taken to be empty.  A
reserve lock that is woken is linked onto `reservelk_list` and then, by the same
node, onto a list on the stack; what a later walk over `reservelk_list` finds is
left open.
-/

namespace GlusterFS.Locks

open Transition WaitQueue

/-- The part of `pl_inode_t` for fcntl requests and reserve locks:
`reserve.granted` is `reservelk_list`, `reserve.blocked` is
`blocked_reservelks`.  The list is tangled when it leads to the stack. -/
structure ReserveState where
  inode : PlInode
  reserve : Table PosixLock
  blockedCalls : List PosixLock
  tangled : Bool

def ReserveState.fresh : ReserveState := ⟨.fresh, ⟨[], []⟩, [], false⟩

def reservelksEqual (l1 l2 : PosixLock) : Prop :=
  l1.flStart = l2.flStart ∧ l1.flEnd = l2.flEnd
  deriving Decidable

/-- `find_matching_reservelk` -/
def findMatchingReservelk (lock : PosixLock) (reservelkList : List PosixLock) :
    Option PosixLock :=
  reservelkList.find? fun l => reservelksEqual l lock

/-- `__lock_reservelk` -/
def lockReservelk (table : Table PosixLock) (lock : PosixLock) (canBlock : Bool) :
    Int × Table PosixLock :=
  if (table.granted.find? fun l => reservelksEqual lock l).isSome then
    (-eagain, if canBlock then { table with blocked := table.blocked ++ [lock] } else table)
  else (0, { table with granted := lock :: table.granted })

/-- One turn of `__grant_blocked_reserve_locks`; the granted locks are kept last
first. -/
def grantReservelk (state : Table PosixLock × List PosixLock) (bl : PosixLock) :
    Table PosixLock × List PosixLock :=
  let (ret, table) := lockReservelk state.1 bl true
  (table, if ret = 0 then bl :: state.2 else state.2)

namespace ReserveState

/-- `__reservelk_conflict`.  When the list has locks but none on the range,
`__matching_reservelk` returns the head of the list as if it were a lock; `stray`
is what stands there in the place of the owner, and `none` the freeing of the
head. -/
def reservelkConflict (s : ReserveState) (lock : PosixLock) (stray : LkOwner) :
    Option (Bool × ReserveState) :=
  if s.reserve.granted = [] then some (false, s)
  else match findMatchingReservelk lock s.reserve.granted with
    | some conf =>
      if lock.owner = conf.owner then
        some (false,
          { s with reserve := { s.reserve with granted := s.reserve.granted.erase conf } })
      else some (true, s)
    | none => if lock.owner = stray then none else some (true, s)

/-- `pl_lk` for `F_SETLK` and `F_SETLKW`: `pl_verify_reservelk` parks the request
or lets it go on. -/
def lk (s : ReserveState) (args : LkArgs) (canBlock : Bool) (stray : LkOwner) :
    Option ReserveState :=
  let reqlock := args.reqlock canBlock
  match s.reservelkConflict reqlock stray with
  | none => none
  | some (true, s) =>
    some { s with blockedCalls := s.blockedCalls ++ [{ reqlock with blocked := canBlock }] }
  | some (false, s) => some { s with inode := plLk s.inode args canBlock }

/-- `pl_lk` for `F_RESLK_LCK` and `F_RESLK_LCKW`. -/
def reserveSetlk (s : ReserveState) (args : LkArgs) (canBlock : Bool) : ReserveState :=
  let (ret, table) := lockReservelk s.reserve (args.reqlock true) canBlock
  let s := { s with reserve := table }
  if ret < 0 then
    if canBlock then s else { s with inode := s.inode.unwind args.frame (-1) (-ret) }
  else { s with inode := s.inode.unwind args.frame 0 0 }

def grantBlockedReserveLocks (s : ReserveState) : ReserveState :=
  let (table, granted) := s.reserve.blocked.foldl grantReservelk (⟨s.reserve.granted, []⟩, [])
  { s with
    reserve := table
    tangled := !granted.isEmpty
    inode := { s.inode with
      trace := s.inode.trace ++ granted.map fun l => .unwind l.frame 0 0 } }

/-- `grant_blocked_lock_calls`.  The pass takes its calls from
`blocked_reservelks` and verifies them with the mutex still held; `none` is the
thread that waits for itself. -/
def grantBlockedLockCalls (s : ReserveState) : Option ReserveState :=
  if s.blockedCalls = [] then some s
  else match s.reserve.blocked with
    | [] => some s
    | _ :: _ => none

/-- `pl_lk` for `F_RESLK_UNLCK`. -/
def reserveUnlock (s : ReserveState) (args : LkArgs) : Option ReserveState :=
  let (ret, s) := match findMatchingReservelk (args.reqlock true) s.reserve.granted with
    | none => (-einval, s)
    | some conf =>
      (0, { s with reserve := { s.reserve with granted := s.reserve.granted.erase conf } })
  s.grantBlockedReserveLocks.grantBlockedLockCalls.map fun s =>
    { s with inode := s.inode.unwind args.frame (if ret < 0 then -1 else 0) (-ret) }

end ReserveState

inductive ReserveRequest
  | lk (args : LkArgs) (canBlock : Bool) (stray : LkOwner)
  | reserveSetlk (args : LkArgs) (canBlock : Bool)
  | reserveUnlock (args : LkArgs)
  | flush (transport : Nat) (owner : LkOwner) (fdNum : Nat)
  | release (fdNum : Nat)

/-- One request.  Those that walk over `reservelk_list` have no result in the model while
the list is tangled. -/
def reserveStep (s : ReserveState) : ReserveRequest → Option ReserveState
  | .lk args canBlock stray => if s.tangled then none else s.lk args canBlock stray
  | .reserveSetlk args canBlock =>
    if s.tangled then none else some (s.reserveSetlk args canBlock)
  | .reserveUnlock args => if s.tangled then none else s.reserveUnlock args
  | .flush transport owner fdNum =>
    some { s with inode := grantBlockedLocks (plFlushLocked s.inode transport owner fdNum) }
  | .release fdNum => some { s with inode := deleteLocksOfFd s.inode fdNum }

/-! ## Parked calls -/

variable {s t : ReserveState}

variable {args : LkArgs}

/-- What an fcntl request does to the reserve locks and the parked calls. -/
theorem lk_cases {canBlock : Bool} {stray : LkOwner} (hstep : s.lk args canBlock stray = some t) :
    t.tangled = s.tangled ∧
      ((t.blockedCalls = s.blockedCalls ∧ (t.reserve = s.reserve ∧ s.reserve.granted = [] ∨
        ∃ conf, findMatchingReservelk (args.reqlock canBlock) s.reserve.granted = some conf ∧
          conf.owner = (args.reqlock canBlock).owner ∧
          t.reserve = { s.reserve with granted := s.reserve.granted.erase conf })) ∨
      (t.blockedCalls = s.blockedCalls ++ [{ args.reqlock canBlock with blocked := canBlock }] ∧
        t.reserve = s.reserve ∧ s.reserve.granted ≠ [] ∧
        ∀ conf ∈ findMatchingReservelk (args.reqlock canBlock) s.reserve.granted,
          conf.owner ≠ (args.reqlock canBlock).owner)) := by
  simp only [ReserveState.lk, ReserveState.reservelkConflict] at hstep
  by_cases hempty : s.reserve.granted = []
  · simp only [hempty, if_true] at hstep
    obtain rfl := Option.some.inj hstep
    exact ⟨rfl, .inl ⟨rfl, .inl ⟨rfl, hempty⟩⟩⟩
  · simp only [hempty, if_false] at hstep
    cases hfind : findMatchingReservelk (args.reqlock canBlock) s.reserve.granted with
    | none =>
      simp only [hfind] at hstep
      split_ifs at hstep
      obtain rfl := Option.some.inj hstep
      exact ⟨rfl, .inr ⟨rfl, rfl, hempty, fun _ h => nomatch h⟩⟩
    | some conf =>
      simp only [hfind] at hstep
      split_ifs at hstep with howner
      · obtain rfl := Option.some.inj hstep
        exact ⟨rfl, .inl ⟨rfl, .inr ⟨conf, rfl, howner.symm, rfl⟩⟩⟩
      · obtain rfl := Option.some.inj hstep
        refine ⟨rfl, .inr ⟨rfl, rfl, hempty, fun found hfound => ?_⟩⟩
        rw [← Option.some.inj hfound]
        exact Ne.symm howner

/-- The pass over the parked calls changes nothing when it returns. -/
theorem grantBlockedLockCalls_eq (hpass : s.grantBlockedLockCalls = some t) : t = s := by
  rw [ReserveState.grantBlockedLockCalls] at hpass
  split_ifs at hpass
  · exact (Option.some.inj hpass).symm
  · cases hblocked : s.reserve.blocked with
    | nil =>
      rw [hblocked] at hpass
      exact (Option.some.inj hpass).symm
    | cons head tail =>
      rw [hblocked] at hpass
      cases hpass

/-- No step takes a call off the list of parked calls. -/
theorem blockedCalls_stay {request : ReserveRequest} (hstep : reserveStep s request = some t) :
    s.blockedCalls <+: t.blockedCalls := by
  cases request with
  | lk args canBlock stray =>
    rw [reserveStep, Option.ite_none_left_eq_some] at hstep
    rcases (lk_cases hstep.2).2 with ⟨hcalls, -⟩ | ⟨hcalls, -⟩ <;> rw [hcalls]
    exact List.prefix_append _ _
  | reserveSetlk args canBlock =>
    rw [reserveStep, Option.ite_none_left_eq_some] at hstep
    obtain rfl := Option.some.inj hstep.2
    simp only [ReserveState.reserveSetlk]
    split_ifs <;> exact List.prefix_refl _
  | reserveUnlock args =>
    rw [reserveStep, Option.ite_none_left_eq_some, ReserveState.reserveUnlock] at hstep
    obtain ⟨passed, hpass, rfl⟩ := Option.map_eq_some_iff.mp hstep.2
    rw [grantBlockedLockCalls_eq hpass]
    split <;> exact List.prefix_refl _
  | flush transport owner fdNum | release fdNum =>
    obtain rfl := Option.some.inj hstep
    exact List.prefix_refl _

/-- A pass wakes no lock while the ranges of all that wait are held. -/
theorem foldl_grantReservelk {granted blocked waiters : List PosixLock}
    (hheld : ∀ waiter ∈ waiters, ∃ l ∈ granted, reservelksEqual waiter l) :
    waiters.foldl grantReservelk (⟨granted, blocked⟩, []) =
      (⟨granted, blocked ++ waiters⟩, []) := by
  induction waiters generalizing blocked with
  | nil => simp
  | cons waiter rest ih =>
    obtain ⟨⟨l, hl, hequal⟩, hrest⟩ := List.forall_mem_cons.mp hheld
    have hfound : (granted.find? fun l => reservelksEqual waiter l).isSome :=
      List.find?_isSome.mpr ⟨l, hl, by simpa using hequal⟩
    have hturn : grantReservelk (⟨granted, blocked⟩, []) waiter =
        (⟨granted, blocked ++ [waiter]⟩, []) := by
      simp [grantReservelk, lockReservelk, hfound, eagain]
    rw [List.foldl_cons, hturn, ih hrest, List.append_assoc, List.singleton_append]

theorem grantBlockedReserveLocks_held
    (hheld : ∀ waiter ∈ s.reserve.blocked, ∃ l ∈ s.reserve.granted, reservelksEqual waiter l) :
    s.grantBlockedReserveLocks = { s with tangled := false } := by
  rw [ReserveState.grantBlockedReserveLocks, foldl_grantReservelk hheld]
  simp

/-- The range of every reserve lock that waits is held by another lock than those that are
unlocked. -/
def WaitersHeld (s : ReserveState) (unlocked : PosixLock) : Prop :=
  ∀ waiter ∈ s.reserve.blocked, ∃ l ∈ s.reserve.granted,
    reservelksEqual waiter l ∧ ¬reservelksEqual l unlocked
  deriving Decidable

theorem reserveUnlock_cases (hwaiters : WaitersHeld s (args.reqlock true))
    (hstep : s.reserveUnlock args = some t) :
    t.blockedCalls = s.blockedCalls ∧ t.tangled = false ∧
      ∀ l ∈ s.reserve.granted, ¬reservelksEqual l (args.reqlock true) → l ∈ t.reserve.granted := by
  rw [ReserveState.reserveUnlock] at hstep
  cases hfind : findMatchingReservelk (args.reqlock true) s.reserve.granted with
  | none =>
    simp only [hfind] at hstep
    obtain ⟨passed, hpass, rfl⟩ := Option.map_eq_some_iff.mp hstep
    rw [grantBlockedLockCalls_eq hpass, grantBlockedReserveLocks_held fun waiter hwaiter =>
      (hwaiters waiter hwaiter).imp fun l hl => ⟨hl.1, hl.2.1⟩]
    exact ⟨rfl, rfl, fun l hl _ => hl⟩
  | some conf =>
    have hconf : reservelksEqual conf (args.reqlock true) := by
      simpa using List.find?_some hfind
    have hkept : ∀ l ∈ s.reserve.granted, ¬reservelksEqual l (args.reqlock true) →
        l ∈ s.reserve.granted.erase conf := by
      intro l hl hother
      refine (List.mem_erase_of_ne ?_).mpr hl
      rintro rfl
      exact hother hconf
    have hheld : ∀ waiter ∈ s.reserve.blocked, ∃ l ∈ s.reserve.granted.erase conf,
        reservelksEqual waiter l := fun waiter hwaiter =>
      (hwaiters waiter hwaiter).imp fun l hl => ⟨hkept l hl.1 hl.2.2, hl.2.1⟩
    simp only [hfind] at hstep
    obtain ⟨passed, hpass, rfl⟩ := Option.map_eq_some_iff.mp hstep
    rw [grantBlockedLockCalls_eq hpass, grantBlockedReserveLocks_held hheld]
    exact ⟨rfl, rfl, hkept⟩

/-- The list of reserve locks can be walked, and every parked call waits for a reserve lock
that is still held. -/
def Deferred (s : ReserveState) : Prop :=
  s.tangled = false ∧ ∀ call ∈ s.blockedCalls, ∃ l ∈ s.reserve.granted,
    reservelksEqual l call ∧ l.owner ≠ call.owner

/-- No reservation ends while a call is parked on its range, no reserve lock is woken, and no
request is compared with the head of `reservelk_list`. -/
def ReservationLasts (s : ReserveState) : ReserveRequest → Prop
  | .lk args canBlock _ => s.reserve.granted = [] ∨
      ∃ conf ∈ findMatchingReservelk (args.reqlock canBlock) s.reserve.granted,
        conf.owner = (args.reqlock canBlock).owner →
          ∀ call ∈ s.blockedCalls, ¬reservelksEqual conf call
  | .reserveUnlock args => WaitersHeld s (args.reqlock true) ∧
      ∀ call ∈ s.blockedCalls, ¬reservelksEqual call (args.reqlock true)
  | .reserveSetlk .. | .flush .. | .release _ => True

instance (s : ReserveState) : (request : ReserveRequest) → Decidable (ReservationLasts s request)
  | .lk .. => inferInstanceAs (Decidable (_ ∨ _))
  | .reserveUnlock _ => inferInstanceAs (Decidable (_ ∧ _))
  | .reserveSetlk .. | .flush .. | .release _ => inferInstanceAs (Decidable True)

theorem Deferred.subset (hs : Deferred s) (htangled : t.tangled = false)
    (hcalls : t.blockedCalls = s.blockedCalls)
    (hreserve : ∀ call ∈ s.blockedCalls, ∀ l ∈ s.reserve.granted, reservelksEqual l call →
      l ∈ t.reserve.granted) : Deferred t := by
  refine ⟨htangled, fun call hcall => ?_⟩
  rw [hcalls] at hcall
  obtain ⟨l, hl, hequal, howner⟩ := hs.2 call hcall
  exact ⟨l, hreserve call hcall l hl hequal, hequal, howner⟩

theorem Deferred.lk (hs : Deferred s) {canBlock : Bool} {stray : LkOwner}
    (hlasts : ReservationLasts s (.lk args canBlock stray))
    (hstep : s.lk args canBlock stray = some t) : Deferred t := by
  obtain ⟨htangled, hcases⟩ := lk_cases hstep
  rw [hs.1] at htangled
  rcases hcases with ⟨hcalls, ⟨hreserve, -⟩ | ⟨conf, hfind, howner, hreserve⟩⟩ |
    ⟨hcalls, hreserve, hheld, hconf⟩
  · exact hs.subset htangled hcalls fun _ _ l hl _ => hreserve ▸ hl
  · -- the reserve lock of the owner itself goes
    refine hs.subset htangled hcalls fun call hcall l hl hequal => ?_
    rcases hlasts with hempty | ⟨found, hfound, hlast⟩
    · rw [hempty] at hl
      cases hl
    · obtain rfl : found = conf := Option.some.inj (hfound.symm.trans hfind)
      rw [hreserve]
      refine (List.mem_erase_of_ne ?_).mpr hl
      rintro rfl
      exact hlast howner call hcall hequal
  · rcases hlasts with hempty | ⟨found, hfound, -⟩
    · exact absurd hempty hheld
    refine ⟨htangled, fun call hcall => ?_⟩
    rw [hcalls] at hcall
    rw [hreserve]
    rcases List.mem_append.mp hcall with hold | hnew
    · exact hs.2 call hold
    · obtain rfl := List.mem_singleton.mp hnew
      have hequal : reservelksEqual found (args.reqlock canBlock) := by
        simpa using List.find?_some hfound
      exact ⟨found, List.mem_of_find?_eq_some hfound, hequal, hconf found hfound⟩

theorem Deferred.step (hs : Deferred s) {request : ReserveRequest}
    (hlasts : ReservationLasts s request) (hstep : reserveStep s request = some t) :
    Deferred t := by
  cases request with
  | lk args canBlock stray =>
    rw [reserveStep, Option.ite_none_left_eq_some] at hstep
    exact hs.lk hlasts hstep.2
  | reserveSetlk args canBlock =>
    rw [reserveStep, Option.ite_none_left_eq_some] at hstep
    obtain rfl := Option.some.inj hstep.2
    simp only [ReserveState.reserveSetlk, lockReservelk]
    split_ifs <;> exact hs.subset hs.1 rfl fun _ _ _ hl _ => by simp [hl]
  | reserveUnlock args =>
    rw [reserveStep, Option.ite_none_left_eq_some] at hstep
    obtain ⟨hcalls, htangled, hreserve⟩ := reserveUnlock_cases hlasts.1 hstep.2
    refine hs.subset htangled hcalls fun call hcall l hl hequal =>
      hreserve l hl fun hlifted => ?_
    refine hlasts.2 call hcall ⟨?_, ?_⟩
    · rw [← hequal.1, hlifted.1]
    · rw [← hequal.2, hlifted.2]
  | flush transport owner fdNum | release fdNum =>
    obtain rfl := Option.some.inj hstep
    exact hs.subset hs.1 rfl fun _ _ _ hl _ => hl

theorem parked_calls_deferred (hreach : ReachableUnder reserveStep ReservationLasts .fresh s) :
    Deferred s :=
  hreach.invariant_along Deferred ⟨rfl, by simp [ReserveState.fresh]⟩ fun _ hlasts hstep hs =>
    hs.step hlasts hstep

/-- Owner 1 reserves a range, and the request of owner 2 for it is parked. -/
def reservedThenParked : List ReserveRequest :=
  [.reserveSetlk (lkArgs .wrlck 0 10 1) false, .lk (lkArgs .wrlck 0 10 2) true []]

theorem parked_calls_deferred_reserved :
    ∃ s, run reserveStep .fresh reservedThenParked = some s ∧ s.blockedCalls ≠ [] ∧
      Deferred s := by
  obtain ⟨s, hrun⟩ : ∃ s, run reserveStep .fresh reservedThenParked = some s := ⟨_, rfl⟩
  have hparked : s.blockedCalls ≠ [] := by
    cases hrun
    decide
  have hguard : GuardedRun reserveStep ReservationLasts .fresh reservedThenParked := by decide
  exact ⟨s, hrun, hparked, parked_calls_deferred (.of_run reservedThenParked .start hguard hrun)⟩

/-- The reservation ends, and the request is still parked. -/
theorem parked_after_reserve_unlock : ∃ s, run reserveStep .fresh (reservedThenParked ++
        [.reserveUnlock (lkArgs .wrlck 0 10 1)]) = some s ∧
      s.reserve.granted = [] ∧ s.blockedCalls.map PosixLock.frame = [some 2] ∧
      some (some 2) ∉ s.inode.trace.map LkEvent.answered ∧ ¬Deferred s := by
  obtain ⟨s, hrun⟩ : ∃ s, run reserveStep .fresh (reservedThenParked ++
      [.reserveUnlock (lkArgs .wrlck 0 10 1)]) = some s := ⟨_, rfl⟩
  refine ⟨s, hrun, ?_⟩
  cases hrun
  refine ⟨by decide, by decide, by decide, fun hdeferred => ?_⟩
  obtain ⟨l, hl, -⟩ := hdeferred.2 _ List.mem_cons_self
  cases hl

end GlusterFS.Locks
