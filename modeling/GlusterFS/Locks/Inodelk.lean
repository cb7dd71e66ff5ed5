import GlusterFS.Core.WaitQueue
import GlusterFS.Locks.Setlk

/-!
# Inode locks

A domain of an inode keeps the granted inode locks on `inodelk_list` and the
waiting ones on `blocked_inodelks`.  Every request ends with
`grant_blocked_inode_locks`, which offers all the waiting locks again.
-/

namespace GlusterFS.Locks

open Transition WaitQueue

/-- `pl_inode_lock_t`.  Every request brings its own frame, so the frame also
tells which lock it is. -/
structure PlInodeLock where
  flType : LockType
  flStart : Int
  flEnd : Int
  frame : Nat
  transport : Nat
  owner : LkOwner
  clientPid : Nat
  deriving DecidableEq

/-- The inode locks of a `pl_dom_list_t`: `granted` is `inodelk_list`, `blocked`
is `blocked_inodelks`. -/
abbrev InodelkDom := Table PlInodeLock

/-- The arguments of a lock request. -/
structure InodelkArgs where
  flock : GfFlock
  transport : Nat
  clientPid : Nat
  owner : LkOwner

def newInodeLock (args : InodelkArgs) (frame : Nat) : PlInodeLock where
  flType := args.flock.lType
  flStart := args.flock.lStart
  flEnd := if args.flock.lLen = 0 then llongMax
    else toOffT (args.flock.lStart + args.flock.lLen - 1)
  frame := frame
  transport := args.transport
  owner := args.owner
  clientPid := args.clientPid

def inodelkTypeConflict (l1 l2 : PlInodeLock) : Prop :=
  l2.flType = .wrlck ∨ l1.flType = .wrlck
  deriving Decidable

def inodelkOverlap (l1 l2 : PlInodeLock) : Prop :=
  l1.flEnd ≥ l2.flStart ∧ l2.flEnd ≥ l1.flStart
  deriving Decidable

def sameInodelkOwner (l1 l2 : PlInodeLock) : Prop :=
  l1.owner = l2.owner ∧ l1.transport = l2.transport
  deriving Decidable

def inodelkConflict (l1 l2 : PlInodeLock) : Prop :=
  inodelkOverlap l1 l2 ∧ inodelkTypeConflict l1 l2
  deriving Decidable

/-- `__inodelk_grantable`: the first granted lock that stands in the way. -/
def inodelkGrantable (dom : InodelkDom) (lock : PlInodeLock) : Option PlInodeLock :=
  dom.granted.find? fun l => inodelkConflict lock l ∧ ¬sameInodelkOwner lock l

/-- `__blocked_lock_conflict` for inode locks. -/
def blockedInodelkConflict (dom : InodelkDom) (lock : PlInodeLock) : Option PlInodeLock :=
  dom.blocked.find? fun l => inodelkConflict lock l

/-- `__owner_has_lock` for inode locks. -/
def ownerHasInodelk (dom : InodelkDom) (newlock : PlInodeLock) : Prop :=
  (∃ lock ∈ dom.granted, sameInodelkOwner lock newlock) ∨
    ∃ lock ∈ dom.blocked, sameInodelkOwner lock newlock
  deriving Decidable

/-- `__lock_inodelk`.  A lock that would be granted waits all the same when it
conflicts with a waiting one and its owner has no lock yet. -/
def lockInodelk (dom : InodelkDom) (lock : PlInodeLock) (canBlock : Bool) : Int × InodelkDom :=
  let wait := if canBlock then { dom with blocked := dom.blocked ++ [lock] } else dom
  if (inodelkGrantable dom lock).isSome then (-eagain, wait)
  else if (blockedInodelkConflict dom lock).isSome ∧ ¬ownerHasInodelk dom lock then
    (-eagain, wait)
  else (0, { dom with granted := lock :: dom.granted })

def findMatchingInodelk (lock : PlInodeLock) (dom : InodelkDom) : Option PlInodeLock :=
  dom.granted.find? fun l =>
    (l.flStart = lock.flStart ∧ l.flEnd = lock.flEnd) ∧ sameInodelkOwner l lock

/-- `__inode_unlock_lock`: the lock that is taken off the list, and the rest. -/
def inodeUnlockLock (dom : InodelkDom) (lock : PlInodeLock) : Option (PlInodeLock × InodelkDom) :=
  (findMatchingInodelk lock dom).map fun conf =>
    (conf, { dom with granted := dom.granted.erase conf })

/-- One turn of `__grant_blocked_inode_locks`; the granted locks are kept last
first. -/
def grantInodelk (state : InodelkDom × List PlInodeLock) (bl : PlInodeLock) :
    InodelkDom × List PlInodeLock :=
  let (ret, dom) := lockInodelk state.1 bl true
  (dom, if ret = 0 then bl :: state.2 else state.2)

/-- `__grant_blocked_inode_locks`. -/
def grantBlockedInodeLocks (dom : InodelkDom) : InodelkDom × List PlInodeLock :=
  dom.blocked.foldl grantInodelk (⟨dom.granted, []⟩, [])

/-- The critical section of `pl_inode_setlk`, with its return value. -/
def plInodeSetlkLocked (dom : InodelkDom) (lock : PlInodeLock) (canBlock : Bool) :
    Int × InodelkDom :=
  if lock.flType ≠ .unlck then lockInodelk dom lock canBlock
  else match inodeUnlockLock dom lock with
    | none => (-einval, dom)
    | some (_, dom) => (0, dom)

def plInodeSetlk (dom : InodelkDom) (lock : PlInodeLock) (canBlock : Bool) : Int × InodelkDom :=
  let (ret, dom) := plInodeSetlkLocked dom lock canBlock
  (ret, (grantBlockedInodeLocks dom).1)

/-- The critical section of `release_inode_locks_of_transport`, with the waiting
locks that it takes away, last first. -/
def releaseInodeLocksLocked (dom : InodelkDom) (transport : Nat) : InodelkDom × List PlInodeLock :=
  (⟨dom.granted.filter fun l => l.transport ≠ transport,
      dom.blocked.filter fun l => l.transport ≠ transport⟩,
    (dom.blocked.filter fun l => l.transport = transport).reverse)

def releaseInodeLocksOfTransport (dom : InodelkDom) (transport : Nat) : InodelkDom :=
  (grantBlockedInodeLocks (releaseInodeLocksLocked dom transport).1).1

/-! ## Runs -/

inductive InodelkRequest
  | setlk (args : InodelkArgs) (canBlock : Bool)
  | releaseTransport (transport : Nat)

/-- A domain with the number of lock requests that have come; they are numbered
in the order of their arrival. -/
structure InodelkRun where
  dom : InodelkDom
  arrived : Nat

def InodelkRun.fresh : InodelkRun := ⟨⟨[], []⟩, 0⟩

/-- What a request does before it wakes the waiters. -/
def InodelkRequest.locked (s : InodelkRun) : InodelkRequest → InodelkDom
  | .setlk args canBlock =>
    (plInodeSetlkLocked s.dom (newInodeLock args s.arrived) canBlock).2
  | .releaseTransport transport => (releaseInodeLocksLocked s.dom transport).1

def inodelkStep (s : InodelkRun) : InodelkRequest → Option InodelkRun
  | .setlk args canBlock =>
    some ⟨(plInodeSetlk s.dom (newInodeLock args s.arrived) canBlock).2, s.arrived + 1⟩
  | .releaseTransport transport => some ⟨releaseInodeLocksOfTransport s.dom transport, s.arrived⟩

/-! ## Waking as a policy -/

/-- Why a lock has to wait. -/
def InodelkWaits (dom : InodelkDom) (lock : PlInodeLock) : Prop :=
  (∃ l ∈ dom.granted, inodelkConflict lock l ∧ ¬sameInodelkOwner lock l) ∨
    ∃ l ∈ dom.blocked, inodelkConflict lock l

def inodelkPolicy : Policy PlInodeLock where
  judge dom lock :=
    if (inodelkGrantable dom lock).isSome then .block
    else if (blockedInodelkConflict dom lock).isSome ∧ ¬ownerHasInodelk dom lock then .block
    else .grant
  place granted lock := lock :: granted
  place_perm _ _ := .refl _

variable {dom : InodelkDom} {lock : PlInodeLock}

theorem inodelkGrantable_isSome_iff : (inodelkGrantable dom lock).isSome ↔
      ∃ l ∈ dom.granted, inodelkConflict lock l ∧ ¬sameInodelkOwner lock l := by
  simp [inodelkGrantable, List.find?_isSome]

theorem inodelkPolicy_not_refuse (dom : InodelkDom) (lock : PlInodeLock) :
    inodelkPolicy.judge dom lock ≠ .refuse := by
  simp only [inodelkPolicy]
  split_ifs <;> simp

theorem inodelkWaits_of_block (hjudge : inodelkPolicy.judge dom lock = .block) :
    InodelkWaits dom lock := by
  simp only [inodelkPolicy] at hjudge
  split_ifs at hjudge with hgranted hblocked
  · exact .inl (inodelkGrantable_isSome_iff.mp hgranted)
  · exact .inr (by simpa [blockedInodelkConflict, List.find?_isSome] using hblocked.1)

theorem not_conflict_of_grant (hjudge : inodelkPolicy.judge dom lock = .grant) :
    ∀ l ∈ dom.granted, ¬sameInodelkOwner lock l → ¬inodelkConflict lock l := by
  simp only [inodelkPolicy] at hjudge
  split_ifs at hjudge with hgranted hblocked
  intro l hl hother hconflict
  exact hgranted (inodelkGrantable_isSome_iff.mpr ⟨l, hl, hconflict, hother⟩)

/-- `__lock_inodelk` judges, and leaves the domain alone when the lock must not
wait. -/
theorem lockInodelk_eq (dom : InodelkDom) (lock : PlInodeLock) (canBlock : Bool) :
    lockInodelk dom lock canBlock =
      if inodelkPolicy.judge dom lock = .grant then (0, inodelkPolicy.offer dom lock)
      else (-eagain, if canBlock then inodelkPolicy.offer dom lock else dom) := by
  rw [Policy.offer]
  simp only [lockInodelk, inodelkPolicy]
  split_ifs <;> simp_all

theorem grantBlockedInodeLocks_eq (dom : InodelkDom) :
    grantBlockedInodeLocks dom = inodelkPolicy.wake dom := by
  have hturn : grantInodelk = inodelkPolicy.wakeOne := by
    funext state bl
    simp only [grantInodelk, lockInodelk_eq, Policy.wakeOne]
    split_ifs <;> simp_all [eagain]
  rw [grantBlockedInodeLocks, hturn]
  rfl

/-! ## The domain between requests -/

/-- Granted locks of different owners do not conflict. -/
def InodelkExclusive (granted : List PlInodeLock) : Prop :=
  ∀ l1 ∈ granted, ∀ l2 ∈ granted, ¬sameInodelkOwner l1 l2 → ¬inodelkConflict l1 l2

/-- The waiting locks stand in the order of their arrival. -/
def InArrivalOrder (blocked : List PlInodeLock) : Prop :=
  blocked.Pairwise fun earlier later => earlier.frame < later.frame

/-- What holds of a domain when no request is under way. -/
structure InodelkInv (dom : InodelkDom) : Prop where
  exclusive : InodelkExclusive dom.granted
  waits : ∀ front lock behind, dom.blocked = front ++ lock :: behind →
    InodelkWaits ⟨dom.granted, front⟩ lock
  order : InArrivalOrder dom.blocked
  held : dom.blocked ≠ [] → dom.granted ≠ []

theorem InodelkExclusive.sublist {granted rest : List PlInodeLock}
    (hexclusive : InodelkExclusive granted) (hrest : rest.Sublist granted) :
    InodelkExclusive rest :=
  fun l1 h1 l2 h2 => hexclusive l1 (hrest.subset h1) l2 (hrest.subset h2)

theorem InodelkExclusive.grant (hexclusive : InodelkExclusive dom.granted)
    (hjudge : inodelkPolicy.judge dom lock = .grant) :
    InodelkExclusive (lock :: dom.granted) := by
  have hfree := not_conflict_of_grant hjudge
  intro l1 h1 l2 h2 hother
  rcases List.mem_cons.mp h1 with rfl | hold1 <;> rcases List.mem_cons.mp h2 with rfl | hold2
  · exact absurd ⟨rfl, rfl⟩ hother
  · exact hfree l2 hold2 hother
  · have hconflict := hfree l1 hold1 fun h => hother ⟨h.1.symm, h.2.symm⟩
    exact fun h => hconflict ⟨h.1.symm, h.2.symm⟩
  · exact hexclusive l1 hold1 l2 hold2 hother

/-- Waking sets the waiting locks right, whatever they were. -/
theorem inodelkInv_wake (hexclusive : InodelkExclusive dom.granted)
    (horder : InArrivalOrder dom.blocked) : InodelkInv (grantBlockedInodeLocks dom).1 := by
  rw [grantBlockedInodeLocks_eq]
  obtain ⟨dropped, hwoken⟩ := inodelkPolicy.wake_spec dom
  have hwaits (front : List PlInodeLock) (lock : PlInodeLock) (behind : List PlInodeLock)
      (hsplit : (inodelkPolicy.wake dom).1.blocked = front ++ lock :: behind) :
      InodelkWaits ⟨(inodelkPolicy.wake dom).1.granted, front⟩ lock := by
    obtain ⟨granted, -, hsubset, hblock⟩ := hwoken.reason front lock behind hsplit
    -- what stood in the way when the lock was offered is still there
    refine (inodelkWaits_of_block hblock).imp ?_ fun h => h
    rintro ⟨l, hl, hconflict⟩
    exact ⟨l, hsubset hl, hconflict⟩
  refine ⟨?_, hwaits, horder.sublist hwoken.order, fun hblocked hgranted => ?_⟩
  · exact inodelkPolicy.wake_rule (fun granted _ => InodelkExclusive granted)
      (fun _ _ _ h hjudge => h.grant hjudge) hexclusive
  · obtain ⟨first, rest, hfirst⟩ := List.exists_cons_of_ne_nil hblocked
    rcases hwaits [] first rest hfirst with ⟨l, hl, _⟩ | ⟨l, hl, _⟩
    · simp only [hgranted] at hl
      cases hl
    · cases hl

/-- What a request keeps before the waiters are woken. -/
structure InodelkRun.Sound (s : InodelkRun) : Prop where
  exclusive : InodelkExclusive s.dom.granted
  order : InArrivalOrder s.dom.blocked
  arrived : ∀ lock ∈ s.dom.blocked, lock.frame < s.arrived

theorem InodelkRun.Sound.lockInodelk {s : InodelkRun} (hsound : s.Sound)
    (hframe : lock.frame = s.arrived) (canBlock : Bool) :
    (⟨(lockInodelk s.dom lock canBlock).2, s.arrived + 1⟩ : InodelkRun).Sound := by
  have hkept : (⟨s.dom, s.arrived + 1⟩ : InodelkRun).Sound :=
    ⟨hsound.exclusive, hsound.order, fun l hl => Nat.lt_succ_of_lt (hsound.arrived l hl)⟩
  rw [lockInodelk_eq, Policy.offer]
  cases hjudge : inodelkPolicy.judge s.dom lock with
  | grant => exact ⟨hsound.exclusive.grant hjudge, hkept.order, hkept.arrived⟩
  | refuse => exact absurd hjudge (inodelkPolicy_not_refuse s.dom lock)
  | block =>
    cases canBlock with
    | false => exact hkept
    | true =>
      refine ⟨hsound.exclusive, ?_, ?_⟩
      · refine List.pairwise_append.mpr ⟨hsound.order, by simp, fun l hl new hnew => ?_⟩
        rw [List.mem_singleton.mp hnew, hframe]
        exact hsound.arrived l hl
      · intro l hl
        rcases List.mem_append.mp hl with hl | hl
        · exact hkept.arrived l hl
        · rw [List.mem_singleton.mp hl, hframe]
          exact Nat.lt_succ_self _

variable {request : InodelkRequest}

theorem InodelkRun.Sound.locked {s t : InodelkRun} (hsound : s.Sound)
    (hstep : inodelkStep s request = some t) :
    (⟨request.locked s, t.arrived⟩ : InodelkRun).Sound := by
  cases request with
  | setlk args canBlock =>
    obtain rfl := Option.some.inj hstep
    simp only [InodelkRequest.locked, plInodeSetlkLocked]
    split_ifs
    · exact hsound.lockInodelk rfl canBlock
    · have hlater (l : PlInodeLock) (hl : l ∈ s.dom.blocked) : l.frame < s.arrived + 1 :=
        Nat.lt_succ_of_lt (hsound.arrived l hl)
      rw [inodeUnlockLock]
      cases findMatchingInodelk (newInodeLock args s.arrived) s.dom with
      | none => exact ⟨hsound.exclusive, hsound.order, hlater⟩
      | some conf =>
        exact ⟨hsound.exclusive.sublist List.erase_sublist, hsound.order, hlater⟩
  | releaseTransport transport =>
    obtain rfl := Option.some.inj hstep
    exact ⟨hsound.exclusive.sublist List.filter_sublist, hsound.order.sublist List.filter_sublist,
      fun l hl => hsound.arrived l (List.mem_filter.mp hl).1⟩

theorem InodelkRun.Sound.step {s t : InodelkRun} (hsound : s.Sound)
    (hstep : inodelkStep s request = some t) : t.Sound ∧ InodelkInv t.dom := by
  have hlocked := hsound.locked hstep
  have hdom : t.dom = (grantBlockedInodeLocks (request.locked s)).1 := by
    cases request <;> obtain rfl := Option.some.inj hstep <;> rfl
  have hinv : InodelkInv t.dom := hdom ▸ inodelkInv_wake hlocked.exclusive hlocked.order
  refine ⟨⟨hinv.exclusive, hinv.order, fun l hl => ?_⟩, hinv⟩
  rw [hdom, grantBlockedInodeLocks_eq] at hl
  obtain ⟨dropped, hwoken⟩ := inodelkPolicy.wake_spec (request.locked s)
  exact hlocked.arrived l (hwoken.order.subset hl)

theorem inodelk_domain_consistent {s : InodelkRun}
    (hreach : Reachable inodelkStep InodelkRun.fresh s) : InodelkInv s.dom := by
  have hempty : InodelkInv InodelkRun.fresh.dom :=
    ⟨by simp [InodelkExclusive, InodelkRun.fresh], by simp [InodelkRun.fresh],
      by simp [InArrivalOrder, InodelkRun.fresh], by simp [InodelkRun.fresh]⟩
  have hboth : s.Sound ∧ InodelkInv s.dom :=
    hreach.invariant_along (fun s => s.Sound ∧ InodelkInv s.dom)
      ⟨⟨hempty.exclusive, hempty.order, by simp [InodelkRun.fresh]⟩, hempty⟩
      fun _ _ hstep h => h.1.step hstep
  exact hboth.2

/-- A lock of the given type on a range, by an owner of one byte. -/
def inodelkArgs (lType : LockType) (lStart lLen : Int) (owner : UInt8) : InodelkArgs :=
  ⟨{ GfFlock.zeroed with lType := lType, lStart := lStart, lLen := lLen }, 1, 0, [owner]⟩

/-- A writer waits for a reader, and a second reader waits behind the writer. -/
def readerWriterReader : List InodelkRequest :=
  [.setlk (inodelkArgs .rdlck 0 10 1) true, .setlk (inodelkArgs .wrlck 5 10 2) true,
    .setlk (inodelkArgs .rdlck 0 0 3) true]

theorem inodelk_domain_consistent_queue :
    ∃ s, run inodelkStep InodelkRun.fresh readerWriterReader = some s ∧
      s.dom.blocked.map PlInodeLock.frame = [1, 2] ∧ InodelkInv s.dom := by
  obtain ⟨s, hrun⟩ : ∃ s, run inodelkStep InodelkRun.fresh readerWriterReader = some s := ⟨_, rfl⟩
  have hblocked : s.dom.blocked.map PlInodeLock.frame = [1, 2] := by
    cases hrun
    decide
  exact ⟨s, hrun, hblocked, inodelk_domain_consistent (.of_run readerWriterReader .start hrun)⟩

end GlusterFS.Locks
