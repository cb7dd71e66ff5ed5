import GlusterFS.Locks.InsertAndMerge
import GlusterFS.Locks.Setlk

/-!
# The elementary changes of a lock table

Every operation on the table is a sequence of four kinds of change.  What a
change can do is said here once, and the invariants of the later modules are
proved for a single change.
-/

namespace GlusterFS.Locks

open Relation

/-- A lock that may be inserted as granted: valid and not waiting. -/
structure Admissible (lock : PosixLock) : Prop where
  granted : lock.blocked = false
  valid : lock.flStart ≤ lock.flEnd

inductive TableStep : PlInode → PlInode → Prop
  /-- A grantable lock is merged into the table. -/
  | merge {inode : PlInode} {lock : PosixLock} (hlock : Admissible lock)
      (hgrant : isLockGrantable inode.extList lock) :
      TableStep inode (inode.insertAndMerge lock)
  /-- A request starts, or goes on, waiting. -/
  | block {inode : PlInode} {lock : PosixLock} (hblocked : lock.blocked = true)
      (hvalid : lock.flStart ≤ lock.flEnd) (htype : lock.flType ≠ .unlck) :
      TableStep inode (inode.insertLock lock)
  /-- Locks are taken off the list. -/
  | drop {inode : PlInode} (keep : PosixLock → Bool) :
      TableStep inode { inode with extList := inode.extList.filter keep }
  /-- Frames are answered. -/
  | answer {inode : PlInode} {replies : List LkEvent}
      (hreplies : ∀ extList lock, .merge extList lock ∉ replies) :
      TableStep inode { inode with trace := inode.trace ++ replies }

abbrev TableSteps : PlInode → PlInode → Prop := ReflTransGen TableStep

/-- A grantable waiter and a waiter that stays blocked are both one change. -/
theorem grantOne_step (state : PlInode × List (Option Nat))
    {waiter : PosixLock} (hvalid : waiter.flStart ≤ waiter.flEnd)
    (htype : waiter.flType ≠ .unlck) :
    TableStep state.1 (grantOne state waiter).1 := by
  unfold grantOne
  split_ifs with hgrant
  · exact TableStep.merge ⟨rfl, hvalid⟩ hgrant
  · exact TableStep.block rfl hvalid htype

theorem foldl_grantOne_steps {waiters : List PosixLock}
    (hwf : WellFormed waiters) (state : PlInode × List (Option Nat)) :
    TableSteps state.1 (waiters.foldl grantOne state).1 := by
  induction waiters generalizing state with
  | nil => exact .refl
  | cons waiter waiters ih =>
    have hhead := grantOne_step state (hwf.valid waiter (by simp)) (hwf.locked waiter (by simp))
    have hrest : WellFormed waiters :=
      ⟨fun l hl => hwf.valid l (by simp [hl]), fun l hl => hwf.locked l (by simp [hl])⟩
    exact ReflTransGen.head hhead (ih hrest _)

variable {extList : List PosixLock}

theorem WellFormed.filter (hwf : WellFormed extList) (keep : PosixLock → Bool) :
    WellFormed (extList.filter keep) :=
  ⟨fun l hl => hwf.valid l (List.mem_of_mem_filter hl),
    fun l hl => hwf.locked l (List.mem_of_mem_filter hl)⟩

variable {inode : PlInode}

theorem grantBlockedLocks_steps (hwf : WellFormed inode.extList) :
    TableSteps inode (grantBlockedLocks inode) := by
  unfold grantBlockedLocks
  refine ReflTransGen.head (TableStep.drop _)
    (ReflTransGen.tail (foldl_grantOne_steps (hwf.filter _) (_, [])) (TableStep.answer ?_))
  simp

theorem isLockGrantable_of_unlck {lock : PosixLock} (htype : lock.flType = .unlck) :
    isLockGrantable extList lock := by
  intro l _ hrefuses
  exact hrefuses.2.2.1 htype

theorem TableStep.wellFormed {before after : PlInode}
    (hstep : TableStep before after) (hwf : WellFormed before.extList) :
    WellFormed after.extList := by
  cases hstep with
  | merge hlock _ =>
    exact (insertAndMerge_merges hwf hlock.granted hlock.valid).wellFormed
  | block _ hvalid htype =>
    exact wellFormed_append.mpr ⟨hwf, ⟨by simpa using hvalid, by simpa using htype⟩⟩
  | drop keep => exact hwf.filter keep
  | answer => exact hwf

theorem TableSteps.wellFormed {before after : PlInode}
    (hsteps : TableSteps before after) (hwf : WellFormed before.extList) :
    WellFormed after.extList := by
  induction hsteps with
  | refl => exact hwf
  | tail _ hstep ih => exact hstep.wellFormed ih

theorem newPosixLock_valid {flock : GfFlock} (hstart : 0 ≤ flock.lStart)
    (hlen : 0 ≤ flock.lLen) (hlt : flock.lStart < 2 ^ 63)
    (hrange : flock.lStart + flock.lLen ≤ 2 ^ 63)
    (transport clientPid : Nat) (owner : LkOwner) (fdNum : Nat) :
    (newPosixLock flock transport clientPid owner fdNum).flStart ≤
      (newPosixLock flock transport clientPid owner fdNum).flEnd := by
  simp only [newPosixLock]
  split_ifs with hzero
  · simp only [llongMax]
    omega
  · rw [toOffT, Int.bmod_eq_of_le (by omega) (by omega)]
    omega

theorem LkArgs.reqlock_admissible (args : LkArgs) (canBlock : Bool) :
    Admissible (args.reqlock canBlock) :=
  ⟨rfl, newPosixLock_valid args.start_nonneg args.len_nonneg args.in_range.2
    args.in_range.1 args.transport args.clientPid args.owner args.fdNum⟩

theorem LkArgs.prelockUnlock_admissible (args : LkArgs) (canBlock : Bool) :
    Admissible (prelockUnlock (args.reqlock canBlock)) := by
  refine ⟨rfl, ?_⟩
  exact newPosixLock_valid args.start_nonneg args.len_nonneg args.in_range.2
    args.in_range.1 args.transport args.clientPid args.owner args.fdNum

theorem plSendPrelockUnlock_steps (hwf : WellFormed inode.extList) (args : LkArgs)
    (canBlock : Bool) :
    TableSteps inode (plSendPrelockUnlock inode (args.reqlock canBlock)) := by
  have hstep : TableStep inode (inode.insertAndMerge (prelockUnlock (args.reqlock canBlock))) :=
    TableStep.merge (args.prelockUnlock_admissible canBlock) (isLockGrantable_of_unlck rfl)
  exact ReflTransGen.head hstep (grantBlockedLocks_steps (hstep.wellFormed hwf))

theorem type_ne_unlck_of_not_grantable {lock : PosixLock}
    (hrefused : ¬isLockGrantable extList lock) :
    lock.flType ≠ .unlck :=
  fun htype => hrefused (isLockGrantable_of_unlck htype)

theorem plSetlkLocked_steps (hwf : WellFormed inode.extList) (args : LkArgs) (canBlock : Bool) :
    TableSteps inode (plSetlkLocked inode (args.reqlock canBlock) canBlock).2 := by
  have hlock := args.reqlock_admissible canBlock
  unfold plSetlkLocked
  -- the table after the unlock that precedes a blocking request
  generalize hmiddle : (if canBlock = true ∧
      ¬isLockGrantable inode.extList (args.reqlock canBlock) then
      plSendPrelockUnlock inode (args.reqlock canBlock) else inode) = middle
  have hsteps : TableSteps inode middle := by
    rw [← hmiddle]
    split_ifs
    · exact plSendPrelockUnlock_steps hwf args canBlock
    · exact .refl
  simp only
  split_ifs with hgrant hblock
  · exact hsteps.tail (TableStep.merge hlock hgrant)
  · refine hsteps.tail (TableStep.block rfl hlock.valid ?_)
    exact type_ne_unlck_of_not_grantable hgrant
  · exact hsteps

theorem deleteLocksOfFdLocked_steps (inode : PlInode) (fdNum : Nat) :
    TableSteps inode (deleteLocksOfFdLocked inode fdNum) :=
  ReflTransGen.head (TableStep.drop fun l => l.fdNum ≠ fdNum)
    (ReflTransGen.single (TableStep.answer (by simp)))

theorem PlRequest.locked_steps (hwf : WellFormed inode.extList) (request : PlRequest) :
    TableSteps inode (request.locked inode) := by
  cases request with
  | setlk args canBlock => exact plSetlkLocked_steps hwf args canBlock
  | flush transport owner fdNum =>
    simp only [PlRequest.locked, plFlushLocked]
    split_ifs
    · exact deleteLocksOfFdLocked_steps inode fdNum
    · exact ReflTransGen.single (TableStep.drop _)
  | deleteFd fdNum => exact deleteLocksOfFdLocked_steps inode fdNum

/-- A completed operation is a sequence of elementary changes. -/
theorem plStep_steps {before after : PlInode} {request : PlRequest}
    (hwf : WellFormed before.extList) (hstep : plStep before request = some after) :
    TableSteps before after := by
  cases hstep
  have hlocked := request.locked_steps hwf
  exact hlocked.trans (grantBlockedLocks_steps (hlocked.wellFormed hwf))

end GlusterFS.Locks
