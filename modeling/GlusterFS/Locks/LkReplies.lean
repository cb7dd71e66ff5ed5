import GlusterFS.Locks.Exclusion

/-!
# Every fcntl lock request is answered

The frames that were answered and the frames of the waiting locks on
`ext_list` are together the frames of all the requests, each of them once.
Every operation is shown to keep this, or to add the frame of its own request.
-/

namespace GlusterFS.Locks

open Transition

def LkEvent.answered : LkEvent → Option (Option Nat)
  | .merge .. => none
  | .unwind frame _ _ => some frame

def blockedFrames (extList : List PosixLock) : List (Option Nat) :=
  (extList.filter fun l => l.blocked).map PosixLock.frame

namespace PlInode

/-- A waiting lock must have a frame, so `none` is never among these. -/
def frames (inode : PlInode) : List (Option Nat) :=
  inode.trace.filterMap LkEvent.answered ++ blockedFrames inode.extList

def unwind (inode : PlInode) (frame : Nat) (opRet opErrno : Int) : PlInode :=
  { inode with trace := inode.trace ++ [.unwind (some frame) opRet opErrno] }

end PlInode

/-- `pl_lk` for `F_SETLK` and, with `canBlock`, for `F_SETLKW`, where no reserve
lock is in the way. -/
def plLk (inode : PlInode) (args : LkArgs) (canBlock : Bool) : PlInode :=
  let (ret, inode) := plSetlk inode (args.reqlock canBlock) canBlock
  if ret = -1 then
    if canBlock = true ∧ args.flock.lType ≠ .unlck then inode
    else inode.unwind args.frame (-1) eagain
  else inode.unwind args.frame 0 0

/-- `pl_forget` for the fcntl locks. -/
def plForget (inode : PlInode) : PlInode where
  extList := []
  trace := inode.trace ++
    (inode.extList.filter fun l => l.blocked).map fun l => .unwind l.frame (-1) 0

/-- An inode with the number of lock requests so far; the frames are numbered in
the order of their arrival. -/
structure LkRun where
  inode : PlInode
  arrived : Nat

def LkRun.fresh : LkRun := ⟨.fresh, 0⟩

inductive LkRequest
  | lk (args : LkArgs) (canBlock : Bool)
  /-- A negative `l_start` or `l_len`. -/
  | lkInvalid
  | flush (transport : Nat) (owner : LkOwner) (fdNum : Nat)
  | release (fdNum : Nat)
  | forget

/-- One completed operation. -/
def lkStep (s : LkRun) : LkRequest → Option LkRun
  | .lk args canBlock =>
    some ⟨plLk s.inode { args with frame := s.arrived } canBlock, s.arrived + 1⟩
  | .lkInvalid => some ⟨s.inode.unwind s.arrived (-1) einval, s.arrived + 1⟩
  | .flush transport owner fdNum =>
    some ⟨grantBlockedLocks (plFlushLocked s.inode transport owner fdNum), s.arrived⟩
  | .release fdNum => some ⟨deleteLocksOfFd s.inode fdNum, s.arrived⟩
  | .forget => some ⟨plForget s.inode, s.arrived⟩

/-! ## What each operation does to the frames -/

variable {inode : PlInode} {lock : PosixLock} {extList : List PosixLock}

/-- Some locks are taken off the list, and the waiting ones among them are kept
aside. -/
theorem blockedFrames_part (extList : List PosixLock) (taken : PosixLock → Bool) :
    ((extList.filter fun l => l.blocked && taken l).map PosixLock.frame ++
      blockedFrames (extList.filter fun l => !taken l)).Perm (blockedFrames extList) := by
  have hparts := List.filter_append_perm taken (extList.filter fun l => l.blocked)
  rw [List.filter_filter, List.filter_filter] at hparts
  rw [blockedFrames, blockedFrames, List.filter_filter, ← List.map_append]
  simpa only [Bool.and_comm] using hparts.map PosixLock.frame

theorem blockedFrames_insertAndMerge (hwf : WellFormed extList) (hlock : Admissible lock) :
    blockedFrames (insertAndMerge extList lock) = blockedFrames extList := by
  have hforeign := (insertAndMerge_merges hwf hlock.granted hlock.valid).foreign
  have hblocked (table : List PosixLock) : (table.filter fun l => l.blocked) =
      (table.filter (Foreign lock.key ·)).filter fun l => l.blocked := by
    rw [List.filter_filter]
    refine List.filter_congr fun l _ => ?_
    cases h : l.blocked <;> simp [Foreign, h]
  rw [blockedFrames, blockedFrames, hblocked, hforeign, ← hblocked]

theorem frames_insertAndMerge (hwf : WellFormed inode.extList) (hlock : Admissible lock) :
    (inode.insertAndMerge lock).frames = inode.frames := by
  simp only [PlInode.frames, PlInode.insertAndMerge, blockedFrames_insertAndMerge hwf hlock,
    List.filterMap_append, List.filterMap_cons, LkEvent.answered, List.filterMap_nil,
    List.append_nil]

theorem frames_insertLock (hblocked : lock.blocked = true) :
    (inode.insertLock lock).frames = inode.frames ++ [lock.frame] := by
  simp [PlInode.frames, PlInode.insertLock, blockedFrames, hblocked]

/-- A waiter is granted, and its frame is to be answered, or it goes on
waiting. -/
theorem grantOne_frames (state : PlInode × List (Option Nat)) {waiter : PosixLock}
    (hwf : WellFormed state.1.extList) (hvalid : waiter.flStart ≤ waiter.flEnd) :
    ((grantOne state waiter).1.frames ++ (grantOne state waiter).2).Perm
      (waiter.frame :: (state.1.frames ++ state.2)) := by
  have hgranted : Admissible { waiter with blocked := false, frame := none } := ⟨rfl, hvalid⟩
  have hblocked : ({ waiter with blocked := true } : PosixLock).blocked = true := rfl
  rw [grantOne]
  split_ifs
  · simp only [frames_insertAndMerge hwf hgranted]
    exact List.perm_middle
  · simp only [frames_insertLock hblocked]
    rw [List.append_assoc]
    exact List.perm_middle

theorem foldl_grantOne_frames {waiters : List PosixLock} (hwaiters : WellFormed waiters)
    (state : PlInode × List (Option Nat)) (hwf : WellFormed state.1.extList) :
    ((waiters.foldl grantOne state).1.frames ++ (waiters.foldl grantOne state).2).Perm
      (waiters.map PosixLock.frame ++ (state.1.frames ++ state.2)) := by
  induction waiters generalizing state with
  | nil => exact .refl _
  | cons waiter waiters ih =>
    have hvalid := hwaiters.valid waiter List.mem_cons_self
    have hstep := grantOne_step state hvalid (hwaiters.locked waiter List.mem_cons_self)
    have hrest : WellFormed waiters :=
      ⟨fun l hl => hwaiters.valid l (List.mem_cons_of_mem _ hl),
        fun l hl => hwaiters.locked l (List.mem_cons_of_mem _ hl)⟩
    refine (ih hrest (grantOne state waiter) (hstep.wellFormed hwf)).trans ?_
    refine ((grantOne_frames state hwf hvalid).append_left _).trans ?_
    exact List.perm_middle

theorem grantBlockedLocks_frames (hwf : WellFormed inode.extList) :
    (grantBlockedLocks inode).frames.Perm inode.frames := by
  let tmpList := inode.extList.filter (wakes inode.extList)
  let start : PlInode := { inode with
    extList := inode.extList.filter fun l => !wakes inode.extList l }
  let result := tmpList.foldl grantOne (start, [])
  have hfold : (result.1.frames ++ result.2).Perm
      (tmpList.map PosixLock.frame ++ start.frames) := by
    have h := foldl_grantOne_frames (hwf.filter (wakes inode.extList)) (start, []) (hwf.filter _)
    rwa [List.append_nil] at h
  -- the answers to the granted frames stand before the frames that still wait
  have hanswered : (grantBlockedLocks inode).frames.Perm (result.1.frames ++ result.2) := by
    have hunwind : (result.2.map fun frame => LkEvent.unwind frame 0 0).filterMap
        LkEvent.answered = result.2 := by
      rw [List.filterMap_map]
      exact List.filterMap_some
    change (((result.1.trace ++ result.2.map fun frame => LkEvent.unwind frame 0 0).filterMap
      LkEvent.answered) ++ blockedFrames result.1.extList).Perm _
    rw [List.filterMap_append, hunwind, List.append_assoc, PlInode.frames, List.append_assoc]
    exact List.perm_append_comm.append_left _
  have hparts : (tmpList.map PosixLock.frame ++ blockedFrames start.extList).Perm
      (blockedFrames inode.extList) := by
    have htaken : tmpList = inode.extList.filter fun l => l.blocked && wakes inode.extList l := by
      refine List.filter_congr fun l _ => ?_
      cases h : l.blocked <;> simp [wakes, h]
    rw [htaken]
    exact blockedFrames_part inode.extList (wakes inode.extList)
  refine hanswered.trans (hfold.trans ?_)
  rw [PlInode.frames, PlInode.frames]
  refine List.perm_append_comm_assoc .. |>.trans ?_
  exact hparts.append_left _

theorem plSendPrelockUnlock_frames (hwf : WellFormed inode.extList) (args : LkArgs)
    (canBlock : Bool) :
    (plSendPrelockUnlock inode (args.reqlock canBlock)).frames.Perm inode.frames := by
  have hlock := args.prelockUnlock_admissible canBlock
  have hmerged : WellFormed
      (inode.insertAndMerge (prelockUnlock (args.reqlock canBlock))).extList :=
    (TableStep.merge hlock (isLockGrantable_of_unlck rfl)).wellFormed hwf
  refine (grantBlockedLocks_frames hmerged).trans ?_
  rw [frames_insertAndMerge hwf hlock]

/-- A blocking call that returns -1 has queued its request; otherwise the request
is not among the waiting locks. -/
theorem plSetlkLocked_frames (hwf : WellFormed inode.extList) (args : LkArgs) (canBlock : Bool) :
    let after := plSetlkLocked inode (args.reqlock canBlock) canBlock
    ((after.1 = 0 ∨ after.1 = -1 ∧ canBlock = false) ∧ after.2.frames.Perm inode.frames) ∨
      (after.1 = -1 ∧ canBlock = true ∧ args.flock.lType ≠ .unlck) ∧
        after.2.frames.Perm (some args.frame :: inode.frames) := by
  have hlock := args.reqlock_admissible canBlock
  intro after
  -- the table after the unlock that precedes a blocking request
  let middle := if canBlock = true ∧ ¬isLockGrantable inode.extList (args.reqlock canBlock)
    then plSendPrelockUnlock inode (args.reqlock canBlock) else inode
  have hmiddle : WellFormed middle.extList ∧ middle.frames.Perm inode.frames := by
    simp only [middle]
    split_ifs
    · exact ⟨(plSendPrelockUnlock_steps hwf args canBlock).wellFormed hwf,
        plSendPrelockUnlock_frames hwf args canBlock⟩
    · exact ⟨hwf, .refl _⟩
  have hafter : after = if isLockGrantable middle.extList (args.reqlock canBlock) then
      (0, middle.insertAndMerge (args.reqlock canBlock))
    else if canBlock then
      (-1, middle.insertLock { args.reqlock canBlock with blocked := true })
    else (-1, middle) := rfl
  split_ifs at hafter with hgrant hblock
  · refine .inl ⟨.inl (by rw [hafter]), ?_⟩
    rw [hafter, frames_insertAndMerge hmiddle.1 hlock]
    exact hmiddle.2
  · refine .inr ⟨⟨by rw [hafter], hblock, type_ne_unlck_of_not_grantable hgrant⟩, ?_⟩
    have hframes : (middle.insertLock { args.reqlock canBlock with blocked := true }).frames =
        middle.frames ++ [some args.frame] := by
      rw [frames_insertLock rfl, hblock]
      rfl
    rw [hafter, hframes]
    exact (List.perm_append_singleton _ _).trans (hmiddle.2.cons _)
  · exact .inl ⟨.inr ⟨by rw [hafter], by simpa using hblock⟩, by rw [hafter]; exact hmiddle.2⟩

theorem frames_unwind (inode : PlInode) (frame : Nat) (opRet opErrno : Int) :
    (inode.unwind frame opRet opErrno).frames.Perm (some frame :: inode.frames) := by
  simp only [PlInode.frames, PlInode.unwind, List.filterMap_append, List.filterMap_cons,
    LkEvent.answered, List.filterMap_nil, List.append_assoc]
  exact List.perm_middle

theorem plLk_frames (hwf : WellFormed inode.extList) (args : LkArgs) (canBlock : Bool) :
    (plLk inode args canBlock).frames.Perm (some args.frame :: inode.frames) := by
  have hsteps := plSetlkLocked_steps hwf args canBlock
  have hgrant : (plSetlk inode (args.reqlock canBlock) canBlock).2.frames.Perm _ :=
    grantBlockedLocks_frames (hsteps.wellFormed hwf)
  have hret : (plSetlk inode (args.reqlock canBlock) canBlock).1 =
      (plSetlkLocked inode (args.reqlock canBlock) canBlock).1 := rfl
  simp only [plLk]
  rcases plSetlkLocked_frames hwf args canBlock with
    ⟨hanswered, hframes⟩ | ⟨⟨hfailed, hblock, htype⟩, hframes⟩
  · have hanswer (opRet opErrno : Int) := (frames_unwind
      (plSetlk inode (args.reqlock canBlock) canBlock).2 args.frame opRet opErrno).trans
        ((hgrant.trans hframes).cons _)
    rcases hanswered with hdone | ⟨hfailed, hblock⟩
    · rw [if_neg (by rw [hret, hdone]; decide)]
      exact hanswer 0 0
    · rw [if_pos (hret.trans hfailed), if_neg (by simp [hblock])]
      exact hanswer (-1) eagain
  · rw [if_pos (hret.trans hfailed), if_pos ⟨hblock, htype⟩]
    exact hgrant.trans hframes

/-- Waiting locks that are dropped are answered. -/
theorem frames_dropAnswered (inode : PlInode) (taken : PosixLock → Bool) (opRet opErrno : Int) :
    PlInode.frames ⟨inode.extList.filter fun l => !taken l,
        inode.trace ++ (inode.extList.filter fun l => l.blocked && taken l).map
          fun l => .unwind l.frame opRet opErrno⟩ |>.Perm inode.frames := by
  have hunwind (locks : List PosixLock) :
      (locks.map fun l => LkEvent.unwind l.frame opRet opErrno).filterMap LkEvent.answered =
        locks.map PosixLock.frame := by
    rw [List.filterMap_map]
    exact congrFun List.filterMap_eq_map locks
  simp only [PlInode.frames, List.filterMap_append, hunwind, List.append_assoc]
  exact (blockedFrames_part inode.extList taken).append_left _

theorem deleteLocksOfFdLocked_frames (inode : PlInode) (fdNum : Nat) :
    (deleteLocksOfFdLocked inode fdNum).frames.Perm inode.frames := by
  have h := frames_dropAnswered inode (fun l => l.fdNum = fdNum) (-1) eagain
  simpa [deleteLocksOfFdLocked, Bool.and_comm] using h

theorem plForget_frames (inode : PlInode) : (plForget inode).frames.Perm inode.frames := by
  have h := frames_dropAnswered inode (fun _ => true) (-1) 0
  simpa [plForget] using h

theorem deleteLocksOfOwner_frames (inode : PlInode) (transport : Nat) (owner : LkOwner) :
    (deleteLocksOfOwner inode transport owner).frames = inode.frames := by
  simp only [PlInode.frames, deleteLocksOfOwner, blockedFrames, List.filter_filter]
  congr 2
  refine List.filter_congr fun l _ => ?_
  cases h : l.blocked <;> simp

theorem plFlushLocked_frames (inode : PlInode) (transport : Nat) (owner : LkOwner)
    (fdNum : Nat) : (plFlushLocked inode transport owner fdNum).frames.Perm inode.frames := by
  rw [plFlushLocked]
  split_ifs
  · exact deleteLocksOfFdLocked_frames inode fdNum
  · rw [deleteLocksOfOwner_frames]

/-! ## Runs -/

/-- The frames answered and the frames that wait are those of the requests. -/
structure LkRun.Settled (s : LkRun) : Prop where
  wellFormed : WellFormed s.inode.extList
  frames : s.inode.frames.Perm ((List.range s.arrived).map some)

theorem LkRun.Settled.arrive {s : LkRun} (hs : s.Settled) {after : PlInode}
    (hwf : WellFormed after.extList)
    (hframes : after.frames.Perm (some s.arrived :: s.inode.frames)) :
    (⟨after, s.arrived + 1⟩ : LkRun).Settled := by
  refine ⟨hwf, hframes.trans ((hs.frames.cons _).trans ?_)⟩
  rw [List.range_succ, List.map_append]
  exact (List.perm_append_singleton _ _).symm

/-- An operation that brings no request of its own ends with a grant pass. -/
theorem LkRun.Settled.pass {s : LkRun} (hs : s.Settled) {locked : PlInode}
    (hsteps : TableSteps s.inode locked) (hframes : locked.frames.Perm s.inode.frames) :
    (⟨grantBlockedLocks locked, s.arrived⟩ : LkRun).Settled := by
  have hwf := hsteps.wellFormed hs.wellFormed
  exact ⟨(grantBlockedLocks_steps hwf).wellFormed hwf,
    (grantBlockedLocks_frames hwf).trans (hframes.trans hs.frames)⟩

theorem LkRun.Settled.step {s t : LkRun} (hs : s.Settled) {request : LkRequest}
    (hstep : lkStep s request = some t) : t.Settled := by
  cases request with
  | lk args canBlock =>
    obtain rfl := Option.some.inj hstep
    let numbered : LkArgs := { args with frame := s.arrived }
    refine hs.arrive ?_ (plLk_frames hs.wellFormed numbered canBlock)
    have hsetlk : plStep s.inode (.setlk numbered canBlock) =
        some (plSetlk s.inode (numbered.reqlock canBlock) canBlock).2 := rfl
    have hwf := (plStep_steps hs.wellFormed hsetlk).wellFormed hs.wellFormed
    simp only [plLk]
    split_ifs <;> exact hwf
  | lkInvalid =>
    obtain rfl := Option.some.inj hstep
    exact hs.arrive hs.wellFormed (frames_unwind s.inode s.arrived (-1) einval)
  | flush transport owner fdNum =>
    obtain rfl := Option.some.inj hstep
    exact hs.pass (PlRequest.locked_steps hs.wellFormed (.flush transport owner fdNum))
      (plFlushLocked_frames s.inode transport owner fdNum)
  | release fdNum =>
    obtain rfl := Option.some.inj hstep
    exact hs.pass (deleteLocksOfFdLocked_steps s.inode fdNum)
      (deleteLocksOfFdLocked_frames s.inode fdNum)
  | forget =>
    obtain rfl := Option.some.inj hstep
    exact ⟨⟨by simp [plForget], by simp [plForget]⟩, (plForget_frames s.inode).trans hs.frames⟩

def LkRun.answers (s : LkRun) (frame : Nat) : Nat :=
  (s.inode.trace.filterMap LkEvent.answered).count (some frame)

def LkRun.waiting (s : LkRun) (frame : Nat) : Nat :=
  (blockedFrames s.inode.extList).count (some frame)

theorem lk_requests_settled {s : LkRun} (hreach : Reachable lkStep .fresh s) {frame : Nat}
    (hframe : frame < s.arrived) :
    s.answers frame = 1 ∧ s.waiting frame = 0 ∨ s.answers frame = 0 ∧ s.waiting frame = 1 := by
  have hsettled : s.Settled := hreach.invariant_along LkRun.Settled
    ⟨⟨by simp [LkRun.fresh, PlInode.fresh], by simp [LkRun.fresh, PlInode.fresh]⟩, .refl _⟩
    fun _ _ hstep hs => hs.step hstep
  have hnodup : ((List.range s.arrived).map some).Nodup :=
    List.nodup_range.map fun _ _ h => Option.some.inj h
  have hone : ((List.range s.arrived).map some).count (some frame) = 1 :=
    List.count_eq_one_of_mem hnodup (List.mem_map_of_mem (List.mem_range.mpr hframe))
  have hcount := hsettled.frames.count_eq (some frame)
  rw [PlInode.frames, List.count_append, hone] at hcount
  change s.answers frame + s.waiting frame = 1 at hcount
  omega

/-- Two owners wait for a third, and one of them is woken. -/
def twoWait : List LkRequest :=
  [.lk (lkArgs .wrlck 0 10 1) true, .lk (lkArgs .rdlck 0 5 2) true, .lk (lkArgs .wrlck 4 2 3) true,
    .lk (lkArgs .unlck 0 5 1) false]

theorem lk_requests_settled_twoWait : ∃ s, run lkStep .fresh twoWait = some s ∧ s.answers 1 = 1 ∧
      (s.answers 2 = 1 ∧ s.waiting 2 = 0 ∨ s.answers 2 = 0 ∧ s.waiting 2 = 1) := by
  obtain ⟨s, hrun⟩ : ∃ s, run lkStep .fresh twoWait = some s := ⟨_, rfl⟩
  have hstate : s.answers 1 = 1 ∧ 2 < s.arrived := by
    cases hrun
    decide
  exact ⟨s, hrun, hstate.1, lk_requests_settled (.of_run twoWait .start hrun) hstate.2⟩

end GlusterFS.Locks
