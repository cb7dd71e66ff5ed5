import GlusterFS.Core.ProcessTable
import GlusterFS.Core.RefCount
import GlusterFS.Locks.Inodelk

/-!
# Inode locks under several threads

Each section under `pl_inode->mutex` and each answer to a frame is one step, and
the steps of the threads mix in any order.  A lock has a reference for
`inodelk_list` and one for the list its node `blocked_locks` is on: that is
`blocked_inodelks` or the private list of a thread.
-/

namespace GlusterFS.Locks

open Transition WaitQueue ProcessTable RefCount

/-- A frame with what it is answered. -/
structure InodelkReply where
  frame : Nat
  opRet : Int
  opErrno : Int
  deriving DecidableEq

/-- Where a thread is, with its private list and with the answer that
`pl_common_inodelk` owes when the call returns. -/
inductive InodelkPhase
  | idle
  /-- Waiting locks that were taken away are answered and dropped one by one;
  `grant_blocked_inode_locks` is next. -/
  | releasing (released : List PlInodeLock) (reply : Option InodelkReply)
  /-- The woken locks of the list `granted` are answered one by one. -/
  | granting (unanswered granted : List PlInodeLock) (reply : Option InodelkReply)
  | returning (reply : Option InodelkReply)
  deriving DecidableEq

/-- One domain with the reference counts of its locks, the answers so far and
the threads. -/
structure InodelkState where
  dom : InodelkDom
  heap : Heap
  replies : List InodelkReply
  threads : List InodelkPhase

def InodelkState.start (threads : Nat) : InodelkState :=
  ⟨⟨[], []⟩, .empty, [], List.replicate threads .idle⟩

def frames (locks : List PlInodeLock) : List Nat := locks.map PlInodeLock.frame

/-- What `pl_common_inodelk` answers when `pl_inode_setlk` returns `ret`: nothing
to a request that waits. -/
def inodelkAnswer (lock : PlInodeLock) (canBlock : Bool) (ret : Int) : Option InodelkReply :=
  if ret < 0 then
    if canBlock = true ∧ lock.flType ≠ .unlck then none else some ⟨lock.frame, -1, -ret⟩
  else some ⟨lock.frame, 0, 0⟩

/-- The critical section of `pl_inode_setlk` with its references.  The new lock
has one already. -/
def setlkSection (dom : InodelkDom) (heap : Heap) (lock : PlInodeLock) (canBlock : Bool) :
    InodelkDom × Heap × Int :=
  if lock.flType ≠ .unlck then
    let (ret, dom) := lockInodelk dom lock canBlock
    let heap := if ret = 0 then heap.retain lock.frame else heap
    if ret = -eagain ∧ canBlock = true then (dom, heap, ret)
    else (dom, heap.release lock.frame, ret)
  else match inodeUnlockLock dom lock with
    | none => (dom, heap.release lock.frame, -einval)
    | some (retlock, dom) => (dom, (heap.release retlock.frame).release lock.frame, 0)

namespace InodelkState

def setlk (s : InodelkState) (thread : Nat) (args : InodelkArgs) (canBlock : Bool) :
    InodelkState :=
  let lock := newInodeLock args s.heap.next
  let (dom, heap, ret) := setlkSection s.dom s.heap.alloc lock canBlock
  { s with
    dom := dom
    heap := heap
    threads := s.threads.set thread (.releasing [] (inodelkAnswer lock canBlock ret)) }

/-- The critical section of `release_inode_locks_of_transport`. -/
def release (s : InodelkState) (thread : Nat) (transport : Nat) : InodelkState :=
  let (dom, released) := releaseInodeLocksLocked s.dom transport
  { s with
    dom := dom
    heap := s.heap.releaseAll (frames (s.dom.granted.filter fun l => l.transport = transport))
    threads := s.threads.set thread (.releasing released none) }

/-- A thread goes on from where it is. -/
def goOn (s : InodelkState) (thread : Nat) : InodelkPhase → Option InodelkState
  | .idle => none
  | .releasing (lock :: released) reply =>
    some { s with
      heap := s.heap.release lock.frame
      replies := ⟨lock.frame, -1, eagain⟩ :: s.replies
      threads := s.threads.set thread (.releasing released reply) }
  | .releasing [] reply =>
    let (dom, granted) := grantBlockedInodeLocks s.dom
    some { s with
      dom := dom
      heap := s.heap.retainAll (frames granted)
      threads := s.threads.set thread (.granting granted granted reply) }
  | .granting (lock :: unanswered) granted reply =>
    some { s with
      replies := ⟨lock.frame, 0, 0⟩ :: s.replies
      threads := s.threads.set thread (.granting unanswered granted reply) }
  | .granting [] granted reply =>
    some { s with
      heap := s.heap.releaseAll (frames granted)
      threads := s.threads.set thread (.returning reply) }
  | .returning reply =>
    some { s with
      replies := reply.toList ++ s.replies
      threads := s.threads.set thread .idle }

end InodelkState

inductive InodelkLabel
  | setlk (thread : Nat) (args : InodelkArgs) (canBlock : Bool)
  | release (thread : Nat) (transport : Nat)
  | grant (thread : Nat)
  | goOn (thread : Nat)

def inodelkThreadStep (s : InodelkState) : InodelkLabel → Option InodelkState
  | .setlk thread args canBlock =>
    if s.threads[thread]? = some .idle then some (s.setlk thread args canBlock) else none
  | .release thread transport =>
    if s.threads[thread]? = some .idle then some (s.release thread transport) else none
  | .grant thread =>
    if s.threads[thread]? = some .idle then
      some { s with threads := s.threads.set thread (.releasing [] none) }
    else none
  | .goOn thread => s.threads[thread]?.bind (s.goOn thread)

/-! ## Counting -/

/-- How often a lock is on a list. -/
def onList (frame : Nat) (locks : List PlInodeLock) : Nat := (frames locks).count frame

/-- The private list of a thread. -/
def InodelkPhase.privateList : InodelkPhase → List PlInodeLock
  | .idle | .returning _ => []
  | .releasing released _ => released
  | .granting _ granted _ => granted

def replyFrames (replies : List InodelkReply) : List Nat := replies.map InodelkReply.frame

/-- The frames that a thread is about to answer. -/
def InodelkPhase.unanswered : InodelkPhase → List Nat
  | .idle => []
  | .releasing released reply => frames released ++ replyFrames reply.toList
  | .granting unanswered _ reply => frames unanswered ++ replyFrames reply.toList
  | .returning reply => replyFrames reply.toList

def InodelkPhase.holds (frame : Nat) (phase : InodelkPhase) : Int :=
  onList frame phase.privateList

def InodelkPhase.owes (frame : Nat) (phase : InodelkPhase) : Int :=
  phase.unanswered.count frame

def InodelkState.answers (s : InodelkState) (frame : Nat) : Nat :=
  (replyFrames s.replies).count frame

/-- The answer that is due when the call returns. -/
def owedBy (frame : Nat) (reply : Option InodelkReply) : Nat :=
  (replyFrames reply.toList).count frame

/-- Every reference and every answer is accounted for. -/
structure InodelkState.Accounted (s : InodelkState) : Prop where
  heap : s.heap.Sound
  refs : ∀ frame, s.heap.ref frame = onList frame s.dom.granted + onList frame s.dom.blocked +
      total (InodelkPhase.holds frame) s.threads
  answers : ∀ frame, (s.answers frame : Int) + onList frame s.dom.blocked +
    total (InodelkPhase.owes frame) s.threads = if frame < s.heap.next then 1 else 0

variable {frame : Nat} {s t : InodelkState}

@[simp] theorem onList_nil (frame : Nat) : onList frame [] = 0 := rfl

theorem onList_cons (frame : Nat) (lock : PlInodeLock) (locks : List PlInodeLock) :
    (onList frame (lock :: locks) : Int) =
      onList frame locks + if frame = lock.frame then 1 else 0 :=
  Heap.count_cons_eq lock.frame frame (frames locks)

theorem onList_append (frame : Nat) (left right : List PlInodeLock) :
    onList frame (left ++ right) = onList frame left + onList frame right := by
  simp [onList, frames]

theorem onList_perm {left right : List PlInodeLock} (hperm : left.Perm right) (frame : Nat) :
    onList frame left = onList frame right :=
  (hperm.map PlInodeLock.frame).count_eq frame

/-- A list is parted by the transport of its locks. -/
theorem onList_transport (locks : List PlInodeLock) (transport frame : Nat) : onList frame locks =
      onList frame (locks.filter fun l => l.transport = transport) +
        onList frame (locks.filter fun l => l.transport ≠ transport) := by
  rw [← onList_append]
  refine onList_perm (List.Perm.symm ?_) frame
  simpa using List.filter_append_perm (fun l : PlInodeLock => l.transport = transport) locks

theorem owedBy_some (frame : Nat) (reply : InodelkReply) :
    (owedBy frame (some reply) : Int) = if frame = reply.frame then 1 else 0 := by
  have h := Heap.count_cons_eq reply.frame frame []
  simpa [owedBy, replyFrames] using h

theorem InodelkPhase.holds_nonneg (frame : Nat) (phase : InodelkPhase) :
    0 ≤ phase.holds frame := Int.natCast_nonneg _

theorem InodelkPhase.owes_nonneg (frame : Nat) (phase : InodelkPhase) :
    0 ≤ phase.owes frame := Int.natCast_nonneg _

section

variable (locks granted : List PlInodeLock) (reply : Option InodelkReply)

@[simp]
theorem InodelkPhase.idle_counts : idle.holds frame = 0 ∧ idle.owes frame = 0 := ⟨rfl, rfl⟩

@[simp]
theorem InodelkPhase.releasing_counts : (releasing locks reply).holds frame = onList frame locks ∧
      (releasing locks reply).owes frame = onList frame locks + owedBy frame reply := by
  simp [holds, privateList, owes, unanswered, onList, owedBy]

@[simp]
theorem InodelkPhase.granting_counts :
    (granting locks granted reply).holds frame = onList frame granted ∧
      (granting locks granted reply).owes frame = onList frame locks + owedBy frame reply := by
  simp [holds, privateList, owes, unanswered, onList, owedBy]

@[simp]
theorem InodelkPhase.returning_counts :
    (returning reply).holds frame = 0 ∧ (returning reply).owes frame = owedBy frame reply :=
  ⟨rfl, rfl⟩

end

variable {phase : InodelkPhase}

namespace InodelkState.Accounted

/-- A thread's private list is part of the references, besides the two lists of
the domain. -/
theorem listed_le (hs : s.Accounted) {thread : Nat} (hphase : s.threads[thread]? = some phase)
    (frame : Nat) :
    (onList frame s.dom.granted : Int) + onList frame s.dom.blocked + phase.holds frame ≤
      s.heap.ref frame := by
  have hle : phase.holds frame ≤ total (InodelkPhase.holds frame) s.threads :=
    weight_le_total (fun phase _ => phase.holds_nonneg frame) (List.mem_of_getElem? hphase)
  have hrefs := hs.refs frame
  omega

/-- One thread moves, and what it changes is accounted for. -/
theorem move (hs : s.Accounted) {thread : Nat} {old new : InodelkPhase}
    (hold : s.threads[thread]? = some old) (hthreads : t.threads = s.threads.set thread new)
    (hheap : t.heap.Sound)
    (hrefs : ∀ frame, t.heap.ref frame + onList frame s.dom.granted +
      onList frame s.dom.blocked + old.holds frame =
        s.heap.ref frame + onList frame t.dom.granted + onList frame t.dom.blocked +
          new.holds frame)
    (hanswers : ∀ frame, (t.answers frame : Int) + onList frame t.dom.blocked +
      new.owes frame + (if frame < s.heap.next then 1 else 0) =
        s.answers frame + onList frame s.dom.blocked + old.owes frame +
          if frame < t.heap.next then 1 else 0) : t.Accounted where
  heap := hheap
  refs frame := by
    have hbefore := hs.refs frame
    have hchange := hrefs frame
    rw [hthreads, total_set hold]
    omega
  answers frame := by
    have hbefore := hs.answers frame
    have hchange := hanswers frame
    rw [hthreads, total_set hold]
    omega

end InodelkState.Accounted

/-! ## The sections -/

/-- What the critical section of `pl_inode_setlk` does to the counts of a lock
that was just allocated. -/
structure SetlkEffect (dom : InodelkDom) (heap : Heap) (lock : PlInodeLock) (canBlock : Bool)
    (after : InodelkDom × Heap × Int) : Prop where
  sound : after.2.1.Sound
  next : after.2.1.next = heap.next + 1
  refs : ∀ frame, after.2.1.ref frame + onList frame dom.granted + onList frame dom.blocked =
    heap.ref frame + onList frame after.1.granted + onList frame after.1.blocked
  answers : ∀ frame, (owedBy frame (inodelkAnswer lock canBlock after.2.2) : Int) +
    onList frame after.1.blocked = onList frame dom.blocked + if frame = lock.frame then 1 else 0

variable {dom : InodelkDom} {heap : Heap} {lock : PlInodeLock} {canBlock : Bool}

theorem setlkEffect_lock (hheap : heap.Sound) (hframe : lock.frame = heap.next)
    (htype : lock.flType ≠ .unlck) :
    SetlkEffect dom heap lock canBlock (setlkSection dom heap.alloc lock canBlock) := by
  have hone : heap.alloc.ref lock.frame = 1 := hframe ▸ heap.alloc_ref_next
  have hrefs (frame : Nat) := hheap.alloc_ref frame
  rw [← hframe] at hrefs
  rw [setlkSection, if_pos htype, lockInodelk_eq, Policy.offer]
  cases hjudge : inodelkPolicy.judge dom lock with
  | refuse => exact absurd hjudge (inodelkPolicy_not_refuse dom lock)
  | grant =>
    have hretained : 0 < (heap.alloc.retain lock.frame).ref lock.frame := by
      rw [Heap.retain_ref, hone, if_pos rfl]
      decide
    refine ⟨(hheap.alloc.retain (by omega)).release hretained, rfl, fun frame => ?_,
      fun frame => ?_⟩
    · simp [inodelkPolicy, onList_cons, Heap.release_ref, Heap.retain_ref, eagain, hrefs frame]
      omega
    · simp [inodelkAnswer, owedBy_some, eagain]
      omega
  | block =>
    cases canBlock with
    | false =>
      refine ⟨hheap.alloc.release (by omega), rfl, fun frame => ?_, fun frame => ?_⟩
      · simp [Heap.release_ref, eagain, hrefs frame]
      · simp [inodelkAnswer, owedBy_some, eagain]
        omega
    | true =>
      refine ⟨hheap.alloc, rfl, fun frame => ?_, fun frame => ?_⟩
      · simp [onList_append, eagain, hrefs frame, onList_cons, onList_nil]
        omega
      · simp [inodelkAnswer, owedBy, replyFrames, eagain, htype, onList_append, onList_cons,
          onList_nil]

theorem setlkEffect_unlock (hheap : heap.Sound) (hframe : lock.frame = heap.next)
    (hlive : ∀ l ∈ dom.granted, 0 < heap.ref l.frame) (htype : lock.flType = .unlck) :
    SetlkEffect dom heap lock canBlock (setlkSection dom heap.alloc lock canBlock) := by
  have hone : heap.alloc.ref lock.frame = 1 := hframe ▸ heap.alloc_ref_next
  have hrefs (frame : Nat) := hheap.alloc_ref frame
  rw [← hframe] at hrefs
  rw [setlkSection, if_neg (not_not_intro htype), inodeUnlockLock]
  cases hfind : findMatchingInodelk lock dom with
  | none =>
    refine ⟨hheap.alloc.release (by omega), rfl, fun frame => ?_, fun frame => ?_⟩
    · simp [Heap.release_ref, hrefs frame]
    · simp [inodelkAnswer, htype, owedBy_some, einval]
      omega
  | some retlock =>
    have hmem : retlock ∈ dom.granted := List.mem_of_find?_eq_some hfind
    have hold := hlive retlock hmem
    have hother : lock.frame ≠ retlock.frame := by
      intro h
      rw [← h, hheap.fresh _ (le_of_eq hframe.symm)] at hold
      exact absurd hold (by decide)
    have hdropped : (heap.alloc.release retlock.frame).Sound :=
      hheap.alloc.release (by rw [hrefs]; split_ifs <;> omega)
    refine ⟨hdropped.release ?_, rfl, fun frame => ?_, fun frame => ?_⟩
    · rw [Heap.release_ref, if_neg hother]
      omega
    · rw [onList_perm (List.perm_cons_erase hmem) frame, onList_cons]
      simp [Heap.release_ref, hrefs frame]
      omega
    · simp [inodelkAnswer, owedBy_some]
      omega

/-- `__grant_blocked_inode_locks` moves the woken locks from one list to the
other. -/
theorem grantBlockedInodeLocks_onList (dom : InodelkDom) (frame : Nat) :
    onList frame dom.blocked = onList frame (grantBlockedInodeLocks dom).2 +
        onList frame (grantBlockedInodeLocks dom).1.blocked ∧
      onList frame (grantBlockedInodeLocks dom).1.granted =
        onList frame (grantBlockedInodeLocks dom).2 + onList frame dom.granted := by
  rw [grantBlockedInodeLocks_eq]
  obtain ⟨dropped, hwoken⟩ := inodelkPolicy.wake_spec dom
  have hnone : dropped = [] := by
    refine List.eq_nil_iff_forall_not_mem.mpr fun lock hlock => ?_
    obtain ⟨table, hrefuse⟩ := hwoken.refused lock hlock
    exact inodelkPolicy_not_refuse table lock hrefuse
  have haccounts := onList_perm hwoken.accounts frame
  have hgranted := onList_perm hwoken.granted frame
  rw [hnone, List.append_nil, onList_append] at haccounts
  rw [onList_append] at hgranted
  exact ⟨haccounts, hgranted⟩

/-! ## The steps -/

namespace InodelkState.Accounted

variable {thread : Nat} {reply : Option InodelkReply} {locks granted : List PlInodeLock}

section

variable (hs : s.Accounted)

include hs

theorem onDomain_le (frame : Nat) :
    (onList frame s.dom.granted : Int) + onList frame s.dom.blocked ≤ s.heap.ref frame := by
  have hthreads : 0 ≤ total (InodelkPhase.holds frame) s.threads :=
    total_nonneg fun phase _ => phase.holds_nonneg frame
  have hrefs := hs.refs frame
  omega

theorem setlk (hidle : s.threads[thread]? = some .idle) (args : InodelkArgs) (canBlock : Bool) :
    (s.setlk thread args canBlock).Accounted := by
  let lock := newInodeLock args s.heap.next
  let after := setlkSection s.dom s.heap.alloc lock canBlock
  have heffect : SetlkEffect s.dom s.heap lock canBlock after := by
    by_cases htype : lock.flType = .unlck
    · refine setlkEffect_unlock hs.heap rfl (fun l hl => ?_) htype
      have hle := hs.onDomain_le l.frame
      have hpos : 0 < onList l.frame s.dom.granted :=
        List.count_pos_iff.mpr (List.mem_map_of_mem hl)
      omega
    · exact setlkEffect_lock hs.heap rfl htype
  have hthreads : (s.setlk thread args canBlock).threads =
      s.threads.set thread (.releasing [] (inodelkAnswer lock canBlock after.2.2)) := rfl
  refine hs.move hidle hthreads heffect.sound (fun frame => ?_) fun frame => ?_
  · have hrefs := heffect.refs frame
    exact congrArg (· + (0 : Int)) hrefs
  · have hanswers := heffect.answers frame
    have hnext : (s.setlk thread args canBlock).heap.next = s.heap.next + 1 := heffect.next
    simp only [hnext, InodelkPhase.idle_counts, InodelkPhase.releasing_counts, onList_nil]
    change (s.answers frame : Int) + onList frame after.1.blocked + _ + _ = _
    rw [show lock.frame = s.heap.next from rfl] at hanswers
    split_ifs at hanswers ⊢ <;> omega

theorem release (hidle : s.threads[thread]? = some .idle) (transport : Nat) :
    (s.release thread transport).Accounted := by
  let mine := s.dom.granted.filter fun l => l.transport = transport
  let released := (s.dom.blocked.filter fun l => l.transport = transport).reverse
  have hthreads : (s.release thread transport).threads =
      s.threads.set thread (.releasing released none) := rfl
  have hgranted (frame : Nat) : onList frame s.dom.granted = onList frame mine +
      onList frame (s.release thread transport).dom.granted :=
    onList_transport s.dom.granted transport frame
  have hblocked (frame : Nat) : onList frame s.dom.blocked = onList frame released +
      onList frame (s.release thread transport).dom.blocked := by
    rw [onList_perm (List.reverse_perm _) frame]
    exact onList_transport s.dom.blocked transport frame
  refine hs.move hidle hthreads (hs.heap.releaseAll fun frame _ => ?_) (fun frame => ?_)
    fun frame => ?_
  · have hle := hs.onDomain_le frame
    have hparts := hgranted frame
    change (onList frame mine : Int) ≤ _
    omega
  · have hrefs : (s.release thread transport).heap.ref frame =
        s.heap.ref frame - onList frame mine := s.heap.releaseAll_ref (frames mine) frame
    simp only [hrefs, hgranted frame, hblocked frame, InodelkPhase.idle_counts,
      InodelkPhase.releasing_counts]
    omega
  · have hnext : (s.release thread transport).heap.next = s.heap.next :=
      s.heap.releaseAll_next (frames mine)
    simp only [hnext, hblocked frame, InodelkPhase.idle_counts, InodelkPhase.releasing_counts]
    change (s.answers frame : Int) + _ + (_ + (0 : Nat)) + _ = _
    omega

theorem answerReleased (hphase : s.threads[thread]? = some (.releasing (lock :: locks) reply)) :
    InodelkState.Accounted { s with
      heap := s.heap.release lock.frame
      replies := ⟨lock.frame, -1, eagain⟩ :: s.replies
      threads := s.threads.set thread (.releasing locks reply) } := by
  have hlive : 0 < s.heap.ref lock.frame := by
    have hle := hs.listed_le hphase lock.frame
    simp only [InodelkPhase.releasing_counts, onList_cons, if_true] at hle
    omega
  refine hs.move hphase rfl (hs.heap.release hlive) (fun frame => ?_) fun frame => ?_
  · simp only [Heap.release_ref, InodelkPhase.releasing_counts, onList_cons]
    omega
  · simp only [InodelkState.answers, replyFrames, List.map_cons, Heap.count_cons_eq,
      InodelkPhase.releasing_counts, onList_cons, Heap.release_next]
    omega

theorem grantBlocked (hphase : s.threads[thread]? = some (.releasing [] reply)) :
    InodelkState.Accounted { s with
      dom := (grantBlockedInodeLocks s.dom).1
      heap := s.heap.retainAll (frames (grantBlockedInodeLocks s.dom).2)
      threads := s.threads.set thread
        (.granting (grantBlockedInodeLocks s.dom).2 (grantBlockedInodeLocks s.dom).2 reply) } := by
  have hlive (frame : Nat) (hframe : frame ∈ frames (grantBlockedInodeLocks s.dom).2) :
      0 < s.heap.ref frame := by
    have hle := hs.onDomain_le frame
    have hmoved := (grantBlockedInodeLocks_onList s.dom frame).1
    have hpos : 0 < onList frame (grantBlockedInodeLocks s.dom).2 := List.count_pos_iff.mpr hframe
    omega
  refine hs.move hphase rfl (hs.heap.retainAll hlive) (fun frame => ?_) fun frame => ?_
  · obtain ⟨hblocked, hgranted⟩ := grantBlockedInodeLocks_onList s.dom frame
    have hrefs : (s.heap.retainAll (frames (grantBlockedInodeLocks s.dom).2)).ref frame =
        s.heap.ref frame + onList frame (grantBlockedInodeLocks s.dom).2 :=
      s.heap.retainAll_ref _ frame
    simp only [hrefs, InodelkPhase.releasing_counts, InodelkPhase.granting_counts, hgranted,
      hblocked, onList_nil]
    omega
  · obtain ⟨hblocked, hgranted⟩ := grantBlockedInodeLocks_onList s.dom frame
    simp only [InodelkState.answers, Heap.retainAll_next, InodelkPhase.releasing_counts,
      InodelkPhase.granting_counts, hblocked, onList_nil]
    omega

theorem answerGranted
    (hphase : s.threads[thread]? = some (.granting (lock :: locks) granted reply)) :
    InodelkState.Accounted { s with
      replies := ⟨lock.frame, 0, 0⟩ :: s.replies
      threads := s.threads.set thread (.granting locks granted reply) } := by
  refine hs.move hphase rfl hs.heap (fun frame => ?_) fun frame => ?_
  · rfl
  · simp only [InodelkState.answers, replyFrames, List.map_cons, Heap.count_cons_eq,
      InodelkPhase.granting_counts, onList_cons]
    omega

theorem dropGranted (hphase : s.threads[thread]? = some (.granting [] granted reply)) :
    InodelkState.Accounted { s with
      heap := s.heap.releaseAll (frames granted)
      threads := s.threads.set thread (.returning reply) } := by
  have hlive (frame : Nat) : ((frames granted).count frame : Int) ≤ s.heap.ref frame := by
    have hle := hs.listed_le hphase frame
    simp only [InodelkPhase.granting_counts] at hle
    change (onList frame granted : Int) ≤ _
    omega
  refine hs.move hphase rfl (hs.heap.releaseAll fun frame _ => hlive frame) (fun frame => ?_)
    fun frame => ?_
  · have hrefs : (s.heap.releaseAll (frames granted)).ref frame =
        s.heap.ref frame - onList frame granted := s.heap.releaseAll_ref _ frame
    simp only [hrefs, InodelkPhase.granting_counts, InodelkPhase.returning_counts]
    omega
  · simp only [InodelkState.answers, Heap.releaseAll_next, InodelkPhase.granting_counts,
      InodelkPhase.returning_counts, onList_nil]
    omega

theorem answerReturned (hphase : s.threads[thread]? = some (.returning reply)) :
    InodelkState.Accounted { s with
      replies := reply.toList ++ s.replies
      threads := s.threads.set thread .idle } := by
  refine hs.move hphase rfl hs.heap (fun frame => rfl) fun frame => ?_
  have hcount : (replyFrames (reply.toList ++ s.replies)).count frame =
      owedBy frame reply + (replyFrames s.replies).count frame := by
    simp [replyFrames, owedBy]
  simp only [InodelkState.answers, hcount, InodelkPhase.idle_counts, InodelkPhase.returning_counts]
  omega

theorem goOn (hphase : s.threads[thread]? = some phase) (hstep : s.goOn thread phase = some t) :
    t.Accounted := by
  rcases phase with _ | ⟨_ | ⟨lock, released⟩, reply⟩ | ⟨_ | ⟨lock, unanswered⟩, granted, reply⟩ |
    reply <;> cases hstep
  · exact hs.grantBlocked hphase
  · exact hs.answerReleased hphase
  · exact hs.dropGranted hphase
  · exact hs.answerGranted hphase
  · exact hs.answerReturned hphase

theorem step {label : InodelkLabel} (hstep : inodelkThreadStep s label = some t) : t.Accounted := by
  cases label <;> simp only [inodelkThreadStep, Option.ite_none_right_eq_some, Option.some.injEq,
    Option.bind_eq_some_iff] at hstep
  case goOn thread =>
    obtain ⟨phase, hphase, hnext⟩ := hstep
    exact hs.goOn hphase hnext
  all_goals obtain ⟨hidle, rfl⟩ := hstep
  case setlk thread args canBlock => exact hs.setlk hidle args canBlock
  case release thread transport => exact hs.release hidle transport
  case grant thread => exact hs.move hidle rfl hs.heap (fun _ => rfl) fun _ => rfl

end

end InodelkState.Accounted

theorem InodelkState.accounted_start (threads : Nat) : (start threads).Accounted := by
  have hnone (weight : InodelkPhase → Int) (hidle : weight .idle = 0) :
      total weight (start threads).threads = 0 := by
    refine total_eq_zero fun phase hphase => ?_
    rw [List.eq_of_mem_replicate hphase]
    exact hidle
  refine ⟨Heap.sound_empty, fun frame => ?_, fun frame => ?_⟩
  · rw [hnone _ rfl]
    rfl
  · rw [hnone _ rfl]
    rfl

theorem accounted_of_reachable {threads : Nat}
    (hreach : Reachable inodelkThreadStep (.start threads) s) : s.Accounted :=
  hreach.invariant_along InodelkState.Accounted (InodelkState.accounted_start threads)
    fun _ _ hstep h => h.step hstep

/-! ## Freed once and answered once -/

/-- The lock is on `inodelk_list`, on `blocked_inodelks` or on the private list
of a thread. -/
def InodelkState.Listed (s : InodelkState) (frame : Nat) : Prop :=
  frame ∈ frames s.dom.granted ∨ frame ∈ frames s.dom.blocked ∨
    ∃ phase ∈ s.threads, frame ∈ frames phase.privateList
  deriving Decidable

/-- A thread is about to answer the frame. -/
def InodelkState.Due (s : InodelkState) (frame : Nat) : Prop :=
  ∃ phase ∈ s.threads, frame ∈ phase.unanswered
  deriving Decidable

theorem InodelkState.Accounted.ref_eq_zero_iff (hs : s.Accounted) :
    s.heap.ref frame = 0 ↔ ¬s.Listed frame := by
  have hrefs := hs.refs frame
  have hthreads : 0 < total (InodelkPhase.holds frame) s.threads ↔
      ∃ phase ∈ s.threads, 0 < phase.holds frame :=
    total_pos_iff fun phase _ => phase.holds_nonneg frame
  have hnonneg : 0 ≤ total (InodelkPhase.holds frame) s.threads :=
    total_nonneg fun phase _ => phase.holds_nonneg frame
  have hlisted : s.Listed frame ↔ 0 < onList frame s.dom.granted ∨
      0 < onList frame s.dom.blocked ∨ 0 < total (InodelkPhase.holds frame) s.threads := by
    rw [hthreads]
    simp only [InodelkPhase.holds, onList, Int.natCast_pos, List.count_pos_iff]
    rfl
  rw [hlisted]
  omega

theorem InodelkState.Accounted.answers_eq_zero_iff (hs : s.Accounted)
    (hframe : frame < s.heap.next) :
    s.answers frame = 0 ↔ frame ∈ frames s.dom.blocked ∨ s.Due frame := by
  have hanswers := hs.answers frame
  rw [if_pos hframe] at hanswers
  have hthreads : 0 < total (InodelkPhase.owes frame) s.threads ↔
      ∃ phase ∈ s.threads, 0 < phase.owes frame :=
    total_pos_iff fun phase _ => phase.owes_nonneg frame
  have hnonneg : 0 ≤ total (InodelkPhase.owes frame) s.threads :=
    total_nonneg fun phase _ => phase.owes_nonneg frame
  have hdue : s.Due frame ↔ 0 < total (InodelkPhase.owes frame) s.threads := by
    rw [hthreads]
    simp only [InodelkPhase.owes, Int.natCast_pos, List.count_pos_iff]
    rfl
  have hblocked : frame ∈ frames s.dom.blocked ↔ 0 < onList frame s.dom.blocked :=
    List.count_pos_iff.symm
  rw [hdue, hblocked]
  omega

theorem InodelkState.Accounted.answers_le_one (hs : s.Accounted) : s.answers frame ≤ 1 := by
  have hanswers := hs.answers frame
  have hnonneg : 0 ≤ total (InodelkPhase.owes frame) s.threads :=
    total_nonneg fun phase _ => phase.owes_nonneg frame
  split_ifs at hanswers <;> omega

/-! ## A thread that goes on -/

/-- The thread answers the frame when it goes on alone. -/
def InodelkState.Answers (s : InodelkState) (thread frame : Nat) : Prop :=
  ∃ n t, run inodelkThreadStep s (List.replicate n (.goOn thread)) = some t ∧ 0 < t.answers frame

theorem InodelkState.Answers.of_goOn {thread : Nat} (hphase : s.threads[thread]? = some phase)
    (hstep : s.goOn thread phase = some t) (hanswers : t.Answers thread frame) :
    s.Answers thread frame := by
  obtain ⟨n, after, hrun, hafter⟩ := hanswers
  refine ⟨n + 1, after, ?_, hafter⟩
  have hfirst : inodelkThreadStep s (.goOn thread) = some t := by
    rw [inodelkThreadStep, hphase]
    exact hstep
  rw [List.replicate_succ, run, List.foldlM_cons, hfirst]
  exact hrun

theorem InodelkState.Answers.now {thread : Nat} (hmem : frame ∈ replyFrames s.replies) :
    s.Answers thread frame :=
  ⟨0, s, rfl, List.count_pos_iff.mpr hmem⟩

variable {thread : Nat} {reply : Option InodelkReply} {locks granted : List PlInodeLock}

theorem answers_of_returning (hphase : s.threads[thread]? = some (.returning reply))
    (hmem : frame ∈ replyFrames reply.toList) : s.Answers thread frame := by
  refine .of_goOn hphase rfl (.now ?_)
  simp only [replyFrames, List.map_append]
  exact List.mem_append_left _ hmem

theorem answers_of_granting (hphase : s.threads[thread]? = some (.granting locks granted reply))
    (hmem : frame ∈ frames locks ++ replyFrames reply.toList) : s.Answers thread frame := by
  have hin (phase : InodelkPhase) : (s.threads.set thread phase)[thread]? = some phase :=
    List.getElem?_set_self (List.getElem?_eq_some_iff.mp hphase).1
  induction locks generalizing s with
  | nil => exact .of_goOn hphase rfl (answers_of_returning (hin _) hmem)
  | cons lock locks ih =>
    rcases List.mem_cons.mp hmem with rfl | hrest
    · exact .of_goOn hphase rfl (.now List.mem_cons_self)
    · refine .of_goOn hphase rfl (ih (hin _) hrest fun phase => ?_)
      rw [List.set_set]
      exact hin phase

theorem answers_of_releasing (hphase : s.threads[thread]? = some (.releasing locks reply))
    (hmem : frame ∈ frames locks ++ replyFrames reply.toList) : s.Answers thread frame := by
  have hin (phase : InodelkPhase) : (s.threads.set thread phase)[thread]? = some phase :=
    List.getElem?_set_self (List.getElem?_eq_some_iff.mp hphase).1
  induction locks generalizing s with
  | nil =>
    exact .of_goOn hphase rfl (answers_of_granting (hin _) (List.mem_append_right _ hmem))
  | cons lock locks ih =>
    rcases List.mem_cons.mp hmem with rfl | hrest
    · exact .of_goOn hphase rfl (.now List.mem_cons_self)
    · refine .of_goOn hphase rfl (ih (hin _) hrest fun phase => ?_)
      rw [List.set_set]
      exact hin phase

theorem InodelkState.Due.answers (hdue : s.Due frame) : ∃ thread, s.Answers thread frame := by
  obtain ⟨phase, hphase, hmem⟩ := hdue
  obtain ⟨thread, hthread⟩ := List.getElem?_of_mem hphase
  refine ⟨thread, ?_⟩
  cases phase with
  | idle => cases hmem
  | releasing released reply => exact answers_of_releasing hthread hmem
  | granting unanswered granted reply => exact answers_of_granting hthread hmem
  | returning reply => exact answers_of_returning hthread hmem

/-- A lock is freed once, when it is on no list any more.  Its request is
answered once, and until then it waits on `blocked_inodelks` or a thread gives
the answer as soon as it goes on. -/
theorem inodelk_freed_once_answered_once {threads : Nat}
    (hreach : Reachable inodelkThreadStep (.start threads) s) (hframe : frame < s.heap.next) :
    s.heap.freed frame ≤ 1 ∧ (s.heap.freed frame = 1 ↔ ¬s.Listed frame) ∧ s.answers frame ≤ 1 ∧
      (s.answers frame = 0 ↔ frame ∈ frames s.dom.blocked ∨ s.Due frame) ∧
      (s.Due frame → ∃ thread n t,
        run inodelkThreadStep s (List.replicate n (.goOn thread)) = some t ∧
          t.answers frame = 1) := by
  have hs := accounted_of_reachable hreach
  have hfreed := hs.heap.freed frame
  refine ⟨?_, ?_, hs.answers_le_one, hs.answers_eq_zero_iff hframe, fun hdue => ?_⟩
  · rw [hfreed]
    split_ifs <;> decide
  · rw [hfreed, ← hs.ref_eq_zero_iff]
    simp [hframe]
  · obtain ⟨thread, n, t, hrun, hanswered⟩ := hdue.answers
    have ht := accounted_of_reachable (.of_run _ hreach hrun)
    exact ⟨thread, n, t, hrun, Nat.le_antisymm ht.answers_le_one hanswered⟩

/-- The lock that the grant pass of one thread has woken is released by another
thread before the first one has answered it. -/
def grantedThenReleased : List InodelkLabel :=
  [.setlk 0 (inodelkArgs .wrlck 0 10 1) true, .goOn 0, .goOn 0, .goOn 0,
    .setlk 0 (inodelkArgs .wrlck 0 10 2) true, .goOn 0, .goOn 0, .goOn 0,
    .setlk 0 (inodelkArgs .unlck 0 10 1) true, .goOn 0, .release 1 1]

theorem inodelk_freed_once_answered_once_race :
    ∃ s, run inodelkThreadStep (.start 2) grantedThenReleased = some s ∧
      s.heap.freed 1 = 0 ∧ s.Listed 1 ∧ s.Due 1 ∧
      ∃ thread n t, run inodelkThreadStep s (List.replicate n (.goOn thread)) = some t ∧
        t.answers 1 = 1 := by
  obtain ⟨s, hrun, hreach⟩ := Reachable.exists_of_run inodelkThreadStep (.start 2)
    grantedThenReleased rfl
  have hstate : s.heap.freed 1 = 0 ∧ s.Listed 1 ∧ s.Due 1 ∧ 1 < s.heap.next := by
    cases hrun
    decide
  obtain ⟨hfreed, hlisted, hdue, hnext⟩ := hstate
  exact ⟨s, hrun, hfreed, hlisted, hdue,
    (inodelk_freed_once_answered_once hreach hnext).2.2.2.2 hdue⟩

end GlusterFS.Locks
