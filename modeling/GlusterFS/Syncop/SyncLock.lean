import GlusterFS.Syncop.WaitQueue

/-!
# Locks and barriers of synctasks

An unlock wakes one thread and one task, and neither of them gets the lock: each looks at
the lock again, a newcomer may have taken it by then, and the loser waits again.  No
waiter is left behind, since whoever took the lock in between wakes the next ones.
-/

namespace GlusterFS.Syncop

open Transition

/-- `synctask_get` -/
def Party.synctask : Party → Option Nat
  | .task id => some id
  | .thread _ => none

/-! ## `synclock` -/

/-- `synclock_t`, with the callers that have got the lock and not given it back. -/
structure Synclock where
  queue : WaitQueue
  lock : Bool
  owner : Option Nat
  held : Party → Bool

namespace Synclock

variable (lock : Synclock)

/-- `synclock_init` -/
def start : Synclock where
  queue := .start
  lock := false
  owner := none
  held := fun _ => false

/-- A turn of the loop of `__synclock_lock`, and its end when the lock is free. -/
def turn (party : Party) : Synclock :=
  if lock.lock then { lock with queue := lock.queue.park party }
  else
    { queue := lock.queue.leave party
      lock := true
      owner := party.synctask
      held := Function.update lock.held party true }

/-- `__synclock_unlock` up to the wake-up of the task; the owner is not compared. -/
def unlock (party : Party) (index : Nat) : Option Synclock :=
  (lock.queue.signal index).map fun queue =>
    { lock with queue := queue, lock := false, held := Function.update lock.held party false }

end Synclock

inductive LockLabel
  | queue (label : QueueLabel)
  /-- The call, or the next turn of its loop. -/
  | lock (caller : Caller)
  | trylock (caller : Caller)
  | unlock (caller : Caller) (index : Nat)

/-- One step.  Only the holder unlocks. -/
def lockStep (lock : Synclock) : LockLabel → Option Synclock
  | .queue label => (lock.queue.step label).map fun queue => { lock with queue := queue }
  | .lock caller => (lock.queue.caller caller).map lock.turn
  | .trylock caller =>
    (lock.queue.caller caller).bind fun party =>
      if lock.queue.fresh party then some (if lock.lock then lock else lock.turn party) else none
  | .unlock caller index =>
    (lock.queue.caller caller).bind fun party =>
      if lock.queue.fresh party && lock.held party then lock.unlock party index else none

/-! ## `syncbarrier` -/

/-- `struct syncbarrier`, with the call that waits. -/
structure Syncbarrier where
  queue : WaitQueue
  count : Int
  /-- The caller of `syncbarrier_wait`, and its `waitfor`. -/
  waiter : Option (Party × Int)
  /-- The calls of `syncbarrier_wake` since the last return. -/
  wakes : Nat

namespace Syncbarrier

variable (barrier : Syncbarrier)

/-- `syncbarrier_init` -/
def start : Syncbarrier where
  queue := .start
  count := 0
  waiter := none
  wakes := 0

/-- A turn of the loop of `__syncbarrier_wait`, or its end. -/
def turn (party : Party) (waitfor : Int) : Syncbarrier :=
  if barrier.count < waitfor then
    { barrier with queue := barrier.queue.park party, waiter := some (party, waitfor) }
  else
    { queue := barrier.queue.leave party
      count := 0
      waiter := none
      wakes := 0 }

/-- `__syncbarrier_wake` up to the wake-up of the task -/
def wake (index : Nat) : Option Syncbarrier :=
  (barrier.queue.signal index).map fun queue =>
    { barrier with queue := queue, count := barrier.count + 1, wakes := barrier.wakes + 1 }

end Syncbarrier

inductive BarrierLabel
  | queue (label : QueueLabel)
  | wait (caller : Caller) (waitfor : Int)
  /-- The caller of `syncbarrier_wait` looks at the counter again. -/
  | recheck (caller : Caller)
  | wake (index : Nat)

/-- One step.  There is one caller of `syncbarrier_wait` at a time. -/
def barrierStep (barrier : Syncbarrier) : BarrierLabel → Option Syncbarrier
  | .queue label => (barrier.queue.step label).map fun queue => { barrier with queue := queue }
  | .wait caller waitfor =>
    (barrier.queue.caller caller).bind fun party =>
      if barrier.waiter.isNone && barrier.queue.fresh party then
        some (barrier.turn party waitfor)
      else none
  | .recheck caller =>
    (barrier.queue.caller caller).bind fun party =>
      barrier.waiter.bind fun (waiting, waitfor) =>
        if waiting = party then some (barrier.turn party waitfor) else none
  | .wake index => if barrier.queue.waking = none then barrier.wake index else none

/-! ## Signals -/

namespace WaitQueue

variable {queue after : WaitQueue} {index : Nat} {party : Party}

theorem WaitInv.nodup_waitq (hinv : queue.WaitInv) : queue.waitq.Nodup :=
  hinv.nodup.sublist (.trans (List.sublist_append_right _ _) (List.sublist_append_left _ _))

theorem waiting_signal (hstep : queue.signal index = some after) (party : Party) :
    after.Waiting party ↔ queue.Waiting party := by
  rw [signal] at hstep
  split at hstep
  · cases hstep
    cases party <;> rfl
  · refine ((frame_release hstep).1.waiting party).trans ?_
    cases party <;> rfl

/-- A signal takes one task from the queue and one thread from the condition variable. -/
theorem WaitInv.called_signal (hinv : queue.WaitInv) (hstep : queue.signal index = some after)
    (hwaiting : after.Waiting party) :
    ∃ other, after.Called other := by
  have hdequeue : (∃ other, queue.dequeue.Called other) ∨ queue.blocked ≠ [] := by
    cases party with
    | thread id =>
      obtain hblocked | hroused := (waiting_signal hstep _).mp hwaiting
      · exact .inr (List.ne_nil_of_mem hblocked)
      · exact .inl ⟨.thread id, hroused⟩
    | task id =>
      have hwaits : (queue.stages id).waits true = true := (waiting_signal hstep _).mp hwaiting
      cases hwaitq : queue.waitq with
      | nil => exact .inl ⟨.task id, hwaits, by simp [WaitQueue.dequeue, hwaitq]⟩
      | cons first rest =>
        have hnodup := hinv.nodup_waitq
        rw [hwaitq] at hnodup
        refine .inl ⟨.task first, hinv.onQueue first (by simp [hwaitq]), ?_⟩
        simpa [WaitQueue.dequeue, hwaitq] using (List.nodup_cons.mp hnodup).1
  rw [WaitQueue.signal] at hstep
  split at hstep
  · rename_i hempty
    cases hstep
    exact hdequeue.resolve_right fun hne => hne (List.isEmpty_iff.mp hempty)
  · obtain ⟨-, id, -, hroused⟩ := frame_release hstep
    exact ⟨.thread id, hroused⟩

/-- The waiters that nobody has called. -/
def parked (queue : WaitQueue) : List Party :=
  queue.waitq.map .task ++ queue.blocked.map .thread

theorem called_of_not_parked (hwaiting : queue.Waiting party) (hnot : party ∉ queue.parked) :
    queue.Called party := by
  cases party with
  | task id => exact ⟨hwaiting, by simpa [parked] using hnot⟩
  | thread id => exact hwaiting.resolve_left (by simpa [parked] using hnot)

theorem Frame.parked (hframe : queue.Frame after) : after.parked.Sublist queue.parked := by
  rw [WaitQueue.parked, WaitQueue.parked, hframe.waitq]
  exact .append (.refl _) (hframe.blocked.map _)

theorem Guarded.not_parked (hguarded : queue.Guarded party) : party ∉ queue.parked := by
  cases hguarded with
  | task _ hawake =>
    have hnot := hawake.not_mem.1
    simp only [List.mem_append, not_or] at hnot
    simpa [WaitQueue.parked] using hnot.2
  | thread _ hout => simpa [WaitQueue.parked] using hout

theorem parked_signal (hstep : queue.signal index = some after)
    (hfew : queue.parked.length ≤ 1) : after.parked = [] := by
  rw [← List.length_eq_zero_iff]
  have htail : queue.waitq.tail.length = queue.waitq.length - 1 := List.length_tail
  rw [signal] at hstep
  split at hstep
  · rename_i hempty
    cases hstep
    simp [parked, dequeue, List.isEmpty_iff.mp hempty] at hfew ⊢
    omega
  · obtain ⟨id, hget, rfl⟩ := Option.map_eq_some_iff.mp hstep
    obtain ⟨hindex, -⟩ := List.getElem?_eq_some_iff.mp hget
    simp [parked, dequeue] at hfew hindex ⊢
    omega

end WaitQueue

/-! ## Every run of a lock -/

namespace Synclock

variable {lock after : Synclock} {party : Party} {index : Nat}

structure LockInv (lock : Synclock) : Prop where
  queue : lock.queue.WaitInv
  word : lock.lock = true ↔ ∃ party, lock.held party = true
  one : ∀ first second, lock.held first = true → lock.held second = true → first = second
  /-- Not all the waiters of a free lock are still waiting to be called. -/
  called : lock.lock = false → ∀ party, lock.queue.Waiting party → ∃ other, lock.queue.Called other

theorem LockInv.start : Synclock.start.LockInv where
  queue := .start
  word := by simp [Synclock.start]
  one := nofun
  called := by
    rintro - (id | id) hwaiting
    · cases hwaiting
    · rcases hwaiting with hmem | hmem <;> cases hmem

theorem LockInv.turn (hinv : lock.LockInv) (hguarded : lock.queue.Guarded party) :
    (lock.turn party).LockInv := by
  rw [Synclock.turn]
  split
  · rename_i hlocked
    exact ⟨hinv.queue.park hguarded, hinv.word, hinv.one, fun hfree => by simp [hlocked] at hfree⟩
  · rename_i hfree
    have hnone : ∀ other, lock.held other = false := by
      intro other
      have hnot := mt hinv.word.mpr hfree
      simpa using not_exists.mp hnot other
    have honly : ∀ other, Function.update lock.held party true other = true → other = party := by
      intro other hheld
      by_contra hother
      rw [Function.update_of_ne hother, hnone] at hheld
      cases hheld
    refine ⟨hinv.queue.leave hguarded, ⟨fun _ => ⟨party, by simp⟩, fun _ => rfl⟩, ?_, nofun⟩
    intro first second hfirst hsecond
    rw [honly first hfirst, honly second hsecond]

theorem LockInv.unlock (hinv : lock.LockInv) (hguarded : lock.queue.Guarded party)
    (hheld : lock.held party = true) (hstep : lock.unlock party index = some after) :
    after.LockInv := by
  obtain ⟨queue, hsignal, rfl⟩ := Option.map_eq_some_iff.mp hstep
  have hnone : ∀ other, Function.update lock.held party false other = false := by
    intro other
    by_cases hother : other = party
    · rw [hother, Function.update_self]
    · rw [Function.update_of_ne hother]
      exact Bool.eq_false_iff.mpr fun hholds => hother (hinv.one other party hholds hheld)
  exact ⟨hinv.queue.signal hguarded.waking hsignal, by simp [hnone], by simp [hnone],
    fun _ _ hwaiting => hinv.queue.called_signal hsignal hwaiting⟩

theorem LockInv.step {label : LockLabel} (hinv : lock.LockInv)
    (hstep : lockStep lock label = some after) : after.LockInv := by
  cases label <;> simp only [lockStep, Option.bind_eq_some_iff, Option.map_eq_some_iff,
    Option.ite_none_right_eq_some, Option.some.injEq] at hstep
  case queue label =>
    obtain ⟨queue, hqueue, rfl⟩ := hstep
    obtain ⟨hafter, hframe⟩ := hinv.queue.step hqueue
    refine ⟨hafter, hinv.word, hinv.one, fun hfree party hwaiting => ?_⟩
    exact (hinv.called hfree party ((hframe.waiting party).mp hwaiting)).imp
      fun _ hcalled => hframe.called hcalled
  case lock caller =>
    obtain ⟨party, hcaller, rfl⟩ := hstep
    exact hinv.turn (hinv.queue.guarded hcaller)
  case trylock caller =>
    obtain ⟨party, hcaller, -, rfl⟩ := hstep
    split
    · exact hinv
    · exact hinv.turn (hinv.queue.guarded hcaller)
  case unlock caller index =>
    obtain ⟨party, hcaller, hholds, hunlock⟩ := hstep
    exact hinv.unlock (hinv.queue.guarded hcaller) (Bool.and_eq_true_iff.mp hholds).2 hunlock

end Synclock

/-- What holds of a lock at every moment. -/
structure HandsOver (lock : Synclock) : Prop where
  oneHolder : ∀ first second, lock.held first = true → lock.held second = true → first = second
  word : lock.lock = true ↔ ∃ party, lock.held party = true
  queuedOnce : lock.queue.waitq.Nodup
  /-- The section that has taken a task from the queue can wake it. -/
  wakes : lock.queue.waking.isSome → lock.queue.wakeTask.isSome
  /-- With nobody in a section under the guard. -/
  noneStuck : lock.lock = false → lock.queue.waking = none →
    ∀ party, lock.queue.Waiting party → ∃ other, lock.queue.Waiting other ∧ lock.queue.Roused other

theorem Synclock.LockInv.handsOver {lock : Synclock} (hinv : lock.LockInv) : HandsOver lock where
  oneHolder := hinv.one
  word := hinv.word
  queuedOnce := hinv.queue.nodup_waitq
  wakes := hinv.queue.wakeTask_isSome
  noneStuck := by
    intro hfree hguard party hwaiting
    obtain ⟨other, hcalled⟩ := hinv.called hfree party hwaiting
    exact ⟨other, hcalled.waiting, hinv.queue.roused hguard hcalled⟩

/-! ## Every run of a barrier -/

namespace Syncbarrier

variable {barrier after : Syncbarrier} {party : Party} {waitfor : Int} {index : Nat}

structure BarrierInv (barrier : Syncbarrier) : Prop where
  queue : barrier.queue.WaitInv
  count : barrier.count = barrier.wakes
  waits : ∀ party waitfor, barrier.waiter = some (party, waitfor) → barrier.queue.Waiting party
  /-- A caller that nobody has called since it looked has not seen enough. -/
  parked : ∀ party ∈ barrier.queue.parked, ∃ waitfor,
    barrier.waiter = some (party, waitfor) ∧ barrier.count < waitfor
  few : barrier.queue.parked.length ≤ 1

theorem BarrierInv.start : Syncbarrier.start.BarrierInv where
  queue := .start
  count := rfl
  waits := nofun
  parked := nofun
  few := Nat.zero_le _

/-- The caller is off the lists when it looks, and there is no other one. -/
theorem BarrierInv.turn (hinv : barrier.BarrierInv) (hguarded : barrier.queue.Guarded party)
    (hparked : barrier.queue.parked = []) : (barrier.turn party waitfor).BarrierInv := by
  rw [Syncbarrier.turn]
  obtain ⟨hwaitq, hblocked⟩ := List.append_eq_nil_iff.mp hparked
  rw [List.map_eq_nil_iff] at hwaitq hblocked
  split
  · rename_i hless
    have hpark : (barrier.queue.park party).parked = [party] := by
      cases party <;> simp [WaitQueue.park, WaitQueue.setStage, WaitQueue.parked, hwaitq, hblocked]
    refine ⟨hinv.queue.park hguarded, hinv.count, ?_, ?_, by simp [hpark]⟩
    · intro other waitfor hwaiter
      cases hwaiter
      cases party <;> simp [WaitQueue.park, WaitQueue.setStage, WaitQueue.Waiting, WaitStage.waits]
    · intro other hmem
      rw [hpark, List.mem_singleton] at hmem
      exact ⟨waitfor, by rw [hmem], hless⟩
  · have hleave : (barrier.queue.leave party).parked = [] := by
      cases party <;> simp [WaitQueue.leave, WaitQueue.setStage, WaitQueue.parked, hwaitq, hblocked]
    exact ⟨hinv.queue.leave hguarded, rfl, fun _ _ h => (by cases h), by simp [hleave],
      by simp [hleave]⟩

theorem BarrierInv.wake (hinv : barrier.BarrierInv) (hguard : barrier.queue.waking = none)
    (hstep : barrier.wake index = some after) : after.BarrierInv := by
  obtain ⟨queue, hsignal, rfl⟩ := Option.map_eq_some_iff.mp hstep
  have hparked := WaitQueue.parked_signal hsignal hinv.few
  refine ⟨hinv.queue.signal hguard hsignal, ?_, ?_, by simp [hparked], by simp [hparked]⟩
  · simp [hinv.count]
  · intro party waitfor hwaiter
    exact (WaitQueue.waiting_signal hsignal party).mpr (hinv.waits party waitfor hwaiter)

theorem BarrierInv.step {label : BarrierLabel} (hinv : barrier.BarrierInv)
    (hstep : barrierStep barrier label = some after) : after.BarrierInv := by
  cases label <;> simp only [barrierStep, Option.bind_eq_some_iff, Option.map_eq_some_iff,
    Option.ite_none_right_eq_some, Prod.exists, Option.some.injEq] at hstep
  case queue label =>
    obtain ⟨queue, hqueue, rfl⟩ := hstep
    obtain ⟨hafter, hframe⟩ := hinv.queue.step hqueue
    exact ⟨hafter, hinv.count,
      fun party waitfor hwaiter => (hframe.waiting party).mpr (hinv.waits party waitfor hwaiter),
      fun party hmem => hinv.parked party (hframe.parked.subset hmem),
      Nat.le_trans hframe.parked.length_le hinv.few⟩
  case wait caller waitfor =>
    obtain ⟨party, hcaller, hfirst, rfl⟩ := hstep
    have hnone := Option.isNone_iff_eq_none.mp (Bool.and_eq_true_iff.mp hfirst).1
    refine hinv.turn (hinv.queue.guarded hcaller) (List.eq_nil_iff_forall_not_mem.mpr ?_)
    intro other hmem
    obtain ⟨_, hwaiter, -⟩ := hinv.parked other hmem
    cases hnone.symm.trans hwaiter
  case recheck caller =>
    obtain ⟨party, hcaller, _, waitfor, hwaiter, rfl, rfl⟩ := hstep
    have hguarded := hinv.queue.guarded hcaller
    refine hinv.turn hguarded (List.eq_nil_iff_forall_not_mem.mpr ?_)
    intro other hmem
    obtain ⟨_, hother, -⟩ := hinv.parked other hmem
    cases hwaiter.symm.trans hother
    exact hguarded.not_parked hmem
  case wake index => exact hinv.wake hstep.1 hstep.2

theorem turn_returns (hcount : barrier.count = barrier.wakes) :
    (barrier.turn party waitfor).waiter = none ↔ waitfor ≤ barrier.wakes := by
  rw [turn, hcount]
  split <;> simp <;> omega

end Syncbarrier

/-- What holds of a barrier at every moment. -/
structure Counts (barrier : Syncbarrier) : Prop where
  queuedOnce : barrier.queue.waitq.Nodup
  wakes : barrier.queue.waking.isSome → barrier.queue.wakeTask.isSome
  /-- A call returns from its first look when there have been enough wake-ups. -/
  returns : ∀ caller waitfor after, barrierStep barrier (.wait caller waitfor) = some after →
    (after.waiter = none ↔ waitfor ≤ barrier.wakes)
  /-- A call that waits returns from a later look when there have been enough, -/
  returnsAgain : ∀ caller party waitfor after, barrier.waiter = some (party, waitfor) →
    barrierStep barrier (.recheck caller) = some after →
    (after.waiter = none ↔ waitfor ≤ barrier.wakes)
  /-- and no other step ends it. -/
  waitsOn : ∀ label after call, barrier.waiter = some call →
    barrierStep barrier label = some after → (∀ caller, label ≠ .recheck caller) →
    after.waiter = some call
  /-- When there have been enough, the caller has been woken. -/
  noneStuck : ∀ party waitfor, barrier.waiter = some (party, waitfor) →
    waitfor ≤ barrier.wakes → barrier.queue.waking = none → barrier.queue.Roused party

namespace Syncbarrier

variable {barrier : Syncbarrier}

theorem waiter_of_other_step {label : BarrierLabel} {after : Syncbarrier} {call : Party × Int}
    (hwaiter : barrier.waiter = some call) (hstep : barrierStep barrier label = some after)
    (hlabel : ∀ caller, label ≠ .recheck caller) : after.waiter = some call := by
  cases label <;> simp only [barrierStep, wake, Option.bind_eq_some_iff, Option.map_eq_some_iff,
    Option.ite_none_right_eq_some] at hstep
  case queue label =>
    obtain ⟨queue, -, rfl⟩ := hstep
    exact hwaiter
  case wait caller waitfor => simp [hwaiter] at hstep
  case recheck caller => exact (hlabel caller rfl).elim
  case wake index =>
    obtain ⟨-, queue, -, rfl⟩ := hstep
    exact hwaiter

theorem BarrierInv.counts (hinv : barrier.BarrierInv) : Counts barrier where
  queuedOnce := hinv.queue.nodup_waitq
  wakes := hinv.queue.wakeTask_isSome
  returns := by
    intro caller waitfor after hstep
    simp only [barrierStep, Option.bind_eq_some_iff, Option.ite_none_right_eq_some,
      Option.some.injEq] at hstep
    obtain ⟨party, -, -, rfl⟩ := hstep
    exact turn_returns hinv.count
  returnsAgain := by
    intro caller party waitfor after hwaiter hstep
    simp only [barrierStep, hwaiter, Option.bind_some, Option.bind_eq_some_iff,
      Option.ite_none_right_eq_some, Option.some.injEq] at hstep
    obtain ⟨_, -, -, rfl⟩ := hstep
    exact turn_returns hinv.count
  waitsOn := fun _ _ _ hwaiter hstep hlabel => waiter_of_other_step hwaiter hstep hlabel
  noneStuck := by
    intro party waitfor hwaiter henough hguard
    refine hinv.queue.roused hguard
      (WaitQueue.called_of_not_parked (hinv.waits party waitfor hwaiter) fun hmem => ?_)
    obtain ⟨_, hfound, hless⟩ := hinv.parked party hmem
    cases hwaiter.symm.trans hfound
    have hcount := hinv.count
    omega

end Syncbarrier

/-- A lock has one holder and no stuck waiter, and a barrier counts its wake-ups. -/
theorem synclock_hands_over : (∀ lock, Reachable lockStep Synclock.start lock → HandsOver lock) ∧
      ∀ barrier, Reachable barrierStep Syncbarrier.start barrier → Counts barrier := by
  refine ⟨fun lock hreach => ?_, fun barrier hreach => ?_⟩
  · exact (hreach.invariant Synclock.LockInv.start fun _ _ _ hbefore _ hstep =>
      hbefore.step hstep).handsOver
  · exact (hreach.invariant Syncbarrier.BarrierInv.start fun _ _ _ hbefore _ hstep =>
      hbefore.step hstep).counts

/-- A task and a thread wait for the lock of another task, which gives it back; neither of them
has looked again yet.  A thread waits for two wake-ups of a barrier, which have happened. -/
theorem synclock_hands_over_both :
    (∃ lock, Reachable lockStep Synclock.start lock ∧ lock.lock = false ∧
      lock.queue.Waiting (.task 1) ∧ lock.queue.Waiting (.thread 7) ∧ HandsOver lock) ∧
    ∃ barrier, Reachable barrierStep Syncbarrier.start barrier ∧
      barrier.waiter = some (.thread 7, 2) ∧ barrier.wakes = 2 ∧ Counts barrier := by
  obtain ⟨lock, hrun, hreach⟩ := Reachable.exists_of_run lockStep Synclock.start
    [.queue (.sched (.synctaskNew true)), .queue (.sched (.synctaskNew true)),
      .queue (.sched (.look 0)), .queue (.sched (.look 1)), .lock (.task 0), .lock (.task 1),
      .lock (.thread 7), .queue (.sched (.yield 1)), .unlock (.task 0) 0,
      .queue (.sched (.switchBack 1)), .queue .wakeTask] rfl
  obtain ⟨barrier, hrun', hreach'⟩ := Reachable.exists_of_run barrierStep Syncbarrier.start
    [.wait (.thread 7) 2, .wake 0, .wake 0] rfl
  refine ⟨⟨lock, hreach, ?_, ?_, ?_, synclock_hands_over.1 lock hreach⟩,
    barrier, hreach', ?_, ?_, synclock_hands_over.2 barrier hreach'⟩
  · cases hrun
    rfl
  · cases hrun
    exact (rfl : _ = true)
  · cases hrun
    exact .inr (.head _)
  · cases hrun'
    rfl
  · cases hrun'
    rfl

end GlusterFS.Syncop
