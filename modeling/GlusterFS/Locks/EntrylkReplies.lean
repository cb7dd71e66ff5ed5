import GlusterFS.Locks.EntrylkExclusion

/-!
# Every entry lock request is answered

A grant pass offers the waiting locks again and forgets those that `__lock_name`
refuses.  As long as it refuses none, a frame is answered once or waits.
-/

namespace GlusterFS.Locks

open Transition WaitQueue

def EntrylkEvent.answered : EntrylkEvent → Option Nat
  | .request .. => none
  | .grant _ => none
  | .unwind frame _ _ => some frame

def entrylkFrames (locks : List PlEntryLock) : List Nat := locks.map PlEntryLock.frame

namespace EntrylkState

def answers (s : EntrylkState) (frame : Nat) : Nat :=
  (s.log.filterMap EntrylkEvent.answered).count frame

/-- How many locks on `blocked_entrylks` are for the frame. -/
def waiting (s : EntrylkState) (frame : Nat) : Nat := (entrylkFrames s.dom.blocked).count frame

/-- Every request was answered or waits, and only one of the two. -/
def Settled (s : EntrylkState) : Prop :=
  ∀ frame, s.answers frame + s.waiting frame = if frame < s.arrived then 1 else 0

end EntrylkState

/-- A grant pass meets no waiting lock that it would refuse. -/
def NoneRefused (s : EntrylkState) (label : EntrylkLabel) : Prop :=
  label.call.lkOwner.length = 0 ∨ label.call.cmd = .unlock →
    ∀ lock ∈ s.dom.blocked, lock.type = .wrlck ∧ lock.frame ∉ label.noMemory
  deriving Decidable

variable {s : EntrylkState} {noMemory : List Nat}

theorem answers_record (s : EntrylkState) (frame answered : Nat) (opRet opErrno : Int) :
    (s.record (.unwind answered opRet opErrno)).answers frame =
      s.answers frame + [answered].count frame := by
  simp only [EntrylkState.answers, EntrylkState.record, EntrylkEvent.answered,
    List.filterMap_cons, List.count_cons, List.count_nil]
  omega

theorem answers_unwindAll (s : EntrylkState) (frame : Nat) (locks : List PlEntryLock)
    (opRet opErrno : Int) :
    (s.unwindAll locks opRet opErrno).answers frame =
      s.answers frame + (entrylkFrames locks).count frame := by
  have hanswered : (locks.map fun l => EntrylkEvent.unwind l.frame opRet opErrno).filterMap
      EntrylkEvent.answered = entrylkFrames locks := by
    rw [List.filterMap_map]
    exact congrFun List.filterMap_eq_map locks
  simp only [EntrylkState.answers, EntrylkState.unwindAll, List.filterMap_append,
    List.filterMap_reverse, hanswered, List.count_append, List.count_reverse]
  omega

theorem answers_grantPass (s : EntrylkState) (noMemory : List Nat) (frame : Nat) :
    (s.grantPass noMemory).1.answers frame = s.answers frame := by
  have hnone (locks : List PlEntryLock) :
      (locks.map EntrylkEvent.grant).filterMap EntrylkEvent.answered = [] := by
    rw [List.filterMap_map]
    exact List.filterMap_eq_nil_iff.mpr fun _ _ => rfl
  simp only [EntrylkState.answers, EntrylkState.grantPass, List.filterMap_append, hnone,
    List.nil_append]

/-- A pass that refuses nothing only takes the woken locks off the queue. -/
theorem waiting_grantPass (hclean : ∀ lock ∈ s.dom.blocked,
      lock.type = .wrlck ∧ lock.frame ∉ noMemory) (frame : Nat) :
    s.waiting frame = (entrylkFrames (s.grantPass noMemory).2).count frame +
      (s.grantPass noMemory).1.waiting frame := by
  simp only [EntrylkState.waiting, EntrylkState.grantPass, grantBlockedEntryLocks_eq]
  obtain ⟨dropped, hwoken⟩ := (entrylkPolicy noMemory).wake_spec s.dom
  have hnone : dropped = [] := by
    refine List.eq_nil_iff_forall_not_mem.mpr fun lock hlock => ?_
    obtain ⟨table, hrefuse⟩ := hwoken.refused lock hlock
    have hblocked : lock ∈ s.dom.blocked := by
      refine hwoken.accounts.mem_iff.mpr ?_
      exact List.mem_append_right _ (List.mem_append_right _ hlock)
    obtain ⟨htype, hmemory⟩ := hclean lock hblocked
    rcases entrylk_refuse hrefuse with h | h
    · exact hmemory h
    · rw [htype] at h
      cases h
  have haccounts := (hwoken.accounts.map PlEntryLock.frame).count_eq frame
  rw [hnone, List.append_nil, List.map_append, List.count_append] at haccounts
  exact haccounts

@[simp]
theorem waiting_unwindAll (s : EntrylkState) (frame : Nat) (locks : List PlEntryLock)
    (opRet opErrno : Int) : (s.unwindAll locks opRet opErrno).waiting frame = s.waiting frame :=
  rfl

@[simp]
theorem waiting_record (s : EntrylkState) (frame : Nat) (event : EntrylkEvent) :
    (s.record event).waiting frame = s.waiting frame := rfl

/-- The step answers the request `arrived` or lets it wait, and for the others
nothing changes but that a waiting one may be answered. -/
def SettlesOne (s t : EntrylkState) (arrived : Nat) : Prop :=
  ∀ frame, t.answers frame + t.waiting frame =
    s.answers frame + s.waiting frame + [arrived].count frame

theorem settlesOne_record (s : EntrylkState) (arrived : Nat) (opRet opErrno : Int) :
    SettlesOne s (s.record (.unwind arrived opRet opErrno)) arrived := by
  intro frame
  rw [answers_record, waiting_record]
  omega

theorem settlesOne_release
    (hclean : ∀ lock ∈ s.dom.blocked, lock.type = .wrlck ∧ lock.frame ∉ noMemory)
    (transport arrived : Nat) :
    SettlesOne s ((s.releaseForTransport noMemory transport).record (.unwind arrived 0 0))
      arrived := by
  intro frame
  let released := (s.dom.blocked.filter fun l => l.transport = transport).reverse
  let kept : EntrylkState :=
    { s with dom := ⟨s.dom.granted.filter fun l => l.transport ≠ transport,
        s.dom.blocked.filter fun l => l.transport ≠ transport⟩ }
  have hrelease : s.releaseForTransport noMemory transport =
      ((kept.grantPass noMemory).1.unwindAll released (-1) eagain).unwindAll
        (kept.grantPass noMemory).2 0 0 := rfl
  have hpass := waiting_grantPass (s := kept)
    (fun lock hlock => hclean lock (List.mem_filter.mp hlock).1) frame
  have hparts : s.waiting frame = (entrylkFrames released).count frame + kept.waiting frame := by
    have hperm := List.filter_append_perm (fun l : PlEntryLock => l.transport = transport)
      s.dom.blocked
    have hcount := (hperm.map PlEntryLock.frame).count_eq frame
    rw [List.map_append, List.count_append] at hcount
    simpa [EntrylkState.waiting, kept, released, entrylkFrames] using hcount.symm
  rw [hrelease, answers_record, answers_unwindAll, answers_unwindAll, answers_grantPass,
    waiting_record, waiting_unwindAll, waiting_unwindAll, hparts, hpass]
  change s.answers frame + _ + _ + _ + _ = _
  omega

theorem settlesOne_unlock
    (hclean : ∀ lock ∈ s.dom.blocked, lock.type = .wrlck ∧ lock.frame ∉ noMemory)
    (granted : List PlEntryLock) (arrived : Nat) :
    SettlesOne s ((EntrylkState.grantBlocked noMemory
      { s with dom := { s.dom with granted := granted } }).record (.unwind arrived 0 0))
        arrived := by
  intro frame
  let unlocked : EntrylkState := { s with dom := { s.dom with granted := granted } }
  have hgrant : unlocked.grantBlocked noMemory =
      (unlocked.grantPass noMemory).1.unwindAll (unlocked.grantPass noMemory).2 0 0 := rfl
  have hpass := waiting_grantPass (s := unlocked) hclean frame
  have hwaiting : s.waiting frame = unlocked.waiting frame := rfl
  rw [hgrant, answers_record, answers_unwindAll, answers_grantPass, waiting_record,
    waiting_unwindAll, hwaiting, hpass]
  change s.answers frame + _ + _ + _ = _
  omega

theorem settlesOne_lockNb (s : EntrylkState) (noMemory : List Nat) (lock : PlEntryLock)
    (arrived : Nat) (opRet opErrno : Int) :
    SettlesOne s ((s.lock noMemory lock true).2.record (.unwind arrived opRet opErrno))
      arrived := by
  intro frame
  have hkept : (s.lock noMemory lock true).2.answers frame = s.answers frame ∧
      (s.lock noMemory lock true).2.waiting frame = s.waiting frame := by
    simp only [EntrylkState.lock, lockName_eq, Policy.offer]
    cases (entrylkPolicy noMemory).judge s.dom lock with
    | grant => exact ⟨rfl, rfl⟩
    | block => exact ⟨rfl, rfl⟩
    | refuse =>
      refine ⟨?_, rfl⟩
      simp only [EntrylkState.answers]
      split_ifs <;> rfl
  rw [answers_record, waiting_record, hkept.1, hkept.2]
  omega

/-- A blocking request is answered unless `__lock_name` has queued it. -/
theorem settlesOne_lock (s : EntrylkState) (noMemory : List Nat) (lock : PlEntryLock) : SettlesOne s
      (if (s.lock noMemory lock false).1 < 0 then
        if (s.lock noMemory lock false).1 = -eagain then (s.lock noMemory lock false).2
        else (s.lock noMemory lock false).2.record
          (.unwind lock.frame (-1) (-(s.lock noMemory lock false).1))
      else (s.lock noMemory lock false).2.record (.unwind lock.frame 0 0)) lock.frame := by
  intro frame
  simp only [EntrylkState.lock, lockName_eq, Policy.offer]
  cases (entrylkPolicy noMemory).judge s.dom lock with
  | grant => exact settlesOne_record s lock.frame 0 0 frame
  | block =>
    simp [eagain, EntrylkState.waiting, EntrylkState.answers, entrylkFrames]
    omega
  | refuse =>
    by_cases hmemory : lock.frame ∈ noMemory
    · simp only [hmemory, if_true]
      exact settlesOne_record s lock.frame (-1) enomem frame
    · simp only [hmemory, if_false]
      exact settlesOne_record s lock.frame (-1) einval frame

theorem settlesOne_step {label : EntrylkLabel} (hclean : NoneRefused s label) :
    SettlesOne s (s.plCommonEntrylk label.noMemory label.call) s.arrived := by
  rw [EntrylkState.plCommonEntrylk]
  by_cases howner : label.call.lkOwner.length = 0
  · simp only [howner, if_true]
    exact settlesOne_release (s := s.arrive label.call) (hclean (.inl howner)) _ s.arrived
  · simp only [howner, if_false]
    cases hcmd : label.call.cmd with
    | lock => exact settlesOne_lock (s.arrive label.call) _ (label.call.newLock s.arrived)
    | lockNb =>
      intro frame
      simp only
      split_ifs <;> exact settlesOne_lockNb (s.arrive label.call) _ _ s.arrived _ _ frame
    | unlock =>
      simp only
      cases hfind : unlockName (s.arrive label.call).dom label.call.basename label.call.type with
      | none => exact settlesOne_record (s.arrive label.call) s.arrived 0 0
      | some found =>
        obtain ⟨unlocked, dom⟩ := found
        obtain ⟨-, -, -, -, rfl⟩ := unlockName_spec hfind
        exact settlesOne_unlock (s := s.arrive label.call) (hclean (.inr hcmd)) _ s.arrived

theorem arrived_step (s : EntrylkState) (noMemory : List Nat) (call : EntrylkCall) :
    (s.plCommonEntrylk noMemory call).arrived = s.arrived + 1 := by
  rw [EntrylkState.plCommonEntrylk]
  by_cases howner : call.lkOwner.length = 0
  · simp only [howner, if_true]
    rfl
  · simp only [howner, if_false]
    cases call.cmd with
    | lock =>
      simp only
      split_ifs <;> rfl
    | lockNb =>
      simp only
      split_ifs <;> rfl
    | unlock =>
      simp only
      cases unlockName (s.arrive call).dom call.basename call.type <;> rfl

theorem EntrylkState.Settled.step (hs : s.Settled) {label : EntrylkLabel}
    (hclean : NoneRefused s label) : (s.plCommonEntrylk label.noMemory label.call).Settled := by
  intro frame
  have hone := settlesOne_step hclean frame
  have hbefore := hs frame
  have hcount : [s.arrived].count frame = if frame = s.arrived then 1 else 0 := by
    by_cases h : frame = s.arrived
    · simp [h]
    · simp [h, Ne.symm h]
  rw [hone, hcount, arrived_step]
  split_ifs at hbefore ⊢ <;> omega

theorem entrylk_requests_settled (hreach : ReachableUnder entrylkStep NoneRefused .fresh s)
    {frame : Nat} (hframe : frame < s.arrived) :
    s.answers frame = 1 ∧ s.waiting frame = 0 ∨ s.answers frame = 0 ∧ s.waiting frame = 1 := by
  have hsettled : s.Settled :=
    hreach.invariant_along EntrylkState.Settled (fun _ => rfl) fun _ hclean hstep hs =>
      Option.some.inj hstep ▸ hs.step hclean
  have hone := hsettled frame
  rw [if_pos hframe] at hone
  omega

theorem entrylk_requests_settled_handedOver :
    ∃ s, run entrylkStep .fresh (handedOver.take 2) = some s ∧ s.waiting 1 = 1 ∧
      (s.answers 1 = 1 ∧ s.waiting 1 = 0 ∨ s.answers 1 = 0 ∧ s.waiting 1 = 1) := by
  obtain ⟨s, hrun⟩ : ∃ s, run entrylkStep .fresh (handedOver.take 2) = some s := ⟨_, rfl⟩
  have hstate : s.waiting 1 = 1 ∧ 1 < s.arrived := by
    cases hrun
    decide
  have hguard : GuardedRun entrylkStep NoneRefused .fresh (handedOver.take 2) := by decide
  exact ⟨s, hrun, hstate.1,
    entrylk_requests_settled (.of_run (handedOver.take 2) .start hguard hrun) hstate.2⟩

/-- A blocking read lock waits for a name until it is unlocked. -/
def readerWaits : List EntrylkLabel :=
  [entrylkCall (some "a") .lock 1, ⟨[], ⟨some "a", .lock, .rdlck, 1, 0, [2]⟩⟩,
    entrylkCall (some "a") .unlock 1]

/-- The grant pass drops the read lock without an answer. -/
theorem reader_forgotten :
    ∃ s, run entrylkStep .fresh readerWaits = some s ∧ 1 < s.arrived ∧ s.answers 1 = 0 ∧
      s.waiting 1 = 0 := by
  obtain ⟨s, hrun⟩ : ∃ s, run entrylkStep .fresh readerWaits = some s := ⟨_, rfl⟩
  refine ⟨s, hrun, ?_⟩
  cases hrun
  decide

end GlusterFS.Locks
