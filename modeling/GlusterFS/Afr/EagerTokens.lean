import GlusterFS.Afr.EagerLock

/-!
# The eager tokens of a file descriptor

The two counters of a child together count the transactions that were told that
they hold the lock there, and `lock_acquired` counts full-file locks on the child
that nobody is about to take away.  A token without a lock cannot remain, since
an unlock lowers `lock_acquired` only when no token is left.
-/

namespace GlusterFS.Afr

open Transition ProcessTable

variable {n : Nat}

/-! ## What a transaction accounts for -/

/-- The transaction was told that it holds the lock, and has not begun to unlock. -/
def EagerPhase.told (phase : EagerPhase) : Int := if phase = .locked true then 1 else 0

/-- The full-file locks on the child that belong to the transaction and that
`lock_acquired` does not count. -/
def EagerPhase.onChild (flock : LockRange) : EagerPhase → Int
  | .lockAnswered true true | .unlockWound true => 1
  | .lockAnswered false true | .locked false | .unlockWound false =>
    if flock = fullFlock then 1 else 0
  | _ => 0

theorem EagerPhase.told_nonneg (phase : EagerPhase) : 0 ≤ phase.told := by
  rw [EagerPhase.told]
  split_ifs <;> omega

theorem EagerPhase.onChild_nonneg (flock : LockRange) (phase : EagerPhase) :
    0 ≤ phase.onChild flock := by
  unfold EagerPhase.onChild
  split
  · omega
  · omega
  · split_ifs <;> omega
  · split_ifs <;> omega
  · split_ifs <;> omega
  · omega

structure EagerChild.Sound (child : EagerChild) : Prop where
  acquired : 0 ≤ child.lockAcquired
  piggyback : 0 ≤ child.lockPiggyback
  covered : 0 < child.lockPiggyback → 0 < child.lockAcquired

def EagerChild.fullLocks (child : EagerChild) : Int := child.held.count fullFlock

/-- The counters and locks of a child move as the transaction does. -/
structure Balanced (flock : LockRange) (child : EagerChild) (phase : EagerPhase)
    (result : EagerChild × EagerPhase) : Prop where
  sound : result.1.Sound
  told : result.1.lockAcquired + result.1.lockPiggyback - result.2.told =
    child.lockAcquired + child.lockPiggyback - phase.told
  held : result.1.fullLocks - result.1.lockAcquired - result.2.onChild flock =
    child.fullLocks - child.lockAcquired - phase.onChild flock

variable {eager : Bool}

section Turns

variable {child : EagerChild} {flock : LockRange} (hsound : child.Sound)

include hsound

theorem Balanced.lock : Balanced flock child .free (afrNonblockingInodelk child) := by
  obtain ⟨hacquired, hpiggyback, hcovered⟩ := hsound
  rw [afrNonblockingInodelk]
  split_ifs with h
  · refine ⟨⟨hacquired, ?_, fun _ => ?_⟩, ?_, ?_⟩
    all_goals simp [afrNonblockingInodelkCbk, EagerPhase.told, EagerPhase.onChild,
      EagerChild.fullLocks]
    all_goals omega
  · exact ⟨⟨hacquired, hpiggyback, hcovered⟩, rfl, rfl⟩

theorem Balanced.wind (eager : Bool) : Balanced flock child .free (child, .lockWound eager) :=
  ⟨hsound, rfl, rfl⟩

theorem Balanced.setlk {txn : EagerTxn n} (eager granted : Bool) :
    Balanced txn.flock child (.lockWound eager)
      (child.setlk (txn.range eager) granted, .lockAnswered eager granted) := by
  cases granted with
  | false => exact ⟨hsound, by simp [EagerChild.setlk, EagerPhase.told],
      by cases eager <;> simp [EagerChild.setlk, EagerPhase.onChild]⟩
  | true =>
    refine ⟨⟨hsound.acquired, hsound.piggyback, hsound.covered⟩, ?_, ?_⟩
    · simp [EagerChild.setlk, EagerPhase.told]
    · cases eager with
      | true =>
        simp [EagerChild.setlk, EagerPhase.onChild, EagerTxn.range, EagerChild.fullLocks]
        omega
      | false =>
        by_cases h : txn.flock = fullFlock <;>
          simp [EagerChild.setlk, EagerPhase.onChild, EagerTxn.range, EagerChild.fullLocks, h]
        omega

theorem Balanced.nonblockingReply (eager granted : Bool) :
    Balanced flock child (.lockAnswered eager granted)
      (afrNonblockingInodelkCbk child eager (if granted then 0 else -1)) := by
  obtain ⟨hacquired, hpiggyback, hcovered⟩ := hsound
  cases granted with
  | false =>
    exact ⟨⟨hacquired, hpiggyback, hcovered⟩, rfl, by cases eager <;> rfl⟩
  | true =>
    cases eager with
    | true =>
      refine ⟨⟨?_, hpiggyback, fun _ => ?_⟩, ?_, ?_⟩
      all_goals simp [afrNonblockingInodelkCbk, EagerPhase.told, EagerPhase.onChild,
        EagerChild.fullLocks]
      all_goals omega
    | false => exact ⟨⟨hacquired, hpiggyback, hcovered⟩, rfl, rfl⟩

theorem Balanced.blockingReply (granted : Bool) : Balanced flock child (.lockAnswered false granted)
      (afrLockCbk child false (if granted then 0 else -1)) := by
  cases granted with
  | false => exact ⟨hsound, rfl, rfl⟩
  | true => exact ⟨hsound, rfl, rfl⟩

/-- An unlock finds a token or a lock that was acquired. -/
theorem Balanced.unlock
    (htold : (EagerPhase.locked eager).told ≤ child.lockAcquired + child.lockPiggyback) :
    Balanced flock child (.locked eager) (afrUnlockInodelk child eager) := by
  obtain ⟨hacquired, hpiggyback, hcovered⟩ := hsound
  cases eager with
  | false => exact ⟨⟨hacquired, hpiggyback, hcovered⟩, rfl, rfl⟩
  | true =>
    have htold : 1 ≤ child.lockAcquired + child.lockPiggyback := htold
    rw [afrUnlockInodelk, if_neg (by simp)]
    split_ifs with h
    · have htoken : 0 < child.lockPiggyback := by omega
      refine ⟨⟨hacquired, Int.le_sub_one_of_lt htoken, fun _ => hcovered htoken⟩, ?_, ?_⟩
      · simp [EagerPhase.told]
        omega
      · simp [EagerPhase.onChild, EagerChild.fullLocks]
    · have hnone : child.lockPiggyback = 0 := not_ne_iff.mp h
      have hlock : 0 < child.lockAcquired := by omega
      refine ⟨⟨Int.le_sub_one_of_lt hlock, hpiggyback, fun hpos => absurd hnone hpos.ne'⟩, ?_, ?_⟩
      · simp [EagerPhase.told]
        omega
      · simp [EagerPhase.onChild, EagerChild.fullLocks]
        omega

theorem Balanced.unlck {txn : EagerTxn n}
    (honChild : (EagerPhase.unlockWound eager).onChild txn.flock ≤
      child.fullLocks - child.lockAcquired) : Balanced txn.flock child (.unlockWound eager)
      (child.unlck (txn.range eager), .unlockAnswered eager) := by
  have hacquired := hsound.acquired
  have hweight : (EagerPhase.unlockWound eager).onChild txn.flock =
      if txn.range eager = fullFlock then 1 else 0 := by
    cases eager <;> rfl
  refine ⟨⟨hsound.acquired, hsound.piggyback, hsound.covered⟩, rfl, ?_⟩
  rw [hweight] at honChild ⊢
  rw [show (EagerPhase.unlockAnswered eager).onChild txn.flock = 0 from rfl]
  simp only [EagerChild.unlck, EagerChild.fullLocks] at honChild ⊢
  split_ifs at honChild ⊢ with h
  · rw [h, List.count_erase_self]
    omega
  · rw [List.count_erase_of_ne (Ne.symm h)]

theorem Balanced.unlockReply (eager : Bool) :
    Balanced flock child (.unlockAnswered eager) (child, .free) :=
  ⟨hsound, rfl, rfl⟩

end Turns

/-! ## The steps -/

/-- What the stage of a transaction says of its children. -/
def EagerTxn.Ok (txn : EagerTxn n) : Prop :=
  match txn.stage with
  | .nonblocking todo => todo.Nodup ∧ ∀ i ∈ todo, txn.phase i = .free
  | .blocking todo => (todo.Nodup ∧ ∀ i ∈ todo, txn.phase i = .free) ∧
      ∀ i, (txn.phase i).eagerLock = false
  | .operating => True
  | .unlocking todo _ => ∀ i, (txn.phase i).isLocked = true → i ∈ todo
  | .finished => ∀ i, (txn.phase i).eagerLock = false

structure EagerInv (s : EagerState n) : Prop where
  ok : ∀ txn ∈ s.txns, txn.Ok
  sound : ∀ i, (s.child i).Sound
  told : ∀ i, (s.child i).lockAcquired + (s.child i).lockPiggyback =
    total (fun txn => (txn.phase i).told) s.txns
  held : ∀ i, (s.child i).fullLocks = (s.child i).lockAcquired +
    total (fun txn => (txn.phase i).onChild txn.flock) s.txns

variable {todo : List (Fin n)} {phases : Fin n → EagerPhase}

theorem forall_mem_update {i : Fin n} {phase : EagerPhase} (hfree : ∀ j ∈ todo, phases j = .free)
    (hi : i ∉ todo) : ∀ j ∈ todo, Function.update phases i phase j = .free := by
  intro j hj
  rw [Function.update_of_ne (ne_of_mem_of_not_mem hj hi)]
  exact hfree j hj

theorem forall_update (property : EagerPhase → Prop) {i : Fin n} {phase : EagerPhase}
    (hall : ∀ j, property (phases j)) (hphase : property phase) :
    ∀ j, property (Function.update phases i phase j) := by
  intro j
  rw [Function.update_apply]
  split_ifs
  · exact hphase
  · exact hall j

theorem locked_of_update {i j : Fin n} {phase : EagerPhase} (hphase : phase.isLocked = false)
    (hj : (Function.update phases i phase j).isLocked = true) :
    j ≠ i ∧ (phases j).isLocked = true := by
  by_cases h : j = i
  · subst h
    rw [Function.update_self, hphase] at hj
    cases hj
  · rw [Function.update_of_ne h] at hj
    exact ⟨h, hj⟩

variable {stage : EagerStage n}

section Stages

variable {txn : EagerTxn n} {i : Fin n} {phase : EagerPhase} (hok : txn.Ok)

include hok

theorem EagerTxn.Ok.answer (hunderWay : (txn.phase i).underWay = true)
    (hlocked : phase.isLocked = false)
    (heager : (txn.phase i).eagerLock = false → phase.eagerLock = false) :
    EagerTxn.Ok { txn with phase := Function.update txn.phase i phase } := by
  have hnot : ∀ {todo : List (Fin n)}, (∀ j ∈ todo, txn.phase j = .free) → i ∉ todo := by
    intro todo hfree hi
    rw [hfree i hi] at hunderWay
    cases hunderWay
  rw [EagerTxn.Ok] at hok ⊢
  cases hstage : txn.stage with
  | nonblocking todo =>
    rw [hstage] at hok
    exact ⟨hok.1, forall_mem_update hok.2 (hnot hok.2)⟩
  | blocking todo =>
    rw [hstage] at hok
    exact ⟨⟨hok.1.1, forall_mem_update hok.1.2 (hnot hok.1.2)⟩,
      forall_update (fun phase => phase.eagerLock = false) hok.2 (heager (hok.2 i))⟩
  | operating => trivial
  | unlocking todo retry =>
    rw [hstage] at hok
    exact fun j hj => hok j (locked_of_update hlocked hj).2
  | finished =>
    rw [hstage] at hok
    exact forall_update (fun phase => phase.eagerLock = false) hok (heager (hok i))

/-- The loops start and end as they should. -/
theorem EagerTxn.Ok.next (hquiet : txn.Quiet) (hnext : txn.nextStage = some stage) :
    EagerTxn.Ok { txn with stage := stage } := by
  have hlockedChildren : ∀ i, (txn.phase i).isLocked = true → i ∈ txn.lockedChildren := fun i hi =>
    List.mem_filter.mpr ⟨List.mem_finRange i, hi⟩
  rw [EagerTxn.nextStage] at hnext
  split at hnext
  next hstage =>
    split_ifs at hnext <;> obtain rfl := Option.some.inj hnext
    · trivial
    · exact hlockedChildren
  next hstage =>
    split_ifs at hnext with hnone <;> obtain rfl := Option.some.inj hnext
    · intro i hi
      exact hnone ▸ hlockedChildren i hi
    · trivial
  next hstage =>
    obtain rfl := Option.some.inj hnext
    exact hlockedChildren
  next retry hstage =>
    obtain rfl := Option.some.inj hnext
    simp only [EagerTxn.Ok, hstage] at hok
    have hfree : ∀ i, txn.phase i = .free := by
      intro i
      have hi := hok i
      have hcall := hquiet i
      cases hphase : txn.phase i with
      | free => rfl
      | locked eager =>
        rw [hphase] at hi
        exact nomatch hi rfl
      | _ =>
        rw [hphase] at hcall
        cases hcall
    have heager : ∀ i, (txn.phase i).eagerLock = false := fun i => by rw [hfree i]; rfl
    cases retry with
    | true =>
      exact ⟨⟨(List.nodup_finRange n).filter _, fun i _ => hfree i⟩, heager⟩
    | false => exact heager
  next => cases hnext

end Stages

section Steps

variable {s t : EagerState n} {k : Nat} {txn : EagerTxn n} {i : Fin n}
variable (hs : EagerInv s) (hk : s.txns[k]? = some txn)

include hs hk

theorem EagerInv.told_le : (txn.phase i).told ≤
    (s.child i).lockAcquired + (s.child i).lockPiggyback := by
  rw [hs.told]
  exact @weight_le_total _ (fun txn => (txn.phase i).told) _
    (fun txn _ => (txn.phase i).told_nonneg) _ (List.mem_of_getElem? hk)

theorem EagerInv.onChild_le : (txn.phase i).onChild txn.flock ≤
    (s.child i).fullLocks - (s.child i).lockAcquired := by
  have hle := @weight_le_total _ (fun txn => (txn.phase i).onChild txn.flock) _
    (fun txn _ => (txn.phase i).onChild_nonneg txn.flock) _ (List.mem_of_getElem? hk)
  have hheld := hs.held i
  omega

/-- The transaction and one child move. -/
theorem EagerInv.turn {result : EagerChild × EagerPhase}
    (hbalanced : Balanced txn.flock (s.child i) (txn.phase i) result) (hok : EagerTxn.Ok
      { txn with stage := stage, phase := Function.update txn.phase i result.2 }) :
    EagerInv (s.turn k txn i result stage) where
  ok := forall_mem_set hs.ok hok
  sound j := by
    simp only [EagerState.turn, Function.update_apply]
    split_ifs
    · exact hbalanced.sound
    · exact hs.sound j
  told j := by
    have htold := hs.told j
    simp only [EagerState.turn]
    rw [total_set hk, ← htold]
    by_cases h : j = i
    · subst h
      have hmove := hbalanced.told
      simp only [Function.update_self]
      omega
    · simp only [Function.update_of_ne h]
      omega
  held j := by
    have hheld := hs.held j
    simp only [EagerState.turn]
    rw [total_set hk]
    by_cases h : j = i
    · subst h
      have hmove := hbalanced.held
      simp only [Function.update_self]
      omega
    · simp only [Function.update_of_ne h]
      omega

theorem EagerInv.setStage (hok : EagerTxn.Ok { txn with stage := stage }) :
    EagerInv (s.setStage k txn stage) where
  ok := forall_mem_set hs.ok hok
  sound := hs.sound
  told j := by simp only [EagerState.setStage, total_set hk, hs.told j, sub_self, add_zero]
  held j := by simp only [EagerState.setStage, total_set hk, hs.held j, sub_self, add_zero]

theorem EagerInv.lock (hstage : txn.stage = .nonblocking (i :: todo)) :
    EagerInv (s.turn k txn i (afrNonblockingInodelk (s.child i)) (.nonblocking todo)) := by
  have hok := hs.ok txn (List.mem_of_getElem? hk)
  simp only [EagerTxn.Ok, hstage] at hok
  obtain ⟨hnodup, hfree⟩ := hok
  obtain ⟨hi, htodo⟩ := List.nodup_cons.mp hnodup
  refine hs.turn hk ?_ ⟨htodo, forall_mem_update (fun j hj => hfree j (.tail _ hj)) hi⟩
  rw [hfree i List.mem_cons_self]
  exact .lock (hs.sound i)

theorem EagerInv.lockBlocking (hstage : txn.stage = .blocking (i :: todo)) :
    EagerInv (s.turn k txn i (s.child i, .lockWound false) (.blocking todo)) := by
  have hok := hs.ok txn (List.mem_of_getElem? hk)
  simp only [EagerTxn.Ok, hstage] at hok
  obtain ⟨⟨hnodup, hfree⟩, heager⟩ := hok
  obtain ⟨hi, htodo⟩ := List.nodup_cons.mp hnodup
  refine hs.turn hk ?_ ⟨⟨htodo, forall_mem_update (fun j hj => hfree j (.tail _ hj)) hi⟩,
    forall_update (fun phase => phase.eagerLock = false) heager rfl⟩
  rw [hfree i List.mem_cons_self]
  exact .wind (hs.sound i) false

theorem EagerInv.nonblockingReply {granted : Bool}
    (hphase : txn.phase i = .lockAnswered eager granted) (hstage : txn.stage = .nonblocking todo) :
    EagerInv (s.turn k txn i
      (afrNonblockingInodelkCbk (s.child i) eager (if granted then 0 else -1))
      (.nonblocking todo)) := by
  have hok := hs.ok txn (List.mem_of_getElem? hk)
  simp only [EagerTxn.Ok, hstage] at hok
  have hi : i ∉ todo := by
    intro hi
    rw [hok.2 i hi] at hphase
    cases hphase
  refine hs.turn hk ?_ ⟨hok.1, forall_mem_update hok.2 hi⟩
  rw [hphase]
  exact .nonblockingReply (hs.sound i) eager granted

theorem EagerInv.blockingReply {granted : Bool} (hphase : txn.phase i = .lockAnswered eager granted)
    (hstage : txn.stage = .blocking todo) (enosys : Bool) :
    EagerInv (s.turn k txn i (afrLockCbk (s.child i) eager (if granted then 0 else -1))
      (if enosys ∧ granted = false then .finished else .blocking todo)) := by
  have hok := hs.ok txn (List.mem_of_getElem? hk)
  simp only [EagerTxn.Ok, hstage] at hok
  obtain ⟨⟨hnodup, hfree⟩, heager⟩ := hok
  have hi : i ∉ todo := by
    intro hi
    rw [hfree i hi] at hphase
    cases hphase
  obtain rfl : eager = false := by simpa [hphase, EagerPhase.eagerLock] using heager i
  have hnew : ∀ j, (Function.update txn.phase i
      (afrLockCbk (s.child i) false (if granted then 0 else -1)).2 j).eagerLock = false :=
    forall_update (fun phase => phase.eagerLock = false) heager (by cases granted <;> rfl)
  refine hs.turn hk ?_ ?_
  · rw [hphase]
    exact .blockingReply (hs.sound i) granted
  · by_cases h : enosys ∧ granted = false
    · rw [if_pos h]
      exact hnew
    · rw [if_neg h]
      exact ⟨⟨hnodup, forall_mem_update hfree hi⟩, hnew⟩

theorem EagerInv.unlock {retry : Bool} (hstage : txn.stage = .unlocking (i :: todo) retry)
    (hphase : txn.phase i = .locked eager) :
    EagerInv (s.turn k txn i (afrUnlockInodelk (s.child i) eager) (.unlocking todo retry)) := by
  have hok := hs.ok txn (List.mem_of_getElem? hk)
  simp only [EagerTxn.Ok, hstage] at hok
  have htold := hs.told_le hk (i := i)
  rw [hphase] at htold
  refine hs.turn hk ?_ fun j hj => ?_
  · rw [hphase]
    exact .unlock (hs.sound i) htold
  · have hnot : (afrUnlockInodelk (s.child i) eager).2.isLocked = false := by
      rw [afrUnlockInodelk]
      split_ifs <;> rfl
    obtain ⟨hne, hlocked⟩ := locked_of_update hnot hj
    exact (List.mem_cons.mp (hok j hlocked)).resolve_left hne

theorem EagerInv.actLock (hstep : s.act k txn .lock = some t) : EagerInv t := by
  simp only [EagerState.act] at hstep
  split at hstep
  next i todo hstage =>
    obtain rfl := Option.some.inj hstep
    exact hs.lock hk hstage
  next i todo hstage =>
    obtain ⟨-, h⟩ := Option.ite_none_right_eq_some.mp hstep
    obtain rfl := Option.some.inj h
    exact hs.lockBlocking hk hstage
  next => cases hstep

theorem EagerInv.actChildLock {granted : Bool}
    (hstep : s.act k txn (.childLock i granted) = some t) : EagerInv t := by
  have hok := hs.ok txn (List.mem_of_getElem? hk)
  simp only [EagerState.act] at hstep
  split at hstep
  next eager hphase =>
    obtain rfl := Option.some.inj hstep
    refine hs.turn hk ?_ (hok.answer (by rw [hphase]; rfl) rfl fun h => ?_)
    · rw [hphase]
      exact .setlk (hs.sound i) eager granted
    · rwa [hphase] at h
  next => cases hstep

theorem EagerInv.actLockReply {enosys : Bool}
    (hstep : s.act k txn (.lockReply i enosys) = some t) : EagerInv t := by
  simp only [EagerState.act] at hstep
  split at hstep
  next eager granted hphase =>
    split at hstep
    next todo hstage =>
      obtain rfl := Option.some.inj hstep
      exact hs.nonblockingReply hk hphase hstage
    next todo hstage =>
      obtain rfl := Option.some.inj hstep
      exact hs.blockingReply hk hphase hstage enosys
    next => cases hstep
  next => cases hstep

theorem EagerInv.actUnlock (hstep : s.act k txn .unlock = some t) : EagerInv t := by
  have hok := hs.ok txn (List.mem_of_getElem? hk)
  simp only [EagerState.act] at hstep
  split at hstep
  next i todo retry hstage =>
    split at hstep
    next eager hphase =>
      obtain rfl := Option.some.inj hstep
      exact hs.unlock hk hstage hphase
    next hphase =>
      obtain rfl := Option.some.inj hstep
      refine hs.setStage hk fun j hj => ?_
      simp only [EagerTxn.Ok, hstage] at hok
      refine (List.mem_cons.mp (hok j hj)).resolve_left fun h => ?_
      subst h
      cases hlocked : txn.phase j with
      | locked eager => exact hphase eager hlocked
      | _ => rw [hlocked] at hj; cases hj
  next => cases hstep

theorem EagerInv.actChildUnlock (hstep : s.act k txn (.childUnlock i) = some t) :
    EagerInv t := by
  have hok := hs.ok txn (List.mem_of_getElem? hk)
  simp only [EagerState.act] at hstep
  split at hstep
  next eager hphase =>
    obtain rfl := Option.some.inj hstep
    have hle := hs.onChild_le hk (i := i)
    rw [hphase] at hle
    refine hs.turn hk ?_ (hok.answer (by rw [hphase]; rfl) rfl fun h => ?_)
    · rw [hphase]
      exact .unlck (hs.sound i) hle
    · rwa [hphase] at h
  next => cases hstep

theorem EagerInv.actUnlockReply (hstep : s.act k txn (.unlockReply i) = some t) :
    EagerInv t := by
  have hok := hs.ok txn (List.mem_of_getElem? hk)
  simp only [EagerState.act] at hstep
  split at hstep
  next eager hphase =>
    obtain rfl := Option.some.inj hstep
    refine hs.turn hk ?_ (hok.answer (by rw [hphase]; rfl) rfl fun _ => rfl)
    rw [hphase]
    exact .unlockReply (hs.sound i) eager
  next => cases hstep

theorem EagerInv.act {action : EagerAction n} (hstep : s.act k txn action = some t) :
    EagerInv t := by
  cases action with
  | lock => exact hs.actLock hk hstep
  | childLock i granted => exact hs.actChildLock hk hstep
  | lockReply i enosys => exact hs.actLockReply hk hstep
  | unlock => exact hs.actUnlock hk hstep
  | childUnlock i => exact hs.actChildUnlock hk hstep
  | unlockReply i => exact hs.actUnlockReply hk hstep
  | proceed =>
    obtain ⟨hquiet, h⟩ := Option.ite_none_right_eq_some.mp hstep
    obtain ⟨stage, hnext, rfl⟩ := Option.map_eq_some_iff.mp h
    exact hs.setStage hk ((hs.ok txn (List.mem_of_getElem? hk)).next hquiet hnext)

end Steps

theorem EagerInv.start : EagerInv (.start : EagerState n) where
  ok _ h := by cases h
  sound _ := ⟨Int.le_refl 0, Int.le_refl 0, fun h => h⟩
  told _ := rfl
  held _ := rfl

theorem EagerInv.begin {s : EagerState n} (hs : EagerInv s) (childUp : Fin n → Bool)
    (flock : LockRange) : EagerInv { s with txns := s.txns ++ [.begin childUp flock] } where
  ok := by
    refine List.forall_mem_append.mpr ⟨hs.ok, List.forall_mem_singleton.mpr ?_⟩
    exact ⟨(List.nodup_finRange n).filter _, fun _ _ => rfl⟩
  sound := hs.sound
  told i := by
    rw [total_append, ← hs.told i]
    simp [EagerTxn.begin, EagerPhase.told]
  held i := by
    rw [total_append, hs.held i]
    simp [EagerTxn.begin, EagerPhase.onChild]

theorem EagerInv.of_reachable {s : EagerState n} (hreach : Reachable eagerStep .start s) :
    EagerInv s := by
  refine hreach.invariant_along EagerInv .start fun {before label after} _ _ hstep hs => ?_
  cases label with
  | begin childUp flock =>
    obtain rfl := Option.some.inj hstep
    exact hs.begin childUp flock
  | act k action =>
    obtain ⟨txn, hk, hact⟩ := Option.bind_eq_some_iff.mp hstep
    exact hs.act hk hact

theorem eager_lock_keeps_file_locked {s : EagerState n} (hreach : Reachable eagerStep .start s)
    (i : Fin n) :
    (∀ txn ∈ s.txns, txn.phase i = .locked true → fullFlock ∈ (s.child i).held) ∧
      0 ≤ (s.child i).lockAcquired ∧ 0 ≤ (s.child i).lockPiggyback ∧
      ((∀ txn ∈ s.txns, txn.stage = .finished) →
        (s.child i).lockAcquired = 0 ∧ (s.child i).lockPiggyback = 0) := by
  have hs := EagerInv.of_reachable hreach
  obtain ⟨hacquired, hpiggyback, hcovered⟩ := hs.sound i
  refine ⟨fun txn htxn hphase => ?_, hacquired, hpiggyback, fun hfinished => ?_⟩
  · obtain ⟨k, hk⟩ := List.mem_iff_getElem?.mp htxn
    have htold := hs.told_le hk (i := i)
    have honChild := hs.onChild_le hk (i := i)
    rw [hphase] at htold honChild
    have htold : 1 ≤ (s.child i).lockAcquired + (s.child i).lockPiggyback := htold
    have honChild : 0 ≤ (s.child i).fullLocks - (s.child i).lockAcquired := honChild
    have hpos : 0 < (s.child i).fullLocks := by
      by_cases htoken : 0 < (s.child i).lockPiggyback
      · have hlock := hcovered htoken
        omega
      · omega
    exact List.count_pos_iff.mp (Int.natCast_pos.mp hpos)
  · have hzero : total (fun txn => (txn.phase i).told) s.txns = 0 := by
      refine total_eq_zero fun txn htxn => ?_
      have hok := hs.ok txn htxn
      simp only [EagerTxn.Ok, hfinished txn htxn] at hok
      rw [EagerPhase.told, if_neg]
      intro hphase
      have heager := hok i
      rw [hphase] at heager
      cases heager
    have htold := hs.told i
    omega

/-- Two transactions lock two children, and the second is refused on child 1. -/
theorem eager_lock_keeps_file_locked_fallback : ∃ s, Reachable eagerStep (.start : EagerState 2) s ∧
      (∃ txn ∈ s.txns, txn.phase 0 = .locked true) ∧ fullFlock ∈ (s.child 0).held ∧
      0 ≤ (s.child 0).lockAcquired ∧ 0 ≤ (s.child 0).lockPiggyback := by
  obtain ⟨s, hrun, hreach⟩ := Reachable.exists_of_run eagerStep (.start : EagerState 2)
    [.begin (fun _ => true) ⟨0, 10⟩, .act 0 .lock, .act 0 .lock, .act 0 (.childLock 0 true),
        .act 0 (.lockReply 0 false), .begin (fun _ => true) ⟨20, 10⟩, .act 1 .lock, .act 1 .lock,
        .act 1 (.childLock 1 false), .act 1 (.lockReply 1 false), .act 1 .proceed,
        .act 1 .unlock] rfl
  have hkept := eager_lock_keeps_file_locked hreach 0
  have htold : ∃ txn ∈ s.txns, txn.phase 0 = .locked true := by
    cases hrun
    decide
  obtain ⟨txn, htxn, hphase⟩ := htold
  exact ⟨s, hreach, ⟨txn, htxn, hphase⟩, hkept.1 txn htxn hphase, hkept.2.1, hkept.2.2.1⟩

end GlusterFS.Afr
