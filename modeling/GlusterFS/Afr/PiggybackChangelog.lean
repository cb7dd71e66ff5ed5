import GlusterFS.Afr.PiggybackTokens

/-!
# What piggybacking leaves on the children

Against the plain protocol: once all the transactions are over, the counter of
child `i` for child `j` is the number of transactions that were pre-op'ed on
`i` and missed `j`, and while an operation runs the counters show it.  Two
interleavings break this.  A transaction that is resumed because a child does
not support xattrops adds its pre-op a second time, and a pre-op can join a
`pre_op_done` that is about to be lowered.
-/

namespace GlusterFS.Afr

open GlusterFS.Transition GlusterFS.ProcessTable

variable {n : Nat}

/-- Child `j` did not get the operation of the transaction. -/
def Txn.missed (txn : Txn n) (j : Fin n) : Bool :=
  txn.aborted || !txn.preOp j || txn.failed j

def Txn.finished (txn : Txn n) : Prop :=
  txn.stage = .postOp ∧ ∀ i, (txn.phase i).finished = true
  deriving Decidable

def Txn.fopStarted (txn : Txn n) : Prop :=
  txn.stage = .fop ∨ txn.stage = .postOp ∧ txn.aborted = false
  deriving Decidable

/-- The post-op on child `i` was not issued. -/
def Txn.awaitsPostOp (txn : Txn n) (i : Fin n) : Prop :=
  txn.phase i = .preOpDone ∨ txn.phase i = .undoing
  deriving Decidable

/-- The transactions whose post-op on `i` is over and that missed `j`. -/
def AfrFd.recordedFailures (fd : AfrFd n) (i j : Fin n) : Nat :=
  fd.txns.countP fun txn => txn.phase i = .postOpDone && txn.missed j

/-- When all the transactions are over, the counters and the fd context are
what the plain protocol leaves. -/
def AfrFd.Settled (fd : AfrFd n) : Prop :=
  (∀ txn ∈ fd.txns, txn.finished) → ∀ i,
    fd.shared.preOpDone i = 0 ∧ fd.shared.preOpPiggyback i = 0 ∧ ∀ j, fd.shared.disk i j =
        fd.txns.countP fun txn => txn.preOp i && txn.missed j

/-- A running operation shows in the counters of every child it was pre-op'ed
on. -/
def AfrFd.Covered (fd : AfrFd n) : Prop :=
  ∀ txn ∈ fd.txns, txn.fopStarted → ∀ i, txn.awaitsPostOp i →
    ∀ j, 1 + (fd.recordedFailures i j : Int) ≤ fd.shared.disk i j
  deriving Decidable

/-! ## The transactions -/

/-- No phase of the post-op. -/
def ChildPhase.early : ChildPhase → Bool
  | .undoing | .postOpWound _ | .postOpDone => false
  | _ => true

/-- No pre-op is under way. -/
def ChildPhase.late : ChildPhase → Bool
  | .preOpWound | .preOpExecuted => false
  | _ => true

/-- What `pending` holds in each stage, for a transaction that performs its
operation. -/
structure TxnInv (txn : Txn n) : Prop where
  performed : txn.aborted = false
  notResumed : txn.stage ≠ .resumed
  unlocked : ∀ i, txn.lockedNodes i = false → txn.phase i = .idle
  preOpPending : txn.stage = .preOp → txn.pending = markAllPending ∧ ∀ i, txn.failed i = false
  fopPending : txn.stage = .fop → ∀ j, txn.pending j = if txn.failed j then 0 else -1
  postOpPending : txn.stage = .postOp → ∀ j, txn.pending j = if txn.missed j then 0 else -1
  early : txn.stage ≠ .postOp → ∀ i, (txn.phase i).early = true
  late : txn.stage ≠ .preOp → ∀ i, (txn.phase i).late = true

theorem txnInv_begin (lockedNodes : Fin n → Bool) : TxnInv (Txn.begin lockedNodes) where
  performed := rfl
  notResumed := by simp [Txn.begin]
  unlocked _ _ := rfl
  preOpPending _ := ⟨rfl, fun _ => rfl⟩
  fopPending h := by simp [Txn.begin] at h
  postOpPending h := by simp [Txn.begin] at h
  early _ _ := rfl
  late h := by simp [Txn.begin] at h

variable {phase : ChildPhase} {txn : Txn n} {i : Fin n}

theorem MovedTo.phase_eq {new : Txn n} (hmoved : MovedTo txn i phase new) (c : Fin n) :
    new.phase c = if c = i then phase else txn.phase c := by
  rw [hmoved.phase]
  by_cases hc : c = i
  · subst hc
    simp [Txn.setPhase]
  · simp [Txn.setPhase, hc]

/-- Phases that agree on `pre_op` miss the same children. -/
theorem MovedTo.missed_eq {new : Txn n} (hmoved : MovedTo txn i phase new)
    (hpreOp : phase.preOp = (txn.phase i).preOp) (j : Fin n) : new.missed j = txn.missed j := by
  have hsame : new.preOp j = txn.preOp j := by
    simp only [Txn.preOp, hmoved.phase, Txn.setPhase]
    by_cases hj : j = i
    · subst hj
      simpa using hpreOp
    · simp [hj]
  rw [Txn.missed, Txn.missed, hsame, hmoved.aborted, hmoved.failed]

variable {after shared : Shared n}

/-- The stage in which a move happens, and whether it changes `pre_op`. -/
theorem ChildMove.stage_spec (hinv : TxnInv txn) (hmove : ChildMove i shared txn after phase) :
    txn.lockedNodes i = true ∧ (txn.stage = .preOp ∧ phase.early = true ∨
        txn.stage = .postOp ∧ phase.late = true ∧ phase.preOp = (txn.phase i).preOp) := by
  have hlocked : txn.phase i ≠ .idle → txn.lockedNodes i = true := by
    intro hne
    by_contra h
    exact hne (hinv.unlocked i (by simpa using h))
  have hpre : (txn.phase i).late = false → txn.stage = .preOp := by
    intro h
    by_contra hne
    simp [hinv.late hne i] at h
  have hpost : (txn.phase i).early = false → txn.stage = .postOp := by
    intro h
    by_contra hne
    simp [hinv.early hne i] at h
  cases hmove with
  | join hstage hlock hphase _ => exact ⟨hlock, .inl ⟨hstage, rfl⟩⟩
  | wind hstage hlock hphase _ => exact ⟨hlock, .inl ⟨hstage, rfl⟩⟩
  | executed hphase =>
    exact ⟨hlocked (by simp [hphase]), .inl ⟨hpre (by simp [hphase, ChildPhase.late]), rfl⟩⟩
  | reply hphase =>
    exact ⟨hlocked (by simp [hphase]), .inl ⟨hpre (by simp [hphase, ChildPhase.late]), rfl⟩⟩
  | error hphase =>
    exact ⟨hlocked (by simp [hphase]), .inl ⟨hpre (by simp [hphase, ChildPhase.late]), rfl⟩⟩
  | token hstage hphase _ =>
    refine ⟨hlocked (by simp [hphase]), .inr ⟨hstage, ?_⟩⟩
    rw [hphase]
    split_ifs <;> exact ⟨rfl, rfl⟩
  | noToken hstage hphase _ =>
    exact ⟨hlocked (by simp [hphase]), .inr ⟨hstage, rfl, by rw [hphase]; rfl⟩⟩
  | undone hphase =>
    exact ⟨hlocked (by simp [hphase]), .inr ⟨hpost (by simp [hphase, ChildPhase.early]),
      rfl, by rw [hphase]; rfl⟩⟩
  | posted optimized hphase =>
    exact ⟨hlocked (by simp [hphase]), .inr ⟨hpost (by simp [hphase, ChildPhase.early]),
      rfl, by rw [hphase]; rfl⟩⟩

theorem TxnInv.moved {new : Txn n} (hinv : TxnInv txn) (hmove : ChildMove i shared txn after phase)
    (hmoved : MovedTo txn i phase new) : TxnInv new := by
  obtain ⟨hlocked, hcase⟩ := hmove.stage_spec hinv
  have hphase := hmoved.phase_eq
  refine ⟨hmoved.aborted ▸ hinv.performed, hmoved.stage ▸ hinv.notResumed, ?_, ?_, ?_, ?_, ?_, ?_⟩
  · intro k hk
    rw [hmoved.lockedNodes] at hk
    have hne : k ≠ i := by
      rintro rfl
      simp [hlocked] at hk
    rw [hphase, if_neg hne]
    exact hinv.unlocked k hk
  · rw [hmoved.stage, hmoved.pending, hmoved.failed]
    exact hinv.preOpPending
  · rw [hmoved.stage, hmoved.pending, hmoved.failed]
    exact hinv.fopPending
  · intro hstage j
    rw [hmoved.stage] at hstage
    rcases hcase with ⟨hpre, -⟩ | ⟨-, -, hpreOp⟩
    · simp [hstage] at hpre
    · rw [hmoved.pending, hmoved.missed_eq hpreOp]
      exact hinv.postOpPending hstage j
  · intro hstage k
    rw [hmoved.stage] at hstage
    rw [hphase]
    split_ifs
    · rcases hcase with ⟨-, h⟩ | ⟨hpost, -⟩
      · exact h
      · exact absurd hpost hstage
    · exact hinv.early hstage k
  · intro hstage k
    rw [hmoved.stage] at hstage
    rw [hphase]
    split_ifs
    · rcases hcase with ⟨hpre, -⟩ | ⟨-, h, -⟩
      · exact absurd hpre hstage
      · exact h
    · exact hinv.late hstage k

/-- The transactions that are about to lower `pre_op_done[i]`. -/
def AfrFd.lowering (fd : AfrFd n) (i : Fin n) : Nat :=
  fd.txns.countP fun txn => txn.phase i = .undoing

/-- A transaction that got all its pre-op replies performs its operation, and a
pre-op only joins a `pre_op_done` that not all its owners are about to
lower. -/
def KeepsChangelog (fd : AfrFd n) : AfrLabel n → Prop
  | .act _ (.preOpChild i) =>
    fd.shared.preOpDone i = 0 ∨ fd.lowering i < fd.shared.preOpDone i
  | .act index .performFop =>
    ∀ txn ∈ fd.txns[index]?, ¬(txn.opRet = -1 ∧ txn.opErrno = enotsup)
  | _ => True

instance (fd : AfrFd n) (label : AfrLabel n) : Decidable (KeepsChangelog fd label) :=
  match label with
  | .act _ (.preOpChild _) => inferInstanceAs (Decidable (_ ∨ _))
  | .act index .performFop =>
    inferInstanceAs (Decidable (∀ txn ∈ fd.txns[index]?, _))
  | .begin _ | .act _ (.preOpExecute _) | .act _ (.preOpReply _)
  | .act _ (.preOpError _ _) | .act _ (.fopFailed _) | .act _ .postOp
  | .act _ (.postOpChild _) | .act _ (.postOpUndone _)
  | .act _ (.postOpExecute _) => inferInstanceAs (Decidable True)

theorem TxnInv.performFop (hinv : TxnInv txn) (henabled : TxnAction.enabled txn .performFop)
    (hsupported : ¬(txn.opRet = -1 ∧ txn.opErrno = enotsup)) :
    TxnInv (afrTransactionPerformFop txn) := by
  obtain ⟨hstage, hanswered⟩ := henabled
  rw [afrTransactionPerformFop, if_neg hsupported]
  refine ⟨hinv.performed, by simp, hinv.unlocked, by simp, ?_, by simp, ?_, ?_⟩
  · intro _ j
    simp [markAllSuccess, (hinv.preOpPending hstage).2 j]
  · exact fun _ => hinv.early (by simp [hstage])
  · intro _ i
    cases hlocked : txn.lockedNodes i with
    | false => rw [hinv.unlocked i hlocked]; rfl
    | true =>
      have h := hanswered i hlocked
      revert h
      cases txn.phase i <;>
        simp [ChildPhase.answered, ChildPhase.preOp, ChildPhase.late]

theorem TxnInv.fopFailed (hinv : TxnInv txn) (hstage : txn.stage = .fop) (i : Fin n) :
    TxnInv (afrTransactionFopFailed txn i) := by
  refine ⟨hinv.performed, hinv.notResumed, hinv.unlocked, ?_, ?_, ?_, hinv.early, hinv.late⟩
  · intro h
    simp [afrTransactionFopFailed, hstage] at h
  · intro _ j
    have h := hinv.fopPending hstage j
    by_cases hj : j = i
    · subst hj
      simp [afrTransactionFopFailed, markChildDead]
    · simpa [afrTransactionFopFailed, markChildDead, hj] using h
  · intro h
    simp [afrTransactionFopFailed, hstage] at h

theorem TxnInv.postOp (hinv : TxnInv txn) (hstage : txn.stage = .fop) :
    TxnInv (afrChangelogPostOpNow txn) := by
  refine ⟨hinv.performed, by simp [afrChangelogPostOpNow], hinv.unlocked, ?_, ?_, ?_, ?_, ?_⟩
  · intro h
    simp [afrChangelogPostOpNow] at h
  · intro h
    simp [afrChangelogPostOpNow] at h
  · intro _ j
    have hpending := hinv.fopPending hstage j
    have hmissed : (afrChangelogPostOpNow txn).missed j = (!txn.preOp j || txn.failed j) := by
      simp [Txn.missed, afrChangelogPostOpNow, hinv.performed, Txn.preOp]
    rw [hmissed]
    simp only [afrChangelogPostOpNow, markNonParticipantChildren, hpending]
    cases txn.preOp j <;> simp
  · intro h
    simp [afrChangelogPostOpNow] at h
  · exact fun _ => hinv.late (by simp [hstage])

theorem forall_txnInv_step {before after : AfrFd n} {label : AfrLabel n}
    (hinv : ∀ txn ∈ before.txns, TxnInv txn) (hguard : KeepsChangelog before label)
    (hstep : afrStep before label = some after) :
    ∀ txn ∈ after.txns, TxnInv txn := by
  rcases afrStep_cases hstep with
    ⟨lockedNodes, rfl, rfl⟩ | ⟨index, action, txn, rfl, htxn, henabled, rfl⟩
  · intro txn hmem
    rcases List.mem_append.mp hmem with hmem | hmem
    · exact hinv txn hmem
    · obtain rfl := List.mem_singleton.mp hmem
      exact txnInv_begin lockedNodes
  have hown := hinv txn (List.mem_of_getElem? htxn)
  refine forall_mem_set hinv ?_
  cases hchild : action.child with
  | some i =>
    obtain ⟨phase, hmove, hmoved⟩ :=
      action.perform_child before.shared hchild henabled
    exact hown.moved hmove hmoved
  | none =>
    cases action with
    | performFop => exact hown.performFop henabled (hguard txn htxn)
    | fopFailed i => exact hown.fopFailed henabled.1 i
    | postOp => exact hown.postOp (henabled.resolve_right hown.notResumed)
    | _ => cases hchild

/-! ## The counters on the children -/

/-- The transaction counts as a recorded failure of `j` on child `i`. -/
def Txn.recorded (i j : Fin n) (txn : Txn n) : Int :=
  if txn.phase i = .postOpDone && txn.missed j then 1 else 0

theorem TxnInv.recorded_eq_zero (hinv : TxnInv txn) (hstage : txn.stage ≠ .postOp) (i j : Fin n) :
    txn.recorded i j = 0 := by
  have h := hinv.early hstage i
  have hne : txn.phase i ≠ .postOpDone := by
    rintro heq
    simp [heq, ChildPhase.early] at h
  simp [Txn.recorded, hne]

/-- How a move changes what is recorded. -/
theorem MovedTo.recorded_sub {c : Fin n} {new : Txn n} (hinv : TxnInv txn)
    (hmove : ChildMove i shared txn after phase) (hmoved : MovedTo txn i phase new)
    (hold : txn.phase i ≠ .postOpDone) (j : Fin n) : new.recorded c j - txn.recorded c j =
      if c = i ∧ phase = .postOpDone ∧ txn.missed j = true then 1 else 0 := by
  obtain ⟨-, hcase⟩ := hmove.stage_spec hinv
  rcases hcase with ⟨hstage, hearly⟩ | ⟨hstage, -, hpreOp⟩
  · have hne : phase ≠ .postOpDone := by
      rintro rfl
      simp [ChildPhase.early] at hearly
    rw [(hinv.moved hmove hmoved).recorded_eq_zero (by simp [hmoved.stage, hstage]),
      hinv.recorded_eq_zero (by simp [hstage])]
    simp [hne]
  · simp only [Txn.recorded, hmoved.missed_eq hpreOp, hmoved.phase_eq]
    by_cases hc : c = i
    · subst hc
      simp [hold]
    · simp [hc]

/-- A move explains what it adds to the counters on the children. -/
theorem ChildMove.changelog (hinv : TxnInv txn) (hmove : ChildMove i shared txn after phase)
    (hlowering : (txn.phase i).lowering ≤ shared.preOpDone i) (j : Fin n) :
    after.disk i j = shared.disk i j + ((after.preOpDone i - shared.preOpDone i : Int) +
        (phase.inFlight - (txn.phase i).inFlight) +
        if phase = .postOpDone ∧ txn.missed j = true then 1 else 0) := by
  have hpost : (txn.phase i).early = false → txn.pending j = if txn.missed j then 0 else -1 := by
    intro h
    refine hinv.postOpPending ?_ j
    by_contra hne
    simp [hinv.early hne i] at h
  cases hmove with
  | join _ _ hphase _ => simp [hphase, ChildPhase.inFlight]
  | wind _ _ hphase _ => simp [hphase, ChildPhase.inFlight]
  | executed hphase =>
    have hstage : txn.stage = .preOp := by
      by_contra hne
      simpa [hphase, ChildPhase.late] using hinv.late hne i
    simp [hphase, ChildPhase.inFlight, childXattrop, xattropAddArray_apply,
      (hinv.preOpPending hstage).1, markAllPending]
  | reply hphase => simp [hphase, ChildPhase.inFlight, markPreOpDoneOnFd]
  | error hphase => simp [hphase, ChildPhase.inFlight]
  | token hstage hphase _ =>
    by_cases hnothing : txn.nothingFailed
    · have hmissed : txn.missed j = false := by
        by_contra h
        refine hnothing j ?_
        rw [hinv.postOpPending hstage j, if_pos (by simpa using h)]
      simp [hnothing, hphase, hmissed, ChildPhase.inFlight]
    · simp [hnothing, hphase, ChildPhase.inFlight]
  | noToken _ hphase _ => simp [hphase, ChildPhase.inFlight]
  | undone hphase =>
    simp only [hphase, ChildPhase.lowering] at hlowering
    simp [hphase, ChildPhase.inFlight, markPreOpUndoneOnFd]
    omega
  | posted optimized hphase =>
    have hpending := hpost (by simp [hphase, ChildPhase.early])
    simp only [hphase, childXattrop, xattropAddArray_apply, afrSetPostopDict, if_true, true_and]
    cases optimized <;> cases hmissed : txn.missed j <;>
      simp [hmissed, hpending, ChildPhase.inFlight, computeTxnChangelog]

theorem ChildMove.disk_of_ne {c : Fin n} (hmove : ChildMove i shared txn after phase) (hc : c ≠ i)
    (j : Fin n) : after.disk c j = shared.disk c j := by
  cases hmove <;>
    simp [markPreOpDoneOnFd, markPreOpUndoneOnFd, childXattrop, xattropAddArray_apply, Ne.symm hc]

/-- Every raise on a child is in `pre_op_done`, under way, or the record of a
failure, and a token is never left on a `pre_op_done` that all its owners are
about to lower. -/
structure ChangelogInv (fd : AfrFd n) : Prop where
  txns : ∀ txn ∈ fd.txns, TxnInv txn
  disk : ∀ i j, fd.shared.disk i j = fd.shared.preOpDone i +
    phaseTotal ChildPhase.inFlight i fd.txns + total (Txn.recorded i j) fd.txns
  joined : ∀ i, fd.shared.preOpPiggyback i ≠ 0 →
    phaseTotal ChildPhase.lowering i fd.txns < fd.shared.preOpDone i

theorem phaseTotal_lowering_eq (fd : AfrFd n) (i : Fin n) :
    phaseTotal ChildPhase.lowering i fd.txns = fd.lowering i := by
  refine total_eq_countP fun txn _ => ?_
  cases txn.phase i <;> simp [ChildPhase.lowering]

/-- Only a pre-op starts on an idle child. -/
theorem TxnAction.eq_preOpChild {action : TxnAction n} (hchild : action.child = some i)
    (henabled : action.enabled txn) (hidle : txn.phase i = .idle) : action = .preOpChild i := by
  cases action with
  | preOpChild k => cases hchild; rfl
  | preOpExecute k => cases hchild; simp [enabled, hidle] at henabled
  | preOpReply k => cases hchild; simp [enabled, hidle] at henabled
  | preOpError k e => cases hchild; simp [enabled, hidle] at henabled
  | postOpChild k => cases hchild; simp [enabled, hidle] at henabled
  | postOpUndone k => cases hchild; simp [enabled, hidle] at henabled
  | postOpExecute k => cases hchild; simp [enabled, hidle] at henabled
  | performFop => cases hchild
  | fopFailed k => cases hchild
  | postOp => cases hchild

/-- A move keeps tokens on a `pre_op_done` with an owner that stays. -/
theorem ChildMove.joined (hmove : ChildMove i shared txn after phase) {lowering : Int}
    (hle : (txn.phase i).lowering ≤ lowering)
    (hjoined : shared.preOpPiggyback i ≠ 0 → lowering < shared.preOpDone i)
    (hguard : txn.phase i = .idle → shared.preOpDone i = 0 ∨
      lowering < shared.preOpDone i) (htoken : after.preOpPiggyback i ≠ 0) :
    lowering + (phase.lowering - (txn.phase i).lowering) < after.preOpDone i := by
  cases hmove with
  | join _ _ hphase hdone =>
    have h := (hguard hphase).resolve_left hdone
    simpa [hphase, ChildPhase.lowering] using h
  | wind _ _ hphase _ => simpa [hphase, ChildPhase.lowering] using hjoined htoken
  | executed hphase =>
    simpa [hphase, ChildPhase.lowering, childXattrop] using hjoined htoken
  | reply hphase =>
    have h := hjoined htoken
    simp [hphase, ChildPhase.lowering, markPreOpDoneOnFd]
    omega
  | error hphase => simpa [hphase, ChildPhase.lowering] using hjoined htoken
  | token _ hphase hbefore =>
    have h := hjoined hbefore
    have hnew : (if txn.nothingFailed then ChildPhase.postOpDone
        else .postOpWound true).lowering = 0 := by
      split_ifs <;> rfl
    rw [hnew, hphase]
    simpa [ChildPhase.lowering] using h
  | noToken _ hphase hnone => exact absurd hnone htoken
  | undone hphase =>
    have h := hjoined htoken
    simp [hphase, ChildPhase.lowering, markPreOpUndoneOnFd] at hle ⊢
    omega
  | posted optimized hphase =>
    simpa [hphase, ChildPhase.lowering, childXattrop] using hjoined htoken

variable {fd : AfrFd n}

/-- A move on a child keeps the account. -/
theorem ChangelogInv.moved (hinv : ChangelogInv fd) (htokens : TokenInv fd) {index : Nat}
    {new : Txn n} (htxn : fd.txns[index]? = some txn)
    (hmove : ChildMove i fd.shared txn after phase) (hmoved : MovedTo txn i phase new)
    (hguard : txn.phase i = .idle → fd.shared.preOpDone i = 0 ∨
      fd.lowering i < fd.shared.preOpDone i)
    (htxns : ∀ other ∈ fd.txns.set index new, TxnInv other) :
    ChangelogInv ⟨after, fd.txns.set index new⟩ := by
  have hmem : txn ∈ fd.txns := List.mem_of_getElem? htxn
  have hown := hinv.txns txn hmem
  have hle := weight_le_phaseTotal lowering_nonneg i hmem
  have hnotDone : txn.phase i ≠ .postOpDone := by
    intro h
    cases hmove <;> simp_all
  refine ⟨htxns, fun c j => ?_, fun c htoken => ?_⟩
  · have hdisk := hinv.disk c j
    simp only [phaseTotal_setPhase _ c i htxn hmoved.phase, total_set htxn,
      hmoved.recorded_sub hown hmove hnotDone]
    by_cases hc : c = i
    · subst hc
      have h := hmove.changelog hown (Int.le_trans hle (htokens.lowering_le c)) j
      simp only [true_and, if_true] at h ⊢
      omega
    · obtain ⟨hdone, -⟩ := hmove.counters_of_ne hc
      simpa [hc, hdone, hmove.disk_of_ne hc j] using hdisk
  · rw [phaseTotal_setPhase _ c i htxn hmoved.phase]
    by_cases hc : c = i
    · subst hc
      rw [if_pos rfl]
      refine hmove.joined hle (hinv.joined c) ?_ htoken
      rw [phaseTotal_lowering_eq]
      exact fun h => (hguard h).imp_right (by simp)
    · obtain ⟨hdone, hpiggyback⟩ := hmove.counters_of_ne hc
      rw [hpiggyback] at htoken
      simpa [hc, hdone] using hinv.joined c htoken

theorem ChangelogInv.step {before after : AfrFd n} {label : AfrLabel n}
    (hinv : ChangelogInv before) (htokens : TokenInv before)
    (hguard : KeepsChangelog before label)
    (hstep : afrStep before label = some after) : ChangelogInv after := by
  have htxns := forall_txnInv_step hinv.txns hguard hstep
  rcases afrStep_cases hstep with
    ⟨lockedNodes, rfl, rfl⟩ | ⟨index, action, txn, rfl, htxn, henabled, rfl⟩
  · refine ⟨htxns, fun i j => ?_, fun i htoken => ?_⟩
    · have hrecorded := (txnInv_begin lockedNodes).recorded_eq_zero (by simp [Txn.begin]) i j
      simpa [phaseTotal_begin ChildPhase.inFlight rfl, hrecorded] using hinv.disk i j
    · simpa only [phaseTotal_begin ChildPhase.lowering rfl] using hinv.joined i htoken
  cases hchild : action.child with
  | some i =>
    obtain ⟨phase, hmove, hmoved⟩ :=
      action.perform_child before.shared hchild henabled
    refine hinv.moved htokens htxn hmove hmoved (fun hidle => ?_) htxns
    obtain rfl := TxnAction.eq_preOpChild hchild henabled hidle
    exact hguard
  | none =>
    obtain ⟨hshared, hphase⟩ := action.perform_local before.shared txn hchild
    have hown := hinv.txns txn (List.mem_of_getElem? htxn)
    have hstage : txn.stage ≠ .postOp := by
      cases action with
      | performFop => simp [henabled.1]
      | fopFailed i => simp [henabled.1]
      | postOp => rcases henabled with h | h <;> simp [h]
      | _ => cases hchild
    have hrecorded : ∀ i j, (action.perform before.shared txn).2.recorded i j = 0 := by
      intro i j
      have h := hown.early hstage i
      have hne : txn.phase i ≠ .postOpDone := by
        rintro heq
        simp [heq, ChildPhase.early] at h
      simp [Txn.recorded, hphase, hne]
    simp only [hshared] at htxns ⊢
    refine ⟨htxns, fun i j => ?_, fun i htoken => ?_⟩
    · simpa [phaseTotal_of_phase_eq _ i htxn hphase, total_set htxn, hrecorded,
        hown.recorded_eq_zero hstage] using hinv.disk i j
    · simpa only [phaseTotal_of_phase_eq _ i htxn hphase] using hinv.joined i htoken

theorem changelogInv_of_reachableUnder
    (hreach : ReachableUnder afrStep KeepsChangelog AfrFd.fresh fd) : ChangelogInv fd := by
  induction hreach with
  | start =>
    exact ⟨by simp [AfrFd.fresh], by simp [AfrFd.fresh, phaseTotal], by simp [AfrFd.fresh]⟩
  | next hbefore hguard hstep ih =>
    exact ih.step (tokenInv_of_reachableUnder hbefore) hguard hstep

/-- A running operation is in `pre_op_done`. -/
theorem ChangelogInv.covered (hinv : ChangelogInv fd) (htokens : TokenInv fd) : fd.Covered := by
  intro txn hmem _ i hawaits j
  have hbalance := htokens.balance i
  have hlowering := htokens.lowering_le i
  have hjoined := hinv.joined i
  have hflight := phaseTotal_nonneg inFlight_nonneg i fd.txns
  have hpos := phaseTotal_nonneg lowering_nonneg i fd.txns
  have hdisk := hinv.disk i j
  rw [show total (Txn.recorded i j) fd.txns = fd.recordedFailures i j from
    total_eq_countP fun _ _ => rfl] at hdisk
  have hdone : 1 ≤ (fd.shared.preOpDone i : Int) := by
    rcases hawaits with h | h
    · have hactive := weight_le_phaseTotal active_nonneg i hmem
      rw [h] at hactive
      simp only [ChildPhase.active] at hactive
      by_cases htoken : fd.shared.preOpPiggyback i = 0
      · omega
      · have := hjoined htoken
        omega
    · have hown := weight_le_phaseTotal lowering_nonneg i hmem
      rw [h] at hown
      simp only [ChildPhase.lowering] at hown
      omega
  omega

/-- When all the transactions are over nothing is left in the fd context. -/
theorem ChangelogInv.settled (hinv : ChangelogInv fd) (htokens : TokenInv fd) : fd.Settled := by
  intro hfinished i
  have hzero : ∀ weight : ChildPhase → Int,
      (∀ phase : ChildPhase, phase.finished = true → weight phase = 0) →
      phaseTotal weight i fd.txns = 0 := fun weight hweight =>
    total_eq_zero fun txn hmem => hweight _ ((hfinished txn hmem).2 i)
  have hactive := hzero ChildPhase.active fun phase h => by
    cases phase <;> simp_all [ChildPhase.finished, ChildPhase.active]
  have hlowering := hzero ChildPhase.lowering fun phase h => by
    cases phase <;> simp_all [ChildPhase.finished, ChildPhase.lowering]
  have hflight := hzero ChildPhase.inFlight fun phase h => by
    cases phase <;> simp_all [ChildPhase.finished, ChildPhase.inFlight]
  have hbalance := htokens.balance i
  refine ⟨by omega, by omega, fun j => ?_⟩
  have hdisk := hinv.disk i j
  have hcount : total (Txn.recorded i j) fd.txns =
      fd.txns.countP fun txn => txn.preOp i && txn.missed j := by
    refine total_eq_countP fun txn hmem => ?_
    have h := (hfinished txn hmem).2 i
    rw [Txn.recorded, Txn.preOp]
    revert h
    cases txn.phase i <;> simp [ChildPhase.finished, ChildPhase.preOp]
  omega

/-- In every run in which transactions that got their pre-op replies perform
their operation, and no pre-op joins a `pre_op_done` that all its owners are
about to lower, piggybacking leaves what the plain protocol leaves, the
assertion does not fire, and running operations show on disk. -/
theorem piggyback_changelog_sound {fd : AfrFd n}
    (hreach : ReachableUnder afrStep KeepsChangelog AfrFd.fresh fd) :
    fd.Settled ∧ fd.shared.assertFailed = false ∧ fd.Covered := by
  have htokens := tokenInv_of_reachableUnder hreach
  have hinv := changelogInv_of_reachableUnder hreach
  exact ⟨hinv.settled htokens, htokens.assertion, hinv.covered htokens⟩

/-- One transaction alone on one child. -/
def wholeTransaction (index : Nat) : List (AfrLabel 1) :=
  [.act index (.preOpChild 0), .act index (.preOpExecute 0),
    .act index (.preOpReply 0), .act index .performFop,
    .act index (.fopFailed 0), .act index .postOp, .act index (.postOpChild 0),
    .act index (.postOpUndone 0), .act index (.postOpExecute 0)]

theorem piggyback_changelog_sound_wholeTransaction : ∃ fd : AfrFd 1,
      run afrStep AfrFd.fresh (.begin (fun _ => true) :: wholeTransaction 0) =
        some fd ∧ fd.shared.disk 0 0 = 1 ∧
      fd.Settled ∧ fd.shared.assertFailed = false ∧ fd.Covered := by
  refine ⟨_, rfl, by decide, ?_⟩
  exact piggyback_changelog_sound
    (.of_run (.begin (fun _ => true) :: wholeTransaction 0) .start (by decide) rfl)

/-- The second transaction joins between the token test of the first one's
post-op and the lowering of `pre_op_done`. -/
def joinedWhileLowering : List (AfrLabel 1) :=
  [.begin fun _ => true, .begin fun _ => true, .act 0 (.preOpChild 0),
    .act 0 (.preOpExecute 0), .act 0 (.preOpReply 0), .act 0 .performFop,
    .act 0 .postOp, .act 0 (.postOpChild 0), .act 1 (.preOpChild 0),
    .act 1 .performFop, .act 0 (.postOpUndone 0), .act 0 (.postOpExecute 0)]

/-- The pre-op works on one child, and another does not support xattrops. -/
def unsupportedOn (child other : Fin n) : List (AfrLabel n) :=
  [.begin fun _ => true, .act 0 (.preOpChild child), .act 0 (.preOpExecute child),
    .act 0 (.preOpReply child), .act 0 (.preOpChild other),
    .act 0 (.preOpError other enotsup), .act 0 .performFop, .act 0 .postOp,
    .act 0 (.postOpChild child), .act 0 (.postOpUndone child), .act 0 (.postOpExecute child)]

/-- A transaction that is resumed without its operation leaves two where one
failure is to be recorded, and an operation that joined a dying pre-op runs
without a mark. -/
theorem piggyback_changelog_unsound :
    (¬∀ fd : AfrFd 2, Reachable afrStep AfrFd.fresh fd → fd.Settled) ∧
      ¬∀ fd : AfrFd 1, Reachable afrStep AfrFd.fresh fd → fd.Covered := by
  constructor
  · intro hall
    obtain ⟨fd, hrun⟩ : ∃ fd : AfrFd 2,
        run afrStep AfrFd.fresh (unsupportedOn 0 1) = some fd := ⟨_, rfl⟩
    have hsettled := hall fd (.of_run _ .start hrun)
    cases hrun
    have hdisk := (hsettled (by decide) 0).2.2 0
    revert hdisk
    decide
  · intro hall
    obtain ⟨fd, hrun⟩ : ∃ fd, run afrStep AfrFd.fresh joinedWhileLowering =
        some fd := ⟨_, rfl⟩
    have hcovered := hall fd (.of_run joinedWhileLowering .start hrun)
    cases hrun
    revert hcovered
    decide

/-- In every run the two counters together count the transactions whose pre-op is done and
whose post-op has not taken a token or lowered `pre_op_done`, and the assertion never fires. -/
theorem piggyback_tokens_counted (hreach : Reachable afrStep AfrFd.fresh fd) :
    fd.shared.assertFailed = false ∧ ∀ c, fd.shared.preOpDone c + fd.shared.preOpPiggyback c =
      (fd.txns.countP fun txn => txn.phase c = .preOpDone) +
        fd.txns.countP fun txn => txn.phase c = .undoing := by
  have htokens := tokenInv_of_reachableUnder hreach
  refine ⟨htokens.assertion, fun c => ?_⟩
  have hbalance := htokens.balance c
  have hactive : phaseTotal ChildPhase.active c fd.txns =
      fd.txns.countP fun txn => txn.phase c = .preOpDone :=
    total_eq_countP fun txn _ => by cases txn.phase c <;> simp [ChildPhase.active]
  have hlowering : phaseTotal ChildPhase.lowering c fd.txns =
      fd.txns.countP fun txn => txn.phase c = .undoing :=
    total_eq_countP fun txn _ => by cases txn.phase c <;> simp [ChildPhase.lowering]
  omega

theorem piggyback_tokens_counted_joined :
    ∃ fd, run afrStep AfrFd.fresh joinedWhileLowering = some fd ∧
      fd.shared.preOpDone 0 + fd.shared.preOpPiggyback 0 = 1 :=
  ⟨_, rfl, ((piggyback_tokens_counted (.of_run joinedWhileLowering .start rfl)).2 0).trans
    (by decide)⟩

end GlusterFS.Afr
