import GlusterFS.Afr.Pending
import GlusterFS.Core.Transition
import GlusterFS.Core.ProcessTable

/-!
# Changelog piggybacking on one file descriptor

Data transactions on one fd share their pre-ops: while `pre_op_done[i]` is not
zero a transaction does not raise the counters of child `i` again but leaves a
token in `pre_op_piggyback[i]`, and a post-op that finds a token takes it
instead of lowering the counters.  One atomic action is one section under
`fd->lock`, one execution of an xattrop by a child, or a change of data local
to the transaction; the actions of different transactions interleave in any
order.  The `hit` and `miss` statistics are left out.
-/

namespace GlusterFS.Afr

open GlusterFS.Transition

variable {n : Nat}

def enotsup : Int := 95

/-- How far a transaction is with one child. -/
inductive ChildPhase
  /-- Not reached by the pre-op, or not locked. -/
  | idle
  | preOpWound
  /-- The child raised its counters and the reply is under way. -/
  | preOpExecuted
  | preOpFailed
  /-- `transaction.pre_op[i]` is set. -/
  | preOpDone
  /-- The post-op found no token and has yet to lower `pre_op_done`. -/
  | undoing
  /-- The post-op is under way; `optimized` if it took a token. -/
  | postOpWound (optimized : Bool)
  | postOpDone
  deriving DecidableEq

/-- `transaction.pre_op[i]` -/
def ChildPhase.preOp : ChildPhase → Bool
  | .preOpDone | .undoing | .postOpWound _ | .postOpDone => true
  | .idle | .preOpWound | .preOpExecuted | .preOpFailed => false

/-- The pre-op callback of the child was counted. -/
def ChildPhase.answered : ChildPhase → Bool
  | .preOpFailed => true
  | phase => phase.preOp

/-- The post-op is over with this child. -/
def ChildPhase.finished : ChildPhase → Bool
  | .idle | .preOpFailed | .postOpDone => true
  | _ => false

inductive Stage
  | preOp
  | fop
  /-- Resumed without its operation. -/
  | resumed
  | postOp
  deriving DecidableEq

/-- The parts of `afr_local_t` that the changelog uses.  `failed` and `aborted`
only record what happened: the children on which the operation failed, and
whether it was never performed. -/
structure Txn (n : Nat) where
  lockedNodes : Fin n → Bool
  phase : Fin n → ChildPhase
  stage : Stage
  pending : Counters n
  opRet : Int
  opErrno : Int
  failed : Fin n → Bool
  aborted : Bool

def Txn.preOp (txn : Txn n) (i : Fin n) : Bool := (txn.phase i).preOp

def Txn.setPhase (txn : Txn n) (i : Fin n) (phase : ChildPhase) : Txn n :=
  { txn with phase := Function.update txn.phase i phase }

/-- A transaction that holds its locks and enters `afr_changelog_pre_op`. -/
def Txn.begin (lockedNodes : Fin n → Bool) : Txn n where
  lockedNodes := lockedNodes
  phase := fun _ => .idle
  stage := .preOp
  pending := markAllPending
  opRet := -1
  opErrno := euclean
  failed := fun _ => false
  aborted := false

/-- The counters in the fd context and the changelogs on the children.
`assertFailed` records that the assertion in `__mark_pre_op_undone_on_fd`
fired. -/
structure Shared (n : Nat) where
  preOpDone : Fin n → Nat
  preOpPiggyback : Fin n → Nat
  disk : PendingMatrix n
  assertFailed : Bool

def markPreOpDoneOnFd (shared : Shared n) (i : Fin n) : Shared n :=
  { shared with
    preOpDone := Function.update shared.preOpDone i (shared.preOpDone i + 1) }

def markPreOpUndoneOnFd (shared : Shared n) (i : Fin n) : Shared n :=
  { shared with
    assertFailed := shared.assertFailed || shared.preOpDone i = 0
    preOpDone := Function.update shared.preOpDone i (shared.preOpDone i - 1) }

/-- `afr_changelog_pre_op_cbk`, up to the test of `call_count`. -/
def afrChangelogPreOpCbk (shared : Shared n) (txn : Txn n) (i : Fin n)
    (opRet opErrno : Int) : Shared n × Txn n :=
  if opRet = 0 then (markPreOpDoneOnFd shared i, txn.setPhase i .preOpDone)
  else if opRet = 1 then (shared, txn.setPhase i .preOpDone)
  else
    (shared, { txn.setPhase i .preOpFailed with
        opRet := if opErrno = enotsup then -1 else txn.opRet
        opErrno := opErrno })

/-- The turn of `afr_changelog_pre_op` for one child. -/
def afrChangelogPreOp (shared : Shared n) (txn : Txn n) (i : Fin n) : Shared n × Txn n :=
  if shared.preOpDone i ≠ 0 then
    afrChangelogPreOpCbk { shared with
        preOpPiggyback :=
          Function.update shared.preOpPiggyback i (shared.preOpPiggyback i + 1) }
      txn i 1 0
  else (shared, txn.setPhase i .preOpWound)

/-- All the pre-op callbacks are in. -/
def Txn.preOpAnswered (txn : Txn n) : Prop :=
  ∀ i, txn.lockedNodes i = true → (txn.phase i).answered = true
  deriving Decidable

/-- What the last pre-op callback does: the transaction is resumed when a
child does not support xattrops, and performs its operation otherwise. -/
def afrTransactionPerformFop (txn : Txn n) : Txn n :=
  if txn.opRet = -1 ∧ txn.opErrno = enotsup then
    { txn with stage := .resumed, aborted := true }
  else { txn with stage := .fop, pending := markAllSuccess }

def afrTransactionFopFailed (txn : Txn n) (i : Fin n) : Txn n :=
  { txn with
    pending := markChildDead txn.pending i
    failed := Function.update txn.failed i true }

/-- `afr_changelog_post_op_now`, up to the loop over the children. -/
def afrChangelogPostOpNow (txn : Txn n) : Txn n :=
  { txn with
    stage := .postOp
    pending := markNonParticipantChildren txn.pending txn.preOp }

def Txn.nothingFailed (txn : Txn n) : Prop := ∀ i, txn.pending i ≠ 0
  deriving Decidable

/-- `afr_set_postop_dict` -/
def afrSetPostopDict (txn : Txn n) (optimized : Bool) : Counters n :=
  if optimized then computeTxnChangelog txn.pending else txn.pending

/-- The turn of the post-op loop for one child, up to the call of
`__mark_pre_op_undone_on_fd`. -/
def postOpTurn (shared : Shared n) (txn : Txn n) (i : Fin n) : Shared n × Txn n :=
  if shared.preOpPiggyback i ≠ 0 then
    ({ shared with
        preOpPiggyback :=
          Function.update shared.preOpPiggyback i (shared.preOpPiggyback i - 1) },
      txn.setPhase i (if txn.nothingFailed then .postOpDone else .postOpWound true))
  else (shared, txn.setPhase i .undoing)

/-- A child executes the xattrop it was sent. -/
def childXattrop (shared : Shared n) (i : Fin n) (changelog : Counters n) :
    Shared n :=
  { shared with disk := xattropAddArray shared.disk i changelog }

/-! ## Steps -/

inductive TxnAction (n : Nat)
  | preOpChild (i : Fin n)
  | preOpExecute (i : Fin n)
  | preOpReply (i : Fin n)
  /-- The child answers with an error and did not raise its counters. -/
  | preOpError (i : Fin n) (opErrno : Int)
  | performFop
  | fopFailed (i : Fin n)
  | postOp
  | postOpChild (i : Fin n)
  | postOpUndone (i : Fin n)
  | postOpExecute (i : Fin n)

/-- When an action can happen. -/
def TxnAction.enabled (txn : Txn n) : TxnAction n → Prop
  | .preOpChild i =>
    txn.stage = .preOp ∧ txn.lockedNodes i = true ∧ txn.phase i = .idle
  | .preOpExecute i => txn.phase i = .preOpWound
  | .preOpReply i => txn.phase i = .preOpExecuted
  | .preOpError i _ => txn.phase i = .preOpWound
  | .performFop => txn.stage = .preOp ∧ txn.preOpAnswered
  | .fopFailed i => txn.stage = .fop ∧ txn.preOp i = true
  | .postOp => txn.stage = .fop ∨ txn.stage = .resumed
  | .postOpChild i => txn.stage = .postOp ∧ txn.phase i = .preOpDone
  | .postOpUndone i => txn.phase i = .undoing
  | .postOpExecute i => txn.phase i = .postOpWound true ∨ txn.phase i = .postOpWound false

instance (txn : Txn n) (action : TxnAction n) : Decidable (action.enabled txn) :=
  match action with
  | .preOpChild _ => inferInstanceAs (Decidable (_ ∧ _))
  | .preOpExecute _ => inferInstanceAs (Decidable (_ = _))
  | .preOpReply _ => inferInstanceAs (Decidable (_ = _))
  | .preOpError _ _ => inferInstanceAs (Decidable (_ = _))
  | .performFop => inferInstanceAs (Decidable (_ ∧ _))
  | .fopFailed _ => inferInstanceAs (Decidable (_ ∧ _))
  | .postOp => inferInstanceAs (Decidable (_ ∨ _))
  | .postOpChild _ => inferInstanceAs (Decidable (_ ∧ _))
  | .postOpUndone _ => inferInstanceAs (Decidable (_ = _))
  | .postOpExecute _ => inferInstanceAs (Decidable (_ ∨ _))

def TxnAction.perform (shared : Shared n) (txn : Txn n) : TxnAction n → Shared n × Txn n
  | .preOpChild i => afrChangelogPreOp shared txn i
  | .preOpExecute i =>
    (childXattrop shared i txn.pending, txn.setPhase i .preOpExecuted)
  | .preOpReply i => afrChangelogPreOpCbk shared txn i 0 0
  | .preOpError i opErrno => afrChangelogPreOpCbk shared txn i (-1) opErrno
  | .performFop => (shared, afrTransactionPerformFop txn)
  | .fopFailed i => (shared, afrTransactionFopFailed txn i)
  | .postOp => (shared, afrChangelogPostOpNow txn)
  | .postOpChild i => postOpTurn shared txn i
  | .postOpUndone i =>
    (markPreOpUndoneOnFd shared i, txn.setPhase i (.postOpWound false))
  | .postOpExecute i =>
    (childXattrop shared i (afrSetPostopDict txn (txn.phase i = .postOpWound true)),
      txn.setPhase i .postOpDone)

/-- An fd with its transactions. -/
structure AfrFd (n : Nat) where
  shared : Shared n
  txns : List (Txn n)

def AfrFd.fresh : AfrFd n where
  shared := ⟨fun _ => 0, fun _ => 0, fun _ _ => 0, false⟩
  txns := []

inductive AfrLabel (n : Nat)
  | begin (lockedNodes : Fin n → Bool)
  | act (index : Nat) (action : TxnAction n)

def afrStep (fd : AfrFd n) : AfrLabel n → Option (AfrFd n)
  | .begin lockedNodes => some { fd with txns := fd.txns ++ [.begin lockedNodes] }
  | .act index action =>
    match fd.txns[index]? with
    | none => none
    | some txn =>
      if action.enabled txn then
        let (shared, txn) := action.perform fd.shared txn
        some ⟨shared, fd.txns.set index txn⟩
      else none

theorem afrStep_cases {before after : AfrFd n} {label : AfrLabel n}
    (hstep : afrStep before label = some after) :
    (∃ lockedNodes, label = .begin lockedNodes ∧
      after = { before with txns := before.txns ++ [.begin lockedNodes] }) ∨
    (∃ index action txn, label = .act index action ∧
      before.txns[index]? = some txn ∧ action.enabled txn ∧
      after = ⟨(action.perform before.shared txn).1,
        before.txns.set index (action.perform before.shared txn).2⟩) := by
  cases label with
  | begin lockedNodes =>
    simp only [afrStep, Option.some.injEq] at hstep
    exact .inl ⟨lockedNodes, rfl, hstep.symm⟩
  | act index action =>
    simp only [afrStep] at hstep
    split at hstep
    · cases hstep
    · rename_i txn htxn
      split_ifs at hstep with henabled
      cases hstep
      exact .inr ⟨index, action, txn, rfl, htxn, henabled, rfl⟩

/-! ## What an action can do -/

/-- The moves of a transaction on child `i`: the counters afterwards and the
new phase. -/
inductive ChildMove (i : Fin n) (shared : Shared n) (txn : Txn n) : Shared n → ChildPhase → Prop
  | join (hstage : txn.stage = .preOp) (hlocked : txn.lockedNodes i = true)
      (hphase : txn.phase i = .idle) (hdone : shared.preOpDone i ≠ 0) :
      ChildMove i shared txn { shared with
          preOpPiggyback :=
            Function.update shared.preOpPiggyback i
              (shared.preOpPiggyback i + 1) } .preOpDone
  | wind (hstage : txn.stage = .preOp) (hlocked : txn.lockedNodes i = true)
      (hphase : txn.phase i = .idle) (hdone : shared.preOpDone i = 0) :
      ChildMove i shared txn shared .preOpWound
  | executed (hphase : txn.phase i = .preOpWound) :
      ChildMove i shared txn (childXattrop shared i txn.pending) .preOpExecuted
  | reply (hphase : txn.phase i = .preOpExecuted) :
      ChildMove i shared txn (markPreOpDoneOnFd shared i) .preOpDone
  | error (hphase : txn.phase i = .preOpWound) : ChildMove i shared txn shared .preOpFailed
  | token (hstage : txn.stage = .postOp) (hphase : txn.phase i = .preOpDone)
      (htoken : shared.preOpPiggyback i ≠ 0) :
      ChildMove i shared txn { shared with
          preOpPiggyback :=
            Function.update shared.preOpPiggyback i
              (shared.preOpPiggyback i - 1) }
        (if txn.nothingFailed then .postOpDone else .postOpWound true)
  | noToken (hstage : txn.stage = .postOp) (hphase : txn.phase i = .preOpDone)
      (htoken : shared.preOpPiggyback i = 0) :
      ChildMove i shared txn shared .undoing
  | undone (hphase : txn.phase i = .undoing) :
      ChildMove i shared txn (markPreOpUndoneOnFd shared i) (.postOpWound false)
  | posted (optimized : Bool) (hphase : txn.phase i = .postOpWound optimized) :
      ChildMove i shared txn (childXattrop shared i (afrSetPostopDict txn optimized)) .postOpDone

def TxnAction.child : TxnAction n → Option (Fin n)
  | .preOpChild i | .preOpExecute i | .preOpReply i | .preOpError i _
  | .postOpChild i | .postOpUndone i | .postOpExecute i => some i
  | .performFop | .fopFailed _ | .postOp => none

/-- `new` is `txn` with another phase on child `i`, and perhaps other error
codes. -/
structure MovedTo (txn : Txn n) (i : Fin n) (phase : ChildPhase) (new : Txn n) : Prop where
  phase : new.phase = (txn.setPhase i phase).phase
  lockedNodes : new.lockedNodes = txn.lockedNodes
  stage : new.stage = txn.stage
  pending : new.pending = txn.pending
  failed : new.failed = txn.failed
  aborted : new.aborted = txn.aborted

/-- An action on a child is one of the moves. -/
theorem TxnAction.perform_child (shared : Shared n) {txn : Txn n}
    {action : TxnAction n} {i : Fin n} (hchild : action.child = some i)
    (henabled : action.enabled txn) :
    ∃ phase, ChildMove i shared txn (action.perform shared txn).1 phase ∧
      MovedTo txn i phase (action.perform shared txn).2 := by
  cases action with
  | preOpChild k =>
    cases hchild
    simp only [perform, afrChangelogPreOp]
    split_ifs with hdone
    · exact ⟨_, .join henabled.1 henabled.2.1 henabled.2.2 hdone, ⟨rfl, rfl, rfl, rfl, rfl, rfl⟩⟩
    · exact ⟨_, .wind henabled.1 henabled.2.1 henabled.2.2
        (not_not.mp hdone), ⟨rfl, rfl, rfl, rfl, rfl, rfl⟩⟩
  | preOpExecute k =>
    cases hchild
    exact ⟨_, .executed henabled, ⟨rfl, rfl, rfl, rfl, rfl, rfl⟩⟩
  | preOpReply k =>
    cases hchild
    exact ⟨_, .reply henabled, ⟨rfl, rfl, rfl, rfl, rfl, rfl⟩⟩
  | preOpError k opErrno =>
    cases hchild
    exact ⟨_, .error henabled, ⟨rfl, rfl, rfl, rfl, rfl, rfl⟩⟩
  | postOpChild k =>
    cases hchild
    simp only [perform, postOpTurn]
    by_cases htoken : shared.preOpPiggyback i = 0
    · rw [if_neg (not_not.mpr htoken)]
      exact ⟨_, .noToken henabled.1 henabled.2 htoken, ⟨rfl, rfl, rfl, rfl, rfl, rfl⟩⟩
    · rw [if_pos htoken]
      exact ⟨_, .token henabled.1 henabled.2 htoken, ⟨rfl, rfl, rfl, rfl, rfl, rfl⟩⟩
  | postOpUndone k =>
    cases hchild
    exact ⟨_, .undone henabled, ⟨rfl, rfl, rfl, rfl, rfl, rfl⟩⟩
  | postOpExecute k =>
    cases hchild
    refine ⟨_, ?_, ⟨rfl, rfl, rfl, rfl, rfl, rfl⟩⟩
    have hmove : ∀ optimized, txn.phase i = .postOpWound optimized → ChildMove i shared txn
          (childXattrop shared i (afrSetPostopDict txn optimized)) .postOpDone :=
      fun optimized h => .posted optimized h
    rcases henabled with h | h
    · simpa [perform, h] using hmove true h
    · simpa [perform, h] using hmove false h
  | performFop => cases hchild
  | fopFailed k => cases hchild
  | postOp => cases hchild

/-- The other actions are local to the transaction and keep its phases. -/
theorem TxnAction.perform_local (shared : Shared n) (txn : Txn n)
    {action : TxnAction n} (hchild : action.child = none) :
    (action.perform shared txn).1 = shared ∧ (action.perform shared txn).2.phase = txn.phase := by
  cases action with
  | performFop =>
    refine ⟨rfl, ?_⟩
    simp only [perform, afrTransactionPerformFop]
    split_ifs <;> rfl
  | fopFailed k => exact ⟨rfl, rfl⟩
  | postOp => exact ⟨rfl, rfl⟩
  | _ => cases hchild

end GlusterFS.Afr
