import GlusterFS.Afr.PiggybackChangelog

/-!
# A transaction that is resumed without its operation

When a child does not support xattrops the transaction goes on to its post-op
with the counts of the pre-op in `pending`.  The post-op then raises the
counters once more on the children whose pre-op worked.
-/

namespace GlusterFS.Afr

open GlusterFS.Transition

variable {n : Nat}

/-- What is on child `i` when the transaction never lowers a counter. -/
def Shared.Raised (shared : Shared n) (i : Fin n) : ChildPhase → Prop
  | .idle | .preOpWound | .preOpFailed => shared.preOpDone i = 0 ∧ ∀ j, shared.disk i j = 0
  | _ => 0 < shared.disk i i

/-- The only transaction of the fd, as long as it may be aborted. -/
structure Aborting (shared : Shared n) (txn : Txn n) : Prop where
  locked : ∀ i, txn.phase i ≠ .idle → txn.lockedNodes i = true
  early : txn.stage = .preOp → txn.pending = markAllPending ∧ txn.aborted = false
  late : txn.stage ≠ .preOp → ∀ i, txn.phase i ≠ .preOpWound
  pending : ∀ j, 0 ≤ txn.pending j
  raised : ∀ i, shared.Raised i (txn.phase i)

section Steps

variable {shared after : Shared n} {txn new : Txn n} {i : Fin n} {phase : ChildPhase}

theorem Aborting.raised_move (h : Aborting shared txn)
    (hmove : ChildMove i shared txn after phase) : after.Raised i phase := by
  have hpending := h.pending i
  have hraised := h.raised i
  cases hmove with
  | join hstage hlocked hphase hdone =>
    rw [hphase] at hraised
    exact absurd hraised.1 hdone
  | executed hphase =>
    have hstage : txn.stage = .preOp := by_contra fun hlate => h.late hlate i hphase
    rw [hphase] at hraised
    have hzero := hraised.2 i
    simp [Shared.Raised, childXattrop, xattropAddArray_apply, hzero, (h.early hstage).1,
      markAllPending]
  | token hstage hphase htoken =>
    rw [hphase] at hraised
    split_ifs <;> exact hraised
  | posted optimized hphase =>
    rw [hphase] at hraised
    have hpositive : 0 < shared.disk i i := hraised
    simp only [Shared.Raised, childXattrop, xattropAddArray_apply, if_true]
    cases optimized <;> simp [afrSetPostopDict, computeTxnChangelog] <;> omega
  | _ => simp_all [Shared.Raised, markPreOpDoneOnFd, markPreOpUndoneOnFd]

theorem Aborting.moved (h : Aborting shared txn) (hmove : ChildMove i shared txn after phase)
    (hmoved : MovedTo txn i phase new) : Aborting after new := by
  refine ⟨fun c hc => ?_, fun hstage => ?_, fun hstage c => ?_, fun j => ?_, fun c => ?_⟩
  · rw [hmoved.lockedNodes]
    rw [hmoved.phase_eq] at hc
    by_cases heq : c = i
    · subst heq
      cases hmove <;> first | assumption | exact h.locked c (by simp [*])
    · exact h.locked c (by simpa [heq] using hc)
  · rw [hmoved.pending, hmoved.aborted]
    exact h.early (hmoved.stage ▸ hstage)
  · rw [hmoved.stage] at hstage
    rw [hmoved.phase_eq]
    by_cases heq : c = i
    · rw [if_pos heq]
      cases hmove <;> simp_all
      split_ifs <;> simp
    · rw [if_neg heq]
      exact h.late hstage c
  · rw [hmoved.pending]
    exact h.pending j
  · rw [hmoved.phase_eq]
    by_cases heq : c = i
    · rw [if_pos heq, heq]
      exact h.raised_move hmove
    · rw [if_neg heq]
      have hraised := h.raised c
      unfold Shared.Raised at hraised ⊢
      simpa only [hmove.disk_of_ne heq, (hmove.counters_of_ne heq).1] using hraised

theorem Aborting.performFop (h : Aborting shared txn) (hstage : txn.stage = .preOp)
    (hanswered : txn.preOpAnswered) (haborted : (afrTransactionPerformFop txn).stage = .preOp ∨
      (afrTransactionPerformFop txn).aborted = true) :
    Aborting shared (afrTransactionPerformFop txn) := by
  have hnone (c : Fin n) : txn.phase c ≠ .preOpWound := by
    intro hphase
    have hcounted := hanswered c (h.locked c (by simp [hphase]))
    rw [hphase] at hcounted
    cases hcounted
  unfold afrTransactionPerformFop at haborted ⊢
  split_ifs at haborted ⊢
  · exact ⟨h.locked, fun hearly => (by cases hearly), fun _ => hnone, h.pending, h.raised⟩
  · simp [(h.early hstage).2] at haborted

theorem Aborting.perform (h : Aborting shared txn) {action : TxnAction n}
    (henabled : action.enabled txn) (haborted : (action.perform shared txn).2.stage = .preOp ∨
      (action.perform shared txn).2.aborted = true) :
    Aborting (action.perform shared txn).1 (action.perform shared txn).2 := by
  cases hchild : action.child with
  | some i =>
    obtain ⟨phase, hmove, hmoved⟩ := action.perform_child shared hchild henabled
    exact h.moved hmove hmoved
  | none =>
    cases action with
    | performFop => exact h.performFop henabled.1 henabled.2 haborted
    | fopFailed i =>
      have hlate : txn.stage ≠ .preOp := by simp [henabled.1]
      refine ⟨h.locked, fun hearly => absurd hearly hlate, h.late, fun j => ?_, h.raised⟩
      by_cases hj : j = i
      · simp [TxnAction.perform, afrTransactionFopFailed, markChildDead, hj]
      · simpa [TxnAction.perform, afrTransactionFopFailed, markChildDead, hj] using h.pending j
    | postOp =>
      have hlate : txn.stage ≠ .preOp := by rcases henabled with h | h <;> simp [h]
      refine ⟨h.locked, fun hearly => (by cases hearly), fun _ => h.late hlate, fun j => ?_,
        h.raised⟩
      simp only [TxnAction.perform, afrChangelogPostOpNow, markNonParticipantChildren]
      split_ifs
      · exact h.pending j
      · exact Int.le_refl 0
    | _ => cases hchild

/-- A transaction that is aborted later may be aborted now. -/
theorem TxnAction.enabled.mayAbort {action : TxnAction n} (henabled : action.enabled txn)
    (haborted : (action.perform shared txn).2.stage = .preOp ∨
      (action.perform shared txn).2.aborted = true) :
    txn.stage = .preOp ∨ txn.aborted = true := by
  cases hchild : action.child with
  | some i =>
    obtain ⟨phase, _, hmoved⟩ := action.perform_child shared hchild henabled
    rwa [hmoved.stage, hmoved.aborted] at haborted
  | none =>
    cases action with
    | performFop => exact .inl henabled.1
    | fopFailed i => exact haborted
    | postOp => exact haborted.imp_left fun h => by cases h
    | _ => cases hchild

end Steps

/-- At most one transaction, which may still be aborted. -/
def AfrFd.Alone (fd : AfrFd n) : Prop :=
  (fd.txns = [] → fd.shared = AfrFd.fresh.shared) ∧
    ∀ txn, fd.txns = [txn] → txn.stage = .preOp ∨ txn.aborted = true → Aborting fd.shared txn

theorem AfrFd.Alone.step {before after : AfrFd n} {label : AfrLabel n} (halone : before.Alone)
    (hstep : afrStep before label = some after) : after.Alone := by
  rcases afrStep_cases hstep with
    ⟨lockedNodes, rfl, rfl⟩ | ⟨index, action, txn, rfl, htxn, henabled, rfl⟩
  · refine ⟨fun hnil => by simp at hnil, fun txn hsingle _ => ?_⟩
    obtain ⟨hnil, rfl⟩ : before.txns = [] ∧ Txn.begin lockedNodes = txn := by
      simpa [List.append_eq_singleton_iff] using hsingle
    rw [halone.1 hnil]
    exact ⟨fun _ h => absurd rfl h, fun _ => ⟨rfl, rfl⟩, fun h => absurd rfl h,
      fun _ => Int.one_nonneg, fun _ => ⟨rfl, fun _ => rfl⟩⟩
  · obtain ⟨shared, _ | ⟨only, _ | ⟨second, rest⟩⟩⟩ := before
    · cases htxn
    · obtain ⟨rfl, rfl⟩ : index = 0 ∧ only = txn := by
        cases index <;> simp_all
      refine ⟨fun hnil => (by cases hnil), fun new hsingle haborted => ?_⟩
      cases hsingle
      exact (halone.2 only rfl (henabled.mayAbort haborted)).perform henabled haborted
    · refine ⟨fun hnil => ?_, fun new hsingle => ?_⟩
      · simpa using congrArg List.length hnil
      · simpa using congrArg List.length hsingle

/-- An aborted transaction leaves the changelogs as they were exactly when no
pre-op of it worked. -/
theorem aborted_transaction_net_zero_iff {fd : AfrFd n} {txn : Txn n}
    (hreach : Reachable afrStep AfrFd.fresh fd) (honly : fd.txns = [txn])
    (haborted : txn.aborted = true) (hfinished : txn.finished) :
    (∀ i j, fd.shared.disk i j = 0) ↔ ∀ i, txn.preOp i = false := by
  have halone : fd.Alone := hreach.invariant_along AfrFd.Alone
    ⟨fun _ => rfl, fun _ h => by cases h⟩ fun _ _ hstep hbefore => hbefore.step hstep
  have hraised := (halone.2 txn honly (.inr haborted)).raised
  refine ⟨fun hzero i => ?_, fun hnone i => ?_⟩
  · have hi := hraised i
    have hover := hfinished.2 i
    unfold Txn.preOp
    cases hphase : txn.phase i <;> simp_all [Shared.Raised, ChildPhase.preOp, ChildPhase.finished]
  · have hi := hraised i
    have hover := hfinished.2 i
    have hpreOp := hnone i
    unfold Txn.preOp at hpreOp
    cases hphase : txn.phase i <;> simp_all [Shared.Raised, ChildPhase.preOp, ChildPhase.finished]

/-- Both children answer that they do not support xattrops. -/
theorem aborted_transaction_net_zero_iff_alone : ∃ fd : AfrFd 2, fd.txns.length = 1 ∧
    ((∀ i j, fd.shared.disk i j = 0) ↔ ∀ i, ∀ txn ∈ fd.txns, txn.preOp i = false) := by
  obtain ⟨fd, hrun⟩ : ∃ fd : AfrFd 2, run afrStep AfrFd.fresh
      [.begin fun _ => true, .act 0 (.preOpChild 0), .act 0 (.preOpError 0 enotsup),
        .act 0 (.preOpChild 1), .act 0 (.preOpError 1 enotsup), .act 0 .performFop,
        .act 0 .postOp] = some fd := ⟨_, rfl⟩
  obtain ⟨txn, honly, haborted, hfinished⟩ : ∃ txn : Txn 2, fd.txns = [txn] ∧
      txn.aborted = true ∧ txn.finished := by
    cases hrun
    exact ⟨_, rfl, by decide, by decide⟩
  have hiff := aborted_transaction_net_zero_iff (.of_run _ .start hrun) honly haborted hfinished
  exact ⟨fd, by simp [honly], by simpa [honly] using hiff⟩

/-- The pre-op works on the first child and the second does not support
xattrops: the first is left with two against itself and one against the second. -/
theorem aborted_transaction_accuses : ¬∀ (n : Nat) (fd : AfrFd n) (txn : Txn n),
    Reachable afrStep AfrFd.fresh fd → fd.txns = [txn] → txn.aborted = true → txn.finished →
      ∀ i j, fd.shared.disk i j = 0 := by
  intro hall
  obtain ⟨fd, hrun⟩ : ∃ fd : AfrFd 2,
      run afrStep AfrFd.fresh (unsupportedOn 0 1) = some fd := ⟨_, rfl⟩
  have hreach : Reachable afrStep AfrFd.fresh fd := .of_run _ .start hrun
  cases hrun
  have hzero := hall 2 _ _ hreach rfl (by decide) (by decide) 0 0
  revert hzero
  decide

end GlusterFS.Afr
