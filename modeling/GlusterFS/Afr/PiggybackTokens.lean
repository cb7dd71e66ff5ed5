import GlusterFS.Afr.Piggyback

/-!
# The tokens of the piggybacked changelog

On every child, `pre_op_done` and `pre_op_piggyback` together count the
transactions that are between their pre-op and the lowering of their post-op.
This holds for every interleaving, and the assertion in
`__mark_pre_op_undone_on_fd` never fires.
-/

namespace GlusterFS.Afr

open GlusterFS.Transition GlusterFS.ProcessTable

variable {n : Nat}

/-! ## Weights -/

/-- Pre-op'ed, and the post-op did not come to the child yet. -/
def ChildPhase.active : ChildPhase → Int
  | .preOpDone => 1
  | _ => 0

/-- About to lower `pre_op_done`. -/
def ChildPhase.lowering : ChildPhase → Int
  | .undoing => 1
  | _ => 0

/-- Raised on the child but not in `pre_op_done`: the reply of the pre-op or
the request of the post-op is under way. -/
def ChildPhase.inFlight : ChildPhase → Int
  | .preOpExecuted => 1
  | .postOpWound false => 1
  | _ => 0

/-- The total over the transactions of a weight of their phase on child `c`. -/
def phaseTotal (weight : ChildPhase → Int) (c : Fin n) (txns : List (Txn n)) :
    Int :=
  total (fun txn => weight (txn.phase c)) txns

variable {phase : ChildPhase}

section Totals

variable {txns : List (Txn n)} {index : Nat} {txn : Txn n}

theorem phaseTotal_setPhase (weight : ChildPhase → Int) (c i : Fin n)
    (htxn : txns[index]? = some txn) {new : Txn n}
    (hnew : new.phase = (txn.setPhase i phase).phase) :
    phaseTotal weight c (txns.set index new) = phaseTotal weight c txns +
        if c = i then weight phase - weight (txn.phase i) else 0 := by
  rw [phaseTotal, total_set htxn, phaseTotal, hnew]
  by_cases hc : c = i
  · subst hc
    simp [Txn.setPhase]
  · simp [Txn.setPhase, hc]

theorem phaseTotal_of_phase_eq (weight : ChildPhase → Int) (c : Fin n)
    (htxn : txns[index]? = some txn) {new : Txn n}
    (hnew : new.phase = txn.phase) :
    phaseTotal weight c (txns.set index new) = phaseTotal weight c txns := by
  rw [phaseTotal, total_set htxn, phaseTotal, hnew]
  omega

theorem phaseTotal_begin (weight : ChildPhase → Int) (hidle : weight .idle = 0)
    (c : Fin n) (lockedNodes : Fin n → Bool) :
    phaseTotal weight c (txns ++ [.begin lockedNodes]) =
      phaseTotal weight c txns := by
  simp [phaseTotal, Txn.begin, hidle]

theorem lowering_nonneg (phase : ChildPhase) : 0 ≤ phase.lowering := by
  cases phase <;> simp [ChildPhase.lowering]

theorem active_nonneg (phase : ChildPhase) : 0 ≤ phase.active := by
  cases phase <;> simp [ChildPhase.active]

theorem inFlight_nonneg (phase : ChildPhase) : 0 ≤ phase.inFlight := by
  cases phase with
  | postOpWound optimized => cases optimized <;> simp [ChildPhase.inFlight]
  | _ => simp [ChildPhase.inFlight]

theorem phaseTotal_nonneg {weight : ChildPhase → Int}
    (hweight : ∀ phase, 0 ≤ weight phase) (c : Fin n) (txns : List (Txn n)) :
    0 ≤ phaseTotal weight c txns :=
  total_nonneg fun txn _ => hweight (txn.phase c)

theorem weight_le_phaseTotal {weight : ChildPhase → Int}
    (hweight : ∀ phase, 0 ≤ weight phase) (c : Fin n) (hmem : txn ∈ txns) :
    weight (txn.phase c) ≤ phaseTotal weight c txns := by
  let phaseWeight := fun txn : Txn n => weight (txn.phase c)
  have hnonneg : ∀ other ∈ txns, 0 ≤ phaseWeight other :=
    fun other _ => hweight (other.phase c)
  exact weight_le_total hnonneg hmem

end Totals

/-! ## The balance of the tokens -/

structure TokenInv (fd : AfrFd n) : Prop where
  balance : ∀ c, (fd.shared.preOpDone c : Int) + fd.shared.preOpPiggyback c =
    phaseTotal ChildPhase.active c fd.txns + phaseTotal ChildPhase.lowering c fd.txns
  lowering_le : ∀ c, phaseTotal ChildPhase.lowering c fd.txns ≤ fd.shared.preOpDone c
  assertion : fd.shared.assertFailed = false

/-- A move on child `i` leaves the counters of the other children alone. -/
theorem ChildMove.counters_of_ne {i c : Fin n} {shared after : Shared n} {txn : Txn n}
    (hmove : ChildMove i shared txn after phase) (hc : c ≠ i) :
    after.preOpDone c = shared.preOpDone c ∧ after.preOpPiggyback c = shared.preOpPiggyback c := by
  cases hmove <;>
    simp [markPreOpDoneOnFd, markPreOpUndoneOnFd, childXattrop, hc]

/-- How a move on child `i` changes the two counters, against the weights of
the phase it leaves and of the phase it enters.  `lowering` and `waiting` are
the totals before the move. -/
theorem ChildMove.tokens {i : Fin n} {shared after : Shared n} {txn : Txn n}
    (hmove : ChildMove i shared txn after phase) {lowering waiting : Int}
    (hbalance : (shared.preOpDone i : Int) + shared.preOpPiggyback i =
      waiting + lowering) (hle : lowering ≤ shared.preOpDone i)
    (hown : (txn.phase i).lowering ≤ lowering) (hactive : (txn.phase i).active ≤ waiting) :
    (after.preOpDone i : Int) + after.preOpPiggyback i =
        waiting + (phase.active - (txn.phase i).active) +
          (lowering + (phase.lowering - (txn.phase i).lowering)) ∧
      lowering + (phase.lowering - (txn.phase i).lowering) ≤ after.preOpDone i ∧
      after.assertFailed = shared.assertFailed := by
  cases hmove with
  | join _ _ hphase _ =>
    simp [hphase, ChildPhase.active, ChildPhase.lowering]
    omega
  | wind _ _ hphase _ =>
    simp [hphase, ChildPhase.active, ChildPhase.lowering]
    omega
  | executed hphase =>
    simp [hphase, ChildPhase.active, ChildPhase.lowering, childXattrop]
    omega
  | reply hphase =>
    simp [hphase, ChildPhase.active, ChildPhase.lowering, markPreOpDoneOnFd]
    omega
  | error hphase =>
    simp [hphase, ChildPhase.active, ChildPhase.lowering]
    omega
  | token _ hphase htoken =>
    have hnew : (if txn.nothingFailed then ChildPhase.postOpDone
        else .postOpWound true).active = 0 ∧
        (if txn.nothingFailed then ChildPhase.postOpDone
        else .postOpWound true).lowering = 0 := by
      split_ifs <;> exact ⟨rfl, rfl⟩
    rw [hnew.1, hnew.2, hphase]
    simp [ChildPhase.active, ChildPhase.lowering]
    omega
  | noToken _ hphase htoken =>
    simp [hphase, ChildPhase.active, ChildPhase.lowering] at hactive ⊢
    omega
  | undone hphase =>
    simp [hphase, ChildPhase.active, ChildPhase.lowering, markPreOpUndoneOnFd] at hown ⊢
    omega
  | posted _ hphase =>
    simp [hphase, ChildPhase.active, ChildPhase.lowering, childXattrop]
    omega

theorem TokenInv.step {before after : AfrFd n} {label : AfrLabel n}
    (hinv : TokenInv before) (hstep : afrStep before label = some after) :
    TokenInv after := by
  rcases afrStep_cases hstep with
    ⟨lockedNodes, -, rfl⟩ | ⟨index, action, txn, -, htxn, henabled, rfl⟩
  · refine ⟨fun c => ?_, fun c => ?_, hinv.assertion⟩
    · simpa only [phaseTotal_begin ChildPhase.active rfl,
        phaseTotal_begin ChildPhase.lowering rfl] using hinv.balance c
    · simpa only [phaseTotal_begin ChildPhase.lowering rfl] using hinv.lowering_le c
  have hmem : txn ∈ before.txns := List.mem_of_getElem? htxn
  cases hchild : action.child with
  | none =>
    obtain ⟨hshared, hphase⟩ := action.perform_local before.shared txn hchild
    simp only [hshared]
    refine ⟨fun c => ?_, fun c => ?_, hinv.assertion⟩
    · simpa only [phaseTotal_of_phase_eq _ c htxn hphase] using hinv.balance c
    · simpa only [phaseTotal_of_phase_eq _ c htxn hphase] using hinv.lowering_le c
  | some i =>
    obtain ⟨phase, hmove, hlocal⟩ :=
      action.perform_child before.shared hchild henabled
    have htotal : ∀ weight c, phaseTotal weight c
        (before.txns.set index (action.perform before.shared txn).2) = _ :=
      fun weight c => phaseTotal_setPhase weight c i htxn hlocal.phase
    have htokens := hmove.tokens (hinv.balance i) (hinv.lowering_le i)
      (weight_le_phaseTotal lowering_nonneg i hmem)
      (weight_le_phaseTotal active_nonneg i hmem)
    refine ⟨fun c => ?_, fun c => ?_, ?_⟩
    · rw [htotal, htotal]
      by_cases hc : c = i
      · subst hc
        simpa using htokens.1
      · obtain ⟨hdone, hpiggyback⟩ := hmove.counters_of_ne hc
        simpa [hc, hdone, hpiggyback] using hinv.balance c
    · rw [htotal]
      by_cases hc : c = i
      · subst hc
        simpa using htokens.2.1
      · obtain ⟨hdone, -⟩ := hmove.counters_of_ne hc
        simpa [hc, hdone] using hinv.lowering_le c
    · rw [htokens.2.2]
      exact hinv.assertion

theorem tokenInv_of_reachableUnder {guard : AfrFd n → AfrLabel n → Prop}
    {fd : AfrFd n} (hreach : ReachableUnder afrStep guard AfrFd.fresh fd) :
    TokenInv fd :=
  hreach.invariant ⟨by simp [AfrFd.fresh, phaseTotal], by simp [AfrFd.fresh, phaseTotal], rfl⟩
    fun _ _ _ hinv _ hstep => hinv.step hstep

end GlusterFS.Afr
