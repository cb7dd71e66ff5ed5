import GlusterFS.Afr.Pending
import Mathlib.Data.Fin.VecNotation

/-!
# Replies to a replicated write

The write goes to every child whose pre-op is done.  Each reply is compared
with the best result so far, and after the last one the children that wrote
less than the best are marked like those that failed.  The attributes of the
file that the reply carries are left out.
-/

namespace GlusterFS.Afr

variable {n : Nat}

/-- An entry of `local->replies`. -/
structure WriteReply where
  valid : Bool
  opRet : Int
  opErrno : Int

/-- The part of `afr_local_t` that `afr_writev_wind_cbk` works on.  `unwound`
lists the answers to the caller. -/
structure WritevLocal (n : Nat) where
  callCount : Nat
  replies : Fin n → WriteReply
  opRet : Int
  opErrno : Int
  successCount : Nat
  pending : Counters n
  unwound : List (Int × Int)

/-- The children the write is wound to. -/
def woundChildren (preOp : Fin n → Bool) : List (Fin n) :=
  (List.finRange n).filter preOp

/-- `afr_writev_wind`, after `__mark_all_success`. -/
def afrWritevWind (preOp : Fin n → Bool) : WritevLocal n where
  callCount := (woundChildren preOp).length
  replies _ := ⟨false, 0, 0⟩
  opRet := -1
  opErrno := euclean
  successCount := 0
  pending := markAllSuccess
  unwound := []

/-- `afr_writev_handle_short_writes` -/
def afrWritevHandleShortWrites (call : WritevLocal n) : WritevLocal n :=
  let short := (List.finRange n).filter fun i =>
    (call.replies i).valid && (call.replies i).opRet != -1 &&
      decide ((call.replies i).opRet < call.opRet)
  { call with pending := markChildrenDead call.pending short }

/-- The locked section of `afr_writev_wind_cbk`. -/
def stageReply (call : WritevLocal n) (child : Fin n) (opRet opErrno : Int) :
    WritevLocal n :=
  let best := call.successCount = 0 ∨ call.opRet < opRet
  { call with
    replies := Function.update call.replies child ⟨true, opRet, opErrno⟩
    pending := if opRet = -1 then markChildDead call.pending child else call.pending
    opRet := if best then opRet else call.opRet
    opErrno := if best then opErrno else call.opErrno
    successCount := if opRet ≠ -1 then call.successCount + 1 else call.successCount }

/-- `afr_writev_wind_cbk` -/
def afrWritevWindCbk (call : WritevLocal n) (child : Fin n) (opRet opErrno : Int) :
    WritevLocal n :=
  let staged := stageReply call child opRet opErrno
  let returned := { staged with callCount := staged.callCount - 1 }
  if returned.callCount = 0 then
    let last := afrWritevHandleShortWrites returned
    { last with unwound := last.unwound ++ [(last.opRet, last.opErrno)] }
  else
    returned

/-- The children answer in the order of the list. -/
def afrWritevReplies (opRet opErrno : Fin n → Int) (call : WritevLocal n)
    (order : List (Fin n)) : WritevLocal n :=
  order.foldl (fun call i => afrWritevWindCbk call i (opRet i) (opErrno i)) call

/-- What is staged after the children `done` have answered. -/
structure Staged (opRet : Fin n → Int) (done : List (Fin n)) (call : WritevLocal n) : Prop where
  valid : ∀ i, (call.replies i).valid = true ↔ i ∈ done
  stored : ∀ i ∈ done, (call.replies i).opRet = opRet i
  upper : ∀ i ∈ done, opRet i ≤ call.opRet
  attained : call.opRet = -1 ∨ ∃ i ∈ done, opRet i = call.opRet
  failures : call.successCount = 0 → call.opRet = -1
  pending : ∀ i, call.pending i = if i ∈ done ∧ opRet i = -1 then 0 else -1
  waiting : call.unwound = []

theorem staged_afrWritevWind (opRet : Fin n → Int) (preOp : Fin n → Bool) :
    Staged opRet [] (afrWritevWind preOp) where
  valid := by simp [afrWritevWind]
  stored := by simp
  upper := by simp
  attained := .inl rfl
  failures _ := rfl
  pending := by simp [afrWritevWind, markAllSuccess]
  waiting := rfl

section Replies

variable {opRet : Fin n → Int} {done : List (Fin n)} {call : WritevLocal n}

section

variable (hstaged : Staged opRet done call)

include hstaged

theorem Staged.stageReply (hresult : ∀ i, -1 ≤ opRet i) (child : Fin n) (opErrno : Int) :
    Staged opRet (child :: done) (stageReply call child (opRet child) opErrno) := by
  have hnew := hresult child
  have hopRet : (Afr.stageReply call child (opRet child) opErrno).opRet =
      max call.opRet (opRet child) := by
    -- before the first success the staged result is that of a failure
    have hfailures := hstaged.failures
    simp only [Afr.stageReply]
    split_ifs <;> omega
  refine ⟨fun i => ?_, fun i hi => ?_, fun i hi => ?_, ?_, fun hcount => ?_, fun i => ?_,
    hstaged.waiting⟩
  · by_cases hi : i = child
    · simp [Afr.stageReply, hi]
    · simp [Afr.stageReply, hi, hstaged.valid i]
  · by_cases hc : i = child
    · simp [Afr.stageReply, hc]
    · simp [Afr.stageReply, hc, hstaged.stored i ((List.mem_cons.mp hi).resolve_left hc)]
  · rw [hopRet]
    rcases List.mem_cons.mp hi with rfl | hi
    · exact Int.le_max_right ..
    · exact Int.le_trans (hstaged.upper i hi) (Int.le_max_left ..)
  · rw [hopRet]
    by_cases hle : call.opRet ≤ opRet child
    · exact .inr ⟨child, List.mem_cons_self, (Int.max_eq_right hle).symm⟩
    · rw [Int.max_eq_left (by omega)]
      rcases hstaged.attained with hnone | ⟨i, hi, hattained⟩
      · exact .inl hnone
      · exact .inr ⟨i, List.mem_cons_of_mem _ hi, hattained⟩
  · rw [hopRet]
    simp only [Afr.stageReply, ite_not] at hcount
    split_ifs at hcount with hfailed
    rw [hstaged.failures hcount, hfailed]
    rfl
  · simp only [Afr.stageReply]
    by_cases hi : i = child
    · subst hi
      by_cases hfailed : opRet i = -1
      · simp [markChildDead, hfailed]
      · simp [hfailed, hstaged.pending i]
    · by_cases hfailed : opRet child = -1
      · simp [markChildDead, hfailed, hi, hstaged.pending i]
      · simp [hfailed, hi, hstaged.pending i]

/-- The children marked after the last reply. -/
theorem Staged.handleShortWrites_pending (i : Fin n) : (afrWritevHandleShortWrites call).pending i =
      if i ∈ done ∧ (opRet i = -1 ∨ opRet i < call.opRet) then 0 else -1 := by
  simp only [afrWritevHandleShortWrites, markChildrenDead_apply, hstaged.pending i]
  by_cases hi : i ∈ done
  · by_cases hfailed : opRet i = -1
    · simp [hi, hfailed]
    · simp [hi, hfailed, (hstaged.valid i).mpr hi, hstaged.stored i hi]
  · have hinvalid : ¬(call.replies i).valid = true := fun h => hi ((hstaged.valid i).mp h)
    simp [hi, hinvalid]

theorem Staged.handleShortWrites_failed (i : Fin n) :
    (afrWritevHandleShortWrites call).pending i = 0 ↔
      i ∈ done ∧ (opRet i = -1 ∨ opRet i < call.opRet) := by
  rw [hstaged.handleShortWrites_pending i]
  split_ifs with hi
  · simpa using hi
  · simpa using hi

/-- What the caller and the changelog get from the replies of the wound children. -/
structure Answered (opRet : Fin n → Int) (wound : Set (Fin n)) (call : WritevLocal n) : Prop where
  unwound : call.unwound = [(call.opRet, call.opErrno)]
  best : IsGreatest (opRet '' wound) call.opRet
  failed : ∀ i, call.pending i = 0 ↔ i ∈ wound ∧ (opRet i = -1 ∨ opRet i < call.opRet)
  kept : ∀ i, call.pending i = 0 ∨ call.pending i = -1

theorem Staged.last_reply (hresult : ∀ i, -1 ≤ opRet i) (child : Fin n) (opErrno : Int)
    (hcount : call.callCount = 1) : Answered opRet {i | i ∈ child :: done}
      (afrWritevWindCbk call child (opRet child) opErrno) := by
  have hnext := hstaged.stageReply hresult child opErrno
  have hlast : (Afr.stageReply call child (opRet child) opErrno).callCount - 1 = 0 := by
    simp [Afr.stageReply, hcount]
  rw [afrWritevWindCbk, if_pos hlast]
  refine ⟨by simp [afrWritevHandleShortWrites, hnext.waiting], ⟨?_, ?_⟩,
    hnext.handleShortWrites_failed, fun i => ?_⟩
  · rcases hnext.attained with hnone | hattained
    · have hupper := hnext.upper child List.mem_cons_self
      exact ⟨child, List.mem_cons_self, Int.le_antisymm hupper (hnone ▸ hresult child)⟩
    · exact hattained
  · rintro _ ⟨i, hi, rfl⟩
    exact hnext.upper i hi
  · exact (ite_eq_or_eq _ _ _).imp (hnext.handleShortWrites_pending i).trans
      (hnext.handleShortWrites_pending i).trans

theorem Staged.next_reply (hresult : ∀ i, -1 ≤ opRet i) (child : Fin n) (opErrno : Int) {left : Nat}
    (hcount : call.callCount = left + 2) :
    Staged opRet (child :: done) (afrWritevWindCbk call child (opRet child) opErrno) ∧
      (afrWritevWindCbk call child (opRet child) opErrno).callCount = left + 1 := by
  have hleft : (Afr.stageReply call child (opRet child) opErrno).callCount - 1 = left + 1 := by
    simp [Afr.stageReply, hcount]
  rw [afrWritevWindCbk, if_neg (by simp [hleft])]
  exact ⟨{ hstaged.stageReply hresult child opErrno with }, hleft⟩

end

/-- Induction on the replies that are still to come. -/
theorem Staged.afrWritevReplies (hresult : ∀ i, -1 ≤ opRet i) (opErrno : Fin n → Int)
    (hstaged : Staged opRet done call) (child : Fin n) (rest : List (Fin n))
    (hcount : call.callCount = rest.length + 1) :
    Answered opRet {i | i ∈ child :: rest ∨ i ∈ done}
      (afrWritevReplies opRet opErrno call (child :: rest)) := by
  induction rest generalizing child done call with
  | nil =>
    have hlast := hstaged.last_reply hresult child (opErrno child) hcount
    simpa [Afr.afrWritevReplies] using hlast
  | cons next rest ih =>
    obtain ⟨hnext, hleft⟩ := hstaged.next_reply hresult child (opErrno child) hcount
    have hsame : {i | i ∈ child :: next :: rest ∨ i ∈ done} =
        {i | i ∈ next :: rest ∨ i ∈ child :: done} := by
      ext i
      simp only [Set.mem_ofPred_eq, List.mem_cons]
      tauto
    rw [hsame]
    exact ih hnext next hleft

end Replies

/-- In whatever order the replies arrive, the caller gets the best result and
the children that failed or wrote less are marked. -/
theorem writev_replies_order_independent (preOp : Fin n → Bool) (opRet opErrno : Fin n → Int)
    (hresult : ∀ i, -1 ≤ opRet i) (order : List (Fin n))
    (horder : order.Perm (woundChildren preOp)) (hwound : order ≠ []) :
    Answered opRet {i | preOp i = true}
      (afrWritevReplies opRet opErrno (afrWritevWind preOp) order) := by
  have hmem (i : Fin n) : i ∈ order ↔ preOp i = true := by
    rw [horder.mem_iff, woundChildren]
    simp
  obtain ⟨child, rest, rfl⟩ := List.exists_cons_of_ne_nil hwound
  have hcount : (afrWritevWind preOp).callCount = rest.length + 1 := horder.length_eq.symm
  simpa [hmem] using (staged_afrWritevWind opRet preOp).afrWritevReplies hresult opErrno
    child rest hcount

/-- One of three children writes less and one fails. -/
theorem writev_replies_order_independent_three :
    Answered ![4096, 512, -1] Set.univ
      (afrWritevReplies ![4096, 512, -1] ![0, 0, 28] (afrWritevWind fun _ => true)
        [2, 1, 0]) := by
  simpa using writev_replies_order_independent (fun _ => true) ![4096, 512, -1] ![0, 0, 28]
    (by decide) [2, 1, 0] (by decide) (by decide)

end GlusterFS.Afr
