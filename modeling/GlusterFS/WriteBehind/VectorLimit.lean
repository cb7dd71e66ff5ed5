import GlusterFS.WriteBehind.Groups

/-!
# How many iovecs a group loads

`wb_fulfill` counts the iovecs of the riders against `MAX_VECTOR_COUNT` but not
those of the head, which `wb_fulfill_head` loads as well.
-/

namespace GlusterFS.WriteBehind

open GlusterFS.Transition

variable {Byte : Type*} [Zero Byte] {s t : WbState Byte} {conf : WbConf}

/-- No request has more than half of what an array takes. -/
def FewIovecs (s : WbState Byte) : Prop := ∀ id, (s.req id).vector.length ≤ maxVectorCount / 2

/-- Every call that is queued comes with few iovecs. -/
def QueuesFew (s : WbState Byte) : WbLabel Byte → Prop
  | .enqueue index => ∀ stub ∈ s.arriving[index]?, stub.vector.length ≤ maxVectorCount / 2
  | _ => True

instance (s : WbState Byte) (label : WbLabel Byte) : Decidable (QueuesFew s label) :=
  match label with
  | .enqueue index => inferInstanceAs (Decidable (∀ stub ∈ s.arriving[index]?, _))
  | .arrive _ | .process _ | .unwind _ | .resume _ _ | .callReply _ _ | .fulfillHead _ _
  | .writeReply _ _ _ | .headDone _ => inferInstanceAs (Decidable True)

omit [Zero Byte] in
theorem FewIovecs.of_vector_eq (hfew : FewIovecs s)
    (hsame : ∀ id, (t.req id).vector = (s.req id).vector) : FewIovecs t :=
  fun id => hsame id ▸ hfew id

theorem FewIovecs.preMove {condition : WbState Byte → ReqId → ReqId → Prop} (hfew : FewIovecs s)
    (hmove : PreMove conf condition s t) : FewIovecs t := by
  cases hmove with
  | go _ => exact hfew.of_vector_eq (s.modify_field _ _ WbRequest.vector rfl)
  | @collapse holder id hcollapsing _ =>
    have hne : holder ≠ id := Nat.ne_of_lt hcollapsing.lt
    intro other
    by_cases hother : other = holder
    · rw [hother, collapse_req_holder hne]
      exact Nat.le_of_ble_eq_true rfl
    · by_cases hid : other = id
      · rw [hid, collapse_req_id hne]
        exact hfew id
      · rw [collapse_req_of_ne hother hid]
        exact hfew other

theorem FewIovecs.step {label : WbLabel Byte} (hfew : FewIovecs s) (hinv : QueueInv s)
    (hguard : QueuesFew s label) (hstep : wbStep conf s label = some t) : FewIovecs t := by
  rcases (wbStep_cases hinv hstep).2 with ⟨index, stub, rfl, hstub, rfl⟩ | ⟨noIobuf, rfl, rfl⟩ |
    ⟨hpasses, -⟩
  · intro id
    by_cases hid : id = s.next
    · subst hid
      have hvector : ((s.enqueue conf stub).req s.next).vector = stub.iovecs := by
        rw [WbState.enqueue, enqueueCommon_req_next]
        rfl
      simpa [hvector, CallStub.iovecs] using hguard stub hstub
    · have hold : (s.enqueue conf stub).req id = s.req id := enqueueCommon_req_of_ne hid
      simpa [hold] using hfew id
  · refine wbProcessQueue_preserves FewIovecs hinv (collapsesSatisfy_true (s, none) s.todo)
      (fun _ _ hmove h => h.preMove hmove) (fun _ _ hmove h => ?_) (fun _ _ hmove h => ?_)
      (fun _ _ hmove h => ?_) hfew
    all_goals
      cases hmove
      exact h.of_vector_eq (WbState.modify_field _ _ _ WbRequest.vector rfl)
  · exact hfew.of_vector_eq hpasses.keeps.vector

/-- A head with one rider loads at most `MAX_VECTOR_COUNT` iovecs. -/
theorem grouped_writes_fit_vector
    (hreach : ReachableUnder (wbStep conf) QueuesFew WbState.create s) {head : ReqId}
    (hhead : s.HeadAt head .picked) (hriders : s.winds head ≠ []) :
    (s.loadVector head).length ≤ maxVectorCount := by
  have hinv := queueInv_of_reachableUnder hreach
  have hfew : FewIovecs s := hreach.invariant_along FewIovecs (fun _ => Nat.zero_le _)
    fun hbefore hguard hstep h => h.step (queueInv_of_reachableUnder hbefore) hguard hstep
  obtain ⟨rider, hwinds⟩ := (hinv.winds_cases hhead (by simp)).resolve_left hriders
  have hown := hfew head
  have hother := hfew rider
  simp only [WbState.loadVector, WbState.group, hwinds, List.flatMap_cons, List.flatMap_nil,
    List.append_nil, List.length_append]
  rw [maxVectorCount] at hown hother ⊢
  omega

/-- Two adjacent writes of forty bytes in iovecs of the given size. -/
def adjacentWrites (iovec : List Nat) (count : Nat) : List (WbLabel Nat) :=
  queueWrite 0 (List.replicate count iovec) ++ queueWrite 40 (List.replicate count iovec) ++
    [.process []]

theorem grouped_writes_fit_vector_four : ∃ s : WbState Nat, s.HeadAt 0 .picked ∧
    s.winds 0 = [1] ∧ (s.loadVector 0).length ≤ maxVectorCount := by
  obtain ⟨s, hrun⟩ : ∃ s, run (wbStep tricklingConf) WbState.create
      (adjacentWrites [0, 1, 2, 3, 4, 5, 6, 7, 8, 9] 4) = some s := ⟨_, rfl⟩
  have hstate : s.HeadAt 0 .picked ∧ s.winds 0 = [1] := by
    cases hrun
    decide
  exact ⟨s, hstate.1, hstate.2, grouped_writes_fit_vector
    (.of_run _ .start (by decide) hrun) hstate.1 (by simp [hstate.2])⟩

/-- Five iovecs of the head and five of its rider make ten. -/
theorem grouped_writes_overrun_vector : ¬∀ (conf : WbConf) (s : WbState Nat) (head : ReqId),
    Reachable (wbStep conf) WbState.create s → s.HeadAt head .picked → s.winds head ≠ [] →
      (s.loadVector head).length ≤ maxVectorCount := by
  intro hall
  obtain ⟨s, hrun⟩ : ∃ s, run (wbStep tricklingConf) WbState.create
      (adjacentWrites [0, 1, 2, 3, 4, 5, 6, 7] 5) = some s := ⟨_, rfl⟩
  have hstate : s.HeadAt 0 .picked ∧ s.winds 0 = [1] ∧ (s.loadVector 0).length = 10 := by
    cases hrun
    decide
  have hfits := hall tricklingConf s 0 (.of_run _ .start hrun) hstate.1 (by simp [hstate.2.1])
  rw [hstate.2.2] at hfits
  exact absurd hfits (by decide)

end GlusterFS.WriteBehind
