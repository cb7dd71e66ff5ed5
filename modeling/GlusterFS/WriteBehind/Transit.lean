import Mathlib.Algebra.BigOperators.Intervals
import GlusterFS.WriteBehind.Groups

/-!
# What is in transit

`transit` is the size of the background writes that the child has.  It is raised
when a head is wound and lowered by `wb_head_done`.  `wb_fulfill_head` calls
`wb_head_done` for a head that it could not wind too, and `transit` was not
raised for that one.
-/

namespace GlusterFS.WriteBehind

open Relation GlusterFS.Transition

variable {Byte : Type*} {s t : WbState Byte} {id : ReqId}

/-- A head that was wound and not yet given back by `wb_head_done`. -/
def WbRequest.InFlight (req : WbRequest Byte) : Prop :=
  req.tempted = true ∧ req.head = none ∧ (req.stage = .wound ∨ req.stage = .replied)
  deriving Decidable

/-- `total_size` is the size with which a head is wound. -/
def WbRequest.inFlight (req : WbRequest Byte) : Nat :=
  if req.InFlight then req.totalSize else 0

def WbState.inFlight (s : WbState Byte) : Nat :=
  ∑ id ∈ Finset.range s.next, (s.req id).inFlight

/-- No head is given up before it was wound. -/
def NothingDropped (s : WbState Byte) : WbLabel Byte → Prop
  | .fulfillHead head frame => frame = true ∧ s.fdError (s.req head).fd = none
  | _ => True

instance (s : WbState Byte) (label : WbLabel Byte) : Decidable (NothingDropped s label) :=
  match label with
  | .fulfillHead _ frame => inferInstanceAs (Decidable (frame = true ∧ _))
  | .arrive _ | .enqueue _ | .process _ | .unwind _ | .resume _ _ | .callReply _ _
  | .writeReply _ _ _ | .headDone _ => inferInstanceAs (Decidable True)

/-! ## The sum over the requests -/

section Sums

variable {req : WbRequest Byte}

theorem WbRequest.inFlight_eq_zero (h : ¬req.InFlight) : req.inFlight = 0 :=
  if_neg h

theorem WbRequest.inFlight_of_stage (h : req.stage ≠ .wound ∧ req.stage ≠ .replied) :
    req.inFlight = 0 :=
  WbRequest.inFlight_eq_zero fun hflight => hflight.2.2.elim h.1 h.2

theorem WbRequest.inFlight_of_call (h : req.tempted = false) : req.inFlight = 0 :=
  WbRequest.inFlight_eq_zero fun hflight => Bool.false_ne_true (h.symm.trans hflight.1)

theorem WbRequest.inFlight_of_rider (h : req.head ≠ none) : req.inFlight = 0 :=
  WbRequest.inFlight_eq_zero fun hflight => h hflight.2.1

theorem WbRequest.inFlight_fulfill (req : WbRequest Byte) : req.fulfill.inFlight = 0 :=
  WbRequest.inFlight_of_stage ⟨nofun, nofun⟩

theorem WbState.HeadAt.inFlight {head : ReqId} {stage : Stage} (hhead : s.HeadAt head stage)
    (hstage : stage = .wound ∨ stage = .replied) :
    (s.req head).inFlight = (s.req head).totalSize :=
  if_pos ⟨hhead.1, hhead.2.1, hhead.2.2 ▸ hstage⟩

theorem inFlight_congr (hnext : t.next = s.next)
    (hsame : ∀ id, (t.req id).inFlight = (s.req id).inFlight) : t.inFlight = s.inFlight := by
  rw [WbState.inFlight, WbState.inFlight, hnext]
  exact Finset.sum_congr rfl fun id _ => hsame id

theorem inFlight_change {head : ReqId} (hhead : head < s.next) (hnext : t.next = s.next)
    (hsame : ∀ id, id ≠ head → (t.req id).inFlight = (s.req id).inFlight) :
    t.inFlight + (s.req head).inFlight = s.inFlight + (t.req head).inFlight := by
  have hmem : head ∈ Finset.range s.next := Finset.mem_range.mpr hhead
  have hrest : ∑ id ∈ (Finset.range s.next).erase head, (t.req id).inFlight =
      ∑ id ∈ (Finset.range s.next).erase head, (s.req id).inFlight :=
    Finset.sum_congr rfl fun id hid => hsame id (Finset.ne_of_mem_erase hid)
  have hsplit (state : WbState Byte) :
      ∑ id ∈ Finset.range s.next, (state.req id).inFlight = (state.req head).inFlight +
        ∑ id ∈ (Finset.range s.next).erase head, (state.req id).inFlight :=
    (Finset.add_sum_erase _ _ hmem).symm
  rw [WbState.inFlight, WbState.inFlight, hnext, hsplit t, hsplit s, hrest]
  omega

end Sums

/-! ## Moving `transit` -/

section Transit

variable (s : WbState Byte) (id : ReqId)

@[simp]
theorem unref_transit : (s.unref id).transit = s.transit := by
  unfold WbState.unref
  split_ifs <;> rfl

theorem fulfillRequest_transit :
    (s.fulfillRequest id).transit = s.transit - (s.req id).totalSize := by
  rw [WbState.fulfillRequest, unref_transit]

@[simp]
theorem setFdErr_transit (fd : Option Fd) (errno : Nat) :
    (s.setFdErr fd errno).transit = s.transit := by
  cases fd <;> rfl

@[simp]
theorem markBad_transit (fd : Option Fd) : (s.markBad fd).transit = s.transit := by
  rw [WbState.markBad]
  split_ifs <;> simp

/-- `wb_head_done` lowers `transit` by the size of every request of the group. -/
theorem foldl_fulfillRequest_transit (ids : List ReqId) (s : WbState Byte) :
    (ids.foldl WbState.fulfillRequest s).transit =
      s.transit - ((ids.map fun id => (s.req id).totalSize).sum : Nat) := by
  induction ids generalizing s with
  | nil => simp
  | cons id ids ih =>
    have hsame (other : ReqId) :
        ((s.fulfillRequest id).req other).totalSize = (s.req other).totalSize := by
      rw [WbState.fulfillRequest_req]
      split_ifs with h
      · rw [h]
        rfl
      · rfl
    rw [List.foldl_cons, ih, fulfillRequest_transit]
    simp only [hsame, List.map_cons, List.sum_cons]
    omega

end Transit

/-! ## Balance -/

/-- `transit` is what is in flight, and only heads have a size. -/
structure Balanced (s : WbState Byte) : Prop where
  transit : s.transit = s.inFlight
  rider : ∀ id, (s.req id).head ≠ none → (s.req id).totalSize = 0

section

variable (hbalanced : Balanced s)

include hbalanced

theorem Balanced.of_flight (hnext : t.next = s.next) (htransit : t.transit = s.transit)
    (hflight : ∀ id, (t.req id).inFlight = (s.req id).inFlight)
    (hrider : ∀ id, (t.req id).head ≠ none → (t.req id).totalSize = 0) : Balanced t :=
  ⟨by rw [htransit, inFlight_congr hnext hflight, hbalanced.transit], hrider⟩

theorem Balanced.of_same (hnext : t.next = s.next) (htransit : t.transit = s.transit)
    (hhead : ∀ id, (t.req id).head = (s.req id).head)
    (htotal : ∀ id, (t.req id).totalSize = (s.req id).totalSize)
    (hflight : ∀ id, (t.req id).inFlight = (s.req id).inFlight) : Balanced t :=
  hbalanced.of_flight hnext htransit hflight fun id h =>
    (htotal id).trans (hbalanced.rider id (hhead id ▸ h))

theorem Balanced.modify {f : WbRequest Byte → WbRequest Byte} (hreq : t.req = (s.modify id f).req)
    (hnext : t.next = s.next) (htransit : t.transit = s.transit)
    (hhead : (f (s.req id)).head = (s.req id).head)
    (htotal : (f (s.req id)).totalSize = (s.req id).totalSize)
    (hflight : (f (s.req id)).inFlight = (s.req id).inFlight) : Balanced t := by
  refine hbalanced.of_same hnext htransit (fun other => ?_) (fun other => ?_) fun other => ?_ <;>
    rw [hreq]
  · exact s.modify_field id f WbRequest.head hhead other
  · exact s.modify_field id f WbRequest.totalSize htotal other
  · exact s.modify_field id f WbRequest.inFlight hflight other

theorem Balanced.unref (id : ReqId) : Balanced (s.unref id) := by
  have hreq : (s.unref id).req = (s.modify id WbRequest.dropRef).req := by
    funext other
    rw [WbState.unref_req, WbState.modify_req]
  exact hbalanced.modify hreq (s.unref_frame id).1 (unref_transit s id) rfl rfl rfl

theorem Balanced.record (event : Event Byte) : Balanced (s.record event) :=
  ⟨hbalanced.transit, hbalanced.rider⟩

theorem Balanced.markBad (fd : Option Fd) : Balanced (s.markBad fd) := by
  have hreq := (s.markBad_frame fd).1
  refine hbalanced.of_same (s.markBad_frame fd).2.2.2.1 (markBad_transit s fd) (fun id => ?_)
    (fun id => ?_) fun id => ?_ <;> rw [hreq]

theorem Balanced.stage_of_call (hcall : (s.req id).tempted = false) (stage : Stage) :
    Balanced (s.modify id fun req => { req with stage := stage }) :=
  hbalanced.modify rfl rfl rfl rfl rfl (by
    rw [WbRequest.inFlight_of_call hcall]
    exact WbRequest.inFlight_of_call hcall)

theorem Balanced.leave (hcall : (s.req id).tempted = false) (stage : Stage) :
    Balanced (s.leave id stage) :=
  (hbalanced.stage_of_call hcall stage).unref id

end

section Process

variable {conf : WbConf} {condition : WbState Byte → ReqId → ReqId → Prop}

theorem collapse_transit [Zero Byte] {holder : ReqId} (hcounted : Counted s)
    (hcollapsing : Collapsing conf s holder id) : (s.collapse holder id).transit = s.transit := by
  have hunsent : (s.req id).totalSize = 0 :=
    hcounted.unsent id hcollapsing.queued.tempted (by rw [hcollapsing.queued.stage]; decide)
  rw [WbState.collapse, fulfillRequest_transit,
    WbState.modify_req_of_ne _ _ _ (Nat.ne_of_gt hcollapsing.lt), hunsent]
  exact Int.sub_zero _

section

variable (hbalanced : Balanced s)

include hbalanced

theorem Balanced.collapse [Zero Byte] {holder : ReqId} (hcounted : Counted s)
    (hcollapsing : Collapsing conf s holder id) : Balanced (s.collapse holder id) := by
  have hne : holder ≠ id := Nat.ne_of_lt hcollapsing.lt
  refine hbalanced.of_same (WbState.fulfillRequest_frame ..).1
    (collapse_transit hcounted hcollapsing) (collapse_field WbRequest.head hne rfl rfl)
    (collapse_field WbRequest.totalSize hne rfl rfl) fun other => ?_
  by_cases hid : other = id
  · subst hid
    rw [collapse_req_id hne, WbRequest.inFlight_fulfill,
      WbRequest.inFlight_of_stage (by simp [hcollapsing.queued.stage])]
  · by_cases hholder : other = holder
    · rw [hholder, collapse_req_holder hne]
      rfl
    · rw [collapse_req_of_ne hholder hid]

theorem Balanced.preMove [Zero Byte] (hcounted : Counted s) (hmove : PreMove conf condition s t) :
    Balanced t := by
  cases hmove with
  | go _ => exact hbalanced.modify rfl rfl rfl rfl rfl rfl
  | collapse hcollapsing _ => exact hbalanced.collapse hcounted hcollapsing

theorem Balanced.pickMove (hmove : PickMove conf s t) : Balanced t := by
  obtain @⟨id, hpicking⟩ := hmove
  have hbefore : (s.req id).inFlight = 0 :=
    WbRequest.inFlight_of_stage (by simp [hpicking.stage])
  refine hbalanced.modify rfl rfl rfl rfl rfl ?_
  rw [hbefore]
  refine WbRequest.inFlight_of_stage ?_
  cases htempted : (s.req id).tempted <;> simp [WbRequest.pick, htempted]

theorem Balanced.unwindMove (hmove : UnwindMove s t) : Balanced t := by
  obtain @⟨id, _⟩ := hmove
  exact hbalanced.modify rfl rfl rfl rfl rfl rfl

theorem Balanced.joinMove (hcounted : Counted s) (hmove : JoinMove s t) : Balanced t := by
  obtain @⟨leader, rider, hjoining⟩ := hmove
  have hpicked := hjoining.rider.stage
  have hunsent : (s.req rider).totalSize = 0 :=
    hcounted.unsent rider hjoining.rider.tempted (by rw [hpicked]; decide)
  have hsame (other : ReqId) :
      ((s.join leader rider).req other).inFlight = (s.req other).inFlight := by
    refine s.modify_field rider _ WbRequest.inFlight ?_ other
    have hbefore : (s.req rider).inFlight = 0 := WbRequest.inFlight_of_stage (by simp [hpicked])
    rw [hbefore]
    exact WbRequest.inFlight_of_rider (by simp)
  refine hbalanced.of_flight rfl rfl hsame fun other hother => ?_
  by_cases h : other = rider
  · subst h
    rw [WbState.join, WbState.modify_req_self]
    exact hunsent
  · rw [join_req_of_ne h] at hother ⊢
    exact hbalanced.rider other hother

theorem Balanced.process [Zero Byte] {noIobuf : List ReqId} (hcounted : Counted s)
    (hinv : QueueInv s) : Balanced (wbProcessQueue conf noIobuf s) := by
  refine (wbProcessQueue_preserves (fun s => Counted s ∧ Balanced s) hinv
    (collapsesSatisfy_true (s, none) s.todo) (fun hinv hinv' hmove h => ?_)
    (fun hinv hinv' hmove h => ?_) (fun hinv hinv' hmove h => ?_)
    (fun hinv hinv' hmove h => ?_) ⟨hcounted, hbalanced⟩).2
  · exact ⟨h.1.keepsSent hinv hinv' (hmove.keepsSent hinv), h.2.preMove h.1 hmove⟩
  · exact ⟨h.1.keepsSent hinv hinv' (hmove.keepsSent hinv), h.2.pickMove hmove⟩
  · exact ⟨h.1.keepsSent hinv hinv' (hmove.keepsSent hinv), h.2.unwindMove hmove⟩
  · exact ⟨h.1.keepsSent hinv hinv' (hmove.keepsSent hinv), h.2.joinMove h.1 hmove⟩

end

end Process

section Steps

variable {head : ReqId}

theorem Balanced.load (hbalanced : Balanced s) (hhead : s.HeadAt head .picked) :
    Balanced (s.load head) := by
  have hself : ((s.load head).req head).head = none ∧ ((s.load head).req head).stage = .picked := by
    rw [WbState.load, WbState.modify_req_self]
    exact hhead.2
  refine hbalanced.of_flight rfl rfl (fun other => ?_) fun other hother => ?_
  · by_cases h : other = head
    · subst h
      have hloaded : ((s.load other).req other).inFlight = 0 :=
        WbRequest.inFlight_of_stage (by simp [hself.2])
      rw [hloaded, WbRequest.inFlight_of_stage (by simp [hhead.2.2])]
    · rw [load_req_of_ne h]
  · by_cases h : other = head
    · exact absurd hself.1 (h ▸ hother)
    · rw [load_req_of_ne h] at hother ⊢
      exact hbalanced.rider other hother

/-- A group moves on; only its head counts. -/
theorem Balanced.group {stage : Stage} (hbalanced : Balanced s) (hinv : QueueInv s)
    (hhead : s.HeadAt head stage) (hnext : t.next = s.next)
    (hheads : ∀ id, (t.req id).head = (s.req id).head)
    (htotals : ∀ id, (t.req id).totalSize = (s.req id).totalSize)
    (hothers : ∀ id, ¬InGroup s head id → (t.req id).inFlight = (s.req id).inFlight)
    (htransit : t.transit + (s.req head).inFlight = s.transit + (t.req head).inFlight) :
    Balanced t := by
  have hlt : head < s.next :=
    hinv.lt_next_of_field WbRequest.tempted (by simp [hhead.1, WbRequest.blank])
  have hother (id : ReqId) (hne : id ≠ head) : (t.req id).inFlight = (s.req id).inFlight := by
    by_cases hid : InGroup s head id
    · have hrider : (s.req id).head ≠ none := by simp [hid.resolve_left hne]
      rw [WbRequest.inFlight_of_rider hrider, WbRequest.inFlight_of_rider (hheads id ▸ hrider)]
    · exact hothers id hid
  have hchange := inFlight_change hlt hnext hother
  have hbefore := hbalanced.transit
  refine ⟨by omega, fun id hid => ?_⟩
  rw [htotals]
  exact hbalanced.rider id (hheads id ▸ hid)

theorem setStage_field {α : Type} (field : WbRequest Byte → α) (stage : Stage)
    (hsame : ∀ req : WbRequest Byte, field { req with stage := stage } = field req) (id : ReqId) :
    field ((s.setStage head stage).req id) = field (s.req id) :=
  group_field (fun _ => rfl) field hsame id

theorem QueueInv.headAt_setStage {before : Stage} (stage : Stage) (hinv : QueueInv s)
    (hhead : s.HeadAt head before) (hbefore : before ≠ .done) :
    (s.setStage head stage).HeadAt head stage := by
  rw [WbState.HeadAt, hinv.setStage_req_of_member stage hhead hbefore (.inl rfl)]
  exact ⟨hhead.1, hhead.2.1, rfl⟩

section

variable (hbalanced : Balanced s)

include hbalanced

/-- A group that is wound counts with the size of its head. -/
theorem Balanced.wound (hinv : QueueInv s) (hhead : s.HeadAt head .picked) :
    Balanced { s.setStage head .wound with transit := s.transit + (s.req head).totalSize } := by
  refine hbalanced.group hinv hhead rfl (setStage_field WbRequest.head .wound fun _ => rfl)
    (setStage_field WbRequest.totalSize .wound fun _ => rfl) (fun id hid => ?_) ?_
  · exact congrArg WbRequest.inFlight (hinv.setStage_req_of_not_member .wound hhead (by simp) hid)
  · have hbefore : (s.req head).inFlight = 0 :=
      WbRequest.inFlight_of_stage (by simp [hhead.2.2])
    have hafter := (hinv.headAt_setStage .wound hhead (by simp)).inFlight (.inl rfl)
    rw [setStage_field WbRequest.totalSize .wound fun _ => rfl] at hafter
    change s.transit + (s.req head).totalSize + (s.req head).inFlight =
      s.transit + ((s.setStage head .wound).req head).inFlight
    omega

theorem Balanced.noteReply (opRet : Int) (opErrno : Nat) :
    Balanced (s.noteReply head opRet opErrno) := by
  have herr (errno : Nat) : Balanced (s.wbFulfillErr head errno) := by
    refine hbalanced.of_same (s.setFdErr_frame ..).2.2.2.1 (setFdErr_transit ..) (fun id => ?_)
      (fun id => ?_) fun id => ?_ <;>
    · simp only [WbState.wbFulfillErr]
      split_ifs <;> rfl
  rw [WbState.noteReply]
  split_ifs
  · exact herr _
  · exact herr _
  · exact hbalanced

/-- The answer alone changes nothing. -/
theorem Balanced.wbFulfillCbk [Zero Byte] (hinv : QueueInv s) (hhead : s.HeadAt head .wound)
    (opRet : Int) (opErrno : Nat) : Balanced (s.wbFulfillCbk head opRet opErrno) := by
  have hquiet := quiet_noteReply hinv.toTracked head opRet opErrno
  have hinv' := hinv.quiet hquiet
  have hhead' := hhead.quiet (by simp) hquiet
  refine Balanced.record ?_ _
  refine (hbalanced.noteReply opRet opErrno).group hinv' hhead' rfl
    (setStage_field WbRequest.head .replied fun _ => rfl)
    (setStage_field WbRequest.totalSize .replied fun _ => rfl) (fun id hid => ?_) ?_
  · rw [hinv'.setStage_req_of_not_member .replied hhead' (by simp) hid]
  · have hafter := (hinv'.headAt_setStage .replied hhead' (by simp)).inFlight (.inr rfl)
    rw [setStage_field WbRequest.totalSize .replied fun _ => rfl] at hafter
    rw [hafter, hhead'.inFlight (.inl rfl)]
    rfl

theorem Balanced.wbHeadDone (hinv : QueueInv s) (hhead : s.HeadAt head .replied) :
    Balanced (s.wbHeadDone head) := by
  obtain ⟨hevolves, _, hreq⟩ := hinv.wbHeadDone hhead (by simp)
  refine hbalanced.group hinv hhead hevolves.next (group_field hreq WbRequest.head fun _ => rfl)
    (group_field hreq WbRequest.totalSize fun _ => rfl) (fun id hid => ?_) ?_
  · rw [hinv.wbHeadDone_req_of_not_member hhead (by simp) hid]
  · have hself : ((s.wbHeadDone head).req head).inFlight = 0 := by
      rw [hreq, if_pos (show head ∈ s.group head from List.mem_cons_self),
        WbRequest.inFlight_fulfill]
    have hriders : ((s.winds head).map fun id => (s.req id).totalSize).sum = 0 := by
      refine List.sum_eq_zero fun size hsize => ?_
      obtain ⟨id, hid, rfl⟩ := List.mem_map.mp hsize
      exact hbalanced.rider id (by simp [(WbState.mem_winds.mp hid).2])
    rw [hself, hhead.inFlight (.inr rfl), WbState.wbHeadDone, foldl_fulfillRequest_transit,
      List.map_append, List.sum_append, hriders]
    simp

theorem Balanced.enqueueCommon [Zero Byte] {stub : CallStub Byte} {tempted : Bool} :
    Balanced (s.enqueueCommon stub tempted) := by
  have hself := enqueueCommon_req_next (s := s) stub tempted
  have hother {id : ReqId} (hne : id ≠ s.next) :
      (s.enqueueCommon stub tempted).req id = s.req id := enqueueCommon_req_of_ne hne
  constructor
  · have hnew : ((s.enqueueCommon stub tempted).req s.next).inFlight = 0 := by
      rw [hself]
      exact WbRequest.inFlight_of_stage ⟨nofun, nofun⟩
    have hold : ∑ id ∈ Finset.range s.next, ((s.enqueueCommon stub tempted).req id).inFlight =
        s.inFlight :=
      Finset.sum_congr rfl fun id hid => by rw [hother (Nat.ne_of_lt (Finset.mem_range.mp hid))]
    change s.transit =
      ((∑ id ∈ Finset.range (s.next + 1), ((s.enqueueCommon stub tempted).req id).inFlight : Nat) :
        Int)
    rw [Finset.sum_range_succ, hnew, hold, Nat.add_zero, hbalanced.transit]
  · intro id hid
    by_cases h : id = s.next
    · subst h
      rw [hself]
      rfl
    · rw [hother h] at hid ⊢
      exact hbalanced.rider id hid

theorem Balanced.resume [Zero Byte] {conf : WbConf} (hcall : (s.req id).tempted = false)
    (frame : Bool) : Balanced (s.resume conf id frame) := by
  rw [WbState.resume, WbState.flushHelper]
  split_ifs
  · exact ((hbalanced.markBad _).leave (by rwa [(s.markBad_frame _).1]) .done).record _
  · exact (hbalanced.leave hcall .wound).record _
  · exact (hbalanced.leave hcall .done).record _
  · exact ((hbalanced.leave hcall .done).record _).record _
  · exact (hbalanced.leave hcall .wound).record _

theorem Balanced.step [Zero Byte] {conf : WbConf} {label : WbLabel Byte} (hcounted : Counted s)
    (hinv : QueueInv s) (hallowed : NothingDropped s label) (hstep : wbStep conf s label = some t) :
    Balanced t := by
  cases label <;> simp only [wbStep, Option.ite_none_right_eq_some, Option.map_eq_some_iff,
    Option.some.injEq] at hstep
  case arrive stub =>
    subst hstep
    rw [WbState.arrive]
    split_ifs
    · exact hbalanced.markBad _
    · exact ⟨hbalanced.transit, hbalanced.rider⟩
  case enqueue index =>
    obtain ⟨stub, _, rfl⟩ := hstep
    have hnew : Balanced (s.enqueue conf stub) := hbalanced.enqueueCommon
    exact ⟨hnew.transit, hnew.rider⟩
  case process noIobuf =>
    subst hstep
    exact hbalanced.process hcounted hinv
  case unwind id =>
    obtain ⟨_, rfl⟩ := hstep
    have hmarked : Balanced (s.modify id fun req => { req with unwinds := false }) :=
      hbalanced.modify rfl rfl rfl rfl rfl rfl
    exact (hmarked.unref id).record _
  case resume id frame =>
    obtain ⟨htask, rfl⟩ := hstep
    exact hbalanced.resume ((hinv.ok id).task htask) frame
  case callReply id opRet =>
    obtain ⟨⟨hcall, _⟩, rfl⟩ := hstep
    have hlogged := hbalanced.record (.replied id opRet)
    rw [WbState.callReply]
    split_ifs
    · exact hlogged.leave hcall .done
    · exact hlogged.stage_of_call hcall .done
  case fulfillHead head frame =>
    obtain ⟨hhead, hstep⟩ := hstep
    obtain ⟨hframe, hnone⟩ : frame = true ∧ s.fdError (s.req head).fd = none := hallowed
    rcases wbFulfillHead_cases hstep with ⟨herror, _⟩ | ⟨hfailed, _⟩ | ⟨_, _, rfl⟩
    · simp [hnone] at herror
    · simp [hframe] at hfailed
    · have hload := quiet_load hinv.toTracked hhead.1
      have hwound := (hbalanced.load hhead).wound (hinv.quiet hload) (hhead.quiet (by simp) hload)
      exact hwound.record _
  case writeReply head opRet opErrno =>
    obtain ⟨⟨hhead, _⟩, rfl⟩ := hstep
    exact hbalanced.wbFulfillCbk hinv hhead opRet opErrno
  case headDone head =>
    obtain ⟨hhead, rfl⟩ := hstep
    exact hbalanced.wbHeadDone hinv hhead

end

theorem balanced_of_nothingDropped [Zero Byte] {conf : WbConf}
    (hreach : ReachableUnder (wbStep conf) NothingDropped WbState.create s) : Balanced s :=
  hreach.invariant_along Balanced ⟨rfl, fun _ _ => rfl⟩ fun hbefore hallowed hstep hbalanced =>
    hbalanced.step (counted_of_reachableUnder hbefore) (queueInv_of_reachableUnder hbefore)
      hallowed hstep

end Steps

/-! ## Trickling writes -/

section Trickling

variable [Zero Byte] {conf : WbConf} {noIobuf : List ReqId} {first : ReqId}

/-- Every request that a write could have to wait for is still queued. -/
def Quiescent (s : WbState Byte) : Prop :=
  ∀ id ∈ s.all, (s.req id).stage = .todo ∨ (s.req id).wip = false ∧ (s.req id).lie ≠ .liability
  deriving Decidable

omit [Zero Byte] in
theorem QueueInv.wip_of_inFlight (hinv : QueueInv s) (hflight : (s.req id).InFlight) :
    id ∈ s.all ∧ (s.req id).stage ≠ .todo ∧ (s.req id).wip = true := by
  obtain ⟨htempted, _, hstage⟩ := hflight
  have hnot : (s.req id).stage ≠ .todo ∧ (s.req id).stage ≠ .done := by
    rcases hstage with h | h <;> simp [h]
  exact ⟨hinv.mem_of_stage htempted hnot.2, hnot.1,
    (hinv.ok id).wip_of_stage ((hinv.ok id).tempted_write htempted) hnot.1 hnot.2⟩

omit [Zero Byte] in
theorem inFlight_eq_zero (hnone : ∀ id, ¬(s.req id).InFlight) : s.inFlight = 0 :=
  Finset.sum_eq_zero fun id _ => WbRequest.inFlight_eq_zero (hnone id)

omit [Zero Byte] in
theorem Quiescent.none_inFlight (hquiescent : Quiescent s) (hinv : QueueInv s) (id : ReqId) :
    ¬(s.req id).InFlight := by
  intro hflight
  obtain ⟨hmem, htodo, hwip⟩ := hinv.wip_of_inFlight hflight
  rcases hquiescent id hmem with h | h
  · exact htodo h
  · rw [hwip] at h
    cases h.1

/-- What the loop of `__wb_preprocess_winds` keeps about the oldest write: it is
the holder, or it may go. -/
structure FirstHeld (first : ReqId) (loop : WbState Byte × Option ReqId) : Prop where
  held : Holds loop.1 first
  holder : ∃ holder ∈ loop.2, holder = first ∨ (loop.1.req first).go = true

theorem FirstHeld.turn {loop : WbState Byte × Option ReqId} (hfirst : FirstHeld first loop)
    (hne : id ≠ first) (hholder : ∀ holder ∈ loop.2, holder ≠ id) :
    FirstHeld first (preprocessTurn conf noIobuf loop id) := by
  obtain ⟨s, holder⟩ := loop
  obtain ⟨hheld, holder, hmem, hgo⟩ := hfirst
  obtain rfl : _ = some holder := hmem
  have hset : ((s.setGo holder).req first).go = true ↔
      holder = first ∨ (s.req first).go = true := by
    rw [WbState.setGo, WbState.modify_req]
    split_ifs with h
    · simp [h]
    · simp [Ne.symm h]
  rw [preprocessTurn]
  split_ifs
  · exact ⟨hheld.setGo, holder, rfl, .inr (hset.mpr hgo)⟩
  · exact ⟨hheld, holder, rfl, hgo⟩
  · exact ⟨hheld, holder, rfl, hgo⟩
  · have hsame := collapse_field (s := s) WbRequest.go (hholder holder rfl) rfl rfl first
    refine ⟨hheld.collapse hne.symm (hholder holder rfl), holder, rfl, hgo.imp_right fun h => ?_⟩
    exact hsame.trans h
  · exact ⟨hheld.setGo, id, rfl, .inr (hset.mpr hgo)⟩

variable {ids : List ReqId}

theorem foldl_firstHeld {loop : WbState Byte × Option ReqId} (hloop : PreprocessLoop loop ids)
    (hfirst : FirstHeld first loop) (hlater : ∀ id ∈ ids, id ≠ first) :
    FirstHeld first (ids.foldl (preprocessTurn conf noIobuf) loop) := by
  induction ids generalizing loop with
  | nil => exact hfirst
  | cons id ids ih =>
    obtain ⟨hid, hrest⟩ := List.forall_mem_cons.mp hlater
    have hnext : PreprocessLoop (preprocessTurn conf noIobuf loop id) ids :=
      (preprocessTurn_moves hloop (collapsesSatisfy_true loop (id :: ids))).2
    refine ih hnext (hfirst.turn hid fun holder hholder => ?_) hrest
    exact Nat.ne_of_lt ((hloop.holder holder hholder).2 id List.mem_cons_self)

/-- What `__wb_preprocess_winds` leaves as it was. -/
structure Preprocessed (s t : WbState Byte) : Prop where
  all : ∀ id ∈ t.all, id ∈ s.all
  wip : ∀ id, (t.req id).wip = (s.req id).wip
  lie : ∀ id, (t.req id).lie = (s.req id).lie
  gen : ∀ id, (t.req id).gen = (s.req id).gen
  todo : ∀ id, (t.req id).stage = .todo → (s.req id).stage = .todo
  transit : t.transit = s.transit

theorem PreMove.preprocessed {condition : WbState Byte → ReqId → ReqId → Prop}
    (hcounted : Counted s) (hmove : PreMove conf condition s t) : Preprocessed s t := by
  cases hmove with
  | @go id _ =>
    exact ⟨fun _ h => h, s.modify_field id _ WbRequest.wip rfl,
      s.modify_field id _ WbRequest.lie rfl, s.modify_field id _ WbRequest.gen rfl,
      fun other h => (s.modify_field id _ WbRequest.stage rfl other).symm.trans h, rfl⟩
  | @collapse holder id hcollapsing _ =>
    have hne : holder ≠ id := Nat.ne_of_lt hcollapsing.lt
    refine ⟨fun other h => ?_, collapse_field WbRequest.wip hne rfl rfl,
      collapse_field WbRequest.lie hne rfl rfl, collapse_field WbRequest.gen hne rfl rfl,
      fun other h => ?_, collapse_transit hcounted hcollapsing⟩
    · rw [WbState.collapse, WbState.fulfillRequest_all] at h
      split_ifs at h
      · exact (List.mem_filter.mp h).1
      · exact h
    · by_cases hother : other = id
      · rw [hother, collapse_req_id hne] at h
        cases h
      · exact (collapse_stage hne hother).symm.trans h

omit [Zero Byte] in
theorem Preprocessed.trans {u : WbState Byte} (hfirst : Preprocessed s t)
    (hsecond : Preprocessed t u) : Preprocessed s u where
  all id h := hfirst.all id (hsecond.all id h)
  wip id := (hsecond.wip id).trans (hfirst.wip id)
  lie id := (hsecond.lie id).trans (hfirst.lie id)
  gen id := (hsecond.gen id).trans (hfirst.gen id)
  todo id h := hfirst.todo id (hsecond.todo id h)
  transit := hsecond.transit.trans hfirst.transit

theorem preprocessed_of_moves {condition : WbState Byte → ReqId → ReqId → Prop}
    (hinv : QueueInv s) (hcounted : Counted s)
    (hmoves : ReflTransGen (PreMove conf condition) s t) : Preprocessed s t := by
  refine (preserved_of_moves (fun t => QueueInv t ∧ Counted t ∧ Preprocessed s t) hmoves
    (fun hmove h => ?_) ⟨hinv, hcounted, ?_⟩).2.2
  · obtain ⟨hinv, hcounted, hsofar⟩ := h
    have hinv' := hinv.quiet (hmove.quiet hinv.toTracked)
    exact ⟨hinv', hcounted.keepsSent hinv hinv' (hmove.keepsSent hinv),
      hsofar.trans (hmove.preprocessed hcounted)⟩
  · exact ⟨fun _ h => h, fun _ => rfl, fun _ => rfl, fun _ => rfl, fun _ h => h, rfl⟩

variable {rest : List ReqId}

/-- With trickling writes the oldest write may go when nothing is in flight. -/
theorem wbPreprocessWinds_first (hinv : QueueInv s) (hcounted : Counted s)
    (htodo : s.todo = first :: rest) (htempted : (s.req first).tempted = true)
    (htrickling : conf.tricklingWrites = true) (htransit : s.transit = 0) :
    Preprocessed s (wbPreprocessWinds conf noIobuf s) ∧
      QueueInv (wbPreprocessWinds conf noIobuf s) ∧
      Holds (wbPreprocessWinds conf noIobuf s) first ∧
      ((wbPreprocessWinds conf noIobuf s).req first).go = true := by
  have hsorted : (first :: rest).Pairwise (· < ·) := htodo ▸ todo_sorted hinv.sorted
  have hloop : PreprocessLoop (s, none) s.todo :=
    ⟨fun id hid => WbState.mem_todo.mp hid, todo_sorted hinv.sorted, by simp⟩
  have hcondition : CollapsesSatisfy conf noIobuf (fun _ _ _ => True) (s, none) s.todo :=
    collapsesSatisfy_true (s, none) s.todo
  have hmoves := wbPreprocessWinds_moves hinv.sorted hcondition
  refine ⟨preprocessed_of_moves hinv hcounted hmoves, hinv.preMoves hmoves, ?_⟩
  have hfold := (foldl_preprocessTurn_moves hloop hcondition).1
  have hturn : preprocessTurn conf noIobuf (s, none) first = (s, some first) := by
    simp [preprocessTurn, htempted]
  have hheld : FirstHeld first (s.todo.foldl (preprocessTurn conf noIobuf) (s, none)) := by
    rw [htodo] at hloop hcondition ⊢
    have hnext := (preprocessTurn_moves hloop hcondition).2
    rw [List.foldl_cons]
    refine foldl_firstHeld hnext ?_ fun id hid =>
      Nat.ne_of_gt ((List.pairwise_cons.mp hsorted).1 id hid)
    rw [hturn]
    obtain ⟨hmem, hstage⟩ := hloop.queued first List.mem_cons_self
    exact ⟨⟨hmem, hstage, htempted⟩, first, rfl, .inl rfl⟩
  have hzero := (preprocessed_of_moves hinv hcounted hfold).transit.trans htransit
  rw [wbPreprocessWinds]
  generalize s.todo.foldl (preprocessTurn conf noIobuf) (s, none) = last at hheld hzero
  obtain ⟨after, holder⟩ := last
  obtain ⟨hholds, holder, rfl, hgo⟩ := hheld
  dsimp only
  rw [if_pos ⟨htrickling, hzero⟩]
  refine ⟨hholds.setGo, ?_⟩
  rw [WbState.setGo, WbState.modify_req]
  split_ifs with h
  · rfl
  · exact hgo.resolve_left (Ne.symm h)

omit [Zero Byte] in
theorem foldl_pickWindsTurn_of_not_mem {loop : WbState Byte × List ReqId} (hnot : id ∉ ids) :
    (ids.foldl (pickWindsTurn conf) loop).1.req id = loop.1.req id := by
  induction ids generalizing loop with
  | nil => rfl
  | cons other ids ih =>
    obtain ⟨hne, hrest⟩ := List.ne_and_not_mem_of_not_mem_cons hnot
    rw [List.foldl_cons, ih hrest, pickWindsTurn]
    split_ifs <;> simp [pick_req_of_ne hne]

omit [Zero Byte] in
/-- The oldest queued write is picked when it may go and waits for nothing. -/
theorem wbPickWinds_first (htodo : s.todo = first :: rest)
    (hsorted : (first :: rest).Pairwise (· < ·)) (hheld : Holds s first)
    (hgo : (s.req first).go = true) (hliability : ¬wbLiabilityHasConflict conf s first)
    (hwip : ¬wbWipHasConflict s first) : ((wbPickWinds conf s).1.req first).stage = .picked := by
  have hturn : pickWindsTurn conf (s, []) first = (s.pick first, [first]) := by
    simp [pickWindsTurn, hliability, hwip, hgo, hheld.tempted]
  have hnot : first ∉ rest := fun h =>
    Nat.lt_irrefl _ ((List.pairwise_cons.mp hsorted).1 first h)
  rw [wbPickWinds, htodo, List.foldl_cons, hturn, foldl_pickWindsTurn_of_not_mem hnot]
  simp [WbState.pick, WbRequest.pick, hheld.tempted]

/-- A list in order starts with its least member. -/
theorem eq_cons_of_first (hsorted : ids.Pairwise (· < ·)) (hmem : first ∈ ids)
    (hleast : ∀ id ∈ ids, first ≤ id) : ∃ rest, ids = first :: rest := by
  cases ids with
  | nil => cases hmem
  | cons id rest =>
    rcases List.mem_cons.mp hmem with rfl | h
    · exact ⟨rest, rfl⟩
    · have hlt := (List.pairwise_cons.mp hsorted).1 first h
      exact absurd (hleast id List.mem_cons_self) (Nat.not_le.mpr hlt)

theorem trickling_picks_first (hinv : QueueInv s) (hcounted : Counted s) (hquiescent : Quiescent s)
    (htodo : s.todo = first :: rest) (htempted : (s.req first).tempted = true)
    (htrickling : conf.tricklingWrites = true) (htransit : s.transit = 0) :
    ((wbProcessQueue conf noIobuf s).req first).stage = .picked := by
  obtain ⟨hpre, hinv', hheld, hgo⟩ : Preprocessed s (wbPreprocessWinds conf noIobuf s) ∧ _ :=
    wbPreprocessWinds_first hinv hcounted htodo htempted htrickling htransit
  obtain ⟨_, _, answered, hunwinds, hjoins⟩ :=
    wbProcessQueue_moves hinv (collapsesSatisfy_true (s, none) s.todo)
  have hkept {move : WbState Byte → WbState Byte → Prop} {left right : WbState Byte}
      (hmoves : ReflTransGen move left right)
      (hstage : ∀ {left right}, move left right →
        (right.req first).stage = (left.req first).stage) :
      (right.req first).stage = (left.req first).stage :=
    preserved_of_moves (fun t => (t.req first).stage = (left.req first).stage) hmoves
      (fun hmove h => (hstage hmove).trans h) rfl
  rw [hkept hjoins (·.stage first), hkept hunwinds (·.stage first)]
  generalize wbPreprocessWinds conf noIobuf s = after at hpre hinv' hheld hgo ⊢
  have hleast (id : ReqId) (hid : id ∈ s.todo) : first ≤ id := by
    have hsorted : (first :: rest).Pairwise (· < ·) := htodo ▸ todo_sorted hinv.sorted
    rw [htodo] at hid
    rcases List.mem_cons.mp hid with rfl | h
    · exact Nat.le_refl _
    · exact Nat.le_of_lt ((List.pairwise_cons.mp hsorted).1 id h)
  have hsorted := todo_sorted hinv'.sorted
  obtain ⟨later, hlater⟩ := eq_cons_of_first hsorted
    (WbState.mem_todo.mpr ⟨hheld.mem, hheld.stage⟩) fun id hid => by
      obtain ⟨hmem, hstage⟩ := WbState.mem_todo.mp hid
      exact hleast id (WbState.mem_todo.mpr ⟨hpre.all id hmem, hpre.todo id hstage⟩)
  refine wbPickWinds_first hlater (hlater ▸ hsorted) hheld hgo ?_ ?_
  · rintro ⟨each, hmem, _, hgen, _⟩
    obtain ⟨hall, hlie⟩ := WbState.mem_liability.mp hmem
    rw [hpre.lie] at hlie
    have hqueued : each ∈ s.todo := by
      refine WbState.mem_todo.mpr ⟨hpre.all each hall, ?_⟩
      exact (hquiescent each (hpre.all each hall)).resolve_right fun h => h.2 hlie
    rw [hpre.gen, hpre.gen] at hgen
    rcases Nat.eq_or_lt_of_le (hleast each hqueued) with rfl | hlt
    · exact Nat.lt_irrefl _ hgen
    · have hmono := hinv.gen_mono first (hpre.all first hheld.mem) each (hpre.all each hall) hlt
      exact Nat.not_lt.mpr hmono hgen
  · rintro ⟨_, each, hmem, _, _⟩
    obtain ⟨hall, hwip⟩ := WbState.mem_wip.mp hmem
    rw [hpre.wip] at hwip
    rcases hquiescent each (hpre.all each hall) with h | h
    · exact ((hinv.ok each).wip_write hwip).2 h
    · rw [hwip] at h
      cases h.1

theorem transit_is_in_flight
    (hreach : ReachableUnder (wbStep conf) NothingDropped WbState.create s) :
    s.transit = s.inFlight ∧ 0 ≤ s.transit ∧
      (∀ head, s.HeadAt head .wound → (s.req head).totalSize = s.loadSize head) ∧
      ((∀ id, ¬(s.req id).InFlight) → s.transit = 0) ∧
      (conf.tricklingWrites = true → Quiescent s → ∀ noIobuf first rest,
        s.todo = first :: rest → (s.req first).tempted = true →
          ((wbProcessQueue conf noIobuf s).req first).stage = .picked) := by
  have hinv := queueInv_of_reachableUnder hreach
  have htransit := (balanced_of_nothingDropped hreach).transit
  have hzero (hnone : ∀ id, ¬(s.req id).InFlight) : s.transit = 0 := by
    rw [htransit, inFlight_eq_zero hnone]
    rfl
  have hcounted := counted_of_reachableUnder hreach
  refine ⟨htransit, by omega, hcounted.wound, hzero, ?_⟩
  intro htrickling hquiescent noIobuf first rest htodo htempted
  exact trickling_picks_first hinv hcounted hquiescent htodo htempted htrickling
    (hzero (hquiescent.none_inFlight hinv))

/-- Two writes of one group are in flight. -/
theorem transit_is_in_flight_twoParts :
    ∃ s, run (wbStep tricklingConf) WbState.create twoPartsSent = some s ∧
      s.transit = 5 ∧ s.transit = s.inFlight := by
  obtain ⟨s, hrun⟩ : ∃ s,
      run (wbStep tricklingConf) WbState.create twoPartsSent = some s := ⟨_, rfl⟩
  have hfive : s.transit = 5 := by
    cases hrun
    decide
  exact ⟨s, hrun, hfive, (transit_is_in_flight (.of_run twoPartsSent .start (by decide) hrun)).1⟩

/-- There is no memory for the frame of a write.  Another one, on another fd, is
queued and answered. -/
def windFailed : List (WbLabel Nat) :=
  queueWrite 0 [[1, 2]] ++ [.process [], .unwind 0, .fulfillHead 0 false,
      .arrive (plainCall .write 2 10 0 [[3]]), .enqueue 0,
      .process [], .unwind 1]

/-- `transit` is negative although nothing is in flight, and the second write is
not picked. -/
theorem transit_negative : (¬∀ s : WbState Nat, Reachable (wbStep tricklingConf) WbState.create s →
      s.transit = s.inFlight ∧ 0 ≤ s.transit) ∧
    ¬∀ s : WbState Nat, Reachable (wbStep tricklingConf) WbState.create s → Quiescent s →
      ∀ noIobuf first rest, s.todo = first :: rest → (s.req first).tempted = true →
        ((wbProcessQueue tricklingConf noIobuf s).req first).stage = .picked := by
  obtain ⟨s, hrun⟩ : ∃ s, run (wbStep tricklingConf) WbState.create windFailed = some s := ⟨_, rfl⟩
  have hreach : Reachable (wbStep tricklingConf) WbState.create s :=
    .of_run windFailed .start hrun
  have hnegative : s.transit = -2 := by
    cases hrun
    decide
  have hqueued : Quiescent s ∧ s.todo = [1] ∧ (s.req 1).tempted = true ∧
      ((wbProcessQueue tricklingConf [] s).req 1).stage = .todo := by
    cases hrun
    decide
  constructor
  · intro hall
    have hnonneg := (hall s hreach).2
    omega
  · intro hall
    obtain ⟨hquiescent, htodo, htempted, hstage⟩ := hqueued
    have hpicked := hall s hreach hquiescent [] 1 [] htodo htempted
    rw [hstage] at hpicked
    cases hpicked

end Trickling

end GlusterFS.WriteBehind
