import GlusterFS.WriteBehind.QueueSteps

/-!
# The steps outside the locked section

A step that neither queues a call nor runs `wb_process_queue` takes requests on
that have left `todo` and moves no data between them.  What the caller or the
child sees of it is one or two events.
-/

namespace GlusterFS.WriteBehind

open Relation GlusterFS.Transition

variable {Byte : Type*} {s t u : WbState Byte} {id : ReqId}

/-! ## Data that stays where it is -/

/-- What a request holds of its own call and of other writes. -/
def WbRequest.data (req : WbRequest Byte) := (req.fixed, req.held, req.iobref)

/-- No data moves between requests. -/
structure Keeps (s t : WbState Byte) : Prop where
  next : t.next = s.next
  data : ∀ id, (t.req id).data = (s.req id).data

namespace Keeps

variable (h : Keeps s t) (id : ReqId)

include h

theorem stub : (t.req id).stub = (s.req id).stub := congrArg (·.1.1) (h.data id)

theorem fd : (t.req id).fd = (s.req id).fd := congrArg (·.1.2.1) (h.data id)

theorem gen : (t.req id).gen = (s.req id).gen := congrArg (·.1.2.2.1) (h.data id)

theorem tempted : (t.req id).tempted = (s.req id).tempted :=
  congrArg (·.1.2.2.2.1) (h.data id)

theorem off : (t.req id).off = (s.req id).off := congrArg (·.1.2.2.2.2.2.1) (h.data id)

theorem vector : (t.req id).vector = (s.req id).vector := congrArg (·.2.1.1) (h.data id)

theorem writeSize : (t.req id).writeSize = (s.req id).writeSize :=
  congrArg (·.2.1.2.1) (h.data id)

theorem size : (t.req id).size = (s.req id).size := congrArg (·.2.1.2.2.1) (h.data id)

theorem carries : (t.req id).carries = (s.req id).carries :=
  congrArg (·.2.1.2.2.2) (h.data id)

end Keeps

theorem keeps_modify {f : WbRequest Byte → WbRequest Byte}
    (hdata : (f (s.req id)).data = (s.req id).data) : Keeps s (s.modify id f) :=
  ⟨rfl, s.modify_field id f WbRequest.data hdata⟩

theorem PickMove.keeps {conf : WbConf} (hmove : PickMove conf s t) : Keeps s t := by
  obtain ⟨_⟩ := hmove
  exact keeps_modify rfl

theorem UnwindMove.keeps (hmove : UnwindMove s t) : Keeps s t := by
  obtain @⟨id, _⟩ := hmove
  exact ⟨rfl, s.modify_field id _ WbRequest.data rfl⟩

theorem JoinMove.keeps (hmove : JoinMove s t) : Keeps s t := by
  obtain ⟨_⟩ := hmove
  exact keeps_modify rfl

theorem UnwindMove.stage (hmove : UnwindMove s t) (id : ReqId) :
    (t.req id).stage = (s.req id).stage := by
  obtain @⟨answered, _⟩ := hmove
  exact s.modify_field answered _ WbRequest.stage rfl id

theorem JoinMove.stage (hmove : JoinMove s t) (id : ReqId) :
    (t.req id).stage = (s.req id).stage := by
  obtain @⟨_, rider, _⟩ := hmove
  exact s.modify_field rider _ WbRequest.stage rfl id

/-! ## Going on -/

/-- How far a stage is from the queue. -/
def Stage.rank : Stage → Nat
  | .todo => 0
  | .task | .picked => 1
  | .wound => 2
  | .replied => 3
  | .done => 4

/-- The child has not acknowledged what the buffered write carries. -/
def WbRequest.Live (req : WbRequest Byte) : Prop :=
  req.tempted = true ∧ req.stage.rank ≤ 2
  deriving Decidable

theorem WbRequest.not_live {req : WbRequest Byte} (htempted : req.tempted = false) : ¬req.Live :=
  fun h => Bool.false_ne_true (htempted.symm.trans h.1)

theorem WbRequest.Live.stage_ne {req : WbRequest Byte} {stage : Stage} (hlive : req.Live)
    (hstage : 2 < stage.rank) : req.stage ≠ stage :=
  fun h => absurd hlive.2 (Nat.not_le_of_lt (h ▸ hstage))

structure PassStep (before after : WbRequest Byte) : Prop where
  data : after.data = before.data
  lie : after.lie = before.lie
  wip : after.wip = before.wip
  head : after.head = before.head
  todo : before.stage = .todo → after.stage = .todo
  rank : before.stage.rank ≤ after.stage.rank

/-- What the steps outside the locked section have in common. -/
structure Passes (s t : WbState Byte) : Prop where
  next : t.next = s.next
  record : ∀ id, PassStep (s.req id) (t.req id)
  fdErr : ∀ fd, (s.fdErr fd).isSome → (t.fdErr fd).isSome

variable {head : ReqId} {stage : Stage}

section Passing

variable {before middle after : WbRequest Byte}

theorem PassStep.refl (req : WbRequest Byte) : PassStep req req :=
  ⟨rfl, rfl, rfl, rfl, id, Nat.le_refl _⟩

theorem PassStep.trans (hfirst : PassStep before middle) (hsecond : PassStep middle after) :
    PassStep before after where
  data := hsecond.data.trans hfirst.data
  lie := hsecond.lie.trans hfirst.lie
  wip := hsecond.wip.trans hfirst.wip
  head := hsecond.head.trans hfirst.head
  todo := hsecond.todo ∘ hfirst.todo
  rank := Nat.le_trans hfirst.rank hsecond.rank

theorem PassStep.live (hstep : PassStep before after) (hlive : after.Live) : before.Live :=
  ⟨(congrArg (·.1.2.2.2.1) hstep.data).symm.trans hlive.1, Nat.le_trans hstep.rank hlive.2⟩

theorem PassStep.not_done (hstep : PassStep before after) (hdone : after.stage ≠ .done) :
    before.stage ≠ .done := by
  intro hbefore
  have hrank := hstep.rank
  rw [hbefore] at hrank
  revert hdone
  cases hafter : after.stage <;> simp [hafter, Stage.rank] at hrank ⊢

theorem passStep_stage (hbefore : before.stage ≠ .todo) (hrank : before.stage.rank ≤ stage.rank) :
    PassStep before { before with stage := stage } :=
  ⟨rfl, rfl, rfl, rfl, fun h => absurd h hbefore, hrank⟩

theorem passStep_fulfill (hbefore : before.stage ≠ .todo) : PassStep before before.fulfill := by
  refine ⟨rfl, rfl, rfl, rfl, fun h => absurd h hbefore, ?_⟩
  change before.stage.rank ≤ 4
  cases before.stage <;> simp [Stage.rank]

theorem Passes.keeps (hpasses : Passes s t) : Keeps s t :=
  ⟨hpasses.next, fun id => (hpasses.record id).data⟩

theorem Passes.refl (s : WbState Byte) : Passes s s := ⟨rfl, fun _ => .refl _, fun _ => id⟩

theorem Passes.trans (hfirst : Passes s t) (hsecond : Passes t u) : Passes s u :=
  ⟨hsecond.next.trans hfirst.next, fun id => (hfirst.record id).trans (hsecond.record id),
    fun fd => hsecond.fdErr fd ∘ hfirst.fdErr fd⟩

theorem Passes.fdError (hpasses : Passes s t) {fd : Option Fd}
    (herror : (s.fdError fd).isSome) : (t.fdError fd).isSome := by
  cases fd with
  | none => exact herror
  | some fd => exact hpasses.fdErr fd herror

theorem passes_of_req (hreq : t.req = s.req) (hnext : t.next = s.next)
    (hfdErr : ∀ fd, (s.fdErr fd).isSome → (t.fdErr fd).isSome) : Passes s t :=
  ⟨hnext, fun _ => hreq ▸ .refl _, hfdErr⟩

theorem passes_record (s : WbState Byte) (event : Event Byte) : Passes s (s.record event) :=
  passes_of_req rfl rfl fun _ => id

theorem passes_modify {f : WbRequest Byte → WbRequest Byte}
    (hstep : PassStep (s.req id) (f (s.req id))) : Passes s (s.modify id f) := by
  refine ⟨rfl, fun other => ?_, fun _ h => h⟩
  rw [WbState.modify_req]
  split_ifs with h
  · exact h ▸ hstep
  · exact .refl _

theorem passes_unref (s : WbState Byte) (id : ReqId) : Passes s (s.unref id) := by
  refine ⟨(s.unref_frame id).1, fun other => ?_, fun fd h => by simpa using h⟩
  rw [WbState.unref_req]
  split_ifs with h
  · exact h ▸ ⟨rfl, rfl, rfl, rfl, fun h => h, Nat.le_refl _⟩
  · exact .refl _

theorem passes_leave (hbefore : (s.req id).stage ≠ .todo)
    (hrank : (s.req id).stage.rank ≤ stage.rank) : Passes s (s.leave id stage) :=
  (passes_modify (passStep_stage hbefore hrank)).trans (passes_unref _ id)

theorem isSome_setFdErr (s : WbState Byte) (fd : Option Fd) (errno : Nat) (other : Fd) :
    ((s.setFdErr fd errno).fdErr other).isSome ↔ (s.fdErr other).isSome ∨ fd = some other := by
  cases fd with
  | none => simp [WbState.setFdErr]
  | some fd =>
    by_cases h : other = fd
    · simp [WbState.setFdErr, h]
    · simp [WbState.setFdErr, h, Ne.symm h]

theorem isSome_markBad (s : WbState Byte) (fd : Option Fd) (other : Fd) :
    ((s.markBad fd).fdErr other).isSome ↔ (s.fdErr other).isSome := by
  rw [WbState.markBad]
  split_ifs with herror
  · rw [isSome_setFdErr]
    refine or_iff_left_of_imp fun hfd => ?_
    rwa [hfd] at herror
  · rfl

theorem passes_markBad (s : WbState Byte) (fd : Option Fd) : Passes s (s.markBad fd) :=
  passes_of_req (s.markBad_frame fd).1 (s.markBad_frame fd).2.2.2.1 fun _ => (isSome_markBad ..).mpr

theorem passes_load (s : WbState Byte) (head : ReqId) : Passes s (s.load head) :=
  passes_modify ⟨rfl, rfl, rfl, rfl, fun h => h, Nat.le_refl _⟩

theorem passes_wbFulfillErr (s : WbState Byte) (head : ReqId) (errno : Nat) :
    Passes s (s.wbFulfillErr head errno) := by
  refine ⟨(s.setFdErr_frame ..).2.2.2.1, fun id => ?_, fun fd hfd => ?_⟩
  · simp only [WbState.wbFulfillErr]
    split_ifs
    · exact ⟨rfl, rfl, rfl, rfl, fun h => h, Nat.le_refl _⟩
    · exact .refl _
  · exact (isSome_setFdErr ..).mpr (.inl hfd)

theorem passes_noteReply (s : WbState Byte) (head : ReqId) (opRet : Int) (opErrno : Nat) :
    Passes s (s.noteReply head opRet opErrno) := by
  rw [WbState.noteReply]
  split_ifs
  · exact passes_wbFulfillErr ..
  · exact passes_wbFulfillErr ..
  · exact .refl s

theorem QueueInv.passes_setStage (hinv : QueueInv s) {before : Stage} (stage : Stage)
    (hhead : s.HeadAt head before) (hbefore : before ≠ .todo ∧ before ≠ .done)
    (hrank : before.rank ≤ stage.rank) : Passes s (s.setStage head stage) := by
  refine ⟨rfl, fun id => ?_, fun _ h => h⟩
  by_cases h : InGroup s head id
  · have hmember := (hinv.group_member hhead h).2
    rw [hinv.setStage_req_of_member stage hhead hbefore.2 h]
    exact passStep_stage (hmember ▸ hbefore.1) (hmember ▸ hrank)
  · rw [hinv.setStage_req_of_not_member stage hhead hbefore.2 h]
    exact .refl _

theorem foldl_fulfillRequest_rest (ids : List ReqId) (s : WbState Byte) :
    (ids.foldl WbState.fulfillRequest s).fdErr = s.fdErr ∧
      (ids.foldl WbState.fulfillRequest s).log = s.log := by
  induction ids generalizing s with
  | nil => exact ⟨rfl, rfl⟩
  | cons id ids ih =>
    obtain ⟨hfdErr, hlog⟩ := ih (s.fulfillRequest id)
    obtain ⟨-, hsameLog, hsameErr⟩ := s.fulfillRequest_frame id
    exact ⟨hfdErr.trans hsameErr, hlog.trans hsameLog⟩

theorem QueueInv.passes_wbHeadDone (hinv : QueueInv s) (hhead : s.HeadAt head stage)
    (hstage : stage ≠ .todo ∧ stage ≠ .done) : Passes s (s.wbHeadDone head) := by
  obtain ⟨hevolves, _, hreq⟩ := hinv.wbHeadDone hhead hstage.2
  refine ⟨hevolves.next, fun id => ?_, fun fd h => ?_⟩
  · rw [hreq]
    split_ifs with h
    · have hmember := hinv.group_member hhead ((hinv.mem_group_iff hhead hstage.2).mp h)
      exact passStep_fulfill (hmember.2 ▸ hstage.1)
    · exact .refl _
  · rwa [WbState.wbHeadDone, (foldl_fulfillRequest_rest _ s).1]

theorem QueueInv.wbHeadDone_req_of_not_member (hinv : QueueInv s) (hhead : s.HeadAt head stage)
    (hstage : stage ≠ .done) (hid : ¬InGroup s head id) :
    (s.wbHeadDone head).req id = s.req id := by
  rw [(hinv.wbHeadDone hhead hstage).2.2, if_neg]
  exact fun h => hid ((hinv.mem_group_iff hhead hstage).mp h)

end Passing

/-! ## What is seen of a step -/

/-- The buffered writes that have not been acknowledged stay as they are, but
for some. -/
def Stays (s t : WbState Byte) (moved : ReqId → Prop) : Prop :=
  ∀ id, (s.req id).Live → ¬moved id →
    (t.req id).stage = (s.req id).stage ∧ (t.req id).totalSize = (s.req id).totalSize

/-- The calls that are not buffered stay as they are, but for some. -/
def CallsStay (s t : WbState Byte) (moved : ReqId → Prop) : Prop :=
  ∀ id, (s.req id).tempted = false → ¬moved id → (t.req id).stage = (s.req id).stage

/-- No fd gets its first error. -/
def SameErrors (s t : WbState Byte) : Prop :=
  ∀ fd, (t.fdErr fd).isSome → (s.fdErr fd).isSome

/-- The steps outside the locked section by what they show. -/
inductive Effect [Zero Byte] (s t : WbState Byte) : WbLabel Byte → Prop
  | silent {label : WbLabel Byte} (stays : Stays s t fun _ => False)
      (errors : SameErrors s t) (log : t.log = s.log)
      (calls : CallsStay s t fun _ => False) : Effect s t label
  | unwound {id : ReqId} (tempted : (s.req id).tempted = true)
      (lie : (s.req id).lie ≠ .temptation) (stays : Stays s t fun _ => False)
      (errors : SameErrors s t)
      (log : t.log = .unwound id (s.req id).opRet (s.req id).opErrno :: s.log)
      (calls : CallsStay s t fun _ => False) :
      Effect s t (.unwind id)
  | refused {id : ReqId} {frame : Bool} (task : (s.req id).stage = .task)
      (stays : Stays s t fun _ => False) (errors : SameErrors s t)
      (log : t.log = .replied id (-1) :: s.log) (calls : CallsStay s t (· = id))
      (done : (t.req id).stage = .done) : Effect s t (.resume id frame)
  | wound {id : ReqId} {frame : Bool} (task : (s.req id).stage = .task)
      (flush : (s.req id).stub.fop = .flush → s.fdError (s.req id).stub.fd = none)
      (stays : Stays s t fun _ => False) (errors : SameErrors s t)
      (log : t.log = .wound id :: s.log ∨ t.log = .replied id 0 :: .wound id :: s.log)
      (calls : CallsStay s t (· = id)) :
      Effect s t (.resume id frame)
  | replied {id : ReqId} {opRet : Int} (tempted : (s.req id).tempted = false)
      (wound : (s.req id).stage = .wound) (stays : Stays s t fun _ => False)
      (errors : SameErrors s t) (log : t.log = .replied id opRet :: s.log)
      (calls : CallsStay s t (· = id)) :
      Effect s t (.callReply id opRet)
  | dropped {head : ReqId} {frame : Bool} (at_head : s.HeadAt head .picked)
      (cause : (s.fdError (s.req head).fd).isSome ∨ frame = false)
      (stays : Stays s t (InGroup s head))
      (members : ∀ id, InGroup s head id → (t.req id).stage = .done)
      (error : (s.req head).fd.isSome → (t.fdError (s.req head).fd).isSome)
      (log : t.log = s.log) (calls : CallsStay s t fun _ => False) :
      Effect s t (.fulfillHead head frame)
  | sent {head : ReqId} (at_head : s.HeadAt head .picked) (stays : Stays s t (InGroup s head))
      (members : ∀ id, InGroup s head id → (t.req id).stage = .wound)
      (total : (t.req head).totalSize = (s.req head).totalSize + s.loadSize head)
      (errors : SameErrors s t) (log : t.log = .sent (s.childWrite head) :: s.log)
      (calls : CallsStay s t fun _ => False) :
      Effect s t (.fulfillHead head true)
  | acked {head : ReqId} {opRet : Int} {opErrno : Nat} (at_head : s.HeadAt head .wound)
      (bounds : -1 ≤ opRet ∧ opRet ≤ (s.childWrite head).data.length)
      (stays : Stays s t (InGroup s head))
      (members : ∀ id, InGroup s head id → (t.req id).stage = .replied)
      (error : opRet < (s.req head).totalSize → (s.req head).fd.isSome →
        (t.fdError (s.req head).fd).isSome)
      (errors : (s.req head).totalSize ≤ opRet → SameErrors s t)
      (log : t.log = .acked (s.childWrite head) opRet :: s.log)
      (calls : CallsStay s t fun _ => False) :
      Effect s t (.writeReply head opRet opErrno)

theorem stays_of_req {moved : ReqId → Prop} (hreq : t.req = s.req) : Stays s t moved :=
  fun _ _ _ => hreq ▸ ⟨rfl, rfl⟩

theorem stays_of_ne {moved : ReqId → Prop} (hid : ¬(s.req id).Live)
    (hother : ∀ other, other ≠ id → t.req other = s.req other) : Stays s t moved := by
  intro other hlive _
  rw [hother other fun h => hid (h ▸ hlive)]
  exact ⟨rfl, rfl⟩

theorem callsStay_of_ne (hother : ∀ other, other ≠ id → t.req other = s.req other) :
    CallsStay s t (· = id) :=
  fun other _ hne => by rw [hother other hne]

theorem QueueInv.callsStay (hinv : QueueInv s) (hhead : s.HeadAt head stage)
    (hsame : ∀ id, ¬InGroup s head id → (t.req id).stage = (s.req id).stage) :
    CallsStay s t fun _ => False := by
  intro id hcall _
  refine hsame id fun hid => ?_
  rw [(hinv.group_member hhead hid).1] at hcall
  cases hcall

theorem leave_req_of_ne {other : ReqId} (hne : other ≠ id) :
    (s.leave id stage).req other = s.req other := by
  rw [WbState.leave, WbState.unref_req, if_neg hne, WbState.modify_req_of_ne _ _ _ hne]

theorem leave_stage (s : WbState Byte) (id : ReqId) (stage : Stage) :
    ((s.leave id stage).req id).stage = stage := by
  rw [WbState.leave, WbState.unref_req, if_pos rfl, WbState.modify_req_self]
  rfl

section Effects

variable [Zero Byte] {conf : WbConf}

theorem effect_arrive (s : WbState Byte) (stub : CallStub Byte) :
    Passes s (s.arrive stub) ∧ Effect s (s.arrive stub) (.arrive stub) := by
  rw [WbState.arrive]
  split_ifs
  · obtain ⟨hreq, -, -, -, hlog⟩ := s.markBad_frame stub.fd
    exact ⟨passes_markBad .., .silent (stays_of_req hreq) (fun _ => (isSome_markBad ..).mp) hlog
      fun _ _ _ => congrArg WbRequest.stage (congrFun hreq _)⟩
  · exact ⟨passes_of_req rfl rfl fun _ h => h, .silent (stays_of_req rfl) (fun _ h => h) rfl
      fun _ _ _ => rfl⟩

theorem effect_unwind (hinv : QueueInv s) (hunwinds : (s.req id).unwinds = true) :
    Passes s (s.unwind id) ∧ Effect s (s.unwind id) (.unwind id) := by
  obtain ⟨htempted, hlie⟩ := (hinv.ok id).unwinds_lie hunwinds
  have hpasses : Passes s (s.unwind id) :=
    ((passes_modify ⟨rfl, rfl, rfl, rfl, fun h => h, Nat.le_refl _⟩).trans
      (passes_unref _ id)).trans (passes_record ..)
  have hsame (other : ReqId) : ((s.unwind id).req other).stage = (s.req other).stage ∧
      ((s.unwind id).req other).totalSize = (s.req other).totalSize := by
    rw [WbState.unwind, WbState.record_req, WbState.unref_req]
    split_ifs with h
    · subst h
      rw [WbState.modify_req_self]
      exact ⟨rfl, rfl⟩
    · rw [WbState.modify_req_of_ne _ _ _ h]
      exact ⟨rfl, rfl⟩
  refine ⟨hpasses, .unwound htempted hlie (fun other _ _ => hsame other) (fun fd h => ?_) ?_
    fun other _ _ => (hsame other).1⟩
  · simpa [WbState.unwind, WbState.record] using h
  · simp [WbState.unwind, WbState.record]

omit [Zero Byte] in
theorem leave_rest (s : WbState Byte) (id : ReqId) (stage : Stage) :
    (s.leave id stage).fdErr = s.fdErr ∧ (s.leave id stage).log = s.log := by
  simp [WbState.leave]

theorem effect_resume (hinv : QueueInv s) (frame : Bool) (htask : (s.req id).stage = .task) :
    Passes s (s.resume conf id frame) ∧ Effect s (s.resume conf id frame) (.resume id frame) := by
  have hcall := WbRequest.not_live ((hinv.ok id).task htask)
  have hleave (stage : Stage) (hrank : 1 ≤ stage.rank) : Passes s (s.leave id stage) :=
    passes_leave (by simp [htask]) (by rw [htask]; exact hrank)
  have hother {stage : Stage} (other : ReqId) (hne : other ≠ id) :
      (s.leave id stage).req other = s.req other := leave_req_of_ne hne
  have herrors (stage : Stage) : SameErrors s (s.leave id stage) := fun _ h =>
    (leave_rest s id stage).1 ▸ h
  have hlog (stage : Stage) := (leave_rest s id stage).2
  rw [WbState.resume]
  split_ifs with hfop
  · rw [WbState.flushHelper]
    split_ifs with herror hbehind hframe
    · set bad := s.markBad (s.req id).stub.fd with hbad
      have hreq : bad.req = s.req := (s.markBad_frame _).1
      have hpasses : Passes s ((bad.leave id .done).record (.replied id (-1))) :=
        ((passes_markBad s _).trans (passes_leave (by simp [htask])
          (by simp [htask, Stage.rank]))).trans (passes_record ..)
      have hothers (other : ReqId) (hne : other ≠ id) :
          ((bad.leave id .done).record (.replied id (-1))).req other = s.req other := by
        rw [WbState.record_req, leave_req_of_ne hne, hreq]
      refine ⟨hpasses, .refused htask (stays_of_ne hcall hothers) (fun fd h => ?_) ?_
        (callsStay_of_ne hothers) (leave_stage ..)⟩
      · refine (isSome_markBad s (s.req id).stub.fd fd).mp ?_
        rwa [← hbad, ← (leave_rest bad id .done).1]
      · change _ :: (bad.leave id .done).log = _
        rw [(leave_rest bad id .done).2, (s.markBad_frame _).2.2.2.2]
    · exact ⟨(hleave .wound (by decide)).trans (passes_record ..), .wound htask
        (fun _ => by simpa using herror) (stays_of_ne hcall hother) (herrors .wound)
        (.inl (congrArg _ (hlog .wound))) (callsStay_of_ne hother)⟩
    · exact ⟨(hleave .done (by decide)).trans (passes_record ..), .refused htask
        (stays_of_ne hcall hother) (herrors .done) (congrArg _ (hlog .done))
        (callsStay_of_ne hother) (leave_stage ..)⟩
    · exact ⟨((hleave .done (by decide)).trans (passes_record ..)).trans (passes_record ..),
        .wound htask (fun _ => by simpa using herror) (stays_of_ne hcall hother) (herrors .done)
        (.inr (congrArg (fun log => _ :: _ :: log) (hlog .done))) (callsStay_of_ne hother)⟩
  · exact ⟨(hleave .wound (by decide)).trans (passes_record ..), .wound htask
      (fun h => absurd h hfop) (stays_of_ne hcall hother) (herrors .wound)
      (.inl (congrArg _ (hlog .wound))) (callsStay_of_ne hother)⟩

theorem effect_callReply (opRet : Int) (htempted : (s.req id).tempted = false)
    (hwound : (s.req id).stage = .wound) :
    Passes s (s.callReply id opRet) ∧ Effect s (s.callReply id opRet) (.callReply id opRet) := by
  have hcall := WbRequest.not_live htempted
  have hlog := passes_record s (.replied id opRet)
  rw [WbState.callReply]
  split_ifs
  · have hother (other : ReqId) (hne : other ≠ id) :
        ((s.record (.replied id opRet)).leave id .done).req other = s.req other := by
      rw [leave_req_of_ne hne, WbState.record_req]
    refine ⟨hlog.trans (passes_leave (by simp [hwound]) (by simp [hwound, Stage.rank])),
      .replied htempted hwound (stays_of_ne hcall hother) (fun fd h => ?_) ?_
      (callsStay_of_ne hother)⟩
    · rwa [(leave_rest ..).1] at h
    · rw [(leave_rest ..).2]
      rfl
  · have hother (other : ReqId) (hne : other ≠ id) :
        ((s.record (.replied id opRet)).modify id fun req => { req with stage := .done }).req
          other = s.req other := by
      rw [WbState.modify_req_of_ne _ _ _ hne, WbState.record_req]
    exact ⟨hlog.trans (passes_modify (passStep_stage (by simp [hwound])
      (by simp [hwound, Stage.rank]))), .replied htempted hwound (stays_of_ne hcall hother)
      (fun _ h => h) rfl (callsStay_of_ne hother)⟩

omit [Zero Byte] in
theorem InGroup.of_passes (hpasses : Passes s t) : InGroup t head id ↔ InGroup s head id := by
  rw [InGroup, InGroup, (hpasses.record id).head]

omit [Zero Byte] in
theorem QueueInv.drop (hinv : QueueInv s) (hhead : s.HeadAt head .picked) (hquiet : Quiet s t)
    (hpasses : Passes s t) (hsame : ∀ id, ¬InGroup s head id →
      (t.req id).stage = (s.req id).stage ∧ (t.req id).totalSize = (s.req id).totalSize) :
    Passes s (t.wbHeadDone head) ∧ Stays s (t.wbHeadDone head) (InGroup s head) ∧
      (∀ id, InGroup s head id → ((t.wbHeadDone head).req id).stage = .done) ∧
      CallsStay s (t.wbHeadDone head) fun _ => False := by
  have hinv' := hinv.quiet hquiet
  have hhead' := hhead.quiet (by simp) hquiet
  have hkept (id : ReqId) (hid : ¬InGroup s head id) :
      ((t.wbHeadDone head).req id).stage = (s.req id).stage ∧
        ((t.wbHeadDone head).req id).totalSize = (s.req id).totalSize := by
    rw [hinv'.wbHeadDone_req_of_not_member hhead' (by simp)
      (fun h => hid ((InGroup.of_passes hpasses).mp h))]
    exact hsame id hid
  refine ⟨hpasses.trans (hinv'.passes_wbHeadDone hhead' (by simp)),
    fun id _ hid => hkept id hid, fun id hid => ?_,
    hinv.callsStay hhead fun id hid => (hkept id hid).1⟩
  · have hmember := (InGroup.of_passes hpasses).mpr hid
    rw [(hinv'.wbHeadDone hhead' (by simp)).2.2,
      if_pos ((hinv'.mem_group_iff hhead' (by simp)).mpr hmember)]
    rfl

omit [Zero Byte] in
theorem load_req_of_ne (hne : id ≠ head) : (s.load head).req id = s.req id :=
  WbState.modify_req_of_ne _ _ _ hne

omit [Zero Byte] in
theorem fdError_wbFulfillErr (head : ReqId) (errno : Nat) (hfd : (s.req head).fd.isSome) :
    ((s.wbFulfillErr head errno).fdError (s.req head).fd).isSome := by
  obtain ⟨fd, hfd⟩ := Option.isSome_iff_exists.mp hfd
  rw [hfd, WbState.fdError, Option.bind_some]
  exact (isSome_setFdErr ..).mpr (.inr hfd)

theorem effect_wbFulfillHead {frame : Bool} (hinv : QueueInv s) (hhead : s.HeadAt head .picked)
    (hstep : s.wbFulfillHead head frame = some t) :
    Passes s t ∧ Effect s t (.fulfillHead head frame) := by
  have hload := quiet_load hinv.toTracked hhead.1
  have hother (id : ReqId) (hid : ¬InGroup s head id) : (s.load head).req id = s.req id :=
    load_req_of_ne fun h => hid (.inl h)
  rcases wbFulfillHead_cases hstep with ⟨herror, rfl⟩ | ⟨hframe, rfl⟩ | ⟨hframe, _, rfl⟩
  · obtain ⟨hpasses, hstays, hmembers, hcalls⟩ := hinv.drop hhead
      (hload.trans (quiet_markBad _ (s.req head).fd))
      ((passes_load s head).trans (passes_markBad _ (s.req head).fd)) fun id hid => by
        rw [(WbState.markBad_frame ..).1, hother id hid]
        exact ⟨rfl, rfl⟩
    refine ⟨hpasses, .dropped hhead (.inl herror) hstays hmembers
      (fun _ => hpasses.fdError herror) ?_ hcalls⟩
    rw [WbState.wbHeadDone, (foldl_fulfillRequest_rest ..).2, (WbState.markBad_frame ..).2.2.2.2]
    rfl
  · set failed := (s.load head).wbFulfillErr head enomem with hfailed
    obtain ⟨hpasses, hstays, hmembers, hcalls⟩ := hinv.drop hhead
      (hload.trans (quiet_wbFulfillErr (hinv.quiet hload).toTracked head enomem))
      ((passes_load s head).trans (passes_wbFulfillErr _ head enomem)) fun id hid => by
        simp only [WbState.wbFulfillErr, hother id hid]
        split_ifs <;> exact ⟨rfl, rfl⟩
    have hrest := foldl_fulfillRequest_rest (failed.winds head ++ [head]) failed
    have hfd : ((s.load head).req head).fd = (s.req head).fd :=
      ((passes_load s head).keeps.fd head)
    refine ⟨hpasses, .dropped hhead (.inr hframe) hstays hmembers (fun hsome => ?_) ?_ hcalls⟩
    · rw [WbState.fdError, WbState.wbHeadDone, hrest.1, ← hfd]
      exact fdError_wbFulfillErr head enomem (hfd ▸ hsome)
    · exact hrest.2.trans (WbState.setFdErr_frame ..).2.2.2.2
  · subst hframe
    have hinv' := hinv.quiet hload
    have hhead' := hhead.quiet (by simp) hload
    have hgroup (id : ReqId) : InGroup (s.load head) head id ↔ InGroup s head id :=
      InGroup.of_passes (passes_load s head)
    have hpasses := (passes_load s head).trans
      (hinv'.passes_setStage .wound hhead' (by simp) (by decide))
    have hmember (id : ReqId) (hid : InGroup s head id) :=
      hinv'.setStage_req_of_member .wound hhead' (by simp) ((hgroup id).mpr hid)
    have hkept (id : ReqId) (hid : ¬InGroup s head id) :
        ((s.load head).setStage head .wound).req id = s.req id := by
      rw [hinv'.setStage_req_of_not_member .wound hhead' (by simp)
        (fun h => hid ((hgroup id).mp h)), hother id hid]
    refine ⟨hpasses.trans (passes_of_req rfl rfl fun _ h => h), .sent hhead (fun id _ hid => ?_)
      (fun id hid => ?_) ?_ (fun _ h => h) rfl
      (hinv.callsStay hhead fun id hid => congrArg WbRequest.stage (hkept id hid))⟩
    · exact ⟨congrArg WbRequest.stage (hkept id hid), congrArg WbRequest.totalSize (hkept id hid)⟩
    · change (((s.load head).setStage head .wound).req id).stage = _
      rw [hmember id hid]
    · change (((s.load head).setStage head .wound).req head).totalSize = _
      rw [hmember head (.inl rfl)]
      exact congrArg WbRequest.totalSize (WbState.modify_req_self ..)

omit [Zero Byte] in
theorem noteReply_cases (s : WbState Byte) (head : ReqId) (opRet : Int) (opErrno : Nat) :
    (opRet < (s.req head).totalSize ∧
        ∃ errno, s.noteReply head opRet opErrno = s.wbFulfillErr head errno) ∨
      ((s.req head).totalSize ≤ opRet ∧ s.noteReply head opRet opErrno = s) := by
  rw [WbState.noteReply]
  split_ifs with hfailed hshort
  · exact .inl ⟨by omega, opErrno, rfl⟩
  · exact .inl ⟨hshort, eio, rfl⟩
  · exact .inr ⟨Int.not_lt.mp hshort, rfl⟩

theorem effect_wbFulfillCbk {opRet : Int} {opErrno : Nat} (hinv : QueueInv s)
    (hhead : s.HeadAt head .wound)
    (hbounds : -1 ≤ opRet ∧ opRet ≤ (s.childWrite head).data.length) :
    Passes s (s.wbFulfillCbk head opRet opErrno) ∧
      Effect s (s.wbFulfillCbk head opRet opErrno) (.writeReply head opRet opErrno) := by
  have hquiet := quiet_noteReply hinv.toTracked head opRet opErrno
  have hnote := passes_noteReply s head opRet opErrno
  have hinv' := hinv.quiet hquiet
  have hhead' := hhead.quiet (by simp) hquiet
  have hpasses := hnote.trans (hinv'.passes_setStage .replied hhead' (by simp) (by decide))
  have hstays (id : ReqId) (hid : ¬InGroup s head id) :
      (((s.noteReply head opRet opErrno).setStage head .replied).req id) =
        (s.noteReply head opRet opErrno).req id :=
    hinv'.setStage_req_of_not_member .replied hhead' (by simp)
      fun h => hid ((InGroup.of_passes hnote).mp h)
  have hmembers (id : ReqId) (hid : InGroup s head id) :
      (((s.noteReply head opRet opErrno).setStage head .replied).req id).stage = .replied := by
    rw [hinv'.setStage_req_of_member .replied hhead' (by simp) ((InGroup.of_passes hnote).mpr hid)]
  have hstage (id : ReqId) : ((s.noteReply head opRet opErrno).req id).stage = (s.req id).stage ∧
        ((s.noteReply head opRet opErrno).req id).totalSize = (s.req id).totalSize := by
    rcases noteReply_cases s head opRet opErrno with ⟨_, errno, heq⟩ | ⟨_, heq⟩ <;> rw [heq]
    · simp only [WbState.wbFulfillErr]
      split_ifs <;> exact ⟨rfl, rfl⟩
    · exact ⟨rfl, rfl⟩
  have hkept (id : ReqId) (hid : ¬InGroup s head id) :
      ((s.wbFulfillCbk head opRet opErrno).req id).stage = (s.req id).stage ∧
        ((s.wbFulfillCbk head opRet opErrno).req id).totalSize = (s.req id).totalSize := by
    rw [WbState.wbFulfillCbk, WbState.record_req, hstays id hid]
    exact hstage id
  have hcalls : CallsStay s (s.wbFulfillCbk head opRet opErrno) fun _ => False :=
    hinv.callsStay hhead fun id hid => (hkept id hid).1
  refine ⟨hpasses.trans (passes_record ..), ?_⟩
  rcases noteReply_cases s head opRet opErrno with ⟨hshort, errno, heq⟩ | ⟨hfull, heq⟩
  · refine .acked hhead hbounds (fun id _ hid => hkept id hid) hmembers (fun _ hsome => ?_)
      (fun h => absurd hshort (Int.not_lt.mpr h)) ?_ hcalls
    · change ((s.noteReply head opRet opErrno).fdError (s.req head).fd).isSome
      rw [heq]
      exact fdError_wbFulfillErr head errno hsome
    · change _ :: (s.noteReply head opRet opErrno).log = _
      rw [heq]
      exact congrArg _ (WbState.setFdErr_frame ..).2.2.2.2
  · refine .acked hhead hbounds (fun id _ hid => hkept id hid) hmembers
      (fun h => absurd h (Int.not_lt.mpr hfull)) (fun _ fd h => ?_) ?_ hcalls
    · change ((s.noteReply head opRet opErrno).fdErr fd).isSome at h
      rwa [heq] at h
    · change _ :: (s.noteReply head opRet opErrno).log = _
      rw [heq]

omit [Zero Byte] in
/-- The requests of an answered group are no longer live. -/
theorem QueueInv.stays_wbHeadDone (hinv : QueueInv s) (hhead : s.HeadAt head .replied) :
    Stays s (s.wbHeadDone head) fun _ => False := by
  intro id hlive _
  have hid : ¬InGroup s head id := fun h =>
    hlive.stage_ne (by decide) (hinv.group_member hhead h).2
  rw [hinv.wbHeadDone_req_of_not_member hhead (by simp) hid]
  exact ⟨rfl, rfl⟩

theorem effect_headDone (hinv : QueueInv s) (hhead : s.HeadAt head .replied) :
    Passes s (s.wbHeadDone head) ∧ Effect s (s.wbHeadDone head) (.headDone head) := by
  have hrest := foldl_fulfillRequest_rest (s.winds head ++ [head]) s
  have hcalls : CallsStay s (s.wbHeadDone head) fun _ => False :=
    hinv.callsStay hhead fun id hid =>
      congrArg WbRequest.stage (hinv.wbHeadDone_req_of_not_member hhead (by simp) hid)
  refine ⟨hinv.passes_wbHeadDone hhead (by simp), .silent (hinv.stays_wbHeadDone hhead)
    (fun fd h => ?_) hrest.2 hcalls⟩
  rwa [WbState.wbHeadDone, hrest.1] at h

/-- A step queues a call, runs the locked section, or takes requests on, and keeps the invariant. -/
theorem wbStep_cases {label : WbLabel Byte} (hinv : QueueInv s)
    (hstep : wbStep conf s label = some t) :
    QueueInv t ∧
    ((∃ index stub, label = .enqueue index ∧ s.arriving[index]? = some stub ∧
        t = { s.enqueue conf stub with arriving := s.arriving.eraseIdx index }) ∨
      (∃ noIobuf, label = .process noIobuf ∧ t = wbProcessQueue conf noIobuf s) ∨
      (Passes s t ∧ Effect s t label)) := by
  cases label <;> simp only [wbStep, Option.ite_none_right_eq_some, Option.map_eq_some_iff,
    Option.some.injEq] at hstep
  case enqueue index =>
    obtain ⟨stub, hstub, rfl⟩ := hstep
    refine ⟨QueueInv.quiet (hinv.enqueueCommon fun h => ?_) (quiet_of_req rfl rfl rfl rfl),
      .inl ⟨index, stub, rfl, hstub, rfl⟩⟩
    exact of_decide_eq_true (Bool.and_eq_true_iff.mp h).1
  case process noIobuf =>
    subst hstep
    exact ⟨hinv.process noIobuf, .inr (.inl ⟨noIobuf, rfl, rfl⟩)⟩
  case arrive stub =>
    subst hstep
    exact ⟨hinv.quiet (quiet_arrive s stub), .inr (.inr (effect_arrive s stub))⟩
  case unwind id =>
    obtain ⟨hunwinds, rfl⟩ := hstep
    exact ⟨hinv.quiet (quiet_unwind hinv.toTracked hunwinds),
      .inr (.inr (effect_unwind hinv hunwinds))⟩
  case resume id frame =>
    obtain ⟨htask, rfl⟩ := hstep
    exact ⟨hinv.quiet (quiet_resume hinv.toTracked frame htask),
      .inr (.inr (effect_resume hinv frame htask))⟩
  case callReply id opRet =>
    obtain ⟨⟨htempted, hwound⟩, rfl⟩ := hstep
    exact ⟨hinv.quiet (quiet_callReply hinv.toTracked opRet htempted hwound),
      .inr (.inr (effect_callReply opRet htempted hwound))⟩
  case fulfillHead head frame =>
    exact ⟨hinv.wbFulfillHead hstep.1 hstep.2,
      .inr (.inr (effect_wbFulfillHead hinv hstep.1 hstep.2))⟩
  case writeReply head opRet opErrno =>
    obtain ⟨⟨hhead, hbounds⟩, rfl⟩ := hstep
    have hquiet := quiet_noteReply hinv.toTracked head opRet opErrno
    have hreplied := (hinv.quiet hquiet).setStage (hhead.quiet (by simp) hquiet) (.inr rfl)
      (.inr rfl)
    exact ⟨hreplied.2.quiet (quiet_record ..), .inr (.inr (effect_wbFulfillCbk hinv hhead hbounds))⟩
  case headDone head =>
    obtain ⟨hhead, rfl⟩ := hstep
    exact ⟨(hinv.wbHeadDone hhead (by simp)).2.1, .inr (.inr (effect_headDone hinv hhead))⟩

theorem queueInv_create : QueueInv (WbState.create : WbState Byte) where
  sorted := .nil
  mem_iff _ := by simp [WbState.create, WbRequest.blank]
  fresh _ _ := rfl
  ok _ := WbRequest.ok_blank
  gen_le _ h := by simp [WbState.create] at h
  gen_mono _ h := by simp [WbState.create] at h
  lies := ⟨fun _ h => by simp [WbState.create] at h, fun _ h => by simp [WbState.create] at h⟩
  groups _ _ h := by simp [WbState.create, WbRequest.blank] at h
  apart _ h := by simp [WbState.create] at h

theorem queueInv_of_reachableUnder {guard : WbState Byte → WbLabel Byte → Prop}
    (hreach : ReachableUnder (wbStep conf) guard WbState.create s) : QueueInv s :=
  hreach.invariant queueInv_create fun _ _ _ hinv _ hstep => (wbStep_cases hinv hstep).1

theorem wbProcessQueue_fixed {noIobuf : List ReqId} (hinv : QueueInv s) (id : ReqId) :
    ((wbProcessQueue conf noIobuf s).req id).fixed = (s.req id).fixed := by
  refine wbProcessQueue_preserves (fun t => (t.req id).fixed = (s.req id).fixed) hinv
    (collapsesSatisfy_true (s, none) s.todo) (fun hinv _ hmove h => ?_)
    (fun _ _ hmove h => ?_) (fun _ _ hmove h => ?_) (fun _ _ hmove h => ?_) rfl
  · exact ((hmove.quiet hinv.toTracked).record id).fixed.trans h
  all_goals exact (congrArg (·.1) (hmove.keeps.data id)).trans h

/-- What a request is about is settled when it is queued. -/
theorem wbStep_fixed {label : WbLabel Byte} (hinv : QueueInv s)
    (hstep : wbStep conf s label = some t) :
    s.next ≤ t.next ∧ ∀ id, id < s.next → (t.req id).fixed = (s.req id).fixed := by
  rcases (wbStep_cases hinv hstep).2 with ⟨index, stub, _, _, rfl⟩ | ⟨noIobuf, rfl, rfl⟩ |
    ⟨hpasses, _⟩
  · refine ⟨Nat.le_succ _, fun id hid => ?_⟩
    exact congrArg WbRequest.fixed (enqueueCommon_req_of_ne (Nat.ne_of_lt hid))
  · exact ⟨Nat.le_of_eq (wbProcessQueue_rest hinv).2.2.symm, fun id _ =>
      wbProcessQueue_fixed hinv id⟩
  · exact ⟨Nat.le_of_eq hpasses.next.symm, fun id _ =>
      congrArg (·.1) (hpasses.keeps.data id)⟩

end Effects

end GlusterFS.WriteBehind
