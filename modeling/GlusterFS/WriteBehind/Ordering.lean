import GlusterFS.WriteBehind.Groups

/-!
# Calls that have to wait for answered writes

A call that is queued after a write was answered and that conflicts with it
waits while the bytes of the write have not been acknowledged: either what
carries them is a liability of an earlier generation, or it is in progress and
the call is a write.
-/

namespace GlusterFS.WriteBehind

open Relation GlusterFS.Transition GlusterFS.Tiling

variable {Byte : Type*} {s t : WbState Byte} {id : ReqId}

/-- The first call was answered with success when the second was queued.  The
log has the newest event first. -/
def UnwoundBefore (log : List (Event Byte)) (first second : ReqId) : Prop :=
  ∃ newer older opRet opErrno, log = newer ++ .enqueued second :: older ∧
    .unwound first opRet opErrno ∈ older ∧ 0 ≤ opRet

/-- The calls have a position in common, or the second is about the whole file. -/
def Conflicts (first second : CallStub Byte) : Prop :=
  (∃ position, first.Touches position ∧ second.Touches position) ∨
    ∀ position, second.Touches position

section Log

variable {log : List (Event Byte)} {event : Event Byte} {first second : ReqId}

theorem UnwoundBefore.append (h : UnwoundBefore log first second)
    (events : List (Event Byte)) : UnwoundBefore (events ++ log) first second := by
  obtain ⟨newer, older, opRet, opErrno, rfl, hmem, hret⟩ := h
  exact ⟨events ++ newer, older, opRet, opErrno, (List.append_assoc ..).symm, hmem, hret⟩

theorem unwoundBefore_cons (h : UnwoundBefore (event :: log) first second) :
    UnwoundBefore log first second ∨
      event = .enqueued second ∧ ∃ opRet opErrno, .unwound first opRet opErrno ∈ log := by
  obtain ⟨newer, older, opRet, opErrno, hlog, hmem, hret⟩ := h
  cases newer with
  | nil =>
    obtain ⟨rfl, rfl⟩ := List.cons.inj hlog
    exact .inr ⟨rfl, opRet, opErrno, hmem⟩
  | cons last newer =>
    obtain ⟨_, rfl⟩ := List.cons.inj hlog
    exact .inl ⟨newer, older, opRet, opErrno, rfl, hmem, hret⟩

theorem UnwoundBefore.of_cons (h : UnwoundBefore (event :: log) first second)
    (hevent : event ≠ .enqueued second) : UnwoundBefore log first second :=
  (unwoundBefore_cons h).resolve_right fun h => hevent h.1

theorem UnwoundBefore.mem (h : UnwoundBefore log first second) :
    .enqueued second ∈ log ∧ ∃ opRet opErrno, .unwound first opRet opErrno ∈ log := by
  obtain ⟨newer, older, opRet, opErrno, rfl, hmem, _⟩ := h
  exact ⟨by simp, opRet, opErrno, by simp [hmem]⟩

end Log

/-! ## Conflicts of calls and of requests -/

variable {holder : ReqId}

section Overlap

variable [Zero Byte] {carrier : ReqId}

theorem Content.covers (hcontent : Content s) (hinv : QueueInv s)
    (hid : id ∈ (s.req carrier).carried) {position : Nat}
    (hposition : (s.req id).stub.Touches position) : (s.req carrier).Covers position := by
  obtain ⟨hmem, hpart⟩ := hcontent.part_of_carried hid
  have hsingle (hcall : (s.req carrier).tempted = false) : id = carrier :=
    hcontent.single carrier hcall _ hmem
  by_cases hwrite : (s.req carrier).stub.fop = .write
  · have hidWrite : (s.req id).stub.fop = .write := by
      cases htempted : (s.req carrier).tempted with
      | true => exact (hinv.ok id).tempted_write (hpart.tempted.trans htempted)
      | false => rw [hsingle htempted, hwrite]
    refine (hcontent.loaded carrier hwrite).covers (hinv.ok carrier) hwrite hmem ?_
    rw [CallStub.Touches, hidWrite] at hposition
    exact hposition
  · have hcall : (s.req carrier).tempted = false := by
      by_contra h
      exact hwrite ((hinv.ok carrier).tempted_write (by simpa using h))
    rw [hsingle hcall] at hposition
    exact (hcontent.ordering carrier hwrite position).mpr hposition

theorem Content.overlap (hcontent : Content s) (hinv : QueueInv s) {left right : ReqId}
    {first second : ReqId} (hfirst : first ∈ (s.req left).carried)
    (hsecond : second ∈ (s.req right).carried)
    (hconflicts : Conflicts (s.req first).stub (s.req second).stub) :
    wbRequestsOverlap (s.req left) (s.req right) := by
  rw [wbRequestsOverlap_iff (hinv.ok left) (hinv.ok right)]
  rcases hconflicts with ⟨position, htouches, htouches'⟩ | hwhole
  · exact ⟨position, hcontent.covers hinv hfirst htouches, hcontent.covers hinv hsecond htouches'⟩
  · exact ⟨(s.req left).off, WbRequest.covers_off _, hcontent.covers hinv hsecond (hwhole _)⟩

omit [Zero Byte] in
theorem not_conflicts {first second : CallStub Byte} (hwrite : second.fop = .write)
    (hapart : ∀ position, ¬(first.Touches position ∧ second.Touches position)) :
    ¬Conflicts first second := by
  rintro (⟨position, h⟩ | hwhole)
  · exact hapart position h
  · have hbehind := hwhole (second.offset + second.bytes.length)
    rw [CallStub.Touches, hwrite] at hbehind
    exact Nat.lt_irrefl _ hbehind.2

theorem Content.collapsing_apart {conf : WbConf} (hcontent : Content s) (hinv : QueueInv s)
    (hcollapsing : Collapsing conf s holder id) {first second : ReqId}
    (hfirst : first ∈ (s.req holder).carried) (hsecond : second ∈ (s.req id).carried) :
    ¬Conflicts (s.req first).stub (s.req second).stub ∧
      ¬Conflicts (s.req second).stub (s.req first).stub := by
  have hholderWrite := (hinv.ok holder).tempted_write hcollapsing.holds.tempted
  have hidWrite := (hinv.ok id).tempted_write hcollapsing.queued.tempted
  obtain ⟨hfirstMem, hfirstPart⟩ := hcontent.part_of_carried hfirst
  obtain ⟨hsecondMem, hsecondPart⟩ := hcontent.part_of_carried hsecond
  have hfirstWrite : (s.req first).stub.fop = .write :=
    (hinv.ok first).tempted_write (hfirstPart.tempted.trans hcollapsing.holds.tempted)
  have hsecondWrite : (s.req second).stub.fop = .write :=
    (hinv.ok second).tempted_write (hsecondPart.tempted.trans hcollapsing.queued.tempted)
  have hloaded := hcontent.loaded holder hholderWrite
  have hapart (position : Nat) (hleft : (s.req first).stub.Touches position)
      (hright : (s.req second).stub.Touches position) : False := by
    rw [CallStub.Touches, hfirstWrite] at hleft
    rw [CallStub.Touches, hsecondWrite] at hright
    have hbefore := (hloaded.laid.occupied hfirstMem hleft).2
    have hbehind := ((hcontent.loaded id hidWrite).laid.occupied hsecondMem hright).1
    rw [← hloaded.unload, ← hloaded.writeSize] at hbefore
    rw [hcollapsing.follows.1] at hbehind
    omega
  exact ⟨not_conflicts hsecondWrite fun position h => hapart position h.1 h.2,
    not_conflicts hfirstWrite fun position h => hapart position h.2 h.1⟩

end Overlap

/-! ## What is exposed is a liability -/

/-- The log speaks of calls that have been queued. -/
structure Logged (s : WbState Byte) : Prop where
  enqueued : ∀ id, .enqueued id ∈ s.log → id < s.next
  unwound : ∀ id opRet opErrno, .unwound id opRet opErrno ∈ s.log →
    id < s.next ∧ (s.req id).tempted = true

theorem Logged.of_unwoundBefore (hlogged : Logged s) {first second : ReqId}
    (h : UnwoundBefore s.log first second) :
    first < s.next ∧ (s.req first).tempted = true := by
  obtain ⟨_, opRet, opErrno, hmem⟩ := h.mem
  exact hlogged.unwound first opRet opErrno hmem

/-- What carries an answered write is on `liability` until it is acknowledged. -/
def Liable (s : WbState Byte) : Prop :=
  ∀ id opRet opErrno, .unwound id opRet opErrno ∈ s.log → ∀ carrier,
    (s.req carrier).Live → id ∈ (s.req carrier).carried → (s.req carrier).lie = .liability

/-- No request that is still on `temptation` has taken in another one. -/
def TemptationsSingle (s : WbState Byte) : Prop :=
  ∀ id ∈ s.all, (s.req id).lie = .temptation → (s.req id).Live →
    ∀ portion ∈ (s.req id).carries, portion.id = id
  deriving Decidable

theorem Tracked.mem_of_live (htracked : Tracked s) (hlive : (s.req id).Live) : id ∈ s.all :=
  htracked.mem_of_stage hlive.1 (hlive.stage_ne (by decide))

theorem WbRequest.Ok.lie_of_live {req : WbRequest Byte} (hok : req.Ok) (hlive : req.Live) :
    req.lie = .temptation ∨ req.lie = .liability := by
  have hlie := hok.lie_of_tempted hlive.1 (hok.unfulfilled (hlive.stage_ne (by decide)))
  cases h : req.lie
  · exact absurd h hlie
  · exact .inl rfl
  · exact .inr rfl

section Moves

variable [Zero Byte] {conf : WbConf} {condition : WbState Byte → ReqId → ReqId → Prop}

/-- What one turn of the locked section does to the requests that are live. -/
structure LiveMove (s t : WbState Byte) : Prop where
  keeps : Keeps s t
  log : t.log = s.log
  live : ∀ id, (t.req id).Live → (s.req id).Live
  done : ∀ id, (t.req id).stage ≠ .done → (s.req id).stage ≠ .done
  lie : ∀ id, (s.req id).lie = .liability → (t.req id).lie = .liability
  wip : ∀ id, (s.req id).wip = true → (t.req id).wip = true

omit [Zero Byte] in
theorem Liable.liveMove (hliable : Liable s) (hmove : LiveMove s t) : Liable t := by
  intro id opRet opErrno hmem carrier hcarrier hcarries
  rw [hmove.log] at hmem
  rw [hmove.keeps.carried] at hcarries
  exact hmove.lie carrier
    (hliable id opRet opErrno hmem carrier (hmove.live carrier hcarrier) hcarries)

omit [Zero Byte] in
theorem liveMove_modify {f : WbRequest Byte → WbRequest Byte} (hkeeps : Keeps s t)
    (hlog : t.log = s.log) (hreq : t.req = (s.modify id f).req)
    (hstage : (s.req id).stage ≠ .done ∧ (s.req id).stage.rank ≤ 2 ∨
      (f (s.req id)).stage = (s.req id).stage)
    (hlie : (s.req id).lie = .liability → (f (s.req id)).lie = .liability)
    (hwip : (s.req id).wip = true → (f (s.req id)).wip = true) : LiveMove s t := by
  refine ⟨hkeeps, hlog, fun other h => ?_, fun other h => ?_, fun other h => ?_, fun other h => ?_⟩
  · refine ⟨hkeeps.tempted other ▸ h.1, ?_⟩
    have hrank := h.2
    rw [hreq, WbState.modify_req] at hrank
    split_ifs at hrank with heq
    · subst heq
      exact hstage.elim (fun h => h.2) fun h => h ▸ hrank
    · exact hrank
  · rw [hreq, WbState.modify_req] at h
    split_ifs at h with heq
    · subst heq
      exact hstage.elim (fun h => h.1) fun hsame => hsame ▸ h
    · exact h
  · rw [hreq, WbState.modify_req]
    split_ifs with heq
    · exact hlie (heq ▸ h)
    · exact h
  · rw [hreq, WbState.modify_req]
    split_ifs with heq
    · exact hwip (heq ▸ h)
    · exact h

omit [Zero Byte] in
theorem liveMove_setGo (s : WbState Byte) (id : ReqId) : LiveMove s (s.setGo id) :=
  liveMove_modify (keeps_modify rfl) rfl rfl (.inr rfl) (fun h => h) fun h => h

omit [Zero Byte] in
theorem PickMove.liveMove (hmove : PickMove conf s t) : LiveMove s t := by
  have hkeeps := hmove.keeps
  obtain @⟨id, hpicking⟩ := hmove
  refine liveMove_modify hkeeps rfl rfl (.inl ?_) (fun h => h) fun h => ?_
  · rw [hpicking.stage]
    decide
  · simp [WbRequest.pick, h]

omit [Zero Byte] in
theorem UnwindMove.liveMove (hmove : UnwindMove s t) : LiveMove s t := by
  have hkeeps := hmove.keeps
  obtain @⟨id, hpicking⟩ := hmove
  refine liveMove_modify hkeeps rfl rfl (.inr rfl) (fun h => ?_) fun h => h
  rw [hpicking.lie] at h
  cases h

omit [Zero Byte] in
theorem JoinMove.liveMove (hmove : JoinMove s t) : LiveMove s t := by
  have hkeeps := hmove.keeps
  obtain ⟨_⟩ := hmove
  exact liveMove_modify hkeeps rfl rfl (.inr rfl) (fun h => h) fun h => h

/-- How a collapse looks to the calls that wait. -/
structure CollapseView (s t : WbState Byte) (holder id : ReqId) : Prop where
  log : t.log = s.log
  stub : ∀ other, (t.req other).stub = (s.req other).stub
  gen : ∀ other, (t.req other).gen = (s.req other).gen
  wip : ∀ other, (t.req other).wip = (s.req other).wip
  lie : ∀ other, (t.req other).lie = (s.req other).lie
  live : ∀ other, (t.req other).Live → (s.req other).Live ∧ other ≠ id
  done : ∀ other, (t.req other).stage ≠ .done →
    (t.req other).stage = (s.req other).stage ∧ other ≠ id
  carried : ∀ other write, write ∈ (t.req other).carried →
    write ∈ (s.req other).carried ∨ other = holder ∧ write ∈ (s.req id).carried

theorem collapseView (hlt : holder < id) : CollapseView s (s.collapse holder id) holder id := by
  have hne : holder ≠ id := Nat.ne_of_lt hlt
  have hself : (s.collapse holder id).req holder = (s.req holder).absorb (s.req id) :=
    collapse_req_holder hne
  have hdone : (s.collapse holder id).req id = (s.req id).fulfill := collapse_req_id hne
  have hstage {other : ReqId} (hid : other ≠ id) :
      ((s.collapse holder id).req other).stage = (s.req other).stage := collapse_stage hne hid
  refine ⟨(WbState.fulfillRequest_frame ..).2.1, collapse_field WbRequest.stub hne rfl rfl,
    collapse_field WbRequest.gen hne rfl rfl, collapse_field WbRequest.wip hne rfl rfl,
    collapse_field WbRequest.lie hne rfl rfl,
    fun other h => ?_, fun other h => ?_, fun other write h => ?_⟩
  · have hid : other ≠ id := by
      rintro rfl
      exact h.stage_ne (show 2 < Stage.done.rank by decide) (congrArg WbRequest.stage hdone)
    refine ⟨⟨?_, ?_⟩, hid⟩
    · rw [← collapse_field WbRequest.tempted hne rfl rfl]
      exact h.1
    · rw [← hstage hid]
      exact h.2
  · have hid : other ≠ id := by
      rintro rfl
      rw [hdone] at h
      exact h rfl
    exact ⟨hstage hid, hid⟩
  · by_cases hholder : other = holder
    · subst hholder
      rw [hself, carried_absorb] at h
      rcases List.mem_append.mp h with h | h
      · exact .inl h
      · exact .inr ⟨rfl, h⟩
    · rw [WbRequest.carried, collapse_carries_of_ne hlt hholder] at h
      exact .inl h

theorem Collapsing.view (hcollapsing : Collapsing conf s holder id) :
    CollapseView s (s.collapse holder id) holder id :=
  collapseView hcollapsing.lt

/-- The holder of a collapsed liability is a liability too. -/
theorem Liable.collapse (hliable : Liable s) (hinv : QueueInv s)
    (hcollapsing : Collapsing conf s holder id) : Liable (s.collapse holder id) := by
  have hview := hcollapsing.view
  intro write opRet opErrno hmem carrier hcarrier hcarried
  rw [hview.log] at hmem
  rw [hview.lie]
  have hbefore := (hview.live carrier hcarrier).1
  rcases hview.carried carrier write hcarried with h | ⟨rfl, h⟩
  · exact hliable write opRet opErrno hmem carrier hbefore h
  · have hlive : (s.req id).Live :=
      ⟨hcollapsing.queued.tempted, by rw [hcollapsing.queued.stage]; decide⟩
    have hlie := hliable write opRet opErrno hmem id hlive h
    exact hinv.lies.first carrier hcollapsing.holds.mem id hcollapsing.queued.mem
      hcollapsing.lt hcollapsing.holds.tempted
      ((hinv.ok carrier).unfulfilled (by simp [hcollapsing.holds.stage]))
      ((hinv.ok id).unfulfilled (by simp [hcollapsing.queued.stage])) hlie

theorem Liable.preMove (hliable : Liable s) (hinv : QueueInv s)
    (hmove : PreMove conf condition s t) : Liable t := by
  cases hmove with
  | @go id _ => exact hliable.liveMove (liveMove_setGo s id)
  | collapse hcollapsing _ => exact hliable.collapse hinv hcollapsing

/-! ## Waiting -/

/-- The second call has to wait for the first. -/
def Awaits (watched : CallStub Byte → Prop) (s : WbState Byte) (first second : ReqId) : Prop :=
  UnwoundBefore s.log first second ∧ Conflicts (s.req first).stub (s.req second).stub ∧
    watched (s.req second).stub

/-- A request that is not picked before what carries earlier bytes is done. -/
def Behind (s : WbState Byte) (carrier waiting : ReqId) : Prop :=
  (s.req waiting).stage = .todo ∧ carrier ≠ waiting ∧ ((s.req carrier).gen < (s.req waiting).gen ∨
      (s.req carrier).wip = true ∧ (s.req waiting).stub.fop = .write)

/-- Whatever carries a watched call waits for the writes that it has to. -/
def InOrder (watched : CallStub Byte → Prop) (s : WbState Byte) : Prop :=
  ∀ first second, Awaits watched s first second →
    ∀ carrier, (s.req carrier).Live → first ∈ (s.req carrier).carried →
    ∀ waiting, (s.req waiting).stage ≠ .done → second ∈ (s.req waiting).carried →
      Behind s carrier waiting

/-- No queued liability that the request waits for is younger than the holder. -/
def KeepsPlace (s : WbState Byte) (holder id : ReqId) : Prop :=
  ∀ other ∈ s.liability, (s.req other).stage = .todo → other ≠ holder → other ≠ id →
    (s.req other).gen < (s.req id).gen → wbRequestsOverlap (s.req other) (s.req id) →
      (s.req other).gen < (s.req holder).gen
  deriving Decidable

variable {watched : CallStub Byte → Prop}

omit [Zero Byte] in
theorem InOrder.of_keeps (horder : InOrder watched s) (hkeeps : Keeps s t)
    (hlog : ∀ first second, UnwoundBefore t.log first second → UnwoundBefore s.log first second)
    (hlive : ∀ id, (t.req id).Live → (s.req id).Live)
    (hdone : ∀ id, (t.req id).stage ≠ .done → (s.req id).stage ≠ .done)
    (htodo : ∀ {first second carrier waiting}, UnwoundBefore s.log first second →
      Conflicts (s.req first).stub (s.req second).stub → (s.req carrier).Live →
      first ∈ (s.req carrier).carried → second ∈ (s.req waiting).carried →
      Behind s carrier waiting → (t.req waiting).stage = .todo)
    (hwip : ∀ id, (s.req id).wip = true → (t.req id).wip = true) : InOrder watched t := by
  intro first second hawaits carrier hcarrier hfirst waiting hwaiting hsecond
  rw [hkeeps.carried] at hfirst hsecond
  obtain ⟨hunwound, hconflicts, hwatched⟩ := hawaits
  rw [hkeeps.stub, hkeeps.stub] at hconflicts
  rw [hkeeps.stub] at hwatched
  have hbefore := hlog first second hunwound
  have hbehind := horder first second ⟨hbefore, hconflicts, hwatched⟩ carrier
    (hlive carrier hcarrier) hfirst waiting (hdone waiting hwaiting) hsecond
  refine ⟨htodo hbefore hconflicts (hlive carrier hcarrier) hfirst hsecond hbehind,
    hbehind.2.1, ?_⟩
  rw [hkeeps.gen, hkeeps.gen, hkeeps.stub]
  exact hbehind.2.2.imp_right fun h => ⟨hwip carrier h.1, h.2⟩

omit [Zero Byte] in
theorem InOrder.liveMove (horder : InOrder watched s) (hmove : LiveMove s t)
    (htodo : ∀ id, (s.req id).stage = .todo → (t.req id).stage = .todo) : InOrder watched t :=
  horder.of_keeps hmove.keeps (fun _ _ h => hmove.log ▸ h) hmove.live hmove.done
    (fun _ _ _ _ _ h => htodo _ h.1) hmove.wip

/-- `__wb_pick_winds` leaves alone what has to wait. -/
theorem InOrder.pickMove (horder : InOrder watched s) (hinv : QueueInv s)
    (hcontent : Content s) (hliable : Liable s) (hmove : PickMove conf s t) :
    InOrder watched t := by
  have hlive := hmove.liveMove
  obtain @⟨id, hpicking⟩ := hmove
  refine horder.of_keeps hlive.keeps (fun _ _ h => h) hlive.live hlive.done
    (fun {first _ carrier waiting} hunwound hconflicts hbefore hfirst hsecond hbehind => ?_)
    hlive.wip
  obtain ⟨hqueued, hne, hcase⟩ := hbehind
  have hoverlap := hcontent.overlap hinv hfirst hsecond hconflicts
  have hmem := hinv.mem_of_live hbefore
  have hnot : waiting ≠ id := by
    rintro rfl
    rcases hcase with hgen | ⟨hwip, hwrite⟩
    · obtain ⟨_, opRet, opErrno, hlogged⟩ := hunwound.mem
      have hlie := hliable first opRet opErrno hlogged carrier hbefore hfirst
      exact hpicking.liability ⟨carrier, WbState.mem_liability.mpr ⟨hmem, hlie⟩, hne, hgen,
        .inr (.inr hoverlap)⟩
    · exact hpicking.wip ⟨hwrite, carrier, WbState.mem_wip.mpr ⟨hmem, hwip⟩, hne, hoverlap⟩
  rw [pick_req_of_ne hnot]
  exact hqueued

omit [Zero Byte] in
theorem WbRequest.Ok.wip_of_live {req : WbRequest Byte} (hok : req.Ok) (hlive : req.Live)
    (hstage : req.stage ≠ .todo) : req.wip = true :=
  hok.wip_of_stage (hok.tempted_write hlive.1) hstage (hlive.stage_ne (by decide))

/-- A request that is collapsed waits in the place of the holder. -/
theorem InOrder.collapse (horder : InOrder watched s) (hinv : QueueInv s) (hcontent : Content s)
    (hliable : Liable s) (hcollapsing : Collapsing conf s holder id)
    (hplace : ∀ write ∈ (s.req id).carried, watched (s.req write).stub →
      KeepsPlace s holder id) : InOrder watched (s.collapse holder id) := by
  have hview := hcollapsing.view
  have hqueued : (s.req id).Live :=
    ⟨hcollapsing.queued.tempted, by rw [hcollapsing.queued.stage]; decide⟩
  intro first second hawaits carrier hcarrier hcarried waiting hwaiting hcarried'
  obtain ⟨hunwound, hconflicts, hwatched⟩ := hawaits
  rw [hview.log] at hunwound
  rw [hview.stub, hview.stub] at hconflicts
  rw [hview.stub] at hwatched
  obtain ⟨hlive, hcarrierNe⟩ := hview.live carrier hcarrier
  obtain ⟨hstage, hwaitingNe⟩ := hview.done waiting hwaiting
  have hbefore := horder first second ⟨hunwound, hconflicts, hwatched⟩
  rw [hstage] at hwaiting
  rw [Behind, hstage, hview.gen, hview.gen, hview.wip, hview.stub]
  rcases hview.carried carrier first hcarried with hfirst | ⟨rfl, hfirst⟩
  · rcases hview.carried waiting second hcarried' with hsecond | ⟨rfl, hsecond⟩
    · exact hbefore carrier hlive hfirst waiting hwaiting hsecond
    · -- the waiting call now sits in the holder
      obtain ⟨_, hne, hcase⟩ := hbefore carrier hlive hfirst id
        (by simp [hcollapsing.queued.stage]) hsecond
      have hnot : carrier ≠ waiting := by
        rintro rfl
        exact (hcontent.collapsing_apart hinv hcollapsing hfirst hsecond).1 hconflicts
      have hwrite := (hinv.ok waiting).tempted_write hcollapsing.holds.tempted
      refine ⟨hcollapsing.holds.stage, hnot, ?_⟩
      by_cases htodo : (s.req carrier).stage = .todo
      · rcases hcase with hgen | ⟨hwip, _⟩
        · obtain ⟨_, opRet, opErrno, hlogged⟩ := hunwound.mem
          have hlie := hliable first opRet opErrno hlogged carrier hlive hfirst
          exact .inl (hplace second hsecond hwatched carrier
            (WbState.mem_liability.mpr ⟨hinv.mem_of_live hlive, hlie⟩) htodo hnot hcarrierNe
            hgen (hcontent.overlap hinv hfirst hsecond hconflicts))
        · exact absurd htodo ((hinv.ok carrier).wip_write hwip).2
      · exact .inr ⟨(hinv.ok carrier).wip_of_live hlive htodo, hwrite⟩
  · -- the earlier bytes now sit in the holder, which is not younger
    have hold : ∀ waiting, (s.req waiting).stage ≠ .done →
        second ∈ (s.req waiting).carried → Behind s id waiting := hbefore id hqueued hfirst
    rcases hview.carried waiting second hcarried' with hsecond | ⟨rfl, hsecond⟩
    · obtain ⟨htodo, _, hcase⟩ := hold waiting hwaiting hsecond
      have hnot : carrier ≠ waiting := by
        rintro rfl
        exact (hcontent.collapsing_apart hinv hcollapsing hsecond hfirst).2 hconflicts
      refine ⟨htodo, hnot, ?_⟩
      rcases hcase with hgen | ⟨hwip, _⟩
      · exact .inl (Nat.lt_of_le_of_lt (hinv.gen_mono carrier hcollapsing.holds.mem id
          hcollapsing.queued.mem hcollapsing.lt) hgen)
      · exact absurd hcollapsing.queued.stage ((hinv.ok id).wip_write hwip).2
    · exact absurd rfl (hold id (by simp [hcollapsing.queued.stage]) hsecond).2.1

theorem InOrder.preMove (horder : InOrder watched s) (hinv : QueueInv s)
    (hcontent : Content s) (hliable : Liable s)
    (hplace : ∀ {holder id}, Collapsing conf s holder id → condition s holder id →
      ∀ write ∈ (s.req id).carried, watched (s.req write).stub → KeepsPlace s holder id)
    (hmove : PreMove conf condition s t) : InOrder watched t := by
  cases hmove with
  | @go id _ =>
    refine horder.liveMove (liveMove_setGo s id) fun other h => ?_
    exact (s.modify_field id _ WbRequest.stage rfl other).trans h
  | collapse hcollapsing hcondition =>
    exact horder.collapse hinv hcontent hliable hcollapsing (hplace hcollapsing hcondition)

end Moves

/-! ## Along every run -/

section Runs

variable [Zero Byte] {conf : WbConf} {watched : CallStub Byte → Prop}
variable {condition : WbState Byte → ReqId → ReqId → Prop}
variable {guard : WbState Byte → WbLabel Byte → Prop}

variable {noIobuf : List ReqId}

theorem CollapsesSatisfy.mono {weaker : WbState Byte → ReqId → ReqId → Prop}
    (hweaker : ∀ {s holder id}, condition s holder id → weaker s holder id)
    {loop : WbState Byte × Option ReqId} {ids : List ReqId}
    (h : CollapsesSatisfy conf noIobuf condition loop ids) :
    CollapsesSatisfy conf noIobuf weaker loop ids := by
  induction ids generalizing loop with
  | nil => trivial
  | cons id ids ih =>
    exact ⟨fun holder hholder htempted hfollows hmemory =>
      hweaker (h.1 holder hholder htempted hfollows hmemory), ih h.2⟩

/-- A guard under which the calls of a kind keep waiting. -/
structure Orderly (conf : WbConf) (watched : CallStub Byte → Prop)
    (condition : WbState Byte → ReqId → ReqId → Prop)
    (guard : WbState Byte → WbLabel Byte → Prop) : Prop where
  intact : ∀ {s holder id}, condition s holder id → HolderIntact s holder id
  place : ∀ {s holder id}, QueueInv s → Content s → Collapsing conf s holder id →
    condition s holder id → ∀ write ∈ (s.req id).carried, watched (s.req write).stub →
      KeepsPlace s holder id
  collapses : ∀ s noIobuf, guard s (.process noIobuf) →
    CollapsesSatisfy conf noIobuf condition (s, none) s.todo
  single : ∀ s noIobuf, guard s (.process noIobuf) →
    TemptationsSingle (wbProcessQueue conf noIobuf s)

theorem Orderly.guards (horderly : Orderly conf watched condition guard) :
    GuardsCollapses conf guard :=
  fun s noIobuf h => (horderly.collapses s noIobuf h).mono horderly.intact

/-- What holds between the steps about the calls that wait. -/
structure Ordered (watched : CallStub Byte → Prop) (s : WbState Byte) : Prop where
  logged : Logged s
  liable : Liable s
  single : TemptationsSingle s
  inOrder : InOrder watched s

variable {label : WbLabel Byte}

theorem Effect.events (heffect : Effect s t label) :
    ∃ events, t.log = events ++ s.log ∧ (∀ id, .enqueued id ∉ events) ∧
      ∀ id opRet opErrno, .unwound id opRet opErrno ∈ events →
        (s.req id).tempted = true ∧ (s.req id).lie ≠ .temptation := by
  cases heffect with
  | silent _ _ hlog => exact ⟨[], hlog, by simp, by simp⟩
  | unwound htempted hlie _ _ hlog =>
    refine ⟨[_], hlog, by simp, fun id opRet opErrno hmem => ?_⟩
    cases List.mem_singleton.mp hmem
    exact ⟨htempted, hlie⟩
  | refused _ _ _ hlog => exact ⟨[_], hlog, by simp, by simp⟩
  | wound _ _ _ _ hlog =>
    rcases hlog with hlog | hlog
    · exact ⟨[_], hlog, by simp, by simp⟩
    · exact ⟨[_, _], hlog, by simp, by simp⟩
  | replied _ _ _ _ hlog => exact ⟨[_], hlog, by simp, by simp⟩
  | dropped _ _ _ _ _ hlog => exact ⟨[], hlog, by simp, by simp⟩
  | sent _ _ _ _ _ hlog => exact ⟨[_], hlog, by simp, by simp⟩
  | acked _ _ _ _ _ _ hlog => exact ⟨[_], hlog, by simp, by simp⟩

omit [Zero Byte] in
theorem UnwoundBefore.of_append {events log : List (Event Byte)} {first second : ReqId}
    (h : UnwoundBefore (events ++ log) first second)
    (hevents : ∀ id, .enqueued id ∉ events) : UnwoundBefore log first second := by
  induction events with
  | nil => exact h
  | cons event events ih =>
    refine ih (h.of_cons ?_) fun id hid => hevents id (List.mem_cons_of_mem _ hid)
    rintro rfl
    exact hevents second List.mem_cons_self

theorem Ordered.effect (hordered : Ordered watched s) (hinv : QueueInv s) (hpasses : Passes s t)
    (heffect : Effect s t label) : Ordered watched t := by
  obtain ⟨events, hlog, hnoEnqueued, hunwound⟩ := heffect.events
  have hkeeps := hpasses.keeps
  constructor
  case logged =>
    constructor
    · intro id hid
      rw [hlog] at hid
      rw [hpasses.next]
      exact hordered.logged.enqueued id ((List.mem_append.mp hid).resolve_left (hnoEnqueued id))
    · intro id opRet opErrno hid
      rw [hlog] at hid
      rw [hpasses.next, hkeeps.tempted]
      rcases List.mem_append.mp hid with h | h
      · have htempted := (hunwound id opRet opErrno h).1
        exact ⟨hinv.lt_next_of_field WbRequest.tempted (by simp [htempted, WbRequest.blank]),
          htempted⟩
      · exact hordered.logged.unwound id opRet opErrno h
  case liable =>
    intro id opRet opErrno hid carrier hcarrier hcarried
    have hlive := (hpasses.record carrier).live hcarrier
    rw [hkeeps.carried] at hcarried
    rw [(hpasses.record carrier).lie]
    rw [hlog] at hid
    rcases List.mem_append.mp hid with h | h
    · -- the write leaves `temptation`, so what carries it has left before
      refine ((hinv.ok carrier).lie_of_live hlive).resolve_left fun hlie => ?_
      obtain ⟨portion, hportion, rfl⟩ := List.mem_map.mp hcarried
      have hself := hordered.single carrier (hinv.mem_of_live hlive) hlie hlive portion hportion
      exact (hunwound portion.id opRet opErrno h).2 (hself ▸ hlie)
    · exact hordered.liable id opRet opErrno h carrier hlive hcarried
  case single =>
    intro id _ hlie hlive portion hportion
    have hbefore := (hpasses.record id).live hlive
    rw [(hpasses.record id).lie] at hlie
    rw [hkeeps.carries] at hportion
    exact hordered.single id (hinv.mem_of_live hbefore) hlie hbefore portion hportion
  case inOrder =>
    refine hordered.inOrder.of_keeps hkeeps (fun first second h => ?_)
      (fun id => (hpasses.record id).live) (fun id => (hpasses.record id).not_done)
      (fun _ _ _ _ _ h => (hpasses.record _).todo h.1) fun id h => (hpasses.record id).wip.trans h
    rw [hlog] at h
    exact h.of_append hnoEnqueued

theorem Ordered.process (hordered : Ordered watched s) (hinv : QueueInv s) (hcontent : Content s)
    (horderly : Orderly conf watched condition guard) (hallowed : guard s (.process noIobuf)) :
    Ordered watched (wbProcessQueue conf noIobuf s) := by
  have hmoves : Content (wbProcessQueue conf noIobuf s) ∧ Liable (wbProcessQueue conf noIobuf s) ∧
      InOrder watched (wbProcessQueue conf noIobuf s) := by
    refine wbProcessQueue_preserves (fun s => Content s ∧ Liable s ∧ InOrder watched s) hinv
      (horderly.collapses s noIobuf hallowed) (fun hinv _ hmove h => ?_)
      (fun hinv _ hmove h => ?_) (fun _ _ hmove h => ?_) (fun _ _ hmove h => ?_)
      ⟨hcontent, hordered.liable, hordered.inOrder⟩
    · exact ⟨h.1.preMove hinv.ok horderly.intact hmove, h.2.1.preMove hinv hmove,
        h.2.2.preMove hinv h.1 h.2.1 (horderly.place hinv h.1) hmove⟩
    · exact ⟨h.1.keeps hmove.keeps, h.2.1.liveMove hmove.liveMove,
        h.2.2.pickMove hinv h.1 h.2.1 hmove⟩
    all_goals
      exact ⟨h.1.keeps hmove.keeps, h.2.1.liveMove hmove.liveMove,
        h.2.2.liveMove hmove.liveMove fun other hstage => (hmove.stage other).trans hstage⟩
  obtain ⟨hlog, _, hnext⟩ : (wbProcessQueue conf noIobuf s).log = s.log ∧ _ :=
    wbProcessQueue_rest hinv
  refine ⟨⟨?_, ?_⟩, hmoves.2.1, horderly.single s noIobuf hallowed, hmoves.2.2⟩
  · rw [hlog, hnext]
    exact hordered.logged.enqueued
  · intro id opRet opErrno hid
    rw [hlog] at hid
    rw [hnext, show ((wbProcessQueue conf noIobuf s).req id).tempted = (s.req id).tempted from
      congrArg (·.2.2.2.1) (wbProcessQueue_fixed hinv id)]
    exact hordered.logged.unwound id opRet opErrno hid

/-- A call that is queued comes after everything that has been answered. -/
theorem Ordered.enqueueCommon {stub : CallStub Byte} {tempted : Bool}
    (hordered : Ordered watched s) (hinv : QueueInv s) (hcontent : Content s) :
    Ordered watched (s.enqueueCommon stub tempted) := by
  have hself := enqueueCommon_req_next (s := s) stub tempted
  have hother {id : ReqId} (hne : id ≠ s.next) :
      (s.enqueueCommon stub tempted).req id = s.req id := enqueueCommon_req_of_ne hne
  have hnew : ((s.enqueueCommon stub tempted).req s.next).carried = [s.next] :=
    congrArg WbRequest.carried hself
  have hlog : (s.enqueueCommon stub tempted).log = .enqueued s.next :: s.log := rfl
  have hold {write carrier : ReqId} (hmem : write ∈ (s.req carrier).carried) :
      write < s.next := (hcontent.part_of_carried hmem).2.lt_next
  -- who carries an earlier call is an earlier request
  have hearlier {write carrier : ReqId} (hwrite : write < s.next)
      (hmem : write ∈ ((s.enqueueCommon stub tempted).req carrier).carried) :
      carrier ≠ s.next := by
    rintro rfl
    rw [hnew, List.mem_singleton] at hmem
    exact Nat.lt_irrefl _ (hmem ▸ hwrite)
  constructor
  case logged =>
    constructor
    · intro id hid
      rcases List.mem_cons.mp hid with h | h
      · cases h
        exact Nat.lt_succ_self _
      · exact Nat.lt_succ_of_lt (hordered.logged.enqueued id h)
    · intro id opRet opErrno hid
      rcases List.mem_cons.mp hid with h | h
      · cases h
      · obtain ⟨hlt, htempted⟩ := hordered.logged.unwound id opRet opErrno h
        rw [hother (Nat.ne_of_lt hlt)]
        exact ⟨Nat.lt_succ_of_lt hlt, htempted⟩
  case liable =>
    intro id opRet opErrno hid carrier hcarrier hcarried
    have hid : .unwound id opRet opErrno ∈ s.log := by simpa [hlog] using hid
    have hne := hearlier (hordered.logged.unwound id opRet opErrno hid).1 hcarried
    rw [hother hne] at hcarrier hcarried ⊢
    exact hordered.liable id opRet opErrno hid carrier hcarrier hcarried
  case single =>
    intro id hid hlie hlive portion hportion
    by_cases h : id = s.next
    · subst h
      rw [hself] at hportion
      cases List.mem_singleton.mp hportion
      rfl
    · rw [hother h] at hlie hlive hportion
      exact hordered.single id (hinv.mem_of_live hlive) hlie hlive portion hportion
  case inOrder =>
    intro first second hawaits carrier hcarrier hfirst waiting hwaiting hsecond
    obtain ⟨hunwound, hconflicts, hwatched⟩ := hawaits
    rw [hlog] at hunwound
    rcases unwoundBefore_cons hunwound with hunwound | ⟨hevent, opRet, opErrno, hlogged⟩
    · obtain ⟨hqueued, opRet, opErrno, hlogged⟩ := hunwound.mem
      have hfirstLt := (hordered.logged.unwound first opRet opErrno hlogged).1
      have hsecondLt := hordered.logged.enqueued second hqueued
      rw [hother (Nat.ne_of_lt hfirstLt), hother (Nat.ne_of_lt hsecondLt)] at hconflicts
      rw [hother (Nat.ne_of_lt hsecondLt)] at hwatched
      have hcarrierNe := hearlier hfirstLt hfirst
      have hwaitingNe := hearlier hsecondLt hsecond
      rw [hother hcarrierNe] at hcarrier hfirst
      rw [hother hwaitingNe] at hwaiting hsecond
      rw [Behind, hother hcarrierNe, hother hwaitingNe]
      exact hordered.inOrder first second ⟨hunwound, hconflicts, hwatched⟩ carrier hcarrier
        hfirst waiting hwaiting hsecond
    · cases hevent
      have hfirstLt := (hordered.logged.unwound first opRet opErrno hlogged).1
      have hcarrierNe := hearlier hfirstLt hfirst
      have hwaiting : waiting = s.next := by
        by_contra hne
        rw [hother hne] at hsecond
        exact Nat.lt_irrefl _ (hold hsecond)
      subst hwaiting
      rw [hother hcarrierNe] at hcarrier hfirst
      have hlie := hordered.liable first opRet opErrno hlogged carrier hcarrier hfirst
      have hgen := hinv.lies.gen_lt carrier (hinv.mem_of_live hcarrier) hlie
      rw [Behind, hother hcarrierNe, hself]
      exact ⟨rfl, hcarrierNe, .inl hgen⟩

omit [Zero Byte] in
theorem ordered_create : Ordered watched (WbState.create : WbState Byte) where
  logged := ⟨(fun _ h => nomatch h), (fun _ _ _ h => nomatch h)⟩
  liable _ _ _ h := nomatch h
  single _ h := nomatch h
  inOrder first second h := by
    obtain ⟨hmem, _⟩ := h.1.mem
    exact nomatch hmem

theorem ordered_of_reachableUnder (horderly : Orderly conf watched condition guard)
    (hreach : ReachableUnder (wbStep conf) guard WbState.create s) : Ordered watched s := by
  refine hreach.invariant_along (Ordered watched) ordered_create ?_
  intro before label after hbefore hallowed hstep hordered
  have hinv := queueInv_of_reachableUnder hbefore
  have hcontent := content_of_reachableUnder horderly.guards hbefore
  rcases (wbStep_cases hinv hstep).2 with ⟨index, stub, _, _, rfl⟩ | ⟨noIobuf, rfl, rfl⟩ |
    ⟨hpasses, heffect⟩
  · have hnew : Ordered watched (before.enqueue conf stub) :=
      hordered.enqueueCommon hinv hcontent
    exact ⟨⟨hnew.logged.enqueued, hnew.logged.unwound⟩, hnew.liable, hnew.single, hnew.inOrder⟩
  · exact hordered.process hinv hcontent horderly hallowed
  · exact hordered.effect hinv hpasses heffect

/-! ## Accounting for answered writes -/

/-- Something that the child has not acknowledged carries the write. -/
def WbState.InHand (s : WbState Byte) (id : ReqId) : Prop :=
  ∃ carrier, (s.req carrier).Live ∧ id ∈ (s.req carrier).carried

/-- Every buffered write is settled in some way or in hand. -/
def Accounted (settled : WbState Byte → ReqId → Prop) (s : WbState Byte) : Prop :=
  ∀ id, id < s.next → (s.req id).tempted = true → settled s id ∨ s.InHand id

/-- A buffered write that is no longer live was dropped or answered. -/
theorem Effect.live_cases (heffect : Effect s t label) (hpasses : Passes s t) {carrier : ReqId}
    (hlive : (s.req carrier).Live) : (t.req carrier).Live ∨
      (∃ head frame, label = .fulfillHead head frame ∧ s.HeadAt head .picked ∧
        InGroup s head carrier ∧
        ((s.fdError (s.req head).fd).isSome ∨ frame = false) ∧
        ((s.req head).fd.isSome → (t.fdError (s.req head).fd).isSome)) ∨
      ∃ head opRet opErrno, label = .writeReply head opRet opErrno ∧ s.HeadAt head .wound ∧
        InGroup s head carrier ∧
        (opRet < (s.req head).totalSize → (s.req head).fd.isSome →
          (t.fdError (s.req head).fd).isSome) ∧
        opRet ≤ (s.childWrite head).data.length ∧
        t.log = .acked (s.childWrite head) opRet :: s.log := by
  have htempted : (t.req carrier).tempted = true := (hpasses.keeps.tempted carrier).trans hlive.1
  have hkept {moved : ReqId → Prop} (hstays : Stays s t moved) (hnot : ¬moved carrier) :
      (t.req carrier).Live :=
    ⟨htempted, (hstays carrier hlive hnot).1 ▸ hlive.2⟩
  cases heffect with
  | silent hstays => exact .inl (hkept hstays not_false)
  | unwound _ _ hstays => exact .inl (hkept hstays not_false)
  | refused _ hstays => exact .inl (hkept hstays not_false)
  | wound _ _ hstays => exact .inl (hkept hstays not_false)
  | replied _ _ hstays => exact .inl (hkept hstays not_false)
  | @dropped head frame hhead hcause hstays _ herror =>
    by_cases hid : InGroup s head carrier
    · exact .inr (.inl ⟨head, frame, rfl, hhead, hid, hcause, herror⟩)
    · exact .inl (hkept hstays hid)
  | @sent head hhead hstays hmembers =>
    by_cases hid : InGroup s head carrier
    · exact .inl ⟨htempted, by rw [hmembers carrier hid]; decide⟩
    · exact .inl (hkept hstays hid)
  | @acked head opRet opErrno hhead hbounds hstays _ herror _ hlog =>
    by_cases hid : InGroup s head carrier
    · exact .inr (.inr ⟨head, opRet, opErrno, rfl, hhead, hid, herror, hbounds.2, hlog⟩)
    · exact .inl (hkept hstays hid)

variable {settled : WbState Byte → ReqId → Prop}

theorem InHand.preMove (hmove : PreMove conf condition s t) (hhand : s.InHand id) :
    t.InHand id := by
  obtain ⟨carrier, hlive, hcarried⟩ := hhand
  cases hmove with
  | @go other _ =>
    have hkeeps : Keeps s (s.setGo other) := keeps_modify rfl
    have hstage : ((s.setGo other).req carrier).stage = (s.req carrier).stage :=
      s.modify_field other _ WbRequest.stage rfl carrier
    refine ⟨carrier, ⟨(hkeeps.tempted carrier).trans hlive.1, hstage ▸ hlive.2⟩, ?_⟩
    rw [hkeeps.carried]
    exact hcarried
  | @collapse holder queued hcollapsing _ =>
    have hne : holder ≠ queued := Nat.ne_of_lt hcollapsing.lt
    have hself : ((s.collapse holder queued).req holder).carried =
        (s.req holder).carried ++ (s.req queued).carried := by
      rw [collapse_req_holder hne, carried_absorb]
    have hkept {other : ReqId} (hother : other ≠ queued) (hlive : (s.req other).Live) :
        ((s.collapse holder queued).req other).Live :=
      ⟨(collapse_field WbRequest.tempted hne rfl rfl other).trans hlive.1,
        collapse_stage (s := s) hne hother ▸ hlive.2⟩
    have hholder : (s.req holder).Live :=
      ⟨hcollapsing.holds.tempted, by rw [hcollapsing.holds.stage]; decide⟩
    by_cases hcarrier : carrier = queued
    · refine ⟨holder, hkept hne hholder, ?_⟩
      rw [hself]
      exact List.mem_append_right _ (hcarrier ▸ hcarried)
    · refine ⟨carrier, hkept hcarrier hlive, ?_⟩
      by_cases h : carrier = holder
      · subst h
        rw [hself]
        exact List.mem_append_left _ hcarried
      · rwa [WbRequest.carried, collapse_carries_of_ne hcollapsing.lt h]

omit [Zero Byte] in
theorem InHand.of_keeps (hkeeps : Keeps s t)
    (hrank : ∀ id, (s.req id).Live → (t.req id).stage.rank ≤ 2) (hhand : s.InHand id) :
    t.InHand id := by
  obtain ⟨carrier, hlive, hcarried⟩ := hhand
  refine ⟨carrier, ⟨(hkeeps.tempted carrier).trans hlive.1, hrank carrier hlive⟩, ?_⟩
  rw [hkeeps.carried]
  exact hcarried

omit [Zero Byte] in
theorem InHand.pickMove (hmove : PickMove conf s t) (hhand : s.InHand id) : t.InHand id := by
  have hkeeps := hmove.keeps
  obtain @⟨picked, _⟩ := hmove
  refine InHand.of_keeps hkeeps (fun other hlive => ?_) hhand
  by_cases h : other = picked
  · subst h
    rw [WbState.pick, WbState.modify_req_self]
    simp [WbRequest.pick, hlive.1, Stage.rank]
  · rw [pick_req_of_ne h]
    exact hlive.2

theorem InHand.process (hinv : QueueInv s) (hhand : s.InHand id) :
    (wbProcessQueue conf noIobuf s).InHand id :=
  wbProcessQueue_preserves (fun s => s.InHand id) hinv
    (collapsesSatisfy_true (s, none) s.todo) (fun _ _ hmove h => InHand.preMove hmove h)
    (fun _ _ hmove h => InHand.pickMove hmove h)
    (fun _ _ hmove h => InHand.of_keeps hmove.keeps
      (fun other hlive => hmove.stage other ▸ hlive.2) h)
    (fun _ _ hmove h => InHand.of_keeps hmove.keeps
      (fun other hlive => hmove.stage other ▸ hlive.2) h) hhand

theorem InHand.enqueueCommon {stub : CallStub Byte} {tempted : Bool} (hinv : QueueInv s)
    (htempted : ((s.enqueueCommon stub tempted).req id).tempted = true)
    (hhand : id < s.next → s.InHand id) (hid : id < s.next + 1) :
    (s.enqueueCommon stub tempted).InHand id := by
  by_cases h : id = s.next
  · subst h
    rw [enqueueCommon_req_next] at htempted
    refine ⟨s.next, ?_, ?_⟩ <;> rw [enqueueCommon_req_next]
    · exact ⟨htempted, Nat.zero_le _⟩
    · exact List.mem_singleton.mpr rfl
  · obtain ⟨carrier, hlive, hcarried⟩ :=
      hhand (Nat.lt_of_le_of_ne (Nat.le_of_lt_succ hid) h)
    have hne : carrier ≠ s.next := by
      rintro rfl
      have hblank := hlive.1
      rw [hinv.fresh s.next (Nat.le_refl _)] at hblank
      cases hblank
    refine ⟨carrier, ?_, ?_⟩ <;> rw [enqueueCommon_req_of_ne hne]
    · exact hlive
    · exact hcarried

/-- What is settled stays so, and what leaves the hands of write-behind is
settled. -/
structure Settles (conf : WbConf) (guard : WbState Byte → WbLabel Byte → Prop)
    (settled : WbState Byte → ReqId → Prop) : Prop where
  kept : ∀ {s t label}, ReachableUnder (wbStep conf) guard WbState.create s →
    wbStep conf s label = some t → ∀ id, id < s.next → settled s id → settled t id
  gone : ∀ {s t label}, ReachableUnder (wbStep conf) guard WbState.create s → guard s label →
    Passes s t → Effect s t label → ∀ carrier, (s.req carrier).Live → ¬(t.req carrier).Live →
    ∀ id ∈ (s.req carrier).carried, settled t id

theorem accounted_of_reachableUnder (hcollapses : GuardsCollapses conf guard)
    (hsettles : Settles conf guard settled)
    (hreach : ReachableUnder (wbStep conf) guard WbState.create s) : Accounted settled s := by
  refine hreach.invariant_along (Accounted settled) (fun _ h => absurd h (Nat.not_lt_zero _)) ?_
  intro before label after hbefore hallowed hstep haccounted id hid htempted
  have hinv := queueInv_of_reachableUnder hbefore
  have hcontent := content_of_reachableUnder hcollapses hbefore
  have hkept := hsettles.kept hbefore hstep id
  rcases (wbStep_cases hinv hstep).2 with ⟨index, stub, _, _, rfl⟩ | ⟨noIobuf, rfl, rfl⟩ |
    ⟨hpasses, heffect⟩
  · by_cases h : id < before.next ∧ settled before id
    · exact .inl (hkept h.1 h.2)
    · have hnew : (before.enqueue conf stub).InHand id := by
        refine InHand.enqueueCommon hinv htempted (fun hlt => ?_) hid
        have hold : (before.req id).tempted = true := by
          rwa [← enqueueCommon_req_of_ne (s := before) (Nat.ne_of_lt hlt)]
        exact (haccounted id hlt hold).resolve_left fun hsettled => h ⟨hlt, hsettled⟩
      exact .inr hnew
  · rw [(wbProcessQueue_rest hinv).2.2] at hid
    rw [show ((wbProcessQueue conf noIobuf before).req id).tempted = (before.req id).tempted from
      congrArg (·.2.2.2.1) (wbProcessQueue_fixed hinv id)] at htempted
    exact (haccounted id hid htempted).imp (hkept hid) (InHand.process hinv)
  · rw [hpasses.next] at hid
    rw [hpasses.keeps.tempted] at htempted
    rcases haccounted id hid htempted with h | ⟨carrier, hlive, hcarried⟩
    · exact .inl (hkept hid h)
    · by_cases hafter : (after.req carrier).Live
      · exact .inr ⟨carrier, hafter, (hpasses.keeps.carried carrier).symm ▸ hcarried⟩
      · exact .inl (hsettles.gone hbefore hallowed hpasses heffect carrier hlive hafter id hcarried)

end Runs

end GlusterFS.WriteBehind
