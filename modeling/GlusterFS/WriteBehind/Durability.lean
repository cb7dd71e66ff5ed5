import GlusterFS.WriteBehind.Causality

/-!
# Durability of answered writes

A flush or fsync that succeeds tells its caller that the writes answered before
it are with the child.  `wb_flush_helper` looks for an error of the fd when the
writes before it are through; fsync looks when it enters, and the writes that it
waits for may still fail.
-/

namespace GlusterFS.WriteBehind

open GlusterFS.Transition

variable {Byte : Type*} {s t : WbState Byte} {id : ReqId}

/-- The child has written all the bytes of a call. -/
def FullAcked (log : List (Event Byte)) (stub : CallStub Byte) : Prop :=
  ∃ write : ChildWrite Byte, .acked write write.data.length ∈ log ∧ write.Contains stub

def CallStub.IsSync (stub : CallStub Byte) : Prop := stub.fop = .flush ∨ stub.fop = .fsync

/-- What a flush or fsync that succeeded tells about the answered writes on its
fd. -/
def Durable (s : WbState Byte) : Prop :=
  ∀ newer id opRet older, s.log = newer ++ .replied id opRet :: older → 0 ≤ opRet →
    (s.req id).stub.IsSync → ∀ first, UnwoundBefore older first id →
    (s.req first).stub.fd = (s.req id).stub.fd →
    ∃ between before, older = between ++ .wound id :: before ∧ FullAcked before (s.req first).stub

/-- The condition under which this is so: an fsync is not wound on an fd that
has an error, what is collapsed keeps its bytes, and no holder is left on
`temptation`. -/
def DurableGuard [Zero Byte] (conf : WbConf) (s : WbState Byte) : WbLabel Byte → Prop
  | .process noIobuf =>
    CollapsesSatisfy conf noIobuf HolderIntact (s, none) s.todo ∧
    TemptationsSingle (wbProcessQueue conf noIobuf s)
  | .resume id _ => (s.req id).stub.fop = .fsync → s.fdError (s.req id).stub.fd = none
  | _ => True

section Durability

variable [Zero Byte] {conf : WbConf}

instance (s : WbState Byte) (label : WbLabel Byte) : Decidable (DurableGuard conf s label) :=
  match label with
  | .process _ => inferInstanceAs (Decidable (CollapsesSatisfy .. ∧ _))
  | .resume id _ => inferInstanceAs (Decidable ((s.req id).stub.fop = .fsync → _))
  | .arrive _ | .enqueue _ | .unwind _ | .fulfillHead _ _ | .callReply _ _ | .writeReply _ _ _
  | .headDone _ => inferInstanceAs (Decidable True)

theorem durableGuard_orderly : Orderly conf CallStub.IsSync HolderIntact
      (DurableGuard conf : WbState Byte → WbLabel Byte → Prop) where
  intact h := h
  place hinv hcontent hcollapsing _ write hcarried hsync := by
    have hpart := (hcontent.part_of_carried hcarried).2
    have hwrite := (hinv.ok write).tempted_write (hpart.tempted.trans hcollapsing.queued.tempted)
    rcases hsync with h | h <;> simp [hwrite] at h
  collapses _ _ h := h.1
  single _ _ h := h.2

omit [Zero Byte] in
theorem FullAcked.append {log : List (Event Byte)} {stub : CallStub Byte}
    (hacked : FullAcked log stub) (events : List (Event Byte)) :
    FullAcked (events ++ log) stub := by
  obtain ⟨write, hmem, hcontains⟩ := hacked
  exact ⟨write, List.mem_append_right _ hmem, hcontains⟩

theorem wbStep_fdError {label : WbLabel Byte} (hinv : QueueInv s)
    (hstep : wbStep conf s label = some t) {fd : Option Fd}
    (herror : (s.fdError fd).isSome) : (t.fdError fd).isSome := by
  rcases (wbStep_cases hinv hstep).2 with ⟨index, stub, _, _, rfl⟩ | ⟨noIobuf, rfl, rfl⟩ |
    ⟨hpasses, _⟩
  · exact herror
  · rwa [WbState.fdError, (wbProcessQueue_rest hinv).2.1]
  · exact hpasses.fdError herror

theorem Content.fd_of_member (hcontent : Content s) (hinv : QueueInv s) {head carrier : ReqId}
    {stage : Stage} (hhead : s.HeadAt head stage) (hmember : InGroup s head carrier)
    (hcarried : id ∈ (s.req carrier).carried) :
    (s.req head).fd = (s.req id).stub.fd ∧ (s.req head).fd.isSome := by
  have hpart := (hcontent.part_of_carried hcarried).2
  have htempted := hpart.tempted.trans (hinv.group_member hhead hmember).1
  have hwrite := (hinv.ok id).tempted_write htempted
  have hgroup : (s.req carrier).fd = (s.req head).fd := by
    rcases hmember with rfl | hrider
    · rfl
    · exact (hinv.groups carrier head hrider).fd
  have hfd : (s.req head).fd = (s.req id).stub.fd := by
    rw [← hgroup, ← hcontent.fd id hwrite]
    exact hpart.fd.symm
  refine ⟨hfd, ?_⟩
  rw [hfd]
  exact (s.req id).stub.fd_isSome (by rw [hwrite]; rfl)

/-- The bytes of a buffered write reach the child, or its fd gets an error. -/
theorem durable_settles : Settles conf (DurableGuard conf) fun (s : WbState Byte) id =>
      FullAcked s.log (s.req id).stub ∨ (s.fdError (s.req id).stub.fd).isSome where
  kept {s t label} hreach hstep id hid hsettled := by
    have hinv := queueInv_of_reachableUnder hreach
    obtain ⟨events, hlog⟩ := wbStep_log hinv hstep
    have hstub : (t.req id).stub = (s.req id).stub :=
      congrArg (·.1) ((wbStep_fixed hinv hstep).2 id hid)
    rw [hlog, hstub]
    exact hsettled.imp (fun h => h.append events) (wbStep_fdError hinv hstep)
  gone {s t label} hreach hallowed hpasses heffect carrier hlive hgone id hcarried := by
    have hinv := queueInv_of_reachableUnder hreach
    have hcontent := content_of_reachableUnder durableGuard_orderly.guards hreach
    rw [hpasses.keeps.stub]
    rcases heffect.live_cases hpasses hlive with h | ⟨head, frame, rfl, hhead, hmember, _, herror⟩ |
      ⟨head, opRet, opErrno, rfl, hhead, hmember, herror, hbound, hlog⟩
    · exact absurd h hgone
    · obtain ⟨hfd, hsome⟩ := hcontent.fd_of_member hinv hhead hmember hcarried
      exact .inr (hfd ▸ herror hsome)
    · obtain ⟨hfd, hsome⟩ := hcontent.fd_of_member hinv hhead hmember hcarried
      by_cases hshort : opRet < (s.req head).totalSize
      · exact .inr (hfd ▸ herror hshort hsome)
      · have htotal := (counted_of_reachableUnder hreach).full_reply hcontent hinv hhead
        have hfull : opRet = (s.childWrite head).data.length := by omega
        refine .inl ⟨s.childWrite head, ?_,
          hcontent.contains_of_member hinv hhead (by simp) hmember hcarried⟩
        rw [hlog, hfull]
        exact List.mem_cons_self

/-! ## What the log tells about resumed calls -/

/-- A call is with the child or was answered with success only after it was
wound. -/
structure WindsLogged (s : WbState Byte) : Prop where
  wound_lt : ∀ id, .wound id ∈ s.log → id < s.next
  inFlight : ∀ id, (s.req id).tempted = false → (s.req id).stage = .wound → .wound id ∈ s.log
  replied : ∀ newer id opRet older, s.log = newer ++ .replied id opRet :: older → 0 ≤ opRet →
    .wound id ∈ older

section

variable (hlogged : WindsLogged s)

include hlogged

omit [Zero Byte] in
theorem WindsLogged.of_same (hlog : t.log = s.log) (hnext : t.next = s.next)
    (hwound : ∀ id, (t.req id).tempted = false → (t.req id).stage = .wound →
      (s.req id).tempted = false ∧ (s.req id).stage = .wound) : WindsLogged t where
  wound_lt id hid := hnext ▸ hlogged.wound_lt id (hlog ▸ hid)
  inFlight id hcall hstage :=
    hlog ▸ hlogged.inFlight id (hwound id hcall hstage).1 (hwound id hcall hstage).2
  replied newer id opRet older hsplit := hlogged.replied newer id opRet older (hlog ▸ hsplit)

omit [Zero Byte] in
theorem WindsLogged.liveMove (hmove : LiveMove s t)
    (hstage : ∀ id, (t.req id).stage = .wound → (s.req id).stage = .wound) : WindsLogged t :=
  hlogged.of_same hmove.log hmove.keeps.next fun id hcall hwound =>
    ⟨hmove.keeps.tempted id ▸ hcall, hstage id hwound⟩

theorem WindsLogged.process {noIobuf : List ReqId} (hinv : QueueInv s) :
    WindsLogged (wbProcessQueue conf noIobuf s) := by
  refine wbProcessQueue_preserves WindsLogged hinv
    (collapsesSatisfy_true (s, none) s.todo) (fun hinv _ hmove h => ?_)
    (fun _ _ hmove h => ?_) (fun _ _ hmove h => ?_) (fun _ _ hmove h => ?_) hlogged
  · have hnext := (hmove.quiet hinv.toTracked).next
    cases hmove with
    | @go id _ =>
      refine h.liveMove (liveMove_setGo _ id) fun other hstage => ?_
      exact (WbState.modify_field _ id _ WbRequest.stage rfl other).symm.trans hstage
    | @collapse holder id hcollapsing _ =>
      have hne : holder ≠ id := Nat.ne_of_lt hcollapsing.lt
      have hview := hcollapsing.view
      refine h.of_same hview.log hnext fun other hcall hstage => ⟨?_, ?_⟩
      · exact (collapse_field WbRequest.tempted hne rfl rfl other).symm.trans hcall
      · exact (hview.done other (by simp [hstage])).1.symm.trans hstage
  · have hlive := hmove.liveMove
    obtain @⟨id, _⟩ := hmove
    refine h.liveMove hlive fun other hstage => ?_
    by_cases hother : other = id
    · subst hother
      rw [WbState.pick, WbState.modify_req_self, WbRequest.pick] at hstage
      revert hstage
      dsimp only
      intro h
      split_ifs at h
    · rwa [pick_req_of_ne hother] at hstage
  · exact h.liveMove hmove.liveMove fun other hstage => (hmove.stage other).symm.trans hstage
  · exact h.liveMove hmove.liveMove fun other hstage => (hmove.stage other).symm.trans hstage

theorem WindsLogged.enqueueCommon {stub : CallStub Byte} {tempted : Bool} :
    WindsLogged (s.enqueueCommon stub tempted) where
  wound_lt id hid := by
    refine Nat.lt_succ_of_lt (hlogged.wound_lt id ?_)
    exact (List.mem_cons.mp hid).resolve_left (fun h => nomatch h)
  inFlight id hcall hstage := by
    by_cases h : id = s.next
    · subst h
      rw [enqueueCommon_req_next] at hstage
      cases hstage
    · rw [enqueueCommon_req_of_ne h] at hcall hstage
      exact List.mem_cons_of_mem _ (hlogged.inFlight id hcall hstage)
  replied newer id opRet older hsplit hret := by
    rcases split_cons hsplit with ⟨h, _⟩ | ⟨newer', hlog⟩
    · cases h
    · exact hlogged.replied newer' id opRet older hlog hret

omit [Zero Byte] in
theorem WindsLogged.cons {event : Event Byte} (hlog : t.log = event :: s.log)
    (hnext : t.next = s.next) (hevent : ∀ id, event = .wound id → id < s.next)
    (hanswer : ∀ id opRet, event = .replied id opRet → 0 ≤ opRet → .wound id ∈ s.log)
    (hwound : ∀ id, (t.req id).tempted = false → (t.req id).stage = .wound →
      event = .wound id ∨ (s.req id).tempted = false ∧ (s.req id).stage = .wound) :
    WindsLogged t where
  wound_lt id hid := by
    rw [hlog] at hid
    rw [hnext]
    exact (List.mem_cons.mp hid).elim (fun h => hevent id h.symm) (hlogged.wound_lt id)
  inFlight id hcall hstage := by
    rw [hlog]
    rcases hwound id hcall hstage with rfl | h
    · exact List.mem_cons_self
    · exact List.mem_cons_of_mem _ (hlogged.inFlight id h.1 h.2)
  replied newer id opRet older hsplit hret := by
    rcases split_cons (hlog.symm.trans hsplit) with ⟨h, rfl⟩ | ⟨newer', hold⟩
    · exact hanswer id opRet h.symm hret
    · exact hlogged.replied newer' id opRet older hold hret

theorem WindsLogged.effect {label : WbLabel Byte} (hinv : QueueInv s) (hpasses : Passes s t)
    (heffect : Effect s t label) : WindsLogged t := by
  have hnext := hpasses.next
  have hback {id : ReqId} {moved : ReqId → Prop} (hcalls : CallsStay s t moved)
      (hnot : ¬moved id) (hcall : (t.req id).tempted = false) (hstage : (t.req id).stage = .wound) :
      (s.req id).tempted = false ∧ (s.req id).stage = .wound := by
    rw [hpasses.keeps.tempted] at hcall
    exact ⟨hcall, (hcalls id hcall hnot).symm.trans hstage⟩
  cases heffect with
  | silent _ _ hlog hcalls => exact hlogged.of_same hlog hnext fun id => hback hcalls not_false
  | dropped _ _ _ _ _ hlog hcalls =>
    exact hlogged.of_same hlog hnext fun id => hback hcalls not_false
  | unwound _ _ _ _ hlog hcalls =>
    exact hlogged.cons hlog hnext (by simp) (by simp)
      fun id hcall hstage => .inr (hback hcalls not_false hcall hstage)
  | sent _ _ _ _ _ hlog hcalls =>
    exact hlogged.cons hlog hnext (by simp) (by simp)
      fun id hcall hstage => .inr (hback hcalls not_false hcall hstage)
  | acked _ _ _ _ _ _ hlog hcalls =>
    exact hlogged.cons hlog hnext (by simp) (by simp)
      fun id hcall hstage => .inr (hback hcalls not_false hcall hstage)
  | @refused id _ _ _ _ hlog hcalls hdone =>
    refine hlogged.cons hlog hnext (by simp) (fun other opRet h hret => ?_)
      fun other hcall hstage => .inr (hback hcalls ?_ hcall hstage)
    · cases h
      exact absurd hret (by decide)
    · rintro rfl
      exact absurd (hdone.symm.trans hstage) (by decide)
  | @replied id opRet hcall hwound _ _ hlog hcalls =>
    refine hlogged.cons hlog hnext (by simp) (fun other opRet h _ => ?_)
      fun other hother hstage => .inr ?_
    · cases h
      exact hlogged.inFlight id hcall hwound
    · by_cases h : other = id
      · exact h ▸ ⟨hcall, hwound⟩
      · exact hback hcalls h hother hstage
  | @wound id _ htask _ _ _ hlog hcalls =>
    have hlt : id < s.next :=
      hinv.lt_next_of_field WbRequest.stage (by simp [htask, WbRequest.blank])
    -- the flush in the background is answered right after it was wound
    let middle : WbState Byte := { t with log := .wound id :: s.log }
    have hmiddle : WindsLogged middle := by
      refine hlogged.cons rfl hnext (fun other h => ?_) (by simp) fun other hother hstage => ?_
      · cases h
        exact hlt
      · by_cases h : other = id
        · exact .inl (h ▸ rfl)
        · exact .inr (hback hcalls h hother hstage)
    rcases hlog with hlog | hlog
    · exact hmiddle.of_same hlog rfl fun _ hcall hstage => ⟨hcall, hstage⟩
    · refine hmiddle.cons hlog rfl (by simp) (fun other opRet h _ => ?_)
        fun _ hcall hstage => .inr ⟨hcall, hstage⟩
      cases h
      exact List.mem_cons_self

end

omit [Zero Byte] in
theorem windsLogged_create : WindsLogged (WbState.create : WbState Byte) where
  wound_lt _ h := nomatch h
  inFlight _ _ h := nomatch h
  replied newer _ _ _ h := absurd h.symm (by simp [WbState.create])

theorem windsLogged_of_reachableUnder {guard : WbState Byte → WbLabel Byte → Prop}
    (hreach : ReachableUnder (wbStep conf) guard WbState.create s) : WindsLogged s := by
  refine hreach.invariant_along WindsLogged windsLogged_create ?_
  intro before label after hbefore _ hstep hlogged
  have hinv := queueInv_of_reachableUnder hbefore
  rcases (wbStep_cases hinv hstep).2 with ⟨index, stub, _, _, rfl⟩ | ⟨noIobuf, rfl, rfl⟩ |
    ⟨hpasses, heffect⟩
  · have hnew : WindsLogged (before.enqueue conf stub) := hlogged.enqueueCommon
    exact ⟨hnew.wound_lt, hnew.inFlight, hnew.replied⟩
  · exact hlogged.process hinv
  · exact hlogged.effect hinv hpasses heffect

/-! ## Waiting for the bytes -/

/-- A flush or fsync is wound after the child has the answered writes. -/
def SyncsLate (s : WbState Byte) : Prop :=
  ∀ newer id older, s.log = newer ++ .wound id :: older → (s.req id).stub.IsSync →
    ∀ first, UnwoundBefore s.log first id → (s.req first).stub.fd = (s.req id).stub.fd →
    FullAcked older (s.req first).stub

omit [Zero Byte] in
theorem conflicts_of_isSync {first second : CallStub Byte} (hsync : second.IsSync) :
    Conflicts first second := by
  refine .inr fun position => ?_
  rcases hsync with h | h <;> simp [CallStub.Touches, h]

theorem syncsLate_of_reachableUnder
    (hreach : ReachableUnder (wbStep conf) (DurableGuard conf) WbState.create s) :
    SyncsLate s := by
  refine hreach.invariant_along SyncsLate
    (fun newer id older h => absurd h.symm (by simp [WbState.create])) ?_
  intro before label after hbefore hallowed hstep hlate newer id older hsplit hsync first
    hunwound hfd
  have hinv := queueInv_of_reachableUnder hbefore
  have hcontent := content_of_reachableUnder durableGuard_orderly.guards hbefore
  have hordered := ordered_of_reachableUnder durableGuard_orderly hbefore
  have hlogged := windsLogged_of_reachableUnder hbefore
  have hfixed {other : ReqId} (hlt : other < before.next) :
      (after.req other).stub = (before.req other).stub :=
    congrArg (·.1) ((wbStep_fixed hinv hstep).2 other hlt)
  have hold {newer' : List (Event Byte)} (hlog : before.log = newer' ++ .wound id :: older)
      (hunwound : UnwoundBefore before.log first id) : FullAcked older (after.req first).stub := by
    have hmem : .wound id ∈ before.log := hlog ▸ List.mem_append_right _ List.mem_cons_self
    rw [hfixed (hlogged.wound_lt id hmem)] at hsync hfd
    rw [hfixed (hordered.logged.of_unwoundBefore hunwound).1] at hfd ⊢
    exact hlate newer' id older hlog hsync first hunwound hfd
  rcases (wbStep_cases hinv hstep).2 with ⟨index, stub, _, _, rfl⟩ | ⟨noIobuf, rfl, rfl⟩ |
    ⟨_, heffect⟩
  · rcases split_cons hsplit with ⟨h, _⟩ | ⟨newer', hlog⟩
    · cases h
    · refine hold hlog ((unwoundBefore_cons hunwound).resolve_right fun h => ?_)
      cases h.1
      exact Nat.lt_irrefl _ (hlogged.wound_lt before.next
        (hlog ▸ List.mem_append_right _ List.mem_cons_self))
  · rw [(wbProcessQueue_rest hinv).1] at hsplit hunwound
    exact hold hsplit hunwound
  · obtain ⟨events, hlog, hnoEnqueued, _⟩ := heffect.events
    have hunwound : UnwoundBefore before.log first id := (hlog ▸ hunwound).of_append hnoEnqueued
    have hwinds : (Event.wound id : Event Byte).Winds id := rfl
    rcases heffect.winds hinv hcontent hsplit hwinds with
      ⟨newer', hlog⟩ | ⟨rfl, ⟨waiting, htodo, hdone, hcarried⟩, hresumed⟩
    · exact hold hlog hunwound
    · obtain ⟨⟨frame, rfl⟩, hflush⟩ := hresumed rfl
      have hid : id < before.next := hordered.logged.enqueued id hunwound.mem.1
      rw [hfixed hid] at hsync hfd
      rw [hfixed (hordered.logged.of_unwoundBefore hunwound).1] at hfd ⊢
      have haccounted := accounted_of_reachableUnder durableGuard_orderly.guards durable_settles
        hbefore
      refine (hordered.settled_of_started haccounted ⟨hunwound, conflicts_of_isSync hsync, hsync⟩
        htodo hdone hcarried).resolve_right fun herror => ?_
      have hnone : before.fdError (before.req id).stub.fd = none :=
        hsync.elim hflush hallowed
      rw [hfd, hnone] at herror
      cases herror

theorem synced_writes_durable
    (hreach : ReachableUnder (wbStep conf) (DurableGuard conf) WbState.create s) : Durable s := by
  intro newer id opRet older hsplit hret hsync first hunwound hfd
  have hwound : .wound id ∈ older :=
    (windsLogged_of_reachableUnder hreach).replied newer id opRet older hsplit hret
  obtain ⟨between, before, rfl⟩ := List.append_of_mem hwound
  refine ⟨between, before, rfl, ?_⟩
  have hlog : s.log = (newer ++ .replied id opRet :: between) ++ .wound id :: before := by
    rw [hsplit, List.append_assoc, List.cons_append]
  refine syncsLate_of_reachableUnder hreach _ id before hlog hsync first ?_ hfd
  rw [hsplit, List.append_cons]
  exact hunwound.append _

/-- A write and an fsync behind it; the child answers the write. -/
def fsyncAfterWrite (opRet : Int) (opErrno : Nat) : List (WbLabel Nat) :=
  queueWrite 0 [[1, 2]] ++ [.process [], .unwind 0] ++ queueCall .fsync 0 0 ++
    [.process [], .fulfillHead 0 true, .writeReply 0 opRet opErrno, .headDone 0, .process [],
      .resume 1 true, .callReply 1 0]

theorem synced_writes_durable_fsync :
    ∃ s, run (wbStep windowConf) WbState.create (fsyncAfterWrite 2 0) = some s ∧
      s.log.head? = some (.replied 1 0) ∧ Durable s := by
  obtain ⟨s, hrun⟩ : ∃ s,
      run (wbStep windowConf) WbState.create (fsyncAfterWrite 2 0) = some s := ⟨_, rfl⟩
  have hlast : s.log.head? = some (.replied 1 0) := by
    cases hrun
    decide
  exact ⟨s, hrun, hlast,
    synced_writes_durable (.of_run (fsyncAfterWrite 2 0) .start (by decide) hrun)⟩

/-- The write fails, and the fsync that waited for it succeeds. -/
theorem failed_write_fsynced :
    ¬∀ s : WbState Nat, Reachable (wbStep windowConf) WbState.create s → Durable s := by
  intro hall
  obtain ⟨s, hrun⟩ : ∃ s,
      run (wbStep windowConf) WbState.create (fsyncAfterWrite (-1) 28) = some s := ⟨_, rfl⟩
  have hlog : s.log = .replied 1 0 :: [.wound 1, .acked ⟨0, 0, [1, 2], [⟨0, 0, [1, 2]⟩]⟩ (-1),
      .sent ⟨0, 0, [1, 2], [⟨0, 0, [1, 2]⟩]⟩, .enqueued 1, .unwound 0 2 0, .enqueued 0] := by
    cases hrun
    decide
  have hcalls : (s.req 1).stub.fop = .fsync ∧ (s.req 0).stub.fd = (s.req 1).stub.fd := by
    cases hrun
    decide
  obtain ⟨between, before, hsplit, write, hacked, _⟩ :=
    hall s (.of_run (fsyncAfterWrite (-1) 28) .start hrun) [] 1 0 _ hlog (by decide)
      (.inr hcalls.1) 0 ⟨[.wound 1, .acked _ (-1), .sent _], [.unwound 0 2 0, .enqueued 0], 2, 0,
        rfl, List.mem_cons_self, by decide⟩ hcalls.2
  have hmem : .acked write write.data.length ∈ between ++ .wound 1 :: before :=
    List.mem_append_right _ (List.mem_cons_of_mem _ hacked)
  rw [← hsplit] at hmem
  simp at hmem

end Durability

end GlusterFS.WriteBehind
