import GlusterFS.WriteBehind.Ordering

/-!
# Causality

A call that conflicts with a write whose success its caller may have seen is
not wound before the child has acknowledged the bytes of the write.
-/

namespace GlusterFS.WriteBehind

open GlusterFS.Transition

variable {Byte : Type*} {s t : WbState Byte} {id : ReqId}

/-- The event winds the call, or some of its bytes. -/
def Event.Winds (event : Event Byte) (id : ReqId) : Prop :=
  match event with
  | .wound other => other = id
  | .sent write => id ∈ write.carries.map Portion.id
  | _ => False

/-- The child has acknowledged a write that has all the bytes of a call. -/
def Acked (log : List (Event Byte)) (stub : CallStub Byte) : Prop :=
  ∃ write opRet, .acked write opRet ∈ log ∧ write.Contains stub

/-- No event of the log winds a call too early.  The log has the newest event
first. -/
def Causal (s : WbState Byte) : Prop :=
  ∀ newer event older, s.log = newer ++ event :: older →
    ∀ first second, UnwoundBefore older first second →
      Conflicts (s.req first).stub (s.req second).stub → event.Winds second →
      Acked older (s.req first).stub

/-- The condition under which write-behind keeps causality: what it collapses
keeps its bytes and its place, no holder is left on `temptation`, and nothing is
dropped. -/
def CausalGuard [Zero Byte] (conf : WbConf) (s : WbState Byte) : WbLabel Byte → Prop
  | .process noIobuf =>
    CollapsesSatisfy conf noIobuf
      (fun s holder id => HolderIntact s holder id ∧ KeepsPlace s holder id)
      (s, none) s.todo ∧
    TemptationsSingle (wbProcessQueue conf noIobuf s)
  | .fulfillHead head frame => frame = true ∧ s.fdError (s.req head).fd = none
  | _ => True

section Causality

variable [Zero Byte] {conf : WbConf}

instance (s : WbState Byte) (label : WbLabel Byte) : Decidable (CausalGuard conf s label) :=
  match label with
  | .process _ => inferInstanceAs (Decidable (CollapsesSatisfy .. ∧ _))
  | .fulfillHead _ frame => inferInstanceAs (Decidable (frame = true ∧ _))
  | .arrive _ | .enqueue _ | .unwind _ | .resume _ _ | .callReply _ _ | .writeReply _ _ _
  | .headDone _ => inferInstanceAs (Decidable True)

theorem causalGuard_orderly : Orderly conf (fun _ => True)
      (fun s holder id => HolderIntact s holder id ∧ KeepsPlace s holder id)
      (CausalGuard conf : WbState Byte → WbLabel Byte → Prop) where
  intact h := h.1
  place _ _ _ h _ _ _ := h.2
  collapses _ _ h := h.1
  single _ _ h := h.2

omit [Zero Byte] in
theorem Acked.append {log : List (Event Byte)} {stub : CallStub Byte} (hacked : Acked log stub)
    (events : List (Event Byte)) : Acked (events ++ log) stub := by
  obtain ⟨write, opRet, hmem, hcontains⟩ := hacked
  exact ⟨write, opRet, List.mem_append_right _ hmem, hcontains⟩

theorem wbStep_log {label : WbLabel Byte} (hinv : QueueInv s)
    (hstep : wbStep conf s label = some t) : ∃ events, t.log = events ++ s.log := by
  rcases (wbStep_cases hinv hstep).2 with ⟨index, stub, _, _, rfl⟩ | ⟨noIobuf, rfl, rfl⟩ |
    ⟨_, heffect⟩
  · exact ⟨[_], rfl⟩
  · exact ⟨[], (wbProcessQueue_rest hinv).1⟩
  · obtain ⟨events, hlog, _⟩ := heffect.events
    exact ⟨events, hlog⟩

theorem Content.contains_of_member (hcontent : Content s) (hinv : QueueInv s)
    {head carrier : ReqId} {stage : Stage} (hhead : s.HeadAt head stage)
    (hstage : stage ≠ .todo ∧ stage ≠ .done) (hmember : InGroup s head carrier)
    (hcarried : id ∈ (s.req carrier).carried) :
    (s.childWrite head).Contains (s.req id).stub := by
  have hmem : (s.req id).stub.portion id ∈ (s.childWrite head).carries :=
    List.mem_flatMap.mpr ⟨carrier, (hinv.mem_group_iff hhead hstage.2).mpr hmember,
      (hcontent.part_of_carried hcarried).1⟩
  exact (hcontent.childWrite_sound hinv hhead hstage).contains hmem

theorem causal_settles : Settles conf (CausalGuard conf) fun (s : WbState Byte) id =>
      Acked s.log (s.req id).stub where
  kept {s t label} hreach hstep id hid hacked := by
    have hinv := queueInv_of_reachableUnder hreach
    obtain ⟨events, hlog⟩ := wbStep_log hinv hstep
    have hstub : (t.req id).stub = (s.req id).stub :=
      congrArg (·.1) ((wbStep_fixed hinv hstep).2 id hid)
    rw [hlog, hstub]
    exact hacked.append events
  gone {s t label} hreach hallowed hpasses heffect carrier hlive hgone id hcarried := by
    have hinv := queueInv_of_reachableUnder hreach
    have hcontent := content_of_reachableUnder causalGuard_orderly.guards hreach
    rcases heffect.live_cases hpasses hlive with h | ⟨head, frame, rfl, _, _, hcause, _⟩ |
      ⟨head, opRet, opErrno, rfl, hhead, hmember, _, _, hlog⟩
    · exact absurd h hgone
    · obtain ⟨hframe, hnone⟩ : frame = true ∧ s.fdError (s.req head).fd = none := hallowed
      simp [hframe, hnone] at hcause
    · refine ⟨s.childWrite head, opRet, ?_, ?_⟩
      · rw [hlog]
        exact List.mem_cons_self
      · rw [hpasses.keeps.stub]
        exact hcontent.contains_of_member hinv hhead (by simp) hmember hcarried

variable {event : Event Byte}

omit [Zero Byte] in
theorem split_cons {last : Event Byte} {log newer older : List (Event Byte)}
    (hlog : last :: log = newer ++ event :: older) :
    event = last ∧ older = log ∨ ∃ newer', log = newer' ++ event :: older := by
  cases newer with
  | nil =>
    obtain ⟨rfl, rfl⟩ := List.cons.inj hlog
    exact .inl ⟨rfl, rfl⟩
  | cons _ newer =>
    obtain ⟨_, rfl⟩ := List.cons.inj hlog
    exact .inr ⟨newer, rfl⟩

/-- The step winds the call. -/
structure Winding (s : WbState Byte) (label : WbLabel Byte) (event : Event Byte) (id : ReqId) :
    Prop where
  started : ∃ waiting, (s.req waiting).stage ≠ .todo ∧ (s.req waiting).stage ≠ .done ∧
    id ∈ (s.req waiting).carried
  resumed : event = .wound id → (∃ frame, label = .resume id frame) ∧
    ((s.req id).stub.fop = .flush → s.fdError (s.req id).stub.fd = none)

/-- An event that winds a call is an old one, or the call has left the queue. -/
theorem Effect.winds {label : WbLabel Byte} (heffect : Effect s t label) (hinv : QueueInv s)
    (hcontent : Content s) {newer older : List (Event Byte)}
    (hsplit : t.log = newer ++ event :: older) (hwinds : event.Winds id) :
    (∃ newer', s.log = newer' ++ event :: older) ∨ older = s.log ∧ Winding s label event id := by
  have hone {last : Event Byte} (hlog : t.log = last :: s.log)
      (hlast : last.Winds id → Winding s label last id) :
      (∃ newer', s.log = newer' ++ event :: older) ∨ older = s.log ∧ Winding s label event id := by
    rcases split_cons (hlog.symm.trans hsplit) with ⟨rfl, rfl⟩ | h
    · exact .inr ⟨rfl, hlast hwinds⟩
    · exact .inl h
  cases heffect with
  | silent _ _ hlog => exact .inl ⟨newer, hlog.symm.trans hsplit⟩
  | unwound _ _ _ _ hlog => exact hone hlog False.elim
  | refused _ _ _ hlog => exact hone hlog False.elim
  | replied _ _ _ _ hlog => exact hone hlog False.elim
  | dropped _ _ _ _ _ hlog => exact .inl ⟨newer, hlog.symm.trans hsplit⟩
  | acked _ _ _ _ _ _ hlog => exact hone hlog False.elim
  | @wound resumed frame htask hflush _ _ hlog =>
    have hresumed : (Event.wound resumed : Event Byte).Winds id →
        Winding s (.resume resumed frame) (.wound resumed) id := by
      rintro rfl
      have hlt : resumed < s.next :=
        hinv.lt_next_of_field WbRequest.stage (by simp [htask, WbRequest.blank])
      exact ⟨⟨resumed, by simp [htask], by simp [htask],
        List.mem_map.mpr ⟨_, hcontent.own resumed hlt, rfl⟩⟩, fun _ => ⟨⟨frame, rfl⟩, hflush⟩⟩
    rcases hlog with hlog | hlog
    · exact hone hlog hresumed
    · rcases split_cons (hlog.symm.trans hsplit) with ⟨rfl, _⟩ | ⟨newer', hrest⟩
      · exact hwinds.elim
      · rcases split_cons hrest with ⟨rfl, rfl⟩ | h
        · exact .inr ⟨rfl, hresumed hwinds⟩
        · exact .inl h
  | @sent head hhead _ _ _ _ hlog =>
    refine hone hlog fun hsent => ?_
    have hsent : id ∈ (s.childWrite head).carries.map Portion.id := hsent
    simp only [WbState.childWrite, List.map_flatMap] at hsent
    obtain ⟨waiting, hmember, hmem⟩ := List.mem_flatMap.mp hsent
    have hstage := (hinv.group_member hhead ((hinv.mem_group_iff hhead (by simp)).mp hmember)).2
    exact ⟨⟨waiting, by simp [hstage], by simp [hstage], hmem⟩, by simp⟩

omit [Zero Byte] in
/-- What has left the queue does not wait for anything any more. -/
theorem Ordered.settled_of_started {watched : CallStub Byte → Prop}
    {settled : WbState Byte → ReqId → Prop} (hordered : Ordered watched s)
    (haccounted : Accounted settled s) {first second waiting : ReqId}
    (hawaits : Awaits watched s first second) (htodo : (s.req waiting).stage ≠ .todo)
    (hdone : (s.req waiting).stage ≠ .done) (hcarried : second ∈ (s.req waiting).carried) :
    settled s first := by
  obtain ⟨hlt, htempted⟩ := hordered.logged.of_unwoundBefore hawaits.1
  refine (haccounted first hlt htempted).resolve_right ?_
  rintro ⟨carrier, hlive, hfirst⟩
  exact htodo (hordered.inOrder first second hawaits carrier hlive hfirst waiting hdone hcarried).1

theorem answered_writes_first
    (hreach : ReachableUnder (wbStep conf) (CausalGuard conf) WbState.create s) : Causal s := by
  refine hreach.invariant_along Causal
    (fun newer event older h => absurd h.symm (by simp [WbState.create])) ?_
  intro before label after hbefore hallowed hstep hcausal newer event older hsplit first second
    hunwound hconflicts hwinds
  have hinv := queueInv_of_reachableUnder hbefore
  have hcontent := content_of_reachableUnder causalGuard_orderly.guards hbefore
  have hordered := ordered_of_reachableUnder causalGuard_orderly hbefore
  have haccounted := accounted_of_reachableUnder causalGuard_orderly.guards causal_settles hbefore
  -- the event is an old one, or it winds what has left the queue
  have hcases : (∃ newer', before.log = newer' ++ event :: older) ∨
      older = before.log ∧ Winding before label event second := by
    rcases (wbStep_cases hinv hstep).2 with ⟨index, stub, _, _, rfl⟩ | ⟨noIobuf, rfl, rfl⟩ |
      ⟨_, heffect⟩
    · rcases split_cons hsplit with ⟨rfl, _⟩ | h
      · exact hwinds.elim
      · exact .inl h
    · rw [(wbProcessQueue_rest hinv).1] at hsplit
      exact .inl ⟨newer, hsplit⟩
    · exact heffect.winds hinv hcontent hsplit hwinds
  have hsublog {event' : Event Byte} (hmem : event' ∈ older) : event' ∈ before.log := by
    rcases hcases with ⟨newer', hlog⟩ | ⟨rfl, _⟩
    · rw [hlog]
      exact List.mem_append_right _ (List.mem_cons_of_mem _ hmem)
    · exact hmem
  obtain ⟨hqueued, opRet, opErrno, hlogged⟩ := hunwound.mem
  have hfixed := (wbStep_fixed hinv hstep).2
  have hfirst : (after.req first).stub = (before.req first).stub :=
    congrArg (·.1) (hfixed first (hordered.logged.unwound first opRet opErrno (hsublog hlogged)).1)
  have hsecond : (after.req second).stub = (before.req second).stub :=
    congrArg (·.1) (hfixed second (hordered.logged.enqueued second (hsublog hqueued)))
  rw [hfirst, hsecond] at hconflicts
  rw [hfirst]
  rcases hcases with ⟨newer', hlog⟩ | ⟨rfl, ⟨waiting, htodo, hdone, hcarried⟩, _⟩
  · exact hcausal newer' event older hlog first second hunwound hconflicts hwinds
  · exact hordered.settled_of_started haccounted ⟨hunwound, hconflicts, trivial⟩ htodo
      hdone hcarried

/-- A read waits for the write before it, which is answered, sent and
acknowledged. -/
def readAfterWrite : List (WbLabel Nat) :=
  queueWrite 0 [[1, 2]] ++ [.process [], .unwind 0] ++ queueCall .read 0 2 ++
    [.process [], .fulfillHead 0 true, .writeReply 0 2 0, .headDone 0, .process [], .resume 1 true]

theorem answered_writes_first_read :
    ∃ s, run (wbStep windowConf) WbState.create readAfterWrite = some s ∧
      s.log.head? = some (.wound 1) ∧ Causal s := by
  obtain ⟨s, hrun⟩ : ∃ s, run (wbStep windowConf) WbState.create readAfterWrite = some s := ⟨_, rfl⟩
  have hlast : s.log.head? = some (.wound 1) := by
    cases hrun
    decide
  exact ⟨s, hrun, hlast, answered_writes_first (.of_run readAfterWrite .start (by decide) hrun)⟩

def smallWindowConf : WbConf := ⟨8, 1, false, false, false, false, 16, by decide⟩

/-- The window is full, so the second write stays on `temptation`.  The third
is collapsed into it, hence fulfilled, hence answered. -/
def answeredInTemptation : List (WbLabel Nat) :=
  queueWrite 100 [[1, 2]] ++ [.process [], .unwind 0] ++ queueWrite 0 [[1, 2]] ++ [.process []] ++
    queueWrite 2 [[3, 4]] ++ [.process [], .unwind 2] ++
    queueCall .read 2 2 ++ [.process [], .resume 3 true]

/-- The fourth write overlaps the second, which was answered.  It is collapsed
into the third, which is as old as the second. -/
def collapsedIntoOlder : List (WbLabel Nat) :=
  queueWrite 13 [[1, 2]] ++ [.process [], .unwind 0] ++ queueWrite 10 [[1, 2, 3, 4]] ++
    queueWrite 0 [[1, 2, 3, 4, 5, 6, 7, 8, 9, 10]] ++
    [.process [], .unwind 1] ++ queueWrite 10 [[3, 4]] ++
    queueWrite 50 [[3, 4]] ++ [.process [], .fulfillHead 2 true]

omit [Zero Byte] in
/-- A log that winds a call without any acknowledgement refutes causality. -/
theorem not_causal {newest older : List (Event Byte)} {first second : ReqId}
    (hlog : s.log = event :: (newest ++ .enqueued second :: older))
    (hnone : ∀ write opRet, .acked write opRet ∉ newest ++ .enqueued second :: older)
    (hwinds : event.Winds second) {opRet : Int} {opErrno : Nat}
    (hunwound : .unwound first opRet opErrno ∈ older) (hsuccess : 0 ≤ opRet)
    (hconflicts : Conflicts (s.req first).stub (s.req second).stub) : ¬Causal s := by
  intro hcausal
  obtain ⟨write, opRet, hmem, _⟩ := hcausal [] event _ hlog first second
    ⟨newest, older, opRet, opErrno, rfl, hunwound, hsuccess⟩ hconflicts hwinds
  exact hnone write opRet hmem

theorem causality_broken :
    (¬∀ s : WbState Nat, Reachable (wbStep smallWindowConf) WbState.create s → Causal s) ∧
      ¬∀ s : WbState Nat, Reachable (wbStep windowConf) WbState.create s → Causal s := by
  constructor
  · intro hall
    obtain ⟨s, hrun⟩ : ∃ s,
        run (wbStep smallWindowConf) WbState.create answeredInTemptation = some s := ⟨_, rfl⟩
    have hlog : s.log = .wound 3 :: ([] ++ .enqueued 3 ::
        [.unwound 2 2 0, .enqueued 2, .enqueued 1, .unwound 0 2 0, .enqueued 0]) := by
      cases hrun
      decide
    have hconflicts : Conflicts (s.req 2).stub (s.req 3).stub := by
      cases hrun
      exact .inl ⟨2, And.intro (by decide) (by decide), And.intro (by decide) (by decide)⟩
    exact not_causal hlog (by simp) rfl List.mem_cons_self (by decide) hconflicts
      (hall s (.of_run answeredInTemptation .start hrun))
  · intro hall
    obtain ⟨s, hrun⟩ : ∃ s,
        run (wbStep windowConf) WbState.create collapsedIntoOlder = some s := ⟨_, rfl⟩
    have hlog : s.log = .sent ⟨2, 0, [1, 2, 3, 4, 5, 6, 7, 8, 9, 10, 3, 4],
          [⟨2, 0, [1, 2, 3, 4, 5, 6, 7, 8, 9, 10]⟩, ⟨3, 10, [3, 4]⟩]⟩ ::
        ([.enqueued 4] ++ .enqueued 3 ::
          [.unwound 1 4 0, .enqueued 2, .enqueued 1, .unwound 0 2 0, .enqueued 0]) := by
      cases hrun
      decide
    have hconflicts : Conflicts (s.req 1).stub (s.req 3).stub := by
      cases hrun
      exact .inl ⟨10, And.intro (by decide) (by decide), And.intro (by decide) (by decide)⟩
    exact not_causal hlog (by simp) (show 3 ∈ [2, 3] by simp) List.mem_cons_self
      (by decide) hconflicts (hall s (.of_run collapsedIntoOlder .start hrun))

end Causality

end GlusterFS.WriteBehind
