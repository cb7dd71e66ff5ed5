import GlusterFS.WriteBehind.Tracking

/-!
# The queue along every run

The moves under the lock and the steps around them keep the invariant of the
queue.
-/

namespace GlusterFS.WriteBehind

open Relation GlusterFS.Transition

variable {Byte : Type*} {s t : WbState Byte} {id : ReqId}

/-! ## The moves under the lock -/

theorem Evolves.toQuiet (hevolves : Evolves s t) (id : ReqId)
    (hother : ∀ other, other ≠ id → t.req other = s.req other)
    (hstep : QuietStep (s.req id) (t.req id)) : Quiet s t := by
  refine ⟨hevolves, fun other => ?_⟩
  by_cases h : other = id
  · exact h ▸ hstep
  · exact hother other h ▸ .refl _

theorem quiet_modify {f : WbRequest Byte → WbRequest Byte} (hid : id < s.next)
    (hstep : QuietStep (s.req id) (f (s.req id)))
    (hrefcount : (f (s.req id)).refcount = (s.req id).refcount) :
    Quiet s (s.modify id f) := by
  refine Evolves.toQuiet
    (evolves_modify hid hstep.toRecordStep (fun _ h => hrefcount ▸ h) rfl rfl (Nat.le_refl _) rfl)
    id (fun other hne => WbState.modify_req_of_ne _ _ _ hne) ?_
  rw [WbState.modify_req_self]
  exact hstep

theorem quiet_unref (f : WbRequest Byte → WbRequest Byte) (hid : id < s.next)
    (hstep : QuietStep (s.req id) (f (s.req id)).dropRef)
    (hrefcount : (f (s.req id)).refcount = (s.req id).refcount)
    (hmiddle : t.req = (s.modify id f).req) (hnext : t.next = s.next)
    (hall : t.all = s.all) (hgen : t.gen = s.gen) : Quiet s (t.unref id) := by
  refine Evolves.toQuiet (evolves_unref f hid hstep.toRecordStep hrefcount hmiddle hnext hall hgen)
    id (fun other hne => ?_) ?_
  · rw [WbState.unref_req, if_neg hne, hmiddle, WbState.modify_req_of_ne _ _ _ hne]
  · rw [WbState.unref_req, if_pos rfl, hmiddle, WbState.modify_req_self]
    exact hstep

theorem evolves_fulfillRequest (hid : id < s.next) (htempted : (s.req id).tempted = true)
    (hstage : (s.req id).stage ≠ .done) : Evolves s (s.fulfillRequest id) :=
  evolves_unref (fun req => { req with fulfilled := true, stage := .done }) hid
    (recordStep_fulfill htempted hstage) rfl rfl rfl rfl rfl

theorem Tracked.lt_next_of_mem (htracked : Tracked s) (hid : id ∈ s.all) : id < s.next :=
  htracked.lt_next ((htracked.mem_iff id).mp hid)

theorem quiet_collapse [Zero Byte] {conf : WbConf} {holder : ReqId} (htracked : Tracked s)
    (hcollapsing : Collapsing conf s holder id) : Quiet s (s.collapse holder id) := by
  obtain ⟨hholder, hid, hlt, hfollows⟩ := hcollapsing
  have hne : id ≠ holder := Nat.ne_of_gt hlt
  have hsize : (s.req holder).writeSize + (s.req id).writeSize < 2 ^ 63 := by
    have hpage := conf.pageSize_lt
    have hspace := hfollows.2.2.2
    omega
  have habsorb : Quiet s (s.modify holder fun req => req.absorb (s.req id)) :=
    quiet_modify (htracked.lt_next_of_mem hholder.mem)
      (quietStep_absorb hholder.stage hsize hholder.tempted) rfl
  refine habsorb.trans ?_
  have hsame : (s.modify holder fun req => req.absorb (s.req id)).req id = s.req id :=
    WbState.modify_req_of_ne _ _ _ hne
  refine quiet_unref (fun req => { req with fulfilled := true, stage := .done })
    (htracked.lt_next_of_mem hid.mem) ?_ rfl rfl rfl rfl rfl
  rw [hsame]
  exact quietStep_collapsed hid.tempted hid.stage

theorem PreMove.quiet [Zero Byte] {conf : WbConf}
    {condition : WbState Byte → ReqId → ReqId → Prop} (htracked : Tracked s)
    (hmove : PreMove conf condition s t) : Quiet s t := by
  cases hmove with
  | go hid => exact quiet_modify (htracked.lt_next_of_mem hid) (quietStep_fields ..) rfl
  | collapse hcollapsing _ => exact quiet_collapse htracked hcollapsing

theorem PickMove.evolves {conf : WbConf} (htracked : Tracked s) (hmove : PickMove conf s t) :
    Evolves s t := by
  obtain ⟨hpicking⟩ := hmove
  refine evolves_modify (htracked.lt_next_of_mem hpicking.mem) (recordStep_pick hpicking.stage)
    (fun _ h => ?_) rfl rfl (Nat.le_refl _) rfl
  simp only [WbRequest.pick] at h
  split_ifs at h
  exact h

theorem wbRequestsOverlap_comm {left right : WbRequest Byte} :
    wbRequestsOverlap left right ↔ wbRequestsOverlap right left :=
  and_comm

/-- The write that is picked overlaps nothing in progress. -/
theorem QueueInv.pickMove {conf : WbConf} (hinv : QueueInv s) (hmove : PickMove conf s t) :
    QueueInv t := by
  have hevolves := hmove.evolves hinv.toTracked
  obtain @⟨id, hpicking⟩ := hmove
  have hfield {α : Type} (field : WbRequest Byte → α)
      (hsame : field (s.req id).pick = field (s.req id)) (other : ReqId) :
      field ((s.pick id).req other) = field (s.req other) :=
    s.modify_field id _ field hsame other
  refine ⟨hinv.toTracked.evolves hevolves, ?_, ?_, ?_⟩
  · exact hinv.lies.evolves hevolves fun other hlie => hfield WbRequest.lie rfl other ▸ hlie
  · refine hinv.groups.evolves hevolves (hfield WbRequest.head rfl) fun other _ hstage => ?_
    have hne : other ≠ id := fun h => hstage (by rw [h]; exact hpicking.stage)
    rw [pick_req_of_ne hne]
  · have hnew (other : ReqId) (hmem : other ∈ s.all) (hne : other ≠ id)
        (hwip : (s.req other).wip = true) (hself : ((s.pick id).req id).wip = true) :
        ¬wbRequestsOverlap (s.req other) (s.req id) := by
      have hwrite : (s.req id).stub.fop = .write := by
        rw [WbState.pick, WbState.modify_req_self] at hself
        rcases Bool.or_eq_true_iff.mp hself with h | h
        · exact ((hinv.ok id).wip_write h).1
        · exact of_decide_eq_true h
      exact fun hoverlap => hpicking.wip
        ⟨hwrite, other, WbState.mem_wip.mpr ⟨hmem, hwip⟩, hne, hoverlap⟩
    have hrange (i j : ReqId) : wbRequestsOverlap ((s.pick id).req i) ((s.pick id).req j) ↔
        wbRequestsOverlap (s.req i) (s.req j) := by
      simp only [wbRequestsOverlap, WbRequest.rangeEnd, hfield WbRequest.off rfl,
        hfield WbRequest.size rfl]
    intro i hi j hj hne hiwip hjwip
    rw [hrange]
    by_cases hiid : i = id
    · subst hiid
      rw [pick_req_of_ne hne.symm] at hjwip
      rw [wbRequestsOverlap_comm]
      exact hnew j hj hne.symm hjwip hiwip
    · rw [pick_req_of_ne hiid] at hiwip
      by_cases hjid : j = id
      · subst hjid
        exact hnew i hi hne hiwip hjwip
      · rw [pick_req_of_ne hjid] at hjwip
        exact hinv.apart i hi j hj hne hiwip hjwip

theorem UnwindMove.evolves (htracked : Tracked s) (hmove : UnwindMove s t) :
    Evolves s t := by
  obtain @⟨id, hpicking⟩ := hmove
  refine evolves_modify (htracked.lt_next_of_mem hpicking.mem)
    (recordStep_pickUnwind hpicking.lie) (fun _ h => h) rfl rfl ?_ rfl
  change s.gen ≤ if (s.req id).fulfilled then s.gen else s.gen + 1
  split_ifs
  · exact Nat.le_refl _
  · exact Nat.le_succ _

/-- A request only becomes a liability after all those before it. -/
theorem QueueInv.unwindMove (hinv : QueueInv s) (hmove : UnwindMove s t) : QueueInv t := by
  have hevolves := hmove.evolves hinv.toTracked
  obtain @⟨id, hpicking⟩ := hmove
  have hfield {α : Type} (field : WbRequest Byte → α)
      (hsame : field (s.req id).pickUnwind = field (s.req id)) (other : ReqId) :
      field ((s.pickUnwind id).req other) = field (s.req other) :=
    s.modify_field id _ field hsame other
  have hself (hlie : ((s.pickUnwind id).req id).lie = .liability) :
      (s.req id).fulfilled = false ∧ (s.pickUnwind id).gen = s.gen + 1 := by
    rw [pickUnwind_req_self, WbRequest.pickUnwind] at hlie
    cases hfulfilled : (s.req id).fulfilled
    · simp [WbState.pickUnwind, hfulfilled]
    · simp [hfulfilled] at hlie
  refine ⟨hinv.toTracked.evolves hevolves, ⟨?_, ?_⟩, ?_, ?_⟩
  · intro other hmem hlie
    rw [hfield WbRequest.gen rfl]
    by_cases h : other = id
    · subst h
      rw [(hself hlie).2]
      exact Nat.lt_succ_of_le (hinv.gen_le other hpicking.mem)
    · rw [pickUnwind_req_of_ne h] at hlie
      exact Nat.lt_of_lt_of_le (hinv.lies.gen_lt other hmem hlie)
        (hevolves.gen.resolve_left (List.ne_nil_of_mem hmem))
  · intro i hi j hj hlt htempted hidone hjdone hlie
    rw [hfield WbRequest.tempted rfl] at htempted
    rw [hfield WbRequest.fulfilled rfl] at hidone hjdone
    have hold : (s.req i).lie = .liability → ((s.pickUnwind id).req i).lie = .liability :=
      fun h => ((hevolves.record i).lie (by simp [h])).trans h
    by_cases h : j = id
    · subst h
      have hnotTempted := hpicking.first (hself hlie).1 i hi hlt
      have hnotNone := (hinv.ok i).lie_of_tempted htempted hidone
      refine hold ?_
      cases hcase : (s.req i).lie
      · exact absurd hcase hnotNone
      · exact absurd hcase hnotTempted
      · rfl
    · rw [pickUnwind_req_of_ne h] at hlie
      exact hold (hinv.lies.first i hi j hj hlt htempted hidone hjdone hlie)
  · exact hinv.groups.evolves hevolves (hfield WbRequest.head rfl) fun other _ _ =>
      hfield WbRequest.stage rfl other
  · exact hinv.apart.evolves hinv.ok hevolves fun other h => hfield WbRequest.wip rfl other ▸ h

theorem JoinMove.evolves (htracked : Tracked s) (hmove : JoinMove s t) : Evolves s t := by
  obtain @⟨head, id, hjoining⟩ := hmove
  have hmem := htracked.mem_of_stage hjoining.rider.tempted (by simp [hjoining.rider.stage])
  exact evolves_modify (htracked.lt_next_of_mem hmem) (recordStep_join _ head) (fun _ h => h)
    rfl rfl (Nat.le_refl _) rfl

theorem QueueInv.joinMove (hinv : QueueInv s) (hmove : JoinMove s t) : QueueInv t := by
  have hevolves := hmove.evolves hinv.toTracked
  obtain @⟨head, id, hjoining⟩ := hmove
  refine ⟨hinv.toTracked.evolves hevolves, ?_, ?_, ?_⟩
  · exact hinv.lies.evolves hevolves fun other h =>
      (s.modify_field id _ WbRequest.lie rfl other).symm.trans h
  · intro rider leader hrider
    by_cases h : rider = id
    · subst h
      have hleader : head = leader := by simpa [WbState.join] using hrider
      subst hleader
      rw [join_req_of_ne hjoining.ne, WbState.join, WbState.modify_req_self]
      exact ⟨hjoining.rider.tempted, hjoining.leader.tempted, hjoining.leader.head,
        hjoining.rider.stage.trans hjoining.leader.stage.symm, by simp [hjoining.leader.stage],
        hjoining.fd, hjoining.offset⟩
    · rw [join_req_of_ne h] at hrider ⊢
      have hleader : leader ≠ id := fun heq => hjoining.alone rider (heq ▸ hrider)
      rw [join_req_of_ne hleader]
      exact hinv.groups rider leader hrider
  · exact hinv.apart.evolves hinv.ok hevolves fun other h =>
      (s.modify_field id _ WbRequest.wip rfl other).symm.trans h

/-! ## The whole locked section -/

theorem GroupsKept.alone (hgroups : GroupsKept s) (hstage : (s.req id).stage = .todo) :
    Alone s id := by
  constructor
  · by_contra hnot
    obtain ⟨leader, hleader⟩ := Option.ne_none_iff_exists'.mp hnot
    have hgrouped := hgroups id leader hleader
    exact hgrouped.past_todo (hgrouped.stage ▸ hstage)
  · intro rider hrider
    exact (hgroups rider id hrider).past_todo hstage

theorem UnwindMove.leads (hmove : UnwindMove s t) (hleads : Leads s id)
    (halone : Alone s id) : Leads t id ∧ Alone t id := by
  obtain @⟨answered, _⟩ := hmove
  exact ⟨⟨(s.modify_field answered _ WbRequest.stage rfl id).trans hleads.stage,
    (s.modify_field answered _ WbRequest.tempted rfl id).trans hleads.tempted,
    (s.modify_field answered _ WbRequest.head rfl id).trans hleads.head⟩,
    ⟨(halone.modify rfl).head, (halone.modify rfl).leads⟩⟩

section Process

variable [Zero Byte] {conf : WbConf} {noIobuf : List ReqId}
variable {condition : WbState Byte → ReqId → ReqId → Prop}

theorem QueueInv.preMoves (hinv : QueueInv s)
    (hmoves : ReflTransGen (PreMove conf condition) s t) : QueueInv t :=
  preserved_of_moves QueueInv hmoves (fun hmove h => h.quiet (hmove.quiet h.toTracked)) hinv

theorem collapsesSatisfy_true (loop : WbState Byte × Option ReqId) (ids : List ReqId) :
    CollapsesSatisfy conf noIobuf (fun _ _ _ => True) loop ids := by
  induction ids generalizing loop with
  | nil => trivial
  | cons id ids ih => exact ⟨fun _ _ _ _ _ => trivial, ih _⟩

/-- The locked section in four parts. -/
theorem wbProcessQueue_moves (hinv : QueueInv s)
    (hcondition : CollapsesSatisfy conf noIobuf condition (s, none) s.todo) :
    ReflTransGen (PreMove conf condition) s (wbPreprocessWinds conf noIobuf s) ∧
      ReflTransGen (PickMove conf) (wbPreprocessWinds conf noIobuf s)
        (wbPickWinds conf (wbPreprocessWinds conf noIobuf s)).1 ∧
      ∃ answered, ReflTransGen UnwindMove
          (wbPickWinds conf (wbPreprocessWinds conf noIobuf s)).1 answered ∧
        ReflTransGen JoinMove answered (wbProcessQueue conf noIobuf s) := by
  have hpre := wbPreprocessWinds_moves hinv.sorted hcondition
  have hcollapsed := hinv.preMoves hpre
  rw [wbProcessQueue]
  generalize wbPreprocessWinds conf noIobuf s = collapsed at hpre hcollapsed ⊢
  obtain ⟨hpick, hloop⟩ : ReflTransGen (PickMove conf) collapsed _ ∧ _ :=
    wbPickWinds_moves hcollapsed.sorted fun id hid =>
      hcollapsed.groups.alone (WbState.mem_todo.mp hid).2
  generalize wbPickWinds conf collapsed = result at hpick hloop ⊢
  obtain ⟨picked, liabilities⟩ := result
  have hunwind : ReflTransGen UnwindMove picked (wbPickUnwinds conf picked) :=
    wbPickUnwinds_moves (preserved_of_moves QueueInv hpick (fun hmove h => h.pickMove hmove)
      hcollapsed).sorted
  refine ⟨hpre, hpick, _, hunwind, wbFulfill_moves (fun id hid => ?_) ?_⟩
  · have halone := hloop.alone id (by simpa using hid)
    obtain ⟨hstage, htempted⟩ := hloop.picked id hid
    have hend : Leads (wbPickUnwinds conf picked) id ∧ Alone (wbPickUnwinds conf picked) id :=
      preserved_of_moves (fun t => Leads t id ∧ Alone t id) hunwind
        (fun hmove h => hmove.leads h.1 h.2) ⟨⟨hstage, htempted, halone.head⟩, halone⟩
    exact ⟨hend.1, hend.2.leads⟩
  · simpa using hloop.sorted

/-- What every move keeps, given the invariant of the queue before and after it,
the locked section keeps. -/
theorem wbProcessQueue_preserves (property : WbState Byte → Prop) (hinv : QueueInv s)
    (hcondition : CollapsesSatisfy conf noIobuf condition (s, none) s.todo)
    (hpre : ∀ {left right}, QueueInv left → QueueInv right →
      PreMove conf condition left right → property left → property right)
    (hpick : ∀ {left right}, QueueInv left → QueueInv right →
      PickMove conf left right → property left → property right)
    (hunwind : ∀ {left right}, QueueInv left → QueueInv right →
      UnwindMove left right → property left → property right)
    (hjoin : ∀ {left right}, QueueInv left → QueueInv right →
      JoinMove left right → property left → property right)
    (hbefore : property s) : property (wbProcessQueue conf noIobuf s) := by
  obtain ⟨hpres, hpicks, answered, hunwinds, hjoins⟩ := wbProcessQueue_moves hinv hcondition
  have hphase {move : WbState Byte → WbState Byte → Prop} {left right : WbState Byte}
      (hmoves : ReflTransGen move left right)
      (hqueue : ∀ {left right}, move left right → QueueInv left → QueueInv right)
      (hkeep : ∀ {left right}, QueueInv left → QueueInv right → move left right →
        property left → property right)
      (hleft : QueueInv left ∧ property left) : QueueInv right ∧ property right :=
    preserved_of_moves (fun s => QueueInv s ∧ property s) hmoves
      (fun hmove h => ⟨hqueue hmove h.1, hkeep h.1 (hqueue hmove h.1) hmove h.2⟩) hleft
  have hcollapsed := hphase hpres (fun hmove h => h.quiet (hmove.quiet h.toTracked)) hpre
    ⟨hinv, hbefore⟩
  have hpicked := hphase hpicks (fun hmove h => h.pickMove hmove) hpick hcollapsed
  have hanswered := hphase hunwinds (fun hmove h => h.unwindMove hmove) hunwind hpicked
  exact (hphase hjoins (fun hmove h => h.joinMove hmove) hjoin hanswered).2

/-- The locked section shows nothing to the caller or the child. -/
theorem wbProcessQueue_rest (hinv : QueueInv s) : (wbProcessQueue conf noIobuf s).log = s.log ∧
      (wbProcessQueue conf noIobuf s).fdErr = s.fdErr ∧
      (wbProcessQueue conf noIobuf s).next = s.next := by
  refine wbProcessQueue_preserves
    (fun t => t.log = s.log ∧ t.fdErr = s.fdErr ∧ t.next = s.next) hinv
    (collapsesSatisfy_true (s, none) s.todo) (fun _ _ hmove h => ?_)
    (fun _ _ hmove h => ?_) (fun _ _ hmove h => ?_) (fun _ _ hmove h => ?_) ⟨rfl, rfl, rfl⟩
  · cases hmove with
    | go _ => exact h
    | collapse _ _ => simpa [WbState.collapse] using h
  all_goals
    obtain ⟨_⟩ := hmove
    exact h

end Process

/-! ## The steps outside the loops -/

variable {head : ReqId} {stage : Stage}

section Steps

theorem Tracked.lt_next_of_field (htracked : Tracked s) {α : Type} (field : WbRequest Byte → α)
    (hne : field (s.req id) ≠ field .blank) : id < s.next := by
  by_contra hnot
  exact hne (by rw [htracked.fresh id (Nat.le_of_not_lt hnot)])

theorem quiet_of_req (hreq : t.req = s.req) (hall : t.all = s.all) (hgen : t.gen = s.gen)
    (hnext : t.next = s.next) : Quiet s t :=
  ⟨evolves_same hnext hall hgen (fun _ => hreq ▸ .refl _) (fun _ => hreq ▸ rfl)
    (fun _ _ => hreq ▸ rfl), fun _ => hreq ▸ .refl _⟩

theorem quiet_record (s : WbState Byte) (event : Event Byte) : Quiet s (s.record event) :=
  quiet_of_req rfl rfl rfl rfl

theorem quiet_markBad (s : WbState Byte) (fd : Option Fd) : Quiet s (s.markBad fd) :=
  have hframe := s.markBad_frame fd
  quiet_of_req hframe.1 hframe.2.1 hframe.2.2.1 hframe.2.2.2.1

theorem quiet_arrive (s : WbState Byte) (stub : CallStub Byte) : Quiet s (s.arrive stub) := by
  rw [WbState.arrive]
  split_ifs
  · exact quiet_markBad ..
  · exact quiet_of_req rfl rfl rfl rfl

theorem quiet_unwind (htracked : Tracked s) (hunwinds : (s.req id).unwinds = true) :
    Quiet s (s.unwind id) := by
  have hid : id < s.next :=
    htracked.lt_next_of_field WbRequest.unwinds (by simp [hunwinds, WbRequest.blank])
  exact (quiet_unref (fun req => { req with unwinds := false }) hid
    (quietStep_unwound hunwinds) rfl rfl rfl rfl rfl).trans (quiet_record ..)

theorem quiet_leave (htracked : Tracked s) (htask : (s.req id).stage = .task)
    (hstage : stage = .wound ∨ stage = .done ∧ (s.req id).stub.fop ≠ .write) :
    Quiet s (s.leave id stage) := by
  have hok := htracked.ok id
  have hid : id < s.next :=
    htracked.lt_next_of_field WbRequest.stage (by simp [htask, WbRequest.blank])
  refine quiet_unref (fun req => { req with stage := stage }) hid ?_ rfl rfl rfl rfl rfl
  refine quietStep_call (hok.task htask) (.inl htask) (hstage.imp_right And.left) ?_
  have hrefs := hok.refs
  rcases hstage with rfl | ⟨rfl, hfop⟩ <;> simp only [WbRequest.windRefs, htask] at hrefs ⊢ <;>
    split_ifs at hrefs ⊢ <;> first | omega | contradiction

theorem quiet_callReply (htracked : Tracked s) (opRet : Int)
    (htempted : (s.req id).tempted = false) (hwound : (s.req id).stage = .wound) :
    Quiet s (s.callReply id opRet) := by
  have hok := htracked.ok id
  have hrefs := hok.refs
  have hid : id < s.next :=
    htracked.lt_next_of_field WbRequest.stage (by simp [hwound, WbRequest.blank])
  have hlog := quiet_record s (.replied id opRet)
  rw [WbState.callReply]
  split_ifs with hfop
  · have hfop : (s.req id).stub.fop = .write := hfop
    refine hlog.trans (quiet_unref (fun req => { req with stage := .done }) hid ?_
      rfl rfl rfl rfl rfl)
    refine quietStep_call htempted (.inr hwound) (.inr rfl) ?_
    have hwind : (s.req id).windRefs = 1 := by simp [WbRequest.windRefs, hwound, hfop]
    change (s.req id).refcount - 1 + (s.req id).windRefs = (s.req id).refcount + 0
    omega
  · have hfop : (s.req id).stub.fop ≠ .write := hfop
    refine hlog.trans (quiet_modify hid ?_ rfl)
    refine quietStep_call htempted (.inr hwound) (.inr rfl) ?_
    simp [WbRequest.windRefs, WbState.record, hwound, hfop]

theorem quiet_resume {conf : WbConf} (htracked : Tracked s) (frame : Bool)
    (htask : (s.req id).stage = .task) : Quiet s (s.resume conf id frame) := by
  rw [WbState.resume]
  split_ifs with hfop
  · have hleave := quiet_leave htracked htask (.inr ⟨rfl, by simp [hfop]⟩)
    have hbad := quiet_markBad s (s.req id).stub.fd
    rw [WbState.flushHelper]
    split_ifs
    · refine (hbad.trans (quiet_leave (htracked.evolves hbad.toEvolves) ?_ ?_)).trans
        (quiet_record ..)
      · simp [htask]
      · exact .inr ⟨rfl, by simp [hfop]⟩
    · exact (quiet_leave htracked htask (.inl rfl)).trans (quiet_record ..)
    · exact hleave.trans (quiet_record ..)
    · exact (hleave.trans (quiet_record ..)).trans (quiet_record ..)
  · exact (quiet_leave htracked htask (.inl rfl)).trans (quiet_record ..)

theorem quiet_wbFulfillErr (htracked : Tracked s) (head : ReqId) (errno : Nat) :
    Quiet s (s.wbFulfillErr head errno) := by
  have hquiet (other : ReqId) :
      QuietStep (s.req other) ((s.wbFulfillErr head errno).req other) := by
    simp only [WbState.wbFulfillErr]
    split_ifs
    · exact quietStep_fields ..
    · exact .refl _
  obtain ⟨-, hall, hgen, hnext, -⟩ := s.setFdErr_frame (s.req head).fd errno
  refine ⟨evolves_same hnext hall hgen
    (fun other => (hquiet other).toRecordStep) (fun other => ?_) (fun other hother => ?_), hquiet⟩
  · simp only [WbState.wbFulfillErr]
    split_ifs <;> rfl
  · have hdead : other ∉ s.all := by
      rw [htracked.mem_iff, htracked.fresh other hother]
      simp [WbRequest.blank]
    simp [WbState.wbFulfillErr, hdead]

/-! ## Groups -/

/-- A member of the group of a head. -/
def InGroup (s : WbState Byte) (head id : ReqId) : Prop :=
  id = head ∨ (s.req id).head = some head

theorem QueueInv.mem_winds_iff (hinv : QueueInv s) (hhead : s.HeadAt head stage)
    (hstage : stage ≠ .done) : id ∈ s.winds head ↔ (s.req id).head = some head := by
  rw [WbState.mem_winds]
  refine ⟨And.right, fun h => ⟨?_, h⟩⟩
  have hgrouped := hinv.groups id head h
  exact hinv.mem_of_stage hgrouped.rider_tempted (by rw [hgrouped.stage, hhead.2.2]; exact hstage)

theorem QueueInv.mem_group_iff (hinv : QueueInv s) (hhead : s.HeadAt head stage)
    (hstage : stage ≠ .done) : id ∈ s.group head ↔ InGroup s head id := by
  rw [WbState.group, List.mem_cons, InGroup, hinv.mem_winds_iff hhead hstage]

/-- The members of a group are at the stage of their head. -/
theorem QueueInv.group_member (hinv : QueueInv s) (hhead : s.HeadAt head stage)
    (hmember : InGroup s head id) : (s.req id).tempted = true ∧ (s.req id).stage = stage := by
  rcases hmember with rfl | h
  · exact ⟨hhead.1, hhead.2.2⟩
  · have hgrouped := hinv.groups id head h
    exact ⟨hgrouped.rider_tempted, hgrouped.stage.trans hhead.2.2⟩

/-- When a whole group moves on, every group stays together. -/
theorem GroupsKept.group (hgroups : GroupsKept s) (hevolves : Evolves s t)
    (hheads : ∀ id, (t.req id).head = (s.req id).head) (hhead : (s.req head).head = none)
    (stage : Stage) (hmember : ∀ id, InGroup s head id → (t.req id).stage = stage)
    (hother : ∀ id, ¬InGroup s head id → (t.req id).stage = (s.req id).stage) : GroupsKept t := by
  intro rider leader hrider
  rw [hheads] at hrider
  have hgrouped := hgroups rider leader hrider
  refine hgrouped.step (hevolves.record rider) (hevolves.record leader)
    ((hheads leader).trans hgrouped.leader_head) ?_
  by_cases h : leader = head
  · rw [hmember rider (.inr (h ▸ hrider)), hmember leader (.inl h)]
  · have hrider' : ¬InGroup s head rider := by
      rintro (rfl | heq)
      · simp [hhead] at hrider
      · exact h (Option.some.inj (hrider.symm.trans heq))
    have hleader' : ¬InGroup s head leader := by
      rintro (heq | heq)
      · exact h heq
      · simp [hgrouped.leader_head] at heq
    rw [hother rider hrider', hother leader hleader', hgrouped.stage]

theorem group_field {f : WbRequest Byte → WbRequest Byte}
    (hreq : ∀ id, t.req id = if id ∈ s.group head then f (s.req id) else s.req id)
    {α : Type} (field : WbRequest Byte → α) (hsame : ∀ req, field (f req) = field req)
    (id : ReqId) : field (t.req id) = field (s.req id) := by
  rw [hreq]
  split_ifs
  · exact hsame _
  · rfl

variable {before : Stage}

theorem QueueInv.groupMove {f : WbRequest Byte → WbRequest Byte} (hinv : QueueInv s)
    (hhead : s.HeadAt head before) (hbefore : before ≠ .done) (hevolves : Evolves s t)
    (hreq : ∀ id, t.req id = if id ∈ s.group head then f (s.req id) else s.req id)
    (hsame : ∀ req, (f req).lie = req.lie ∧ (f req).head = req.head ∧ (f req).wip = req.wip ∧
      (f req).stage = stage) : QueueInv t := by
  refine ⟨hinv.toTracked.evolves hevolves, ?_, ?_, ?_⟩
  · exact hinv.lies.evolves hevolves fun id h =>
      group_field hreq WbRequest.lie (fun req => (hsame req).1) id ▸ h
  · refine hinv.groups.group hevolves
      (group_field hreq WbRequest.head fun req => (hsame req).2.1) hhead.2.1 stage
      (fun id h => ?_) fun id h => ?_
    · rw [hreq, if_pos ((hinv.mem_group_iff hhead hbefore).mpr h), (hsame _).2.2.2]
    · rw [hreq, if_neg fun hmem => h ((hinv.mem_group_iff hhead hbefore).mp hmem)]
  · exact hinv.apart.evolves hinv.ok hevolves fun id h =>
      group_field hreq WbRequest.wip (fun req => (hsame req).2.2.1) id ▸ h

theorem QueueInv.setStage_req_of_member (hinv : QueueInv s) (stage : Stage)
    (hhead : s.HeadAt head before) (hbefore : before ≠ .done) (hid : InGroup s head id) :
    (s.setStage head stage).req id = { s.req id with stage := stage } :=
  if_pos ((hinv.mem_group_iff hhead hbefore).mpr hid)

theorem QueueInv.setStage_req_of_not_member (hinv : QueueInv s) (stage : Stage)
    (hhead : s.HeadAt head before) (hbefore : before ≠ .done) (hid : ¬InGroup s head id) :
    (s.setStage head stage).req id = s.req id :=
  if_neg fun hmem => hid ((hinv.mem_group_iff hhead hbefore).mp hmem)

theorem QueueInv.setStage (hinv : QueueInv s) (hhead : s.HeadAt head before)
    (hbefore : before = .picked ∨ before = .wound) (hstage : stage = .wound ∨ stage = .replied) :
    Evolves s (s.setStage head stage) ∧ QueueInv (s.setStage head stage) := by
  have hdone : before ≠ .done := by rcases hbefore with h | h <;> simp [h]
  have hevolves : Evolves s (s.setStage head stage) := by
    refine evolves_same rfl rfl rfl (fun id => ?_) (fun id => ?_) fun id hid => ?_
    · by_cases h : InGroup s head id
      · obtain ⟨htempted, hmember⟩ := hinv.group_member hhead h
        rw [hinv.setStage_req_of_member stage hhead hdone h]
        exact recordStep_stage htempted (hmember ▸ hbefore) hstage
      · rw [hinv.setStage_req_of_not_member stage hhead hdone h]
        exact .refl _
    · simp only [WbState.setStage]
      split_ifs <;> rfl
    · refine hinv.setStage_req_of_not_member stage hhead hdone fun h => ?_
      have htempted := (hinv.group_member hhead h).1
      simp [hinv.fresh id hid, WbRequest.blank] at htempted
  exact ⟨hevolves, hinv.groupMove (f := fun req => { req with stage := stage }) hhead hdone hevolves
    (fun _ => rfl) fun _ => ⟨rfl, rfl, rfl, rfl⟩⟩

theorem foldl_fulfillRequest {ids : List ReqId} (hnodup : ids.Nodup)
    (hlive : ∀ id ∈ ids, id < s.next ∧ (s.req id).tempted = true ∧ (s.req id).stage ≠ .done) :
    Evolves s (ids.foldl WbState.fulfillRequest s) ∧
      ∀ other, (ids.foldl WbState.fulfillRequest s).req other =
        if other ∈ ids then (s.req other).fulfill else s.req other := by
  induction ids generalizing s with
  | nil => exact ⟨.refl s, fun other => by simp⟩
  | cons id ids ih =>
    obtain ⟨hnotMem, hnodup⟩ := List.nodup_cons.mp hnodup
    obtain ⟨⟨hid, htempted, hstage⟩, hrest⟩ := List.forall_mem_cons.mp hlive
    have hsame (other : ReqId) (hother : other ≠ id) :
        (s.fulfillRequest id).req other = s.req other := by
      rw [WbState.fulfillRequest_req, if_neg hother]
    obtain ⟨hevolves, hreq⟩ := ih (s := s.fulfillRequest id) hnodup fun other hother => by
      rw [(s.fulfillRequest_frame id).1, hsame other (fun h => hnotMem (h ▸ hother))]
      exact hrest other hother
    refine ⟨(evolves_fulfillRequest hid htempted hstage).trans hevolves, fun other => ?_⟩
    rw [List.foldl_cons, hreq]
    by_cases h : other = id
    · subst h
      rw [if_neg hnotMem, if_pos List.mem_cons_self, WbState.fulfillRequest_req, if_pos rfl]
    · simp [h, hsame other h]

theorem QueueInv.wbHeadDone (hinv : QueueInv s) (hhead : s.HeadAt head stage)
    (hstage : stage ≠ .done) : Evolves s (s.wbHeadDone head) ∧ QueueInv (s.wbHeadDone head) ∧
      ∀ id, (s.wbHeadDone head).req id =
        if id ∈ s.group head then (s.req id).fulfill else s.req id := by
  have hmem (id : ReqId) : id ∈ s.winds head ++ [head] ↔ id ∈ s.group head := by
    simp [WbState.group, or_comm]
  have hnodup : (s.winds head ++ [head]).Nodup := by
    refine List.nodup_append.mpr ⟨(hinv.sorted.sublist List.filter_sublist).imp Nat.ne_of_lt,
      by simp, ?_⟩
    intro rider hrider leader hleader heq
    rw [List.mem_singleton.mp hleader] at heq
    have := (WbState.mem_winds.mp hrider).2
    rw [heq, hhead.2.1] at this
    cases this
  obtain ⟨hevolves, hreq⟩ := foldl_fulfillRequest hnodup fun id hid => by
    obtain ⟨htempted, hmember⟩ := hinv.group_member hhead
      ((hinv.mem_group_iff hhead hstage).mp ((hmem id).mp hid))
    refine ⟨hinv.lt_next_of_field WbRequest.tempted (by simp [htempted, WbRequest.blank]),
      htempted, by rw [hmember]; exact hstage⟩
  have hreq (id : ReqId) : (s.wbHeadDone head).req id =
      if id ∈ s.group head then (s.req id).fulfill else s.req id := by
    rw [WbState.wbHeadDone, hreq]
    simp only [hmem]
  exact ⟨hevolves, hinv.groupMove hhead hstage hevolves hreq fun _ => ⟨rfl, rfl, rfl, rfl⟩, hreq⟩

/-! ## Arrivals -/

theorem enqueueCommon_req_of_ne [Zero Byte] {stub : CallStub Byte} {tempted : Bool}
    {other : ReqId} (hne : other ≠ s.next) :
    (s.enqueueCommon stub tempted).req other = s.req other :=
  Function.update_of_ne hne ..

theorem enqueueCommon_req_next [Zero Byte] (stub : CallStub Byte) (tempted : Bool) :
    (s.enqueueCommon stub tempted).req s.next = WbRequest.ofStub s.next stub tempted s.gen :=
  Function.update_self ..

theorem mem_enqueueCommon [Zero Byte] {stub : CallStub Byte} {tempted : Bool} :
    id ∈ (s.enqueueCommon stub tempted).all ↔ id ∈ s.all ∨ id = s.next := by
  simp [WbState.enqueueCommon]

section Enqueue

variable [Zero Byte] {stub : CallStub Byte} {tempted : Bool}

theorem Tracked.enqueue_req_of_mem (htracked : Tracked s) (hid : id ∈ s.all) :
    (s.enqueueCommon stub tempted).req id = s.req id :=
  enqueueCommon_req_of_ne (Nat.ne_of_lt (htracked.lt_next_of_mem hid))

theorem Tracked.enqueueCommon (htracked : Tracked s) (hwrite : tempted = true → stub.fop = .write) :
    Tracked (s.enqueueCommon stub tempted) where
  sorted := by
    refine List.pairwise_append.mpr ⟨htracked.sorted, by simp, fun id hid new hmem => ?_⟩
    rw [List.mem_singleton.mp hmem]
    exact htracked.lt_next_of_mem hid
  mem_iff id := by
    rw [mem_enqueueCommon]
    by_cases h : id = s.next
    · subst h
      rw [enqueueCommon_req_next]
      cases tempted <;> simp [WbRequest.ofStub]
    · rw [enqueueCommon_req_of_ne h, ← htracked.mem_iff]
      simp [h]
  fresh id hid := by
    have hid : s.next + 1 ≤ id := hid
    rw [enqueueCommon_req_of_ne (Nat.ne_of_gt hid)]
    exact htracked.fresh id (Nat.le_of_succ_le hid)
  ok id := by
    by_cases h : id = s.next
    · rw [h, enqueueCommon_req_next]
      exact WbRequest.ok_ofStub _ _ _ hwrite
    · rw [enqueueCommon_req_of_ne h]
      exact htracked.ok id
  gen_le id hid := by
    rcases mem_enqueueCommon.mp hid with h | rfl
    · rw [htracked.enqueue_req_of_mem h]
      exact htracked.gen_le id h
    · rw [enqueueCommon_req_next]
      exact Nat.le_refl _
  gen_mono i hi j hj hij := by
    rcases mem_enqueueCommon.mp hi with hi | rfl
    · rw [htracked.enqueue_req_of_mem hi]
      rcases mem_enqueueCommon.mp hj with hj | rfl
      · rw [htracked.enqueue_req_of_mem hj]
        exact htracked.gen_mono i hi j hj hij
      · rw [enqueueCommon_req_next]
        exact htracked.gen_le i hi
    · rcases mem_enqueueCommon.mp hj with hj | rfl
      · exact absurd (htracked.lt_next_of_mem hj) (Nat.lt_asymm hij)
      · exact absurd hij (Nat.lt_irrefl _)

theorem enqueued_idle : ((s.enqueueCommon stub tempted).req s.next).lie ≠ .liability ∧
    ((s.enqueueCommon stub tempted).req s.next).wip = false ∧
    ((s.enqueueCommon stub tempted).req s.next).head = none := by
  rw [enqueueCommon_req_next]
  cases tempted <;> simp [WbRequest.ofStub]

theorem QueueInv.enqueueCommon (hinv : QueueInv s) (hwrite : tempted = true → stub.fop = .write) :
    QueueInv (s.enqueueCommon stub tempted) where
  toTracked := hinv.toTracked.enqueueCommon hwrite
  lies := by
    constructor
    · intro id hid hlie
      rcases mem_enqueueCommon.mp hid with h | rfl
      · rw [hinv.enqueue_req_of_mem h] at hlie ⊢
        exact hinv.lies.gen_lt id h hlie
      · exact absurd hlie enqueued_idle.1
    · intro i hi j hj hij htempted hidone hjdone hlie
      rcases mem_enqueueCommon.mp hj with hj | rfl
      · have hi : i ∈ s.all := by
          refine (mem_enqueueCommon.mp hi).resolve_right fun h => ?_
          exact Nat.lt_asymm hij (h ▸ hinv.lt_next_of_mem hj)
        rw [hinv.enqueue_req_of_mem hi] at htempted hidone ⊢
        rw [hinv.enqueue_req_of_mem hj] at hjdone hlie
        exact hinv.lies.first i hi j hj hij htempted hidone hjdone hlie
      · exact absurd hlie enqueued_idle.1
  groups := by
    intro rider leader hrider
    have hriderNe : rider ≠ s.next := by
      rintro rfl
      simp [enqueued_idle.2.2] at hrider
    rw [enqueueCommon_req_of_ne hriderNe] at hrider ⊢
    have hgrouped := hinv.groups rider leader hrider
    have hleaderNe : leader ≠ s.next := by
      rintro rfl
      have htempted := hgrouped.leader_tempted
      simp [hinv.fresh s.next (Nat.le_refl _), WbRequest.blank] at htempted
    rwa [enqueueCommon_req_of_ne hleaderNe]
  apart := by
    intro i hi j hj hne hiwip hjwip
    have hidle {id : ReqId} (hid : id ∈ (s.enqueueCommon stub tempted).all)
        (hwip : ((s.enqueueCommon stub tempted).req id).wip = true) : id ∈ s.all := by
      refine (mem_enqueueCommon.mp hid).resolve_right ?_
      rintro rfl
      simp [enqueued_idle.2.1] at hwip
    have hiold := hidle hi hiwip
    have hjold := hidle hj hjwip
    rw [hinv.enqueue_req_of_mem hiold] at hiwip ⊢
    rw [hinv.enqueue_req_of_mem hjold] at hjwip ⊢
    exact hinv.apart i hiold j hjold hne hiwip hjwip

end Enqueue

end Steps

/-! ## Every step -/

section Reachable

variable [Zero Byte] {conf : WbConf}

theorem QueueInv.process (hinv : QueueInv s) (noIobuf : List ReqId) :
    QueueInv (wbProcessQueue conf noIobuf s) :=
  wbProcessQueue_preserves QueueInv hinv (collapsesSatisfy_true (s, none) s.todo)
    (fun _ h _ _ => h) (fun _ h _ _ => h) (fun _ h _ _ => h) (fun _ h _ _ => h) hinv

omit [Zero Byte] in
theorem WbState.HeadAt.quiet (hhead : s.HeadAt head stage) (hstage : stage ≠ .todo)
    (hquiet : Quiet s t) : t.HeadAt head stage := by
  have hstep := hquiet.quiet head
  refine ⟨hstep.tempted.trans hhead.1, hstep.head.trans hhead.2.1, ?_⟩
  rw [hstep.stage hhead.1 (hhead.2.2.symm ▸ hstage), hhead.2.2]

omit [Zero Byte] in
theorem quiet_load (htracked : Tracked s) (htempted : (s.req head).tempted = true) :
    Quiet s (s.load head) :=
  quiet_modify (htracked.lt_next_of_field WbRequest.tempted (by simp [htempted, WbRequest.blank]))
    (quietStep_fields ..) rfl

/-- What `wb_fulfill_head` can do: drop the group because of an error, or send
it. -/
theorem wbFulfillHead_cases {frame : Bool} (hstep : s.wbFulfillHead head frame = some t) :
    ((s.fdError (s.req head).fd).isSome ∧
        t = ((s.load head).markBad (s.req head).fd).wbHeadDone head) ∨
      (frame = false ∧ t = ((s.load head).wbFulfillErr head enomem).wbHeadDone head) ∨
      (frame = true ∧ s.fdError (s.req head).fd = none ∧
        t = { (((s.load head).setStage head .wound).record (.sent (s.childWrite head))) with
          transit := s.transit + ((s.load head).req head).totalSize }) := by
  rw [WbState.wbFulfillHead] at hstep
  split_ifs at hstep with hcount herror hframe
  · exact .inl ⟨herror, (Option.some.inj hstep).symm⟩
  · exact .inr (.inl ⟨hframe, (Option.some.inj hstep).symm⟩)
  · exact .inr (.inr ⟨by simpa using hframe, by simpa using herror, (Option.some.inj hstep).symm⟩)

theorem QueueInv.wbFulfillHead {frame : Bool} (hinv : QueueInv s) (hhead : s.HeadAt head .picked)
    (hstep : s.wbFulfillHead head frame = some t) : QueueInv t := by
  have hload := quiet_load hinv.toTracked hhead.1
  rcases wbFulfillHead_cases hstep with ⟨_, rfl⟩ | ⟨_, rfl⟩ | ⟨_, _, rfl⟩
  · have hquiet := hload.trans (quiet_markBad _ (s.req head).fd)
    exact ((hinv.quiet hquiet).wbHeadDone (hhead.quiet (by simp) hquiet) (by simp)).2.1
  · have hquiet := hload.trans (quiet_wbFulfillErr (hinv.quiet hload).toTracked head enomem)
    exact ((hinv.quiet hquiet).wbHeadDone (hhead.quiet (by simp) hquiet) (by simp)).2.1
  · have hsent := (hinv.quiet hload).setStage (hhead.quiet (by simp) hload) (.inl rfl) (.inl rfl)
    exact hsent.2.quiet (quiet_of_req rfl rfl rfl rfl)

omit [Zero Byte] in
theorem quiet_noteReply (htracked : Tracked s) (head : ReqId) (opRet : Int) (opErrno : Nat) :
    Quiet s (s.noteReply head opRet opErrno) := by
  rw [WbState.noteReply]
  split_ifs
  · exact quiet_wbFulfillErr htracked head opErrno
  · exact quiet_wbFulfillErr htracked head eio
  · exact .refl s

end Reachable

end GlusterFS.WriteBehind
