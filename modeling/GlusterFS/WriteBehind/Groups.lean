import GlusterFS.WriteBehind.Content

/-!
# What a group sends

`wb_fulfill` does not advance the offset it expects behind a head, so all the
riders of a head start at one place.  The writes in progress do not overlap,
hence a head has one rider at most, and the bytes of the two stand one after
the other.
-/

namespace GlusterFS.WriteBehind

open Relation GlusterFS.Transition GlusterFS.Tiling

variable {Byte : Type*} {s t : WbState Byte} {id head : ReqId} {stage : Stage}

theorem WbRequest.covers_off (req : WbRequest Byte) : req.Covers req.off :=
  ⟨Nat.le_refl _, by omega⟩

theorem QueueInv.rider_unique (hinv : QueueInv s) (hhead : s.HeadAt head stage)
    (hstage : stage ≠ .todo ∧ stage ≠ .done) {left right : ReqId}
    (hleft : (s.req left).head = some head) (hright : (s.req right).head = some head) :
    left = right := by
  by_contra hne
  have hrider {rider : ReqId} (h : (s.req rider).head = some head) :
      rider ∈ s.all ∧ (s.req rider).wip = true ∧
        (s.req rider).off = (s.req head).stub.offset + (s.req head).writeSize := by
    have hgrouped := hinv.groups rider head h
    have hwrite := (hinv.ok rider).tempted_write hgrouped.rider_tempted
    have hat : (s.req rider).stage = stage := hgrouped.stage.trans hhead.2.2
    refine ⟨hinv.mem_of_stage hgrouped.rider_tempted (hat ▸ hstage.2),
      (hinv.ok rider).wip_of_stage hwrite (hat ▸ hstage.1) (hat ▸ hstage.2), ?_⟩
    rw [((hinv.ok rider).range hwrite).1, hgrouped.offset]
  obtain ⟨hleftMem, hleftWip, hleftOff⟩ := hrider hleft
  obtain ⟨hrightMem, hrightWip, hrightOff⟩ := hrider hright
  refine hinv.apart left hleftMem right hrightMem hne hleftWip hrightWip ?_
  refine (wbRequestsOverlap_iff (hinv.ok left) (hinv.ok right)).mpr ⟨(s.req left).off,
    WbRequest.covers_off _, ?_⟩
  rw [hleftOff, ← hrightOff]
  exact WbRequest.covers_off _

theorem QueueInv.winds_cases (hinv : QueueInv s) (hhead : s.HeadAt head stage)
    (hstage : stage ≠ .todo ∧ stage ≠ .done) :
    s.winds head = [] ∨ ∃ rider, s.winds head = [rider] := by
  have hsorted : (s.winds head).Pairwise (· < ·) := hinv.sorted.sublist List.filter_sublist
  have hrider {rider : ReqId} (h : rider ∈ s.winds head) : (s.req rider).head = some head :=
    (WbState.mem_winds.mp h).2
  cases hwinds : s.winds head with
  | nil => exact .inl rfl
  | cons first rest =>
    rw [hwinds] at hsorted hrider
    cases rest with
    | nil => exact .inr ⟨first, rfl⟩
    | cons second rest =>
      have hlt := (List.pairwise_cons.mp hsorted).1 second List.mem_cons_self
      exact absurd (hinv.rider_unique hhead hstage (hrider List.mem_cons_self)
        (hrider (List.mem_cons_of_mem _ List.mem_cons_self))) (Nat.ne_of_lt hlt)

theorem QueueInv.winds_eq {stage' : Stage} (hinv : QueueInv s) (hinv' : QueueInv t)
    (hhead : s.HeadAt head stage) (hstage : stage ≠ .todo ∧ stage ≠ .done)
    (hhead' : t.HeadAt head stage') (hstage' : stage' ≠ .todo ∧ stage' ≠ .done)
    (hsame : ∀ id, (t.req id).head = some head ↔ (s.req id).head = some head) :
    t.winds head = s.winds head := by
  have hmem (id : ReqId) : id ∈ t.winds head ↔ id ∈ s.winds head := by
    rw [hinv.mem_winds_iff hhead hstage.2, hinv'.mem_winds_iff hhead' hstage'.2, hsame]
  rcases hinv.winds_cases hhead hstage with hbefore | ⟨rider, hbefore⟩ <;>
    rcases hinv'.winds_cases hhead' hstage' with hafter | ⟨rider', hafter⟩ <;>
    rw [hbefore, hafter] at hmem ⊢
  · simpa using hmem rider'
  · simpa using hmem rider
  · simpa using hmem rider'

theorem QueueInv.loadSize_eq {stage' : Stage} (hinv : QueueInv s) (hinv' : QueueInv t)
    (hhead : s.HeadAt head stage) (hstage : stage ≠ .todo ∧ stage ≠ .done)
    (hhead' : t.HeadAt head stage') (hstage' : stage' ≠ .todo ∧ stage' ≠ .done)
    (hsame : ∀ id, (t.req id).head = some head ↔ (s.req id).head = some head)
    (hsize : ∀ id, InGroup s head id → (t.req id).writeSize = (s.req id).writeSize) :
    t.loadSize head = s.loadSize head := by
  rw [WbState.loadSize, WbState.loadSize, WbState.group, WbState.group,
    hinv.winds_eq hinv' hhead hstage hhead' hstage' hsame]
  refine congrArg List.sum (List.map_congr_left fun id hid => hsize id ?_)
  exact (hinv.mem_group_iff hhead hstage.2).mp hid

/-! ## The write that the child gets -/

/-- The data of a child's write is what it carries, at the right places. -/
structure ChildWrite.Sound (write : ChildWrite Byte) : Prop where
  data : write.data = write.carries.flatMap Portion.bytes
  laid : Laid Portion.offset Portion.bytes write.offset write.carries

/-- The child's write has all the bytes of a call at their places. -/
def ChildWrite.Contains (write : ChildWrite Byte) (stub : CallStub Byte) : Prop :=
  ∃ skip, write.offset + skip = stub.offset ∧
    (write.data.drop skip).take stub.bytes.length = stub.bytes

theorem ChildWrite.Sound.contains {write : ChildWrite Byte} (hsound : write.Sound)
    {stub : CallStub Byte} (hmem : stub.portion id ∈ write.carries) : write.Contains stub := by
  obtain ⟨skip, hskip, _, hslice⟩ := hsound.laid.slice hmem
  rw [← hsound.data] at hslice
  exact ⟨skip, hskip, hslice⟩

section Sending

variable [Zero Byte]

theorem iovUnload_flatMap {ι : Type*} (ids : List ι) (vector : ι → List (IoVec Byte)) :
    iovUnload (ids.flatMap vector) = ids.flatMap fun id => iovUnload (vector id) :=
  List.flatMap_assoc

theorem Content.group_loaded (hcontent : Content s) (hinv : QueueInv s)
    (hhead : s.HeadAt head stage) (hstage : stage ≠ .done) (hid : id ∈ s.group head) :
    (s.req id).Loaded := by
  have hmember := hinv.group_member hhead ((hinv.mem_group_iff hhead hstage).mp hid)
  exact hcontent.loaded id ((hinv.ok id).tempted_write hmember.1)

theorem Content.childWrite_sound (hcontent : Content s) (hinv : QueueInv s)
    (hhead : s.HeadAt head stage) (hstage : stage ≠ .todo ∧ stage ≠ .done) :
    (s.childWrite head).Sound := by
  have hloaded {id : ReqId} (hid : id ∈ s.group head) : (s.req id).Loaded :=
    hcontent.group_loaded hinv hhead hstage.2 hid
  have hself := hloaded List.mem_cons_self
  constructor
  · rw [WbState.childWrite, WbState.loadVector, iovUnload_flatMap, List.flatMap_assoc]
    exact List.flatMap_congr fun id hid => (hloaded hid).unload
  · simp only [WbState.childWrite, WbState.group]
    rcases hinv.winds_cases hhead hstage with hwinds | ⟨rider, hwinds⟩
    · rw [hwinds]
      simpa using hself.laid
    · have hrider : rider ∈ s.winds head := by simp [hwinds]
      have hgrouped := hinv.groups rider head (WbState.mem_winds.mp hrider).2
      rw [hwinds]
      simp only [List.flatMap_cons, List.flatMap_nil, List.append_nil]
      refine laid_append.mpr ⟨hself.laid, ?_⟩
      rw [← hself.unload, ← hself.writeSize, hgrouped.offset]
      exact (hloaded (List.mem_cons_of_mem _ hrider)).laid

theorem Content.length_childWrite (hcontent : Content s) (hinv : QueueInv s)
    (hhead : s.HeadAt head stage) (hstage : stage ≠ .done) :
    (s.childWrite head).data.length = s.loadSize head := by
  rw [WbState.childWrite, WbState.loadVector, iovUnload_flatMap, List.length_flatMap,
    WbState.loadSize]
  refine congrArg List.sum (List.map_congr_left fun id hid => ?_)
  exact (hcontent.group_loaded hinv hhead hstage hid).writeSize.symm

end Sending

/-! ## The size of what was sent -/

/-- `total_size` is zero before a write is sent and counts the whole group when
it is. -/
structure Counted (s : WbState Byte) : Prop where
  unsent : ∀ id, (s.req id).tempted = true → (s.req id).stage.rank ≤ 1 → (s.req id).totalSize = 0
  wound : ∀ head, s.HeadAt head .wound → (s.req head).totalSize = s.loadSize head

section Counting

variable {conf : WbConf} {condition : WbState Byte → ReqId → ReqId → Prop}

/-- The groups that have been sent stay as they are, and no request falls back. -/
structure KeepsSent (s t : WbState Byte) : Prop where
  tempted : ∀ id, (t.req id).tempted = (s.req id).tempted
  unsent : ∀ id, (t.req id).tempted = true → (t.req id).stage.rank ≤ 1 → (s.req id).stage.rank ≤ 1
  total : ∀ id, (t.req id).Live → (t.req id).totalSize = (s.req id).totalSize
  wound : ∀ head, t.HeadAt head .wound → s.HeadAt head .wound
  members : ∀ head, s.HeadAt head .wound →
    ∀ id, (t.req id).head = some head ↔ (s.req id).head = some head
  size : ∀ head, s.HeadAt head .wound →
    ∀ id, InGroup s head id → (t.req id).writeSize = (s.req id).writeSize

theorem WbState.HeadAt.live (hhead : s.HeadAt head .wound) : (s.req head).Live :=
  ⟨hhead.1, by rw [hhead.2.2]; decide⟩

theorem Counted.keepsSent (hcounted : Counted s) (hinv : QueueInv s) (hinv' : QueueInv t)
    (hkeeps : KeepsSent s t) : Counted t where
  unsent id htempted hrank := by
    rw [hkeeps.total id ⟨htempted, Nat.le_succ_of_le hrank⟩]
    exact hcounted.unsent id (hkeeps.tempted id ▸ htempted) (hkeeps.unsent id htempted hrank)
  wound head hhead' := by
    have hhead := hkeeps.wound head hhead'
    rw [hkeeps.total head hhead'.live, hcounted.wound head hhead]
    exact (hinv.loadSize_eq hinv' hhead (by simp) hhead' (by simp)
      (hkeeps.members head hhead) (hkeeps.size head hhead)).symm

/-- The sizes of what was sent are settled. -/
theorem Evolves.size_of_sent (hevolves : Evolves s t) (hinv : QueueInv s)
    (hhead : s.HeadAt head .wound) (hid : InGroup s head id) :
    (t.req id).writeSize = (s.req id).writeSize := by
  have hpast : (s.req id).stage ≠ .todo := by simp [(hinv.group_member hhead hid).2]
  exact congrArg (·.2.1) ((hevolves.record id).held hpast).1

theorem keepsSent_modify {f : WbRequest Byte → WbRequest Byte} (hinv : QueueInv s)
    (hevolves : Evolves s t) (hreq : t.req = (s.modify id f).req)
    (htotal : (f (s.req id)).totalSize = (s.req id).totalSize)
    (hstage : (f (s.req id)).stage ≠ .wound ∨ (f (s.req id)).stage = (s.req id).stage)
    (hrank : (f (s.req id)).stage.rank ≤ 1 → (s.req id).stage.rank ≤ 1)
    (hhead : (f (s.req id)).head = (s.req id).head) : KeepsSent s t := by
  have hheads (other : ReqId) : (t.req other).head = (s.req other).head := by
    rw [hreq]
    exact s.modify_field id f WbRequest.head hhead other
  refine ⟨fun other => (hevolves.record other).tempted, fun other _ h => ?_,
    fun other _ => ?_, fun other h => ?_, fun head _ other => ?_,
    fun head hhead other => hevolves.size_of_sent hinv hhead⟩
  · rw [hreq, WbState.modify_req] at h
    split_ifs at h with heq
    · exact heq ▸ hrank h
    · exact h
  · rw [hreq]
    exact s.modify_field id f WbRequest.totalSize htotal other
  · obtain ⟨htempted, hnone, hwound⟩ := h
    refine ⟨(hevolves.record other).tempted ▸ htempted, hheads other ▸ hnone, ?_⟩
    rw [hreq, WbState.modify_req] at hwound
    split_ifs at hwound with heq
    · rw [heq, ← hstage.resolve_left (fun h => h hwound), hwound]
    · exact hwound
  · rw [hheads]

theorem keepsSent_collapse [Zero Byte] {holder : ReqId} (hinv : QueueInv s)
    (hcollapsing : Collapsing conf s holder id) : KeepsSent s (s.collapse holder id) := by
  have hevolves := (quiet_collapse hinv.toTracked hcollapsing).toEvolves
  have hne : holder ≠ id := Nat.ne_of_lt hcollapsing.lt
  have hdone : ((s.collapse holder id).req id).stage = .done := by
    rw [collapse_req_id hne]
    rfl
  have hheads := collapse_field (s := s) WbRequest.head hne rfl rfl
  refine ⟨fun other => (hevolves.record other).tempted, fun other _ h => ?_,
    fun other _ => collapse_field WbRequest.totalSize hne rfl rfl other, fun other h => ?_,
    fun head _ other => by rw [hheads], fun head hhead other => hevolves.size_of_sent hinv hhead⟩
  · by_cases hother : other = id
    · rw [hother, hcollapsing.queued.stage]
      decide
    · rwa [collapse_stage hne hother] at h
  · obtain ⟨htempted, hnone, hwound⟩ := h
    refine ⟨(hevolves.record other).tempted ▸ htempted, hheads other ▸ hnone, ?_⟩
    by_cases hother : other = id
    · rw [hother, hdone] at hwound
      cases hwound
    · rwa [collapse_stage hne hother] at hwound

theorem PreMove.keepsSent [Zero Byte] (hinv : QueueInv s)
    (hmove : PreMove conf condition s t) : KeepsSent s t := by
  have hevolves := (hmove.quiet hinv.toTracked).toEvolves
  cases hmove with
  | go _ => exact keepsSent_modify hinv hevolves rfl rfl (.inr rfl) (fun h => h) rfl
  | collapse hcollapsing _ => exact keepsSent_collapse hinv hcollapsing

theorem PickMove.keepsSent (hinv : QueueInv s) (hmove : PickMove conf s t) :
    KeepsSent s t := by
  have hevolves := hmove.evolves hinv.toTracked
  obtain @⟨id, hpicking⟩ := hmove
  refine keepsSent_modify hinv hevolves rfl rfl (.inl ?_) (fun _ => ?_) rfl
  · unfold WbRequest.pick
    cases (s.req id).tempted <;> simp
  · rw [hpicking.stage]
    decide

theorem UnwindMove.keepsSent (hinv : QueueInv s) (hmove : UnwindMove s t) :
    KeepsSent s t := by
  have hevolves := hmove.evolves hinv.toTracked
  obtain @⟨id, hpicking⟩ := hmove
  exact keepsSent_modify hinv hevolves rfl rfl (.inr rfl) (fun h => h) rfl

theorem JoinMove.keepsSent (hinv : QueueInv s) (hmove : JoinMove s t) : KeepsSent s t := by
  have hevolves := hmove.evolves hinv.toTracked
  obtain @⟨leader, rider, hjoining⟩ := hmove
  have hfield {α : Type} (field : WbRequest Byte → α)
      (hsame : field { s.req rider with head := some leader } = field (s.req rider))
      (other : ReqId) : field ((s.join leader rider).req other) = field (s.req other) :=
    s.modify_field rider _ field hsame other
  have hrider : ((s.join leader rider).req rider).head = some leader := by
    simp [WbState.join]
  refine ⟨hfield WbRequest.tempted rfl, fun other _ h => hfield WbRequest.stage rfl other ▸ h,
    fun other _ => hfield WbRequest.totalSize rfl other, fun other h => ?_,
    fun head hhead other => ?_, fun head hhead other => hevolves.size_of_sent hinv hhead⟩
  · obtain ⟨htempted, hnone, hwound⟩ := h
    have hne : other ≠ rider := by
      rintro rfl
      simp [hrider] at hnone
    rw [join_req_of_ne hne] at htempted hnone hwound
    exact ⟨htempted, hnone, hwound⟩
  · by_cases h : other = rider
    · subst h
      have hleader : leader ≠ head := by
        rintro rfl
        exact absurd (hjoining.leader.stage.symm.trans hhead.2.2) (by decide)
      simp [hrider, hjoining.rider.head, hleader]
    · rw [join_req_of_ne h]

theorem Counted.process [Zero Byte] {noIobuf : List ReqId} (hcounted : Counted s)
    (hinv : QueueInv s) : Counted (wbProcessQueue conf noIobuf s) :=
  wbProcessQueue_preserves Counted hinv (collapsesSatisfy_true (s, none) s.todo)
    (fun hinv hinv' hmove h => h.keepsSent hinv hinv' (hmove.keepsSent hinv))
    (fun hinv hinv' hmove h => h.keepsSent hinv hinv' (hmove.keepsSent hinv))
    (fun hinv hinv' hmove h => h.keepsSent hinv hinv' (hmove.keepsSent hinv))
    (fun hinv hinv' hmove h => h.keepsSent hinv hinv' (hmove.keepsSent hinv))
    hcounted

theorem Passes.keepsSent (hpasses : Passes s t) (hsame : ∀ id, (t.req id).Live →
      (t.req id).stage = (s.req id).stage ∧ (t.req id).totalSize = (s.req id).totalSize) :
    KeepsSent s t := by
  refine ⟨hpasses.keeps.tempted, fun id htempted hrank => ?_, fun id hlive => (hsame id hlive).2,
    fun head hhead => ?_, fun head _ id => ?_, fun _ _ id _ => hpasses.keeps.writeSize id⟩
  · exact Nat.le_trans (hpasses.record id).rank hrank
  · refine ⟨hpasses.keeps.tempted head ▸ hhead.1, (hpasses.record head).head ▸ hhead.2.1, ?_⟩
    rw [← (hsame head hhead.live).1, hhead.2.2]
  · rw [(hpasses.record id).head]

theorem Passes.keepsSent_of_stays (hpasses : Passes s t) (hstays : Stays s t fun _ => False) :
    KeepsSent s t :=
  hpasses.keepsSent fun id hlive => hstays id ((hpasses.record id).live hlive) not_false

/-- A group that is dropped or answered is no longer among those sent. -/
theorem Passes.keepsSent_of_moved (hpasses : Passes s t) (hstays : Stays s t (InGroup s head))
    (hmoved : ∀ id, InGroup s head id → 2 < (t.req id).stage.rank) : KeepsSent s t := by
  refine hpasses.keepsSent fun id hlive => ?_
  refine hstays id ((hpasses.record id).live hlive) fun hid => ?_
  exact Nat.not_lt.mpr hlive.2 (hmoved id hid)

theorem Counted.sent (hcounted : Counted s) (hinv : QueueInv s) (hinv' : QueueInv t)
    (hpasses : Passes s t) (hhead : s.HeadAt head .picked)
    (hstays : Stays s t (InGroup s head))
    (hmembers : ∀ id, InGroup s head id → (t.req id).stage = .wound)
    (htotal : (t.req head).totalSize = (s.req head).totalSize + s.loadSize head) :
    Counted t where
  unsent id htempted hrank := by
    have hid : ¬InGroup s head id := fun h => by
      rw [hmembers id h] at hrank
      exact absurd hrank (by decide)
    have hbefore : (s.req id).stage.rank ≤ 1 := Nat.le_trans (hpasses.record id).rank hrank
    have hold : (s.req id).tempted = true := hpasses.keeps.tempted id ▸ htempted
    rw [(hstays id ⟨hold, Nat.le_succ_of_le hbefore⟩ hid).2]
    exact hcounted.unsent id hold hbefore
  wound other hother := by
    have hheads (id : ReqId) : (t.req id).head = (s.req id).head := (hpasses.record id).head
    have hsizes (id : ReqId) : (t.req id).writeSize = (s.req id).writeSize :=
      hpasses.keeps.writeSize id
    by_cases h : other = head
    · subst h
      rw [htotal, hcounted.unsent other hhead.1 (by rw [hhead.2.2]; decide), Nat.zero_add]
      exact (hinv.loadSize_eq hinv' hhead (by simp) hother (by simp) (fun id => by rw [hheads])
        fun id _ => hsizes id).symm
    · have hid : ¬InGroup s head other := by
        rintro (rfl | hrider)
        · exact h rfl
        · rw [← hheads, hother.2.1] at hrider
          cases hrider
      have hsame := hstays other ((hpasses.record other).live hother.live) hid
      have hbefore : s.HeadAt other .wound :=
        ⟨hpasses.keeps.tempted other ▸ hother.1, hheads other ▸ hother.2.1, hsame.1 ▸ hother.2.2⟩
      rw [hsame.2, hcounted.wound other hbefore]
      exact (hinv.loadSize_eq hinv' hbefore (by simp) hother (by simp)
        (fun id => by rw [hheads]) fun id _ => hsizes id).symm

theorem Counted.effect [Zero Byte] {label : WbLabel Byte} (hcounted : Counted s)
    (hinv : QueueInv s) (hinv' : QueueInv t) (hpasses : Passes s t)
    (heffect : Effect s t label) : Counted t := by
  have hkept (hkeeps : KeepsSent s t) : Counted t := hcounted.keepsSent hinv hinv' hkeeps
  cases heffect with
  | silent hstays => exact hkept (hpasses.keepsSent_of_stays hstays)
  | unwound _ _ hstays => exact hkept (hpasses.keepsSent_of_stays hstays)
  | refused _ hstays => exact hkept (hpasses.keepsSent_of_stays hstays)
  | wound _ _ hstays => exact hkept (hpasses.keepsSent_of_stays hstays)
  | replied _ _ hstays => exact hkept (hpasses.keepsSent_of_stays hstays)
  | dropped _ _ hstays hmembers =>
    exact hkept (hpasses.keepsSent_of_moved hstays fun id hid => by
      rw [hmembers id hid]
      decide)
  | sent hhead hstays hmembers htotal =>
    exact hcounted.sent hinv hinv' hpasses hhead hstays hmembers htotal
  | acked _ _ hstays hmembers =>
    exact hkept (hpasses.keepsSent_of_moved hstays fun id hid => by
      rw [hmembers id hid]
      decide)

theorem Counted.enqueueCommon [Zero Byte] {stub : CallStub Byte} {tempted : Bool}
    (hcounted : Counted s) (hinv : QueueInv s) (hwrite : tempted = true → stub.fop = .write) :
    Counted (s.enqueueCommon stub tempted) where
  unsent id htempted hrank := by
    by_cases h : id = s.next
    · rw [h, enqueueCommon_req_next]
      rfl
    · rw [enqueueCommon_req_of_ne h] at htempted hrank ⊢
      exact hcounted.unsent id htempted hrank
  wound head hhead := by
    have hold {id : ReqId} (hid : id ≠ s.next) :
        (s.enqueueCommon stub tempted).req id = s.req id := enqueueCommon_req_of_ne hid
    have hblank := hinv.fresh s.next (Nat.le_refl _)
    have hne : head ≠ s.next := by
      rintro rfl
      have hstage := hhead.2.2
      rw [enqueueCommon_req_next] at hstage
      cases hstage
    have hbefore : s.HeadAt head .wound := by
      rw [WbState.HeadAt, hold hne] at hhead
      exact hhead
    rw [hold hne, hcounted.wound head hbefore]
    refine (hinv.loadSize_eq (hinv.enqueueCommon hwrite) hbefore (by simp) hhead (by simp)
      (fun id => ?_) fun id hid => ?_).symm
    · by_cases h : id = s.next
      · rw [h, enqueued_idle.2.2, hblank]
        rfl
      · rw [hold h]
    · refine congrArg WbRequest.writeSize (hold ?_)
      rintro rfl
      have htempted := (hinv.group_member hbefore hid).1
      rw [hblank] at htempted
      cases htempted

theorem counted_create [Zero Byte] : Counted (WbState.create : WbState Byte) where
  unsent _ h := nomatch h
  wound _ h := nomatch h.1

theorem Counted.step [Zero Byte] {label : WbLabel Byte} (hcounted : Counted s)
    (hinv : QueueInv s) (hstep : wbStep conf s label = some t) : Counted t := by
  rcases (wbStep_cases hinv hstep).2 with ⟨index, stub, _, _, rfl⟩ | ⟨noIobuf, rfl, rfl⟩ |
    ⟨hpasses, heffect⟩
  · have hnew : Counted (s.enqueue conf stub) :=
      hcounted.enqueueCommon hinv fun h => of_decide_eq_true (Bool.and_eq_true_iff.mp h).1
    exact ⟨hnew.unsent, hnew.wound⟩
  · exact hcounted.process hinv
  · exact hcounted.effect hinv (wbStep_cases hinv hstep).1 hpasses heffect

theorem counted_of_reachableUnder [Zero Byte] {guard : WbState Byte → WbLabel Byte → Prop}
    (hreach : ReachableUnder (wbStep conf) guard WbState.create s) : Counted s :=
  hreach.invariant_along Counted counted_create fun hbefore _ hstep hcounted =>
    hcounted.step (queueInv_of_reachableUnder hbefore) hstep

/-- An answer for the whole of a child's write is no short one. -/
theorem Counted.full_reply [Zero Byte] (hcounted : Counted s) (hcontent : Content s)
    (hinv : QueueInv s)
    (hhead : s.HeadAt head .wound) :
    (s.req head).totalSize = (s.childWrite head).data.length := by
  rw [hcounted.wound head hhead, hcontent.length_childWrite hinv hhead (by simp)]

end Counting

end GlusterFS.WriteBehind
