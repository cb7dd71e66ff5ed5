import GlusterFS.WriteBehind.Groups

/-!
# Every buffered write is transmitted once

A write is carried by one request that has not been sent, or by one write that
the child got.  Collapsing hands it from a request to the holder, and sending a
group hands it to the child.
-/

namespace GlusterFS.WriteBehind

open Relation GlusterFS.Transition GlusterFS.Tiling

variable {Byte : Type*} {s t : WbState Byte} {id head : ReqId}

/-- A buffered write that has not been sent. -/
def WbRequest.Unsent (req : WbRequest Byte) : Prop :=
  req.tempted = true ∧ req.stage.rank ≤ 1
  deriving Decidable

def Event.sentWrite : Event Byte → Option (ChildWrite Byte)
  | .sent write => some write
  | _ => none

/-- The writes that carry a call, of those that the child got. -/
def WbState.transmissions (s : WbState Byte) (id : ReqId) : List (ChildWrite Byte) :=
  (s.log.filterMap Event.sentWrite).filter fun write => id ∈ write.carries.map Portion.id

/-- All that the child got, write by write. -/
def sentIds (log : List (Event Byte)) : List ReqId :=
  (log.filterMap Event.sentWrite).flatMap fun write => write.carries.map Portion.id

/-- Everything is in one place. -/
structure Owned (s : WbState Byte) : Prop where
  sent_lt : ∀ id ∈ sentIds s.log, id < s.next
  sent_nodup : (sentIds s.log).Nodup
  nodup : ∀ carrier, (s.req carrier).Unsent → (s.req carrier).carried.Nodup
  unique : ∀ id left right, (s.req left).Unsent → (s.req right).Unsent →
    id ∈ (s.req left).carried → id ∈ (s.req right).carried → left = right
  apart : ∀ id carrier, (s.req carrier).Unsent → id ∈ (s.req carrier).carried → id ∉ sentIds s.log
  complete : ∀ id, id < s.next → (s.req id).tempted = true →
    id ∈ sentIds s.log ∨ ∃ carrier, (s.req carrier).Unsent ∧ id ∈ (s.req carrier).carried

theorem Owned.congr (howned : Owned s) (hnext : t.next = s.next)
    (hsent : sentIds t.log = sentIds s.log)
    (hunsent : ∀ id, (t.req id).Unsent ↔ (s.req id).Unsent)
    (hcarried : ∀ id, (t.req id).carried = (s.req id).carried)
    (htempted : ∀ id, (t.req id).tempted = (s.req id).tempted) : Owned t where
  sent_lt := by rw [hsent, hnext]; exact howned.sent_lt
  sent_nodup := by rw [hsent]; exact howned.sent_nodup
  nodup carrier h := by rw [hcarried]; exact howned.nodup carrier ((hunsent carrier).mp h)
  unique id left right hleft hright := by
    rw [hcarried, hcarried]
    exact howned.unique id left right ((hunsent left).mp hleft) ((hunsent right).mp hright)
  apart id carrier h := by
    rw [hcarried, hsent]
    exact howned.apart id carrier ((hunsent carrier).mp h)
  complete id hid h := by
    rw [hsent]
    refine (howned.complete id (hnext ▸ hid) (htempted id ▸ h)).imp_right ?_
    rintro ⟨carrier, hcarrier, hmem⟩
    exact ⟨carrier, (hunsent carrier).mpr hcarrier, (hcarried carrier).symm ▸ hmem⟩

theorem Owned.of_keeps (howned : Owned s) (hkeeps : Keeps s t) (hlog : t.log = s.log)
    (hstage : ∀ id, (t.req id).stage = (s.req id).stage) : Owned t := by
  refine howned.congr hkeeps.next (hlog ▸ rfl) (fun id => ?_) hkeeps.carried hkeeps.tempted
  rw [WbRequest.Unsent, WbRequest.Unsent, hkeeps.tempted, hstage]

theorem WbRequest.Unsent.live {req : WbRequest Byte} (hunsent : req.Unsent) : req.Live :=
  ⟨hunsent.1, Nat.le_succ_of_le hunsent.2⟩

theorem Owned.pickMove {conf : WbConf} (howned : Owned s)
    (hmove : PickMove conf s t) : Owned t := by
  have hkeeps := hmove.keeps
  obtain @⟨id, hpicking⟩ := hmove
  refine howned.congr rfl rfl (fun other => ?_) hkeeps.carried hkeeps.tempted
  by_cases h : other = id
  · subst h
    rw [WbState.pick, WbState.modify_req_self, WbRequest.Unsent, WbRequest.Unsent, hpicking.stage]
    refine and_congr_right fun (htempted : (s.req other).tempted = true) => ?_
    simp [WbRequest.pick, htempted, Stage.rank]
  · rw [pick_req_of_ne h]

section Collapse

variable [Zero Byte] {conf : WbConf} {holder : ReqId}

theorem Collapsing.carried_holder (hcollapsing : Collapsing conf s holder id) :
    ((s.collapse holder id).req holder).carried =
      (s.req holder).carried ++ (s.req id).carried := by
  rw [collapse_req_holder (Nat.ne_of_lt hcollapsing.lt), carried_absorb]

theorem Collapsing.carried_of_ne (hcollapsing : Collapsing conf s holder id) {other : ReqId}
    (h : other ≠ holder) :
    ((s.collapse holder id).req other).carried = (s.req other).carried :=
  congrArg (List.map Portion.id) (collapse_carries_of_ne hcollapsing.lt h)

omit [Zero Byte] in
theorem Collapsing.unsent (hcollapsing : Collapsing conf s holder id) :
    (s.req holder).Unsent ∧ (s.req id).Unsent :=
  ⟨⟨hcollapsing.holds.tempted, by rw [hcollapsing.holds.stage]; decide⟩,
    ⟨hcollapsing.queued.tempted, by rw [hcollapsing.queued.stage]; decide⟩⟩

theorem Collapsing.unsent_iff (hcollapsing : Collapsing conf s holder id) (other : ReqId) :
    ((s.collapse holder id).req other).Unsent ↔ (s.req other).Unsent ∧ other ≠ id := by
  have hne : holder ≠ id := Nat.ne_of_lt hcollapsing.lt
  by_cases h : other = id
  · rw [h, collapse_req_id hne]
    refine iff_of_false (fun h => ?_) fun h => h.2 rfl
    exact absurd h.2 (show ¬4 ≤ 1 by decide)
  · by_cases hother : other = holder
    · rw [hother, collapse_req_holder hne]
      exact (and_iff_left hne).symm
    · rw [collapse_req_of_ne hother h]
      exact (and_iff_left h).symm

theorem Collapsing.tempted (hcollapsing : Collapsing conf s holder id) (write : ReqId) :
    ((s.collapse holder id).req write).tempted = (s.req write).tempted := by
  by_cases h : write = holder
  · rw [h, collapse_req_holder (Nat.ne_of_lt hcollapsing.lt)]
    rfl
  · exact congrArg (·.1.2.2.2.1) (collapse_data_of_ne (s := s) hcollapsing.lt h)

/-- Who had a write before the collapse. -/
theorem Collapsing.source (hcollapsing : Collapsing conf s holder id) {write carrier : ReqId}
    (hcarrier : ((s.collapse holder id).req carrier).Unsent)
    (hmem : write ∈ ((s.collapse holder id).req carrier).carried) :
    carrier ≠ id ∧ ∃ source, (s.req source).Unsent ∧ write ∈ (s.req source).carried ∧
      (source = carrier ∨ source = id ∧ carrier = holder) := by
  obtain ⟨hbefore, hnot⟩ := (hcollapsing.unsent_iff carrier).mp hcarrier
  refine ⟨hnot, ?_⟩
  by_cases h : carrier = holder
  · subst h
    rw [hcollapsing.carried_holder] at hmem
    rcases List.mem_append.mp hmem with hmem | hmem
    · exact ⟨carrier, hbefore, hmem, .inl rfl⟩
    · exact ⟨id, hcollapsing.unsent.2, hmem, .inr ⟨rfl, rfl⟩⟩
  · exact ⟨carrier, hbefore, hcollapsing.carried_of_ne h ▸ hmem, .inl rfl⟩

theorem Owned.collapse_nodup (howned : Owned s) (hcollapsing : Collapsing conf s holder id)
    {carrier : ReqId} (hcarrier : ((s.collapse holder id).req carrier).Unsent) :
    ((s.collapse holder id).req carrier).carried.Nodup := by
  have hne : holder ≠ id := Nat.ne_of_lt hcollapsing.lt
  obtain ⟨hholder, hqueued⟩ := hcollapsing.unsent
  by_cases h : carrier = holder
  · subst h
    rw [hcollapsing.carried_holder]
    refine List.nodup_append.mpr ⟨howned.nodup carrier hholder, howned.nodup id hqueued, ?_⟩
    rintro write hleft _ hright rfl
    exact hne (howned.unique write carrier id hholder hqueued hleft hright)
  · rw [hcollapsing.carried_of_ne h]
    exact howned.nodup carrier ((hcollapsing.unsent_iff carrier).mp hcarrier).1

theorem Owned.collapse_unique (howned : Owned s) (hcollapsing : Collapsing conf s holder id)
    {write left right : ReqId} (hleft : ((s.collapse holder id).req left).Unsent)
    (hright : ((s.collapse holder id).req right).Unsent)
    (hleftMem : write ∈ ((s.collapse holder id).req left).carried)
    (hrightMem : write ∈ ((s.collapse holder id).req right).carried) : left = right := by
  obtain ⟨hleftNe, first, hfirst, hfirstMem, hfirstCases⟩ := hcollapsing.source hleft hleftMem
  obtain ⟨hrightNe, second, hsecond, hsecondMem, hsecondCases⟩ :=
    hcollapsing.source hright hrightMem
  have hsame := howned.unique write first second hfirst hsecond hfirstMem hsecondMem
  subst hsame
  rcases hfirstCases with rfl | ⟨rfl, rfl⟩
  · rcases hsecondCases with h | ⟨h, _⟩
    · exact h
    · exact absurd h hleftNe
  · rcases hsecondCases with h | ⟨_, h⟩
    · exact absurd h.symm hrightNe
    · exact h.symm

/-- An unsent carrier is still there, or its request went to the holder. -/
theorem Collapsing.exists_carrier (hcollapsing : Collapsing conf s holder id)
    {write carrier : ReqId} (hcarrier : (s.req carrier).Unsent)
    (hmem : write ∈ (s.req carrier).carried) :
    ∃ other, ((s.collapse holder id).req other).Unsent ∧
      write ∈ ((s.collapse holder id).req other).carried := by
  have hne : holder ≠ id := Nat.ne_of_lt hcollapsing.lt
  by_cases h : carrier = id
  · refine ⟨holder, (hcollapsing.unsent_iff holder).mpr ⟨hcollapsing.unsent.1, hne⟩, ?_⟩
    rw [hcollapsing.carried_holder]
    exact List.mem_append_right _ (h ▸ hmem)
  · refine ⟨carrier, (hcollapsing.unsent_iff carrier).mpr ⟨hcarrier, h⟩, ?_⟩
    by_cases hholder : carrier = holder
    · subst hholder
      rw [hcollapsing.carried_holder]
      exact List.mem_append_left _ hmem
    · rwa [hcollapsing.carried_of_ne hholder]

/-- The holder takes over what the collapsed request carried. -/
theorem Owned.collapse (howned : Owned s) (hcollapsing : Collapsing conf s holder id) :
    Owned (s.collapse holder id) := by
  have hlog : (s.collapse holder id).log = s.log := (WbState.fulfillRequest_frame ..).2.1
  have hnext : (s.collapse holder id).next = s.next := (WbState.fulfillRequest_frame ..).1
  constructor
  case sent_lt => rw [hlog, hnext]; exact howned.sent_lt
  case sent_nodup => rw [hlog]; exact howned.sent_nodup
  case nodup => exact fun _ hcarrier => howned.collapse_nodup hcollapsing hcarrier
  case unique =>
    exact fun _ _ _ hleft hright hleftMem hrightMem =>
      howned.collapse_unique hcollapsing hleft hright hleftMem hrightMem
  case apart =>
    intro write carrier hcarrier hmem
    obtain ⟨_, source, hsourceUnsent, hsourceMem, _⟩ := hcollapsing.source hcarrier hmem
    rw [hlog]
    exact howned.apart write source hsourceUnsent hsourceMem
  case complete =>
    intro write hwrite htempted
    rw [hlog]
    refine (howned.complete write (hnext ▸ hwrite)
      (hcollapsing.tempted write ▸ htempted)).imp_right ?_
    rintro ⟨carrier, hcarrier, hmem⟩
    exact hcollapsing.exists_carrier hcarrier hmem

end Collapse

theorem Owned.preMove [Zero Byte] {conf : WbConf}
    {condition : WbState Byte → ReqId → ReqId → Prop} (howned : Owned s)
    (hmove : PreMove conf condition s t) : Owned t := by
  cases hmove with
  | @go id _ =>
    exact howned.of_keeps (keeps_modify rfl) rfl (s.modify_field id _ WbRequest.stage rfl)
  | collapse hcollapsing _ => exact howned.collapse hcollapsing

theorem Owned.process [Zero Byte] {conf : WbConf} {noIobuf : List ReqId} (howned : Owned s)
    (hinv : QueueInv s) : Owned (wbProcessQueue conf noIobuf s) := by
  refine wbProcessQueue_preserves Owned hinv (collapsesSatisfy_true (s, none) s.todo)
    (fun _ _ hmove h => h.preMove hmove) (fun _ _ hmove h => h.pickMove hmove)
    (fun _ _ hmove h => ?_) (fun _ _ hmove h => ?_) howned
  all_goals
    have hstage := hmove.stage
    have hkeeps := hmove.keeps
    obtain ⟨_⟩ := hmove
    exact h.of_keeps hkeeps rfl hstage

theorem Owned.enqueueCommon [Zero Byte] {stub : CallStub Byte} {tempted : Bool}
    (howned : Owned s) (hcontent : Content s) (hinv : QueueInv s) :
    Owned (s.enqueueCommon stub tempted) := by
  have hself := enqueueCommon_req_next (s := s) stub tempted
  have hother {id : ReqId} (hne : id ≠ s.next) :
      (s.enqueueCommon stub tempted).req id = s.req id := enqueueCommon_req_of_ne hne
  have hnew : ((s.enqueueCommon stub tempted).req s.next).carried = [s.next] :=
    congrArg WbRequest.carried hself
  have hold {write carrier : ReqId} (hmem : write ∈ (s.req carrier).carried) : write < s.next :=
    (hcontent.part_of_carried hmem).2.lt_next
  have hsent : sentIds (s.enqueueCommon stub tempted).log = sentIds s.log := rfl
  constructor
  case sent_lt =>
    intro id hid
    exact Nat.lt_succ_of_lt (howned.sent_lt id hid)
  case sent_nodup => exact howned.sent_nodup
  case nodup =>
    intro carrier hcarrier
    by_cases h : carrier = s.next
    · rw [h, hnew]
      simp
    · rw [hother h] at hcarrier ⊢
      exact howned.nodup carrier hcarrier
  case unique =>
    intro write left right hleft hright hleftMem hrightMem
    by_cases hl : left = s.next <;> by_cases hr : right = s.next
    · rw [hl, hr]
    · rw [hl, hnew] at hleftMem
      rw [hother hr] at hrightMem
      exact absurd (List.mem_singleton.mp hleftMem) (Nat.ne_of_lt (hold hrightMem))
    · rw [hr, hnew] at hrightMem
      rw [hother hl] at hleftMem
      exact absurd (List.mem_singleton.mp hrightMem) (Nat.ne_of_lt (hold hleftMem))
    · rw [hother hl] at hleft hleftMem
      rw [hother hr] at hright hrightMem
      exact howned.unique write left right hleft hright hleftMem hrightMem
  case apart =>
    intro write carrier hcarrier hmem
    by_cases h : carrier = s.next
    · rw [h, hnew] at hmem
      rw [List.mem_singleton.mp hmem]
      exact fun hsent => Nat.lt_irrefl _ (howned.sent_lt s.next hsent)
    · rw [hother h] at hcarrier hmem
      exact howned.apart write carrier hcarrier hmem
  case complete =>
    intro write hwrite htempted
    by_cases h : write = s.next
    · subst h
      refine .inr ⟨s.next, ⟨htempted, ?_⟩, ?_⟩
      · rw [hself]
        exact Nat.zero_le _
      · rw [hnew]
        exact List.mem_singleton.mpr rfl
    · rw [hother h] at htempted
      have hlt : write < s.next := Nat.lt_of_le_of_ne (Nat.le_of_lt_succ hwrite) h
      refine (howned.complete write hlt htempted).imp_right ?_
      rintro ⟨carrier, hcarrier, hmem⟩
      have hne : carrier ≠ s.next := by
        rintro rfl
        have hblank := hcarrier.1
        rw [hinv.fresh s.next (Nat.le_refl _)] at hblank
        cases hblank
      refine ⟨carrier, ?_, ?_⟩ <;> rw [hother hne]
      · exact hcarrier
      · exact hmem

/-! ## Sending -/

variable {label : WbLabel Byte}

section Sending

variable [Zero Byte]

omit [Zero Byte] in
/-- The members of a group are distinct, and so are the writes they carry. -/
theorem Owned.group_nodup (howned : Owned s) (hinv : QueueInv s) (hhead : s.HeadAt head .picked) :
    ((s.group head).flatMap fun id => (s.req id).carried).Nodup := by
  have hunsent {id : ReqId} (hid : id ∈ s.group head) : (s.req id).Unsent := by
    obtain ⟨htempted, hstage⟩ := hinv.group_member hhead
      ((hinv.mem_group_iff hhead (by simp)).mp hid)
    exact ⟨htempted, by rw [hstage]; decide⟩
  have hgroup : (s.group head).Nodup := by
    refine List.nodup_cons.mpr ⟨fun h => ?_,
      (hinv.sorted.sublist List.filter_sublist).imp Nat.ne_of_lt⟩
    have hself := (WbState.mem_winds.mp h).2
    rw [hhead.2.1] at hself
    cases hself
  refine List.nodup_flatMap.mpr ⟨fun id hid => howned.nodup id (hunsent hid), ?_⟩
  refine hgroup.imp_of_mem fun hleft hright hne => ?_
  intro write hleftMem hrightMem
  exact hne (howned.unique write _ _ (hunsent hleft) (hunsent hright) hleftMem hrightMem)

/-- Sending a group hands what it carries to the child. -/
theorem Owned.sent (howned : Owned s) (hinv : QueueInv s) (hpasses : Passes s t)
    (hcontent : Content s) (hhead : s.HeadAt head .picked)
    (hstays : Stays s t (InGroup s head))
    (hmembers : ∀ id, InGroup s head id → (t.req id).stage = .wound)
    (hlog : t.log = .sent (s.childWrite head) :: s.log) : Owned t := by
  have hcarried := hpasses.keeps.carried
  have hunsent (id : ReqId) : (t.req id).Unsent ↔ (s.req id).Unsent ∧ ¬InGroup s head id := by
    by_cases hid : InGroup s head id
    · refine iff_of_false (fun h => ?_) fun h => h.2 hid
      have hrank := h.2
      rw [hmembers id hid] at hrank
      exact absurd hrank (by decide)
    · refine ⟨fun h => ⟨⟨hpasses.keeps.tempted id ▸ h.1,
        Nat.le_trans (hpasses.record id).rank h.2⟩, hid⟩, fun h => ⟨?_, ?_⟩⟩
      · rw [hpasses.keeps.tempted]
        exact h.1.1
      · rw [(hstays id h.1.live hid).1]
        exact h.1.2
  have hgroup (write : ReqId) : write ∈ (s.group head).flatMap (fun id => (s.req id).carried) ↔
        ∃ id, InGroup s head id ∧ write ∈ (s.req id).carried := by
    simp only [List.mem_flatMap, hinv.mem_group_iff hhead (show Stage.picked ≠ .done by simp)]
  have hmemberUnsent {id : ReqId} (hid : InGroup s head id) : (s.req id).Unsent := by
    obtain ⟨htempted, hstage⟩ := hinv.group_member hhead hid
    exact ⟨htempted, by rw [hstage]; decide⟩
  have hsent : sentIds t.log =
      (s.group head).flatMap (fun id => (s.req id).carried) ++ sentIds s.log := by
    simp [hlog, sentIds, Event.sentWrite, WbState.childWrite, List.map_flatMap, WbRequest.carried]
  constructor
  case sent_lt =>
    intro write hwrite
    rw [hsent] at hwrite
    rw [hpasses.next]
    rcases List.mem_append.mp hwrite with h | h
    · obtain ⟨id, _, hmem⟩ := (hgroup write).mp h
      exact (hcontent.part_of_carried hmem).2.lt_next
    · exact howned.sent_lt write h
  case sent_nodup =>
    rw [hsent]
    refine List.nodup_append.mpr ⟨howned.group_nodup hinv hhead, howned.sent_nodup, ?_⟩
    rintro write hnew _ hold rfl
    obtain ⟨id, hid, hmem⟩ := (hgroup write).mp hnew
    exact howned.apart write id (hmemberUnsent hid) hmem hold
  case nodup =>
    intro carrier hcarrier
    rw [hcarried]
    exact howned.nodup carrier ((hunsent carrier).mp hcarrier).1
  case unique =>
    intro write left right hleft hright
    rw [hcarried, hcarried]
    exact howned.unique write left right ((hunsent left).mp hleft).1 ((hunsent right).mp hright).1
  case apart =>
    intro write carrier hcarrier hmem hwrite
    obtain ⟨hbefore, hnot⟩ := (hunsent carrier).mp hcarrier
    rw [hcarried] at hmem
    rw [hsent] at hwrite
    rcases List.mem_append.mp hwrite with h | h
    · obtain ⟨id, hid, hidMem⟩ := (hgroup write).mp h
      exact hnot (howned.unique write id carrier (hmemberUnsent hid) hbefore hidMem hmem ▸ hid)
    · exact howned.apart write carrier hbefore hmem h
  case complete =>
    intro write hwrite htempted
    rw [hsent]
    rcases howned.complete write (hpasses.next ▸ hwrite) (hpasses.keeps.tempted write ▸ htempted)
      with h | ⟨carrier, hcarrier, hmem⟩
    · exact .inl (List.mem_append_right _ h)
    · by_cases hid : InGroup s head carrier
      · exact .inl (List.mem_append_left _ ((hgroup write).mpr ⟨carrier, hid, hmem⟩))
      · exact .inr ⟨carrier, (hunsent carrier).mpr ⟨hcarrier, hid⟩, (hcarried carrier).symm ▸ hmem⟩

omit [Zero Byte] in
theorem Owned.passes (howned : Owned s) (hpasses : Passes s t)
    (hsent : sentIds t.log = sentIds s.log)
    (hstays : ∀ id, (s.req id).Unsent → (t.req id).stage = (s.req id).stage) : Owned t := by
  refine howned.congr hpasses.next hsent (fun id => ⟨fun h => ⟨?_, ?_⟩, fun h => ⟨?_, ?_⟩⟩)
    hpasses.keeps.carried hpasses.keeps.tempted
  · exact hpasses.keeps.tempted id ▸ h.1
  · exact Nat.le_trans (hpasses.record id).rank h.2
  · rw [hpasses.keeps.tempted]
    exact h.1
  · rw [hstays id h]
    exact h.2

theorem Owned.effect (howned : Owned s) (hinv : QueueInv s) (hcontent : Content s)
    (hpasses : Passes s t) (heffect : Effect s t label)
    (hframe : ∀ head frame, label = .fulfillHead head frame →
      s.fdError (s.req head).fd = none ∧ frame = true) : Owned t := by
  have hkept (hsent : sentIds t.log = sentIds s.log) (hstays : Stays s t fun _ => False) :
      Owned t :=
    howned.passes hpasses hsent fun id h => (hstays id h.live not_false).1
  cases heffect with
  | silent hstays _ hlog => exact hkept (hlog ▸ rfl) hstays
  | unwound _ _ hstays _ hlog => exact hkept (hlog ▸ rfl) hstays
  | refused _ hstays _ hlog => exact hkept (hlog ▸ rfl) hstays
  | wound _ _ hstays _ hlog =>
    exact hkept (by rcases hlog with hlog | hlog <;> exact hlog ▸ rfl) hstays
  | replied _ _ hstays _ hlog => exact hkept (hlog ▸ rfl) hstays
  | @dropped head frame _ hcause =>
    obtain ⟨hnone, htrue⟩ := hframe head frame rfl
    simp [hnone, htrue] at hcause
  | sent hhead hstays hmembers _ _ hlog =>
    exact howned.sent hinv hpasses hcontent hhead hstays hmembers hlog
  | acked hhead _ hstays _ _ _ hlog =>
    refine howned.passes hpasses (hlog ▸ rfl) fun id h => (hstays id h.live fun hid => ?_).1
    have hrank := h.2
    rw [(hinv.group_member hhead hid).2] at hrank
    exact absurd hrank (by decide)

end Sending

/-! ## Runs without errors -/

section Runs

variable [Zero Byte] {conf : WbConf}

/-- The child writes all that it is given. -/
def ChildAnswersFully (s : WbState Byte) : WbLabel Byte → Prop
  | .writeReply head opRet _ => opRet = (s.childWrite head).data.length
  | _ => True

/-- Besides, only intact holders take in other writes, and there is memory for
frames. -/
def FaultFree (conf : WbConf) (s : WbState Byte) : WbLabel Byte → Prop
  | .writeReply head opRet _ => opRet = (s.childWrite head).data.length
  | .process noIobuf => CollapsesSatisfy conf noIobuf HolderIntact (s, none) s.todo
  | .fulfillHead _ frame => frame = true
  | _ => True

instance (s : WbState Byte) (label : WbLabel Byte) : Decidable (ChildAnswersFully s label) :=
  match label with
  | .writeReply _ opRet _ => inferInstanceAs (Decidable (opRet = _))
  | .process _ | .fulfillHead _ _ | .arrive _ | .enqueue _ | .unwind _ | .resume _ _
  | .callReply _ _ | .headDone _ => inferInstanceAs (Decidable True)

instance (s : WbState Byte) (label : WbLabel Byte) : Decidable (FaultFree conf s label) :=
  match label with
  | .writeReply _ opRet _ => inferInstanceAs (Decidable (opRet = _))
  | .process _ => inferInstanceAs (Decidable (CollapsesSatisfy ..))
  | .fulfillHead _ frame => inferInstanceAs (Decidable (frame = true))
  | .arrive _ | .enqueue _ | .unwind _ | .resume _ _ | .callReply _ _ | .headDone _ =>
    inferInstanceAs (Decidable True)

theorem faultFree_guards :
    GuardsCollapses conf (FaultFree conf : WbState Byte → WbLabel Byte → Prop) :=
  fun _ _ h => h

theorem sameErrors_of_faultFree (hinv : QueueInv s) (hcontent : Content s) (hcounted : Counted s)
    (hnone : ∀ fd, s.fdErr fd = none) (hallowed : FaultFree conf s label)
    (heffect : Effect s t label) : SameErrors s t := by
  cases heffect with
  | silent _ herrors => exact herrors
  | unwound _ _ _ herrors => exact herrors
  | refused _ _ herrors => exact herrors
  | wound _ _ _ herrors => exact herrors
  | replied _ _ _ herrors => exact herrors
  | @dropped head frame _ hcause =>
    have htrue : frame = true := hallowed
    have hfree : s.fdError (s.req head).fd = none := by
      simp [WbState.fdError, hnone]
    simp [htrue, hfree] at hcause
  | sent _ _ _ _ herrors => exact herrors
  | @acked head opRet _ hhead _ _ _ _ herrors =>
    have hfull : opRet = (s.childWrite head).data.length := hallowed
    refine herrors (Int.le_of_eq ?_)
    rw [hfull, hcounted.full_reply hcontent hinv hhead]

/-- Without errors of the child or of memory, no fd is ever bad. -/
theorem noErrors_of_faultFree
    (hreach : ReachableUnder (wbStep conf) (FaultFree conf) WbState.create s) :
    ∀ fd, s.fdErr fd = none := by
  refine hreach.invariant_along (fun s => ∀ fd, s.fdErr fd = none) (fun _ => rfl) ?_
  intro before label after hbefore hallowed hstep hnone fd
  have hinv := queueInv_of_reachableUnder hbefore
  rcases (wbStep_cases hinv hstep).2 with ⟨index, stub, _, _, rfl⟩ | ⟨noIobuf, rfl, rfl⟩ |
    ⟨_, heffect⟩
  · exact hnone fd
  · rw [(wbProcessQueue_rest hinv).2.1]
    exact hnone fd
  · have herrors := sameErrors_of_faultFree hinv
      (content_of_reachableUnder faultFree_guards hbefore)
      (counted_of_reachableUnder hbefore) hnone hallowed heffect fd
    simpa [hnone fd] using herrors

omit [Zero Byte] in
theorem owned_create : Owned (WbState.create : WbState Byte) where
  sent_lt _ h := nomatch h
  sent_nodup := .nil
  nodup _ h := nomatch h.1
  unique _ _ _ h := nomatch h.1
  apart _ _ h := nomatch h.1
  complete _ h := absurd h (Nat.not_lt_zero _)

theorem owned_of_faultFree
    (hreach : ReachableUnder (wbStep conf) (FaultFree conf) WbState.create s) : Owned s := by
  refine hreach.invariant_along Owned owned_create ?_
  intro before label after hbefore hallowed hstep howned
  have hinv := queueInv_of_reachableUnder hbefore
  have hcontent := content_of_reachableUnder faultFree_guards hbefore
  rcases (wbStep_cases hinv hstep).2 with ⟨index, stub, _, _, rfl⟩ | ⟨noIobuf, rfl, rfl⟩ |
    ⟨hpasses, heffect⟩
  · have hnew : Owned (before.enqueue conf stub) := howned.enqueueCommon hcontent hinv
    exact hnew.congr rfl rfl (fun _ => Iff.rfl) (fun _ => rfl) fun _ => rfl
  · exact howned.process hinv
  · refine howned.effect hinv hcontent hpasses heffect fun head frame hlabel => ?_
    subst hlabel
    refine ⟨?_, hallowed⟩
    simp [WbState.fdError, noErrors_of_faultFree hbefore]

/-- What the child got is made of whole writes. -/
structure SentSound (s : WbState Byte) (write : ChildWrite Byte) : Prop where
  sound : write.Sound
  parts : ∀ portion ∈ write.carries, portion.id < s.next ∧
    portion = (s.req portion.id).stub.portion portion.id

variable {write : ChildWrite Byte}

omit [Zero Byte] in
theorem SentSound.of_fixed (hsent : SentSound s write) (hnext : s.next ≤ t.next)
    (hfixed : ∀ id, id < s.next → (t.req id).fixed = (s.req id).fixed) : SentSound t write := by
  refine ⟨hsent.sound, fun portion hportion => ?_⟩
  obtain ⟨hlt, hwhole⟩ := hsent.parts portion hportion
  refine ⟨Nat.lt_of_lt_of_le hlt hnext, ?_⟩
  rw [show (t.req portion.id).stub = (s.req portion.id).stub from
    congrArg (·.1) (hfixed portion.id hlt)]
  exact hwhole

theorem Content.sentSound (hcontent : Content s) (hinv : QueueInv s) {stage : Stage}
    (hhead : s.HeadAt head stage) (hstage : stage ≠ .todo ∧ stage ≠ .done) :
    SentSound s (s.childWrite head) := by
  refine ⟨hcontent.childWrite_sound hinv hhead hstage, fun portion hportion => ?_⟩
  obtain ⟨id, _, hmem⟩ := List.mem_flatMap.mp hportion
  have hpart := hcontent.parts id portion hmem
  exact ⟨hpart.lt_next, hpart.whole⟩

omit [Zero Byte] in
theorem mem_sentWrites_cons {event : Event Byte} {log : List (Event Byte)} :
    write ∈ (event :: log).filterMap Event.sentWrite ↔
      event = .sent write ∨ write ∈ log.filterMap Event.sentWrite := by
  cases event <;> simp [Event.sentWrite, eq_comm]

theorem Effect.sentWrites (heffect : Effect s t label) :
    t.log.filterMap Event.sentWrite = s.log.filterMap Event.sentWrite ∨
      ∃ head, s.HeadAt head .picked ∧ t.log = .sent (s.childWrite head) :: s.log := by
  cases heffect with
  | silent _ _ hlog => exact .inl (hlog ▸ rfl)
  | unwound _ _ _ _ hlog => exact .inl (hlog ▸ rfl)
  | refused _ _ _ hlog => exact .inl (hlog ▸ rfl)
  | wound _ _ _ _ hlog => exact .inl (by rcases hlog with hlog | hlog <;> exact hlog ▸ rfl)
  | replied _ _ _ _ hlog => exact .inl (hlog ▸ rfl)
  | dropped _ _ _ _ _ hlog => exact .inl (hlog ▸ rfl)
  | sent hhead _ _ _ _ hlog => exact .inr ⟨_, hhead, hlog⟩
  | acked _ _ _ _ _ _ hlog => exact .inl (hlog ▸ rfl)

theorem sentSound_of_guarded {guard : WbState Byte → WbLabel Byte → Prop}
    (hguard : GuardsCollapses conf guard)
    (hreach : ReachableUnder (wbStep conf) guard WbState.create s) :
    ∀ write ∈ s.log.filterMap Event.sentWrite, SentSound s write := by
  refine hreach.invariant_along
    (fun s => ∀ write ∈ s.log.filterMap Event.sentWrite, SentSound s write)
    (fun _ h => by simp [WbState.create] at h) ?_
  intro before label after hbefore _ hstep hsound write hwrite
  have hinv := queueInv_of_reachableUnder hbefore
  have hcontent := content_of_reachableUnder hguard hbefore
  obtain ⟨hnext, hfixed⟩ := wbStep_fixed hinv hstep
  suffices h : SentSound before write from h.of_fixed hnext hfixed
  rcases (wbStep_cases hinv hstep).2 with ⟨index, stub, _, _, rfl⟩ | ⟨noIobuf, rfl, rfl⟩ |
    ⟨_, heffect⟩
  · exact hsound write hwrite
  · rw [(wbProcessQueue_rest hinv).1] at hwrite
    exact hsound write hwrite
  · rcases heffect.sentWrites with hsame | ⟨head, hhead, hlog⟩
    · exact hsound write (hsame ▸ hwrite)
    · rw [hlog, mem_sentWrites_cons] at hwrite
      rcases hwrite with hnew | hold
      · cases hnew
        exact hcontent.sentSound hinv hhead (by simp)
      · exact hsound write hold

/-! ## Conservation -/

/-- Different calls contribute disjoint regions that make up the write. -/
def ChildWrite.Tiled (write : ChildWrite Byte) : Prop :=
  (write.carries.map Portion.id).Nodup ∧ (write.carries.Pairwise fun left right => ∀ position,
      ¬(Occupies Portion.offset Portion.bytes left position ∧
        Occupies Portion.offset Portion.bytes right position)) ∧
    ∀ position, (∃ portion ∈ write.carries,
        Occupies Portion.offset Portion.bytes portion position) ↔
      write.offset ≤ position ∧ position < write.offset + write.data.length

/-- A buffered write was transmitted once, with all its bytes, or it waits in a
request that has not been sent. -/
def WbState.Conserved (s : WbState Byte) (id : ReqId) : Prop :=
  (∃ write, s.transmissions id = [write] ∧ write.Contains (s.req id).stub) ∨
    s.transmissions id = [] ∧ ∃ carrier, (s.req carrier).Unsent ∧
      (s.req id).stub.portion id ∈ (s.req carrier).carries

omit [Zero Byte] in
theorem ChildWrite.Sound.tiled (hsound : write.Sound)
    (hnodup : (write.carries.map Portion.id).Nodup) : write.Tiled := by
  refine ⟨hnodup, hsound.laid.disjoint, fun position => ⟨?_, ?_⟩⟩
  · rintro ⟨portion, hportion, hoccupies⟩
    rw [hsound.data]
    exact hsound.laid.occupied hportion hoccupies
  · rintro ⟨hfrom, hto⟩
    rw [hsound.data] at hto
    exact hsound.laid.covers hfrom hto

omit [Zero Byte] in
/-- In a list of disjoint parts, one part has a given member. -/
theorem filter_eq_singleton {α β : Type*} [DecidableEq β] {parts : List α} {part : α → List β}
    {member : β} (hnodup : (parts.flatMap part).Nodup) (hmem : member ∈ parts.flatMap part) :
    ∃ owner, parts.filter (fun other => member ∈ part other) = [owner] := by
  induction parts with
  | nil => simp at hmem
  | cons first rest ih =>
    rw [List.flatMap_cons] at hnodup hmem
    obtain ⟨_, hrest, hapart⟩ := List.nodup_append.mp hnodup
    by_cases h : member ∈ part first
    · refine ⟨first, ?_⟩
      have hnone : rest.filter (fun other => member ∈ part other) = [] := by
        refine List.filter_eq_nil_iff.mpr fun other hother hmember => ?_
        exact hapart member h member
          (List.mem_flatMap.mpr ⟨other, hother, by simpa using hmember⟩) rfl
      simp [h, hnone]
    · obtain ⟨owner, howner⟩ := ih hrest ((List.mem_append.mp hmem).resolve_left h)
      exact ⟨owner, by simpa [h] using howner⟩

theorem buffered_writes_conserved
    (hreach : ReachableUnder (wbStep conf) (FaultFree conf) WbState.create s) :
    (∀ id, id < s.next → (s.req id).tempted = true → s.Conserved id) ∧
      ∀ write, .sent write ∈ s.log → write.Tiled := by
  have howned := owned_of_faultFree hreach
  have hcontent := content_of_reachableUnder faultFree_guards hreach
  have hsound := sentSound_of_guarded faultFree_guards hreach
  have hsentWrite {write : ChildWrite Byte} (hwrite : .sent write ∈ s.log) :
      write ∈ s.log.filterMap Event.sentWrite :=
    List.mem_filterMap.mpr ⟨.sent write, hwrite, rfl⟩
  constructor
  · intro id hid htempted
    rcases howned.complete id hid htempted with hsent | ⟨carrier, hcarrier, hmem⟩
    · obtain ⟨write, hwrite⟩ := filter_eq_singleton howned.sent_nodup hsent
      have hfiltered : write ∈ s.transmissions id := by
        rw [WbState.transmissions, hwrite]
        exact List.mem_singleton.mpr rfl
      obtain ⟨hmem, hcarries⟩ := List.mem_filter.mp hfiltered
      obtain ⟨portion, hportion, rfl⟩ := List.mem_map.mp (of_decide_eq_true hcarries)
      obtain ⟨_, hwhole⟩ := (hsound write hmem).parts portion hportion
      exact .inl ⟨write, hwrite, (hsound write hmem).sound.contains (hwhole ▸ hportion)⟩
    · refine .inr ⟨List.filter_eq_nil_iff.mpr fun write hwrite h =>
        howned.apart id carrier hcarrier hmem
          (List.mem_flatMap.mpr ⟨write, hwrite, by simpa using h⟩),
        carrier, hcarrier, ?_⟩
      obtain ⟨portion, hportion, rfl⟩ := List.mem_map.mp hmem
      rw [← (hcontent.parts carrier portion hportion).whole]
      exact hportion
  · intro write hwrite
    have hmem := hsentWrite hwrite
    refine (hsound write hmem).sound.tiled ?_
    exact (List.nodup_flatMap.mp howned.sent_nodup).1 write hmem

/-- Two small writes leave as one, which the child acknowledges. -/
def collapsedAndSent : List (WbLabel Nat) :=
  queueWrite 0 [[1, 2]] ++ queueWrite 2 [[3]] ++
    [.process [], .fulfillHead 0 true, .writeReply 0 3 0, .headDone 0]

theorem buffered_writes_conserved_collapsed :
    ∃ s, run (wbStep tricklingConf) WbState.create collapsedAndSent = some s ∧
      (s.transmissions 1).map ChildWrite.data = [[1, 2, 3]] ∧
      (∀ id, id < s.next → (s.req id).tempted = true → s.Conserved id) ∧
      ∀ write, .sent write ∈ s.log → write.Tiled := by
  obtain ⟨s, hrun⟩ : ∃ s,
      run (wbStep tricklingConf) WbState.create collapsedAndSent = some s := ⟨_, rfl⟩
  have hdata : (s.transmissions 1).map ChildWrite.data = [[1, 2, 3]] := by
    cases hrun
    decide
  exact ⟨s, hrun, hdata,
    buffered_writes_conserved (.of_run collapsedAndSent .start (by decide) hrun)⟩

def collapsedIntoTwoIovecs : List (WbLabel Nat) :=
  queueWrite 0 [[1], [2, 3]] ++ [.process [], .unwind 0] ++
    queueWrite 3 [[4]] ++ [.process [], .unwind 1] ++
    queueWrite 30 [[5]] ++ [.process [], .fulfillHead 0 true]

/-- The new iovec of the holder is as long as its first one was and what came
in: the child gets two bytes of the four. -/
theorem collapsed_bytes_lost : ¬∀ s : WbState Nat,
      ReachableUnder (wbStep windowConf) ChildAnswersFully WbState.create s →
        ∀ id, id < s.next → (s.req id).tempted = true → s.Conserved id := by
  intro hall
  obtain ⟨s, hrun⟩ : ∃ s,
      run (wbStep windowConf) WbState.create collapsedIntoTwoIovecs = some s := ⟨_, rfl⟩
  have hconserved := hall s (.of_run collapsedIntoTwoIovecs .start (by decide) hrun) 1
  have hsent : (s.transmissions 1).map (fun write => (write.offset, write.data)) =
      [(0, [1, 2])] := by
    cases hrun
    decide
  have hstub : (s.req 1).stub.offset = 3 ∧ (s.req 1).stub.bytes = [4] := by
    cases hrun
    decide
  have haccepted : 1 < s.next ∧ (s.req 1).tempted = true := by
    cases hrun
    decide
  rcases hconserved haccepted.1 haccepted.2 with
    ⟨write, hwrite, skip, hskip, hdata⟩ | ⟨hnone, _⟩
  · rw [hwrite] at hsent
    obtain ⟨hoffset, hbytes⟩ := Prod.mk.inj (List.cons.inj hsent).1
    rw [hoffset, hstub.1] at hskip
    rw [hbytes, hstub.2, List.drop_of_length_le (by simp; omega)] at hdata
    simp at hdata
  · simp [hnone] at hsent

end Runs

end GlusterFS.WriteBehind
