import GlusterFS.Core.Transition
import GlusterFS.WriteBehind.Steps

/-!
# What happens under the lock

`wb_process_queue` changes the queue by a sequence of small moves: a holder is
let go or takes in a request, a request is picked for the child or for its
caller, and a picked write is put behind a head.  Each move comes with what the
loops of the source have checked before they make it.
-/

namespace GlusterFS.WriteBehind

open Relation GlusterFS.Transition

variable {Byte : Type*}

/-- What fulfilling leaves of a request. -/
def WbRequest.fulfill (req : WbRequest Byte) : WbRequest Byte :=
  { req with fulfilled := true, stage := .done }.dropRef

variable {other : ReqId}

namespace WbState

variable (s : WbState Byte) (id : ReqId) (f : WbRequest Byte → WbRequest Byte)

theorem modify_req (other : ReqId) :
    (s.modify id f).req other = if other = id then f (s.req id) else s.req other :=
  Function.update_apply ..

@[simp]
theorem modify_req_self : (s.modify id f).req id = f (s.req id) := by
  rw [modify_req, if_pos rfl]

theorem modify_req_of_ne (hne : other ≠ id) : (s.modify id f).req other = s.req other := by
  rw [modify_req, if_neg hne]

theorem modify_field {α : Type*} (field : WbRequest Byte → α)
    (hsame : field (f (s.req id)) = field (s.req id)) (other : ReqId) :
    field ((s.modify id f).req other) = field (s.req other) := by
  rw [modify_req]
  split_ifs with h
  · rw [hsame, h]
  · rfl

@[simp]
theorem modify_frame : (s.modify id f).all = s.all ∧ (s.modify id f).gen = s.gen ∧
    (s.modify id f).next = s.next ∧ (s.modify id f).log = s.log ∧
    (s.modify id f).fdErr = s.fdErr :=
  ⟨rfl, rfl, rfl, rfl, rfl⟩

theorem unref_req (other : ReqId) : (s.unref id).req other =
      if other = id then (s.req id).dropRef else s.req other := by
  unfold unref
  split_ifs <;> simp_all [modify_req]

theorem unref_all : (s.unref id).all =
      if (s.req id).refcount = 1 then s.all.filter (· ≠ id) else s.all := by
  unfold unref
  split_ifs <;> simp_all

theorem unref_gen : (s.unref id).all = [] ∨ (s.unref id).gen = s.gen := by
  unfold unref
  by_cases hlast : s.all.filter (· ≠ id) = []
  · split_ifs
    · exact .inl hlast
    · exact .inr rfl
  · split_ifs
    · exact .inr (if_neg hlast)
    · exact .inr rfl

@[simp]
theorem unref_frame : (s.unref id).next = s.next ∧ (s.unref id).log = s.log ∧
    (s.unref id).fdErr = s.fdErr := by
  unfold unref
  split_ifs <;> exact ⟨rfl, rfl, rfl⟩

theorem fulfillRequest_req (other : ReqId) : (s.fulfillRequest id).req other =
      if other = id then (s.req id).fulfill else s.req other := by
  rw [fulfillRequest, unref_req]
  by_cases h : other = id
  · simp [h, WbRequest.fulfill]
  · simp [h, modify_req_of_ne]

theorem fulfillRequest_all : (s.fulfillRequest id).all =
      if (s.req id).refcount = 1 then s.all.filter (· ≠ id) else s.all := by
  rw [fulfillRequest, unref_all]
  simp

@[simp]
theorem fulfillRequest_frame : (s.fulfillRequest id).next = s.next ∧
    (s.fulfillRequest id).log = s.log ∧ (s.fulfillRequest id).fdErr = s.fdErr :=
  unref_frame _ id

section Errors

variable (fd : Option Fd) (errno : Nat) (event : Event Byte)

@[simp] theorem record_req : (s.record event).req = s.req := rfl

@[simp]
theorem setFdErr_frame : (s.setFdErr fd errno).req = s.req ∧ (s.setFdErr fd errno).all = s.all ∧
    (s.setFdErr fd errno).gen = s.gen ∧ (s.setFdErr fd errno).next = s.next ∧
    (s.setFdErr fd errno).log = s.log := by
  cases fd <;> exact ⟨rfl, rfl, rfl, rfl, rfl⟩

@[simp]
theorem markBad_frame : (s.markBad fd).req = s.req ∧ (s.markBad fd).all = s.all ∧
    (s.markBad fd).gen = s.gen ∧ (s.markBad fd).next = s.next ∧ (s.markBad fd).log = s.log := by
  rw [markBad]
  split_ifs <;> simp

end Errors

variable {s id}

theorem mem_fulfillRequest_of_ne (hne : other ≠ id) (hmem : other ∈ s.all) :
    other ∈ (s.fulfillRequest id).all := by
  rw [fulfillRequest_all]
  split_ifs
  · simp [hmem, hne]
  · exact hmem

theorem mem_todo : id ∈ s.todo ↔ id ∈ s.all ∧ (s.req id).stage = .todo := by
  simp [todo]

theorem mem_temptation : id ∈ s.temptation ↔ id ∈ s.all ∧ (s.req id).lie = .temptation := by
  simp [temptation]

theorem mem_liability : id ∈ s.liability ↔ id ∈ s.all ∧ (s.req id).lie = .liability := by
  simp [liability]

theorem mem_wip : id ∈ s.wip ↔ id ∈ s.all ∧ (s.req id).wip = true := by
  simp [wip]

theorem mem_winds {head : ReqId} :
    id ∈ s.winds head ↔ id ∈ s.all ∧ (s.req id).head = some head := by
  simp [winds]

end WbState

variable {conf : WbConf} {noIobuf : List ReqId}
variable {condition : WbState Byte → ReqId → ReqId → Prop} {s : WbState Byte}

/-! ## Preprocessing -/

/-- A queued buffered write. -/
structure Holds (s : WbState Byte) (id : ReqId) : Prop where
  mem : id ∈ s.all
  stage : (s.req id).stage = .todo
  tempted : (s.req id).tempted = true

/-- What `__wb_preprocess_winds` knows when it collapses. -/
structure Collapsing (conf : WbConf) (s : WbState Byte) (holder id : ReqId) : Prop where
  holds : Holds s holder
  queued : Holds s id
  lt : holder < id
  follows : (s.req id).Follows conf (s.req holder)

variable {ids : List ReqId}

section Preprocessing

variable [Zero Byte]

/-- The moves of `__wb_preprocess_winds` whose collapses satisfy a condition. -/
inductive PreMove (conf : WbConf) (condition : WbState Byte → ReqId → ReqId → Prop)
    (s : WbState Byte) : WbState Byte → Prop
  | go {id : ReqId} : id ∈ s.all → PreMove conf condition s (s.setGo id)
  | collapse {holder id : ReqId} : Collapsing conf s holder id → condition s holder id →
      PreMove conf condition s (s.collapse holder id)

/-- Every collapse of the loop satisfies the condition when it is made. -/
def CollapsesSatisfy (conf : WbConf) (noIobuf : List ReqId)
    (condition : WbState Byte → ReqId → ReqId → Prop) :
    WbState Byte × Option ReqId → List ReqId → Prop
  | _, [] => True
  | loop, id :: ids =>
    (∀ holder ∈ loop.2, (loop.1.req id).tempted = true →
      (loop.1.req id).Follows conf (loop.1.req holder) →
      ¬(id ∈ noIobuf ∧ (loop.1.req holder).iobref = false) →
      condition loop.1 holder id) ∧
    CollapsesSatisfy conf noIobuf condition (preprocessTurn conf noIobuf loop id) ids

instance CollapsesSatisfy.decidable (conf : WbConf) (noIobuf : List ReqId)
    (condition : WbState Byte → ReqId → ReqId → Prop)
    [∀ s holder id, Decidable (condition s holder id)] :
    (loop : WbState Byte × Option ReqId) → (ids : List ReqId) →
      Decidable (CollapsesSatisfy conf noIobuf condition loop ids)
  | _, [] => inferInstanceAs (Decidable True)
  | loop, id :: ids =>
    have := CollapsesSatisfy.decidable conf noIobuf condition
      (preprocessTurn conf noIobuf loop id) ids
    inferInstanceAs (Decidable ((∀ holder ∈ loop.2, _ → _ → _ → _) ∧ _))

variable {holder : ReqId}

theorem collapse_req_of_ne {id : ReqId} (hholder : other ≠ holder) (hid : other ≠ id) :
    (s.collapse holder id).req other = s.req other := by
  rw [WbState.collapse, WbState.fulfillRequest_req, if_neg hid,
    WbState.modify_req_of_ne _ _ _ hholder]

theorem collapse_req_holder {id : ReqId} (hne : holder ≠ id) :
    (s.collapse holder id).req holder = (s.req holder).absorb (s.req id) := by
  rw [WbState.collapse, WbState.fulfillRequest_req, if_neg hne, WbState.modify_req_self]

theorem collapse_req_id {id : ReqId} (hne : holder ≠ id) :
    (s.collapse holder id).req id = (s.req id).fulfill := by
  rw [WbState.collapse, WbState.fulfillRequest_req, if_pos rfl,
    WbState.modify_req_of_ne _ _ _ hne.symm]

theorem collapse_field {α : Type*} (field : WbRequest Byte → α) {id : ReqId} (hne : holder ≠ id)
    (habsorb : field ((s.req holder).absorb (s.req id)) = field (s.req holder))
    (hfulfill : field (s.req id).fulfill = field (s.req id)) (other : ReqId) :
    field ((s.collapse holder id).req other) = field (s.req other) := by
  by_cases hid : other = id
  · rw [hid, collapse_req_id hne, hfulfill]
  · by_cases hholder : other = holder
    · rw [hholder, collapse_req_holder hne, habsorb]
    · rw [collapse_req_of_ne hholder hid]

theorem collapse_stage {id : ReqId} (hne : holder ≠ id) (hother : other ≠ id) :
    ((s.collapse holder id).req other).stage = (s.req other).stage := by
  by_cases hholder : other = holder
  · rw [hholder, collapse_req_holder hne]
    rfl
  · rw [collapse_req_of_ne hholder hother]

theorem Holds.collapse {id : ReqId} (hother : Holds s other) (hne : other ≠ id)
    (hholder : holder ≠ id) : Holds (s.collapse holder id) other where
  mem := WbState.mem_fulfillRequest_of_ne hne hother.mem
  stage := (collapse_stage hholder hne).trans hother.stage
  tempted := (collapse_field WbRequest.tempted hholder rfl rfl other).trans hother.tempted

omit [Zero Byte] in
theorem Holds.setGo {id : ReqId} (hother : Holds s other) : Holds (s.setGo id) other where
  mem := hother.mem
  stage := (s.modify_field id _ WbRequest.stage rfl other).trans hother.stage
  tempted := (s.modify_field id _ WbRequest.tempted rfl other).trans hother.tempted

/-- What the loop keeps about its holder and the requests to come. -/
structure PreprocessLoop (loop : WbState Byte × Option ReqId) (ids : List ReqId) : Prop where
  queued : ∀ id ∈ ids, id ∈ loop.1.all ∧ (loop.1.req id).stage = .todo
  sorted : ids.Pairwise (· < ·)
  holder : ∀ holder ∈ loop.2, Holds loop.1 holder ∧ ∀ id ∈ ids, holder < id

theorem preprocessTurn_moves {loop : WbState Byte × Option ReqId} {id : ReqId}
    (hloop : PreprocessLoop loop (id :: ids))
    (hcondition : CollapsesSatisfy conf noIobuf condition loop (id :: ids)) :
    ReflTransGen (PreMove conf condition) loop.1 (preprocessTurn conf noIobuf loop id).1 ∧
      PreprocessLoop (preprocessTurn conf noIobuf loop id) ids := by
  obtain ⟨s, holder⟩ := loop
  obtain ⟨hqueued, hsorted, hholder⟩ := hloop
  obtain ⟨⟨hmem, hstage⟩, hrest⟩ := List.forall_mem_cons.mp hqueued
  obtain ⟨hlt, hsorted⟩ := List.pairwise_cons.mp hsorted
  have hself (htempted : (s.req id).tempted = true) :
      Holds s id ∧ ∀ later ∈ ids, id < later := ⟨⟨hmem, hstage, htempted⟩, hlt⟩
  have hgone (go : ReqId) : ∀ later ∈ ids,
      later ∈ (s.setGo go).all ∧ ((s.setGo go).req later).stage = .todo :=
    fun later hlater => ⟨(hrest later hlater).1,
      (s.modify_field go _ WbRequest.stage rfl later).trans (hrest later hlater).2⟩
  cases holder with
  | none =>
    rw [preprocessTurn]
    split_ifs with htempted
    · exact ⟨.refl, hrest, hsorted, by simpa using hself htempted⟩
    · exact ⟨.refl, hrest, hsorted, by simp⟩
  | some holder =>
    obtain ⟨hholds, hbefore⟩ := hholder holder rfl
    have hkept : ∀ later ∈ ids, holder < later := fun later hlater =>
      hbefore later (List.mem_cons_of_mem _ hlater)
    rw [preprocessTurn]
    split_ifs with htempted hconflict hfollows hmemory
    · exact ⟨.single (.go hholds.mem), hgone holder, hsorted, by simpa using ⟨hholds.setGo, hkept⟩⟩
    · exact ⟨.refl, hrest, hsorted, by simpa using ⟨hholds, hkept⟩⟩
    · exact ⟨.refl, hrest, hsorted, by simpa using ⟨hholds, hkept⟩⟩
    · have htempted : (s.req id).tempted = true := by simpa using htempted
      have hlt' := hbefore id List.mem_cons_self
      refine ⟨.single (.collapse ⟨hholds, (hself htempted).1, hlt', hfollows⟩
        (hcondition.1 holder rfl htempted hfollows hmemory)), ?_, hsorted, ?_⟩
      · intro later hlater
        have hid := Nat.ne_of_gt (hlt later hlater)
        refine ⟨WbState.mem_fulfillRequest_of_ne hid (hrest later hlater).1, ?_⟩
        rw [collapse_req_of_ne (Nat.ne_of_gt (hkept later hlater)) hid]
        exact (hrest later hlater).2
      · simpa using ⟨hholds.collapse (Nat.ne_of_lt hlt') (Nat.ne_of_lt hlt'), hkept⟩
    · have htempted : (s.req id).tempted = true := by simpa using htempted
      exact ⟨.single (.go hholds.mem), hgone holder, hsorted,
        by simpa using ⟨(hself htempted).1.setGo, hlt⟩⟩

theorem foldl_preprocessTurn_moves {loop : WbState Byte × Option ReqId}
    (hloop : PreprocessLoop loop ids)
    (hcondition : CollapsesSatisfy conf noIobuf condition loop ids) :
    ReflTransGen (PreMove conf condition) loop.1 (ids.foldl (preprocessTurn conf noIobuf) loop).1 ∧
      PreprocessLoop (ids.foldl (preprocessTurn conf noIobuf) loop) [] :=
  (foldl_moves Prod.fst
    (fun loop ids => PreprocessLoop loop ids ∧ CollapsesSatisfy conf noIobuf condition loop ids)
    (fun h => (preprocessTurn_moves h.1 h.2).imp_right fun hnext => ⟨hnext, h.2.2⟩)
    ⟨hloop, hcondition⟩).imp_right And.left

omit [Zero Byte] in
theorem todo_sorted (hsorted : s.all.Pairwise (· < ·)) : s.todo.Pairwise (· < ·) :=
  hsorted.sublist List.filter_sublist

theorem wbPreprocessWinds_moves (hsorted : s.all.Pairwise (· < ·))
    (hcondition : CollapsesSatisfy conf noIobuf condition (s, none) s.todo) :
    ReflTransGen (PreMove conf condition) s (wbPreprocessWinds conf noIobuf s) := by
  have hloop : PreprocessLoop (s, none) s.todo :=
    ⟨fun id hid => WbState.mem_todo.mp hid, todo_sorted hsorted, by simp⟩
  obtain ⟨hmoves, hlast⟩ := foldl_preprocessTurn_moves hloop hcondition
  rw [wbPreprocessWinds]
  generalize s.todo.foldl (preprocessTurn conf noIobuf) (s, none) = last at hmoves hlast
  obtain ⟨after, holder⟩ := last
  cases holder with
  | none => exact hmoves
  | some holder =>
    dsimp only
    split_ifs
    · exact hmoves.tail (.go (hlast.holder holder rfl).1.mem)
    · exact hmoves

end Preprocessing

/-! ## Picking for the child -/

/-- What `__wb_pick_winds` has found out about a request that it takes. -/
structure Picking (conf : WbConf) (s : WbState Byte) (id : ReqId) : Prop where
  mem : id ∈ s.all
  stage : (s.req id).stage = .todo
  liability : ¬wbLiabilityHasConflict conf s id
  wip : ¬wbWipHasConflict s id

inductive PickMove (conf : WbConf) (s : WbState Byte) : WbState Byte → Prop
  | pick {id : ReqId} : Picking conf s id → PickMove conf s (s.pick id)

theorem pick_req_of_ne {id : ReqId} (hne : other ≠ id) : (s.pick id).req other = s.req other :=
  WbState.modify_req_of_ne _ _ _ hne

/-- A request that neither rides with another nor leads one. -/
structure Alone (s : WbState Byte) (id : ReqId) : Prop where
  head : (s.req id).head = none
  leads : ∀ other, (s.req other).head ≠ some id

/-- A change of one record that is not about groups. -/
theorem Alone.modify {id : ReqId} {f : WbRequest Byte → WbRequest Byte} (halone : Alone s other)
    (hsame : (f (s.req id)).head = (s.req id).head) : Alone (s.modify id f) other where
  head := (s.modify_field id f WbRequest.head hsame other).trans halone.head
  leads rider := s.modify_field id f WbRequest.head hsame rider ▸ halone.leads rider

/-- What the loop keeps: the requests to come are queued and those picked for
sending are on their way. -/
structure PickLoop (loop : WbState Byte × List ReqId) (ids : List ReqId) : Prop where
  queued : ∀ id ∈ ids, id ∈ loop.1.all ∧ (loop.1.req id).stage = .todo
  picked : ∀ id ∈ loop.2, (loop.1.req id).stage = .picked ∧ (loop.1.req id).tempted = true
  sorted : (loop.2 ++ ids).Pairwise (· < ·)
  alone : ∀ id ∈ loop.2 ++ ids, Alone loop.1 id

theorem pickWindsTurn_moves {loop : WbState Byte × List ReqId} {id : ReqId}
    (hloop : PickLoop loop (id :: ids)) :
    ReflTransGen (PickMove conf) loop.1 (pickWindsTurn conf loop id).1 ∧
      PickLoop (pickWindsTurn conf loop id) ids := by
  obtain ⟨s, liabilities⟩ := loop
  obtain ⟨hqueued, hpicked, hsorted, halone⟩ := hloop
  obtain ⟨⟨hmem, hstage⟩, hrest⟩ := List.forall_mem_cons.mp hqueued
  have hsublist : (liabilities ++ ids).Sublist (liabilities ++ id :: ids) :=
    (List.sublist_cons_self id ids).append_left liabilities
  have hskip : PickLoop (s, liabilities) ids :=
    ⟨hrest, hpicked, hsorted.sublist hsublist,
      fun other hother => halone other (hsublist.subset hother)⟩
  rw [pickWindsTurn]
  split_ifs with hliability hwait hwip htempted
  · exact ⟨.refl, hskip⟩
  · exact ⟨.refl, hskip⟩
  · exact ⟨.refl, hskip⟩
  all_goals
    have hlater : ∀ later ∈ ids, later ≠ id := by
      rintro later hlater rfl
      have hpair := (List.pairwise_append.mp hsorted).2.1
      exact Nat.lt_irrefl _ ((List.pairwise_cons.mp hpair).1 later hlater)
    have hearlier : ∀ earlier ∈ liabilities, earlier ≠ id := by
      rintro earlier hearlier rfl
      exact Nat.lt_irrefl _ ((List.pairwise_append.mp hsorted).2.2 earlier hearlier
        earlier List.mem_cons_self)
    have hqueued : ∀ later ∈ ids,
        later ∈ (s.pick id).all ∧ ((s.pick id).req later).stage = .todo := by
      intro later h
      rw [pick_req_of_ne (hlater later h)]
      exact hrest later h
    have hkept : ∀ earlier ∈ liabilities, ((s.pick id).req earlier).stage = .picked ∧
        ((s.pick id).req earlier).tempted = true := by
      intro earlier h
      rw [pick_req_of_ne (hearlier earlier h)]
      exact hpicked earlier h
    have halone : ∀ other ∈ liabilities ++ id :: ids, Alone (s.pick id) other :=
      fun other hother => (halone other hother).modify rfl
    refine ⟨.single (.pick ⟨hmem, hstage, hliability, hwip⟩), hqueued, ?_, ?_, ?_⟩
  · simpa [or_imp, forall_and, WbState.pick, WbRequest.pick, htempted] using
      ⟨fun earlier h => (hkept earlier h).1, fun earlier h => (hkept earlier h).2⟩
  · simpa using hsorted
  · simpa using halone
  · exact hkept
  · exact hskip.sorted
  · exact fun other hother => halone other (hsublist.subset hother)

theorem wbPickWinds_moves (hsorted : s.all.Pairwise (· < ·)) (halone : ∀ id ∈ s.todo, Alone s id) :
    ReflTransGen (PickMove conf) s (wbPickWinds conf s).1 ∧ PickLoop (wbPickWinds conf s) [] := by
  have hloop : PickLoop (s, []) s.todo :=
    ⟨fun _ hid => WbState.mem_todo.mp hid, by simp, todo_sorted hsorted, halone⟩
  exact foldl_moves Prod.fst PickLoop pickWindsTurn_moves hloop

/-! ## Picking for the caller -/

/-- What `__wb_pick_unwinds` has found out about a request that it takes.  An
unfulfilled one is only taken when no earlier one was skipped, since the window
does not shrink in the loop. -/
structure UnwindPicking (s : WbState Byte) (id : ReqId) : Prop where
  mem : id ∈ s.all
  lie : (s.req id).lie = .temptation
  first : (s.req id).fulfilled = false →
    ∀ earlier ∈ s.all, earlier < id → (s.req earlier).lie ≠ .temptation

inductive UnwindMove (s : WbState Byte) : WbState Byte → Prop
  | unwind {id : ReqId} : UnwindPicking s id → UnwindMove s (s.pickUnwind id)

theorem pickUnwind_req_of_ne {id : ReqId} (hne : other ≠ id) :
    (s.pickUnwind id).req other = s.req other := by
  simp [WbState.pickUnwind, WbState.modify_req_of_ne, hne]

theorem pickUnwind_req_self (id : ReqId) : (s.pickUnwind id).req id = (s.req id).pickUnwind := by
  simp [WbState.pickUnwind]

/-- What the loop keeps: the window is full once a request was skipped. -/
structure UnwindLoop (conf : WbConf) (s : WbState Byte) (ids : List ReqId) : Prop where
  tempting : ∀ id ∈ ids, id ∈ s.all ∧ (s.req id).lie = .temptation
  sorted : ids.Pairwise (· < ·)
  skipped : ∀ id ∈ s.all, (s.req id).lie = .temptation → id ∉ ids →
    s.windowCurrent > conf.windowSize

theorem pickUnwindsTurn_moves {id : ReqId} (hloop : UnwindLoop conf s (id :: ids)) :
    ReflTransGen UnwindMove s (pickUnwindsTurn conf s id) ∧
      UnwindLoop conf (pickUnwindsTurn conf s id) ids := by
  obtain ⟨htempting, hsorted, hskipped⟩ := hloop
  obtain ⟨⟨hmem, hlie⟩, hrest⟩ := List.forall_mem_cons.mp htempting
  obtain ⟨hlt, hsorted⟩ := List.pairwise_cons.mp hsorted
  rw [pickUnwindsTurn]
  split_ifs with hskip
  · refine ⟨.refl, hrest, hsorted, fun other hother htemptation hnot => ?_⟩
    by_cases h : other = id
    · exact hskip.2
    · exact hskipped other hother htemptation (by simp [h, hnot])
  · have hpicking : UnwindPicking s id := by
      refine ⟨hmem, hlie, fun hunfulfilled earlier hearlier hbefore htemptation => ?_⟩
      refine hskip ⟨hunfulfilled, hskipped earlier hearlier htemptation ?_⟩
      rintro (_ | ⟨_, hlater⟩)
      · exact Nat.lt_irrefl _ hbefore
      · exact Nat.lt_asymm hbefore (hlt earlier hlater)
    refine ⟨.single (.unwind hpicking), fun later hlater => ?_, hsorted,
      fun other hother htemptation hnot => ?_⟩
    · rw [pickUnwind_req_of_ne (Nat.ne_of_gt (hlt later hlater))]
      exact hrest later hlater
    · have hne : other ≠ id := by
        rintro rfl
        rw [pickUnwind_req_self, WbRequest.pickUnwind] at htemptation
        split_ifs at htemptation
      rw [pickUnwind_req_of_ne hne] at htemptation
      have hfull := hskipped other hother htemptation (by simp [hne, hnot])
      change s.windowCurrent + (s.req id).origSize > conf.windowSize
      omega

theorem wbPickUnwinds_moves (hsorted : s.all.Pairwise (· < ·)) :
    ReflTransGen UnwindMove s (wbPickUnwinds conf s) := by
  have hloop : UnwindLoop conf s s.temptation :=
    ⟨fun _ hid => WbState.mem_temptation.mp hid, hsorted.sublist List.filter_sublist,
      fun _ hid htemptation hnot => absurd (WbState.mem_temptation.mpr ⟨hid, htemptation⟩) hnot⟩
  exact (foldl_moves id (UnwindLoop conf) pickUnwindsTurn_moves hloop).1

/-! ## Grouping -/

/-- A picked write that may lead a group. -/
structure Leads (s : WbState Byte) (id : ReqId) : Prop where
  stage : (s.req id).stage = .picked
  tempted : (s.req id).tempted = true
  head : (s.req id).head = none

/-- What `wb_fulfill` has found out about a write that it puts behind a head. -/
structure Joining (s : WbState Byte) (head id : ReqId) : Prop where
  leader : Leads s head
  rider : Leads s id
  alone : ∀ other, (s.req other).head ≠ some id
  ne : head ≠ id
  fd : (s.req id).fd = (s.req head).fd
  offset : (s.req head).stub.offset + (s.req head).writeSize = (s.req id).stub.offset

inductive JoinMove (s : WbState Byte) : WbState Byte → Prop
  | join {head id : ReqId} : Joining s head id → JoinMove s (s.join head id)

theorem join_req_of_ne {head id : ReqId} (hne : other ≠ id) :
    (s.join head id).req other = s.req other :=
  WbState.modify_req_of_ne _ _ _ hne

structure JoinLoop (loop : FulfillLoop Byte) (ids : List ReqId) : Prop where
  coming : ∀ id ∈ ids, Leads loop.state id ∧ ∀ other, (loop.state.req other).head ≠ some id
  sorted : ids.Pairwise (· < ·)
  head : ∀ head ∈ loop.head, Leads loop.state head ∧ ∀ id ∈ ids, head < id

theorem fulfillTurn_moves {loop : FulfillLoop Byte} {id : ReqId}
    (hloop : JoinLoop loop (id :: ids)) :
    ReflTransGen JoinMove loop.state (fulfillTurn conf loop id).state ∧
      JoinLoop (fulfillTurn conf loop id) ids := by
  obtain ⟨s, head, aggregate, count⟩ := loop
  obtain ⟨hcoming, hsorted, hhead⟩ := hloop
  obtain ⟨⟨hungrouped, halone⟩, hrest⟩ := List.forall_mem_cons.mp hcoming
  obtain ⟨hlt, hsorted⟩ := List.pairwise_cons.mp hsorted
  have hnext : JoinLoop ⟨s, some id, 0, 0⟩ ids :=
    ⟨hrest, hsorted, by simpa using ⟨hungrouped, hlt⟩⟩
  cases head with
  | none => exact ⟨.refl, hnext⟩
  | some head =>
    obtain ⟨hleader, hbefore⟩ := hhead head rfl
    have hne : head ≠ id := Nat.ne_of_lt (hbefore id List.mem_cons_self)
    simp only [fulfillTurn]
    split_ifs with hjoins
    · refine ⟨.single (.join ⟨hleader, hungrouped, halone, hne, hjoins.1, hjoins.2.2.1⟩),
        fun later hlater => ?_, hsorted, ?_⟩
      · have hlaterNe : later ≠ id := Nat.ne_of_gt (hlt later hlater)
        have hsame : (s.join head id).req later = s.req later := join_req_of_ne hlaterNe
        obtain ⟨⟨hstage, htempted, hnone⟩, hfree⟩ := hrest later hlater
        refine ⟨⟨hsame ▸ hstage, hsame ▸ htempted, hsame ▸ hnone⟩, fun other => ?_⟩
        by_cases h : other = id
        · have hlaterHead : head ≠ later :=
            Nat.ne_of_lt (hbefore later (List.mem_cons_of_mem _ hlater))
          simpa [h, WbState.join] using hlaterHead
        · change ((s.join head id).req other).head ≠ some later
          rw [join_req_of_ne h]
          exact hfree other
      · have hsame : (s.join head id).req head = s.req head := join_req_of_ne hne
        obtain ⟨hstage, htempted, hnone⟩ := hleader
        simpa using ⟨⟨hsame ▸ hstage, hsame ▸ htempted, hsame ▸ hnone⟩,
          fun later hlater => hbefore later (List.mem_cons_of_mem _ hlater)⟩
    · exact ⟨.refl, hnext⟩

theorem wbFulfill_moves {liabilities : List ReqId}
    (hcoming : ∀ id ∈ liabilities, Leads s id ∧ ∀ other, (s.req other).head ≠ some id)
    (hsorted : liabilities.Pairwise (· < ·)) :
    ReflTransGen JoinMove s (wbFulfill conf liabilities s) := by
  have hloop : JoinLoop ⟨s, none, 0, 0⟩ liabilities := ⟨hcoming, hsorted, by simp⟩
  exact (foldl_moves FulfillLoop.state JoinLoop fulfillTurn_moves hloop).1

end GlusterFS.WriteBehind
