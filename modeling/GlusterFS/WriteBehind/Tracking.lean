import GlusterFS.WriteBehind.Moves

/-!
# How requests are tracked

A request stays on `all` as long as it has a reference, and it has one for
every thing that is still to be done with it.  Every step moves the records of
requests forward and never back.  The writes in progress do not overlap.
-/

namespace GlusterFS.WriteBehind

open Relation GlusterFS.Transition

variable {Byte : Type*}

/-! ## Records -/

/-- The references held for the way to the child and back. -/
def WbRequest.windRefs (req : WbRequest Byte) : Nat :=
  match req.stage with
  | .todo | .picked | .replied => 1
  | .task => if req.stub.fop = .write then 2 else 1
  | .wound => if req.stub.fop = .write then 1 else 0
  | .done => 0

/-- The reference held for the answer to the caller of a buffered write. -/
def WbRequest.unwindRefs (req : WbRequest Byte) : Nat :=
  if req.lie = .temptation ∨ req.unwinds = true then 1 else 0

/-- How the fields of one request fit together. -/
structure WbRequest.Ok (req : WbRequest Byte) : Prop where
  tempted_write : req.tempted = true → req.stub.fop = .write
  refs : req.refcount = req.windRefs + req.unwindRefs
  wip_write : req.wip = true → req.stub.fop = .write ∧ req.stage ≠ .todo
  wip_of_stage : req.stub.fop = .write → req.stage ≠ .todo → req.stage ≠ .done → req.wip = true
  fulfilled_iff : req.fulfilled = true ↔ req.tempted = true ∧ req.stage = .done
  buffered : req.stage = .picked ∨ req.stage = .replied → req.tempted = true
  task : req.stage = .task → req.tempted = false
  lie_iff : req.lie ≠ .none → req.tempted = true
  lie_of_tempted : req.tempted = true → req.fulfilled = false → req.lie ≠ .none
  unwinds_lie : req.unwinds = true → req.tempted = true ∧ req.lie ≠ .temptation
  range : req.stub.fop = .write → req.off = req.stub.offset ∧ req.size = req.writeSize
  off_lt : req.off < 2 ^ 63
  size_lt : req.size < 2 ^ 63

/-- The fields that never change. -/
def WbRequest.fixed (req : WbRequest Byte) :=
  (req.stub, req.fd, req.gen, req.tempted, req.append, req.off, req.origSize)

/-- The fields that only collapsing changes. -/
def WbRequest.held (req : WbRequest Byte) :=
  (req.vector, req.writeSize, req.size, req.carries)

/-- What can happen to the record of a request. -/
structure RecordStep (before after : WbRequest Byte) : Prop where
  fixed : after.fixed = before.fixed
  ok : before.Ok → after.Ok
  dead : before.Ok → before.refcount = 0 → after.refcount = 0
  fulfilled : before.fulfilled = true → after.fulfilled = true
  held : before.stage ≠ .todo → after.held = before.held ∧ after.stage ≠ .todo
  lie : before.lie ≠ .temptation → after.lie = before.lie

/-- A step that neither answers nor picks a request nor moves a group on. -/
structure QuietStep (before after : WbRequest Byte) : Prop extends RecordStep before after where
  noNewLie : after.lie = .liability → before.lie = .liability
  noNewWip : after.wip = true → before.wip = true
  head : after.head = before.head
  stage : before.tempted = true → before.stage ≠ .todo → after.stage = before.stage

section RecordSteps

variable {before middle after req : WbRequest Byte}

theorem RecordStep.refl (req : WbRequest Byte) : RecordStep req req :=
  ⟨rfl, id, fun _ => id, id, fun h => ⟨rfl, h⟩, fun _ => rfl⟩

theorem RecordStep.trans (hfirst : RecordStep before middle)
    (hsecond : RecordStep middle after) : RecordStep before after where
  fixed := hsecond.fixed.trans hfirst.fixed
  ok := hsecond.ok ∘ hfirst.ok
  dead hok hdead := hsecond.dead (hfirst.ok hok) (hfirst.dead hok hdead)
  fulfilled := hsecond.fulfilled ∘ hfirst.fulfilled
  held hstage :=
    have hmiddle := hfirst.held hstage
    have hafter := hsecond.held hmiddle.2
    ⟨hafter.1.trans hmiddle.1, hafter.2⟩
  lie hlie :=
    have hmiddle := hfirst.lie hlie
    (hsecond.lie (hmiddle ▸ hlie)).trans hmiddle

section

variable (h : RecordStep before after)

include h

theorem RecordStep.stub : after.stub = before.stub :=
  congrArg (·.1) h.fixed

theorem RecordStep.fd : after.fd = before.fd :=
  congrArg (·.2.1) h.fixed

theorem RecordStep.gen : after.gen = before.gen :=
  congrArg (·.2.2.1) h.fixed

theorem RecordStep.tempted : after.tempted = before.tempted :=
  congrArg (·.2.2.2.1) h.fixed

theorem RecordStep.off : after.off = before.off :=
  congrArg (·.2.2.2.2.2.1) h.fixed

end

theorem QuietStep.refl (req : WbRequest Byte) : QuietStep req req :=
  ⟨.refl req, id, id, rfl, fun _ _ => rfl⟩

theorem QuietStep.trans (hfirst : QuietStep before middle)
    (hsecond : QuietStep middle after) : QuietStep before after where
  toRecordStep := hfirst.toRecordStep.trans hsecond.toRecordStep
  noNewLie := hfirst.noNewLie ∘ hsecond.noNewLie
  noNewWip := hfirst.noNewWip ∘ hsecond.noNewWip
  head := hsecond.head.trans hfirst.head
  stage htempted hstage :=
    (hsecond.stage (hfirst.tempted ▸ htempted) (hfirst.held hstage).2).trans
      (hfirst.stage htempted hstage)

/-- Changes of fields that no other field depends on. -/
theorem quietStep_fields (req : WbRequest Byte) (go : Bool) (opRet : Int) (opErrno size : Nat) :
    QuietStep req
      { req with go := go, opRet := opRet, opErrno := opErrno, totalSize := size } where
  fixed := rfl
  ok hok := by cases hok; constructor <;> assumption
  dead _ := id
  fulfilled := id
  held h := ⟨rfl, h⟩
  lie _ := rfl
  noNewLie := id
  noNewWip := id
  head := rfl
  stage _ _ := rfl

/-- A request is dead when nothing is left to be done with it. -/
theorem WbRequest.Ok.windRefs_of_tempted (hok : req.Ok) (htempted : req.tempted = true)
    (hstage : req.stage ≠ .done) : req.windRefs = 1 := by
  have hwrite := hok.tempted_write htempted
  have htask : req.stage ≠ .task := fun h => by simp [hok.task h] at htempted
  unfold WbRequest.windRefs
  cases h : req.stage <;> simp_all

theorem recordStep_fulfill (htempted : req.tempted = true) (hstage : req.stage ≠ .done) :
    RecordStep req req.fulfill where
  fixed := rfl
  ok hok := by
    have hwind := hok.windRefs_of_tempted htempted hstage
    have hrefs := hok.refs
    refine { hok with refs := ?_, wip_write := fun h => ⟨(hok.wip_write h).1, ?_⟩,
                      wip_of_stage := ?_, fulfilled_iff := ?_, buffered := ?_, task := ?_,
                      lie_of_tempted := ?_ }
    · change req.refcount - 1 = 0 + req.unwindRefs
      omega
    all_goals simp [WbRequest.fulfill, WbRequest.dropRef, htempted]
  dead _ h := by simp [WbRequest.fulfill, WbRequest.dropRef, h]
  fulfilled _ := rfl
  held _ := ⟨rfl, by simp [WbRequest.fulfill, WbRequest.dropRef]⟩
  lie _ := rfl

theorem quietStep_collapsed (htempted : req.tempted = true) (hstage : req.stage = .todo) :
    QuietStep req req.fulfill where
  toRecordStep := recordStep_fulfill htempted (by simp [hstage])
  noNewLie := id
  noNewWip := id
  head := rfl
  stage _ h := absurd hstage h

theorem WbRequest.Ok.alive_of_todo (hok : req.Ok) (hstage : req.stage = .todo) :
    req.refcount = 1 + req.unwindRefs := by
  rw [hok.refs, WbRequest.windRefs, hstage]

theorem WbRequest.Ok.unfulfilled (hok : req.Ok) (hstage : req.stage ≠ .done) :
    req.fulfilled = false := by
  rw [Bool.eq_false_iff, ne_eq, hok.fulfilled_iff]
  exact fun h => hstage h.2

theorem recordStep_pick (hstage : req.stage = .todo) : RecordStep req req.pick where
  fixed := rfl
  ok hok := by
    have hrefs := hok.alive_of_todo hstage
    have hfulfilled := hok.unfulfilled (by simp [hstage])
    have hwrite := hok.tempted_write
    refine { hok with refs := ?_, wip_write := fun hwip => ⟨?_, ?_⟩, wip_of_stage := ?_,
                      fulfilled_iff := ?_, buffered := ?_, task := ?_ }
    · change req.pick.refcount = req.pick.windRefs + req.unwindRefs
      unfold WbRequest.windRefs WbRequest.pick
      cases htempted : req.tempted <;> by_cases hfop : req.stub.fop = .write <;>
        simp_all
      omega
    · rcases Bool.or_eq_true_iff.mp hwip with h | h
      · exact (hok.wip_write h).1
      · exact of_decide_eq_true h
    · unfold WbRequest.pick
      cases req.tempted <;> simp
    · intro (h : req.stub.fop = .write) _ _
      simp [WbRequest.pick, h]
    all_goals
      unfold WbRequest.pick
      cases htempted : req.tempted <;> simp [hfulfilled]
  dead hok hdead := by
    have := hok.alive_of_todo hstage
    omega
  fulfilled := id
  held h := absurd hstage h
  lie _ := rfl

theorem quietStep_absorb [Zero Byte] {other : WbRequest Byte} (hstage : req.stage = .todo)
    (hsize : req.writeSize + other.writeSize < 2 ^ 63) (htempted : req.tempted = true) :
    QuietStep req (req.absorb other) where
  fixed := rfl
  ok hok := by
    have hrange := hok.range (hok.tempted_write htempted)
    refine { hok with range := fun _ => ⟨hrange.1, ?_⟩, size_lt := ?_ }
    · exact congrArg (· + other.writeSize) hrange.2
    · change req.size + other.writeSize < 2 ^ 63
      omega
  dead _ := id
  fulfilled := id
  held h := absurd hstage h
  lie _ := rfl
  noNewLie := id
  noNewWip := id
  head := rfl
  stage _ h := absurd hstage h

theorem recordStep_pickUnwind (hlie : req.lie = .temptation) : RecordStep req req.pickUnwind where
  fixed := rfl
  ok hok := by
    have htempted := hok.lie_iff (by simp [hlie])
    have hrefs := hok.refs
    have hnew : req.pickUnwind.lie ≠ .temptation := by
      unfold WbRequest.pickUnwind
      cases req.fulfilled <;> simp
    refine { hok with refs := ?_, lie_iff := fun _ => htempted, lie_of_tempted := fun _ h => ?_,
                      unwinds_lie := fun _ => ⟨htempted, hnew⟩ }
    · change req.refcount = req.windRefs + req.pickUnwind.unwindRefs
      rw [hrefs, WbRequest.unwindRefs, WbRequest.unwindRefs, hlie]
      simp [WbRequest.pickUnwind]
    · change req.fulfilled = false at h
      simp [WbRequest.pickUnwind, h]
  dead _ := id
  fulfilled := id
  held h := ⟨rfl, h⟩
  lie h := absurd hlie h

theorem recordStep_join (req : WbRequest Byte) (head : ReqId) :
    RecordStep req { req with head := some head } where
  fixed := rfl
  ok hok := by cases hok; constructor <;> assumption
  dead _ := id
  fulfilled := id
  held h := ⟨rfl, h⟩
  lie _ := rfl

theorem quietStep_unwound (hunwinds : req.unwinds = true) :
    QuietStep req { req with unwinds := false }.dropRef where
  fixed := rfl
  ok hok := by
    have hlie := (hok.unwinds_lie hunwinds).2
    have hrefs := hok.refs
    rw [WbRequest.unwindRefs, if_pos (.inr hunwinds)] at hrefs
    refine { hok with refs := ?_, unwinds_lie := by simp [WbRequest.dropRef] }
    rw [WbRequest.unwindRefs, if_neg (by simp [WbRequest.dropRef, hlie])]
    change req.refcount - 1 = req.windRefs + 0
    omega
  dead _ h := by simp [WbRequest.dropRef, h]
  fulfilled := id
  held h := ⟨rfl, h⟩
  lie _ := rfl
  noNewLie := id
  noNewWip := id
  head := rfl
  stage _ _ := rfl

/-- A request that was picked goes on to a stage that fits whether it is buffered. -/
theorem WbRequest.Ok.goesOn {stage : Stage} {refcount : Nat} (hok : req.Ok)
    (hbefore : req.stage ≠ .todo ∧ req.stage ≠ .done) (hafter : stage ≠ .todo ∧ stage ≠ .task)
    (hbuffered : stage = .picked ∨ stage = .replied → req.tempted = true)
    (hdone : stage = .done → req.tempted = false)
    (hrefs : refcount + req.windRefs =
      req.refcount + WbRequest.windRefs { req with stage := stage }) :
    WbRequest.Ok { req with stage := stage, refcount := refcount } := by
  have hold := hok.refs
  refine { hok with refs := ?_, wip_write := fun h => ⟨(hok.wip_write h).1, hafter.1⟩,
                    wip_of_stage := fun h _ _ => hok.wip_of_stage h hbefore.1 hbefore.2,
                    fulfilled_iff := ?_, buffered := hbuffered,
                    task := fun h => absurd h hafter.2 }
  · change refcount = WbRequest.windRefs { req with stage := stage } + req.unwindRefs
    omega
  · simp only [hok.unfulfilled hbefore.2, Bool.false_eq_true, false_iff, not_and]
    exact fun htempted h => by simp [hdone h] at htempted

theorem quietStep_call {stage : Stage} {refcount : Nat} (htempted : req.tempted = false)
    (hbefore : req.stage = .task ∨ req.stage = .wound)
    (hstage : stage = .wound ∨ stage = .done)
    (hrefs : refcount + req.windRefs =
      req.refcount + WbRequest.windRefs { req with stage := stage }) :
    QuietStep req { req with stage := stage, refcount := refcount } where
  fixed := rfl
  ok hok := by
    refine hok.goesOn ?_ ?_ ?_ (fun _ => htempted) hrefs
    · rcases hbefore with h | h <;> simp [h]
    all_goals rcases hstage with h | h <;> simp [h]
  dead hok h := by
    have hold := hok.refs
    have hnew : req.windRefs = 0 := by omega
    have : WbRequest.windRefs { req with stage := stage } = 0 := by
      revert hnew
      unfold WbRequest.windRefs
      rcases hbefore with hb | hb <;> rcases hstage with hs | hs <;>
        by_cases hfop : req.stub.fop = .write <;> simp [hb, hs, hfop]
    change refcount = 0
    omega
  fulfilled := id
  held _ := ⟨rfl, by rcases hstage with h | h <;> simp [h]⟩
  lie _ := rfl
  noNewLie := id
  noNewWip := id
  head := rfl
  stage h := by simp [htempted] at h

theorem recordStep_stage {stage : Stage} (htempted : req.tempted = true)
    (hbefore : req.stage = .picked ∨ req.stage = .wound)
    (hstage : stage = .wound ∨ stage = .replied) :
    RecordStep req { req with stage := stage } where
  fixed := rfl
  ok hok := by
    have hpast : req.stage ≠ .todo ∧ req.stage ≠ .done := by
      rcases hbefore with h | h <;> simp [h]
    have hwrite := hok.tempted_write htempted
    refine hok.goesOn hpast ?_ (fun _ => htempted) ?_ ?_
    · rcases hstage with h | h <;> simp [h]
    · rcases hstage with h | h <;> simp [h]
    · rw [hok.windRefs_of_tempted htempted hpast.2]
      rcases hstage with h | h <;> simp [WbRequest.windRefs, h, hwrite]
  dead _ := id
  fulfilled := id
  held _ := ⟨rfl, by rcases hstage with h | h <;> simp [h]⟩
  lie _ := rfl

theorem WbRequest.ok_blank [Zero Byte] : (WbRequest.blank : WbRequest Byte).Ok := by
  constructor <;>
    simp [WbRequest.blank, WbRequest.windRefs, WbRequest.unwindRefs]

theorem WbRequest.ok_ofStub [Zero Byte] (id : ReqId) (stub : CallStub Byte)
    {tempted : Bool} (gen : Nat) (hwrite : tempted = true → stub.fop = .write) :
    (WbRequest.ofStub id stub tempted gen).Ok := by
  have hoffset := stub.offset_lt
  have hsize := stub.size_lt
  have hlength := stub.length_lt
  rw [← iovLength_iovecs] at hlength
  constructor <;> simp only [WbRequest.ofStub]
  case refs => cases tempted <;> simp [WbRequest.windRefs, WbRequest.unwindRefs]
  case off_lt | size_lt => cases stub.fop <;> simp <;> omega
  all_goals cases tempted <;> simp_all

end RecordSteps

/-! ## States -/

/-- What can happen to the queue, but for arrivals. -/
structure Evolves (s t : WbState Byte) : Prop where
  next : t.next = s.next
  sublist : t.all.Sublist s.all
  mem : ∀ id, (s.req id).Ok → (id ∈ s.all ↔ (s.req id).refcount ≠ 0) →
    (id ∈ t.all ↔ (t.req id).refcount ≠ 0)
  gen : t.all = [] ∨ s.gen ≤ t.gen
  record : ∀ id, RecordStep (s.req id) (t.req id)
  fresh : ∀ id, s.next ≤ id → t.req id = s.req id

/-- A change that keeps the groups, the lies and the writes in progress. -/
structure Quiet (s t : WbState Byte) : Prop extends Evolves s t where
  quiet : ∀ id, QuietStep (s.req id) (t.req id)

section Evolving

variable {s t u : WbState Byte} {id : ReqId}

theorem Evolves.refl (s : WbState Byte) : Evolves s s :=
  ⟨rfl, .refl _, fun _ _ h => h, .inr (Nat.le_refl _), fun _ => .refl _, fun _ _ => rfl⟩

theorem Evolves.trans (hfirst : Evolves s t) (hsecond : Evolves t u) : Evolves s u where
  next := hsecond.next.trans hfirst.next
  sublist := hsecond.sublist.trans hfirst.sublist
  mem id hok hmem := hsecond.mem id ((hfirst.record id).ok hok) (hfirst.mem id hok hmem)
  gen := by
    rcases hsecond.gen with hempty | hsecondGen
    · exact .inl hempty
    rcases hfirst.gen with hempty | hfirstGen
    · have hsub := hsecond.sublist
      rw [hempty] at hsub
      exact .inl (List.sublist_nil.mp hsub)
    · exact .inr (Nat.le_trans hfirstGen hsecondGen)
  record id := (hfirst.record id).trans (hsecond.record id)
  fresh id hid := (hsecond.fresh id (hfirst.next ▸ hid)).trans (hfirst.fresh id hid)

theorem Quiet.refl (s : WbState Byte) : Quiet s s := ⟨.refl s, fun _ => .refl _⟩

theorem Quiet.trans (hfirst : Quiet s t) (hsecond : Quiet t u) : Quiet s u :=
  ⟨hfirst.toEvolves.trans hsecond.toEvolves, fun id => (hfirst.quiet id).trans (hsecond.quiet id)⟩

theorem evolves_modify {f : WbRequest Byte → WbRequest Byte} (hid : id < s.next)
    (hstep : RecordStep (s.req id) (f (s.req id)))
    (hrefcount : (s.req id).Ok → (f (s.req id)).refcount = 0 → (s.req id).refcount = 0)
    (hnext : t.next = s.next) (hall : t.all = s.all) (hgen : s.gen ≤ t.gen)
    (hreq : t.req = (s.modify id f).req) : Evolves s t where
  next := hnext
  sublist := hall ▸ .refl _
  mem other hok hmem := by
    rw [hall, hmem, hreq, WbState.modify_req]
    split_ifs with h
    · subst h
      exact not_congr ⟨hstep.dead hok, hrefcount hok⟩
    · rfl
  gen := .inr hgen
  record other := by
    rw [hreq, WbState.modify_req]
    split_ifs with h
    · exact h ▸ hstep
    · exact .refl _
  fresh other hother := by
    rw [hreq, WbState.modify_req_of_ne _ _ _ (Nat.ne_of_gt (Nat.lt_of_lt_of_le hid hother))]

theorem evolves_unref (f : WbRequest Byte → WbRequest Byte) (hid : id < s.next)
    (hstep : RecordStep (s.req id) (f (s.req id)).dropRef)
    (hrefcount : (f (s.req id)).refcount = (s.req id).refcount)
    (hmiddle : t.req = (s.modify id f).req) (hnext : t.next = s.next)
    (hall : t.all = s.all) (hgen : t.gen = s.gen) : Evolves s (t.unref id) := by
  have hreq (other : ReqId) : (t.unref id).req other =
      if other = id then (f (s.req id)).dropRef else s.req other := by
    rw [WbState.unref_req, hmiddle, WbState.modify_req_self]
    split_ifs with h
    · rfl
    · exact WbState.modify_req_of_ne _ _ _ h
  have hold : (t.req id).refcount = (s.req id).refcount := by
    rw [hmiddle, WbState.modify_req_self, hrefcount]
  refine ⟨by simp [hnext], ?_, fun other hok hmem => ?_, ?_, fun other => ?_,
    fun other hother => ?_⟩
  · rw [WbState.unref_all, hall]
    split_ifs
    · exact List.filter_sublist
    · exact .refl _
  · rw [WbState.unref_all, hall, hold, hreq]
    by_cases h : other = id
    · subst h
      rw [if_pos rfl]
      by_cases hlast : (s.req other).refcount = 1
      · simp [WbRequest.dropRef, hrefcount, hlast]
      · rw [if_neg hlast, hmem]
        change (s.req other).refcount ≠ 0 ↔ (f (s.req other)).refcount - 1 ≠ 0
        omega
    · rw [if_neg h]
      split_ifs
      · simp [h, hmem]
      · exact hmem
  · rcases t.unref_gen id with hempty | hkept
    · exact .inl hempty
    · exact .inr (Nat.le_of_eq (hkept.trans hgen).symm)
  · rw [hreq]
    split_ifs with h
    · exact h ▸ hstep
    · exact .refl _
  · rw [hreq, if_neg (Nat.ne_of_gt (Nat.lt_of_lt_of_le hid hother))]

/-- A change of many records that keeps all requests where they are. -/
theorem evolves_same (hnext : t.next = s.next) (hall : t.all = s.all) (hgen : t.gen = s.gen)
    (hrecord : ∀ id, RecordStep (s.req id) (t.req id))
    (hrefcount : ∀ id, (t.req id).refcount = (s.req id).refcount)
    (hfresh : ∀ id, s.next ≤ id → t.req id = s.req id) : Evolves s t where
  next := hnext
  sublist := hall ▸ .refl _
  mem id _ hmem := by rw [hall, hrefcount, hmem]
  gen := .inr (Nat.le_of_eq hgen.symm)
  record := hrecord
  fresh := hfresh

end Evolving

/-! ## The invariant -/

/-- The requests are where their references say, in the order of arrival. -/
structure Tracked (s : WbState Byte) : Prop where
  sorted : s.all.Pairwise (· < ·)
  mem_iff : ∀ id, id ∈ s.all ↔ (s.req id).refcount ≠ 0
  fresh : ∀ id, s.next ≤ id → s.req id = .blank
  ok : ∀ id, (s.req id).Ok
  gen_le : ∀ id ∈ s.all, (s.req id).gen ≤ s.gen
  gen_mono : ∀ i ∈ s.all, ∀ j ∈ s.all, i < j → (s.req i).gen ≤ (s.req j).gen

/-- A new liability raises the generation, and no request becomes one before an
earlier request that might. -/
structure LiesInOrder (s : WbState Byte) : Prop where
  gen_lt : ∀ id ∈ s.all, (s.req id).lie = .liability → (s.req id).gen < s.gen
  first : ∀ i ∈ s.all, ∀ j ∈ s.all, i < j → (s.req i).tempted = true →
    (s.req i).fulfilled = false → (s.req j).fulfilled = false →
    (s.req j).lie = .liability → (s.req i).lie = .liability

/-- A rider comes right after its leader and stays with it. -/
structure Grouped (rider leader : WbRequest Byte) : Prop where
  rider_tempted : rider.tempted = true
  leader_tempted : leader.tempted = true
  leader_head : leader.head = none
  stage : rider.stage = leader.stage
  past_todo : leader.stage ≠ .todo
  fd : rider.fd = leader.fd
  offset : leader.stub.offset + leader.writeSize = rider.stub.offset

def GroupsKept (s : WbState Byte) : Prop :=
  ∀ rider leader, (s.req rider).head = some leader → Grouped (s.req rider) (s.req leader)

def WipApart (s : WbState Byte) : Prop :=
  ∀ i ∈ s.all, ∀ j ∈ s.all, i ≠ j → (s.req i).wip = true → (s.req j).wip = true →
    ¬wbRequestsOverlap (s.req i) (s.req j)

structure QueueInv (s : WbState Byte) : Prop extends Tracked s where
  lies : LiesInOrder s
  groups : GroupsKept s
  apart : WipApart s

section Invariant

variable {s t : WbState Byte} {id : ReqId}

theorem Tracked.lt_next (htracked : Tracked s) (hid : (s.req id).refcount ≠ 0) : id < s.next := by
  by_contra hnot
  exact hid (by rw [htracked.fresh id (Nat.le_of_not_lt hnot)]; rfl)

theorem Tracked.mem_of_stage (htracked : Tracked s) (htempted : (s.req id).tempted = true)
    (hstage : (s.req id).stage ≠ .done) : id ∈ s.all := by
  rw [htracked.mem_iff, (htracked.ok id).refs, (htracked.ok id).windRefs_of_tempted htempted hstage]
  omega

theorem Tracked.evolves (htracked : Tracked s) (hevolves : Evolves s t) : Tracked t where
  sorted := htracked.sorted.sublist hevolves.sublist
  mem_iff id := hevolves.mem id (htracked.ok id) (htracked.mem_iff id)
  fresh id hid :=
    have hid : s.next ≤ id := hevolves.next ▸ hid
    (hevolves.fresh id hid).trans (htracked.fresh id hid)
  ok id := (hevolves.record id).ok (htracked.ok id)
  gen_le id hid := by
    rw [(hevolves.record id).gen]
    rcases hevolves.gen with hempty | hgen
    · simp [hempty] at hid
    · exact Nat.le_trans (htracked.gen_le id (hevolves.sublist.subset hid)) hgen
  gen_mono i hi j hj hlt := by
    rw [(hevolves.record i).gen, (hevolves.record j).gen]
    exact htracked.gen_mono i (hevolves.sublist.subset hi) j (hevolves.sublist.subset hj) hlt

theorem RecordStep.unfulfilled {before after : WbRequest Byte}
    (hstep : RecordStep before after) (hafter : after.fulfilled = false) :
    before.fulfilled = false := by
  by_contra hbefore
  simp [hstep.fulfilled (by simpa using hbefore)] at hafter

theorem LiesInOrder.evolves (hlies : LiesInOrder s) (hevolves : Evolves s t)
    (hnone : ∀ id, (t.req id).lie = .liability → (s.req id).lie = .liability) :
    LiesInOrder t where
  gen_lt id hid hlie := by
    rw [(hevolves.record id).gen]
    rcases hevolves.gen with hempty | hgen
    · simp [hempty] at hid
    · exact Nat.lt_of_lt_of_le (hlies.gen_lt id (hevolves.sublist.subset hid) (hnone id hlie)) hgen
  first i hi j hj hlt htempted hi' hj' hlie := by
    have hfirst := hlies.first i (hevolves.sublist.subset hi) j
      (hevolves.sublist.subset hj) hlt ((hevolves.record i).tempted ▸ htempted)
      ((hevolves.record i).unfulfilled hi') ((hevolves.record j).unfulfilled hj')
      (hnone j hlie)
    rw [(hevolves.record i).lie (by simp [hfirst]), hfirst]

theorem RecordStep.overlap_iff {i i' j j' : WbRequest Byte} (hi : RecordStep i i')
    (hj : RecordStep j j') (histage : i.stage ≠ .todo) (hjstage : j.stage ≠ .todo) :
    wbRequestsOverlap i' j' ↔ wbRequestsOverlap i j := by
  have hisize : i'.size = i.size := congrArg (·.2.2.1) (hi.held histage).1
  have hjsize : j'.size = j.size := congrArg (·.2.2.1) (hj.held hjstage).1
  simp only [wbRequestsOverlap, WbRequest.rangeEnd, hi.off, hj.off, hisize, hjsize]

theorem WipApart.evolves (hapart : WipApart s) (hok : ∀ id, (s.req id).Ok) (hevolves : Evolves s t)
    (hnone : ∀ id, (t.req id).wip = true → (s.req id).wip = true) : WipApart t := by
  intro i hi j hj hne hiwip hjwip
  rw [(hevolves.record i).overlap_iff (hevolves.record j)
    ((hok i).wip_write (hnone i hiwip)).2 ((hok j).wip_write (hnone j hjwip)).2]
  exact hapart i (hevolves.sublist.subset hi) j (hevolves.sublist.subset hj) hne
    (hnone i hiwip) (hnone j hjwip)

theorem Grouped.step {rider leader rider' leader' : WbRequest Byte}
    (hgrouped : Grouped rider leader) (hrider : RecordStep rider rider')
    (hleader : RecordStep leader leader') (hhead : leader'.head = none)
    (hstage : rider'.stage = leader'.stage) : Grouped rider' leader' where
  rider_tempted := hrider.tempted.trans hgrouped.rider_tempted
  leader_tempted := hleader.tempted.trans hgrouped.leader_tempted
  leader_head := hhead
  stage := hstage
  past_todo := (hleader.held hgrouped.past_todo).2
  fd := hrider.fd.trans (hgrouped.fd.trans hleader.fd.symm)
  offset := by
    have hsize : leader'.writeSize = leader.writeSize :=
      congrArg (·.2.1) (hleader.held hgrouped.past_todo).1
    rw [hleader.stub, hrider.stub, hsize, hgrouped.offset]

theorem GroupsKept.evolves (hgroups : GroupsKept s) (hevolves : Evolves s t)
    (hhead : ∀ id, (t.req id).head = (s.req id).head)
    (hstage : ∀ id, (s.req id).tempted = true → (s.req id).stage ≠ .todo →
      (t.req id).stage = (s.req id).stage) : GroupsKept t := by
  intro rider leader hrider
  have hgrouped := hgroups rider leader (hhead rider ▸ hrider)
  refine hgrouped.step (hevolves.record rider) (hevolves.record leader)
    ((hhead leader).trans hgrouped.leader_head) ?_
  rw [hstage rider hgrouped.rider_tempted (hgrouped.stage ▸ hgrouped.past_todo),
    hstage leader hgrouped.leader_tempted hgrouped.past_todo, hgrouped.stage]

theorem QueueInv.quiet (hinv : QueueInv s) (hquiet : Quiet s t) : QueueInv t where
  toTracked := hinv.toTracked.evolves hquiet.toEvolves
  lies := hinv.lies.evolves hquiet.toEvolves fun id => (hquiet.quiet id).noNewLie
  groups := hinv.groups.evolves hquiet.toEvolves (fun id => (hquiet.quiet id).head)
    fun id => (hquiet.quiet id).stage
  apart := hinv.apart.evolves hinv.ok hquiet.toEvolves fun id => (hquiet.quiet id).noNewWip

end Invariant

end GlusterFS.WriteBehind
