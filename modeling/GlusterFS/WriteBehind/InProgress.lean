import GlusterFS.WriteBehind.Effects

/-!
# Writes in progress never overlap

The byte ranges of the writes that the child has and has not acknowledged are
pairwise disjoint, whatever was collapsed into them.
-/

namespace GlusterFS.WriteBehind

open GlusterFS.Transition

variable {Byte : Type*} {s : WbState Byte}

/-- The byte ranges in the words of `wb_request_t.ordering`: a size of zero
reaches to infinity. -/
def WbRequest.Covers (req : WbRequest Byte) (position : Nat) : Prop :=
  req.off ≤ position ∧ (req.size = 0 ∨ position < req.off + req.size)

theorem WbRequest.Ok.rangeEnd_eq {req : WbRequest Byte} (hok : req.Ok) :
    req.rangeEnd = if req.size ≠ 0 then req.off + req.size - 1 else 2 ^ 64 - 1 := by
  have hoff := hok.off_lt
  have hsize := hok.size_lt
  rw [WbRequest.rangeEnd, Nat.mod_eq_of_lt (by omega)]

theorem wbRequestsOverlap_iff {left right : WbRequest Byte} (hleft : left.Ok) (hright : right.Ok) :
    wbRequestsOverlap left right ↔ ∃ position, left.Covers position ∧ right.Covers position := by
  have hleftOff := hleft.off_lt
  have hrightOff := hright.off_lt
  rw [wbRequestsOverlap, hleft.rangeEnd_eq, hright.rangeEnd_eq]
  constructor
  · intro h
    refine ⟨max left.off right.off, ⟨Nat.le_max_left .., ?_⟩, Nat.le_max_right .., ?_⟩ <;>
      split_ifs at h <;> omega
  · rintro ⟨position, ⟨hleftFrom, hleftTo⟩, hrightFrom, hrightTo⟩
    split_ifs <;> omega

/-- A write that was wound to the child and is not acknowledged. -/
def WbState.InProgress (s : WbState Byte) (id : ReqId) : Prop :=
  (s.req id).stub.fop = .write ∧ (s.req id).stage = .wound
  deriving Decidable

/-- The callback of a write keeps it on the queue. -/
theorem Tracked.mem_of_inProgress (htracked : Tracked s) {id : ReqId}
    (hprogress : s.InProgress id) : id ∈ s.all := by
  have hwind : (s.req id).windRefs = 1 := by
    simp [WbRequest.windRefs, hprogress.1, hprogress.2]
  rw [htracked.mem_iff, (htracked.ok id).refs, hwind]
  omega

theorem WbRequest.Ok.wip_of_wound {req : WbRequest Byte} (hok : req.Ok)
    (hwrite : req.stub.fop = .write) (hwound : req.stage = .wound) : req.wip = true :=
  hok.wip_of_stage hwrite (by simp [hwound]) (by simp [hwound])

theorem writes_in_progress_disjoint [Zero Byte] {conf : WbConf}
    (hreach : Reachable (wbStep conf) WbState.create s) {i j : ReqId} (hne : i ≠ j)
    (hi : s.InProgress i) (hj : s.InProgress j) (position : Nat) :
    ¬((s.req i).Covers position ∧ (s.req j).Covers position) := by
  have hinv := queueInv_of_reachableUnder hreach
  have hapart := hinv.apart i (hinv.mem_of_inProgress hi) j (hinv.mem_of_inProgress hj) hne
    ((hinv.ok i).wip_of_wound hi.1 hi.2) ((hinv.ok j).wip_of_wound hj.1 hj.2)
  rw [wbRequestsOverlap_iff (hinv.ok i) (hinv.ok j)] at hapart
  exact fun h => hapart ⟨position, h⟩

/-- At most sixteen iovecs of at most sixteen bytes. -/
def shortVector (vector : List (List Nat)) : List (List Nat) :=
  (vector.take 16).map (List.take 16)

theorem length_shortVector_lt (vector : List (List Nat)) :
    (shortVector vector).flatten.length < 2 ^ 63 := by
  have hpieces : ∀ pieces : List (List Nat),
      (pieces.map (List.take 16)).flatten.length ≤ 16 * pieces.length := by
    intro pieces
    induction pieces with
    | nil => exact Nat.le_refl _
    | cons piece pieces ih =>
      simp only [List.map_cons, List.flatten_cons, List.length_append, List.length_take,
        List.length_cons]
      omega
  have hlength := hpieces (vector.take 16)
  rw [List.length_take] at hlength
  rw [shortVector]
  omega

theorem toNat_lt_bound (number : UInt8) : number.toNat < 2 ^ 63 :=
  Nat.lt_trans number.toNat_lt (by decide)

/-- A call without special flags, for runs on fixed inputs. -/
def plainCall (fop : Fop) (fd : Nat) (offset size : UInt8) (vector : List (List Nat)) :
    CallStub Nat where
  fop := fop
  fd := some fd
  fdFlags := ⟨false, false, false, false⟩
  flags := ⟨false, false, false, false⟩
  lkOwner := 0
  offset := offset.toNat
  size := size.toNat
  vector := shortVector vector
  fd_isSome _ := rfl
  offset_lt := toNat_lt_bound offset
  size_lt := toNat_lt_bound size
  length_lt := length_shortVector_lt vector

/-- A write that enters and is queued. -/
def queueWrite (offset : UInt8) (vector : List (List Nat)) : List (WbLabel Nat) :=
  [.arrive (plainCall .write 1 offset 0 vector), .enqueue 0]

/-- A call on the same fd that enters and is queued. -/
def queueCall (fop : Fop) (offset size : UInt8) : List (WbLabel Nat) :=
  [.arrive (plainCall fop 1 offset size []), .enqueue 0]

def windowConf : WbConf := ⟨64, 1000, false, false, false, false, 64, by decide⟩

def tricklingConf : WbConf := ⟨64, 64, false, true, false, false, 64, by decide⟩

/-- Three writes, of which two are collapsed, are sent in two parts. -/
def twoPartsSent : List (WbLabel Nat) :=
  queueWrite 0 [[1, 2]] ++ queueWrite 2 [[3]] ++ queueWrite 10 [[4, 5]] ++
    [.process [], .fulfillHead 0 true, .fulfillHead 2 true]

theorem writes_in_progress_disjoint_twoParts :
    ∃ s, run (wbStep tricklingConf) WbState.create twoPartsSent = some s ∧
      s.InProgress 0 ∧ s.InProgress 2 ∧ (s.req 0).size = 3 ∧
      ∀ position, ¬((s.req 0).Covers position ∧ (s.req 2).Covers position) := by
  obtain ⟨s, hrun⟩ : ∃ s,
      run (wbStep tricklingConf) WbState.create twoPartsSent = some s := ⟨_, rfl⟩
  have hprogress : s.InProgress 0 ∧ s.InProgress 2 ∧ (s.req 0).size = 3 := by
    cases hrun
    decide
  exact ⟨s, hrun, hprogress.1, hprogress.2.1, hprogress.2.2,
    writes_in_progress_disjoint (.of_run twoPartsSent .start hrun) (by decide) hprogress.1
      hprogress.2.1⟩

end GlusterFS.WriteBehind
