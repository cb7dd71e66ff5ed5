import GlusterFS.Core.History
import GlusterFS.Core.Transition

/-!
# Attributes cached by md-cache

md-cache keeps the attributes of an inode that the last reply brought and answers
`stat` and `fstat` from them.  Every reply overwrites them, in the order in which
replies come in; the attributes from before an operation decide only whether the
kernel is told to forget the inode.  The state is one regular file: what md-cache
keeps of it, the calls that were wound to the child, and the attributes that the
file of the child has had.  The cache time-out does not expire, so what was kept
is valid until it is invalidated.
-/

namespace GlusterFS.Mdc

open Transition

/-- The fields of a `struct iatt` that md-cache keeps. -/
structure Iatt where
  prot : Nat
  nlink : Nat
  uid : Nat
  gid : Nat
  atime : Nat
  atimeNsec : Nat
  mtime : Nat
  mtimeNsec : Nat
  ctime : Nat
  ctimeNsec : Nat
  rdev : Nat
  size : Nat
  blocks : Nat
  deriving DecidableEq

/-- `struct md_cache`: the attributes, and whether `ia_time` is set. -/
structure MdCache where
  iatt : Iatt
  valid : Bool
  deriving DecidableEq

/-- What `mdc_inode_prep` allocates. -/
def MdCache.new : MdCache := ⟨⟨0, 0, 0, 0, 0, 0, 0, 0, 0, 0, 0, 0, 0⟩, false⟩

/-- `mdc_inode_iatt_set_validate`; the second component says whether `inode_invalidate`
is called. -/
def mdcInodeIattSetValidate (mdc : Option MdCache) (prebuf iatt : Option Iatt) : MdCache × Bool :=
  let mdc := mdc.getD .new
  match iatt with
  | none => ({ mdc with valid := false }, false)
  | some iatt =>
    if iatt.ctime = 0 then ({ mdc with valid := false }, false)
    else
      let changed := iatt.mtime ≠ mdc.iatt.mtime ∨ iatt.ctime ≠ mdc.iatt.ctime
      let expected := ∃ prebuf' ∈ prebuf,
        prebuf'.ctime = mdc.iatt.ctime ∧ prebuf'.mtime = mdc.iatt.mtime
      (⟨iatt, true⟩, decide (changed ∧ ¬expected))

/-- `mdc_inode_iatt_get` -/
def mdcInodeIattGet (mdc : Option MdCache) : Option Iatt :=
  mdc.bind fun mdc => if mdc.valid then some mdc.iatt else none

inductive Fop
  | stat
  | fstat
  | lookup
  | writev
  | truncate
  | ftruncate
  | setattr
  | fsetattr
  | fsync
  deriving DecidableEq

def Fop.modifies : Fop → Bool
  | .writev | .truncate | .ftruncate | .setattr | .fsetattr => true
  | .stat | .fstat | .lookup | .fsync => false

/-- The callbacks that hand the attributes from before the operation on. -/
def Fop.hasPrebuf : Fop → Bool
  | .stat | .fstat | .lookup => false
  | .writev | .truncate | .ftruncate | .setattr | .fsetattr | .fsync => true

/-- An executed call saw the version of the file with its number last. -/
inductive CallStage
  | wound
  | executed (version : Nat) (prebuf postbuf : Iatt)
  | failed
  deriving DecidableEq

structure Call where
  fop : Fop
  stage : CallStage
  deriving DecidableEq

/-- A `stat` or `fstat` answered from the cache, with the version up to which modifications had
been acknowledged when it arrived. -/
structure Answer where
  ackedBefore : Nat
  buf : Iatt
  deriving DecidableEq

structure MdcState where
  mdc : Option MdCache
  calls : List Call
  file : History Iatt
  /-- The last version that an acknowledged modification made. -/
  acked : Nat
  /-- The last version that a handled reply showed. -/
  shown : Nat
  answers : List Answer

namespace MdcState

variable (s : MdcState)

def wind (fop : Fop) : MdcState := { s with calls := s.calls ++ [⟨fop, .wound⟩] }

/-- A call comes in.  A named `lookup` whose xattr request can be met is answered from the cache,
too; what it is answered with is not looked at here. -/
def call (fop : Fop) (satisfied : Bool) : MdcState :=
  match fop with
  | .stat | .fstat =>
    match mdcInodeIattGet s.mdc with
    | some buf => { s with answers := s.answers ++ [⟨s.acked, buf⟩] }
    | none => s.wind fop
  | .lookup => if satisfied ∧ (mdcInodeIattGet s.mdc).isSome then s else s.wind fop
  | .writev | .truncate | .ftruncate | .setattr | .fsetattr | .fsync => s.wind fop

/-- The child executes a call; a modification leaves the attributes `after`. -/
def execute (index : Nat) (fop : Fop) (after : Iatt) : MdcState :=
  let file := if fop.modifies then s.file.push after else s.file
  { s with
    file := file
    calls := s.calls.set index ⟨fop, .executed file.latest s.file.current file.current⟩ }

/-- The callbacks.  Of those, only `mdc_setattr_cbk` does something about a failure. -/
def cbk (index : Nat) (fop : Fop) : CallStage → Option MdcState
  | .wound => none
  | .failed =>
    let mdc := if fop = .setattr then some (mdcInodeIattSetValidate s.mdc none none).1 else s.mdc
    some { s with mdc := mdc, calls := s.calls.eraseIdx index }
  | .executed version prebuf postbuf =>
    let prebuf := if fop.hasPrebuf then some prebuf else none
    some { s with
      mdc := some (mdcInodeIattSetValidate s.mdc prebuf (some postbuf)).1
      calls := s.calls.eraseIdx index
      acked := if fop.modifies then max s.acked version else s.acked
      shown := max s.shown version }

end MdcState

inductive MdcLabel
  | call (fop : Fop) (satisfied : Bool)
  | execute (index : Nat) (after : Iatt)
  | fail (index : Nat)
  | cbk (index : Nat)

def mdcStep (s : MdcState) : MdcLabel → Option MdcState
  | .call fop satisfied => some (s.call fop satisfied)
  | .execute index after => s.calls[index]?.bind fun call =>
    if call.stage = .wound then some (s.execute index call.fop after) else none
  | .fail index => s.calls[index]?.bind fun call =>
    if call.stage = .wound then some { s with calls := s.calls.set index ⟨call.fop, .failed⟩ }
    else none
  | .cbk index => s.calls[index]?.bind fun call => s.cbk index call.fop call.stage

def MdcState.start (iatt : Iatt) : MdcState := ⟨none, [], ⟨iatt, []⟩, 0, 0, []⟩

/-- Whatever `stat` or `fstat` was answered with from the cache, the file had those attributes
after every modification that was acknowledged before. -/
def NotBackInTime (s : MdcState) : Prop :=
  ∀ answer ∈ s.answers, s.file.Since answer.ackedBefore answer.buf

/-- No reply is handled after one that showed a later version of the file. -/
def InOrder (s : MdcState) : MdcLabel → Prop
  | .cbk index => ∀ call ∈ s.calls[index]?, match call.stage with
      | .executed version _ _ => s.shown ≤ version
      | _ => True
  | _ => True

instance (s : MdcState) (label : MdcLabel) : Decidable (InOrder s label) :=
  match label with
  | .cbk index =>
    match hcall : s.calls[index]? with
    | none => isTrue fun _ hmem => by simp [hcall] at hmem
    | some ⟨fop, .executed version prebuf postbuf⟩ =>
      decidable_of_iff (s.shown ≤ version) (by simp [InOrder, hcall])
    | some ⟨fop, .wound⟩ => isTrue (by simp [InOrder, hcall])
    | some ⟨fop, .failed⟩ => isTrue (by simp [InOrder, hcall])
  | .call _ _ => inferInstanceAs (Decidable True)
  | .execute _ _ => inferInstanceAs (Decidable True)
  | .fail _ => inferInstanceAs (Decidable True)

/-! ## Replies in order -/

/-- A valid entry holds the attributes it was set to. -/
theorem iatt_of_valid {mdc : Option MdCache} {prebuf : Option Iatt} {iatt : Iatt}
    (hvalid : (mdcInodeIattSetValidate mdc prebuf (some iatt)).1.valid = true) :
    (mdcInodeIattSetValidate mdc prebuf (some iatt)).1.iatt = iatt := by
  unfold mdcInodeIattSetValidate at hvalid ⊢
  dsimp only at hvalid ⊢
  split at hvalid
  · exact absurd hvalid Bool.false_ne_true
  · split
    · contradiction
    · rfl

/-- The cache shows the version that was shown last, or a later one. -/
structure OrderInv (s : MdcState) : Prop where
  acked_le : s.acked ≤ s.shown
  cached : ∀ mdc ∈ s.mdc, mdc.valid = true → s.file.Since s.shown mdc.iatt
  executed : ∀ call ∈ s.calls, ∀ version prebuf postbuf,
    call.stage = .executed version prebuf postbuf → s.file.Since version postbuf
  answers : NotBackInTime s

namespace OrderInv

variable {s : MdcState}

theorem start (iatt : Iatt) : OrderInv (.start iatt) :=
  ⟨Nat.le_refl 0, nofun, nofun, nofun⟩

section

variable (hinv : OrderInv s)

include hinv

theorem wind (fop : Fop) : OrderInv (s.wind fop) where
  acked_le := hinv.acked_le
  cached := hinv.cached
  executed call hmem version prebuf postbuf hstage := by
    rcases List.mem_append.mp hmem with hmem | hmem
    · exact hinv.executed call hmem version prebuf postbuf hstage
    · rw [List.mem_singleton.mp hmem] at hstage
      exact absurd hstage nofun
  answers := hinv.answers

/-- What the cache answers with is as new as what was shown last. -/
theorem answer {buf : Iatt} (hbuf : mdcInodeIattGet s.mdc = some buf) :
    OrderInv { s with answers := s.answers ++ [⟨s.acked, buf⟩] } := by
  refine ⟨hinv.acked_le, hinv.cached, hinv.executed, fun answer hmem => ?_⟩
  rcases List.mem_append.mp hmem with hmem | hmem
  · exact hinv.answers answer hmem
  · obtain ⟨mdc, hmdc, hget⟩ := Option.bind_eq_some_iff.mp hbuf
    rw [List.mem_singleton.mp hmem]
    split at hget
    next hvalid =>
      rw [← Option.some.inj hget]
      exact (hinv.cached mdc hmdc hvalid).mono hinv.acked_le
    next => exact absurd hget nofun

theorem call (fop : Fop) (satisfied : Bool) : OrderInv (s.call fop satisfied) := by
  cases fop
  case stat | fstat =>
    rw [MdcState.call]
    cases hbuf : mdcInodeIattGet s.mdc with
    | none => exact hinv.wind _
    | some buf => exact hinv.answer hbuf
  case lookup =>
    rw [MdcState.call]
    split
    · exact hinv
    · exact hinv.wind _
  all_goals exact hinv.wind _

theorem execute (index : Nat) (fop : Fop) (after : Iatt) :
    OrderInv (s.execute index fop after) := by
  -- What the file showed before is among its versions still.
  have hkeep : ∀ {bound iatt}, s.file.Since bound iatt →
      (s.execute index fop after).file.Since bound iatt := by
    intro bound iatt hsince
    rw [MdcState.execute]
    dsimp only
    split
    · exact hsince.push after
    · exact hsince
  refine ⟨hinv.acked_le, fun mdc hmdc hvalid => hkeep (hinv.cached mdc hmdc hvalid),
    fun call hmem version prebuf postbuf hstage => ?_,
    fun answer hmem => hkeep (hinv.answers answer hmem)⟩
  rcases List.mem_or_eq_of_mem_set hmem with hmem | rfl
  · exact hkeep (hinv.executed call hmem version prebuf postbuf hstage)
  · cases hstage
    exact History.since_latest

theorem fail (index : Nat) (fop : Fop) :
    OrderInv { s with calls := s.calls.set index ⟨fop, .failed⟩ } := by
  refine ⟨hinv.acked_le, hinv.cached, fun call hmem version prebuf postbuf hstage => ?_,
    hinv.answers⟩
  rcases List.mem_or_eq_of_mem_set hmem with hmem | rfl
  · exact hinv.executed call hmem version prebuf postbuf hstage
  · exact absurd hstage nofun

theorem cbk {index : Nat} {call : Call} {after : MdcState} (hcall : s.calls[index]? = some call)
    (horder : InOrder s (.cbk index)) (hcbk : s.cbk index call.fop call.stage = some after) :
    OrderInv after := by
  have hrest : ∀ {other}, other ∈ s.calls.eraseIdx index → other ∈ s.calls :=
    List.mem_of_mem_eraseIdx
  have horder := horder call hcall
  cases hstage : call.stage with
  | wound =>
    rw [hstage] at hcbk
    exact absurd hcbk nofun
  | failed =>
    rw [hstage] at hcbk
    cases hcbk
    refine ⟨hinv.acked_le, fun mdc hmdc hvalid => ?_,
      fun other hmem => hinv.executed other (hrest hmem), hinv.answers⟩
    dsimp only at hmdc
    split at hmdc
    · cases hmdc
      exact absurd hvalid Bool.false_ne_true
    · exact hinv.cached mdc hmdc hvalid
  | executed version prebuf postbuf =>
    rw [hstage] at hcbk horder
    cases hcbk
    have hshown : max s.shown version = version := Nat.max_eq_right horder
    refine ⟨?_, fun mdc hmdc hvalid => ?_, fun other hmem => hinv.executed other (hrest hmem),
      hinv.answers⟩
    · have hacked := hinv.acked_le
      dsimp only
      split <;> omega
    · cases hmdc
      dsimp only
      rw [iatt_of_valid hvalid, hshown]
      exact hinv.executed call (List.mem_of_getElem? hcall) version prebuf postbuf hstage

theorem step {label : MdcLabel} {after : MdcState} (horder : InOrder s label)
    (hstep : mdcStep s label = some after) : OrderInv after := by
  cases label with
  | call fop satisfied =>
    cases hstep
    exact hinv.call fop satisfied
  | execute index next =>
    obtain ⟨call, _, hstep⟩ := Option.bind_eq_some_iff.mp hstep
    split at hstep
    · cases hstep
      exact hinv.execute index call.fop next
    · exact absurd hstep nofun
  | fail index =>
    obtain ⟨call, _, hstep⟩ := Option.bind_eq_some_iff.mp hstep
    split at hstep
    · cases hstep
      exact hinv.fail index call.fop
    · exact absurd hstep nofun
  | cbk index =>
    obtain ⟨call, hcall, hcbk⟩ := Option.bind_eq_some_iff.mp hstep
    exact hinv.cbk hcall horder hcbk

end

end OrderInv

/-- When replies are handled in the order in which the child executed the calls, attributes served
from the cache never go back behind an acknowledged modification. -/
theorem mdc_attributes_not_back_in_time (iatt : Iatt) {s : MdcState}
    (hreach : ReachableUnder mdcStep InOrder (.start iatt) s) : NotBackInTime s :=
  have hinv : OrderInv s := hreach.invariant (OrderInv.start iatt)
    fun _ _ _ hbefore horder hstep => hbefore.step horder hstep
  hinv.answers

/-- Attributes of a file of the given size, last changed at the given time. -/
def sized (size time : Nat) : Iatt := ⟨0o644, 1, 0, 0, 1, 0, time, 0, time, 0, 0, size, 8⟩

/-- A `stat` is answered after a write, from what the reply of the write left in the cache. -/
theorem mdc_attributes_not_back_in_time_write : ∃ s,
    ReachableUnder mdcStep InOrder (.start (sized 1 10)) s ∧
      s.answers = [⟨1, sized 2 11⟩] ∧ NotBackInTime s := by
  obtain ⟨s, hrun, hreach⟩ := ReachableUnder.exists_of_run mdcStep InOrder (.start (sized 1 10))
    [.call .stat false, .execute 0 (sized 1 10), .cbk 0, .call .writev false,
        .execute 0 (sized 2 11), .cbk 0, .call .stat false] (by decide) rfl
  refine ⟨s, hreach, ?_, mdc_attributes_not_back_in_time (sized 1 10) hreach⟩
  cases hrun
  rfl

/-- The reply of a `stat` is overtaken by a write that the child executed later: it puts the
attributes from before the write back, and the next `stat` is answered with them. -/
theorem stat_reply_overtaken : ¬∀ (iatt : Iatt) (s : MdcState),
    Reachable mdcStep (.start iatt) s → NotBackInTime s := by
  intro hall
  obtain ⟨s, hrun⟩ : ∃ s, run mdcStep (.start (sized 1 10))
      [.call .stat false, .execute 0 (sized 1 10), .call .writev false, .execute 1 (sized 2 11),
        .cbk 1, .cbk 0, .call .stat false] = some s := ⟨_, rfl⟩
  have hback := hall (sized 1 10) s (.of_run _ .start hrun) ⟨1, sized 1 10⟩ (by cases hrun; decide)
  revert hback
  cases hrun
  decide

end GlusterFS.Mdc
