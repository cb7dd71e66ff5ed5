import GlusterFS.Core.Transition

/-!
# The quota check of a write

`quota_writev` starts one walk from the file to the root for each name of the file.  A walk
that comes to a directory whose size has timed out winds a validation and goes on in the
callback.  All the walks of a write share one `quota_local`: the location being validated, the
flag that a validation has just been done, and the counters that tell when the write may go on.
-/

namespace GlusterFS.Quota

/-- The part of a `struct quota_inode_ctx` that is checked. -/
structure QuotaCtx where
  size : Int
  limit : Int
  tv : Int

/-- The write and what the inode table tells.  Each entry of `links` is for one
`quota_dentry` of the file: the parent that `inode_parent` finds by its name. -/
structure WriteEnv where
  file : Nat
  links : List (Option Nat)
  parent : Nat → Option Nat
  isRoot : Nat → Bool
  delta : Int
  timeout : Int

/-- `quota_timeout`; the elapsed time is unsigned. -/
def quotaTimeout (now tv timeout : Int) : Bool := timeout % 2 ^ 64 ≤ (now - tv) % 2 ^ 64

def edquot : Nat := 122

def einval : Nat := 22

/-- Where a walk is.  `name` tells that it has yet to leave the file by its own name. -/
inductive Phase
  /-- At the entry of `quota_check_limit`. -/
  | entering (inode : Nat) (name : Bool)
  /-- At the top of the loop. -/
  | visiting (inode : Nat) (name justValidated : Bool)
  /-- Behind the loop. -/
  | finishing
  /-- At `validate`. -/
  | validating (inode : Nat) (justValidated : Bool)
  /-- Before the wind of `getxattr`. -/
  | winding
  /-- The validation of the target is on its way. -/
  | waiting (target : Option Nat)
  /-- In `quota_validate_cbk`, with the context found and the size. -/
  | crediting (target : Option Nat) (inode : Nat) (size : Int)
  /-- In `quota_validate_cbk`, before the walk goes on. -/
  | restarting
  /-- At `unwind` of `quota_validate_cbk`. -/
  | failing (errno : Nat)
  | ended

/-- `resumed` tells that the thread of `quota_writev` has come back from the walk. -/
structure Walk where
  phase : Phase
  resumed : Bool

/-- What was seen of sizes. -/
inductive Event
  /-- A size was used that had not timed out. -/
  | cached (inode : Nat) (size : Int)
  /-- The validation of the target returned a size. -/
  | returned (target : Option Nat) (size : Int)
  /-- The size was recorded for an inode. -/
  | credited (target : Option Nat) (inode : Nat)
  deriving DecidableEq

/-- The contexts, the shared `quota_local`, the walks started so far and the thread of
`quota_writev`. -/
structure CheckState where
  ctx : Nat → Option QuotaCtx
  validateCount : Int
  linkCount : Nat
  validateLoc : Option Nat
  justValidated : Bool
  opErrno : Option Nat
  stub : Bool
  walks : List Walk
  broken : Bool
  leaving : Bool
  resuming : Nat
  /-- The stubs resumed: the write was passed on, or failed with an error. -/
  resumed : List (Option Nat)
  events : List Event

inductive ValidateReply
  | error (errno : Nat)
  | noSize
  | size (size : Int)

inductive Label
  /-- `quota_writev` goes to its next link. -/
  | start
  /-- The last section of `quota_writev`. -/
  | last
  | enter (walk : Nat)
  /-- One turn of the loop of `quota_check_limit`. -/
  | visit (walk : Nat) (now : Int)
  | finish (walk : Nat)
  /-- The locked section at `validate`, with the result of `quota_inode_loc_fill`. -/
  | validate (walk : Nat) (filled : Bool)
  | wind (walk : Nat)
  | reply (walk : Nat) (reply : ValidateReply)
  | credit (walk : Nat) (now : Int)
  | restart (walk : Nat)
  | fail (walk : Nat)
  /-- `call_resume`, up to the wind or the unwind of `quota_writev_helper`. -/
  | resume

section Step

variable (env : WriteEnv) (s : CheckState)

def WriteEnv.linkParent (link : Nat) : Option Nat := (env.links[link]?).getD none

/-- The directory a walk goes to from an inode. -/
def WriteEnv.above (link inode : Nat) (name : Bool) : Option Nat :=
  if env.isRoot inode then none else if name then env.linkParent link else env.parent inode

def CheckState.setPhase (walk : Nat) (resumed : Bool) (phase : Phase) : CheckState :=
  { s with walks := s.walks.set walk ⟨phase, resumed⟩ }

/-- Where a walk goes from an inode that has been checked. -/
def climb (walk inode : Nat) (name : Bool) : Phase :=
  match env.above walk inode name with
  | some parent => .visiting parent false false
  | none => .finishing

def CheckState.takeStub : CheckState :=
  if s.stub then { s with stub := false, resuming := s.resuming + 1 } else s

/-- Take the stub if no link and no validation is left. -/
def CheckState.takeIfDone : CheckState :=
  if s.validateCount = 0 ∧ s.linkCount = 0 then s.takeStub else s

/-- `quota_writev` has come back from the walks it started. -/
def CheckState.mainFree : Bool :=
  s.walks.all fun walk => walk.resumed || match walk.phase with
    | .ended => true
    | _ => false

/-- The loop body of `quota_check_limit` up to the check. -/
def visit (walk : Nat) (resumed : Bool) (inode : Nat) (name justValidated : Bool) (now : Int) :
    CheckState :=
  match s.ctx inode with
  | none => s.setPhase walk resumed (climb env walk inode name)
  | some ctx =>
    if ctx.limit < 0 then s.setPhase walk resumed (climb env walk inode name)
    else if !justValidated && quotaTimeout now ctx.tv env.timeout then
      s.setPhase walk resumed (.validating inode justValidated)
    else
      let s := if justValidated then s
        else { s with events := s.events ++ [Event.cached inode ctx.size] }
      if ctx.limit ≤ ctx.size + env.delta then
        { s with opErrno := some edquot }.setPhase walk resumed .finishing
      else s.setPhase walk resumed (climb env walk inode name)

/-- The locked section at `validate`. -/
def validate (walk : Nat) (resumed : Bool) (inode : Nat) (justValidated filled : Bool) :
    CheckState :=
  let count := (if justValidated then s.validateCount - 1 else s.validateCount) + 1
  if filled then
    { s with validateCount := count, validateLoc := some inode }.setPhase walk resumed .winding
  else { s with validateCount := count - 1, validateLoc := none }.setPhase walk resumed .ended

/-- `quota_validate_cbk` up to the record of the size.  Without a location it would read
from a null pointer. -/
def validateCbk (walk : Nat) (target : Option Nat) (reply : ValidateReply) : Option CheckState :=
  match reply with
  | .error errno => some (s.setPhase walk true (.failing errno))
  | .noSize => s.validateLoc.map fun _ => s.setPhase walk true (.failing einval)
  | .size size => s.validateLoc.map fun inode =>
    let s := { s with events := s.events ++ [Event.returned target size] }
    match s.ctx inode with
    | none => s.setPhase walk true (.failing einval)
    | some _ => { s with justValidated := true }.setPhase walk true (.crediting target inode size)

/-- Record a size under the lock of the context. -/
def recordSize (inode : Nat) (size now : Int) : Nat → Option QuotaCtx := fun other =>
  if other = inode then (s.ctx inode).map fun ctx => { ctx with size, tv := now } else s.ctx other

def walkStep (walk : Nat) (found : Walk) : Label → Option CheckState
  | .enter _ =>
    match found.phase with
    | .entering inode name =>
      if s.stub then
        some ({ s with
          justValidated := false
          validateCount := if s.justValidated then s.validateCount - 1 else s.validateCount
          }.setPhase walk found.resumed (.visiting inode name s.justValidated))
      else some ({ s with broken := s.broken || !found.resumed }.setPhase walk found.resumed .ended)
    | _ => none
  | .visit _ now =>
    match found.phase with
    | .visiting inode name justValidated =>
      some (visit env s walk found.resumed inode name justValidated now)
    | _ => none
  | .finish _ =>
    match found.phase with
    | .finishing => some (s.setPhase walk found.resumed .ended).takeIfDone
    | _ => none
  | .validate _ filled =>
    match found.phase with
    | .validating inode justValidated =>
      some (validate s walk found.resumed inode justValidated filled)
    | _ => none
  | .wind _ =>
    match found.phase with
    | .winding => some (s.setPhase walk true (.waiting s.validateLoc))
    | _ => none
  | .reply _ reply =>
    match found.phase with
    | .waiting target => validateCbk s walk target reply
    | _ => none
  | .credit _ now =>
    match found.phase with
    | .crediting target inode size =>
      some ({ s with
        ctx := recordSize s inode size now
        events := s.events ++ [Event.credited target inode] }.setPhase walk true .restarting)
    | _ => none
  | .restart _ =>
    match found.phase with
    | .restarting =>
      match s.validateLoc with
      | some inode => some (s.setPhase walk true (.entering inode false))
      | none => some (s.setPhase walk true .ended)
    | _ => none
  | .fail _ =>
    match found.phase with
    | .failing errno =>
      some ({ s with opErrno := some errno, validateCount := s.validateCount - 1 }.setPhase walk
        true .ended).takeIfDone
    | _ => none
  | _ => none

def Label.walk : Label → Nat
  | .enter walk | .visit walk _ | .finish walk | .validate walk _ | .wind walk | .reply walk _
  | .credit walk _ | .restart walk | .fail walk => walk
  | .start | .last | .resume => 0

def checkStep : Label → Option CheckState
  | .start =>
    if !s.leaving && !s.broken && s.mainFree && s.walks.length < env.links.length then
      some { s with walks := s.walks ++ [⟨.entering env.file true, false⟩] }
    else none
  | .last =>
    if !s.leaving && s.mainFree && (s.broken || s.walks.length = env.links.length) then
      let s := { s with leaving := true, linkCount := 0 }
      some (if s.validateCount = 0 then s.takeStub else s)
    else none
  | .resume =>
    match s.resuming with
    | 0 => none
    | resuming + 1 => some { s with resuming, resumed := s.resumed ++ [s.opErrno] }
  | label =>
    match s.walks[label.walk]? with
    | some found => walkStep env s label.walk found label
    | none => none

end Step

/-- `quota_writev` before its loop. -/
def WriteEnv.initial (env : WriteEnv) (ctx : Nat → Option QuotaCtx) : CheckState where
  ctx := ctx
  validateCount := 0
  linkCount := env.links.length
  validateLoc := none
  justValidated := false
  opErrno := none
  stub := true
  walks := []
  broken := false
  leaving := false
  resuming := 0
  resumed := []
  events := []

/-! ## Enforcement -/

/-- The inodes on the path of a link: the file, then its ancestors, as far as the inode table
has them. -/
def WriteEnv.path (env : WriteEnv) (link : Nat) : Nat → Option Nat
  | 0 => some env.file
  | height + 1 => (env.path link height).bind fun inode => env.above link inode (height = 0)

/-- A size obtained for that very directory. -/
def CheckState.Obtained (s : CheckState) (directory : Nat) (size : Int) : Prop :=
  .cached directory size ∈ s.events ∨ .returned (some directory) size ∈ s.events

structure Enforced (env : WriteEnv) (s : CheckState) : Prop where
  /-- A write passed on was below every limit above each of its links. -/
  checked : none ∈ s.resumed → ∀ link < env.links.length, ∀ height directory ctx,
    env.path link (height + 1) = some directory → s.ctx directory = some ctx → 0 ≤ ctx.limit →
      ∃ size, s.Obtained directory size ∧ size + env.delta < ctx.limit
  /-- A reply changes only the size of the directory it is for. -/
  credited : ∀ target inode, .credited target inode ∈ s.events → target = some inode

end GlusterFS.Quota
