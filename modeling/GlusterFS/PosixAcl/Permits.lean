import Mathlib.Data.UInt

/-!
# The access decision of posix-acl

`acl_permits` goes over the entries once and jumps to one of two shared checks.  The
permissions of the owner and of others are taken from the mode of the inode, the other
ones from the entries.
-/

namespace GlusterFS.PosixAcl

inductive AceTag
  | userObj
  | user
  | groupObj
  | group
  | mask
  | other
  | undefined
  deriving DecidableEq

/-- A `struct posix_ace`; permissions are sets of bits. -/
structure Ace where
  tag : AceTag
  perm : Nat
  id : Nat
  deriving DecidableEq

/-- What is kept for an inode. -/
structure AclCtx where
  uid : Nat
  gid : Nat
  perm : Nat
  aclAccess : Option (List Ace)

structure AclConf where
  superUid : Nat

/-- The caller: `frame->root`. -/
structure Caller where
  uid : Nat
  gid : Nat
  groups : List Nat

/-- The `minimal_acl` that `init` makes. -/
def minimalAcl : List Ace := [⟨.userObj, 0, 0⟩, ⟨.groupObj, 0, 0⟩, ⟨.other, 0, 0⟩]

/-- All the wanted permissions are there. -/
def Covers (perm want : Nat) : Prop := perm &&& want = want
  deriving Decidable

/-- The three bits of the owner, the group and the others in a mode. -/
def ownerBits (mode : Nat) : Nat := (mode &&& 0o700) >>> 6

def groupBits (mode : Nat) : Nat := (mode &&& 0o070) >>> 3

def otherBits (mode : Nat) : Nat := mode &&& 0o007

section Frame

variable (caller : Caller)

/-- `frame_is_user` -/
def frameIsUser (uid : Nat) : Bool := caller.uid = uid

/-- `frame_is_super_user` -/
def frameIsSuperUser (conf : AclConf) : Bool :=
  frameIsUser caller conf.superUid || frameIsUser caller 0

/-- `frame_in_group` -/
def frameInGroup (gid : Nat) : Bool := caller.gid = gid || caller.groups.contains gid

end Frame

/-- Where the loop of `acl_permits` jumps to. -/
inductive AclJump
  | permCheck (perm : Nat)
  | maskCheck (perm : Nat)
  | red

section Permits

variable (caller : Caller) (ctx : AclCtx) (want : Nat)

/-- A group entry: it is found if the caller is in the group, and decides if it has the
wanted permissions. -/
def groupDecides (gid perm : Nat) : Bool := frameInGroup caller gid && decide (Covers perm want)

/-- The loop of `acl_permits`. -/
def aclLoop (aclPresent : Bool) : List Ace → Nat → Bool → AclJump
  | [], perm, _ => .maskCheck perm
  | ace :: rest, perm, found =>
    match ace.tag with
    | .userObj =>
      let perm := ownerBits ctx.perm
      if frameIsUser caller ctx.uid then .permCheck perm else aclLoop aclPresent rest perm found
    | .user =>
      let perm := ace.perm
      if frameIsUser caller ace.id then .maskCheck perm else aclLoop aclPresent rest perm found
    | .groupObj =>
      let perm := if aclPresent then ace.perm else groupBits ctx.perm
      if groupDecides caller want ctx.gid perm then .maskCheck perm
      else aclLoop aclPresent rest perm (found || frameInGroup caller ctx.gid)
    | .group =>
      let perm := ace.perm
      if groupDecides caller want ace.id perm then .maskCheck perm
      else aclLoop aclPresent rest perm (found || frameInGroup caller ace.id)
    | .mask => aclLoop aclPresent rest perm found
    | .other => if found then .red else .permCheck (otherBits ctx.perm)
    | .undefined => .red

/-- From `mask_check` on: the first mask decides, or the permissions alone. -/
def maskCheck (acl : List Ace) (perm : Nat) : Bool :=
  match acl.find? fun ace => ace.tag = .mask with
  | some ace => Covers (ace.perm &&& perm) want
  | none => Covers perm want

/-- `acl_permits`, where the inode has a context. -/
def aclPermits (conf : AclConf) : Bool :=
  if frameIsSuperUser caller conf then true
  else
    let acl := ctx.aclAccess.getD minimalAcl
    match aclLoop caller ctx want (3 < acl.length) acl 0 false with
    | .permCheck perm => Covers perm want
    | .maskCheck perm => maskCheck want acl perm
    | .red => false

end Permits

/-! ## Access lists -/

/-- The value of a tag, by which entries are ordered. -/
def AceTag.value : AceTag → Nat
  | .undefined => 0
  | .userObj => 1
  | .user => 2
  | .groupObj => 4
  | .group => 8
  | .mask => 16
  | .other => 32

/-- A valid access list. -/
structure ValidAcl (acl : List Ace) : Prop where
  userObj : (acl.countP fun ace => ace.tag = .userObj) = 1
  groupObj : (acl.countP fun ace => ace.tag = .groupObj) = 1
  other : (acl.countP fun ace => ace.tag = .other) = 1
  mask : (acl.countP fun ace => ace.tag = .mask) ≤ 1
  named : (∃ ace ∈ acl, ace.tag = .user ∨ ace.tag = .group) → ∃ ace ∈ acl, ace.tag = .mask
  defined : ∀ ace ∈ acl, ace.tag ≠ .undefined
  ordered : acl.Pairwise fun left right => left.tag.value ≤ right.tag.value

/-- The permission bits of the inode are those of the access list. -/
structure InStep (mode : Nat) (acl : List Ace) : Prop where
  owner : ∀ ace ∈ acl, ace.tag = .userObj → ownerBits mode = ace.perm
  other : ∀ ace ∈ acl, ace.tag = .other → otherBits mode = ace.perm
  mask : ∀ ace ∈ acl, ace.tag = .mask → groupBits mode = ace.perm
  group : (∀ ace ∈ acl, ace.tag ≠ .mask) →
    ∀ ace ∈ acl, ace.tag = .groupObj → groupBits mode = ace.perm

/-- A group entry that the caller matches: that of the owning group or a named one. -/
def MatchesGroup (caller : Caller) (gid : Nat) (ace : Ace) : Prop :=
  ace.tag = .groupObj ∧ frameInGroup caller gid = true ∨
    ace.tag = .group ∧ frameInGroup caller ace.id = true

/-- The mask of the list has the wanted permissions, if there is one. -/
def MaskCovers (acl : List Ace) (want : Nat) : Prop :=
  ∀ ace ∈ acl, ace.tag = .mask → Covers ace.perm want

/-- The POSIX.1e access check: the owner by `USER_OBJ`, else a named user by its entry and
the mask, else a caller in a group by some entry of its groups and the mask, else by
`OTHER`. -/
def PosixGrants (acl : List Ace) (uid gid : Nat) (caller : Caller) (want : Nat) : Prop :=
  if caller.uid = uid then ∃ ace ∈ acl, ace.tag = .userObj ∧ Covers ace.perm want
  else
    match acl.find? fun ace => ace.tag = .user ∧ ace.id = caller.uid with
    | some ace => Covers ace.perm want ∧ MaskCovers acl want
    | none =>
      ((∃ ace ∈ acl, MatchesGroup caller gid ace) ∧
        (∃ ace ∈ acl, MatchesGroup caller gid ace ∧ Covers ace.perm want) ∧ MaskCovers acl want) ∨
      (¬∃ ace ∈ acl, MatchesGroup caller gid ace) ∧
        ∃ ace ∈ acl, ace.tag = .other ∧ Covers ace.perm want

end GlusterFS.PosixAcl
