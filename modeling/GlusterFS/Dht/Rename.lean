import GlusterFS.Core.Transition

/-!
# Renaming a file

A subvolume is a map from names to data files and linkfiles.  `dht_rename` of a file winds calls
to the subvolumes in up to three phases: links, or the unlink of a linkfile in the way, then the
rename on one subvolume, then unlinks of what is left of the old names.  The child executes a wound
call at some time, or the call fails; the reply is handled later.
-/

namespace GlusterFS.Dht

variable {Subvol Name : Type} [DecidableEq Subvol] [DecidableEq Name]

inductive DirEntry (Subvol : Type)
  | data (file : Nat)
  | linkfile (tovol : Subvol)
  deriving DecidableEq

abbrev Bricks (Subvol Name : Type) := Subvol → Name → Option (DirEntry Subvol)

def Bricks.set (bricks : Bricks Subvol Name) (subvol : Subvol) (name : Name)
    (entry : Option (DirEntry Subvol)) : Bricks Subvol Name := fun other otherName =>
  if other = subvol ∧ otherName = name then entry else bricks other otherName

@[grind =]
theorem Bricks.set_apply (bricks : Bricks Subvol Name) (subvol other : Subvol)
    (name otherName : Name) (entry : Option (DirEntry Subvol)) :
    bricks.set subvol name entry other otherName =
      if other = subvol ∧ otherName = name then entry else bricks other otherName :=
  rfl

/-- A call on one subvolume. -/
inductive ChildOp (Subvol Name : Type)
  | mknod (subvol : Subvol) (name : Name) (tovol : Subvol)
  | link (subvol : Subvol) (old new : Name)
  | unlink (subvol : Subvol) (name : Name)
  | rename (subvol : Subvol) (old new : Name)
  deriving DecidableEq

def ChildOp.Ready (bricks : Bricks Subvol Name) : ChildOp Subvol Name → Prop
  | .mknod subvol name _ => bricks subvol name = none
  | .link subvol old new => bricks subvol old ≠ none ∧ bricks subvol new = none
  | .unlink subvol name => bricks subvol name ≠ none
  | .rename subvol old _ => bricks subvol old ≠ none

instance (bricks : Bricks Subvol Name) (op : ChildOp Subvol Name) : Decidable (op.Ready bricks) :=
  match op with
  | .mknod _ _ _ => inferInstanceAs (Decidable (_ = _))
  | .link _ _ _ => inferInstanceAs (Decidable (_ ∧ _))
  | .unlink _ _ => inferInstanceAs (Decidable (_ ≠ _))
  | .rename _ _ _ => inferInstanceAs (Decidable (_ ≠ _))

def ChildOp.apply : ChildOp Subvol Name → Bricks Subvol Name → Bricks Subvol Name
  | .mknod subvol name tovol, bricks => bricks.set subvol name (some (.linkfile tovol))
  | .link subvol old new, bricks => bricks.set subvol new (bricks subvol old)
  | .unlink subvol name, bricks => bricks.set subvol name none
  | .rename subvol old new, bricks =>
      (bricks.set subvol new (bricks subvol old)).set subvol old none

/-- The subvolumes and names of a rename. -/
structure RenameArgs (Subvol Name : Type) where
  srcHashed : Subvol
  srcCached : Subvol
  dstHashed : Subvol
  dstCached : Option Subvol
  old : Name
  new : Name
  old_ne_new : old ≠ new

inductive RenameCbk
  /-- `dht_rename_links_cbk`, also behind `dht_linkfile_create_cbk` -/
  | links
  /-- `dht_rename_unlink_links_cbk` -/
  | unlinkLinks
  /-- `dht_rename_cbk` -/
  | rename
  /-- `dht_rename_unlink_cbk` -/
  | unlink
  /-- `dht_rename_links_create_cbk` of the frame made for the linkfile -/
  | linksCreate
  deriving DecidableEq

structure RenameCall (Subvol Name : Type) where
  op : ChildOp Subvol Name
  cbk : RenameCbk
  deriving DecidableEq

/-- A reply holds the error, if the call failed. -/
structure RenameState (Subvol Name : Type) where
  bricks : Bricks Subvol Name
  wound : List (RenameCall Subvol Name)
  replies : List (RenameCbk × Option Nat)
  callCnt : Int
  opRet : Int
  opErrno : Nat
  answers : List (Int × Nat)

def renameEnoent : Nat := 2

/-- The error a local starts with; a rename that succeeds unwinds with it. -/
def renameEuclean : Nat := 117

section Rename

variable (args : RenameArgs Subvol Name) (s : RenameState Subvol Name)

def RenameState.wind (calls : List (RenameCall Subvol Name)) : RenameState Subvol Name :=
  { s with wound := s.wound ++ calls }

def RenameState.unwind : RenameState Subvol Name :=
  { s with answers := s.answers ++ [(s.opRet, s.opErrno)] }

/-- The two calls that `dht_rename_create_links` winds, or `dht_rename_cleanup` undoes. -/
def RenameArgs.makesLinkfile : Bool :=
  args.dstHashed ≠ args.srcHashed && args.dstHashed ≠ args.srcCached

def RenameArgs.makesLink : Bool := args.srcCached ≠ args.dstHashed

def RenameArgs.renameSubvol : Subvol :=
  if some args.srcCached = args.dstCached then args.srcCached else args.dstHashed

/-- `dht_do_rename` -/
def dhtDoRename : RenameState Subvol Name :=
  s.wind [⟨.rename args.renameSubvol args.old args.new, .rename⟩]

def RenameArgs.linkCalls : List (RenameCall Subvol Name) :=
  (if args.makesLinkfile then [⟨.mknod args.dstHashed args.old args.srcCached, .links⟩] else []) ++
    if args.makesLink then [⟨.link args.srcCached args.old args.new, .links⟩] else []

/-- `dht_rename_create_links` -/
def dhtRenameCreateLinks : RenameState Subvol Name :=
  if some args.srcCached = args.dstCached then
    if some args.dstHashed = args.dstCached then dhtDoRename args s
    else s.wind [⟨.unlink args.dstHashed args.new, .unlinkLinks⟩]
  else if args.linkCalls = [] then dhtDoRename args { s with callCnt := 0 }
  else { s with callCnt := (args.linkCalls.length : Int) }.wind args.linkCalls

def RenameArgs.cleanupCalls : List (RenameCall Subvol Name) :=
  (if args.makesLinkfile then [⟨.unlink args.dstHashed args.old, .unlink⟩] else []) ++
    if args.makesLink then [⟨.unlink args.srcCached args.new, .unlink⟩] else []

/-- `dht_rename_cleanup` -/
def dhtRenameCleanup : RenameState Subvol Name :=
  if some args.srcCached = args.dstCached then s.unwind
  else if args.cleanupCalls = [] then { s with callCnt := 0 }.unwind
  else { s with callCnt := (args.cleanupCalls.length : Int) }.wind args.cleanupCalls

/-- `dht_rename_links_cbk` -/
def dhtRenameLinksCbk (error : Option Nat) : RenameState Subvol Name :=
  let s := match error with
    | none => s
    | some errno =>
      { s with opRet := -1, opErrno := if errno ≠ renameEnoent then errno else s.opErrno }
  let s := { s with callCnt := s.callCnt - 1 }
  if s.callCnt = 0 then
    if s.opRet = -1 then dhtRenameCleanup args s else dhtDoRename args s
  else s

/-- `dht_rename_unlink_links_cbk` -/
def dhtRenameUnlinkLinksCbk (error : Option Nat) : RenameState Subvol Name :=
  let s := match error with
    | none => s
    | some errno => if errno ≠ renameEnoent then { s with opRet := -1, opErrno := errno } else s
  if s.opRet = -1 then dhtRenameCleanup args s else dhtDoRename args s

/-- The old names that are still there after the rename. -/
def RenameArgs.unlinkCalls : List (RenameCall Subvol Name) :=
  (if args.srcCached ≠ args.dstHashed ∧ some args.srcCached ≠ args.dstCached then
    [⟨.unlink args.srcCached args.old, .unlink⟩] else []) ++
  (if args.srcHashed ≠ args.renameSubvol ∧ args.srcHashed ≠ args.srcCached then
    [⟨.unlink args.srcHashed args.old, .unlink⟩] else []) ++
  match args.dstCached with
  | none => []
  | some dstCached =>
    if dstCached ≠ args.dstHashed ∧ dstCached ≠ args.srcCached then
      [⟨.unlink dstCached args.new, .unlink⟩]
    else []

/-- The linkfile that `dht_rename_cbk` makes on a frame of its own. -/
def RenameArgs.linkfileCalls : List (RenameCall Subvol Name) :=
  if some args.srcCached = args.dstCached ∧ some args.dstHashed ≠ args.dstCached then
    [⟨.mknod args.dstHashed args.new args.srcCached, .linksCreate⟩]
  else []

/-- `dht_rename_cbk` -/
def dhtRenameCbk (error : Option Nat) : RenameState Subvol Name :=
  match error with
  | some errno => dhtRenameCleanup args { s with opRet := -1, opErrno := errno }
  | none =>
    let s := s.wind args.linkfileCalls
    let s : RenameState Subvol Name :=
      { s with callCnt := s.callCnt + (args.unlinkCalls.length : Int) }
    if s.callCnt = 0 then s.unwind else s.wind args.unlinkCalls

/-- `dht_rename_unlink_cbk` -/
def dhtRenameUnlinkCbk : RenameState Subvol Name :=
  let s := { s with callCnt := s.callCnt - 1 }
  if s.callCnt = 0 then s.unwind else s

def renameCallback (error : Option Nat) : RenameCbk → RenameState Subvol Name
  | .links => dhtRenameLinksCbk args s error
  | .unlinkLinks => dhtRenameUnlinkLinksCbk args s error
  | .rename => dhtRenameCbk args s error
  | .unlink => dhtRenameUnlinkCbk s
  | .linksCreate => s

inductive RenameLabel
  /-- A child executes a wound call. -/
  | exec (call : Nat)
  /-- A wound call fails and has no effect. -/
  | fail (call errno : Nat)
  /-- A reply is handled. -/
  | reply (reply : Nat)

def renameStep : RenameLabel → Option (RenameState Subvol Name)
  | .exec call => s.wound[call]?.bind fun found =>
    if found.op.Ready s.bricks then
      some { s with
        bricks := found.op.apply s.bricks
        wound := s.wound.eraseIdx call
        replies := s.replies ++ [(found.cbk, none)] }
    else none
  | .fail call errno => s.wound[call]?.map fun found =>
    { s with
      wound := s.wound.eraseIdx call
      replies := s.replies ++ [(found.cbk, some errno)] }
  | .reply reply => s.replies[reply]?.map fun (cbk, error) =>
    renameCallback args { s with replies := s.replies.eraseIdx reply } error cbk

/-- No child operation fails. -/
def RenameLabel.Succeeds : RenameLabel → Prop
  | .fail _ _ => False
  | _ => True

instance (label : RenameLabel) : Decidable label.Succeeds :=
  match label with
  | .exec _ => inferInstanceAs (Decidable True)
  | .fail _ _ => inferInstanceAs (Decidable False)
  | .reply _ => inferInstanceAs (Decidable True)

/-- `dht_rename` of a file. -/
def dhtRename (bricks : Bricks Subvol Name) : RenameState Subvol Name :=
  dhtRenameCreateLinks args ⟨bricks, [], [], 0, 0, renameEuclean, []⟩

end Rename

/-! ## What a rename is -/

/-- The names are placed: the data file of the old name is on its cached subvolume, that of the new
name, if it exists, on its own, and each hashed subvolume has a linkfile where it is another one. -/
structure Placed (args : RenameArgs Subvol Name) (bricks : Bricks Subvol Name) (file : Nat)
    (replaced : Option Nat) : Prop where
  source : ∀ subvol, bricks subvol args.old = if subvol = args.srcCached then some (.data file)
    else if subvol = args.srcHashed then some (.linkfile args.srcCached) else none
  absent : args.dstCached = none → replaced = none ∧ ∀ subvol, bricks subvol args.new = none
  destination : ∀ dstCached, args.dstCached = some dstCached →
    ∃ other, replaced = some other ∧ other ≠ file ∧ ∀ subvol, bricks subvol args.new =
      if subvol = dstCached then some (.data other)
      else if subvol = args.dstHashed then some (.linkfile dstCached) else none

/-- The file a name resolves to from a subvolume, through at most one linkfile. -/
def resolve (bricks : Bricks Subvol Name) (subvol : Subvol) (name : Name) : Option Nat :=
  match bricks subvol name with
  | some (.data file) => some file
  | some (.linkfile tovol) =>
    match bricks tovol name with
    | some (.data file) => some file
    | _ => none
  | none => none

/-- No call is on its way and no reply is left. -/
def RenameState.Complete (s : RenameState Subvol Name) : Prop := s.wound = [] ∧ s.replies = []

/-- The outcome of a rename.  What still holds the data the new name had before is a hard link to it
under a third name. -/
structure Renamed (args : RenameArgs Subvol Name) (before : Bricks Subvol Name) (file : Nat)
    (replaced : Option Nat) (s : RenameState Subvol Name) : Prop where
  answered : s.answers = [(0, renameEuclean)]
  resolves : resolve s.bricks args.dstHashed args.new = some file
  old_gone : ∀ subvol, s.bricks subvol args.old = none
  data_gone : ∀ other, replaced = some other → ∀ subvol name,
    s.bricks subvol name = some (.data other) →
      name ≠ args.old ∧ name ≠ args.new ∧ before subvol name = some (.data other)
  same : ∀ subvol name, name ≠ args.old → name ≠ args.new →
    s.bricks subvol name = before subvol name

end GlusterFS.Dht
