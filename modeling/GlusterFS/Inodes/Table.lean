import GlusterFS.Core.Transition

/-!
# The inode table

Inodes are on one of the lists `active`, `lru` and `purge`, are found by their
gfid in one hash table and by parent and name in another, and keep their parents
alive through their dentries.  An action is one section under `table->lock`;
those that `inode_table_prune` follows in the source are actions without it, and
pruning is an action of its own that also destroys what it finds on `purge`.
Memory stays readable after it is freed and no allocation fails.
-/

namespace GlusterFS.Inodes

open Transition

/-- An `inode_t *`: the inodes in the order of their creation, the root first. -/
abbrev InodeId := Nat

/-- `table->root` -/
def root : InodeId := 0

/-- The gfid of the root; 0 is the null gfid. -/
def rootGfid : Nat := 1

structure Inode where
  gfid : Nat
  nlookup : Nat
  ref : Nat
  deriving DecidableEq

structure Dentry where
  inode : InodeId
  parent : InodeId
  name : String
  hashed : Bool
  deriving DecidableEq

/-- The hash tables are lists with the last addition first, which is the order
within each of their buckets.  `dentries` has the dentries of all the inodes, so
the `dentry_list` of one is the part that names it.  The sizes are `uint32_t` in
the source and integers here, so that an underflow shows. -/
structure InodeTable where
  lruLimit : Nat
  inode : InodeId → Inode
  created : Nat
  destroyed : List InodeId
  active : List InodeId
  lru : List InodeId
  purge : List InodeId
  activeSize : Int
  lruSize : Int
  purgeSize : Int
  inodeHash : List InodeId
  dentries : List Dentry

namespace InodeTable

variable (t : InodeTable)

def Live (i : InodeId) : Prop := i < t.created ∧ i ∉ t.destroyed
  deriving Decidable

def ref (i : InodeId) : Nat := (t.inode i).ref

def setInode (i : InodeId) (inode : Inode) : InodeTable :=
  { t with inode := Function.update t.inode i inode }

def setRef (i : InodeId) (ref : Nat) : InodeTable := t.setInode i { t.inode i with ref := ref }

/-- `dentry_list` -/
def dentryList (i : InodeId) : List Dentry := t.dentries.filter fun dentry => dentry.inode = i

/-! ## References -/

def inodeActivate (i : InodeId) : InodeTable :=
  { t with
    active := i :: t.active.erase i
    lru := t.lru.erase i
    purge := t.purge.erase i
    activeSize := t.activeSize + 1 }

/-- `__inode_ref` -/
def inodeRef (i : InodeId) : InodeTable :=
  let t := if t.ref i = 0 then inodeActivate { t with lruSize := t.lruSize - 1 } i else t
  t.setRef i ((t.ref i + 1) % 2 ^ 32)

/-- `list_move_tail` to `lru`. -/
def moveToLru (i : InodeId) : InodeTable :=
  { t with
    active := t.active.erase i
    lru := t.lru.erase i ++ [i]
    purge := t.purge.erase i
    lruSize := t.lruSize + 1 }

/-- `list_move_tail` to `purge`, and `__inode_unhash`. -/
def moveToPurge (i : InodeId) : InodeTable :=
  { t with
    active := t.active.erase i
    lru := t.lru.erase i
    purge := t.purge.erase i ++ [i]
    purgeSize := t.purgeSize + 1
    inodeHash := t.inodeHash.filter fun other => other ≠ i }

section Unset

/-! The three functions below call `__dentry_unset`, which calls the last of
them. -/

variable (unset : InodeTable → Dentry → InodeTable)

/-- `__inode_passivate` -/
def inodePassivate (i : InodeId) : InodeTable :=
  let t := t.moveToLru i
  (t.dentryList i).foldl (fun t dentry => if dentry.hashed then t else unset t dentry) t

/-- `__inode_retire` -/
def inodeRetire (i : InodeId) : InodeTable :=
  let t := t.moveToPurge i
  (t.dentryList i).foldl unset t

/-- `__inode_unref` -/
def inodeUnref (i : InodeId) : InodeTable :=
  if (t.inode i).gfid = rootGfid then t
  else
    let t := t.setRef i ((t.ref i + (2 ^ 32 - 1)) % 2 ^ 32)
    if t.ref i = 0 then
      let t := { t with activeSize := t.activeSize - 1 }
      if (t.inode i).nlookup ≠ 0 then t.inodePassivate unset i else t.inodeRetire unset i
    else t

end Unset

/-- `__dentry_unset`.  Every turn of the recursion takes a dentry away, so the
number of dentries is fuel enough. -/
def dentryUnset : Nat → InodeTable → Dentry → InodeTable
  | 0, t, _ => t
  | fuel + 1, t, dentry =>
    inodeUnref { t with dentries := t.dentries.erase dentry } (dentryUnset fuel) dentry.parent

def unset (dentry : Dentry) : InodeTable := dentryUnset t.dentries.length t dentry

def unref (i : InodeId) : InodeTable := t.inodeUnref (dentryUnset t.dentries.length) i

def retire (i : InodeId) : InodeTable := t.inodeRetire (dentryUnset t.dentries.length) i

/-! ## Creating and finding -/

/-- `__inode_create` -/
def inodeCreate : InodeTable :=
  { t with
    inode := Function.update t.inode t.created ⟨0, 0, 0⟩
    created := t.created + 1
    lru := t.created :: t.lru
    lruSize := t.lruSize + 1 }

/-- `__dentry_grep` -/
def dentryGrep (parent : InodeId) (name : String) : Option Dentry :=
  t.dentries.find? fun dentry => dentry.hashed ∧ dentry.parent = parent ∧ dentry.name = name

/-- `__inode_find` -/
def inodeFind (gfid : Nat) : Option InodeId :=
  if gfid = rootGfid then some root
  else t.inodeHash.find? fun i => (t.inode i).gfid = gfid

/-- `__dentry_search_for_inode` -/
def dentrySearchForInode (i : InodeId) (pargfid : Nat) (name : String) : Option Dentry :=
  if pargfid = 0 then none
  else t.dentries.find? fun dentry =>
    dentry.inode = i ∧ (t.inode dentry.parent).gfid = pargfid ∧ dentry.name = name

/-! ## Linking -/

/-- `__dentry_create` -/
def dentryCreate (dentry : Dentry) : InodeTable :=
  let t := t.inodeRef dentry.parent
  { t with dentries := dentry :: t.dentries }

/-- `__dentry_hash` -/
def dentryHash (dentry : Dentry) : InodeTable :=
  { t with dentries := { dentry with hashed := true } :: t.dentries.erase dentry }

/-- `__foreach_ancestor_dentry` with `__check_cycle`.  The source has no fuel and
does not return where the ancestors of the dentry go in a circle. -/
def checkCycle (link : InodeId) : Nat → Dentry → Bool
  | 0, _ => false
  | fuel + 1, dentry =>
    dentry.parent = link || (t.dentryList dentry.parent).any (checkCycle link fuel)

/-- `__is_dentry_cyclic` -/
def isDentryCyclic (dentry : Dentry) : Bool :=
  t.checkCycle dentry.inode t.dentries.length dentry

/-- The first half of `__inode_link`: `link_inode`, and whether it is `old_inode`. -/
def linkInode (i : InodeId) (iatt : Option Nat) : Option (InodeId × Bool) × InodeTable :=
  if i ∈ t.inodeHash then (some (i, false), t)
  else match iatt with
    | none => (none, t)
    | some gfid =>
      if gfid = 0 then (none, t)
      else match t.inodeFind gfid with
        | some old => (some (old, true), t)
        | none =>
          let t := t.setInode i { t.inode i with gfid := gfid }
          (some (i, false), { t with inodeHash := i :: t.inodeHash })

/-- The second half of `__inode_link`. -/
def dentryLink (link : InodeId) (old : Bool) (parent : InodeId) (name : String) :
    Option InodeId × InodeTable :=
  let oldDentry := t.dentryGrep parent name
  if oldDentry.any fun dentry => dentry.inode = link then (some link, t)
  else
    let dentry : Dentry := ⟨link, parent, name, false⟩
    let t := t.dentryCreate dentry
    if old && t.isDentryCyclic dentry then (none, t.unset dentry)
    else
      let t := t.dentryHash dentry
      match oldDentry with
      | none => (some link, t)
      | some oldDentry => (some link, t.unset oldDentry)

/-- `__inode_link` -/
def inodeLink (i : InodeId) (parent : Option InodeId) (name : Option String)
    (iatt : Option Nat) : Option InodeId × InodeTable :=
  match t.linkInode i iatt with
  | (none, t) => (none, t)
  | (some (link, old), t) =>
    if name = some "." ∨ name = some ".." then (some link, t)
    else match parent, name with
      | none, _ => (some link, t)
      | some _, none => (none, t)
      | some parent, some name => t.dentryLink link old parent name

/-- `__inode_unlink` -/
def inodeUnlink (i : InodeId) (parent : Option InodeId) (name : Option String) : InodeTable :=
  match parent, name with
  | some parent, some name =>
    match t.dentrySearchForInode i (t.inode parent).gfid name with
    | none => t
    | some dentry => t.unset dentry
  | _, _ => t

/-! ## Pruning -/

/-- The loop of `inode_table_prune`. -/
def pruneLoop : Nat → InodeTable → InodeTable
  | 0, t => t
  | fuel + 1, t =>
    if t.lruLimit ≠ 0 ∧ (t.lruLimit : Int) < t.lruSize then
      match t.lru with
      | [] => t
      | entry :: _ => pruneLoop fuel (retire { t with lruSize := t.lruSize - 1 } entry)
    else t

/-- `__inode_forget` -/
def inodeForget (i : InodeId) (nlookup : Nat) : InodeTable :=
  let inode := t.inode i
  t.setInode i { inode with nlookup := if nlookup = 0 then 0
                            else (inode.nlookup + (2 ^ 64 - nlookup % 2 ^ 64)) % 2 ^ 64 }

/-- The inodes of the purge list are forgotten and destroyed. -/
def destroyPurge : InodeTable :=
  { t with
    inode := fun i => if i ∈ t.purge then { t.inode i with nlookup := 0 } else t.inode i
    destroyed := t.purge ++ t.destroyed
    purge := []
    purgeSize := 0 }

/-- `inode_table_prune`.  A turn of the loop takes an inode off `active` and `lru`,
so that their length is fuel enough. -/
def inodeTablePrune : InodeTable :=
  (pruneLoop (t.active.length + t.lru.length) t).destroyPurge

/-- `inode_table_new` with `__inode_table_init_root`. -/
def inodeTableNew (lruLimit : Nat) : InodeTable :=
  let t : InodeTable :=
    { lruLimit := lruLimit, inode := fun _ => ⟨0, 0, 0⟩, created := 0, destroyed := [],
      active := [], lru := [], purge := [], activeSize := 0, lruSize := 0, purgeSize := 0,
      inodeHash := [], dentries := [] }
  let t := t.inodeCreate
  { t.setInode root ⟨rootGfid, 0, 0⟩ with inodeHash := [root] }

end InodeTable

/-! ## Callers -/

/-- The table with the number of references that the callers have on each inode. -/
structure InodeState where
  table : InodeTable
  held : InodeId → Nat

namespace InodeState

variable (s : InodeState)

def start (lruLimit : Nat) : InodeState := ⟨.inodeTableNew lruLimit, fun _ => 0⟩

/-- The result of a call that returns an inode, with a reference for the caller. -/
def take (result : Option InodeId × InodeTable) : InodeState :=
  match result with
  | (none, t) => { s with table := t }
  | (some i, t) => ⟨t.inodeRef i, Function.update s.held i (s.held i + 1)⟩

def drop (i : InodeId) : InodeState :=
  ⟨s.table.unref i, Function.update s.held i (s.held i - 1)⟩

end InodeState

inductive InodeLabel
  | new
  | link (i : InodeId) (parent : Option InodeId) (name : Option String) (iatt : Option Nat)
  | unlink (i : InodeId) (parent : Option InodeId) (name : Option String)
  | rename (srcdir : Option InodeId) (srcname : Option String) (dstdir : Option InodeId)
      (dstname : Option String) (i : InodeId) (iatt : Option Nat)
  | ref (i : InodeId)
  | unref (i : InodeId)
  | lookup (i : InodeId)
  | forget (i : InodeId) (nlookup : Nat)
  | find (gfid : Nat)
  | grep (parent : InodeId) (name : String)
  | prune
  deriving DecidableEq

/-- The inodes that a caller passes to the function. -/
def InodeLabel.arguments : InodeLabel → List InodeId
  | .new | .find _ | .prune => []
  | .link i parent _ _ | .unlink i parent _ => i :: parent.toList
  | .rename srcdir _ dstdir _ i _ => i :: (srcdir.toList ++ dstdir.toList)
  | .ref i | .unref i | .lookup i | .forget i _ | .grep i _ => [i]

/-- One call.  Callers pass inodes on which they have a reference. -/
def inodeStep (s : InodeState) (label : InodeLabel) : Option InodeState :=
  let t := s.table
  if ∀ i ∈ label.arguments, 0 < s.held i then
    some <| match label with
      | .new => s.take (some t.created, t.inodeCreate)
      | .link i parent name iatt => s.take (t.inodeLink i parent name iatt)
      | .unlink i parent name => { s with table := t.inodeUnlink i parent name }
      | .rename srcdir srcname dstdir dstname i iatt =>
        { s with table := (t.inodeLink i dstdir dstname iatt).2.inodeUnlink i srcdir srcname }
      | .ref i => s.take (some i, t)
      | .unref i => s.drop i
      | .lookup i =>
        let inode := t.inode i
        { s with table := t.setInode i { inode with nlookup := (inode.nlookup + 1) % 2 ^ 64 } }
      | .forget i nlookup => { s with table := t.inodeForget i nlookup }
      | .find gfid => s.take (t.inodeFind gfid, t)
      | .grep parent name => s.take ((t.dentryGrep parent name).map Dentry.inode, t)
      | .prune => { s with table := t.inodeTablePrune }
  else none

end GlusterFS.Inodes
