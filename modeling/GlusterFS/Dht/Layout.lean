import Mathlib.Data.UInt

/-!
# Directory layouts

A directory has a range of 32-bit hash values for each subvolume.  A name is looked up on
the subvolume whose range has the hash of the name.  Characters are signed and words are
little-endian, as on x86.
-/

namespace GlusterFS.Dht

/-! ## Hashes -/

/-- A file name or path: the bytes before the one that ends it. -/
abbrev FileName := List UInt8

def dmDelta : UInt32 := 0x9E3779B9

/-- The loop of `dm_round`. -/
def dmLoop (array : List UInt32) : Nat → UInt32 → UInt32 → UInt32 → UInt32 × UInt32
  | 0, _, b0, b1 => (b0, b1)
  | n + 1, sum, b0, b1 =>
    let sum := sum + dmDelta
    let b0 := b0 + (((b1 <<< 4) + array.getD 0 0) ^^^ (b1 + sum) ^^^ ((b1 >>> 5) + array.getD 1 0))
    let b1 := b1 + (((b0 <<< 4) + array.getD 2 0) ^^^ (b0 + sum) ^^^ ((b0 >>> 5) + array.getD 3 0))
    dmLoop array n sum b0 b1

/-- `dm_round` -/
def dmRound (rounds : Nat) (array : List UInt32) (h : UInt32 × UInt32) : UInt32 × UInt32 :=
  let b := dmLoop array rounds 0 h.1 h.2
  (h.1 + b.1, h.2 + b.2)

/-- `__pad` -/
def pad (len : Nat) : UInt32 :=
  let pad := UInt32.ofNat len ||| (UInt32.ofNat len <<< 8)
  pad ||| (pad <<< 16)

/-- A character as an `int`. -/
def charToWord (char : UInt8) : UInt32 :=
  if char < 128 then char.toUInt32 else char.toUInt32 ||| 0xffffff00

/-- The words of `array` that are read from the message, and the rest of it padded. -/
def dmWords (pad : UInt32) : Nat → FileName → List UInt32
  | 0, _ => []
  | j + 1, b0 :: b1 :: b2 :: b3 :: rest =>
    (b0.toUInt32 ||| (b1.toUInt32 <<< 8) ||| (b2.toUInt32 <<< 16) ||| (b3.toUInt32 <<< 24)) ::
      dmWords pad j rest
  | j + 1, rest =>
    rest.foldl (fun word char => (word <<< 8) ||| charToWord char) pad :: dmWords pad j []

/-- The loop over full quads in `gf_dm_hashfn`. -/
def dmQuads (pad : UInt32) : Nat → FileName → UInt32 × UInt32 → FileName × UInt32 × UInt32
  | 0, msg, h => (msg, h)
  | quads + 1, msg, h => dmQuads pad quads (msg.drop 16) (dmRound 6 (dmWords pad 4 (msg.take 16)) h)

/-- `gf_dm_hashfn` -/
def gfDmHashfn (msg : FileName) : UInt32 :=
  let pad := pad msg.length
  let (rest, h) := dmQuads pad (msg.length / 16) msg (0x9464a485, 0x542e1a94)
  let h := dmRound 10 (dmWords pad 4 rest) h
  h.1 ^^^ h.2

def dot : UInt8 := 46

/-- `strrchr (name, '.')` as an index. -/
def strrchrDot (name : FileName) : Option Nat :=
  (name.reverse.findIdx? (· = dot)).map fun fromEnd => name.length - 1 - fromEnd

/-- `MAKE_RSYNC_FRIENDLY_NAME` -/
def rsyncFriendlyName (name : FileName) : FileName :=
  if name.head? = some dot then
    match strrchrDot name with
    | some last => if 1 < last ∧ last + 1 < name.length then (name.drop 1).take (last - 1) else name
    | none => name
  else name

/-- `dht_hash_compute`; both hash types have one function. -/
def dhtHashCompute (name : FileName) : UInt32 := gfDmHashfn (rsyncFriendlyName name)

/-! ## Layouts -/

/-- A subvolume, by its number. -/
abbrev Subvol := Nat

def enoent : Int := 2
def einval : Int := 22
def enospc : Int := 28

structure LayoutEntry where
  err : Int
  start : UInt32
  stop : UInt32
  xlator : Subvol
  deriving DecidableEq

/-- A layout has entries, and not more than an `int` counts. -/
structure Layout where
  spreadCnt : Int
  list : List LayoutEntry
  cnt_pos : 0 < list.length
  cnt_lt : list.length < 2 ^ 31

namespace LayoutEntry

/-- The range was not reset. -/
def HasRange (entry : LayoutEntry) : Prop := ¬(entry.start = 0 ∧ entry.stop = 0)
  deriving Decidable

def Contains (entry : LayoutEntry) (hash : UInt32) : Prop :=
  entry.start ≤ hash ∧ hash ≤ entry.stop
  deriving Decidable

/-- `dht_selfheal_layout_new_directory` may give it a range. -/
def Assignable (entry : LayoutEntry) : Prop := entry.err = -1 ∨ entry.err = enoent
  deriving Decidable

end LayoutEntry

/-- The loop of `dht_layout_search`. -/
def searchList (list : List LayoutEntry) (hash : UInt32) : Option Subvol :=
  (list.find? fun entry => entry.Contains hash).map LayoutEntry.xlator

/-- `dht_layout_search` -/
def dhtLayoutSearch (list : List LayoutEntry) (name : FileName) : Option Subvol :=
  searchList list (dhtHashCompute name)

/-! ## A layout for a new directory -/

/-- The first loop of `dht_get_layout_count`: decommissioned bricks get an error. -/
def markDecommissioned (decommissioned : List Subvol) (list : List LayoutEntry) :
    List LayoutEntry :=
  list.map fun entry =>
    if entry.xlator ∈ decommissioned then { entry with err := einval } else entry

/-- The second loop: an entry with a layout is to get a new one. -/
def markAssignable (list : List LayoutEntry) : List LayoutEntry :=
  list.map fun entry => if entry.err = 0 then { entry with err := -1 } else entry

/-- The third loop: entries without space. -/
def markNoSpace (list : List LayoutEntry) : List LayoutEntry :=
  list.map fun entry => if entry.err = enospc then { entry with err := -1 } else entry

/-- `dht_get_layout_count`: the entries and the count. -/
def dhtGetLayoutCount (decommissioned : List Subvol) (newLayout : Bool) (layout : Layout) :
    List LayoutEntry × Int :=
  let list := markAssignable (markDecommissioned decommissioned layout.list)
  let count := list.countP fun entry => entry.Assignable
  let full := list.countP fun entry => entry.err = enospc
  let (list, count) :=
    if count = 0 ∨ newLayout = false then (markNoSpace list, count + full) else (list, count)
  (list, if layout.spreadCnt ≠ 0 ∧ layout.spreadCnt ≤ count then layout.spreadCnt
    else if count ≠ 0 then count else 1)

/-- `DHT_RESET_LAYOUT_RANGE` -/
def dhtResetLayoutRange (list : List LayoutEntry) : List LayoutEntry :=
  list.map fun entry => { entry with start := 0, stop := 0 }

/-- The loops of `dht_selfheal_layout_new_directory` over the entries in turn. -/
def assignRanges (chunk : UInt32) : List Nat → UInt32 → Int → List LayoutEntry → List LayoutEntry
  | [], _, _, list => list
  | i :: rest, start, cnt, list =>
    match list[i]? with
    | none => list
    | some entry =>
      if entry.Assignable then
        if cnt - 1 = 0 then list.set i { entry with start := start, stop := 0xffffffff }
        else
          assignRanges chunk rest (start + chunk) (cnt - 1)
            (list.set i { entry with start := start, stop := start + chunk - 1 })
      else assignRanges chunk rest start cnt list

/-- An `int` as an `unsigned long`. -/
def toUnsignedLong (value : Int) : Nat := (value % 2 ^ 64).toNat

/-- `dht_selfheal_layout_new_directory`; `dht_selfheal_layout_alloc_start` gives the first
entry from the hash of the path. -/
def dhtSelfhealLayoutNewDirectory (decommissioned : List Subvol) (path : FileName)
    (layout : Layout) : List LayoutEntry :=
  let (list, cnt) := dhtGetLayoutCount decommissioned true layout
  let chunk := UInt32.ofNat (0xffffffff / toUnsignedLong (if cnt ≠ 0 then cnt else 1))
  let startSubvol := (dhtHashCompute path).toNat % list.length
  let turns := List.range' startSubvol (list.length - startSubvol) ++ List.range startSubvol
  assignRanges chunk turns 0 cnt (dhtResetLayoutRange list)

/-! ## Sorting -/

/-- `dht_layout_entry_cmp` -/
def dhtLayoutEntryCmp (left right : LayoutEntry) : Int :=
  if right.start = 0 ∧ right.stop = 0 then left.stop.toNat - right.stop.toNat
  else if left.err ≠ 0 ∨ right.err ≠ 0 then left.err - right.err
  else left.start.toNat - right.start.toNat

/-- `dht_layout_entry_swap` -/
def dhtLayoutEntrySwap (list : List LayoutEntry) (i j : Nat) : List LayoutEntry :=
  (list.toArray.swapIfInBounds i j).toList

/-- One turn of the inner loop of `dht_layout_sort`. -/
def sortTurn (i : Nat) (list : List LayoutEntry) (j : Nat) : List LayoutEntry :=
  match list[i]?, list[j]? with
  | some left, some right =>
    if 0 < dhtLayoutEntryCmp left right then dhtLayoutEntrySwap list i j else list
  | _, _ => list

/-- `dht_layout_sort` -/
def dhtLayoutSort (list : List LayoutEntry) : List LayoutEntry :=
  (List.range (list.length - 1)).foldl
    (fun list i => (List.range' (i + 1) (list.length - (i + 1))).foldl (sortTurn i) list) list

end GlusterFS.Dht
