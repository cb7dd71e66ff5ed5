import GlusterFS.Afr.Pending

/-!
# Choosing the sources of a self-heal

`afr_mark_sources` reads the pending matrix and sorts the children into
innocent, foolish and wise ones.  Arrays indexed by the child number are
functions on `Fin n`; `success_children` is the list of the children that
answered, without the closing `-1`.
-/

namespace GlusterFS.Afr

variable {n : Nat}

inductive AfrNodeType
  | invalid
  | innocent
  | fool
  | wise
  deriving DecidableEq

structure AfrNodeCharacter where
  type : AfrNodeType
  wisdom : Int

/-- `characters` as `GF_CALLOC` leaves it. -/
def AfrNodeCharacter.zeroed : AfrNodeCharacter := ⟨.invalid, 0⟩

inductive AfrSelfHealType
  | metadata
  | data
  | entry
  deriving DecidableEq

/-- What the scan reads of a child's `struct iatt`. -/
structure Iatt where
  iaSize : Nat
  iaUid : Nat

abbrev Sources (n : Nat) := Fin n → Bool

def splitBrain : Nat := 1

def allFools : Nat := 2

/-! ## Characters -/

def afrShIsInnocent (array : Counters n) : Bool :=
  (List.finRange n).all fun i => array i = 0

def afrShIsFool (array : Counters n) (i : Fin n) : Bool := array i ≠ 0

def afrShIsWise (array : Counters n) (i : Fin n) : Bool := array i = 0

def afrFindChildCharacterType (pendingRow : Counters n) (child : Fin n) :
    AfrNodeType :=
  if afrShIsInnocent pendingRow then .innocent
  else if afrShIsFool pendingRow child then .fool
  else if afrShIsWise pendingRow child then .wise
  else .invalid

def afrFindCharacterTypes (characters : Fin n → AfrNodeCharacter)
    (pendingMatrix : PendingMatrix n) (successChildren : List (Fin n)) :
    Fin n → AfrNodeCharacter :=
  successChildren.foldl (fun characters child => Function.update characters child
      { characters child with
        type := afrFindChildCharacterType (pendingMatrix child) child })
    characters

def afrShAllNodesInnocent (characters : Fin n → AfrNodeCharacter) : Bool :=
  (List.finRange n).all fun i => (characters i).type = .innocent

def afrShWiseNodesExist (characters : Fin n → AfrNodeCharacter) : Bool :=
  (List.finRange n).any fun i => (characters i).type = .wise

/-- A wise node is of wisdom 0 if a wise node accuses it. -/
def afrShComputeWisdom (pendingMatrix : PendingMatrix n)
    (characters : Fin n → AfrNodeCharacter) : Fin n → AfrNodeCharacter :=
  fun i =>
    if (characters i).type = .wise then
      { characters i with
        wisdom := (List.finRange n).foldl
          (fun wisdom j =>
            if (characters j).type = .wise ∧ pendingMatrix j i ≠ 0 then 0
            else wisdom) 1 }
    else characters i

def afrShWiseNodesConflict (characters : Fin n → AfrNodeCharacter) : Bool :=
  (List.finRange n).all fun i =>
    ¬((characters i).type = .wise ∧ (characters i).wisdom = 1)

/-! ## Marking -/

/-- The loops that mark and count the children they keep. -/
def markSourcesWhere (keep : Fin n → Bool) (children : List (Fin n))
    (sources : Sources n) : Int × Sources n :=
  children.foldl (fun marked child =>
      if keep child then
        (marked.1 + 1, Function.update marked.2 child true)
      else marked)
    (0, sources)

def afrShMarkWisestAsSources (sources : Sources n)
    (characters : Fin n → AfrNodeCharacter) : Int × Sources n :=
  markSourcesWhere (fun i => (characters i).wisdom = 1) (List.finRange n) sources

/-- `witnesses` of the fools, in an `int` that wraps around; the entries of the others stay
zero. -/
def afrComputeWitnessOfFools (pendingMatrix : PendingMatrix n)
    (characters : Fin n → AfrNodeCharacter) : Counters n :=
  fun i =>
    if (characters i).type ≠ .fool then 0
    else (List.finRange n).foldl
      (fun witness j =>
        if i = j then witness else (witness + pendingMatrix i j).bmod (2 ^ 32)) 0

def afrFindBiggestWitnessAmongFools (witnesses : Counters n)
    (characters : Fin n → AfrNodeCharacter) : Int :=
  (List.finRange n).foldl (fun biggest i =>
      if (characters i).type ≠ .fool then biggest
      else if biggest < witnesses i then witnesses i else biggest) (-1)

def afrMarkFoolAsSourceByWitness (sources : Sources n) (witnesses : Counters n)
    (characters : Fin n → AfrNodeCharacter) (witness : Int) : Int × Sources n :=
  markSourcesWhere (fun i => (characters i).type = .fool ∧ witness = witnesses i)
    (List.finRange n) sources

def afrMarkBiggestOfFoolsAsSource (sources : Sources n)
    (pendingMatrix : PendingMatrix n) (characters : Fin n → AfrNodeCharacter) :
    Int × Sources n :=
  let witnesses := afrComputeWitnessOfFools pendingMatrix characters
  afrMarkFoolAsSourceByWitness sources witnesses characters
    (afrFindBiggestWitnessAmongFools witnesses characters)

def afrMarkChildAsSourceByUid (sources : Sources n) (bufs : Fin n → Iatt)
    (successChildren : List (Fin n)) (uid : Nat) : Int × Sources n :=
  markSourcesWhere (fun child => uid = (bufs child).iaUid) successChildren sources

def afrGetChildWithLowestUid (bufs : Fin n → Iatt)
    (successChildren : List (Fin n)) : Option (Fin n) :=
  successChildren.foldl (fun smallest child =>
      match smallest with
      | none => some child
      | some best =>
        if (bufs child).iaUid < (bufs best).iaUid then some child else some best)
    none

def afrShMarkLowestUidAsSource (bufs : Fin n → Iatt)
    (successChildren : List (Fin n)) (sources : Sources n) : Int × Sources n :=
  match afrGetChildWithLowestUid bufs successChildren with
  | none => (-1, sources)
  | some smallest =>
    afrMarkChildAsSourceByUid sources bufs successChildren (bufs smallest).iaUid

/-- The first loop of `afr_sh_mark_zero_size_file_as_sink`: whether an empty
file was seen, and the first file that is not empty.  `none` is the exit on two
sizes that differ. -/
def zeroSizeScan (bufs : Fin n → Iatt) :
    List (Fin n) → Bool → Option (Fin n) → Option (Bool × Option (Fin n))
  | [], sinkExists, source => some (sinkExists, source)
  | child :: rest, sinkExists, source =>
    if (bufs child).iaSize = 0 then zeroSizeScan bufs rest true source
    else
      match source with
      | none => zeroSizeScan bufs rest sinkExists (some child)
      | some first =>
        if (bufs first).iaSize ≠ (bufs child).iaSize then none
        else zeroSizeScan bufs rest sinkExists (some first)

def afrShMarkZeroSizeFileAsSink (bufs : Fin n → Iatt)
    (successChildren : List (Fin n)) (sources : Sources n) : Int × Sources n :=
  match zeroSizeScan bufs successChildren false none with
  | none => (-1, sources)
  | some (false, none) => (-1, sources)
  | some (true, none) => (0, sources)
  | some (false, some _) => (0, sources)
  | some (true, some _) =>
    markSourcesWhere (fun child => (bufs child).iaSize ≠ 0) successChildren sources

def afrMarkSuccessChildrenSources (sources : Sources n)
    (successChildren : List (Fin n)) : Sources n :=
  (markSourcesWhere (fun _ => true) successChildren sources).2

/-! ## `afr_mark_sources` -/

/-- The return value and the two arrays the caller passes. -/
structure MarkedSources (n : Nat) where
  nsources : Int
  sources : Sources n
  subvolStatus : Option Nat

/-- Up to the label `out`. -/
def afrMarkSourcesBody (pendingMatrix : PendingMatrix n) (bufs : Fin n → Iatt)
    (type : AfrSelfHealType) (successChildren : List (Fin n))
    (subvolStatus : Option Nat) : MarkedSources n :=
  let sources : Sources n := fun _ => false
  let characters := afrFindCharacterTypes (fun _ => .zeroed) pendingMatrix successChildren
  if afrShAllNodesInnocent characters then
    match type with
    | .metadata =>
      let (nsources, sources) :=
        afrShMarkLowestUidAsSource bufs successChildren sources
      ⟨nsources, sources, subvolStatus⟩
    | .data =>
      let (nsources, sources) :=
        afrShMarkZeroSizeFileAsSink bufs successChildren sources
      ⟨nsources, sources, if nsources < 0 then subvolStatus.map (· ||| splitBrain)
        else subvolStatus⟩
    | .entry => ⟨0, sources, subvolStatus⟩
  else if afrShWiseNodesExist characters then
    let characters := afrShComputeWisdom pendingMatrix characters
    if afrShWiseNodesConflict characters then
      ⟨-1, sources, subvolStatus.map (· ||| splitBrain)⟩
    else
      let (nsources, sources) := afrShMarkWisestAsSources sources characters
      ⟨nsources, sources, subvolStatus⟩
  else
    let (nsources, sources) :=
      afrMarkBiggestOfFoolsAsSource sources pendingMatrix characters
    ⟨nsources, sources, subvolStatus.map (· ||| allFools)⟩

def afrMarkSources (pendingMatrix : PendingMatrix n) (bufs : Fin n → Iatt)
    (type : AfrSelfHealType) (successChildren : List (Fin n))
    (subvolStatus : Option Nat) : MarkedSources n :=
  let result := afrMarkSourcesBody pendingMatrix bufs type successChildren subvolStatus
  if result.nsources = 0 then
    { result with
      sources := afrMarkSuccessChildrenSources result.sources successChildren }
  else result

end GlusterFS.Afr
