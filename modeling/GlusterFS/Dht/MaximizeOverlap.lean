import GlusterFS.Core.ExchangeSort
import GlusterFS.Dht.NewDirectory
import Mathlib.Algebra.BigOperators.Intervals

/-!
# Keeping ranges where they were

When the layout of a directory is fixed, ranges of the new layout are exchanged between
subvolumes so that they overlap more with the old layout and fewer files have to move.
Overlaps are computed with 32 bits, in which the overlap of two layouts that are the same
everywhere is zero.
-/

namespace GlusterFS.Dht

open ExchangeSort ProcessTable

/-! ## The code -/

/-- The macro `min`. -/
def cMin (left right : UInt32) : UInt32 := if left < right then left else right

/-- The macro `max`. -/
def cMax (left right : UInt32) : UInt32 := if right < left then left else right

/-- `dht_overlap_calc` on two entries that exist. -/
def entryOverlap (old new : LayoutEntry) : UInt32 :=
  if 0 < old.err ∨ 0 < new.err then 0
  else if old.start = old.stop then 0
  else if new.start = new.stop then 0
  else if new.stop < old.start ∨ old.stop < new.start then 0
  else cMin old.stop new.stop - cMax old.start new.start + 1

/-- `dht_overlap_calc` -/
def dhtOverlapCalc (old : List LayoutEntry) (o : Nat) (new : List LayoutEntry) (n : Nat) : UInt32 :=
  match old[o]?, new[n]? with
  | some oldEntry, some newEntry => entryOverlap oldEntry newEntry
  | _, _ => 0

def LayoutEntry.withRange (entry other : LayoutEntry) : LayoutEntry :=
  { entry with start := other.start, stop := other.stop }

/-- `dht_layout_range_swap` -/
def dhtLayoutRangeSwap (list : List LayoutEntry) (i j : Nat) : List LayoutEntry :=
  match list[i]?, list[j]? with
  | some left, some right => (list.set i (left.withRange right)).set j (right.withRange left)
  | _, _ => list

section Names

variable {Name : Type*} [LinearOrder Name] (name : Subvol → Name)

/-- `dht_layout_entry_cmp_volname` is positive; names are in the order of `strcmp`. -/
def volnameAfter (left right : LayoutEntry) : Bool := name right.xlator < name left.xlator

/-- `dht_layout_sort_volname` -/
def dhtLayoutSortVolname (list : List LayoutEntry) : List LayoutEntry :=
  exchangeSort (volnameAfter name) list

end Names

/-- The new layout and the table of overlaps. -/
structure OverlapState where
  list : List LayoutEntry
  table : Nat → Nat → UInt32

/-- One turn of the loop that looks for the best exchange for an entry. -/
def bestSwapTurn (s : OverlapState) (i : Nat) (best : UInt32 × Nat) (j : Nat) : UInt32 × Nat :=
  match s.list[j]? with
  | none => best
  | some entry =>
    if 0 < entry.err then best
    else
      let currOverlap := s.table i i + s.table j j
      let overlap := s.table i j + s.table j i
      if currOverlap < overlap then
        if best.1 < overlap - currOverlap then (overlap - currOverlap, j) else best
      else best

/-- `max_overlap_idx` after the loop. -/
def bestSwap (s : OverlapState) (i : Nat) : Nat :=
  ((List.range' (i + 1) (s.list.length - (i + 1))).foldl (bestSwapTurn s i) (0, i)).2

def swapRows (table : Nat → Nat → UInt32) (i m : Nat) : Nat → Nat → UInt32 := fun x =>
  if x = i then table m else if x = m then table i else table x

/-- One turn of the outer loop. -/
def overlapStep (s : OverlapState) (i : Nat) : OverlapState :=
  match s.list[i]? with
  | none => s
  | some entry =>
    if 0 < entry.err then s
    else if bestSwap s i ≠ i then
      ⟨dhtLayoutRangeSwap s.list i (bestSwap s i), swapRows s.table i (bestSwap s i)⟩
    else s

def overlapStart (old new : List LayoutEntry) : OverlapState :=
  ⟨new, fun i j => dhtOverlapCalc old j new i⟩

/-- The state after turns of the outer loop. -/
def overlapSteps (old new : List LayoutEntry) (turns : Nat) : OverlapState :=
  (List.range turns).foldl overlapStep (overlapStart old new)

/-- `dht_selfheal_layout_maximize_overlap` -/
def dhtSelfhealLayoutMaximizeOverlap {Name : Type*} [LinearOrder Name] (name : Subvol → Name)
    (new old : List LayoutEntry) : List LayoutEntry :=
  (overlapSteps (dhtLayoutSortVolname name old) new new.length).list

theorem overlapSteps_succ (old new : List LayoutEntry) (turns : Nat) :
    overlapSteps old new (turns + 1) = overlapStep (overlapSteps old new turns) turns := by
  rw [overlapSteps, List.range_succ, List.foldl_append]
  rfl

/-! ## The best exchange -/

/-- The table says that the exchange is better than what there is. -/
def Improves (s : OverlapState) (i j : Nat) : Prop :=
  s.table i i + s.table j j < s.table i j + s.table j i

/-- The entry may take part in an exchange. -/
def MayExchange (s : OverlapState) (j : Nat) : Prop :=
  ∃ entry, s.list[j]? = some entry ∧ entry.err ≤ 0

variable {s : OverlapState} {i j : Nat} {best : UInt32 × Nat}

theorem sub_pos {left right : UInt32} (hlt : left < right) : 0 < right - left := by
  rw [UInt32.lt_iff_toNat_lt] at hlt ⊢
  rw [UInt32.toNat_sub_of_le _ _ (UInt32.le_iff_toNat_le.mpr hlt.le), UInt32.toNat_zero]
  omega

/-- A turn keeps what was found or finds a better exchange. -/
theorem bestSwapTurn_cases (s : OverlapState) (i : Nat) (best : UInt32 × Nat) (j : Nat) :
    (bestSwapTurn s i best j = best ∧ (best.1 = 0 → MayExchange s j → ¬Improves s i j)) ∨
      (MayExchange s j ∧ Improves s i j ∧ 0 < (bestSwapTurn s i best j).1 ∧
        (bestSwapTurn s i best j).2 = j) := by
  rw [bestSwapTurn]
  split
  next hnone =>
    refine .inl ⟨rfl, fun _ hmay => ?_⟩
    obtain ⟨entry, hentry, -⟩ := hmay
    rw [hnone] at hentry
    cases hentry
  next entry hentry =>
    split
    next herr =>
      refine .inl ⟨rfl, fun _ hmay => ?_⟩
      obtain ⟨other, hother, hle⟩ := hmay
      obtain rfl := Option.some_inj.mp (hentry.symm.trans hother)
      omega
    next herr =>
      dsimp only
      split
      next hbetter =>
        have hgain := sub_pos hbetter
        split
        next => exact .inr ⟨⟨entry, hentry, by omega⟩, hbetter, hgain, rfl⟩
        next hnot => exact .inl ⟨rfl, fun hzero => absurd (hzero ▸ hgain) hnot⟩
      next hnot => exact .inl ⟨rfl, fun _ _ => hnot⟩

theorem foldl_bestSwapTurn (s : OverlapState) (i : Nat) (indices : List Nat) (best : UInt32 × Nat) :
    (indices.foldl (bestSwapTurn s i) best = best ∧
        (best.1 = 0 → ∀ j ∈ indices, MayExchange s j → ¬Improves s i j)) ∨
      ∃ j ∈ indices, MayExchange s j ∧ Improves s i j ∧
        (indices.foldl (bestSwapTurn s i) best).2 = j := by
  induction indices generalizing best with
  | nil => exact .inl ⟨rfl, by simp⟩
  | cons j rest ih =>
    rw [List.foldl_cons]
    rcases bestSwapTurn_cases s i best j with ⟨hkept, hnone⟩ | ⟨hmay, himproves, hpos, hindex⟩
    · rw [hkept]
      rcases ih best with ⟨hbest, hrest⟩ | ⟨j', hj', hfound⟩
      · exact .inl ⟨hbest, fun hzero => List.forall_mem_cons.mpr ⟨hnone hzero, hrest hzero⟩⟩
      · exact .inr ⟨j', List.mem_cons_of_mem _ hj', hfound⟩
    · rcases ih (bestSwapTurn s i best j) with ⟨hbest, -⟩ | ⟨j', hj', hfound⟩
      · exact .inr ⟨j, List.mem_cons_self, hmay, himproves, by rw [hbest, hindex]⟩
      · exact .inr ⟨j', List.mem_cons_of_mem _ hj', hfound⟩

/-- An exchange with an entry behind is found if there is one that is better. -/
theorem bestSwap_cases (s : OverlapState) (i : Nat) :
    (bestSwap s i = i ∧ ∀ j, i < j → MayExchange s j → ¬Improves s i j) ∨
      (i < bestSwap s i ∧ MayExchange s (bestSwap s i) ∧ Improves s i (bestSwap s i)) := by
  rcases foldl_bestSwapTurn s i (List.range' (i + 1) (s.list.length - (i + 1))) (0, i) with
    ⟨hbest, hnone⟩ | ⟨j, hj, hmay, himproves, hindex⟩
  · refine .inl ⟨by rw [bestSwap, hbest], fun j hlt hmay => hnone rfl j ?_ hmay⟩
    obtain ⟨entry, hentry, -⟩ := hmay
    have hlength := (List.getElem?_eq_some_iff.mp hentry).1
    rw [List.mem_range'_1]
    omega
  · obtain rfl : bestSwap s i = j := hindex
    rw [List.mem_range'_1] at hj
    exact .inr ⟨by omega, hmay, himproves⟩

/-! ## Exchanges -/

/-- Two entries that may exchange their ranges. -/
structure Exchangeable (list : List LayoutEntry) (i j : Nat) (left right : LayoutEntry) : Prop where
  ne : i ≠ j
  get_left : list[i]? = some left
  get_right : list[j]? = some right
  left_err : left.err ≤ 0
  right_err : right.err ≤ 0

variable {list old new : List LayoutEntry} {left right entry other : LayoutEntry}

namespace Exchangeable

section

variable (h : Exchangeable list i j left right)

include h

theorem rangeSwap_eq : dhtLayoutRangeSwap list i j =
      (list.set i (left.withRange right)).set j (right.withRange left) := by
  rw [dhtLayoutRangeSwap, h.get_left, h.get_right]

theorem getElem?_swap (x : Nat) : (dhtLayoutRangeSwap list i j)[x]? =
    if x = i then some (left.withRange right)
    else if x = j then some (right.withRange left) else list[x]? := by
  have hi := (List.getElem?_eq_some_iff.mp h.get_left).1
  have hj := (List.getElem?_eq_some_iff.mp h.get_right).1
  have hne := h.ne
  rw [h.rangeSwap_eq]
  grind

/-- What depends on the ranges of entries without an error is only permuted. -/
theorem map_perm {Value : Type*} {value : LayoutEntry → Value}
    (hvalue : ∀ entry other : LayoutEntry, entry.err ≤ 0 → other.err ≤ 0 →
      value (entry.withRange other) = value other) :
    ((dhtLayoutRangeSwap list i j).map value).Perm (list.map value) := by
  have hi : (list.map value)[i]? = some (value left) := by simp [h.get_left]
  have hj : (list.map value)[j]? = some (value right) := by simp [h.get_right]
  obtain ⟨hlti, hgeti⟩ := List.getElem?_eq_some_iff.mp hi
  obtain ⟨hltj, hgetj⟩ := List.getElem?_eq_some_iff.mp hj
  rw [h.rangeSwap_eq, List.map_set, List.map_set, hvalue _ _ h.left_err h.right_err,
    hvalue _ _ h.right_err h.left_err]
  have hperm := List.set_set_perm hlti hltj
  rwa [hgeti, hgetj] at hperm

theorem map_eq {Value : Type*} {value : LayoutEntry → Value}
    (hvalue : ∀ entry other : LayoutEntry, value (entry.withRange other) = value entry) :
    (dhtLayoutRangeSwap list i j).map value = list.map value := by
  refine List.ext_getElem? fun x => ?_
  rw [List.getElem?_map, List.getElem?_map, h.getElem?_swap]
  split_ifs with hi hj
  · rw [hi, h.get_left, Option.map_some, Option.map_some, hvalue]
  · rw [hj, h.get_right, Option.map_some, Option.map_some, hvalue]
  · rfl

end

end Exchangeable

/-! ## Overlaps as numbers -/

/-- The number of hashes in both ranges, counted as `dht_overlap_calc` does but exactly. -/
def exactOverlap (old new : LayoutEntry) : Nat :=
  if 0 < old.err ∨ 0 < new.err then 0
  else if old.start = old.stop ∨ new.start = new.stop then 0
  else min old.stop.toNat new.stop.toNat + 1 - max old.start.toNat new.start.toNat

/-- What the entry has in common with the old range of its subvolume. -/
def subvolOverlap (old : List LayoutEntry) (entry : LayoutEntry) : Int :=
  ((old.filter fun other => other.xlator = entry.xlator).map fun other =>
    (exactOverlap other entry : Int)).sum

/-- The total overlap of the new layout with the old one. -/
def totalOverlap (old new : List LayoutEntry) : Int := total (subvolOverlap old) new

theorem exactOverlap_withRange (old : LayoutEntry) (hleft : left.err ≤ 0) (hright : right.err ≤ 0) :
    exactOverlap old (left.withRange right) = exactOverlap old right := by
  have hsame : (left.withRange right).err = left.err := rfl
  exact if_congr (by omega) rfl rfl

theorem toNat_cMin (left right : UInt32) :
    (cMin left right).toNat = min left.toNat right.toNat := by
  rw [cMin]
  split
  next h => rw [UInt32.lt_iff_toNat_lt] at h; omega
  next h => rw [UInt32.lt_iff_toNat_lt] at h; omega

theorem toNat_cMax (left right : UInt32) :
    (cMax left right).toNat = max left.toNat right.toNat := by
  rw [cMax]
  split
  next h => rw [UInt32.lt_iff_toNat_lt] at h; omega
  next h => rw [UInt32.lt_iff_toNat_lt] at h; omega

/-- The 32-bit overlap wraps around only when it is everything. -/
theorem toNat_entryOverlap {old new : LayoutEntry} (hold : old.start ≤ old.stop)
    (hnew : new.start ≤ new.stop) :
    (entryOverlap old new).toNat = exactOverlap old new % 2 ^ 32 := by
  rw [UInt32.le_iff_toNat_le] at hold hnew
  rw [entryOverlap, exactOverlap]
  split
  next => rfl
  next =>
    split
    next h => rw [if_pos (.inl h)]; rfl
    next hold' =>
      split
      next h => rw [if_pos (.inr h)]; rfl
      next hnew' =>
        rw [if_neg (not_or.mpr ⟨hold', hnew'⟩)]
        split
        next h =>
          simp only [UInt32.lt_iff_toNat_lt] at h
          rw [UInt32.toNat_zero]
          omega
        next h =>
          simp only [UInt32.lt_iff_toNat_lt] at h
          rw [UInt32.toNat_add, UInt32.toNat_sub_of_le, toNat_cMin, toNat_cMax, UInt32.toNat_one]
          · omega
          · rw [UInt32.le_iff_toNat_le, toNat_cMin, toNat_cMax]
            omega

/-! ## Ranges as sets of hashes -/

/-- `dht_overlap_calc` does not pass over the entry. -/
def LayoutEntry.Counted (entry : LayoutEntry) : Prop :=
  entry.err ≤ 0 ∧ entry.start ≠ entry.stop
  deriving Decidable

/-- No two ranges that are counted have a hash in common. -/
def DisjointRanges (list : List LayoutEntry) : Prop :=
  list.Pairwise fun left right =>
    left.Counted → right.Counted → left.stop < right.start ∨ right.stop < left.start
  deriving Decidable

def LayoutEntry.hashes (entry : LayoutEntry) : Finset Nat :=
  if entry.Counted then Finset.Icc entry.start.toNat entry.stop.toNat else ∅

def hashesAt (list : List LayoutEntry) (i : Nat) : Finset Nat :=
  (list[i]?).elim ∅ LayoutEntry.hashes

/-- What the new range of one entry has in common with the old range of another. -/
def overlapAt (sorted list : List LayoutEntry) (n o : Nat) : Nat :=
  (hashesAt sorted o ∩ hashesAt list n).card

variable {sorted : List LayoutEntry} {first : LayoutEntry}

theorem exactOverlap_eq_card (old new : LayoutEntry) :
    exactOverlap old new = (old.hashes ∩ new.hashes).card := by
  have hboth : Finset.Icc old.start.toNat old.stop.toNat ∩
      Finset.Icc new.start.toNat new.stop.toNat =
        Finset.Icc (max old.start.toNat new.start.toNat) (min old.stop.toNat new.stop.toNat) := by
    ext hash
    simp only [Finset.mem_inter, Finset.mem_Icc]
    omega
  rw [exactOverlap, LayoutEntry.hashes, LayoutEntry.hashes]
  by_cases hcounted : old.Counted ∧ new.Counted
  · obtain ⟨hold, hnew⟩ := hcounted
    have herr : ¬(0 < old.err ∨ 0 < new.err) :=
      not_or.mpr ⟨Int.not_lt.mpr hold.1, Int.not_lt.mpr hnew.1⟩
    rw [if_pos hold, if_pos hnew, if_neg herr, if_neg (not_or.mpr ⟨hold.2, hnew.2⟩), hboth,
      Nat.card_Icc]
  · rcases not_and_or.mp hcounted with hold | hnew
    · rw [if_neg hold, Finset.empty_inter, Finset.card_empty]
      grind [LayoutEntry.Counted]
    · rw [if_neg hnew, Finset.inter_empty, Finset.card_empty]
      grind [LayoutEntry.Counted]

theorem overlapAt_eq {n o : Nat} (hfirst : sorted[o]? = some first)
    (hentry : list[n]? = some entry) :
    overlapAt sorted list n o = exactOverlap first entry := by
  rw [overlapAt, hashesAt, hashesAt, hfirst, hentry, exactOverlap_eq_card]
  rfl

theorem hashes_subset (entry : LayoutEntry) : entry.hashes ⊆ Finset.range (2 ^ 32) := by
  intro hash hmem
  rw [LayoutEntry.hashes] at hmem
  split at hmem
  · rw [Finset.mem_Icc] at hmem
    exact Finset.mem_range.mpr (hmem.2.trans_lt entry.stop.toNat_lt)
  · cases hmem

theorem disjoint_hashes
    (hapart : left.Counted → right.Counted →
      left.stop < right.start ∨ right.stop < left.start) :
    Disjoint left.hashes right.hashes := by
  rw [LayoutEntry.hashes, LayoutEntry.hashes]
  split
  next hleft =>
    split
    next hright =>
      have hapart := hapart hleft hright
      rw [UInt32.lt_iff_toNat_lt, UInt32.lt_iff_toNat_lt] at hapart
      refine Finset.disjoint_left.mpr fun hash hmem hmem' => ?_
      rw [Finset.mem_Icc] at hmem hmem'
      omega
    next => exact Finset.disjoint_empty_right _
  next => exact Finset.disjoint_empty_left _

theorem DisjointRanges.hashesAt (hlist : DisjointRanges list) (hne : i ≠ j) :
    Disjoint (hashesAt list i) (hashesAt list j) := by
  rw [Dht.hashesAt, Dht.hashesAt]
  cases hi : list[i]? with
  | none => exact Finset.disjoint_empty_left _
  | some left =>
    cases hj : list[j]? with
    | none => exact Finset.disjoint_empty_right _
    | some right =>
      obtain ⟨hlti, rfl⟩ := List.getElem?_eq_some_iff.mp hi
      obtain ⟨hltj, rfl⟩ := List.getElem?_eq_some_iff.mp hj
      rw [DisjointRanges, List.pairwise_iff_getElem] at hlist
      rcases Nat.lt_or_gt_of_ne hne with hlt | hgt
      · exact disjoint_hashes (hlist i j hlti hltj hlt)
      · exact (disjoint_hashes (hlist j i hltj hlti hgt)).symm

/-- All the overlaps together are at most the number of hashes. -/
theorem sum_overlapAt_le (hsorted : DisjointRanges sorted)
    (hlist : ∀ i j, i ≠ j → Disjoint (hashesAt list i) (hashesAt list j))
    (places : Finset (Nat × Nat)) :
    ∑ place ∈ places, overlapAt sorted list place.1 place.2 ≤ 2 ^ 32 := by
  have hdisjoint : (places : Set (Nat × Nat)).PairwiseDisjoint fun place =>
      hashesAt sorted place.2 ∩ hashesAt list place.1 := by
    intro place _ other _ hne
    by_cases hsame : place.1 = other.1
    · have hother : place.2 ≠ other.2 := fun hsame' => hne (Prod.ext hsame hsame')
      exact (hsorted.hashesAt hother).mono Finset.inter_subset_left Finset.inter_subset_left
    · exact (hlist _ _ hsame).mono Finset.inter_subset_right Finset.inter_subset_right
  have hsubset : places.biUnion (fun place =>
      hashesAt sorted place.2 ∩ hashesAt list place.1) ⊆ Finset.range (2 ^ 32) := by
    refine Finset.biUnion_subset.mpr fun place _ => Finset.inter_subset_left.trans ?_
    rw [hashesAt]
    cases sorted[place.2]? with
    | none => exact Finset.empty_subset _
    | some first => exact hashes_subset first
  have hcard := Finset.card_le_card hsubset
  rwa [Finset.card_biUnion hdisjoint, Finset.card_range] at hcard

/-! ## What a step does -/

/-- The old layout in the order of the new one, entry for entry with the same subvolumes. -/
structure Matched (old sorted : List LayoutEntry) : Prop where
  perm : sorted.Perm old
  nodup : (sorted.map LayoutEntry.xlator).Nodup
  ordered : ∀ entry ∈ sorted, entry.start ≤ entry.stop
  disjoint : DisjointRanges sorted

/-- What holds before and after each turn of the outer loop. -/
structure OverlapInv (sorted : List LayoutEntry) (s : OverlapState) : Prop where
  xlators : sorted.map LayoutEntry.xlator = s.list.map LayoutEntry.xlator
  table : ∀ n o, (s.table n o).toNat = overlapAt sorted s.list n o % 2 ^ 32
  disjoint : ∀ i j, i ≠ j → Disjoint (hashesAt s.list i) (hashesAt s.list j)

/-- No exchange would give two entries all the hashes where they were. -/
def ExchangesFit (sorted list : List LayoutEntry) : Prop :=
  ∀ i j left right, Exchangeable list i j left right →
    overlapAt sorted list i j + overlapAt sorted list j i < 2 ^ 32

theorem filter_xlator (hmem : first ∈ list) (hnodup : (list.map LayoutEntry.xlator).Nodup) :
    (list.filter fun other => other.xlator = first.xlator) = [first] := by
  obtain ⟨front, back, rfl⟩ := List.append_of_mem hmem
  rw [List.map_append, List.map_cons, List.nodup_middle] at hnodup
  obtain ⟨hfresh, -⟩ := List.nodup_cons.mp hnodup
  have hother : ∀ other ∈ front ++ back, ¬other.xlator = first.xlator := by
    intro other hother hsame
    rw [← List.map_append, ← hsame] at hfresh
    exact hfresh (List.mem_map_of_mem hother)
  have hnone : ∀ part : List LayoutEntry, (∀ other ∈ part, other ∈ front ++ back) →
      (part.filter fun other => other.xlator = first.xlator) = [] := fun part hpart =>
    List.filter_eq_nil_iff.mpr fun other hpart' => by
      simpa using hother other (hpart other hpart')
  rw [List.filter_append, List.filter_cons_of_pos (by simp),
    hnone front fun other => List.mem_append_left _,
    hnone back fun other => List.mem_append_right _]
  rfl

/-- The old range of a subvolume is the only one that its entry is compared with. -/
theorem Matched.subvolOverlap_eq (hmatched : Matched old sorted) (hfirst : first ∈ sorted)
    (hxlator : first.xlator = entry.xlator) :
    subvolOverlap old entry = exactOverlap first entry := by
  have hperm := hmatched.perm.filter fun other => other.xlator = entry.xlator
  rw [← hxlator, filter_xlator hfirst hmatched.nodup] at hperm
  rw [subvolOverlap, ← hxlator, ← List.singleton_perm.mp hperm]
  simp

theorem getElem?_of_xlators
    (hxlators : sorted.map LayoutEntry.xlator = list.map LayoutEntry.xlator)
    (hentry : list[i]? = some entry) :
    ∃ first, sorted[i]? = some first ∧ first.xlator = entry.xlator := by
  have hmap := congrArg (·[i]?) hxlators
  simp only [List.getElem?_map, hentry, Option.map_some, Option.map_eq_some_iff] at hmap
  exact hmap

/-- The table holds the overlaps modulo the number of hashes. -/
theorem Matched.toNat_overlapStart (hmatched : Matched old sorted)
    (hnew : ∀ entry ∈ new, entry.start ≤ entry.stop) (n o : Nat) :
    ((overlapStart sorted new).table n o).toNat = overlapAt sorted new n o % 2 ^ 32 := by
  simp only [overlapStart, dhtOverlapCalc]
  cases hfirst : sorted[o]? with
  | none => simp [overlapAt, hashesAt, hfirst]
  | some first =>
    cases hentry : new[n]? with
    | none => simp [overlapAt, hashesAt, hentry]
    | some entry =>
      rw [overlapAt_eq hfirst hentry]
      exact toNat_entryOverlap (hmatched.ordered _ (List.mem_of_getElem? hfirst))
        (hnew _ (List.mem_of_getElem? hentry))

theorem Exchangeable.hashesAt_swap (h : Exchangeable list i j left right) (x : Nat) :
    hashesAt (dhtLayoutRangeSwap list i j) x = hashesAt list (Equiv.swap i j x) := by
  have hhashes : ∀ {entry other : LayoutEntry}, entry.err ≤ 0 → other.err ≤ 0 →
      (entry.withRange other).hashes = other.hashes := fun hentry hother =>
    if_congr (and_congr_left' (iff_of_true hentry hother)) rfl rfl
  rw [hashesAt, hashesAt, h.getElem?_swap, Equiv.swap_apply_def]
  split_ifs
  · rw [h.get_right]
    exact hhashes h.left_err h.right_err
  · rw [h.get_left]
    exact hhashes h.right_err h.left_err
  · rfl

theorem Exchangeable.overlapAt_swap (h : Exchangeable list i j left right) (n o : Nat) :
    overlapAt sorted (dhtLayoutRangeSwap list i j) n o =
      overlapAt sorted list (Equiv.swap i j n) o := by
  rw [overlapAt, overlapAt, h.hashesAt_swap]

theorem OverlapInv.swap (hinv : OverlapInv sorted s) (h : Exchangeable s.list i j left right) :
    OverlapInv sorted ⟨dhtLayoutRangeSwap s.list i j, swapRows s.table i j⟩ where
  xlators := hinv.xlators.trans (h.map_eq fun _ _ => rfl).symm
  table n o := by
    -- the rows of the table follow the ranges
    have hrow : swapRows s.table i j n = s.table (Equiv.swap i j n) := by
      rw [swapRows, Equiv.swap_apply_def]
      split_ifs <;> rfl
    rw [h.overlapAt_swap, ← hinv.table, ← hrow]
  disjoint x y hne := by
    rw [h.hashesAt_swap, h.hashesAt_swap]
    exact hinv.disjoint _ _ ((Equiv.swap i j).injective.ne hne)

theorem OverlapInv.improves_iff_mod (hinv : OverlapInv sorted s) (i j : Nat) :
    Improves s i j ↔
      (overlapAt sorted s.list i i + overlapAt sorted s.list j j) % 2 ^ 32 <
        (overlapAt sorted s.list i j + overlapAt sorted s.list j i) % 2 ^ 32 := by
  simp only [Improves, UInt32.lt_iff_toNat_lt, UInt32.toNat_add, hinv.table,
    ← Nat.add_mod]

namespace OverlapInv

section

variable (hmatched : Matched old sorted) (hinv : OverlapInv sorted s)

include hmatched hinv

/-- An exchange replaces the overlaps of two entries. -/
theorem totalOverlap_swap (h : Exchangeable s.list i j left right) :
    totalOverlap old (dhtLayoutRangeSwap s.list i j) =
      totalOverlap old s.list - overlapAt sorted s.list i i - overlapAt sorted s.list j j +
        overlapAt sorted s.list i j + overlapAt sorted s.list j i := by
  obtain ⟨first, hfirst, hleft⟩ := getElem?_of_xlators hinv.xlators h.get_left
  obtain ⟨second, hsecond, hright⟩ := getElem?_of_xlators hinv.xlators h.get_right
  have hfirst' := List.mem_of_getElem? hfirst
  have hsecond' := List.mem_of_getElem? hsecond
  have hother : (s.list.set i (left.withRange right))[j]? = some right := by
    rw [List.getElem?_set_ne h.ne, h.get_right]
  rw [h.rangeSwap_eq, totalOverlap, totalOverlap, total_set hother, total_set h.get_left,
    hmatched.subvolOverlap_eq hfirst' hleft, hmatched.subvolOverlap_eq hsecond' hright,
    hmatched.subvolOverlap_eq hfirst'
      (show first.xlator = (left.withRange right).xlator from hleft),
    hmatched.subvolOverlap_eq hsecond'
      (show second.xlator = (right.withRange left).xlator from hright),
    exactOverlap_withRange _ h.left_err h.right_err,
    exactOverlap_withRange _ h.right_err h.left_err,
    overlapAt_eq hfirst h.get_left, overlapAt_eq hsecond h.get_right,
    overlapAt_eq hsecond h.get_left, overlapAt_eq hfirst h.get_right]
  omega

theorem four_overlaps_le (hne : i ≠ j) :
    overlapAt sorted s.list i i + overlapAt sorted s.list j j +
      (overlapAt sorted s.list i j + overlapAt sorted s.list j i) ≤ 2 ^ 32 := by
  have hsum := sum_overlapAt_le hmatched.disjoint hinv.disjoint
    {(i, i), (j, j), (i, j), (j, i)}
  rw [Finset.sum_insert (by simp [hne]), Finset.sum_insert (by simp [hne.symm]),
    Finset.sum_insert (by simp [hne]), Finset.sum_singleton] at hsum
  dsimp only at hsum
  omega

/-- Where exchanges fit, the table compares the totals before and after the exchange: a sum
that is all the hashes leaves nothing for the exchange. -/
theorem improves_iff (hfit : ExchangesFit sorted s.list) (h : Exchangeable s.list i j left right) :
    Improves s i j ↔
      totalOverlap old s.list < totalOverlap old (dhtLayoutRangeSwap s.list i j) := by
  have hfour := hinv.four_overlaps_le hmatched h.ne
  have hroom := hfit i j left right h
  rw [hinv.improves_iff_mod, hinv.totalOverlap_swap hmatched h]
  omega

/-- Two overlaps that are all the hashes leave nothing for any other. -/
theorem overlapAt_eq_zero {x y x' y' n o : Nat} (hne : (x, y) ≠ (x', y'))
    (hall : overlapAt sorted s.list x y + overlapAt sorted s.list x' y' = 2 ^ 32)
    (hfirst : (n, o) ≠ (x, y)) (hsecond : (n, o) ≠ (x', y')) :
    overlapAt sorted s.list n o = 0 := by
  have hsum := sum_overlapAt_le hmatched.disjoint hinv.disjoint {(n, o), (x, y), (x', y')}
  rw [Finset.sum_insert (by simp only [Finset.mem_insert, Finset.mem_singleton]; tauto),
    Finset.sum_insert (by rwa [Finset.mem_singleton]), Finset.sum_singleton] at hsum
  dsimp only at hsum
  omega

/-- If an exchange leads to one that would give two entries all the hashes, the entries that
were exchanged have nothing in common with each other's old ranges. -/
theorem exchangesFit_swap (h : Exchangeable s.list i j left right)
    (himproves : Improves s i j) :
    ExchangesFit sorted (dhtLayoutRangeSwap s.list i j) := by
  intro x y a b hswapped
  rw [h.overlapAt_swap, h.overlapAt_swap]
  have hne := (Equiv.swap i j).injective.ne hswapped.ne
  have hplaces : ((Equiv.swap i j x, y) : Nat × Nat) ≠ (Equiv.swap i j y, x) :=
    fun hsame => hne (congrArg Prod.fst hsame)
  have hsum := sum_overlapAt_le hmatched.disjoint hinv.disjoint
    {(Equiv.swap i j x, y), (Equiv.swap i j y, x)}
  rw [Finset.sum_insert (by rwa [Finset.mem_singleton]), Finset.sum_singleton] at hsum
  refine hsum.lt_of_ne fun hall => ?_
  -- Places that the exchange compares are not the two that have everything.
  have hapart : ∀ {n o : Nat}, Equiv.swap i j n = o → overlapAt sorted s.list n o = 0 := by
    intro n o hno
    refine hinv.overlapAt_eq_zero hmatched hplaces hall (fun hsame => ?_) fun hsame => ?_
    · obtain ⟨hn, ho⟩ := Prod.mk.inj hsame
      rw [hn, Equiv.swap_apply_self] at hno
      exact hswapped.ne (hno.trans ho)
    · obtain ⟨hn, ho⟩ := Prod.mk.inj hsame
      rw [hn, Equiv.swap_apply_self] at hno
      exact hswapped.ne (hno.trans ho).symm
  rw [hinv.improves_iff_mod, hapart (Equiv.swap_apply_left i j),
    hapart (Equiv.swap_apply_right i j)] at himproves
  exact Nat.not_lt_zero _ himproves

end

end OverlapInv

/-- A step makes the exchange that the table says is best, if there is a better one. -/
theorem overlapStep_eq (s : OverlapState) (i : Nat) :
    (overlapStep s i = s ∧
        ∀ j left right, i < j → Exchangeable s.list i j left right → ¬Improves s i j) ∨
      ∃ j left right, i < j ∧ Exchangeable s.list i j left right ∧ Improves s i j ∧
        overlapStep s i = ⟨dhtLayoutRangeSwap s.list i j, swapRows s.table i j⟩ := by
  rw [overlapStep]
  split
  next hnone =>
    refine .inl ⟨rfl, fun j left right _ h => ?_⟩
    rw [h.get_left] at hnone
    cases hnone
  next entry hentry =>
    split
    next herr =>
      refine .inl ⟨rfl, fun j left right _ h => ?_⟩
      obtain rfl := Option.some_inj.mp (h.get_left.symm.trans hentry)
      exact absurd h.left_err (Int.not_le.mpr herr)
    next herr =>
      rcases bestSwap_cases s i with
        ⟨hbest, hnone⟩ | ⟨hlt, ⟨right, hright, hrightErr⟩, himproves⟩
      · rw [if_neg (not_not.mpr hbest)]
        exact .inl ⟨rfl, fun j left right hlt h =>
          hnone j hlt ⟨right, h.get_right, h.right_err⟩⟩
      · rw [if_pos (Nat.ne_of_gt hlt)]
        exact .inr ⟨_, entry, right, hlt,
          ⟨Nat.ne_of_lt hlt, hentry, hright, by omega, hrightErr⟩, himproves, rfl⟩

/-! ## The whole loop -/

/-- The range of an entry that may exchange it. -/
def exchangedRange (entry : LayoutEntry) : Option (UInt32 × UInt32) :=
  if entry.err ≤ 0 then some (entry.start, entry.stop) else none

/-- The layout is another one with ranges exchanged between entries that may. -/
structure Rearranged (before list : List LayoutEntry) : Prop where
  same : (list.map fun entry : LayoutEntry => (entry.err, entry.xlator)) =
    before.map fun entry => (entry.err, entry.xlator)
  untouched : ∀ (i : Nat) (entry : LayoutEntry), before[i]? = some entry → 0 < entry.err →
    list[i]? = some entry
  ranges : (list.filterMap exchangedRange).Perm (before.filterMap exchangedRange)

theorem Rearranged.refl (list : List LayoutEntry) : Rearranged list list :=
  ⟨rfl, fun _ _ hentry _ => hentry, List.Perm.refl _⟩

theorem Rearranged.swap (hlist : Rearranged new list) (h : Exchangeable list i j left right) :
    Rearranged new (dhtLayoutRangeSwap list i j) where
  same := (h.map_eq fun _ _ => rfl).trans hlist.same
  untouched x entry hentry herr := by
    have hkept := hlist.untouched x entry hentry herr
    have hi : x ≠ i := by
      rintro rfl
      obtain rfl := Option.some_inj.mp (hkept.symm.trans h.get_left)
      exact absurd h.left_err (Int.not_le.mpr herr)
    have hj : x ≠ j := by
      rintro rfl
      obtain rfl := Option.some_inj.mp (hkept.symm.trans h.get_right)
      exact absurd h.right_err (Int.not_le.mpr herr)
    rw [h.getElem?_swap, if_neg hi, if_neg hj, hkept]
  ranges := by
    have hvalue : ∀ entry other : LayoutEntry, entry.err ≤ 0 → other.err ≤ 0 →
        exchangedRange (entry.withRange other) = exchangedRange other := by
      intro entry other hentry hother
      have hkept : (entry.withRange other).err ≤ 0 := hentry
      rw [exchangedRange, exchangedRange, if_pos hkept, if_pos hother]
      rfl
    have hperm := (h.map_perm hvalue).filterMap id
    rw [List.filterMap_map, List.filterMap_map] at hperm
    exact hperm.trans hlist.ranges

/-- The invariant, what is kept and the total after any number of turns. -/
theorem overlapSteps_inv (hmatched : Matched old sorted)
    (hstart : OverlapInv sorted (overlapStart sorted new))
    (hfit : ExchangesFit sorted new) (turns : Nat) :
    OverlapInv sorted (overlapSteps sorted new turns) ∧
      ExchangesFit sorted (overlapSteps sorted new turns).list ∧
      Rearranged new (overlapSteps sorted new turns).list ∧
      totalOverlap old new ≤ totalOverlap old (overlapSteps sorted new turns).list := by
  induction turns with
  | zero => exact ⟨hstart, hfit, .refl new, Int.le_refl _⟩
  | succ turns ih =>
    obtain ⟨hinv, hfits, hlist, htotal⟩ := ih
    rw [overlapSteps_succ]
    rcases overlapStep_eq (overlapSteps sorted new turns) turns with
      ⟨hsame, -⟩ | ⟨j, left, right, -, h, himproves, hstep⟩
    · rw [hsame]
      exact ⟨hinv, hfits, hlist, htotal⟩
    · have hmore := (hinv.improves_iff hmatched hfits h).mp himproves
      rw [hstep]
      exact ⟨hinv.swap h, hinv.exchangesFit_swap hmatched h himproves, hlist.swap h,
        htotal.trans hmore.le⟩

theorem exists_full_exchange (hmatched : Matched old sorted)
    (hstart : OverlapInv sorted (overlapStart sorted new))
    (hfull : ¬ExchangesFit sorted new) :
    ∃ i j left right, i < j ∧ Exchangeable new i j left right ∧
      overlapAt sorted new i j + overlapAt sorted new j i = 2 ^ 32 := by
  rw [ExchangesFit] at hfull
  push Not at hfull
  obtain ⟨i, j, left, right, h, hle⟩ := hfull
  have hfour := hstart.four_overlaps_le hmatched h.ne
  have hlist : (overlapStart sorted new).list = new := rfl
  rw [hlist] at hfour
  rcases Nat.lt_or_gt_of_ne h.ne with hlt | hgt
  · exact ⟨i, j, left, right, hlt, h, by omega⟩
  · exact ⟨j, i, right, left, hgt, ⟨h.ne.symm, h.get_right, h.get_left, h.right_err, h.left_err⟩,
      by omega⟩

/-- Up to the turn for two entries that an exchange would give all the hashes, and in it, no
ranges are exchanged: nothing else has an overlap, and theirs is zero in the table. -/
theorem overlapSteps_idle (hmatched : Matched old sorted)
    (hstart : OverlapInv sorted (overlapStart sorted new)) (hlt : i < j)
    (hall : overlapAt sorted new i j + overlapAt sorted new j i = 2 ^ 32) {turns : Nat}
    (hturns : turns ≤ i + 1) : overlapSteps sorted new turns = overlapStart sorted new := by
  induction turns with
  | zero => rfl
  | succ turns ih =>
    rw [overlapSteps_succ, ih (Nat.le_of_succ_le hturns)]
    rcases overlapStep_eq (overlapStart sorted new) turns with
      ⟨hsame, -⟩ | ⟨m, -, -, hm, -, himproves, -⟩
    · exact hsame
    exfalso
    rw [hstart.improves_iff_mod] at himproves
    have hplaces : (i, j) ≠ (j, i) := fun hsame => hlt.ne (congrArg Prod.fst hsame)
    have hnone : ¬(turns = i ∧ m = j) → overlapAt sorted new turns m = 0 ∧
        overlapAt sorted new m turns = 0 := by
      intro hother
      constructor
      · refine hstart.overlapAt_eq_zero hmatched hplaces hall ?_ ?_
        · exact fun hsame => hother (Prod.mk.inj hsame)
        · rw [Ne, Prod.mk.injEq]
          omega
      · refine hstart.overlapAt_eq_zero hmatched hplaces hall ?_ ?_
        · rw [Ne, Prod.mk.injEq]
          omega
        · exact fun hsame => hother (Prod.mk.inj hsame).symm
    by_cases hpair : turns = i ∧ m = j
    · obtain ⟨rfl, rfl⟩ := hpair
      rw [show (overlapStart sorted new).list = new from rfl, hall] at himproves
      omega
    · obtain ⟨hzero, hzero'⟩ := hnone hpair
      rw [show (overlapStart sorted new).list = new from rfl, hzero, hzero'] at himproves
      omega

section Volnames

variable {Name : Type*} [LinearOrder Name] {name : Subvol → Name}

theorem dhtLayoutSortVolname_pairwise (name : Subvol → Name) (list : List LayoutEntry) :
    (dhtLayoutSortVolname name list).Pairwise fun left right =>
      name left.xlator ≤ name right.xlator := by
  have hagrees : Agrees (volnameAfter name)
      (fun left right => name left.xlator ≤ name right.xlator) list :=
    ⟨fun _ _ _ _ hafter => (of_decide_eq_true hafter).le,
      fun _ _ _ _ hafter => not_lt.mp (of_decide_eq_false hafter)⟩
  exact exchangeSort_pairwise (fun _ _ _ hleft hright => hleft.trans hright) hagrees

/-- Sorted by their names, two layouts with the same subvolumes have them in the same order. -/
theorem xlators_eq (hname : Function.Injective name)
    (hnew : new.Pairwise fun left right => name left.xlator ≤ name right.xlator)
    (hsame : (old.map LayoutEntry.xlator).Perm (new.map LayoutEntry.xlator)) :
    (dhtLayoutSortVolname name old).map LayoutEntry.xlator = new.map LayoutEntry.xlator := by
  have hsorted : ((dhtLayoutSortVolname name old).map LayoutEntry.xlator).Pairwise
      fun left right => name left ≤ name right :=
    List.pairwise_map.mpr (dhtLayoutSortVolname_pairwise name old)
  have hperm := ((exchangeSort_perm (volnameAfter name) old).map LayoutEntry.xlator).trans hsame
  refine List.Perm.eq_of_pairwise ?_ hsorted (List.pairwise_map.mpr hnew) hperm
  exact fun _ _ _ _ hle hge => hname (le_antisymm hle hge)

end Volnames

/-- No two subvolumes' new ranges have all the hashes in common with each other's old ranges. -/
def NoFullExchange (old new : List LayoutEntry) : Prop :=
  ∀ left ∈ new, ∀ right ∈ new, ∀ first ∈ old, ∀ second ∈ old,
    left.xlator ≠ right.xlator → left.err ≤ 0 → right.err ≤ 0 →
    first.xlator = left.xlator → second.xlator = right.xlator →
    exactOverlap second left + exactOverlap first right < 2 ^ 32
  deriving Decidable

theorem exchangesFit_iff (hmatched : Matched old sorted)
    (hxlators : sorted.map LayoutEntry.xlator = new.map LayoutEntry.xlator) :
    ExchangesFit sorted new ↔ NoFullExchange old new := by
  have hnodup := hmatched.nodup
  rw [hxlators] at hnodup
  constructor
  · intro hfit left hleft right hright first hfirst second hsecond hne herr herr' hsame hsame'
    obtain ⟨i, hi⟩ := List.mem_iff_getElem?.mp hleft
    obtain ⟨j, hj⟩ := List.mem_iff_getElem?.mp hright
    have hij : i ≠ j := by
      rintro rfl
      exact hne (congrArg LayoutEntry.xlator (Option.some_inj.mp (hi.symm.trans hj)))
    have hroom := hfit i j left right ⟨hij, hi, hj, herr, herr'⟩
    have hget : ∀ {n : Nat} {entry other : LayoutEntry}, new[n]? = some entry → other ∈ old →
        other.xlator = entry.xlator → sorted[n]? = some other := by
      intro n entry other hentry hother hxlator
      obtain ⟨third, hthird, hsame⟩ := getElem?_of_xlators hxlators hentry
      rw [hthird, List.inj_on_of_nodup_map hmatched.nodup (List.mem_of_getElem? hthird)
        (hmatched.perm.mem_iff.mpr hother) (hsame.trans hxlator.symm)]
    rwa [overlapAt_eq (hget hj hsecond hsame') hi, overlapAt_eq (hget hi hfirst hsame) hj]
      at hroom
  · intro hfull i j left right h
    obtain ⟨first, hfirst, hleft⟩ := getElem?_of_xlators hxlators h.get_left
    obtain ⟨second, hsecond, hright⟩ := getElem?_of_xlators hxlators h.get_right
    rw [overlapAt_eq hsecond h.get_left, overlapAt_eq hfirst h.get_right]
    refine hfull left (List.mem_of_getElem? h.get_left) right (List.mem_of_getElem? h.get_right)
      first (hmatched.perm.mem_iff.mp (List.mem_of_getElem? hfirst))
      second (hmatched.perm.mem_iff.mp (List.mem_of_getElem? hsecond)) (fun hsame => ?_)
      h.left_err h.right_err hleft hright
    have hlength := (List.getElem?_eq_some_iff.mp h.get_left).1
    refine h.ne ((List.getElem?_inj ((List.length_map _).symm ▸ hlength) hnodup).mp ?_)
    rw [List.getElem?_map, List.getElem?_map, h.get_left, h.get_right, Option.map_some,
      Option.map_some, hsame]

/-- Ranges are only exchanged, between entries without an error; the total overlap does not
get smaller, and a turn that can make it larger does. -/
structure OverlapMaximized {Name : Type*} [LinearOrder Name] (name : Subvol → Name)
    (new old : List LayoutEntry) : Prop where
  rearranged : Rearranged new (dhtSelfhealLayoutMaximizeOverlap name new old)
  total_le : totalOverlap old new ≤
    totalOverlap old (dhtSelfhealLayoutMaximizeOverlap name new old)
  step : ∀ i j left right, i < j →
    Exchangeable (overlapSteps (dhtLayoutSortVolname name old) new i).list i j left right →
    totalOverlap old (overlapSteps (dhtLayoutSortVolname name old) new i).list <
      totalOverlap old (dhtLayoutRangeSwap
        (overlapSteps (dhtLayoutSortVolname name old) new i).list i j) →
    totalOverlap old (overlapSteps (dhtLayoutSortVolname name old) new i).list <
      totalOverlap old (overlapSteps (dhtLayoutSortVolname name old) new (i + 1)).list

/-- The ranges are exchanged as they should unless two subvolumes' new ranges have all the
hashes in common with each other's old ranges. -/
theorem maximize_overlap_improves {Name : Type*} [LinearOrder Name] (name : Subvol → Name)
    (hname : Function.Injective name) (new old : List LayoutEntry)
    (hnew : new.Pairwise fun left right => name left.xlator ≤ name right.xlator)
    (hnodup : (new.map LayoutEntry.xlator).Nodup)
    (hsame : (old.map LayoutEntry.xlator).Perm (new.map LayoutEntry.xlator))
    (hnewRange : ∀ entry ∈ new, entry.start ≤ entry.stop)
    (holdRange : ∀ entry ∈ old, entry.start ≤ entry.stop)
    (hnewDisjoint : DisjointRanges new) (holdDisjoint : DisjointRanges old) :
    OverlapMaximized name new old ↔ NoFullExchange old new := by
  have hperm : (dhtLayoutSortVolname name old).Perm old := exchangeSort_perm _ old
  have hxlators := xlators_eq hname hnew hsame
  have hmatched : Matched old (dhtLayoutSortVolname name old) :=
    ⟨hperm, hxlators ▸ hnodup, fun entry hentry => holdRange entry (hperm.mem_iff.mp hentry),
      holdDisjoint.perm hperm.symm fun hapart hright hleft => (hapart hleft hright).symm⟩
  have hstart : OverlapInv (dhtLayoutSortVolname name old)
      (overlapStart (dhtLayoutSortVolname name old) new) :=
    ⟨hxlators, hmatched.toNat_overlapStart hnewRange, fun _ _ => hnewDisjoint.hashesAt⟩
  rw [← exchangesFit_iff hmatched hxlators]
  constructor
  · intro hmaximized
    by_contra hfull
    obtain ⟨i, j, left, right, hlt, h, hall⟩ := exists_full_exchange hmatched hstart hfull
    have hidle := overlapSteps_idle hmatched hstart hlt hall i.le_succ
    have hidle' := overlapSteps_idle hmatched hstart hlt hall (Nat.le_refl _)
    have hmore := hmaximized.step i j left right hlt
    rw [hidle, hidle'] at hmore
    have hfour := hstart.four_overlaps_le hmatched h.ne
    refine Int.lt_irrefl _ (hmore h ?_)
    rw [hstart.totalOverlap_swap hmatched h]
    rw [← show (overlapStart (dhtLayoutSortVolname name old) new).list = new from rfl] at hall
    omega
  · intro hfit
    obtain ⟨-, -, hlist, htotal⟩ := overlapSteps_inv hmatched hstart hfit new.length
    refine ⟨hlist, htotal, fun i j left right hlt h hbetter => ?_⟩
    obtain ⟨hinv, hfits, -⟩ := overlapSteps_inv hmatched hstart hfit i
    rw [overlapSteps_succ]
    rcases overlapStep_eq (overlapSteps (dhtLayoutSortVolname name old) new i) i with
      ⟨-, hnone⟩ | ⟨_, _, _, -, h', himproves, hstep⟩
    · exact absurd ((hinv.improves_iff hmatched hfits h).mpr hbetter) (hnone j left right hlt h)
    · rw [hstep]
      exact (hinv.improves_iff hmatched hfits h').mp himproves

/-- Three subvolumes, the ranges of two of which are exchanged. -/
def exchangedLayout : List LayoutEntry :=
  [⟨-1, 0x80000000, 0xbfffffff, 0⟩, ⟨-1, 0, 0x7fffffff, 1⟩, ⟨-1, 0xc0000000, 0xffffffff, 2⟩]

def orderedLayout : List LayoutEntry :=
  [⟨0, 0, 0x7fffffff, 0⟩, ⟨0, 0x80000000, 0xbfffffff, 1⟩, ⟨0, 0xc0000000, 0xffffffff, 2⟩]

theorem maximize_overlap_improves_exchanged :
    OverlapMaximized (fun subvol => subvol) exchangedLayout orderedLayout :=
  (maximize_overlap_improves (fun subvol => subvol) (fun _ _ h => h) exchangedLayout
    orderedLayout (by decide) (by decide) (List.Perm.refl _) (by decide) (by decide)
    (by decide) (by decide)).mpr (by decide)

/-- Two subvolumes whose halves are exchanged: the overlap after the exchange is all the
hashes, which is zero in 32 bits. -/
theorem exchanged_halves_stay : ¬∀ (name : Subvol → Nat), Function.Injective name →
    ∀ new old : List LayoutEntry,
    (new.Pairwise fun left right => name left.xlator ≤ name right.xlator) →
    (new.map LayoutEntry.xlator).Nodup →
    (old.map LayoutEntry.xlator).Perm (new.map LayoutEntry.xlator) →
    (∀ entry ∈ new, entry.start ≤ entry.stop) → (∀ entry ∈ old, entry.start ≤ entry.stop) →
    DisjointRanges new → DisjointRanges old → OverlapMaximized name new old := by
  intro hall
  have hmaximized := hall (fun subvol => subvol) (fun _ _ h => h)
    [⟨-1, 0x80000000, 0xffffffff, 0⟩, ⟨-1, 0, 0x7fffffff, 1⟩]
    [⟨0, 0, 0x7fffffff, 0⟩, ⟨0, 0x80000000, 0xffffffff, 1⟩] (by decide) (by decide)
    (List.Perm.refl _) (by decide) (by decide) (by decide) (by decide)
  have hmore := hmaximized.step 0 1 _ _ (by decide)
    ⟨by decide, rfl, rfl, by decide, by decide⟩ (by decide)
  exact absurd hmore (by decide)

end GlusterFS.Dht
