import GlusterFS.Core.ProcessTable
import GlusterFS.Dht.Layout

/-!
# The ranges of a new directory

The ranges that `dht_selfheal_layout_new_directory` gives out partition the hash values, and
they go to the entries that `dht_get_layout_count` counted.
-/

namespace GlusterFS.Dht

open ProcessTable

variable {list : List LayoutEntry} {hash chunk start : UInt32} {entry : LayoutEntry} {cnt : Int}
variable {decommissioned : List Subvol} {layout : Layout}

/-- One for an entry that was given the hash. -/
def hashWeight (hash : UInt32) (entry : LayoutEntry) : Int :=
  if entry.HasRange ∧ entry.Contains hash then 1 else 0

/-- An entry that is to get a range is at the index. -/
def assignableAt (list : List LayoutEntry) (i : Nat) : Bool :=
  list[i]?.any fun entry => entry.Assignable

theorem assignableAt_set {i : Nat} (hget : list[i]? = some entry) (start stop : UInt32) (j : Nat) :
    assignableAt (list.set i { entry with start := start, stop := stop }) j =
      assignableAt list j := by
  by_cases hj : i = j
  · subst hj
    have hlt : i < list.length := (List.getElem?_eq_some_iff.mp hget).1
    rw [assignableAt, assignableAt, List.getElem?_set_self hlt, hget]
    rfl
  · simp [assignableAt, List.getElem?_set_ne hj]

theorem countP_assignableAt_set {i : Nat} (hget : list[i]? = some entry) (start stop : UInt32)
    (turns : List Nat) :
    turns.countP (assignableAt (list.set i { entry with start := start, stop := stop })) =
      turns.countP (assignableAt list) :=
  List.countP_congr fun j _ => by rw [assignableAt_set hget]

/-- The entries at the indices have no ranges yet. -/
def ResetAt (list : List LayoutEntry) (turns : List Nat) : Prop :=
  ∀ i ∈ turns, ∃ entry, list[i]? = some entry ∧ entry.start = 0 ∧ entry.stop = 0

theorem ResetAt.set {i : Nat} {rest : List Nat} (hreset : ResetAt list (i :: rest))
    (hfresh : i ∉ rest) (new : LayoutEntry) : ResetAt (list.set i new) rest := by
  intro j hj
  rw [List.getElem?_set_ne (by rintro rfl; exact hfresh hj)]
  exact hreset j (List.mem_cons_of_mem _ hj)

theorem total_hashWeight (hash : UInt32) (list : List LayoutEntry) : total (hashWeight hash) list =
      (list.filter fun entry => entry.HasRange ∧ entry.Contains hash).length := by
  rw [← List.countP_eq_length_filter]
  refine total_eq_countP fun entry _ => ?_
  simp only [hashWeight, decide_eq_true_eq]

/-! ## The ranges that are given out -/

/-- What a weight gains when entries in turn get ranges of a size: nothing with an entry that
was reset, and with a range what the ranges behind it do not gain. -/
structure RangeGain (chunk : UInt32) (weight : LayoutEntry → Int) (gain : UInt32 → Int → Int) :
    Prop where
  reset : ∀ entry : LayoutEntry, entry.start = 0 → entry.stop = 0 → weight entry = 0
  last : ∀ (entry : LayoutEntry) (start : UInt32),
    weight { entry with start := start, stop := 0xffffffff } = gain start 1
  next : ∀ (entry : LayoutEntry) (start : UInt32) (cnt : Int), start.toNat + chunk.toNat < 2 ^ 32 →
    weight { entry with start := start, stop := start + chunk - 1 } +
      gain (start + chunk) (cnt - 1) = gain start cnt

theorem next_range_toNat (hchunk : 2 ≤ chunk.toNat) (hroom : start.toNat + chunk.toNat < 2 ^ 32) :
    (start + chunk - 1).toNat = start.toNat + chunk.toNat - 1 := by
  have hnext : (start + chunk).toNat = start.toNat + chunk.toNat := by
    rw [UInt32.toNat_add, Nat.mod_eq_of_lt hroom]
  rw [UInt32.toNat_sub_of_le _ _ (by rw [UInt32.le_iff_toNat_le, hnext]; simp; omega), hnext]
  rfl

theorem next_range_ne_zero (hchunk : 2 ≤ chunk.toNat)
    (hroom : start.toNat + chunk.toNat < 2 ^ 32) : start + chunk - 1 ≠ 0 := by
  intro hzero
  have hstop := next_range_toNat hchunk hroom
  rw [hzero, UInt32.toNat_zero] at hstop
  omega

theorem le_top (hash : UInt32) : hash ≤ 0xffffffff := by
  have hlt := hash.toNat_lt
  rw [UInt32.le_iff_toNat_le]
  simp
  omega

/-- A hash is in one of the ranges from `start` on if it is not below. -/
theorem hashWeight_gain (hchunk : 2 ≤ chunk.toNat) (hash : UInt32) :
    RangeGain chunk (hashWeight hash) fun start _ => if start ≤ hash then 1 else 0 where
  reset _ hstart hstop := if_neg fun h => h.1 ⟨hstart, hstop⟩
  last entry start := by
    simp [hashWeight, LayoutEntry.HasRange, LayoutEntry.Contains, le_top hash]
  next entry start _ hroom := by
    have hnext : (start + chunk).toNat = start.toNat + chunk.toNat := by
      rw [UInt32.toNat_add, Nat.mod_eq_of_lt hroom]
    simp only [hashWeight, LayoutEntry.HasRange, LayoutEntry.Contains,
      next_range_ne_zero hchunk hroom, and_false, not_false_eq_true, true_and,
      UInt32.le_iff_toNat_le, hnext, next_range_toNat hchunk hroom]
    split_ifs <;> omega

variable {gain : UInt32 → Int → Int} {weight : LayoutEntry → Int}

theorem total_assignRanges (hgain : RangeGain chunk weight gain) {turns : List Nat}
    (hturns : turns.Nodup) (hreset : ResetAt list turns) (hpos : 1 ≤ cnt)
    (henough : cnt ≤ turns.countP (assignableAt list))
    (hroom : start.toNat + cnt * chunk.toNat < 2 ^ 32) :
    total weight (assignRanges chunk turns start cnt list) =
      total weight list + gain start cnt := by
  induction turns generalizing start cnt list with
  | nil =>
    simp at henough
    omega
  | cons i rest ih =>
    obtain ⟨entry, hget, hstart, hstop⟩ := hreset i List.mem_cons_self
    obtain ⟨hfresh, hrest⟩ := List.nodup_cons.mp hturns
    have hassignable : assignableAt list i = decide entry.Assignable := by
      simp [assignableAt, hget]
    rw [List.countP_cons, hassignable] at henough
    rw [assignRanges, hget]
    dsimp only
    by_cases hentry : entry.Assignable
    · rw [if_pos hentry]
      by_cases hlast : cnt - 1 = 0
      · obtain rfl : cnt = 1 := by omega
        rw [if_pos hlast, total_set hget, hgain.reset entry hstart hstop, hgain.last]
        omega
      · have hmul : cnt * chunk.toNat = (cnt - 1) * chunk.toNat + chunk.toNat := by
          rw [Int.sub_mul, Int.one_mul, Int.sub_add_cancel]
        have hmore : 1 * (chunk.toNat : Int) ≤ (cnt - 1) * chunk.toNat :=
          Int.mul_le_mul_of_nonneg_right (by omega) (by omega)
        have hnext : (start + chunk).toNat = start.toNat + chunk.toNat := by
          rw [UInt32.toNat_add, Nat.mod_eq_of_lt (by omega)]
        have hcount := countP_assignableAt_set hget start (start + chunk - 1) rest
        simp only [hentry, decide_true, if_true] at henough
        rw [if_neg hlast, ih hrest (hreset.set hfresh _) (by omega) (by rw [hcount]; omega)
          (by omega),
          total_set hget, hgain.reset entry hstart hstop]
        have hstep := hgain.next entry start cnt (by omega)
        omega
    · simp only [hentry, decide_false, Bool.false_eq_true, if_false] at henough
      rw [if_neg hentry]
      exact ih hrest (fun j hj => hreset j (List.mem_cons_of_mem _ hj)) hpos (by omega) hroom

theorem assignRanges_assignable (turns : List Nat)
    (hlist : ∀ entry ∈ list, entry.HasRange → entry.Assignable) :
    ∀ entry ∈ assignRanges chunk turns start cnt list, entry.HasRange → entry.Assignable := by
  induction turns generalizing start cnt list with
  | nil => exact hlist
  | cons i rest ih =>
    rw [assignRanges]
    split
    next => exact hlist
    next entry hget =>
      split
      next hentry =>
        split
        next => exact forall_mem_set hlist fun _ => hentry
        next => exact ih (forall_mem_set hlist fun _ => hentry)
      next => exact ih hlist

/-! ## How many entries are counted -/

theorem countP_range_assignableAt (list : List LayoutEntry) :
    (List.range list.length).countP (assignableAt list) =
      list.countP fun entry => entry.Assignable := by
  induction list with
  | nil => rfl
  | cons head tail ih =>
    rw [List.length_cons, List.range_succ_eq_map, List.countP_cons, List.countP_map,
      List.countP_cons, ← ih]
    rfl

theorem turns_perm (length first : Nat) (hfirst : first ≤ length) :
    (List.range' first (length - first) ++ List.range first).Perm (List.range length) := by
  refine List.perm_append_comm.trans ?_
  have happend := List.range'_append_1 (s := 0) (m := first) (n := length - first)
  rw [Nat.zero_add, Nat.add_sub_cancel' hfirst] at happend
  rw [List.range_eq_range', List.range_eq_range', happend]

theorem countP_markNoSpace (hnone : (list.countP fun entry => entry.Assignable) = 0) :
    ((markNoSpace list).countP fun entry => entry.Assignable) =
      list.countP fun entry => entry.err = enospc := by
  rw [markNoSpace, List.countP_map]
  refine List.countP_congr fun entry hentry => ?_
  have hnot : ¬entry.Assignable := by simpa using List.countP_eq_zero.mp hnone entry hentry
  by_cases hfull : entry.err = enospc
  · simp [hfull, LayoutEntry.Assignable]
  · simpa [hfull] using hnot

/-- The entry may get a range although other entries have space. -/
def Candidate (decommissioned : List Subvol) (entry : LayoutEntry) : Prop :=
  entry.xlator ∉ decommissioned ∧ (entry.err = -1 ∨ entry.err = 0 ∨ entry.err = enoent)

/-- The entry has no space but may get a range when no entry has. -/
def LastResort (decommissioned : List Subvol) (list : List LayoutEntry) (entry : LayoutEntry) :
    Prop :=
  entry.xlator ∉ decommissioned ∧ entry.err = enospc ∧
    ∀ other ∈ list, ¬Candidate decommissioned other

/-- What the first two loops of `dht_get_layout_count` make of an entry. -/
def markEntry (decommissioned : List Subvol) (entry : LayoutEntry) : LayoutEntry :=
  let entry := if entry.xlator ∈ decommissioned then { entry with err := einval } else entry
  if entry.err = 0 then { entry with err := -1 } else entry

theorem markEntry_xlator (decommissioned : List Subvol) (entry : LayoutEntry) :
    (markEntry decommissioned entry).xlator = entry.xlator := by
  rw [markEntry]
  split_ifs <;> rfl

theorem markEntry_assignable :
    (markEntry decommissioned entry).Assignable ↔ Candidate decommissioned entry := by
  by_cases hdown : entry.xlator ∈ decommissioned
  · simp [markEntry, LayoutEntry.Assignable, Candidate, hdown, einval, enoent]
  · by_cases hzero : entry.err = 0
    · simp [markEntry, LayoutEntry.Assignable, Candidate, hdown, hzero]
    · simp [markEntry, LayoutEntry.Assignable, Candidate, hdown, hzero]

theorem markEntry_enospc (hfull : (markEntry decommissioned entry).err = enospc) :
    entry.xlator ∉ decommissioned ∧ entry.err = enospc := by
  by_cases hdown : entry.xlator ∈ decommissioned
  · simp [markEntry, hdown, einval, enospc] at hfull
  · by_cases hzero : entry.err = 0
    · simp [markEntry, hdown, hzero, enospc] at hfull
    · simpa [markEntry, hdown, hzero] using hfull

/-- What `dht_get_layout_count` makes of each entry. -/
theorem dhtGetLayoutCount_entries (decommissioned : List Subvol) (layout : Layout) :
    List.Forall₂ (fun old new => new.xlator = old.xlator ∧
      (new.Assignable → Candidate decommissioned old ∨ LastResort decommissioned layout.list old))
      layout.list (dhtGetLayoutCount decommissioned true layout).1 := by
  have hmark : markAssignable (markDecommissioned decommissioned layout.list) =
      layout.list.map (markEntry decommissioned) := List.map_map
  rw [dhtGetLayoutCount, hmark]
  dsimp only
  split
  next hnone =>
    have hcount : (layout.list.map (markEntry decommissioned)).countP
        (fun entry => entry.Assignable) = 0 := by simpa using hnone
    have hnot : ∀ other ∈ layout.list, ¬Candidate decommissioned other := by
      intro other hother hcandidate
      have := List.countP_eq_zero.mp hcount _ (List.mem_map_of_mem hother)
      exact this (by simpa using markEntry_assignable.mpr hcandidate)
    rw [markNoSpace, List.map_map, List.forall₂_map_right_iff]
    refine List.forall₂_same.mpr fun old hold => ?_
    dsimp only [Function.comp]
    split
    next hfull =>
      obtain ⟨hdown, herr⟩ := markEntry_enospc hfull
      exact ⟨markEntry_xlator _ _, fun _ => .inr ⟨hdown, herr, hnot⟩⟩
    next => exact ⟨markEntry_xlator _ _, fun h => .inl (markEntry_assignable.mp h)⟩
  next =>
    rw [List.forall₂_map_right_iff]
    exact List.forall₂_same.mpr fun old _ =>
      ⟨markEntry_xlator _ _, fun h => .inl (markEntry_assignable.mp h)⟩

theorem dhtGetLayoutCount_length (decommissioned : List Subvol) (layout : Layout) :
    (dhtGetLayoutCount decommissioned true layout).1.length = layout.list.length :=
  (dhtGetLayoutCount_entries decommissioned layout).length_eq.symm

/-- A negative spread is taken for the count. -/
theorem dhtGetLayoutCount_negative (decommissioned : List Subvol) (hspread : layout.spreadCnt < 0) :
    (dhtGetLayoutCount decommissioned true layout).2 = layout.spreadCnt := by
  rw [dhtGetLayoutCount]
  exact if_pos ⟨by omega, by omega⟩

/-- The count is at least one and at most the number of entries to assign. -/
theorem dhtGetLayoutCount_bounds (hspread : 0 ≤ layout.spreadCnt)
    (hsome : ∃ entry ∈ (dhtGetLayoutCount decommissioned true layout).1, entry.Assignable) :
    1 ≤ (dhtGetLayoutCount decommissioned true layout).2 ∧
      (dhtGetLayoutCount decommissioned true layout).2 ≤
        (dhtGetLayoutCount decommissioned true layout).1.countP fun entry => entry.Assignable := by
  obtain ⟨entry, hentry, hassignable⟩ := hsome
  have hpos : 0 < (dhtGetLayoutCount decommissioned true layout).1.countP
      fun entry => entry.Assignable :=
    List.countP_pos_iff.mpr ⟨entry, hentry, by simpa using hassignable⟩
  rw [dhtGetLayoutCount] at hpos ⊢
  dsimp only at hpos ⊢
  generalize markAssignable (markDecommissioned decommissioned layout.list) = list at hpos ⊢
  by_cases hnone : (list.countP fun entry => entry.Assignable) = 0
  · simp only [hnone, true_or, if_true, Nat.zero_add] at hpos ⊢
    rw [countP_markNoSpace hnone] at hpos ⊢
    split_ifs <;> omega
  · simp only [hnone, Bool.true_eq_false, or_self, if_false] at hpos ⊢
    split_ifs <;> omega

theorem chunk_bounds {cnt : Nat} (hpos : 1 ≤ cnt) (hlt : cnt < 2 ^ 31) :
    2 ≤ (UInt32.ofNat (0xffffffff / cnt)).toNat ∧
      cnt * (UInt32.ofNat (0xffffffff / cnt)).toNat < 2 ^ 32 := by
  have hchunk : (UInt32.ofNat (0xffffffff / cnt)).toNat = 0xffffffff / cnt := by
    rw [UInt32.toNat_ofNat', Nat.mod_eq_of_lt]
    exact Nat.lt_of_le_of_lt (Nat.div_le_self _ _) (by decide)
  have hquotient : 2 ≤ 0xffffffff / cnt := (Nat.le_div_iff_mul_le hpos).mpr (by omega)
  have hproduct : cnt * (0xffffffff / cnt) ≤ 0xffffffff := Nat.mul_div_le _ _
  rw [hchunk]
  exact ⟨hquotient, by omega⟩

theorem dhtResetLayoutRange_get {i : Nat} (hlt : i < list.length) :
    ∃ entry, (dhtResetLayoutRange list)[i]? = some entry ∧ entry.start = 0 ∧ entry.stop = 0 := by
  rw [dhtResetLayoutRange, List.getElem?_map, List.getElem?_eq_getElem hlt]
  exact ⟨_, rfl, rfl, rfl⟩

/-- The number of entries to assign, as `assignRanges` finds them in turn. -/
theorem countP_turns (list : List LayoutEntry) {first : Nat} (hfirst : first ≤ list.length) :
    (List.range' first (list.length - first) ++ List.range first).countP
        (assignableAt (dhtResetLayoutRange list)) =
      list.countP fun entry => entry.Assignable := by
  have hlength : (dhtResetLayoutRange list).length = list.length := List.length_map _
  rw [(turns_perm list.length first hfirst).countP_eq, ← hlength, countP_range_assignableAt,
    dhtResetLayoutRange, List.countP_map]
  rfl

/-- What all the ranges of a new directory gain. -/
theorem total_newRanges (hgain : ∀ chunk : UInt32, 2 ≤ chunk.toNat → RangeGain chunk weight gain)
    {cnt : Nat} (hpos : 1 ≤ cnt) (henough : cnt ≤ list.countP fun entry => entry.Assignable)
    (hbound : list.length < 2 ^ 31) {first : Nat} (hfirst : first ≤ list.length) :
    total weight (assignRanges (UInt32.ofNat (0xffffffff / cnt))
      (List.range' first (list.length - first) ++ List.range first) 0 cnt
      (dhtResetLayoutRange list)) = gain 0 cnt := by
  have hmost : (list.countP fun entry => entry.Assignable) ≤ list.length := List.countP_le_length
  obtain ⟨hchunk, hroom⟩ := chunk_bounds hpos (by omega)
  have hturns := turns_perm list.length first hfirst
  have hzero : total weight (dhtResetLayoutRange list) = 0 := by
    refine total_eq_zero fun entry hentry => ?_
    obtain ⟨old, -, rfl⟩ := List.mem_map.mp hentry
    exact (hgain _ hchunk).reset _ rfl rfl
  rw [total_assignRanges (hgain _ hchunk) (hturns.nodup_iff.mpr List.nodup_range)
    (fun i hi => dhtResetLayoutRange_get (List.mem_range.mp (hturns.mem_iff.mp hi))) (by omega)
    (by rw [countP_turns list hfirst]; omega)
    (by rw [UInt32.toNat_zero]; omega), hzero, Int.zero_add]

section Spread

variable (hspread : 0 ≤ layout.spreadCnt)
  (hsome : ∃ entry ∈ (dhtGetLayoutCount decommissioned true layout).1, entry.Assignable)

include hspread hsome

theorem newDirectory_total (hgain : ∀ chunk : UInt32, 2 ≤ chunk.toNat → RangeGain chunk weight gain)
    (path : FileName) : total weight (dhtSelfhealLayoutNewDirectory decommissioned path layout) =
      gain 0 (dhtGetLayoutCount decommissioned true layout).2 := by
  obtain ⟨hpos, henough⟩ := dhtGetLayoutCount_bounds hspread hsome
  have hlength := dhtGetLayoutCount_length decommissioned layout
  have hbound := layout.cnt_lt
  have hnonempty := layout.cnt_pos
  rw [dhtSelfhealLayoutNewDirectory]
  generalize dhtGetLayoutCount decommissioned true layout = result at *
  obtain ⟨list, cnt⟩ := result
  dsimp only at *
  have hmost : (list.countP fun entry => entry.Assignable) ≤ list.length := List.countP_le_length
  lift cnt to Nat using by omega
  have hunsigned : toUnsignedLong (if (cnt : Int) ≠ 0 then cnt else 1) = cnt := by
    rw [if_pos (by omega), toUnsignedLong]
    omega
  have hfirst : (dhtHashCompute path).toNat % list.length ≤ list.length :=
    (Nat.mod_lt _ (by omega)).le
  rw [hunsigned]
  exact total_newRanges hgain (Int.ofNat_le.mp hpos) (Int.ofNat_le.mp henough) (by omega) hfirst

theorem newDirectory_filter (path : FileName) (hash : UInt32) :
    ∃ entry, (dhtSelfhealLayoutNewDirectory decommissioned path layout).filter
      (fun entry => entry.HasRange ∧ entry.Contains hash) = [entry] := by
  have htotal := newDirectory_total hspread hsome (fun _ hchunk => hashWeight_gain hchunk hash) path
  have hzero : (0 : UInt32) ≤ hash := UInt32.le_iff_toNat_le.mpr (Nat.zero_le _)
  rw [total_hashWeight, if_pos hzero] at htotal
  exact List.length_eq_one_iff.mp (Int.ofNat_inj.mp htotal)

theorem newDirectory_disjoint (path : FileName) :
    (dhtSelfhealLayoutNewDirectory decommissioned path layout).Pairwise fun left right =>
      ∀ hash, ¬((left.HasRange ∧ left.Contains hash) ∧ right.HasRange ∧ right.Contains hash) := by
  rw [List.pairwise_iff_forall_sublist]
  rintro left right hsublist hash ⟨hleft, hright⟩
  obtain ⟨entry, hfilter⟩ := newDirectory_filter hspread hsome path hash
  have hle := (hsublist.filter fun entry => entry.HasRange ∧ entry.Contains hash).length_le
  rw [hfilter] at hle
  simp [hleft, hright] at hle

end Spread

/-! ## A negative spread -/

/-- Each entry to assign gets all the hashes, since the count does not come down to zero. -/
theorem total_assignRanges_negative {turns : List Nat} (hturns : turns.Nodup)
    (hreset : ResetAt list turns) (hcnt : cnt ≤ 0) :
    total (hashWeight hash) (assignRanges 0 turns 0 cnt list) =
      total (hashWeight hash) list + turns.countP (assignableAt list) := by
  induction turns generalizing cnt list with
  | nil => simp [assignRanges]
  | cons i rest ih =>
    obtain ⟨entry, hget, hstart, hstop⟩ := hreset i List.mem_cons_self
    obtain ⟨hfresh, hrest⟩ := List.nodup_cons.mp hturns
    have hassignable : assignableAt list i = decide entry.Assignable := by
      simp [assignableAt, hget]
    rw [assignRanges, hget, List.countP_cons, hassignable]
    dsimp only
    by_cases hentry : entry.Assignable
    · have hnone : hashWeight hash entry = 0 := if_neg fun h => h.1 ⟨hstart, hstop⟩
      have hall : hashWeight hash { entry with start := 0, stop := 0 - 1 } = 1 :=
        if_pos ⟨fun h => absurd h.2 (show (0 : UInt32) - 1 ≠ 0 by decide),
          UInt32.le_iff_toNat_le.mpr (Nat.zero_le _), le_top hash⟩
      rw [if_pos hentry, if_neg (by omega), show (0 : UInt32) + 0 = 0 from rfl,
        ih hrest (hreset.set hfresh _) (by omega), countP_assignableAt_set hget, total_set hget,
        hnone, hall]
      simp [hentry]
      omega
    · rw [if_neg hentry, ih hrest (fun j hj => hreset j (List.mem_cons_of_mem _ hj)) hcnt]
      simp [hentry]

/-- Each entry to assign gets all the hashes. -/
theorem newDirectory_filter_negative {decommissioned : List Subvol} {layout : Layout}
    (hspread : layout.spreadCnt < 0) (hint : -2 ^ 31 ≤ layout.spreadCnt) (path : FileName)
    (hash : UInt32) : ((dhtSelfhealLayoutNewDirectory decommissioned path layout).filter
        fun entry => entry.HasRange ∧ entry.Contains hash).length =
      (dhtGetLayoutCount decommissioned true layout).1.countP fun entry => entry.Assignable := by
  have hcnt := dhtGetLayoutCount_negative decommissioned hspread
  have hlength := dhtGetLayoutCount_length decommissioned layout
  have hnonempty := layout.cnt_pos
  rw [← Int.ofNat_inj, ← total_hashWeight, dhtSelfhealLayoutNewDirectory]
  generalize dhtGetLayoutCount decommissioned true layout = result at *
  obtain ⟨list, cnt⟩ := result
  dsimp only at *
  subst hcnt
  have hchunk : 0xffffffff / toUnsignedLong
      (if layout.spreadCnt ≠ 0 then layout.spreadCnt else 1) = 0 := by
    rw [if_pos (by omega), toUnsignedLong]
    exact Nat.div_eq_of_lt (by omega)
  have hfirst : (dhtHashCompute path).toNat % list.length ≤ list.length :=
    (Nat.mod_lt _ (by omega)).le
  have hturns := turns_perm list.length _ hfirst
  rw [hchunk]
  refine (total_assignRanges_negative (hturns.nodup_iff.mpr List.nodup_range)
    (fun i hi => dhtResetLayoutRange_get (List.mem_range.mp (hturns.mem_iff.mp hi)))
    (by omega)).trans ?_
  rw [countP_turns list hfirst, total_eq_zero, Int.zero_add]
  intro entry hentry
  obtain ⟨old, -, rfl⟩ := List.mem_map.mp hentry
  exact if_neg fun h => h.1 ⟨rfl, rfl⟩

/-! ## How many ranges -/

/-- One for an entry with a range. -/
def rangeWeight (entry : LayoutEntry) : Int := if entry.HasRange then 1 else 0

/-- Each turn gives out one range. -/
theorem rangeWeight_gain (hchunk : 2 ≤ chunk.toNat) :
    RangeGain chunk rangeWeight fun _ cnt => cnt where
  reset _ hstart hstop := if_neg fun hrange => hrange ⟨hstart, hstop⟩
  last entry start := by simp [rangeWeight, LayoutEntry.HasRange]
  next entry start cnt hroom := by
    have hrange : LayoutEntry.HasRange { entry with start := start, stop := start + chunk - 1 } :=
      fun hzero => next_range_ne_zero hchunk hroom hzero.2
    rw [rangeWeight, if_pos hrange]
    omega

/-! ## Which entries have them -/

/-- The two entries are the same but for their ranges. -/
def SameEntry (old new : LayoutEntry) : Prop := new.err = old.err ∧ new.xlator = old.xlator

theorem forall₂_set {Left Right : Type*} {related : Left → Right → Prop} {left : List Left}
    {right : List Right} (hlists : List.Forall₂ related left right) {i : Nat} {new : Right}
    (hnew : ∀ old, left[i]? = some old → related old new) :
    List.Forall₂ related left (right.set i new) := by
  induction hlists generalizing i with
  | nil => exact .nil
  | cons hhead htail ih =>
    cases i with
    | zero => exact .cons (hnew _ rfl) htail
    | succ i => exact .cons hhead (ih hnew)

theorem assignRanges_sameEntry {before : List LayoutEntry} (turns : List Nat)
    (hsame : List.Forall₂ SameEntry before list) :
    List.Forall₂ SameEntry before (assignRanges chunk turns start cnt list) := by
  induction turns generalizing start cnt list with
  | nil => exact hsame
  | cons i rest ih =>
    rw [assignRanges]
    split
    next => exact hsame
    next entry hget =>
      have hset : ∀ start stop : UInt32, List.Forall₂ SameEntry before
            (list.set i { entry with start := start, stop := stop }) := by
        intro start stop
        refine forall₂_set hsame fun old hold => ?_
        obtain ⟨hlt, rfl⟩ := List.getElem?_eq_some_iff.mp hold
        obtain ⟨hlt', rfl⟩ := List.getElem?_eq_some_iff.mp hget
        exact hsame.get hlt hlt'
      split
      next =>
        split
        next => exact hset _ _
        next => exact ih (hset _ _)
      next => exact ih hsame

/-- No entry has a range at first, so only those that can be assigned get one. -/
theorem newDirectory_hasRange (decommissioned : List Subvol) (path : FileName) (layout : Layout) :
    ∀ entry ∈ dhtSelfhealLayoutNewDirectory decommissioned path layout, entry.HasRange →
      entry.Assignable := by
  refine assignRanges_assignable _ fun old hold hrange => ?_
  obtain ⟨before, -, rfl⟩ := List.mem_map.mp hold
  exact absurd ⟨rfl, rfl⟩ hrange

/-- Each entry keeps its subvolume, and gets a range only if `dht_get_layout_count` counted it. -/
theorem newDirectory_entries (decommissioned : List Subvol) (path : FileName) (layout : Layout) :
    List.Forall₂ (fun old new => new.xlator = old.xlator ∧
      (new.HasRange → Candidate decommissioned old ∨ LastResort decommissioned layout.list old))
      layout.list (dhtSelfhealLayoutNewDirectory decommissioned path layout) := by
  have hreset : List.Forall₂ SameEntry (dhtGetLayoutCount decommissioned true layout).1
      (dhtResetLayoutRange (dhtGetLayoutCount decommissioned true layout).1) := by
    rw [dhtResetLayoutRange, List.forall₂_map_right_iff]
    exact List.forall₂_same.mpr fun _ _ => ⟨rfl, rfl⟩
  have hcounted := dhtGetLayoutCount_entries decommissioned layout
  obtain ⟨chunk, turns, cnt, hassigned⟩ : ∃ chunk turns cnt,
      dhtSelfhealLayoutNewDirectory decommissioned path layout = assignRanges chunk turns 0 cnt
        (dhtResetLayoutRange (dhtGetLayoutCount decommissioned true layout).1) := ⟨_, _, _, rfl⟩
  have hsame : List.Forall₂ SameEntry (dhtGetLayoutCount decommissioned true layout).1
      (dhtSelfhealLayoutNewDirectory decommissioned path layout) :=
    hassigned ▸ assignRanges_sameEntry turns hreset
  refine List.forall₂_iff_get.mpr ⟨hcounted.length_eq.trans hsame.length_eq, fun i hold hnew => ?_⟩
  have hmiddle : i < (dhtGetLayoutCount decommissioned true layout).1.length := by
    rwa [hsame.length_eq]
  obtain ⟨hxlator, hcandidate⟩ := hcounted.get hold hmiddle
  obtain ⟨herr, hkept⟩ := hsame.get hmiddle hnew
  refine ⟨hkept.trans hxlator, fun hrange => hcandidate ?_⟩
  have hassigned := newDirectory_hasRange decommissioned path layout _ (List.get_mem _ _) hrange
  rwa [LayoutEntry.Assignable, herr] at hassigned

/-- Ranges are with entries that could get one, and those are not decommissioned. -/
theorem newDirectory_assignable (decommissioned : List Subvol) (path : FileName) (layout : Layout) :
    ∀ entry ∈ dhtSelfhealLayoutNewDirectory decommissioned path layout, entry.HasRange →
      entry.Assignable ∧ entry.xlator ∉ decommissioned := by
  intro entry hentry hrange
  refine ⟨newDirectory_hasRange decommissioned path layout entry hentry hrange, ?_⟩
  have hentries := newDirectory_entries decommissioned path layout
  generalize dhtSelfhealLayoutNewDirectory decommissioned path layout = new at hentry hentries
  obtain ⟨i, hi, rfl⟩ := List.mem_iff_getElem.mp hentry
  obtain ⟨hxlator, hgiven⟩ := hentries.get (hentries.length_eq ▸ hi) hi
  have hkept : new[i].xlator = _ := hxlator
  rw [hkept]
  exact (hgiven hrange).elim (·.1) (·.1)

/-- The ranges given to a new directory are as many as were counted, are disjoint and have
every hash; they are with entries that can be assigned and are not decommissioned. -/
structure PartitionsHashes (decommissioned : List Subvol) (path : FileName) (layout : Layout) :
    Prop where
  counted : ((dhtSelfhealLayoutNewDirectory decommissioned path layout).countP
      (fun entry => entry.HasRange) : Int) = (dhtGetLayoutCount decommissioned true layout).2
  disjoint : (dhtSelfhealLayoutNewDirectory decommissioned path layout).Pairwise
    fun left right => ∀ hash,
      ¬((left.HasRange ∧ left.Contains hash) ∧ right.HasRange ∧ right.Contains hash)
  covered : ∀ hash, ∃ entry ∈ dhtSelfhealLayoutNewDirectory decommissioned path layout,
    entry.HasRange ∧ entry.Contains hash
  reset : ∀ entry ∈ dhtSelfhealLayoutNewDirectory decommissioned path layout,
    ¬(entry.Assignable ∧ entry.xlator ∉ decommissioned) → entry.start = 0 ∧ entry.stop = 0
  given : List.Forall₂ (fun old new => new.xlator = old.xlator ∧
      (¬(new.start = 0 ∧ new.stop = 0) → Candidate decommissioned old ∨
        LastResort decommissioned layout.list old))
    layout.list (dhtSelfhealLayoutNewDirectory decommissioned path layout)

/-- A new directory partitions the hashes exactly where the spread is not negative. -/
theorem new_directory_partitions_hashes (decommissioned : List Subvol) (path : FileName)
    (layout : Layout)
    (hsome : ∃ entry ∈ (dhtGetLayoutCount decommissioned true layout).1, entry.Assignable) :
    PartitionsHashes decommissioned path layout ↔ 0 ≤ layout.spreadCnt := by
  constructor
  · intro hpartition
    by_contra hspread
    have hcounted := hpartition.counted
    rw [dhtGetLayoutCount_negative decommissioned (by omega)] at hcounted
    omega
  · intro hspread
    have hranges (list : List LayoutEntry) :
        total rangeWeight list = list.countP fun entry => entry.HasRange :=
      total_eq_countP fun entry _ => by simp [rangeWeight]
    refine ⟨hranges _ ▸ newDirectory_total hspread hsome (fun _ => rangeWeight_gain) path,
      newDirectory_disjoint hspread hsome path, fun hash => ?_, fun entry hentry hnot => ?_,
      newDirectory_entries decommissioned path layout⟩
    · obtain ⟨entry, hfilter⟩ := newDirectory_filter hspread hsome path hash
      obtain ⟨hmem, hgiven⟩ := List.mem_filter.mp (hfilter ▸ List.mem_singleton_self entry)
      exact ⟨entry, hmem, by simpa using hgiven⟩
    · by_contra hrange
      exact hnot (newDirectory_assignable decommissioned path layout entry hentry hrange)

/-- Two subvolumes, of which the first one is down. -/
def downLayout : Layout :=
  ⟨2, [⟨107, 0, 0, 0⟩, ⟨-1, 0, 0, 1⟩], by decide, by decide⟩

theorem new_directory_partitions_hashes_down : PartitionsHashes [] [] downLayout :=
  (new_directory_partitions_hashes [] [] downLayout
    ⟨⟨-1, 0, 0, 1⟩, by decide, by decide⟩).mpr (by decide)

/-- Two subvolumes and a spread of 4294967295, which is negative as an `int`. -/
def wideLayout : Layout :=
  ⟨-1, [⟨-1, 0, 0, 0⟩, ⟨-1, 0, 0, 1⟩], by decide, by decide⟩

/-- Both subvolumes get all the hashes. -/
theorem negative_spread_overlaps : ¬∀ (decommissioned : List Subvol) (path : FileName)
    (layout : Layout),
    (∃ entry ∈ (dhtGetLayoutCount decommissioned true layout).1, entry.Assignable) →
      PartitionsHashes decommissioned path layout := by
  intro hall
  have hdisjoint := (hall [] [] wideLayout ⟨⟨-1, 0, 0, 0⟩, by decide, by decide⟩).disjoint
  have hlist : dhtSelfhealLayoutNewDirectory [] [] wideLayout =
      [⟨-1, 0, 0xffffffff, 0⟩, ⟨-1, 0, 0xffffffff, 1⟩] := by decide +kernel
  rw [hlist, List.pairwise_pair] at hdisjoint
  exact hdisjoint 7 (by decide)

end GlusterFS.Dht
