import GlusterFS.Core.ExchangeSort
import GlusterFS.Dht.Anomalies

/-!
# The order of the entries of a layout

`dht_layout_sort` is to put the entries without a range first and the others by their
starts.  Its comparison looks at the range of one of the two entries and at the errors of
both, so that the order depends on the errors of the entries without a range.
-/

namespace GlusterFS.Dht

open ExchangeSort

/-! ## The sort as an exchange sort -/

/-- The entry is moved behind the other one. -/
def comesAfter (left right : LayoutEntry) : Bool := 0 < dhtLayoutEntryCmp left right

theorem sortTurn_eq (i : Nat) (list : List LayoutEntry) (j : Nat) :
    sortTurn i list j = turn comesAfter i list j := by
  rw [sortTurn, turn]
  cases list[i]? <;> cases list[j]? <;> simp [comesAfter, dhtLayoutEntrySwap, swap]

theorem dhtLayoutSort_eq (list : List LayoutEntry) :
    dhtLayoutSort list = exchangeSort comesAfter list := by
  have hturn : sortTurn = turn comesAfter := by
    funext i list j
    exact sortTurn_eq i list j
  rw [dhtLayoutSort, hturn]
  rfl

theorem dhtLayoutSort_perm (list : List LayoutEntry) : (dhtLayoutSort list).Perm list :=
  dhtLayoutSort_eq list ▸ exchangeSort_perm comesAfter list

/-! ## When the comparison is an order -/

namespace LayoutEntry

/-- Entries without a range come first, the others by their errors and those without an
error by their starts. -/
def Precedes (left right : LayoutEntry) : Prop :=
  left.HasRange → right.HasRange ∧
    (left.err < right.err ∨ left.err = right.err ∧ (left.err = 0 → left.start ≤ right.start))

theorem Precedes.trans {left middle right : LayoutEntry} (hleft : left.Precedes middle)
    (hright : middle.Precedes right) : left.Precedes right := by
  intro hrange
  obtain ⟨hmiddle, hfirst⟩ := hleft hrange
  obtain ⟨hlast, hsecond⟩ := hright hmiddle
  refine ⟨hlast, ?_⟩
  rcases hfirst with hless | ⟨hsame, hstart⟩
  · rcases hsecond with hless' | ⟨hsame', -⟩
    · exact .inl (by omega)
    · exact .inl (by omega)
  · rcases hsecond with hless' | ⟨hsame', hstart'⟩
    · exact .inl (by omega)
    · refine .inr ⟨by omega, fun hzero => ?_⟩
      exact UInt32.le_trans (hstart hzero) (hstart' (by omega))

end LayoutEntry

variable {list : List LayoutEntry} {left right : LayoutEntry}

/-- No entry without a range has a larger error than one with a range, and no range beside such
an entry ends at zero. -/
structure SortsByRange (list : List LayoutEntry) : Prop where
  err_le : ∀ reset ∈ list, ∀ entry ∈ list, ¬reset.HasRange → entry.HasRange →
    reset.err ≤ entry.err
  stop_ne : ∀ reset ∈ list, ∀ entry ∈ list, ¬reset.HasRange → entry.HasRange → entry.stop ≠ 0

theorem hasRange_of_start_pos (hstart : 0 < left.start.toNat) : left.HasRange := by
  rintro ⟨hzero, -⟩
  rw [hzero] at hstart
  exact Nat.lt_irrefl 0 hstart

theorem SortsByRange.agrees (hlist : SortsByRange list) :
    Agrees comesAfter LayoutEntry.Precedes list where
  of_after left hleft right hright hafter := by
    rw [comesAfter, decide_eq_true_eq, dhtLayoutEntryCmp] at hafter
    intro hrange
    rw [if_neg hrange] at hafter
    split at hafter
    next herr =>
      refine ⟨?_, .inl (by omega)⟩
      by_contra hreset
      have hle := hlist.err_le left hleft right hright hreset hrange
      omega
    next herr =>
      refine ⟨hasRange_of_start_pos (by omega), .inr ⟨by omega, fun _ => ?_⟩⟩
      rw [UInt32.le_iff_toNat_le]
      omega
  of_not_after left hleft right hright hafter := by
    rw [comesAfter, decide_eq_false_iff_not, dhtLayoutEntryCmp] at hafter
    intro hrange
    split at hafter
    next hreset =>
      have hstop := hlist.stop_ne right hright left hleft (not_not.mpr hreset) hrange
      rw [hreset.2, UInt32.toNat_zero] at hafter
      exact absurd (UInt32.toNat_inj.mp (by rw [UInt32.toNat_zero]; omega)) hstop
    next hright =>
      refine ⟨hright, ?_⟩
      split at hafter
      next herr =>
        rcases Int.lt_or_eq_of_le (show left.err ≤ right.err by omega) with hless | hsame
        · exact .inl hless
        · exact .inr ⟨hsame, fun hzero => by omega⟩
      next herr =>
        refine .inr ⟨by omega, fun _ => ?_⟩
        rw [UInt32.le_iff_toNat_le]
        omega

theorem dhtLayoutSort_pairwise (hlist : SortsByRange list) :
    (dhtLayoutSort list).Pairwise LayoutEntry.Precedes := by
  rw [dhtLayoutSort_eq]
  exact exchangeSort_pairwise (fun _ _ _ hleft hright => hleft.trans hright) hlist.agrees

/-- Entries without an error are by their starts. -/
theorem starts_ascending {sorted : List LayoutEntry}
    (hsorted : sorted.Pairwise LayoutEntry.Precedes)
    (hranges : ∀ entry ∈ sorted, entry.err = 0 ∧ entry.HasRange) :
    sorted.Pairwise fun left right => left.start ≤ right.start := by
  refine hsorted.imp_of_mem fun {left right} hleft hright hprecedes => ?_
  obtain ⟨herr, hrange⟩ := hranges left hleft
  have herr' := (hranges right hright).1
  rcases (hprecedes hrange).2 with hless | ⟨-, hstart⟩
  · omega
  · exact hstart herr

/-- `dht_layout_sort` on a layout. -/
def Layout.sort (layout : Layout) : Layout where
  spreadCnt := layout.spreadCnt
  list := dhtLayoutSort layout.list
  cnt_pos := (dhtLayoutSort_perm layout.list).length_eq ▸ layout.cnt_pos
  cnt_lt := (dhtLayoutSort_perm layout.list).length_eq ▸ layout.cnt_lt

/-- The last loop of `dht_layout_normalize`: subvolumes without the directory are counted. -/
def countMissing (list : List LayoutEntry) (ret : Int) : Int :=
  list.foldl (fun ret entry =>
    if 0 < entry.err ∧ entry.err = enoent ∧ 0 ≤ ret then ret + 1 else ret) ret

/-- `dht_layout_normalize`: the sorted layout and the return value. -/
def dhtLayoutNormalize (layout : Layout) : Layout × Int :=
  let anomalies := dhtLayoutAnomalies layout.sort
  let ret := if anomalies.holes ≠ 0 ∨ anomalies.overlaps ≠ 0 then -1 else 0
  (layout.sort, countMissing layout.sort.list ret)

theorem countMissing_nonneg_iff (list : List LayoutEntry) (ret : Int) :
    0 ≤ countMissing list ret ↔ 0 ≤ ret := by
  rw [countMissing]
  induction list generalizing ret with
  | nil => rfl
  | cons entry rest ih =>
    rw [List.foldl_cons, ih]
    split_ifs <;> omega

/-- A layout whose directories were all found: no error, and each range has more than one
hash or was reset. -/
structure Complete (list : List LayoutEntry) : Prop where
  err : ∀ entry ∈ list, entry.err = 0
  range : ∀ entry ∈ list, ¬entry.HasRange ∨ entry.start < entry.stop

theorem Complete.of_perm {other : List LayoutEntry} (hlist : Complete list)
    (hperm : other.Perm list) : Complete other :=
  ⟨fun entry hentry => hlist.err entry (hperm.mem_iff.mp hentry),
    fun entry hentry => hlist.range entry (hperm.mem_iff.mp hentry)⟩

theorem Complete.participates_iff (hlist : Complete list) (hleft : left ∈ list) :
    left.Participates ↔ left.HasRange := by
  constructor
  · rintro ⟨-, hdiffer⟩ ⟨hstart, hstop⟩
    exact hdiffer (hstart.trans hstop.symm)
  · intro hrange
    refine ⟨hlist.err left hleft, fun hsame => ?_⟩
    have hless := (hlist.range left hleft).resolve_left (not_not.mpr hrange)
    rw [hsame, UInt32.lt_iff_toNat_lt] at hless
    exact Nat.lt_irrefl _ hless

theorem Complete.sortsByRange (hlist : Complete list) : SortsByRange list where
  err_le reset hreset entry hentry _ _ := by rw [hlist.err reset hreset, hlist.err entry hentry]
  stop_ne _ _ entry hentry _ hrange hstop := by
    have hless := (hlist.range entry hentry).resolve_left (not_not.mpr hrange)
    rw [hstop, UInt32.lt_iff_toNat_lt] at hless
    exact Nat.not_lt_zero _ hless

theorem Complete.ascending (hlist : Complete list) :
    Ascending (participants (dhtLayoutSort list)) := by
  have hcomplete := hlist.of_perm (dhtLayoutSort_perm list)
  have hrange : ∀ entry ∈ participants (dhtLayoutSort list),
      entry ∈ dhtLayoutSort list ∧ entry.HasRange := by
    intro entry hentry
    obtain ⟨hmem, hparticipates⟩ := List.mem_filter.mp hentry
    exact ⟨hmem, (hcomplete.participates_iff hmem).mp (of_decide_eq_true hparticipates)⟩
  constructor
  · have hsorted := dhtLayoutSort_pairwise hlist.sortsByRange
    refine starts_ascending (hsorted.filter _) fun entry hentry => ?_
    exact ⟨hcomplete.err entry (hrange entry hentry).1, (hrange entry hentry).2⟩
  · intro entry hentry
    obtain ⟨hmem, hranged⟩ := hrange entry hentry
    exact UInt32.le_of_lt ((hcomplete.range entry hmem).resolve_left (not_not.mpr hranged))

theorem Layout.participants_eq (layout : Layout) (hhead : layout.head.Participates) :
    participants layout.list = layout.head :: participants layout.list.tail := by
  have hlist : layout.list = layout.head :: layout.list.tail :=
    (List.cons_head_tail (List.ne_nil_of_length_pos layout.cnt_pos)).symm.trans
      (by rw [head, List.get_eq_getElem, List.head_eq_getElem])
  rw [hlist, List.tail_cons]
  exact participants_cons_of_pos hhead

/-- A layout without errors is accepted if and only if every hash is in one of its ranges. -/
theorem dhtLayoutNormalize_nonneg_iff (layout : Layout) (hlist : Complete layout.list)
    (hwhole : ∀ entry ∈ participants layout.list, entry.IsWhole →
      participants layout.list = [entry]) :
    0 ≤ (dhtLayoutNormalize layout).2 ↔
      ∀ hash, ((participants layout.list).countP fun entry => entry.Contains hash) = 1 := by
  have hperm := dhtLayoutSort_perm layout.list
  have hparticipants : (participants layout.sort.list).Perm (participants layout.list) :=
    hperm.filter _
  have hascending : Ascending (participants layout.sort.list) := hlist.ascending
  have hrepeats : ¬RepeatsHashes (participants layout.sort.list) := by
    intro hrepeats
    have honly : ∀ entry ∈ participants layout.sort.list, entry.IsWhole →
        participants layout.sort.list = [entry] := by
      intro entry hentry hentire
      have honly := hwhole entry (hparticipants.mem_iff.mp hentry) hentire
      rw [honly] at hparticipants
      exact List.perm_singleton.mp hparticipants
    cases hranges : participants layout.sort.list with
    | nil => rwa [hranges] at hrepeats
    | cons first rest =>
      rw [hranges] at hrepeats honly
      rw [honly first List.mem_cons_self hrepeats.1] at hrepeats
      exact hrepeats.2.elim (fun honce => absurd (honce 0) (by simp)) id
  have hzero : EveryHashOnce (participants layout.sort.list) → layout.sort.head.start = 0 := by
    intro honce
    by_cases hrange : layout.sort.head.HasRange
    · have hmem : layout.sort.head ∈ dhtLayoutSort layout.list := List.get_mem _ _
      have hhead := ((hlist.of_perm hperm).participates_iff hmem).mpr hrange
      rw [← chained_iff_every_hash_once hascending, layout.sort.participants_eq hhead] at honce
      exact UInt32.toNat_inj.mp honce.1
    · exact (not_not.mp hrange).1
  have hclean := dhtLayoutAnomalies_clean_iff layout.sort hascending
  rw [or_iff_left hrepeats, and_iff_right_of_imp hzero] at hclean
  rw [dhtLayoutNormalize, countMissing_nonneg_iff]
  simp only [← hparticipants.countP_eq]
  rw [← EveryHashOnce, ← hclean]
  split_ifs <;> omega

/-- Two halves in the wrong order are accepted. -/
theorem dhtLayoutNormalize_nonneg_iff_halves : let layout : Layout :=
      ⟨0, [⟨0, 0x80000000, 0xffffffff, 1⟩, ⟨0, 0, 0x7fffffff, 0⟩], by decide, by decide⟩
    ∀ hash, ((participants layout.list).countP fun entry => entry.Contains hash) = 1 := by
  refine (dhtLayoutNormalize_nonneg_iff _ ⟨by decide, by decide⟩ ?_).mp (by decide)
  unfold LayoutEntry.IsWhole
  decide

end GlusterFS.Dht
