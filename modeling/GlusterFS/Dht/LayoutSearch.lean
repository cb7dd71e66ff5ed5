import GlusterFS.Dht.LayoutSort
import GlusterFS.Dht.NewDirectory

/-!
# Names go to the subvolume that has their hash

The ranges that a new directory gives out have every hash value once.  A search finds the
range of a hash, except that an entry without a range looks like one for the hash zero.
-/

namespace GlusterFS.Dht

variable {list : List LayoutEntry} {hash : UInt32} {entry : LayoutEntry}

/-- The layout of a new directory, sorted or as it was assigned. -/
def newDirectoryLayout (decommissioned : List Subvol) (path : FileName) (layout : Layout)
    (sorted : Bool) : List LayoutEntry :=
  if sorted then dhtLayoutSort (dhtSelfhealLayoutNewDirectory decommissioned path layout)
  else dhtSelfhealLayoutNewDirectory decommissioned path layout

/-- An entry whose range was reset looks like one for the hash zero. -/
theorem contains_of_not_hasRange (hrange : ¬entry.HasRange) (hcontains : entry.Contains hash) :
    hash = 0 := by
  obtain ⟨-, hstop⟩ := not_not.mp hrange
  have hle := hcontains.2
  rw [hstop, UInt32.le_iff_toNat_le] at hle
  exact UInt32.toNat_inj.mp (Nat.le_zero.mp hle)

/-- No entry without a range stands before the one whose range starts at zero. -/
def ZeroHashFirst (list : List LayoutEntry) : Prop :=
  ∀ front entry back, list = front ++ entry :: back → entry.HasRange → entry.start = 0 →
    ∀ other ∈ front, other.HasRange

/-- The search returns the one subvolume that was given the hash of the name. -/
def FindsRange (decommissioned : List Subvol) (list : List LayoutEntry) (name : FileName) : Prop :=
  ∃ entry, list.filter (fun entry => entry.HasRange ∧ entry.Contains (dhtHashCompute name)) =
      [entry] ∧
    dhtLayoutSearch list name = some entry.xlator ∧
    entry.Assignable ∧ entry.xlator ∉ decommissioned

theorem contains_zero_iff : entry.Contains 0 ↔ entry.start = 0 := by
  simp [LayoutEntry.Contains, UInt32.le_iff_toNat_le, ← UInt32.toNat_inj]

/-- The first entry that has the hash is the one that was given it. -/
theorem searchList_eq_iff (hsubvols : (list.map LayoutEntry.xlator).Nodup)
    (hfilter : list.filter (fun entry => entry.HasRange ∧ entry.Contains hash) = [entry]) :
    searchList list hash = some entry.xlator ↔ (hash = 0 → ZeroHashFirst list) := by
  obtain ⟨hmem, hgiven⟩ := List.mem_filter.mp (hfilter ▸ List.mem_singleton_self entry)
  obtain ⟨hrange, hcontains⟩ : entry.HasRange ∧ entry.Contains hash := by simpa using hgiven
  have honly : ∀ other ∈ list, other.HasRange → other.Contains hash → other = entry := by
    intro other hother hrange hcontains
    rw [← List.mem_singleton, ← hfilter]
    exact List.mem_filter.mpr ⟨hother, by simpa using ⟨hrange, hcontains⟩⟩
  obtain ⟨found, hfound⟩ : ∃ found,
      list.find? (fun entry => entry.Contains hash) = some found := by
    rw [← Option.isSome_iff_exists, List.find?_isSome]
    exact ⟨entry, hmem, by simpa using hcontains⟩
  have hfoundMem := List.mem_of_find?_eq_some hfound
  have hfoundContains : found.Contains hash := by simpa using List.find?_some hfound
  rw [searchList, hfound, Option.map_some, Option.some_inj]
  constructor
  · rintro hxlator rfl front first back rfl hfirst hstart other hother
    obtain rfl : found = entry := List.inj_on_of_nodup_map hsubvols hfoundMem hmem hxlator
    obtain rfl : first = found :=
      honly first (by simp) hfirst (contains_zero_iff.mpr hstart)
    by_contra hreset
    -- The search stops in front of the range, where its subvolume has no other entry.
    obtain ⟨early, hearly⟩ : ∃ early,
        front.find? (fun entry => entry.Contains 0) = some early := by
      rw [← Option.isSome_iff_exists, List.find?_isSome]
      exact ⟨other, hother, by simpa using contains_zero_iff.mpr (not_not.mp hreset).1⟩
    rw [List.find?_append, hearly, Option.some_or, Option.some_inj] at hfound
    rw [List.map_append, List.map_cons] at hsubvols
    exact List.disjoint_of_nodup_append hsubvols
      (List.mem_map_of_mem (hfound ▸ List.mem_of_find?_eq_some hearly)) List.mem_cons_self
  · intro hzero
    refine congrArg _ (honly found hfoundMem ?_ hfoundContains)
    by_contra hreset
    obtain rfl := contains_of_not_hasRange hreset hfoundContains
    obtain ⟨-, front, back, rfl, hfront⟩ := List.find?_eq_some_iff_append.mp hfound
    have hback : entry ∈ back := by
      rcases List.mem_append.mp hmem with h | h
      · exact absurd hcontains (by simpa using hfront entry h)
      · exact (List.mem_cons.mp h).resolve_left fun h => hreset (h ▸ hrange)
    obtain ⟨between, rest, rfl⟩ := List.append_of_mem hback
    exact hreset (hzero rfl (front ++ found :: between) entry rest (by simp) hrange
      (contains_zero_iff.mp hcontains) found (by simp))

/-- A search finds the range of the hash exactly where there is one range for it, which a negative
spread leaves only where one entry is to be assigned, and where for the hash zero no entry without
a range stands before it. -/
theorem dht_layout_search_finds_range (decommissioned : List Subvol) (path : FileName)
    (layout : Layout) (sorted : Bool) (name : FileName) (hint : -2 ^ 31 ≤ layout.spreadCnt)
    (hsubvols : (layout.list.map LayoutEntry.xlator).Nodup)
    (hsome : ∃ entry ∈ (dhtGetLayoutCount decommissioned true layout).1, entry.Assignable) :
    FindsRange decommissioned (newDirectoryLayout decommissioned path layout sorted) name ↔
      (0 ≤ layout.spreadCnt ∨ (dhtGetLayoutCount decommissioned true layout).1.countP
          (fun entry => entry.Assignable) = 1) ∧
        (dhtHashCompute name = 0 →
          ZeroHashFirst (newDirectoryLayout decommissioned path layout sorted)) := by
  have hperm : (newDirectoryLayout decommissioned path layout sorted).Perm
      (dhtSelfhealLayoutNewDirectory decommissioned path layout) := by
    rw [newDirectoryLayout]
    split
    · exact dhtLayoutSort_perm _
    · exact List.Perm.refl _
  have hxlators : ((newDirectoryLayout decommissioned path layout sorted).map
      LayoutEntry.xlator).Nodup := by
    have hsame : layout.list.map LayoutEntry.xlator =
        (dhtSelfhealLayoutNewDirectory decommissioned path layout).map LayoutEntry.xlator := by
      rw [← List.forall₂_eq_eq_eq, List.forall₂_map_left_iff, List.forall₂_map_right_iff]
      exact (newDirectory_entries decommissioned path layout).imp fun _ _ h => h.1.symm
    rwa [(hperm.map _).nodup_iff, ← hsame]
  have hone : (∃ entry, (newDirectoryLayout decommissioned path layout sorted).filter
        (fun entry => entry.HasRange ∧ entry.Contains (dhtHashCompute name)) = [entry]) ↔
      0 ≤ layout.spreadCnt ∨ (dhtGetLayoutCount decommissioned true layout).1.countP
        (fun entry => entry.Assignable) = 1 := by
    rw [← List.length_eq_one_iff, (hperm.filter _).length_eq]
    by_cases hspread : 0 ≤ layout.spreadCnt
    · exact iff_of_true (List.length_eq_one_iff.mpr (newDirectory_filter hspread hsome path _))
        (.inl hspread)
    · rw [newDirectory_filter_negative (by omega) hint, or_iff_right hspread]
  rw [← hone]
  constructor
  · rintro ⟨entry, hfilter, hsearch, -⟩
    exact ⟨⟨entry, hfilter⟩, (searchList_eq_iff hxlators hfilter).mp hsearch⟩
  · rintro ⟨⟨entry, hfilter⟩, hzero⟩
    obtain ⟨hmem, hgiven⟩ := List.mem_filter.mp (hfilter ▸ List.mem_singleton_self entry)
    obtain ⟨hrange, -⟩ : entry.HasRange ∧ entry.Contains _ := by simpa using hgiven
    exact ⟨entry, hfilter, (searchList_eq_iff hxlators hfilter).mpr hzero,
      newDirectory_assignable decommissioned path layout entry (hperm.mem_iff.mp hmem) hrange⟩

/-- `gawsdln`, a name whose hash is zero. -/
def zeroHashName : FileName := [103, 97, 119, 115, 100, 108, 110]

theorem dht_layout_search_finds_range_down :
    FindsRange [] (newDirectoryLayout [] [] downLayout true) [97] :=
  (dht_layout_search_finds_range [] [] downLayout true [97] (by decide) (by decide)
    ⟨⟨-1, 0, 0, 1⟩, by decide, by decide⟩).mpr
      ⟨.inl (by decide), fun h => absurd h (by decide +kernel)⟩

/-- The name goes to the subvolume that is down, which has no range. -/
theorem zero_hash_goes_to_reset_entry : ¬∀ (decommissioned : List Subvol) (path : FileName)
    (layout : Layout) (sorted : Bool) (name : FileName), 0 ≤ layout.spreadCnt →
    (layout.list.map LayoutEntry.xlator).Nodup →
    (∃ entry ∈ (dhtGetLayoutCount decommissioned true layout).1, entry.Assignable) →
    FindsRange decommissioned (newDirectoryLayout decommissioned path layout sorted) name := by
  intro hall
  obtain ⟨entry, hfilter, hsearch, -⟩ := hall [] [] downLayout false zeroHashName (by decide)
    (by decide) ⟨⟨-1, 0, 0, 1⟩, by decide, by decide⟩
  have hgiven : ((newDirectoryLayout [] [] downLayout false).filter fun entry =>
      entry.HasRange ∧ entry.Contains (dhtHashCompute zeroHashName)).map LayoutEntry.xlator =
        [1] := by
    decide +kernel
  have hfound : dhtLayoutSearch (newDirectoryLayout [] [] downLayout false) zeroHashName =
      some 0 := by
    decide +kernel
  rw [hfilter, List.map_singleton] at hgiven
  rw [hfound, List.singleton_inj.mp hgiven] at hsearch
  cases hsearch

end GlusterFS.Dht
