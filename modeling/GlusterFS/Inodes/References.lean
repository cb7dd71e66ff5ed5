import GlusterFS.Inodes.Table

/-!
# References and lists

The invariant of the table while `__dentry_unset`, `__inode_unref` and
`__inode_retire` call each other.  `todo` has the dentries that inodes on `purge`
still have to lose, and `debt` the references that are still to be dropped.
-/

namespace GlusterFS.Inodes

variable {t t' : InodeTable} {held : InodeId → Nat} {todo : List Dentry} {debt : List InodeId}
variable {i j : InodeId} {dentry : Dentry}

namespace InodeTable

variable (t : InodeTable)

/-- The number of dentries that name the inode as their parent. -/
def parents (i : InodeId) : Nat := t.dentries.countP fun dentry => dentry.parent = i

/-- Who has a reference on the inode: callers, dentries, and those still to be
dropped. -/
def claims (held : InodeId → Nat) (debt : List InodeId) (i : InodeId) : Nat :=
  held i + t.parents i + debt.count i

def listed : List InodeId := t.active ++ (t.lru ++ t.purge)

@[simp]
theorem setInode_inode_self (i : InodeId) (inode : Inode) : (t.setInode i inode).inode i = inode :=
  Function.update_self ..

theorem setInode_inode_of_ne (h : j ≠ i) (inode : Inode) :
    (t.setInode i inode).inode j = t.inode j :=
  Function.update_of_ne h ..

theorem setRef_ref (i j : InodeId) (ref : Nat) :
    (t.setRef i ref).ref j = if j = i then ref else t.ref j := by
  by_cases h : j = i
  · simp [setRef, InodeTable.ref, h]
  · simp [setRef, InodeTable.ref, h, t.setInode_inode_of_ne h]

@[simp]
theorem setRef_ref_self (i : InodeId) (ref : Nat) : (t.setRef i ref).ref i = ref := by
  simp [setRef_ref]

theorem setRef_ref_of_ne (h : j ≠ i) (ref : Nat) : (t.setRef i ref).ref j = t.ref j := by
  simp [setRef_ref, h]

@[simp]
theorem setRef_gfid (i j : InodeId) (ref : Nat) :
    ((t.setRef i ref).inode j).gfid = (t.inode j).gfid := by
  by_cases h : j = i
  · subst h
    simp [setRef]
  · simp [setRef, t.setInode_inode_of_ne h]

end InodeTable

theorem inodeRef_dentries (t : InodeTable) (i : InodeId) :
    (t.inodeRef i).dentries = t.dentries := by
  rw [InodeTable.inodeRef]
  split_ifs <;> rfl

theorem dentryCreate_unset (t : InodeTable) (dentry : Dentry) :
    (t.dentryCreate dentry).unset dentry = (t.inodeRef dentry.parent).unref dentry.parent := by
  simp only [InodeTable.unset, InodeTable.dentryCreate, List.length_cons, InodeTable.dentryUnset,
    List.erase_cons_head]
  rfl

theorem dentryCreate_dentryHash (t : InodeTable) (dentry : Dentry) :
    (t.dentryCreate dentry).dentryHash dentry = { t.inodeRef dentry.parent with
        dentries := { dentry with hashed := true } :: (t.inodeRef dentry.parent).dentries } := by
  simp only [InodeTable.dentryHash, InodeTable.dentryCreate, List.erase_cons_head]

structure TableInv (t : InodeTable) (held : InodeId → Nat) (todo : List Dentry)
    (debt : List InodeId) : Prop where
  nodup : t.listed.Nodup
  mem_listed : ∀ i, i ∈ t.listed ↔ t.Live i
  mem_active : ∀ i, i ∈ t.active ↔ 0 < t.ref i
  ref_lt : ∀ i, t.ref i < 2 ^ 32
  activeSize : t.activeSize = t.active.length
  lruSize : t.lruSize = t.lru.length
  purgeSize : t.purgeSize = t.purge.length
  hash_live : ∀ i ∈ t.inodeHash, t.Live i ∧ i ∉ t.purge
  dentry_live : ∀ dentry ∈ t.dentries, t.Live dentry.inode
  hashed : ∀ dentry ∈ t.dentries, dentry.hashed = true
  todo : (t.dentries.filter fun dentry => dentry.inode ∈ t.purge).Perm todo
  refs : ∀ i, i ≠ root → t.ref i = t.claims held debt i
  rootRef : t.claims held debt root ≤ t.ref root
  gfid : ∀ i, (t.inode i).gfid = rootGfid ↔ i = root
  hash_nodup : t.inodeHash.Nodup
  gfid_inj : ∀ i ∈ t.inodeHash, ∀ j ∈ t.inodeHash, (t.inode i).gfid = (t.inode j).gfid → i = j
  named : ∀ i, t.Live i → i ∉ t.purge → (t.inode i).gfid ≠ 0 → i ∈ t.inodeHash
  destroyed_lt : ∀ i ∈ t.destroyed, i < t.created
  root_live : t.Live root
  root_purge : root ∉ t.purge
  root_hashed : root ∈ t.inodeHash

namespace TableInv

section Lists

variable (hs : TableInv t held todo debt)

include hs

theorem not_mem_of_active (hi : i ∈ t.active) : i ∉ t.lru ∧ i ∉ t.purge := by
  have hdisjoint := (List.nodup_append.mp hs.nodup).2.2
  exact ⟨fun h => hdisjoint i hi i (List.mem_append_left _ h) rfl,
    fun h => hdisjoint i hi i (List.mem_append_right _ h) rfl⟩

theorem not_mem_of_lru (hi : i ∈ t.lru) : i ∉ t.active ∧ i ∉ t.purge := by
  obtain ⟨-, hrest, hdisjoint⟩ := List.nodup_append.mp hs.nodup
  exact ⟨fun h => hdisjoint i h i (List.mem_append_left _ hi) rfl,
    fun h => (List.nodup_append.mp hrest).2.2 i hi i h rfl⟩

theorem ref_le (i : InodeId) : t.claims held debt i ≤ t.ref i := by
  by_cases h : i = root
  · subst h
    exact hs.rootRef
  · exact Nat.le_of_eq (hs.refs i h).symm

theorem active_of_pos (h : 0 < t.claims held debt i) : i ∈ t.active :=
  (hs.mem_active i).mpr (Nat.lt_of_lt_of_le h (hs.ref_le i))

theorem live_of_active (h : i ∈ t.active) : t.Live i :=
  (hs.mem_listed i).mp (List.mem_append_left _ h)

theorem parent_active (hdentry : dentry ∈ t.dentries) : dentry.parent ∈ t.active := by
  refine hs.active_of_pos ?_
  have hpos : 0 < t.parents dentry.parent :=
    List.countP_pos_iff.mpr ⟨dentry, hdentry, by simp⟩
  rw [InodeTable.claims]
  omega

/-- A parent is alive as long as a dentry names it. -/
theorem parent_live (hdentry : dentry ∈ t.dentries) : t.Live dentry.parent :=
  hs.live_of_active (hs.parent_active hdentry)

end Lists

/-! ## Gfids -/

section Gfids

variable (hs : TableInv t held todo debt) {inode : InodeId → Inode}
variable (hgfid : ∀ j, (inode j).gfid = (t.inode j).gfid)

include hs hgfid

theorem gfid_inj_of_gfid : ∀ j ∈ t.inodeHash, ∀ k ∈ t.inodeHash,
    (inode j).gfid = (inode k).gfid → j = k := by
  intro j hj k hk h
  rw [hgfid, hgfid] at h
  exact hs.gfid_inj j hj k hk h

theorem named_of_gfid : ∀ j, t.Live j → j ∉ t.purge → (inode j).gfid ≠ 0 → j ∈ t.inodeHash := by
  intro j hlive hpurge h
  rw [hgfid] at h
  exact hs.named j hlive hpurge h

theorem named_retire : ∀ j, t.Live j → j ∉ t.purge ++ [i] → (inode j).gfid ≠ 0 →
    j ∈ t.inodeHash.filter fun other => other ≠ i := by
  intro j hlive hpurge h
  rw [List.mem_append, List.mem_singleton, not_or] at hpurge
  exact List.mem_filter.mpr ⟨hs.named_of_gfid hgfid j hlive hpurge.1 h, by simpa using hpurge.2⟩

end Gfids

/-! ## Single moves -/

section Moves

variable (hs : TableInv t held todo debt)

include hs

/-- A dentry goes and leaves the reference on its parent to be dropped. -/
theorem erase_dentry (hdentry : dentry ∈ t.dentries) :
    TableInv { t with dentries := t.dentries.erase dentry } held (todo.erase dentry)
      (dentry.parent :: debt) :=
  have hclaims : ∀ i, InodeTable.claims { t with dentries := t.dentries.erase dentry } held
      (dentry.parent :: debt) i = t.claims held debt i := by
    intro i
    simp only [InodeTable.claims, InodeTable.parents, List.countP_erase, List.count_cons]
    by_cases h : dentry.parent = i
    · have hpos : 0 < t.dentries.countP fun other => other.parent = i :=
        List.countP_pos_iff.mpr ⟨dentry, hdentry, by simp [h]⟩
      simp only [hdentry, h, decide_true, and_self, if_true, beq_self_eq_true]
      omega
    · simp [h]
  { hs with
    dentry_live := fun other hother => hs.dentry_live other (List.mem_of_mem_erase hother)
    hashed := fun other hother => hs.hashed other (List.mem_of_mem_erase hother)
    todo := by
      rw [← List.erase_filter]
      exact hs.todo.erase dentry
    refs := fun i hi => (hs.refs i hi).trans (hclaims i).symm
    rootRef := Nat.le_trans (Nat.le_of_eq (hclaims root)) hs.rootRef }

end Moves

theorem claims_cons (t : InodeTable) (held : InodeId → Nat) (debt : List InodeId) (i j : InodeId) :
    t.claims held (i :: debt) j = t.claims held debt j + if j = i then 1 else 0 := by
  simp only [InodeTable.claims, List.count_cons, beq_iff_eq, eq_comm (a := i)]
  omega

/-- The dentries of an inode that comes to `purge` are still to be dropped. -/
theorem todo_retire (hs : TableInv t held todo debt) (hi : i ∉ t.purge) :
    (t.dentries.filter fun dentry => dentry.inode ∈ t.purge ++ [i]).Perm
      (t.dentryList i ++ todo) := by
  have hsplit : ∀ dentries : List Dentry,
      (dentries.filter fun dentry => dentry.inode ∈ t.purge ++ [i]).Perm
        ((dentries.filter fun dentry => dentry.inode = i) ++
          dentries.filter fun dentry => dentry.inode ∈ t.purge) := by
    intro dentries
    induction dentries with
    | nil => exact .refl _
    | cons head tail ih =>
      by_cases h : head.inode = i
      · simpa [List.filter_cons, h, hi] using ih
      · by_cases hpurge : head.inode ∈ t.purge
        · simp only [List.mem_append, List.mem_singleton, List.filter_cons, h, hpurge,
            decide_true, decide_false, or_false, if_true, Bool.false_eq_true, if_false] at ih ⊢
          exact (ih.cons head).trans List.perm_middle.symm
        · simpa [List.filter_cons, h, hpurge] using ih
  exact (hsplit t.dentries).trans (hs.todo.append_left _)

theorem hash_live_retire (hs : TableInv t held todo debt) :
    ∀ j ∈ t.inodeHash.filter fun other => other ≠ i, t.Live j ∧ j ∉ t.purge ++ [i] := by
  intro j hj
  obtain ⟨hmem, hne⟩ := List.mem_filter.mp hj
  obtain ⟨hlive, hnot⟩ := hs.hash_live j hmem
  refine ⟨hlive, fun h => ?_⟩
  rcases List.mem_append.mp h with h | h
  · exact hnot h
  · simp [List.mem_singleton.mp h] at hne

section Lists

theorem count_erase_add {ids : List InodeId} (hi : i ∈ ids) (j : InodeId) :
    (ids.erase i).count j + [i].count j = ids.count j := by
  rw [(List.perm_cons_erase hi).count_eq j, List.count_singleton, List.count_cons]

theorem length_erase_of_mem {ids : List InodeId} (hi : i ∈ ids) :
    ((ids.erase i).length : Int) = ids.length - 1 := by
  have hlength := List.length_erase_add_one hi
  omega

variable (hs : TableInv t held todo debt)

include hs

/-- The count of an inode follows the claims on it, and the inode the count. -/
theorem set_ref {debt' : List InodeId} (ref : Nat) (active lru : List InodeId)
    (hperm : (active ++ (lru ++ t.purge)).Perm t.listed)
    (hactive : ∀ j, j ∈ active ↔ 0 < (t.setRef i ref).ref j) (hlt : ref < 2 ^ 32)
    (hclaims : ∀ j, t.claims held debt' j + t.ref j =
      t.claims held debt j + (t.setRef i ref).ref j) :
    TableInv { t.setRef i ref with
        active := active
        lru := lru
        activeSize := active.length
        lruSize := lru.length } held todo debt' :=
  { hs with
    nodup := hperm.nodup_iff.mpr hs.nodup
    mem_listed := fun j => hperm.mem_iff.trans (hs.mem_listed j)
    mem_active := hactive
    ref_lt := fun j => by
      change (t.setRef i ref).ref j < 2 ^ 32
      rw [t.setRef_ref]
      split_ifs
      · exact hlt
      · exact hs.ref_lt j
    activeSize := rfl
    lruSize := rfl
    refs := fun j hj => by
      have hrefs := hs.refs j hj
      have hnew := hclaims j
      change (t.setRef i ref).ref j = t.claims held debt' j
      omega
    rootRef := by
      have hrootRef := hs.rootRef
      have hnew := hclaims root
      change t.claims held debt' root ≤ (t.setRef i ref).ref root
      omega
    gfid := by simpa using hs.gfid
    gfid_inj := hs.gfid_inj_of_gfid (t.setRef_gfid i · _)
    named := hs.named_of_gfid (t.setRef_gfid i · _) }

theorem mem_active_setRef {ref : Nat} (hi : i ∈ t.active) (hpos : 0 < ref) (j : InodeId) :
    j ∈ t.active ↔ 0 < (t.setRef i ref).ref j := by
  rw [t.setRef_ref]
  split_ifs with h
  · exact iff_of_true (h ▸ hi) hpos
  · exact hs.mem_active j

/-- Pruning takes an inode off `lru`. -/
theorem prune_to_purge (hroot : i ≠ root) (hi : i ∈ t.lru) :
    TableInv (InodeTable.moveToPurge { t with lruSize := t.lruSize - 1 } i) held
      (t.dentryList i ++ todo) debt := by
  obtain ⟨hactive, hpurge⟩ := hs.not_mem_of_lru hi
  have hmove : InodeTable.moveToPurge { t with lruSize := t.lruSize - 1 } i = { t with
        lru := t.lru.erase i
        purge := t.purge ++ [i]
        lruSize := t.lruSize - 1
        purgeSize := t.purgeSize + 1
        inodeHash := t.inodeHash.filter fun other => other ≠ i } := by
    simp [InodeTable.moveToPurge, List.erase_of_not_mem hactive, List.erase_of_not_mem hpurge]
  have hperm : (t.active ++ (t.lru.erase i ++ (t.purge ++ [i]))).Perm t.listed := by
    refine List.perm_iff_count.mpr fun j => ?_
    have hcount := count_erase_add hi j
    simp only [InodeTable.listed, List.count_append]
    omega
  rw [hmove]
  exact { hs with
      nodup := hperm.nodup_iff.mpr hs.nodup
      mem_listed := fun j => hperm.mem_iff.trans (hs.mem_listed j)
      lruSize := by rw [hs.lruSize, length_erase_of_mem hi]
      purgeSize := by simp [hs.purgeSize]
      hash_live := hs.hash_live_retire
      todo := hs.todo_retire hpurge
      hash_nodup := hs.hash_nodup.filter _
      gfid_inj := fun j hj k hk =>
        hs.gfid_inj j (List.mem_filter.mp hj).1 k (List.mem_filter.mp hk).1
      named := hs.named_retire fun _ => rfl
      root_purge := by simpa [Ne.symm hroot] using hs.root_purge
      root_hashed := List.mem_filter.mpr ⟨hs.root_hashed, by simpa using Ne.symm hroot⟩ }

end Lists

section Drop

variable (hs : TableInv t held todo (i :: debt)) {ref : Nat} (href : t.ref i = ref + 1)

omit hs in
include href in
theorem claims_drop (j : InodeId) : t.claims held debt j + t.ref j =
    t.claims held (i :: debt) j + (t.setRef i ref).ref j := by
  rw [claims_cons, t.setRef_ref]
  split_ifs with h
  · rw [h]
    omega
  · omega

include hs

theorem mem_active_of_debt : i ∈ t.active := by
  refine hs.active_of_pos ?_
  rw [claims_cons, if_pos rfl]
  omega

theorem mem_active_erase (j : InodeId) : j ∈ t.active.erase i ↔ 0 < (t.setRef i 0).ref j := by
  have hnodup : t.active.Nodup := (List.nodup_append.mp hs.nodup).1
  rw [hnodup.mem_erase_iff, t.setRef_ref, hs.mem_active]
  split_ifs with h
  · exact iff_of_false (fun hne => hne.1 h) (Nat.lt_irrefl 0)
  · exact and_iff_right h

include href

theorem drop_ref (hpos : 0 < ref) : TableInv (t.setRef i ref) held todo debt := by
  have hlt := hs.ref_lt i
  have hset := hs.set_ref ref t.active t.lru (.refl _)
    (hs.mem_active_setRef hs.mem_active_of_debt hpos) (by omega) (claims_drop href)
  rwa [← hs.activeSize, ← hs.lruSize] at hset

omit href

/-- The last reference of an inode that is looked up is dropped. -/
theorem drop_to_lru (href : t.ref i = 1) :
    TableInv (InodeTable.moveToLru { t.setRef i 0 with activeSize := t.activeSize - 1 } i) held todo
      debt := by
  have hi := hs.mem_active_of_debt
  obtain ⟨hlru, hpurge⟩ := hs.not_mem_of_active hi
  have hperm : (t.active.erase i ++ (t.lru ++ [i] ++ t.purge)).Perm t.listed := by
    refine List.perm_iff_count.mpr fun j => ?_
    have hcount := count_erase_add hi j
    simp only [InodeTable.listed, List.count_append]
    omega
  have hset := hs.set_ref 0 (t.active.erase i) (t.lru ++ [i]) hperm hs.mem_active_erase (by decide)
    (claims_drop href)
  rw [length_erase_of_mem hi, ← hs.activeSize, List.length_append, Int.natCast_add,
    ← hs.lruSize] at hset
  simpa [InodeTable.moveToLru, InodeTable.setRef, InodeTable.setInode,
    List.erase_of_not_mem hlru, List.erase_of_not_mem hpurge] using hset

/-- The last reference of an inode that nobody looks up is dropped: as if it came to `lru` on its
way. -/
theorem drop_to_purge (hroot : i ≠ root) (href : t.ref i = 1) :
    TableInv (InodeTable.moveToPurge { t.setRef i 0 with activeSize := t.activeSize - 1 } i) held
      (t.dentryList i ++ todo) debt := by
  obtain ⟨hlru, hpurge⟩ := hs.not_mem_of_active hs.mem_active_of_debt
  have hnodup : t.active.Nodup := (List.nodup_append.mp hs.nodup).1
  have hpruned := (hs.drop_to_lru href).prune_to_purge hroot
    (List.mem_append_right _ List.mem_cons_self)
  simpa [InodeTable.moveToPurge, InodeTable.moveToLru, InodeTable.setRef, InodeTable.setInode,
    List.erase_of_not_mem hlru, List.erase_of_not_mem hpurge, List.erase_append_right _ hlru,
    List.erase_of_not_mem hnodup.not_mem_erase, InodeTable.dentryList] using hpruned

end Drop

section Take

theorem claims_take (t : InodeTable) (j : InodeId) : t.claims held (i :: debt) j + t.ref j =
    t.claims held debt j + (t.setRef i (t.ref i + 1)).ref j := by
  rw [claims_cons, t.setRef_ref]
  split_ifs with h
  · rw [h]
    omega
  · omega

variable (hs : TableInv t held todo debt)

include hs

theorem take_ref (hi : i ∈ t.active) (hlow : t.ref i + 1 < 2 ^ 32) :
    TableInv (t.setRef i (t.ref i + 1)) held todo (i :: debt) := by
  have hset := hs.set_ref (t.ref i + 1) t.active t.lru (.refl _)
    (hs.mem_active_setRef hi (Nat.succ_pos _)) hlow (claims_take t)
  rwa [← hs.activeSize, ← hs.lruSize] at hset

/-- The first reference brings an inode back from `lru`. -/
theorem take_from_lru (hi : i ∈ t.lru) (hlow : t.ref i + 1 < 2 ^ 32) :
    TableInv { t.setRef i (t.ref i + 1) with
        active := i :: t.active
        lru := t.lru.erase i
        activeSize := t.activeSize + 1
        lruSize := t.lruSize - 1 } held todo (i :: debt) := by
  have hperm : (i :: t.active ++ (t.lru.erase i ++ t.purge)).Perm t.listed := by
    refine List.perm_iff_count.mpr fun j => ?_
    have hcount := count_erase_add hi j
    rw [← List.singleton_append]
    simp only [InodeTable.listed, List.count_append]
    omega
  have hset := hs.set_ref (t.ref i + 1) (i :: t.active) (t.lru.erase i) hperm (fun j => by
    rw [t.setRef_ref, List.mem_cons, hs.mem_active]
    split_ifs with h
    · exact iff_of_true (.inl h) (Nat.succ_pos _)
    · exact or_iff_right h) hlow (claims_take t)
  rwa [length_erase_of_mem hi, ← hs.lruSize, List.length_cons, Int.natCast_add,
    ← hs.activeSize] at hset

theorem inodeRef (hlive : t.Live i) (hpurge : i ∉ t.purge) (hlow : t.ref i + 1 < 2 ^ 32) :
    TableInv (t.inodeRef i) held todo (i :: debt) := by
  by_cases href : t.ref i = 0
  · have hactive : i ∉ t.active := fun h => by
      have hpos := (hs.mem_active i).mp h
      omega
    have hlru : i ∈ t.lru := by
      have hlisted := (hs.mem_listed i).mpr hlive
      rw [InodeTable.listed, List.mem_append, List.mem_append] at hlisted
      exact (hlisted.resolve_left hactive).resolve_right hpurge
    have heq : t.inodeRef i = { t.setRef i (t.ref i + 1) with
        active := i :: t.active
        lru := t.lru.erase i
        activeSize := t.activeSize + 1
        lruSize := t.lruSize - 1 } := by
      rw [InodeTable.inodeRef, if_pos href]
      change InodeTable.setRef _ i ((t.ref i + 1) % 2 ^ 32) = _
      rw [Nat.mod_eq_of_lt hlow]
      simp only [InodeTable.inodeActivate, List.erase_of_not_mem hactive,
        List.erase_of_not_mem hpurge]
      rfl
    rw [heq]
    exact hs.take_from_lru hlru hlow
  · have heq : t.inodeRef i = t.setRef i (t.ref i + 1) := by
      simp only [InodeTable.inodeRef, href, if_false, Nat.mod_eq_of_lt hlow]
    rw [heq]
    exact hs.take_ref ((hs.mem_active i).mpr (Nat.pos_of_ne_zero href)) hlow

end Take

end TableInv

end GlusterFS.Inodes
