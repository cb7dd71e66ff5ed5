import GlusterFS.Inodes.References

/-!
# Dropping dentries and references

`__dentry_unset` drops a reference on the parent, which may retire the parent and
so drop the dentries of the parent.  Every turn takes one dentry away, and what is
left to do stays accounted for.
-/

namespace GlusterFS.Inodes

variable {t t' t'' : InodeTable} {held : InodeId → Nat} {todo : List Dentry}
variable {debt : List InodeId} {i : InodeId} {dentry : Dentry}
variable {drop : InodeTable → Dentry → InodeTable} {bound : Nat}

/-- What dropping references never raises, and what it never touches. -/
structure Shrinks (t t' : InodeTable) : Prop where
  dentries : t'.dentries.length ≤ t.dentries.length
  inUse : t'.active.length + t'.lru.length ≤ t.active.length + t.lru.length
  ref_le : ∀ i, t'.ref i ≤ t.ref i
  root_ref : t'.ref root = t.ref root
  lruLimit : t'.lruLimit = t.lruLimit

theorem Shrinks.refl (t : InodeTable) : Shrinks t t :=
  ⟨Nat.le_refl _, Nat.le_refl _, fun _ => Nat.le_refl _, rfl, rfl⟩

theorem Shrinks.trans (h : Shrinks t t') (h' : Shrinks t' t'') : Shrinks t t'' where
  dentries := Nat.le_trans h'.dentries h.dentries
  inUse := Nat.le_trans h'.inUse h.inUse
  ref_le i := Nat.le_trans (h'.ref_le i) (h.ref_le i)
  root_ref := h'.root_ref.trans h.root_ref
  lruLimit := h'.lruLimit.trans h.lruLimit

theorem Shrinks.setRef {ref : Nat} (hroot : i ≠ root) (href : t.ref i = ref + 1) :
    Shrinks t (t.setRef i ref) where
  dentries := Nat.le_refl _
  inUse := Nat.le_refl _
  ref_le j := by
    by_cases h : j = i
    · subst h
      rw [t.setRef_ref_self, href]
      omega
    · exact Nat.le_of_eq (t.setRef_ref_of_ne h ref)
  root_ref := t.setRef_ref_of_ne (Ne.symm hroot) ref
  lruLimit := rfl

theorem Shrinks.erase (t : InodeTable) (dentry : Dentry) :
    Shrinks t { t with dentries := t.dentries.erase dentry } :=
  ⟨List.length_erase_le, Nat.le_refl _, fun _ => Nat.le_refl _, rfl, rfl⟩

/-- A way to unset a dentry is right on tables with at most `bound` dentries. -/
def UnsetOk (drop : InodeTable → Dentry → InodeTable) (bound : Nat) : Prop :=
  ∀ {t : InodeTable} {held : InodeId → Nat} {todo : List Dentry} {debt : List InodeId}
    {dentry : Dentry}, TableInv t held todo debt → dentry ∈ t.dentries →
    t.dentries.length ≤ bound →
    TableInv (drop t dentry) held (todo.erase dentry) debt ∧ Shrinks t (drop t dentry)

theorem UnsetOk.foldl (hdrop : UnsetOk drop bound) (dentries : List Dentry)
    (hs : TableInv t held (dentries ++ todo) debt) (hbound : t.dentries.length ≤ bound) :
    TableInv (dentries.foldl drop t) held todo debt ∧ Shrinks t (dentries.foldl drop t) := by
  induction dentries generalizing t with
  | nil => exact ⟨hs, .refl t⟩
  | cons dentry dentries ih =>
    have hmem : dentry ∈ t.dentries :=
      (List.mem_filter.mp (hs.todo.mem_iff.mpr List.mem_cons_self)).1
    obtain ⟨hnext, hshrinks⟩ := hdrop hs hmem hbound
    rw [List.cons_append, List.erase_cons_head] at hnext
    obtain ⟨hrest, hshrinks'⟩ := ih hnext (Nat.le_trans hshrinks.dentries hbound)
    exact ⟨hrest, hshrinks.trans hshrinks'⟩

theorem foldl_hashed (drop : InodeTable → Dentry → InodeTable) (t : InodeTable)
    {dentries : List Dentry} (hhashed : ∀ dentry ∈ dentries, dentry.hashed = true) :
    dentries.foldl (fun t dentry => if dentry.hashed then t else drop t dentry) t = t := by
  induction dentries with
  | nil => rfl
  | cons dentry dentries ih =>
    rw [List.foldl_cons, if_pos (hhashed dentry List.mem_cons_self)]
    exact ih fun other hother => hhashed other (List.mem_cons_of_mem _ hother)

/-- Dropping references on the root does nothing. -/
theorem TableInv.drop_root (hs : TableInv t held todo (root :: debt)) :
    TableInv t held todo debt :=
  { hs with
    refs := fun j hj => by
      have hrefs := hs.refs j hj
      rwa [TableInv.claims_cons, if_neg hj] at hrefs
    rootRef := by
      have hrootRef := hs.rootRef
      rw [TableInv.claims_cons] at hrootRef
      omega }

/-- All the dentries are hashed and stay when their inode comes to `lru`. -/
theorem inodePassivate_eq (drop : InodeTable → Dentry → InodeTable)
    (hhashed : ∀ dentry ∈ t.dentries, dentry.hashed = true) (i : InodeId) :
    t.inodePassivate drop i = t.moveToLru i :=
  foldl_hashed drop _ fun dentry hdentry => hhashed dentry (List.mem_filter.mp hdentry).1

/-- `__inode_unref` drops what it should drop, given that unsetting does. -/
theorem UnsetOk.inodeUnref (hdrop : UnsetOk drop bound) (hs : TableInv t held todo (i :: debt))
    (hbound : t.dentries.length ≤ bound) :
    TableInv (t.inodeUnref drop i) held todo debt ∧ Shrinks t (t.inodeUnref drop i) := by
  rw [InodeTable.inodeUnref]
  by_cases hroot : i = root
  · subst hroot
    rw [if_pos ((hs.gfid root).mpr rfl)]
    exact ⟨hs.drop_root, .refl t⟩
  rw [if_neg fun h => hroot ((hs.gfid i).mp h)]
  obtain ⟨ref, href⟩ : ∃ ref, t.ref i = ref + 1 :=
    Nat.exists_eq_succ_of_ne_zero (Nat.ne_of_gt ((hs.mem_active i).mp hs.mem_active_of_debt))
  have hdecrement : (t.ref i + (2 ^ 32 - 1)) % 2 ^ 32 = ref := by
    have hlt := hs.ref_lt i
    omega
  have hset := Shrinks.setRef hroot href
  simp only [hdecrement, t.setRef_ref_self]
  split_ifs with hzero hlookup
  · subst hzero
    rw [inodePassivate_eq]
    swap
    · exact hs.hashed
    refine ⟨hs.drop_to_lru href, hset.trans ?_⟩
    refine ⟨Nat.le_refl _, ?_, fun _ => Nat.le_refl _, rfl, rfl⟩
    have hi := hs.mem_active_of_debt
    have hpos := List.length_pos_of_mem hi
    have hlru := List.length_erase_of_mem hi
    have hle := List.length_erase_le (l := t.lru) (a := i)
    simp only [InodeTable.moveToLru, InodeTable.setRef, InodeTable.setInode, List.length_append,
      List.length_singleton]
    omega
  · subst hzero
    obtain ⟨hretired, hshrinks⟩ := hdrop.foldl (t.dentryList i) (hs.drop_to_purge hroot href) hbound
    refine ⟨hretired, (hset.trans ?_).trans hshrinks⟩
    refine ⟨Nat.le_refl _, ?_, fun _ => Nat.le_refl _, rfl, rfl⟩
    exact Nat.add_le_add List.length_erase_le List.length_erase_le
  · exact ⟨hs.drop_ref href (Nat.pos_of_ne_zero hzero), hset⟩

/-- As much fuel as there are dentries is enough. -/
theorem unsetOk_dentryUnset (fuel : Nat) : UnsetOk (InodeTable.dentryUnset fuel) fuel := by
  induction fuel with
  | zero =>
    intro t held todo debt dentry hs hdentry hbound
    have hpos := List.length_pos_of_mem hdentry
    omega
  | succ fuel ih =>
    intro t held todo debt dentry hs hdentry hbound
    have hpos := List.length_pos_of_mem hdentry
    have hlength := List.length_erase_of_mem hdentry
    obtain ⟨hnext, hshrinks⟩ := ih.inodeUnref (hs.erase_dentry hdentry)
      (show (t.dentries.erase dentry).length ≤ fuel by omega)
    exact ⟨hnext, (Shrinks.erase t dentry).trans hshrinks⟩

theorem TableInv.unset (hs : TableInv t held todo debt) (hdentry : dentry ∈ t.dentries) :
    TableInv (t.unset dentry) held (todo.erase dentry) debt ∧ Shrinks t (t.unset dentry) :=
  unsetOk_dentryUnset _ hs hdentry (Nat.le_refl _)

theorem TableInv.unref (hs : TableInv t held todo (i :: debt)) :
    TableInv (t.unref i) held todo debt ∧ Shrinks t (t.unref i) :=
  UnsetOk.inodeUnref (unsetOk_dentryUnset _) hs (Nat.le_refl _)

theorem TableInv.retire (hs : TableInv t held todo debt) (hroot : i ≠ root) (hi : i ∈ t.lru)
    (hretire : t' = InodeTable.retire { t with lruSize := t.lruSize - 1 } i) :
    TableInv t' held todo debt ∧ Shrinks t t' ∧
      t'.active.length + t'.lru.length < t.active.length + t.lru.length := by
  subst hretire
  obtain ⟨hretired, hshrinks⟩ := UnsetOk.foldl (unsetOk_dentryUnset _) (t.dentryList i)
    (hs.prune_to_purge hroot hi) (Nat.le_refl _)
  have hmoved : Shrinks t (InodeTable.moveToPurge { t with lruSize := t.lruSize - 1 } i) :=
    ⟨Nat.le_refl _, Nat.add_le_add List.length_erase_le List.length_erase_le,
      fun _ => Nat.le_refl _, rfl, rfl⟩
  refine ⟨hretired, hmoved.trans hshrinks, Nat.lt_of_le_of_lt hshrinks.inUse ?_⟩
  have hpos := List.length_pos_of_mem hi
  have hlru := List.length_erase_of_mem hi
  have hactive := List.length_erase_le (l := t.active) (a := i)
  simp only [InodeTable.moveToPurge]
  omega

theorem inodeUnref_of_lt (drop : InodeTable → Dentry → InodeTable)
    (hroot : (t.inode i).gfid ≠ rootGfid) (hlt : t.ref i < 2 ^ 32) (href : 1 < t.ref i) :
    t.inodeUnref drop i = t.setRef i (t.ref i - 1) := by
  have hdecrement : (t.ref i + (2 ^ 32 - 1)) % 2 ^ 32 = t.ref i - 1 := by omega
  rw [InodeTable.inodeUnref, if_neg hroot]
  simp only [hdecrement, t.setRef_ref_self]
  rw [if_neg (by omega)]

/-- Where the caller has a reference on the parent, nothing is retired. -/
theorem TableInv.unset_held (hs : TableInv t held todo debt) (hdentry : dentry ∈ t.dentries)
    (hheld : 0 < held dentry.parent) : ∃ ref, t.unset dentry =
      InodeTable.setRef { t with dentries := t.dentries.erase dentry } dentry.parent ref := by
  obtain ⟨rest, hrest⟩ : ∃ rest, t.dentries.length = rest + 1 :=
    Nat.exists_eq_succ_of_ne_zero (Nat.ne_of_gt (List.length_pos_of_mem hdentry))
  rw [InodeTable.unset, hrest, InodeTable.dentryUnset]
  by_cases hroot : dentry.parent = root
  · refine ⟨t.ref dentry.parent, ?_⟩
    rw [InodeTable.inodeUnref, if_pos ((hs.gfid dentry.parent).mpr hroot), InodeTable.setRef,
      InodeTable.setInode]
    congr 1
    exact (Function.update_eq_self ..).symm
  · have hparents : 0 < t.parents dentry.parent :=
      List.countP_pos_iff.mpr ⟨dentry, hdentry, by simp⟩
    have hrefs := hs.refs dentry.parent hroot
    rw [InodeTable.claims] at hrefs
    exact ⟨_, inodeUnref_of_lt (t := { t with dentries := t.dentries.erase dentry })
      (InodeTable.dentryUnset rest) (fun h => hroot ((hs.gfid dentry.parent).mp h))
      (hs.ref_lt dentry.parent) (show 1 < t.ref dentry.parent by omega)⟩

theorem TableInv.unset_held_stays (hs : TableInv t held todo debt) (hdentry : dentry ∈ t.dentries)
    (hheld : 0 < held dentry.parent) :
    (t.unset dentry).purge = t.purge ∧ ∀ j, (t.unset dentry).Live j ↔ t.Live j := by
  obtain ⟨ref, hunset⟩ := hs.unset_held hdentry hheld
  rw [hunset]
  exact ⟨rfl, fun _ => Iff.rfl⟩

end GlusterFS.Inodes
