import GlusterFS.Locks.TableSteps

/-!
# Mutual exclusion of fcntl locks

Granted locks of different owners that overlap are read locks.  The invariant
is carried by the offsets the owners hold, so that it survives every way in
which `__insert_and_merge` cuts and joins ranges.
-/

namespace GlusterFS.Locks

open GlusterFS.Transition

/-- Overlapping granted locks of different owners are all read locks. -/
def Exclusive (extList : List PosixLock) : Prop :=
  ∀ first ∈ extList, ∀ second ∈ extList, first.blocked = false → second.blocked = false →
    ¬sameOwner first second → locksOverlap first second →
    first.flType = .rdlck ∧ second.flType = .rdlck
  deriving Decidable

variable {extList : List PosixLock}

theorem exclusive_iff_holds (hwf : WellFormed extList) :
    Exclusive extList ↔ ∀ left right offset leftType rightType, left ≠ right →
      Holds extList left offset leftType → Holds extList right offset rightType →
      leftType = .rdlck ∧ rightType = .rdlck := by
  constructor
  · rintro h left right offset leftType rightType hne
      ⟨first, hfirst, hfg, rfl, hfc, rfl⟩ ⟨second, hsecond, hsg, rfl, hsc, rfl⟩
    exact h first hfirst second hsecond hfg hsg (fun hsame => hne (sameOwner_iff_key.mp hsame))
      (locksOverlap_of_covers hfc hsc)
  · intro h first hfirst second hsecond hfg hsg howner hoverlap
    obtain ⟨offset, hfc, hsc⟩ := (locksOverlap_iff_exists
      (hwf.valid first hfirst) (hwf.valid second hsecond)).mp hoverlap
    exact h first.key second.key offset first.flType second.flType
      (fun hkey => howner (sameOwner_iff_key.mpr hkey))
      ⟨first, hfirst, hfg, rfl, hfc, rfl⟩ ⟨second, hsecond, hsg, rfl, hsc, rfl⟩

theorem isLockGrantable_iff_holds (hwf : WellFormed extList) {lock : PosixLock}
    (hvalid : lock.flStart ≤ lock.flEnd) (htype : lock.flType ≠ .unlck) :
    isLockGrantable extList lock ↔ ∀ other offset type, other ≠ lock.key →
      lock.covers offset → Holds extList other offset type →
      type ≠ .wrlck ∧ lock.flType ≠ .wrlck := by
  constructor
  · rintro hgrant other offset type hne hcovers ⟨l, hl, hlg, rfl, hlc, rfl⟩
    have h := hgrant l hl
    simp only [refuses, sameOwner_iff_key, hlg,
      locksOverlap_of_covers hcovers hlc, hne, htype, ne_eq, not_false_eq_true,
      and_true, true_and, and_self, not_or] at h
    exact h
  · rintro h l hl ⟨⟨hlg, hoverlap⟩, hconflict, -, howner⟩
    obtain ⟨offset, hc, hlc⟩ :=
      (locksOverlap_iff_exists hvalid (hwf.valid l hl)).mp hoverlap
    obtain ⟨h1, h2⟩ := h l.key offset l.flType (fun hkey => howner (sameOwner_iff_key.mpr hkey)) hc
      ⟨l, hl, hlg, rfl, hlc, rfl⟩
    exact hconflict.elim h1 h2

theorem insertAndMerge_exclusive {lock : PosixLock} (hwf : WellFormed extList)
    (hexcl : Exclusive extList) (hlock : Admissible lock) (hgrant : isLockGrantable extList lock) :
    Exclusive (insertAndMerge extList lock) := by
  have hmerge := insertAndMerge_merges hwf hlock.granted hlock.valid
  rw [exclusive_iff_holds hwf] at hexcl
  -- what the owner of `lock` holds afterwards is compatible with the others
  have hown : ∀ other offset ownType otherType, other ≠ lock.key →
      Holds (insertAndMerge extList lock) lock.key offset ownType →
      Holds (insertAndMerge extList lock) other offset otherType →
      ownType = .rdlck ∧ otherType = .rdlck := by
    intro other offset ownType otherType hne hheld hother
    have hunlck := hheld.type_ne_unlck hmerge.wellFormed
    rw [hmerge.holds_foreign hne] at hother
    have hotherUnlck := hother.type_ne_unlck hwf
    rcases hmerge.sound offset ownType hheld with hold | ⟨piece, hpiece, hcovers, rfl⟩
    · exact hexcl _ _ _ _ _ hne.symm hold hother
    · obtain rfl := List.mem_singleton.mp hpiece
      have h := (isLockGrantable_iff_holds hwf hlock.valid hunlck).mp hgrant
        other offset otherType hne hcovers hother
      revert hunlck hotherUnlck h
      cases piece.flType <;> cases otherType <;> simp
  rw [exclusive_iff_holds hmerge.wellFormed]
  intro left right offset leftType rightType hne hleft hright
  by_cases hl : left = lock.key
  · subst hl
    exact hown right offset leftType rightType hne.symm hleft hright
  by_cases hr : right = lock.key
  · subst hr
    exact (hown left offset rightType leftType hne hright hleft).symm
  rw [hmerge.holds_foreign hl] at hleft
  rw [hmerge.holds_foreign hr] at hright
  exact hexcl _ _ _ _ _ hne hleft hright

/-- Exclusion only speaks of granted locks, so it passes to any table whose
granted locks were all there before. -/
theorem Exclusive.of_granted_subset {before after : List PosixLock} (hexcl : Exclusive before)
    (hsub : ∀ l ∈ after, l.blocked = false → l ∈ before) : Exclusive after := by
  intro first hfirst second hsecond hfg hsg
  exact hexcl first (hsub first hfirst hfg) second (hsub second hsecond hsg) hfg hsg

theorem TableStep.exclusive {before after : PlInode}
    (hstep : TableStep before after) (hwf : WellFormed before.extList)
    (hexcl : Exclusive before.extList) : Exclusive after.extList := by
  cases hstep with
  | merge hlock hgrant => exact insertAndMerge_exclusive hwf hexcl hlock hgrant
  | block hblocked _ _ =>
    refine hexcl.of_granted_subset fun l hl hgranted => ?_
    rcases List.mem_append.mp hl with hl | hl
    · exact hl
    · obtain rfl := List.mem_singleton.mp hl
      simp [hblocked] at hgranted
  | drop keep =>
    exact hexcl.of_granted_subset fun l hl _ => List.mem_of_mem_filter hl
  | answer => exact hexcl

/-- What every table that the operations produce satisfies. -/
structure TableInv (inode : PlInode) : Prop where
  wellFormed : WellFormed inode.extList
  exclusive : Exclusive inode.extList

theorem TableInv.steps {before after : PlInode} (hinv : TableInv before)
    (hsteps : TableSteps before after) : TableInv after := by
  induction hsteps with
  | refl => exact hinv
  | tail _ hstep ih =>
    exact ⟨hstep.wellFormed ih.wellFormed, hstep.exclusive ih.wellFormed ih.exclusive⟩

theorem tableInv_fresh : TableInv PlInode.fresh :=
  ⟨⟨by simp [PlInode.fresh], by simp [PlInode.fresh]⟩, by simp [Exclusive, PlInode.fresh]⟩

theorem tableInv_of_reachableUnder {guard : PlInode → PlRequest → Prop}
    {inode : PlInode} (hreach : ReachableUnder plStep guard PlInode.fresh inode) :
    TableInv inode :=
  hreach.invariant tableInv_fresh fun _ _ _ hinv _ hstep =>
    hinv.steps (plStep_steps hinv.wellFormed hstep)

/-- In every table reached by lock requests, flushes and closes, overlapping
granted locks of different owners are read locks. -/
theorem granted_locks_exclusive {inode : PlInode} (hreach : Reachable plStep PlInode.fresh inode) :
    Exclusive inode.extList :=
  (tableInv_of_reachableUnder hreach).exclusive

/-- A request for `len` offsets from `start` on behalf of owner `owner`. -/
def lkArgs (type : LockType) (start len : UInt8) (owner : Nat) : LkArgs where
  flock := ⟨type, 0, start.toNat, len.toNat, 0, [UInt8.ofNat owner]⟩
  transport := 1
  clientPid := owner
  owner := [UInt8.ofNat owner]
  fdNum := owner
  frame := owner
  start_nonneg := by simp
  len_nonneg := by simp
  in_range := by
    have hstart := start.toNat_lt
    have hlen := len.toNat_lt
    constructor <;> simp only <;> omega

/-- Two readers of overlapping ranges and a writer that has to wait. -/
def readersAndWriter : List PlRequest :=
  [.setlk (lkArgs .rdlck 0 10 1) true, .setlk (lkArgs .rdlck 5 10 2) false,
    .setlk (lkArgs .wrlck 7 2 3) true]

theorem granted_locks_exclusive_readersAndWriter :
    ∃ inode, run plStep PlInode.fresh readersAndWriter = some inode ∧
      inode.extList.length = 3 ∧ Exclusive inode.extList := by
  refine ⟨_, rfl, by decide, ?_⟩
  exact granted_locks_exclusive (.of_run readersAndWriter .start rfl)

end GlusterFS.Locks
