import GlusterFS.Locks.Inodelk

/-!
# The range of a lock

A client asks for `l_len` offsets from `l_start`, and a length of zero reaches to the
end of the file.  Both kinds of lock keep the last offset instead, which is computed in
64 bits from two values that the client chooses.
-/

namespace GlusterFS.Locks

/-- What `pl_lk` and `pl_common_inodelk` do not refuse: two `off_t` values, neither of
them negative. -/
structure GfFlock.Accepted (flock : GfFlock) : Prop where
  start_nonneg : 0 ≤ flock.lStart
  len_nonneg : 0 ≤ flock.lLen
  start_le : flock.lStart ≤ llongMax
  len_le : flock.lLen ≤ llongMax

/-- `fl_end` as both `new_posix_lock` and `new_inode_lock` compute it. -/
def GfFlock.rangeEnd (flock : GfFlock) : Int :=
  if flock.lLen = 0 then llongMax else toOffT (flock.lStart + flock.lLen - 1)

/-- The stored range is in order and has those of the offsets asked for that an `off_t`
can be. -/
structure GfFlock.StoredAs (flock : GfFlock) (flStart flEnd : Int) : Prop where
  start_nonneg : 0 ≤ flStart
  start_le_end : flStart ≤ flEnd
  end_le : flEnd ≤ llongMax
  offsets : ∀ offset, flStart ≤ offset ∧ offset ≤ flEnd ↔
    flock.lStart ≤ offset ∧ (flock.lLen = 0 ∨ offset < flock.lStart + flock.lLen) ∧
      offset ≤ llongMax

/-- The locks made from a flock have its range, and so has the one made from the flock
that `posix_lock_to_flock` gives back. -/
def GfFlock.RangeKept (flock : GfFlock) : Prop :=
  ∀ (transport clientPid fdNum frame : Nat) (owner : LkOwner) (other : GfFlock),
    let lock := newPosixLock flock transport clientPid owner fdNum
    let inodelk := newInodeLock ⟨flock, transport, clientPid, owner⟩ frame
    let again := newPosixLock (posixLockToFlock lock other) transport clientPid owner fdNum
    flock.StoredAs lock.flStart lock.flEnd ∧ flock.StoredAs inodelk.flStart inodelk.flEnd ∧
      again.flStart = lock.flStart ∧ again.flEnd = lock.flEnd

namespace GfFlock

variable {flock : GfFlock}

theorem rangeEnd_of_le (haccepted : flock.Accepted) (hlen : flock.lLen ≠ 0)
    (hsum : flock.lStart + flock.lLen ≤ 2 ^ 63) :
    flock.rangeEnd = flock.lStart + flock.lLen - 1 := by
  have hstart := haccepted.start_nonneg
  have hpos := haccepted.len_nonneg
  rw [rangeEnd, if_neg hlen, toOffT]
  apply Int.bmod_eq_of_le <;> omega

/-- Past them the end wraps round and comes before the start. -/
theorem rangeEnd_lt_of_lt (haccepted : flock.Accepted)
    (hsum : 2 ^ 63 < flock.lStart + flock.lLen) : flock.rangeEnd < flock.lStart := by
  have hpos := haccepted.start_nonneg
  have hstart := haccepted.start_le
  have hlen := haccepted.len_le
  rw [llongMax] at hstart hlen
  have hwrap : toOffT (flock.lStart + flock.lLen - 1) =
      flock.lStart + flock.lLen - 1 - 2 ^ 64 := by
    rw [toOffT, ← Int.sub_bmod_right]
    apply Int.bmod_eq_of_le <;> omega
  rw [rangeEnd, if_neg (by omega), hwrap]
  omega

theorem storedAs_rangeEnd (haccepted : flock.Accepted)
    (hsum : flock.lStart + flock.lLen ≤ 2 ^ 63) :
    flock.StoredAs flock.lStart flock.rangeEnd := by
  have hstart := haccepted.start_le
  have hpos := haccepted.len_nonneg
  by_cases hlen : flock.lLen = 0
  · have hend : flock.rangeEnd = llongMax := if_pos hlen
    rw [hend]
    exact ⟨haccepted.start_nonneg, hstart, Int.le_refl _, fun offset => by simp [hlen]⟩
  · rw [rangeEnd_of_le haccepted hlen hsum]
    rw [llongMax] at hstart
    refine ⟨haccepted.start_nonneg, by omega, by rw [llongMax]; omega, fun offset => ?_⟩
    rw [llongMax]
    omega

end GfFlock

/-- A stored range survives being told to a client and asked for again. -/
theorem newPosixLock_posixLockToFlock {lock : PosixLock} (hstart : 0 ≤ lock.flStart)
    (hle : lock.flStart ≤ lock.flEnd) (hend : lock.flEnd ≤ llongMax) (other : GfFlock)
    (transport clientPid : Nat) (owner : LkOwner) (fdNum : Nat) :
    (newPosixLock (posixLockToFlock lock other) transport clientPid owner fdNum).flEnd =
      lock.flEnd := by
  by_cases hlast : lock.flEnd = llongMax
  · simp [newPosixLock, posixLockToFlock, hlast]
  · have hlen : (posixLockToFlock lock other).lLen = lock.flEnd - lock.flStart + 1 :=
      if_neg hlast
    rw [llongMax] at hend hlast
    have haccepted : (posixLockToFlock lock other).Accepted :=
      ⟨hstart, by rw [hlen]; omega, by simp only [posixLockToFlock, llongMax]; omega,
        by rw [hlen, llongMax]; omega⟩
    have hkept := GfFlock.rangeEnd_of_le haccepted (by rw [hlen]; omega)
      (by simp only [posixLockToFlock]; omega)
    rw [hlen] at hkept
    calc (newPosixLock (posixLockToFlock lock other) transport clientPid owner fdNum).flEnd
        = (posixLockToFlock lock other).rangeEnd := rfl
      _ = lock.flStart + (lock.flEnd - lock.flStart + 1) - 1 := hkept
      _ = lock.flEnd := by omega

/-- A range is stored as it was asked for exactly where it ends within the 63-bit
offsets. -/
theorem lock_range_kept (flock : GfFlock) (haccepted : flock.Accepted) :
    flock.RangeKept ↔ flock.lStart + flock.lLen ≤ 2 ^ 63 := by
  constructor
  · intro hkept
    by_contra hsum
    have hstored : flock.StoredAs flock.lStart flock.rangeEnd :=
      (hkept 0 0 0 0 [] GfFlock.zeroed).1
    exact absurd hstored.start_le_end
      (Int.not_le.mpr (GfFlock.rangeEnd_lt_of_lt haccepted (by omega)))
  · intro hsum transport clientPid fdNum frame owner other
    have hstored := GfFlock.storedAs_rangeEnd haccepted hsum
    exact ⟨hstored, hstored, rfl, newPosixLock_posixLockToFlock hstored.start_nonneg
      hstored.start_le_end hstored.end_le other transport clientPid owner fdNum⟩

/-- All but the first offset. -/
theorem lock_range_kept_tail : GfFlock.RangeKept ⟨.wrlck, 0, 1, llongMax, 0, []⟩ :=
  (lock_range_kept _ ⟨by decide, by decide, by decide, by decide⟩).mpr (by decide)

/-- One offset more and the lock ends before it starts. -/
theorem lock_range_overflows : ¬∀ flock : GfFlock, flock.Accepted → flock.RangeKept := by
  intro hkept
  have hrange := hkept ⟨.wrlck, 0, 2, llongMax, 0, []⟩
    ⟨by decide, by decide, by decide, by decide⟩ 0 0 0 0 [] GfFlock.zeroed
  exact absurd hrange.1.start_le_end (by decide)

end GlusterFS.Locks
