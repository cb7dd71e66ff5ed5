import GlusterFS.Fds.FdTable
import Mathlib.Data.List.Range

/-!
# The free list of the fd table

Every index is allocated or on the free list once, as long as memory can be had,
the bytes of the table can be counted in 32 bits, and the entries are handed out
all at once only when the first of them is the first free one.
`gf_fd_fdtable_get_all_fds` frees all the entries and does not set `first_free`.
-/

namespace GlusterFS.Fds

open Transition ThreadedList

variable {t t' : FdTable} {entries : Nat → FdEntry} {free : List Nat}

/-! ## Chains of entries -/

theorem setNextFree_apply (entries : Nat → FdEntry) (i j : Nat) (nextFree : Int) :
    setNextFree entries i nextFree j =
      if j = i then { entries j with nextFree := nextFree } else entries j := by
  rw [setNextFree, Function.update_apply]
  split_ifs with h
  · rw [h]
  · rfl

theorem foldl_setNextFree (entries : Nat → FdEntry) (startidx length j : Nat) :
    (List.range' startidx length).foldl (fun entries i => setNextFree entries i (i + 1)) entries j =
      if startidx ≤ j ∧ j < startidx + length then { entries j with nextFree := j + 1 }
      else entries j := by
  induction length generalizing entries startidx with
  | zero => rw [if_neg (by omega)]; rfl
  | succ length ih =>
    rw [List.range'_succ, List.foldl_cons, ih, setNextFree_apply]
    by_cases hj : j = startidx
    · rw [if_neg (by omega), if_pos hj, if_pos (by omega), hj]
    · rw [if_neg hj]
      by_cases hin : startidx + 1 ≤ j ∧ j < startidx + 1 + length
      · rw [if_pos hin, if_pos (by omega)]
      · rw [if_neg hin, if_neg (by omega)]

theorem chainFdEntries_apply (entries : Nat → FdEntry) {startidx endcount : Nat}
    (hlt : startidx < endcount) (j : Nat) :
    chainFdEntries entries startidx endcount j = if startidx ≤ j ∧ j < endcount then
        { entries j with nextFree := if j + 1 = endcount then fdtableEnd else j + 1 }
      else entries j := by
  rw [chainFdEntries, setNextFree_apply, foldl_setNextFree, Nat.max_eq_right (by omega)]
  by_cases hlast : j = endcount - 1
  · rw [if_pos hlast, if_neg (by omega), if_pos (by omega), if_pos (by omega)]
  · rw [if_neg hlast]
    by_cases hin : startidx ≤ j ∧ j < endcount
    · rw [if_pos (by omega), if_pos hin, if_neg (by omega)]
    · rw [if_neg (by omega), if_neg hin]

/-- The chain runs through the entries it is made of. -/
theorem threads_chain (entries : Nat → FdEntry) {startidx endcount : Nat}
    (hlt : startidx < endcount) :
    Threads (fun i => (chainFdEntries entries startidx endcount i).nextFree) fdtableEnd startidx
      (List.range' startidx (endcount - startidx)) := by
  obtain ⟨length, rfl⟩ : ∃ length, endcount = startidx + (length + 1) :=
    ⟨endcount - startidx - 1, by omega⟩
  rw [Nat.add_sub_cancel_left]
  refine threads_range startidx length (fun cell hle hcell => ?_) ?_
  · simp only [chainFdEntries_apply entries hlt]
    rw [if_pos (by omega), if_neg (by omega)]
  · simp only [chainFdEntries_apply entries hlt]
    rw [if_pos (by omega), if_pos (by omega)]

/-! ## The size of the table -/

theorem lt_roundupNextPowerOfTwo {nr fuel result : Nat} (h : nr < result * 2 ^ fuel) :
    nr < roundupNextPowerOfTwo nr fuel result := by
  induction fuel generalizing result with
  | zero =>
    rw [Nat.pow_zero, Nat.mul_one] at h
    exact h
  | succ fuel ih =>
    rw [roundupNextPowerOfTwo]
    split_ifs with hle
    · refine ih ?_
      rwa [Nat.mul_assoc, ← Nat.pow_succ']
    · omega

theorem roundupNextPowerOfTwo_le (nr fuel result : Nat) :
    roundupNextPowerOfTwo nr fuel result ≤ max result (2 * nr) := by
  induction fuel generalizing result with
  | zero => exact Nat.le_max_left ..
  | succ fuel ih =>
    rw [roundupNextPowerOfTwo]
    split_ifs with hle
    · have hnext := ih (result * 2)
      omega
    · exact Nat.le_max_left ..

theorem lt_expandedMax {nr : Nat} (h : nr < 2 ^ 28) : nr < FdTable.expandedMax (nr + 1) := by
  have hlt : (nr + 1) / 64 + 1 < roundupNextPowerOfTwo ((nr + 1) / 64 + 1) 32 1 :=
    lt_roundupNextPowerOfTwo (by omega)
  have hle := roundupNextPowerOfTwo_le ((nr + 1) / 64 + 1) 32 1
  change nr < roundupNextPowerOfTwo ((nr + 1) / 64 + 1) 32 1 * 64 % 2 ^ 32
  omega

/-! ## The invariant -/

/-- The fd that an index stands for. -/
def FdTable.holds (t : FdTable) (i : Nat) : Option Fd :=
  t.fdentries.bind fun entries =>
    if i < t.maxFds ∧ (entries i).nextFree = fdentryAllocated then (entries i).fd else none

/-- Every index is allocated or on the free list once. -/
def FdTable.Intact (t : FdTable) : Prop :=
  ∃ entries free, t.fdentries = some entries ∧
    Threads (fun i => (entries i).nextFree) fdtableEnd t.firstFree free ∧
    (∀ i ∈ free, i < t.maxFds) ∧ ∀ i < t.maxFds,
      (entries i).nextFree = fdentryAllocated ∧ (entries i).fd.isSome ∧ i ∉ free ∨
      (entries i).nextFree ≠ fdentryAllocated ∧ free.count i = 1

/-- What the table has to do with its free list. -/
structure FreeListOk (t : FdTable) (entries : Nat → FdEntry) (free : List Nat) : Prop where
  fdentries : t.fdentries = some entries
  threads : Threads (fun i => (entries i).nextFree) fdtableEnd t.firstFree free
  nodup : free.Nodup
  mem_free : ∀ i, i ∈ free ↔ i < t.maxFds ∧ (entries i).nextFree ≠ fdentryAllocated
  fd_isSome : ∀ i, i < t.maxFds → ((entries i).fd.isSome ↔ (entries i).nextFree = fdentryAllocated)
  pos : 0 < t.maxFds

theorem chain_ne_allocated (entries : Nat → FdEntry) {startidx endcount j : Nat}
    (hle : startidx ≤ j) (hlt : j < endcount) :
    (chainFdEntries entries startidx endcount j).nextFree ≠ fdentryAllocated := by
  rw [chainFdEntries_apply entries (by omega), if_pos ⟨hle, hlt⟩]
  simp only [fdtableEnd, fdentryAllocated]
  split_ifs <;> omega

theorem mem_range'_iff {start stop i : Nat} :
    i ∈ List.range' start (stop - start) ↔ start ≤ i ∧ i < stop := by
  rw [List.mem_range'_1]
  omega

theorem freeListOk_chain {maxFds : Nat} (hpos : 0 < maxFds) :
    FreeListOk ⟨maxFds, some (chainFdEntries zeroEntries 0 maxFds), 0⟩
      (chainFdEntries zeroEntries 0 maxFds) (List.range' 0 maxFds) where
  fdentries := rfl
  threads := threads_chain zeroEntries hpos
  nodup := List.nodup_range'
  mem_free i := by
    rw [List.mem_range'_1, Nat.zero_add]
    exact ⟨fun hi => ⟨hi.2, chain_ne_allocated zeroEntries hi.1 hi.2⟩,
      fun hi => ⟨Nat.zero_le _, hi.1⟩⟩
  fd_isSome i hi := by
    refine iff_of_false ?_ (chain_ne_allocated zeroEntries (Nat.zero_le _) hi)
    rw [chainFdEntries_apply zeroEntries hpos, if_pos ⟨Nat.zero_le _, hi⟩]
    exact Bool.false_ne_true
  pos := hpos

theorem copyEntries_apply (entries : Nat → FdEntry) {maxFds : Nat} (hsmall : maxFds < 2 ^ 28)
    (i : Nat) : FdTable.copyEntries entries maxFds i =
      if i < maxFds then entries i else zeroEntries i := by
  rw [FdTable.copyEntries, fdentrySize, Nat.mod_eq_of_lt (by omega)]
  refine if_congr ?_ rfl rfl
  omega

section Steps

variable (h : FreeListOk t entries free)

include h

theorem FreeListOk.expand (hfree : free = []) (hsmall : t.maxFds < 2 ^ 28) :
    ∃ entries', t.gfFdFdtableExpand true (t.maxFds + 1) =
        (true, ⟨FdTable.expandedMax (t.maxFds + 1), some entries', t.maxFds⟩) ∧
      FreeListOk ⟨FdTable.expandedMax (t.maxFds + 1), some entries', t.maxFds⟩ entries'
        (List.range' t.maxFds (FdTable.expandedMax (t.maxFds + 1) - t.maxFds)) ∧
      ∀ i < t.maxFds, entries' i = entries i := by
  subst hfree
  have hlt := lt_expandedMax hsmall
  have hcopied := copyEntries_apply entries hsmall
  have hall : ∀ i < t.maxFds, (entries i).nextFree = fdentryAllocated := fun i hi => by
    by_contra hne
    exact absurd ((h.mem_free i).mpr ⟨hi, hne⟩) List.not_mem_nil
  generalize hmax : FdTable.expandedMax (t.maxFds + 1) = maxFds at hlt
  refine ⟨chainFdEntries (FdTable.copyEntries entries t.maxFds) t.maxFds maxFds, ?_, ?_, ?_⟩
  · rw [FdTable.gfFdFdtableExpand, if_pos rfl, h.fdentries, hmax]
  · have hold : ∀ i < t.maxFds, chainFdEntries (FdTable.copyEntries entries t.maxFds) t.maxFds
        maxFds i = entries i := fun i hi => by
      rw [chainFdEntries_apply _ hlt, if_neg (by omega), hcopied, if_pos hi]
    refine ⟨rfl, threads_chain _ hlt, List.nodup_range', fun i => ?_, fun i hi => ?_, ?_⟩
    · rw [mem_range'_iff]
      refine ⟨fun hi => ⟨hi.2, chain_ne_allocated _ hi.1 hi.2⟩, fun hi => ⟨?_, hi.1⟩⟩
      by_contra hlow
      rw [hold i (by omega)] at hi
      exact hi.2 (hall i (by omega))
    · by_cases hlow : i < t.maxFds
      · rw [hold i hlow]
        exact h.fd_isSome i hlow
      · refine iff_of_false ?_ (chain_ne_allocated _ (by omega) hi)
        rw [chainFdEntries_apply _ hlt, if_pos ⟨by omega, hi⟩, hcopied, if_neg hlow]
        exact Bool.false_ne_true
    · exact Nat.lt_of_le_of_lt (Nat.zero_le _) hlt
  · intro i hi
    rw [chainFdEntries_apply _ hlt, if_neg (by omega), hcopied, if_pos hi]

theorem FreeListOk.pop (memory : Bool) (fdptr : Fd) (attempts : Nat)
    (hfirst : t.firstFree ≠ fdtableEnd) :
    ∃ fd rest, free = fd :: rest ∧ FdTable.gfFdUnusedGet memory fdptr attempts t = some ((fd : Int),
        { t with
          fdentries := some (Function.update entries fd ⟨some fdptr, fdentryAllocated⟩)
          firstFree := (entries fd).nextFree }) ∧
      FreeListOk { t with
          fdentries := some (Function.update entries fd ⟨some fdptr, fdentryAllocated⟩)
          firstFree := (entries fd).nextFree }
        (Function.update entries fd ⟨some fdptr, fdentryAllocated⟩) rest := by
  obtain ⟨fd, rest, rfl, hfd, hrest⟩ := h.threads.exists_cons hfirst
  obtain ⟨hnot, hnodup⟩ := List.nodup_cons.mp h.nodup
  have hother : ∀ i, i ≠ fd →
      Function.update entries fd ⟨some fdptr, fdentryAllocated⟩ i = entries i := fun i hi =>
    Function.update_of_ne hi ..
  refine ⟨fd, rest, rfl, ?_, rfl, ?_, hnodup, fun i => ?_, fun i hi => ?_, h.pos⟩
  · unfold FdTable.gfFdUnusedGet
    rw [if_pos hfirst, h.fdentries, hfd]
    rfl
  · refine hrest.of_eq fun cell hcell => ?_
    rw [hother cell fun heq => hnot (heq ▸ hcell)]
  · have hmem := h.mem_free i
    by_cases hi : i = fd
    · subst hi
      simp [hnot]
    · rw [hother i hi, ← hmem, List.mem_cons, or_iff_right hi]
  · by_cases hifd : i = fd
    · subst hifd
      simp
    · rw [hother i hifd]
      exact h.fd_isSome i hi

theorem FreeListOk.firstFree_ne : t.firstFree ≠ fdentryAllocated := by
  have hthreads := h.threads
  cases free with
  | nil => exact hthreads.trans_ne (by decide)
  | cons cell rest =>
    rw [hthreads.1, fdentryAllocated]
    omega

theorem FreeListOk.putEntry {fd : Nat} (hfd : fd < t.maxFds) :
    ∃ entries' free', FreeListOk (t.putEntry entries fd) entries' free' := by
  rw [FdTable.putEntry]
  split_ifs with hallocated
  · exact ⟨entries, free, h⟩
  rw [not_not] at hallocated
  have hnot : fd ∉ free := fun hmem => ((h.mem_free fd).mp hmem).2 hallocated
  have hother : ∀ i, i ≠ fd → Function.update entries fd ⟨none, t.firstFree⟩ i = entries i :=
    fun i hi => Function.update_of_ne hi ..
  refine ⟨_, fd :: free, rfl, ⟨rfl, ?_⟩, List.nodup_cons.mpr ⟨hnot, h.nodup⟩, fun i => ?_,
    fun i hi => ?_, h.pos⟩
  · simp only [Function.update_self]
    refine h.threads.of_eq fun cell hcell => ?_
    rw [hother cell fun heq => hnot (heq ▸ hcell)]
  · rw [List.mem_cons, h.mem_free i]
    by_cases hi : i = fd
    · subst hi
      simp [hfd, h.firstFree_ne]
    · rw [hother i hi, or_iff_right hi]
  · by_cases hifd : i = fd
    · subst hifd
      simp [h.firstFree_ne]
    · rw [hother i hifd]
      exact h.fd_isSome i hi

theorem FreeListOk.intact : t.Intact := by
  refine ⟨entries, free, h.fdentries, h.threads, fun i hi => ((h.mem_free i).mp hi).1, ?_⟩
  intro i hi
  by_cases hallocated : (entries i).nextFree = fdentryAllocated
  · refine .inl ⟨hallocated, (h.fd_isSome i hi).mpr hallocated, fun hmem => ?_⟩
    exact ((h.mem_free i).mp hmem).2 hallocated
  · refine .inr ⟨hallocated, List.count_eq_one_of_mem h.nodup ?_⟩
    exact (h.mem_free i).mpr ⟨hi, hallocated⟩

theorem FreeListOk.holds_eq (i : Nat) :
    t.holds i = if i < t.maxFds then (entries i).fd else none := by
  rw [FdTable.holds, h.fdentries, Option.bind_some]
  by_cases hi : i < t.maxFds
  · rw [if_pos hi]
    by_cases hallocated : (entries i).nextFree = fdentryAllocated
    · rw [if_pos ⟨hi, hallocated⟩]
    · rw [if_neg fun h => hallocated h.2]
      have hnone := mt (h.fd_isSome i hi).mp hallocated
      exact (Option.not_isSome_iff_eq_none.mp hnone).symm
  · rw [if_neg hi, if_neg fun h => hi h.1]

/-- The index that is given out held nothing, and holds the fd afterwards. -/
theorem FreeListOk.pop_holds (memory : Bool) (fdptr : Fd) (attempts : Nat)
    (hfirst : t.firstFree ≠ fdtableEnd) : ∃ (fd : Nat) (t' : FdTable) (entries' : _) (free' : _),
      FdTable.gfFdUnusedGet memory fdptr attempts t = some ((fd : Int), t') ∧
      FreeListOk t' entries' free' ∧ fd < t'.maxFds ∧ t.holds fd = none ∧
      t'.holds = Function.update t.holds fd (some fdptr) := by
  obtain ⟨fd, rest, rfl, hget, hpop⟩ := h.pop memory fdptr attempts hfirst
  obtain ⟨hfd, hallocated⟩ := (h.mem_free fd).mp List.mem_cons_self
  refine ⟨fd, _, _, rest, hget, hpop, hfd, ?_, ?_⟩
  · rw [FdTable.holds, h.fdentries, Option.bind_some, if_neg fun h => hallocated h.2]
  · funext i
    rw [hpop.holds_eq, Function.update_apply, Function.update_apply, h.holds_eq]
    by_cases hi : i = fd
    · rw [if_pos hi, if_pos hi, hi]
      exact if_pos hfd
    · rw [if_neg hi, if_neg hi]

/-- `gf_fd_unused_get` succeeds, if need be after the table was expanded. -/
theorem FreeListOk.unusedGet {memory : Bool} (fdptr : Fd)
    (hmemory : t.firstFree = fdtableEnd → memory = true ∧ t.maxFds < 2 ^ 28) :
    ∃ (fd : Nat) (t' : FdTable) (entries' : _) (free' : _),
      FdTable.gfFdUnusedGet memory fdptr 2 t = some ((fd : Int), t') ∧
      FreeListOk t' entries' free' ∧ fd < t'.maxFds ∧ t.holds fd = none ∧
      t'.holds = Function.update t.holds fd (some fdptr) := by
  by_cases hfirst : t.firstFree = fdtableEnd
  · obtain ⟨rfl, hsmall⟩ := hmemory hfirst
    have hthreads := h.threads
    rw [hfirst] at hthreads
    obtain ⟨entries', hexpand, hexpanded, hold⟩ :=
      h.expand (hthreads.eq_nil (by decide)) hsmall
    have hgoOn : FdTable.gfFdUnusedGet true fdptr 2 t = FdTable.gfFdUnusedGet true fdptr 1
        ⟨FdTable.expandedMax (t.maxFds + 1), some entries', t.maxFds⟩ := by
      conv => lhs; unfold FdTable.gfFdUnusedGet
      rw [if_neg (not_not.mpr hfirst), hexpand]
    have hfirst' : (t.maxFds : Int) ≠ fdtableEnd := by
      rw [fdtableEnd]
      omega
    have hholds : FdTable.holds
        ⟨FdTable.expandedMax (t.maxFds + 1), some entries', t.maxFds⟩ = t.holds := by
      funext i
      have hlt := lt_expandedMax hsmall
      by_cases hi : i < t.maxFds
      · rw [hexpanded.holds_eq, h.holds_eq, hold i hi, if_pos hi, if_pos (Nat.lt_trans hi hlt)]
      · rw [h.holds_eq, if_neg hi]
        refine if_neg fun hnew => ?_
        have hfree := (hexpanded.mem_free i).mp (mem_range'_iff.mpr ⟨by omega, hnew.1⟩)
        exact hfree.2 hnew.2
    rw [hgoOn, ← hholds]
    exact hexpanded.pop_holds true fdptr 1 hfirst'
  · exact h.pop_holds memory fdptr 2 hfirst

end Steps

/-! ## Runs -/

/-- Memory can be had and its size counted where the table is expanded, and all the
entries are handed out only when the first of them is the first free one. -/
def FdGuard (t : FdTable) : FdLabel → Prop
  | .unusedGet memory _ => t.firstFree = fdtableEnd → memory = true ∧ t.maxFds < 2 ^ 28
  | .getAllFds memory => memory = true ∧ t.firstFree = 0
  | .put _ | .fdptrPut _ => True

instance (t : FdTable) : (label : FdLabel) → Decidable (FdGuard t label)
  | .unusedGet _ _ => inferInstanceAs (Decidable (_ → _))
  | .getAllFds _ => inferInstanceAs (Decidable (_ ∧ _))
  | .put _ | .fdptrPut _ => inferInstanceAs (Decidable True)

theorem getAllFds_eq (hfirst : t.firstFree = 0) : (t.gfFdFdtableGetAllFds true).2 =
    ⟨t.maxFds, some (chainFdEntries zeroEntries 0 t.maxFds), 0⟩ := by
  rw [FdTable.gfFdFdtableGetAllFds, hfirst]
  rfl

def FdTable.Ok (t : FdTable) : Prop := ∃ entries free, FreeListOk t entries free

theorem FdTable.Ok.step {label : FdLabel} (ht : t.Ok) (hguard : FdGuard t label)
    (hstep : fdStep t label = some t') : t'.Ok := by
  obtain ⟨entries, free, h⟩ := ht
  cases label with
  | unusedGet memory fdptr =>
    obtain ⟨fd, after, entries', free', hget, hok, -⟩ := h.unusedGet fdptr hguard
    rw [fdStep, hget] at hstep
    obtain rfl := Option.some.inj hstep
    exact ⟨entries', free', hok⟩
  | put fd =>
    rw [fdStep, FdTable.gfFdPut] at hstep
    split_ifs at hstep with hrange
    · obtain rfl := Option.some.inj hstep
      exact ⟨entries, free, h⟩
    · rw [h.fdentries] at hstep
      obtain rfl := Option.some.inj hstep
      exact h.putEntry (by omega)
  | fdptrPut fd =>
    rw [fdStep, FdTable.gfFdptrPut, h.fdentries] at hstep
    obtain rfl := Option.some.inj hstep
    dsimp only
    split
    next => exact ⟨entries, free, h⟩
    next i hfind => exact h.putEntry (List.mem_range.mp (List.mem_of_find?_eq_some hfind))
  | getAllFds memory =>
    obtain ⟨rfl, hfirst⟩ := hguard
    obtain rfl := Option.some.inj hstep
    rw [getAllFds_eq hfirst]
    exact ⟨_, _, freeListOk_chain h.pos⟩

theorem FdTable.Ok.of_reachable
    (hreach : ReachableUnder fdStep FdGuard .gfFdFdtableAlloc t) : t.Ok :=
  hreach.invariant_along FdTable.Ok ⟨_, _, freeListOk_chain (by decide : 0 < 128)⟩
    fun _ hguard hstep ht => ht.step hguard hstep

/-- Every index is allocated or free, and an unused one is always found: it held
nothing, and the others keep what they hold. -/
theorem fd_table_intact (hreach : ReachableUnder fdStep FdGuard .gfFdFdtableAlloc t) :
    t.Intact ∧ ∀ memory fdptr, (t.firstFree = fdtableEnd → memory = true ∧ t.maxFds < 2 ^ 28) →
      ∃ (fd : Nat) (t' : FdTable), FdTable.gfFdUnusedGet memory fdptr 2 t = some ((fd : Int), t') ∧
        fd < t'.maxFds ∧ t.holds fd = none ∧
        t'.holds = Function.update t.holds fd (some fdptr) := by
  obtain ⟨entries, free, h⟩ := FdTable.Ok.of_reachable hreach
  refine ⟨h.intact, fun memory fdptr hmemory => ?_⟩
  obtain ⟨fd, t', -, -, hget, -, hfd, hnone, hholds⟩ := h.unusedGet fdptr hmemory
  exact ⟨fd, t', hget, hfd, hnone, hholds⟩

/-- Three fds are put in and two taken out, and then all, when the first entry is
the first free one. -/
def putAndTaken : List FdLabel :=
  [.unusedGet true 7, .unusedGet true 8, .unusedGet true 9, .put 1, .fdptrPut 7, .getAllFds true,
    .unusedGet true 5]

theorem fd_table_intact_taken :
    ∃ t, run fdStep .gfFdFdtableAlloc putAndTaken = some t ∧ t.holds 0 = some 5 ∧
      t.holds 2 = none ∧ t.Intact := by
  have heval : (run fdStep .gfFdFdtableAlloc putAndTaken).map (fun t => (t.holds 0, t.holds 2)) =
      some (some 5, none) := by decide +kernel
  obtain ⟨t, hrun, hholds⟩ := Option.map_eq_some_iff.mp heval
  obtain ⟨hzero, htwo⟩ := Prod.mk.inj hholds
  exact ⟨t, hrun, hzero, htwo,
    (fd_table_intact (.of_run putAndTaken .start (by decide +kernel) hrun)).1⟩

/-- Handing out all the entries leaves a proper free list only where the first entry
is the first free one. -/
theorem getAllFds_intact_iff (hpos : 0 < t.maxFds) :
    (t.gfFdFdtableGetAllFds true).2.Intact ↔ t.firstFree = 0 := by
  constructor
  · rintro ⟨entries, free, hentries, hthreads, hbound, hall⟩
    obtain rfl := Option.some.inj hentries
    have hzero : 0 ∈ free := by
      rcases hall 0 hpos with hallocated | hfree
      · exact absurd hallocated.1 (chain_ne_allocated zeroEntries (Nat.le_refl _) hpos)
      · exact List.count_pos_iff.mp (Nat.lt_of_lt_of_eq Nat.zero_lt_one hfree.2.symm)
    have hle := hthreads.le_of_mem (by decide) (fun cell hcell => ?_) hzero
    · cases free with
      | nil => cases hzero
      | cons head rest =>
        have hfirst : t.firstFree = head := hthreads.1
        have hle' : t.firstFree ≤ 0 := hle
        omega
    · have hlt : cell < t.maxFds := hbound cell hcell
      rw [chainFdEntries_apply zeroEntries hpos, if_pos ⟨Nat.zero_le _, hlt⟩]
      dsimp only
      split_ifs
      · exact .inl rfl
      · exact .inr (by omega)
  · intro hfirst
    rw [getAllFds_eq hfirst]
    exact (freeListOk_chain hpos).intact

/-- After all the fds are taken out the first entry is neither allocated nor on the
free list. -/
theorem entry_lost : ¬∀ t, Reachable fdStep .gfFdFdtableAlloc t → t.Intact := by
  intro hall
  have heval : (run fdStep .gfFdFdtableAlloc [.unusedGet true 7]).map
      (fun t => (t.firstFree, t.maxFds)) = some (1, 128) := by decide +kernel
  obtain ⟨t, hrun, hfields⟩ := Option.map_eq_some_iff.mp heval
  obtain ⟨hfirst, hmax⟩ := Prod.mk.inj hfields
  have hreach : Reachable fdStep .gfFdFdtableAlloc t := .of_run _ .start hrun
  have hstep : fdStep t (.getAllFds true) = some (t.gfFdFdtableGetAllFds true).2 := rfl
  have hintact := hall _ (hreach.next trivial hstep)
  have hzero := (getAllFds_intact_iff (by omega)).mp hintact
  omega

end GlusterFS.Fds
