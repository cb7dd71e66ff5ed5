import GlusterFS.Locks.ByteRefinement

/-!
# Waking the waiters

After an operation `grant_blocked_locks` looks at the waiting locks once more, but only at
those that overlap no granted lock at all.  A waiter that overlaps a lock which does not
conflict with it, its owner's or a read lock beside a read lock, is passed over.  No wake-up
is lost as long as no request takes the last lock that conflicts with a waiter and leaves
such a lock behind, no owner waits for both types on one range, and every merge replaces what
its owner holds.
-/

namespace GlusterFS.Locks

open GlusterFS.Transition

/-! ## Waiting locks -/

/-- A granted lock of another owner refuses `l`, said of one offset. -/
def Refused (extList : List PosixLock) (l : PosixLock) : Prop :=
  ∃ other offset type, other ≠ l.key ∧ l.covers offset ∧
    Holds extList other offset type ∧ (type = .wrlck ∨ l.flType = .wrlck)

/-- The waiting locks of the table. -/
def waiting (extList : List PosixLock) : List PosixLock :=
  extList.filter fun l => l.blocked

/-- Overlapping locks of one owner have one type. -/
def Alike (locks : List PosixLock) : Prop :=
  locks.Pairwise fun left right => left.key = right.key → locksOverlap left right →
    left.flType = right.flType

/-- What the owner of the lock holds on its range has its type. -/
def HeldAlike (extList : List PosixLock) (lock : PosixLock) : Prop :=
  ∀ offset type, lock.covers offset → Holds extList lock.key offset type → type = lock.flType

variable {extList after : List PosixLock} {lock waiter l : PosixLock}

theorem not_grantable_iff_refused (hwf : WellFormed extList)
    (hvalid : l.flStart ≤ l.flEnd) (htype : l.flType ≠ .unlck) :
    ¬isLockGrantable extList l ↔ Refused extList l := by
  rw [isLockGrantable_iff_holds hwf hvalid htype]
  unfold Refused
  push Not
  constructor
  · rintro ⟨other, offset, type, hne, hcovers, hholds, h⟩
    refine ⟨other, offset, type, hne, hcovers, hholds, ?_⟩
    by_cases hw : type = .wrlck
    · exact .inl hw
    · exact .inr (h hw)
  · rintro ⟨other, offset, type, hne, hcovers, hholds, h⟩
    exact ⟨other, offset, type, hne, hcovers, hholds, fun hw => h.resolve_left hw⟩

theorem firstOverlap_isSome_iff : (firstOverlap extList l).isSome ↔
    ∃ found ∈ extList, found.blocked = false ∧ locksOverlap found l := by
  simp [firstOverlap, List.find?_isSome]

theorem Refused.append (hrefused : Refused extList l) (more : List PosixLock) :
    Refused (extList ++ more) l := by
  obtain ⟨other, offset, type, hne, hcovers, hholds, hconflict⟩ := hrefused
  exact ⟨other, offset, type, hne, hcovers, Holds.append.mpr (.inl hholds), hconflict⟩

theorem waiting_append_blocked (hblocked : waiter.blocked = true) :
    waiting (extList ++ [waiter]) = waiting extList ++ [waiter] := by
  simp [waiting, hblocked]

theorem waiting_insertAndMerge (hwf : WellFormed extList) (hlock : Admissible lock) :
    waiting (insertAndMerge extList lock) = waiting extList := by
  have hforeign := (insertAndMerge_merges hwf hlock.granted hlock.valid).foreign
  have hfilter : ∀ table : List PosixLock,
      waiting table = waiting (table.filter (Foreign lock.key ·)) := by
    intro table
    rw [waiting, waiting, List.filter_filter]
    refine List.filter_congr fun l _ => ?_
    cases hblocked : l.blocked <;> simp [Foreign, hblocked]
  rw [hfilter, hforeign, ← hfilter]

/-- The owner of the lock holds it on its range, and what was held elsewhere stays. -/
theorem holds_insertAndMerge_iff (hwf : WellFormed extList)
    (hclean : CleanFor lock.key extList) (hlock : Admissible lock)
    (hvisible : ¬WriterHidden extList lock) {who : LkOwner × Nat} {offset : Int}
    {type : LockType} :
    Holds (insertAndMerge extList lock) who offset type ↔
      Holds extList who offset type ∧ (who = lock.key → ¬lock.covers offset) ∨
      (who = lock.key ∧ lock.covers offset) ∧ type = lock.flType ∧ type ≠ .unlck := by
  have hassigns := insertAndMerge_assignsRange hwf hlock hclean hvisible
  by_cases hwho : who = lock.key
  · subst hwho
    by_cases hin : lock.covers offset
    · simp [hassigns.inside offset type hin, hin]
    · simp [hassigns.outside offset type hin, hin]
  · simp [hassigns.others who offset type hwho, hwho]

/-- A lock that agrees with what its owner holds finds its write locks. -/
theorem HeldAlike.not_writerHidden (hwf : WellFormed extList) (hlock : Admissible lock)
    (halike : HeldAlike extList lock) : ¬WriterHidden extList lock := by
  rintro ⟨hread, front, writer, back, rfl, ⟨hgranted, hkey, hoverlap⟩, hwrite, -⟩
  obtain ⟨offset, hwc, hin⟩ := (locksOverlap_iff_exists
    (hwf.valid writer (by simp)) hlock.valid).mp hoverlap
  have htype := halike offset _ hin ⟨writer, by simp, hgranted, hkey, hwc, rfl⟩
  rw [hwrite, hread] at htype
  cases htype

/-! ## One pass over the waiters -/

/-- A table with waiters that are not on it, or that a pass has still to look at. -/
structure Ready (rest extList : List PosixLock) : Prop where
  wellFormed : WellFormed extList
  clean : ∀ who, CleanFor who extList
  alike : Alike (waiting extList ++ rest)
  waits : ∀ waiter ∈ rest,
    waiter.blocked = true ∧ waiter.flStart ≤ waiter.flEnd ∧ waiter.flType ≠ .unlck
  held : ∀ waiter ∈ rest, HeldAlike extList waiter

/-- What holds while the waiters `rest` are still to be looked at. -/
structure PassInv (rest extList : List PosixLock) : Prop extends Ready rest extList where
  refused : ∀ l ∈ extList, l.blocked = true → Refused extList l

/-- The table a pass starts from: a waiter that overlaps a granted lock is refused. -/
structure WakeSafe (rest extList : List PosixLock) : Prop extends Ready rest extList where
  skipped : ∀ l ∈ extList, l.blocked = true → (firstOverlap extList l).isSome →
    Refused extList l

variable {rest : List PosixLock}

theorem PassInv.wakeSafe (hinv : PassInv rest extList) : WakeSafe rest extList :=
  ⟨hinv.toReady, fun l hl hblocked _ => hinv.refused l hl hblocked⟩

/-- A waiter is granted: it agrees with what its owner holds, so nobody holds less. -/
theorem PassInv.grant (hinv : PassInv (waiter :: rest) extList)
    (hlock : SameExtent lock waiter) :
    PassInv rest (insertAndMerge extList lock) := by
  obtain ⟨-, hvalid, htype⟩ := hinv.waits waiter List.mem_cons_self
  have hwf := hinv.wellFormed
  have hcovers := hlock.covers_iff
  have hheld : HeldAlike extList lock := by
    intro offset type hin hholds
    rw [hlock.key] at hholds
    rw [hlock.type]
    exact hinv.held waiter List.mem_cons_self offset type ((hcovers offset).mp hin) hholds
  have hadmissible : Admissible lock :=
    ⟨hlock.granted, by rw [hlock.start, hlock.stop]; exact hvalid⟩
  rw [← hlock.type] at htype
  have hvisible := hheld.not_writerHidden hwf hadmissible
  have hmerge := insertAndMerge_merges hwf hlock.granted hadmissible.valid
  have hholds {who offset type} := @holds_insertAndMerge_iff _ _ hwf (hinv.clean _) hadmissible
    hvisible who offset type
  refine ⟨⟨hmerge.wellFormed, cleanFor_insertAndMerge hwf hadmissible hinv.clean hvisible,
    ?_, ?_, ?_⟩, ?_⟩
  · rw [waiting_insertAndMerge hwf hadmissible]
    exact hinv.alike.sublist ((List.sublist_cons_self _ _).append_left _)
  · exact fun other hother => hinv.waits other (List.mem_cons_of_mem _ hother)
  · intro other hother offset type hin hheld
    rcases hholds.mp hheld with ⟨hold, -⟩ | ⟨⟨hkey, hlc⟩, rfl, -⟩
    · exact hinv.held other (List.mem_cons_of_mem _ hother) offset type hin hold
    · have hothers := (List.pairwise_cons.mp (List.pairwise_append.mp hinv.alike).2.1).1
      rw [hlock.type]
      exact hothers other hother (hlock.key.symm.trans hkey.symm)
        (locksOverlap_of_covers ((hcovers offset).mp hlc) hin)
  · intro l hl hblocked
    obtain ⟨who, offset, type, hne, hlc, hold, hconflict⟩ :=
      hinv.refused l ((hmerge.blocked_mem_iff hblocked).mp hl) hblocked
    refine ⟨who, offset, type, hne, hlc, hholds.mpr ?_, hconflict⟩
    by_cases hown : who = lock.key ∧ lock.covers offset
    · obtain ⟨rfl, hin⟩ := hown
      have hsame := hheld offset type hin hold
      exact .inr ⟨⟨rfl, hin⟩, hsame, hsame ▸ htype⟩
    · exact .inl ⟨hold, fun hkey hin => hown ⟨hkey, hin⟩⟩

/-- A waiter goes on waiting. -/
theorem PassInv.block (hinv : PassInv (waiter :: rest) extList)
    (hrefused : Refused extList waiter) : PassInv rest (extList ++ [waiter]) := by
  obtain ⟨hblocked, hvalid, htype⟩ := hinv.waits waiter List.mem_cons_self
  have hholds : ∀ {who offset type}, Holds (extList ++ [waiter]) who offset type →
      Holds extList who offset type := by
    intro who offset type hholds
    refine (Holds.append.mp hholds).resolve_right fun hheld => ?_
    rw [holds_singleton, hblocked] at hheld
    cases hheld.1
  refine ⟨⟨?_, ?_, ?_, ?_, ?_⟩, ?_⟩
  · exact wellFormed_append.mpr
      ⟨hinv.wellFormed, ⟨by simpa using hvalid, by simpa using htype⟩⟩
  · intro who
    refine cleanFor_append_singleton.mpr ⟨hinv.clean who, fun _ _ _ hown => ?_⟩
    rw [Own, hblocked] at hown
    cases hown.1
  · rw [waiting_append_blocked hblocked, List.append_assoc]
    exact hinv.alike
  · exact fun other hother => hinv.waits other (List.mem_cons_of_mem _ hother)
  · exact fun other hother offset type hin hheld =>
      hinv.held other (List.mem_cons_of_mem _ hother) offset type hin (hholds hheld)
  · intro l hl hlb
    rcases List.mem_append.mp hl with hl | hl
    · exact (hinv.refused l hl hlb).append _
    · obtain rfl := List.mem_singleton.mp hl
      exact hrefused.append _

theorem PassInv.grantOne {state : PlInode × List (Option Nat)}
    (hinv : PassInv (waiter :: rest) state.1.extList) :
    PassInv rest (grantOne state waiter).1.extList := by
  obtain ⟨hblocked, hvalid, htype⟩ := hinv.waits waiter List.mem_cons_self
  unfold Locks.grantOne
  split_ifs with hgrant
  · exact hinv.grant ⟨rfl, rfl, rfl, rfl, rfl⟩
  · have hsame : { waiter with blocked := true } = waiter := by
      rw [← hblocked]
    have hrefused : Refused state.1.extList { waiter with blocked := false } :=
      (not_grantable_iff_refused hinv.wellFormed hvalid htype).mp hgrant
    simp only [PlInode.insertLock, hsame]
    exact hinv.block hrefused

theorem PassInv.foldl {waiters : List PosixLock} (state : PlInode × List (Option Nat))
    (hinv : PassInv (waiters ++ rest) state.1.extList) :
    PassInv rest (waiters.foldl Locks.grantOne state).1.extList := by
  induction waiters generalizing state with
  | nil => exact hinv
  | cons waiter waiters ih => exact ih _ hinv.grantOne

theorem Holds.of_filter {keep : PosixLock → Bool} {who : LkOwner × Nat} {offset : Int}
    {type : LockType} (hholds : Holds (extList.filter keep) who offset type) :
    Holds extList who offset type := by
  obtain ⟨l, hl, h⟩ := hholds
  exact ⟨l, List.mem_of_mem_filter hl, h⟩

theorem WakeSafe.passInv_start (hsafe : WakeSafe rest extList) :
    PassInv (extList.filter (wakes extList) ++ rest)
      (extList.filter fun l => !wakes extList l) := by
  have hwakes : ∀ {l}, wakes extList l = true ↔
      l.blocked = true ∧ firstOverlap extList l = none := by
    intro l
    rw [wakes, Bool.and_eq_true, Option.isNone_iff_eq_none]
  refine ⟨⟨hsafe.wellFormed.filter _, ?_, ?_, ?_, ?_⟩, ?_⟩
  · exact fun who => (hsafe.clean who).sublist List.filter_sublist
  · have hperm : (waiting (extList.filter fun l => !wakes extList l) ++
        (extList.filter (wakes extList) ++ rest)).Perm (waiting extList ++ rest) := by
      rw [← List.append_assoc]
      refine List.Perm.append_right _ ?_
      have hsplit := List.filter_append_perm (wakes extList) (waiting extList)
      rw [waiting, List.filter_filter, List.filter_filter] at hsplit
      rw [waiting, waiting, List.filter_filter]
      have hsame : (extList.filter fun l => wakes extList l && l.blocked) =
          extList.filter (wakes extList) := by
        refine List.filter_congr fun l _ => ?_
        rw [wakes, Bool.and_right_comm, Bool.and_self]
      rw [hsame] at hsplit
      exact List.perm_append_comm.trans (by simpa [Bool.and_comm] using hsplit)
    exact hsafe.alike.perm hperm.symm fun halike hkey hoverlap =>
      (halike hkey.symm (locksOverlap_comm.mp hoverlap)).symm
  · intro waiter hwaiter
    rcases List.mem_append.mp hwaiter with hwaiter | hwaiter
    · obtain ⟨hmem, hwake⟩ := List.mem_filter.mp hwaiter
      exact ⟨(hwakes.mp hwake).1, hsafe.wellFormed.valid _ hmem,
        hsafe.wellFormed.locked _ hmem⟩
    · exact hsafe.waits waiter hwaiter
  · intro waiter hwaiter offset type hin hholds
    rcases List.mem_append.mp hwaiter with hwaiter | hwaiter
    · -- a waiter that is woken overlaps no granted lock
      have hnone := (hwakes.mp (List.mem_filter.mp hwaiter).2).2
      obtain ⟨l, hl, hgranted, -, hlc, -⟩ := hholds
      have hnot := List.find?_eq_none.mp hnone l (List.mem_of_mem_filter hl)
      simp [hgranted, locksOverlap_of_covers hlc hin] at hnot
    · exact hsafe.held waiter hwaiter offset type hin hholds.of_filter
  · intro l hl hblocked
    obtain ⟨hmem, hnot⟩ := List.mem_filter.mp hl
    have hoverlap : (firstOverlap extList l).isSome := by
      simpa [wakes, hblocked, Option.isSome_iff_ne_none] using hnot
    obtain ⟨other, offset, type, hne, hcovers, ⟨holder, hholder, hhg, h⟩, hconflict⟩ :=
      hsafe.skipped l hmem hblocked hoverlap
    refine ⟨other, offset, type, hne, hcovers, ⟨holder, ?_, hhg, h⟩, hconflict⟩
    simp [hholder, wakes, hhg]

/-- A pass from a safe table leaves every waiter refused. -/
theorem WakeSafe.passInv {inode : PlInode} (hsafe : WakeSafe rest inode.extList) :
    PassInv rest (grantBlockedLocks inode).extList :=
  PassInv.foldl (_, []) hsafe.passInv_start

/-! ## Which requests lose no wake-up -/

/-- The lock is taken off the list whatever its range is. -/
def PlRequest.drops : PlRequest → PosixLock → Bool
  | .setlk _ _, _ => false
  | .flush transport owner fdNum, l =>
    if owner.length = 0 then l.fdNum = fdNum
    else l.blocked = false ∧ l.transport = transport ∧ l.owner = owner
  | .deleteFd fdNum, l => l.fdNum = fdNum

/-- Some of `l` lies where `waiter` waits and is not replaced by `lock`. -/
def LeftBeside (lock l waiter : PosixLock) : Prop :=
  locksOverlap l waiter ∧ (l.key = lock.key →
    max l.flStart waiter.flStart < lock.flStart ∨ lock.flEnd < min l.flEnd waiter.flEnd)
  deriving Decidable

/-- The locks of which some is left where `waiter` waits once `lock` is set. -/
def leftWith (extList : List PosixLock) (lock waiter : PosixLock) : List PosixLock :=
  let beside := extList.filter fun l => LeftBeside lock l waiter
  if lock.flType = .unlck then beside else lock :: beside

/-- The locks of which the request leaves some where `waiter` waits.  A blocking request that
is refused gives up its range in `pl_send_prelock_unlock`. -/
def PlRequest.remains (extList : List PosixLock) (waiter : PosixLock) :
    PlRequest → List PosixLock
  | .setlk args canBlock =>
    let lock := args.reqlock canBlock
    if isLockGrantable extList lock then leftWith extList lock waiter
    else if canBlock then leftWith extList (prelockUnlock lock) waiter else extList
  | request => extList.filter fun l => !request.drops l

/-- The request takes the last lock that refuses a waiter and leaves another lock on its
range. -/
def Strands (extList : List PosixLock) (request : PlRequest) : Prop :=
  ∃ waiter ∈ extList, waiter.blocked = true ∧ request.drops waiter = false ∧
    (∀ l ∈ request.remains extList waiter, ¬refuses l waiter) ∧
    ∃ l ∈ request.remains extList waiter, l.blocked = false ∧ locksOverlap l waiter
  deriving Decidable

/-- The lock is to wait beside a waiting lock of its owner that has another type.  A pass hands
out both in turn, and the read lock takes back what the write lock refused. -/
def WaitsUnlike (extList : List PosixLock) (lock : PosixLock) : Prop :=
  ∃ l ∈ extList, l.blocked = true ∧ l.key = lock.key ∧ locksOverlap l lock ∧
    l.flType ≠ lock.flType
  deriving Decidable

/-- The condition on a request and the table before it. -/
structure WakesSafely (inode : PlInode) (request : PlRequest) : Prop where
  keeps : ¬Strands inode.extList request
  waits : ∀ args, request = .setlk args true →
    ¬isLockGrantable inode.extList (args.reqlock true) →
    ¬WaitsUnlike inode.extList (args.reqlock true)
  visible : ∀ args canBlock, request = .setlk args canBlock →
    isLockGrantable inode.extList (args.reqlock canBlock) →
    ¬WriterHidden inode.extList (args.reqlock canBlock)

/-! ## The requests -/

theorem leftBeside_iff (hl : l.flStart ≤ l.flEnd)
    (hwaiter : waiter.flStart ≤ waiter.flEnd) :
    LeftBeside lock l waiter ↔ ∃ offset, l.covers offset ∧ waiter.covers offset ∧
      (l.key = lock.key → ¬lock.covers offset) := by
  simp only [LeftBeside, locksOverlap, PosixLock.covers]
  constructor
  · rintro ⟨hoverlap, hbeside⟩
    by_cases hkey : l.key = lock.key
    · rcases hbeside hkey with hbefore | hbehind
      · exact ⟨max l.flStart waiter.flStart, by omega, by omega, fun _ => by omega⟩
      · exact ⟨min l.flEnd waiter.flEnd, by omega, by omega, fun _ => by omega⟩
    · exact ⟨max l.flStart waiter.flStart, by omega, by omega, fun h => absurd h hkey⟩
  · rintro ⟨offset, hlc, hwc, hbeside⟩
    refine ⟨by omega, fun hkey => ?_⟩
    have hnot := hbeside hkey
    omega

theorem mem_leftWith_iff : l ∈ leftWith extList lock waiter ↔
    l ∈ extList ∧ LeftBeside lock l waiter ∨ l = lock ∧ lock.flType ≠ .unlck := by
  unfold leftWith
  split_ifs with hunlck <;> simp [hunlck, or_comm]

/-- A request that strands nobody leaves each waiter refused or alone on its range. -/
theorem exists_refuses_of_not_strands {request : PlRequest}
    (hkeeps : ¬Strands extList request) (hmem : waiter ∈ extList)
    (hblocked : waiter.blocked = true) (hstays : request.drops waiter = false)
    (hl : l ∈ request.remains extList waiter) (hgranted : l.blocked = false)
    (hoverlap : locksOverlap l waiter) :
    ∃ holder ∈ request.remains extList waiter, refuses holder waiter := by
  by_contra hnone
  push Not at hnone
  exact hkeeps ⟨waiter, hmem, hblocked, hstays, hnone, l, hl, hgranted, hoverlap⟩

/-- Setting a range leaves a table that is safe to wake from. -/
theorem PassInv.setRange (hinv : PassInv [] extList) (hlock : Admissible lock)
    (hvisible : ¬WriterHidden extList lock)
    (hkeeps : ∀ waiter ∈ extList, waiter.blocked = true →
      ∀ l ∈ leftWith extList lock waiter, l.blocked = false → locksOverlap l waiter →
      ∃ holder ∈ leftWith extList lock waiter, refuses holder waiter)
    (halike : Alike (waiting extList ++ rest))
    (hwaits : ∀ waiter ∈ rest,
      waiter.blocked = true ∧ waiter.flStart ≤ waiter.flEnd ∧ waiter.flType ≠ .unlck)
    (hheld : ∀ waiter ∈ rest, HeldAlike (insertAndMerge extList lock) waiter) :
    WakeSafe rest (insertAndMerge extList lock) := by
  have hwf := hinv.wellFormed
  have hmerge := insertAndMerge_merges hwf hlock.granted hlock.valid
  have hholds {who offset type} := @holds_insertAndMerge_iff _ _ hwf (hinv.clean _) hlock
    hvisible who offset type
  refine ⟨⟨hmerge.wellFormed, cleanFor_insertAndMerge hwf hlock hinv.clean hvisible, ?_, hwaits,
    hheld⟩, ?_⟩
  · rw [waiting_insertAndMerge hwf hlock]
    exact halike
  intro waiter hwaiter hblocked hoverlap
  have hmem := (hmerge.blocked_mem_iff hblocked).mp hwaiter
  have hvalid := hwf.valid waiter hmem
  -- what the waiter overlaps afterwards was left, or is the lock itself
  obtain ⟨found, hfound, hgranted, hoverlap⟩ := firstOverlap_isSome_iff.mp hoverlap
  obtain ⟨offset, hfc, hwc⟩ := (locksOverlap_iff_exists
    (hmerge.wellFormed.valid found hfound) hvalid).mp hoverlap
  obtain ⟨l, hl, hlg, hlo⟩ : ∃ l ∈ leftWith extList lock waiter, l.blocked = false ∧
      locksOverlap l waiter := by
    rcases hholds.mp ⟨found, hfound, hgranted, rfl, hfc, rfl⟩ with
      ⟨⟨l, hl, hlg, hkey, hlc, -⟩, hbeside⟩ | ⟨⟨-, hin⟩, htype, hunlck⟩
    · have hleft := (leftBeside_iff (hwf.valid l hl) hvalid).mpr
        ⟨offset, hlc, hwc, fun h => hbeside (hkey ▸ h)⟩
      exact ⟨l, mem_leftWith_iff.mpr (.inl ⟨hl, hleft⟩), hlg, hleft.1⟩
    · exact ⟨lock, mem_leftWith_iff.mpr (.inr ⟨rfl, htype ▸ hunlck⟩), hlock.granted,
        locksOverlap_of_covers hin hwc⟩
  obtain ⟨holder, hholder, ⟨hhg, hho⟩, hconflict, -, howner⟩ :=
    hkeeps waiter hmem hblocked l hl hlg hlo
  have hne : holder.key ≠ waiter.key := fun h => howner (sameOwner_iff_key.mpr h)
  rcases mem_leftWith_iff.mp hholder with ⟨hholder, hleft⟩ | ⟨rfl, hunlck⟩
  · obtain ⟨offset, hhc, hwc, hbeside⟩ :=
      (leftBeside_iff (hwf.valid holder hholder) hvalid).mp hleft
    exact ⟨holder.key, offset, holder.flType, hne, hwc,
      hholds.mpr (.inl ⟨⟨holder, hholder, hhg, rfl, hhc, rfl⟩, hbeside⟩), hconflict⟩
  · obtain ⟨offset, hwc, hin⟩ := (locksOverlap_iff_exists hvalid hlock.valid).mp hho
    exact ⟨holder.key, offset, holder.flType, hne, hwc,
      hholds.mpr (.inr ⟨⟨rfl, hin⟩, rfl, hunlck⟩), hconflict⟩

/-- Taking locks off the list leaves a table that is safe to wake from. -/
theorem PassInv.dropLocked {request : PlRequest} (hinv : PassInv [] extList)
    (hremains : ∀ waiter, request.remains extList waiter =
      extList.filter fun l => !request.drops l)
    (hkeeps : ¬Strands extList request) :
    WakeSafe [] (extList.filter fun l => !request.drops l) := by
  have hwf := hinv.wellFormed
  refine ⟨⟨hwf.filter _, fun who => (hinv.clean who).sublist List.filter_sublist, ?_, by simp,
    by simp⟩, ?_⟩
  · have halike := hinv.alike
    rw [List.append_nil] at halike ⊢
    exact halike.sublist (List.filter_sublist.filter _)
  · intro waiter hwaiter hblocked hoverlap
    obtain ⟨hmem, hstays⟩ := List.mem_filter.mp hwaiter
    obtain ⟨found, hfound, hgranted, hoverlap⟩ := firstOverlap_isSome_iff.mp hoverlap
    obtain ⟨holder, hholder, ⟨hhg, hho⟩, hconflict, -, howner⟩ :=
      exists_refuses_of_not_strands hkeeps hmem hblocked (by simpa using hstays)
        (by rwa [hremains]) hgranted hoverlap
    rw [hremains] at hholder
    obtain ⟨offset, hwc, hhc⟩ := (locksOverlap_iff_exists (hwf.valid waiter hmem)
      (hwf.valid holder (List.mem_of_mem_filter hholder))).mp hho
    exact ⟨holder.key, offset, holder.flType, fun h => howner (sameOwner_iff_key.mpr h), hwc,
      ⟨holder, hholder, hhg, rfl, hhc, rfl⟩, hconflict⟩

/-- The lock that a request waits with. -/
def LkArgs.blockedLock (args : LkArgs) : PosixLock :=
  { args.reqlock true with blocked := true }

theorem not_writerHidden_of_ne (htype : lock.flType ≠ .rdlck) : ¬WriterHidden extList lock :=
  fun hhidden => htype hhidden.1

/-- A blocking request that is refused gives up its range and lets the waiters go first. -/
theorem PassInv.prelockUnlock {inode : PlInode} {args : LkArgs}
    (hinv : PassInv [] inode.extList)
    (hrefused : ¬isLockGrantable inode.extList (args.reqlock true))
    (hsafe : WakesSafely inode (.setlk args true)) :
    PassInv [args.blockedLock] (plSendPrelockUnlock inode (args.reqlock true)).extList := by
  have hlock := args.reqlock_admissible true
  have hunlock := args.prelockUnlock_admissible true
  have hvisible : ¬WriterHidden inode.extList (Locks.prelockUnlock (args.reqlock true)) :=
    not_writerHidden_of_ne (by simp [Locks.prelockUnlock, newPosixLock])
  have hremains (waiter : PosixLock) : (PlRequest.setlk args true).remains inode.extList waiter =
      leftWith inode.extList (Locks.prelockUnlock (args.reqlock true)) waiter := by
    simp [PlRequest.remains, hrefused]
  refine WakeSafe.passInv (hinv.setRange hunlock hvisible ?_ ?_ ?_ ?_)
  · intro waiter hmem hblocked l hl hgranted hoverlap
    rw [← hremains] at hl ⊢
    exact exists_refuses_of_not_strands hsafe.keeps hmem hblocked rfl hl hgranted hoverlap
  · have halike := hinv.alike
    rw [List.append_nil] at halike
    refine List.pairwise_append.mpr ⟨halike, List.pairwise_singleton _ _, ?_⟩
    intro l hl waiter hwaiter hkey hoverlap
    obtain rfl := List.mem_singleton.mp hwaiter
    obtain ⟨hmem, hblocked⟩ := List.mem_filter.mp hl
    by_contra hunlike
    exact hsafe.waits args rfl hrefused ⟨l, hmem, hblocked, hkey, hoverlap, hunlike⟩
  · intro waiter hwaiter
    obtain rfl := List.mem_singleton.mp hwaiter
    exact ⟨rfl, hlock.valid, type_ne_unlck_of_not_grantable hrefused⟩
  · intro waiter hwaiter offset type hin hheld
    obtain rfl := List.mem_singleton.mp hwaiter
    -- its owner holds nothing there any more
    rcases (holds_insertAndMerge_iff hinv.wellFormed (hinv.clean _) hunlock hvisible).mp hheld
      with ⟨-, houtside⟩ | ⟨-, rfl, hunlck⟩
    · exact absurd hin (houtside rfl)
    · exact absurd rfl hunlck

theorem PassInv.setlkLocked {inode : PlInode} {args : LkArgs} {canBlock : Bool}
    (hinv : PassInv [] inode.extList) (hsafe : WakesSafely inode (.setlk args canBlock)) :
    WakeSafe [] (plSetlkLocked inode (args.reqlock canBlock) canBlock).2.extList := by
  have hlock := args.reqlock_admissible canBlock
  simp only [plSetlkLocked]
  by_cases hwait : canBlock = true ∧ ¬isLockGrantable inode.extList (args.reqlock canBlock)
  · rw [if_pos hwait]
    obtain ⟨rfl, hrefused⟩ := hwait
    have hmiddle := hinv.prelockUnlock hrefused hsafe
    rw [if_pos rfl]
    split_ifs with hgrant
    · have hextent : SameExtent (args.reqlock true) args.blockedLock :=
        ⟨rfl, rfl, rfl, rfl, rfl⟩
      exact (hmiddle.grant hextent).wakeSafe
    · have htype := type_ne_unlck_of_not_grantable hgrant
      exact (hmiddle.block
        ((not_grantable_iff_refused hmiddle.wellFormed hlock.valid htype).mp hgrant)).wakeSafe
  · rw [if_neg hwait]
    split_ifs with hgrant hblock
    · have hremains (waiter : PosixLock) :
          (PlRequest.setlk args canBlock).remains inode.extList waiter =
            leftWith inode.extList (args.reqlock canBlock) waiter := by
        simp [PlRequest.remains, hgrant]
      refine hinv.setRange hlock (hsafe.visible args canBlock rfl hgrant) ?_ hinv.alike
        (by simp) (by simp)
      intro waiter hmem hblocked l hl hgranted hoverlap
      rw [← hremains] at hl ⊢
      exact exists_refuses_of_not_strands hsafe.keeps hmem hblocked rfl hl hgranted hoverlap
    · exact absurd ⟨hblock, hgrant⟩ hwait
    · exact hinv.wakeSafe

/-- What a request does before it wakes the waiters leaves a table to wake them from. -/
theorem PassInv.locked {inode : PlInode} (hinv : PassInv [] inode.extList)
    {request : PlRequest} (hsafe : WakesSafely inode request) :
    WakeSafe [] (request.locked inode).extList := by
  cases request with
  | setlk args canBlock => exact hinv.setlkLocked hsafe
  | flush transport owner fdNum =>
    have hdropped := hinv.dropLocked (fun _ => rfl) hsafe.keeps
    simp only [PlRequest.locked, plFlushLocked]
    split_ifs with howner
    · simpa [PlRequest.drops, howner, deleteLocksOfFdLocked] using hdropped
    · simpa [PlRequest.drops, howner, deleteLocksOfOwner] using hdropped
  | deleteFd fdNum =>
    have hdropped := hinv.dropLocked (fun _ => rfl) hsafe.keeps
    simpa [PlRequest.drops, PlRequest.locked, deleteLocksOfFdLocked] using hdropped

/-- In every run whose requests meet the condition, no waiting lock is grantable after a
completed operation. -/
theorem blocked_locks_refused {inode : PlInode}
    (hreach : ReachableUnder plStep WakesSafely PlInode.fresh inode) :
    ∀ l ∈ inode.extList, l.blocked = true → ¬isLockGrantable inode.extList l := by
  have hinv : PassInv [] inode.extList := by
    refine hreach.invariant_along (fun inode => PassInv [] inode.extList) ?_ ?_
    · exact ⟨⟨tableInv_fresh.wellFormed, by simp [CleanFor, PlInode.fresh],
        by simp [Alike, waiting, PlInode.fresh], by simp, by simp⟩, by simp [PlInode.fresh]⟩
    · intro before request after _ hsafe hstep hinv
      cases hstep
      exact (hinv.locked hsafe).passInv
  intro l hl hblocked
  exact (not_grantable_iff_refused hinv.wellFormed (hinv.wellFormed.valid l hl)
    (hinv.wellFormed.locked l hl)).mpr (hinv.refused l hl hblocked)

/-- Two writers wait for a third, which then unlocks. -/
def queuedWriters : List PlRequest :=
  [.setlk (lkArgs .wrlck 0 10 1) false, .setlk (lkArgs .wrlck 0 10 2) true,
    .setlk (lkArgs .wrlck 5 10 3) true,
    .setlk (lkArgs .unlck 0 10 1) false]

/-- The condition on a request that is no read lock. -/
theorem WakesSafely.of_ne {inode : PlInode} {args : LkArgs} {canBlock : Bool}
    (htype : (args.reqlock canBlock).flType ≠ .rdlck)
    (hkeeps : ¬Strands inode.extList (.setlk args canBlock))
    (hwaits : ¬WaitsUnlike inode.extList (args.reqlock canBlock)) :
    WakesSafely inode (.setlk args canBlock) where
  keeps := hkeeps
  waits _ hrequest _ := by
    cases hrequest
    exact hwaits
  visible _ _ hrequest _ := by
    cases hrequest
    exact not_writerHidden_of_ne htype

theorem blocked_locks_refused_queuedWriters :
    ∃ inode, run plStep PlInode.fresh queuedWriters = some inode ∧
      (∃ l ∈ inode.extList, l.blocked = true) ∧
      ∀ l ∈ inode.extList, l.blocked = true → ¬isLockGrantable inode.extList l := by
  have hguard : GuardedRun plStep WakesSafely PlInode.fresh queuedWriters := by
    iterate 4 refine And.intro (.of_ne (by decide) (by decide) (by decide)) ?_
    trivial
  refine ⟨_, rfl, by decide, ?_⟩
  exact blocked_locks_refused (.of_run queuedWriters .start hguard rfl)

/-- A reader waits for the writer of one part of its range while another
reader holds the other part, and the writer unlocks. -/
def readerBesideReader : List PlRequest :=
  [.setlk (lkArgs .rdlck 5 5 3) false, .setlk (lkArgs .wrlck 10 10 2) false,
    .setlk (lkArgs .rdlck 5 11 1) true,
    .setlk (lkArgs .unlck 10 10 2) false]

/-- `first_overlap` finds the compatible lock of the other reader, so the
waiter is passed over although it is grantable. -/
theorem waiter_left_grantable : ¬∀ inode, Reachable plStep PlInode.fresh inode →
      ∀ l ∈ inode.extList, l.blocked = true → ¬isLockGrantable inode.extList l := by
  intro hall
  obtain ⟨inode, hrun, hreach⟩ := Reachable.exists_of_run plStep PlInode.fresh
    readerBesideReader rfl
  have hrefused := hall inode hreach
  cases hrun
  revert hrefused
  decide

end GlusterFS.Locks
