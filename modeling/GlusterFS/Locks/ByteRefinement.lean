import GlusterFS.Locks.ByteTypes
import GlusterFS.Locks.Exclusion

/-!
# The lock table refines the per-offset model

A granted request of an owner assigns its type to the offsets of its range and
changes nothing else.  `__insert_and_merge` has this effect in every run in
which no merged read request has a write lock of its owner hidden behind a
read lock of another owner.
-/

namespace GlusterFS.Locks

open GlusterFS.Transition

/-- The owner of `lock` holds no other type on the range of `lock`. -/
def Exact (extList : List PosixLock) (lock : PosixLock) : Prop :=
  ∀ offset type, lock.covers offset → Holds extList lock.key offset type → type = lock.flType

section Cases

variable {lock conf : PosixLock} {front back after extList : List PosixLock}

/-- A lock that goes to the tail is alone on its range when every lock of the
owner that overlaps it is a read lock like itself. -/
theorem clean_exact_insert_tail (hclean : CleanFor lock.key extList)
    (hmeets : ∀ l ∈ extList, Meets lock l → l.flType = .rdlck ∧ lock.flType = .rdlck) :
    CleanFor lock.key (extList ++ [lock]) ∧ Exact (extList ++ [lock]) lock := by
  constructor
  · refine cleanFor_append_singleton.mpr ⟨hclean, ?_⟩
    intro l hl hown _ hoverlap
    exact hmeets l hl ⟨hown.1, hown.2, hoverlap⟩
  · intro offset type hcovers hholds
    rcases Holds.append.mp hholds with ⟨l, hl, hlg, hlk, hlc, rfl⟩ | h
    · obtain ⟨h1, h2⟩ :=
        hmeets l hl ⟨hlg, hlk, locksOverlap_of_covers hlc hcovers⟩
      rw [h1, h2]
    · exact (holds_singleton.mp h).2.2.2.symm

/-- A read request that ends its scan early meets only read locks of its
owner, unless a write lock is hidden. -/
theorem meets_read_of_stops (hwf : WellFormed (front ++ conf :: back))
    (hfront : ∀ l ∈ front, ¬Meets lock l) (hstops : Stops lock conf)
    (hvisible : ¬WriterHidden (front ++ conf :: back) lock) :
    ∀ l ∈ front ++ conf :: back, Meets lock l → l.flType = .rdlck ∧ lock.flType = .rdlck := by
  obtain ⟨hcg, hck, hco, hct, hread⟩ := hstops
  intro l hl hmeets
  refine ⟨?_, hread⟩
  by_contra hne
  have hwrite : l.flType = .wrlck := by
    have h := hwf.locked l hl
    revert h hne
    cases l.flType <;> simp
  rcases List.mem_append.mp hl with hl | hl
  · exact hfront l hl hmeets
  rcases List.mem_cons.mp hl with rfl | hl
  · exact hck hmeets.2.1
  obtain ⟨seen, rest, rfl⟩ := List.append_of_mem hl
  exact hvisible ⟨hread, front ++ conf :: seen, l, rest, by simp, hmeets, hwrite,
    conf, by simp, hcg, hck, hct, .inl hco⟩

/-- The union with a lock of the same type hides nothing new. -/
theorem not_writerHidden_union (hwf : WellFormed (front ++ conf :: back))
    (hclean : CleanFor lock.key (front ++ conf :: back))
    (hfront : ∀ l ∈ front, ¬Meets lock l) (hmeets : Meets lock conf)
    (htype : conf.flType = lock.flType)
    (hvisible : ¬WriterHidden (front ++ conf :: back) lock) :
    ¬WriterHidden (front ++ back) (unionLock lock conf) := by
  intro hhidden
  have hread : lock.flType = .rdlck := hhidden.1
  have hunion : ∀ l ∈ front ++ back, locksOverlap l (unionLock lock conf) →
      locksOverlap l lock ∨ locksOverlap l conf := by
    intro l hl
    have hl := hwf.remove.valid l hl
    have hoverlap := hmeets.2.2
    simp only [locksOverlap, unionLock, PosixLock.refreshFlock, addLocks] at *
    omega
  have hkey : (unionLock lock conf).key = lock.key := rfl
  have hsame : (unionLock lock conf).flType = lock.flType := rfl
  refine hvisible (hhidden.restore hkey hsame hfront ?_ ?_)
  · -- a write lock cannot overlap `conf`, so it overlaps the request
    rintro l hl hwrite ⟨hlg, hlk, hoverlap⟩
    rcases hunion l hl hoverlap with h | h
    · exact ⟨hlg, hlk, h⟩
    · have h := (hclean.of_split ⟨hmeets.1, hmeets.2.1⟩ hl ⟨hlg, hlk⟩ h).1
      simp [hwrite] at h
  · intro larger hmem l hl hoverlap
    refine (hunion l hl hoverlap).imp_right fun h => ⟨conf, ?_, h⟩
    exact .direct hmem ⟨hmeets.1, hmeets.2.1⟩ (htype.trans hread) hmeets.2.2

/-- The remnants of a lock go back into the table without trouble. -/
theorem insertable_remnants {pieces : List PosixLock}
    (hclean : CleanFor lock.key (front ++ conf :: back))
    (hmeets : Meets lock conf)
    (hremnant : ∀ piece ∈ pieces, Remnant lock conf piece)
    (hdisjoint : pieces.Pairwise fun left right => ¬locksOverlap left right) :
    Insertable lock.key (front ++ back) pieces where
  spec piece hpiece :=
    ⟨(hremnant piece hpiece).granted,
      (hremnant piece hpiece).key.trans hmeets.2.1, (hremnant piece hpiece).valid⟩
  compatible piece hpiece := by
    have hrem := hremnant piece hpiece
    rintro offset type hcovers ⟨l, hl, hlg, hlk, hlc, rfl⟩
    obtain ⟨h1, h2⟩ := hclean.of_split ⟨hmeets.1, hmeets.2.1⟩ hl
      ⟨hlg, hlk.trans (hrem.key.trans hmeets.2.1)⟩
      (locksOverlap_of_covers hlc (hrem.inside offset hcovers))
    exact ⟨h1, hrem.type.trans h2⟩
  disjoint := hdisjoint

end Cases

/-- A clean table stays clean, and the request is alone on its range. -/
def KeepsClean (before : List PosixLock) (lock : PosixLock) (after : List PosixLock) : Prop :=
  CleanFor lock.key before → ¬WriterHidden before lock → CleanFor lock.key after ∧ Exact after lock

theorem Insertable.cleanFor {who : LkOwner × Nat} {before pieces after : List PosixLock}
    (hpieces : Insertable who before pieces) (hwf : WellFormed before)
    (hclean : CleanFor who before) (hturns : InTurns (Inserted KeepsClean) before pieces after) :
    CleanFor who after := by
  induction pieces generalizing before with
  | nil => exact hturns ▸ hclean
  | cons piece pieces ih =>
    obtain ⟨-, rfl, hvalid⟩ := hpieces.spec piece (by simp)
    obtain ⟨middle, hfirst, hrest⟩ := hturns
    have hvisible : ¬WriterHidden before piece := by
      rintro ⟨-, front, writer, back, rfl, hmeets, htype, -⟩
      have h := ((hpieces.compatible piece (by simp)).of_meets hwf hvalid (by simp) hmeets).1
      simp [htype] at h
    exact ih (hpieces.tail hfirst.merges) hfirst.merges.wellFormed
      (hfirst.kept hclean hvisible).1 hrest

/-- The pieces that replace `conf` and the request are inserted one after the
other: first what `conf` leaves before the request, then the request, then
the rest. -/
theorem InTurns.keepsClean {lock conf : PosixLock} {front back pieces after : List PosixLock}
    (hwf : WellFormed (front ++ conf :: back)) (hfront : ∀ l ∈ front, ¬Meets lock l)
    (hmeets : Meets lock conf) (hvalid : lock.flStart ≤ lock.flEnd)
    (htype : conf.flType ≠ lock.flType) (hsplit : SplitSpec lock conf pieces)
    (hturns : InTurns (Inserted KeepsClean) (front ++ back) pieces after) :
    KeepsClean (front ++ conf :: back) lock after := by
  intro hclean hvisible
  obtain ⟨left, body, right, rfl, hbody, hremnant, hdisjoint, -⟩ := hsplit.shape
  have hothers := hwf.remove
  have hothersClean : CleanFor lock.key (front ++ back) := by
    refine hclean.sublist ?_
    simp
  obtain ⟨first, hfirst, second, hsecond, hthird⟩ := inTurns_append.mp hturns
  -- the remnants in front
  have hall := insertable_remnants hclean hmeets hremnant hdisjoint
  have hleft : Insertable lock.key (front ++ back) left :=
    ⟨fun piece hpiece => hall.spec piece (by simp [hpiece]),
      fun piece hpiece => hall.compatible piece (by simp [hpiece]),
      (List.pairwise_append.mp hdisjoint).1⟩
  have hfirstMerges := hfirst.merges hleft.spec hothers
  -- the request
  have hbodyValid : body.flStart ≤ body.flEnd := by
    rw [hbody.start, hbody.stop]
    exact hvalid
  have hbodyVisible : ¬WriterHidden first body := by
    intro hhidden
    have hread : lock.flType = .rdlck := hbody.type ▸ hhidden.1
    have hwrite : conf.flType = .wrlck := by
      have h := hwf.locked conf (by simp)
      rw [hread] at htype
      revert h htype
      cases conf.flType <;> simp
    obtain rfl := hleft.append_of_write hothers
      (fun piece hpiece => (hremnant piece (by simp [hpiece])).type.trans hwrite) hfirst
    have hsame : ∀ l, locksOverlap l body ↔ locksOverlap l lock := by
      intro l
      simp only [locksOverlap, hbody.start, hbody.stop]
    have hhidden := hhidden.of_append fun l hl hmeetsBody => by
      have hrem := hremnant l (by simp [hl])
      obtain ⟨offset, hlc, hbc⟩ :=
        (locksOverlap_iff_exists hrem.valid hbodyValid).mp hmeetsBody.2.2
      exact hrem.outside offset hlc ((hbody.covers_iff offset).mp hbc)
    refine hvisible (hhidden.restore hbody.key hbody.type hfront ?_ ?_)
    · rintro l - - ⟨hlg, hlk, hoverlap⟩
      exact ⟨hlg, hlk.trans hbody.key, (hsame l).mp hoverlap⟩
    · exact fun _ _ l _ hoverlap => .inl ((hsame l).mp hoverlap)
  obtain ⟨hsecondClean, hsecondExact⟩ := hsecond.kept
    (hbody.key ▸ hleft.cleanFor hothers hothersClean hfirst) hbodyVisible
  have hsecondMerges := hsecond.merges
  rw [hbody.key] at hsecondMerges hsecondClean
  -- the remnants behind
  have hright : Insertable lock.key second right := by
    refine ⟨fun piece hpiece => hall.spec piece (by simp [hpiece]), ?_,
      (List.pairwise_append.mp hdisjoint).2.1⟩
    intro piece hpiece
    have hrem := hremnant piece (by simp [hpiece])
    have hkey : piece.key = lock.key := hrem.key.trans hmeets.2.1
    refine ((hall.compatible piece (by simp [hpiece])).merges
      (hkey ▸ hfirstMerges) ?_).merges (hkey ▸ hsecondMerges) ?_
    · intro other hother offset hoc hpc
      exact (List.pairwise_append.mp hdisjoint).2.2 other hother piece hpiece
        (locksOverlap_of_covers hoc hpc)
    · intro other hother offset hoc hpc
      obtain rfl := List.mem_singleton.mp hother
      exact hrem.outside offset hpc ((hbody.covers_iff offset).mp hoc)
  refine ⟨hright.cleanFor hsecondMerges.wellFormed hsecondClean hthird, ?_⟩
  intro offset type hcovers hholds
  have hthirdMerges := hthird.merges hright.spec hsecondMerges.wellFormed
  rcases hthirdMerges.sound offset type hholds with h | ⟨piece, hpiece, hpc, -⟩
  · rw [← hbody.key] at h
    rw [← hbody.type]
    exact hsecondExact offset type ((hbody.covers_iff offset).mpr hcovers) h
  · exact absurd hcovers ((hremnant piece (by simp [hpiece])).outside offset hpc)

/-! ## The per-offset model -/

/-- `after` gives the owner of `lock` exactly the type of `lock` on its range,
and nothing there for an unlock, and is `before` everywhere else. -/
structure AssignsRange (before : List PosixLock) (lock : PosixLock)
    (after : List PosixLock) : Prop where
  inside : ∀ offset type, lock.covers offset →
    (Holds after lock.key offset type ↔ type = lock.flType ∧ type ≠ .unlck)
  outside : ∀ offset type, ¬lock.covers offset →
    (Holds after lock.key offset type ↔ Holds before lock.key offset type)
  others : ∀ other offset type, other ≠ lock.key →
    (Holds after other offset type ↔ Holds before other offset type)

theorem insertAndMerge_clean_exact {extList : List PosixLock}
    {lock : PosixLock} (hwf : WellFormed extList) (hlock : Admissible lock)
    (hclean : CleanFor lock.key extList)
    (hvisible : ¬WriterHidden extList lock) :
    CleanFor lock.key (insertAndMerge extList lock) ∧ Exact (insertAndMerge extList lock) lock := by
  refine (insertAndMerge_induction (motive := KeepsClean) ?_ ?_ ?_ InTurns.keepsClean hwf
    hlock.granted hlock.valid).kept hclean hvisible
  · rintro extList lock hwf - (hnone | ⟨front, conf, back, rfl, hfront, hstops⟩) hclean hvisible
    · exact clean_exact_insert_tail hclean fun l hl hm => absurd hm (hnone l hl)
    · exact clean_exact_insert_tail hclean (meets_read_of_stops hwf hfront hstops hvisible)
  · refine fun hnone _ hclean _ => ⟨hclean, ?_⟩
    rintro offset type hcovers ⟨l, hl, hlg, hlk, hlc, -⟩
    exact absurd ⟨hlg, hlk, locksOverlap_of_covers hlc hcovers⟩ (hnone l hl)
  · intro front conf back lock after hwf hfront hmeets _ htype hkept hclean hvisible
    obtain ⟨hresult, hexact⟩ := hkept (hclean.sublist (by simp))
      (not_writerHidden_union hwf hclean hfront hmeets htype hvisible)
    refine ⟨hresult, fun offset type hcovers hholds => ?_⟩
    exact hexact offset type ((unionLock_covers hmeets.2.2 offset).mpr (.inl hcovers)) hholds

theorem insertAndMerge_assignsRange {extList : List PosixLock}
    {lock : PosixLock} (hwf : WellFormed extList) (hlock : Admissible lock)
    (hclean : CleanFor lock.key extList)
    (hvisible : ¬WriterHidden extList lock) :
    AssignsRange extList lock (insertAndMerge extList lock) := by
  have hmerge := insertAndMerge_merges hwf hlock.granted hlock.valid
  obtain ⟨-, hexact⟩ := insertAndMerge_clean_exact hwf hlock hclean hvisible
  refine ⟨?_, ?_, fun other offset type hother =>
    hmerge.holds_foreign hother offset type⟩
  · intro offset type hcovers
    constructor
    · intro hholds
      exact ⟨hexact offset type hcovers hholds, hholds.type_ne_unlck hmerge.wellFormed⟩
    · rintro ⟨rfl, hunlck⟩
      obtain ⟨type, hholds⟩ := hmerge.cover offset
        (by simpa using fun h => absurd h hunlck) (.inr ⟨lock, by simp, hcovers⟩)
      exact hexact offset type hcovers hholds ▸ hholds
  · intro offset type houtside
    have hsound : ∀ type, Holds (insertAndMerge extList lock) lock.key offset type →
        Holds extList lock.key offset type := by
      intro type hholds
      refine (hmerge.sound offset type hholds).resolve_right ?_
      simp [houtside]
    refine ⟨hsound type, fun hholds => ?_⟩
    obtain ⟨held, hheld⟩ := hmerge.cover offset (by simp [houtside]) (.inl ⟨type, hholds⟩)
    exact hclean.holds_unique (hsound held hheld) hholds ▸ hheld

theorem cleanFor_insertAndMerge {extList : List PosixLock} {lock : PosixLock}
    (hwf : WellFormed extList) (hlock : Admissible lock)
    (hclean : ∀ who, CleanFor who extList) (hvisible : ¬WriterHidden extList lock)
    (who : LkOwner × Nat) : CleanFor who (insertAndMerge extList lock) := by
  by_cases hwho : who = lock.key
  · subst hwho
    exact (insertAndMerge_clean_exact hwf hlock (hclean _) hvisible).1
  · exact (insertAndMerge_merges hwf hlock.granted hlock.valid).cleanFor_foreign hwho
      (hclean who)

/-! ## Runs -/

/-- No merge on the trace had a write lock of its owner hidden. -/
def VisibleMerges (trace : List LkEvent) : Prop :=
  ∀ extList lock, .merge extList lock ∈ trace → ¬WriterHidden extList lock

/-- Each owner has one type per offset, and every merge so far assigned it. -/
structure ByteInv (inode : PlInode) : Prop where
  wellFormed : WellFormed inode.extList
  clean : ∀ who, CleanFor who inode.extList
  assigns : ∀ extList lock, .merge extList lock ∈ inode.trace →
    AssignsRange extList lock (insertAndMerge extList lock)

theorem TableStep.trace_subset {before after : PlInode}
    (hstep : TableStep before after) : before.trace ⊆ after.trace := by
  cases hstep with
  | merge => exact List.subset_append_left _ _
  | block => exact List.Subset.refl _
  | drop => exact List.Subset.refl _
  | answer => exact List.subset_append_left _ _

theorem TableStep.byteInv {before after : PlInode}
    (hstep : TableStep before after) (hvisible : VisibleMerges after.trace)
    (hinv : ByteInv before) : ByteInv after := by
  have hwf := hinv.wellFormed
  refine ⟨hstep.wellFormed hwf, ?_, ?_⟩
  · intro who
    cases hstep with
    | merge hlock _ =>
      exact cleanFor_insertAndMerge hwf hlock hinv.clean
        (hvisible _ _ (by simp [PlInode.insertAndMerge])) who
    | @block lock hblocked _ _ =>
      refine cleanFor_append_singleton.mpr ⟨hinv.clean who, ?_⟩
      intro l _ _ hown
      simp [Own, hblocked] at hown
    | drop keep => exact (hinv.clean who).sublist List.filter_sublist
    | answer => exact hinv.clean who
  · intro extList lock hmem
    cases hstep with
    | merge hlock _ =>
      rcases List.mem_append.mp hmem with hmem | hmem
      · exact hinv.assigns extList lock hmem
      · cases List.mem_singleton.mp hmem
        exact insertAndMerge_assignsRange hwf hlock (hinv.clean _)
          (hvisible _ _ (by simp [PlInode.insertAndMerge]))
    | block => exact hinv.assigns extList lock hmem
    | drop => exact hinv.assigns extList lock hmem
    | answer hreplies =>
      rcases List.mem_append.mp hmem with hmem | hmem
      · exact hinv.assigns extList lock hmem
      · exact absurd hmem (hreplies extList lock)

theorem TableSteps.byteInv {before after : PlInode}
    (hsteps : TableSteps before after) (hvisible : VisibleMerges after.trace)
    (hinv : ByteInv before) : ByteInv after := by
  induction hsteps with
  | refl => exact hinv
  | tail hsteps hstep ih =>
    exact hstep.byteInv hvisible (ih fun extList lock hmem =>
      hvisible extList lock (hstep.trace_subset hmem))

/-- The request makes no merge that has a write lock of its owner hidden. -/
def MergesVisibly (before : PlInode) (request : PlRequest) : Prop :=
  VisibleMerges (grantBlockedLocks (request.locked before)).trace

theorem byteInv_of_reachableUnder {inode : PlInode}
    (hreach : ReachableUnder plStep MergesVisibly PlInode.fresh inode) :
    ByteInv inode := by
  refine hreach.invariant ?_ ?_
  · exact ⟨tableInv_fresh.wellFormed, by simp [CleanFor, PlInode.fresh], by simp [PlInode.fresh]⟩
  · intro before request after hinv hguard hstep
    have hsteps := plStep_steps hinv.wellFormed hstep
    cases hstep
    exact TableSteps.byteInv hsteps hguard hinv

/-- In every run whose requests merge visibly, every merge assigns the type of
the request to its range and changes nothing else. -/
theorem merge_assigns_range {inode : PlInode}
    (hreach : ReachableUnder plStep MergesVisibly PlInode.fresh inode)
    (extList : List PosixLock) (lock : PosixLock)
    (hmerge : .merge extList lock ∈ inode.trace) :
    AssignsRange extList lock (insertAndMerge extList lock) :=
  (byteInv_of_reachableUnder hreach).assigns extList lock hmerge

/-- Every merge met a table of its own owner only. -/
def singleOwnerMerges (trace : List LkEvent) : Bool :=
  trace.all fun
    | .merge extList lock => extList.all fun l => l.key = lock.key
    | .unwind _ _ _ => true

/-- A table of one owner hides nothing. -/
theorem visibleMerges_of_singleOwner {trace : List LkEvent}
    (hsingle : singleOwnerMerges trace = true) : VisibleMerges trace := by
  intro extList lock hmem
  have hkeys : ∀ l ∈ extList, l.key = lock.key := by
    simpa using List.all_eq_true.mp hsingle _ hmem
  rintro ⟨-, front, writer, back, rfl, -, -, reader, hreader, -, hkey, -⟩
  exact hkey (hkeys reader (by simp [hreader]))

/-- A writer of a range. -/
def singleWriter : PlRequest :=
  .setlk (lkArgs .wrlck 0 10 1) false

/-- The writer turns the middle of its range into a read lock. -/
def downgradeMiddle : PlRequest :=
  .setlk (lkArgs .rdlck 3 2 1) false

theorem merge_assigns_range_downgrade : ∃ inode extList lock,
      run plStep PlInode.fresh [singleWriter, downgradeMiddle] = some inode ∧
      .merge extList lock ∈ inode.trace ∧ extList ≠ [] ∧
      AssignsRange extList lock (insertAndMerge extList lock) := by
  have hfirst : MergesVisibly PlInode.fresh singleWriter :=
    visibleMerges_of_singleOwner (by decide)
  have hsecond : MergesVisibly
      (grantBlockedLocks (singleWriter.locked PlInode.fresh)) downgradeMiddle :=
    visibleMerges_of_singleOwner (by decide)
  have hmem : .merge (grantBlockedLocks (singleWriter.locked PlInode.fresh)).extList
      ((lkArgs .rdlck 3 2 1).reqlock false) ∈
      (grantBlockedLocks (downgradeMiddle.locked
        (grantBlockedLocks (singleWriter.locked PlInode.fresh)))).trace := by
    decide
  exact ⟨_, _, _, rfl, hmem, by decide,
    merge_assigns_range (.next (.next .start hfirst rfl) hsecond rfl) _ _ hmem⟩

/-- The lock of another reader, the write lock beside it, and the read lock
that its owner asks for over both ranges. -/
def otherReader : LkArgs := lkArgs .rdlck 5 5 2

@[inherit_doc otherReader]
def writerBeside : LkArgs := lkArgs .wrlck 0 5 1

@[inherit_doc otherReader]
def readOverBoth : LkArgs := lkArgs .rdlck 0 10 1

/-- The scan of the last request ends at the lock of the other reader, and the
write lock behind it survives on offsets that were asked to be read locked. -/
theorem merge_leaves_write_lock : ¬∀ inode, Reachable plStep PlInode.fresh inode →
      ∀ extList lock, .merge extList lock ∈ inode.trace →
        AssignsRange extList lock (insertAndMerge extList lock) := by
  intro hall
  obtain ⟨inode, hrun, hreach⟩ := Reachable.exists_of_run plStep PlInode.fresh
    [.setlk otherReader false, .setlk writerBeside false, .setlk readOverBoth false] rfl
  have hmem : .merge [otherReader.reqlock false, writerBeside.reqlock false]
      (readOverBoth.reqlock false) ∈ inode.trace := by
    cases hrun
    decide
  have hassigns := hall inode hreach _ _ hmem
  have hholds : Holds (insertAndMerge [otherReader.reqlock false, writerBeside.reqlock false]
      (readOverBoth.reqlock false)) (readOverBoth.reqlock false).key 0 .wrlck :=
    ⟨writerBeside.reqlock false, by decide, rfl, rfl, by decide, rfl⟩
  have htype := ((hassigns.inside 0 .wrlck (by decide)).mp hholds).1
  revert htype
  decide

end GlusterFS.Locks
