import GlusterFS.Locks.InsertAndMerge

/-!
# One lock type per offset

POSIX gives every owner at most one lock type on each offset of the file, and
a granted request replaces the type on its range.  `__insert_and_merge` does
so on a table in which overlapping locks of one owner are all read locks, as
long as no write lock of the requester is hidden from the scan: a read request
ends the scan at the first overlapping read lock of another owner.
-/

namespace GlusterFS.Locks

/-- A granted lock of `who`. -/
def Own (who : LkOwner × Nat) (l : PosixLock) : Prop :=
  l.blocked = false ∧ l.key = who

/-- Overlapping granted locks of `who` are all read locks. -/
def CleanFor (who : LkOwner × Nat) (extList : List PosixLock) : Prop :=
  extList.Pairwise fun left right => Own who left → Own who right →
    locksOverlap left right → left.flType = .rdlck ∧ right.flType = .rdlck

/-- Read locks of the requester on `front` that a read request absorbs, one
after the other. -/
inductive Linked (lock : PosixLock) (front : List PosixLock) : PosixLock → Prop
  | direct {l : PosixLock} (hmem : l ∈ front) (hown : Own lock.key l)
      (htype : l.flType = .rdlck) (hoverlap : locksOverlap l lock) :
      Linked lock front l
  | chain {l next : PosixLock} (hlinked : Linked lock front l)
      (hmem : next ∈ front) (hown : Own lock.key next)
      (htype : next.flType = .rdlck) (hoverlap : locksOverlap next l) :
      Linked lock front next

/-- A granted read lock of another owner that overlaps the read request, or a
read lock it absorbs. -/
def Hides (lock : PosixLock) (front : List PosixLock) (reader : PosixLock) :
    Prop :=
  reader.blocked = false ∧ reader.key ≠ lock.key ∧ reader.flType = .rdlck ∧
    (locksOverlap reader lock ∨ ∃ l, Linked lock front l ∧ locksOverlap reader l)

/-- The request is a read lock, and on the list a write lock of the requester
that overlaps it stands behind a read lock of another owner which ends the
scan. -/
def WriterHidden (extList : List PosixLock) (lock : PosixLock) : Prop :=
  lock.flType = .rdlck ∧ ∃ front writer back, extList = front ++ writer :: back ∧
    Meets lock writer ∧ writer.flType = .wrlck ∧
    ∃ reader ∈ front, Hides lock front reader

/-! ## Clean tables -/

theorem CleanFor.sublist {who : LkOwner × Nat} {small large : List PosixLock}
    (hclean : CleanFor who large) (hsub : small.Sublist large) :
    CleanFor who small :=
  List.Pairwise.sublist hsub hclean

theorem CleanFor.of_split {who : LkOwner × Nat} {front back : List PosixLock}
    {conf : PosixLock} (hclean : CleanFor who (front ++ conf :: back))
    (hconf : Own who conf) {l : PosixLock} (hl : l ∈ front ++ back)
    (hown : Own who l) (hoverlap : locksOverlap l conf) :
    l.flType = .rdlck ∧ conf.flType = .rdlck := by
  rw [CleanFor, List.pairwise_append] at hclean
  obtain ⟨-, hback, hcross⟩ := hclean
  rcases List.mem_append.mp hl with hl | hl
  · exact hcross l hl conf (by simp) hown hconf hoverlap
  · have h := (List.pairwise_cons.mp hback).1 l hl hconf hown (locksOverlap_comm.mp hoverlap)
    exact h.symm

variable {extList : List PosixLock}

/-- In a clean table an owner holds at most one type on an offset. -/
theorem CleanFor.holds_unique {who : LkOwner × Nat} (hclean : CleanFor who extList) {offset : Int}
    {left right : LockType} (hleft : Holds extList who offset left)
    (hright : Holds extList who offset right) : left = right := by
  obtain ⟨l, hl, hlg, hlk, hlc, rfl⟩ := hleft
  obtain ⟨r, hr, hrg, hrk, hrc, rfl⟩ := hright
  by_cases heq : l = r
  · rw [heq]
  obtain ⟨front, back, rfl⟩ := List.append_of_mem hr
  have hmem : l ∈ front ++ back := by
    simp only [List.mem_append, List.mem_cons] at hl ⊢
    tauto
  obtain ⟨h1, h2⟩ := hclean.of_split ⟨hrg, hrk⟩ hmem ⟨hlg, hlk⟩ (locksOverlap_of_covers hlc hrc)
  rw [h1, h2]

variable {lock : PosixLock}

theorem cleanFor_append_singleton {who : LkOwner × Nat} :
    CleanFor who (extList ++ [lock]) ↔ CleanFor who extList ∧
      ∀ l ∈ extList, Own who l → Own who lock → locksOverlap l lock →
        l.flType = .rdlck ∧ lock.flType = .rdlck := by
  simp [CleanFor, List.pairwise_append]

/-- Inserting locks of one owner keeps the tables of the others clean. -/
theorem Merges.cleanFor_foreign {who other : LkOwner × Nat} {before pieces after : List PosixLock}
    (hmerge : Merges who before pieces after) (hother : other ≠ who)
    (hclean : CleanFor other before) : CleanFor other after := by
  have hfilter : ∀ table : List PosixLock, CleanFor other table ↔
      CleanFor other (table.filter (Foreign who ·)) := by
    intro table
    rw [CleanFor, CleanFor, List.pairwise_filter]
    constructor
    · exact fun h => h.imp fun hr _ _ => hr
    · refine fun h => h.imp fun {left right} hr hleft hright => ?_
      exact hr (by simp [Foreign, hleft.2, hother])
        (by simp [Foreign, hright.2, hother]) hleft hright
  rw [hfilter, hmerge.foreign, ← hfilter]
  exact hclean

/-! ## Locks that meet only read locks -/

/-- `piece` and what its owner already holds on its range are read locks. -/
def Compatible (extList : List PosixLock) (piece : PosixLock) : Prop :=
  ∀ offset type, piece.covers offset → Holds extList piece.key offset type →
    type = .rdlck ∧ piece.flType = .rdlck

variable {piece : PosixLock}

theorem Compatible.of_meets {l : PosixLock} (hcompatible : Compatible extList piece)
    (hwf : WellFormed extList) (hvalid : piece.flStart ≤ piece.flEnd) (hl : l ∈ extList)
    (hmeets : Meets piece l) : l.flType = .rdlck ∧ piece.flType = .rdlck := by
  obtain ⟨hg, hk, hoverlap⟩ := hmeets
  obtain ⟨offset, hlc, hpc⟩ := (locksOverlap_iff_exists (hwf.valid l hl) hvalid).mp hoverlap
  exact hcompatible offset l.flType hpc ⟨l, hl, hg, hk, hlc, rfl⟩

/-- A lock stays compatible while locks beside it are inserted. -/
theorem Compatible.merges {before pieces after : List PosixLock}
    (hcompatible : Compatible before piece) (hmerge : Merges piece.key before pieces after)
    (hbeside : ∀ other ∈ pieces, ∀ offset, other.covers offset →
      ¬piece.covers offset) : Compatible after piece := by
  intro offset type hcovers hholds
  rcases hmerge.sound offset type hholds with h | ⟨other, hother, hoc, -⟩
  · exact hcompatible offset type hcovers h
  · exact absurd hcovers (hbeside other hother offset hoc)

section Pieces

variable {who : LkOwner × Nat} {pieces before after : List PosixLock}

/-- Locks of `who` that are disjoint and compatible with a clean table. -/
structure Insertable (who : LkOwner × Nat) (before pieces : List PosixLock) : Prop where
  spec : PieceSpec who pieces
  compatible : ∀ piece ∈ pieces, Compatible before piece
  disjoint : pieces.Pairwise fun left right => ¬locksOverlap left right

/-- After the first lock went in, the others can still be inserted. -/
theorem Insertable.tail (hpieces : Insertable who before (piece :: pieces))
    (hmerge : Merges who before [piece] after) : Insertable who after pieces where
  spec other hother := hpieces.spec other (by simp [hother])
  compatible other hother := by
    have hkey := (hpieces.spec other (by simp [hother])).2.1
    refine (hpieces.compatible other (by simp [hother])).merges (hkey ▸ hmerge) ?_
    intro inserted hinserted offset hc hoc
    obtain rfl := List.mem_singleton.mp hinserted
    exact (List.pairwise_cons.mp hpieces.disjoint).1 other hother (locksOverlap_of_covers hc hoc)
  disjoint := (List.pairwise_cons.mp hpieces.disjoint).2

theorem Insertable.append_of_write {motive : List PosixLock → PosixLock → List PosixLock → Prop}
    (hpieces : Insertable who before pieces) (hwf : WellFormed before)
    (htype : ∀ piece ∈ pieces, piece.flType = .wrlck)
    (hturns : InTurns (Inserted motive) before pieces after) : after = before ++ pieces := by
  induction pieces generalizing before with
  | nil => simpa [InTurns, eq_comm] using hturns
  | cons piece pieces ih =>
    obtain ⟨-, rfl, hvalid⟩ := hpieces.spec piece (by simp)
    obtain ⟨hwrite, htype⟩ := List.forall_mem_cons.mp htype
    obtain ⟨middle, hfirst, hrest⟩ := hturns
    have hnone : ∀ l ∈ before, ¬Meets piece l := by
      intro l hl hmeets
      have h := ((hpieces.compatible piece (by simp)).of_meets hwf hvalid hl hmeets).2
      simp [hwrite] at h
    obtain rfl := hfirst.write hnone hwrite
    rw [ih (hpieces.tail hfirst.merges) hfirst.merges.wellFormed htype hrest]
    simp

end Pieces

/-! ## What the recursion can hide -/

/-- A lock is linked through a wider request when what the wider request
overlaps is linked. -/
theorem Linked.transfer {wide l : PosixLock} {front larger : List PosixLock}
    (hkey : wide.key = lock.key) (hsub : ∀ l ∈ front, l ∈ larger)
    (hwide : ∀ l ∈ front, locksOverlap l wide →
      locksOverlap l lock ∨ ∃ link, Linked lock larger link ∧ locksOverlap l link)
    (hlinked : Linked wide front l) : Linked lock larger l := by
  induction hlinked with
  | direct hmem hown htype hoverlap =>
    rcases hwide _ hmem hoverlap with h | ⟨link, hlink, h⟩
    · exact .direct (hsub _ hmem) (hkey ▸ hown) htype h
    · exact .chain hlink (hsub _ hmem) (hkey ▸ hown) htype h
  | chain _ hmem hown htype hoverlap ih =>
    exact .chain ih (hsub _ hmem) (hkey ▸ hown) htype hoverlap

theorem Hides.transfer {wide reader : PosixLock} {front larger : List PosixLock}
    (hkey : wide.key = lock.key) (hsub : ∀ l ∈ front, l ∈ larger)
    (hwide : ∀ l ∈ front, locksOverlap l wide →
      locksOverlap l lock ∨ ∃ link, Linked lock larger link ∧ locksOverlap l link)
    (hreader : reader ∈ front) (hhides : Hides wide front reader) : Hides lock larger reader := by
  obtain ⟨hgranted, howner, htype, hcase⟩ := hhides
  refine ⟨hgranted, hkey ▸ howner, htype, ?_⟩
  rcases hcase with h | ⟨l, hlinked, h⟩
  · exact hwide reader hreader h
  · exact .inr ⟨l, hlinked.transfer hkey hsub hwide, h⟩

/-- A write lock that is hidden from the request passed on was hidden from the
request itself. -/
theorem WriterHidden.restore {conf wide : PosixLock} {front back : List PosixLock}
    (hkey : wide.key = lock.key) (htype : wide.flType = lock.flType)
    (hfront : ∀ l ∈ front, ¬Meets lock l)
    (hwriter : ∀ l ∈ front ++ back, l.flType = .wrlck → Meets wide l →
      Meets lock l) (hwide : ∀ larger, conf ∈ larger → ∀ l ∈ front ++ back,
      locksOverlap l wide → locksOverlap l lock ∨
        ∃ link, Linked lock larger link ∧ locksOverlap l link)
    (hhidden : WriterHidden (front ++ back) wide) : WriterHidden (front ++ conf :: back) lock := by
  obtain ⟨hread, seen, writer, rest, hsplit, hmeets, hwrite, reader, hreader, hhides⟩ := hhidden
  have hmeetsLock : Meets lock writer :=
    hwriter writer (by simp [hsplit]) hwrite hmeets
  -- the writer stands behind `front`, whose locks do not meet the request
  obtain ⟨behind, rfl, rfl⟩ :
      ∃ behind, seen = front ++ behind ∧ back = behind ++ writer :: rest := by
    rcases List.append_eq_append_iff.mp hsplit with
      ⟨behind, hseen, hback⟩ | ⟨extra, hfrontEq, hrest⟩
    · exact ⟨behind, hseen, hback⟩
    · cases extra with
      | nil => exact ⟨[], by simpa using hfrontEq.symm, by simpa using hrest.symm⟩
      | cons head extra =>
        obtain ⟨rfl, -⟩ : writer = head ∧ _ := by simpa using hrest
        exact absurd hmeetsLock (hfront writer (by simp [hfrontEq]))
  refine ⟨htype ▸ hread, front ++ conf :: behind, writer, rest, by simp,
    hmeetsLock, hwrite, reader, ?_, ?_⟩
  · simp only [List.mem_append, List.mem_cons] at hreader ⊢
    tauto
  · refine hhides.transfer hkey ?_ ?_ hreader
    · intro l hl
      simp only [List.mem_append, List.mem_cons] at hl ⊢
      tauto
    · exact fun l hl => hwide _ (by simp) l (by simp at hl ⊢; tauto)

/-- Locks at the tail that do not meet the request hide nothing. -/
theorem WriterHidden.of_append {tail : List PosixLock} (htail : ∀ l ∈ tail, ¬Meets lock l)
    (hhidden : WriterHidden (extList ++ tail) lock) : WriterHidden extList lock := by
  obtain ⟨hread, seen, writer, rest, hsplit, hmeets, hwrite⟩ := hhidden
  rcases List.append_eq_append_iff.mp hsplit with
    ⟨behind, -, htailEq⟩ | ⟨extra, hext, hrest⟩
  · exact absurd hmeets (htail writer (by simp [htailEq]))
  cases extra with
  | nil =>
    have hmem : writer ∈ tail := by
      simp only [List.nil_append] at hrest
      simp [← hrest]
    exact absurd hmeets (htail writer hmem)
  | cons head extra =>
    obtain ⟨rfl, -⟩ : writer = head ∧ _ := by simpa using hrest
    exact ⟨hread, seen, writer, extra, hext, hmeets, hwrite⟩

end GlusterFS.Locks
