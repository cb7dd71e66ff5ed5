import GlusterFS.Locks.MergeScan
import Mathlib.Algebra.Order.BigOperators.Group.List
import Mathlib.Algebra.Order.Group.Nat

/-!
# What `__insert_and_merge` does to a lock table

The effect of inserting a list of locks of one owner, stated on the offsets
that the owner holds and with which type.  Nothing here assumes that the table
is free of overlapping locks of one owner.
-/

namespace GlusterFS.Locks

open Relation

/-- A granted lock of `who` covers `offset` with `type`. -/
def Holds (extList : List PosixLock) (who : LkOwner × Nat) (offset : Int)
    (type : LockType) : Prop :=
  ∃ l ∈ extList, l.blocked = false ∧ l.key = who ∧ l.covers offset ∧ l.flType = type

/-- Ranges are not empty and no unlock is ever left on the list. -/
structure WellFormed (extList : List PosixLock) : Prop where
  valid : ∀ l ∈ extList, l.flStart ≤ l.flEnd
  locked : ∀ l ∈ extList, l.flType ≠ .unlck

def Valid (extList : List PosixLock) : Prop :=
  ∀ l ∈ extList, l.flStart ≤ l.flEnd

/-- A waiting lock, or a lock of an owner other than `who`. -/
def Foreign (who : LkOwner × Nat) (l : PosixLock) : Prop :=
  l.blocked = true ∨ l.key ≠ who
  deriving Decidable

/-- `after` is a table in which the locks `pieces` of `who` were inserted one
after the other. -/
structure Merges (who : LkOwner × Nat) (before pieces after : List PosixLock) : Prop where
  wellFormed : WellFormed after
  sound : ∀ offset type, Holds after who offset type → Holds before who offset type ∨
      ∃ piece ∈ pieces, piece.covers offset ∧ piece.flType = type
  cover : ∀ offset, (∀ piece ∈ pieces, piece.flType = .unlck → ¬piece.covers offset) →
    ((∃ type, Holds before who offset type) ∨ ∃ piece ∈ pieces, piece.covers offset) →
    ∃ type, Holds after who offset type
  foreign : after.filter (Foreign who ·) = before.filter (Foreign who ·)
  mass : ownMass who after ≤ ownMass who before + (pieces.map PosixLock.length).sum

/-- Locks of `who` that may be inserted as granted. -/
def PieceSpec (who : LkOwner × Nat) (pieces : List PosixLock) : Prop :=
  ∀ piece ∈ pieces, piece.blocked = false ∧ piece.key = who ∧ piece.flStart ≤ piece.flEnd

variable {who : LkOwner × Nat} {type : LockType} {offset : Int}

theorem Holds.append {left right : List PosixLock} : Holds (left ++ right) who offset type ↔
      Holds left who offset type ∨ Holds right who offset type := by
  simp only [Holds, List.mem_append, or_and_right, exists_or]

theorem holds_singleton {l : PosixLock} : Holds [l] who offset type ↔
      l.blocked = false ∧ l.key = who ∧ l.covers offset ∧ l.flType = type := by
  simp [Holds]

variable {extList : List PosixLock}

theorem Holds.type_ne_unlck (hwf : WellFormed extList) (hholds : Holds extList who offset type) :
    type ≠ .unlck := by
  obtain ⟨l, hl, -, -, -, rfl⟩ := hholds
  exact hwf.locked l hl

theorem wellFormed_append {left right : List PosixLock} :
    WellFormed (left ++ right) ↔ WellFormed left ∧ WellFormed right := by
  constructor
  · intro h
    refine ⟨⟨?_, ?_⟩, ⟨?_, ?_⟩⟩ <;> intro l hl
    · exact h.valid l (by simp [hl])
    · exact h.locked l (by simp [hl])
    · exact h.valid l (by simp [hl])
    · exact h.locked l (by simp [hl])
  · rintro ⟨hleft, hright⟩
    refine ⟨?_, ?_⟩ <;> intro l hl <;> rcases List.mem_append.mp hl with hl | hl
    · exact hleft.valid l hl
    · exact hright.valid l hl
    · exact hleft.locked l hl
    · exact hright.locked l hl

theorem WellFormed.remove {front back : List PosixLock} {conf : PosixLock}
    (hwf : WellFormed (front ++ conf :: back)) : WellFormed (front ++ back) := by
  obtain ⟨hfront, hback⟩ := wellFormed_append.mp hwf
  exact wellFormed_append.mpr ⟨hfront, (wellFormed_append.mp (List.singleton_append ▸ hback)).2⟩

variable {before pieces : List PosixLock}

theorem Merges.holds_foreign {other : LkOwner × Nat} {after : List PosixLock}
    (hmerge : Merges who before pieces after) (hother : other ≠ who) (offset : Int)
    (type : LockType) : Holds after other offset type ↔ Holds before other offset type := by
  have hfilter : ∀ table : List PosixLock, Holds table other offset type ↔
      Holds (table.filter (Foreign who ·)) other offset type := by
    intro table
    constructor
    · rintro ⟨l, hl, hgranted, hkey, h⟩
      exact ⟨l, by simp [hl, Foreign, hkey, hother], hgranted, hkey, h⟩
    · rintro ⟨l, hl, h⟩
      exact ⟨l, List.mem_of_mem_filter hl, h⟩
  rw [hfilter after, hfilter before, hmerge.foreign]

theorem Merges.blocked_mem_iff {after : List PosixLock} (hmerge : Merges who before pieces after)
    {l : PosixLock} (hblocked : l.blocked = true) : l ∈ after ↔ l ∈ before := by
  have hfilter : ∀ table : List PosixLock, l ∈ table ↔ l ∈ table.filter (Foreign who ·) := by
    intro table
    simp [Foreign, hblocked]
  rw [hfilter after, hfilter before, hmerge.foreign]

/-! ## Composition -/

theorem Merges.nil (hwf : WellFormed before) : Merges who before [] before where
  wellFormed := hwf
  sound _ _ h := .inl h
  cover _ _ h := h.resolve_right (by simp)
  foreign := rfl
  mass := by simp

theorem Merges.trans {middle after first second : List PosixLock}
    (hfirst : Merges who before first middle) (hsecond : Merges who middle second after) :
    Merges who before (first ++ second) after where
  wellFormed := hsecond.wellFormed
  sound offset type hholds := by
    rcases hsecond.sound offset type hholds with hmiddle | ⟨piece, hpiece, h⟩
    · rcases hfirst.sound offset type hmiddle with hbefore | ⟨piece, hpiece, h⟩
      · exact .inl hbefore
      · exact .inr ⟨piece, by simp [hpiece], h⟩
    · exact .inr ⟨piece, by simp [hpiece], h⟩
  cover offset hunlck hheld := by
    have hmiddle := hfirst.cover offset fun piece hpiece =>
      hunlck piece (by simp [hpiece])
    apply hsecond.cover offset fun piece hpiece =>
      hunlck piece (by simp [hpiece])
    rcases hheld with hbefore | ⟨piece, hpiece, hcovers⟩
    · exact .inl (hmiddle (.inl hbefore))
    rcases List.mem_append.mp hpiece with hpiece | hpiece
    · exact .inl (hmiddle (.inr ⟨piece, hpiece, hcovers⟩))
    · exact .inr ⟨piece, hpiece, hcovers⟩
  foreign := hsecond.foreign.trans hfirst.foreign
  mass := by
    have h1 := hfirst.mass
    have h2 := hsecond.mass
    simp only [List.map_append, List.sum_append]
    omega

/-! ## The cases of one call -/

section Cases

variable {lock conf : PosixLock} {front back after : List PosixLock}

theorem Merges.insert_tail (hwf : WellFormed before) (hgranted : lock.blocked = false)
    (hvalid : lock.flStart ≤ lock.flEnd) (htype : lock.flType ≠ .unlck) :
    Merges lock.key before [lock] (before ++ [lock]) where
  wellFormed := wellFormed_append.mpr ⟨hwf, ⟨by simpa using hvalid, by simpa using htype⟩⟩
  sound offset type hholds := by
    rcases Holds.append.mp hholds with h | h
    · exact .inl h
    · obtain ⟨-, -, hcovers, htype⟩ := holds_singleton.mp h
      exact .inr ⟨lock, by simp, hcovers, htype⟩
  cover offset _ hheld := by
    rcases hheld with ⟨type, h⟩ | ⟨piece, hpiece, hcovers⟩
    · exact ⟨type, Holds.append.mpr (.inl h)⟩
    · obtain rfl := List.mem_singleton.mp hpiece
      exact ⟨_, Holds.append.mpr (.inr (holds_singleton.mpr ⟨hgranted, rfl, hcovers, rfl⟩))⟩
  foreign := by simp [Foreign, hgranted]
  mass := by simp [ownMass, hgranted]

theorem Merges.unlock_nothing (hwf : WellFormed before) (htype : lock.flType = .unlck) :
    Merges lock.key before [lock] before where
  wellFormed := hwf
  sound _ _ hholds := .inl hholds
  cover offset hunlck hheld := by
    rcases hheld with h | ⟨piece, hpiece, hcovers⟩
    · exact h
    · obtain rfl := List.mem_singleton.mp hpiece
      exact absurd hcovers (hunlck _ (by simp) htype)
  foreign := rfl
  mass := by simp

theorem filter_foreign_remove (hgranted : conf.blocked = false) (hkey : conf.key = lock.key) :
    (front ++ conf :: back).filter (Foreign lock.key ·) =
      (front ++ back).filter (Foreign lock.key ·) := by
  simp [Foreign, hgranted, hkey]

theorem ownMass_remove (hgranted : conf.blocked = false) (hkey : conf.key = lock.key) :
    ownMass lock.key (front ++ conf :: back) = ownMass lock.key (front ++ back) + conf.length := by
  simp only [ownMass, List.map_append, List.map_cons, hgranted, hkey, and_self,
    if_true, List.sum_append, List.sum_cons]
  omega

theorem Holds.remove : Holds (front ++ conf :: back) who offset type ↔
      Holds (front ++ back) who offset type ∨
        (conf.blocked = false ∧ conf.key = who ∧ conf.covers offset ∧ conf.flType = type) := by
  rw [← List.singleton_append, Holds.append, Holds.append, Holds.append, holds_singleton]
  tauto

theorem Merges.union (hmeets : Meets lock conf)
    (htype : conf.flType = lock.flType) (hunlck : conf.flType ≠ .unlck)
    (hmerge : Merges lock.key (front ++ back) [unionLock lock conf] after) :
    Merges lock.key (front ++ conf :: back) [lock] after where
  wellFormed := hmerge.wellFormed
  sound offset type hholds := by
    rcases hmerge.sound offset type hholds with h | ⟨piece, hpiece, hcovers, ht⟩
    · exact .inl (Holds.remove.mpr (.inl h))
    obtain rfl := List.mem_singleton.mp hpiece
    rcases (unionLock_covers hmeets.2.2 offset).mp hcovers with h | h
    · exact .inr ⟨lock, by simp, h, ht⟩
    · exact .inl (Holds.remove.mpr (.inr ⟨hmeets.1, hmeets.2.1, h, htype.trans ht⟩))
  cover offset _ hheld := by
    apply hmerge.cover offset
    · intro piece hpiece hpt
      obtain rfl := List.mem_singleton.mp hpiece
      exact absurd (htype.trans hpt) hunlck
    have hunion := unionLock_covers hmeets.2.2 offset
    rcases hheld with ⟨type, h⟩ | ⟨piece, hpiece, hcovers⟩
    · rcases Holds.remove.mp h with h | ⟨-, -, h, -⟩
      · exact .inl ⟨type, h⟩
      · exact .inr ⟨_, List.mem_singleton_self _, hunion.mpr (.inr h)⟩
    · obtain rfl := List.mem_singleton.mp hpiece
      exact .inr ⟨_, List.mem_singleton_self _, hunion.mpr (.inl hcovers)⟩
  foreign := by
    rw [hmerge.foreign, filter_foreign_remove hmeets.1 hmeets.2.1]
  mass := by
    have hmass := hmerge.mass
    have hoverlap := hmeets.2.2
    rw [ownMass_remove hmeets.1 hmeets.2.1]
    simp only [List.map_cons, List.map_nil, List.sum_cons, List.sum_nil,
      PosixLock.length, unionLock, PosixLock.refreshFlock, addLocks,
      locksOverlap] at *
    omega

theorem deleteUnlckLocks_eq (hwf : WellFormed extList) : deleteUnlckLocks extList = extList := by
  simpa [deleteUnlckLocks] using hwf.locked

theorem Merges.split (hmeets : Meets lock conf) (hconfType : conf.flType ≠ .unlck)
    (hsplit : SplitSpec lock conf pieces) (hmerge : Merges lock.key (front ++ back) pieces after) :
    Merges lock.key (front ++ conf :: back) [lock] after := by
  obtain ⟨left, body, right, rfl, hbody, hremnant, -, hrest⟩ := hsplit.shape
  have hpieces : ∀ piece ∈ left ++ body :: right, piece = body ∨ Remnant lock conf piece := by
    intro piece hpiece
    by_cases heq : piece = body
    · exact .inl heq
    · exact .inr (hremnant piece (by simpa [heq] using hpiece))
  refine ⟨hmerge.wellFormed, ?_, ?_, ?_, ?_⟩
  · intro offset type hholds
    rcases hmerge.sound offset type hholds with h | ⟨piece, hpiece, hcovers, ht⟩
    · exact .inl (Holds.remove.mpr (.inl h))
    rcases hpieces piece hpiece with rfl | hrem
    · exact .inr ⟨lock, by simp, (hbody.covers_iff offset).mp hcovers, hbody.type ▸ ht⟩
    · exact .inl (Holds.remove.mpr (.inr ⟨hmeets.1, hmeets.2.1,
        hrem.inside offset hcovers, hrem.type ▸ ht⟩))
  · intro offset hunlck hheld
    have hlock := hunlck lock (by simp)
    -- what `conf` held outside `lock` is held by the remnants
    have hconf : conf.covers offset → ∃ piece ∈ left ++ body :: right, piece.covers offset := by
      intro hcovers
      by_cases hin : lock.covers offset
      · exact ⟨body, by simp, (hbody.covers_iff offset).mpr hin⟩
      · obtain ⟨piece, hpiece, h⟩ := hrest offset hcovers hin
        refine ⟨piece, ?_, h⟩
        rcases List.mem_append.mp hpiece with h | h <;> simp [h]
    apply hmerge.cover offset
    · intro piece hpiece hpt hcovers
      rcases hpieces piece hpiece with rfl | hrem
      · exact hlock (hbody.type ▸ hpt) ((hbody.covers_iff offset).mp hcovers)
      · exact hconfType (hrem.type ▸ hpt)
    rcases hheld with ⟨type, h⟩ | ⟨piece, hpiece, hcovers⟩
    · rcases Holds.remove.mp h with h | ⟨-, -, h, -⟩
      · exact .inl ⟨type, h⟩
      · exact .inr (hconf h)
    · obtain rfl := List.mem_singleton.mp hpiece
      exact .inr ⟨body, by simp, (hbody.covers_iff offset).mpr hcovers⟩
  · rw [hmerge.foreign, filter_foreign_remove hmeets.1 hmeets.2.1]
  · have hmass := hmerge.mass
    have hlength := hsplit.mass
    rw [ownMass_remove hmeets.1 hmeets.2.1]
    simp only [List.map_cons, List.map_nil, List.sum_cons, List.sum_nil]
    omega

/-- Every lock inserted by the split is granted, valid and of the same owner. -/
theorem SplitSpec.piece_spec (hsplit : SplitSpec lock conf pieces) (hmeets : Meets lock conf)
    (hvalid : lock.flStart ≤ lock.flEnd) : PieceSpec lock.key pieces := by
  obtain ⟨left, body, right, rfl, hbody, hremnant, -, -⟩ := hsplit.shape
  intro piece hpiece
  by_cases heq : piece = body
  · subst heq
    exact ⟨hbody.granted, hbody.key, by rw [hbody.start, hbody.stop]; exact hvalid⟩
  · have hrem := hremnant piece (by simpa [heq] using hpiece)
    exact ⟨hrem.granted, hrem.key.trans hmeets.2.1, hrem.valid⟩

end Cases

/-! ## The recursion -/

variable {fuel : Nat}

/-! ## The recursion ends -/

section Depth

variable {lock : PosixLock}

/-- What `insert` makes of the pieces one after the other is no longer than the table and them. -/
theorem foldlM_ends {insert : List PosixLock → PosixLock → Option (List PosixLock)} {bound : Nat}
    (hinsert : ∀ table piece, Valid table → piece.key = who → piece.flStart ≤ piece.flEnd →
      ownMass who table + piece.length < bound → ∃ result, insert table piece = some result ∧
        Valid result ∧ ownMass who result ≤ ownMass who table + piece.length)
    (hbefore : Valid before)
    (hpieces : ∀ piece ∈ pieces, piece.key = who ∧ piece.flStart ≤ piece.flEnd)
    (hbound : ownMass who before + (pieces.map PosixLock.length).sum < bound) :
    ∃ after, pieces.foldlM insert before = some after ∧ Valid after ∧
      ownMass who after ≤ ownMass who before + (pieces.map PosixLock.length).sum := by
  induction pieces generalizing before with
  | nil => exact ⟨before, rfl, hbefore, by simp⟩
  | cons piece pieces ih =>
    obtain ⟨⟨hkey, hvalid⟩, hrest⟩ := List.forall_mem_cons.mp hpieces
    simp only [List.map_cons, List.sum_cons] at hbound ⊢
    obtain ⟨middle, hmiddle, hmid, hle⟩ := hinsert before piece hbefore hkey hvalid (by omega)
    obtain ⟨after, hafter, haft, hmass⟩ := ih hmid hrest (by omega)
    exact ⟨after, by simp [hmiddle, hafter], haft, by omega⟩

theorem length_unionLock {conf : PosixLock} (hmeets : Meets lock conf)
    (hlock : lock.flStart ≤ lock.flEnd) (hconf : conf.flStart ≤ conf.flEnd) :
    (unionLock lock conf).length < lock.length + conf.length := by
  have hoverlap := hmeets.2.2
  simp only [PosixLock.length, unionLock, PosixLock.refreshFlock, addLocks, locksOverlap] at *
  omega

/-- Each call removes a lock from the list and passes on strictly fewer offsets than the lock
and that entry covered together. -/
theorem insertAndMergeFuel_isSome (hlist : Valid extList) (hvalid : lock.flStart ≤ lock.flEnd)
    (hfuel : ownMass lock.key extList + lock.length < fuel) :
    ∃ after, insertAndMergeFuel fuel extList lock = some after ∧ Valid after ∧
      ownMass lock.key after ≤ ownMass lock.key extList + lock.length := by
  induction fuel generalizing extList lock with
  | zero => omega
  | succ fuel ih =>
    have htail : Valid (extList ++ [lock]) ∧
        ownMass lock.key (extList ++ [lock]) ≤ ownMass lock.key extList + lock.length := by
      refine ⟨List.forall_mem_append.mpr ⟨hlist, List.forall_mem_singleton.mpr hvalid⟩, ?_⟩
      simp only [ownMass, List.map_append, List.sum_append, List.map_singleton, List.sum_singleton]
      split_ifs <;> omega
    rw [insertAndMergeFuel]
    rcases mergeScan_spec lock extList with
      ⟨hscan, -⟩ | ⟨front, conf, back, rfl, -, ⟨hmeets, hscan⟩ | ⟨-, hscan⟩⟩
    · simp only [hscan]
      split_ifs
      · exact ⟨_, rfl, htail⟩
      · exact ⟨_, rfl, hlist, Nat.le_add_right _ _⟩
    · have hconf := hlist conf (by simp)
      have hothers : Valid (front ++ back) := fun l hl => hlist l (by simp at hl ⊢; tauto)
      have hmass : ownMass lock.key (front ++ conf :: back) = _ :=
        ownMass_remove hmeets.1 hmeets.2.1
      simp only [hscan]
      split_ifs
      · have hless := length_unionLock hmeets hvalid hconf
        have hkey : (unionLock lock conf).key = lock.key := rfl
        obtain ⟨after, hafter, haft, hle⟩ :=
          ih hothers (unionLock_valid hvalid) (by rw [hkey]; omega)
        exact ⟨after, hafter, haft, by rw [hkey] at hle; omega⟩
      · obtain ⟨hpieces, hless⟩ := splitLocks_length hmeets hvalid hconf
        obtain ⟨table, htable, hkept, hle⟩ := foldlM_ends
          (fun table piece ht hk hv hm => hk ▸ ih ht hv (hk ▸ hm)) hothers hpieces (by omega)
        refine ⟨deleteUnlckLocks table, by rw [htable]; rfl,
          fun l hl => hkept l (List.mem_of_mem_filter hl), ?_⟩
        have hdelete : ownMass lock.key (deleteUnlckLocks table) ≤ ownMass lock.key table :=
          ((List.filter_sublist).map _).sum_le_sum fun _ _ => Nat.zero_le _
        omega
    · simp only [hscan]
      exact ⟨_, rfl, htail⟩

theorem exists_insertAndMergeFuel (hlist : Valid extList) (hvalid : lock.flStart ≤ lock.flEnd) :
    (∃ fuel, insertAndMergeFuel fuel extList lock = some (insertAndMerge extList lock)) ∧
      Valid (insertAndMerge extList lock) ∧
      ownMass lock.key (insertAndMerge extList lock) ≤ ownMass lock.key extList + lock.length := by
  obtain ⟨after, hafter, hkept⟩ := insertAndMergeFuel_isSome hlist hvalid (Nat.lt_succ_self _)
  rw [insertAndMerge, hafter]
  exact ⟨⟨_, hafter⟩, hkept⟩

/-- A list and a lock that `__insert_and_merge` is called with. -/
structure MergeCall where
  extList : List PosixLock
  lock : PosixLock

/-- `call` calls `__insert_and_merge` again, and has `pending` to insert after that. -/
inductive MergeCall.Calls (call : MergeCall) : MergeCall → List PosixLock → Prop
  | union {conf : PosixLock} {others : List PosixLock}
      (hscan : mergeScan call.lock call.extList = .merge conf others)
      (htype : conf.flType = call.lock.flType) :
      call.Calls ⟨others, unionLock call.lock conf⟩ []
  | piece {conf piece : PosixLock} {others inserted pending : List PosixLock}
      (hscan : mergeScan call.lock call.extList = .merge conf others)
      (htype : conf.flType ≠ call.lock.flType)
      (hpieces : splitLocks call.lock conf = inserted ++ piece :: pending) :
      call.Calls ⟨inserted.foldl insertAndMerge others, piece⟩ pending

/-- The length of the owner's granted locks and of the lock to insert. -/
def MergeCall.measure (call : MergeCall) : Nat :=
  ownMass call.lock.key call.extList + call.lock.length

structure MergeCall.Ok (call : MergeCall) : Prop where
  list : Valid call.extList
  lock : call.lock.flStart ≤ call.lock.flEnd

theorem foldl_insertAndMerge_length (hbefore : Valid before)
    (hpieces : ∀ piece ∈ pieces, piece.key = who ∧ piece.flStart ≤ piece.flEnd) :
    Valid (pieces.foldl insertAndMerge before) ∧ ownMass who (pieces.foldl insertAndMerge before) ≤
      ownMass who before + (pieces.map PosixLock.length).sum := by
  induction pieces generalizing before with
  | nil => exact ⟨hbefore, by simp⟩
  | cons piece pieces ih =>
    obtain ⟨⟨rfl, hvalid⟩, hrest⟩ := List.forall_mem_cons.mp hpieces
    obtain ⟨-, hmiddle, hle⟩ := exists_insertAndMergeFuel hbefore hvalid
    obtain ⟨hafter, hmass⟩ := ih hmiddle hrest
    refine ⟨hafter, ?_⟩
    simp only [List.foldl_cons, List.map_cons, List.sum_cons]
    omega

theorem MergeCall.Ok.calls {call next : MergeCall} {pending : List PosixLock} (hok : call.Ok)
    (hcalls : call.Calls next pending) :
    next.Ok ∧ next.measure + (pending.map PosixLock.length).sum < call.measure := by
  have hmerge {conf : PosixLock} {others : List PosixLock}
      (hscan : mergeScan call.lock call.extList = .merge conf others) :
      Meets call.lock conf ∧ conf.flStart ≤ conf.flEnd ∧ Valid others ∧
        ownMass call.lock.key call.extList = ownMass call.lock.key others + conf.length := by
    obtain ⟨hmeets, front, back, hlist, rfl⟩ := mergeScan_eq_merge hscan
    rw [hlist]
    exact ⟨hmeets, hok.list conf (by simp [hlist]),
      fun l hl => hok.list l (by simp [hlist] at hl ⊢; tauto), ownMass_remove hmeets.1 hmeets.2.1⟩
  cases hcalls with
  | union hscan _ =>
    obtain ⟨hmeets, hconf, hothers, hmass⟩ := hmerge hscan
    have hless := length_unionLock hmeets hok.lock hconf
    refine ⟨⟨hothers, unionLock_valid hok.lock⟩, ?_⟩
    simp only [MergeCall.measure, hmass, List.map_nil, List.sum_nil]
    change ownMass call.lock.key _ + _ + 0 < _
    omega
  | @piece conf piece others inserted pending hscan _ hpieces =>
    obtain ⟨hmeets, hconf, hothers, hmass⟩ := hmerge hscan
    obtain ⟨hsplit, hless⟩ := splitLocks_length hmeets hok.lock hconf
    rw [hpieces] at hsplit hless
    obtain ⟨hinserted, ⟨hkey, hvalid⟩, -⟩ :=
      List.forall_mem_append.mp hsplit |>.imp_right List.forall_mem_cons.mp
    obtain ⟨htable, hle⟩ := foldl_insertAndMerge_length hothers hinserted
    refine ⟨⟨htable, hvalid⟩, ?_⟩
    simp only [List.map_append, List.map_cons, List.sum_append, List.sum_cons] at hless
    simp only [MergeCall.measure, hmass, hkey]
    omega

/-- Every call made for a valid lock and a list of valid locks returns, splits without the
assertion of `subtract_locks`, and lowers the length that is left. -/
theorem insert_and_merge_terminates {start : MergeCall} (hstart : start.Ok) :
    (∀ fuel > start.measure, (insertAndMergeFuel fuel start.extList start.lock).isSome) ∧
    ∀ call, ReflTransGen (fun call next => ∃ pending, call.Calls next pending) start call →
      (∀ conf others, mergeScan call.lock call.extList = .merge conf others →
        (subtractLocks (hullLock call.lock conf) call.lock).isSome) ∧
      ∀ next pending, call.Calls next pending →
        next.measure + (pending.map PosixLock.length).sum < call.measure := by
  constructor
  · intro fuel hfuel
    obtain ⟨after, hafter, -⟩ := insertAndMergeFuel_isSome hstart.list hstart.lock hfuel
    exact hafter ▸ rfl
  · intro call hreach
    have hok : call.Ok := by
      induction hreach with
      | refl => exact hstart
      | tail _ hcalls ih => exact (ih.calls hcalls.choose_spec).1
    exact ⟨fun conf others hscan => subtractLocks_isSome (mergeScan_eq_merge hscan).1,
      fun next pending hcalls => (hok.calls hcalls).2⟩

theorem insert_and_merge_terminates_split : (insertAndMergeFuel 14
    [{ PosixLock.zeroed with flEnd := 9 }]
    { PosixLock.zeroed with flType := .wrlck, flStart := 3, flEnd := 5 }).isSome := by
  have hok : MergeCall.Ok ⟨[{ PosixLock.zeroed with flEnd := 9 }],
    { PosixLock.zeroed with flType := .wrlck, flStart := 3, flEnd := 5 }⟩ :=
    ⟨by simp [Valid, PosixLock.zeroed], by decide⟩
  exact (insert_and_merge_terminates hok).1 14 (by decide)

end Depth

/-! ## Induction over the calls -/

/-- `pieces` are inserted one after the other. -/
def InTurns (insert : List PosixLock → PosixLock → List PosixLock → Prop) :
    List PosixLock → List PosixLock → List PosixLock → Prop
  | before, [], after => before = after
  | before, piece :: pieces, after =>
    ∃ middle, insert before piece middle ∧ InTurns insert middle pieces after

/-- The result of one call, of which `motive` holds. -/
structure Inserted (motive : List PosixLock → PosixLock → List PosixLock → Prop)
    (before : List PosixLock) (lock : PosixLock) (after : List PosixLock) : Prop where
  merges : Merges lock.key before [lock] after
  write : (∀ l ∈ before, ¬Meets lock l) → lock.flType = .wrlck → after = before ++ [lock]
  kept : motive before lock after

variable {motive : List PosixLock → PosixLock → List PosixLock → Prop} {after : List PosixLock}

theorem inTurns_append {insert : List PosixLock → PosixLock → List PosixLock → Prop}
    {left right : List PosixLock} : InTurns insert before (left ++ right) after ↔
      ∃ middle, InTurns insert before left middle ∧ InTurns insert middle right after := by
  induction left generalizing before with
  | nil => simp [InTurns]
  | cons piece left ih =>
    simp only [List.cons_append, InTurns, ih]
    tauto

theorem InTurns.merges (hturns : InTurns (Inserted motive) before pieces after)
    (hpieces : PieceSpec who pieces) (hwf : WellFormed before) :
    Merges who before pieces after := by
  induction pieces generalizing before with
  | nil => exact hturns ▸ .nil hwf
  | cons piece pieces ih =>
    obtain ⟨middle, hfirst, hrest⟩ := hturns
    obtain ⟨⟨-, rfl, -⟩, hpieces⟩ := List.forall_mem_cons.mp hpieces
    exact hfirst.merges.trans (ih hrest hpieces hfirst.merges.wellFormed)

theorem inTurns_of_foldlM
    (hinserted : ∀ {table piece result}, WellFormed table → piece.blocked = false →
      piece.flStart ≤ piece.flEnd → insertAndMergeFuel fuel table piece = some result →
      Inserted motive table piece result)
    (hpieces : PieceSpec who pieces) (hwf : WellFormed before)
    (hfold : pieces.foldlM (insertAndMergeFuel fuel) before = some after) :
    InTurns (Inserted motive) before pieces after := by
  induction pieces generalizing before with
  | nil => exact Option.some.inj hfold
  | cons piece pieces ih =>
    obtain ⟨⟨hgranted, -, hvalid⟩, hrest⟩ := List.forall_mem_cons.mp hpieces
    simp only [List.foldlM_cons, Option.bind_eq_bind, Option.bind_eq_some_iff] at hfold
    obtain ⟨middle, hmiddle, hfold⟩ := hfold
    have hfirst := hinserted hwf hgranted hvalid hmiddle
    exact ⟨middle, hfirst, ih hrest hfirst.merges.wellFormed hfold⟩

/-- What the ways to end a call have, and a call passes on from the calls that it makes, every call
has. -/
theorem insertAndMerge_induction
    (tail : ∀ {extList lock}, WellFormed extList → lock.flType ≠ .unlck →
      ((∀ l ∈ extList, ¬Meets lock l) ∨ ∃ front conf back, extList = front ++ conf :: back ∧
        (∀ l ∈ front, ¬Meets lock l) ∧ Stops lock conf) → motive extList lock (extList ++ [lock]))
    (nothing : ∀ {extList lock}, (∀ l ∈ extList, ¬Meets lock l) → lock.flType = .unlck →
      motive extList lock extList)
    (union : ∀ {front conf back lock after}, WellFormed (front ++ conf :: back) →
      (∀ l ∈ front, ¬Meets lock l) → Meets lock conf → lock.flStart ≤ lock.flEnd →
      conf.flType = lock.flType → motive (front ++ back) (unionLock lock conf) after →
      motive (front ++ conf :: back) lock after)
    (split : ∀ {front conf back lock pieces after}, WellFormed (front ++ conf :: back) →
      (∀ l ∈ front, ¬Meets lock l) → Meets lock conf → lock.flStart ≤ lock.flEnd →
      conf.flType ≠ lock.flType → SplitSpec lock conf pieces →
      InTurns (Inserted motive) (front ++ back) pieces after →
      motive (front ++ conf :: back) lock after)
    {lock : PosixLock} (hwf : WellFormed extList) (hgranted : lock.blocked = false)
    (hvalid : lock.flStart ≤ lock.flEnd) :
    Inserted motive extList lock (insertAndMerge extList lock) := by
  obtain ⟨⟨fuel, hafter⟩, -⟩ := exists_insertAndMergeFuel hwf.valid hvalid
  generalize insertAndMerge extList lock = after at hafter ⊢
  induction fuel generalizing extList after lock with
  | zero => cases hafter
  | succ fuel ih =>
    rw [insertAndMergeFuel] at hafter
    rcases mergeScan_spec lock extList with ⟨hscan, hnone⟩ |
      ⟨front, conf, back, rfl, hfront, ⟨hmeets, hscan⟩ | ⟨hstops, hscan⟩⟩ <;>
      simp only [hscan] at hafter
    · have hnone l hl := (hnone l hl).1
      split_ifs at hafter with htype <;> cases hafter
      · exact ⟨.insert_tail hwf hgranted hvalid htype, fun _ _ => rfl, tail hwf htype (.inl hnone)⟩
      · rw [not_not] at htype
        exact ⟨.unlock_nothing hwf htype, fun _ hwrite => by simp [hwrite] at htype,
          nothing hnone htype⟩
    · have hfront l hl := (hfront l hl).1
      have hconfType := hwf.locked conf (by simp)
      split_ifs at hafter with htype
      · have hunion := ih hwf.remove rfl (unionLock_valid hvalid) _ hafter
        exact ⟨.union hmeets htype hconfType hunion.merges,
          fun hnone => absurd hmeets (hnone conf (by simp)),
          union hwf hfront hmeets hvalid htype hunion.kept⟩
      · obtain ⟨table, htable, rfl⟩ := Option.map_eq_some_iff.mp hafter
        have hsplit := splitLocks_spec hmeets hgranted hvalid (hwf.valid conf (by simp))
        have hpieces := hsplit.piece_spec hmeets hvalid
        have hturns := inTurns_of_foldlM (fun hw hg hv => ih hw hg hv _) hpieces hwf.remove htable
        have hmerge := hturns.merges hpieces hwf.remove
        rw [deleteUnlckLocks_eq hmerge.wellFormed]
        exact ⟨.split hmeets hconfType hsplit hmerge,
          fun hnone => absurd hmeets (hnone conf (by simp)),
          split hwf hfront hmeets hvalid htype hsplit hturns⟩
    · cases hafter
      have htype : lock.flType ≠ .unlck := by simp [hstops.2.2.2.2]
      exact ⟨.insert_tail hwf hgranted hvalid htype, fun _ _ => rfl,
        tail hwf htype (.inr ⟨front, conf, back, rfl, fun l hl => (hfront l hl).1, hstops⟩)⟩

/-- `__insert_and_merge` inserts the lock and nothing else. -/
theorem insertAndMerge_merges {lock : PosixLock} (hwf : WellFormed extList)
    (hgranted : lock.blocked = false) (hvalid : lock.flStart ≤ lock.flEnd) :
    Merges lock.key extList [lock] (insertAndMerge extList lock) :=
  (insertAndMerge_induction (motive := fun _ _ _ => True) (fun _ _ _ => trivial)
    (fun _ _ => trivial) (fun _ _ _ _ _ _ => trivial) (fun _ _ _ _ _ _ _ => trivial)
    hwf hgranted hvalid).merges

end GlusterFS.Locks
