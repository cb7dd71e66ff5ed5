import GlusterFS.Locks.PosixLock

/-!
# The scan and the interval arithmetic of `__insert_and_merge`

What each outcome of the scan says about `ext_list`, and which offsets the
locks built by `add_locks` and `subtract_locks` cover.
-/

namespace GlusterFS.Locks

def PosixLock.covers (lock : PosixLock) (offset : Int) : Prop :=
  lock.flStart ≤ offset ∧ offset ≤ lock.flEnd
  deriving Decidable

theorem sameOwner_iff_key {l1 l2 : PosixLock} : sameOwner l1 l2 ↔ l1.key = l2.key := by
  simp [sameOwner, PosixLock.key]

theorem locksOverlap_comm {l1 l2 : PosixLock} : locksOverlap l1 l2 ↔ locksOverlap l2 l1 := by
  simp only [locksOverlap]
  exact and_comm

theorem locksOverlap_iff_exists {l1 l2 : PosixLock}
    (h1 : l1.flStart ≤ l1.flEnd) (h2 : l2.flStart ≤ l2.flEnd) :
    locksOverlap l1 l2 ↔ ∃ offset, l1.covers offset ∧ l2.covers offset := by
  simp only [locksOverlap, PosixLock.covers]
  constructor
  · intro hoverlap
    exact ⟨max l1.flStart l2.flStart, by omega, by omega⟩
  · rintro ⟨offset, hleft, hright⟩
    omega

theorem locksOverlap_of_covers {l1 l2 : PosixLock} {offset : Int}
    (h1 : l1.covers offset) (h2 : l2.covers offset) : locksOverlap l1 l2 := by
  simp only [locksOverlap, PosixLock.covers] at *
  omega

/-- A granted lock of the owner of `lock` that overlaps it. -/
def Meets (lock l : PosixLock) : Prop :=
  l.blocked = false ∧ l.key = lock.key ∧ locksOverlap l lock

/-- A granted read lock of another owner that ends the scan for a read lock. -/
def Stops (lock l : PosixLock) : Prop :=
  l.blocked = false ∧ l.key ≠ lock.key ∧ locksOverlap l lock ∧
    l.flType = .rdlck ∧ lock.flType = .rdlck

variable {rest : List PosixLock}

theorem mergeScan_cons_of_not {lock l : PosixLock} (hmeets : ¬Meets lock l)
    (hstops : ¬Stops lock l) : mergeScan lock (l :: rest) = (mergeScan lock rest).keep l := by
  simp only [Meets, Stops, ← sameOwner_iff_key] at hmeets hstops
  simp only [mergeScan]
  split_ifs with hblocked hoverlap howner hunlck hread
  · rfl
  · exact absurd ⟨by simpa using hblocked, howner, hoverlap⟩ hmeets
  · rfl
  · exact absurd ⟨by simpa using hblocked,
      by simpa [sameOwner_iff_key] using howner, hoverlap, hread⟩ hstops
  · rfl
  · rfl

theorem mergeScan_cons_of_meets {lock l : PosixLock} (hmeets : Meets lock l) :
    mergeScan lock (l :: rest) = .merge l rest := by
  obtain ⟨hblocked, howner, hoverlap⟩ := hmeets
  simp [mergeScan, hblocked, hoverlap, sameOwner_iff_key.mpr howner]

theorem mergeScan_cons_of_stops {lock l : PosixLock} (hstops : Stops lock l) :
    mergeScan lock (l :: rest) = .insertNow := by
  obtain ⟨hblocked, howner, hoverlap, hread, hlock⟩ := hstops
  have hsame : ¬sameOwner l lock := fun h => howner (sameOwner_iff_key.mp h)
  simp [mergeScan, hblocked, hoverlap, hsame, hread, hlock]

/-- The scan stops at the first lock that it merges with or that ends it. -/
theorem mergeScan_spec (lock : PosixLock) (extList : List PosixLock) :
    (mergeScan lock extList = .exhausted ∧ ∀ l ∈ extList, ¬Meets lock l ∧ ¬Stops lock l) ∨
    (∃ before l after, extList = before ++ l :: after ∧
      (∀ other ∈ before, ¬Meets lock other ∧ ¬Stops lock other) ∧
      ((Meets lock l ∧ mergeScan lock extList = .merge l (before ++ after)) ∨
        (Stops lock l ∧ mergeScan lock extList = .insertNow))) := by
  induction extList with
  | nil => exact .inl ⟨rfl, by simp⟩
  | cons head tail ih =>
    by_cases hmeets : Meets lock head
    · exact .inr ⟨[], head, tail, rfl, by simp, .inl ⟨hmeets, mergeScan_cons_of_meets hmeets⟩⟩
    by_cases hstops : Stops lock head
    · exact .inr ⟨[], head, tail, rfl, by simp, .inr ⟨hstops, mergeScan_cons_of_stops hstops⟩⟩
    rw [mergeScan_cons_of_not hmeets hstops]
    rcases ih with ⟨hscan, hnone⟩ | ⟨before, l, after, rfl, hbefore, hcase⟩
    · refine .inl ⟨by rw [hscan]; rfl, ?_⟩
      simpa using ⟨⟨hmeets, hstops⟩, hnone⟩
    · refine .inr ⟨head :: before, l, after, rfl, ?_, ?_⟩
      · simpa using ⟨⟨hmeets, hstops⟩, hbefore⟩
      · rcases hcase with ⟨hl, hscan⟩ | ⟨hl, hscan⟩
        · exact .inl ⟨hl, by rw [hscan]; rfl⟩
        · exact .inr ⟨hl, by rw [hscan]; rfl⟩

theorem mergeScan_eq_merge {lock conf : PosixLock} {extList others : List PosixLock}
    (hscan : mergeScan lock extList = .merge conf others) : Meets lock conf ∧
      ∃ front back, extList = front ++ conf :: back ∧ others = front ++ back := by
  rcases mergeScan_spec lock extList with
    ⟨hnone, -⟩ | ⟨front, found, back, hlist, -, ⟨hmeets, hfound⟩ | ⟨-, hnone⟩⟩
  · cases hscan.symm.trans hnone
  · cases hscan.symm.trans hfound
    exact ⟨hmeets, front, back, hlist, rfl⟩
  · cases hscan.symm.trans hnone

/-! ## Unions and remainders -/

theorem unionLock_covers {lock conf : PosixLock}
    (hoverlap : locksOverlap conf lock) (offset : Int) :
    (unionLock lock conf).covers offset ↔ lock.covers offset ∨ conf.covers offset := by
  simp only [unionLock, PosixLock.refreshFlock, addLocks, PosixLock.covers, locksOverlap] at *
  omega

theorem unionLock_valid {lock conf : PosixLock} (hvalid : lock.flStart ≤ lock.flEnd) :
    (unionLock lock conf).flStart ≤ (unionLock lock conf).flEnd := by
  simp only [unionLock, PosixLock.refreshFlock, addLocks]
  omega

/-- `piece` is what `lock` leaves of `conf` on one side. -/
structure Remnant (lock conf piece : PosixLock) : Prop where
  granted : piece.blocked = false
  key : piece.key = conf.key
  type : piece.flType = conf.flType
  valid : piece.flStart ≤ piece.flEnd
  inside : ∀ offset, piece.covers offset → conf.covers offset
  outside : ∀ offset, piece.covers offset → ¬lock.covers offset

/-- `copy` locks what `lock` locks, for the same owner. -/
structure SameExtent (copy lock : PosixLock) : Prop where
  granted : copy.blocked = false
  key : copy.key = lock.key
  type : copy.flType = lock.flType
  start : copy.flStart = lock.flStart
  stop : copy.flEnd = lock.flEnd

theorem SameExtent.covers_iff {copy lock : PosixLock}
    (hsame : SameExtent copy lock) (offset : Int) :
    copy.covers offset ↔ lock.covers offset := by
  simp only [PosixLock.covers, hsame.start, hsame.stop]

/-- The locks that replace `lock` and `conf`: what is left of `conf` to either
side, and `lock` itself somewhere in between. -/
structure SplitSpec (lock conf : PosixLock) (pieces : List PosixLock) : Prop where
  shape : ∃ front body back, pieces = front ++ body :: back ∧ SameExtent body lock ∧
    (∀ piece ∈ front ++ back, Remnant lock conf piece) ∧
    (front ++ back).Pairwise (fun left right => ¬locksOverlap left right) ∧
    ∀ offset, conf.covers offset → ¬lock.covers offset →
      ∃ piece ∈ front ++ back, piece.covers offset
  mass : (pieces.map PosixLock.length).sum < lock.length + conf.length

/-- `subtract_locks` is called on a hull that contains the lock, so it never
reaches its assertion. -/
theorem subtractLocks_isSome {lock conf : PosixLock} (hmeets : Meets lock conf) :
    (subtractLocks (hullLock lock conf) lock).isSome := by
  have hoverlap := hmeets.2.2
  simp only [locksOverlap] at hoverlap
  have hstart : (hullLock lock conf).flStart = min lock.flStart conf.flStart := rfl
  have hstop : (hullLock lock conf).flEnd = max lock.flEnd conf.flEnd := rfl
  rw [subtractLocks]
  split_ifs <;> first | rfl | omega

/-- The pieces are together shorter than the two locks that they replace. -/
theorem splitLocks_length {lock conf : PosixLock} (hmeets : Meets lock conf)
    (hlock : lock.flStart ≤ lock.flEnd) (hconf : conf.flStart ≤ conf.flEnd) :
    (∀ piece ∈ splitLocks lock conf, piece.key = lock.key ∧ piece.flStart ≤ piece.flEnd) ∧
      ((splitLocks lock conf).map PosixLock.length).sum < lock.length + conf.length := by
  obtain ⟨-, hkey, hoverlap⟩ := hmeets
  simp only [locksOverlap] at hoverlap
  have hhull : (hullLock lock conf).key = lock.key := hkey
  have hstart : (hullLock lock conf).flStart = min lock.flStart conf.flStart := rfl
  have hstop : (hullLock lock conf).flEnd = max lock.flEnd conf.flEnd := rfl
  simp only [PosixLock.key, Prod.mk.injEq] at hhull
  rw [splitLocks, subtractLocks]
  split_ifs <;> simp [PosixLock.length, PosixLock.key, PosixLock.refreshFlock, hhull] <;> omega

theorem splitLocks_spec {lock conf : PosixLock} (hmeets : Meets lock conf)
    (hgranted : lock.blocked = false)
    (hlock : lock.flStart ≤ lock.flEnd) (hconf : conf.flStart ≤ conf.flEnd) :
    SplitSpec lock conf (splitLocks lock conf) := by
  have hmass := (splitLocks_length hmeets hlock hconf).2
  obtain ⟨hblocked, howner, hoverlap⟩ := hmeets
  simp only [PosixLock.key, Prod.mk.injEq] at howner
  simp only [locksOverlap] at hoverlap
  have hremnant : ∀ piece, piece.blocked = false →
      piece.owner = conf.owner ∧ piece.transport = conf.transport →
      piece.flType = conf.flType → piece.flStart ≤ piece.flEnd →
      conf.flStart ≤ piece.flStart → piece.flEnd ≤ conf.flEnd →
      piece.flEnd < lock.flStart ∨ lock.flEnd < piece.flStart →
      Remnant lock conf piece := by
    intro piece hpb hpk hpt hpv hps hpe hpo
    refine ⟨hpb, by simp [PosixLock.key, hpk], hpt, hpv, ?_, ?_⟩
    · simp only [PosixLock.covers]; omega
    · simp only [PosixLock.covers]; omega
  have hrange : (hullLock lock conf).flStart = min lock.flStart conf.flStart ∧
      (hullLock lock conf).flEnd = max lock.flEnd conf.flEnd := ⟨rfl, rfl⟩
  by_cases hleft : conf.flStart < lock.flStart
  · by_cases hright : lock.flEnd < conf.flEnd
    · -- both ends of `conf` stick out
      rw [splitLocks, subtractLocks, if_neg (by omega), if_pos (by omega)] at hmass ⊢
      refine ⟨⟨[_], lock.refreshFlock, [_], rfl, ⟨hgranted, rfl, rfl, rfl, rfl⟩, ?_, ?_, ?_⟩, hmass⟩
      · simp only [List.cons_append, List.nil_append, List.mem_cons,
          List.not_mem_nil, or_false, forall_eq_or_imp, forall_eq]
        constructor <;> apply hremnant <;>
          simp [PosixLock.refreshFlock, hullLock, addLocks, PosixLock.zeroed] <;>
          omega
      · simp [locksOverlap, PosixLock.refreshFlock, hrange]; omega
      · simp [PosixLock.covers, PosixLock.refreshFlock, hrange]; omega
    · -- `conf` sticks out before the lock
      rw [splitLocks, subtractLocks, if_neg (by omega), if_neg (by omega),
        if_neg (by omega), if_pos (by omega)] at hmass ⊢
      refine ⟨⟨[_], lock.refreshFlock, [], rfl,
        ⟨hgranted, rfl, rfl, rfl, rfl⟩, ?_, by simp, ?_⟩, hmass⟩
      · simp only [List.append_nil, List.mem_cons, List.not_mem_nil, or_false, forall_eq]
        apply hremnant <;>
          simp [PosixLock.refreshFlock, hullLock, addLocks, PosixLock.zeroed] <;>
          omega
      · simp [PosixLock.covers, PosixLock.refreshFlock, hrange]; omega
  · by_cases hright : lock.flEnd < conf.flEnd
    · -- `conf` sticks out behind the lock
      rw [splitLocks, subtractLocks, if_neg (by omega), if_neg (by omega),
        if_pos (by omega)] at hmass ⊢
      refine ⟨⟨[_], lock.refreshFlock, [], rfl,
        ⟨hgranted, rfl, rfl, rfl, rfl⟩, ?_, by simp, ?_⟩, hmass⟩
      · simp only [List.append_nil, List.mem_cons, List.not_mem_nil, or_false, forall_eq]
        apply hremnant <;>
          simp [PosixLock.refreshFlock, hullLock, addLocks, PosixLock.zeroed] <;>
          omega
      · simp [PosixLock.covers, PosixLock.refreshFlock, hrange]; omega
    · -- the lock covers the whole of `conf`
      rw [splitLocks, subtractLocks, if_pos (by omega)] at hmass ⊢
      refine ⟨⟨[], _, [], rfl, ⟨rfl, ?_, rfl, ?_, ?_⟩, by simp, by simp, ?_⟩, hmass⟩
      · simpa [PosixLock.key, PosixLock.refreshFlock, hullLock] using howner
      · simp [PosixLock.refreshFlock, hrange]; omega
      · simp [PosixLock.refreshFlock, hrange]; omega
      · simp only [PosixLock.covers]; omega

end GlusterFS.Locks
