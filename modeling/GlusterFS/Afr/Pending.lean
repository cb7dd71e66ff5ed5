import Mathlib.Data.UInt

/-!
# Changelog counters of the replicate translator

Each child of a replica keeps, in extended attributes of its own copy, one
counter for every child: how many operations may be missing there.  A
transaction raises the counters before its operation and lowers them
afterwards, for the children on which the operation succeeded.  Only the data
counters are modelled; the network byte order of the stored values is left
out.
-/

namespace GlusterFS.Afr

variable {n : Nat}

/-- The error of a fresh `afr_local_t`. -/
def euclean : Int := 117

/-- One data counter for each child. -/
abbrev Counters (n : Nat) := Fin n → Int

/-- `pending_matrix`: row `i` is what the copy on child `i` says. -/
abbrev PendingMatrix (n : Nat) := Fin n → Counters n

/-- `__mark_all_pending` -/
def markAllPending : Counters n := fun _ => 1

/-- `__mark_all_success` -/
def markAllSuccess : Counters n := fun _ => -1

/-- `__mark_child_dead` -/
def markChildDead (pending : Counters n) (child : Fin n) : Counters n :=
  Function.update pending child 0

/-- `__mark_non_participant_children` -/
def markNonParticipantChildren (pending : Counters n) (participants : Fin n → Bool) : Counters n :=
  fun i => if participants i then pending i else 0

/-- `afr_compute_txn_changelog`: the value of a post-op whose pre-op was not
sent, with the pre-op's `+1` folded in. -/
def computeTxnChangelog (pending : Counters n) : Counters n :=
  fun i => pending i + 1

/-- `GF_XATTROP_ADD_ARRAY` executed on one child. -/
def xattropAddArray (disk : PendingMatrix n) (child : Fin n)
    (delta : Counters n) : PendingMatrix n :=
  Function.update disk child (disk child + delta)

theorem xattropAddArray_apply (disk : PendingMatrix n) (child : Fin n)
    (delta : Counters n) (i j : Fin n) :
    xattropAddArray disk child delta i j = disk i j + if child = i then delta j else 0 := by
  unfold xattropAddArray
  by_cases h : child = i
  · subst h
    simp
  · simp [h, Function.update_of_ne (Ne.symm h)]

/-- The operation failed on the children of a list. -/
def markChildrenDead (pending : Counters n) (dead : List (Fin n)) :
    Counters n :=
  dead.foldl markChildDead pending

theorem markChildrenDead_apply (pending : Counters n) (dead : List (Fin n)) (i : Fin n) :
    markChildrenDead pending dead i = if i ∈ dead then 0 else pending i := by
  induction dead generalizing pending with
  | nil => rfl
  | cons child dead ih =>
    rw [markChildrenDead, List.foldl_cons, ← markChildrenDead, ih]
    by_cases h : i = child
    · subst h
      simp [markChildDead]
    · simp [markChildDead, h]

end GlusterFS.Afr
