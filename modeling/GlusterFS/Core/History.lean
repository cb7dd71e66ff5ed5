import Mathlib.Data.UInt

/-!
# Versions of a value

A value that is replaced from time to time, together with the values it has had.
The versions are numbered from zero, oldest first.  What an observer was shown is
no older than a version when it is one of the values from that version on.
-/

namespace GlusterFS

structure History (Value : Type*) where
  current : Value
  earlier : List Value

namespace History

variable {Value : Type*} {history : History Value} {value : Value} {bound : Nat}

def versions (history : History Value) : List Value := history.earlier ++ [history.current]

/-- The number of the current version. -/
def latest (history : History Value) : Nat := history.earlier.length

def push (history : History Value) (value : Value) : History Value :=
  ⟨value, history.earlier ++ [history.current]⟩

/-- A value was current at some time, and not only before the given version was. -/
def Since (history : History Value) (bound : Nat) (value : Value) : Prop :=
  value ∈ history.versions.drop bound

instance [DecidableEq Value] (history : History Value) (bound : Nat) (value : Value) :
    Decidable (history.Since bound value) :=
  inferInstanceAs (Decidable (_ ∈ _))

theorem since_latest : history.Since history.latest history.current := by
  simp [Since, versions, latest]

theorem Since.push (hsince : history.Since bound value) (next : Value) :
    (history.push next).Since bound value := by
  rw [Since, versions, History.push, List.drop_append]
  exact List.mem_append_left _ hsince

theorem Since.mono {lower : Nat} (hsince : history.Since bound value) (hle : lower ≤ bound) :
    history.Since lower value :=
  (List.drop_subset_drop_left history.versions hle) hsince

end History

end GlusterFS
