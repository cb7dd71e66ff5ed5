import Mathlib.Data.UInt

/-!
# Lists threaded through an array

The cells of an array name each other by index, from a first one to a value that
stops the list.
-/

namespace GlusterFS.ThreadedList

variable {next changed : Nat → Int} {stop first : Int} {cells : List Nat}

/-- The cells that come one after the other from `first` on. -/
def Threads (next : Nat → Int) (stop : Int) : Int → List Nat → Prop
  | first, [] => first = stop
  | first, cell :: rest => first = cell ∧ Threads next stop (next cell) rest

theorem Threads.of_eq (h : Threads next stop first cells)
    (hsame : ∀ cell ∈ cells, changed cell = next cell) : Threads changed stop first cells := by
  induction cells generalizing first with
  | nil => exact h
  | cons cell rest ih =>
    obtain ⟨hfirst, hrest⟩ := h
    refine ⟨hfirst, ?_⟩
    rw [hsame cell List.mem_cons_self]
    exact ih hrest fun other hother => hsame other (List.mem_cons_of_mem _ hother)

theorem Threads.exists_cons (h : Threads next stop first cells) (hfirst : first ≠ stop) :
    ∃ cell rest, cells = cell :: rest ∧ first = cell ∧ Threads next stop (next cell) rest := by
  cases cells with
  | nil => exact absurd h hfirst
  | cons cell rest => exact ⟨cell, rest, rfl, h⟩

theorem Threads.eq_nil (h : Threads next stop stop cells) (hstop : stop < 0) : cells = [] := by
  cases cells with
  | nil => rfl
  | cons cell rest =>
    have hcell : stop = cell := h.1
    omega

/-- Where every cell names a later one, none comes before the first. -/
theorem Threads.le_of_mem (h : Threads next stop first cells) (hstop : stop < 0)
    (hup : ∀ cell ∈ cells, next cell = stop ∨ (cell : Int) < next cell) {cell : Nat}
    (hcell : cell ∈ cells) : first ≤ cell := by
  induction cells generalizing first with
  | nil => cases hcell
  | cons head rest ih =>
    obtain ⟨rfl, hrest⟩ := h
    rcases List.mem_cons.mp hcell with rfl | hmem
    · exact Int.le_refl _
    · rcases hup head List.mem_cons_self with hlast | hless
      · rw [hlast] at hrest
        rw [hrest.eq_nil hstop] at hmem
        cases hmem
      · have hle := ih hrest (fun other hother => hup other (List.mem_cons_of_mem _ hother)) hmem
        omega

/-- Cells that name their neighbours, up to a last one. -/
theorem threads_range (start length : Nat)
    (hnext : ∀ cell, start ≤ cell → cell < start + length → next cell = (cell : Int) + 1)
    (hlast : next (start + length) = stop) :
    Threads next stop start (List.range' start (length + 1)) := by
  induction length generalizing start with
  | zero => exact ⟨rfl, hlast⟩
  | succ length ih =>
    rw [List.range'_succ]
    refine ⟨rfl, ?_⟩
    rw [hnext start (Nat.le_refl _) (by omega)]
    refine ih (start + 1) (fun cell hle hlt => hnext cell (by omega) (by omega)) ?_
    rwa [show start + 1 + length = start + (length + 1) by omega]

end GlusterFS.ThreadedList
