import Mathlib.Data.UInt

/-!
# Ranges that cover each value once

Ranges have a first and a last value and are listed by their first values.  They cover
every value between two positions once exactly when each begins right behind the one
before it, from the one position on and up to the other.
-/

namespace GlusterFS.Intervals

variable {Range : Type*} (first last : Range → Nat)

def Holds (range : Range) (value : Nat) : Prop := first range ≤ value ∧ value ≤ last range
  deriving Decidable

/-- The ranges follow one another from a position up to a limit. -/
def Chained (limit : Nat) : Nat → List Range → Prop
  | position, [] => position = limit
  | position, range :: rest => first range = position ∧ Chained limit (last range + 1) rest

/-- How many of the ranges hold the value. -/
def coverage (ranges : List Range) (value : Nat) : Nat :=
  ranges.countP fun range => Holds first last range value

variable {first last} {limit position : Nat} {ranges : List Range}

theorem coverage_cons (range : Range) (value : Nat) : coverage first last (range :: ranges) value =
      coverage first last ranges value + if Holds first last range value then 1 else 0 := by
  rw [coverage, List.countP_cons]
  simp [coverage]

theorem coverage_eq_zero {value : Nat} (hbehind : ∀ range ∈ ranges, value < first range) :
    coverage first last ranges value = 0 := by
  refine List.countP_eq_zero.mpr fun range hrange => ?_
  have hlt := hbehind range hrange
  simp [Holds, Nat.not_le.mpr hlt]

/-- In a chain no range begins before the position. -/
theorem Chained.le_first (hchain : Chained first last limit position ranges)
    (hsorted : ranges.Pairwise fun left right => first left ≤ first right) :
    ∀ range ∈ ranges, position ≤ first range := by
  cases ranges with
  | nil => simp
  | cons head rest =>
    intro range hrange
    rcases List.mem_cons.mp hrange with rfl | hrest
    · exact Nat.le_of_eq hchain.1.symm
    · exact hchain.1 ▸ (List.pairwise_cons.mp hsorted).1 range hrest

/-- Ranges in order form a chain if and only if they cover every value once. -/
theorem chained_iff_coverage (hsorted : ranges.Pairwise fun left right => first left ≤ first right)
    (hranges : ∀ range ∈ ranges, first range ≤ last range ∧ last range < limit)
    (hfrom : ∀ range ∈ ranges, position ≤ first range) (hposition : position ≤ limit) :
    Chained first last limit position ranges ↔
      ∀ value, position ≤ value → value < limit → coverage first last ranges value = 1 := by
  induction ranges generalizing position with
  | nil =>
    constructor
    · rintro rfl value hle hlt
      omega
    · intro hcover
      by_contra hne
      have hnone : (0 : Nat) = 1 :=
        hcover position (Nat.le_refl _) (Nat.lt_of_le_of_ne hposition hne)
      omega
  | cons range rest ih =>
    obtain ⟨hhead, htail⟩ := List.pairwise_cons.mp hsorted
    obtain ⟨hrange, hlast⟩ := hranges range List.mem_cons_self
    have hbegin := hfrom range List.mem_cons_self
    have hrest : ∀ other ∈ rest, first other ≤ last other ∧ last other < limit :=
      fun other hother => hranges other (List.mem_cons_of_mem _ hother)
    constructor
    · rintro ⟨hfirst, hchain⟩ value hle hlt
      have hbehind := hchain.le_first htail
      rw [coverage_cons]
      by_cases hin : value ≤ last range
      · have hnone : coverage first last rest value = 0 := by
          refine coverage_eq_zero fun other hother => ?_
          have hafter := hbehind other hother
          omega
        rw [hnone, if_pos ⟨by omega, hin⟩]
      · rw [(ih htail hrest hbehind (by omega)).mp hchain value (by omega) hlt,
          if_neg fun h => hin h.2]
    · intro hcover
      have hbehind : ∀ other ∈ rest, last range + 1 ≤ first other := by
        intro other hother
        by_contra hinside
        have hother' := hrest other hother
        have hone := hcover (first other) (hfrom other (List.mem_cons_of_mem _ hother)) (by omega)
        have hpos : 0 < coverage first last rest (first other) :=
          List.countP_pos_iff.mpr ⟨other, hother, by simpa [Holds] using hother'.1⟩
        rw [coverage_cons, if_pos ⟨hhead other hother, by omega⟩] at hone
        omega
      refine ⟨?_, (ih htail hrest hbehind (by omega)).mpr fun value hle hlt => ?_⟩
      · by_contra hne
        have hone := hcover position (Nat.le_refl _) (by omega)
        have hnone : coverage first last (range :: rest) position = 0 := by
          refine coverage_eq_zero fun other hother => ?_
          rcases List.mem_cons.mp hother with rfl | hother
          · omega
          · have hafter := hbehind other hother
            omega
        omega
      · have hone := hcover value (by omega) hlt
        rwa [coverage_cons, if_neg fun h => by have := h.2; omega, Nat.add_zero] at hone

end GlusterFS.Intervals
