import Mathlib.Data.UInt

/-!
# Pieces laid end to end

Every piece has a position of its own and a list of cells.  A list of pieces is
laid from a position on when each of them starts where the one before it ends.
The contents of the list then show every piece at its own position, and no two
pieces share one.
-/

namespace GlusterFS.Tiling

variable {Piece Cell : Type*} {start : Piece → Nat} {cells : Piece → List Cell}

/-- The pieces follow one another from a position on. -/
def Laid (start : Piece → Nat) (cells : Piece → List Cell) : Nat → List Piece → Prop
  | _, [] => True
  | position, piece :: rest =>
    start piece = position ∧ Laid start cells (position + (cells piece).length) rest

/-- The positions of one piece. -/
def Occupies (start : Piece → Nat) (cells : Piece → List Cell) (piece : Piece)
    (position : Nat) : Prop :=
  start piece ≤ position ∧ position < start piece + (cells piece).length

variable {position : Nat} {piece : Piece} {pieces front back : List Piece}

theorem laid_append : Laid start cells position (front ++ back) ↔ Laid start cells position front ∧
        Laid start cells (position + (front.flatMap cells).length) back := by
  induction front generalizing position with
  | nil => simp [Laid]
  | cons piece front ih => simp [Laid, ih, and_assoc, Nat.add_assoc]

section

variable (hlaid : Laid start cells position pieces)

include hlaid

/-- The contents show a piece at its own position. -/
theorem Laid.slice (hmem : piece ∈ pieces) : ∃ skip, position + skip = start piece ∧
      skip + (cells piece).length ≤ (pieces.flatMap cells).length ∧
      ((pieces.flatMap cells).drop skip).take (cells piece).length = cells piece := by
  obtain ⟨front, back, rfl⟩ := List.append_of_mem hmem
  obtain ⟨_, hstart, _⟩ := laid_append.mp hlaid
  refine ⟨(front.flatMap cells).length, hstart.symm, ?_, ?_⟩
  · simp only [List.flatMap_append, List.flatMap_cons, List.length_append]
    omega
  · simp

theorem Laid.occupied (hmem : piece ∈ pieces) {index : Nat}
    (hindex : Occupies start cells piece index) :
    position ≤ index ∧ index < position + (pieces.flatMap cells).length := by
  obtain ⟨skip, hskip, hlength, _⟩ := hlaid.slice hmem
  obtain ⟨hfrom, hto⟩ := hindex
  omega

theorem Laid.covers {index : Nat} (hfrom : position ≤ index)
    (hto : index < position + (pieces.flatMap cells).length) :
    ∃ piece ∈ pieces, Occupies start cells piece index := by
  induction pieces generalizing position with
  | nil =>
    simp only [List.flatMap_nil, List.length_nil] at hto
    omega
  | cons piece pieces ih =>
    obtain ⟨hstart, hrest⟩ := hlaid
    by_cases hpiece : index < position + (cells piece).length
    · exact ⟨piece, List.mem_cons_self, by rw [Occupies, hstart]; exact ⟨hfrom, hpiece⟩⟩
    · simp only [List.flatMap_cons, List.length_append] at hto
      obtain ⟨other, hother, hoccupies⟩ := ih hrest (by omega) (by omega)
      exact ⟨other, List.mem_cons_of_mem _ hother, hoccupies⟩

theorem Laid.disjoint : pieces.Pairwise fun left right => ∀ index,
      ¬(Occupies start cells left index ∧ Occupies start cells right index) := by
  induction pieces generalizing position with
  | nil => exact .nil
  | cons piece pieces ih =>
    obtain ⟨hstart, hrest⟩ := hlaid
    refine .cons (fun other hother index => ?_) (ih hrest)
    rintro ⟨hleft, hright⟩
    have hbehind := (hrest.occupied hother hright).1
    have hbefore := hleft.2
    omega

end

end GlusterFS.Tiling
