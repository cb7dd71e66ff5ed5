import Mathlib.Data.UInt
import Mathlib.Tactic.Linarith
import Mathlib.Tactic.Ring

/-!
# Where the bytes of a striped file live

The file is cut into units of `stripe_size` bytes that go round the children.
A child keeps its units at their offsets in the file or, when coalescing, one
after the other.
-/

namespace GlusterFS.Stripe

/-- The macro `roof`; the divisor is never zero here. -/
def roof (a b : Nat) : Nat := (a + b - 1) / b * b

/-- The macro `floor`. -/
def floor (a b : Nat) : Nat := a / b * b

def coalescedOffset (offset stripeSize stripeCount : Nat) : Nat :=
  let lineSize := stripeSize * stripeCount
  let stripeNum := offset / lineSize
  stripeNum * stripeSize + offset % stripeSize

def uncoalescedSize (size stripeSize stripeCount stripeIndex : Nat) : Nat :=
  if size = 0 then size
  else
    let nrFullStripeChunks := size / stripeSize * stripeCount
    let mod := size % stripeSize
    if mod = 0 then
      (nrFullStripeChunks - (stripeCount - (stripeIndex + 1))) * stripeSize
    else
      (nrFullStripeChunks + stripeIndex) * stripeSize + mod

/-- The parts of `stripe_fd_ctx_t` that place the bytes. -/
structure StripeFdCtx where
  stripeSize : Nat
  stripeCount : Nat
  stripeCoalesce : Bool
  stripeSize_pos : 0 < stripeSize
  stripeCount_pos : 0 < stripeCount

namespace StripeFdCtx

variable (fctx : StripeFdCtx)

/-- The child in `xl_array` that a loop index names. -/
def xlator (index : Nat) : Fin fctx.stripeCount :=
  ⟨index % fctx.stripeCount, Nat.mod_lt _ fctx.stripeCount_pos⟩

/-- The child that owns the byte at `offset`. -/
def childOf (offset : Nat) : Fin fctx.stripeCount :=
  fctx.xlator (offset / fctx.stripeSize)

/-- The offset on its child of the byte at `offset`. -/
def destOffset (offset : Nat) : Nat :=
  if fctx.stripeCoalesce then
    coalescedOffset offset fctx.stripeSize fctx.stripeCount
  else offset

/-- `correct_file_size` of a regular file. -/
def correctFileSize (index : Fin fctx.stripeCount) (size : Nat) : Nat :=
  if fctx.stripeCoalesce then
    uncoalescedSize size fctx.stripeSize fctx.stripeCount index
  else size

/-- The byte of the file that is at `position` on a child. -/
def fileOffset (index : Fin fctx.stripeCount) (position : Nat) : Nat :=
  if fctx.stripeCoalesce then
    (position / fctx.stripeSize * fctx.stripeCount + index) * fctx.stripeSize +
      position % fctx.stripeSize
  else position

/-- The offset that child `i` is truncated to. -/
def truncateOffset (offset : Nat) (i : Fin fctx.stripeCount) : Nat :=
  let eofIdx := offset / fctx.stripeSize % fctx.stripeCount
  if fctx.stripeCoalesce then
    let tmpOffset :=
      if i < eofIdx then roof offset (fctx.stripeSize * fctx.stripeCount)
      else if i > eofIdx then floor offset (fctx.stripeSize * fctx.stripeCount)
      else offset
    coalescedOffset tmpOffset fctx.stripeSize fctx.stripeCount
  else offset

end StripeFdCtx

/-! ## Arithmetic -/

theorem mul_add_lt_mul_add_iff {base left right leftRest rightRest : Nat}
    (hleft : leftRest < base) (hright : rightRest < base) :
    left * base + leftRest < right * base + rightRest ↔
      left < right ∨ left = right ∧ leftRest < rightRest := by
  constructor
  · intro hlt
    rcases Nat.lt_trichotomy left right with h | h | h
    · exact .inl h
    · subst h
      exact .inr ⟨rfl, by omega⟩
    · have hle : (right + 1) * base ≤ left * base := Nat.mul_le_mul_right _ h
      rw [Nat.add_mul] at hle
      omega
  · rintro (h | ⟨rfl, h⟩)
    · have hle : (left + 1) * base ≤ right * base := Nat.mul_le_mul_right _ h
      rw [Nat.add_mul] at hle
      omega
    · omega

theorem lt_iff_div_mod {base : Nat} (hbase : 0 < base) (left right : Nat) :
    left < right ↔ left / base < right / base ∨
      left / base = right / base ∧ left % base < right % base := by
  rw [← mul_add_lt_mul_add_iff (Nat.mod_lt _ hbase) (Nat.mod_lt _ hbase),
    Nat.div_add_mod', Nat.div_add_mod']

theorem eq_iff_div_mod (left right base : Nat) :
    left = right ↔ left / base = right / base ∧ left % base = right % base := by
  refine ⟨fun heq => heq ▸ ⟨rfl, rfl⟩, fun ⟨hdiv, hmod⟩ => ?_⟩
  rw [← Nat.div_add_mod' left base, hdiv, hmod, Nat.div_add_mod']

theorem mul_add_div_of_lt {base quotient rest : Nat} (hrest : rest < base) :
    (quotient * base + rest) / base = quotient := by
  rw [Nat.add_comm, Nat.add_mul_div_right _ _ (by omega), Nat.div_eq_of_lt hrest, Nat.zero_add]

theorem mul_add_mod_of_lt {base quotient rest : Nat} (hrest : rest < base) :
    (quotient * base + rest) % base = rest := by
  rw [Nat.add_comm, Nat.add_mul_mod_self_right, Nat.mod_eq_of_lt hrest]

theorem add_div_mod {base offset index : Nat} (hindex : offset % base + index < base) :
    (offset + index) / base = offset / base ∧ (offset + index) % base = offset % base + index := by
  have hsplit : offset + index = offset / base * base + (offset % base + index) := by
    have := Nat.div_add_mod' offset base
    omega
  rw [hsplit]
  exact ⟨mul_add_div_of_lt hindex, mul_add_mod_of_lt hindex⟩

theorem roof_of_mod_ne_zero {a b : Nat} (hmod : a % b ≠ 0) : roof a b = (a / b + 1) * b := by
  rcases Nat.eq_zero_or_pos b with rfl | hpos
  · rfl
  have hlt := Nat.mod_lt a hpos
  have hsplit : a + b - 1 = (a / b + 1) * b + (a % b - 1) := by
    have := Nat.div_add_mod' a b
    rw [Nat.add_mul]
    omega
  rw [roof, hsplit, mul_add_div_of_lt (by omega)]

/-- The size is one more than the place of the child's last byte. -/
theorem uncoalescedSize_pos {size stripeSize stripeCount index : Nat}
    (hstripe : 0 < stripeSize) (hindex : index < stripeCount) (hsize : 0 < size) :
    uncoalescedSize size stripeSize stripeCount index =
      ((size - 1) / stripeSize * stripeCount + index) * stripeSize +
        (size - 1) % stripeSize + 1 := by
  have hlt := Nat.mod_lt size hstripe
  have hsplit := Nat.div_add_mod' size stripeSize
  rw [uncoalescedSize, if_neg (by omega)]
  by_cases hmod : size % stripeSize = 0
  · obtain ⟨rows, hrows⟩ : ∃ rows, size / stripeSize = rows + 1 := by
      refine Nat.exists_eq_add_one.mpr (Nat.pos_of_ne_zero fun hzero => ?_)
      rw [hzero, hmod] at hsplit
      omega
    have hlast : size - 1 = rows * stripeSize + (stripeSize - 1) := by
      rw [hrows, Nat.add_mul] at hsplit
      omega
    have hchunks : (rows + 1) * stripeCount - (stripeCount - (index + 1)) =
        rows * stripeCount + index + 1 := by
      rw [Nat.add_mul]
      omega
    rw [hlast, mul_add_div_of_lt (by omega), mul_add_mod_of_lt (by omega),
      if_pos hmod, hrows, hchunks, Nat.add_mul _ 1]
    omega
  · have hlast : size - 1 = size / stripeSize * stripeSize + (size % stripeSize - 1) := by omega
    rw [if_neg hmod, hlast, mul_add_div_of_lt (by omega), mul_add_mod_of_lt (by omega)]
    omega

theorem coalescedOffset_mul (row : Nat) {stripeSize stripeCount : Nat}
    (hsize : 0 < stripeSize) (hcount : 0 < stripeCount) :
    coalescedOffset (row * (stripeSize * stripeCount)) stripeSize stripeCount =
      row * stripeSize := by
  have hmod : row * (stripeSize * stripeCount) % stripeSize = 0 := by
    rw [Nat.mul_left_comm, Nat.mul_mod_right]
  rw [coalescedOffset, Nat.mul_div_cancel _ (Nat.mul_pos hsize hcount), hmod, Nat.add_zero]

namespace StripeFdCtx

variable (fctx : StripeFdCtx)

/-- The number of the unit on its child. -/
def row (offset : Nat) : Nat :=
  if fctx.stripeCoalesce then offset / fctx.stripeSize / fctx.stripeCount
  else offset / fctx.stripeSize

theorem destOffset_eq (offset : Nat) : fctx.destOffset offset =
      fctx.row offset * fctx.stripeSize + offset % fctx.stripeSize := by
  unfold destOffset row
  split_ifs
  · rw [coalescedOffset, ← Nat.div_div_eq_div_mul]
  · rw [Nat.div_add_mod']

variable {fctx} {offset position index : Nat}

theorem mod_lt_stripeSize : offset % fctx.stripeSize < fctx.stripeSize :=
  Nat.mod_lt _ fctx.stripeSize_pos

/-- A unit is known by its child and its number there. -/
theorem unit_eq (hchild : fctx.childOf offset = fctx.childOf position)
    (hrow : fctx.row offset = fctx.row position) :
    offset / fctx.stripeSize = position / fctx.stripeSize := by
  unfold row at hrow
  split_ifs at hrow with hcoalesce
  · exact (eq_iff_div_mod _ _ fctx.stripeCount).mpr ⟨hrow, by simpa [childOf, xlator] using hchild⟩
  · exact hrow

theorem childOf_add (hindex : offset % fctx.stripeSize + index < fctx.stripeSize) :
    fctx.childOf (offset + index) = fctx.childOf offset := by
  rw [childOf, childOf, (add_div_mod hindex).1]

theorem destOffset_add (hindex : offset % fctx.stripeSize + index < fctx.stripeSize) :
    fctx.destOffset (offset + index) = fctx.destOffset offset + index := by
  rw [destOffset_eq, destOffset_eq, row, (add_div_mod hindex).1,
    (add_div_mod hindex).2, ← row, Nat.add_assoc]

theorem fileOffset_destOffset (offset : Nat) :
    fctx.fileOffset (fctx.childOf offset) (fctx.destOffset offset) = offset := by
  rw [fileOffset, destOffset_eq, mul_add_div_of_lt mod_lt_stripeSize,
    mul_add_mod_of_lt mod_lt_stripeSize, row]
  split_ifs
  · simp only [childOf, xlator, Nat.div_add_mod']
  · exact Nat.div_add_mod' _ _

theorem fileOffset_le (child : Fin fctx.stripeCount) (hle : offset ≤ position) :
    fctx.fileOffset child offset ≤ fctx.fileOffset child position := by
  unfold fileOffset
  split_ifs
  · rcases Nat.eq_or_lt_of_le hle with rfl | hlt
    · exact Nat.le_refl _
    rw [lt_iff_div_mod fctx.stripeSize_pos] at hlt
    refine Nat.le_of_lt ?_
    rw [mul_add_lt_mul_add_iff mod_lt_stripeSize mod_lt_stripeSize,
      mul_add_lt_mul_add_iff child.isLt child.isLt]
    rcases hlt with hlt | ⟨heq, hlt⟩
    · exact .inl (.inl hlt)
    · exact .inr ⟨by rw [heq], hlt⟩
  · exact hle

/-- With coalescing every byte of a child is a byte of the file. -/
theorem childOf_fileOffset (hcoalesce : fctx.stripeCoalesce)
    (child : Fin fctx.stripeCount) (position : Nat) :
    fctx.childOf (fctx.fileOffset child position) = child ∧
      fctx.destOffset (fctx.fileOffset child position) = position := by
  simp only [fileOffset, if_pos hcoalesce, childOf, xlator, destOffset_eq, row,
    mul_add_div_of_lt mod_lt_stripeSize, mul_add_mod_of_lt mod_lt_stripeSize,
    mul_add_div_of_lt child.isLt, mul_add_mod_of_lt child.isLt]
  exact ⟨trivial, Nat.div_add_mod' _ _⟩

/-- The corrected size is one more than the last byte the child has. -/
theorem correctFileSize_eq (child : Fin fctx.stripeCount) (size : Nat) :
    fctx.correctFileSize child size =
      if size = 0 then 0 else fctx.fileOffset child (size - 1) + 1 := by
  rcases Nat.eq_zero_or_pos size with rfl | hsize
  · simp [correctFileSize, uncoalescedSize]
  rw [if_neg (by omega), correctFileSize, fileOffset]
  split_ifs with hcoalesce
  · rw [uncoalescedSize_pos fctx.stripeSize_pos child.isLt hsize]
  · omega

/-- The corrected size bounds the places of all the bytes the child has. -/
theorem correctFileSize_le_iff {child : Fin fctx.stripeCount} {size bound : Nat} :
    fctx.correctFileSize child size ≤ bound ↔
      ∀ position, position < size → fctx.fileOffset child position < bound := by
  rw [correctFileSize_eq]
  split_ifs with hzero
  · exact ⟨fun _ position hlt => by omega, fun _ => Nat.zero_le _⟩
  · refine ⟨fun hle position hlt => ?_, fun hall => hall _ (by omega)⟩
    exact Nat.lt_of_le_of_lt (fileOffset_le child (by omega)) hle

/-- Offsets are ordered by row, then by child, then inside the unit. -/
theorem lt_iff_coordinates (fctx : StripeFdCtx) (position offset : Nat) : position < offset ↔
      position / fctx.stripeSize / fctx.stripeCount < offset / fctx.stripeSize / fctx.stripeCount ∨
        position / fctx.stripeSize / fctx.stripeCount =
            offset / fctx.stripeSize / fctx.stripeCount ∧
          (position / fctx.stripeSize % fctx.stripeCount <
              offset / fctx.stripeSize % fctx.stripeCount ∨
            position / fctx.stripeSize % fctx.stripeCount =
                offset / fctx.stripeSize % fctx.stripeCount ∧
              position % fctx.stripeSize < offset % fctx.stripeSize) := by
  rw [lt_iff_div_mod fctx.stripeSize_pos position offset,
    lt_iff_div_mod fctx.stripeCount_pos (position / fctx.stripeSize),
    eq_iff_div_mod (position / fctx.stripeSize) _ fctx.stripeCount]
  tauto

/-- Where a coalescing child is cut: children before the one with the new end
keep the whole row, those after it lose it. -/
theorem truncateOffset_coalesce (hcoalesce : fctx.stripeCoalesce)
    (offset : Nat) (child : Fin fctx.stripeCount) :
    fctx.truncateOffset offset child =
      offset / fctx.stripeSize / fctx.stripeCount * fctx.stripeSize +
        if child < offset / fctx.stripeSize % fctx.stripeCount then fctx.stripeSize
        else if child > offset / fctx.stripeSize % fctx.stripeCount then 0
        else offset % fctx.stripeSize := by
  simp only [truncateOffset, if_pos hcoalesce]
  split_ifs with hbefore hafter
  · have hmod : offset % (fctx.stripeSize * fctx.stripeCount) ≠ 0 := by
      rw [Nat.mod_mul]
      have hpos := Nat.mul_pos fctx.stripeSize_pos (Nat.zero_lt_of_lt hbefore)
      omega
    rw [roof_of_mod_ne_zero hmod, coalescedOffset_mul _ fctx.stripeSize_pos fctx.stripeCount_pos,
      ← Nat.div_div_eq_div_mul, Nat.add_mul, Nat.one_mul]
  · rw [floor, coalescedOffset_mul _ fctx.stripeSize_pos fctx.stripeCount_pos,
      ← Nat.div_div_eq_div_mul, Nat.add_zero]
  · rw [coalescedOffset, ← Nat.div_div_eq_div_mul]

/-- Truncation keeps on each child exactly the bytes before the new end. -/
theorem lt_truncateOffset_iff (fctx : StripeFdCtx) (offset position : Nat) :
    fctx.destOffset position < fctx.truncateOffset offset (fctx.childOf position) ↔
      position < offset := by
  by_cases hcoalesce : fctx.stripeCoalesce
  · have hchild : (fctx.childOf position : Nat) =
        position / fctx.stripeSize % fctx.stripeCount := rfl
    have hrest : position % fctx.stripeSize < fctx.stripeSize := mod_lt_stripeSize
    have hend : offset % fctx.stripeSize < fctx.stripeSize := mod_lt_stripeSize
    rw [lt_iff_coordinates fctx position offset, truncateOffset_coalesce hcoalesce,
      destOffset_eq, row, if_pos hcoalesce]
    split_ifs with hbefore hafter
    · have hrow : position / fctx.stripeSize / fctx.stripeCount * fctx.stripeSize +
            position % fctx.stripeSize <
          (offset / fctx.stripeSize / fctx.stripeCount + 1) * fctx.stripeSize + 0 ↔ _ :=
        mul_add_lt_mul_add_iff hrest fctx.stripeSize_pos
      rw [Nat.add_mul, Nat.one_mul, Nat.add_zero] at hrow
      rw [hrow]
      omega
    · rw [mul_add_lt_mul_add_iff hrest fctx.stripeSize_pos]
      omega
    · rw [mul_add_lt_mul_add_iff hrest hend]
      omega
  · simp only [truncateOffset, destOffset, if_neg hcoalesce]

end StripeFdCtx

end GlusterFS.Stripe
