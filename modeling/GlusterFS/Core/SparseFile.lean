import Mathlib.Data.List.GetD
import Mathlib.Data.UInt

/-!
# Sparse files

A file is a size and a content that is zero from the size on.  Holes are
ordinary zeroes: writing past the end and growing a file leave zeroes behind.
-/

namespace GlusterFS

@[ext]
structure SparseFile (Byte : Type*) [Zero Byte] where
  size : Nat
  data : Nat → Byte
  zero_beyond : ∀ position, size ≤ position → data position = 0

namespace SparseFile

variable {Byte : Type*} [Zero Byte]

def empty : SparseFile Byte := ⟨0, fun _ => 0, fun _ _ => rfl⟩

/-- Overwrite from `offset` on; writing nothing does not move the end. -/
def write (file : SparseFile Byte) (offset : Nat) (bytes : List Byte) : SparseFile Byte where
  size := if bytes = [] then file.size else max file.size (offset + bytes.length)
  data position :=
    if offset ≤ position ∧ position < offset + bytes.length then
      bytes.getD (position - offset) 0
    else file.data position
  zero_beyond position hposition := by
    cases bytes with
    | nil =>
      have hnot : ¬(offset ≤ position ∧ position < offset + 0) := by omega
      simpa [hnot] using file.zero_beyond position (by simpa using hposition)
    | cons byte bytes =>
      simp only [reduceCtorEq, if_false] at hposition
      rw [if_neg (by omega)]
      exact file.zero_beyond position (by omega)

/-- Cut or grow to `size`. -/
def truncate (file : SparseFile Byte) (size : Nat) : SparseFile Byte where
  size := size
  data position := if position < size then file.data position else 0
  zero_beyond position hposition := if_neg (by omega)

/-- The bytes from `offset` on, at most `length` of them, cut at the end. -/
def read (file : SparseFile Byte) (offset length : Nat) : List Byte :=
  (List.range (min length (file.size - offset))).map fun index => file.data (offset + index)

variable {file : SparseFile Byte} {offset length : Nat}

@[simp]
theorem truncate_size (size : Nat) : (file.truncate size).size = size := rfl

theorem truncate_data (size position : Nat) : (file.truncate size).data position =
      if position < size then file.data position else 0 := rfl

theorem write_data (bytes : List Byte) (position : Nat) : (file.write offset bytes).data position =
      if offset ≤ position ∧ position < offset + bytes.length then
        bytes.getD (position - offset) 0
      else file.data position := rfl

theorem write_size {bytes : List Byte} (hbytes : bytes ≠ []) :
    (file.write offset bytes).size = max file.size (offset + bytes.length) := by
  simp [write, hbytes]

@[simp]
theorem write_nil : file.write offset [] = file := by
  ext position
  · rfl
  · rw [write_data, if_neg (by simp)]

theorem write_append (left right : List Byte) : file.write offset (left ++ right) =
      (file.write offset left).write (offset + left.length) right := by
  by_cases hleft : left = []
  · subst hleft
    simp
  by_cases hright : right = []
  · subst hright
    simp
  ext position
  · rw [write_size (by simp [hleft]), write_size hright, write_size hleft, List.length_append]
    omega
  · simp only [write_data, List.length_append]
    by_cases hsecond : offset + left.length ≤ position ∧
        position < offset + left.length + right.length
    · rw [if_pos (by omega), if_pos hsecond, List.getD_append_right _ _ _ _ (by omega)]
      congr 1
      omega
    by_cases hfirst : offset ≤ position ∧ position < offset + left.length
    · rw [if_pos (by omega), if_neg hsecond, if_pos hfirst, List.getD_append _ _ _ _ (by omega)]
    · rw [if_neg (by omega), if_neg hsecond, if_neg hfirst]

@[simp]
theorem length_read : (file.read offset length).length = min length (file.size - offset) := by
  simp [read]

/-- Reads that the end of the file cuts alike. -/
theorem read_eq_of_min_eq {other : Nat}
    (hmin : min length (file.size - offset) = min other (file.size - offset)) :
    file.read offset length = file.read offset other := by
  rw [read, read, hmin]

theorem read_append (first second : Nat) : file.read offset (first + second) =
      file.read offset first ++ file.read (offset + first) second := by
  by_cases hshort : file.size - offset ≤ first
  · have hempty : file.read (offset + first) second = [] := by
      rw [← List.length_eq_zero_iff, length_read]
      omega
    rw [hempty, List.append_nil, read, read]
    congr 2
    omega
  · have hsplit : min (first + second) (file.size - offset) = min first (file.size - offset) +
          min second (file.size - (offset + first)) := by omega
    rw [read, hsplit, List.range_add, List.map_append, List.map_map, read, read]
    congr 1
    refine List.map_congr_left fun index _ => ?_
    simp only [Function.comp_apply]
    congr 1
    omega

theorem take_drop_read (skip count : Nat) : ((file.read offset length).drop skip).take count =
      file.read (offset + skip) (min count (length - skip)) := by
  refine List.ext_getElem ?_ fun index hleft hright => ?_
  · simp only [List.length_take, List.length_drop, length_read]
    omega
  · simp [read, Nat.add_assoc]

/-- A read that was padded with zeroes up to its length, when the bytes that
are missing are zero. -/
theorem read_eq_of_data {other : SparseFile Byte} {position : Nat}
    (hdata : ∀ index, index < length → file.data (offset + index) = other.data (position + index))
    (hfull : position + length ≤ other.size) :
    file.read offset length ++ List.replicate (length - (file.read offset length).length) 0 =
      other.read position length := by
  refine List.ext_getElem ?_ fun index hleft hright => ?_
  · simp
    omega
  · have hindex : index < length := by
      simp only [length_read] at hright
      omega
    have hother : (other.read position length)[index] =
        other.data (position + index) := by simp [read]
    rw [hother, ← hdata index hindex, List.getElem_append]
    split_ifs with hin
    · simp [read]
    · rw [List.getElem_replicate]
      refine (file.zero_beyond _ ?_).symm
      simp only [length_read] at hin
      omega

theorem read_congr {other : SparseFile Byte} {position : Nat} (hdata : ∀ index, index < length →
      file.data (offset + index) = other.data (position + index))
    (hlength : min length (file.size - offset) = min length (other.size - position)) :
    file.read offset length = other.read position length := by
  rw [read, read, hlength]
  refine List.map_congr_left fun index hindex => hdata index ?_
  simp only [List.mem_range] at hindex
  omega

end SparseFile

end GlusterFS
