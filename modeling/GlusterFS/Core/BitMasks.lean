import Mathlib.Data.Nat.Bitwise
import Mathlib.Data.Nat.Log
import Mathlib.Data.UInt

/-!
# Fields of a 64-bit word

Masks cut a word into the bits above a position and those below it.  The lemmas say what
the parts are as numbers, and put the parts together again.
-/

namespace GlusterFS.BitMasks

variable {bits : Nat}

theorem toNat_ofNat_shift (hbits : bits < 64) : (UInt64.ofNat bits).toNat % 64 = bits := by
  rw [UInt64.toNat_ofNat', Nat.mod_eq_of_lt (by omega : bits < 2 ^ 64), Nat.mod_eq_of_lt hbits]

theorem toNat_and_high (word : UInt64) (hbits : bits < 64) :
    (word &&& (~~~0 <<< UInt64.ofNat bits)).toNat = word.toNat / 2 ^ bits * 2 ^ bits := by
  rw [UInt64.toNat_and, UInt64.toNat_shiftLeft, toNat_ofNat_shift hbits,
    ← Nat.shiftRight_eq_div_pow, ← Nat.shiftLeft_eq]
  have hones : (~~~0 : UInt64).toNat = 2 ^ 64 - 1 := rfl
  rw [hones]
  refine Nat.eq_of_testBit_eq fun i => ?_
  rw [Nat.testBit_and, Nat.testBit_mod_two_pow, Nat.testBit_shiftLeft, Nat.testBit_shiftLeft,
    Nat.testBit_shiftRight, Nat.testBit_two_pow_sub_one]
  by_cases hi : i < 64
  · by_cases hhigh : bits ≤ i
    · simp [hi, hhigh, show i - bits < 64 by omega]
    · simp [hhigh]
  · have hbig : word.toNat.testBit i = false :=
      Nat.testBit_eq_false_of_lt
        (Nat.lt_of_lt_of_le word.toNat_lt (Nat.pow_le_pow_right (by omega) (by omega)))
    by_cases hhigh : bits ≤ i
    · simp [hi, hbig, hhigh]
    · simp [hi, hhigh]

theorem toNat_and_add_not (word mask : UInt64) :
    (word &&& mask).toNat + (word &&& ~~~mask).toNat = word.toNat := by
  have hdisjoint : (word &&& mask).toBitVec &&& (word &&& ~~~mask).toBitVec = 0#64 := by
    ext i hi
    simp
    tauto
  have hjoin : (word &&& mask).toBitVec ||| (word &&& ~~~mask).toBitVec = word.toBitVec := by
    ext i hi
    simp [← Bool.and_or_distrib_left]
  rw [← BitVec.add_eq_or_of_and_eq_zero _ _ hdisjoint] at hjoin
  exact (BitVec.toNat_add_of_and_eq_zero hdisjoint).symm.trans (congrArg BitVec.toNat hjoin)

theorem toNat_and_not_high (word : UInt64) (hbits : bits < 64) :
    (word &&& ~~~(~~~0 <<< UInt64.ofNat bits)).toNat = word.toNat % 2 ^ bits := by
  have hsum := toNat_and_add_not word (~~~0 <<< UInt64.ofNat bits)
  rw [toNat_and_high word hbits] at hsum
  have hdiv := Nat.div_add_mod word.toNat (2 ^ bits)
  rw [Nat.mul_comm] at hdiv
  omega

theorem toNat_and_bit (word : UInt64) (hbits : bits < 64) :
    (word &&& (1 <<< UInt64.ofNat bits)).toNat = word.toNat / 2 ^ bits % 2 * 2 ^ bits := by
  have hbit : (1 <<< UInt64.ofNat bits : UInt64).toNat = 2 ^ bits := by
    rw [UInt64.toNat_shiftLeft, toNat_ofNat_shift hbits, Nat.shiftLeft_eq, UInt64.toNat_one,
      Nat.one_mul, Nat.mod_eq_of_lt (Nat.pow_lt_pow_right (by omega) hbits)]
  rw [UInt64.toNat_and, hbit, Nat.and_two_pow, Nat.testBit_eq_decide_div_mod_eq]
  rcases Nat.mod_two_eq_zero_or_one (word.toNat / 2 ^ bits) with h | h <;> simp [h]

/-- A field is joined to one whose bits are all above it. -/
theorem toNat_or_low (bits : Nat) {high low : UInt64} (hhigh : 2 ^ bits ∣ high.toNat)
    (hlow : low.toNat < 2 ^ bits) : (high ||| low).toNat = high.toNat + low.toNat := by
  obtain ⟨part, hpart⟩ := hhigh
  rw [UInt64.toNat_or, hpart, Nat.two_pow_add_eq_or_of_lt hlow]

end GlusterFS.BitMasks
