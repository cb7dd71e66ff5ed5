import Mathlib.Data.UInt

/-!
# Big-endian words

Four bytes as a number, and as a signed number.
-/

namespace GlusterFS.BigEndian

/-- The bytes of a 32-bit word, the highest first. -/
def bytes32 (word : Nat) : List UInt8 :=
  [.ofNat (word / 2 ^ 24), .ofNat (word / 2 ^ 16), .ofNat (word / 2 ^ 8), .ofNat word]

/-- The word that four bytes make. -/
def word32 (a b c d : UInt8) : Nat :=
  a.toNat * 2 ^ 24 + b.toNat * 2 ^ 16 + c.toNat * 2 ^ 8 + d.toNat

/-- The word that the bytes begin with. -/
def read32 : List UInt8 → Option Nat
  | a :: b :: c :: d :: _ => some (word32 a b c d)
  | _ => none

/-- A word as a number of two's complement. -/
def signed32 (word : Nat) : Int := if word < 2 ^ 31 then word else word - 2 ^ 32

@[simp]
theorem length_bytes32 (word : Nat) : (bytes32 word).length = 4 := rfl

theorem read32_bytes32 {word : Nat} (hword : word < 2 ^ 32) (rest : List UInt8) :
    read32 (bytes32 word ++ rest) = some word := by
  simp only [bytes32, List.cons_append, read32, word32, UInt8.toNat_ofNat', Option.some.injEq]
  omega

end GlusterFS.BigEndian
