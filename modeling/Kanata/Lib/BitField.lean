import Mathlib.Data.Nat.Bitwise

/-!
# Kanata.Lib.BitField — bit fields of machine words as arithmetic

Words are natural numbers. Masks and shifts that cut a field out of a word, and
the disjunction that puts one in, are quotients, remainders and sums; with these
lemmas the round trip of a packed word is linear arithmetic.
-/

namespace BitField

/-- A mask of `width` ones above `low` bits. -/
theorem and_mask (x low width : Nat) :
    x &&& ((2 ^ width - 1) <<< low) = x / 2 ^ low % 2 ^ width * 2 ^ low := by
  have hshift : x &&& ((2 ^ width - 1) <<< low) = ((x >>> low) &&& (2 ^ width - 1)) <<< low := by
    apply Nat.eq_of_testBit_eq
    intro i
    simp only [Nat.testBit_and, Nat.testBit_shiftLeft, Nat.testBit_shiftRight]
    by_cases h : low ≤ i
    · simp [h]
    · simp [h]
  rw [hshift, Nat.and_two_pow_sub_one_eq_mod, Nat.shiftLeft_eq, Nat.shiftRight_eq_div_pow]

/-- A field written above a value that fits below it. -/
theorem lor_field {b low : Nat} (hb : b < 2 ^ low) (a : Nat) :
    b ||| (a <<< low) = a * 2 ^ low + b := by
  rw [Nat.lor_comm, ← Nat.shiftLeft_add_eq_or_of_lt hb, Nat.shiftLeft_eq]

end BitField
