import Mathlib.Data.Nat.Notation
import Mathlib.Data.Int.Notation
import Mathlib.Tactic.Ring
import Mathlib.Tactic.Linarith

/-!
# Fixed-width readings of an integer

The kernel is compiled for a 32-bit machine and mixes 32- and 64-bit signed
and unsigned types. A conversion reads the low w bits of an integer, either
as an unsigned or as a two's complement number. The lemmas say when such a
reading loses nothing.
-/

namespace WootOs.MachineInt

/-- The low w bits of an integer, read without a sign. -/
def unsigned (w : ℕ) (x : ℤ) : ℕ := (x % 2 ^ w).toNat

/-- The low w bits of an integer, read in two's complement. -/
def signed (w : ℕ) (x : ℤ) : ℤ := Int.bmod x (2 ^ w)

/-- A natural number that fits is read back unchanged. -/
theorem unsigned_natCast {w n : ℕ} (h : n < 2 ^ w) : unsigned w (n : ℤ) = n := by
  have hm : (n : ℤ) % 2 ^ w = n := Int.emod_eq_of_lt (by omega) (by exact_mod_cast h)
  rw [unsigned,hm,Int.toNat_natCast]

/-- A negative number is read as its distance below the modulus. -/
theorem unsigned_neg {w n : ℕ} (h : n < 2 ^ w) :
    unsigned w ((n : ℤ) - 2 ^ w) = n := by
  have hm : ((n : ℤ) - 2 ^ w) % 2 ^ w = n := by
    rw [Int.sub_emod_right]
    exact Int.emod_eq_of_lt (by omega) (by exact_mod_cast h)
  rw [unsigned,hm,Int.toNat_natCast]

/-- Numbers of the signed range are read back unchanged. -/
theorem signed_of_range {w : ℕ} {x : ℤ} (hl : -(2 ^ w) ≤ x) (hu : x < 2 ^ w) :
    signed (w + 1) x = x := by
  have hw : ((2 ^ (w + 1) : ℕ) : ℤ) = 2 * 2 ^ w := by push_cast; ring
  rw [signed]
  apply Int.bmod_eq_of_le
  · rw [hw]; omega
  · rw [hw]; omega

/-- Upper half of the unsigned range: the sign bit is set. -/
theorem signed_of_high {w : ℕ} {x : ℤ} (hl : 2 ^ w ≤ x) (hu : x < 2 * 2 ^ w) :
    signed (w + 1) x = x - 2 * 2 ^ w := by
  have hw : ((2 ^ (w + 1) : ℕ) : ℤ) = 2 * 2 ^ w := by push_cast; ring
  have hs : Int.bmod x (2 ^ (w + 1)) = Int.bmod (x - 2 * 2 ^ w) (2 ^ (w + 1)) := by
    rw [←hw,Int.sub_bmod_right]
  rw [signed,hs]
  apply Int.bmod_eq_of_le
  · rw [hw]; omega
  · rw [hw]; omega

end WootOs.MachineInt
