import Mathlib.Tactic.Linarith
import Mathlib.Tactic.Ring

/-!
# Steps spread evenly

A number of minor steps is spread over a number of major ones by an account:
every major step costs it the number of minor ones, and where it does not have
as much, a minor step is taken and pays the number of major ones into it. The
account stays between zero and the number of major steps, so after the last
major step all minor ones have been taken, and never more.
-/

namespace WootOs.EvenSpread

/-- So much was on the account at first, and after k major and j minor steps there is
so much. -/
structure Spread (major minor start k j account : ℤ) : Prop where
  /-- The account is never overdrawn. -/
  low : 0 ≤ account
  /-- It never holds as much as a minor step pays. -/
  high : account < major
  /-- What has been paid. -/
  balance : account = start + j * major - k * minor

section Spread

variable {major minor start k j account : ℤ}

/-- Before the first step. -/
theorem Spread.first (hlow : 0 ≤ start) (hhigh : start < major) :
    Spread major minor start 0 0 start :=
  ⟨hlow,hhigh,by ring⟩

/-- A major step for which there is enough. -/
theorem Spread.stay (h : Spread major minor start k j account) (hminor : 0 ≤ minor)
    (hle : minor ≤ account) : Spread major minor start (k + 1) j (account - minor) :=
  ⟨by linarith,by linarith [h.high],by rw [h.balance]; ring⟩

/-- A major step with a minor one. -/
theorem Spread.both (h : Spread major minor start k j account) (hminor : minor ≤ major)
    (hlt : account < minor) : Spread major minor start (k + 1) (j + 1) (account - minor + major) :=
  ⟨by linarith [h.low],by linarith,by rw [h.balance]; ring⟩

/-- Minor steps are neither too many nor taken back. -/
theorem Spread.range (h : Spread major minor start k j account) (hlow : 0 ≤ start)
    (hhigh : start < major) (hminor : 0 ≤ minor) (hk : 0 ≤ k) (hle : k ≤ major) :
    0 ≤ j ∧ j ≤ minor := by
  have hmajor : 0 < major := lt_of_le_of_lt hlow hhigh
  have hpaid : k * minor ≤ major * minor := mul_le_mul_of_nonneg_right hle hminor
  have hpaid' : 0 ≤ k * minor := mul_nonneg hk hminor
  obtain ⟨hacc,hacc',hbalance⟩ := h
  constructor
  · have : -1 * major < j * major := by linarith
    have := lt_of_mul_lt_mul_right this hmajor.le
    omega
  · have : j * major < (minor + 1) * major := by linarith
    have := lt_of_mul_lt_mul_right this hmajor.le
    omega

/-- After the last major step all minor steps have been taken. -/
theorem Spread.last (h : Spread major minor start major j account) (hlow : 0 ≤ start)
    (hhigh : start < major) : j = minor := by
  have hmajor : 0 < major := lt_of_le_of_lt hlow hhigh
  obtain ⟨hacc,hacc',hbalance⟩ := h
  have hmore : -1 * major < (j - minor) * major := by linarith
  have hless : (j - minor) * major < 1 * major := by linarith
  have := lt_of_mul_lt_mul_right hmore hmajor.le
  have := lt_of_mul_lt_mul_right hless hmajor.le
  omega

end Spread

end WootOs.EvenSpread
