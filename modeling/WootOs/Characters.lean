import WootOs.ObjectTree
import Mathlib.Tactic.IntervalCases

/-!
# Characters

The tests of the class Character that strings are read with. They are about the
letters and digits of ASCII; every other character is none.
-/

namespace WootOs.Characters

/-- A character from a range. -/
def between (a b c : Char) : Bool := a.toNat ≤ c.toNat && c.toNat ≤ b.toNat

/-- Character::IsDigit. -/
def isDigit (c : Char) : Bool := between '0' '9' c

/-- Character::IsHexDigit. -/
def isHexDigit (c : Char) : Bool := between '0' '9' c || between 'a' 'f' c || between 'A' 'F' c

/-- Character::ToLower. -/
def toLower (c : Char) : Char := if between 'A' 'Z' c then Char.ofNat (c.toNat + 32) else c

/-- A range, in numbers. -/
theorem between_iff {a b c : Char} : between a b c = true ↔ a.toNat ≤ c.toNat ∧ c.toNat ≤ b.toNat := by
  rw [between,Bool.and_eq_true,decide_eq_true_eq,decide_eq_true_eq]

/-- A digit is its own lower case, and no letter in lower case is one. -/
theorem isDigit_toLower (c : Char) : isDigit (toLower c) = isDigit c := by
  by_cases hu : between 'A' 'Z' c = true
  · have hrange : 65 ≤ c.toNat ∧ c.toNat ≤ 90 := between_iff.mp hu
    obtain ⟨hl,hr⟩ := hrange
    rw [← Char.ofNat_toNat c]
    generalize c.toNat = n at hl hr
    interval_cases n <;> decide
  · rw [toLower,if_neg hu]

end WootOs.Characters
