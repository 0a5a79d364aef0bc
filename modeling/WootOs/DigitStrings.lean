import Mathlib.Data.List.Induction
import Mathlib.Data.Nat.Notation
import Mathlib.Tactic.Ring

/-!
# Strings of digits

A string of digits is a number in a base, the first digit being the highest. Which
characters are digits, and for what, is left open.
-/

namespace WootOs.DigitStrings

variable {α : Type*} (base : ℕ) (digit : α → ℕ)

/-- The number that digits make up. -/
def value (ds : List α) : ℕ := ds.foldl (fun v c => v * base + digit c) 0

@[simp] theorem value_nil : value base digit [] = 0 := rfl

/-- One more digit behind. -/
theorem value_concat (ds : List α) (c : α) :
    value base digit (ds ++ [c]) = value base digit ds * base + digit c := by
  rw [value,List.foldl_append]
  rfl

/-- Digits behind digits. -/
theorem value_append (ds es : List α) : value base digit (ds ++ es) =
    value base digit ds * base ^ es.length + value base digit es := by
  induction es using List.reverseRecOn with
  | nil => simp
  | append_singleton es c ih =>
    rw [← List.append_assoc,value_concat,value_concat,ih,List.length_append,List.length_singleton,
      Nat.pow_succ]
    ring

/-- One more digit in front. -/
theorem value_cons (c : α) (ds : List α) : value base digit (c :: ds) =
    digit c * base ^ ds.length + value base digit ds := by
  have h := value_append base digit [c] ds
  have hc : value base digit [c] = digit c := by
    rw [value,List.foldl_cons,Nat.zero_mul,Nat.zero_add,List.foldl_nil]
  rw [hc] at h
  exact h

/-- A number is below the power of its length. -/
theorem value_lt {ds : List α} (h : ∀ c ∈ ds,digit c < base) :
    value base digit ds < base ^ ds.length := by
  induction ds with
  | nil => simp
  | cons c ds ih =>
    have hc := h c List.mem_cons_self
    have hds := ih fun d hd => h d (List.mem_cons_of_mem _ hd)
    rw [value_cons,List.length_cons,Nat.pow_succ]
    calc digit c * base ^ ds.length + value base digit ds
        < digit c * base ^ ds.length + base ^ ds.length := Nat.add_lt_add_left hds _
      _ = (digit c + 1) * base ^ ds.length := by ring
      _ ≤ base * base ^ ds.length := Nat.mul_le_mul_right _ hc
      _ = base ^ ds.length * base := Nat.mul_comm _ _

/-- The first digits make up no larger number. -/
theorem value_take_le (hbase : 0 < base) (ds : List α) (n : ℕ) :
    value base digit (ds.take n) ≤ value base digit ds := by
  conv_rhs => rw [← List.take_append_drop n ds,value_append]
  exact (Nat.le_mul_of_pos_right _ (Nat.pow_pos hbase)).trans (Nat.le_add_right _ _)

section Compare

variable {base} {f g : α → ℕ} {ds : List α}

/-- Smaller digits make up no larger number. -/
theorem value_le_value (h : ∀ c ∈ ds,f c ≤ g c) : value base f ds ≤ value base g ds := by
  induction ds with
  | nil => exact le_rfl
  | cons c ds ih =>
    have hds := ih fun d hd => h d (List.mem_cons_of_mem _ hd)
    have hc := Nat.mul_le_mul_right (base ^ ds.length) (h c List.mem_cons_self)
    rw [value_cons,value_cons]
    omega

/-- If the number is the same, then so are the digits. -/
theorem eq_of_value_eq (hbase : 0 < base) (h : ∀ c ∈ ds,f c ≤ g c)
    (he : value base f ds = value base g ds) : ∀ c ∈ ds,f c = g c := by
  induction ds with
  | nil => exact fun c hc => absurd hc List.not_mem_nil
  | cons c ds ih =>
    have hle : value base f ds ≤ value base g ds :=
      value_le_value fun d hd => h d (List.mem_cons_of_mem c hd)
    have hmul := Nat.mul_le_mul_right (base ^ ds.length) (h c List.mem_cons_self)
    rw [value_cons,value_cons] at he
    have htail := ih (fun d hd => h d (List.mem_cons_of_mem _ hd)) (by omega)
    have hhead := Nat.eq_of_mul_eq_mul_right (Nat.pow_pos hbase)
      (show f c * base ^ ds.length = g c * base ^ ds.length by omega)
    intro d hd
    rcases List.mem_cons.mp hd with rfl | hd
    · exact hhead
    · exact htail d hd

end Compare

end WootOs.DigitStrings
