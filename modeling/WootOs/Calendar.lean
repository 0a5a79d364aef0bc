import Mathlib.Data.Nat.Notation
import Mathlib.Order.Monotone.Basic
import Mathlib.Tactic.IntervalCases

/-!
# The Gregorian calendar

Every fourth year has a leap day, but of the full centuries only every fourth one.
The calendar is carried on to years before it was in use. Days are counted from
the first of January of the year zero; each day has one date.
-/

namespace WootOs.Calendar

/-- A year with a leap day. -/
def Leap (y : ℕ) : Prop := y % 4 = 0 ∧ (y % 100 = 0 → y % 400 = 0)

instance (y : ℕ) : Decidable (Leap y) := inferInstanceAs (Decidable (_ ∧ _))

/-- Days of a year. -/
def daysInYear (y : ℕ) : ℕ := if Leap y then 366 else 365

/-- Days of a month. -/
def daysInMonth (y m : ℕ) : ℕ :=
  if m = 2 then if Leap y then 29 else 28
  else if m = 4 ∨ m = 6 ∨ m = 9 ∨ m = 11 then 30 else 31

/-- Days before a year. -/
def yearStart : ℕ → ℕ
  | 0 => 0
  | y + 1 => yearStart y + daysInYear y

/-- Days of a year before a month. -/
def monthStart (y : ℕ) : ℕ → ℕ
  | 0 => 0
  | 1 => 0
  | m + 2 => monthStart y (m + 1) + daysInMonth y (m + 1)

/-- A date. -/
structure Date where
  /-- The year. -/
  year : ℕ
  /-- The month, from one. -/
  month : ℕ
  /-- The day of the month, from one. -/
  day : ℕ
  deriving DecidableEq

namespace Date

variable {a b : Date}

/-- There is such a day. -/
def Valid (a : Date) : Prop :=
  1 ≤ a.month ∧ a.month ≤ 12 ∧ 1 ≤ a.day ∧ a.day ≤ daysInMonth a.year a.month

instance (a : Date) : Decidable a.Valid :=
  inferInstanceAs (Decidable (_ ∧ _ ∧ _ ∧ _))

/-- Days before a date. -/
def number (a : Date) : ℕ := yearStart a.year + monthStart a.year a.month + (a.day - 1)

end Date

section Counts

variable {y y' m m' : ℕ}

theorem yearStart_succ (y : ℕ) : yearStart (y + 1) = yearStart y + daysInYear y := (rfl)

theorem monthStart_succ (y m : ℕ) :
    monthStart y (m + 2) = monthStart y (m + 1) + daysInMonth y (m + 1) := (rfl)

/-- The days before a year, by the number of its leap years. -/
theorem yearStart_eq (y : ℕ) :
    yearStart y + (y + 99) / 100 = 365 * y + (y + 3) / 4 + (y + 399) / 400 := by
  induction y with
  | zero => decide
  | succ y ih =>
    rw [yearStart_succ,daysInYear]
    by_cases hl : Leap y
    · rw [if_pos hl]
      obtain ⟨h4,h100⟩ := hl
      by_cases hc : y % 100 = 0
      · have := h100 hc
        omega
      · omega
    · rw [if_neg hl]
      by_cases h4 : y % 4 = 0
      · have hc : y % 100 = 0 := by
          by_contra hc
          exact hl ⟨h4,fun h => absurd h hc⟩
        have : y % 400 ≠ 0 := fun h => hl ⟨h4,fun _ => h⟩
        omega
      · omega

/-- The days before a month, counted as if the year began in March. -/
theorem monthStart_eq (hm : 1 ≤ m) (hm' : m ≤ 12) : monthStart y m =
    if m ≤ 2 then 31 * (m - 1)
    else 30 * m + 3 * (m + 1) / 5 - 33 + if Leap y then 1 else 0 := by
  by_cases hl : Leap y <;> interval_cases m <;> simp [monthStart,daysInMonth,hl]

/-- The months of a year make up its days. -/
theorem monthStart_add_twelve (y : ℕ) : monthStart y 12 + daysInMonth y 12 = daysInYear y := by
  rw [monthStart_eq (by decide) (by decide),daysInMonth,daysInYear]
  split_ifs <;> simp_all

/-- Later years begin later. -/
theorem yearStart_mono : Monotone yearStart :=
  monotone_nat_of_le_succ fun y => by
    rw [yearStart_succ]
    exact Nat.le_add_right _ _

/-- Later months begin later. -/
theorem monthStart_mono (y : ℕ) : Monotone (monthStart y) :=
  monotone_nat_of_le_succ fun m => by
    cases m with
    | zero => exact le_rfl
    | succ m =>
      rw [monthStart_succ]
      exact Nat.le_add_right _ _

end Counts

namespace Date

variable {a b : Date}

/-- A date lies in its month. -/
theorem Valid.month_bounds (h : a.Valid) :
    monthStart a.year a.month + (a.day - 1) < monthStart a.year (a.month + 1) := by
  obtain ⟨hm,-,hd,hd'⟩ := h
  obtain ⟨m,hm⟩ : ∃ m,a.month = m + 1 := ⟨a.month - 1,by omega⟩
  rw [hm] at hd' ⊢
  rw [monthStart_succ]
  omega

/-- A date lies in its year. -/
theorem Valid.year_bounds (h : a.Valid) :
    yearStart a.year ≤ a.number ∧ a.number < yearStart (a.year + 1) := by
  have hb := h.month_bounds
  have hle : monthStart a.year (a.month + 1) ≤ daysInYear a.year := by
    rw [← monthStart_add_twelve a.year]
    exact monthStart_mono a.year (show a.month + 1 ≤ 13 by have := h.2.1; omega)
  rw [number,yearStart_succ]
  omega

/-- Each day has one date. -/
theorem Valid.eq_of_number (ha : a.Valid) (hb : b.Valid) (h : a.number = b.number) : a = b := by
  have hy : a.year = b.year := by
    obtain ⟨hla,hua⟩ := ha.year_bounds
    obtain ⟨hlb,hub⟩ := hb.year_bounds
    rcases Nat.lt_trichotomy a.year b.year with hlt | heq | hlt
    · have := yearStart_mono hlt
      simp only [Nat.succ_eq_add_one] at this
      omega
    · exact heq
    · have := yearStart_mono hlt
      simp only [Nat.succ_eq_add_one] at this
      omega
  have hba := ha.month_bounds
  have hbb := hb.month_bounds
  simp only [number,hy] at h hba
  have hm : a.month = b.month := by
    rcases Nat.lt_trichotomy a.month b.month with hlt | heq | hlt
    · have := monthStart_mono b.year hlt
      simp only [Nat.succ_eq_add_one] at this
      omega
    · exact heq
    · have := monthStart_mono b.year hlt
      simp only [Nat.succ_eq_add_one] at this
      omega
  obtain ⟨-,-,hda,-⟩ := ha
  obtain ⟨-,-,hdb,-⟩ := hb
  obtain ⟨ya,ma,da⟩ := a
  obtain ⟨yb,mb,db⟩ := b
  simp only at hy hm hda hdb h
  subst hy hm
  rw [show da = db by omega]

/-- The number of a date, as if the year began in March. -/
theorem number_add (y : ℕ) (hm : 1 ≤ a.month) (hm' : a.month ≤ 12) (hd : 1 ≤ a.day) {m : ℕ}
    (h : m = a.month ∧ 2 < m ∧ y = a.year ∨ m = a.month + 12 ∧ m ≤ 14 ∧ y + 1 = a.year) :
    a.number + 33 + y / 100 =
      365 * y + y / 4 + y / 400 + 30 * m + 3 * (m + 1) / 5 + a.day := by
  rw [number,monthStart_eq hm hm']
  have hy := yearStart_eq (y + 1)
  rcases h with ⟨rfl,h2,rfl⟩ | ⟨rfl,h14,he⟩
  · rw [yearStart_succ,daysInYear] at hy
    rw [if_neg (by omega)]
    split_ifs at hy ⊢ <;> omega
  · rw [he] at hy
    rw [if_pos (by omega)]
    omega

end Date

end WootOs.Calendar
