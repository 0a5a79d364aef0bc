import WootOs.Calendar
import Mathlib.Data.Int.Notation
import Mathlib.Tactic.IntervalCases

/-!
# Unix times and dates

Both conversions compute in 32-bit signed integers. A computation whose value does
not fit has no result here. From 1970 until the counter of seconds is full nothing
overflows, and the two conversions are inverse to each other but for the
milliseconds, which a Unix time does not have.
-/

namespace WootOs.UnixTimes

open Calendar

/-- A value of type int, if it is one. -/
def int (x : ℤ) : Option ℤ := if -2 ^ 31 ≤ x ∧ x < 2 ^ 31 then some x else none

/-- Time::DateTime. -/
structure DateTime where
  /-- The year. -/
  year : ℤ
  /-- The month, from one. -/
  month : ℤ
  /-- The day of the month, from one. -/
  day : ℤ
  /-- The hour. -/
  hour : ℤ
  /-- The minute. -/
  minute : ℤ
  /-- The second. -/
  second : ℤ
  /-- The millisecond. -/
  millisecond : ℤ
  deriving DecidableEq

/-- Year, month and day in Time::UnixToDateTime, from the number of days. -/
def dateOfDays (t : ℤ) : Option (ℤ × ℤ × ℤ) := do
  let t₄ ← int (4 * t)
  let t₄ ← int (t₄ + 102032)
  let a ← int (t₄.tdiv 146097 + 15)
  let b ← int (t + 2442113)
  let b ← int (b + a)
  let b ← int (b - a.tdiv 4)
  let b₂₀ ← int (20 * b)
  let b₂₀ ← int (b₂₀ - 2442)
  let c := b₂₀.tdiv 7305
  let c₃₆₅ ← int (365 * c)
  let d ← int (b - c₃₆₅)
  let d ← int (d - c.tdiv 4)
  let d₁₀₀₀ ← int (d * 1000)
  let e := d₁₀₀₀.tdiv 30601
  let e₃₀ ← int (e * 30)
  let f ← int (d - e₃₀)
  let e₆₀₁ ← int (e * 601)
  let f ← int (f - e₆₀₁.tdiv 1000)
  if e ≤ 13 then return (← int (c - 4716),← int (e - 1),f)
  else return (← int (c - 4715),← int (e - 13),f)

/-- Time::UnixToDateTime. -/
def unixToDateTime (t : ℤ) : Option DateTime := do
  let t := if t < 0 then 0 else t
  let minutes := t.tdiv 60
  let hours := minutes.tdiv 60
  let (year,month,day) ← dateOfDays (hours.tdiv 24)
  return ⟨year,month,day,hours.tmod 24,minutes.tmod 60,t.tmod 60,0⟩

/-- The days in Time::DateTimeToUnix, from a year that begins in March. -/
def daysOfMarch (y m d : ℤ) : Option ℤ := do
  let t ← int (365 * y)
  let t ← int (t + y.tdiv 4)
  let t ← int (t - y.tdiv 100)
  let t ← int (t + y.tdiv 400)
  let m₃₀ ← int (30 * m)
  let m₁ ← int (m + 1)
  let m₃ ← int (3 * m₁)
  let s ← int (m₃₀ + m₃.tdiv 5)
  let s ← int (s + d)
  let t ← int (t + s)
  int (t - 719561)

/-- The days in Time::DateTimeToUnix, from year, month and day. -/
def daysOfDate (y m d : ℤ) : Option ℤ := do
  if m ≤ 2 then daysOfMarch (← int (y - 1)) (← int (m + 12)) d else daysOfMarch y m d

/-- Time::DateTimeToUnix. -/
def dateTimeToUnix (date : DateTime) : Option ℤ := do
  let t ← daysOfDate date.year date.month date.day
  let t ← int (t * 86400)
  let h ← int (3600 * date.hour)
  let m ← int (60 * date.minute)
  let s ← int (h + m)
  let s ← int (s + date.second)
  int (t + s)

/-! ### What the numbers mean -/

/-- Days before the first of January 1970. -/
def epoch : ℕ := Date.number ⟨1970,1,1⟩

namespace DateTime

/-- The date. -/
def date (d : DateTime) : Date := ⟨d.year.toNat,d.month.toNat,d.day.toNat⟩

/-- There is such a day, such a time of day and such a millisecond. -/
structure Valid (d : DateTime) : Prop where
  /-- The day. -/
  date : d.date.Valid
  /-- The hour. -/
  hour : 0 ≤ d.hour ∧ d.hour < 24
  /-- The minute. -/
  minute : 0 ≤ d.minute ∧ d.minute < 60
  /-- The second. -/
  second : 0 ≤ d.second ∧ d.second < 60
  /-- The millisecond. -/
  millisecond : 0 ≤ d.millisecond ∧ d.millisecond < 1000

/-- Full seconds since the beginning of 1970. -/
def seconds (d : DateTime) : ℤ :=
  ((d.date.number : ℤ) - epoch) * 86400 + d.hour * 3600 + d.minute * 60 + d.second

end DateTime

section Days

/-- A value that fits. -/
theorem int_eq {x : ℤ} (h : -2147483648 ≤ x) (h' : x < 2147483648) : int x = some x := by
  rw [int,if_pos ⟨h,h'⟩]

/-- The days before 1970. -/
theorem epoch_eq : epoch = 719528 := by
  have := yearStart_eq 1970
  rw [epoch,Date.number,monthStart]
  simp only [Nat.sub_self,Nat.add_zero]
  omega

theorem int_bind {α : Type} {x : ℤ} {k : ℤ → Option α} (h : -2147483648 ≤ x)
    (h' : x < 2147483648) : (int x >>= k) = k x := by
  rw [int_eq h h']
  rfl

/-- What Time::UnixToDateTime computes of a number of days, with c, d and e for its
intermediate values. -/
theorem dateOfDays_eq {t : ℤ} (h0 : 0 ≤ t) (h1 : t ≤ 24855) : ∃ c d e : ℤ,
    c = (20 * (t + 2442125) - 2442) / 7305 ∧ d = t + 2442125 - 365 * c - c / 4 ∧
      e = d * 1000 / 30601 ∧ dateOfDays t =
        if e ≤ 13 then some (c - 4716,e - 1,d - e * 30 - e * 601 / 1000)
        else some (c - 4715,e - 13,d - e * 30 - e * 601 / 1000) := by
  refine ⟨_,_,_,rfl,rfl,rfl,?_⟩
  have hb : t + 2442113 + ((4 * t + 102032) / 146097 + 15) -
      ((4 * t + 102032) / 146097 + 15) / 4 = t + 2442125 := by omega
  simp (disch := omega) only [dateOfDays,int_bind,Int.tdiv_eq_ediv_of_nonneg,hb]
  rfl

/-- The centuries around 2000. -/
theorem century {y : ℕ} (h : 1969 ≤ y) (h' : y ≤ 2037) : y / 400 + 15 = y / 100 := by
  rcases Nat.lt_or_ge y 2000 with hlt | hge
  · rw [show y / 100 = 19 by omega,show y / 400 = 4 by omega]
  · rw [show y / 100 = 20 by omega,show y / 400 = 5 by omega]

/-- The days since 1970 become the date with that number. -/
theorem dateOfDays_spec {n : ℕ} (hn : n ≤ 24855) : ∃ D : Date,
    dateOfDays n = some ((D.year : ℤ),(D.month : ℤ),(D.day : ℤ)) ∧ D.Valid ∧
      D.number = epoch + n := by
  obtain ⟨c,d,e,hc,hd,he,hrun⟩ := dateOfDays_eq (t := n) (by omega) (by omega)
  obtain ⟨y,hy⟩ : ∃ y : ℕ,c = y + 4716 := ⟨(c - 4716).toNat,by omega⟩
  obtain ⟨f,hf⟩ : ∃ f : ℕ,d - e * 30 - e * 601 / 1000 = f :=
    ⟨(d - e * 30 - e * 601 / 1000).toNat,by omega⟩
  obtain ⟨k,hk⟩ : ∃ k : ℕ,e = k := ⟨e.toNat,by omega⟩
  have hy' : 1969 ≤ y ∧ y ≤ 2037 := by omega
  have hleap : Leap (y + 1) ↔ c % 4 = 3 := by
    rw [Leap]
    omega
  have hk' : 4 ≤ k ∧ k ≤ 15 := by omega
  obtain ⟨hk4,hk15⟩ := hk'
  have hm : dateOfDays n = some ((y : ℤ),(k : ℤ) - 1,(f : ℤ)) ∧ k ≤ 13 ∨
      dateOfDays n = some ((y : ℤ) + 1,(k : ℤ) - 13,(f : ℤ)) ∧ 13 < k := by
    rw [hrun,hf]
    split_ifs with h
    · exact .inl ⟨by rw [hy,hk]; simp,by omega⟩
    · exact .inr ⟨by rw [hy,hk]; simp; omega,by omega⟩
  have hday : 1 ≤ f ∧ f ≤ if k = 5 ∨ k = 7 ∨ k = 10 ∨ k = 12 then 30
      else if k = 15 then if Leap (y + 1) then 29 else 28 else 31 := by
    simp only [hleap]
    interval_cases k <;> simp only [Nat.reduceEqDiff,or_self,or_true,true_or,if_true,if_false] <;>
      (try split_ifs) <;> omega
  have hnum : (365 * y + y / 4 + y / 400 + 30 * (k - 1) + 3 * k / 5 + f : ℕ) =
      epoch + n + 33 + y / 100 := by
    have hfifth : e * 601 / 1000 = ((3 * k / 5 : ℕ) : ℤ) := by
      rw [hk]
      interval_cases k <;> rfl
    have hcent : y / 400 + 15 = y / 100 := century hy'.1 hy'.2
    rw [epoch_eq]
    omega
  have hdate (D : Date) (hm : D.month + 1 = k ∧ 2 < D.month ∧ y = D.year ∨
      D.month + 13 = k ∧ D.month ≤ 2 ∧ y + 1 = D.year) (hm' : 1 ≤ D.month ∧ D.month ≤ 12)
      (hf : D.day = f) : D.Valid ∧ D.number = epoch + n := by
    have hadd := D.number_add y hm'.1 hm'.2 (hf ▸ hday.1) (m := k - 1) (by omega)
    refine ⟨⟨hm'.1,hm'.2,hf ▸ hday.1,?_⟩,?_⟩
    · rw [hf]
      refine hday.2.trans ?_
      rw [daysInMonth]
      rcases hm with ⟨hk,hm,he⟩ | ⟨hk,hm,he⟩
      · rw [← he]
        split_ifs <;> omega
      · rw [← he]
        split_ifs <;> omega
    · have : k - 1 + 1 = k := by omega
      rw [this,hf] at hadd
      omega
  rcases hm with ⟨hm,hle⟩ | ⟨hm,hlt⟩
  · refine ⟨⟨y,k - 1,f⟩,?_,hdate _ (.inl ⟨?_,?_,rfl⟩) ⟨?_,?_⟩ rfl⟩
    · rw [hm]
      simp only [Option.some.injEq,Prod.mk.injEq,true_and,and_true]
      omega
    all_goals simp only
    all_goals omega
  · refine ⟨⟨y + 1,k - 13,f⟩,?_,hdate _ (.inr ⟨?_,?_,rfl⟩) ⟨?_,?_⟩ rfl⟩
    · rw [hm]
      simp only [Option.some.injEq,Prod.mk.injEq,and_true]
      omega
    all_goals simp only
    all_goals omega

/-- Years since 1970 that the counter of seconds reaches. -/
theorem year_le {D : Date} (hv : D.Valid) (hn : D.number ≤ epoch + 24855) : D.year ≤ 2038 := by
  by_contra hlt
  have hle : yearStart 2039 ≤ yearStart D.year := yearStart_mono (by omega)
  have heq := yearStart_eq 2039
  have := hv.year_bounds.1
  rw [epoch_eq] at hn
  omega

/-- The days of a date whose year begins in March. -/
theorem daysOfMarch_eq {y m d : ℤ} (hy : 1969 ≤ y) (hy' : y ≤ 2038) (hm : 3 ≤ m) (hm' : m ≤ 14)
    (hd : 1 ≤ d) (hd' : d ≤ 31) : daysOfMarch y m d =
      some (365 * y + y / 4 - y / 100 + y / 400 + (30 * m + 3 * (m + 1) / 5 + d) - 719561) := by
  simp (disch := omega) only [daysOfMarch,int_bind,Int.tdiv_eq_ediv_of_nonneg]
  rw [int_eq (by omega) (by omega)]

/-- A date becomes its number, counted from 1970. -/
theorem daysOfDate_spec {D : Date} (hv : D.Valid) (hy : 1970 ≤ D.year)
    (hn : D.number ≤ epoch + 24855) :
    daysOfDate D.year D.month D.day = some ((D.number : ℤ) - epoch) := by
  have hy' := year_le hv hn
  obtain ⟨hm,hm',hd,hd'⟩ := hv
  have hd31 : D.day ≤ 31 := by
    refine hd'.trans ?_
    rw [daysInMonth]
    split_ifs <;> decide
  rw [epoch_eq,daysOfDate]
  by_cases h2 : D.month ≤ 2
  · obtain ⟨y,he⟩ : ∃ y,y + 1 = D.year := ⟨D.year - 1,by omega⟩
    have hadd := D.number_add y hm hm' hd (m := D.month + 12) (.inr ⟨rfl,by omega,he⟩)
    rw [if_pos (by omega),int_bind (by omega) (by omega),int_bind (by omega) (by omega),
      daysOfMarch_eq (by omega) (by omega) (by omega) (by omega) (by omega) (by omega),
      Option.some.injEq,← he]
    push_cast
    omega
  · have hadd := D.number_add D.year hm hm' hd (m := D.month) (.inl ⟨rfl,by omega,rfl⟩)
    rw [if_neg (by omega),
      daysOfMarch_eq (by omega) (by omega) (by omega) (by omega) (by omega) (by omega),
      Option.some.injEq]
    omega

end Days

section Conversions

variable {d : DateTime}

/-- A valid date and time as numbers without a sign. -/
theorem DateTime.Valid.casts (hv : d.Valid) (hy : 1970 ≤ d.year) :
    d.year = d.date.year ∧ d.month = d.date.month ∧ d.day = d.date.day := by
  obtain ⟨hm,-,hd,-⟩ := hv.date
  simp only [DateTime.date] at hm hd ⊢
  omega

/-- Dates since 1970 come after its first day. -/
theorem DateTime.Valid.epoch_le (hv : d.Valid) (hy : 1970 ≤ d.year) : epoch ≤ d.date.number := by
  have hle : yearStart 1970 ≤ yearStart d.date.year := by
    apply yearStart_mono
    simp only [DateTime.date]
    omega
  have := hv.date.year_bounds.1
  have heq := yearStart_eq 1970
  rw [epoch_eq]
  omega

/-- A date and time become the seconds since 1970. -/
theorem dateTimeToUnix_spec (hv : d.Valid) (hy : 1970 ≤ d.year) (hs : d.seconds < 2 ^ 31) :
    dateTimeToUnix d = some d.seconds := by
  have hle := hv.epoch_le hy
  obtain ⟨hyear,hmonth,hday⟩ := hv.casts hy
  obtain ⟨hdate,⟨hh,hh'⟩,⟨hm,hm'⟩,⟨hs₀,hs'⟩,-⟩ := hv
  rw [DateTime.seconds] at hs ⊢
  rw [dateTimeToUnix,hyear,hmonth,hday,daysOfDate_spec hdate (by omega) (by omega),
    ← Option.pure_def,pure_bind,int_bind (by omega) (by omega),
    int_bind (by omega) (by omega),int_bind (by omega) (by omega),
    int_bind (by omega) (by omega),int_bind (by omega) (by omega),int_eq (by omega) (by omega),
    Option.pure_def,Option.some.injEq]
  omega

/-- The seconds since 1970 become their date and time. -/
theorem unixToDateTime_spec {t : ℤ} (h0 : 0 ≤ t) (h1 : t < 2 ^ 31) :
    ∃ d,unixToDateTime t = some d ∧ d.Valid ∧ 1970 ≤ d.year ∧ d.millisecond = 0 ∧
      d.seconds = t := by
  obtain ⟨n,hn⟩ : ∃ n : ℕ,t / 60 / 60 / 24 = n := ⟨(t / 60 / 60 / 24).toNat,by omega⟩
  obtain ⟨D,hrun,hD,hnum⟩ := dateOfDays_spec (n := n) (by omega)
  have hyear : 1970 ≤ D.year := by
    by_contra hlt
    have hle : yearStart (D.year + 1) ≤ yearStart 1970 := yearStart_mono (by omega)
    have := hD.year_bounds.2
    have heq := yearStart_eq 1970
    rw [epoch_eq] at hnum
    omega
  refine ⟨⟨D.year,D.month,D.day,t / 60 / 60 % 24,t / 60 % 60,t % 60,0⟩,?_,?_,?_,rfl,?_⟩
  · have hmin : t.tdiv 60 = t / 60 := Int.tdiv_eq_ediv_of_nonneg h0
    have hhour : (t / 60).tdiv 60 = t / 60 / 60 := Int.tdiv_eq_ediv_of_nonneg (by omega)
    have hdays : (t / 60 / 60).tdiv 24 = n := by
      rw [Int.tdiv_eq_ediv_of_nonneg (by omega),hn]
    simp only [unixToDateTime,if_neg (Int.not_lt.mpr h0),hmin,hhour,hdays,hrun,
      Option.bind_eq_bind,Option.bind_some,Option.pure_def]
    rw [Int.tmod_eq_emod_of_nonneg (by omega),Int.tmod_eq_emod_of_nonneg (by omega),
      Int.tmod_eq_emod_of_nonneg h0]
  · refine ⟨?_,by simp only; omega,by simp only; omega,by simp only; omega,⟨le_rfl,by simp⟩⟩
    simpa only [DateTime.date,Int.toNat_natCast] using hD
  · simp only
    omega
  · simp only [DateTime.seconds,DateTime.date,Int.toNat_natCast]
    change (((Date.number D : ℕ) : ℤ) - epoch) * 86400 + _ + _ + _ = _
    rw [hnum]
    push_cast
    omega

/-- Valid dates and times with the same second are the same, but for the millisecond. -/
theorem DateTime.Valid.eq_of_seconds {a b : DateTime} (ha : a.Valid) (hb : b.Valid)
    (hya : 1970 ≤ a.year) (hyb : 1970 ≤ b.year) (h : a.seconds = b.seconds) :
    a = { b with millisecond := a.millisecond } := by
  obtain ⟨ha₁,ha₂,ha₃⟩ := ha.casts hya
  obtain ⟨hb₁,hb₂,hb₃⟩ := hb.casts hyb
  obtain ⟨hda,⟨hha,hha'⟩,⟨hma,hma'⟩,⟨hsa,hsa'⟩,-⟩ := ha
  obtain ⟨hdb,⟨hhb,hhb'⟩,⟨hmb,hmb'⟩,⟨hsb,hsb'⟩,-⟩ := hb
  simp only [DateTime.seconds] at h
  have hdate : a.date = b.date := hda.eq_of_number hdb (by omega)
  rw [hdate] at h ha₁ ha₂ ha₃
  have hhour : a.hour = b.hour := by omega
  have hminute : a.minute = b.minute := by omega
  have hsecond : a.second = b.second := by omega
  rw [← hb₁] at ha₁
  rw [← hb₂] at ha₂
  rw [← hb₃] at ha₃
  obtain ⟨y,m,d,hr,mi,s,ms⟩ := a
  simp only at ha₁ ha₂ ha₃ hhour hminute hsecond
  subst ha₁ ha₂ ha₃ hhour hminute hsecond
  rfl

/-- Until the counter of seconds is full, each second has its date and time, which is turned
back into it; and each valid date and time is turned into its second and back, without the
millisecond. -/
theorem conversions_inverse :
    (∀ t : ℤ,0 ≤ t → t < 2 ^ 31 → ∃ d,unixToDateTime t = some d ∧ d.Valid ∧ d.seconds = t ∧
      dateTimeToUnix d = some t) ∧
    ∀ d : DateTime,d.Valid → 1970 ≤ d.year → d.seconds < 2 ^ 31 →
      ∃ t,dateTimeToUnix d = some t ∧ unixToDateTime t = some { d with millisecond := 0 } := by
  refine ⟨fun t h0 h1 => ?_,fun d hv hy hs => ?_⟩
  · obtain ⟨d,hrun,hv,hy,-,hsec⟩ := unixToDateTime_spec h0 h1
    refine ⟨d,hrun,hv,hsec,?_⟩
    rw [dateTimeToUnix_spec hv hy (hsec ▸ h1),hsec]
  · refine ⟨d.seconds,dateTimeToUnix_spec hv hy hs,?_⟩
    have h0 : 0 ≤ d.seconds := by
      have := hv.epoch_le hy
      have := hv.hour
      have := hv.minute
      have := hv.second
      rw [DateTime.seconds]
      omega
    obtain ⟨e,hrun,he,hye,hms,hsec⟩ := unixToDateTime_spec h0 hs
    rw [hrun,he.eq_of_seconds hv hye hy hsec,hms]

/-- The last second, on the nineteenth of January 2038, and the day before a century. -/
theorem conversions_inverse_last :
    (∃ d,unixToDateTime (2 ^ 31 - 1) = some d ∧ d.Valid ∧ d.seconds = 2 ^ 31 - 1 ∧
      dateTimeToUnix d = some (2 ^ 31 - 1)) ∧
    ∃ t,dateTimeToUnix ⟨2000,2,29,23,59,59,999⟩ = some t ∧
      unixToDateTime t = some ⟨2000,2,29,23,59,59,0⟩ :=
  ⟨conversions_inverse.1 _ (by decide) (by decide),
    conversions_inverse.2 ⟨2000,2,29,23,59,59,999⟩
      ⟨by decide,by decide,by decide,by decide,by decide⟩ (by decide) (by
        have hadd := Date.number_add (a := ⟨2000,2,29⟩) (m := 14) 1999 (by decide) (by decide)
          (by decide) (.inr ⟨rfl,by decide,rfl⟩)
        have hdate : DateTime.date ⟨2000,2,29,23,59,59,999⟩ = ⟨2000,2,29⟩ := rfl
        rw [DateTime.seconds,hdate,epoch_eq]
        simp only at hadd ⊢
        omega)⟩

/-- Half a second after midnight is not turned back into itself. -/
theorem millisecond_lost :
    let d : DateTime := ⟨1970,1,1,0,0,0,500⟩
    d.Valid ∧ dateTimeToUnix d = some 0 ∧ unixToDateTime 0 ≠ some d := by
  refine ⟨⟨by decide,by decide,by decide,by decide,by decide⟩,by decide,
    by decide⟩

end Conversions

end WootOs.UnixTimes
