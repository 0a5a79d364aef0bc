import Mathlib.Algebra.BigOperators.Intervals
import WootOs.Runs
import WootOs.UnixTimes

/-!
# The real-time clock

CMOS reaches the registers of the clock through two ports, one that selects a
register and one for its value. The highest bit of the first port holds back the
non-maskable interrupt, and every access keeps it. The timer's rate and its
enable bit share registers with other bits.

Time::GetDateTime reads six registers one after the other while the clock goes
on, and reads them again until they are the same twice. The model lets any time
pass before each access. As long as the reads of one attempt take less than a
minute, what is returned is a time that the clock has shown, and not one put
together from several.
-/

namespace WootOs.RealTimeClock

open Runs UnixTimes

section Registers

/-- The clock as the processor sees it. -/
structure Cmos where
  /-- Port 0x70: the register that is selected, and the bit for the interrupt. -/
  index : BitVec 8
  /-- The registers beside those of the time. -/
  file : ℕ → BitVec 8
  /-- Seconds since some moment. -/
  time : ℕ

/-- Two decimal digits in a byte. -/
def bcd (n : ℤ) : BitVec 8 := BitVec.ofInt 8 (n / 10 * 16 + n % 10)

namespace Cmos

variable (clock : ℕ → DateTime) (c : Cmos)

/-- What a register shows. -/
def register (reg : ℕ) : BitVec 8 :=
  if reg = 0 then bcd (clock c.time).second
  else if reg = 2 then bcd (clock c.time).minute
  else if reg = 4 then bcd (clock c.time).hour
  else if reg = 7 then bcd (clock c.time).day
  else if reg = 8 then bcd (clock c.time).month
  else if reg = 9 then bcd ((clock c.time).year - 2000)
  else c.file reg

/-- The clock goes on. -/
def pass (n : ℕ) : Cmos := { c with time := c.time + n }

/-- The write to port 0x70 in CMOS::Read and CMOS::Write. -/
def select (reg : BitVec 8) : Cmos := { c with index := c.index &&& 0x80 ||| reg &&& 0x7F }

/-- The register behind port 0x71. -/
def selected : ℕ := (c.index &&& 0x7F).toNat

/-- CMOS::Read. -/
def read (reg : BitVec 8) : BitVec 8 × Cmos :=
  let c := c.select reg
  (c.register clock c.selected,c)

/-- CMOS::Write. Nothing writes to the registers of the time. -/
def write (reg val : BitVec 8) : Cmos :=
  let c := c.select reg
  { c with file := Function.update c.file c.selected val }

/-- CMOS::DisableNMI. -/
def disableNMI : Bool × Cmos := (c.index.getLsbD 7,{ c with index := c.index &&& 0x7F })

/-- CMOS::RestoreNMI. -/
def restoreNMI (state : Bool) : Cmos :=
  { c with index := c.index &&& 0x7F ||| if state then 0x80 else 0x00 }

/-- CMOS::EnableTimer. -/
def enableTimer : Cmos :=
  let nmi := c.disableNMI
  let b := nmi.2.read clock 0x0B
  (b.2.write 0x0B (b.1 ||| 0x40)).restoreNMI nmi.1

/-- CMOS::DisableTimer. -/
def disableTimer : Cmos :=
  let nmi := c.disableNMI
  let b := nmi.2.read clock 0x0B
  (b.2.write 0x0B (b.1 &&& ~~~0x40)).restoreNMI nmi.1

/-- CMOS::GetTimerFrequency, if there is a rate. -/
def getTimerFrequency : Option ℕ × Cmos :=
  let a := c.read clock 0x0A
  let rate := (a.1 &&& 0x0F).toNat
  (if rate = 0 then none else some (32768 >>> (rate - 1)),a.2)

/-- The divider that SetTimerDivider sets. -/
def clamp (divider : ℤ) : ℤ := if divider < 3 then 3 else if 15 < divider then 15 else divider

/-- CMOS::SetTimerDivider. -/
def setTimerDivider (divider : ℤ) : Cmos :=
  let nmi := c.disableNMI
  let a := nmi.2.read clock 0x0A
  (a.2.write 0x0A (a.1 &&& 0xF0 ||| BitVec.ofInt 8 (clamp divider))).restoreNMI nmi.1

end Cmos

end Registers

section Readings

variable (clock : ℕ → DateTime) (waits : ℕ → ℕ)

/-- The registers of the time, as they have been read. -/
structure Reading where
  /-- Register 0. -/
  second : BitVec 8
  /-- Register 2. -/
  minute : BitVec 8
  /-- Register 4. -/
  hour : BitVec 8
  /-- Register 7. -/
  day : BitVec 8
  /-- Register 8. -/
  month : BitVec 8
  /-- Register 9. -/
  year : BitVec 8
  deriving DecidableEq

/-- bcdToDec. -/
def bcdToDec (b : BitVec 8) : BitVec 8 := (b &&& 0x0F) + (b >>> 4) * 10

/-- The time of a reading. -/
def Reading.dateTime (r : Reading) : DateTime where
  year := 2000 + (bcdToDec r.year).toNat
  month := (bcdToDec r.month).toNat
  day := (bcdToDec r.day).toNat
  hour := (bcdToDec r.hour).toNat
  minute := (bcdToDec r.minute).toNat
  second := (bcdToDec r.second).toNat
  millisecond := 0

/-- Six accesses from the k-th on, with the time that passes before each. -/
def reading (k : ℕ) (c : Cmos) : Reading × Cmos :=
  let second := (c.pass (waits k)).read clock 0
  let minute := (second.2.pass (waits (k + 1))).read clock 2
  let hour := (minute.2.pass (waits (k + 2))).read clock 4
  let day := (hour.2.pass (waits (k + 3))).read clock 7
  let month := (day.2.pass (waits (k + 4))).read clock 8
  let year := (month.2.pass (waits (k + 5))).read clock 9
  (⟨second.1,minute.1,hour.1,day.1,month.1,year.1⟩,year.2)

/-- Time::GetDateTime. The loop reads until two readings are the same. -/
def getDateTime : ℕ → ℕ → Cmos → Option (DateTime × Cmos)
  | 0,_,_ => none
  | fuel+1,k,c =>
    let r₁ := reading clock waits k c
    let r₂ := reading clock waits (k + 6) r₁.2
    if r₁.1 = r₂.1 then some (r₁.1.dateTime,r₂.2)
    else getDateTime fuel (k + 12) r₂.2

/-- Time::GetTime. -/
def getTime (fuel : ℕ) (c : Cmos) : Option (Option ℤ × Cmos) :=
  (getDateTime clock waits fuel 0 c).map fun r => (dateTimeToUnix r.1,r.2)

end Readings

section Accesses

variable {clock : ℕ → DateTime} {c : Cmos} {reg : BitVec 8}

/-- The register that has been selected. -/
theorem selected_select (h : reg.toNat < 128) : (c.select reg).selected = reg.toNat := by
  have hand : (c.index &&& 0x80 ||| reg &&& 0x7F) &&& 0x7F = reg &&& 0x7F := by
    apply BitVec.eq_of_getLsbD_eq
    intro j hj
    interval_cases j <;> simp
  rw [Cmos.selected,Cmos.select,hand,BitVec.toNat_and]
  exact Nat.and_two_pow_sub_one_of_lt_two_pow (n := 7) h

/-- A selection keeps the bit for the interrupt. -/
theorem select_nmi (c : Cmos) (reg : BitVec 8) :
    (c.select reg).index.getLsbD 7 = c.index.getLsbD 7 := by
  simp [Cmos.select]

theorem read_eq (h : reg.toNat < 128) :
    c.read clock reg = (c.register clock reg.toNat,c.select reg) := by
  rw [Cmos.read,selected_select h]
  rfl

theorem write_eq (h : reg.toNat < 128) (val : BitVec 8) :
    c.write reg val =
      { c.select reg with file := Function.update c.file reg.toNat val } := by
  rw [Cmos.write,selected_select h]
  rfl

/-- What the six accesses of a reading give. -/
theorem reading_eq (clock : ℕ → DateTime) (waits : ℕ → ℕ) (k : ℕ) (c : Cmos) :
    ∃ c',reading clock waits k c =
        (⟨bcd (clock (c.time + waits k)).second,
          bcd (clock (c.time + waits k + waits (k + 1))).minute,
          bcd (clock (c.time + waits k + waits (k + 1) + waits (k + 2))).hour,
          bcd (clock (c.time + waits k + waits (k + 1) + waits (k + 2) + waits (k + 3))).day,
          bcd (clock (c.time + waits k + waits (k + 1) + waits (k + 2) + waits (k + 3) +
            waits (k + 4))).month,
          bcd ((clock (c.time + waits k + waits (k + 1) + waits (k + 2) + waits (k + 3) +
            waits (k + 4) + waits (k + 5))).year - 2000)⟩,c') ∧
      c'.time = c.time + waits k + waits (k + 1) + waits (k + 2) + waits (k + 3) +
        waits (k + 4) + waits (k + 5) ∧
      c'.file = c.file ∧ c'.index.getLsbD 7 = c.index.getLsbD 7 := by
  have hsecond (c : Cmos) : c.read clock 0 = (bcd (clock c.time).second,c.select 0) :=
    read_eq (by decide)
  have hminute (c : Cmos) : c.read clock 2 = (bcd (clock c.time).minute,c.select 2) :=
    read_eq (by decide)
  have hhour (c : Cmos) : c.read clock 4 = (bcd (clock c.time).hour,c.select 4) :=
    read_eq (by decide)
  have hday (c : Cmos) : c.read clock 7 = (bcd (clock c.time).day,c.select 7) :=
    read_eq (by decide)
  have hmonth (c : Cmos) : c.read clock 8 = (bcd (clock c.time).month,c.select 8) :=
    read_eq (by decide)
  have hyear (c : Cmos) :
      c.read clock 9 = (bcd ((clock c.time).year - 2000),c.select 9) :=
    read_eq (by decide)
  refine ⟨(reading clock waits k c).2,?_⟩
  simp only [reading,hsecond,hminute,hhour,hday,hmonth,hyear,select_nmi,Cmos.pass]
  exact ⟨rfl,rfl,rfl,trivial⟩

end Accesses

section Moments

variable {clock : ℕ → DateTime} {waits : ℕ → ℕ} {first : ℤ} {last : ℕ}

/-- The clock is set right and goes on second by second up to some moment, in
years whose last two digits it can show. -/
structure Displays (clock : ℕ → DateTime) (first : ℤ) (last : ℕ) : Prop where
  /-- It shows times that there are. -/
  valid : ∀ t ≤ last,(clock t).Valid
  /-- The year. -/
  year : ∀ t ≤ last,2000 ≤ (clock t).year ∧ (clock t).year < 2100
  /-- It shows no milliseconds. -/
  millisecond : ∀ t ≤ last,(clock t).millisecond = 0
  /-- It goes on. -/
  seconds : ∀ t ≤ last,(clock t).seconds = first + t

/-- The accesses of one attempt take less than a minute. -/
def Quick (waits : ℕ → ℕ) : Prop :=
  ∀ i,∑ j ∈ Finset.range 11,waits (12 * i + 1 + j) < 60

/-- A month has at most 31 days. -/
theorem daysInMonth_le (y m : ℕ) : Calendar.daysInMonth y m ≤ 31 := by
  rw [Calendar.daysInMonth]
  split_ifs <;> omega

/-- Two digits are read back. -/
theorem bcdToDec_bcd {n : ℤ} (h : 0 ≤ n) (h' : n < 100) : ((bcdToDec (bcd n)).toNat : ℤ) = n := by
  interval_cases n <;> rfl

/-- A clock that shows the same second twice within a minute has not gone on. -/
theorem Displays.same (h : Displays clock first last) {t u : ℕ} (htu : t ≤ u) (hu : u ≤ last)
    (hshort : u < t + 60) (hs : bcd (clock t).second = bcd (clock u).second) : t = u := by
  have hst := h.seconds t (htu.trans hu)
  have hsu := h.seconds u hu
  obtain ⟨ht₀,ht₁⟩ := (h.valid t (htu.trans hu)).second
  obtain ⟨hu₀,hu₁⟩ := (h.valid u hu).second
  have heq : (clock t).second = (clock u).second := by
    rw [← bcdToDec_bcd ht₀ (by omega),hs,bcdToDec_bcd hu₀ (by omega)]
  rw [DateTime.seconds] at hst hsu
  omega

/-- A reading at one moment is the time of that moment. -/
theorem Displays.dateTime (h : Displays clock first last) {t : ℕ} (ht : t ≤ last) :
    Reading.dateTime ⟨bcd (clock t).second,bcd (clock t).minute,bcd (clock t).hour,
      bcd (clock t).day,bcd (clock t).month,bcd ((clock t).year - 2000)⟩ = clock t := by
  obtain ⟨hy,hy'⟩ := h.year t ht
  obtain ⟨hdate,⟨hh,hh'⟩,⟨hm,hm'⟩,⟨hs,hs'⟩,-⟩ := h.valid t ht
  have hmilli := h.millisecond t ht
  obtain ⟨hday,hday',hmonth,hmonth'⟩ : 0 ≤ (clock t).day ∧ (clock t).day < 100 ∧
      0 ≤ (clock t).month ∧ (clock t).month < 100 := by
    obtain ⟨hyear,hmonth,hday⟩ := (h.valid t ht).casts (by omega)
    obtain ⟨h₁,h₁₂,hd,hd'⟩ := hdate
    have hmax := daysInMonth_le (clock t).date.year (clock t).date.month
    omega
  rw [Reading.dateTime]
  simp only [bcdToDec_bcd hs (by omega),bcdToDec_bcd hm (by omega),bcdToDec_bcd hh (by omega),
    bcdToDec_bcd hday hday',bcdToDec_bcd hmonth hmonth',
    bcdToDec_bcd (show 0 ≤ (clock t).year - 2000 by omega) (by omega)]
  generalize clock t = d at *
  obtain ⟨year,month,day,hour,minute,second,millisecond⟩ := d
  simp_all

/-- An attempt whose two readings are the same gives the time at its first
access. -/
theorem Displays.attempt (h : Displays clock first last) (hq : Quick waits) {i : ℕ} {c : Cmos}
    (hlast : (reading clock waits (12 * i + 6) (reading clock waits (12 * i) c).2).2.time ≤ last)
    (hsame : (reading clock waits (12 * i) c).1 =
      (reading clock waits (12 * i + 6) (reading clock waits (12 * i) c).2).1) :
    (reading clock waits (12 * i) c).1.dateTime = clock (c.time + waits (12 * i)) := by
  obtain ⟨c₁,hr₁,ht₁,-⟩ := reading_eq clock waits (12 * i) c
  obtain ⟨c₂,hr₂,ht₂,-⟩ := reading_eq clock waits (12 * i + 6) c₁
  have hshort := hq i
  simp only [Finset.sum_range_succ,Finset.sum_range_zero,Nat.zero_add,Nat.add_zero] at hshort
  simp only [hr₁,hr₂] at hlast hsame
  have hsecond := congrArg Reading.second hsame
  simp only at hsecond
  rw [ht₁] at hsecond ht₂
  have hstill := h.same (by omega) (by omega) (by
    simp only [Nat.add_assoc,Nat.reduceAdd] at hshort ⊢
    omega) hsecond
  have h₁ : waits (12 * i + 1) = 0 := by omega
  have h₂ : waits (12 * i + 2) = 0 := by omega
  have h₃ : waits (12 * i + 3) = 0 := by omega
  have h₄ : waits (12 * i + 4) = 0 := by omega
  have h₅ : waits (12 * i + 5) = 0 := by omega
  rw [hr₁]
  simp only [h₁,h₂,h₃,h₄,h₅,Nat.add_zero]
  exact h.dateTime (by omega)

/-- What GetDateTime returns is a time that the clock has shown meanwhile. -/
theorem Displays.getDateTime (h : Displays clock first last) (hq : Quick waits) {fuel i : ℕ}
    {c c' : Cmos} {dt : DateTime} (hr : getDateTime clock waits fuel (12 * i) c = some (dt,c'))
    (hlast : c'.time ≤ last) :
    c'.index.getLsbD 7 = c.index.getLsbD 7 ∧ c'.file = c.file ∧
      ∃ t,c.time ≤ t ∧ t ≤ c'.time ∧ dt = clock t := by
  induction fuel generalizing i c with
  | zero => cases hr
  | succ fuel ih =>
    obtain ⟨c₁,hr₁,ht₁,hf₁,hi₁⟩ := reading_eq clock waits (12 * i) c
    obtain ⟨c₂,hr₂,ht₂,hf₂,hi₂⟩ := reading_eq clock waits (12 * i + 6) c₁
    have hc₁ : (reading clock waits (12 * i) c).2 = c₁ := by rw [hr₁]
    have hc₂ : (reading clock waits (12 * i + 6) c₁).2 = c₂ := by rw [hr₂]
    rw [RealTimeClock.getDateTime] at hr
    simp only [hc₁,hc₂] at hr
    split_ifs at hr with hsame
    · obtain ⟨rfl,rfl⟩ := Prod.mk.inj (Option.some.inj hr)
      refine ⟨hi₂.trans hi₁,hf₂.trans hf₁,c.time + waits (12 * i),by omega,by omega,?_⟩
      exact h.attempt hq (by rwa [hc₁,hc₂]) (by rwa [hc₁])
    · obtain ⟨hi,hf,t,ht,ht',hdt⟩ := ih (i := i + 1) hr
      exact ⟨hi.trans (hi₂.trans hi₁),hf.trans (hf₂.trans hf₁),t,by omega,ht',hdt⟩

/-- GetDateTime comes to an end as soon as the clock stands still during one
attempt. -/
theorem getDateTime_ends (clock : ℕ → DateTime) (c : Cmos) {fuel i k : ℕ} (hk : k < fuel)
    (hstill : ∀ j,0 < j → j < 12 → waits (12 * (i + k) + j) = 0) :
    getDateTime clock waits fuel (12 * i) c ≠ none := by
  induction fuel generalizing c i k with
  | zero => omega
  | succ fuel ih =>
    rw [getDateTime]
    split_ifs with hsame
    · exact Option.some_ne_none _
    · cases k with
      | zero =>
        exfalso
        refine hsame ?_
        obtain ⟨c₁,hr₁,ht₁,-⟩ := reading_eq clock waits (12 * i) c
        obtain ⟨c₂,hr₂,-⟩ := reading_eq clock waits (12 * i + 6) c₁
        have hz (j : ℕ) (h₀ : 0 < j) (h₁ : j < 12) : waits (12 * i + j) = 0 := hstill j h₀ h₁
        simp only [hr₁,hr₂,ht₁,hz 1 (by decide) (by decide),hz 2 (by decide) (by decide),
          hz 3 (by decide) (by decide),hz 4 (by decide) (by decide),hz 5 (by decide) (by decide),
          hz 6 (by decide) (by decide),Nat.add_assoc (12 * i),Nat.reduceAdd,
          hz 7 (by decide) (by decide),hz 8 (by decide) (by decide),hz 9 (by decide) (by decide),
          hz 10 (by decide) (by decide),hz 11 (by decide) (by decide),Nat.add_zero]
      | succ k =>
        refine ih _ (i := i + 1) (k := k) (by omega) fun j h₀ h₁ => ?_
        rw [show 12 * (i + 1 + k) + j = 12 * (i + (k + 1)) + j by omega]
        exact hstill j h₀ h₁

/-- A clock that was set to the beginning of 2026. -/
def newYear (t : ℕ) : DateTime := ⟨2026,1,1,t / 60 / 60,t / 60 % 60,t % 60,0⟩

/-- It is right on its first day. -/
theorem newYear_displays : Displays newYear 1767225600 86399 where
  valid t ht := by
    have hdate : (newYear t).date.Valid := by
      change Calendar.Date.Valid ⟨2026,1,1⟩
      decide
    refine ⟨hdate,?_,?_,?_,?_⟩ <;> simp only [newYear] <;> omega
  year t ht := by
    simp only [newYear]
    omega
  millisecond t ht := rfl
  seconds t ht := by
    have hnumber : (newYear t).date.number = 739982 := by
      change Calendar.Date.number ⟨2026,1,1⟩ = _
      have hyear := Calendar.yearStart_eq 2026
      rw [Calendar.Date.number,Calendar.monthStart]
      simp only [Nat.sub_self,Nat.add_zero]
      omega
    rw [DateTime.seconds,hnumber,epoch_eq]
    simp only [newYear]
    omega

/-- Half a second passes before every access. -/
def everyOther (k : ℕ) : ℕ := k % 2

theorem everyOther_quick : Quick everyOther := by
  intro i
  simp only [Finset.sum_range_succ,Finset.sum_range_zero,everyOther]
  omega

end Moments

section Settings

variable (clock : ℕ → DateTime)

/-- What the calls of CMOS set. -/
structure Settings where
  /-- The interrupt is held back. -/
  nmi : Bool
  /-- The timer is on. -/
  timer : Bool
  /-- The rate of the timer. -/
  rate : ℕ

/-- The settings in the registers. -/
def Cmos.settings (c : Cmos) : Settings :=
  ⟨c.index.getLsbD 7,(c.file 0x0B).getLsbD 6,(c.file 0x0A &&& 0x0F).toNat⟩

/-- The bits of the registers that are no settings. -/
def Cmos.rest (c : Cmos) (reg : ℕ) : BitVec 8 :=
  if reg = 0x0A then c.file reg &&& 0xF0
  else if reg = 0x0B then c.file reg &&& ~~~0x40
  else c.file reg

/-- A call of CMOS, or time that passes. -/
inductive Call
  /-- CMOS::Read. -/
  | read (reg : BitVec 8)
  /-- CMOS::DisableNMI. -/
  | disableNMI
  /-- CMOS::RestoreNMI. -/
  | restoreNMI (state : Bool)
  /-- CMOS::EnableTimer. -/
  | enableTimer
  /-- CMOS::DisableTimer. -/
  | disableTimer
  /-- CMOS::SetTimerDivider. -/
  | setTimerDivider (divider : ℤ)
  /-- CMOS::GetTimerFrequency. -/
  | getTimerFrequency
  /-- The clock goes on. -/
  | pass (n : ℕ)

/-- What a call does. -/
def Cmos.apply (c : Cmos) : Call → Cmos
  | .read reg => (c.read clock reg).2
  | .disableNMI => c.disableNMI.2
  | .restoreNMI state => c.restoreNMI state
  | .enableTimer => c.enableTimer clock
  | .disableTimer => c.disableTimer clock
  | .setTimerDivider divider => c.setTimerDivider clock divider
  | .getTimerFrequency => (c.getTimerFrequency clock).2
  | .pass n => c.pass n

/-- What a call is for. -/
def Settings.apply (s : Settings) : Call → Settings
  | .disableNMI => { s with nmi := false }
  | .restoreNMI state => { s with nmi := state }
  | .enableTimer => { s with timer := true }
  | .disableTimer => { s with timer := false }
  | .setTimerDivider divider => { s with rate := (Cmos.clamp divider).toNat }
  | _ => s

variable {clock} {c : Cmos}

/-- A register beside those of the time shows what is in it. -/
theorem register_file {reg : ℕ} (h : 9 < reg) : c.register clock reg = c.file reg := by
  rw [Cmos.register]
  iterate 6 rw [if_neg (by omega)]

theorem restoreNMI_nmi (state : Bool) : (c.restoreNMI state).index.getLsbD 7 = state := by
  rw [Cmos.restoreNMI]
  cases state <;> simp

theorem restoreNMI_file (state : Bool) : (c.restoreNMI state).file = c.file := rfl

theorem disableNMI_file : c.disableNMI.2.file = c.file := rfl

/-- A register of no time is read. -/
theorem read_file {reg : BitVec 8} (h : 9 < reg.toNat) (h' : reg.toNat < 128) :
    (c.read clock reg).1 = c.file reg.toNat := by
  rw [read_eq h']
  exact register_file h

theorem read_snd_file (reg : BitVec 8) : (c.read clock reg).2.file = c.file := rfl

theorem write_file {reg : BitVec 8} (h : reg.toNat < 128) (val : BitVec 8) :
    (c.write reg val).file = Function.update c.file reg.toNat val := by
  rw [write_eq h]

/-- A register keeps the other bits when the divider is set. -/
theorem divider_bits (a : BitVec 8) {n : ℤ} (h : 3 ≤ n) (h' : n ≤ 15) :
    ((a &&& 0xF0 ||| BitVec.ofInt 8 n) &&& 0x0F).toNat = n.toNat ∧
      (a &&& 0xF0 ||| BitVec.ofInt 8 n) &&& 0xF0 = a &&& 0xF0 := by
  have hdigit : BitVec.ofInt 8 n &&& 0x0F = BitVec.ofInt 8 n := by interval_cases n <;> rfl
  have htoNat : (BitVec.ofInt 8 n).toNat = n.toNat := by
    rw [BitVec.toNat_ofInt]
    omega
  generalize BitVec.ofInt 8 n = x at hdigit htoNat
  rw [← htoNat,← hdigit]
  constructor
  · congr 1
    apply BitVec.eq_of_getLsbD_eq
    intro j hj
    interval_cases j <;> simp
  · apply BitVec.eq_of_getLsbD_eq
    intro j hj
    interval_cases j <;> simp

theorem enableTimer_file (clock : ℕ → DateTime) (c : Cmos) :
    (c.enableTimer clock).file = Function.update c.file 0x0B (c.file 0x0B ||| 0x40) := by
  rw [Cmos.enableTimer,restoreNMI_file,write_file (by decide),read_snd_file,
    read_file (by decide) (by decide),disableNMI_file]
  rfl

theorem disableTimer_file (clock : ℕ → DateTime) (c : Cmos) :
    (c.disableTimer clock).file = Function.update c.file 0x0B (c.file 0x0B &&& ~~~0x40) := by
  rw [Cmos.disableTimer,restoreNMI_file,write_file (by decide),read_snd_file,
    read_file (by decide) (by decide),disableNMI_file]
  rfl

theorem setTimerDivider_file (clock : ℕ → DateTime) (c : Cmos) (divider : ℤ) :
    (c.setTimerDivider clock divider).file = Function.update c.file 0x0A
      (c.file 0x0A &&& 0xF0 ||| BitVec.ofInt 8 (Cmos.clamp divider)) := by
  rw [Cmos.setTimerDivider,restoreNMI_file,write_file (by decide),read_snd_file,
    read_file (by decide) (by decide),disableNMI_file]
  rfl

/-- Settings and the rest in registers that a call has not touched. -/
theorem same_file {c' : Cmos} (h : c'.file = c.file) :
    c'.settings = { c.settings with nmi := c'.index.getLsbD 7 } ∧ c'.rest = c.rest := by
  refine ⟨?_,funext fun reg => ?_⟩
  · rw [Cmos.settings,Cmos.settings,h]
  · rw [Cmos.rest,Cmos.rest,h]

/-- Settings and the rest when the register of the timer's bit has changed. -/
theorem timer_file {c' : Cmos} {val : BitVec 8} (h : c'.file = Function.update c.file 0x0B val)
    (hrest : val &&& ~~~0x40 = c.file 0x0B &&& ~~~0x40)
    (hnmi : c'.index.getLsbD 7 = c.index.getLsbD 7) :
    c'.settings = { c.settings with timer := val.getLsbD 6 } ∧ c'.rest = c.rest := by
  refine ⟨?_,funext fun reg => ?_⟩
  · rw [Cmos.settings,Cmos.settings,h,hnmi,Function.update_self,
      Function.update_of_ne (by decide)]
  · rw [Cmos.rest,Cmos.rest,h,Function.update_apply]
    by_cases hreg : reg = 0x0B
    · subst hreg
      rw [if_neg (by decide),if_pos rfl,if_pos rfl,if_neg (by decide),if_pos rfl,hrest]
    · simp only [if_neg hreg]

/-- Settings and the rest when the register of the rate has changed. -/
theorem rate_file {c' : Cmos} {val : BitVec 8} (h : c'.file = Function.update c.file 0x0A val)
    (hrest : val &&& 0xF0 = c.file 0x0A &&& 0xF0)
    (hnmi : c'.index.getLsbD 7 = c.index.getLsbD 7) :
    c'.settings = { c.settings with rate := (val &&& 0x0F).toNat } ∧ c'.rest = c.rest := by
  refine ⟨?_,funext fun reg => ?_⟩
  · rw [Cmos.settings,Cmos.settings,h,hnmi,Function.update_self,
      Function.update_of_ne (by decide)]
  · rw [Cmos.rest,Cmos.rest,h,Function.update_apply]
    by_cases hreg : reg = 0x0A
    · subst hreg
      rw [if_pos rfl,if_pos rfl,if_pos rfl,hrest]
    · simp only [if_neg hreg]

theorem clamp_spec (divider : ℤ) : 3 ≤ Cmos.clamp divider ∧ Cmos.clamp divider ≤ 15 := by
  rw [Cmos.clamp]
  split_ifs <;> omega

/-- Each call changes the settings it is for, and nothing else in the registers. -/
theorem apply_settings (clock : ℕ → DateTime) (c : Cmos) (call : Call) :
    (c.apply clock call).settings = c.settings.apply call ∧
      (c.apply clock call).rest = c.rest := by
  have hkeep (c' : Cmos) (hf : c'.file = c.file)
      (hi : c'.index.getLsbD 7 = c.index.getLsbD 7) :
      c'.settings = c.settings ∧ c'.rest = c.rest := by
    obtain ⟨hs,hr⟩ := same_file hf
    rw [hi] at hs
    exact ⟨hs,hr⟩
  cases call with
  | read reg => exact hkeep _ rfl (select_nmi c reg)
  | getTimerFrequency => exact hkeep _ rfl (select_nmi c 0x0A)
  | pass n => exact hkeep _ rfl rfl
  | disableNMI =>
    obtain ⟨hs,hr⟩ := same_file (disableNMI_file (c := c))
    refine ⟨hs.trans ?_,hr⟩
    have hoff : c.disableNMI.2.index.getLsbD 7 = false := by simp [Cmos.disableNMI]
    rw [hoff,Settings.apply]
  | restoreNMI state =>
    obtain ⟨hs,hr⟩ := same_file (restoreNMI_file (c := c) state)
    rw [restoreNMI_nmi] at hs
    exact ⟨hs,hr⟩
  | enableTimer =>
    obtain ⟨hs,hr⟩ := timer_file (enableTimer_file clock c) (by
      apply BitVec.eq_of_getLsbD_eq
      intro j hj
      interval_cases j <;> simp) (restoreNMI_nmi _)
    refine ⟨hs.trans ?_,hr⟩
    rw [Settings.apply]
    simp
  | disableTimer =>
    obtain ⟨hs,hr⟩ := timer_file (disableTimer_file clock c) (by
      apply BitVec.eq_of_getLsbD_eq
      intro j hj
      interval_cases j <;> simp) (restoreNMI_nmi _)
    refine ⟨hs.trans ?_,hr⟩
    rw [Settings.apply]
    simp
  | setTimerDivider divider =>
    obtain ⟨h₃,h₁₅⟩ := clamp_spec divider
    obtain ⟨hlow,hhigh⟩ := divider_bits (c.file 0x0A) h₃ h₁₅
    obtain ⟨hs,hr⟩ :=
      rate_file (setTimerDivider_file clock c divider) hhigh (restoreNMI_nmi _)
    refine ⟨hs.trans ?_,hr⟩
    rw [Settings.apply,hlow]

end Settings

end WootOs.RealTimeClock
