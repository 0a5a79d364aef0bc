import Mathlib.Data.Nat.Notation
import Mathlib.Data.Int.Notation
import Mathlib.Algebra.Order.Ring.Int
import Mathlib.Tactic.Ring
import Mathlib.Tactic.Linarith

/-!
# Division of 64-bit numbers

The processor divides 32-bit numbers. For 64 bits the compiler calls these
functions, which find one bit of the quotient after the other: the remainder
takes in the next bit of the dividend, and gives up the divisor where it can.

After k turns the quotient and the remainder are those of the first k bits of
the dividend, so the remainder is below 2^k and a shift of it loses nothing,
however large the divisor.

Signed division strips both signs and gives the quotient its own again. The
remainder keeps none.
-/

namespace WootOs.SoftDivision

/-- A quotient and a remainder. -/
structure Division where
  /-- The quotient. -/
  q : BitVec 64
  /-- The remainder. -/
  r : BitVec 64

/-- One turn of the loop. -/
def turn (n d : BitVec 64) (s : Division) (i : ℕ) : Division :=
  let r := s.r <<< 1 ||| n >>> i &&& 1
  if d ≤ r then ⟨s.q ||| (1 : BitVec 64) <<< i,r - d⟩ else ⟨s.q,r⟩

/-- The first turns of the loop, from the highest bit on. -/
def turns (n d : BitVec 64) : ℕ → Division
  | 0 => ⟨0,0⟩
  | k + 1 => turn n d (turns n d k) (63 - k)

/-- __udivmoddi4, which raises an exception when the divisor is zero. -/
def udivmoddi4 (n d : BitVec 64) : Option Division := if d = 0 then none else some (turns n d 64)

/-- __divmoddi4. -/
def divmoddi4 (n d : BitVec 64) : Option Division :=
  let (n,sign) := if n.slt 0 then (-n,(-1 : BitVec 64)) else (n,1)
  let (d,sign) := if d.slt 0 then (-d,sign * -1) else (d,sign)
  (udivmoddi4 n d).map fun s => ⟨s.q * sign,s.r⟩

/-- __udivdi3. -/
def udivdi3 (n d : BitVec 64) : Option (BitVec 64) := (udivmoddi4 n d).map (·.q)

/-- __divdi3. -/
def divdi3 (n d : BitVec 64) : Option (BitVec 64) := (divmoddi4 n d).map (·.q)

/-- __umoddi3. -/
def umoddi3 (n d : BitVec 64) : Option (BitVec 64) := (udivmoddi4 n d).map (·.r)

/-- __moddi3. -/
def moddi3 (n d : BitVec 64) : Option (BitVec 64) := (divmoddi4 n d).map (·.r)

/-- The division of C, which rounds towards zero. -/
structure Truncated (n d q r : ℤ) : Prop where
  /-- Quotient and remainder make up the dividend. -/
  sum : n = q * d + r
  /-- The remainder is smaller than the divisor. -/
  small : |r| < |d|
  /-- It is zero or has the sign of the dividend. -/
  sign : r = 0 ∨ r.sign = n.sign

section Unsigned

variable {n d : BitVec 64} {s : Division} {k : ℕ}

/-- Quotient and remainder of the first bits of the dividend. -/
structure Divides (n d : BitVec 64) (k : ℕ) (s : Division) : Prop where
  /-- The quotient stands at its place. -/
  quotient : s.q.toNat = 2 ^ (64 - k) * (n.toNat / 2 ^ (64 - k) / d.toNat)
  /-- The remainder. -/
  remainder : s.r.toNat = n.toNat / 2 ^ (64 - k) % d.toNat

/-- The remainder of the first bits is no larger than they are. -/
theorem Divides.remainder_lt (h : Divides n d k s) (hk : k ≤ 64) : s.r.toNat < 2 ^ k := by
  rw [h.remainder]
  refine lt_of_le_of_lt (Nat.mod_le _ _) (Nat.div_lt_of_lt_mul ?_)
  rw [← pow_add,show 64 - k + k = 64 by omega]
  exact n.isLt

/-- A shift of it loses no bit. -/
theorem Divides.shift (h : Divides n d k s) (hk : k < 64) : 2 * s.r.toNat < 2 ^ 64 := by
  have hlt := h.remainder_lt hk.le
  have hpow : 2 ^ k ≤ 2 ^ 63 := Nat.pow_le_pow_right (by decide) (by omega)
  omega

/-- The bits that have been taken in, with the next one. -/
theorem next_bits (n : ℕ) (hk : k < 64) :
    n / 2 ^ (63 - k) = 2 * (n / 2 ^ (64 - k)) + n / 2 ^ (63 - k) % 2 := by
  have hdiv : n / 2 ^ (64 - k) = n / 2 ^ (63 - k) / 2 := by
    rw [Nat.div_div_eq_div_mul,← pow_succ,show 63 - k + 1 = 64 - k by omega]
  omega

/-- The remainder takes in the next bit. -/
theorem Divides.taken (h : Divides n d k s) (hk : k < 64) :
    (s.r <<< 1 ||| n >>> (63 - k) &&& 1).toNat =
      2 * s.r.toNat + n.toNat / 2 ^ (63 - k) % 2 := by
  have hbit : (n >>> (63 - k) &&& 1).toNat = n.toNat / 2 ^ (63 - k) % 2 := by
    rw [BitVec.toNat_and,BitVec.toNat_ushiftRight,Nat.shiftRight_eq_div_pow]
    exact Nat.and_one_is_mod _
  have hshift : (s.r <<< 1).toNat = 2 ^ 1 * s.r.toNat := by
    rw [BitVec.toNat_shiftLeft,Nat.shiftLeft_eq,Nat.mod_eq_of_lt (by have := h.shift hk; omega)]
    ring
  rw [BitVec.toNat_or,hshift,hbit,← Nat.two_pow_add_eq_or_of_lt (by omega)]

/-- A bit of the quotient is set where there was none. -/
theorem Divides.set (h : Divides n d k s) (hk : k < 64) :
    (s.q ||| (1 : BitVec 64) <<< (63 - k)).toNat =
      2 ^ (63 - k) * (2 * (n.toNat / 2 ^ (64 - k) / d.toNat) + 1) := by
  have hone : ((1 : BitVec 64) <<< (63 - k)).toNat = 2 ^ (63 - k) := by
    rw [BitVec.toNat_shiftLeft,Nat.shiftLeft_eq,show (1 : BitVec 64).toNat = 1 from rfl,Nat.one_mul]
    exact Nat.mod_eq_of_lt (Nat.pow_lt_pow_right (by decide) (by omega))
  have hpow : 2 ^ (64 - k) = 2 ^ (63 - k) * 2 := by
    rw [← pow_succ,show 63 - k + 1 = 64 - k by omega]
  rw [BitVec.toNat_or,hone,h.quotient,
    ← Nat.two_pow_add_eq_or_of_lt (Nat.pow_lt_pow_right (by decide) (by omega))]
  rw [hpow]
  ring

/-- One more bit. -/
theorem Divides.turn (h : Divides n d k s) (hd : 0 < d.toNat) (hk : k < 64) :
    Divides n d (k + 1) (turn n d s (63 - k)) := by
  have htaken := h.taken hk
  have hbits := next_bits n.toNat hk
  have hquot := Nat.div_add_mod (n.toNat / 2 ^ (64 - k)) d.toNat
  have hsmall : s.r.toNat < d.toNat := h.remainder ▸ Nat.mod_lt _ hd
  rw [← h.remainder] at hquot
  have hindex : 64 - (k + 1) = 63 - k := by omega
  have hunique := fun q r => Nat.div_mod_unique (a := n.toNat / 2 ^ (63 - k)) (d := q) (c := r) hd
  rw [SoftDivision.turn]
  split_ifs with hle
  · -- the divisor fits into the remainder, and the bit of the quotient is one
    have hle' := BitVec.le_def.mp hle
    have hsub := BitVec.toNat_sub_of_le hle
    rw [htaken] at hle' hsub
    obtain ⟨hq,hr⟩ := (hunique (2 * (n.toNat / 2 ^ (64 - k) / d.toNat) + 1)
      (2 * s.r.toNat + n.toNat / 2 ^ (63 - k) % 2 - d.toNat)).mpr ⟨by
        rw [Nat.mul_add,Nat.mul_left_comm]
        omega,by omega⟩
    refine ⟨?_,?_⟩
    · rw [hindex,hq,h.set hk]
    · rw [hindex,hr,hsub]
  · have hlt := mt BitVec.le_def.mpr hle
    rw [htaken] at hlt
    obtain ⟨hq,hr⟩ := (hunique (2 * (n.toNat / 2 ^ (64 - k) / d.toNat))
      (2 * s.r.toNat + n.toNat / 2 ^ (63 - k) % 2)).mpr ⟨by
        rw [Nat.mul_left_comm]
        omega,by omega⟩
    refine ⟨?_,?_⟩
    · rw [hindex,hq,h.quotient,← Nat.mul_assoc,← pow_succ,show 63 - k + 1 = 64 - k by omega]
    · rw [hindex,hr,htaken]

/-- After each turn there are the quotient and the remainder of the bits so far. -/
theorem turns_divides (n : BitVec 64) (hd : 0 < d.toNat) (hk : k ≤ 64) :
    Divides n d k (turns n d k) := by
  induction k with
  | zero =>
    have hzero : n.toNat / 2 ^ (64 - 0) = 0 := Nat.div_eq_of_lt n.isLt
    exact ⟨by rw [hzero,Nat.zero_div]; rfl,by rw [hzero,Nat.zero_mod]; rfl⟩
  | succ k ih => exact (ih (by omega)).turn hd (by omega)

theorem toNat_pos (hd : d ≠ 0) : 0 < d.toNat := by
  rw [Nat.pos_iff_ne_zero]
  exact fun h => hd (BitVec.eq_of_toNat_eq h)

/-- The loop ends with the quotient and the remainder. -/
theorem udivmoddi4_spec (n : BitVec 64) (hd : d ≠ 0) : ∃ s,udivmoddi4 n d = some s ∧
    s.q.toNat = n.toNat / d.toNat ∧ s.r.toNat = n.toNat % d.toNat := by
  obtain ⟨hq,hr⟩ := turns_divides (k := 64) n (toNat_pos hd) le_rfl
  refine ⟨turns n d 64,by rw [udivmoddi4,if_neg hd],?_,?_⟩
  · simpa using hq
  · simpa using hr

/-- Unsigned division is right for all numbers and all divisors but zero, and no shift of the
remainder loses a bit. -/
theorem unsigned_division (n d : BitVec 64) (hd : d ≠ 0) : ∃ s,udivmoddi4 n d = some s ∧
    n.toNat = s.q.toNat * d.toNat + s.r.toNat ∧ s.r.toNat < d.toNat ∧
    (∀ k < 64,2 * (turns n d k).r.toNat < 2 ^ 64) ∧
    udivdi3 n d = some s.q ∧ umoddi3 n d = some s.r := by
  obtain ⟨s,run,hq,hr⟩ := udivmoddi4_spec n hd
  refine ⟨s,run,?_,?_,?_,by rw [udivdi3,run]; rfl,by rw [umoddi3,run]; rfl⟩
  · rw [hq,hr,Nat.mul_comm]
    exact (Nat.div_add_mod _ _).symm
  · rw [hr]
    exact Nat.mod_lt _ (toNat_pos hd)
  · intro k hk
    exact (turns_divides n (toNat_pos hd) hk.le).shift hk

/-- The largest divisor. -/
theorem unsigned_division_largest : ∃ s,udivmoddi4 (-1) (-1) = some s ∧
    (-1 : BitVec 64).toNat = s.q.toNat * (-1 : BitVec 64).toNat + s.r.toNat ∧
    s.r.toNat < (-1 : BitVec 64).toNat ∧
    (∀ k < 64,2 * (turns (-1) (-1) k).r.toNat < 2 ^ 64) ∧
    udivdi3 (-1) (-1) = some s.q ∧ umoddi3 (-1) (-1) = some s.r :=
  unsigned_division (-1) (-1) (by decide)

end Unsigned

section Signed

variable {n d u : BitVec 64}

/-- A number without its sign. -/
theorem toNat_strip (n : BitVec 64) : (if n.slt 0 then -n else n).toNat = n.toInt.natAbs := by
  have hn := n.isLt
  have hint := BitVec.toInt_eq_toNat_cond n
  by_cases hneg : n.toInt < 0
  · rw [if_pos (BitVec.slt_iff_toInt_lt.mpr hneg),BitVec.toNat_neg]
    split_ifs at hint <;> omega
  · rw [if_neg fun h => hneg (BitVec.slt_iff_toInt_lt.mp h)]
    split_ifs at hint <;> omega

/-- Without its sign a number is at most 2^63. -/
theorem natAbs_le (n : BitVec 64) : n.toInt.natAbs ≤ 2 ^ 63 := by
  have hint := BitVec.toInt_eq_toNat_cond n
  have hn := n.isLt
  split_ifs at hint <;> omega

/-- Signed division: the quotient gets the sign, the remainder does not. -/
theorem divmoddi4_spec (n : BitVec 64) (hd : d ≠ 0) : ∃ u r,
    divdi3 n d = some (if n.slt 0 = d.slt 0 then u else -u) ∧ moddi3 n d = some r ∧
    u.toNat = n.toInt.natAbs / d.toInt.natAbs ∧ r.toNat = n.toInt.natAbs % d.toInt.natAbs := by
  have hd' : (if d.slt 0 then -d else d) ≠ 0 := by
    split_ifs
    · exact fun h => hd (by bv_omega)
    · exact hd
  have hminus : ∀ x : BitVec 64,x * 18446744073709551615#64 = -x := by
    intro x
    rw [show 18446744073709551615#64 = -1#64 from rfl,BitVec.mul_neg,BitVec.mul_one]
  obtain ⟨s,run,hq,hr⟩ := udivmoddi4_spec (if n.slt 0 then -n else n) hd'
  rw [toNat_strip,toNat_strip] at hq hr
  refine ⟨s.q,s.r,?_,?_,hq,hr⟩
  · rw [divdi3,divmoddi4]
    cases hn : n.slt 0 <;> cases hds : d.slt 0
    all_goals
      simp only [hn,hds,if_true,if_false,Bool.false_eq_true] at run
      simp [run,hminus]
  · rw [moddi3,divmoddi4]
    cases hn : n.slt 0 <;> cases hds : d.slt 0
    all_goals
      simp only [hn,hds,if_true,if_false,Bool.false_eq_true] at run
      simp [run]

/-- A number of the lower half is what it says. -/
theorem toInt_of_lt (h : u.toNat < 2 ^ 63) : u.toInt = u.toNat := by
  rw [BitVec.toInt_eq_toNat_cond,if_pos (by omega)]

/-- A number up to the half can be negated. -/
theorem toInt_neg_of_le (h : u.toNat ≤ 2 ^ 63) : (-u).toInt = -(u.toNat : ℤ) := by
  rw [BitVec.toInt_eq_toNat_cond,BitVec.toNat_neg]
  split_ifs <;> omega

/-- The quotient of the sizes is that of the numbers, unless the smallest one is divided by
minus one. -/
theorem quotient_lt (hd : d ≠ 0) (hmin : ¬(n.toInt = -2 ^ 63 ∧ d.toInt = -1))
    (hsign : n.slt 0 = d.slt 0) : n.toInt.natAbs / d.toInt.natAbs < 2 ^ 63 := by
  by_contra hge
  have hn := natAbs_le n
  have hpos : 0 < d.toInt.natAbs := by
    rw [Int.natAbs_pos]
    exact fun h => hd (BitVec.eq_of_toInt_eq h)
  have hle := (Nat.le_div_iff_mul_le hpos).mp (Nat.not_lt.mp hge)
  have hone : d.toInt.natAbs = 1 := by omega
  have hint := BitVec.toInt_eq_toNat_cond n
  have hlt := n.isLt
  have hneg : n.toInt < 0 := by
    split_ifs at hint <;> omega
  have hneg' : d.toInt < 0 := by
    rw [← BitVec.toInt_zero (w := 64),← BitVec.slt_iff_toInt_lt] at hneg ⊢
    exact hsign ▸ hneg
  exact hmin ⟨by omega,by omega⟩

/-- The quotient has the sign and the size that it should have. -/
theorem divdi3_toInt (hd : d ≠ 0) (hmin : ¬(n.toInt = -2 ^ 63 ∧ d.toInt = -1))
    (hu : u.toNat = n.toInt.natAbs / d.toInt.natAbs) :
    (if n.slt 0 = d.slt 0 then u else -u).toInt =
      if n.slt 0 = d.slt 0 then (u.toNat : ℤ) else -(u.toNat : ℤ) := by
  split_ifs with hsign
  · exact toInt_of_lt (hu ▸ quotient_lt hd hmin hsign)
  · exact toInt_neg_of_le (hu ▸ (Nat.div_le_self _ _).trans (natAbs_le n))

/-- Quotient times divisor is the dividend, but for the size of the remainder. -/
theorem quotient_mul (n d : BitVec 64) (u : ℕ) (hu : u = n.toInt.natAbs / d.toInt.natAbs) :
    (if n.slt 0 = d.slt 0 then (u : ℤ) else -(u : ℤ)) * d.toInt =
      if n.toInt < 0 then n.toInt + (n.toInt.natAbs % d.toInt.natAbs : ℕ)
      else n.toInt - (n.toInt.natAbs % d.toInt.natAbs : ℕ) := by
  have hsum := Nat.div_add_mod n.toInt.natAbs d.toInt.natAbs
  rw [← hu] at hsum
  have hslt : ∀ x : BitVec 64,x.slt 0 = decide (x.toInt < 0) := by
    intro x
    rw [Bool.eq_iff_iff,decide_eq_true_iff,BitVec.slt_iff_toInt_lt]
    rfl
  rw [hslt,hslt]
  have hsum' : (d.toInt.natAbs : ℤ) * u + (n.toInt.natAbs % d.toInt.natAbs : ℕ) =
      n.toInt.natAbs := by exact_mod_cast hsum
  by_cases hn : n.toInt < 0
  · rw [Int.ofNat_natAbs_of_nonpos hn.le] at hsum'
    by_cases hd : d.toInt < 0
    · rw [Int.ofNat_natAbs_of_nonpos hd.le] at hsum'
      simp only [hn,hd,if_true]
      linarith
    · rw [Int.natAbs_of_nonneg (not_lt.mp hd)] at hsum'
      simp only [hn,hd,if_true,decide_true,decide_false,Bool.true_eq_false,if_false]
      linarith
  · rw [Int.natAbs_of_nonneg (not_lt.mp hn)] at hsum'
    by_cases hd : d.toInt < 0
    · rw [Int.ofNat_natAbs_of_nonpos hd.le] at hsum'
      simp only [hn,hd,if_false,decide_true,decide_false,Bool.false_eq_true]
      linarith
    · rw [Int.natAbs_of_nonneg (not_lt.mp hd)] at hsum'
      simp only [hn,hd,if_true,if_false]
      linarith

/-- Signed division gives quotient and remainder of C exactly when the dividend is not negative
or the remainder is zero. -/
theorem signed_division_iff (n d : BitVec 64) (hd : d ≠ 0)
    (hmin : ¬(n.toInt = -2 ^ 63 ∧ d.toInt = -1)) :
    (∃ q r,divdi3 n d = some q ∧ moddi3 n d = some r ∧
      Truncated n.toInt d.toInt q.toInt r.toInt) ↔ 0 ≤ n.toInt ∨ d.toInt ∣ n.toInt := by
  obtain ⟨u,r,runq,runr,hu,hr⟩ := divmoddi4_spec n hd
  have hpos : 0 < d.toInt.natAbs := by
    rw [Int.natAbs_pos]
    exact fun h => hd (BitVec.eq_of_toInt_eq h)
  have hlt := Nat.mod_lt n.toInt.natAbs hpos
  have hsmall := natAbs_le d
  have hrem : r.toInt = (n.toInt.natAbs % d.toInt.natAbs : ℕ) := by
    rw [toInt_of_lt (by omega),hr]
  have hmul := quotient_mul n d u.toNat hu
  rw [← divdi3_toInt hd hmin hu,← hrem] at hmul
  have hdvd : d.toInt ∣ n.toInt ↔ r.toInt = 0 := by
    rw [hrem,← Int.natAbs_dvd_natAbs,Nat.dvd_iff_mod_eq_zero,Int.natCast_eq_zero]
  rw [hdvd]
  constructor
  · rintro ⟨q',r',runq',runr',hsum,-,-⟩
    rw [runq,Option.some_inj] at runq'
    rw [runr,Option.some_inj] at runr'
    subst runq' runr'
    by_contra hneg
    rw [not_or,not_le] at hneg
    rw [if_pos hneg.1] at hmul
    exact hneg.2 (by linarith)
  · intro hgood
    refine ⟨_,r,runq,runr,?_,?_,?_⟩
    · by_cases hn : n.toInt < 0
      · have hzero := hgood.resolve_left (not_le.mpr hn)
        rw [if_pos hn] at hmul
        linarith
      · rw [if_neg hn] at hmul
        linarith
    · rw [hrem,Int.abs_eq_natAbs d.toInt,Nat.abs_cast]
      exact_mod_cast hlt
    · by_cases hzero : r.toInt = 0
      · exact .inl hzero
      · have hn := hgood.resolve_right hzero
        have hr0 : 0 < r.toInt := by omega
        have hn0 : 0 < n.toInt := by
          rcases hn.lt_or_eq with hn | hn
          · exact hn
          · exact absurd (by rw [hrem,← hn]; simp) hzero
        exact .inr (by rw [Int.sign_eq_one_of_pos hr0,Int.sign_eq_one_of_pos hn0])

/-- Minus eight divided by two. -/
theorem signed_division_iff_even : (∃ q r,divdi3 (-8) 2 = some q ∧ moddi3 (-8) 2 = some r ∧
    Truncated (-8 : BitVec 64).toInt (2 : BitVec 64).toInt q.toInt r.toInt) ↔
      0 ≤ (-8 : BitVec 64).toInt ∨ (2 : BitVec 64).toInt ∣ (-8 : BitVec 64).toInt :=
  signed_division_iff (-8) 2 (by decide) (by decide)

/-- The remainder of minus seven by two should be minus one, and is one. -/
theorem remainder_without_sign : moddi3 (-7) 2 = some 1 ∧
    ¬∃ q r,divdi3 (-7) 2 = some q ∧ moddi3 (-7) 2 = some r ∧
      Truncated (-7) 2 q.toInt r.toInt := by
  have hr : moddi3 (-7) 2 = some 1 := by decide +kernel
  refine ⟨hr,?_⟩
  rintro ⟨q,r,-,hr',htrunc⟩
  rw [hr,Option.some_inj] at hr'
  subst hr'
  rcases htrunc.sign with h | h
  · exact absurd h (by decide)
  · exact absurd h (by decide)

end Signed

end WootOs.SoftDivision
