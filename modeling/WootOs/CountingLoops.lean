import Mathlib.Data.Nat.ModEq
import Mathlib.Data.Int.GCD
import Mathlib.Tactic.Ring

/-!
# Loops over a counter that goes round

A loop goes on while its counter is below a bound and adds a step to it after each
turn. The counter goes round at some modulus. A turn can leave the loop with a result,
and it may itself not return.

From a multiple of the greatest common divisor of the step and the modulus the counter
takes all of these multiples. So the loop ends, whatever its turns do, exactly when the
last of them is past the bound.
-/

namespace WootOs.CountingLoops

variable {S R : Type*}

/-- The loop, with a bound on its turns. It has no result when they are used up or when a turn
has none. -/
def countLoop (modulus : ℕ) (turn : ℕ → S → Option (R ⊕ S)) (bound step : ℕ) :
    ℕ → ℕ → S → Option (R ⊕ S)
  | 0,_,_ => none
  | n + 1,c,s =>
    if c<bound then
      match turn c s with
      | none => none
      | some (.inl r) => some (.inl r)
      | some (.inr s) => countLoop modulus turn bound step n ((c + step) % modulus) s
    else some (.inr s)

/-- The greatest value that the counter can take from zero is past the bound. -/
def Ends (modulus bound step : ℕ) : Prop := bound + step.gcd modulus ≤ modulus

instance (modulus bound step : ℕ) : Decidable (Ends modulus bound step) :=
  inferInstanceAs (Decidable (_ ≤ _))

section Counters

variable {modulus bound step c : ℕ}

/-- The counter gets to the last multiple of the common divisor. -/
theorem exists_last (hc : step.gcd modulus ∣ c) (lt : c < modulus) :
    ∃ k < modulus,(c + k * step) % modulus + step.gcd modulus = modulus := by
  obtain ⟨q,hq⟩ := Nat.gcd_dvd_right step modulus
  obtain ⟨a,ha⟩ := hc
  rcases Nat.lt_or_ge (step.gcd modulus) modulus with small | large
  · obtain ⟨m,-,hm⟩ := Nat.exists_mul_mod_eq_gcd small
    have haq : a<q := by
      by_contra h
      have := Nat.mul_le_mul_left (step.gcd modulus) (Nat.le_of_not_lt h)
      omega
    obtain ⟨t,rfl⟩ : ∃ t,q = a + t + 1 := ⟨q - a - 1,by omega⟩
    have back : c + m * t % modulus * step ≡ step.gcd modulus * (a + t) [MOD modulus] := by
      have one : step * m ≡ step.gcd modulus [MOD modulus] := by
        rw [Nat.ModEq,hm,Nat.mod_eq_of_lt small]
      calc c + m * t % modulus * step
          ≡ c + m * t * step [MOD modulus] :=
            Nat.ModEq.add_left c ((Nat.mod_modEq _ _).mul_right step)
        _ = step.gcd modulus * a + step * m * t := by
            rw [← ha]
            ring
        _ ≡ step.gcd modulus * a + step.gcd modulus * t [MOD modulus] :=
            Nat.ModEq.add_left _ (one.mul_right t)
        _ = step.gcd modulus * (a + t) := by ring
    have total : modulus = step.gcd modulus * (a + t) + step.gcd modulus := by
      rw [← Nat.mul_succ]
      exact hq
    refine ⟨m * t % modulus,Nat.mod_lt _ (by omega),?_⟩
    have positive : 0<step.gcd modulus := Nat.gcd_pos_of_pos_right step (by omega)
    rw [back,Nat.mod_eq_of_lt (by omega)]
    exact total.symm
  · have whole : step.gcd modulus = modulus :=
      le_antisymm (Nat.le_of_dvd (by omega) (Nat.gcd_dvd_right _ _)) large
    have zero : c = 0 := Nat.eq_zero_of_dvd_of_lt ⟨a,by rw [← whole,← ha]⟩ lt
    exact ⟨0,by omega,by simp [zero,whole]⟩

/-- So it gets past a bound that the last multiple is past. -/
theorem Ends.exists_past (h : Ends modulus bound step) (hc : step.gcd modulus ∣ c)
    (lt : c < modulus) : ∃ k < modulus,bound ≤ (c + k * step) % modulus := by
  obtain ⟨k,hk,last⟩ := exists_last hc lt
  refine ⟨k,hk,?_⟩
  rw [Ends] at h
  omega

/-- It does not get past one that the last multiple is not past. -/
theorem lt_bound (h : ¬Ends modulus bound step) (hc : step.gcd modulus ∣ c) (lt : c < modulus) :
    c<bound := by
  obtain ⟨q,hq⟩ := Nat.gcd_dvd_right step modulus
  obtain ⟨a,ha⟩ := hc
  have haq : a<q := by
    by_contra hn
    have := Nat.mul_le_mul_left (step.gcd modulus) (Nat.le_of_not_lt hn)
    omega
  have := Nat.mul_le_mul_left (step.gcd modulus) (Nat.succ_le_of_lt haq)
  rw [Nat.mul_succ,← ha,← hq] at this
  rw [Ends] at h
  omega

/-- The next value is a multiple again. -/
theorem dvd_next (hc : step.gcd modulus ∣ c) : step.gcd modulus ∣ (c + step) % modulus :=
  (Nat.dvd_mod_iff (Nat.gcd_dvd_right _ _)).mpr (Nat.dvd_add hc (Nat.gcd_dvd_left _ _))

end Counters

section Turns

variable {modulus bound step : ℕ} {turn : ℕ → S → Option (R ⊕ S)}

theorem countLoop_zero (c : ℕ) (s : S) : countLoop modulus turn bound step 0 c s = none := rfl

theorem countLoop_succ (n c : ℕ) (s : S) : countLoop modulus turn bound step (n + 1) c s =
    if c<bound then
      match turn c s with
      | none => none
      | some (.inl r) => some (.inl r)
      | some (.inr s) => countLoop modulus turn bound step n ((c + step) % modulus) s
    else some (.inr s) := rfl

/-- A loop whose turns return gets to its end when its counter gets past the bound. -/
theorem countLoop_isSome (returns : ∀ c s,c<bound → (turn c s).isSome) (n : ℕ) : ∀ (k c : ℕ) (s : S),
    k<n → c < modulus → bound ≤ (c + k * step) % modulus →
    (countLoop modulus turn bound step n c s).isSome := by
  induction n with
  | zero =>
    intro k c s hk
    omega
  | succ n ih =>
    intro k c s hk lt past
    rw [countLoop_succ]
    split_ifs with below
    · cases k with
      | zero =>
        rw [Nat.zero_mul,Nat.add_zero,Nat.mod_eq_of_lt lt] at past
        omega
      | succ k =>
        have next : bound ≤ ((c + step) % modulus + k * step) % modulus := by
          rwa [Nat.mod_add_mod,Nat.add_assoc,Nat.add_comm step,← Nat.succ_mul]
        cases h : turn c s with
        | none => simpa [h] using returns c s below
        | some x =>
          cases x with
          | inl r => rfl
          | inr s => exact ih k _ s (by omega) (Nat.mod_lt _ (by omega)) next
    · rfl

/-- A loop whose turns return and whose last counter is past the bound returns within as many
turns as there are counters. -/
theorem Ends.returns (h : Ends modulus bound step)
    (returns : ∀ c s,c<bound → (turn c s).isSome) {c : ℕ} (hc : step.gcd modulus ∣ c)
    (lt : c < modulus) (s : S) :
    (countLoop modulus turn bound step modulus c s).isSome := by
  obtain ⟨k,hk,past⟩ := h.exists_past hc lt
  exact countLoop_isSome returns modulus k c s hk lt past

/-- A loop that no turn leaves from some states does not return from them when its last counter
is not past the bound. -/
theorem countLoop_eq_none {P : S → Prop}
    (stays : ∀ c s,P s → ∃ s',turn c s = some (.inr s') ∧ P s') (h : ¬Ends modulus bound step)
    (hm : 0 < modulus) (n : ℕ) : ∀ (c : ℕ) (s : S),P s → step.gcd modulus ∣ c → c < modulus →
    countLoop modulus turn bound step n c s = none := by
  induction n with
  | zero => exact fun _ _ _ _ _ => rfl
  | succ n ih =>
    intro c s hs hc lt
    obtain ⟨s',turned,hs'⟩ := stays c s hs
    rw [countLoop_succ,if_pos (lt_bound h hc lt),turned]
    exact ih _ s' hs' (dvd_next hc) (Nat.mod_lt _ hm)

/-- A loop that no turn leaves from some states does not return or ends in one of them. -/
theorem countLoop_stays {P : S → Prop}
    (stays : ∀ c s,P s → ∃ s',turn c s = some (.inr s') ∧ P s') (n : ℕ) : ∀ (c : ℕ) (s : S),P s →
    countLoop modulus turn bound step n c s = none ∨
      ∃ s',countLoop modulus turn bound step n c s = some (.inr s') ∧ P s' := by
  induction n with
  | zero => exact fun _ _ _ => .inl rfl
  | succ n ih =>
    intro c s hs
    obtain ⟨s',turned,hs'⟩ := stays c s hs
    rw [countLoop_succ,turned]
    split_ifs
    · exact ih _ s' hs'
    · exact .inr ⟨s,rfl,hs⟩

/-- A loop that counts one by one does not return when one of its turns does not and none leaves
it before. -/
theorem countLoop_none_at {P : S → Prop} {i : ℕ} (hi : i<bound) (him : i < modulus)
    (stuck : ∀ s,P s → turn i s = none)
    (stays : ∀ c s,P s → turn c s = none ∨ ∃ s',turn c s = some (.inr s') ∧ P s') (n : ℕ) :
    ∀ (c : ℕ) (s : S),P s → c ≤ i → countLoop modulus turn bound 1 n c s = none := by
  induction n with
  | zero => exact fun _ _ _ _ => rfl
  | succ n ih =>
    intro c s hs hc
    rw [countLoop_succ,if_pos (by omega)]
    rcases Nat.lt_or_eq_of_le hc with lt | rfl
    · rcases stays c s hs with none | ⟨s',turned,hs'⟩
      · rw [none]
      · rw [turned]
        refine ih _ s' hs' ?_
        rw [Nat.mod_eq_of_lt (by omega)]
        exact lt
    · rw [stuck s hs]

/-- What holds whenever a turn leaves the loop holds of its result. -/
theorem countLoop_left {P : ℕ → S → Prop} {Q : R → Prop}
    (keeps : ∀ c s s',P c s → c<bound → turn c s = some (.inr s') → P ((c + step) % modulus) s')
    (leaves : ∀ c s r,P c s → c<bound → turn c s = some (.inl r) → Q r) (n : ℕ) :
    ∀ (c : ℕ) (s : S) (r : R),P c s → countLoop modulus turn bound step n c s = some (.inl r) →
      Q r := by
  induction n with
  | zero =>
    intro c s r _ h
    simp [countLoop_zero] at h
  | succ n ih =>
    intro c s r hs h
    rw [countLoop_succ] at h
    split_ifs at h with below
    · cases turned : turn c s with
      | none => simp [turned] at h
      | some x =>
        cases x with
        | inl r' =>
          obtain rfl : r' = r := by simpa [turned] using h
          exact leaves c s r' hs below turned
        | inr s' =>
          rw [turned] at h
          exact ih _ s' r (keeps c s s' hs below turned) h
    · simp at h

/-- What every turn keeps holds at the end. -/
theorem countLoop_right {P : S → Prop}
    (keeps : ∀ c s s',P s → turn c s = some (.inr s') → P s') (n : ℕ) :
    ∀ (c : ℕ) (s s' : S),P s → countLoop modulus turn bound step n c s = some (.inr s') → P s' := by
  induction n with
  | zero =>
    intro c s s' _ h
    simp [countLoop_zero] at h
  | succ n ih =>
    intro c s s' hs h
    rw [countLoop_succ] at h
    split_ifs at h with below
    · cases turned : turn c s with
      | none => simp [turned] at h
      | some x =>
        rw [turned] at h
        cases x with
        | inl r => simp at h
        | inr t => exact ih _ t s' (keeps c s t hs turned) h
    · obtain rfl : s = s' := by simpa using h
      exact hs

end Turns

end WootOs.CountingLoops
