import Mathlib.Logic.Relation
import Mathlib.Order.Basic
import Mathlib.Tactic.Cases

/-!
# Loops that step along a partial function

A loop moves from state to state as long as a partial function gives the next
one. It halts from a state if the states after it are accessible. Where no step
goes back and the steps are bounded, the only way not to halt is to reach a
state that is its own successor.
-/

namespace WootOs.Halting

variable {α : Type*} {next : α → Option α} {a b : α}

/-- The loop halts from a state. -/
def Halts (next : α → Option α) (a : α) : Prop := Acc (fun y x => next x = some y) a

/-- The loop gets from one state to another. -/
def Reaches (next : α → Option α) : α → α → Prop :=
  Relation.ReflTransGen fun x y => next x = some y

/-- Where no state follows, the loop has halted. -/
theorem halts_of_none (h : next a = none) : Halts next a :=
  ⟨a,fun _ hb => by rw [h] at hb; cases hb⟩

/-- A loop halts if it halts after a step. -/
theorem halts_of_some (h : next a = some b) (hb : Halts next b) : Halts next a :=
  ⟨a,fun _ hc => by rw [h] at hc; cases hc; exact hb⟩

/-- From a state that follows itself it does not halt. -/
theorem not_halts_of_self (h : next a = some a) : ¬Halts next a := by
  intro hacc
  induction hacc with
  | intro x _ ih => exact ih x h h

/-- Whatever is reached halts too. -/
theorem Halts.of_reaches (h : Halts next a) (hr : Reaches next a b) : Halts next b := by
  induction hr with
  | refl => exact h
  | tail _ hstep ih => exact ih.inv hstep

/-- If it halts from what is reached, it halts. -/
theorem Reaches.halts (hr : Reaches next a b) (h : Halts next b) : Halts next a := by
  induction hr using Relation.ReflTransGen.head_induction_on with
  | refl => exact h
  | head hstep _ ih => exact halts_of_some hstep ih

/-- What one loop reaches, a loop with more steps reaches. -/
theorem Reaches.mono {next' : α → Option α} (hr : Reaches next a b)
    (h : ∀ x y,next x = some y → next' x = some y) : Reaches next' a b :=
  Relation.ReflTransGen.mono h _ _ hr

/-- A loop that halts reaches a state that none follows. -/
theorem Halts.exists_stop (h : Halts next a) : ∃ b,Reaches next a b ∧ next b = none := by
  induction h with
  | intro x _ ih =>
    cases hnext : next x with
    | none => exact ⟨x,.refl,hnext⟩
    | some y =>
      obtain ⟨b,hreach,hstop⟩ := ih y hnext
      exact ⟨b,.head hnext hreach,hstop⟩

/-- It is the only one. -/
theorem Reaches.stop_unique {c : α} (hb : Reaches next a b) (hstop : next b = none)
    (hc : Reaches next a c) (hstop' : next c = none) : b = c := by
  induction hb using Relation.ReflTransGen.head_induction_on with
  | refl =>
    rcases hc.cases_head with rfl | ⟨d,hd,-⟩
    · rfl
    · rw [hstop] at hd
      cases hd
  | head hstep _ ih =>
    rcases hc.cases_head with rfl | ⟨d,hd,hc⟩
    · rw [hstop'] at hstep
      cases hstep
    · rw [hstep] at hd
      cases hd
      exact ih hc

/-- Induction over a loop that halts, from all later states. -/
theorem Halts.later_induction {P : α → Prop} (h : Halts next a)
    (step : ∀ x,Halts next x → (∀ y z,Reaches next x y → next y = some z → P z) → P x) : P a := by
  suffices hall : ∀ y,Reaches next a y → P y from hall a .refl
  induction h with
  | intro x hx ih =>
    have hafter : ∀ z,Relation.TransGen (fun x y => next x = some y) x z → P z := fun z hz => by
      obtain ⟨b,hstep,hreach⟩ := Relation.TransGen.head'_iff.mp hz
      exact ih b hstep z hreach
    intro y hy
    rcases Relation.reflTransGen_iff_eq_or_transGen.mp hy with rfl | hy
    · exact step y ⟨y,hx⟩ fun _ z hreach hstep => hafter z (.tail' hreach hstep)
    · exact hafter y hy

/-- If a step stays in place or moves up in a bounded measure, the loop halts
exactly if it reaches no state that follows itself. -/
theorem halts_iff {μ : α → ℕ} {bound : ℕ}
    (hstep : ∀ {x y}, next x = some y → y = x ∨ μ x < μ y)
    (hbound : ∀ {x y}, next x = some y → μ x < bound) :
    Halts next a ↔ ∀ b, Reaches next a b → next b ≠ some b := by
  constructor
  · intro h b hr hself
    exact not_halts_of_self hself (h.of_reaches hr)
  · intro h
    induction hm : bound - μ a using Nat.strongRecOn generalizing a with
    | ind m ih =>
      cases hnext : next a with
      | none => exact halts_of_none hnext
      | some b =>
        have hne : b ≠ a := fun heq => h a .refl (heq ▸ hnext)
        have hlt := (hstep hnext).resolve_left hne
        have hlt' := hbound hnext
        refine halts_of_some hnext (ih (bound - μ b) (by omega) ?_ rfl)
        exact fun c hr => h c (.head hnext hr)

end WootOs.Halting
