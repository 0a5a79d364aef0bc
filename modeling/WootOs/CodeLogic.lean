import Mathlib.Data.List.Basic

/-!
# Code that may not return

Code reads and changes a state and returns a value, or it does not return at
all. Ensures says what holds of the value and the state wherever it does. There
is one rule for each way to put code together, so that what a function ensures
follows from what its parts ensure.
-/

namespace WootOs.CodeLogic

/-- Code over a state. -/
abbrev Code (S A : Type) := StateT S Option A

/-- Code that does not return. -/
def stuck {S A : Type} : Code S A := fun _ => none

/-- Wherever code returns, its value and the state then have a property. -/
def Ensures {S A : Type} (c : Code S A) (s : S) (Q : A → S → Prop) : Prop :=
  ∀ a t,c s = some (a,t) → Q a t

section Rules

variable {S A B : Type} {c : Code S A} {s : S} {Q R : A → S → Prop}

theorem Ensures.mono (h : Ensures c s Q) (hQ : ∀ a t,Q a t → R a t) : Ensures c s R :=
  fun a t hrun => hQ a t (h a t hrun)

theorem Ensures.and (h : Ensures c s Q) (h' : Ensures c s R) :
    Ensures c s fun a t => Q a t ∧ R a t :=
  fun a t hrun => ⟨h a t hrun,h' a t hrun⟩

theorem ensures_pure {a : A} : Ensures (pure a : Code S A) s Q ↔ Q a s := by
  constructor
  · exact fun h => h a s rfl
  · rintro h b t hrun
    obtain ⟨rfl,rfl⟩ := Prod.mk.inj (Option.some.inj hrun)
    exact h

theorem ensures_stuck : Ensures (stuck : Code S A) s Q := by
  intro a t hrun
  cases hrun

theorem ensures_bind {k : A → Code S B} {Q : B → S → Prop} :
    Ensures (c >>= k) s Q ↔ Ensures c s fun a t => Ensures (k a) t Q := by
  constructor
  · intro h a t hc b u hk
    refine h b u ?_
    change (c s).bind (fun r => k r.1 r.2) = some (b,u)
    rw [hc]
    exact hk
  · intro h b u hrun
    change (c s).bind (fun r => k r.1 r.2) = some (b,u) at hrun
    obtain ⟨⟨a,t⟩,hc,hk⟩ := Option.bind_eq_some_iff.mp hrun
    exact h a t hc b u hk

theorem ensures_get {Q : S → S → Prop} : Ensures (get : Code S S) s Q ↔ Q s s := by
  constructor
  · exact fun h => h s s rfl
  · rintro h a t hrun
    obtain ⟨rfl,rfl⟩ := Prod.mk.inj (Option.some.inj hrun)
    exact h

theorem ensures_modify {f : S → S} {Q : PUnit → S → Prop} :
    Ensures (modify f : Code S PUnit) s Q ↔ Q ⟨⟩ (f s) := by
  constructor
  · exact fun h => h ⟨⟩ (f s) rfl
  · rintro h a t hrun
    obtain ⟨-,rfl⟩ := Prod.mk.inj (Option.some.inj hrun)
    exact h

theorem ensures_ite {p : Prop} [Decidable p] {d : Code S A} :
    Ensures (if p then c else d) s Q ↔ (p → Ensures c s Q) ∧ (¬p → Ensures d s Q) := by
  by_cases hp : p
  · simp [hp]
  · simp [hp]

end Rules

end WootOs.CodeLogic
