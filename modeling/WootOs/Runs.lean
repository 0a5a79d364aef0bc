import Mathlib.Data.List.Basic

/-!
# Runs of a state machine

A run applies a list of operations one after the other. RunMeets says that
each operation has some property in the state it finds. An invariant that
every such operation keeps holds at the end of the run, and so at the end of
each of its beginnings.
-/

namespace WootOs.Runs

variable {S O : Type*} (step : S → O → S)

/-- Each operation of a run has a property in the state it finds. -/
def RunMeets (P : S → O → Prop) : S → List O → Prop
  | _,[] => True
  | s,op :: ops => P s op ∧ RunMeets P (step s op) ops

instance decidableRunMeets {P : S → O → Prop} [∀ s op,Decidable (P s op)] (s : S)
    (ops : List O) : Decidable (RunMeets step P s ops) :=
  match ops with
  | [] => inferInstanceAs (Decidable True)
  | op :: ops =>
    have := decidableRunMeets (P := P) (step s op) ops
    inferInstanceAs (Decidable (P s op ∧ _))

variable {step}

/-- An invariant that every operation keeps holds at the end of a run. -/
theorem RunMeets.invariant {P : S → O → Prop} {Inv : S → Prop} {s : S} {ops : List O}
    (hstep : ∀ s op,Inv s → P s op → Inv (step s op)) (hs : Inv s)
    (h : RunMeets step P s ops) : Inv (ops.foldl step s) := by
  induction ops generalizing s with
  | nil => exact hs
  | cons op ops ih => exact ih (hstep s op hs h.1) h.2

/-- A beginning of a run is a run. -/
theorem RunMeets.take {P : S → O → Prop} {s : S} {ops : List O} (h : RunMeets step P s ops)
    (n : ℕ) : RunMeets step P s (ops.take n) := by
  induction ops generalizing s n with
  | nil =>
    rw [List.take_nil]
    trivial
  | cons op ops ih =>
    cases n with
    | zero => trivial
    | succ n => exact ⟨h.1,ih h.2 n⟩

/-- A run made of two is one after the other. -/
theorem runMeets_append {P : S → O → Prop} {s : S} {ops ops' : List O} :
    RunMeets step P s (ops ++ ops') ↔
      RunMeets step P s ops ∧ RunMeets step P (ops.foldl step s) ops' := by
  induction ops generalizing s with
  | nil => exact ⟨fun h => ⟨trivial,h⟩,fun h => h.2⟩
  | cons op ops ih => exact (and_congr_right' ih).trans and_assoc.symm

/-- A run of calls, each made of operations, is a run of the operations. -/
theorem RunMeets.flatMap {E : Type*} {expand : E → List O} {P : S → O → Prop}
    {Q : S → E → Prop} {s : S} {calls : List E}
    (hQ : ∀ s call,Q s call → RunMeets step P s (expand call))
    (h : RunMeets (fun s call => (expand call).foldl step s) Q s calls) :
    RunMeets step P s (calls.flatMap expand) := by
  induction calls generalizing s with
  | nil => trivial
  | cons call calls ih =>
    rw [List.flatMap_cons]
    exact runMeets_append.mpr ⟨hQ s call h.1,ih h.2⟩

/-- What an invariant gives for one operation it gives for all of a run. -/
theorem RunMeets.imp {P Q : S → O → Prop} {Inv : S → Prop} {s : S} {ops : List O}
    (hstep : ∀ s op,Inv s → P s op → Inv (step s op))
    (hQ : ∀ s op,Inv s → P s op → Q s op) (hs : Inv s) (h : RunMeets step P s ops) :
    RunMeets step Q s ops := by
  induction ops generalizing s with
  | nil => trivial
  | cons op ops ih => exact ⟨hQ s op hs h.1,ih (hstep s op hs h.1) h.2⟩

/-- Two properties of a run make one. -/
theorem RunMeets.and {P Q : S → O → Prop} {s : S} {ops : List O} (h : RunMeets step P s ops)
    (h' : RunMeets step Q s ops) : RunMeets step (fun s op => P s op ∧ Q s op) s ops := by
  induction ops generalizing s with
  | nil => trivial
  | cons op ops ih => exact ⟨⟨h.1,h'.1⟩,ih h.2 h'.2⟩

/-- What each operation of a run does is right exactly when it meets a condition,
given an invariant that such operations keep. -/
theorem runMeets_iff {P Q : S → O → Prop} {Inv : S → Prop} {s : S} {ops : List O}
    (hiff : ∀ s op,Inv s → (P s op ↔ Q s op)) (hkeep : ∀ s op,Inv s → Q s op → Inv (step s op))
    (hs : Inv s) : RunMeets step P s ops ↔ RunMeets step Q s ops := by
  induction ops generalizing s with
  | nil => exact Iff.rfl
  | cons op ops ih =>
    constructor
    · rintro ⟨hop,hrest⟩
      have hq := (hiff s op hs).mp hop
      exact ⟨hq,(ih (hkeep s op hs hq)).mp hrest⟩
    · rintro ⟨hq,hrest⟩
      exact ⟨(hiff s op hs).mpr hq,(ih (hkeep s op hs hq)).mpr hrest⟩

/-- A property holds in every state of a run exactly when no operation of the
run breaks it, given an invariant that the other operations keep. -/
theorem RunMeets.always_iff {P Q : S → O → Prop} {Inv Good : S → Prop} {s : S} {ops : List O}
    (hgood : ∀ s,Inv s → Good s)
    (hkeep : ∀ s op,Inv s → P s op → Q s op → Inv (step s op))
    (hbreak : ∀ s op,Inv s → P s op → ¬Q s op → ¬Good (step s op)) (hs : Inv s)
    (h : RunMeets step P s ops) :
    (∀ n,Good ((ops.take n).foldl step s)) ↔ RunMeets step Q s ops := by
  induction ops generalizing s with
  | nil =>
    constructor
    · intro _
      trivial
    · intro _ n
      rw [List.take_nil]
      exact hgood s hs
  | cons op ops ih =>
    constructor
    · intro hall
      have hop : Q s op := by
        by_contra hn
        exact hbreak s op hs h.1 hn (hall 1)
      exact ⟨hop,(ih (hkeep s op hs h.1 hop) h.2).mp fun n => hall (n + 1)⟩
    · rintro ⟨hop,hrest⟩ n
      cases n with
      | zero => exact hgood s hs
      | succ n => exact (ih (hkeep s op hs h.1 hop) h.2).mpr hrest n

/-- The invariant of a loop over a range of numbers. -/
theorem foldl_range_invariant {step : S → ℕ → S} {Inv : ℕ → S → Prop} {m len : ℕ} {s : S}
    (hstep : ∀ n s,m ≤ n → n < m + len → Inv n s → Inv (n + 1) (step s n)) (hs : Inv m s) :
    Inv (m + len) ((List.range' m len).foldl step s) := by
  induction len with
  | zero => exact hs
  | succ len ih =>
    rw [List.range'_concat,List.foldl_append,Nat.one_mul]
    have hprev := ih fun n s hl hu => hstep n s hl (by omega)
    exact hstep (m + len) _ (by omega) (by omega) hprev

end WootOs.Runs
