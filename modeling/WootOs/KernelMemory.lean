import WootOs.ByteStore

/-!
# Filling and moving memory

The kernel fills and moves memory byte by byte. Whichever way round the bytes
are moved, what arrives is what stood at the source before, also when source
and destination overlap.
-/

namespace WootOs.KernelMemory

open ByteStore

/-- Fill n bytes with zeros. -/
def zero (m : Store) (dst n : ℕ) : Store := patch m dst (List.replicate n 0)

/-- Move n bytes, the first one first. -/
def moveUp (m : Store) (dst src : ℕ) : ℕ → Store
  | 0 => m
  | n + 1 => moveUp (Function.update m dst (m src)) (dst + 1) (src + 1) n

/-- Move n bytes, the last one first. -/
def moveDown (m : Store) (dst src : ℕ) : ℕ → Store
  | 0 => m
  | n + 1 => moveDown (Function.update m (dst + n) (m (src + n))) dst src n

/-- Move n bytes; the order depends on which address is higher. -/
def move (m : Store) (dst src n : ℕ) : Store :=
  if n = 0 ∨ dst = src then m
  else if dst < src then moveUp m dst src n
  else moveDown m dst src n

section

variable {dst src a : ℕ}

/-- Moving up leaves what it has written and what it has yet to read. -/
theorem moveUp_eq (n : ℕ) : ∀ {m : Store} {dst src : ℕ}, dst < src → ∀ a,
    moveUp m dst src n a = if dst ≤ a ∧ a < dst + n then m (src + (a - dst)) else m a := by
  induction n with
  | zero =>
    intro m dst src _ a
    rw [if_neg (by omega)]
    rfl
  | succ n ih =>
    intro m dst src hlt a
    show moveUp (Function.update m dst (m src)) (dst + 1) (src + 1) n a = _
    rw [ih (by omega)]
    by_cases ha : a = dst
    · rw [if_neg (by omega),if_pos (by omega),ha,Function.update_self,Nat.sub_self,Nat.add_zero]
    · by_cases hin : dst + 1 ≤ a ∧ a < dst + 1 + n
      · rw [if_pos hin,if_pos (by omega),Function.update_of_ne (by omega)]
        congr 1
        omega
      · rw [if_neg hin,if_neg (by omega),Function.update_of_ne ha]

/-- Moving down leaves what it has written and what it has yet to read. -/
theorem moveDown_eq (h : src < dst) (n : ℕ) : ∀ {m : Store} (a : ℕ),
    moveDown m dst src n a = if dst ≤ a ∧ a < dst + n then m (src + (a - dst)) else m a := by
  induction n with
  | zero =>
    intro m a
    rw [if_neg (by omega)]
    rfl
  | succ n ih =>
    intro m a
    show moveDown (Function.update m (dst + n) (m (src + n))) dst src n a = _
    rw [ih]
    by_cases ha : a = dst + n
    · rw [if_neg (by omega),if_pos (by omega),ha,Function.update_self,Nat.add_sub_cancel_left]
    · by_cases hin : dst ≤ a ∧ a < dst + n
      · rw [if_pos hin,if_pos (by omega),Function.update_of_ne (by omega)]
      · rw [if_neg hin,if_neg (by omega),Function.update_of_ne ha]

/-- What a move leaves in memory. -/
theorem move_eq (m : Store) (dst src n a : ℕ) :
    move m dst src n a = if dst ≤ a ∧ a < dst + n then m (src + (a - dst)) else m a := by
  rw [move]
  by_cases hnone : n = 0 ∨ dst = src
  · rw [if_pos hnone]
    split
    · congr 1
      omega
    · rfl
  · rw [if_neg hnone]
    by_cases hup : dst < src
    · rw [if_pos hup,moveUp_eq n hup]
    · rw [if_neg hup,moveDown_eq (by omega)]

/-- Filling changes the filled bytes only. -/
theorem zero_out {m : Store} {n : ℕ} (h : a < dst ∨ dst + n ≤ a) : zero m dst n a = m a := by
  rw [zero]
  exact patch_out (by rwa [List.length_replicate])

/-- Filled bytes are zero. -/
theorem zero_in {m : Store} {n : ℕ} (hl : dst ≤ a) (hu : a < dst + n) : zero m dst n a = 0 := by
  rw [zero,patch_in hl (by rwa [List.length_replicate])]
  have hlt : a - dst < n := by omega
  simp [List.getD_eq_getElem?_getD,hlt]

/-- Moving changes the bytes of the destination only. -/
theorem move_out {m : Store} {n : ℕ} (h : a < dst ∨ dst + n ≤ a) : move m dst src n a = m a := by
  rw [move_eq,if_neg (by omega)]

end

end WootOs.KernelMemory
