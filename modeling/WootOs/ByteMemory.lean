import Mathlib.Logic.Function.Basic
import Mathlib.Tactic

/-!
# Bytes at 32-bit addresses

A memory gives a byte for every address, and addresses go around at the end.
Words are kept with their low byte first. The lemmas say what a word that was
written reads as, that a write leaves the bytes beside it alone, and that moving
bytes one after the other, from the end that is safe, is the same as moving them
all at once as long as neither range goes around.
-/

namespace WootOs.ByteMemory

/-- An address or a word. -/
abbrev Word := BitVec 32

/-- The byte at every address. -/
abbrev Memory := Word → BitVec 8

/-- The two bytes at an address, low byte first. -/
def read16 (m : Memory) (a : Word) : BitVec 16 := m (a + 1) ++ m a

/-- The four bytes at an address, low byte first. -/
def read32 (m : Memory) (a : Word) : Word := m (a + 3) ++ m (a + 2) ++ m (a + 1) ++ m a

/-- Write a word, low byte first. -/
def write32 (m : Memory) (a v : Word) : Memory :=
  Function.update (Function.update (Function.update (Function.update m
    a (v.extractLsb' 0 8)) (a + 1) (v.extractLsb' 8 8)) (a + 2) (v.extractLsb' 16 8))
    (a + 3) (v.extractLsb' 24 8)

/-- Whether an address is among so many from a first one on. -/
def InRange (a : Word) (n : ℕ) (x : Word) : Prop := (x - a).toNat < n

instance (a : Word) (n : ℕ) (x : Word) : Decidable (InRange a n x) :=
  inferInstanceAs (Decidable ((x - a).toNat < n))

/-- A word that was written is read back. -/
@[simp] theorem read32_write32 (m : Memory) (a v : Word) : read32 (write32 m a v) a = v := by
  have h₀ : a ≠ a + 1 := by bv_omega
  have h₁ : a ≠ a + 2 := by bv_omega
  have h₂ : a ≠ a + 3 := by bv_omega
  have h₃ : a + 1 ≠ a + 2 := by bv_omega
  have h₄ : a + 1 ≠ a + 3 := by bv_omega
  have h₅ : a + 2 ≠ a + 3 := by bv_omega
  simp only [read32,write32,Function.update_self,ne_eq,h₀,h₁,h₂,h₃,h₄,h₅,not_false_eq_true,
    Function.update_of_ne]
  ext i hi
  simp only [BitVec.getElem_append,BitVec.getElem_extractLsb']
  grind

/-- A write of a word leaves the bytes beside it alone. -/
theorem write32_frame (m : Memory) (a v x : Word) (h : ¬InRange a 4 x) :
    write32 m a v x = m x := by
  simp only [InRange] at h
  have h₀ : x ≠ a := by bv_omega
  have h₁ : x ≠ a + 1 := by bv_omega
  have h₂ : x ≠ a + 2 := by bv_omega
  have h₃ : x ≠ a + 3 := by bv_omega
  simp only [write32,ne_eq,h₀,h₁,h₂,h₃,not_false_eq_true,Function.update_of_ne]

/-- Two words written to one place leave the same memory only when they are equal. -/
theorem write32_inj {m : Memory} {a v w : Word} : write32 m a v = write32 m a w ↔ v = w := by
  refine ⟨fun h => ?_,fun h => by rw [h]⟩
  have := congrArg (fun m => read32 m a) h
  simpa using this

/-- Move bytes one after the other, upwards. -/
def moveUp : ℕ → Memory → Word → Word → Memory
  | 0,m,_,_ => m
  | n + 1,m,d,s => moveUp n (Function.update m d (m s)) (d + 1) (s + 1)

/-- Move bytes one after the other, downwards from the ends of the ranges. -/
def moveDown : ℕ → Memory → Word → Word → Memory
  | 0,m,_,_ => m
  | n + 1,m,d,s => moveDown n (Function.update m (d - 1) (m (s - 1))) (d - 1) (s - 1)

/-- Move bytes so that none is overwritten before it has been read. -/
def move (m : Memory) (dst src : Word) (n : ℕ) : Memory :=
  if n = 0 ∨ dst = src then m
  else if src.toNat > dst.toNat then moveUp n m dst src
  else moveDown n m (dst + BitVec.ofNat 32 n) (src + BitVec.ofNat 32 n)

/-- The memory with the bytes of one range put into another, all at once. -/
def copied (m : Memory) (dst src : Word) (n : ℕ) : Memory :=
  fun x => if InRange dst n x then m (src + (x - dst)) else m x

/-- Moving upwards is right where the destination lies below what is still to be read. -/
theorem moveUp_eq (n : ℕ) (m : Memory) (d s : Word) (h : n ≤ 2 ^ 32 - (s - d).toNat)
    (hd : d ≠ s) : moveUp n m d s = copied m d s n := by
  induction n generalizing m d s with
  | zero => funext x; simp [moveUp,copied,InRange]
  | succ n ih =>
    have e : s + 1 - (d + 1) = s - d := by bv_omega
    rw [moveUp,ih _ _ _ (by rw [e]; omega) (by bv_omega)]
    funext x
    simp only [copied,InRange,Function.update_apply]
    by_cases hx : x = d
    · subst hx
      have : ¬(x - (x + 1)).toNat < n := by bv_omega
      have h₀ : (x - x).toNat < n + 1 := by bv_omega
      have h₁ : s + (x - x) = s := by bv_omega
      simp only [this,h₀,h₁,if_false,if_true]
    · have hs : (x - d).toNat = (x - (d + 1)).toNat + 1 := by bv_omega
      have ha : s + 1 + (x - (d + 1)) = s + (x - d) := by bv_omega
      by_cases hn : (x - (d + 1)).toNat < n
      · have hne : s + (x - d) ≠ d := by bv_omega
        have hn' : (x - d).toNat < n + 1 := by omega
        simp only [hn,hn',if_true,ha,hne,if_false]
      · have hn' : ¬(x - d).toNat < n + 1 := by omega
        simp only [hn,hn',if_false,hx]

/-- Moving downwards is right where the destination lies above what is still to be read. -/
theorem moveDown_eq (n : ℕ) (m : Memory) (d s : Word) (h : n ≤ 2 ^ 32 - (d - s).toNat) :
    moveDown n m (d + BitVec.ofNat 32 n) (s + BitVec.ofNat 32 n) = copied m d s n := by
  induction n generalizing m with
  | zero => funext x; simp [moveDown,copied,InRange]
  | succ n ih =>
    have e (a : Word) : a + BitVec.ofNat 32 (n + 1) - 1 = a + BitVec.ofNat 32 n := by
      rw [BitVec.ofNat_add]; bv_omega
    rw [moveDown,e,e,ih _ (by omega)]
    have hlt : n < 2 ^ 32 := by omega
    funext x
    simp only [copied,InRange,Function.update_apply]
    by_cases hx : x = d + BitVec.ofNat 32 n
    · subst hx
      have h₀ : (d + BitVec.ofNat 32 n - d).toNat = n := by bv_omega
      have h₁ : s + (d + BitVec.ofNat 32 n - d) = s + BitVec.ofNat 32 n := by bv_omega
      simp only [h₀,h₁,if_true,Nat.lt_irrefl,if_false,Nat.lt_succ_self]
    · have h₀ : (x - d).toNat ≠ n := by bv_omega
      by_cases hn : (x - d).toNat < n
      · have hne : s + (x - d) ≠ d + BitVec.ofNat 32 n := by bv_omega
        have hn' : (x - d).toNat < n + 1 := by omega
        simp only [hn,hn',if_true,hne,if_false]
      · have hn' : ¬(x - d).toNat < n + 1 := by omega
        simp only [hn,hn',if_false,hx]

/-- Moving puts the bytes of the source into the destination and changes nothing else, when
neither range goes around the end of the addresses. -/
theorem move_eq (m : Memory) (dst src : Word) (n : ℕ) (hd : dst.toNat + n ≤ 2 ^ 32)
    (hs : src.toNat + n ≤ 2 ^ 32) : move m dst src n = copied m dst src n := by
  simp only [move]
  split_ifs with h up
  · funext x
    obtain rfl | rfl := h
    · simp [copied,InRange]
    · have : dst + (x - dst) = x := by bv_omega
      simp [copied,this]
  · exact moveUp_eq n m dst src (by bv_omega) (by tauto)
  · exact moveDown_eq n m dst src (by bv_omega)

end WootOs.ByteMemory
