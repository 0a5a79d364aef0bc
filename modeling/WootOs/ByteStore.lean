import Mathlib.Data.Nat.Notation
import Mathlib.Data.List.GetD
import Mathlib.Tactic.Ring
import Mathlib.Tactic.Linarith

/-!
# Byte-addressed stores and little-endian words

A store is a total map from byte addresses to bytes. Ranges are read with
slice and overwritten with patch; a word is the little-endian value of a
slice. The lemmas say what a patch leaves alone and what a slice reads back,
so that a model of a disk, of a cache buffer or of a file can be reasoned
about one range at a time without unfolding either operation.
-/

namespace WootOs.ByteStore

/-- Contents of a byte-addressed device, total over its addresses. -/
abbrev Store := ℕ → UInt8

/-- The n bytes that start at one address. -/
def slice (s : Store) (pos n : ℕ) : List UInt8 := (List.range n).map fun i => s (pos + i)

/-- Overwrite the addresses from pos on with the given bytes. -/
def patch (s : Store) (pos : ℕ) (bs : List UInt8) : Store := fun a =>
  if pos ≤ a ∧ a < pos + bs.length then bs.getD (a - pos) 0 else s a

@[simp] theorem slice_length (s : Store) (pos n : ℕ) : (slice s pos n).length = n := by
  simp [slice]

@[simp] theorem slice_zero (s : Store) (pos : ℕ) : slice s pos 0 = [] := rfl

/-- A slice lists the store's bytes in address order. -/
theorem slice_getD {s : Store} {pos n i : ℕ} (h : i < n) :
    (slice s pos n).getD i 0 = s (pos + i) := by
  simp [slice,List.getD_eq_getElem?_getD,h]

/-- Two slices agree exactly when the stores agree throughout the range. -/
theorem slice_congr {s t : Store} {p q n : ℕ} (h : ∀ i < n, s (p + i) = t (q + i)) :
    slice s p n = slice t q n := by
  apply List.map_congr_left
  intro i hi
  exact h i (List.mem_range.mp hi)

/-- Equal slices have equal bytes at every offset. -/
theorem slice_eq_imp {s t : Store} {p q n : ℕ} (h : slice s p n = slice t q n) :
    ∀ i < n, s (p + i) = t (q + i) := by
  intro i hi
  rw [←slice_getD (s:=s) hi,h,slice_getD hi]

/-- A range splits at any inner point. -/
theorem slice_append (s : Store) (pos m n : ℕ) :
    slice s pos (m + n) = slice s pos m ++ slice s (pos + m) n := by
  simp only [slice,List.range_add,List.map_append,List.map_map,List.append_cancel_left_eq]
  apply List.map_congr_left
  intro i _
  simp only [Function.comp,Nat.add_assoc]

/-- Inside the patched range the new bytes are read back. -/
theorem patch_in {s : Store} {pos a : ℕ} {bs : List UInt8} (hl : pos ≤ a)
    (hu : a < pos + bs.length) : patch s pos bs a = bs.getD (a - pos) 0 := by
  rw [patch,if_pos ⟨hl,hu⟩]

/-- Outside the patched range nothing changes. -/
theorem patch_out {s : Store} {pos a : ℕ} {bs : List UInt8}
    (h : a < pos ∨ pos + bs.length ≤ a) : patch s pos bs a = s a := by
  rw [patch,if_neg (by omega)]

@[simp] theorem patch_nil (s : Store) (pos : ℕ) : patch s pos [] = s := by
  funext a
  exact patch_out (by simp only [List.length_nil]; omega)

/-- Reading back exactly the patched range gives the bytes written. -/
theorem slice_patch_same (s : Store) (pos : ℕ) (bs : List UInt8) :
    slice (patch s pos bs) pos bs.length = bs := by
  apply List.ext_getElem (by simp)
  intro i hi hb
  have hp : patch s pos bs (pos + i) = bs.getD i 0 := by
    rw [patch_in (by omega) (by omega),Nat.add_sub_cancel_left]
  simp only [slice,List.getElem_map,List.getElem_range]
  rw [hp,List.getD_eq_getElem _ _ hb]

/-- A slice that misses the patched range is unchanged. -/
theorem slice_patch_disjoint {s : Store} {pos p n : ℕ} {bs : List UInt8}
    (h : p + n ≤ pos ∨ pos + bs.length ≤ p) : slice (patch s pos bs) p n = slice s p n := by
  apply slice_congr
  intro i hi
  exact patch_out (by omega)

/-- Two consecutive patches are the patch of the concatenation. -/
theorem patch_append (s : Store) (pos : ℕ) (bs cs : List UInt8) :
    patch (patch s pos bs) (pos + bs.length) cs = patch s pos (bs ++ cs) := by
  funext a
  by_cases hc : pos + bs.length ≤ a ∧ a < pos + bs.length + cs.length
  · rw [patch_in hc.1 hc.2,patch_in (by omega) (by simp only [List.length_append]; omega)]
    rw [List.getD_append_right _ _ _ _ (by omega)]
    congr 1
    omega
  · rw [patch_out (by omega)]
    by_cases hb : pos ≤ a ∧ a < pos + bs.length
    · rw [patch_in hb.1 hb.2,patch_in hb.1 (by simp only [List.length_append]; omega)]
      rw [List.getD_append _ _ _ _ (by omega)]
    · rw [patch_out (by omega),patch_out (by simp only [List.length_append]; omega)]

/-- The n little-endian bytes of a number, high bits dropped. -/
def leBytes : ℕ → ℕ → List UInt8
  | 0,_ => []
  | n + 1,w => UInt8.ofNat w :: leBytes n (w / 256)

/-- Little-endian value of a byte string. -/
def leValue : List UInt8 → ℕ
  | [] => 0
  | b :: bs => b.toNat + 256 * leValue bs

theorem leBytes_zero (w : ℕ) : leBytes 0 w = [] := (rfl)

theorem leBytes_succ (n w : ℕ) :
    leBytes (n + 1) w = UInt8.ofNat w :: leBytes n (w / 256) := (rfl)

theorem leValue_nil : leValue [] = 0 := (rfl)

theorem leValue_cons (b : UInt8) (bs : List UInt8) :
    leValue (b :: bs) = b.toNat + 256 * leValue bs := (rfl)

@[simp] theorem leBytes_length (n w : ℕ) : (leBytes n w).length = n := by
  induction n generalizing w with
  | zero => rfl
  | succ n ih => simp [leBytes_succ,ih]

/-- Encoding then decoding keeps the low n bytes. -/
theorem leValue_leBytes (n w : ℕ) : leValue (leBytes n w) = w % 256 ^ n := by
  induction n generalizing w with
  | zero => simp [leBytes_zero,leValue_nil,Nat.mod_one]
  | succ n ih =>
    rw [leBytes_succ,leValue_cons,ih,pow_succ',Nat.mod_mul]
    simp

/-- A byte string of length n encodes a number below 256^n. -/
theorem leValue_lt (bs : List UInt8) : leValue bs < 256 ^ bs.length := by
  induction bs with
  | nil => simp [leValue_nil]
  | cons b bs ih =>
    have hb : b.toNat < 256 := b.toNat_lt
    rw [leValue_cons,List.length_cons,pow_succ']
    omega

/-- The little-endian word of n bytes at one address. -/
def word (s : Store) (n pos : ℕ) : ℕ := leValue (slice s pos n)

theorem word_lt (s : Store) (n pos : ℕ) : word s n pos < 256 ^ n := by
  simpa [word] using leValue_lt (slice s pos n)

/-- A word reads back what was patched in, when it fits. -/
theorem word_patch_same {s : Store} {n pos w : ℕ} (h : w < 256 ^ n) :
    word (patch s pos (leBytes n w)) n pos = w := by
  have hs := slice_patch_same s pos (leBytes n w)
  rw [leBytes_length] at hs
  rw [word,hs,leValue_leBytes,Nat.mod_eq_of_lt h]

/-- A word that misses the patched range is unchanged. -/
theorem word_patch_disjoint {s : Store} {n pos p : ℕ} {bs : List UInt8}
    (h : p + n ≤ pos ∨ pos + bs.length ≤ p) : word (patch s pos bs) n p = word s n p := by
  rw [word,slice_patch_disjoint h,word]

/-- Words are equal when their bytes are. -/
theorem word_congr {s t : Store} {n p q : ℕ} (h : ∀ i < n, s (p + i) = t (q + i)) :
    word s n p = word t n q := by
  rw [word,slice_congr h,word]

section Records

variable {α : Type} (read : ℕ → α) (len : α → ℕ)

/-- Records lie one after the other between two addresses, each as long as it says. -/
def Chain : ℕ → List α → ℕ → Prop
  | pos,[],stop => pos = stop
  | pos,x :: xs,stop => read pos = x ∧ 0 < len x ∧ Chain (pos + len x) xs stop

variable {read len} {pos stop : ℕ} {xs : List α}

/-- Their lengths add up. -/
theorem Chain.length (h : Chain read len pos xs stop) : pos + (xs.map len).sum = stop := by
  induction xs generalizing pos with
  | nil => exact h
  | cons x xs ih =>
    have hrest := ih h.2.2
    rw [List.map_cons,List.sum_cons]
    omega

/-- No more records than bytes fit. -/
theorem Chain.count_le (h : Chain read len pos xs stop) : pos + xs.length ≤ stop := by
  induction xs generalizing pos with
  | nil => exact h.le
  | cons x xs ih =>
    have hpos := h.2.1
    have hrest := ih h.2.2
    rw [List.length_cons]
    omega

/-- Each is read at some address. -/
theorem Chain.exists_pos (h : Chain read len pos xs stop) : ∀ x ∈ xs,∃ p,read p = x := by
  induction xs generalizing pos with
  | nil => exact fun x hx => absurd hx List.not_mem_nil
  | cons y xs ih =>
    intro x hx
    obtain rfl | hx := List.mem_cons.mp hx
    · exact ⟨pos,h.1⟩
    · exact ih h.2.2 x hx

end Records

end WootOs.ByteStore
