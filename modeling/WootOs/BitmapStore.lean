import WootOs.ByteStore
import Mathlib.Data.Finset.Card
import Mathlib.Data.Finset.Range

/-!
# Bitmaps in a byte store

Bit n of a bitmap is bit n mod 8 of its byte n / 8. Marking and unmarking one
bit of a byte changes that bit and no other, and moves the number of clear
bits by one. The search for the lowest clear bit of a byte is sound and
misses nothing below it.
-/

namespace WootOs.BitmapStore

open ByteStore

/-- Lowest clear bit of a byte, 8 when there is none. -/
def lowestClear (b : UInt8) : ℕ := ((List.range 8).find? fun i => !b.toNat.testBit i).getD 8

/-- A byte with one more bit set. -/
def markBit (b : UInt8) (i : ℕ) : UInt8 := UInt8.ofNat (b.toNat ||| 2 ^ i)

/-- A byte with one bit cleared. -/
def unmarkBit (b : UInt8) (i : ℕ) : UInt8 := UInt8.ofNat (b.toNat &&& ((2 ^ 8 - 1) ^^^ 2 ^ i))

/-- Marking sets one bit. -/
theorem testBit_markBit (b : UInt8) {i j : ℕ} (hi : i < 8) :
    (markBit b i).toNat.testBit j = (b.toNat.testBit j || decide (i = j)) := by
  have hlt : b.toNat ||| 2 ^ i < 2 ^ 8 :=
    Nat.or_lt_two_pow b.toNat_lt (Nat.pow_lt_pow_right (by decide) hi)
  rw [markBit,UInt8.toNat_ofNat',Nat.mod_eq_of_lt hlt,Nat.testBit_or,Nat.testBit_two_pow]

/-- Unmarking clears one bit. -/
theorem testBit_unmarkBit (b : UInt8) (i j : ℕ) :
    (unmarkBit b i).toNat.testBit j = (b.toNat.testBit j && decide (i ≠ j)) := by
  have hlt : b.toNat &&& ((2 ^ 8 - 1) ^^^ 2 ^ i) < 2 ^ 8 :=
    Nat.lt_of_le_of_lt Nat.and_le_left b.toNat_lt
  rw [unmarkBit,UInt8.toNat_ofNat',Nat.mod_eq_of_lt hlt,Nat.testBit_and,Nat.testBit_xor,
    Nat.testBit_two_pow_sub_one,Nat.testBit_two_pow]
  by_cases hj : j < 8
  · by_cases he : i = j <;> simp [hj,he]
  · have hhigh : b.toNat.testBit j = false := Nat.testBit_lt_two_pow
      (Nat.lt_of_lt_of_le b.toNat_lt (Nat.pow_le_pow_right (by decide) (by omega)))
    rw [hhigh,Bool.false_and,Bool.false_and]

/-- A byte all of whose bits are set is 0xFF. -/
theorem eq_full_iff (b : UInt8) : b = 0xFF ↔ ∀ i < 8, b.toNat.testBit i = true := by
  constructor
  · rintro rfl
    decide
  · intro h
    apply UInt8.toNat_inj.mp
    apply Nat.eq_of_testBit_eq
    intro i
    have he : (0xFF : UInt8).toNat = 2 ^ 8 - 1 := by decide
    rw [he,Nat.testBit_two_pow_sub_one]
    by_cases hi : i < 8
    · simp [hi,h i hi]
    · have hhigh : b.toNat.testBit i = false := Nat.testBit_lt_two_pow
        (Nat.lt_of_lt_of_le b.toNat_lt (Nat.pow_le_pow_right (by decide) (by omega)))
      simp [hi,hhigh]

/-- In a byte that is not full the search finds the lowest clear bit. -/
theorem lowestClear_spec {b : UInt8} (h : b ≠ 0xFF) :
    lowestClear b < 8 ∧ b.toNat.testBit (lowestClear b) = false ∧
    ∀ i < lowestClear b, b.toNat.testBit i = true := by
  obtain ⟨i,hi⟩ : ∃ i, (List.range 8).find? (fun i => !b.toNat.testBit i) = some i := by
    cases hf : (List.range 8).find? (fun i => !b.toNat.testBit i) with
    | some i => exact ⟨i,rfl⟩
    | none =>
      exfalso
      apply h
      rw [eq_full_iff]
      intro i hi
      simpa using List.find?_eq_none.mp hf i (List.mem_range.mpr hi)
  have hl : lowestClear b = i := by rw [lowestClear,hi,Option.getD_some]
  rw [hl]
  refine ⟨List.mem_range.mp (List.mem_of_find?_eq_some hi),by simpa using List.find?_some hi,?_⟩
  intro j hj
  obtain ⟨-,as,bs,hsplit,hall⟩ := List.find?_eq_some_iff_append.mp hi
  have hmem : j ∈ as := by
    have hlen : as.length = i := by
      have hget : (List.range 8)[as.length]? = some i := by rw [hsplit]; simp
      exact (List.getElem?_range (List.getElem?_eq_some_iff.mp hget).1 ▸ hget |> Option.some.inj)
    have hget : (List.range 8)[j]? = some j := by
      have hi8 := List.mem_range.mp (List.mem_of_find?_eq_some hi)
      exact List.getElem?_range (by omega)
    rw [hsplit,List.getElem?_append_left (by omega)] at hget
    exact List.mem_of_getElem? hget
  simpa using hall j hmem

/-- Bit n of the bitmap at the given address. -/
def bitAt (s : Store) (base n : ℕ) : Bool := (s (base + n / 8)).toNat.testBit (n % 8)

/-- Number of clear bits among the first n. -/
def clearCount (s : Store) (base n : ℕ) : ℕ :=
  ((Finset.range n).filter fun i => bitAt s base i = false).card

/-- A bit depends on its byte only. -/
theorem bitAt_congr {s t : Store} {base n : ℕ} (h : s (base + n / 8) = t (base + n / 8)) :
    bitAt s base n = bitAt t base n := by
  rw [bitAt,h,bitAt]

/-- Clear bits are counted alike in bitmaps that agree. -/
theorem clearCount_congr {s t : Store} {base base' n : ℕ}
    (h : ∀ i < n, bitAt s base i = bitAt t base' i) : clearCount s base n = clearCount t base' n := by
  rw [clearCount,clearCount]
  congr 1
  apply Finset.filter_congr
  intro i hi
  rw [h i (Finset.mem_range.mp hi)]

/-- Setting one clear bit leaves one clear bit less. -/
theorem clearCount_set {s t : Store} {base n i : ℕ} (hi : i < n) (hs : bitAt s base i = false)
    (ht : bitAt t base i = true) (hother : ∀ j < n, j ≠ i → bitAt t base j = bitAt s base j) :
    clearCount t base n + 1 = clearCount s base n := by
  have he : (Finset.range n).filter (fun j => bitAt t base j = false) =
      ((Finset.range n).filter fun j => bitAt s base j = false).erase i := by
    ext j
    simp only [Finset.mem_filter,Finset.mem_range,Finset.mem_erase]
    by_cases hj : j = i
    · subst hj
      simp [ht]
    · constructor
      · rintro ⟨hn,hf⟩
        exact ⟨hj,hn,by rw [←hother j hn hj]; exact hf⟩
      · rintro ⟨-,hn,hf⟩
        exact ⟨hn,by rw [hother j hn hj]; exact hf⟩
  have hmem : i ∈ (Finset.range n).filter fun j => bitAt s base j = false := by simp [hi,hs]
  rw [clearCount,he,Finset.card_erase_add_one hmem,clearCount]

/-- A clear bit makes the count positive. -/
theorem clearCount_pos {s : Store} {base n i : ℕ} (hi : i < n) (h : bitAt s base i = false) :
    0 < clearCount s base n :=
  Finset.card_pos.mpr ⟨i,by simp [hi,h]⟩

/-- A positive count has a clear bit. -/
theorem exists_clear {s : Store} {base n : ℕ} (h : clearCount s base n ≠ 0) :
    ∃ i < n, bitAt s base i = false := by
  obtain ⟨i,hi⟩ := Finset.card_pos.mp (Nat.pos_of_ne_zero h)
  simp only [Finset.mem_filter,Finset.mem_range] at hi
  exact ⟨i,hi⟩

/-- There are at most as many clear bits as bits. -/
theorem clearCount_le (s : Store) (base n : ℕ) : clearCount s base n ≤ n := by
  rw [clearCount]
  simpa using Finset.card_filter_le (Finset.range n) fun i => bitAt s base i = false

section

variable {s t : Store} {base i : ℕ}

/-- Replacing a byte by itself with one bit changed changes that bit only. -/
theorem bitAt_patch {c : UInt8} {v : Bool}
    (hc : ∀ j, c.toNat.testBit j = if j = i % 8 then v else (s (base + i / 8)).toNat.testBit j)
    (ht : ∀ n, t (base + n / 8) = if n / 8 = i / 8 then c else s (base + n / 8)) (n : ℕ) :
    bitAt t base n = if n = i then v else bitAt s base n := by
  rw [bitAt,ht n]
  by_cases hbyte : n / 8 = i / 8
  · rw [if_pos hbyte,hc]
    by_cases hbit : n % 8 = i % 8
    · have he : n = i := by omega
      rw [if_pos hbit,if_pos he]
    · have hne : n ≠ i := by omega
      rw [if_neg hbit,if_neg hne,bitAt,hbyte]
  · have hne : n ≠ i := by omega
    rw [if_neg hbyte,if_neg hne,bitAt]

end

end WootOs.BitmapStore
