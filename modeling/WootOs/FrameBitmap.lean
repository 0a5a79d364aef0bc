import WootOs.MachineInt
import Mathlib.Data.Finset.Card
import Mathlib.Data.Finset.Range
import Mathlib.Data.Finset.Filter

/-!
# The kernel's packed bitmap

Bits are packed into 32-bit words and the number of ones is kept beside them.
The searches skip whole words, look at single bits of a word, or count a run
of equal bits. What each of them returns is said in terms of single bits, so
that users of the bitmap never look at words.
-/

namespace WootOs.FrameBitmap

/-- A bitmap over packed words. -/
structure Bitmap where
  /-- Number of bits. -/
  bitCount : ℕ
  /-- The words. -/
  bits : ℕ → BitVec 32
  /-- Number of ones among the bits. -/
  ones : ℕ

/-- What a search returns when it finds nothing. -/
def invalidOffset : ℕ := 2 ^ 32 - 1

namespace Bitmap

/-- Number of words, computed in 32 bits. -/
def dwordCount (b : Bitmap) : ℕ := (b.bitCount + 31) % 2 ^ 32 / 32

/-- A bitmap as its constructor sets it up. -/
def new (bitCount : ℕ) (set : Bool) : Bitmap where
  bitCount := bitCount
  bits := fun i =>
    if i < (bitCount + 31) % 2 ^ 32 / 32 then if set then BitVec.allOnes 32 else 0#32 else 0#32
  ones := if set then bitCount else 0

/-- Number of ones or of zeros. -/
def getCountOf (b : Bitmap) (val : Bool) : ℕ := if val then b.ones else b.bitCount - b.ones

/-- One bit; there are zeros only past the end. -/
def getBit (b : Bitmap) (bit : ℕ) : Bool :=
  if b.bitCount ≤ bit then false else (b.bits (bit / 32)).getLsbD (bit % 32)

/-- Set one bit and count it; nothing happens past the end. -/
def setBit (b : Bitmap) (bit : ℕ) (val : Bool) : Bitmap :=
  if b.bitCount ≤ bit then b else
  let dwordOffs := bit / 32
  let cs := (b.bits dwordOffs).getLsbD (bit % 32)
  if val then
    { b with ones := if cs then b.ones else (b.ones + 1) % 2 ^ 32
             bits := Function.update b.bits dwordOffs
               (b.bits dwordOffs ||| BitVec.twoPow 32 (bit % 32)) }
  else
    { b with ones := if cs then (b.ones + (2 ^ 32 - 1)) % 2 ^ 32 else b.ones
             bits := Function.update b.bits dwordOffs
               (b.bits dwordOffs &&& ~~~BitVec.twoPow 32 (bit % 32)) }

/-- A word without a bit of the value looked for. -/
def noneOf (val : Bool) : BitVec 32 := if val then 0#32 else BitVec.allOnes 32

/-- Search the bits of one word from the i-th on. The masked bit is compared
with the truth value as a number. -/
def findInDword (v : BitVec 32) (val : Bool) : ℕ → ℕ → Option ℕ
  | 0,_ => none
  | rest + 1,i =>
    if v &&& BitVec.twoPow 32 i = (if val then 1#32 else 0#32) then some i
    else findInDword v val rest (i + 1)

/-- Search the words from the given one on. -/
def findFirstFrom (b : Bitmap) (val : Bool) : ℕ → ℕ → ℕ
  | 0,_ => invalidOffset
  | rest + 1,dwordOffs =>
    if b.bits dwordOffs = noneOf val then b.findFirstFrom val rest (dwordOffs + 1) else
    match findInDword (b.bits dwordOffs) val 32 0 with
    | some i => if b.bitCount ≤ dwordOffs * 32 + i then invalidOffset else dwordOffs * 32 + i
    | none => b.findFirstFrom val rest (dwordOffs + 1)

/-- Offset of the first bit of the given value. -/
def findFirst (b : Bitmap) (val : Bool) : ℕ := b.findFirstFrom val b.dwordCount 0

/-- First bit of the first word that may hold a bit of the given value; zero
when there is none. -/
def skipDwords (b : Bitmap) (val : Bool) : ℕ → ℕ → ℕ
  | 0,_ => 0
  | rest + 1,dwordOffs =>
    if b.bits dwordOffs ≠ noneOf val then dwordOffs * 32 else b.skipDwords val rest (dwordOffs + 1)

/-- Count bits of the given value and start again at every other bit. -/
def countRun (b : Bitmap) (val : Bool) (count : ℕ) : ℕ → ℕ → ℕ → ℕ
  | 0,_,_ => invalidOffset
  | rest + 1,bit,okBits =>
    if b.getBit bit ≠ val then b.countRun val count rest (bit + 1) 0
    else if count ≤ okBits + 1 then bit - okBits
    else b.countRun val count rest (bit + 1) (okBits + 1)

/-- Offset of the first run of the given length and value. -/
def findFirstRun (b : Bitmap) (val : Bool) (count : ℕ) : ℕ :=
  if count = 0 then invalidOffset else
  let bit := b.skipDwords val b.dwordCount 0
  b.countRun val count (b.bitCount - bit) bit 0

end Bitmap

/-- Number of set bits. -/
def setCount (b : Bitmap) : ℕ := ((Finset.range b.bitCount).filter fun i => b.getBit i = true).card

/-- Number of clear bits. -/
def clearCount (b : Bitmap) : ℕ :=
  ((Finset.range b.bitCount).filter fun i => b.getBit i = false).card

/-- The ones are counted, and words and bits can be numbered in 32 bits. -/
structure WellCounted (b : Bitmap) : Prop where
  /-- The counter is right. -/
  ones : b.ones = setCount b
  /-- No number of a bit wraps. -/
  small : b.bitCount + 31 < 2 ^ 32

section

variable {b : Bitmap} {bit j n : ℕ} {val : Bool}

/-- Past the end every bit reads as zero. -/
theorem getBit_past (h : b.bitCount ≤ bit) : b.getBit bit = false := by
  rw [Bitmap.getBit,if_pos h]

/-- A set bit is below the end. -/
theorem lt_of_getBit (h : b.getBit bit = true) : bit < b.bitCount := by
  by_contra hge
  rw [getBit_past (by omega)] at h
  cases h

@[simp] theorem setBit_bitCount (b : Bitmap) (bit : ℕ) (val : Bool) :
    (b.setBit bit val).bitCount = b.bitCount := by
  unfold Bitmap.setBit
  split
  · rfl
  · dsimp only
    split <;> rfl

/-- Setting a bit changes that bit only. -/
theorem getBit_setBit (h : bit < b.bitCount) :
    (b.setBit bit val).getBit j = if j = bit then val else b.getBit j := by
  by_cases hj : b.bitCount ≤ j
  · rw [getBit_past (by simpa using hj),getBit_past hj,if_neg (by omega)]
  · have hlt : ¬b.bitCount ≤ bit := by omega
    rw [Bitmap.getBit,setBit_bitCount,if_neg hj,Bitmap.getBit,if_neg hj]
    have hmod : j % 32 < 32 := Nat.mod_lt _ (by decide)
    have hsame : j / 32 = bit / 32 → (j % 32 = bit % 32 ↔ j = bit) := by omega
    by_cases hd : j / 32 = bit / 32
    · cases val with
      | true =>
        simp only [Bitmap.setBit,if_neg hlt,if_true,hd,Function.update_self,BitVec.getLsbD_or,
          BitVec.getLsbD_twoPow]
        by_cases hb : j = bit
        · simp [hb,Nat.mod_lt]
        · have hm : j % 32 ≠ bit % 32 := fun e => hb ((hsame hd).mp e)
          simp [hb,Ne.symm hm]
      | false =>
        simp only [Bitmap.setBit,if_neg hlt,Bool.false_eq_true,if_false,hd,Function.update_self,
          BitVec.getLsbD_and,BitVec.getLsbD_not,BitVec.getLsbD_twoPow,hmod,decide_true,
          Bool.true_and]
        by_cases hb : j = bit
        · simp only [hb,decide_true,Bool.and_true,if_true]
          simp [Nat.mod_lt]
        · have hm : j % 32 ≠ bit % 32 := fun e => hb ((hsame hd).mp e)
          simp [hb,Ne.symm hm]
    · have hb : j ≠ bit := fun e => hd (by rw [e])
      rw [if_neg hb]
      cases val with
      | true => simp only [Bitmap.setBit,if_neg hlt,if_true,Function.update_of_ne hd]
      | false =>
        simp only [Bitmap.setBit,if_neg hlt,Bool.false_eq_true,if_false,Function.update_of_ne hd]

/-- The counter follows the bit. -/
theorem setBit_ones (h : bit < b.bitCount) :
    (b.setBit bit val).ones = if val then (if b.getBit bit then b.ones else (b.ones + 1) % 2 ^ 32)
      else (if b.getBit bit then (b.ones + (2 ^ 32 - 1)) % 2 ^ 32 else b.ones) := by
  have hlt : ¬b.bitCount ≤ bit := by omega
  cases val with
  | true => simp only [Bitmap.setBit,Bitmap.getBit,if_neg hlt,if_true]
  | false => simp only [Bitmap.setBit,Bitmap.getBit,if_neg hlt,Bool.false_eq_true,if_false]

/-- Set and clear bits together are all bits. -/
theorem setCount_add_clearCount (b : Bitmap) : setCount b + clearCount b = b.bitCount := by
  have h := Finset.card_filter_add_card_filter_not (s := Finset.range b.bitCount)
    (fun i => b.getBit i = true)
  simp only [Bool.not_eq_true,Finset.card_range] at h
  exact h

/-- Turning one clear bit on adds one to the set bits. -/
theorem setCount_insert {c : Bitmap} (hcount : c.bitCount = b.bitCount) (h : bit < b.bitCount)
    (hclear : b.getBit bit = false) (hset : c.getBit bit = true)
    (hother : ∀ j, j ≠ bit → c.getBit j = b.getBit j) : setCount c = setCount b + 1 := by
  have he : (Finset.range c.bitCount).filter (fun j => c.getBit j = true) =
      insert bit ((Finset.range b.bitCount).filter fun j => b.getBit j = true) := by
    ext j
    simp only [Finset.mem_filter,Finset.mem_range,Finset.mem_insert,hcount]
    by_cases hj : j = bit
    · subst hj
      simp [h,hset]
    · rw [hother j hj]
      simp [hj]
  rw [setCount,he,Finset.card_insert_of_notMem (by simp [hclear]),setCount]

/-- Setting a bit keeps the count. -/
theorem WellCounted.setBit (hb : WellCounted b) (bit : ℕ) (val : Bool) :
    WellCounted (b.setBit bit val) := by
  refine ⟨?_,by simpa using hb.small⟩
  by_cases hlt : bit < b.bitCount
  · have hle := setCount_add_clearCount b
    have hsmall := hb.small
    have hones := hb.ones
    have hget : ∀ j, (b.setBit bit val).getBit j = if j = bit then val else b.getBit j :=
      fun j => getBit_setBit hlt
    rw [setBit_ones hlt]
    cases hold : b.getBit bit with
    | true =>
      cases val with
      | true =>
        simp only [if_true]
        rw [hones,setCount,setCount,setBit_bitCount]
        congr 1
        apply Finset.filter_congr
        intro j _
        rw [hget j]
        split
        · next he => rw [he,hold]
        · rfl
      | false =>
        simp only [Bool.false_eq_true,if_false,if_true]
        have hdrop : setCount b = setCount (b.setBit bit false) + 1 :=
          setCount_insert (by simp) (by simpa using hlt) (by rw [hget,if_pos rfl]) hold
            (fun j hj => by rw [hget,if_neg hj])
        omega
    | false =>
      cases val with
      | true =>
        simp only [if_true,Bool.false_eq_true,if_false]
        have hadd : setCount (b.setBit bit true) = setCount b + 1 :=
          setCount_insert (by simp) hlt hold (by rw [hget,if_pos rfl])
            (fun j hj => by rw [hget,if_neg hj])
        omega
      | false =>
        simp only [Bool.false_eq_true,if_false]
        rw [hones,setCount,setCount,setBit_bitCount]
        congr 1
        apply Finset.filter_congr
        intro j _
        rw [hget j]
        split
        · next he => rw [he,hold]
        · rfl
  · rw [Bitmap.setBit,if_pos (by omega)]
    exact hb.ones

/-- A new bitmap is counted. -/
theorem wellCounted_new {bitCount : ℕ} (h : bitCount + 31 < 2 ^ 32) (set : Bool) :
    WellCounted (Bitmap.new bitCount set) := by
  refine ⟨?_,h⟩
  have hget : ∀ i < bitCount, (Bitmap.new bitCount set).getBit i = set := by
    intro i hi
    have hw : i / 32 < (bitCount + 31) % 2 ^ 32 / 32 := by omega
    have hm : i % 32 < 32 := Nat.mod_lt _ (by decide)
    simp only [Bitmap.getBit,Bitmap.new,if_neg (show ¬bitCount ≤ i by omega),hw,if_true]
    cases set with
    | true => simp only [if_true,BitVec.getLsbD_allOnes,hm,decide_true]
    | false => simp only [Bool.false_eq_true,if_false,BitVec.getLsbD_zero]
  show (if set then bitCount else 0) =
    ((Finset.range bitCount).filter fun i => (Bitmap.new bitCount set).getBit i = true).card
  cases set with
  | true =>
    rw [if_pos rfl,Finset.filter_true_of_mem fun i hi => hget i (Finset.mem_range.mp hi),
      Finset.card_range]
  | false =>
    rw [if_neg (by decide),Finset.filter_false_of_mem fun i hi => by
      rw [hget i (Finset.mem_range.mp hi)]; decide,Finset.card_empty]

end

/-- A search for one bit ended: at the first one of the given value, or there
is none. -/
def FoundFirst (b : Bitmap) (val : Bool) (r : ℕ) : Prop :=
  (r = invalidOffset ∧ ∀ j < b.bitCount, b.getBit j = !val) ∨
    (r < b.bitCount ∧ b.getBit r = val ∧ ∀ j < r, b.getBit j = !val)

/-- A run of bits of one value. -/
def IsRun (b : Bitmap) (val : Bool) (count start : ℕ) : Prop :=
  start + count ≤ b.bitCount ∧ ∀ i < count, b.getBit (start + i) = val

/-- A search for a run ended: at the first one, or there is none. -/
def FoundRun (b : Bitmap) (val : Bool) (count r : ℕ) : Prop :=
  (r = invalidOffset ∧ ∀ s, ¬IsRun b val count s) ∨
    (IsRun b val count r ∧ ∀ s < r, ¬IsRun b val count s)

section

variable {b : Bitmap} {v : BitVec 32}

/-- The search of a word for a clear bit. -/
theorem findInDword_clear : ∀ rest i, i + rest = 32 →
    (Bitmap.findInDword v false rest i = none ∧ ∀ m, i ≤ m → m < 32 → v.getLsbD m = true) ∨
    ∃ k, Bitmap.findInDword v false rest i = some k ∧ i ≤ k ∧ k < 32 ∧ v.getLsbD k = false ∧
      ∀ m, i ≤ m → m < k → v.getLsbD m = true := by
  intro rest
  induction rest with
  | zero =>
    intro i hi
    exact .inl ⟨rfl,fun m hl hu => absurd hu (by omega)⟩
  | succ rest ih =>
    intro i hi
    have hpow : BitVec.twoPow 32 i ≠ 0#32 := by
      intro he
      have := congrArg (fun x => x.getLsbD i) he
      simp only [BitVec.getLsbD_twoPow,BitVec.getLsbD_zero,decide_true,Bool.and_true,
        decide_eq_false_iff_not] at this
      omega
    rw [Bitmap.findInDword,BitVec.and_twoPow]
    cases hbit : v.getLsbD i with
    | false =>
      simp only [Bool.false_eq_true,if_false,if_true]
      exact .inr ⟨i,rfl,le_refl i,by omega,hbit,fun m hl hu => absurd hu (by omega)⟩
    | true =>
      simp only [if_true,Bool.false_eq_true,if_false,hpow]
      have hstep : ∀ m, i ≤ m → (i + 1 ≤ m → v.getLsbD m = true) → v.getLsbD m = true := by
        intro m hl hrest
        by_cases he : m = i
        · rw [he,hbit]
        · exact hrest (by omega)
      rcases ih (i + 1) (by omega) with ⟨hnone,hall⟩ | ⟨k,hk,hl,hu,hclear,hbelow⟩
      · exact .inl ⟨hnone,fun m hm hu => hstep m hm fun h => hall m h hu⟩
      · exact .inr ⟨k,hk,by omega,hu,hclear,fun m hm hlt => hstep m hm fun h => hbelow m h hlt⟩

/-- A bit of a word, below the end. -/
theorem getBit_word {j : ℕ} (h : j < b.bitCount) :
    b.getBit j = (b.bits (j / 32)).getLsbD (j % 32) := by
  rw [Bitmap.getBit,if_neg (by omega)]

/-- The word without a bit of one value has bits of the other. -/
theorem getLsbD_noneOf {val : Bool} {i : ℕ} (hi : i < 32) :
    (Bitmap.noneOf val).getLsbD i = !val := by
  cases val with
  | true =>
    rw [Bitmap.noneOf,if_pos rfl,BitVec.getLsbD_zero]
    rfl
  | false =>
    rw [Bitmap.noneOf,if_neg (by decide),BitVec.getLsbD_allOnes]
    exact decide_eq_true hi

/-- So do the bits of the bitmap in such a word. -/
theorem getBit_of_noneOf {val : Bool} {d j : ℕ} (hnone : b.bits d = Bitmap.noneOf val)
    (hj : j / 32 = d) (h : j < b.bitCount) : b.getBit j = !val := by
  rw [getBit_word h,hj,hnone]
  exact getLsbD_noneOf (Nat.mod_lt _ (by decide))

/-- The search for a clear bit from one word on. -/
theorem findFirstFrom_clear (hsmall : b.bitCount + 31 < 2 ^ 32) : ∀ rest d,
    d + rest = b.dwordCount → (∀ j < b.bitCount, j < 32 * d → b.getBit j = true) →
    FoundFirst b false (b.findFirstFrom false rest d) := by
  have hwords : b.dwordCount = (b.bitCount + 31) / 32 := by
    rw [Bitmap.dwordCount,Nat.mod_eq_of_lt hsmall]
  intro rest
  induction rest with
  | zero =>
    intro d hd hbefore
    exact .inl ⟨rfl,fun j hj => hbefore j hj (by omega)⟩
  | succ rest ih =>
    intro d hd hbefore
    rw [Bitmap.findFirstFrom]
    by_cases hfull : b.bits d = Bitmap.noneOf false
    · rw [if_pos hfull]
      apply ih (d + 1) (by omega)
      intro j hj hlt
      by_cases hin : j < 32 * d
      · exact hbefore j hj hin
      · exact getBit_of_noneOf hfull (by omega) hj
    · rw [if_neg hfull]
      rcases findInDword_clear (v := b.bits d) 32 0 (by decide) with
        ⟨hnone,hall⟩ | ⟨k,hk,-,hu,hclear,hbelow⟩
      · exfalso
        apply hfull
        apply BitVec.eq_of_getLsbD_eq
        intro i hi
        rw [hall i (by omega) hi,getLsbD_noneOf hi]
        rfl
      · -- bits before the one found are set, whichever side of the end it is on
        have hset : ∀ j < b.bitCount, j < d * 32 + k → b.getBit j = true := by
          intro j hj hlt
          by_cases hin : j < 32 * d
          · exact hbefore j hj hin
          · rw [getBit_word hj,show j / 32 = d by omega]
            exact hbelow _ (by omega) (by omega)
        simp only [hk]
        by_cases hend : b.bitCount ≤ d * 32 + k
        · rw [if_pos hend]
          exact .inl ⟨rfl,fun j hj => hset j hj (by omega)⟩
        · rw [if_neg hend]
          refine .inr ⟨by omega,?_,fun j hj => hset j (by omega) hj⟩
          rw [getBit_word (by omega),show (d * 32 + k) / 32 = d by omega,
            show (d * 32 + k) % 32 = k by omega,hclear]

/-- The search for a clear bit. -/
theorem findFirst_clear (hsmall : b.bitCount + 31 < 2 ^ 32) :
    FoundFirst b false (b.findFirst false) :=
  findFirstFrom_clear hsmall _ 0 (by omega) fun _ _ h => absurd h (by omega)

/-- The words skipped have no bit of the value looked for. -/
theorem skipDwords_spec {val : Bool} (hsmall : b.bitCount + 31 < 2 ^ 32) : ∀ rest d,
    d + rest = b.dwordCount → (∀ j < b.bitCount, j < 32 * d → b.getBit j = !val) →
    b.skipDwords val rest d ≤ b.bitCount ∧
    ∀ j < b.skipDwords val rest d, b.getBit j = !val := by
  have hwords : b.dwordCount = (b.bitCount + 31) / 32 := by
    rw [Bitmap.dwordCount,Nat.mod_eq_of_lt hsmall]
  intro rest
  induction rest with
  | zero =>
    intro d _ _
    exact ⟨Nat.zero_le _,fun j hj => absurd hj (Nat.not_lt_zero j)⟩
  | succ rest ih =>
    intro d hd hbefore
    rw [Bitmap.skipDwords]
    by_cases hnone : b.bits d = Bitmap.noneOf val
    · rw [if_neg (not_not_intro hnone)]
      apply ih (d + 1) (by omega)
      intro j hj hlt
      by_cases hin : j < 32 * d
      · exact hbefore j hj hin
      · exact getBit_of_noneOf hnone (by omega) hj
    · rw [if_pos hnone]
      exact ⟨by omega,fun j hj => hbefore j (by omega) (by omega)⟩

/-- Counting runs: what precedes the current run starts no long enough run. -/
theorem countRun_spec {val : Bool} {count : ℕ} : ∀ rest bit okBits, bit + rest = b.bitCount →
    okBits ≤ bit → okBits < count → (∀ i < okBits, b.getBit (bit - okBits + i) = val) →
    (∀ s < bit - okBits, ¬IsRun b val count s) →
    FoundRun b val count (b.countRun val count rest bit okBits) := by
  intro rest
  induction rest with
  | zero =>
    intro bit okBits hend hle hlt hrun hbefore
    refine .inl ⟨rfl,?_⟩
    intro s hs
    exact hbefore s (by have := hs.1; omega) hs
  | succ rest ih =>
    intro bit okBits hend hle hlt hrun hbefore
    rw [Bitmap.countRun]
    by_cases hbit : b.getBit bit = val
    · rw [if_neg (not_not_intro hbit)]
      have hrun' : ∀ i < okBits + 1, b.getBit (bit - okBits + i) = val := by
        intro i hi
        by_cases he : i = okBits
        · rw [he,Nat.sub_add_cancel hle,hbit]
        · exact hrun i (by omega)
      by_cases hdone : count ≤ okBits + 1
      · rw [if_pos hdone]
        exact .inr ⟨⟨by omega,fun i hi => hrun' i (by omega)⟩,hbefore⟩
      · rw [if_neg hdone]
        apply ih (bit + 1) (okBits + 1) (by omega) (by omega) (by omega)
        · rw [show bit + 1 - (okBits + 1) = bit - okBits by omega]
          exact hrun'
        · rw [show bit + 1 - (okBits + 1) = bit - okBits by omega]
          exact hbefore
    · rw [if_pos hbit]
      apply ih (bit + 1) 0 (by omega) (by omega) (by omega)
      · intro i hi
        exact absurd hi (Nat.not_lt_zero i)
      · intro s hs hsrun
        by_cases hearly : s < bit - okBits
        · exact hbefore s hearly hsrun
        · -- a run that starts in the current one would contain this bit
          apply hbit
          have := hsrun.2 (bit - s) (by omega)
          rwa [show s + (bit - s) = bit by omega] at this

/-- The search for a run. -/
theorem findFirstRun_spec (hsmall : b.bitCount + 31 < 2 ^ 32) (val : Bool) {count : ℕ}
    (hcount : 0 < count) : FoundRun b val count (b.findFirstRun val count) := by
  obtain ⟨hle,hskip⟩ := @skipDwords_spec b val hsmall b.dwordCount 0 (by omega)
    fun j _ h => absurd h (by omega)
  rw [Bitmap.findFirstRun,if_neg (by omega)]
  apply countRun_spec
  · omega
  · exact Nat.zero_le _
  · exact hcount
  · intro i hi
    exact absurd hi (Nat.not_lt_zero i)
  · intro s hs hrun
    have hfirst := hrun.2 0 hcount
    rw [Nat.add_zero,hskip s (by omega)] at hfirst
    cases val <;> cases hfirst

end

end WootOs.FrameBitmap
