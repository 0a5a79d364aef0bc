import WootOs.FrameBitmap
import Mathlib.Order.Nat
import Mathlib.Data.Nat.Count

/-!
# The four searches of the bitmap

Two searches go up from the first word and two go down from the last bit, each
for a single bit or for a run. Which of them find what they look for is said
by the bits alone. The search for a single bit compares the masked bit with a
truth value, so it sees a set bit only at the start of a word. The downward
search for a run never forgets the bits it has counted, so it finds the last
run only where the last bits of the value stand together.
-/

namespace WootOs.FrameBitmap

namespace Bitmap

/-- Search the bits below the given one downwards. -/
def findLastFrom (b : Bitmap) (val : Bool) : ℕ → ℕ
  | 0 => invalidOffset
  | bit + 1 => if b.getBit bit = val then bit else b.findLastFrom val bit

/-- Offset of the last bit of the given value. -/
def findLast (b : Bitmap) (val : Bool) : ℕ := b.findLastFrom val b.bitCount

/-- Count bits of the given value downwards. The counter is not cleared at
another bit. -/
def countDown (b : Bitmap) (val : Bool) (count : ℕ) : ℕ → ℕ → ℕ
  | 0,_ => invalidOffset
  | bit + 1,okBits =>
    let okBits := if b.getBit bit = val then okBits + 1 else okBits
    if count ≤ okBits then bit else b.countDown val count bit okBits

/-- Offset where the downward count is reached. -/
def findLastRun (b : Bitmap) (val : Bool) (count : ℕ) : ℕ := b.countDown val count b.bitCount 0

end Bitmap

/-- A search for the last bit of the given value ended: at it, or there is
none. -/
def FoundLast (b : Bitmap) (val : Bool) (r : ℕ) : Prop :=
  (r = invalidOffset ∧ ∀ j < b.bitCount, b.getBit j = !val) ∨
    (r < b.bitCount ∧ b.getBit r = val ∧ ∀ j < b.bitCount, r < j → b.getBit j = !val)

/-- A search for the last run ended: at it, or there is none. -/
def FoundLastRun (b : Bitmap) (val : Bool) (count r : ℕ) : Prop :=
  (r = invalidOffset ∧ ∀ s, ¬IsRun b val count s) ∨
    (IsRun b val count r ∧ ∀ s, r < s → ¬IsRun b val count s)

/-- Every search returns what it is named after. -/
structure SearchesRight (b : Bitmap) (val : Bool) (count : ℕ) : Prop where
  /-- The first bit. -/
  first : FoundFirst b val (b.findFirst val)
  /-- The first run. -/
  firstRun : FoundRun b val count (b.findFirstRun val count)
  /-- The last bit. -/
  last : FoundLast b val (b.findLast val)
  /-- The last run. -/
  lastRun : FoundLastRun b val count (b.findLastRun val count)

/-- How many of the bits below an offset have the given value. -/
abbrev countBelow (b : Bitmap) (val : Bool) (n : ℕ) : ℕ := Nat.count (fun j => b.getBit j = val) n

/-- The first bit of the value is one the search can see: the words are
numbered, and a first set bit starts a word. -/
def FirstVisible (b : Bitmap) (val : Bool) : Prop :=
  ∀ j < b.bitCount, b.getBit j = val → (∀ i < j, b.getBit i = !val) →
    b.bitCount + 31 < 2 ^ 32 ∧ (val = true → j % 32 = 0)

/-- The last bits of the value stand together, as many as are looked for, or
there are fewer of them. -/
def LastTogether (b : Bitmap) (val : Bool) (count : ℕ) : Prop :=
  countBelow b val b.bitCount < count ∨
    ∃ p, IsRun b val count p ∧ ∀ j < b.bitCount, p + count ≤ j → b.getBit j = !val

section

variable {b : Bitmap} {v : BitVec 32} {val : Bool} {count : ℕ}

/-- A bit that has not the value has the other one. -/
theorem getBit_not {j : ℕ} (h : b.getBit j ≠ val) : b.getBit j = !val := by
  cases val <;> simpa using h

/-- A bit has not both values. -/
theorem getBit_ne {j : ℕ} (h : b.getBit j = !val) : b.getBit j ≠ val := by
  rw [h]
  cases val <;> decide

/-- Either no bit of the value is there, or one of them is the first. -/
theorem none_or_first (b : Bitmap) (val : Bool) : (∀ j < b.bitCount, b.getBit j = !val) ∨
    ∃ j < b.bitCount, b.getBit j = val ∧ ∀ i < j, b.getBit i = !val := by
  by_cases hex : ∃ j, j < b.bitCount ∧ b.getBit j = val
  · classical
    have hfirst := Nat.find_spec hex
    refine .inr ⟨Nat.find hex,hfirst.1,hfirst.2,?_⟩
    intro i hi
    exact getBit_not fun h => Nat.find_min hex hi ⟨by omega,h⟩
  · exact .inl fun j hj => getBit_not fun h => hex ⟨j,hj,h⟩

/-- Past the first bit of a word a masked bit is never one. -/
theorem findInDword_set : ∀ rest i, 0 < i → i + rest = 32 →
    Bitmap.findInDword v true rest i = none := by
  intro rest
  induction rest with
  | zero =>
    intro i _ _
    rfl
  | succ rest ih =>
    intro i hpos hi
    have hne : v &&& BitVec.twoPow 32 i ≠ 1#32 := by
      intro he
      have hbit := congrArg (fun x => x.getLsbD 0) he
      simp only [BitVec.getLsbD_and,BitVec.getLsbD_twoPow] at hbit
      simp [show i ≠ 0 by omega] at hbit
    rw [Bitmap.findInDword,if_pos rfl,if_neg hne]
    exact ih (i + 1) (by omega) (by omega)

/-- The search of a word for a set bit sees its first bit only. -/
theorem findInDword_true : Bitmap.findInDword v true 32 0 = if v.getLsbD 0 then some 0 else none := by
  rw [Bitmap.findInDword,if_pos rfl,BitVec.and_twoPow]
  cases hbit : v.getLsbD 0 with
  | true => rfl
  | false =>
    rw [if_neg (by decide),if_neg (by decide)]
    exact findInDword_set 31 1 (by omega) (by omega)

/-- The search for a set bit returns a first bit of a word, or none of these
is set. -/
theorem findFirstFrom_set (hsmall : b.bitCount + 31 < 2 ^ 32) : ∀ rest d,
    d + rest = b.dwordCount →
    (b.findFirstFrom true rest d = invalidOffset ∧
      ∀ e, d ≤ e → e < b.dwordCount → b.getBit (32 * e) = false) ∨
    ∃ e, d ≤ e ∧ e < b.dwordCount ∧ b.findFirstFrom true rest d = 32 * e ∧
      b.getBit (32 * e) = true ∧ ∀ m, d ≤ m → m < e → b.getBit (32 * m) = false := by
  have hwords : b.dwordCount = (b.bitCount + 31) / 32 := by
    rw [Bitmap.dwordCount,Nat.mod_eq_of_lt hsmall]
  intro rest
  induction rest with
  | zero =>
    intro d hd
    exact .inl ⟨rfl,fun e hl hu => absurd hu (by omega)⟩
  | succ rest ih =>
    intro d hd
    have hword : b.getBit (32 * d) = (b.bits d).getLsbD 0 := by
      rw [getBit_word (by omega),show 32 * d / 32 = d by omega,show 32 * d % 32 = 0 by omega]
    -- a word without its first bit is passed, whether or not it is empty
    have hpass : b.getBit (32 * d) = false →
        b.findFirstFrom true (rest + 1) d = b.findFirstFrom true rest (d + 1) := by
      intro hclear
      rw [Bitmap.findFirstFrom]
      by_cases hnone : b.bits d = Bitmap.noneOf true
      · rw [if_pos hnone]
      · rw [if_neg hnone,findInDword_true,← hword,hclear]
        rfl
    cases hbit : b.getBit (32 * d) with
    | true =>
      refine .inr ⟨d,le_refl d,by omega,?_,hbit,fun m hl hu => absurd hu (by omega)⟩
      have hsome : b.bits d ≠ Bitmap.noneOf true := by
        intro he
        rw [hword,he,getLsbD_noneOf (by decide)] at hbit
        cases hbit
      rw [Bitmap.findFirstFrom,if_neg hsome,findInDword_true,← hword,hbit]
      simp only [if_true]
      rw [if_neg (by omega)]
      omega
    | false =>
      have hstep : ∀ m, d ≤ m → (d + 1 ≤ m → b.getBit (32 * m) = false) →
          b.getBit (32 * m) = false := by
        intro m hl hrest
        by_cases he : m = d
        · rw [he,hbit]
        · exact hrest (by omega)
      rw [hpass hbit]
      rcases ih (d + 1) (by omega) with ⟨hnone,hall⟩ | ⟨e,hl,hu,hres,hset,hbelow⟩
      · exact .inl ⟨hnone,fun m hm hlt => hstep m hm fun h => hall m h hlt⟩
      · exact .inr ⟨e,by omega,hu,hres,hset,fun m hm hlt => hstep m hm fun h => hbelow m h hlt⟩

/-- The search for a set bit is right where the first one starts a word. -/
theorem findFirst_set (hsmall : b.bitCount + 31 < 2 ^ 32) :
    FoundFirst b true (b.findFirst true) ↔
      ∀ j < b.bitCount, b.getBit j = true → (∀ i < j, b.getBit i = false) → j % 32 = 0 := by
  have hwords : b.dwordCount = (b.bitCount + 31) / 32 := by
    rw [Bitmap.dwordCount,Nat.mod_eq_of_lt hsmall]
  have hspec := findFirstFrom_set hsmall b.dwordCount 0 (by omega)
  change (b.findFirst true = _ ∧ _) ∨ (∃ e, _ ∧ _ ∧ b.findFirst true = _ ∧ _) at hspec
  constructor
  · intro hfound j hj hset hbefore
    rcases hspec with ⟨hres,-⟩ | ⟨e,-,he,hres,-,-⟩
    · rcases hfound with ⟨-,hnone⟩ | ⟨hlt,hget,-⟩
      · exact absurd hset (getBit_ne (hnone j hj))
      · -- the invalid offset is no offset of a bit
        rw [hres,invalidOffset] at hlt
        omega
    · rcases hfound with ⟨hinv,-⟩ | ⟨hlt,hget,hfirst⟩
      · rw [hinv,invalidOffset] at hres
        omega
      · rw [hres] at hlt hget hfirst
        have heq : j = 32 * e := by
          rcases Nat.lt_trichotomy j (32 * e) with hl | hl | hl
          · exact absurd hset (getBit_ne (hfirst j hl))
          · exact hl
          · rw [hbefore _ hl] at hget
            cases hget
        omega
  · intro hword
    rcases none_or_first b true with hnone | ⟨j,hj,hset,hbefore⟩
    · refine .inl ⟨?_,hnone⟩
      rcases hspec with ⟨hres,-⟩ | ⟨e,-,he,-,hset,-⟩
      · exact hres
      · exact absurd hset (getBit_ne (hnone _ (by omega)))
    · have hmod := hword j hj hset hbefore
      have hj32 : 32 * (j / 32) = j := by omega
      rcases hspec with ⟨-,hall⟩ | ⟨e,-,he,hres,hset',hbelow⟩
      · have hclear := hall (j / 32) (Nat.zero_le _) (by omega)
        rw [hj32,hset] at hclear
        cases hclear
      · have heq : 32 * e = j := by
          rcases Nat.lt_trichotomy e (j / 32) with hl | hl | hl
          · rw [hbefore (32 * e) (by omega)] at hset'
            cases hset'
          · omega
          · have hclear := hbelow (j / 32) (Nat.zero_le _) hl
            rw [hj32,hset] at hclear
            cases hclear
        rw [hres,heq]
        exact .inr ⟨hj,hset,hbefore⟩

/-- Without a word that is numbered the search finds nothing. -/
theorem findFirst_unnumbered (hfit : b.bitCount < 2 ^ 32) (hbig : 2 ^ 32 ≤ b.bitCount + 31) :
    b.findFirst val = invalidOffset := by
  have hwords : b.dwordCount = 0 := by
    rw [Bitmap.dwordCount]
    omega
  rw [Bitmap.findFirst,hwords]
  rfl

/-- The search for the first bit is right where that bit can be seen. -/
theorem findFirst_right (hfit : b.bitCount < 2 ^ 32) :
    FoundFirst b val (b.findFirst val) ↔ FirstVisible b val := by
  by_cases hsmall : b.bitCount + 31 < 2 ^ 32
  · cases val with
    | true =>
      rw [findFirst_set hsmall]
      simp only [FirstVisible,hsmall,true_and,Bool.not_true,forall_const]
    | false =>
      refine iff_of_true (findFirst_clear hsmall) ?_
      intro j _ _ _
      exact ⟨hsmall,fun h => by cases h⟩
  · rw [findFirst_unnumbered hfit (by omega)]
    constructor
    · intro hfound j hj hval hbefore
      rcases hfound with ⟨-,hnone⟩ | ⟨hlt,-⟩
      · exact absurd hval (getBit_ne (hnone j hj))
      · rw [invalidOffset] at hlt
        omega
    · intro hvisible
      rcases none_or_first b val with hnone | ⟨j,hj,hval,hbefore⟩
      · exact .inl ⟨rfl,hnone⟩
      · exact absurd (hvisible j hj hval hbefore).1 hsmall

/-- The search for the first run is right also where no word is numbered. -/
theorem findFirstRun_right (hfit : b.bitCount < 2 ^ 32) (hcount : 0 < count) :
    FoundRun b val count (b.findFirstRun val count) := by
  by_cases hsmall : b.bitCount + 31 < 2 ^ 32
  · exact findFirstRun_spec hsmall val hcount
  · have hwords : b.dwordCount = 0 := by
      rw [Bitmap.dwordCount]
      omega
    rw [Bitmap.findFirstRun,if_neg (by omega),hwords]
    apply countRun_spec
    · exact Nat.add_sub_cancel' (Nat.zero_le _)
    · exact Nat.zero_le _
    · exact hcount
    · intro i hi
      exact absurd hi (Nat.not_lt_zero i)
    · intro s hs
      exact absurd hs (Nat.not_lt_zero s)

/-- The downward search for a bit. -/
theorem findLastFrom_spec : ∀ bit ≤ b.bitCount,
    (∀ j < b.bitCount, bit ≤ j → b.getBit j = !val) → FoundLast b val (b.findLastFrom val bit) := by
  intro bit
  induction bit with
  | zero =>
    intro _ habove
    exact .inl ⟨rfl,fun j hj => habove j hj (Nat.zero_le j)⟩
  | succ bit ih =>
    intro hle habove
    rw [Bitmap.findLastFrom]
    by_cases hbit : b.getBit bit = val
    · rw [if_pos hbit]
      exact .inr ⟨by omega,hbit,fun j hj hlt => habove j hj hlt⟩
    · rw [if_neg hbit]
      apply ih (by omega)
      intro j hj hl
      by_cases he : j = bit
      · rw [he]
        exact getBit_not hbit
      · exact habove j hj (by omega)

/-- The downward search for a bit is right. -/
theorem findLast_right : FoundLast b val (b.findLast val) :=
  findLastFrom_spec b.bitCount le_rfl fun _ hj hl => absurd hl (by omega)

/-- The downward count ends at a bit of the value from which on there are as
many as were looked for, or there are fewer of them altogether. -/
theorem countDown_spec : ∀ bit okBits, okBits < count →
    okBits + countBelow b val bit = countBelow b val b.bitCount → bit ≤ b.bitCount →
    (b.countDown val count bit okBits = invalidOffset ∧ countBelow b val b.bitCount < count) ∨
    ∃ p < bit, b.countDown val count bit okBits = p ∧ b.getBit p = val ∧
      count + countBelow b val p = countBelow b val b.bitCount := by
  intro bit
  induction bit with
  | zero =>
    intro okBits hlt hsum _
    rw [countBelow,Nat.count_zero] at hsum
    exact .inl ⟨rfl,by omega⟩
  | succ bit ih =>
    intro okBits hlt hsum hle
    rw [countBelow,Nat.count_succ] at hsum
    rw [Bitmap.countDown]
    by_cases hbit : b.getBit bit = val
    · simp only [hbit,if_true] at hsum ⊢
      by_cases hdone : count ≤ okBits + 1
      · rw [if_pos hdone]
        exact .inr ⟨bit,by omega,rfl,hbit,by rw [countBelow]; omega⟩
      · rw [if_neg hdone]
        rcases ih (okBits + 1) (by omega) (by rw [countBelow]; omega) (by omega) with
          hnone | ⟨p,hp,hres⟩
        · exact .inl hnone
        · exact .inr ⟨p,by omega,hres⟩
    · simp only [hbit,if_false] at hsum ⊢
      rw [if_neg (by omega)]
      rcases ih okBits hlt (by rw [countBelow]; omega) (by omega) with hnone | ⟨p,hp,hres⟩
      · exact .inl hnone
      · exact .inr ⟨p,by omega,hres⟩

/-- A run adds its length to the count. -/
theorem countBelow_run {p : ℕ} (hrun : ∀ i < count, b.getBit (p + i) = val) :
    countBelow b val (p + count) = countBelow b val p + count := by
  rw [countBelow,Nat.count_add,Nat.add_left_cancel_iff,Nat.count_iff_forall]
  exact hrun

/-- Bits of the other value add nothing. -/
theorem countBelow_rest {p n : ℕ} (hrest : ∀ j < n, p ≤ j → b.getBit j = !val) (hle : p ≤ n) :
    countBelow b val n = countBelow b val p := by
  obtain ⟨k,rfl⟩ := Nat.exists_eq_add_of_le hle
  rw [countBelow,Nat.count_add,Nat.add_eq_left,Nat.count_iff_forall_not]
  intro i hi
  exact getBit_ne (hrest (p + i) (by omega) (by omega))

/-- A run lies within the count of all bits. -/
theorem count_le_of_run {p : ℕ} (hrun : IsRun b val count p) :
    countBelow b val p + count ≤ countBelow b val b.bitCount := by
  rw [← countBelow_run hrun.2]
  exact Nat.count_monotone _ hrun.1

/-- The downward search for a run is right where the last bits of the value
stand together. -/
theorem findLastRun_right (hfit : b.bitCount < 2 ^ 32) (hcount : 0 < count) :
    FoundLastRun b val count (b.findLastRun val count) ↔ LastTogether b val count := by
  rcases countDown_spec b.bitCount 0 hcount (Nat.zero_add _) le_rfl with
    ⟨hres,hfew⟩ | ⟨p,hp,hres,hval,hsum⟩
  · -- there is no run, and the search says so
    refine iff_of_true (.inl ⟨hres,?_⟩) (.inl hfew)
    intro s hrun
    have := count_le_of_run hrun
    omega
  · rw [Bitmap.findLastRun,hres]
    constructor
    · rintro (⟨hinv,-⟩ | ⟨hrun,-⟩)
      · rw [invalidOffset] at hinv
        omega
      · refine .inr ⟨p,hrun,?_⟩
        intro j hj hl
        refine getBit_not fun h => ?_
        have hbelow := Nat.count_monotone (fun j => b.getBit j = val) hl
        have hstrict := Nat.count_strict_mono (p := fun j => b.getBit j = val) h hj
        have := countBelow_run hrun.2
        simp only [countBelow] at *
        omega
    · rintro (hfew | ⟨q,hrun,hrest⟩)
      · omega
      · have hq := countBelow_run hrun.2
        have hall := countBelow_rest hrest hrun.1
        have heq : p = q := Nat.count_injective hval (by simpa using hrun.2 0 hcount)
          (show countBelow b val p = countBelow b val q by omega)
        subst heq
        refine .inr ⟨hrun,?_⟩
        intro s hs hlater
        -- a later run would need more bits of the value than there are
        have hmore := count_le_of_run hlater
        have hstrict := Nat.count_strict_mono (p := fun j => b.getBit j = val) hval hs
        simp only [countBelow] at *
        omega

/-- The four searches are right together exactly where the first bit of the
value can be seen and its last bits stand together. -/
theorem searches_right_iff (b : Bitmap) (val : Bool) (count : ℕ) (hfit : b.bitCount < 2 ^ 32)
    (hcount : 0 < count) :
    SearchesRight b val count ↔ FirstVisible b val ∧ LastTogether b val count :=
  ⟨fun h => ⟨(findFirst_right hfit).mp h.first,(findLastRun_right hfit hcount).mp h.lastRun⟩,
    fun h => ⟨(findFirst_right hfit).mpr h.1,findFirstRun_right hfit hcount,findLast_right,
      (findLastRun_right hfit hcount).mpr h.2⟩⟩

end

/-- Eight bits, of which only the second one is set. -/
def secondBit : Bitmap where
  bitCount := 8
  bits := fun _ => 2#32
  ones := 1

/-- Of eight clear bits the first can be seen and the last stand together. -/
theorem searches_right_iff_clear :
    SearchesRight (Bitmap.new 8 false) false 3 ↔
      FirstVisible (Bitmap.new 8 false) false ∧ LastTogether (Bitmap.new 8 false) false 3 :=
  searches_right_iff _ _ _ (by decide) (by decide)

/-- The search for the first set bit does not find a second bit, and the search
for the last run of seven clear bits counts across it. -/
theorem second_bit_missed : secondBit.findFirst true = invalidOffset ∧
    secondBit.getBit 1 = true ∧ ¬SearchesRight secondBit true 1 ∧
    secondBit.findLastRun false 7 = 0 ∧ ¬IsRun secondBit false 7 0 := by
  have hmissed : secondBit.findFirst true = invalidOffset := by decide
  refine ⟨hmissed,by decide,?_,by decide,?_⟩
  · intro hright
    rcases hright.first with ⟨-,hnone⟩ | ⟨hlt,-⟩
    · exact absurd (hnone 1 (by decide)) (by decide)
    · rw [hmissed] at hlt
      exact absurd hlt (by decide)
  · intro hrun
    exact absurd (hrun.2 1 (by decide)) (by decide)

end WootOs.FrameBitmap
