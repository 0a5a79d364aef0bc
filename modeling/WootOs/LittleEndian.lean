import WootOs.ByteMemory

/-!
# Numbers in memory

A number of n bytes stands at an address with its low byte first. Reads and
writes of words are the cases of two and four bytes, and a word that is written
back with its high byte as it was is a number of three bytes.
-/

namespace WootOs.ByteMemory

/-- The number in n bytes from an address on. -/
def readNat (m : Memory) : ℕ → Word → ℕ
  | 0,_ => 0
  | n + 1,a => (m a).toNat + 256 * readNat m n (a + 1)

/-- Write a number into n bytes. -/
def writeNat (m : Memory) (a : Word) (n v : ℕ) : Memory := fun x =>
  if InRange a n x then BitVec.ofNat 8 (v / 256 ^ (x - a).toNat) else m x

/-- Write two bytes, low byte first. -/
def write16 (m : Memory) (a : Word) (v : BitVec 16) : Memory :=
  Function.update (Function.update m a (v.extractLsb' 0 8)) (a + 1) (v.extractLsb' 8 8)

section Numbers

variable {m m' : Memory} {a b : Word} {n k v w : ℕ}

theorem readNat_zero (m : Memory) (a : Word) : readNat m 0 a = 0 := (rfl)

theorem readNat_succ (m : Memory) (n : ℕ) (a : Word) :
    readNat m (n + 1) a = (m a).toNat + 256 * readNat m n (a + 1) := (rfl)

/-- The number fits into its bytes. -/
theorem readNat_lt (m : Memory) (n : ℕ) (a : Word) : readNat m n a < 256 ^ n := by
  induction n generalizing a with
  | zero => simp [readNat_zero]
  | succ n ih =>
    have hbyte : (m a).toNat < 256 := (m a).isLt
    have hrest := ih (a + 1)
    rw [readNat_succ,pow_succ]
    omega

/-- Bytes of zero make zero. -/
theorem readNat_zeros (n : ℕ) (a : Word) : readNat (fun _ => 0) n a = 0 := by
  induction n generalizing a with
  | zero => rfl
  | succ n ih =>
    rw [readNat_succ,ih]
    rfl

/-- The number depends on its bytes only. -/
theorem readNat_congr (h : ∀ x,InRange a n x → m' x = m x) : readNat m' n a = readNat m n a := by
  induction n generalizing a with
  | zero => rfl
  | succ n ih =>
    have hfirst : InRange a (n + 1) a := by
      rw [InRange,BitVec.sub_self]
      simp
    rw [readNat_succ,readNat_succ,h a hfirst,ih]
    intro x hx
    refine h x ?_
    rw [InRange] at hx ⊢
    bv_omega

/-- A write leaves what is beside it. -/
theorem writeNat_of_not {x : Word} (h : ¬InRange a n x) : writeNat m a n v x = m x := by
  rw [writeNat,if_neg h]

/-- A number beside the one that is written. -/
theorem readNat_writeNat_apart (h : ∀ x,InRange a n x → ¬InRange b k x) :
    readNat (writeNat m a n v) k b = readNat m k b :=
  readNat_congr fun x hx => writeNat_of_not fun hx' => h x hx' hx

/-- Some bytes of a number that was written. -/
theorem readNat_writeNat_part (hn : n ≤ 2 ^ 32) {i : ℕ} (hi : i + k ≤ n) :
    readNat (writeNat m a n v) k (a + BitVec.ofNat 32 i) = v / 256 ^ i % 256 ^ k := by
  induction k generalizing i with
  | zero => simp [readNat_zero,Nat.mod_one]
  | succ k ih =>
    have hnext : a + BitVec.ofNat 32 i + 1 = a + BitVec.ofNat 32 (i + 1) := by
      rw [BitVec.ofNat_add]
      bv_omega
    have hat : (a + BitVec.ofNat 32 i - a).toNat = i := by bv_omega
    have hbyte : (writeNat m a n v (a + BitVec.ofNat 32 i)).toNat = v / 256 ^ i % 256 := by
      rw [writeNat,if_pos (by rw [InRange,hat]; omega),hat,BitVec.toNat_ofNat]
    rw [readNat_succ,hbyte,hnext,ih (by omega),pow_succ,← Nat.div_div_eq_div_mul,Nat.pow_succ',
      Nat.mod_mul]

/-- A number that was written is read back. -/
theorem readNat_writeNat (hn : n ≤ 2 ^ 32) : readNat (writeNat m a n v) n a = v % 256 ^ n := by
  have h := readNat_writeNat_part (m := m) (a := a) (v := v) (k := n) hn (i := 0) (by omega)
  simpa using h

/-- The bytes of a number. -/
theorem readNat_byte {x : Word} (h : InRange a n x) :
    readNat m n a / 256 ^ (x - a).toNat % 256 = (m x).toNat := by
  induction n generalizing a with
  | zero => exact absurd h (Nat.not_lt_zero _)
  | succ n ih =>
    have hbyte : (m a).toNat < 256 := (m a).isLt
    rw [readNat_succ]
    by_cases hx : x = a
    · rw [hx,BitVec.sub_self]
      simp only [BitVec.toNat_zero,pow_zero,Nat.div_one]
      omega
    · have hstep : (x - a).toNat = (x - (a + 1)).toNat + 1 := by bv_omega
      rw [InRange,hstep] at h
      rw [hstep,Nat.pow_succ',← Nat.div_div_eq_div_mul,Nat.add_mul_div_left _ _ (by decide),
        Nat.div_eq_of_lt hbyte,Nat.zero_add]
      exact ih (Nat.lt_of_succ_lt_succ h)

/-- Numbers are equal exactly when their bytes are. -/
theorem readNat_eq_iff : readNat m' n a = readNat m n b ↔
    ∀ i < n,m' (a + BitVec.ofNat 32 i) = m (b + BitVec.ofNat 32 i) := by
  induction n generalizing a b with
  | zero => exact ⟨fun _ i hi => absurd hi (Nat.not_lt_zero i),fun _ => rfl⟩
  | succ n ih =>
    have hnext : ∀ (a : Word) i,a + 1 + BitVec.ofNat 32 i = a + BitVec.ofNat 32 (i + 1) := by
      intro a i
      rw [BitVec.ofNat_add]
      bv_omega
    have hlt := (m' a).isLt
    have hlt' := (m b).isLt
    rw [readNat_succ,readNat_succ]
    constructor
    · intro h i hi
      have hfirst : m' a = m b := BitVec.eq_of_toNat_eq (by omega)
      have hrest : readNat m' n (a + 1) = readNat m n (b + 1) := by omega
      cases i with
      | zero => simpa using hfirst
      | succ i =>
        rw [← hnext,← hnext]
        exact ih.mp hrest i (Nat.lt_of_succ_lt_succ hi)
    · intro h
      have hfirst : m' a = m b := by simpa using h 0 (Nat.succ_pos n)
      have hrest : readNat m' n (a + 1) = readNat m n (b + 1) := by
        refine ih.mpr fun i hi => ?_
        rw [hnext,hnext]
        exact h (i + 1) (Nat.succ_lt_succ hi)
      rw [hfirst,hrest]

/-- Only so many bytes of the number matter. -/
theorem writeNat_mod (m : Memory) (a : Word) (n v : ℕ) :
    writeNat m a n (v % 256 ^ n) = writeNat m a n v := by
  funext x
  rw [writeNat,writeNat]
  split_ifs with h
  · have hpow : 256 ^ n = 256 ^ (x - a).toNat * 256 ^ (n - (x - a).toNat) := by
      rw [← pow_add,Nat.add_sub_cancel' (Nat.le_of_lt h)]
    refine BitVec.eq_of_toNat_eq ?_
    rw [BitVec.toNat_ofNat,BitVec.toNat_ofNat,hpow,Nat.mod_mul_right_div_self]
    refine Nat.mod_mod_of_dvd _ (dvd_pow_self 256 ?_)
    rw [InRange] at h
    omega
  · rfl

/-- Nothing is written. -/
theorem writeNat_zero (m : Memory) (a : Word) (v : ℕ) : writeNat m a 0 v = m :=
  funext fun _ => writeNat_of_not (Nat.not_lt_zero _)

/-- The last byte is written after the others. -/
theorem writeNat_succ (hn : n < 2 ^ 32) : writeNat m a (n + 1) v =
    Function.update (writeNat m a n v) (a + BitVec.ofNat 32 n) (BitVec.ofNat 8 (v / 256 ^ n)) := by
  funext x
  rw [Function.update_apply]
  by_cases hx : x = a + BitVec.ofNat 32 n
  · have hat : (x - a).toNat = n := by bv_omega
    rw [if_pos hx,writeNat,if_pos (by rw [InRange,hat]; exact Nat.lt_succ_self n),hat]
  · have hat : (x - a).toNat ≠ n := by bv_omega
    rw [if_neg hx,writeNat,writeNat]
    by_cases hin : InRange a n x
    · have hin' : InRange a (n + 1) x := Nat.lt_succ_of_lt hin
      rw [if_pos hin,if_pos hin']
    · rw [if_neg hin,if_neg]
      rw [InRange] at hin ⊢
      omega

end Numbers

section Words

variable {m : Memory} {a : Word}

/-- Four bytes as a word. -/
theorem read32_toNat (m : Memory) (a : Word) : (read32 m a).toNat = readNat m 4 a := by
  have h₂ : a + 1 + 1 = a + 2 := by bv_omega
  have h₃ : a + 2 + 1 = a + 3 := by bv_omega
  have hm := fun x => (m x).isLt
  simp only [read32,BitVec.toNat_append,readNat_succ,readNat_zero,h₂,h₃]
  rw [← Nat.shiftLeft_add_eq_or_of_lt (hm _),← Nat.shiftLeft_add_eq_or_of_lt (hm _),
    ← Nat.shiftLeft_add_eq_or_of_lt (hm _)]
  simp only [Nat.shiftLeft_eq]
  omega

/-- Two bytes as a word. -/
theorem read16_toNat (m : Memory) (a : Word) : (read16 m a).toNat = readNat m 2 a := by
  simp only [read16,BitVec.toNat_append,readNat_succ,readNat_zero]
  rw [← Nat.shiftLeft_add_eq_or_of_lt (m a).isLt,Nat.shiftLeft_eq]
  omega

/-- One byte. -/
theorem readNat_one (m : Memory) (a : Word) : readNat m 1 a = (m a).toNat := by
  rw [readNat_succ,readNat_zero,Nat.mul_zero,Nat.add_zero]

/-- The high byte of a word beside three others. -/
theorem toNat_high (w v : Word) (hv : v.toNat < 2 ^ 24) :
    (w &&& 0xFF000000#32 ||| v).toNat = w.toNat / 2 ^ 24 * 2 ^ 24 + v.toNat := by
  have hmask : w.toNat &&& 0xFF000000 = 2 ^ 24 * (w.toNat / 2 ^ 24) := by
    refine Nat.eq_of_testBit_eq fun i => ?_
    rw [Nat.testBit_and,show 0xFF000000 = (2 ^ 8 - 1) * 2 ^ 24 from rfl,Nat.mul_comm (2 ^ 24),
      Nat.testBit_mul_two_pow,Nat.testBit_mul_two_pow,Nat.testBit_two_pow_sub_one,
      Nat.testBit_div_two_pow]
    by_cases hi : 24 ≤ i
    · by_cases hlt : i < 32
      · simp [hi,show i - 24 < 8 by omega,show i - 24 + 24 = i by omega]
      · have hzero : w.toNat.testBit i = false := Nat.testBit_lt_two_pow
          (lt_of_lt_of_le w.isLt (Nat.pow_le_pow_right (by decide) (Nat.not_lt.mp hlt)))
        simp [hzero,show i - 24 + 24 = i by omega]
    · simp [hi]
  rw [BitVec.toNat_or,BitVec.toNat_and,BitVec.toNat_ofNat,
    show 0xFF000000 % 2 ^ 32 = 0xFF000000 from rfl,hmask,← Nat.two_pow_add_eq_or_of_lt hv,
    Nat.mul_comm]

/-- The lower three bytes of a word. -/
theorem read24_toNat (m : Memory) (a : Word) :
    (read32 m a &&& 0xFFFFFF#32).toNat = readNat m 3 a := by
  have hpart := readNat_lt m 3 a
  have hsplit : readNat m 4 a = readNat m 3 a + 256 ^ 3 * readNat m 1 (a + 1 + 1 + 1) := by
    simp only [readNat_succ,readNat_zero]
    ring
  rw [BitVec.toNat_and,BitVec.toNat_ofNat,read32_toNat,
    show 0xFFFFFF % 2 ^ 32 = 2 ^ 24 - 1 from rfl,Nat.and_two_pow_sub_one_eq_mod,hsplit]
  omega

/-- A byte that is written. -/
theorem update_eq (m : Memory) (a : Word) (b : BitVec 8) :
    Function.update m a b = writeNat m a 1 b.toNat := by
  rw [writeNat_succ (by decide),writeNat_zero]
  simp

/-- A word that is written. -/
theorem write32_eq (m : Memory) (a v : Word) : write32 m a v = writeNat m a 4 v.toNat := by
  rw [writeNat_succ (by decide),writeNat_succ (by decide),writeNat_succ (by decide),
    writeNat_succ (by decide),writeNat_zero]
  simp [write32,BitVec.extractLsb',Nat.shiftRight_eq_div_pow]

/-- Two bytes that are written. -/
theorem write16_eq (m : Memory) (a : Word) (v : BitVec 16) :
    write16 m a v = writeNat m a 2 v.toNat := by
  rw [writeNat_succ (by decide),writeNat_succ (by decide),writeNat_zero]
  simp [write16,BitVec.extractLsb',Nat.shiftRight_eq_div_pow]

/-- A word with its high byte as it was. -/
theorem write24_eq (m : Memory) (a : Word) {v : Word} (hv : v.toNat < 2 ^ 24) :
    write32 m a (read32 m a &&& 0xFF000000#32 ||| v) = writeNat m a 3 v.toNat := by
  have hbyte := readNat_byte (m := m) (a := a) (n := 4) (x := a + 3#32) (by
    rw [InRange]
    bv_omega)
  have hat : (a + 3#32 - a).toNat = 3 := by bv_omega
  rw [hat,← read32_toNat] at hbyte
  have hlow : (read32 m a &&& 0xFF000000#32 ||| v).toNat % 256 ^ 3 = v.toNat := by
    rw [toNat_high _ _ hv]
    omega
  have hhigh : BitVec.ofNat 8 ((read32 m a &&& 0xFF000000#32 ||| v).toNat / 256 ^ 3) =
      m (a + 3) := by
    refine BitVec.eq_of_toNat_eq ?_
    rw [BitVec.toNat_ofNat,toNat_high _ _ hv]
    have := (m (a + 3#32)).isLt
    have h3 : (m (a + 3)).toNat = (m (a + 3#32)).toNat := rfl
    omega
  rw [write32_eq,writeNat_succ (by decide),← writeNat_mod m a 3,hlow,hhigh]
  refine Function.update_eq_self_iff.mpr ?_
  refine (writeNat_of_not ?_).symm
  rw [InRange]
  bv_omega

end Words

end WootOs.ByteMemory
