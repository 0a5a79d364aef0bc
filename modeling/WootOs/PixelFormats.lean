import WootOs.WindowManager
import Mathlib.Data.Nat.Bitwise

/-!
# Colours as numbers

A pixel format puts the four channels of a colour into fields of a number. A
field of n bits takes the n highest bits of its channel, and reading it back
gives those bits and zeros below them. Where the fields lie apart, neither
disturbs the other.
-/

namespace WootOs.PixelFormats

open WindowManager (PixelFormat Color pmColorToValue pmColorFromValue)

/-- A field of a number. -/
structure Field where
  /-- How many bits it has. -/
  bits : ℕ
  /-- Where it starts. -/
  shift : ℕ

/-- A bit belongs to a field. -/
def Field.Has (f : Field) (i : ℕ) : Prop := f.shift ≤ i ∧ i < f.shift + f.bits

instance (f : Field) (i : ℕ) : Decidable (f.Has i) := inferInstanceAs (Decidable (_ ∧ _))

/-- The alpha channel. -/
def alphaField (f : PixelFormat) : Field := ⟨f.alphaBits,f.alphaShift⟩

/-- The red channel. -/
def redField (f : PixelFormat) : Field := ⟨f.redBits,f.redShift⟩

/-- The green channel. -/
def greenField (f : PixelFormat) : Field := ⟨f.greenBits,f.greenShift⟩

/-- The blue channel. -/
def blueField (f : PixelFormat) : Field := ⟨f.blueBits,f.blueShift⟩

/-- The fields of a format. -/
def fields (f : PixelFormat) : List Field := [alphaField f,redField f,greenField f,blueField f]

/-- Fields of at most 8 bits that lie apart inside the pixel. -/
structure Proper (f : PixelFormat) : Prop where
  /-- A field has no more bits than a channel. -/
  small : ∀ c ∈ fields f,c.bits ≤ 8
  /-- It ends with the pixel or before. -/
  inside : ∀ c ∈ fields f,c.shift + c.bits ≤ f.bpp
  /-- Two fields have no bit in common. -/
  apart : (fields f).Pairwise fun c d => ∀ i,c.Has i → ¬d.Has i

/-- A channel without the bits for which there is no place. -/
def kept (bits v : ℕ) : ℕ := v / 2 ^ (8 - bits) * 2 ^ (8 - bits)

/-- A colour without the bits that a format cannot hold. -/
def truncated (f : PixelFormat) (c : Color) : Color :=
  ⟨kept f.alphaBits c.a,kept f.redBits c.r,kept f.greenBits c.g,kept f.blueBits c.b⟩

/-- The bits of a field. -/
def Field.mask (f : Field) : ℕ := (2 ^ f.bits - 1) <<< f.shift

/-- The bits of all fields. -/
def mask (f : PixelFormat) : ℕ :=
  (alphaField f).mask ||| (redField f).mask ||| (greenField f).mask ||| (blueField f).mask

/-- The channels of a colour are bytes. -/
structure Bytes (c : Color) : Prop where
  /-- Alpha. -/
  a : c.a < 256
  /-- Red. -/
  r : c.r < 256
  /-- Green. -/
  g : c.g < 256
  /-- Blue. -/
  b : c.b < 256

/-- A channel is put into a field. -/
def Field.encode (f : Field) (v : ℕ) : ℕ := (v >>> (8 - f.bits)) <<< f.shift

/-- A channel is read from a field. -/
def Field.decode (f : Field) (value : ℕ) : ℕ := ((value >>> f.shift) <<< (8 - f.bits)) % 256

theorem pmColorToValue_eq (f : PixelFormat) (c : Color) : pmColorToValue f c =
    ((alphaField f).encode c.a ||| (redField f).encode c.r ||| (greenField f).encode c.g |||
      (blueField f).encode c.b) % 2 ^ 32 := rfl

theorem pmColorFromValue_eq (f : PixelFormat) (value : ℕ) : pmColorFromValue f value =
    ⟨(alphaField f).decode value,(redField f).decode value,(greenField f).decode value,
      (blueField f).decode value⟩ := rfl

section Bits

variable {f g : Field} {v i k : ℕ}

/-- A byte has no bits from the eighth on. -/
theorem testBit_byte (hv : v < 256) (hi : 8 ≤ i) : v.testBit i = false :=
  Nat.testBit_lt_two_pow (lt_of_lt_of_le hv (Nat.pow_le_pow_right (show 2 > 0 by decide) hi))

/-- The bits of a channel in a field. -/
theorem testBit_encode (f : Field) (v i : ℕ) :
    (f.encode v).testBit i = (decide (f.shift ≤ i) && v.testBit (i - f.shift + (8 - f.bits))) := by
  rw [Field.encode,Nat.testBit_shiftLeft,Nat.testBit_shiftRight,Nat.add_comm (8 - f.bits)]

/-- A channel has no bits outside of its field. -/
theorem testBit_encode_of_not (hv : v < 256) (hf : f.bits ≤ 8) (hi : ¬f.Has i) :
    (f.encode v).testBit i = false := by
  rw [testBit_encode]
  by_cases hle : f.shift ≤ i
  · rw [testBit_byte hv,Bool.and_false]
    rw [Field.Has] at hi
    omega
  · rw [decide_eq_false hle,Bool.false_and]

/-- The bits that are read from a field. -/
theorem testBit_decode (f : Field) (v k : ℕ) : (f.decode v).testBit k =
    (decide (k < 8) && (decide (8 - f.bits ≤ k) && v.testBit (f.shift + (k - (8 - f.bits))))) := by
  rw [Field.decode,show 256 = 2 ^ 8 from rfl,Nat.testBit_mod_two_pow,Nat.testBit_shiftLeft,
    Nat.testBit_shiftRight]

/-- The bits of a channel for which there is a place. -/
theorem testBit_kept (bits v k : ℕ) :
    (kept bits v).testBit k = (decide (8 - bits ≤ k) && v.testBit k) := by
  rw [kept,Nat.testBit_mul_two_pow,Nat.testBit_div_two_pow]
  by_cases hk : 8 - bits ≤ k
  · rw [Nat.sub_add_cancel hk]
  · rw [decide_eq_false hk,Bool.false_and,Bool.false_and]

/-- The bits of a field. -/
theorem testBit_mask (f : Field) (i : ℕ) : f.mask.testBit i = decide (f.Has i) := by
  rw [Field.mask,Nat.testBit_shiftLeft,Nat.testBit_two_pow_sub_one,← Bool.decide_and]
  refine decide_eq_decide.mpr ?_
  rw [Field.Has]
  omega

/-- A field gives back the channel, where the number agrees with it. -/
theorem decode_of_agrees {value : ℕ} (hv : v < 256) (hf : f.bits ≤ 8)
    (h : ∀ i,f.Has i → value.testBit i = (f.encode v).testBit i) :
    f.decode value = kept f.bits v := by
  refine Nat.eq_of_testBit_eq fun k => ?_
  rw [testBit_decode,testBit_kept]
  by_cases hk : k < 8
  · by_cases hlow : 8 - f.bits ≤ k
    · have hhas : f.Has (f.shift + (k - (8 - f.bits))) := by
        rw [Field.Has]
        omega
      rw [h _ hhas,testBit_encode,decide_eq_true (Nat.le_add_right _ _),Nat.add_sub_cancel_left,
        Nat.sub_add_cancel hlow,decide_eq_true hk,Bool.true_and,Bool.true_and]
    · rw [decide_eq_false hlow,Bool.false_and,Bool.false_and,Bool.and_false]
  · rw [decide_eq_false hk,testBit_byte hv (Nat.not_lt.mp hk),Bool.false_and,Bool.and_false]

/-- A channel that was read from a field is put back as it was. -/
theorem testBit_encode_decode (hf : f.bits ≤ 8) :
    (f.encode (f.decode v)).testBit i = (decide (f.Has i) && v.testBit i) := by
  rw [testBit_encode,testBit_decode]
  by_cases hi : f.Has i
  · obtain ⟨hlow,hhigh⟩ := hi
    have hindex : f.shift + (i - f.shift + (8 - f.bits) - (8 - f.bits)) = i := by omega
    rw [hindex,decide_eq_true hlow,decide_eq_true (show i - f.shift + (8 - f.bits) < 8 by omega),
      decide_eq_true (Nat.le_add_left _ _),decide_eq_true (show f.Has i from ⟨hlow,hhigh⟩)]
    simp
  · rw [decide_eq_false hi,Bool.false_and]
    by_cases hlow : f.shift ≤ i
    · have hlarge : ¬i - f.shift + (8 - f.bits) < 8 := by
        rw [Field.Has] at hi
        omega
      rw [decide_eq_false hlarge,Bool.false_and,Bool.and_false]
    · rw [decide_eq_false hlow,Bool.false_and]

end Bits

section Codec

variable {f : PixelFormat} {c : Color} {v i : ℕ}

/-- The bits of the value of a colour. -/
theorem testBit_toValue (hi : i < 32) : (pmColorToValue f c).testBit i =
    (((alphaField f).encode c.a).testBit i || ((redField f).encode c.r).testBit i ||
      ((greenField f).encode c.g).testBit i || ((blueField f).encode c.b).testBit i) := by
  rw [pmColorToValue_eq,Nat.testBit_mod_two_pow,Nat.testBit_or,Nat.testBit_or,Nat.testBit_or,
    decide_eq_true hi,Bool.true_and]

/-- What is said of all fields is said of each. -/
theorem forall_fields {P : Field → Prop} : (∀ d ∈ fields f,P d) ↔
    P (alphaField f) ∧ P (redField f) ∧ P (greenField f) ∧ P (blueField f) := by
  simp [fields]

/-- The bits of a field are those of one number of 32 bits. -/
theorem Proper.lt (hf : Proper f) (hbpp : f.bpp ≤ 32) : ∀ d ∈ fields f,∀ i,d.Has i → i < 32 := by
  intro d hd i hi
  have := hf.inside d hd
  rw [Field.Has] at hi
  omega

/-- No field has a bit of another. -/
theorem Proper.pairs (hf : Proper f) (i : ℕ) :
    (¬((alphaField f).Has i ∧ (redField f).Has i) ∧ ¬((alphaField f).Has i ∧ (greenField f).Has i) ∧
      ¬((alphaField f).Has i ∧ (blueField f).Has i)) ∧
    (¬((redField f).Has i ∧ (greenField f).Has i) ∧ ¬((redField f).Has i ∧ (blueField f).Has i)) ∧
    ¬((greenField f).Has i ∧ (blueField f).Has i) := by
  have h := hf.apart
  simp only [fields,List.pairwise_cons,List.mem_cons,List.not_mem_nil,or_false,forall_eq_or_imp,
    forall_eq] at h
  obtain ⟨⟨har,hag,hab⟩,⟨hrg,hrb⟩,hgb,-⟩ := h
  exact ⟨⟨fun h => har i h.1 h.2,fun h => hag i h.1 h.2,fun h => hab i h.1 h.2⟩,
    ⟨fun h => hrg i h.1 h.2,fun h => hrb i h.1 h.2⟩,fun h => hgb i h.1 h.2⟩

/-- A colour comes back from its value, without the bits that the format cannot hold. -/
theorem fromValue_toValue (hf : Proper f) (hbpp : f.bpp ≤ 32) (hc : Bytes c) :
    pmColorFromValue f (pmColorToValue f c) = truncated f c := by
  obtain ⟨ha,hr,hg,hb⟩ := forall_fields.mp hf.small
  obtain ⟨hla,hlr,hlg,hlb⟩ := forall_fields.mp (hf.lt hbpp)
  rw [pmColorFromValue_eq,truncated,Color.mk.injEq]
  refine ⟨decode_of_agrees hc.a ha ?_,decode_of_agrees hc.r hr ?_,decode_of_agrees hc.g hg ?_,
    decode_of_agrees hc.b hb ?_⟩
  · intro i hi
    obtain ⟨⟨h₁,h₂,h₃⟩,-,-⟩ := hf.pairs i
    rw [testBit_toValue (hla i hi),testBit_encode_of_not hc.r hr fun h => h₁ ⟨hi,h⟩,
      testBit_encode_of_not hc.g hg fun h => h₂ ⟨hi,h⟩,
      testBit_encode_of_not hc.b hb fun h => h₃ ⟨hi,h⟩,Bool.or_false,Bool.or_false,Bool.or_false]
  · intro i hi
    obtain ⟨⟨h₁,-,-⟩,⟨h₂,h₃⟩,-⟩ := hf.pairs i
    rw [testBit_toValue (hlr i hi),testBit_encode_of_not hc.a ha fun h => h₁ ⟨h,hi⟩,
      testBit_encode_of_not hc.g hg fun h => h₂ ⟨hi,h⟩,
      testBit_encode_of_not hc.b hb fun h => h₃ ⟨hi,h⟩,Bool.false_or,Bool.or_false,Bool.or_false]
  · intro i hi
    obtain ⟨⟨-,h₁,-⟩,⟨h₂,-⟩,h₃⟩ := hf.pairs i
    rw [testBit_toValue (hlg i hi),testBit_encode_of_not hc.a ha fun h => h₁ ⟨h,hi⟩,
      testBit_encode_of_not hc.r hr fun h => h₂ ⟨h,hi⟩,
      testBit_encode_of_not hc.b hb fun h => h₃ ⟨hi,h⟩,Bool.false_or,Bool.false_or,Bool.or_false]
  · intro i hi
    obtain ⟨⟨-,-,h₁⟩,⟨-,h₂⟩,h₃⟩ := hf.pairs i
    rw [testBit_toValue (hlb i hi),testBit_encode_of_not hc.a ha fun h => h₁ ⟨h,hi⟩,
      testBit_encode_of_not hc.r hr fun h => h₂ ⟨h,hi⟩,
      testBit_encode_of_not hc.g hg fun h => h₃ ⟨h,hi⟩,Bool.false_or,Bool.false_or,Bool.false_or]

/-- A value comes back from its colour, without the bits that belong to no field. -/
theorem toValue_fromValue (hf : Proper f) (hbpp : f.bpp ≤ 32) (v : ℕ) :
    pmColorToValue f (pmColorFromValue f v) = v &&& mask f := by
  obtain ⟨ha,hr,hg,hb⟩ := forall_fields.mp hf.small
  obtain ⟨hla,hlr,hlg,hlb⟩ := forall_fields.mp (hf.lt hbpp)
  refine Nat.eq_of_testBit_eq fun i => ?_
  rw [Nat.testBit_and,mask,Nat.testBit_or,Nat.testBit_or,Nat.testBit_or,testBit_mask,testBit_mask,
    testBit_mask,testBit_mask]
  by_cases hi : i < 32
  · rw [testBit_toValue hi,pmColorFromValue_eq,testBit_encode_decode ha,testBit_encode_decode hr,
      testBit_encode_decode hg,testBit_encode_decode hb,← Bool.and_or_distrib_right,
      ← Bool.and_or_distrib_right,← Bool.and_or_distrib_right,Bool.and_comm]
  · rw [decide_eq_false fun h => hi (hla i h),decide_eq_false fun h => hi (hlr i h),
      decide_eq_false fun h => hi (hlg i h),decide_eq_false fun h => hi (hlb i h),
      pmColorToValue_eq,Nat.testBit_mod_two_pow,decide_eq_false hi,Bool.false_and]
    simp

/-- The value of a colour has only bits of the fields. -/
theorem toValue_lt (hf : Proper f) (hc : Bytes c) :
    pmColorToValue f c < 2 ^ f.bpp := by
  obtain ⟨ha,hr,hg,hb⟩ := forall_fields.mp hf.small
  obtain ⟨hia,hir,hig,hib⟩ := forall_fields.mp hf.inside
  refine Nat.lt_pow_two_of_testBit _ fun i hi => ?_
  by_cases hlt : i < 32
  · rw [testBit_toValue hlt,testBit_encode_of_not hc.a ha fun h => by rw [Field.Has] at h; omega,
      testBit_encode_of_not hc.r hr fun h => by rw [Field.Has] at h; omega,
      testBit_encode_of_not hc.g hg fun h => by rw [Field.Has] at h; omega,
      testBit_encode_of_not hc.b hb fun h => by rw [Field.Has] at h; omega]
    rfl
  · rw [pmColorToValue_eq,Nat.testBit_mod_two_pow,decide_eq_false hlt,Bool.false_and]

end Codec

end WootOs.PixelFormats
