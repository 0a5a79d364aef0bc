import WootOs.PixMaps
import WootOs.WindowScreen

/-!
# Reading and writing single pixels

What is written into a pixel is read back, as far as the format can hold it,
and other pixels keep their colour exactly where the rows of the pixel map lie
apart. Rows of 15-bit pixels that are packed by their bits do not.

Coordinates outside of the pixel map are wrapped. The wrapping misses the
negative multiples of the size and the lowest coordinate, and words of four
bytes for pixels of three end behind the buffer.
-/

namespace WootOs.PixMaps

open ByteMemory PixelFormats
open WindowManager (PixelFormat Color pmColorToValue pmColorFromValue pmFormatA8R8G8B8 int)

section Overlaps

/-- A format whose fields fill the pixel. -/
def packed (bpp : ℕ) : PixelFormat :=
  match bpp with
  | 15 => ⟨15,0,5,5,5,0,10,5,0⟩
  | 16 => ⟨16,0,5,6,5,0,11,5,0⟩
  | 24 => ⟨24,0,8,8,8,0,16,8,0⟩
  | _ => pmFormatA8R8G8B8

/-- White, with all bits set. -/
def white : Color := ⟨255,255,255,255⟩

theorem white_bytes : Bytes white := ⟨by decide,by decide,by decide,by decide⟩

/-- What is used of a format that fills the pixel. -/
structure Packs (bpp : ℕ) (f : PixelFormat) : Prop where
  /-- It has so many bits. -/
  bits : f.bpp = bpp
  /-- Its fields lie apart. -/
  proper : Proper f
  /-- No bit is left out. -/
  mask : mask f = 2 ^ bpp - 1
  /-- All bits are set in white. -/
  white : pmColorToValue f white = 2 ^ bpp - 1

theorem packed_packs {bpp : ℕ} (h : bpp = 15 ∨ bpp = 16 ∨ bpp = 24 ∨ bpp = 32) :
    Packs bpp (packed bpp) := by
  have hproper : ∀ f : PixelFormat,(∀ c ∈ fields f,c.bits ≤ 8) →
      (∀ c ∈ fields f,c.shift + c.bits ≤ f.bpp) →
      (redField f).shift + (redField f).bits ≤ (alphaField f).shift ∨ (alphaField f).bits = 0 →
      (greenField f).shift + (greenField f).bits ≤ (redField f).shift →
      (blueField f).shift + (blueField f).bits ≤ (greenField f).shift → Proper f := by
    intro f hsmall hinside hred hgreen hblue
    refine ⟨hsmall,hinside,?_⟩
    simp only [fields,List.pairwise_cons,List.mem_cons,List.not_mem_nil,or_false,
      forall_eq_or_imp,forall_eq,Field.Has]
    refine ⟨⟨?_,?_,?_⟩,⟨?_,?_⟩,?_,by simp⟩ <;> intro i <;> omega
  obtain rfl | rfl | rfl | rfl := h
  all_goals
    exact ⟨rfl,hproper _ (by decide) (by decide) (by decide) (by decide) (by decide),rfl,rfl⟩

variable {pm : PixMap} {m : Memory} {x y x' y' : ℤ} {a : Word}

theorem pixelBytes_congr {f g : PixelFormat} (h : f.bpp = g.bpp) : pixelBytes f = pixelBytes g := by
  rw [pixelBytes,pixelBytes,h]

/-- The pixels of a pixel map without a palette have so many bits. -/
theorem PixMap.depths (pm : PixMap) (h : pm.format.bpp ≠ 8) :
    pm.format.bpp = 15 ∨ pm.format.bpp = 16 ∨ pm.format.bpp = 24 ∨ pm.format.bpp = 32 :=
  pm.supported.resolve_left h

/-- What a format does to colours and values. -/
structure Codec (f : PixelFormat) : Prop where
  /-- A colour loses the bits that the format cannot hold. -/
  color : ∀ c,Bytes c → pmColorFromValue f (pmColorToValue f c) = truncated f c
  /-- A value loses the bits that belong to no field. -/
  value : ∀ v,pmColorToValue f (pmColorFromValue f v) = v &&& mask f

/-- A pixel that is set has its colour, and the others keep theirs. -/
def Keeps (pm : PixMap) : Prop := ∀ m x y c,pm.Has x y → Bytes c →
  pmGetPixel pm (pmSetPixel pm m x y c) x y = truncated pm.format c ∧
  ∀ x' y',pm.Has x' y' → (x',y') ≠ (x,y) →
    pmGetPixel pm (pmSetPixel pm m x y c) x' y' = pmGetPixel pm m x' y'

/-- A value fits into the bytes of its pixel. -/
theorem pow_bpp_le {f : PixelFormat} (h : isDepthSupported f.bpp) :
    2 ^ f.bpp ≤ 256 ^ pixelBytes f := by
  rw [pixelBytes]
  obtain h | h | h | h | h := h <;> rw [h] <;> decide

/-- Fields that lie apart do not disturb each other. -/
theorem codec_of_proper {f : PixelFormat} (hf : Proper f) (h : isDepthSupported f.bpp) :
    Codec f := by
  have hbpp : f.bpp ≤ 32 := by
    obtain h | h | h | h | h := h <;> omega
  exact ⟨fun c hc => fromValue_toValue hf hbpp hc,toValue_fromValue hf hbpp⟩

/-- Pixels keep their colours where rows lie apart. -/
theorem PixMap.Apart.keeps (h : pm.Apart) (hf : Proper pm.format) (h8 : pm.format.bpp ≠ 8) :
    Keeps pm := by
  intro m x y c hp hc
  have hlt := toValue_lt hf hc
  have hwrite := pmSetPixel_eq (m := m) (c := c) hp fun h => h ▸ hlt
  have hsize : pixelBytes pm.format ≤ 2 ^ 32 := by
    have := pixelBytes_pos pm.format
    omega
  rw [hwrite]
  refine ⟨?_,fun x' y' hq hne => ?_⟩
  · rw [pmGetPixel_eq hp,readNat_writeNat hsize,PixMap.stored,if_neg h8,PixMap.color,if_neg h8,
      Nat.mod_eq_of_lt (lt_of_lt_of_le hlt (pow_bpp_le pm.supported))]
    exact (codec_of_proper hf pm.supported).color c hc
  · rw [pmGetPixel_eq hq,pmGetPixel_eq hq,
      readNat_writeNat_apart fun a ha => h.disjoint hp hq hne ha]

/-- Where the rows overlap, the last byte of the first row belongs to a pixel of
the second. -/
theorem PixMap.overlaps (h : ¬pm.Apart) : ∃ x' j : ℕ,pm.Has x' 1 ∧ j < pixelBytes pm.format ∧
    pm.at x' 1 + BitVec.ofNat 32 j =
      pm.at (pm.width - 1) 0 + BitVec.ofNat 32 (pixelBytes pm.format - 1) := by
  obtain ⟨hheight,hpitch⟩ := not_or.mp h
  obtain ⟨hwidth,hlt⟩ := pm.columns
  have hpos := (pixelBytes_pos pm.format).1
  set b := pixelBytes pm.format with hb
  have hpitch : pm.pitch < pm.width.toNat * b := by
    zify
    rw [Int.toNat_of_nonneg hwidth.le]
    exact not_le.mp hpitch
  -- so far is the last byte of the first row from the start of the second
  obtain ⟨r,hr⟩ : ∃ r,r + (pm.pitch + 1) = pm.width.toNat * b := ⟨_,Nat.sub_add_cancel hpitch⟩
  have hdiv : b * (r / b) + r % b = r := Nat.div_add_mod r b
  have hmod : r % b < b := Nat.mod_lt _ hpos
  have hcol : r / b < pm.width.toNat := Nat.div_lt_of_lt_mul (by rw [Nat.mul_comm]; omega)
  refine ⟨r / b,r % b,⟨⟨by positivity,by omega⟩,by decide,by omega⟩,hmod,?_⟩
  have hlast : (pm.width - 1).toNat * b + b = pm.width.toNat * b := by
    rw [← Nat.succ_mul]
    congr 1
    omega
  rw [PixMap.at_eq (by positivity) (by decide),PixMap.at_eq (by omega) le_rfl,PixMap.offset,
    PixMap.offset,← hb,BitVec.add_assoc,BitVec.add_assoc,← BitVec.ofNat_add,← BitVec.ofNat_add]
  congr 2
  rw [Int.toNat_natCast,Int.toNat_zero,Nat.mul_zero,show Int.toNat 1 = 1 from rfl,Nat.mul_one,
    Nat.mul_comm (r / b)]
  omega

/-- A value has bits where one of its bytes is the highest byte of white. -/
theorem value_ne_zero {f : PixelFormat} {v j : ℕ}
    (h : f.bpp = 15 ∨ f.bpp = 16 ∨ f.bpp = 24 ∨ f.bpp = 32)
    (hj : j < pixelBytes f)
    (hbyte : v / 256 ^ j % 256 = (2 ^ f.bpp - 1) / 256 ^ (pixelBytes f - 1) % 256) :
    v &&& (2 ^ f.bpp - 1) ≠ 0 := by
  rw [Nat.and_two_pow_sub_one_eq_mod]
  obtain h | h | h | h := h
  all_goals
    simp only [h,pixelBytes] at hj hbyte ⊢
    norm_num at hj hbyte ⊢
    interval_cases j <;> norm_num at hbyte <;> omega

/-- Pixels do not keep their colours where rows overlap. -/
theorem not_keeps (h : ¬pm.Apart) (h8 : pm.format.bpp ≠ 8)
    (hf : Packs pm.format.bpp pm.format) : ¬Keeps pm := by
  intro hkeeps
  obtain ⟨x',j,hq,hj,hat⟩ := PixMap.overlaps h
  obtain ⟨hheight,-⟩ := not_or.mp h
  have hp : pm.Has (pm.width - 1) 0 := by
    have := pm.columns
    exact ⟨⟨by omega,by omega⟩,le_rfl,by omega⟩
  set b := pixelBytes pm.format with hb
  have hbytes : 0 < b ∧ b ≤ 4 := pixelBytes_pos pm.format
  have hsame := (hkeeps (fun _ => 0) (pm.width - 1) 0 white hp white_bytes).2 x' 1 hq (by simp)
  set m' := pmSetPixel pm (fun _ => 0) (pm.width - 1) 0 white with hm'
  have hwrite : m' = writeNat (fun _ => 0) (pm.at (pm.width - 1) 0) b (2 ^ pm.format.bpp - 1) := by
    rw [hm',pmSetPixel_eq hp fun h => by rw [hf.white,h]; norm_num,PixMap.stored,if_neg h8,hf.white]
  have hzero : readNat (fun _ => 0) b (pm.at x' 1) = 0 := readNat_zeros _ _
  rw [pmGetPixel_eq hq,pmGetPixel_eq hq,hzero,PixMap.color,PixMap.color,if_neg h8,if_neg h8]
    at hsame
  have hvalue := congrArg (pmColorToValue pm.format) hsame
  have hcodec := (codec_of_proper hf.proper pm.supported).value
  rw [hcodec,hcodec,hf.mask,Nat.zero_and] at hvalue
  -- the byte that both pixels have
  have hbyte := readNat_byte (m := m') (a := pm.at x' 1) (n := b)
    (x := pm.at x' 1 + BitVec.ofNat 32 j) (by
      rw [InRange]
      bv_omega)
  have hindex : (pm.at x' 1 + BitVec.ofNat 32 j - pm.at x' 1).toNat = j := by bv_omega
  have hlast : (pm.at (pm.width - 1) 0 + BitVec.ofNat 32 (b - 1) - pm.at (pm.width - 1) 0).toNat =
      b - 1 := by
    bv_omega
  rw [hindex,hat,hwrite,writeNat,if_pos (by rw [InRange,hlast]; omega),hlast,BitVec.toNat_ofNat,
    ← hwrite] at hbyte
  exact value_ne_zero (pm.depths h8) hj hbyte hvalue

/-- The codec loses no more than it must, and pixels keep their colours for all formats of
so many bits, exactly where the rows of the pixel map lie apart. -/
theorem pixel_codec (h8 : pm.format.bpp ≠ 8) :
    (∀ f palette (h : f.bpp = pm.format.bpp),Proper f →
      Codec f ∧ Keeps (pm.recolored f palette h)) ↔ pm.Apart := by
  have hapart : ∀ f palette (h : f.bpp = pm.format.bpp),
      (pm.recolored f palette h).Apart ↔ pm.Apart := by
    intro f palette h
    rw [PixMap.Apart,PixMap.Apart,PixMap.recolored,pixelBytes_congr h]
  constructor
  · intro hall
    by_contra hnot
    have hpacks := packed_packs (pm.depths h8)
    exact not_keeps (fun h => hnot ((hapart _ pm.palette hpacks.bits).mp h))
      (fun h => h8 (hpacks.bits ▸ h)) (hpacks.bits.symm ▸ hpacks)
      (hall _ pm.palette hpacks.bits hpacks.proper).2
  · intro h f palette hf hproper
    exact ⟨codec_of_proper hproper (hf ▸ pm.supported),
      ((hapart f palette hf).mpr h).keeps hproper fun h => h8 (hf ▸ h)⟩

/-- Two rows of eight pixels as pmCreate makes them. -/
def eightByTwo (bpp : ℕ) : Option PixMap :=
  if h : bpp = 15 ∨ bpp = 16 then
    pmCreate 8 2 (packed bpp) (fun _ => white) 0x100000 (by decide) (by decide) (by
      obtain rfl | rfl := h
      · decide
      · decide)
  else none

/-- A row of eight pixels of 15 bits is taken for 15 bytes, and the last of its pixels
ends in the first one of the next row. -/
theorem fifteen_bits_overlap : ∃ pm ∈ eightByTwo 15,Proper pm.format ∧ Bytes white ∧
    pm.Has 7 0 ∧ pm.Has 0 1 ∧ pmGetPixel pm (pmSetPixel pm (fun _ => 0) 7 0 white) 0 1 ≠
      pmGetPixel pm (fun _ => 0) 0 1 := by
  refine ⟨_,rfl,(packed_packs (.inl rfl)).proper,white_bytes,by decide,by decide,fun h => ?_⟩
  exact absurd (congrArg Color.b h) (by decide)

/-- With 16 bits the rows lie apart. -/
theorem sixteen_bits_keep : ∃ pm ∈ eightByTwo 16,∀ f palette (h : f.bpp = pm.format.bpp),Proper f →
    Codec f ∧ Keeps (pm.recolored f palette h) :=
  ⟨_,rfl,(pixel_codec (by decide)).mpr (by decide)⟩

end Overlaps

section Buffers

variable {pm : PixMap} {m : Memory} {x y c size : ℤ} {a : Word}

/-- Bytes lie in the buffer of a pixel map, which has a pitch for each row. -/
def PixMap.Inside (pm : PixMap) (t : Touched) : Prop :=
  0 ≤ t.first ∧ t.first + t.count ≤ pm.pitch * pm.height

/-- What is expected of accesses to a place, whether it exists or not. -/
structure Safe (pm : PixMap) (x y : ℤ) : Prop where
  /-- pmSetPixel touches bytes of the buffer only. -/
  set : ∀ t ∈ setTouches pm x y,pm.Inside t
  /-- It leaves the bytes outside as they are. -/
  frame : ∀ m c a,¬InRange pm.pixels (pm.pitch * pm.height.toNat) a → pmSetPixel pm m x y c a = m a
  /-- pmGetPixel touches bytes of the buffer only. -/
  get : ∀ t ∈ getTouches pm x y,pm.Inside t
  /-- It gives the colour of the pixel whose coordinates are the remainders. -/
  color : ∀ m,pmGetPixel pm m x y =
    pm.color (readNat m (pixelBytes pm.format) (pm.at (x % pm.width) (y % pm.height)))

/-- A coordinate that is wrapped right. -/
def Wraps (c size : ℤ) : Prop := 0 ≤ c ∨ (c ≠ -2 ^ 31 ∧ ¬size ∣ c)

instance (c size : ℤ) : Decidable (Wraps c size) := inferInstanceAs (Decidable (_ ∨ _))

/-- The access for a pixel ends in the buffer. -/
def PixMap.Ends (pm : PixMap) (x y : ℤ) : Prop :=
  pm.pitch * y + x * pixelBytes pm.format + accessBytes pm.format ≤ pm.pitch * pm.height

instance (pm : PixMap) (x y : ℤ) : Decidable (pm.Ends x y) := inferInstanceAs (Decidable (_ ≤ _))

/-- A coordinate is wrapped to its remainder. -/
theorem Wraps.eq (h : Wraps c size) (hsize : 0 < size ∧ size < 2 ^ 31)
    (hc : -2 ^ 31 ≤ c ∧ c < 2 ^ 31) : wrapped c size = c % size := by
  have hnonneg := Int.emod_nonneg c hsize.1.ne'
  have hlt := Int.emod_lt_of_pos c hsize.1
  by_cases hneg : c < 0
  · obtain ⟨hmin,hdvd⟩ := h.resolve_left (not_le.mpr hneg)
    have hint : int (-c) = -c := WindowManager.int_eq (by omega) (by omega)
    have hpos : 0 < c % size :=
      lt_of_le_of_ne hnonneg fun h => hdvd (Int.dvd_of_emod_eq_zero h.symm)
    have hmod : (-c) % size = size - c % size := by
      rw [Int.neg_emod,if_neg hdvd,Int.natAbs_of_nonneg hsize.1.le]
    rw [wrapped,if_pos hneg,hint,Int.tmod_eq_emod_of_nonneg (by omega),hmod,
      WindowManager.int_eq (by omega) (by omega)]
    ring
  · rw [wrapped,if_neg hneg,Int.tmod_eq_emod_of_nonneg (not_lt.mp hneg)]

/-- Any other coordinate becomes one that does not exist. -/
theorem wrapped_of_not (h : ¬Wraps c size) (hsize : 0 < size ∧ size < 2 ^ 31)
    (hc : -2 ^ 31 ≤ c ∧ c < 2 ^ 31) :
    (size ≤ wrapped c size ∧ wrapped c size < 2 * size) ∨
      (2 ^ 30 < size ∧ wrapped c size = -2 ^ 31) := by
  obtain ⟨hneg,hmul⟩ := not_or.mp h
  have hneg : c < 0 := not_le.mp hneg
  by_cases hmin : c = -2 ^ 31
  · subst hmin
    have hnonneg := Int.emod_nonneg (2 ^ 31) hsize.1.ne'
    have hlt := Int.emod_lt_of_pos (2 ^ 31) hsize.1
    have hint : int (- -2 ^ 31) = -2 ^ 31 := by decide
    rw [wrapped,if_pos hneg,hint,Int.neg_tmod,Int.tmod_eq_emod_of_nonneg (by norm_num),
      sub_neg_eq_add]
    by_cases hlarge : 2 ^ 30 < size
    · right
      have hmod : (2 : ℤ) ^ 31 % size = 2 ^ 31 - size := by
        rw [← Int.sub_emod_right,Int.emod_eq_of_lt (by omega) (by omega)]
      refine ⟨hlarge,?_⟩
      rw [hmod,add_sub_cancel]
      decide
    · rw [WindowManager.int_eq (by omega) (by omega)]
      left
      omega
  · have hdvd : size ∣ c := by
      by_contra hdvd
      exact hmul ⟨hmin,hdvd⟩
    have hint : int (-c) = -c := WindowManager.int_eq (by omega) (by omega)
    have hmod : (-c) % size = 0 := Int.emod_eq_zero_of_dvd ((Int.dvd_neg).mpr hdvd)
    rw [wrapped,if_pos hneg,hint,Int.tmod_eq_emod_of_nonneg (by omega),hmod,sub_zero,
      WindowManager.int_eq (by omega) (by omega)]
    left
    omega

theorem accessBytes_pos (f : PixelFormat) : 0 < accessBytes f ∧ accessBytes f ≤ 4 := by
  rw [accessBytes]
  split_ifs <;> decide

theorem pixelBytes_le_accessBytes (f : PixelFormat) : pixelBytes f ≤ accessBytes f := by
  rw [pixelBytes,accessBytes]
  split_ifs <;> decide

/-- pmSetPixel leaves all bytes that it does not touch. -/
theorem pmSetPixel_untouched {c : Color} (h : ¬InRange (pm.at x y) (accessBytes pm.format) a) :
    pmSetPixel pm m x y c a = m a := by
  by_cases hp : pm.Has x y
  · obtain ⟨⟨hx,hxw⟩,hy,hyh⟩ := hp
    rw [pmSetPixel,if_neg (by omega)]
    simp only [PixMap.at] at h
    obtain hd | hd | hd | hd | hd := pm.supported
    all_goals simp only [hd,pixelBytes,accessBytes] at h ⊢; norm_num at h ⊢
    · rw [update_eq]
      exact writeNat_of_not h
    · rw [write16_eq]
      exact writeNat_of_not h
    · rw [write16_eq]
      exact writeNat_of_not h
    · exact write32_frame _ _ _ _ h
    · exact write32_frame _ _ _ _ h
  · rw [pmSetPixel_of_not hp]

/-- pmGetPixel depends on the bytes that it touches. -/
theorem pmGetPixel_congr {m' : Memory}
    (h : ∀ a,InRange (pm.at (wrapped x pm.width) (wrapped y pm.height)) (accessBytes pm.format) a →
      m' a = m a) : pmGetPixel pm m' x y = pmGetPixel pm m x y := by
  have h32 : ∀ a,(∀ b,InRange a 4 b → m' b = m b) → read32 m' a = read32 m a := fun a h =>
    BitVec.eq_of_toNat_eq (by rw [read32_toNat,read32_toNat,readNat_congr h])
  have h16 : ∀ a,(∀ b,InRange a 2 b → m' b = m b) → read16 m' a = read16 m a := fun a h =>
    BitVec.eq_of_toNat_eq (by rw [read16_toNat,read16_toNat,readNat_congr h])
  rw [pmGetPixel,pmGetPixel]
  simp only [PixMap.at] at h
  obtain hd | hd | hd | hd | hd := pm.supported
  all_goals simp only [hd,pixelBytes,accessBytes] at h ⊢; norm_num at h ⊢
  · rw [h _ (by rw [InRange,BitVec.sub_self]; decide)]
  · rw [h16 _ h]
  · rw [h16 _ h]
  · rw [h32 _ h]
  · rw [h32 _ h]

/-- Bytes of the buffer, counted from its start. -/
theorem PixMap.inRange_buffer {n k : ℕ} (h : n + k ≤ pm.pitch * pm.height.toNat)
    (hbuffer : pm.pitch * pm.height.toNat < 2 ^ 31)
    (ha : InRange (pm.pixels + BitVec.ofNat 32 n) k a) :
    InRange pm.pixels (pm.pitch * pm.height.toNat) a := by
  rw [inRange_add (by omega)] at ha
  rw [InRange]
  omega

/-- The place of a pixel in a buffer. -/
theorem PixMap.place_of_row (hbuffer : pm.pitch * pm.height.toNat < 2 ^ 31) (hy : 0 ≤ y)
    (hyh : y < pm.height) (bytes : ℕ) : pm.place x y bytes = pm.pitch * y + x * bytes := by
  refine PixMap.place_eq hy ?_ bytes
  have hrow : pm.pitch * y.toNat ≤ pm.pitch * pm.height.toNat := Nat.mul_le_mul_left _ (by omega)
  omega

/-- The access for a pixel ends in the buffer or leaves it. -/
theorem PixMap.inside_iff (hbuffer : pm.pitch * pm.height.toNat < 2 ^ 31) (hx : 0 ≤ x) (hy : 0 ≤ y)
    (hyh : y < pm.height) : pm.Inside (pm.touched x y) ↔ pm.Ends x y := by
  rw [PixMap.Inside,PixMap.touched]
  dsimp only
  rw [PixMap.place_of_row hbuffer hy hyh]
  exact and_iff_right (by positivity)

/-- The pixel of wrapped coordinates is safe where the access for it ends in the buffer. -/
theorem safe_of_wraps (hbuffer : pm.pitch * pm.height.toNat < 2 ^ 31)
    (hx : -2 ^ 31 ≤ x ∧ x < 2 ^ 31) (hy : -2 ^ 31 ≤ y ∧ y < 2 ^ 31) (hwx : Wraps x pm.width)
    (hwy : Wraps y pm.height) (hends : pm.Ends (x % pm.width) (y % pm.height)) : Safe pm x y := by
  have hcols := pm.columns
  have hrows := pm.rows
  have hX : 0 ≤ x % pm.width ∧ x % pm.width < pm.width :=
    ⟨Int.emod_nonneg x hcols.1.ne',Int.emod_lt_of_pos x hcols.1⟩
  have hY : 0 ≤ y % pm.height ∧ y % pm.height < pm.height :=
    ⟨Int.emod_nonneg y hrows.1.ne',Int.emod_lt_of_pos y hrows.1⟩
  have hsize : ((pm.pitch * pm.height.toNat : ℕ) : ℤ) = pm.pitch * pm.height := by
    push_cast
    rw [Int.toNat_of_nonneg hrows.1.le]
  have hend : pm.offset (x % pm.width) (y % pm.height) + accessBytes pm.format ≤
      pm.pitch * pm.height.toNat := by
    zify
    rw [PixMap.offset,Int.toNat_of_nonneg hrows.1.le]
    push_cast
    rw [Int.toNat_of_nonneg hX.1,Int.toNat_of_nonneg hY.1]
    exact hends
  have hin := (PixMap.inside_iff hbuffer hX.1 hY.1 hY.2).mpr hends
  refine ⟨fun t ht => ?_,fun m c a ha => ?_,fun t ht => ?_,fun m => ?_⟩
  · rw [setTouches] at ht
    split_ifs at ht with hout
    · exact absurd ht List.not_mem_nil
    · obtain rfl := List.mem_singleton.mp ht
      rwa [Int.emod_eq_of_lt (by omega) (by omega),Int.emod_eq_of_lt (by omega) (by omega)] at hin
  · by_cases hp : pm.Has x y
    · refine pmSetPixel_untouched fun hat => ha ?_
      rw [PixMap.at_eq hp.1.1 hp.2.1] at hat
      rw [Int.emod_eq_of_lt hp.1.1 hp.1.2,Int.emod_eq_of_lt hp.2.1 hp.2.2] at hend
      exact PixMap.inRange_buffer hend hbuffer hat
    · rw [pmSetPixel_of_not hp]
  · obtain rfl := List.mem_singleton.mp ht
    rwa [hwx.eq hcols hx,hwy.eq hrows hy]
  · have hsame : pmGetPixel pm m x y = pmGetPixel pm m (x % pm.width) (y % pm.height) := by
      rw [pmGetPixel,pmGetPixel,hwx.eq hcols hx,hwy.eq hrows hy,wrapped_of_nonneg hX.1 hX.2,
        wrapped_of_nonneg hY.1 hY.2]
    rw [hsame,pmGetPixel_eq ⟨hX,hY⟩]

/-- The buffer of a pixel map has room for its rows, and a ptrdiff_t for its size. -/
structure PixMap.Buffered (pm : PixMap) : Prop where
  /-- A row fits into the pitch. -/
  row : (pm.width.toNat * pm.format.bpp + 7) / 8 ≤ pm.pitch
  /-- No object is larger. -/
  size : pm.pitch * pm.height.toNat < 2 ^ 31

/-- The bytes of a buffer, as an integer. -/
theorem PixMap.Buffered.cast (h : pm.Buffered) : (pm.pitch : ℤ) * pm.height < 2 ^ 31 := by
  have hsize := h.size
  zify at hsize
  rwa [Int.toNat_of_nonneg pm.rows.1.le] at hsize

/-- A row has at least a byte for each pixel. -/
theorem PixMap.Buffered.width_le (h : pm.Buffered) : pm.width ≤ pm.pitch := by
  have hrow := h.row
  have hcols := pm.columns
  have hbpp : 8 ≤ pm.format.bpp := by
    obtain h | h | h | h | h := pm.supported <;> omega
  have : pm.width.toNat * 8 ≤ pm.width.toNat * pm.format.bpp := Nat.mul_le_mul_left _ hbpp
  omega

/-- A pixel map whose columns an int can count only just has one row. -/
theorem PixMap.Buffered.height_of_wide (h : pm.Buffered) (hwide : 2 ^ 30 < pm.width) :
    pm.height = 1 := by
  have hcast := h.cast
  have hle := h.width_le
  have hrows := pm.rows
  nlinarith

/-- A pixel map whose rows an int can count only just has one column of bytes. -/
theorem PixMap.Buffered.width_of_tall (h : pm.Buffered) (htall : 2 ^ 30 < pm.height) :
    pm.pitch = 1 ∧ pm.width = 1 := by
  have hcast := h.cast
  have hle := h.width_le
  have hcols := pm.columns
  have hpitch : (pm.pitch : ℤ) < 2 := by nlinarith
  omega

/-- A wrapped coordinate is negative only if the size is very large. -/
theorem wrapped_nonneg (hsize : 0 < size ∧ size < 2 ^ 31) (hc : -2 ^ 31 ≤ c ∧ c < 2 ^ 31) :
    0 ≤ wrapped c size ∨ (2 ^ 30 < size ∧ wrapped c size = -2 ^ 31) := by
  by_cases h : Wraps c size
  · rw [h.eq hsize hc]
    exact .inl (Int.emod_nonneg c hsize.1.ne')
  · obtain h | h := wrapped_of_not h hsize hc
    · left
      omega
    · exact .inr h

/-- A row that does not exist is not in the buffer. -/
theorem not_inside_row (h : pm.Buffered) (hx : -2 ^ 31 ≤ x ∧ x < 2 ^ 31)
    (hy : -2 ^ 31 ≤ y ∧ y < 2 ^ 31) (hwy : ¬Wraps y pm.height) :
    ¬pm.Inside (pm.touched (wrapped x pm.width) (wrapped y pm.height)) := by
  rintro ⟨hfirst,hend⟩
  rw [PixMap.touched] at hfirst hend
  dsimp only at hfirst hend
  have hbytes := (pixelBytes_pos pm.format).1
  have haccess := (accessBytes_pos pm.format).1
  have hcast := h.cast
  have hle := h.width_le
  have hcols := pm.columns
  have hrows := pm.rows
  have hX := wrapped_nonneg hcols hx
  obtain ⟨hlow,hhigh⟩ | ⟨htall,hY⟩ := wrapped_of_not hwy hrows hy
  · have hrow : (pm.pitch : ℤ) * pm.height ≤ pm.pitch * wrapped y pm.height :=
      mul_le_mul_of_nonneg_left hlow (by positivity)
    have hrow' : (pm.pitch : ℤ) * wrapped y pm.height ≤ 2 * (pm.pitch * pm.height) := by
      nlinarith
    have hlt : pm.pitch * (wrapped y pm.height).toNat < 2 ^ 32 := by
      zify
      rw [Int.toNat_of_nonneg (by omega)]
      omega
    rw [PixMap.place_eq (by omega) hlt] at hfirst hend
    obtain hX | ⟨hwide,hX⟩ := hX
    · have : 0 ≤ wrapped x pm.width * (pixelBytes pm.format : ℤ) := by positivity
      omega
    · have hheight := h.height_of_wide hwide
      have hone : wrapped y pm.height = 1 := by omega
      rw [hX,hone] at hfirst
      rw [hheight] at hcast
      omega
  · obtain ⟨hpitch,hwidth⟩ := h.width_of_tall htall
    obtain hX | ⟨hwide,-⟩ := hX
    · have : 0 ≤ wrapped x pm.width * (pixelBytes pm.format : ℤ) := by positivity
      rw [PixMap.place,hY,hpitch] at hend
      norm_num at hend
      rw [hpitch] at hcast
      omega
    · omega

/-- A column that does not exist is not in the buffer, or its colour is another. -/
theorem wraps_of_safe (h : pm.Buffered) (hx : -2 ^ 31 ≤ x ∧ x < 2 ^ 31)
    (hy : -2 ^ 31 ≤ y ∧ y < 2 ^ 31) (hwy : Wraps y pm.height) (hsafe : Safe pm x y)
    (hcolor : pm.color 1 ≠ pm.color 0) : Wraps x pm.width := by
  by_contra hwx
  have hcols := pm.columns
  have hrows := pm.rows
  have hbytes := (pixelBytes_pos pm.format)
  have haccess := (accessBytes_pos pm.format)
  have hcast := h.cast
  have hY := hwy.eq hrows hy
  have hYlow := Int.emod_nonneg y hrows.1.ne'
  have hYhigh := Int.emod_lt_of_pos y hrows.1
  have hXlow := Int.emod_nonneg x hcols.1.ne'
  have hXhigh := Int.emod_lt_of_pos x hcols.1
  obtain ⟨hfirst,hend⟩ := hsafe.get _ (List.mem_singleton_self _)
  rw [hY,PixMap.touched] at hfirst hend
  dsimp only at hfirst hend
  have hrow : (pm.pitch : ℤ) * (y % pm.height) ≤ pm.pitch * pm.height :=
    mul_le_mul_of_nonneg_left hYhigh.le (by positivity)
  rw [PixMap.place_of_row h.size hYlow hYhigh] at hfirst hend
  obtain ⟨hlow,-⟩ | ⟨hwide,hX⟩ := wrapped_of_not hwx hcols hx
  · set X := wrapped x pm.width with hXdef
    set Y := y % pm.height with hYdef
    set b := pixelBytes pm.format with hb
    have hX : 0 ≤ X := by omega
    -- a memory that is zero but for the first byte of the right pixel
    set m := writeNat (fun _ => 0) (pm.at (x % pm.width) Y) b 1 with hm
    have hread : readNat m b (pm.at (x % pm.width) Y) = 1 := by
      rw [hm,readNat_writeNat (by omega)]
      exact Nat.mod_eq_of_lt (Nat.one_lt_pow hbytes.1.ne' (by decide))
    have hzero : readNat (fun _ => 0) b (pm.at (x % pm.width) Y) = 0 := readNat_zeros _ _
    have hoffset : pm.offset (x % pm.width) Y < pm.offset X Y := by
      have := @PixMap.offset_row pm _ Y X hXlow (by omega)
      omega
    have hbound : pm.offset X Y + accessBytes pm.format ≤ 2 ^ 32 := by
      zify
      rw [PixMap.offset,← hb]
      push_cast
      rw [Int.toNat_of_nonneg hX,Int.toNat_of_nonneg hYlow]
      omega
    have hsame : pmGetPixel pm m x y = pmGetPixel pm (fun _ => 0) x y := by
      refine pmGetPixel_congr fun a ha => ?_
      rw [hY,← hXdef,PixMap.at_eq hX hYlow,inRange_add hbound] at ha
      rw [hm,writeNat]
      split_ifs with hin
      · have hpos : (a - pm.at (x % pm.width) Y).toNat ≠ 0 := by
          intro h0
          have hat : a = pm.at (x % pm.width) Y := by bv_omega
          rw [hat,PixMap.at_eq hXlow hYlow] at ha
          bv_omega
        rw [Nat.div_eq_of_lt (Nat.one_lt_pow hpos (by decide))]
        rfl
      · rfl
    rw [hsafe.color,hsafe.color,← hYdef,← hb,hread,hzero] at hsame
    exact hcolor hsame
  · have hheight := h.height_of_wide hwide
    have hzero : y % pm.height = 0 := by omega
    rw [hX,hzero] at hfirst
    omega

/-- There are colours that tell the values zero and one apart. -/
theorem PixMap.distinct (pm : PixMap) : ∃ f palette,∃ h : f.bpp = pm.format.bpp,
    (pm.recolored f palette h).color 1 ≠ (pm.recolored f palette h).color 0 := by
  by_cases h8 : pm.format.bpp = 8
  · refine ⟨pm.format,fun i => ⟨i,0,0,0⟩,rfl,fun h => ?_⟩
    rw [PixMap.color,PixMap.color,PixMap.recolored,if_pos h8,if_pos h8] at h
    exact absurd (congrArg Color.a h) one_ne_zero
  · have hpacks := packed_packs (pm.depths h8)
    have hcodec := (codec_of_proper hpacks.proper (hpacks.bits.symm ▸ pm.supported)).value
    refine ⟨_,pm.palette,hpacks.bits,fun h => ?_⟩
    have hne : (packed pm.format.bpp).bpp ≠ 8 := hpacks.bits.symm ▸ h8
    rw [PixMap.color,PixMap.color,PixMap.recolored,if_neg hne,if_neg hne] at h
    have hvalue := congrArg (pmColorToValue (packed pm.format.bpp)) h
    dsimp only at hvalue
    rw [hcodec,hcodec,hpacks.mask,Nat.zero_and] at hvalue
    obtain h | h | h | h := pm.depths h8 <;> rw [h] at hvalue <;> exact absurd hvalue (by decide)

/-- Accesses of all colours are safe exactly where both coordinates are wrapped right
and the access for the pixel ends in the buffer. -/
theorem pixel_access (h : pm.Buffered) (hx : -2 ^ 31 ≤ x ∧ x < 2 ^ 31)
    (hy : -2 ^ 31 ≤ y ∧ y < 2 ^ 31) :
    (∀ f palette (hf : f.bpp = pm.format.bpp),Safe (pm.recolored f palette hf) x y) ↔
      Wraps x pm.width ∧ Wraps y pm.height ∧ pm.Ends (x % pm.width) (y % pm.height) := by
  have hbuffered : ∀ f palette (hf : f.bpp = pm.format.bpp),
      (pm.recolored f palette hf).Buffered := fun f palette hf =>
    ⟨by rw [PixMap.recolored,hf]; exact h.row,h.size⟩
  have hends : ∀ f palette (hf : f.bpp = pm.format.bpp) x y,
      (pm.recolored f palette hf).Ends x y ↔ pm.Ends x y := by
    intro f palette hf x y
    rw [PixMap.Ends,PixMap.Ends,PixMap.recolored,pixelBytes_congr hf,accessBytes,accessBytes,hf]
  constructor
  · intro hall
    obtain ⟨f,palette,hf,hcolor⟩ := pm.distinct
    have hsafe := hall f palette hf
    have hget := hsafe.get _ (List.mem_singleton_self _)
    have hwy : Wraps y pm.height := by
      by_contra hnot
      exact not_inside_row (hbuffered f palette hf) hx hy hnot hget
    have hwx := wraps_of_safe (hbuffered f palette hf) hx hy hwy hsafe hcolor
    change Wraps x pm.width at hwx
    refine ⟨hwx,hwy,(hends f palette hf _ _).mp ?_⟩
    have hX := Int.emod_nonneg x pm.columns.1.ne'
    have hY := Int.emod_nonneg y pm.rows.1.ne'
    have hYhigh := Int.emod_lt_of_pos y pm.rows.1
    change (pm.recolored f palette hf).Inside ((pm.recolored f palette hf).touched
      (wrapped x pm.width) (wrapped y pm.height)) at hget
    rw [hwx.eq pm.columns hx,hwy.eq pm.rows hy] at hget
    exact (PixMap.inside_iff (hbuffered f palette hf).size hX hY hYhigh).mp hget
  · rintro ⟨hwx,hwy,hend⟩ f palette hf
    exact safe_of_wraps (hbuffered f palette hf).size hx hy hwx hwy
      ((hends f palette hf _ _).mpr hend)

theorem one_row : 0 < (1 : ℤ) ∧ (1 : ℤ) < 2 ^ 31 := by decide

/-- A row of 24-bit pixels in a buffer without a byte too much. -/
def threeBytes : PixMap where
  width := 3
  height := 1
  pitch := 9
  format := packed 24
  palette := fun _ => white
  pixels := 0x100000
  supported := .inr (.inr (.inr (.inl rfl)))
  columns := by decide
  rows := one_row
  room := by decide

theorem threeBytes_buffered : threeBytes.Buffered := ⟨by decide,by decide⟩

/-- The last pixel is written and read with a byte behind the buffer. -/
theorem access_behind_buffer : threeBytes.Buffered ∧
    (∃ t ∈ setTouches threeBytes 2 0,¬threeBytes.Inside t) ∧
      ∃ t ∈ getTouches threeBytes 2 0,¬threeBytes.Inside t := by
  refine ⟨threeBytes_buffered,⟨_,List.mem_singleton_self _,?_⟩,⟨_,List.mem_singleton_self _,?_⟩⟩
  · exact fun h => absurd h.2 (by decide)
  · exact fun h => absurd h.2 (by decide)

/-- The pixel before it is safe, also when it is counted from the right. -/
theorem access_before_last :
    Safe (threeBytes.recolored threeBytes.format threeBytes.palette rfl) (-2) 0 :=
  (pixel_access threeBytes_buffered (by decide) (by decide)).mpr
    ⟨by decide,by decide,by decide⟩ _ _ _

end Buffers

end WootOs.PixMaps
