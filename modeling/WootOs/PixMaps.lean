import WootOs.LittleEndian
import WootOs.PixelFormats

/-!
# Pixel maps in memory

A pixel map describes a part of memory: row after row, a pitch apart, with the
pixels of a row one after the other. Pixels of 8 bits are indexes into a
palette, the others hold their colour. A pixel of 15 bits takes two bytes, and
one of 24 bits is accessed as four bytes, the last of which belong to what
comes after it.

Seen through the addresses of its pixels a pixel map is one of those that the
window manager deals with.
-/

namespace WootOs.PixMaps

open ByteMemory PixelFormats
open WindowManager (PixelFormat Color pmColorToValue pmColorFromValue pmColorBlack int)

/-- isDepthSupported. -/
def isDepthSupported (depth : ℕ) : Prop :=
  depth = 8 ∨ depth = 15 ∨ depth = 16 ∨ depth = 24 ∨ depth = 32

instance (depth : ℕ) : Decidable (isDepthSupported depth) := inferInstanceAs (Decidable (_ ∨ _))

/-- pmFormatPixelsToBytes. -/
def pmFormatPixelsToBytes (f : PixelFormat) (pixels : ℕ) : ℕ := (pixels * f.bpp + 7) % 2 ^ 32 / 8

/-- From one pixel to the next, in bytes. -/
def pixelBytes (f : PixelFormat) : ℕ :=
  if f.bpp = 32 then 4 else if f.bpp = 24 then 3 else if f.bpp = 8 then 1 else 2

/-- pmPixMap. -/
structure PixMap where
  /-- Contents.Width. -/
  width : ℤ
  /-- Contents.Height. -/
  height : ℤ
  /-- Pitch. -/
  pitch : ℕ
  /-- Format. -/
  format : PixelFormat
  /-- Palette, which pixel maps of 8 bits have. -/
  palette : ℕ → Color
  /-- Pixels. -/
  pixels : Word
  /-- There is no other depth. -/
  supported : isDepthSupported format.bpp
  /-- There is a column, and an int counts them. -/
  columns : 0 < width ∧ width < 2 ^ 31
  /-- There is a row, and an int counts them. -/
  rows : 0 < height ∧ height < 2 ^ 31
  /-- The pixels lie in memory. -/
  room : pitch * (height.toNat - 1) + width.toNat * pixelBytes format ≤ 2 ^ 32

/-- pmCreate, with the pixels and the palette that it gets. -/
def pmCreate (width height : ℤ) (f : PixelFormat) (palette : ℕ → Color) (pixels : Word)
    (hwidth : width < 2 ^ 31) (hheight : height < 2 ^ 31)
    (room : pmFormatPixelsToBytes f width.toNat * (height.toNat - 1) +
      width.toNat * pixelBytes f ≤ 2 ^ 32) : Option PixMap :=
  if h : width < 1 ∨ height < 1 ∨ ¬isDepthSupported f.bpp then none
  else some
    { width := width
      height := height
      pitch := pmFormatPixelsToBytes f width.toNat
      format := f
      palette := palette
      pixels := pixels
      supported := by
        by_contra hnot
        exact h (.inr (.inr hnot))
      columns := ⟨by omega,hwidth⟩
      rows := ⟨by omega,hheight⟩
      room := room }

/-- A pixel map with other colours. -/
def PixMap.recolored (pm : PixMap) (f : PixelFormat) (palette : ℕ → Color)
    (h : f.bpp = pm.format.bpp) : PixMap :=
  { pm with
    format := f
    palette := palette
    supported := h ▸ pm.supported
    room := by
      have := pm.room
      rw [pixelBytes] at this ⊢
      rwa [h] }

/-- How far a pixel is from the first one, with so many bytes from one to the
next. The product with the pitch is one of the unsigned type. -/
def PixMap.place (pm : PixMap) (x y : ℤ) (bytes : ℕ) : ℤ := pm.pitch * y % 2 ^ 32 + x * bytes

/-- Where a pixel is, with so many bytes from one to the next. -/
def PixMap.address (pm : PixMap) (x y : ℤ) (bytes : ℕ) : Word :=
  pm.pixels + BitVec.ofInt 32 (pm.place x y bytes)

/-- The pixel map as the window manager sees it. -/
def PixMap.view (pm : PixMap) (m : Memory) : WindowManager.PixMap where
  width := pm.width
  height := pm.height
  format := pm.format
  palette := pm.palette
  address := pm.pixels.toNat
  pixels x y := readNat m (pixelBytes pm.format) (pm.address x y (pixelBytes pm.format))

/-- pmIndexFromColor. -/
def pmIndexFromColor (pm : PixMap) (c : Color) : ℕ :=
  WindowManager.pmIndexFromColor (pm.view fun _ => 0) c

/-- pmSetPixel. -/
def pmSetPixel (pm : PixMap) (m : Memory) (x y : ℤ) (color : Color) : Memory :=
  if x < 0 ∨ pm.width ≤ x ∨ y < 0 ∨ pm.height ≤ y then m
  else
    let m := if pm.format.bpp = 8 then
        Function.update m (pm.address x y 1) (BitVec.ofNat 8 (pmIndexFromColor pm color))
      else m
    let col := BitVec.ofNat 32 (pmColorToValue pm.format color)
    if pm.format.bpp = 32 then write32 m (pm.address x y 4) col
    else if pm.format.bpp = 24 then
      write32 m (pm.address x y 3) (read32 m (pm.address x y 3) &&& 0xFF000000#32 ||| col)
    else if pm.format.bpp = 16 ∨ pm.format.bpp = 15 then
      write16 m (pm.address x y 2) (col.setWidth 16)
    else m

/-- A coordinate as pmGetPixel takes it. -/
def wrapped (x size : ℤ) : ℤ :=
  if x < 0 then int (size - (int (-x)).tmod size) else x.tmod size

/-- pmGetPixel. -/
def pmGetPixel (pm : PixMap) (m : Memory) (x y : ℤ) : Color :=
  let x := wrapped x pm.width
  let y := wrapped y pm.height
  if pm.format.bpp = 32 then
    pmColorFromValue pm.format (read32 m (pm.address x y 4)).toNat
  else if pm.format.bpp = 24 then
    pmColorFromValue pm.format (read32 m (pm.address x y 3) &&& 0xFFFFFF#32).toNat
  else if pm.format.bpp = 16 ∨ pm.format.bpp = 15 then
    pmColorFromValue pm.format (read16 m (pm.address x y 2)).toNat
  else if pm.format.bpp = 8 then pm.palette (m (pm.address x y 1)).toNat
  else pmColorBlack

/-- How many bytes are accessed for a pixel. -/
def accessBytes (f : PixelFormat) : ℕ :=
  if f.bpp = 32 then 4 else if f.bpp = 24 then 4 else if f.bpp = 8 then 1 else 2

/-- Bytes of a buffer, by how far they are from its start. -/
structure Touched where
  /-- The first byte. -/
  first : ℤ
  /-- How many bytes. -/
  count : ℕ

/-- The bytes for a pixel. -/
def PixMap.touched (pm : PixMap) (x y : ℤ) : Touched :=
  ⟨pm.place x y (pixelBytes pm.format),accessBytes pm.format⟩

/-- The bytes that pmSetPixel touches. -/
def setTouches (pm : PixMap) (x y : ℤ) : List Touched :=
  if x < 0 ∨ pm.width ≤ x ∨ y < 0 ∨ pm.height ≤ y then [] else [pm.touched x y]

/-- The bytes that pmGetPixel touches. -/
def getTouches (pm : PixMap) (x y : ℤ) : List Touched :=
  [pm.touched (wrapped x pm.width) (wrapped y pm.height)]

/-- The pixel map has a pixel at a column and a row. -/
def PixMap.Has (pm : PixMap) (x y : ℤ) : Prop :=
  (0 ≤ x ∧ x < pm.width) ∧ 0 ≤ y ∧ y < pm.height

instance (pm : PixMap) (x y : ℤ) : Decidable (pm.Has x y) := inferInstanceAs (Decidable (_ ∧ _))

/-- The address of a pixel. -/
def PixMap.at (pm : PixMap) (x y : ℤ) : Word := pm.address x y (pixelBytes pm.format)

/-- The number that pmSetPixel puts into a pixel. -/
def PixMap.stored (pm : PixMap) (c : Color) : ℕ :=
  if pm.format.bpp = 8 then pmIndexFromColor pm c else pmColorToValue pm.format c

/-- The colour of a number in a pixel. -/
def PixMap.color (pm : PixMap) (v : ℕ) : Color :=
  if pm.format.bpp = 8 then pm.palette v else pmColorFromValue pm.format v

/-- Rows lie apart. -/
def PixMap.Apart (pm : PixMap) : Prop :=
  pm.height ≤ 1 ∨ pm.width * pixelBytes pm.format ≤ pm.pitch

instance (pm : PixMap) : Decidable pm.Apart := inferInstanceAs (Decidable (_ ∨ _))

section Places

variable {pm : PixMap} {m : Memory} {x y x' y' : ℤ} {n k : ℕ} {a base : Word}

/-- How far a pixel of the pixel map is from the first one. -/
def PixMap.offset (pm : PixMap) (x y : ℤ) : ℕ :=
  pm.pitch * y.toNat + x.toNat * pixelBytes pm.format

theorem pixelBytes_pos (f : PixelFormat) : 0 < pixelBytes f ∧ pixelBytes f ≤ 4 := by
  rw [pixelBytes]
  split_ifs <;> decide

/-- A pixel ends in memory. -/
theorem PixMap.offset_le (h : pm.Has x y) : pm.offset x y + pixelBytes pm.format ≤ 2 ^ 32 := by
  obtain ⟨⟨hx,hxw⟩,hy,hyh⟩ := h
  have hroom := pm.room
  have hrow : pm.pitch * y.toNat ≤ pm.pitch * (pm.height.toNat - 1) :=
    Nat.mul_le_mul_left _ (by omega)
  have hcol : (x.toNat + 1) * pixelBytes pm.format ≤ pm.width.toNat * pixelBytes pm.format :=
    Nat.mul_le_mul_right _ (by omega)
  rw [Nat.add_mul,Nat.one_mul] at hcol
  rw [PixMap.offset]
  omega

/-- A pixel is as far from the first one as its offset says. -/
theorem PixMap.at_eq (hx : 0 ≤ x) (hy : 0 ≤ y) :
    pm.at x y = pm.pixels + BitVec.ofNat 32 (pm.offset x y) := by
  have hplace : pm.place x y (pixelBytes pm.format) % 2 ^ 32 = (pm.offset x y : ℤ) % 2 ^ 32 := by
    rw [PixMap.place,Int.emod_add_emod,PixMap.offset]
    push_cast
    rw [Int.toNat_of_nonneg hx,Int.toNat_of_nonneg hy]
  rw [PixMap.at,PixMap.address,← BitVec.ofInt_natCast]
  congr 1
  refine BitVec.eq_of_toNat_eq ?_
  rw [BitVec.toNat_ofInt,BitVec.toNat_ofInt]
  exact congrArg Int.toNat hplace

/-- The bytes from an offset on. -/
theorem inRange_add (h : n + k ≤ 2 ^ 32) : InRange (base + BitVec.ofNat 32 n) k a ↔
    n ≤ (a - base).toNat ∧ (a - base).toNat < n + k := by
  rw [InRange]
  by_cases hk : k = 0
  · subst hk
    omega
  · have hn : n < 2 ^ 32 := by omega
    bv_omega

/-- The place of a pixel without wrapping. -/
theorem PixMap.place_eq (hy : 0 ≤ y) (h : pm.pitch * y.toNat < 2 ^ 32) (bytes : ℕ) :
    pm.place x y bytes = pm.pitch * y + x * bytes := by
  have hcast : ((pm.pitch * y.toNat : ℕ) : ℤ) = pm.pitch * y := by
    push_cast
    rw [Int.toNat_of_nonneg hy]
  rw [PixMap.place,← hcast,Int.emod_eq_of_lt (by positivity) (by exact_mod_cast h)]

/-- A pixel ends before the next row where rows lie apart. -/
theorem PixMap.Apart.offset_le (h : pm.Apart) (hp : pm.Has x y) (hq : pm.Has x' y')
    (hlt : y < y') : pm.offset x y + pixelBytes pm.format ≤ pm.offset x' y' := by
  obtain ⟨⟨hx,hxw⟩,hy,hyh⟩ := hp
  obtain ⟨-,hy',hyh'⟩ := hq
  have hpitch : pm.width.toNat * pixelBytes pm.format ≤ pm.pitch := by
    have := h.resolve_left (by omega)
    zify
    rwa [Int.toNat_of_nonneg (by omega)]
  have hcol : (x.toNat + 1) * pixelBytes pm.format ≤ pm.width.toNat * pixelBytes pm.format :=
    Nat.mul_le_mul_right _ (by omega)
  have hrow : pm.pitch * (y.toNat + 1) ≤ pm.pitch * y'.toNat := Nat.mul_le_mul_left _ (by omega)
  rw [Nat.add_mul,Nat.one_mul] at hcol
  rw [Nat.mul_add,Nat.mul_one] at hrow
  rw [PixMap.offset,PixMap.offset]
  omega

/-- A pixel ends before the next one of its row. -/
theorem PixMap.offset_row (hx : 0 ≤ x) (hlt : x < x') :
    pm.offset x y + pixelBytes pm.format ≤ pm.offset x' y := by
  have hcol : (x.toNat + 1) * pixelBytes pm.format ≤ x'.toNat * pixelBytes pm.format :=
    Nat.mul_le_mul_right _ (by omega)
  rw [Nat.add_mul,Nat.one_mul] at hcol
  rw [PixMap.offset,PixMap.offset]
  omega

/-- A pixel that exists lies at its offset. -/
theorem PixMap.mem_at (h : pm.Has x y) : InRange (pm.at x y) (pixelBytes pm.format) a ↔
    pm.offset x y ≤ (a - pm.pixels).toNat ∧
      (a - pm.pixels).toNat < pm.offset x y + pixelBytes pm.format := by
  rw [PixMap.at_eq h.1.1 h.2.1,inRange_add (PixMap.offset_le h)]

/-- Different pixels of rows that lie apart have no byte in common. -/
theorem PixMap.Apart.disjoint (h : pm.Apart) (hp : pm.Has x y) (hq : pm.Has x' y')
    (hne : (x',y') ≠ (x,y)) (ha : InRange (pm.at x y) (pixelBytes pm.format) a) :
    ¬InRange (pm.at x' y') (pixelBytes pm.format) a := by
  intro ha'
  rw [PixMap.mem_at hp] at ha
  rw [PixMap.mem_at hq] at ha'
  obtain hlt | heq | hgt := lt_trichotomy y y'
  · have := h.offset_le hp hq hlt
    omega
  · subst heq
    obtain hlt | heq | hgt := lt_trichotomy x x'
    · have := @PixMap.offset_row pm _ y _ hp.1.1 hlt
      omega
    · exact hne (by rw [heq])
    · have := @PixMap.offset_row pm _ y _ hq.1.1 hgt
      omega
  · have := h.offset_le hq hp hgt
    omega

/-- A coordinate of the pixel map stays as it is. -/
theorem wrapped_of_nonneg {c size : ℤ} (hl : 0 ≤ c) (hu : c < size) : wrapped c size = c := by
  rw [wrapped,if_neg (not_lt.mpr hl),Int.tmod_eq_of_lt hl hu]

/-- A number is written as a word of as many bits. -/
theorem writeNat_ofNat {w : ℕ} (hw : 2 ^ w = 256 ^ n) (v : ℕ) :
    writeNat m a n (BitVec.ofNat w v).toNat = writeNat m a n v := by
  rw [BitVec.toNat_ofNat,hw,writeNat_mod]

/-- A pixel is written as a number of so many bytes. -/
theorem pmSetPixel_eq {c : Color} (h : pm.Has x y)
    (hc : pm.format.bpp = 24 → pmColorToValue pm.format c < 2 ^ 24) :
    pmSetPixel pm m x y c = writeNat m (pm.at x y) (pixelBytes pm.format) (pm.stored c) := by
  obtain ⟨⟨hx,hxw⟩,hy,hyh⟩ := h
  rw [pmSetPixel,if_neg (by omega),PixMap.at,PixMap.stored]
  obtain h | h | h | h | h := pm.supported
  · simp only [h,pixelBytes]
    norm_num
    rw [update_eq,writeNat_ofNat (by norm_num)]
  · simp only [h,pixelBytes]
    norm_num
    rw [write16_eq,writeNat_ofNat (by norm_num)]
  · simp only [h,pixelBytes]
    norm_num
    rw [write16_eq,writeNat_ofNat (by norm_num)]
  · have hvalue : (BitVec.ofNat 32 (pmColorToValue pm.format c)).toNat =
        pmColorToValue pm.format c := by
      rw [BitVec.toNat_ofNat,Nat.mod_eq_of_lt (lt_trans (hc h) (by norm_num))]
    simp only [h,pixelBytes]
    norm_num
    rw [write24_eq m _ (by rw [hvalue]; exact hc h),hvalue]
  · simp only [h,pixelBytes]
    norm_num
    rw [write32_eq,writeNat_ofNat (by norm_num)]

/-- A pixel that does not exist is not written. -/
theorem pmSetPixel_of_not {c : Color} (h : ¬pm.Has x y) : pmSetPixel pm m x y c = m := by
  rw [PixMap.Has] at h
  rw [pmSetPixel,if_pos (by omega)]

/-- A pixel is read as a number of so many bytes. -/
theorem pmGetPixel_eq (h : pm.Has x y) :
    pmGetPixel pm m x y = pm.color (readNat m (pixelBytes pm.format) (pm.at x y)) := by
  rw [pmGetPixel,wrapped_of_nonneg h.1.1 h.1.2,wrapped_of_nonneg h.2.1 h.2.2,PixMap.at,PixMap.color]
  obtain h | h | h | h | h := pm.supported
  · simp only [h,pixelBytes]
    norm_num
    rw [readNat_one]
  · simp only [h,pixelBytes]
    norm_num
    rw [read16_toNat]
  · simp only [h,pixelBytes]
    norm_num
    rw [read16_toNat]
  · simp only [h,pixelBytes]
    norm_num
    rw [← read24_toNat]
    rfl
  · simp only [h,pixelBytes]
    norm_num
    rw [read32_toNat]

/-- pmSetPixel leaves all bytes that do not belong to the pixel. -/
theorem pmSetPixel_frame {c : Color}
    (hc : pm.format.bpp = 24 → pmColorToValue pm.format c < 2 ^ 24)
    (ha : pm.Has x y → ¬InRange (pm.at x y) (pixelBytes pm.format) a) :
    pmSetPixel pm m x y c a = m a := by
  by_cases h : pm.Has x y
  · rw [pmSetPixel_eq h hc,writeNat_of_not (ha h)]
  · rw [pmSetPixel_of_not h]

end Places

end WootOs.PixMaps
