import WootOs.PixMaps
import WootOs.RectangleAlgebra

/-!
# Damage of nested pixel maps

pmSubPixMap makes a pixel map of a part of another one, whose pixels it shares.
A rectangle of it that has to be drawn anew is handed from parent to parent and
added to the dirty rectangle of the outermost one. On the way each parent adds
its own position, and the innermost pixel map never adds the one that it has in
its parent. Positions are those that were asked for, not those of the part that
the parent has.
-/

namespace WootOs.DamageTracking

open ByteMemory PixMaps
open WindowManager (PixelFormat Rectangle rcAdd rcIntersect rcIsEmpty int pmFormatA8R8G8B8)

/-- What pmInvalidateRect and pmSubPixMap use of a pmPixMap. -/
structure PixMap where
  /-- Contents: the position and the size. -/
  contents : Rectangle
  /-- Pitch. -/
  pitch : ℕ
  /-- Format. -/
  format : PixelFormat
  /-- Pixels. -/
  pixels : Word

/-- pmFromMemory, which gets the memory that it needs. -/
def pmFromMemory (width height : ℤ) (pitch : ℕ) (format : PixelFormat) (pixels : Word) :
    Option PixMap :=
  if width < 1 ∨ height < 1 ∨ ¬isDepthSupported format.bpp then none
  else some ⟨⟨0,0,width,height⟩,pitch,format,pixels⟩

/-- pmSubPixMap. -/
def pmSubPixMap (src : PixMap) (x y w h : ℤ) : Option PixMap :=
  let newRect := rcIntersect ⟨0,0,src.contents.width,src.contents.height⟩ ⟨x,y,w,h⟩
  if newRect.width ≤ 0 ∨ newRect.height ≤ 0 then none
  else (pmFromMemory newRect.width newRect.height src.pitch src.format
    (src.pixels + BitVec.ofInt 32 (newRect.y * src.pitch) +
      BitVec.ofNat 32 (pmFormatPixelsToBytes src.format newRect.x.toNat))).map fun pm =>
    { pm with contents := ⟨x,y,pm.contents.width,pm.contents.height⟩ }

/-- A pixel map with its parents. -/
inductive Chain where
  /-- One without a parent. -/
  | root (pm : PixMap)
  /-- One that was made of a part of its parent. -/
  | sub (parent : Chain) (pm : PixMap)

/-- The innermost pixel map. -/
def Chain.own : Chain → PixMap
  | root pm => pm
  | sub _ pm => pm

/-- The outermost pixel map. -/
def Chain.outermost : Chain → PixMap
  | root pm => pm
  | sub parent _ => parent.outermost

/-- pmInvalidateRect: the dirty rectangle of the outermost pixel map afterwards. -/
def pmInvalidateRect (dirty : Rectangle) : Chain → Rectangle → Rectangle
  | .root _,rect => rcAdd dirty rect
  | .sub parent _,rect => pmInvalidateRect dirty parent
      ⟨int (rect.x + parent.own.contents.x),int (rect.y + parent.own.contents.y),
        rect.width,rect.height⟩

/-- pmInvalidateRectP, which copies the rectangle before it changes it. -/
def pmInvalidateRectP (dirty : Rectangle) : Chain → Rectangle → Rectangle
  | .sub parent _,rect =>
    let r := rect
    let r := { r with x := int (r.x + parent.own.contents.x) }
    let r := { r with y := int (r.y + parent.own.contents.y) }
    pmInvalidateRectP dirty parent r
  | .root _,rect => rcAdd dirty rect

/-- Chains that pmSubPixMap makes from a pixel map of any memory. -/
inductive Made : Chain → Prop
  /-- The outermost pixel map. -/
  | root {width height : ℤ} {pitch : ℕ} {format : PixelFormat} {pixels : Word} {pm : PixMap}
      (hwidth : width < 2 ^ 31) (hheight : height < 2 ^ 31)
      (h : pmFromMemory width height pitch format pixels = some pm) : Made (.root pm)
  /-- A part of the innermost one. -/
  | sub {parent : Chain} {x y w h : ℤ} {pm : PixMap} (hparent : Made parent)
      (h : pmSubPixMap parent.own x y w h = some pm) : Made (.sub parent pm)

/-- The positions of the parents together, in columns. -/
def Chain.shiftX : Chain → ℤ
  | root _ => 0
  | sub parent _ => parent.own.contents.x + parent.shiftX

/-- The positions of the parents together, in rows. -/
def Chain.shiftY : Chain → ℤ
  | root _ => 0
  | sub parent _ => parent.own.contents.y + parent.shiftY

/-- How far the pixels of the innermost pixel map are from those of the outermost. -/
def Chain.bytes : Chain → ℤ
  | root _ => 0
  | sub parent pm => parent.bytes + (max 0 pm.contents.y * pm.pitch +
      pmFormatPixelsToBytes pm.format (max 0 pm.contents.x).toNat)

/-- The address of a pixel. -/
def PixMap.at (pm : PixMap) (x y : ℤ) : Word :=
  pm.pixels + BitVec.ofInt 32 (pm.pitch * y + x * pixelBytes pm.format)

/-- The pixels of the innermost pixel map are pixels of the outermost, so many columns
and rows further on. -/
structure Aliases (c : Chain) (tx ty : ℤ) : Prop where
  /-- They are columns of the outermost. -/
  columns : 0 ≤ tx ∧ tx + c.own.contents.width ≤ c.outermost.contents.width
  /-- They are rows of the outermost. -/
  rows : 0 ≤ ty ∧ ty + c.own.contents.height ≤ c.outermost.contents.height
  /-- They are at the same place. -/
  pixels : ∀ x y,(0 ≤ x ∧ x < c.own.contents.width) → (0 ≤ y ∧ y < c.own.contents.height) →
    c.own.at x y = c.outermost.at (x + tx) (y + ty)

/-- A rectangle moved to the right and down. -/
def moved (r : Rectangle) (tx ty : ℤ) : Rectangle :=
  ⟨int (r.x + tx),int (r.y + ty),r.width,r.height⟩

/-- What is expected: both functions add the rectangle to the dirty one where the pixels
of the innermost pixel map are in the outermost. -/
def Tracks (c : Chain) : Prop :=
  ∃ tx ty,Aliases c tx ty ∧ ∀ dirty rect : Rectangle,
    (-2 ^ 31 ≤ rect.x ∧ rect.x < 2 ^ 31) → (-2 ^ 31 ≤ rect.y ∧ rect.y < 2 ^ 31) →
      pmInvalidateRect dirty c rect = rcAdd dirty (moved rect tx ty) ∧
        pmInvalidateRectP dirty c rect = rcAdd dirty (moved rect tx ty)

/-- The positions of the parents lead to the innermost pixel map. -/
def Lands (c : Chain) : Prop :=
  (0 ≤ int c.shiftX ∧ int c.shiftX + c.own.contents.width ≤ c.outermost.contents.width) ∧
  (0 ≤ int c.shiftY ∧ int c.shiftY + c.own.contents.height ≤ c.outermost.contents.height) ∧
  (2 ^ 32 : ℤ) ∣ c.outermost.pitch * int c.shiftY +
    int c.shiftX * pixelBytes c.outermost.format - c.bytes

instance (c : Chain) : Decidable (Lands c) := inferInstanceAs (Decidable (_ ∧ _ ∧ _))

section Chains

variable {c : Chain} {src pm : PixMap} {x y w h tx ty : ℤ} {dirty rect : Rectangle}

/-- Both functions do the same. -/
theorem pmInvalidateRectP_eq (dirty : Rectangle) (c : Chain) (rect : Rectangle) :
    pmInvalidateRectP dirty c rect = pmInvalidateRect dirty c rect := by
  induction c generalizing rect with
  | root pm => rfl
  | sub parent pm ih => exact ih _

/-- Sums of the int type may wrap on the way. -/
theorem int_int_add (a b : ℤ) : int (int a + b) = int (a + b) := by
  rw [int,int,int,MachineInt.signed,MachineInt.signed,MachineInt.signed,Int.bmod_add_bmod]

/-- The rectangle is moved by the positions of the parents. -/
theorem pmInvalidateRect_eq (hx : -2 ^ 31 ≤ rect.x ∧ rect.x < 2 ^ 31)
    (hy : -2 ^ 31 ≤ rect.y ∧ rect.y < 2 ^ 31) :
    pmInvalidateRect dirty c rect = rcAdd dirty (moved rect c.shiftX c.shiftY) := by
  induction c generalizing rect with
  | root pm =>
    rw [pmInvalidateRect,moved,Chain.shiftX,Chain.shiftY,add_zero,add_zero,
      WindowManager.int_eq hx.1 hx.2,WindowManager.int_eq hy.1 hy.2]
  | sub parent pm ih =>
    rw [pmInvalidateRect,ih (WindowManager.int_range _) (WindowManager.int_range _),moved,moved]
    dsimp only
    rw [int_int_add,int_int_add,add_assoc,add_assoc,Chain.shiftX,Chain.shiftY]

/-- What pmSubPixMap makes. -/
theorem pmSubPixMap_spec (hsub : pmSubPixMap src x y w h = some pm) :
    (0 < pm.contents.width ∧ 0 < pm.contents.height) ∧ pm.contents.x = x ∧ pm.contents.y = y ∧
      pm.pitch = src.pitch ∧ pm.format = src.format ∧
      pm.pixels = src.pixels + BitVec.ofInt 32 (max 0 y * src.pitch) +
        BitVec.ofNat 32 (pmFormatPixelsToBytes src.format (max 0 x).toNat) := by
  rw [pmSubPixMap,rcIntersect] at hsub
  dsimp only at hsub
  split_ifs at hsub with hempty hnone
  · exact absurd (.inl le_rfl) hnone
  · obtain ⟨pm',hpm,rfl⟩ := Option.map_eq_some_iff.mp hsub
    rw [pmFromMemory] at hpm
    split_ifs at hpm with hsize
    obtain rfl := Option.some.inj hpm
    exact ⟨⟨by dsimp only; omega,by dsimp only; omega⟩,rfl,rfl,rfl,rfl,rfl⟩

/-- What is the same along a chain, and where its innermost pixels are. -/
structure Shares (c : Chain) : Prop where
  /-- The outermost pixel map has columns and rows, and an int counts them. -/
  outermost : (0 < c.outermost.contents.width ∧ c.outermost.contents.width < 2 ^ 31) ∧
    0 < c.outermost.contents.height ∧ c.outermost.contents.height < 2 ^ 31
  /-- The innermost pixel map has a pixel. -/
  size : 0 < c.own.contents.width ∧ 0 < c.own.contents.height
  /-- The pitch. -/
  pitch : c.own.pitch = c.outermost.pitch
  /-- The format. -/
  format : c.own.format = c.outermost.format
  /-- The pixels. -/
  pixels : c.own.pixels = c.outermost.pixels + BitVec.ofInt 32 c.bytes

theorem Made.shares (hc : Made c) : Shares c := by
  induction hc with
  | root hwidth hheight hroot =>
    rw [pmFromMemory] at hroot
    split_ifs at hroot with hsize
    obtain rfl := Option.some.inj hroot
    refine ⟨⟨⟨?_,hwidth⟩,?_,hheight⟩,⟨?_,?_⟩,rfl,rfl,?_⟩
    · dsimp only [Chain.outermost]
      omega
    · dsimp only [Chain.outermost]
      omega
    · dsimp only [Chain.own]
      omega
    · dsimp only [Chain.own]
      omega
    · simp [Chain.own,Chain.outermost,Chain.bytes]
  | sub hparent hsub ih =>
    obtain ⟨hsize,hx,hy,hpitch,hformat,hpixels⟩ := pmSubPixMap_spec hsub
    refine ⟨ih.outermost,hsize,hpitch.trans ih.pitch,hformat.trans ih.format,?_⟩
    rw [Chain.own,Chain.outermost,Chain.bytes,hpixels,ih.pixels,hx,hy,hpitch,hformat,
      BitVec.ofInt_add,BitVec.ofInt_add,← BitVec.ofInt_natCast,BitVec.add_assoc,BitVec.add_assoc]

/-- Two integers make the same word. -/
theorem ofInt_eq_iff (a b : ℤ) :
    BitVec.ofInt 32 a = BitVec.ofInt 32 b ↔ (2 ^ 32 : ℤ) ∣ b - a := by
  rw [← BitVec.toNat_inj,BitVec.toNat_ofInt,BitVec.toNat_ofInt]
  push_cast
  omega

/-- The innermost pixels are those of the outermost pixel map so much further on exactly
where the first ones are. -/
theorem Shares.aliases_iff (hc : Shares c) : Aliases c tx ty ↔
    (0 ≤ tx ∧ tx + c.own.contents.width ≤ c.outermost.contents.width) ∧
    (0 ≤ ty ∧ ty + c.own.contents.height ≤ c.outermost.contents.height) ∧
    (2 ^ 32 : ℤ) ∣ c.outermost.pitch * ty + tx * pixelBytes c.outermost.format - c.bytes := by
  have hpixels : ∀ x y,c.own.at x y = c.outermost.at (x + tx) (y + ty) ↔
      (2 ^ 32 : ℤ) ∣ c.outermost.pitch * ty + tx * pixelBytes c.outermost.format - c.bytes := by
    intro x y
    have hdiff : c.outermost.pitch * (y + ty) + (x + tx) * pixelBytes c.outermost.format -
        (c.bytes + (c.outermost.pitch * y + x * pixelBytes c.outermost.format)) =
          c.outermost.pitch * ty + tx * pixelBytes c.outermost.format - c.bytes := by ring
    rw [PixMap.at,PixMap.at,hc.pixels,hc.pitch,hc.format,BitVec.add_assoc,← BitVec.ofInt_add,
      BitVec.add_right_inj,ofInt_eq_iff,hdiff]
  constructor
  · rintro ⟨hcolumns,hrows,hplace⟩
    exact ⟨hcolumns,hrows,(hpixels 0 0).mp (hplace 0 0 ⟨le_rfl,hc.size.1⟩ ⟨le_rfl,hc.size.2⟩)⟩
  · rintro ⟨hcolumns,hrows,hdvd⟩
    exact ⟨hcolumns,hrows,fun x y _ _ => (hpixels x y).mpr hdvd⟩

/-- Where damage is tracked the positions lead to the innermost pixels. -/
theorem Shares.lands (hc : Shares c) (h : Tracks c) : Lands c := by
  obtain ⟨tx,ty,haliases,htracks⟩ := h
  have hone := (htracks WindowManager.rcRectangleEmpty ⟨0,0,1,1⟩ (by decide) (by decide)).1
  rw [pmInvalidateRect_eq (by decide) (by decide)] at hone
  have hadd : ∀ tx ty,rcAdd WindowManager.rcRectangleEmpty (moved ⟨0,0,1,1⟩ tx ty) =
      ⟨int tx,int ty,1,1⟩ := by
    intro tx ty
    have hfull : ¬rcIsEmpty (moved ⟨0,0,1,1⟩ tx ty) := fun h =>
      h.elim (fun h => absurd h (by decide : ¬(1 : ℤ) ≤ 0))
        fun h => absurd h (by decide : ¬(1 : ℤ) ≤ 0)
    rw [rcAdd,if_neg hfull,if_pos (.inl le_rfl),moved,zero_add,zero_add]
  rw [hadd,hadd,Rectangle.mk.injEq] at hone
  have hlands := hc.aliases_iff.mp haliases
  obtain ⟨⟨⟨hw0,hw⟩,hh0,hh⟩,⟨hsw,hsh⟩,-,-,-⟩ := hc
  obtain ⟨hcolumns,hrows,-⟩ := haliases
  have htx : int c.shiftX = tx := hone.1.trans (WindowManager.int_eq (by omega) (by omega))
  have hty : int c.shiftY = ty := hone.2.1.trans (WindowManager.int_eq (by omega) (by omega))
  rw [Lands,htx,hty]
  exact hlands

/-- Damage is tracked exactly in chains where the positions of the parents, without the
innermost one, lead to the innermost pixels. -/
theorem damage_tracked (hc : Made c) : Tracks c ↔ Lands c := by
  refine ⟨hc.shares.lands,fun hlands => ?_⟩
  refine ⟨int c.shiftX,int c.shiftY,hc.shares.aliases_iff.mpr hlands,fun dirty rect hx hy => ?_⟩
  have hmoved : moved rect (int c.shiftX) (int c.shiftY) = moved rect c.shiftX c.shiftY := by
    rw [moved,moved,add_comm,int_int_add,add_comm rect.y,int_int_add,add_comm,
      add_comm c.shiftY]
  rw [pmInvalidateRectP_eq,pmInvalidateRect_eq hx hy,hmoved]
  exact ⟨rfl,rfl⟩

/-- Four columns and rows of 32-bit pixels. -/
def screen : PixMap := ⟨⟨0,0,4,4⟩,16,pmFormatA8R8G8B8,0x100000⟩

theorem screen_made : Made (.root screen) := by
  have h : pmFromMemory 4 4 16 pmFormatA8R8G8B8 0x100000 = some screen := rfl
  exact .root (by decide) (by decide) h

/-- The four pixels in its middle. -/
def middle : PixMap := ⟨⟨1,1,2,2⟩,16,pmFormatA8R8G8B8,0x100014⟩

theorem middle_made : Made (.sub (.root screen) middle) := by
  have h : pmSubPixMap screen 1 1 2 2 = some middle := rfl
  exact .sub screen_made h

/-- The middle of the screen has other pixels than those that its damage goes to. -/
theorem middle_not_tracked : Made (.sub (.root screen) middle) ∧
    Aliases (.sub (.root screen) middle) 1 1 ∧
    pmInvalidateRect WindowManager.rcRectangleEmpty (.sub (.root screen) middle) ⟨0,0,1,1⟩ =
      ⟨0,0,1,1⟩ ∧ ¬Tracks (.sub (.root screen) middle) :=
  ⟨middle_made,middle_made.shares.aliases_iff.mpr (by decide),by decide,
    fun h => absurd (middle_made.shares.lands h) (by decide)⟩

/-- The first pixel of the middle. -/
def corner : PixMap := ⟨⟨0,0,1,1⟩,16,pmFormatA8R8G8B8,0x100014⟩

/-- Damage of a part at the first column and row of its parent is tracked. -/
theorem corner_tracked : Tracks (.sub (.sub (.root screen) middle) corner) := by
  have h : pmSubPixMap middle 0 0 1 1 = some corner := rfl
  exact (damage_tracked (.sub middle_made h)).mpr (by decide)

end Chains

end WootOs.DamageTracking
