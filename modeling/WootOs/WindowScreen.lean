import WootOs.Layers
import WootOs.WindowManager
import WootOs.Runs

/-!
# What the screen shows

The windows are layers of a picture. A round of the main loop puts the screen
right as long as every place where the picture has changed lies in the
rectangle that the round draws anew.
-/

namespace WootOs.WindowManager

open MachineInt Layers Runs

theorem int_eq {x : ℤ} (hl : -2 ^ 31 ≤ x) (hu : x < 2 ^ 31) : int x = x :=
  signed_of_range (w := 31) hl hu

/-- A place lies in a rectangle. -/
def Rectangle.Contains (r : Rectangle) (c d : ℤ) : Prop :=
  (r.x ≤ c ∧ c < r.x + r.width) ∧ r.y ≤ d ∧ d < r.y + r.height

instance (r : Rectangle) (c d : ℤ) : Decidable (r.Contains c d) :=
  inferInstanceAs (Decidable ((_ ∧ _) ∧ _ ∧ _))

/-- The edges of a rectangle are within the int type. -/
structure Rectangle.Fits (r : Rectangle) : Prop where
  /-- The left edge. -/
  left : -2 ^ 31 ≤ r.x
  /-- The upper edge. -/
  upper : -2 ^ 31 ≤ r.y
  /-- The number of columns. -/
  width : r.width < 2 ^ 31
  /-- The number of rows. -/
  height : r.height < 2 ^ 31
  /-- The right edge. -/
  right : -2 ^ 31 ≤ r.x + r.width ∧ r.x + r.width < 2 ^ 31
  /-- The lower edge. -/
  lower : -2 ^ 31 ≤ r.y + r.height ∧ r.y + r.height < 2 ^ 31

/-- The size of the sum of two rectangles is within the int type. -/
def SumFits (a b : Rectangle) : Prop :=
  rcIsEmpty a ∨ rcIsEmpty b ∨
    (max (a.x + a.width) (b.x + b.width) - min a.x b.x < 2 ^ 31 ∧
      max (a.y + a.height) (b.y + b.height) - min a.y b.y < 2 ^ 31)

/-- The distance of two rectangles is within the int type. -/
def GapFits (a b : Rectangle) : Prop :=
  -2 ^ 31 ≤ min (a.x + a.width) (b.x + b.width) - max a.x b.x ∧
    -2 ^ 31 ≤ min (a.y + a.height) (b.y + b.height) - max a.y b.y

/-- The sum of two rectangles contains both. -/
theorem rcAdd_spec {a b : Rectangle} (ha : rcIsEmpty a ∨ a.Fits) (hb : rcIsEmpty b ∨ b.Fits)
    (hsum : SumFits a b) : (rcIsEmpty (rcAdd a b) ∨ (rcAdd a b).Fits) ∧
      ∀ c d,a.Contains c d ∨ b.Contains c d → (rcAdd a b).Contains c d := by
  rw [rcAdd]
  split_ifs with hb' ha'
  · refine ⟨ha,fun c d h => h.elim id fun h => ?_⟩
    obtain ⟨⟨_,_⟩,_,_⟩ := h
    rw [rcIsEmpty] at hb'
    omega
  · refine ⟨hb,fun c d h => h.elim (fun h => ?_) id⟩
    obtain ⟨⟨_,_⟩,_,_⟩ := h
    rw [rcIsEmpty] at ha'
    omega
  · obtain ⟨hw,hh⟩ := (hsum.resolve_left ha').resolve_left hb'
    obtain ⟨h1,h2,-,-,h3,h4⟩ := ha.resolve_left ha'
    obtain ⟨h5,h6,-,-,h7,h8⟩ := hb.resolve_left hb'
    rw [rcIsEmpty] at ha' hb'
    dsimp only
    rw [int_eq h3.1 h3.2,int_eq h7.1 h7.2,int_eq h4.1 h4.2,int_eq h8.1 h8.2,
      int_eq (by omega) hw,int_eq (by omega) hh]
    refine ⟨.inr ⟨?_,?_,?_,?_,?_,?_⟩,fun c d h => ?_⟩
    · dsimp only
      omega
    · dsimp only
      omega
    · exact hw
    · exact hh
    · dsimp only
      omega
    · dsimp only
      omega
    · simp only [Rectangle.Contains] at h ⊢
      omega

/-- The intersection of two rectangles, without wrapping. -/
theorem rcIntersect_eq {a b : Rectangle} (ha : a.Fits) (hb : b.Fits) (hgap : GapFits a b) :
    rcIntersect a b =
      if min (a.x + a.width) (b.x + b.width) - max a.x b.x ≤ 0 ∨
          min (a.y + a.height) (b.y + b.height) - max a.y b.y ≤ 0 then rcRectangleEmpty
      else ⟨max a.x b.x,max a.y b.y,min (a.x + a.width) (b.x + b.width) - max a.x b.x,
        min (a.y + a.height) (b.y + b.height) - max a.y b.y⟩ := by
  obtain ⟨-,-,h1,h2,h3,h4⟩ := ha
  obtain ⟨-,-,-,-,h7,h8⟩ := hb
  rw [rcIntersect]
  rw [int_eq h3.1 h3.2,int_eq h7.1 h7.2,int_eq h4.1 h4.2,int_eq h8.1 h8.2,
    int_eq hgap.1 (by omega),int_eq hgap.2 (by omega)]

/-- One direction of a blit of a part of a window. -/
structure Clips (dstSize srcSize sx x w : ℤ) : Prop where
  /-- The destination has a size. -/
  dst : 0 < dstSize ∧ dstSize < 2 ^ 31
  /-- The part lies in the source. -/
  src : 0 ≤ sx ∧ sx + w ≤ srcSize ∧ srcSize < 2 ^ 31
  /-- The part is not empty. -/
  part : 0 < w
  /-- The window starts within the int type. -/
  low : -2 ^ 31 ≤ x - sx
  /-- The part ends within the int type. -/
  high : x + w < 2 ^ 31
  /-- It does not end left of the destination unless the window does. -/
  onto : 0 ≤ x + w ∨ sx + w = srcSize

section Span

variable {dstSize srcSize sx x w : ℤ}

/-- Nothing is drawn in one direction. -/
def Span.Misses (s : Span) (dstSize srcSize : ℤ) : Prop :=
  dstSize ≤ s.x ∨ s.x2 ≤ 0 ∨ srcSize ≤ s.sx

/-- A part that starts in the destination. -/
theorem span_of_nonneg (h : Clips dstSize srcSize sx x w) (hx : 0 ≤ x) :
    span dstSize srcSize sx x w = ⟨x,min dstSize (x + w),sx,min srcSize (sx + w)⟩ := by
  obtain ⟨-,⟨hsx,hsrc,hsize⟩,hpart,-,hhigh,-⟩ := h
  simp only [span,if_neg (not_lt.mpr hx),if_neg (not_lt.mpr hsx),if_neg (not_lt.mpr hpart.le)]
  rw [int_eq (by omega) hhigh,int_eq (by omega) (by omega)]

/-- A part that starts left of the destination and reaches it. -/
theorem span_of_neg (h : Clips dstSize srcSize sx x w) (hx : x < 0) (hw : 0 ≤ x + w)
    (hlow : -2 ^ 31 < x - sx) :
    span dstSize srcSize sx x w = ⟨0,min dstSize (x + w),sx - x,min srcSize (sx + w)⟩ := by
  obtain ⟨-,⟨hsx,hsrc,hsize⟩,hpart,-,hhigh,-⟩ := h
  have h1 : int (sx - x) = sx - x := int_eq (by omega) (by omega)
  have h2 : int (w + x) = x + w := (int_eq (by omega) (by omega)).trans (by ring)
  simp only [span,if_pos hx,h1,h2]
  rw [if_neg (by omega : ¬sx - x < 0)]
  simp only [if_neg (not_lt.mpr hw)]
  rw [zero_add,int_eq (by omega) hhigh,show sx - x + (x + w) = sx + w by ring,
    int_eq (by omega) (by omega)]

/-- A window that ends left of the destination starts past its source. -/
theorem span_of_left (h : Clips dstSize srcSize sx x w) (hw : x + w < 0)
    (hlow : -2 ^ 31 < x - sx) : srcSize ≤ (span dstSize srcSize sx x w).sx := by
  obtain ⟨-,⟨hsx,hsrc,hsize⟩,hpart,-,hhigh,honto⟩ := h
  have hx : x < 0 := by omega
  have h1 : int (sx - x) = sx - x := int_eq (by omega) (by omega)
  simp only [span,if_pos hx,h1]
  rw [if_neg (by omega : ¬sx - x < 0)]
  dsimp only
  omega

/-- A window at the lowest coordinate wraps around and ends left of the destination. -/
theorem span_of_lowest (h : Clips dstSize srcSize sx x w) (hlow : x - sx = -2 ^ 31) :
    (span dstSize srcSize sx x w).x2 ≤ 0 := by
  obtain ⟨-,⟨hsx,hsrc,hsize⟩,hpart,-,hhigh,-⟩ := h
  have hx : x < 0 := by omega
  have h1 : int (sx - x) = -2 ^ 31 := by
    rw [show sx - x = 2 ^ 31 by omega]
    rfl
  have h2 : int (w + x) = w + x := int_eq (by omega) (by omega)
  have h3 : int (0 - -2 ^ 31) = -2 ^ 31 := rfl
  have h4 : int (w + x + -2 ^ 31) = w + x + 2 ^ 31 := by
    rw [int,signed,show w + x + -2 ^ 31 = (w + x + 2 ^ 31) - ((2 ^ 32 : ℕ) : ℤ) by
      push_cast; ring,Int.sub_bmod_right]
    exact int_eq (by omega) (by omega)
  have h5 : int (-2 ^ 31 + (w + x + 2 ^ 31)) = w + x := by
    rw [show (-2 ^ 31 + (w + x + 2 ^ 31) : ℤ) = w + x by ring]
    exact h2
  simp only [span,if_pos hx,h1,h2]
  rw [if_pos (by omega : (-2 ^ 31 : ℤ) < 0)]
  simp only [h3,h4,if_neg (by omega : ¬w + x + 2 ^ 31 < 0),h5]
  omega

/-- A clipped span hits the places of the destination in the part, with the
places of the source that belong to them, and misses when there are none. -/
def Draws (dstSize srcSize sx x w : ℤ) : Prop :=
  ((span dstSize srcSize sx x w).Misses dstSize srcSize →
    ∀ c,0 ≤ c → c < dstSize → ¬(x ≤ c ∧ c < x + w)) ∧
  (¬(span dstSize srcSize sx x w).Misses dstSize srcSize →
    (∀ bounded c,0 ≤ c → c < dstSize →
      ((span dstSize srcSize sx x w).Hits bounded c ↔ x ≤ c ∧ c < x + w)) ∧
    (span dstSize srcSize sx x w).sx - (span dstSize srcSize sx x w).x = sx - x)

/-- A part is copied to its own place in a pixel map of the same size. -/
theorem draws_copy {size : ℤ} (hsize : 0 < size ∧ size < 2 ^ 31) (hlow : -2 ^ 31 ≤ x)
    (hw : 0 < w ∧ w < 2 ^ 31) (hhigh : x + w < 2 ^ 31) (honto : 0 ≤ x + w) :
    Draws size size x x w := by
  have hspan : span size size x x w = ⟨max 0 x,min size (x + w),max 0 x,min size (x + w)⟩ := by
    by_cases hx : x < 0
    · have h1 : int (x - x) = 0 := by
        rw [sub_self]
        rfl
      have h2 : int (w + x) = x + w := (int_eq (by omega) (by omega)).trans (by ring)
      simp only [span,if_pos hx,h1,h2,lt_irrefl,if_false,if_neg (not_lt.mpr honto),zero_add]
      rw [int_eq (by omega) hhigh,max_eq_left hx.le]
    · simp only [span,if_neg hx,if_neg (not_lt.mpr hw.1.le)]
      rw [int_eq (by omega) hhigh,max_eq_right (not_lt.mp hx)]
  rw [Draws,hspan]
  simp only [Span.Misses,Span.Hits]
  refine ⟨fun hmiss c _ _ => by omega,fun _ => ⟨fun bounded c _ _ => ?_,by ring⟩⟩
  cases bounded <;> simp <;> omega

theorem Clips.draws (h : Clips dstSize srcSize sx x w) : Draws dstSize srcSize sx x w := by
  rw [Draws]
  by_cases hx : 0 ≤ x
  · rw [span_of_nonneg h hx]
    obtain ⟨hdst,hsrc,hpart,-,-,-⟩ := h
    simp only [Span.Misses,Span.Hits]
    refine ⟨fun hmiss c _ _ => by omega,fun _ => ⟨fun bounded c _ _ => ?_,trivial⟩⟩
    cases bounded <;> simp <;> omega
  · by_cases hlow : x - sx = -2 ^ 31
    · have hx2 := span_of_lowest h hlow
      have hleft : x + w < 0 := by
        have := h.src
        omega
      exact ⟨fun _ c _ _ => by omega,fun hn => absurd (.inr (.inl hx2)) hn⟩
    · have hlow : -2 ^ 31 < x - sx := lt_of_le_of_ne h.low (Ne.symm hlow)
      by_cases hw : 0 ≤ x + w
      · rw [span_of_neg h (not_le.mp hx) hw hlow]
        obtain ⟨hdst,hsrc,hpart,-,-,-⟩ := h
        simp only [Span.Misses,Span.Hits]
        refine ⟨fun hmiss c _ _ => by omega,fun _ => ⟨fun bounded c _ _ => ?_,by ring⟩⟩
        cases bounded <;> simp <;> omega
      · have hsx := span_of_left h (not_le.mp hw) hlow
        exact ⟨fun _ c _ _ => by omega,fun hn => absurd (.inr (.inr hsx)) hn⟩

end Span

section Blits

variable {dst src : PixMap} {sx sy x y w h : ℤ}

/-- A place of a pixel map. -/
def PixMap.On (pm : PixMap) (c d : ℤ) : Prop := (0 ≤ c ∧ c < pm.width) ∧ 0 ≤ d ∧ d < pm.height

instance (pm : PixMap) (c d : ℤ) : Decidable (pm.On c d) :=
  inferInstanceAs (Decidable ((_ ∧ _) ∧ _ ∧ _))

/-- Pixel maps that differ in their pixels only. -/
structure PixMap.Like (a b : PixMap) : Prop where
  /-- Same columns. -/
  width : a.width = b.width
  /-- Same rows. -/
  height : a.height = b.height
  /-- Same format. -/
  format : a.format = b.format
  /-- Same colours. -/
  palette : a.palette = b.palette

theorem PixMap.Like.refl (a : PixMap) : a.Like a := ⟨rfl,rfl,rfl,rfl⟩

theorem PixMap.Like.symm {a b : PixMap} (h : a.Like b) : b.Like a :=
  ⟨h.width.symm,h.height.symm,h.format.symm,h.palette.symm⟩

theorem PixMap.Like.trans {a b c : PixMap} (h : a.Like b) (h' : b.Like c) : a.Like c :=
  ⟨h.width.trans h'.width,h.height.trans h'.height,h.format.trans h'.format,
    h.palette.trans h'.palette⟩

/-- A blit draws exactly the part that lies on the destination. -/
theorem blit_spec (bounded : Bool) (value : ℕ → ℤ → ℤ → ℤ → ℤ → ℕ)
    (hcols : Draws dst.width src.width sx x w) (hrows : Draws dst.height src.height sy y h) :
    (blit bounded dst src sx sy x y w h value).Like dst ∧
    ∀ c d,dst.On c d → (blit bounded dst src sx sy x y w h value).pixels c d =
      if (x ≤ c ∧ c < x + w) ∧ y ≤ d ∧ d < y + h then
        value (dst.pixels c d) c d (c - (x - sx)) (d - (y - sy))
      else dst.pixels c d := by
  obtain ⟨hmissx,hhitx⟩ := hcols
  obtain ⟨hmissy,hhity⟩ := hrows
  rw [blit]
  by_cases hmiss : (span dst.width src.width sx x w).Misses dst.width src.width ∨
      (span dst.height src.height sy y h).Misses dst.height src.height
  · have hsame : ∀ q : PixMap,(if dst.width ≤ (span dst.width src.width sx x w).x ∨
        dst.height ≤ (span dst.height src.height sy y h).x then dst
        else if (span dst.width src.width sx x w).x2 ≤ 0 ∨
          (span dst.height src.height sy y h).x2 ≤ 0 ∨
          src.width ≤ (span dst.width src.width sx x w).sx ∨
          src.height ≤ (span dst.height src.height sy y h).sx then dst else q) = dst := by
      intro q
      simp only [Span.Misses] at hmiss
      split_ifs
      · rfl
      · rfl
      · omega
    rw [hsame]
    refine ⟨.refl dst,fun c d hon => ?_⟩
    rw [if_neg]
    rintro ⟨hc,hd⟩
    exact hmiss.elim (fun h => hmissx h c hon.1.1 hon.1.2 hc)
      fun h => hmissy h d hon.2.1 hon.2.2 hd
  · push Not at hmiss
    obtain ⟨hx,hsx⟩ := hhitx hmiss.1
    obtain ⟨hy,hsy⟩ := hhity hmiss.2
    simp only [Span.Misses] at hmiss
    rw [if_neg (by omega),if_neg (by omega)]
    refine ⟨⟨rfl,rfl,rfl,rfl⟩,fun c d hon => ?_⟩
    have hc : (span dst.width src.width sx x w).sx +
        (c - (span dst.width src.width sx x w).x) = c - (x - sx) := by omega
    have hd : (span dst.height src.height sy y h).sx +
        (d - (span dst.height src.height sy y h).x) = d - (y - sy) := by omega
    simp only [hx bounded c hon.1.1 hon.1.2,hy bounded d hon.2.1 hon.2.2,hc,hd]

theorem wrapped_eq {c size : ℤ} (hl : 0 ≤ c) (hu : c < size) : wrapped c size = c := by
  rw [wrapped,if_neg (not_lt.mpr hl),Int.emod_eq_of_lt hl hu]

theorem pmGetPixel_eq {pm : PixMap} {c d : ℤ} (h : pm.On c d) :
    pmGetPixel pm c d = colorOf pm (pm.pixels c d) := by
  rw [pmGetPixel,wrapped_eq h.1.1 h.1.2,wrapped_eq h.2.1 h.2.2]

theorem PixMap.Like.stored_eq {a b : PixMap} (h : a.Like b) : stored a = stored b := by
  funext c old
  simp only [stored,pmIndexFromColor,h.format,h.palette]

theorem PixMap.Like.colorOf_eq {a b : PixMap} (h : a.Like b) : colorOf a = colorOf b := by
  funext value
  simp only [colorOf,h.format,h.palette]

/-- What a pixel map paints over a value. -/
def painted (fb : PixMap) (useAlpha : Bool) (pm : PixMap) (c d : ℤ) (v : ℕ) : ℕ :=
  let color := colorOf pm (pm.pixels c d)
  if useAlpha ∧ pm.format.alphaBits ≠ 0 then stored fb (pmBlendPixel (colorOf fb v) color) v
  else if fb.format = pm.format then pm.pixels c d
  else stored fb color v

/-- What updateRect does with a window's pixels. -/
def blitWindow (bb pm : PixMap) (useAlpha : Bool) (sx sy x y w h : ℤ) : PixMap :=
  if useAlpha then pmAlphaBlit bb pm sx sy x y w h else pmBlit bb pm sx sy x y w h

/-- Both kinds of blit paint the part of a window that lies on the back buffer. -/
theorem blitWindow_spec {fb bb pm : PixMap} (useAlpha : Bool) (hbb : bb.Like fb)
    (hdepth : 8 ≤ fb.format.bpp) (hformat : pm.format = fb.format ∨ pm.format.bpp ≠ 8)
    (hcols : Clips bb.width pm.width sx x w) (hrows : Clips bb.height pm.height sy y h) :
    (blitWindow bb pm useAlpha sx sy x y w h).Like bb ∧
    ∀ c d,bb.On c d → (blitWindow bb pm useAlpha sx sy x y w h).pixels c d =
      if (x ≤ c ∧ c < x + w) ∧ y ≤ d ∧ d < y + h then
        painted fb useAlpha pm (c - (x - sx)) (d - (y - sy)) (bb.pixels c d)
      else bb.pixels c d := by
  have hsource : ∀ c d,(x ≤ c ∧ c < x + w) ∧ y ≤ d ∧ d < y + h →
      pm.On (c - (x - sx)) (d - (y - sy)) := by
    intro c d hcd
    have h1 := hcols.src
    have h2 := hrows.src
    refine ⟨⟨?_,?_⟩,?_,?_⟩ <;> omega
  have hpm : ∀ b c d,(x ≤ c ∧ c < x + w) ∧ y ≤ d ∧ d < y + h → b = bb.pixels c d →
      ¬(useAlpha = true ∧ pm.format.alphaBits ≠ 0) →
      painted fb useAlpha pm (c - (x - sx)) (d - (y - sy)) b =
        if fb.format = pm.format then pm.pixels (c - (x - sx)) (d - (y - sy))
        else stored bb (pmGetPixel pm (c - (x - sx)) (d - (y - sy))) b := by
    intro b c d hcd _ halpha
    rw [painted,if_neg halpha,pmGetPixel_eq (hsource c d hcd),hbb.stored_eq]
  have hplain : ¬(useAlpha = true ∧ pm.format.alphaBits ≠ 0) →
      (pmBlit bb pm sx sy x y w h).Like bb ∧
      ∀ c d,bb.On c d → (pmBlit bb pm sx sy x y w h).pixels c d =
        if (x ≤ c ∧ c < x + w) ∧ y ≤ d ∧ d < y + h then
          painted fb useAlpha pm (c - (x - sx)) (d - (y - sy)) (bb.pixels c d)
        else bb.pixels c d := by
    intro halpha
    rw [pmBlit,hbb.format]
    by_cases hsame : fb.format = pm.format
    · rw [if_pos ⟨hsame,hdepth⟩]
      refine ⟨(blit_spec _ _ hcols.draws hrows.draws).1,fun c d hon => ?_⟩
      rw [(blit_spec _ _ hcols.draws hrows.draws).2 c d hon]
      split_ifs with hcd
      · rw [hpm _ c d hcd rfl halpha,if_pos hsame]
      · rfl
    · have hbpp : pm.format.bpp ≠ 8 := hformat.resolve_left (Ne.symm hsame)
      rw [if_neg (fun h => hsame h.1),if_neg (fun h => hbpp h.1)]
      refine ⟨(blit_spec _ _ hcols.draws hrows.draws).1,fun c d hon => ?_⟩
      rw [(blit_spec _ _ hcols.draws hrows.draws).2 c d hon]
      split_ifs with hcd
      · rw [hpm _ c d hcd rfl halpha,if_neg hsame]
      · rfl
  cases useAlpha with
  | false => exact hplain (by simp)
  | true =>
    by_cases halpha : pm.format.alphaBits = 0
    · rw [blitWindow,if_pos rfl,pmAlphaBlit,if_pos halpha]
      exact hplain (by simp [halpha])
    · rw [blitWindow,if_pos rfl,pmAlphaBlit,if_neg halpha]
      refine ⟨(blit_spec _ _ hcols.draws hrows.draws).1,fun c d hon => ?_⟩
      rw [(blit_spec _ _ hcols.draws hrows.draws).2 c d hon]
      split_ifs with hcd
      · rw [painted,if_pos ⟨rfl,halpha⟩,pmGetPixel_eq hon,pmGetPixel_eq (hsource c d hcd),
          hbb.stored_eq,hbb.colorOf_eq]
      · rfl

end Blits

section Drawing

variable {fb bb : PixMap} {rect : Rectangle} {wnd : Window} {m : Machine}

/-- The screen: its size is within the int type, and a pixel takes whole bytes. -/
structure Screen (fb : PixMap) : Prop where
  /-- Columns. -/
  width : 0 < fb.width ∧ fb.width < 2 ^ 31
  /-- Rows. -/
  height : 0 < fb.height ∧ fb.height < 2 ^ 31
  /-- Bits of a pixel. -/
  depth : fb.format.bpp ∈ [8,16,24,32]

theorem Screen.depth_le (h : Screen fb) : 8 ≤ fb.format.bpp := by
  have := h.depth
  simp only [List.mem_cons,List.not_mem_nil,or_false] at this
  omega

/-- A window with the pixels that its size asks for. -/
structure Whole (fb : PixMap) (wnd : Window) : Prop where
  /-- Its edges are within the int type. -/
  fits : wnd.rect.Fits
  /-- It has pixels in a format that can be drawn. -/
  pixMap : rcIsEmpty wnd.rect ∨ ∃ pm,wnd.pixMap = some pm ∧ pm.width = wnd.rect.width ∧
    pm.height = wnd.rect.height ∧ (pm.format = fb.format ∨ pm.format.bpp ≠ 8)

/-- A window as a layer of the picture on a screen. -/
def Window.layer (fb : PixMap) (wnd : Window) : Layer (ℤ × ℤ) ℕ where
  covers := fun p => wnd.rect.Contains p.1 p.2
  paint := fun p v =>
    match wnd.pixMap with
    | none => v
    | some pm => painted fb wnd.useAlpha pm (p.1 - wnd.rect.x) (p.2 - wnd.rect.y) v

theorem layer_over {pm : PixMap} {c d : ℤ} {v : ℕ} (hpm : wnd.pixMap = some pm)
    (h : wnd.rect.Contains c d) : (wnd.layer fb).over (c,d) v =
      painted fb wnd.useAlpha pm (c - wnd.rect.x) (d - wnd.rect.y) v := by
  have hcovers : (wnd.layer fb).covers (c,d) = true := decide_eq_true h
  rw [Layer.over,if_pos hcovers]
  simp only [Window.layer,hpm]

theorem PixMap.Like.layer_eq {a b : PixMap} (h : a.Like b) : Window.layer a = Window.layer b := by
  funext wnd
  simp only [Window.layer,painted,h.stored_eq,h.colorOf_eq,h.format]

theorem Whole.like {a b : PixMap} (hwnd : Whole a wnd) (h : a.Like b) : Whole b wnd :=
  ⟨hwnd.fits,h.format ▸ hwnd.pixMap⟩

/-- A rectangle that can be drawn with a list of windows: it does not end left of
the screen or above it, and its distance to each window is within the int type. -/
structure Drawable (windows : List Window) (rect : Rectangle) : Prop where
  /-- It is not left of the screen. -/
  right : 0 ≤ rect.x + rect.width
  /-- It is not above the screen. -/
  lower : 0 ≤ rect.y + rect.height
  /-- Distances. -/
  gaps : ∀ wnd ∈ windows,GapFits rect wnd.rect

/-- A window is drawn over the places of the rectangle. -/
theorem drawWindow_spec (hfb : Screen fb) (hbb : bb.Like fb) (hrect : rect.Fits)
    (hright : 0 ≤ rect.x + rect.width) (hlower : 0 ≤ rect.y + rect.height)
    (hgap : GapFits rect wnd.rect) (hwnd : Whole fb wnd) :
    ∃ bb',Machine.drawWindow rect bb wnd = some bb' ∧ bb'.Like bb ∧
      ∀ c d,bb.On c d → bb'.pixels c d =
        if rect.Contains c d then (wnd.layer fb).over (c,d) (bb.pixels c d)
        else bb.pixels c d := by
  have hwidth := hbb.width
  have hheight := hbb.height
  have his := rcIntersect_eq hrect hwnd.fits hgap
  have hover : ∀ c d,rect.Contains c d → ¬wnd.rect.Contains c d →
      (wnd.layer fb).over (c,d) (bb.pixels c d) = bb.pixels c d := fun c d _ hn =>
    over_of_not_covers (decide_eq_false hn)
  rw [Machine.drawWindow]
  dsimp only
  split_ifs at his with hempty
  · rw [his,if_pos (.inl le_rfl)]
    refine ⟨bb,rfl,.refl bb,fun c d _ => ?_⟩
    split_ifs with hin
    · refine (hover c d hin fun hw => ?_).symm
      simp only [Rectangle.Contains] at hin hw
      omega
    · rfl
  · push Not at hempty
    obtain ⟨hcols,hrows⟩ := hempty
    have hfull : ¬rcIsEmpty wnd.rect := by
      rw [rcIsEmpty]
      omega
    obtain ⟨pm,hpm,hpw,hph,hformat⟩ := hwnd.pixMap.resolve_left hfull
    obtain ⟨hr1,hr2,hr3,hr4,hr5,hr6⟩ := hrect
    obtain ⟨hw1,hw2,hw3,hw4,hw5,hw6⟩ := hwnd.fits
    rw [his,if_neg (by rw [rcIsEmpty]; dsimp only; omega),hpm]
    dsimp only
    rw [int_eq (x := max rect.x wnd.rect.x - wnd.rect.x) (by omega) (by omega),
      int_eq (x := max rect.y wnd.rect.y - wnd.rect.y) (by omega) (by omega)]
    have hx : max rect.x wnd.rect.x - (max rect.x wnd.rect.x - wnd.rect.x) = wnd.rect.x := by ring
    have hy : max rect.y wnd.rect.y - (max rect.y wnd.rect.y - wnd.rect.y) = wnd.rect.y := by ring
    have hclipx : Clips bb.width pm.width (max rect.x wnd.rect.x - wnd.rect.x)
        (max rect.x wnd.rect.x)
        (min (rect.x + rect.width) (wnd.rect.x + wnd.rect.width) - max rect.x wnd.rect.x) :=
      ⟨hwidth ▸ hfb.width,by omega,hcols,by omega,by omega,by omega⟩
    have hclipy : Clips bb.height pm.height (max rect.y wnd.rect.y - wnd.rect.y)
        (max rect.y wnd.rect.y)
        (min (rect.y + rect.height) (wnd.rect.y + wnd.rect.height) - max rect.y wnd.rect.y) :=
      ⟨hheight ▸ hfb.height,by omega,hrows,by omega,by omega,by omega⟩
    have hdrawn := blitWindow_spec wnd.useAlpha hbb hfb.depth_le hformat hclipx hclipy
    refine ⟨_,rfl,hdrawn.1,fun c d hon => (hdrawn.2 c d hon).trans ?_⟩
    rw [hx,hy]
    by_cases hin : rect.Contains c d
    · by_cases hw : wnd.rect.Contains c d
      · rw [if_pos hin,layer_over hpm hw,if_pos]
        simp only [Rectangle.Contains] at hin hw
        omega
      · rw [if_pos hin,hover c d hin hw,if_neg]
        simp only [Rectangle.Contains] at hin hw
        omega
    · rw [if_neg hin,if_neg]
      simp only [Rectangle.Contains] at hin
      omega

/-- All windows are drawn over the places of the rectangle. -/
theorem drawWindows_spec (hfb : Screen fb) (hbb : bb.Like fb) (hrect : rect.Fits)
    {windows : List Window} (hdraw : Drawable windows rect)
    (hwhole : ∀ wnd ∈ windows,Whole fb wnd) :
    ∃ bb',windows.foldlM (Machine.drawWindow rect) bb = some bb' ∧ bb'.Like bb ∧
      ∀ c d,bb.On c d → bb'.pixels c d =
        if rect.Contains c d then
          picture (windows.map (Window.layer fb)) (c,d) (bb.pixels c d)
        else bb.pixels c d := by
  induction windows generalizing bb with
  | nil => exact ⟨bb,rfl,.refl bb,fun c d _ => (ite_self _).symm⟩
  | cons wnd rest ih =>
    obtain ⟨hright,hlower,hgaps⟩ := hdraw
    obtain ⟨mid,hmid,hlike,hpixels⟩ := drawWindow_spec hfb hbb hrect hright hlower
      (hgaps wnd List.mem_cons_self) (hwhole wnd List.mem_cons_self)
    obtain ⟨bb',hbb',hlike',hpixels'⟩ := ih (hlike.trans hbb)
      ⟨hright,hlower,fun w hw => hgaps w (List.mem_cons_of_mem _ hw)⟩
      fun w hw => hwhole w (List.mem_cons_of_mem _ hw)
    refine ⟨bb',?_,hlike'.trans hlike,fun c d hon => ?_⟩
    · rw [List.foldlM_cons,hmid]
      exact hbb'
    · have hon' : mid.On c d := by
        rw [PixMap.On,hlike.width,hlike.height]
        exact hon
      rw [hpixels' c d hon',hpixels c d hon]
      split_ifs
      · rfl
      · rfl

end Drawing

section Rounds

variable {m m' : Machine} {rect : Rectangle} {wnd : Window} {below above : List Window} {c d : ℤ}

/-- What the windows show at a place, from bottom to top. -/
def Machine.picture (m : Machine) (c d : ℤ) : ℕ :=
  Layers.picture (m.windows.map (Window.layer m.fbPixMap)) (c,d) 0

/-- Every pixel of the screen shows the windows. -/
def Machine.Shows (m : Machine) : Prop :=
  ∀ c d,m.fbPixMap.On c d → m.fbPixMap.pixels c d = m.picture c d

/-- A window that hides the whole screen and is not the mouse window. -/
structure Desktop (fb : PixMap) (mouseWnd : Option ℕ) (wnd : Window) : Prop where
  /-- It covers the screen. -/
  rect : wnd.rect = ⟨0,0,fb.width,fb.height⟩
  /-- It has no alpha channel. -/
  useAlpha : wnd.useAlpha = false
  /-- Its pixels are those of the screen. -/
  pixMap : ∃ pm,wnd.pixMap = some pm ∧ pm.format = fb.format
  /-- It is not the mouse window. -/
  id : mouseWnd ≠ some wnd.id

theorem Desktop.like {a b : PixMap} {mouseWnd : Option ℕ} (hwnd : Desktop a mouseWnd wnd)
    (h : a.Like b) : Desktop b mouseWnd wnd :=
  ⟨h.width ▸ h.height ▸ hwnd.rect,hwnd.useAlpha,h.format ▸ hwnd.pixMap,hwnd.id⟩

/-- The state of the main loop, apart from what is on the screen. -/
structure Machine.Ready (m : Machine) : Prop where
  /-- The screen can be drawn on. -/
  screen : Screen m.fbPixMap
  /-- The back buffer is made like the screen. -/
  backBuffer : m.bbPixMap.Like m.fbPixMap
  /-- Every window has its pixels. -/
  whole : ∀ wnd ∈ m.windows,Whole m.fbPixMap wnd
  /-- The lowest window is the desktop. -/
  desktop : ∃ wnd ∈ m.windows.head?,Desktop m.fbPixMap m.mouseWnd wnd

/-- Screen and back buffer show the windows outside a rectangle. -/
def Machine.Pending (m : Machine) (rect : Rectangle) : Prop :=
  ∀ c d,m.fbPixMap.On c d → ¬rect.Contains c d →
    m.bbPixMap.pixels c d = m.picture c d ∧ m.fbPixMap.pixels c d = m.picture c d

/-- With the desktop below, what was there before does not show through. -/
theorem picture_of_desktop (h : m.Ready) (hon : m.fbPixMap.On c d) (v : ℕ) :
    Layers.picture (m.windows.map (Window.layer m.fbPixMap)) (c,d) v = m.picture c d := by
  obtain ⟨wnd,hwnd,hrect,halpha,⟨pm,hpm,hformat⟩,-⟩ := h.desktop
  obtain ⟨rest,hrest⟩ := List.head?_eq_some_iff.mp hwnd
  rw [Machine.picture,hrest,List.map_cons]
  refine picture_covered (fun a v w => ?_) (decide_eq_true ?_)
  · simp [Window.layer,hpm,painted,halpha,hformat]
  · rw [hrect]
    obtain ⟨⟨hc,hcw⟩,hd,hdh⟩ := hon
    exact ⟨⟨hc,by simpa using hcw⟩,hd,by simpa using hdh⟩

/-- updateRect puts the rectangle right. -/
theorem updateRect_spec (hready : m.Ready) (hpending : m.Pending rect) (hrect : rect.Fits)
    (hfull : ¬rcIsEmpty rect) (hdraw : Drawable m.windows rect) :
    ∃ m',m.updateRect rect = some m' ∧ m'.Ready ∧ m'.Pending rcRectangleEmpty := by
  obtain ⟨bb,hbb,hlike,hpixels⟩ := drawWindows_spec hready.screen hready.backBuffer hrect hdraw
    hready.whole
  have hbbfb : bb.Like m.fbPixMap := hlike.trans hready.backBuffer
  obtain ⟨hleft,hupper,hwidth,hheight,hright,hlower⟩ := hrect
  rw [rcIsEmpty] at hfull
  have hcols : Draws m.fbPixMap.width bb.width rect.x rect.x rect.width := by
    rw [hbbfb.width]
    exact draws_copy hready.screen.width hleft (by omega) hright.2 hdraw.right
  have hrows : Draws m.fbPixMap.height bb.height rect.y rect.y rect.height := by
    rw [hbbfb.height]
    exact draws_copy hready.screen.height hupper (by omega) hlower.2 hdraw.lower
  obtain ⟨hfblike,hfbpixels⟩ := blit_spec true
    (fun _ _ _ sc sd => bb.pixels sc sd) hcols hrows
  have hblit : pmBlit m.fbPixMap bb rect.x rect.y rect.x rect.y rect.width rect.height =
      blit true m.fbPixMap bb rect.x rect.y rect.x rect.y rect.width rect.height
        fun _ _ _ sc sd => bb.pixels sc sd := by
    rw [pmBlit,if_pos ⟨hbbfb.format.symm,hready.screen.depth_le⟩]
  rw [← hblit] at hfblike hfbpixels
  refine ⟨_,by rw [Machine.updateRect,hbb]; rfl,⟨?_,?_,?_,?_⟩,fun c d hon _ => ?_⟩
  · exact ⟨hfblike.width ▸ hready.screen.width,hfblike.height ▸ hready.screen.height,
      hfblike.format ▸ hready.screen.depth⟩
  · exact hbbfb.trans hfblike.symm
  · exact fun wnd hwnd => (hready.whole wnd hwnd).like hfblike.symm
  · obtain ⟨wnd,hwnd,hdesktop⟩ := hready.desktop
    exact ⟨wnd,hwnd,hdesktop.like hfblike.symm⟩
  · have hon : m.fbPixMap.On c d := by
      rw [PixMap.On,← hfblike.width,← hfblike.height]
      exact hon
    have honbb : m.bbPixMap.On c d := by
      rw [PixMap.On,hready.backBuffer.width,hready.backBuffer.height]
      exact hon
    have hpicture : bb.pixels c d = m.picture c d := by
      rw [hpixels c d honbb]
      split_ifs with hin
      · exact picture_of_desktop hready hon _
      · exact (hpending c d hon hin).1
    have hsame : Machine.picture
        { m with bbPixMap := bb
                 fbPixMap := pmBlit m.fbPixMap bb rect.x rect.y rect.x rect.y rect.width
                  rect.height } c d = m.picture c d := by
      simp only [Machine.picture,hfblike.layer_eq]
    rw [hsame]
    refine ⟨hpicture,(hfbpixels c d hon).trans ?_⟩
    rw [sub_self,sub_self,sub_zero,sub_zero]
    split_ifs with hin
    · exact hpicture
    · exact (hpending c d hon hin).2

/-- What a message must meet: no rectangle or sum of rectangles is too large for
the int type, a new window has got its pixels, the mouse window is there when it
is moved, and a window other than the desktop is deleted only where its part of
the screen is drawn anew. -/
def Message.Sound (m : Machine) (rect : Rectangle) : Message → Prop
  | .mouse deltaX deltaY => ∀ id ∈ m.mouseWnd,∃ wnd ∈ m.getWindowById id,
    let moved := wnd.setPosition (m.moveMouse deltaX deltaY).cursorX
      (m.moveMouse deltaX deltaY).cursorY
    moved.rect.Fits ∧ SumFits rect wnd.rect ∧ SumFits (rcAdd rect wnd.rect) moved.rect
  | .createWindow x y w h useAlpha pixels =>
    let wnd := m.newWindow x y w h useAlpha pixels
    wnd.rect.Fits ∧ (rcIsEmpty wnd.rect ∨ pixels.isSome) ∧ SumFits rect wnd.rect
  | .deleteWindow id => ∀ wnd ∈ m.getWindowById id,m.windows.head? ≠ some wnd ∧
    ∀ c d,m.fbPixMap.On c d → wnd.rect.Contains c d → rect.Contains c d
  | .redrawWindow id _ => ∀ wnd ∈ m.getWindowById id,SumFits rect wnd.rect
  | .other => True

/-- A window of a number, among those below and above. -/
theorem getWindowById_split {id : ℕ} (h : m.getWindowById id = some wnd) :
    ∃ below above,m.windows = below ++ wnd :: above ∧ wnd.id = id ∧
      (∀ w ∈ below,w.id ≠ id) := by
  obtain ⟨hid,below,above,hsplit,hbelow⟩ := List.find?_eq_some_iff_append.mp h
  exact ⟨below,above,hsplit,by simpa using hid,fun w hw => by simpa using hbelow w hw⟩

theorem modifyFirst_split {id : ℕ} {change : Window → Window} (hid : wnd.id = id)
    (hbelow : ∀ w ∈ below,w.id ≠ id) :
    Machine.modifyFirst id change (below ++ wnd :: above) = below ++ change wnd :: above := by
  induction below with
  | nil => simp [Machine.modifyFirst,hid]
  | cons w below ih =>
    have hw : w.id ≠ id := hbelow w List.mem_cons_self
    simp only [List.cons_append,Machine.modifyFirst,if_neg hw]
    rw [ih fun v hv => hbelow v (List.mem_cons_of_mem w hv)]

/-- The state within a round. -/
structure Within (s : Machine × Rectangle) : Prop where
  /-- The windows are in order. -/
  ready : s.1.Ready
  /-- The screen is right outside the rectangle. -/
  pending : s.1.Pending s.2
  /-- The rectangle is within the int type. -/
  fits : rcIsEmpty s.2 ∨ s.2.Fits

/-- The list of windows changes, and the rectangle covers what that changes. -/
theorem Within.change {rect' : Rectangle} (h : Within (m,rect)) (hfb : m'.fbPixMap = m.fbPixMap)
    (hbb : m'.bbPixMap = m.bbPixMap) (hmouse : m'.mouseWnd = m.mouseWnd)
    (hwhole : ∀ wnd ∈ m'.windows,Whole m.fbPixMap wnd)
    (hdesktop : ∃ wnd ∈ m'.windows.head?,Desktop m.fbPixMap m.mouseWnd wnd)
    (hfits : rcIsEmpty rect' ∨ rect'.Fits)
    (hsub : ∀ c d,rect.Contains c d → rect'.Contains c d)
    (hpicture : ∀ c d,m.fbPixMap.On c d → ¬rect'.Contains c d →
      Layers.picture (m'.windows.map (Window.layer m.fbPixMap)) (c,d) 0 = m.picture c d) :
    Within (m',rect') := by
  refine ⟨⟨hfb ▸ h.ready.screen,?_,hfb ▸ hwhole,?_⟩,fun c d hon hout => ?_,hfits⟩
  · rw [hfb,hbb]
    exact h.ready.backBuffer
  · rw [hfb,hmouse]
    exact hdesktop
  · rw [Machine.picture]
    dsimp only at hon hout ⊢
    rw [hfb] at hon
    rw [hfb,hbb,hpicture c d hon hout]
    exact h.pending c d hon fun hin => hout (hsub c d hin)

/-- Windows that stay below others keep the desktop lowest. -/
theorem head_append (windows : List Window) (h : ∃ wnd ∈ (below ++ windows).head?,
    Desktop m.fbPixMap m.mouseWnd wnd) (hbelow : below ≠ []) (windows' : List Window) :
    ∃ wnd ∈ (below ++ windows').head?,Desktop m.fbPixMap m.mouseWnd wnd := by
  cases below with
  | nil => exact absurd rfl hbelow
  | cons w below => exact h

theorem layer_change {wnd' : Window} (fb : PixMap) (h : ¬wnd.rect.Contains c d)
    (h' : ¬wnd'.rect.Contains c d) :
    Layers.picture ((below ++ wnd' :: above).map (Window.layer fb)) (c,d) 0 =
      Layers.picture ((below ++ wnd :: above).map (Window.layer fb)) (c,d) 0 := by
  rw [List.map_append,List.map_append,List.map_cons,List.map_cons]
  exact picture_change (decide_eq_false h') (decide_eq_false h)

theorem layer_insert (fb : PixMap) (h : ¬wnd.rect.Contains c d) :
    Layers.picture ((below ++ wnd :: above).map (Window.layer fb)) (c,d) 0 =
      Layers.picture ((below ++ above).map (Window.layer fb)) (c,d) 0 := by
  rw [List.map_append,List.map_append,List.map_cons]
  exact picture_insert (decide_eq_false h)

/-- One window is replaced by another at the same height. -/
theorem Within.replace {wnd' : Window} {rect' : Rectangle} (h : Within (m,rect))
    (hsplit : m.windows = below ++ wnd :: above) (hwindows : m'.windows = below ++ wnd' :: above)
    (hfb : m'.fbPixMap = m.fbPixMap) (hbb : m'.bbPixMap = m.bbPixMap)
    (hmouse : m'.mouseWnd = m.mouseWnd) (hwhole : Whole m.fbPixMap wnd')
    (hdesktop : Desktop m.fbPixMap m.mouseWnd wnd → Desktop m.fbPixMap m.mouseWnd wnd')
    (hfits : rcIsEmpty rect' ∨ rect'.Fits)
    (hsub : ∀ c d,rect.Contains c d → rect'.Contains c d)
    (hold : ∀ c d,wnd.rect.Contains c d → rect'.Contains c d)
    (hnew : ∀ c d,wnd'.rect.Contains c d → rect'.Contains c d) : Within (m',rect') := by
  refine h.change hfb hbb hmouse ?_ ?_ hfits hsub fun c d _ hout => ?_
  · intro w hw
    rw [hwindows] at hw
    obtain hw | hw := List.mem_append.mp hw
    · exact h.ready.whole w (hsplit ▸ List.mem_append_left _ hw)
    · obtain rfl | hw := List.mem_cons.mp hw
      · exact hwhole
      · exact h.ready.whole w (hsplit ▸ List.mem_append_right _ (List.mem_cons_of_mem _ hw))
  · have hhead := h.ready.desktop
    dsimp only at hhead
    rw [hsplit] at hhead
    rw [hwindows]
    cases below with
    | nil =>
      obtain ⟨w,hw,hd⟩ := hhead
      obtain rfl := Option.some.inj hw
      exact ⟨wnd',rfl,hdesktop hd⟩
    | cons w below => exact hhead
  · rw [hwindows,Machine.picture,hsplit]
    exact layer_change _ (fun hin => hout (hold c d hin)) fun hin => hout (hnew c d hin)

theorem mouse_spec {deltaX deltaY : BitVec 32} (h : Within (m,rect))
    (hsound : (Message.mouse deltaX deltaY).Sound m rect) :
    ∃ s,m.processMessage rect (.mouse deltaX deltaY) = some s ∧ Within s := by
  cases hmouse : m.mouseWnd with
  | none =>
    have hnone : (m.moveMouse deltaX deltaY).mouseWnd = none := hmouse
    refine ⟨(m.moveMouse deltaX deltaY,rect),by simp only [Machine.processMessage,hnone],?_⟩
    exact h.change rfl rfl rfl h.ready.whole h.ready.desktop h.fits (fun _ _ => id)
      fun _ _ _ _ => rfl
  | some id =>
    have hsome : (m.moveMouse deltaX deltaY).mouseWnd = some id := hmouse
    obtain ⟨wnd,hwnd,hmoved,hsum,hsum'⟩ := hsound id hmouse
    have hfound : (m.moveMouse deltaX deltaY).getWindowById id = some wnd := hwnd
    obtain ⟨below,above,hsplit,hid,hbelow⟩ := getWindowById_split hwnd
    have hwhole := h.ready.whole wnd (by rw [hsplit]; simp)
    obtain ⟨hfits,hin⟩ := rcAdd_spec h.fits (.inr hwhole.fits) hsum
    obtain ⟨hfits',hin'⟩ := rcAdd_spec hfits (.inr hmoved) hsum'
    have hwindows : ((m.moveMouse deltaX deltaY).modifyWindow id fun w =>
        w.setPosition (m.moveMouse deltaX deltaY).cursorX
          (m.moveMouse deltaX deltaY).cursorY).windows = _ :=
      (congrArg _ hsplit).trans (modifyFirst_split hid hbelow)
    refine ⟨(_,_),by
      simp only [Machine.processMessage,hsome,Machine.moveWindow,hfound,Option.map_some]
      rfl,?_⟩
    refine h.replace hsplit hwindows rfl rfl rfl ⟨hmoved,hwhole.pixMap⟩ ?_
      hfits' (fun c d hc => hin' c d (.inl (hin c d (.inl hc))))
      (fun c d hc => hin' c d (.inl (hin c d (.inr hc)))) fun c d hc => hin' c d (.inr hc)
    exact fun hd => absurd (hmouse.trans (congrArg some hid.symm)) hd.id

theorem modifyFirst_none {id : ℕ} {change : Window → Window} {windows : List Window}
    (h : ∀ w ∈ windows,w.id ≠ id) : Machine.modifyFirst id change windows = windows := by
  induction windows with
  | nil => rfl
  | cons w rest ih =>
    rw [Machine.modifyFirst,if_neg (h w List.mem_cons_self),
      ih fun v hv => h v (List.mem_cons_of_mem w hv)]

theorem newWindow_whole {x y w hh : BitVec 32} {useAlpha : Bool}
    {pixels : Option (ℕ × (ℤ → ℤ → ℕ))}
    (hfits : (m.newWindow x y w hh useAlpha pixels).rect.Fits)
    (hpixels : rcIsEmpty (m.newWindow x y w hh useAlpha pixels).rect ∨ pixels.isSome) :
    Whole m.fbPixMap (m.newWindow x y w hh useAlpha pixels) := by
  refine ⟨hfits,or_iff_not_imp_left.mpr fun hfull => ?_⟩
  obtain ⟨p,rfl⟩ := Option.isSome_iff_exists.mp (hpixels.resolve_left hfull)
  simp only [Machine.newWindow,rcIsEmpty] at hfull
  refine ⟨⟨w.toInt,hh.toInt,m.fbPixMap.format,m.fbPixMap.palette,p.1,p.2⟩,?_,rfl,rfl,.inl rfl⟩
  simp only [Machine.newWindow,if_neg (by omega : ¬(w.toInt < 1 ∨ hh.toInt < 1)),Option.map_some]

theorem Whole.repaint {fb : PixMap} (h : Whole fb wnd) (pixels : ℤ → ℤ → ℕ) :
    Whole fb (wnd.repaint pixels) := by
  refine ⟨h.fits,h.pixMap.imp id ?_⟩
  rintro ⟨pm,hpm,hwidth,hheight,hformat⟩
  exact ⟨{ pm with pixels := pixels },by simp [Window.repaint,hpm],hwidth,hheight,hformat⟩

theorem Desktop.repaint {fb : PixMap} {mouseWnd : Option ℕ} (h : Desktop fb mouseWnd wnd)
    (pixels : ℤ → ℤ → ℕ) : Desktop fb mouseWnd (wnd.repaint pixels) := by
  obtain ⟨pm,hpm,hformat⟩ := h.pixMap
  exact ⟨h.rect,h.useAlpha,⟨{ pm with pixels := pixels },by simp [Window.repaint,hpm],hformat⟩,
    h.id⟩

theorem createWindow_spec {x y w hh : BitVec 32} {useAlpha : Bool}
    {pixels : Option (ℕ × (ℤ → ℤ → ℕ))} (h : Within (m,rect))
    (hsound : (Message.createWindow x y w hh useAlpha pixels).Sound m rect) :
    ∃ s,m.processMessage rect (.createWindow x y w hh useAlpha pixels) = some s ∧ Within s := by
  obtain ⟨hfits,hpixels,hsum⟩ := hsound
  set wnd := m.newWindow x y w hh useAlpha pixels with hwnd
  obtain ⟨hfits',hin⟩ := rcAdd_spec h.fits (.inr hfits) hsum
  obtain ⟨desktop,hhead,hdesktop⟩ := h.ready.desktop
  obtain ⟨rest,hrest⟩ := List.head?_eq_some_iff.mp hhead
  dsimp only at hrest hdesktop
  obtain ⟨below,above,hsplit,hbelow,hinsert⟩ : ∃ below above,m.windows = below ++ above ∧
      below ≠ [] ∧ (m.insertWindow wnd).windows = below ++ wnd :: above := by
    refine ⟨_,_,(List.take_append_drop _ _).symm,?_,rfl⟩
    have hid : ¬some desktop.id = m.mouseWnd := fun h => hdesktop.id h.symm
    rw [hrest,List.findIdx_cons]
    simp [hid]
  refine ⟨_,rfl,?_⟩
  refine h.change rfl rfl rfl ?_ ?_ hfits' (fun c d hc => hin c d (.inl hc)) fun c d _ hout => ?_
  · intro v hv
    rw [hinsert] at hv
    obtain hv | hv := List.mem_append.mp hv
    · exact h.ready.whole v (hsplit ▸ List.mem_append_left _ hv)
    · obtain rfl | hv := List.mem_cons.mp hv
      · exact newWindow_whole hfits hpixels
      · exact h.ready.whole v (hsplit ▸ List.mem_append_right _ hv)
  · rw [hinsert]
    refine head_append above ?_ hbelow _
    rw [← hsplit]
    exact h.ready.desktop
  · rw [hinsert,Machine.picture,hsplit]
    exact layer_insert _ fun hc => hout (hin c d (.inr hc))

theorem deleteWindow_spec {id : ℕ} (h : Within (m,rect))
    (hsound : (Message.deleteWindow id).Sound m rect) :
    ∃ s,m.processMessage rect (.deleteWindow id) = some s ∧ Within s := by
  refine ⟨_,rfl,?_⟩
  cases hfound : m.getWindowById id with
  | none =>
    have hsame : m.windows.eraseP (·.id = id) = m.windows :=
      List.eraseP_of_forall_not fun w hw => by
        simpa using List.find?_eq_none.mp hfound w hw
    rw [hsame]
    exact h
  | some wnd =>
    obtain ⟨hhead,hcovered⟩ := hsound wnd hfound
    obtain ⟨below,above,hsplit,hid,hbelow⟩ := getWindowById_split hfound
    have hne : below ≠ [] := by
      rintro rfl
      exact hhead (by rw [hsplit]; rfl)
    have herase : m.windows.eraseP (·.id = id) = below ++ above := by
      rw [hsplit,List.eraseP_append_right _ fun w hw => by simpa using hbelow w hw,
        List.eraseP_cons_of_pos (by simpa using hid)]
    rw [herase]
    refine h.change rfl rfl rfl ?_ ?_ h.fits (fun _ _ h => h) fun c d hon hout => ?_
    · intro v hv
      refine h.ready.whole v ?_
      rw [hsplit]
      obtain hv | hv := List.mem_append.mp hv
      · exact List.mem_append_left _ hv
      · exact List.mem_append_right _ (List.mem_cons_of_mem _ hv)
    · refine head_append (wnd :: above) ?_ hne _
      rw [← hsplit]
      exact h.ready.desktop
    · rw [Machine.picture,hsplit]
      exact (layer_insert _ fun hin => hout (hcovered c d hon hin)).symm

theorem redrawWindow_spec {id : ℕ} {pixels : ℤ → ℤ → ℕ} (h : Within (m,rect))
    (hsound : (Message.redrawWindow id pixels).Sound m rect) :
    ∃ s,m.processMessage rect (.redrawWindow id pixels) = some s ∧ Within s := by
  cases hfound : m.getWindowById id with
  | none =>
    have hsame : m.modifyWindow id (·.repaint pixels) = m := by
      have hnone : ∀ w ∈ m.windows,w.id ≠ id := fun w hw => by
        simpa using List.find?_eq_none.mp hfound w hw
      rw [Machine.modifyWindow,modifyFirst_none hnone]
    refine ⟨(m,rect),?_,h⟩
    simp only [Machine.processMessage,hsame,hfound]
    rfl
  | some wnd =>
    have hsum := hsound wnd hfound
    obtain ⟨below,above,hsplit,hid,hbelow⟩ := getWindowById_split hfound
    have hwhole := h.ready.whole wnd (by rw [hsplit]; simp)
    obtain ⟨hfits,hin⟩ := rcAdd_spec h.fits (.inr hwhole.fits) hsum
    have hwindows : (m.modifyWindow id (·.repaint pixels)).windows =
        below ++ wnd.repaint pixels :: above :=
      (congrArg _ hsplit).trans (modifyFirst_split hid hbelow)
    have hfound' : (m.modifyWindow id (·.repaint pixels)).getWindowById id =
        some (wnd.repaint pixels) := by
      rw [Machine.getWindowById,hwindows,List.find?_append,
        List.find?_eq_none.mpr fun w hw => by simpa using hbelow w hw]
      simp [Window.repaint,hid]
    refine ⟨(_,_),by simp only [Machine.processMessage,hfound']; rfl,?_⟩
    refine h.replace hsplit hwindows rfl rfl rfl (hwhole.repaint pixels) (·.repaint pixels) hfits
      (fun c d hc => hin c d (.inl hc)) (fun c d hc => hin c d (.inr hc))
      fun c d hc => hin c d (.inr hc)

/-- A message changes the picture only where the rectangle then is. -/
theorem processMessage_spec {msg : Message} (h : Within (m,rect)) (hsound : msg.Sound m rect) :
    ∃ s,m.processMessage rect msg = some s ∧ Within s := by
  cases msg with
  | other => exact ⟨_,rfl,h⟩
  | mouse deltaX deltaY => exact mouse_spec h hsound
  | createWindow x y w hh useAlpha pixels => exact createWindow_spec h hsound
  | deleteWindow id => exact deleteWindow_spec h hsound
  | redrawWindow id pixels => exact redrawWindow_spec h hsound

/-- One message after another, as long as nothing is missing. -/
def nextMessage (o : Option (Machine × Rectangle)) (msg : Message) : Option (Machine × Rectangle) :=
  o.bind fun s => s.1.processMessage s.2 msg

/-- One round after another, as long as nothing is missing. -/
def nextBatch (o : Option Machine) (messages : List Message) : Option Machine :=
  o.bind fun m => m.processBatch messages

/-- What the messages of a round must meet, and the rectangle they lead to. -/
def Machine.Sound (m : Machine) (messages : List Message) : Prop :=
  RunMeets nextMessage (fun o msg => ∀ s ∈ o,msg.Sound s.1 s.2) (some (m,rcRectangleEmpty))
    messages ∧
  ∀ s ∈ m.collect messages,rcIsEmpty s.2 ∨ Drawable s.1.windows s.2

theorem not_contains_of_empty (h : rcIsEmpty rect) : ¬rect.Contains c d := by
  rintro ⟨⟨_,_⟩,_,_⟩
  rw [rcIsEmpty] at h
  omega

/-- The messages of a round change the picture only where the rectangle then is. -/
theorem collect_spec {messages : List Message} {s : Machine × Rectangle} (h : Within s)
    (hsound : RunMeets nextMessage (fun o msg => ∀ s ∈ o,msg.Sound s.1 s.2) (some s) messages) :
    ∃ s',messages.foldlM (fun (s : Machine × Rectangle) msg => s.1.processMessage s.2 msg) s =
      some s' ∧ Within s' := by
  induction messages generalizing s with
  | nil => exact ⟨s,rfl,h⟩
  | cons msg rest ih =>
    obtain ⟨s',hs',hwithin⟩ := processMessage_spec h (hsound.1 s rfl)
    have hrest := hsound.2
    rw [nextMessage,Option.bind_some,hs'] at hrest
    obtain ⟨s'',hs'',hwithin'⟩ := ih hwithin hrest
    exact ⟨s'',by rw [List.foldlM_cons,hs']; exact hs'',hwithin'⟩

/-- A round leaves the screen right. -/
theorem processBatch_spec {messages : List Message} (h : Within (m,rcRectangleEmpty))
    (hsound : m.Sound messages) :
    ∃ m',m.processBatch messages = some m' ∧ Within (m',rcRectangleEmpty) := by
  obtain ⟨⟨m',rect⟩,hcollect,hwithin⟩ := collect_spec h hsound.1
  have hcollect : m.collect messages = some (m',rect) := hcollect
  have hempty : rcIsEmpty rcRectangleEmpty := .inl le_rfl
  rw [Machine.processBatch,hcollect]
  by_cases hrect : rcIsEmpty rect
  · refine ⟨m',if_pos hrect,hwithin.ready,fun c d hon _ => ?_,.inl hempty⟩
    exact hwithin.pending c d hon (not_contains_of_empty hrect)
  · obtain ⟨m'',hupdate,hready,hpending⟩ := updateRect_spec hwithin.ready hwithin.pending
      (hwithin.fits.resolve_left hrect) hrect ((hsound.2 _ hcollect).resolve_left hrect)
    exact ⟨m'',(if_neg hrect).trans hupdate,hready,hpending,.inl hempty⟩

theorem Within.shows (h : Within (m,rcRectangleEmpty)) : m.Shows := fun c d hon =>
  (h.pending c d hon (not_contains_of_empty (.inl le_rfl))).2

end Rounds

section Runs

variable {screenWidth screenHeight : ℤ} {fb : PixMap} {backBuffer desktop mouse : ℕ}
  {desktopPixels : ℤ → ℤ → ℕ} {cursor : Option Cursor} {batches : List (List Message)}

theorem blit_like {bounded : Bool} {dst src : PixMap} {sx sy x y w h : ℤ}
    {value : ℕ → ℤ → ℤ → ℤ → ℤ → ℕ} : (blit bounded dst src sx sy x y w h value).Like dst := by
  rw [blit]
  split_ifs
  · exact .refl dst
  · exact .refl dst
  · exact ⟨rfl,rfl,rfl,rfl⟩

theorem pmBlit_like {dst src : PixMap} {sx sy x y w h : ℤ} :
    (pmBlit dst src sx sy x y w h).Like dst := by
  rw [pmBlit]
  split_ifs
  · exact blit_like
  · exact blit_like
  · exact blit_like

/-- The window of a cursor starts within the int type. -/
def CursorFits (screenWidth screenHeight : ℤ) (fb : PixMap) (cursor : Cursor) : Prop :=
  let wnd := mouseWindow (screenWidth.tdiv 2) (screenHeight.tdiv 2) 0 cursor
  wnd.rect.Fits ∧ GapFits ⟨0,0,fb.width,fb.height⟩ wnd.rect

/-- The main loop starts with the screen right. -/
theorem start_spec (hfb : Screen fb) (hcursor : ∀ c ∈ cursor,CursorFits screenWidth screenHeight
    fb c) (backBuffer desktop mouse : ℕ) (desktopPixels : ℤ → ℤ → ℕ) :
    ∃ m,start screenWidth screenHeight fb backBuffer desktop mouse desktopPixels cursor = some m ∧
      Within (m,rcRectangleEmpty) := by
  have hscreen : (⟨0,0,fb.width,fb.height⟩ : Rectangle).Fits := by
    obtain ⟨hw,hh,-⟩ := hfb
    exact ⟨by norm_num,by norm_num,hw.2,hh.2,by dsimp only; omega,by dsimp only; omega⟩
  have hmouse : ∀ wnd ∈ cursor.map (mouseWindow (screenWidth.tdiv 2) (screenHeight.tdiv 2) mouse),
      Whole fb wnd ∧ GapFits ⟨0,0,fb.width,fb.height⟩ wnd.rect ∧ wnd.id = 2 := by
    intro wnd hwnd
    obtain ⟨c,hc,rfl⟩ := Option.map_eq_some_iff.mp hwnd
    obtain ⟨hfits,hgap⟩ := hcursor c hc
    refine ⟨⟨hfits,.inr ⟨_,rfl,?_,?_,?_⟩⟩,hgap,rfl⟩
    · exact pmBlit_like.width
    · exact pmBlit_like.height
    · right
      rw [pmBlit_like.format]
      exact (by decide : (32 : ℕ) ≠ 8)
  have hid : (cursor.map (mouseWindow (screenWidth.tdiv 2) (screenHeight.tdiv 2) mouse)).map
      Window.id ≠ some 1 := by
    intro h
    obtain ⟨wnd,hwnd,hid⟩ := Option.map_eq_some_iff.mp h
    rw [(hmouse wnd hwnd).2.2] at hid
    cases hid
  set m := initial screenWidth screenHeight fb backBuffer desktop mouse desktopPixels cursor with hm
  have hwindows : ∀ wnd ∈ m.windows,Whole fb wnd ∧ GapFits ⟨0,0,fb.width,fb.height⟩ wnd.rect := by
    intro wnd hwnd
    obtain rfl | hwnd := List.mem_cons.mp hwnd
    · refine ⟨⟨hscreen,.inr ⟨_,rfl,rfl,rfl,.inl rfl⟩⟩,?_⟩
      obtain ⟨hw,hh,-⟩ := hfb
      simp only [GapFits,desktopWindow]
      omega
    · have := hmouse wnd (Option.mem_toList.mp hwnd)
      exact ⟨this.1,this.2.1⟩
  have hready : m.Ready :=
    ⟨hfb,pmBlit_like.trans ⟨rfl,rfl,rfl,rfl⟩,fun wnd hwnd => (hwindows wnd hwnd).1,
      ⟨_,rfl,rfl,rfl,⟨_,rfl,rfl⟩,hid⟩⟩
  have hpending : m.Pending ⟨0,0,fb.width,fb.height⟩ := by
    intro c d hon hout
    obtain ⟨⟨hc,hcw⟩,hd,hdh⟩ := hon
    exact absurd ⟨⟨hc,(zero_add fb.width).symm ▸ hcw⟩,hd,(zero_add fb.height).symm ▸ hdh⟩ hout
  have hfull : ¬rcIsEmpty ⟨0,0,fb.width,fb.height⟩ := by
    obtain ⟨hw,hh,-⟩ := hfb
    rw [rcIsEmpty]
    dsimp only
    omega
  have hdraw : Drawable m.windows ⟨0,0,fb.width,fb.height⟩ :=
    ⟨by simpa using hfb.width.1.le,by simpa using hfb.height.1.le,
      fun wnd hwnd => (hwindows wnd hwnd).2⟩
  obtain ⟨m',hm',hready',hpending'⟩ := updateRect_spec hready hpending hscreen hfull hdraw
  exact ⟨m',hm',hready',hpending',.inl (.inl le_rfl)⟩

/-- In every run whose rounds are sound, the screen shows the windows after every round. -/
theorem screen_shows (hfb : Screen fb)
    (hcursor : ∀ c ∈ cursor,CursorFits screenWidth screenHeight fb c)
    (hrun : RunMeets nextBatch (fun o messages => ∀ m ∈ o,m.Sound messages)
      (start screenWidth screenHeight fb backBuffer desktop mouse desktopPixels cursor) batches)
    (n : ℕ) : ∃ m,(batches.take n).foldl nextBatch
      (start screenWidth screenHeight fb backBuffer desktop mouse desktopPixels cursor) = some m ∧
        m.Shows := by
  obtain ⟨m,hm,hwithin⟩ := start_spec hfb hcursor backBuffer desktop mouse desktopPixels
  rw [hm] at hrun ⊢
  have hstep : ∀ (o : Option Machine) messages,(∃ m,o = some m ∧ Within (m,rcRectangleEmpty)) →
      (∀ m ∈ o,m.Sound messages) → ∃ m,nextBatch o messages = some m ∧
        Within (m,rcRectangleEmpty) := by
    rintro o messages ⟨m,rfl,hwithin⟩ hsound
    exact processBatch_spec hwithin (hsound m rfl)
  obtain ⟨m',hm',hwithin'⟩ := (hrun.take n).invariant hstep ⟨m,rfl,hwithin⟩
  exact ⟨m',hm',hwithin'.shows⟩

/-- A screen of one pixel. -/
def onePixel : PixMap := ⟨1,1,pmFormatA8R8G8B8,fun _ => pmColorBlack,0,fun _ _ => 0⟩

/-- A window that covers the pixel is created, and it is deleted in the next round. -/
def createAndDelete : List (List Message) :=
  [[.createWindow 0 0 1 1 false (some (4,fun _ _ => 77))],[.deleteWindow 2]]

/-- The deleted window stays on the screen. -/
theorem deleted_window_stays : ∃ m,createAndDelete.foldl nextBatch
    (start 1 1 onePixel 1 2 3 (fun _ _ => 10) none) = some m ∧
      m.windows = [desktopWindow onePixel 2 fun _ _ => 10] ∧ ¬m.Shows := by
  refine ⟨_,rfl,rfl,fun h => ?_⟩
  exact absurd (h 0 0 (by decide)) (by decide)

theorem onePixel_screen : Screen onePixel := ⟨by decide,by decide,by decide⟩

/-- A round that creates a window leaves the screen right. -/
theorem created_window_shows : ∃ m,([[.createWindow 0 0 1 1 false (some (4,fun _ _ => 77))]] :
    List (List Message)).foldl nextBatch (start 1 1 onePixel 1 2 3 (fun _ _ => 10) none) = some m ∧
      m.Shows := by
  have hrun : RunMeets nextBatch (fun o messages => ∀ m ∈ o,m.Sound messages)
      (start 1 1 onePixel 1 2 3 (fun _ _ => 10) none)
      [[.createWindow 0 0 1 1 false (some (4,fun _ _ => 77))]] := by
    refine ⟨fun m hm => ?_,trivial⟩
    obtain rfl := Option.some.inj hm
    refine ⟨⟨fun s hs => ?_,trivial⟩,fun s hs => .inr ?_⟩
    · obtain rfl := Option.some.inj hs
      exact ⟨⟨by decide,by decide,by decide,by decide,by decide,by decide⟩,.inr rfl,
        .inl (.inl le_rfl)⟩
    · obtain rfl := Option.some.inj hs
      refine ⟨by decide,by decide,fun wnd hwnd => ?_⟩
      obtain rfl | hwnd := List.mem_cons.mp hwnd
      · exact ⟨by decide,by decide⟩
      · obtain rfl := List.mem_singleton.mp hwnd
        exact ⟨by decide,by decide⟩
  exact screen_shows onePixel_screen (fun c hc => absurd hc (by simp)) hrun 1

end Runs

end WootOs.WindowManager
