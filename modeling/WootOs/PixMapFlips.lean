import WootOs.PixMaps

/-!
# Turning a pixel map upside down

pmVFlip exchanges the rows of a pixel map from the outside to the middle, with
a buffer for one of them. A row is as long as the pitch, so whatever lies between
the rows is exchanged with them, as are the pixels of a wider parent beside a
part of it. Where the pixels of a row are longer than the pitch, the last of
them stay behind.
-/

namespace WootOs.PixMaps

open ByteMemory

/-- Where a row starts. -/
def PixMap.row (pm : PixMap) (y : ℕ) : Word := pm.pixels + BitVec.ofNat 32 (pm.pitch * y)

/-- One round of pmVFlip, which exchanges two rows. -/
def flipRow (pm : PixMap) (m : Memory) (y : ℕ) : Memory :=
  let top := pm.row y
  let bottom := pm.row (pm.height.toNat - (y + 1))
  let lineBuf : Word → BitVec 8 := fun i => m (bottom + i)
  let m := copied m bottom top pm.pitch
  fun a => if InRange top pm.pitch a then lineBuf (a - top) else m a

/-- pmVFlip, with whether malloc has memory for a row, which is apart from the pixels. -/
def pmVFlip (pm : PixMap) (allocated : Bool) (m : Memory) : Memory :=
  if allocated then (List.range (pm.height.toNat / 2)).foldl (flipRow pm) m else m

/-- What is expected of pmVFlip. -/
structure Flips (pm : PixMap) (allocated : Bool) : Prop where
  /-- Every pixel goes to the row that is as far from the other end. -/
  pixels : ∀ m x y,pm.Has x y →
    readNat (pmVFlip pm allocated m) (pixelBytes pm.format) (pm.at x y) =
      readNat m (pixelBytes pm.format) (pm.at x (pm.height - 1 - y))
  /-- The second time everything is as it was. -/
  restores : ∀ m,pmVFlip pm allocated (pmVFlip pm allocated m) = m
  /-- Bytes that belong to no pixel stay as they are. -/
  frame : ∀ m a,(∀ x y,pm.Has x y → ¬InRange (pm.at x y) (pixelBytes pm.format) a) →
    pmVFlip pm allocated m a = m a

section Rows

variable {pm : PixMap} {m : Memory} {r c k y : ℕ} {a : Word}

/-- A byte of a row. -/
def PixMap.byte (pm : PixMap) (r c : ℕ) : Word :=
  pm.pixels + BitVec.ofNat 32 (pm.pitch * r + c)

/-- Rows have no byte in common. -/
theorem inRange_row (hy : pm.pitch * y + pm.pitch ≤ 2 ^ 32) (hc : c < pm.pitch)
    (hr : pm.pitch * r + c < 2 ^ 32) : InRange (pm.row y) pm.pitch (pm.byte r c) ↔ r = y := by
  have hat : (pm.byte r c - pm.pixels).toNat = pm.pitch * r + c := by
    rw [PixMap.byte]
    bv_omega
  rw [PixMap.row,inRange_add hy,hat]
  constructor
  · rintro ⟨hlow,hhigh⟩
    obtain hlt | heq | hgt := lt_trichotomy r y
    · have hstep : pm.pitch * (r + 1) ≤ pm.pitch * y := Nat.mul_le_mul_left _ hlt
      rw [Nat.mul_add,Nat.mul_one] at hstep
      omega
    · exact heq
    · have hstep : pm.pitch * (y + 1) ≤ pm.pitch * r := Nat.mul_le_mul_left _ hgt
      rw [Nat.mul_add,Nat.mul_one] at hstep
      omega
  · rintro rfl
    omega

/-- From one row to the same byte of another. -/
theorem row_add (r r' c : ℕ) : pm.row r' + (pm.byte r c - pm.row r) = pm.byte r' c := by
  rw [PixMap.row,PixMap.row,PixMap.byte,PixMap.byte,BitVec.ofNat_add,BitVec.ofNat_add,
    ← BitVec.add_assoc,BitVec.add_comm (_ + _) (BitVec.ofNat 32 c),BitVec.add_sub_cancel,
    BitVec.add_assoc]

/-- A round fills the upper row with the lower one. -/
theorem flipRow_top (htop : InRange (pm.row y) pm.pitch a) : flipRow pm m y a =
    m (pm.row (pm.height.toNat - (y + 1)) + (a - pm.row y)) := by
  rw [flipRow]
  dsimp only
  rw [if_pos htop]

/-- A round fills the lower row with the upper one. -/
theorem flipRow_bottom (htop : ¬InRange (pm.row y) pm.pitch a)
    (hbottom : InRange (pm.row (pm.height.toNat - (y + 1))) pm.pitch a) : flipRow pm m y a =
      m (pm.row y + (a - pm.row (pm.height.toNat - (y + 1)))) := by
  rw [flipRow]
  dsimp only
  rw [if_neg htop,copied,if_pos hbottom]

/-- A round leaves all bytes outside of its two rows. -/
theorem flipRow_of_not (htop : ¬InRange (pm.row y) pm.pitch a)
    (hbottom : ¬InRange (pm.row (pm.height.toNat - (y + 1))) pm.pitch a) :
    flipRow pm m y a = m a := by
  rw [flipRow]
  dsimp only
  rw [if_neg htop,copied,if_neg hbottom]

/-- Rows up to one of them end in memory when all do. -/
theorem row_le (h : pm.pitch * pm.height.toNat ≤ 2 ^ 32) (hy : y < pm.height.toNat) :
    pm.pitch * y + pm.pitch ≤ 2 ^ 32 := by
  have hstep : pm.pitch * (y + 1) ≤ pm.pitch * pm.height.toNat := Nat.mul_le_mul_left _ hy
  rw [Nat.mul_add,Nat.mul_one] at hstep
  omega

/-- After so many rounds the outer rows are exchanged. -/
theorem flips_eq (h : pm.pitch * pm.height.toNat ≤ 2 ^ 32) (hk : k ≤ pm.height.toNat / 2)
    (hc : c < pm.pitch) (hr : pm.pitch * r + c < 2 ^ 32) :
    (List.range k).foldl (flipRow pm) m (pm.byte r c) =
      if r < pm.height.toNat ∧ (r < k ∨ pm.height.toNat ≤ r + k) then
        m (pm.byte (pm.height.toNat - (r + 1)) c)
      else m (pm.byte r c) := by
  induction k generalizing r with
  | zero =>
    rw [if_neg (by omega)]
    rfl
  | succ k ih =>
    have hplace : ∀ y,y < pm.height.toNat → pm.pitch * y + c < 2 ^ 32 := fun y hy => by
      have := row_le h hy
      omega
    have hkept : ∀ y,k ≤ y → y + k < pm.height.toNat →
        (List.range k).foldl (flipRow pm) m (pm.byte y c) = m (pm.byte y c) := fun y hy hy' => by
      rw [ih (by omega) (hplace y (by omega)),if_neg (by omega)]
    rw [List.range_succ,List.foldl_append,List.foldl_cons,List.foldl_nil]
    by_cases htop : r = k
    · subst htop
      rw [flipRow_top ((inRange_row (row_le h (by omega)) hc hr).mpr rfl),row_add,
        hkept _ (by omega) (by omega),if_pos (by omega)]
    · by_cases hbottom : r = pm.height.toNat - (k + 1)
      · have hntop : ¬InRange (pm.row k) pm.pitch (pm.byte r c) := fun hin =>
          htop ((inRange_row (row_le h (by omega)) hc hr).mp hin)
        have hin := (inRange_row (row_le h (by omega)) hc hr).mpr hbottom
        rw [flipRow_bottom hntop hin,hbottom,row_add,hkept k le_rfl (by omega),if_pos (by omega)]
        congr 2
        omega
      · rw [flipRow_of_not,ih (by omega) hr]
        · congr 1
          refine propext ?_
          omega
        · exact fun hin => htop ((inRange_row (row_le h (by omega)) hc hr).mp hin)
        · exact fun hin => hbottom ((inRange_row (row_le h (by omega)) hc hr).mp hin)

/-- Where all rows lie in memory, pmVFlip exchanges each with the other one. -/
theorem pmVFlip_byte (h : pm.pitch * pm.height.toNat ≤ 2 ^ 32) (hc : c < pm.pitch)
    (hr : pm.pitch * r + c < 2 ^ 32) : pmVFlip pm true m (pm.byte r c) =
      if r < pm.height.toNat then m (pm.byte (pm.height.toNat - (r + 1)) c)
      else m (pm.byte r c) := by
  rw [pmVFlip,if_pos rfl,flips_eq h le_rfl hc hr]
  by_cases hlt : r < pm.height.toNat
  · rw [if_pos hlt]
    split_ifs with hmoved
    · rfl
    · -- the row in the middle is its own other one
      rw [show pm.height.toNat - (r + 1) = r by omega]
  · rw [if_neg hlt,if_neg fun h => hlt h.1]

/-- The first row becomes the last one. -/
theorem pmVFlip_first (hrows : 2 ≤ pm.height.toNat) (hc : c < pm.pitch)
    (h : pm.pitch * (pm.height.toNat - 1) ≤ 2 ^ 32) (hlt : c < 2 ^ 32) :
    pmVFlip pm true m (pm.byte 0 c) = m (pm.byte (pm.height.toNat - 1) c) := by
  have hend : ∀ y,y + 1 < pm.height.toNat → pm.pitch * y + pm.pitch ≤ 2 ^ 32 := by
    intro y hy
    have hstep : pm.pitch * (y + 1) ≤ pm.pitch * (pm.height.toNat - 1) :=
      Nat.mul_le_mul_left _ (by omega)
    rw [Nat.mul_add,Nat.mul_one] at hstep
    omega
  have hr : pm.pitch * 0 + c < 2 ^ 32 := by omega
  -- the rounds after the first one do not touch the first row
  have hrest : ∀ (ys : List ℕ) m,(∀ y ∈ ys,0 < y ∧ y < pm.height.toNat / 2) →
      ys.foldl (flipRow pm) m (pm.byte 0 c) = m (pm.byte 0 c) := by
    intro ys
    induction ys with
    | nil => exact fun m _ => rfl
    | cons y ys ih =>
      intro m hys
      have hy := hys y List.mem_cons_self
      rw [List.foldl_cons,ih _ fun z hz => hys z (List.mem_cons_of_mem y hz)]
      refine flipRow_of_not (fun hin => ?_) fun hin => ?_
      · have := (inRange_row (hend y (by omega)) hc hr).mp hin
        omega
      · have := (inRange_row (hend _ (by omega)) hc hr).mp hin
        omega
  obtain ⟨half,hhalf⟩ : ∃ half,pm.height.toNat / 2 = half + 1 := ⟨_,(Nat.sub_add_cancel
    (by omega : 1 ≤ pm.height.toNat / 2)).symm⟩
  rw [pmVFlip,if_pos rfl,hhalf,List.range_succ_eq_map,List.foldl_cons,hrest]
  · rw [flipRow_top ((inRange_row (hend 0 (by omega)) hc hr).mpr rfl),row_add]
  · intro y hy
    obtain ⟨z,hz,rfl⟩ := List.mem_map.mp hy
    have := List.mem_range.mp hz
    omega

/-- Every address is a byte of a row, if rows have bytes at all. -/
theorem exists_byte (hpitch : 0 < pm.pitch) (a : Word) :
    ∃ r c,c < pm.pitch ∧ pm.pitch * r + c < 2 ^ 32 ∧ a = pm.byte r c := by
  refine ⟨(a - pm.pixels).toNat / pm.pitch,(a - pm.pixels).toNat % pm.pitch,Nat.mod_lt _ hpitch,
    ?_,?_⟩
  · rw [Nat.div_add_mod]
    exact (a - pm.pixels).isLt
  · rw [PixMap.byte,Nat.div_add_mod]
    bv_omega

/-- The bytes of a pixel are bytes of its row. -/
theorem at_add {x y : ℤ} (hx : 0 ≤ x) (hy : 0 ≤ y) (i : ℕ) : pm.at x y + BitVec.ofNat 32 i =
    pm.byte y.toNat (x.toNat * pixelBytes pm.format + i) := by
  rw [PixMap.at_eq hx hy,PixMap.byte,PixMap.offset,BitVec.add_assoc,← BitVec.ofNat_add,
    Nat.add_assoc]

/-- Two addresses that have the same byte in every memory are one. -/
theorem eq_of_forall {u v : Word} (h : ∀ m : Memory,m u = m v) : u = v := by
  by_contra hne
  have := h (Function.update (fun _ => 0) v 1)
  rw [Function.update_of_ne hne,Function.update_self] at this
  exact absurd this (by decide)

/-- Different bytes in memory have different addresses. -/
theorem byte_inj {r' c' : ℕ} (h : pm.byte r c = pm.byte r' c') (hlt : pm.pitch * r + c < 2 ^ 32)
    (hlt' : pm.pitch * r' + c' < 2 ^ 32) : pm.pitch * r + c = pm.pitch * r' + c' := by
  rw [PixMap.byte,PixMap.byte] at h
  bv_omega

/-- Rows without a gap and without an overlap are turned upside down. -/
theorem flips_of_pitch (h : (pm.pitch : ℤ) = pm.width * pixelBytes pm.format) : Flips pm true := by
  have hcols := pm.columns
  have hrows := pm.rows
  have hbytes := pixelBytes_pos pm.format
  have hpitch : pm.pitch = pm.width.toNat * pixelBytes pm.format := by
    zify
    rwa [Int.toNat_of_nonneg hcols.1.le]
  have hpos : 0 < pm.pitch := by
    rw [hpitch]
    exact Nat.mul_pos (by omega) hbytes.1
  have hroom : pm.pitch * pm.height.toNat ≤ 2 ^ 32 := by
    have hroom := pm.room
    rw [← hpitch] at hroom
    have hstep : pm.pitch * (pm.height.toNat - 1 + 1) = pm.pitch * (pm.height.toNat - 1) +
        pm.pitch := Nat.mul_succ _ _
    rw [Nat.sub_add_cancel (by omega)] at hstep
    omega
  have hcolumn : ∀ x i : ℕ,x < pm.width.toNat → i < pixelBytes pm.format →
      x * pixelBytes pm.format + i < pm.pitch := by
    intro x i hx hi
    have hstep : (x + 1) * pixelBytes pm.format ≤ pm.width.toNat * pixelBytes pm.format :=
      Nat.mul_le_mul_right _ hx
    rw [Nat.add_mul,Nat.one_mul,← hpitch] at hstep
    omega
  have hplace : ∀ r c,r < pm.height.toNat → c < pm.pitch → pm.pitch * r + c < 2 ^ 32 := by
    intro r c hr hc
    have := row_le hroom hr
    omega
  refine ⟨fun m x y hp => ?_,fun m => funext fun a => ?_,fun m a ha => ?_⟩
  · obtain ⟨⟨hx,hxw⟩,hy,hyh⟩ := hp
    refine readNat_eq_iff.mpr fun i hi => ?_
    have hc := hcolumn x.toNat i (by omega) hi
    rw [at_add hx hy,at_add hx (by omega),pmVFlip_byte hroom hc (hplace _ _ (by omega) hc),
      if_pos (by omega)]
    congr 2
    omega
  · obtain ⟨r,c,hc,hr,rfl⟩ := exists_byte hpos a
    rw [pmVFlip_byte hroom hc hr]
    split_ifs with hlt
    · rw [pmVFlip_byte hroom hc (hplace _ _ (by omega) hc),if_pos (by omega)]
      congr 2
      omega
    · rw [pmVFlip_byte hroom hc hr,if_neg hlt]
  · obtain ⟨r,c,hc,hr,rfl⟩ := exists_byte hpos a
    rw [pmVFlip_byte hroom hc hr,if_neg]
    intro hlt
    have hdiv : c / pixelBytes pm.format < pm.width.toNat :=
      Nat.div_lt_of_lt_mul (by rw [Nat.mul_comm,← hpitch]; exact hc)
    have hp : pm.Has (c / pixelBytes pm.format : ℕ) (r : ℕ) :=
      ⟨⟨by positivity,by omega⟩,by positivity,by omega⟩
    refine ha _ _ hp ?_
    have hmod := Nat.div_add_mod' c (pixelBytes pm.format)
    have hlow := Nat.mod_lt c hbytes.1
    have hat := @at_add pm _ _ hp.1.1 hp.2.1 (c % pixelBytes pm.format)
    rw [Int.toNat_natCast,Int.toNat_natCast,hmod] at hat
    rw [← hat,InRange]
    bv_omega

/-- A pixel map of one row is its own mirror image. -/
theorem flips_of_row (h : pm.height ≤ 1) (allocated : Bool) : Flips pm allocated := by
  have hrows := pm.rows
  have hsame : ∀ m,pmVFlip pm allocated m = m := by
    intro m
    rw [pmVFlip,show pm.height.toNat / 2 = 0 by omega]
    split_ifs <;> rfl
  refine ⟨fun m x y hp => ?_,fun m => by rw [hsame,hsame],fun m a _ => by rw [hsame]⟩
  have hlow := hp.2.1
  have hhigh := hp.2.2
  rw [hsame,show pm.height - 1 - y = y by omega]

/-- Rows that are all at one place are theirs, too. -/
theorem flips_of_zero (h : pm.pitch = 0) (allocated : Bool) : Flips pm allocated := by
  have hround : ∀ m y,flipRow pm m y = m := by
    intro m y
    funext a
    refine flipRow_of_not (fun hin => ?_) fun hin => ?_
    · rw [InRange,h] at hin
      omega
    · rw [InRange,h] at hin
      omega
  have hrounds : ∀ ys m,List.foldl (flipRow pm) m ys = m := by
    intro ys
    induction ys with
    | nil => exact fun m => rfl
    | cons y ys ih => exact fun m => by rw [List.foldl_cons,hround,ih]
  have hsame : ∀ m,pmVFlip pm allocated m = m := by
    intro m
    rw [pmVFlip,hrounds]
    split_ifs <;> rfl
  refine ⟨fun m x y hp => ?_,fun m => by rw [hsame,hsame],fun m a _ => by rw [hsame]⟩
  have hhigh := hp.2.2
  rw [hsame,PixMap.at_eq hp.1.1 hp.2.1,PixMap.at_eq hp.1.1 (by omega),PixMap.offset,PixMap.offset,
    h,Nat.zero_mul,Nat.zero_mul]

/-- Nothing is flipped without a buffer. -/
theorem Flips.allocated {allocated : Bool} (h : Flips pm allocated) (hrows : 2 ≤ pm.height.toNat)
    (hpitch : 0 < pm.pitch) : allocated = true := by
  by_contra hnot
  obtain rfl : allocated = false := Bool.eq_false_iff.mpr hnot
  have hcols := pm.columns
  have hbytes := pixelBytes_pos pm.format
  have hroom := pm.room
  have hfirst : pm.Has 0 0 := ⟨⟨le_rfl,hcols.1⟩,le_rfl,by omega⟩
  have hsame : pm.byte 0 0 = pm.byte (pm.height.toNat - 1) 0 := by
    refine eq_of_forall fun m => ?_
    have hbyte := readNat_eq_iff.mp (h.pixels m 0 0 hfirst) 0 hbytes.1
    rw [at_add le_rfl le_rfl,at_add le_rfl (by omega),Int.toNat_zero,Nat.zero_mul,Nat.zero_add,
      show (pm.height - 1 - 0).toNat = pm.height.toNat - 1 by omega] at hbyte
    exact hbyte
  have hlong : 0 < pm.width.toNat * pixelBytes pm.format := Nat.mul_pos (by omega) hbytes.1
  have hlast : 0 < pm.pitch * (pm.height.toNat - 1) := Nat.mul_pos hpitch (by omega)
  have := byte_inj hsame (by omega) (by omega)
  omega

/-- The bytes between rows are not left alone. -/
theorem Flips.pitch_le (h : Flips pm true) (hrows : 2 ≤ pm.height.toNat) :
    pm.pitch ≤ pm.width.toNat * pixelBytes pm.format := by
  by_contra hwide
  have hwide : pm.width.toNat * pixelBytes pm.format < pm.pitch := not_le.mp hwide
  have hcols := pm.columns
  have hbytes := pixelBytes_pos pm.format
  have hroom := pm.room
  have hstep : pm.pitch * 1 ≤ pm.pitch * (pm.height.toNat - 1) :=
    Nat.mul_le_mul_left _ (by omega)
  have hlong : 0 < pm.width.toNat * pixelBytes pm.format := Nat.mul_pos (by omega) hbytes.1
  rw [Nat.mul_one] at hstep
  have hgap : ∀ x y,pm.Has x y → ¬InRange (pm.at x y) (pixelBytes pm.format)
      (pm.byte 0 (pm.width.toNat * pixelBytes pm.format)) := by
    intro x y hp hin
    have hat : (pm.byte 0 (pm.width.toNat * pixelBytes pm.format) - pm.pixels).toNat =
        pm.width.toNat * pixelBytes pm.format := by
      rw [PixMap.byte,Nat.mul_zero,Nat.zero_add,BitVec.add_comm,BitVec.add_sub_cancel,
        BitVec.toNat_ofNat,Nat.mod_eq_of_lt (by omega)]
    rw [PixMap.mem_at hp,hat,PixMap.offset] at hin
    obtain ⟨⟨hx,hxw⟩,hy,hyh⟩ := hp
    have hcol : (x.toNat + 1) * pixelBytes pm.format ≤ pm.width.toNat * pixelBytes pm.format :=
      Nat.mul_le_mul_right _ (by omega)
    rw [Nat.add_mul,Nat.one_mul] at hcol
    by_cases hfirst : y = 0
    · subst hfirst
      rw [Int.toNat_zero,Nat.mul_zero] at hin
      omega
    · have hrow : pm.pitch * 1 ≤ pm.pitch * y.toNat := Nat.mul_le_mul_left _ (by omega)
      omega
  have hsame : pm.byte (pm.height.toNat - 1) (pm.width.toNat * pixelBytes pm.format) =
      pm.byte 0 (pm.width.toNat * pixelBytes pm.format) := by
    refine eq_of_forall fun m => ?_
    exact (pmVFlip_first hrows hwide (by omega) (by omega)).symm.trans (h.frame m _ hgap)
  have hmod := congrArg (fun a => (a - pm.pixels).toNat) hsame
  simp only [PixMap.byte,Nat.mul_zero,Nat.zero_add,BitVec.add_comm pm.pixels,
    BitVec.add_sub_cancel,BitVec.toNat_ofNat] at hmod
  omega

/-- Pixels that are longer than the pitch are not flipped. -/
theorem Flips.le_pitch (h : Flips pm true) (hrows : 2 ≤ pm.height.toNat) (hpitch : 0 < pm.pitch) :
    pm.width.toNat * pixelBytes pm.format ≤ pm.pitch := by
  by_contra hlong
  have hlong : pm.pitch < pm.width.toNat * pixelBytes pm.format := not_le.mp hlong
  have hcols := pm.columns
  have hbytes := pixelBytes_pos pm.format
  have hroom := pm.room
  have hrow : pm.pitch * (pm.height.toNat - 1) + pm.pitch = pm.pitch * pm.height.toNat := by
    rw [← Nat.mul_succ,Nat.succ_eq_add_one,Nat.sub_add_cancel (by omega)]
  have hlast : (pm.width.toNat - 1) * pixelBytes pm.format + pixelBytes pm.format =
      pm.width.toNat * pixelBytes pm.format := by
    rw [← Nat.succ_mul,Nat.succ_eq_add_one,Nat.sub_add_cancel (by omega)]
  -- the last byte of the first row of pixels is in a later row of bytes
  obtain ⟨r,c,hc,hr,hplace⟩ : ∃ r c,c < pm.pitch ∧ 0 < r ∧
      pm.width.toNat * pixelBytes pm.format - 1 = pm.pitch * r + c :=
    ⟨_,_,Nat.mod_lt _ hpitch,Nat.div_pos (by omega) hpitch,(Nat.div_add_mod _ _).symm⟩
  have hp : pm.Has (pm.width - 1) 0 := ⟨⟨by omega,by omega⟩,le_rfl,by omega⟩
  have hsame : pm.byte (if r < pm.height.toNat then pm.height.toNat - (r + 1) else r) c =
      pm.byte (pm.height.toNat - 1) (pm.width.toNat * pixelBytes pm.format - 1) := by
    refine eq_of_forall fun m => ?_
    have hbyte := readNat_eq_iff.mp (h.pixels m (pm.width - 1) 0 hp) (pixelBytes pm.format - 1)
      (by omega)
    rw [at_add (by omega) le_rfl,at_add (by omega) (by omega),
      show (pm.width - 1).toNat = pm.width.toNat - 1 by omega,
      show (pm.height - 1 - 0).toNat = pm.height.toNat - 1 by omega,
      show (pm.width.toNat - 1) * pixelBytes pm.format + (pixelBytes pm.format - 1) =
        pm.width.toNat * pixelBytes pm.format - 1 by omega] at hbyte
    have hsplit : pm.byte (Int.toNat 0) (pm.width.toNat * pixelBytes pm.format - 1) =
        pm.byte r c := by
      rw [PixMap.byte,PixMap.byte,hplace,Int.toNat_zero,Nat.mul_zero,Nat.zero_add]
    rw [hsplit,pmVFlip_byte (by omega) hc (by omega)] at hbyte
    rw [← hbyte]
    split_ifs <;> rfl
  have hother : pm.pitch * (if r < pm.height.toNat then pm.height.toNat - (r + 1) else r) + c <
      2 ^ 32 := by
    split_ifs with hlt
    · have hstep : pm.pitch * (pm.height.toNat - (r + 1)) ≤ pm.pitch * (pm.height.toNat - 1) :=
        Nat.mul_le_mul_left _ (by omega)
      omega
    · omega
  have hoffset := byte_inj hsame hother (by omega)
  rw [hplace,← Nat.add_assoc,← Nat.mul_add] at hoffset
  have := Nat.eq_of_mul_eq_mul_left hpitch (Nat.add_right_cancel hoffset)
  split_ifs at this <;> omega

end Rows

/-- pmVFlip turns a pixel map upside down exactly where there is nothing to do, or
where the rows are neither apart nor long and there is memory for one of them. -/
theorem vflip_iff (pm : PixMap) (allocated : Bool) : Flips pm allocated ↔
    pm.height ≤ 1 ∨ pm.pitch = 0 ∨
      allocated = true ∧ (pm.pitch : ℤ) = pm.width * pixelBytes pm.format := by
  constructor
  · intro h
    by_cases hrows : pm.height ≤ 1
    · exact .inl hrows
    by_cases hpitch : pm.pitch = 0
    · exact .inr (.inl hpitch)
    have htwo : 2 ≤ pm.height.toNat := by omega
    have hpos : 0 < pm.pitch := Nat.pos_of_ne_zero hpitch
    have hcols := pm.columns
    obtain rfl := h.allocated htwo hpos
    refine .inr (.inr ⟨rfl,?_⟩)
    have heq := le_antisymm (h.pitch_le htwo) (h.le_pitch htwo hpos)
    rw [heq]
    push_cast
    rw [Int.toNat_of_nonneg hcols.1.le]
  · rintro (h | h | ⟨rfl,h⟩)
    · exact flips_of_row h allocated
    · exact flips_of_zero h allocated
    · exact flips_of_pitch h

/-- The left column of a pixel map of two columns and two rows. -/
def leftColumn : PixMap where
  width := 1
  height := 2
  pitch := 8
  format := WindowManager.pmFormatA8R8G8B8
  palette _ := WindowManager.pmColorBlack
  pixels := 0
  supported := by decide
  columns := by decide
  rows := by decide
  room := by decide

/-- The right column is turned upside down with it. -/
theorem parent_flipped : ¬Flips leftColumn true := fun h =>
  absurd (h.pitch_le (by decide)) (by decide)

end WootOs.PixMaps
