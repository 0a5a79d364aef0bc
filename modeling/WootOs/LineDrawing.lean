import WootOs.EvenSpread
import WootOs.PixelFills

/-!
# Lines of any direction

pmLine goes from one end to the other with an error term that says which of
the coordinates takes a step. The term starts with half of the longer
distance, and for steep lines with its negative, rounded down: where the longer
distance is one, half of it is rounded to the whole, and a diagonal line of two
points leaves its end behind.
-/

namespace WootOs.PixMaps

open ByteMemory EvenSpread
open WindowManager (Color int)

/-- What does not change while a line is drawn. -/
structure Course where
  /-- Distance of the columns. -/
  dx : ℤ
  /-- Distance of the rows. -/
  dy : ℤ
  /-- Direction of the columns. -/
  sx : ℤ
  /-- Direction of the rows. -/
  sy : ℤ

/-- Where the line is. -/
structure Pen where
  /-- Column. -/
  x : ℤ
  /-- Row. -/
  y : ℤ
  /-- The error term. -/
  err : ℤ

/-- The direction of a distance. -/
def direction (d : ℤ) : ℤ := if d < 0 then -1 else 1

/-- How pmLine starts. -/
def Course.start (x1 y1 x2 y2 : ℤ) : Course where
  dx := int (int (x2 - x1) * direction (int (x2 - x1)))
  dy := int (int (y2 - y1) * direction (int (y2 - y1)))
  sx := direction (int (x2 - x1))
  sy := direction (int (y2 - y1))

/-- The first error term. -/
def Course.err (l : Course) : ℤ := (if l.dx > l.dy then l.dx else int (-l.dy)) / 2

/-- One round of the loop after the pixel. -/
def Course.step (l : Course) (p : Pen) : Pen :=
  let e2 := p.err
  let p := if e2 > int (-l.dx) then ⟨int (p.x + l.sx),p.y,int (p.err - l.dy)⟩ else p
  if e2 < l.dy then ⟨p.x,int (p.y + l.sy),int (p.err + l.dx)⟩ else p

/-- The loop of pmLine with so much fuel. -/
def lineLoop {S : Type*} (setPixel : S → ℤ → ℤ → S) (l : Course) (x2 y2 : ℤ) :
    ℕ → Pen → S → Option S
  | 0,_,_ => none
  | fuel + 1,p,s =>
    let s := setPixel s p.x p.y
    if p.x = x2 ∧ p.y = y2 then some s else lineLoop setPixel l x2 y2 fuel (l.step p) s

/-- pmLine, with what it does for a pixel. -/
def pmLine {S : Type*} (setPixel : S → ℤ → ℤ → S) (fuel : ℕ) (s : S) (x1 y1 x2 y2 : ℤ) :
    Option S :=
  let l := Course.start x1 y1 x2 y2
  lineLoop setPixel l x2 y2 fuel ⟨x1,y1,l.err⟩ s

/-- The points that pmLine sets, in their order. -/
def visited (fuel : ℕ) (x1 y1 x2 y2 : ℤ) : Option (List Point) :=
  pmLine (fun s x y => s ++ [(x,y)]) fuel [] x1 y1 x2 y2

/-- Points side by side or at a corner. -/
def Adjacent (p q : Point) : Prop := |q.1 - p.1| ≤ 1 ∧ |q.2 - p.2| ≤ 1

/-- What is expected of the points of a line. -/
structure Connects (x1 y1 x2 y2 : ℤ) (points : List Point) : Prop where
  /-- As many points as the longer distance has, and one. -/
  count : (points.length : ℤ) = max |x2 - x1| |y2 - y1| + 1
  /-- It starts at the first end. -/
  first : points.head? = some (x1,y1)
  /-- It ends at the second. -/
  last : points.getLast? = some (x2,y2)
  /-- There are no gaps. -/
  connected : points.IsChain Adjacent

section Loop

universe u

variable {S : Type u} {setPixel : S → ℤ → ℤ → S} {l : Course} {x2 y2 : ℤ} {p : Pen} {s : S}
  {n : ℕ} {pm : PixMap}

/-- Where a pen is. -/
def Pen.point (p : Pen) : Point := (p.x,p.y)

/-- The loop sets the points up to the first that is the end. -/
theorem lineLoop_eq (h : ∀ k < n,(l.step^[k] p).point ≠ (x2,y2))
    (hend : (l.step^[n] p).point = (x2,y2)) : lineLoop setPixel l x2 y2 (n + 1) p s =
      some (((List.range (n + 1)).map fun k => (l.step^[k] p).point).foldl
        (fun s q => setPixel s q.1 q.2) s) := by
  induction n generalizing p s with
  | zero =>
    have hat : p.x = x2 ∧ p.y = y2 := Prod.mk.injEq .. ▸ hend
    rw [lineLoop,if_pos hat]
    rfl
  | succ n ih =>
    have hat : ¬(p.x = x2 ∧ p.y = y2) := fun hat => h 0 (by omega) (Prod.ext hat.1 hat.2)
    rw [lineLoop,if_neg hat,ih (fun k hk => h (k + 1) (by omega)) hend,
      List.range_succ_eq_map (n := n + 1),List.map_cons,List.foldl_cons,List.map_map]
    rfl

/-- A loop whose rounds keep an invariant up to the end connects its ends. -/
theorem lineLoop_connects {x1 y1 : ℤ} {inv : ℕ → Pen → Prop} (hfirst : p.point = (x1,y1))
    (hn : (n : ℤ) = max |x2 - x1| |y2 - y1|) (hinv : inv 0 p)
    (hstep : ∀ k < n,∀ q,inv k q → inv (k + 1) (l.step q) ∧ Adjacent q.point (l.step q).point)
    (hbefore : ∀ k < n,∀ q,inv k q → q.point ≠ (x2,y2))
    (hend : ∀ q,inv n q → q.point = (x2,y2)) :
    ∃ points,Connects x1 y1 x2 y2 points ∧ ∀ {S : Type u} (setPixel : S → ℤ → ℤ → S) (s : S),
      lineLoop setPixel l x2 y2 (n + 1) p s =
        some (points.foldl (fun s q => setPixel s q.1 q.2) s) := by
  have hall : ∀ k ≤ n,inv k (l.step^[k] p) := by
    intro k hk
    induction k with
    | zero => exact hinv
    | succ k ih =>
      rw [Function.iterate_succ_apply']
      exact (hstep k hk _ (ih (Nat.le_of_succ_le hk))).1
  refine ⟨(List.range (n + 1)).map fun k => (l.step^[k] p).point,⟨?_,?_,?_,?_⟩,fun setPixel s => ?_⟩
  · rw [List.length_map,List.length_range,← hn]
    push_cast
    ring
  · rw [List.range_succ_eq_map]
    simpa using hfirst
  · rw [List.range_succ]
    simpa using hend _ (hall n le_rfl)
  · refine (List.isChain_map _).mpr ((List.isChain_range_succ _ _).mpr fun k hk => ?_)
    have := (hstep k hk _ (hall k hk.le)).2
    rwa [← Function.iterate_succ_apply' l.step] at this
  · exact lineLoop_eq (fun k hk => hbefore k hk _ (hall k hk.le)) (hend _ (hall n le_rfl))

end Loop

section Courses

universe u

variable {l : Course} {x1 y1 x2 y2 : ℤ} {p : Pen} {start k j : ℤ}

/-- The ends of a line and its distances are within the int type. -/
structure Course.Fits (l : Course) (x1 y1 x2 y2 : ℤ) : Prop where
  /-- Distance of the columns. -/
  dx : 0 ≤ l.dx ∧ l.dx < 2 ^ 31
  /-- Distance of the rows. -/
  dy : 0 ≤ l.dy ∧ l.dy < 2 ^ 31
  /-- Direction of the columns. -/
  sx : l.sx = 1 ∨ l.sx = -1
  /-- Direction of the rows. -/
  sy : l.sy = 1 ∨ l.sy = -1
  /-- The second column. -/
  lastColumn : x2 = x1 + l.sx * l.dx
  /-- The second row. -/
  lastRow : y2 = y1 + l.sy * l.dy
  /-- Columns are of the int type. -/
  columns : (-2 ^ 31 ≤ x1 ∧ x1 < 2 ^ 31) ∧ -2 ^ 31 ≤ x2 ∧ x2 < 2 ^ 31
  /-- Rows are of the int type. -/
  rows : (-2 ^ 31 ≤ y1 ∧ y1 < 2 ^ 31) ∧ -2 ^ 31 ≤ y2 ∧ y2 < 2 ^ 31

/-- One step more in a direction stays between the ends. -/
theorem int_step {a b s d i : ℤ} (hs : s = 1 ∨ s = -1) (hb : b = a + s * d)
    (hrange : (-2 ^ 31 ≤ a ∧ a < 2 ^ 31) ∧ -2 ^ 31 ≤ b ∧ b < 2 ^ 31) (hi : 0 ≤ i) (hd : i + 1 ≤ d) :
    int (a + s * i + s) = a + s * (i + 1) := by
  obtain rfl | rfl := hs
  · rw [WindowManager.int_eq (by omega) (by omega)]
    ring
  · rw [WindowManager.int_eq (by omega) (by omega)]
    ring

/-- A sum of which a part has wrapped is right when it fits. -/
theorem int_int_add {a b : ℤ} (hl : -2 ^ 31 ≤ a + b) (hu : a + b < 2 ^ 31) :
    int (int a + b) = a + b := by
  rw [← WindowManager.int_eq hl hu,int,int,int,MachineInt.signed,MachineInt.signed,
    MachineInt.signed,Int.bmod_add_bmod]

/-- The line of a flat course: every round takes a column. -/
structure Flat (l : Course) (x1 y1 start : ℤ) (k : ℕ) (p : Pen) (j : ℤ) : Prop where
  /-- So many columns have been taken. -/
  x : p.x = x1 + l.sx * k
  /-- So many rows have been taken. -/
  y : p.y = y1 + l.sy * j
  /-- The error term is the account of the rows. -/
  err : Spread l.dx l.dy start k j p.err

/-- The line of a steep course: every round takes a row. -/
structure Steep (l : Course) (x1 y1 start : ℤ) (k : ℕ) (p : Pen) (j : ℤ) : Prop where
  /-- So many columns have been taken. -/
  x : p.x = x1 + l.sx * j
  /-- So many rows have been taken. -/
  y : p.y = y1 + l.sy * k
  /-- The negative of the error term is the account of the columns. -/
  err : Spread l.dy l.dx start k j (-p.err)

/-- One step in a direction is at most one. -/
theorem abs_step {s : ℤ} (hs : s = 1 ∨ s = -1) (a i : ℤ) : |a + s * (i + 1) - (a + s * i)| ≤ 1 := by
  have h : a + s * (i + 1) - (a + s * i) = s := by ring
  rw [h]
  obtain rfl | rfl := hs <;> decide

theorem Flat.step {k : ℕ} (hl : l.Fits x1 y1 x2 y2) (hflat : l.dy < l.dx) (hlow : 0 ≤ start)
    (hhigh : start < l.dx) (hk : k < l.dx) (h : Flat l x1 y1 start k p j) :
    (∃ j,Flat l x1 y1 start (k + 1) (l.step p) j) ∧ Adjacent p.point (l.step p).point := by
  obtain ⟨hx,hy,herr⟩ := h
  obtain ⟨⟨hdx0,hdx⟩,⟨hdy0,hdy⟩,hsx,hsy,hx2,hy2,hcolumns,hrows⟩ := hl
  have hneg : int (-l.dx) = -l.dx := WindowManager.int_eq (by omega) (by omega)
  have hlow' := herr.low
  have hhigh' := herr.high
  have hcolumn : int (p.x + l.sx) = x1 + l.sx * (k + 1) := by
    rw [hx]
    exact int_step hsx hx2 hcolumns (by positivity) (by omega)
  have hxx : |int (p.x + l.sx) - p.x| ≤ 1 := by
    rw [hcolumn,hx]
    exact abs_step hsx x1 k
  have hsub : int (p.err - l.dy) = p.err - l.dy := WindowManager.int_eq (by omega) (by omega)
  rw [Course.step]
  rw [hneg,if_pos (by omega : p.err > -l.dx)]
  split_ifs with hlt
  · have hnext := herr.both hflat.le hlt
    have hj := (herr.range hlow hhigh hdy0 (by positivity) hk.le).1
    have hj' := (hnext.range hlow hhigh hdy0 (by positivity) (by omega)).2
    have hrow : int (p.y + l.sy) = y1 + l.sy * (j + 1) := by
      rw [hy]
      exact int_step hsy hy2 hrows hj hj'
    have hadd : int (int (p.err - l.dy) + l.dx) = p.err - l.dy + l.dx :=
      int_int_add (by omega) (by omega)
    refine ⟨⟨j + 1,?_,hrow,?_⟩,hxx,?_⟩
    · dsimp only
      rw [hcolumn]
      push_cast
      rfl
    · dsimp only
      rw [hadd]
      push_cast
      exact hnext
    · rw [Pen.point,Pen.point]
      dsimp only
      rw [hrow,hy]
      exact abs_step hsy y1 j
  · have hnext := herr.stay hdy0 (not_lt.mp hlt)
    refine ⟨⟨j,?_,hy,?_⟩,hxx,?_⟩
    · dsimp only
      rw [hcolumn]
      push_cast
      rfl
    · dsimp only
      rw [hsub]
      push_cast
      exact hnext
    · rw [Pen.point,Pen.point]
      simp

theorem Steep.step {k : ℕ} (hl : l.Fits x1 y1 x2 y2) (hsteep : l.dx ≤ l.dy) (hlow : 0 ≤ start)
    (hhigh : start < l.dy) (hk : k < l.dy) (h : Steep l x1 y1 start k p j) :
    (∃ j,Steep l x1 y1 start (k + 1) (l.step p) j) ∧ Adjacent p.point (l.step p).point := by
  obtain ⟨hx,hy,herr⟩ := h
  obtain ⟨⟨hdx0,hdx⟩,⟨hdy0,hdy⟩,hsx,hsy,hx2,hy2,hcolumns,hrows⟩ := hl
  have hneg : int (-l.dx) = -l.dx := WindowManager.int_eq (by omega) (by omega)
  have hlow' := herr.low
  have hhigh' := herr.high
  have hrow : int (p.y + l.sy) = y1 + l.sy * (k + 1) := by
    rw [hy]
    exact int_step hsy hy2 hrows (by positivity) (by omega)
  have hyy : |int (p.y + l.sy) - p.y| ≤ 1 := by
    rw [hrow,hy]
    exact abs_step hsy y1 k
  rw [Course.step]
  rw [hneg,if_pos (by omega : p.err < l.dy)]
  split_ifs with hgt
  · have hnext := herr.both hsteep (by omega)
    have hj := (herr.range hlow hhigh hdx0 (by positivity) hk.le).1
    have hj' := (hnext.range hlow hhigh hdx0 (by positivity) (by omega)).2
    have hcolumn : int (p.x + l.sx) = x1 + l.sx * (j + 1) := by
      rw [hx]
      exact int_step hsx hx2 hcolumns hj hj'
    have hadd : int (int (p.err - l.dy) + l.dx) = p.err - l.dy + l.dx :=
      int_int_add (by omega) (by omega)
    refine ⟨⟨j + 1,hcolumn,?_,?_⟩,?_,hyy⟩
    · dsimp only
      rw [hrow]
      push_cast
      rfl
    · dsimp only
      rw [hadd,show -(p.err - l.dy + l.dx) = -p.err - l.dx + l.dy by ring]
      push_cast
      exact hnext
    · rw [Pen.point,Pen.point]
      dsimp only
      rw [hcolumn,hx]
      exact abs_step hsx x1 j
  · have hnext := herr.stay hdx0 (by omega)
    have hadd : int (p.err + l.dx) = p.err + l.dx := WindowManager.int_eq (by omega) (by omega)
    refine ⟨⟨j,hx,?_,?_⟩,?_,hyy⟩
    · dsimp only
      rw [hrow]
      push_cast
      rfl
    · dsimp only
      rw [hadd,show -(p.err + l.dx) = -p.err - l.dx by ring]
      push_cast
      exact hnext
    · rw [Pen.point,Pen.point]
      simp

/-- The distance of two ends. -/
theorem abs_ends {a b s d : ℤ} (hs : s = 1 ∨ s = -1) (hd : 0 ≤ d) (hb : b = a + s * d) :
    |b - a| = d := by
  rw [hb,add_sub_cancel_left,abs_mul,abs_of_nonneg hd]
  obtain rfl | rfl := hs <;> simp

/-- Different counts of steps lead to different places. -/
theorem step_ne {a b s d i : ℤ} (hs : s = 1 ∨ s = -1) (hb : b = a + s * d) (hi : i < d) :
    a + s * i ≠ b := by
  obtain rfl | rfl := hs <;> omega

theorem Course.Fits.flat_connects (hl : l.Fits x1 y1 x2 y2) (hflat : l.dy < l.dx) :
    ∃ points,Connects x1 y1 x2 y2 points ∧ ∀ {S : Type u} (setPixel : S → ℤ → ℤ → S) (s : S),
      lineLoop setPixel l x2 y2 (l.dx.toNat + 1) ⟨x1,y1,l.dx / 2⟩ s =
        some (points.foldl (fun s q => setPixel s q.1 q.2) s) := by
  have hdx := hl.dx
  have hdy := hl.dy
  have hlow : 0 ≤ l.dx / 2 := by omega
  have hhigh : l.dx / 2 < l.dx := by omega
  refine @lineLoop_connects l x2 y2 _ _ x1 y1 (fun k p => ∃ j,Flat l x1 y1 (l.dx / 2) k p j) rfl
    ?_ ?_ ?_ ?_ ?_
  · rw [abs_ends hl.sx hdx.1 hl.lastColumn,abs_ends hl.sy hdy.1 hl.lastRow]
    omega
  · exact ⟨0,by simp,by simp,.first hlow hhigh⟩
  · rintro k hk q ⟨j,h⟩
    exact h.step hl hflat hlow hhigh (by omega)
  · rintro k hk q ⟨j,h⟩ hpoint
    refine step_ne hl.sx hl.lastColumn (show (k : ℤ) < l.dx by omega) ?_
    rw [← h.x]
    exact congrArg Prod.fst hpoint
  · rintro q ⟨j,h⟩
    have hcount : ((l.dx.toNat : ℕ) : ℤ) = l.dx := Int.toNat_of_nonneg hdx.1
    have herr := h.err
    rw [hcount] at herr
    refine Prod.ext ?_ ?_
    · rw [Pen.point,h.x,hcount]
      exact hl.lastColumn.symm
    · rw [Pen.point,h.y,herr.last hlow hhigh]
      exact hl.lastRow.symm

theorem Course.Fits.steep_connects (hl : l.Fits x1 y1 x2 y2) (hsteep : l.dx ≤ l.dy)
    (hlow : 0 ≤ -p.err) (hhigh : -p.err < l.dy) (hpoint : p.point = (x1,y1)) :
    ∃ points,Connects x1 y1 x2 y2 points ∧ ∀ {S : Type u} (setPixel : S → ℤ → ℤ → S) (s : S),
      lineLoop setPixel l x2 y2 (l.dy.toNat + 1) p s =
        some (points.foldl (fun s q => setPixel s q.1 q.2) s) := by
  have hdx := hl.dx
  have hdy := hl.dy
  refine @lineLoop_connects l x2 y2 _ _ x1 y1 (fun k q => ∃ j,Steep l x1 y1 (-p.err) k q j) hpoint
    ?_ ?_ ?_ ?_ ?_
  · rw [abs_ends hl.sx hdx.1 hl.lastColumn,abs_ends hl.sy hdy.1 hl.lastRow]
    omega
  · refine ⟨0,?_,?_,.first hlow hhigh⟩
    · rw [show p.x = x1 from congrArg Prod.fst hpoint]
      ring
    · rw [show p.y = y1 from congrArg Prod.snd hpoint]
      push_cast
      ring
  · rintro k hk q ⟨j,h⟩
    exact h.step hl hsteep hlow hhigh (by omega)
  · rintro k hk q ⟨j,h⟩ hq
    refine step_ne hl.sy hl.lastRow (show (k : ℤ) < l.dy by omega) ?_
    rw [← h.y]
    exact congrArg Prod.snd hq
  · rintro q ⟨j,h⟩
    have hcount : ((l.dy.toNat : ℕ) : ℤ) = l.dy := Int.toNat_of_nonneg hdy.1
    have herr := h.err
    rw [hcount] at herr
    refine Prod.ext ?_ ?_
    · rw [Pen.point,h.x,herr.last hlow hhigh]
      exact hl.lastColumn.symm
    · rw [Pen.point,h.y,hcount]
      exact hl.lastRow.symm

/-- A distance in the int type as pmLine computes it. -/
theorem distance_eq {a b : ℤ} (h : |b - a| < 2 ^ 31) :
    int (int (b - a) * direction (int (b - a))) = |b - a| ∧
      (direction (int (b - a)) = 1 ∨ direction (int (b - a)) = -1) ∧
      b = a + direction (int (b - a)) * |b - a| := by
  obtain ⟨hlow,hhigh⟩ := abs_lt.mp h
  have hdiff : int (b - a) = b - a := WindowManager.int_eq (by omega) hhigh
  rw [hdiff,direction]
  split_ifs with hneg
  · rw [abs_of_neg hneg,WindowManager.int_eq (by omega) (by omega)]
    exact ⟨by ring,.inr rfl,by ring⟩
  · rw [abs_of_nonneg (not_lt.mp hneg),WindowManager.int_eq (by omega) (by omega)]
    exact ⟨by ring,.inl rfl,by ring⟩

theorem start_fits (hx : (-2 ^ 31 ≤ x1 ∧ x1 < 2 ^ 31) ∧ -2 ^ 31 ≤ x2 ∧ x2 < 2 ^ 31)
    (hy : (-2 ^ 31 ≤ y1 ∧ y1 < 2 ^ 31) ∧ -2 ^ 31 ≤ y2 ∧ y2 < 2 ^ 31) (hdx : |x2 - x1| < 2 ^ 31)
    (hdy : |y2 - y1| < 2 ^ 31) : (Course.start x1 y1 x2 y2).Fits x1 y1 x2 y2 ∧
      (Course.start x1 y1 x2 y2).dx = |x2 - x1| ∧ (Course.start x1 y1 x2 y2).dy = |y2 - y1| := by
  obtain ⟨hdx',hsx,hx2⟩ := distance_eq hdx
  obtain ⟨hdy',hsy,hy2⟩ := distance_eq hdy
  refine ⟨⟨?_,?_,hsx,hsy,?_,?_,hx,hy⟩,hdx',hdy'⟩
  · rw [Course.start,hdx']
    exact ⟨abs_nonneg _,hdx⟩
  · rw [Course.start,hdy']
    exact ⟨abs_nonneg _,hdy⟩
  · rw [Course.start,hdx']
    exact hx2
  · rw [Course.start,hdy']
    exact hy2

/-- What is expected of pmLine between two ends. -/
def Draws (x1 y1 x2 y2 : ℤ) : Prop :=
  ∃ fuel points,Connects x1 y1 x2 y2 points ∧ visited fuel x1 y1 x2 y2 = some points ∧
    ∀ pm m c,pmLine (fun m x y => pmSetPixel pm m x y c) fuel m x1 y1 x2 y2 =
      some (setAll pm m points c)

/-- A loop that sets the points of a line that connects its ends. -/
theorem draws_of_connects {fuel : ℕ} {points : List Point} (h : Connects x1 y1 x2 y2 points)
    (hloop : ∀ {S : Type} (setPixel : S → ℤ → ℤ → S) (s : S),
      pmLine setPixel fuel s x1 y1 x2 y2 =
        some (points.foldl (fun s q => setPixel s q.1 q.2) s)) : Draws x1 y1 x2 y2 := by
  refine ⟨fuel,points,h,?_,fun pm m c => hloop _ m⟩
  have hlist : ∀ (l s : List Point),l.foldl (fun s q => s ++ [(q.1,q.2)]) s = s ++ l := by
    intro l
    induction l with
    | nil => exact fun s => (List.append_nil s).symm
    | cons q l ih =>
      intro s
      rw [List.foldl_cons,ih,List.append_assoc]
      rfl
  rw [visited,hloop,hlist,List.nil_append]

/-- The loop leaves the points that were set before. -/
theorem lineLoop_length {fuel : ℕ} {s points : List Point}
    (h : lineLoop (fun s x y => s ++ [(x,y)]) l x2 y2 fuel p s = some points) :
    s.length < points.length := by
  induction fuel generalizing p s with
  | zero => exact absurd h (by simp [lineLoop])
  | succ fuel ih =>
    rw [lineLoop] at h
    split_ifs at h
    · obtain rfl := Option.some.inj h
      simp
    · have := ih h
      rw [List.length_append] at this
      omega

/-- A diagonal of two points is left at its end. -/
theorem not_draws (hl : (Course.start x1 y1 x2 y2).Fits x1 y1 x2 y2)
    (hdx : (Course.start x1 y1 x2 y2).dx = 1) (hdy : (Course.start x1 y1 x2 y2).dy = 1) :
    ¬Draws x1 y1 x2 y2 := by
  rintro ⟨fuel,points,hconnects,hvisited,-⟩
  have hcount := hconnects.count
  rw [abs_ends hl.sx hl.dx.1 hl.lastColumn,abs_ends hl.sy hl.dy.1 hl.lastRow,hdx,hdy] at hcount
  have hne : x1 ≠ x2 := by
    have := hl.lastColumn
    rw [hdx] at this
    obtain h | h := hl.sx <;> rw [h] at this <;> omega
  rw [visited,pmLine] at hvisited
  set l := Course.start x1 y1 x2 y2 with hstart
  have herr : l.err = -1 := by
    rw [Course.err,hdx,hdy]
    decide
  have hnext : (l.step ⟨x1,y1,l.err⟩).x = x1 := by
    rw [Course.step,herr,hdx,hdy]
    rfl
  match fuel with
  | 0 => exact absurd hvisited (by simp [lineLoop])
  | 1 =>
    rw [lineLoop] at hvisited
    dsimp only at hvisited
    rw [if_neg fun h => hne h.1] at hvisited
    exact absurd hvisited (by simp [lineLoop])
  | fuel + 2 =>
    rw [lineLoop] at hvisited
    dsimp only at hvisited
    rw [if_neg fun h => hne h.1,lineLoop] at hvisited
    rw [hnext,if_neg fun h => hne h.1] at hvisited
    have hlength := lineLoop_length hvisited
    rw [List.nil_append,List.length_append,List.length_singleton,List.length_singleton] at hlength
    omega

/-- Of a pixel and the next one above or below only the row changes. -/
theorem pair_draws (hl : (Course.start x1 y1 x2 y2).Fits x1 y1 x2 y2)
    (hdx : (Course.start x1 y1 x2 y2).dx = 0) (hdy : (Course.start x1 y1 x2 y2).dy = 1) :
    Draws x1 y1 x2 y2 := by
  set l := Course.start x1 y1 x2 y2 with hstart
  have hx2 : x2 = x1 := by
    rw [hl.lastColumn,hdx]
    ring
  have hy2 : int (y1 + l.sy) = y2 := by
    have hstep := int_step (i := 0) hl.sy hl.lastRow hl.rows le_rfl (by omega)
    rw [mul_zero,add_zero,zero_add] at hstep
    rw [hstep,hl.lastRow,hdy]
  have hne : y1 ≠ y2 := by
    have := hl.lastRow
    rw [hdy] at this
    obtain h | h := hl.sy <;> rw [h] at this <;> omega
  have herr : l.err = -1 := by
    rw [Course.err,hdx,hdy]
    decide
  have hstep : (l.step ⟨x1,y1,-1⟩).x = x1 ∧ (l.step ⟨x1,y1,-1⟩).y = int (y1 + l.sy) := by
    rw [Course.step,hdx,hdy]
    exact ⟨rfl,rfl⟩
  have hdistance := abs_ends hl.sy hl.dy.1 hl.lastRow
  rw [hdy] at hdistance
  refine @draws_of_connects x1 y1 x2 y2 2 [(x1,y1),(x2,y2)] ⟨?_,rfl,rfl,?_⟩ fun setPixel s => ?_
  · rw [hx2,sub_self,hdistance]
    rfl
  · refine List.isChain_pair.mpr ⟨?_,?_⟩
    · rw [hx2]
      simp
    · exact hdistance.le
  · rw [pmLine,← hstart,herr,lineLoop,if_neg fun h => hne h.2,lineLoop,if_pos]
    · rw [hstep.1,hstep.2,hy2,hx2]
      rfl
    · rw [hstep.1,hstep.2]
      exact ⟨hx2.symm,hy2⟩

/-- pmLine ends, and the points that it sets connect the ends, for all ends within the
int type, unless both distances are one. -/
theorem line_drawing (hx : (-2 ^ 31 ≤ x1 ∧ x1 < 2 ^ 31) ∧ -2 ^ 31 ≤ x2 ∧ x2 < 2 ^ 31)
    (hy : (-2 ^ 31 ≤ y1 ∧ y1 < 2 ^ 31) ∧ -2 ^ 31 ≤ y2 ∧ y2 < 2 ^ 31) (hdx : |x2 - x1| < 2 ^ 31)
    (hdy : |y2 - y1| < 2 ^ 31) :
    Draws x1 y1 x2 y2 ↔ ¬(|x2 - x1| = 1 ∧ |y2 - y1| = 1) := by
  obtain ⟨hl,hcolumns,hrows⟩ := start_fits hx hy hdx hdy
  constructor
  · rintro hdraws ⟨h1,h2⟩
    exact not_draws hl (hcolumns.trans h1) (hrows.trans h2) hdraws
  · intro hnot
    rw [← hcolumns,← hrows] at hnot
    set l := Course.start x1 y1 x2 y2 with hstart
    have hdx := hl.dx
    have hdy := hl.dy
    by_cases hflat : l.dy < l.dx
    · have herr : l.err = l.dx / 2 := by rw [Course.err,if_pos hflat]
      obtain ⟨points,hconnects,hloop⟩ := hl.flat_connects hflat
      refine @draws_of_connects x1 y1 x2 y2 (l.dx.toNat + 1) points hconnects fun setPixel s => ?_
      rw [pmLine,← hstart,herr]
      exact hloop setPixel s
    · have herr : l.err = -l.dy / 2 := by
        rw [Course.err,if_neg hflat,WindowManager.int_eq (by omega) (by omega)]
      by_cases hpoint : l.dy = 0
      · have hx2 : x2 = x1 := by
          rw [hl.lastColumn,show l.dx = 0 by omega]
          ring
        have hy2 : y2 = y1 := by
          rw [hl.lastRow,hpoint]
          ring
        refine @draws_of_connects x1 y1 x2 y2 1 [(x1,y1)] ⟨?_,rfl,?_,List.isChain_singleton _⟩
          fun setPixel s => ?_
        · rw [hx2,hy2]
          simp
        · rw [hx2,hy2]
          rfl
        · rw [pmLine,lineLoop,if_pos ⟨hx2.symm,hy2.symm⟩]
          rfl
      · by_cases hpair : l.dy = 1
        · exact pair_draws hl (show l.dx = 0 by omega) hpair
        · obtain ⟨points,hconnects,hloop⟩ := @Course.Fits.steep_connects l x1 y1 x2 y2
            ⟨x1,y1,l.err⟩ hl (by omega) (by dsimp only; omega) (by dsimp only; omega) rfl
          exact @draws_of_connects x1 y1 x2 y2 (l.dy.toNat + 1) points hconnects
            fun setPixel s => hloop setPixel s

/-- The line to the next pixel at a corner runs past its end. -/
theorem corner_not_drawn : ¬Draws 0 0 1 1 :=
  not_draws (start_fits (by decide) (by decide) (by decide) (by decide)).1 (by decide) (by decide)

/-- A line of two columns and one row. -/
theorem knight_drawn : Draws 0 0 2 (-1) :=
  (line_drawing (by decide) (by decide) (by decide) (by decide)).mpr (by decide)

end Courses

end WootOs.PixMaps
