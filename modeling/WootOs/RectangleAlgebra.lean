import Mathlib.Data.Int.ConditionallyCompleteOrder
import WootOs.WindowScreen

/-!
# Rectangles as sets of points

A rectangle stands for the points that rcContainsPoint finds in it, and any
rectangle without columns or rows for no point. The intersection of two
rectangles has the points of both, and their sum is the least rectangle with the
points of either. That holds even where the extent of a sum wraps, as the right
edge is computed by the same sum; but such a sum counts as empty in the next
one.
-/

namespace WootOs.WindowManager

open MachineInt

/-- rcContainsPoint. -/
def rcContainsPoint (r : Rectangle) (x y : ℤ) : Prop :=
  r.x ≤ x ∧ r.y ≤ y ∧ x < int (r.x + r.width) ∧ y < int (r.y + r.height)

instance (r : Rectangle) (x y : ℤ) : Decidable (rcContainsPoint r x y) :=
  inferInstanceAs (Decidable (_ ∧ _ ∧ _ ∧ _))

/-- The points of a rectangle. -/
def Rectangle.points (r : Rectangle) : Set (ℤ × ℤ) := { p | rcContainsPoint r p.1 p.2 }

section Algebra

variable {a b c d r : Rectangle} {x y : ℤ}

/-- A part of a wrapped difference gives back the edge. -/
theorem int_add_int_sub {u v : ℤ} (hl : -2 ^ 31 ≤ v) (hu : v < 2 ^ 31) :
    int (u + int (v - u)) = v := by
  rw [int,int,signed,signed,Int.add_bmod_bmod,add_sub_cancel]
  exact int_eq hl hu

theorem Rectangle.Fits.points (h : r.Fits) :
    r.points = Set.Ico r.x (r.x + r.width) ×ˢ Set.Ico r.y (r.y + r.height) := by
  ext ⟨x,y⟩
  rw [Rectangle.points,Set.mem_ofPred_eq,rcContainsPoint,int_eq h.right.1 h.right.2,
    int_eq h.lower.1 h.lower.2,Set.mem_prod,Set.mem_Ico,Set.mem_Ico]
  tauto

/-- An empty rectangle has no points. -/
theorem Rectangle.Fits.points_empty (h : r.Fits) : rcIsEmpty r ↔ r.points = ∅ := by
  rw [h.points,Set.prod_eq_empty_iff,Set.Ico_eq_empty_iff,Set.Ico_eq_empty_iff,rcIsEmpty]
  omega

/-- The sum of rectangles that are not empty reaches from the first edges to the last. -/
theorem points_rcAdd (ha : a.Fits) (hb : b.Fits) (hna : ¬rcIsEmpty a) (hnb : ¬rcIsEmpty b) :
    (rcAdd a b).points = Set.Ico (min a.x b.x) (max (a.x + a.width) (b.x + b.width)) ×ˢ
      Set.Ico (min a.y b.y) (max (a.y + a.height) (b.y + b.height)) := by
  obtain ⟨-,-,-,-,har,hal⟩ := ha
  obtain ⟨-,-,-,-,hbr,hbl⟩ := hb
  ext ⟨x,y⟩
  rw [rcAdd,if_neg hnb,if_neg hna,Rectangle.points,Set.mem_ofPred_eq,rcContainsPoint]
  dsimp only
  rw [int_eq har.1 har.2,int_eq hbr.1 hbr.2,int_eq hal.1 hal.2,int_eq hbl.1 hbl.2,
    int_add_int_sub (by omega) (by omega),int_add_int_sub (by omega) (by omega),
    Set.mem_prod,Set.mem_Ico,Set.mem_Ico]
  tauto

/-- An int is one. -/
theorem int_range (u : ℤ) : -2 ^ 31 ≤ int u ∧ int u < 2 ^ 31 := by
  have hlow := Int.le_bmod (x := u) (m := 2 ^ 32) (by decide)
  have hhigh := Int.bmod_lt (x := u) (m := 2 ^ 32) (by decide)
  rw [int,signed]
  norm_num at hlow hhigh ⊢
  omega

/-- The intersection of two rectangles has the points of both. The edges of the second
need not fit. -/
theorem points_rcIntersect (ha : a.Fits) (b : Rectangle) :
    (rcIntersect a b).points = a.points ∩ b.points := by
  obtain ⟨hax,hay,haw,hah,har,hal⟩ := ha
  have hbr := int_range (b.x + b.width)
  have hbl := int_range (b.y + b.height)
  ext ⟨x,y⟩
  rw [Set.mem_inter_iff,Rectangle.points,Rectangle.points,Rectangle.points,Set.mem_ofPred_eq,
    Set.mem_ofPred_eq,Set.mem_ofPred_eq,rcIntersect]
  dsimp only
  rw [int_eq har.1 har.2,int_eq hal.1 hal.2]
  have hb : rcContainsPoint b x y ↔ b.x ≤ x ∧ b.y ≤ y ∧ x < int (b.x + b.width) ∧
      y < int (b.y + b.height) := Iff.rfl
  have ha : rcContainsPoint a x y ↔ a.x ≤ x ∧ a.y ≤ y ∧ x < a.x + a.width ∧
      y < a.y + a.height := by
    rw [rcContainsPoint,int_eq har.1 har.2,int_eq hal.1 hal.2]
  rw [ha,hb]
  generalize int (b.x + b.width) = right at *
  generalize int (b.y + b.height) = lower at *
  split_ifs with hempty
  · have hnone : ¬rcContainsPoint rcRectangleEmpty x y := by
      rintro ⟨h1,-,h2,-⟩
      exact absurd (lt_of_le_of_lt h1 h2) (by decide)
    refine ⟨fun h => absurd h hnone,fun h => ?_⟩
    rw [int_eq (by omega) (by omega),int_eq (by omega) (by omega)] at hempty
    omega
  · rw [rcContainsPoint]
    dsimp only
    rw [int_add_int_sub (by omega) (by omega),int_add_int_sub (by omega) (by omega)]
    omega

/-- The points of any rectangle lie between edges. -/
theorem points_eq (r : Rectangle) : r.points =
    Set.Ico r.x (int (r.x + r.width)) ×ˢ Set.Ico r.y (int (r.y + r.height)) := by
  ext ⟨x,y⟩
  rw [Rectangle.points,Set.mem_ofPred_eq,rcContainsPoint,Set.mem_prod,Set.mem_Ico,Set.mem_Ico]
  tauto

/-- A sum has the points of the first rectangle. -/
theorem subset_rcAdd_left (ha : a.Fits) (hb : b.Fits) : a.points ⊆ (rcAdd a b).points := by
  by_cases hna : rcIsEmpty a
  · rw [ha.points_empty.mp hna]
    exact Set.empty_subset _
  by_cases hnb : rcIsEmpty b
  · rw [rcAdd,if_pos hnb]
  rw [points_rcAdd ha hb hna hnb,ha.points]
  exact Set.prod_mono (Set.Ico_subset_Ico (min_le_left _ _) (le_max_left _ _))
    (Set.Ico_subset_Ico (min_le_left _ _) (le_max_left _ _))

/-- A sum has the points of the second rectangle. -/
theorem subset_rcAdd_right (ha : a.Fits) (hb : b.Fits) : b.points ⊆ (rcAdd a b).points := by
  by_cases hnb : rcIsEmpty b
  · rw [hb.points_empty.mp hnb]
    exact Set.empty_subset _
  by_cases hna : rcIsEmpty a
  · rw [rcAdd,if_neg hnb,if_pos hna]
  rw [points_rcAdd ha hb hna hnb,hb.points]
  exact Set.prod_mono (Set.Ico_subset_Ico (min_le_right _ _) (le_max_right _ _))
    (Set.Ico_subset_Ico (min_le_right _ _) (le_max_right _ _))

/-- The edges of a rectangle with points lie between those of one that has them all. -/
theorem edges_of_subset (ha : a.Fits) (hna : ¬rcIsEmpty a) (h : a.points ⊆ r.points) :
    (r.x ≤ a.x ∧ a.x + a.width ≤ int (r.x + r.width)) ∧
      r.y ≤ a.y ∧ a.y + a.height ≤ int (r.y + r.height) := by
  obtain ⟨hw,hh⟩ := not_or.mp hna
  have hcolumns : a.x < a.x + a.width := by omega
  have hrows : a.y < a.y + a.height := by omega
  rw [ha.points,points_eq r] at h
  obtain ⟨hx,hy⟩ := (Set.prod_subset_prod_iff.mp h).resolve_right fun hempty =>
    hempty.elim (Set.nonempty_Ico.mpr hcolumns).ne_empty (Set.nonempty_Ico.mpr hrows).ne_empty
  exact ⟨(Set.Ico_subset_Ico_iff hcolumns).mp hx,(Set.Ico_subset_Ico_iff hrows).mp hy⟩

/-- A sum is the least rectangle with the points of both. -/
theorem rcAdd_subset (ha : a.Fits) (hb : b.Fits) (har : a.points ⊆ r.points)
    (hbr : b.points ⊆ r.points) : (rcAdd a b).points ⊆ r.points := by
  by_cases hnb : rcIsEmpty b
  · rwa [rcAdd,if_pos hnb]
  by_cases hna : rcIsEmpty a
  · rwa [rcAdd,if_neg hnb,if_pos hna]
  obtain ⟨⟨hal,har'⟩,hau,hal'⟩ := edges_of_subset ha hna har
  obtain ⟨⟨hbl,hbr'⟩,hbu,hbl'⟩ := edges_of_subset hb hnb hbr
  rw [points_rcAdd ha hb hna hnb,points_eq r]
  exact Set.prod_mono (Set.Ico_subset_Ico (le_min hal hbl) (max_le har' hbr'))
    (Set.Ico_subset_Ico (le_min hau hbu) (max_le hal' hbl'))

/-- A sum whose extent is within the int type fits. -/
theorem rcAdd_fits (ha : a.Fits) (hb : b.Fits) (hsum : SumFits a b) : (rcAdd a b).Fits := by
  have hspec := (rcAdd_spec (.inr ha) (.inr hb) hsum).1
  by_cases hnb : rcIsEmpty b
  · rwa [rcAdd,if_pos hnb]
  by_cases hna : rcIsEmpty a
  · rwa [rcAdd,if_neg hnb,if_pos hna]
  refine hspec.resolve_left fun hempty => ?_
  obtain ⟨hw,hh⟩ := (hsum.resolve_left hna).resolve_left hnb
  obtain ⟨-,-,-,-,har,hal⟩ := ha
  obtain ⟨-,-,-,-,hbr,hbl⟩ := hb
  rw [rcAdd,if_neg hnb,if_neg hna,rcIsEmpty] at hempty
  rw [rcIsEmpty] at hna hnb
  dsimp only at hempty
  rw [int_eq har.1 har.2,int_eq hbr.1 hbr.2,int_eq hal.1 hal.2,int_eq hbl.1 hbl.2,
    int_eq (by omega) hw,int_eq (by omega) hh] at hempty
  omega

/-- The laws of sums and intersections, as sets of points. Only where sums are added to
again must their extents be within the int type. -/
theorem rectangle_algebra (ha : a.Fits) (hb : b.Fits) :
    (∀ x y,rcContainsPoint (rcIntersect a b) x y ↔
      rcContainsPoint a x y ∧ rcContainsPoint b x y) ∧
    (a.points ⊆ (rcAdd a b).points ∧ b.points ⊆ (rcAdd a b).points ∧
      ∀ r : Rectangle,a.points ⊆ r.points → b.points ⊆ r.points →
        (rcAdd a b).points ⊆ r.points) ∧
    (rcAdd a b).points = (rcAdd b a).points ∧
    (∀ c : Rectangle,c.Fits → SumFits a b → SumFits b c →
      (rcAdd (rcAdd a b) c).points = (rcAdd a (rcAdd b c)).points) ∧
    (rcAdd a a).points = a.points ∧
    (∀ a' b' : Rectangle,a'.Fits → b'.Fits → a.points ⊆ a'.points → b.points ⊆ b'.points →
      (rcAdd a b).points ⊆ (rcAdd a' b').points) ∧
    (rcIsEmpty b → (rcAdd a b).points = a.points ∧ (rcAdd b a).points = a.points) ∧
    (rcIntersect a (rcAdd a b)).points = a.points := by
  refine ⟨fun x y => ?_,⟨subset_rcAdd_left ha hb,subset_rcAdd_right ha hb,
    fun r => rcAdd_subset ha hb⟩,?_,fun c hc hab hbc => ?_,?_,fun a' b' ha' hb' haa' hbb' => ?_,
    fun hempty => ⟨?_,?_⟩,?_⟩
  · have h := congrArg (fun s => (x,y) ∈ s) (points_rcIntersect ha b)
    exact iff_of_eq h
  · exact (rcAdd_subset ha hb (subset_rcAdd_right hb ha) (subset_rcAdd_left hb ha)).antisymm
      (rcAdd_subset hb ha (subset_rcAdd_right ha hb) (subset_rcAdd_left ha hb))
  · have hfab := rcAdd_fits ha hb hab
    have hfbc := rcAdd_fits hb hc hbc
    refine (rcAdd_subset hfab hc (rcAdd_subset ha hb ?_ ?_) ?_).antisymm
      (rcAdd_subset ha hfbc ?_ (rcAdd_subset hb hc ?_ ?_))
    · exact subset_rcAdd_left ha hfbc
    · exact (subset_rcAdd_left hb hc).trans (subset_rcAdd_right ha hfbc)
    · exact (subset_rcAdd_right hb hc).trans (subset_rcAdd_right ha hfbc)
    · exact (subset_rcAdd_left ha hb).trans (subset_rcAdd_left hfab hc)
    · exact (subset_rcAdd_right ha hb).trans (subset_rcAdd_left hfab hc)
    · exact subset_rcAdd_right hfab hc
  · exact (rcAdd_subset ha ha subset_rfl subset_rfl).antisymm (subset_rcAdd_left ha ha)
  · exact rcAdd_subset ha hb (haa'.trans (subset_rcAdd_left ha' hb'))
      (hbb'.trans (subset_rcAdd_right ha' hb'))
  · rw [rcAdd,if_pos hempty]
  · have hnone : b.points ⊆ a.points := by
      rw [hb.points_empty.mp hempty]
      exact Set.empty_subset _
    exact (rcAdd_subset hb ha hnone subset_rfl).antisymm (subset_rcAdd_right hb ha)
  · rw [points_rcIntersect ha]
    exact Set.inter_eq_left.mpr (subset_rcAdd_left ha hb)

/-- A point near each end of the int type, and one between. -/
theorem sums_not_associative : ∃ a b c : Rectangle,a.Fits ∧ b.Fits ∧ c.Fits ∧
    (rcAdd (rcAdd a b) c).points ≠ (rcAdd a (rcAdd b c)).points := by
  refine ⟨⟨-2 ^ 31,0,1,1⟩,⟨2 ^ 31 - 2,0,1,1⟩,⟨0,0,1,1⟩,?_,?_,?_,fun h => ?_⟩
  · exact ⟨by decide,by decide,by decide,by decide,by decide,by decide⟩
  · exact ⟨by decide,by decide,by decide,by decide,by decide,by decide⟩
  · exact ⟨by decide,by decide,by decide,by decide,by decide,by decide⟩
  · have hpoint := iff_of_eq (congrArg (fun s => ((2 ^ 31 - 2,0) : ℤ × ℤ) ∈ s) h)
    exact absurd (hpoint.mpr (by decide : rcContainsPoint _ _ _))
      (by decide : ¬rcContainsPoint _ _ _)

/-- The laws for two windows side by side. -/
theorem algebra_of_neighbours : (rcIntersect ⟨0,0,4,3⟩ (rcAdd ⟨0,0,4,3⟩ ⟨4,0,2,3⟩)).points =
    (⟨0,0,4,3⟩ : Rectangle).points :=
  (rectangle_algebra (a := ⟨0,0,4,3⟩) (b := ⟨4,0,2,3⟩)
    ⟨by decide,by decide,by decide,by decide,by decide,by decide⟩
    ⟨by decide,by decide,by decide,by decide,by decide,by decide⟩).2.2.2.2.2.2.2

end Algebra

end WootOs.WindowManager
