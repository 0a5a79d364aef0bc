import WootOs.FrameAllocator

/-!
# Aligned allocation of frames

A search in steps looks for free frames at multiples of an alignment. For one
frame it visits every multiple. For several frames it counts free frames from
the place it has come to and, when there are too few, goes on a step behind
the last one counted. The places it comes to are given here as a relation on
the bitmap, and with it what the search returns. As long as each run of free
frames that is too short is a multiple of the step long, it passes over no
multiple that matters and stays on multiples.
-/

namespace WootOs.FrameAllocator

open FrameBitmap

/-- The alignment in bytes; none is one page. -/
def alignmentBytes (alignment : ℕ) : ℕ := if alignment = 0 then pageSize else alignment

/-- The n frames from f on were free, start at a multiple of the alignment and
are in use now, and no other frame changed. -/
structure AlignedRun (b b' : Bitmap) (n alignment pa f : ℕ) : Prop where
  /-- The address is that of the first frame. -/
  address : pa = f * pageSize
  /-- It is a multiple of the alignment. -/
  aligned : pa % alignmentBytes alignment = 0
  /-- The frames exist and were free. -/
  free : IsRun b false n f
  /-- They are in use, and the others are as they were. -/
  marked : ∀ j, b'.getBit j = (b.getBit j || decide (f ≤ j ∧ j < f + n))

/-- An allocation of n frames returns an aligned run, or there is none and
nothing changes. -/
def AlignedRight (b : Bitmap) (n alignment : ℕ) (r : ℕ × Bitmap) : Prop :=
  (∃ f, AlignedRun b r.2 n alignment r.1 f) ∨
    (r = (noFrame,b) ∧ ∀ f, f * pageSize % alignmentBytes alignment = 0 → ¬IsRun b false n f)

/-- Both aligned allocations are right for a number of frames. -/
structure AllocationRight (b : Bitmap) (n alignment : ℕ) : Prop where
  /-- The allocation of n frames. -/
  many : AlignedRight b n alignment (allocFramesAligned b n alignment)
  /-- The allocation of a single frame, where that is what n says. -/
  one : n = 1 → AlignedRight b n alignment (allocFrameAligned b alignment)

/-- From one frame on r frames are free, fewer than n, and then there is one in
use or no more. -/
structure Broken (b : Bitmap) (n p r : ℕ) : Prop where
  /-- The first place is a frame. -/
  frame : p < b.bitCount
  /-- The run is too short. -/
  short : r < n
  /-- It lies within the bitmap. -/
  within : p + r ≤ b.bitCount
  /-- Its frames are free. -/
  free : ∀ i < r, b.getBit (p + i) = false
  /-- It ends where it ends. -/
  ended : p + r < b.bitCount → b.getBit (p + r) = true

/-- The frames the search comes to: the first one, and the one a step behind
each run that is too short. -/
inductive Start (b : Bitmap) (n step : ℕ) : ℕ → Prop
  /-- The first frame. -/
  | first : Start b n step 0
  /-- A step behind a run that is too short. -/
  | behind {p r : ℕ} : Start b n step p → Broken b n p r → Start b n step (p + r + step)

/-- Every run the search passes over is a multiple of the step long. -/
def Undeflected (b : Bitmap) (n step : ℕ) : Prop :=
  ∀ p r, Start b n step p → Broken b n p r → r % step = 0

/-- A run of another length is passed over, and yet the search comes to a run
of n frames at a multiple of the step if there is one, and to no other one. -/
structure ByChance (b : Bitmap) (n step : ℕ) : Prop where
  /-- The search leaves the multiples of the step. -/
  deflected : ∃ p r, Start b n step p ∧ Broken b n p r ∧ r % step ≠ 0
  /-- A run it comes to starts at a multiple. -/
  aligned : ∀ p, Start b n step p → IsRun b false n p → p % step = 0
  /-- It comes to a run if one starts at a multiple. -/
  found : ∀ f, f % step = 0 → IsRun b false n f → ∃ p, Start b n step p ∧ IsRun b false n p

section

variable {b : Bitmap} {n step p q r f : ℕ}

/-- A count of clear bits that stops early stops at a set bit or the end. -/
theorem clearRun_ended : ∀ fuel bit okbits, bit + fuel = b.bitCount →
    (clearRun b n fuel bit okbits).2 < n →
    (clearRun b n fuel bit okbits).1 < b.bitCount →
    b.getBit (clearRun b n fuel bit okbits).1 = true := by
  intro fuel
  induction fuel with
  | zero =>
    intro bit okbits hend _ hlt
    rw [clearRun] at hlt
    omega
  | succ fuel ih =>
    intro bit okbits hend
    rw [clearRun]
    split
    · exact ih (bit + 1) (okbits + 1) (by omega)
    · next hout =>
      intro hfew hlt
      by_contra hclear
      exact hout ⟨hlt,by simpa using hclear,hfew⟩

/-- The count of clear bits finds a run, or tells how long the broken one is. -/
theorem clearRun_cases (hp : p < b.bitCount) :
    (n ≤ (clearRun b n (b.bitCount - p) p 0).2 ∧ IsRun b false n p) ∨
    ∃ r, (clearRun b n (b.bitCount - p) p 0).2 = r ∧
      (clearRun b n (b.bitCount - p) p 0).1 = p + r ∧ Broken b n p r := by
  obtain ⟨hge,hle,hok,hsum,hclear⟩ := clearRun_spec (b := b) (n := n) (b.bitCount - p) p 0
    (Nat.zero_le n) (by omega)
  by_cases hlong : n ≤ (clearRun b n (b.bitCount - p) p 0).2
  · exact .inl ⟨hlong,⟨by omega,fun i hi => hclear (p + i) (by omega) (by omega)⟩⟩
  · have hend := clearRun_ended (b := b) (n := n) (b.bitCount - p) p 0 (by omega) (by omega)
    have heq : (clearRun b n (b.bitCount - p) p 0).1 =
        p + (clearRun b n (b.bitCount - p) p 0).2 := by omega
    rw [heq] at hend
    exact .inr ⟨_,rfl,heq,⟨hp,by omega,by omega,
      fun i hi => hclear (p + i) (by omega) (by omega),hend⟩⟩

/-- A broken run is not a run. -/
theorem Broken.not_isRun (h : Broken b n p r) : ¬IsRun b false n p := by
  intro hrun
  have hin := hrun.1
  have hshort := h.short
  have hset := h.ended (by omega)
  rw [hrun.2 r hshort] at hset
  cases hset

/-- Where there is no run, there is a broken one. -/
theorem exists_broken (hp : p < b.bitCount) (h : ¬IsRun b false n p) : ∃ r, Broken b n p r := by
  rcases clearRun_cases (n := n) hp with ⟨-,hrun⟩ | ⟨r,-,-,hr⟩
  · exact absurd hrun h
  · exact ⟨r,hr⟩

/-- A broken run has one length. -/
theorem Broken.unique {s : ℕ} (h : Broken b n p r) (h' : Broken b n p s) : r = s := by
  rcases Nat.lt_trichotomy r s with hlt | heq | hlt
  · have hset := h.ended (by have := h'.within; omega)
    rw [h'.free r hlt] at hset
    cases hset
  · exact heq
  · have hset := h'.ended (by have := h.within; omega)
    rw [h.free s hlt] at hset
    cases hset

/-- Of two places the search comes to, it passes over the lower one before it
comes to the other. -/
theorem Start.between (hstep : 0 < step) (hq : Start b n step q) : ∀ {p}, Start b n step p →
    p < q → ∃ r, Broken b n p r ∧ p + r + step ≤ q := by
  induction q using Nat.strong_induction_on with
  | _ q ih =>
    intro p hp hlt
    cases hq with
    | first => exact absurd hlt (Nat.not_lt_zero p)
    | @behind q' s hq' hs =>
      rcases Nat.lt_trichotomy p q' with hl | rfl | hl
      · obtain ⟨r,hr,hle⟩ := ih q' (by omega) hq' hp hl
        exact ⟨r,hr,by omega⟩
      · exact ⟨s,hs,le_rfl⟩
      · -- the place q' is passed over on the way to p, and p is behind it
        obtain ⟨r,hr,hle⟩ := ih p hlt hp hq' hl
        have := hs.unique hr
        omega

/-- The search stops at the only run it comes to. -/
theorem Start.stop_unique (hstep : 0 < step) (hp : Start b n step p) (hrun : IsRun b false n p)
    (hq : Start b n step q) (hstop : b.bitCount ≤ q ∨ IsRun b false n q) : p = q := by
  rcases Nat.lt_trichotomy p q with hl | heq | hl
  · obtain ⟨r,hr,-⟩ := hq.between hstep hp hl
    exact absurd hrun hr.not_isRun
  · exact heq
  · obtain ⟨r,hr,-⟩ := hp.between hstep hq hl
    rcases hstop with hend | hrun'
    · have := hr.frame
      omega
    · exact absurd hrun' hr.not_isRun

/-- The search in steps ends at a place it comes to, past the end or at a run. -/
theorem nextRun_start (hstep : 0 < step) (hsize : b.bitCount + step < 2 ^ 32) :
    ∀ fuel bit, b.bitCount < bit + fuel → Start b n step bit →
    Start b n step (nextRun b n step fuel bit) ∧
      (b.bitCount ≤ nextRun b n step fuel bit ∨ IsRun b false n (nextRun b n step fuel bit)) := by
  intro fuel
  induction fuel with
  | zero =>
    intro bit hfuel hstart
    exact ⟨hstart,.inl (by rw [nextRun]; omega)⟩
  | succ fuel ih =>
    intro bit hfuel hstart
    rw [nextRun]
    by_cases hin : bit < b.bitCount
    · rw [if_pos hin]
      rcases clearRun_cases (n := n) hin with ⟨hlong,hrun⟩ | ⟨r,hlen,hend,hr⟩
      · simp only [hlong,if_true]
        exact ⟨hstart,.inr hrun⟩
      · have hshort := hr.short
        have hwithin := hr.within
        have hfew : ¬n ≤ (clearRun b n (b.bitCount - bit) bit 0).2 := by omega
        simp only [hfew,if_false,hend]
        rw [Nat.mod_eq_of_lt (by omega)]
        exact ih _ (by omega) (hstart.behind hr)
    · rw [if_neg hin]
      exact ⟨hstart,.inl (by omega)⟩

/-- The search in steps for one frame visits the multiples of the step and
passes over those in use. -/
theorem nextClear_multiple (hsize : b.bitCount + step < 2 ^ 32) :
    ∀ fuel bit, bit % step = 0 → (∀ f < bit, f % step = 0 → b.getBit f = true) →
    nextClear b step fuel bit % step = 0 ∧
      ∀ f < nextClear b step fuel bit, f % step = 0 → b.getBit f = true := by
  intro fuel
  induction fuel with
  | zero =>
    intro bit hbit hbefore
    exact ⟨hbit,hbefore⟩
  | succ fuel ih =>
    intro bit hbit hbefore
    rw [nextClear]
    split
    · next hin =>
      have hnext : (bit + step) % 2 ^ 32 = bit + step := Nat.mod_eq_of_lt (by omega)
      rw [hnext]
      apply ih (bit + step) (by rw [Nat.add_mod_right,hbit])
      intro f hf hmul
      rcases Nat.lt_trichotomy f bit with hl | rfl | hl
      · exact hbefore f hl hmul
      · exact hin.2
      · -- there is no multiple between two neighbouring ones
        exfalso
        have hf' := Nat.mod_add_div f step
        have hb' := Nat.mod_add_div bit step
        have hlow : bit / step < f / step := by
          by_contra hle
          have := Nat.mul_le_mul_left step (Nat.not_lt.mp hle)
          omega
        have := Nat.mul_le_mul_left step (Nat.succ_le_of_lt hlow)
        rw [Nat.mul_succ] at this
        omega
    · exact ⟨hbit,hbefore⟩

/-- A search that is not deflected stays on multiples of the step. -/
theorem Undeflected.aligned (h : Undeflected b n step) (hp : Start b n step p) :
    p % step = 0 := by
  induction hp with
  | first => exact Nat.zero_mod step
  | @behind p r hp hr ih => rw [Nat.add_mod_right,Nat.add_mod,ih,h p r hp hr,Nat.zero_mod]

/-- It comes to a run if one starts at a multiple of the step. -/
theorem Undeflected.found (h : Undeflected b n step) (hstep : 0 < step) (hn : 0 < n)
    (hf : f % step = 0) (hrun : IsRun b false n f) :
    ∃ p, Start b n step p ∧ IsRun b false n p := by
  classical
  by_contra hnone
  -- the last place up to f that the search comes to
  obtain ⟨p,hle,hstart,hlast⟩ : ∃ p ≤ f, Start b n step p ∧
      ∀ q, Start b n step q → q ≤ f → q ≤ p :=
    ⟨Nat.findGreatest (Start b n step) f,Nat.findGreatest_le f,
      Nat.findGreatest_spec (Nat.zero_le f) .first,fun q hq hqf => Nat.le_findGreatest hqf hq⟩
  have hin := hrun.1
  obtain ⟨r,hr⟩ := exists_broken (n := n) (show p < b.bitCount by omega)
    fun hpr => hnone ⟨p,hstart,hpr⟩
  have hbehind : f < p + r + step := by
    by_contra hge
    have := hlast _ (hstart.behind hr) (by omega)
    omega
  have hpf : p ≠ f := by
    rintro rfl
    exact hr.not_isRun hrun
  have hnear : f ≤ p + r := by
    have h1 := Nat.mod_add_div f step
    have h2 := Nat.mod_add_div p step
    have h3 := Nat.mod_add_div r step
    rw [hf] at h1
    rw [h.aligned hstart] at h2
    rw [h p r hstart hr] at h3
    have hquot : f / step ≤ p / step + r / step := by
      by_contra hgt
      have := Nat.mul_le_mul_left step (Nat.succ_le_of_lt (Nat.lt_of_not_le hgt))
      rw [Nat.mul_succ,Nat.mul_add] at this
      omega
    have := Nat.mul_le_mul_left step hquot
    rw [Nat.mul_add] at this
    omega
  -- so the frame that breaks the run from p on breaks the one from f on
  have hshort := hr.short
  have hset := hr.ended (by omega)
  have hclear := hrun.2 (p + r - f) (by omega)
  rw [show f + (p + r - f) = p + r by omega,hset] at hclear
  cases hclear

/-- The alignment in bytes is a step of frames. -/
theorem alignmentBytes_eq {alignment : ℕ} (hpage : alignment % pageSize = 0) :
    alignmentBytes alignment = alignmentStep alignment * pageSize := by
  have hdiv : (if alignment = 0 then pageSize else alignment) % pageSize = 0 := by
    split
    · exact Nat.mod_self pageSize
    · exact hpage
  rw [alignmentBytes,alignmentStep,Nat.div_mul_cancel (Nat.dvd_of_mod_eq_zero hdiv)]

/-- A frame's address is a multiple of the alignment when its number is one of
the step. -/
theorem aligned_iff {alignment : ℕ} (hpage : alignment % pageSize = 0) :
    f * pageSize % alignmentBytes alignment = 0 ↔ f % alignmentStep alignment = 0 := by
  rw [alignmentBytes_eq hpage,Nat.mul_mod_mul_right,Nat.mul_eq_zero]
  exact or_iff_left (by decide)

/-- The allocation of one frame is always right. -/
theorem allocFrameAligned_right {alignment : ℕ} (hsize : b.bitCount ≤ 2 ^ 20)
    (ha : alignment < 2 ^ 32) (hpage : alignment % pageSize = 0) :
    AlignedRight b 1 alignment (allocFrameAligned b alignment) := by
  obtain ⟨hpos,hstep⟩ := alignmentStep_pos ha hpage
  have hroom : b.bitCount + alignmentStep alignment < 2 ^ 32 := by omega
  obtain ⟨hmul,hbefore⟩ := nextClear_multiple (b := b) hroom (b.bitCount + 1) 0
    (Nat.zero_mod _) fun f hf => absurd hf (Nat.not_lt_zero f)
  have hspec := nextClear_spec (b := b) hpos hroom (b.bitCount + 1) 0 (by omega)
  rw [allocFrameAligned,if_neg (not_not_intro hpage)]
  dsimp only
  generalize nextClear b (alignmentStep alignment) (b.bitCount + 1) 0 = bit at hmul hbefore hspec ⊢
  by_cases hend : b.bitCount ≤ bit
  · rw [if_pos hend]
    refine .inr ⟨rfl,?_⟩
    intro f hf hrun
    have hin := hrun.1
    have hset := hbefore f (by omega) ((aligned_iff hpage).mp hf)
    have hclear := hrun.2 0 (by decide)
    rw [Nat.add_zero,hset] at hclear
    cases hclear
  · rw [if_neg hend]
    have hrun := isRun_one (Nat.lt_of_not_le hend) (hspec.resolve_left hend)
    obtain ⟨haddr,-,-⟩ := frame_address hsize (Nat.lt_of_not_le hend)
    exact .inl ⟨bit,haddr,by rw [haddr]; exact (aligned_iff hpage).mpr hmul,hrun,
      getBit_markFrom 1 hrun.1⟩

/-- The allocation of several frames is right where the run it comes to starts
at a multiple, and where it comes to one if there is one. -/
theorem allocFramesAligned_right {alignment : ℕ} (hsize : b.bitCount ≤ 2 ^ 20) (hn : 0 < n)
    (ha : alignment < 2 ^ 32) (hpage : alignment % pageSize = 0) :
    AlignedRight b n alignment (allocFramesAligned b n alignment) ↔
      (∀ p, Start b n (alignmentStep alignment) p → IsRun b false n p →
        p % alignmentStep alignment = 0) ∧
      ∀ f, f % alignmentStep alignment = 0 → IsRun b false n f →
        ∃ p, Start b n (alignmentStep alignment) p ∧ IsRun b false n p := by
  obtain ⟨hpos,hstep⟩ := alignmentStep_pos ha hpage
  have hroom : b.bitCount + alignmentStep alignment < 2 ^ 32 := by omega
  obtain ⟨hstart,hstop⟩ := nextRun_start (n := n) hpos hroom (b.bitCount + 1) 0 (by omega) .first
  have honly : ∀ p, Start b n (alignmentStep alignment) p → IsRun b false n p →
      p = nextRun b n (alignmentStep alignment) (b.bitCount + 1) 0 := by
    intro p hp hrun
    exact hp.stop_unique hpos hrun hstart hstop
  rw [allocFramesAligned,if_neg (not_not_intro hpage)]
  dsimp only
  generalize nextRun b n (alignmentStep alignment) (b.bitCount + 1) 0 = bit at hstart hstop honly ⊢
  by_cases hend : b.bitCount ≤ bit
  · -- the search has come to no run
    have hnone : ∀ p, Start b n (alignmentStep alignment) p → ¬IsRun b false n p := by
      intro p hp hrun
      have hin := hrun.1
      have := honly p hp hrun
      omega
    rw [if_pos hend]
    constructor
    · rintro (⟨f,hf⟩ | ⟨-,hall⟩)
      · have haddr := hf.address
        have hin := hf.free.1
        simp only [noFrame,pageSize] at haddr
        omega
      · exact ⟨fun p hp hrun => absurd hrun (hnone p hp),
          fun f hf hrun => absurd hrun (hall f ((aligned_iff hpage).mpr hf))⟩
    · rintro ⟨-,hfound⟩
      refine .inr ⟨rfl,?_⟩
      intro f hf hrun
      obtain ⟨p,hp,hrun'⟩ := hfound f ((aligned_iff hpage).mp hf) hrun
      exact hnone p hp hrun'
  · have hrun := hstop.resolve_left hend
    obtain ⟨haddr,hne,-⟩ := frame_address hsize (Nat.lt_of_not_le hend)
    rw [if_neg hend,haddr]
    constructor
    · rintro (⟨f,hf⟩ | ⟨heq,-⟩)
      · refine ⟨?_,fun _ _ _ => ⟨bit,hstart,hrun⟩⟩
        intro p hp hprun
        rw [honly p hp hprun]
        exact (aligned_iff hpage).mp hf.aligned
      · exact absurd (congrArg Prod.fst heq) hne
    · rintro ⟨haligned,-⟩
      exact .inl ⟨bit,rfl,(aligned_iff hpage).mpr (haligned bit hstart hrun),hrun,
        getBit_markFrom n hrun.1⟩

/-- Aligned allocation is right exactly where every run that is too short has a
length that is a multiple of the step, or chance brings the search back. -/
theorem allocation_right_iff (b : Bitmap) (n alignment : ℕ) (hsize : b.bitCount ≤ 2 ^ 20)
    (hn : 0 < n) (ha : alignment < 2 ^ 32) (hpage : alignment % pageSize = 0) :
    AllocationRight b n alignment ↔
      Undeflected b n (alignmentStep alignment) ∨ ByChance b n (alignmentStep alignment) := by
  obtain ⟨hpos,-⟩ := alignmentStep_pos ha hpage
  have hmany := allocFramesAligned_right hsize hn ha hpage
  constructor
  · intro hright
    obtain ⟨haligned,hfound⟩ := hmany.mp hright.many
    by_cases hdef : Undeflected b n (alignmentStep alignment)
    · exact .inl hdef
    · simp only [Undeflected,not_forall] at hdef
      obtain ⟨p,r,hp,hr,hmod⟩ := hdef
      exact .inr ⟨⟨p,r,hp,hr,hmod⟩,haligned,hfound⟩
  · intro hcond
    refine ⟨hmany.mpr ?_,?_⟩
    · rcases hcond with hun | hchance
      · exact ⟨fun p hp _ => hun.aligned hp,fun f hf hrun => hun.found hpos hn hf hrun⟩
      · exact ⟨hchance.aligned,hchance.found⟩
    · rintro rfl
      exact allocFrameAligned_right hsize ha hpage

end

/-- Eight frames, of which the second one is in use. -/
def secondFrameUsed : Bitmap where
  bitCount := 8
  bits := fun _ => 2#32
  ones := 1

/-- Of eight free frames two are allocated at a multiple of two pages. -/
theorem allocation_right_iff_free :
    AllocationRight (Bitmap.new 8 false) 2 8192 ↔
      Undeflected (Bitmap.new 8 false) 2 (alignmentStep 8192) ∨
        ByChance (Bitmap.new 8 false) 2 (alignmentStep 8192) :=
  allocation_right_iff _ 2 8192 (by decide) (by decide) (by decide) (by decide)

/-- Behind the frame in use two frames are allocated at the fourth one, which
is no multiple of two pages. -/
theorem misaligned_frames : (allocFramesAligned secondFrameUsed 2 8192).1 = 0x3000 ∧
    IsRun secondFrameUsed false 2 2 ∧ ¬AllocationRight secondFrameUsed 2 8192 := by
  have haddr : (allocFramesAligned secondFrameUsed 2 8192).1 = 0x3000 := by decide
  refine ⟨haddr,⟨by decide,by decide⟩,?_⟩
  intro hright
  rcases hright.many with ⟨f,hf⟩ | ⟨heq,-⟩
  · have haligned := hf.aligned
    rw [haddr] at haligned
    exact absurd haligned (by decide)
  · have hnone := congrArg Prod.fst heq
    rw [haddr] at hnone
    exact absurd hnone (by decide)

end WootOs.FrameAllocator
