import WootOs.FrameBitmap

/-!
# Page frame allocation

The kernel hands out frames of physical memory by four searches of one
bitmap. A history is a list of calls; beside the bitmap it carries the frames
handed out and not yet freed. Physical addresses have 32 bits, so that there
are at most as many frames as pages in 4 GiB; the kernel keeps to 3 GiB.
-/

namespace WootOs.FrameAllocator

open FrameBitmap

/-- Bytes in a page. -/
def pageSize : ℕ := 4096

/-- The address that stands for no frame. -/
def noFrame : ℕ := 2 ^ 32 - 1

/-- Allocate the first free frame. -/
def allocFrame (b : Bitmap) : ℕ × Bitmap :=
  let bit := b.findFirst false
  if bit = invalidOffset then (noFrame,b) else (bit * pageSize % 2 ^ 32,b.setBit bit true)

/-- Go on in steps while the bit is set; the loop of the aligned search. -/
def nextClear (b : Bitmap) (step : ℕ) : ℕ → ℕ → ℕ
  | 0,bit => bit
  | fuel + 1,bit =>
    if bit < b.bitCount ∧ b.getBit bit = true then nextClear b step fuel ((bit + step) % 2 ^ 32)
    else bit

/-- The step of an aligned search; no alignment is one page. -/
def alignmentStep (alignment : ℕ) : ℕ :=
  (if alignment = 0 then pageSize else alignment) / pageSize

/-- Allocate a free frame at a multiple of the alignment. -/
def allocFrameAligned (b : Bitmap) (alignment : ℕ) : ℕ × Bitmap :=
  if alignment % pageSize ≠ 0 then (noFrame,b) else
  let bit := nextClear b (alignmentStep alignment) (b.bitCount + 1) 0
  if b.bitCount ≤ bit then (noFrame,b) else (bit * pageSize % 2 ^ 32,b.setBit bit true)

/-- Set n bits from the given one on. -/
def markFrom (b : Bitmap) (bit : ℕ) : ℕ → Bitmap
  | 0 => b
  | n + 1 => markFrom (b.setBit bit true) (bit + 1) n

/-- Allocate the first n consecutive free frames. -/
def allocFrames (b : Bitmap) (n : ℕ) : ℕ × Bitmap :=
  let bit := b.findFirstRun false n
  if bit = invalidOffset then (noFrame,b) else (bit * pageSize % 2 ^ 32,markFrom b bit n)

/-- Count clear bits, n at most; where the count stops, and the count. -/
def clearRun (b : Bitmap) (n : ℕ) : ℕ → ℕ → ℕ → ℕ × ℕ
  | 0,bit,okbits => (bit,okbits)
  | fuel + 1,bit,okbits =>
    if bit < b.bitCount ∧ b.getBit bit = false ∧ okbits < n then
      clearRun b n fuel (bit + 1) (okbits + 1)
    else (bit,okbits)

/-- Look for n clear bits; after a shorter run go on a step behind its end. -/
def nextRun (b : Bitmap) (n step : ℕ) : ℕ → ℕ → ℕ
  | 0,bit => bit
  | fuel + 1,bit =>
    if bit < b.bitCount then
      let r := clearRun b n (b.bitCount - bit) bit 0
      if n ≤ r.2 then bit else nextRun b n step fuel ((r.1 + step) % 2 ^ 32)
    else bit

/-- Allocate n consecutive free frames, looking for them in steps. -/
def allocFramesAligned (b : Bitmap) (n alignment : ℕ) : ℕ × Bitmap :=
  if alignment % pageSize ≠ 0 then (noFrame,b) else
  let bit := nextRun b n (alignmentStep alignment) (b.bitCount + 1) 0
  if b.bitCount ≤ bit then (noFrame,b) else (bit * pageSize % 2 ^ 32,markFrom b bit n)

/-- Free the frame of an address if it is in use. -/
def freeFrame (b : Bitmap) (pa : ℕ) : Bool × Bitmap :=
  let bit := pa / pageSize
  if b.getBit bit = false then (false,b) else (true,b.setBit bit false)

/-- Free n consecutive frames, up to the first that is not in use. -/
def freeFrames (b : Bitmap) (pa : ℕ) : ℕ → Bool × Bitmap
  | 0 => (true,b)
  | n + 1 =>
    let r := freeFrame b pa
    if !r.1 then (false,r.2) else freeFrames r.2 ((pa + pageSize) % 2 ^ 32) n

/-- Number of frames. -/
def getTotalFrames (b : Bitmap) : ℕ := b.bitCount

/-- Number of free frames. -/
def getFreeFrames (b : Bitmap) : ℕ := b.getCountOf false

/-- Number of frames in use. -/
def getUsedFrames (b : Bitmap) : ℕ := b.getCountOf true

section

variable {b : Bitmap}

@[simp] theorem markFrom_bitCount (n : ℕ) : ∀ (b : Bitmap) (bit : ℕ),
    (markFrom b bit n).bitCount = b.bitCount := by
  induction n with
  | zero => intro b bit; rfl
  | succ n ih => intro b bit; rw [markFrom,ih,setBit_bitCount]

/-- Marking a range sets its bits and no others. -/
theorem getBit_markFrom (n : ℕ) : ∀ {b : Bitmap} {bit : ℕ}, bit + n ≤ b.bitCount → ∀ j,
    (markFrom b bit n).getBit j = (b.getBit j || decide (bit ≤ j ∧ j < bit + n)) := by
  induction n with
  | zero =>
    intro b bit _ j
    have hno : ¬(bit ≤ j ∧ j < bit + 0) := by omega
    simp only [markFrom,decide_eq_false hno,Bool.or_false]
  | succ n ih =>
    intro b bit hle j
    rw [markFrom,ih (by rw [setBit_bitCount]; omega),getBit_setBit (by omega)]
    by_cases hj : j = bit
    · have hin : bit ≤ j ∧ j < bit + (n + 1) := by omega
      rw [if_pos hj,decide_eq_true hin,Bool.or_true,Bool.true_or]
    · have hiff : (bit + 1 ≤ j ∧ j < bit + 1 + n) ↔ (bit ≤ j ∧ j < bit + (n + 1)) := by omega
      rw [if_neg hj,decide_eq_decide.mpr hiff]

theorem wellCounted_markFrom (n : ℕ) : ∀ {b : Bitmap} {bit : ℕ}, WellCounted b →
    WellCounted (markFrom b bit n) := by
  induction n with
  | zero => intro b bit h; exact h
  | succ n ih => intro b bit h; exact ih (h.setBit bit true)

/-- The aligned search ends past the end or at a clear bit. -/
theorem nextClear_spec {step : ℕ} (hstep : 0 < step) (hsize : b.bitCount + step < 2 ^ 32) :
    ∀ fuel bit, b.bitCount < bit + fuel → b.bitCount ≤ nextClear b step fuel bit ∨
      b.getBit (nextClear b step fuel bit) = false := by
  intro fuel
  induction fuel with
  | zero =>
    intro bit hfuel
    exact .inl (by rw [nextClear]; omega)
  | succ fuel ih =>
    intro bit hfuel
    rw [nextClear]
    split
    · next hin =>
      rw [Nat.mod_eq_of_lt (by omega)]
      exact ih (bit + step) (by omega)
    · next hout =>
      by_cases hend : b.bitCount ≤ bit
      · exact .inl hend
      · exact .inr (by simpa [Nat.lt_of_not_le hend] using hout)

/-- The count of clear bits: those it passed are clear, and it does not go
back. -/
theorem clearRun_spec {n : ℕ} : ∀ fuel bit okbits, okbits ≤ n → bit + fuel = b.bitCount →
    bit ≤ (clearRun b n fuel bit okbits).1 ∧ (clearRun b n fuel bit okbits).1 ≤ b.bitCount ∧
    (clearRun b n fuel bit okbits).2 ≤ n ∧
    (clearRun b n fuel bit okbits).1 + okbits = bit + (clearRun b n fuel bit okbits).2 ∧
    ∀ j, bit ≤ j → j < (clearRun b n fuel bit okbits).1 → b.getBit j = false := by
  intro fuel
  induction fuel with
  | zero =>
    intro bit okbits hok hend
    rw [clearRun]
    exact ⟨le_refl _,by omega,hok,rfl,fun j hl hu => absurd hl (by omega)⟩
  | succ fuel ih =>
    intro bit okbits hok hend
    rw [clearRun]
    split
    · next hin =>
      obtain ⟨h1,h2,h3,h4,h5⟩ := ih (bit + 1) (okbits + 1) (by omega) (by omega)
      refine ⟨by omega,h2,h3,by omega,?_⟩
      intro j hl hu
      by_cases hj : j = bit
      · rw [hj]
        exact hin.2.1
      · exact h5 j (by omega) hu
    · exact ⟨le_refl _,by omega,hok,rfl,fun j hl hu => absurd hl (by omega)⟩

/-- The search in steps ends past the end or at a run. -/
theorem nextRun_spec {n step : ℕ} (hstep : 0 < step) (hsize : b.bitCount + step < 2 ^ 32) :
    ∀ fuel bit, b.bitCount < bit + fuel → b.bitCount ≤ nextRun b n step fuel bit ∨
      IsRun b false n (nextRun b n step fuel bit) := by
  intro fuel
  induction fuel with
  | zero =>
    intro bit hfuel
    exact .inl (by rw [nextRun]; omega)
  | succ fuel ih =>
    intro bit hfuel
    rw [nextRun]
    by_cases hin : bit < b.bitCount
    · obtain ⟨h1,h2,h3,h4,h5⟩ := clearRun_spec (b := b) (n := n) (b.bitCount - bit) bit 0
        (by omega) (by omega)
      rw [if_pos hin]
      by_cases hlong : n ≤ (clearRun b n (b.bitCount - bit) bit 0).2
      · simp only [hlong,if_true]
        exact .inr ⟨by omega,fun i hi => h5 (bit + i) (by omega) (by omega)⟩
      · simp only [hlong,if_false]
        rw [Nat.mod_eq_of_lt (by omega)]
        exact ih _ (by omega)
    · rw [if_neg hin]
      exact .inl (by omega)

/-- The step of a legal alignment. -/
theorem alignmentStep_pos {alignment : ℕ} (ha : alignment < 2 ^ 32)
    (hpage : alignment % pageSize = 0) :
    0 < alignmentStep alignment ∧ alignmentStep alignment < 2 ^ 20 := by
  simp only [alignmentStep,pageSize] at hpage ⊢
  split <;> omega

/-- Freeing clears the frame's bit and no other. -/
theorem getBit_freeFrame (pa j : ℕ) :
    (freeFrame b pa).2.getBit j = (b.getBit j && decide (j ≠ pa / pageSize)) := by
  rw [freeFrame]
  cases hold : b.getBit (pa / pageSize) with
  | false =>
    simp only [if_true]
    by_cases hj : j = pa / pageSize
    · rw [hj,hold,Bool.false_and]
    · simp [hj]
  | true =>
    simp only [Bool.true_eq_false,if_false]
    rw [getBit_setBit (lt_of_getBit hold)]
    by_cases hj : j = pa / pageSize
    · simp [hj]
    · simp [hj]

theorem freeFrame_result (pa : ℕ) : (freeFrame b pa).1 = b.getBit (pa / pageSize) := by
  rw [freeFrame]
  cases b.getBit (pa / pageSize) with
  | false => rfl
  | true => rfl

@[simp] theorem freeFrame_bitCount (pa : ℕ) : (freeFrame b pa).2.bitCount = b.bitCount := by
  rw [freeFrame]
  split
  · rfl
  · exact setBit_bitCount _ _ _

theorem wellCounted_freeFrame (h : WellCounted b) (pa : ℕ) : WellCounted (freeFrame b pa).2 := by
  rw [freeFrame]
  split
  · exact h
  · exact h.setBit _ _

end

/-- What freeing a range of frames may do: only frames of the range are freed. -/
theorem freeFrames_spec (n : ℕ) : ∀ {b : Bitmap} {pa : ℕ}, pa < 2 ^ 32 → WellCounted b →
    WellCounted (freeFrames b pa n).2 ∧ (freeFrames b pa n).2.bitCount = b.bitCount ∧
    (∀ j, (freeFrames b pa n).2.getBit j = true → b.getBit j = true) ∧
    (∀ j, (∀ i < n, j ≠ (pa + i * pageSize) % 2 ^ 32 / pageSize) →
      (freeFrames b pa n).2.getBit j = b.getBit j) := by
  induction n with
  | zero => intro b pa _ h; exact ⟨h,rfl,fun _ hj => hj,fun _ _ => rfl⟩
  | succ n ih =>
    intro b pa hpa h
    have hstep := wellCounted_freeFrame h pa
    have hfirst : ∀ j, j ≠ pa / pageSize → (freeFrame b pa).2.getBit j = b.getBit j := by
      intro j hj
      rw [getBit_freeFrame,decide_eq_true hj,Bool.and_true]
    have hshrink : ∀ j, (freeFrame b pa).2.getBit j = true → b.getBit j = true := by
      intro j hj
      rw [getBit_freeFrame,Bool.and_eq_true] at hj
      exact hj.1
    have hzero : ∀ j, (∀ i < n + 1, j ≠ (pa + i * pageSize) % 2 ^ 32 / pageSize) →
        j ≠ pa / pageSize := by
      intro j hj
      have := hj 0 (by omega)
      rwa [Nat.zero_mul,Nat.add_zero,Nat.mod_eq_of_lt hpa] at this
    rw [freeFrames]
    split
    · exact ⟨hstep,freeFrame_bitCount pa,hshrink,fun j hj => hfirst j (hzero j hj)⟩
    · obtain ⟨h1,h2,h3,h4⟩ := @ih _ ((pa + pageSize) % 2 ^ 32) (Nat.mod_lt _ (by decide)) hstep
      refine ⟨h1,h2.trans (freeFrame_bitCount pa),fun j hj => hshrink j (h3 j hj),?_⟩
      intro j hj
      rw [h4 j ?_,hfirst j (hzero j hj)]
      intro i hi
      rw [Nat.mod_add_mod,show pa + pageSize + i * pageSize = pa + (i + 1) * pageSize by ring]
      exact hj (i + 1) (by omega)

/-- The frames from f to f + n were free and apart from those held, and they
and no others are in use afterwards. -/
structure HandedOut (b b' : Bitmap) (held : Finset ℕ) (f n : ℕ) : Prop where
  /-- The frames exist. -/
  below : f + n ≤ getTotalFrames b
  /-- They were free. -/
  free : ∀ i < n, b.getBit (f + i) = false
  /-- They are not handed out already. -/
  apart : ∀ i < n, f + i ∉ held
  /-- They are in use now, and no other frame changed. -/
  marked : ∀ j, b'.getBit j = (b.getBit j || decide (f ≤ j ∧ j < f + n))

/-- A call of the allocator. -/
inductive FrameOp where
  /-- Allocate one frame. -/
  | alloc
  /-- Allocate one aligned frame. -/
  | allocAligned (alignment : ℕ)
  /-- Allocate n frames in a row. -/
  | allocMany (n : ℕ)
  /-- Allocate n frames in a row, looking in steps. -/
  | allocManyAligned (n alignment : ℕ)
  /-- Free one frame. -/
  | free (pa : ℕ)
  /-- Free n frames in a row. -/
  | freeMany (pa n : ℕ)

/-- Arguments have 32 bits, and at least one frame is asked for. -/
def FrameOp.Valid : FrameOp → Prop
  | .alloc => True
  | .allocAligned alignment => alignment < 2 ^ 32
  | .allocMany n => 0 < n ∧ n < 2 ^ 32
  | .allocManyAligned n alignment => 0 < n ∧ n < 2 ^ 32 ∧ alignment < 2 ^ 32
  | .free pa => pa < 2 ^ 32
  | .freeMany pa n => pa < 2 ^ 32 ∧ n < 2 ^ 32

/-- The bitmap after a call. -/
def applyOp (b : Bitmap) : FrameOp → Bitmap
  | .alloc => (allocFrame b).2
  | .allocAligned alignment => (allocFrameAligned b alignment).2
  | .allocMany n => (allocFrames b n).2
  | .allocManyAligned n alignment => (allocFramesAligned b n alignment).2
  | .free pa => (freeFrame b pa).2
  | .freeMany pa n => (freeFrames b pa n).2

/-- Frames held after n more frames at an address were handed out, if any. -/
def holdMore (held : Finset ℕ) (pa n : ℕ) : Finset ℕ :=
  if pa = noFrame then held else held ∪ (Finset.range n).image (pa / pageSize + ·)

/-- The frames handed out and not yet freed after one more call. -/
def heldAfter (b : Bitmap) (held : Finset ℕ) : FrameOp → Finset ℕ
  | .alloc => holdMore held (allocFrame b).1 1
  | .allocAligned alignment => holdMore held (allocFrameAligned b alignment).1 1
  | .allocMany n => holdMore held (allocFrames b n).1 n
  | .allocManyAligned n alignment => holdMore held (allocFramesAligned b n alignment).1 n
  | .free pa => held.filter fun f => (freeFrame b pa).2.getBit f = true
  | .freeMany pa n => held.filter fun f => (freeFrames b pa n).2.getBit f = true

/-- What a call should do. -/
def FrameOp.Right (b : Bitmap) (held : Finset ℕ) : FrameOp → Prop
  | .alloc =>
    (∃ f, (allocFrame b).1 = f * pageSize ∧ HandedOut b (allocFrame b).2 held f 1 ∧
      ∀ j < f, b.getBit j = true) ∨
    (allocFrame b = (noFrame,b) ∧ ∀ j < getTotalFrames b, b.getBit j = true)
  | .allocAligned alignment =>
    (∃ f, (allocFrameAligned b alignment).1 = f * pageSize ∧
      HandedOut b (allocFrameAligned b alignment).2 held f 1) ∨
    allocFrameAligned b alignment = (noFrame,b)
  | .allocMany n =>
    (∃ f, (allocFrames b n).1 = f * pageSize ∧ HandedOut b (allocFrames b n).2 held f n ∧
      ∀ s < f, ¬IsRun b false n s) ∨
    (allocFrames b n = (noFrame,b) ∧ ∀ s, ¬IsRun b false n s)
  | .allocManyAligned n alignment =>
    (∃ f, (allocFramesAligned b n alignment).1 = f * pageSize ∧
      HandedOut b (allocFramesAligned b n alignment).2 held f n) ∨
    allocFramesAligned b n alignment = (noFrame,b)
  | .free pa =>
    ((freeFrame b pa).1 = true ↔ b.getBit (pa / pageSize) = true) ∧
    ∀ j, (freeFrame b pa).2.getBit j = (b.getBit j && decide (j ≠ pa / pageSize))
  | .freeMany pa n =>
    (∀ j, (freeFrames b pa n).2.getBit j = true → b.getBit j = true) ∧
    ∀ j, (∀ i < n, j ≠ (pa + i * pageSize) % 2 ^ 32 / pageSize) →
      (freeFrames b pa n).2.getBit j = b.getBit j

/-- The counters are the numbers of set and clear bits. -/
def CountsRight (b : Bitmap) : Prop :=
  getUsedFrames b = setCount b ∧ getFreeFrames b = clearCount b

/-- In every state of the history the counters are right, and every call does
what it should. -/
def FramesRight : Bitmap → Finset ℕ → List FrameOp → Prop
  | b,_,[] => CountsRight b
  | b,held,op :: ops =>
    CountsRight b ∧ op.Right b held ∧ FramesRight (applyOp b op) (heldAfter b held op) ops

section

variable {b b' : Bitmap} {held : Finset ℕ} {f n : ℕ}

theorem countsRight_of_wellCounted (h : WellCounted b) : CountsRight b := by
  have hsum := setCount_add_clearCount b
  have hones := h.ones
  refine ⟨h.ones,?_⟩
  show b.bitCount - b.ones = clearCount b
  omega

/-- Marking a free run hands it out. -/
theorem handedOut_markFrom (hheld : ∀ g ∈ held, b.getBit g = true) (hrun : IsRun b false n f) :
    HandedOut b (markFrom b f n) held f n := by
  refine ⟨hrun.1,hrun.2,?_,getBit_markFrom n hrun.1⟩
  intro i hi hmem
  have := hheld _ hmem
  rw [hrun.2 i hi] at this
  cases this

/-- A single free frame is a run. -/
theorem isRun_one (hf : f < b.bitCount) (hclear : b.getBit f = false) : IsRun b false 1 f := by
  refine ⟨hf,?_⟩
  intro i hi
  rwa [show f + i = f by omega]

/-- The address of an existing frame does not wrap and is not the one that
stands for none. -/
theorem frame_address (hsize : b.bitCount ≤ 2 ^ 20) (hf : f < b.bitCount) :
    f * pageSize % 2 ^ 32 = f * pageSize ∧ f * pageSize ≠ noFrame ∧ f * pageSize / pageSize = f := by
  simp only [pageSize,noFrame]
  omega

/-- Allocation of one frame: there is none left, or the first free one is in
use afterwards. -/
theorem allocFrame_spec (hsize : b.bitCount ≤ 2 ^ 20) :
    (allocFrame b = (noFrame,b) ∧ ∀ j < b.bitCount, b.getBit j = true) ∨
      ∃ f < b.bitCount, b.getBit f = false ∧ (∀ j < f, b.getBit j = true) ∧
        (allocFrame b).1 = f * pageSize ∧ (allocFrame b).2 = markFrom b f 1 := by
  rcases @findFirst_clear b (by omega) with ⟨hnone,hall⟩ | ⟨hlt,hclear,hbelow⟩
  · exact .inl ⟨by rw [allocFrame,hnone,if_pos rfl],hall⟩
  · obtain ⟨hmod,-,-⟩ := frame_address hsize hlt
    have hrun : allocFrame b = (b.findFirst false * pageSize,markFrom b (b.findFirst false) 1) := by
      rw [allocFrame,if_neg (by rw [invalidOffset]; omega),hmod]
      rfl
    exact .inr ⟨_,hlt,hclear,hbelow,by rw [hrun],by rw [hrun]⟩

/-- After frames were handed out, those held are in use. -/
theorem HandedOut.used (h : HandedOut b b' held f n) (hheld : ∀ g ∈ held, b.getBit g = true)
    {pa : ℕ} (hpa : pa / pageSize = f) : ∀ g ∈ holdMore held pa n, b'.getBit g = true := by
  intro g hg
  rw [h.marked]
  rw [holdMore] at hg
  split at hg
  · rw [hheld g hg,Bool.true_or]
  · rcases Finset.mem_union.mp hg with hold | hnew
    · rw [hheld g hold,Bool.true_or]
    · obtain ⟨i,hi,rfl⟩ := Finset.mem_image.mp hnew
      have := Finset.mem_range.mp hi
      rw [decide_eq_true (by omega),Bool.or_true]

/-- One call: it is right, and afterwards the bits are counted and the frames
held in use. -/
theorem applyOp_right (h : WellCounted b) (hsize : b.bitCount ≤ 2 ^ 20)
    (hheld : ∀ g ∈ held, b.getBit g = true) {op : FrameOp} (hv : op.Valid) :
    op.Right b held ∧ WellCounted (applyOp b op) ∧ (applyOp b op).bitCount = b.bitCount ∧
    ∀ g ∈ heldAfter b held op, (applyOp b op).getBit g = true := by
  have hsmall := h.small
  cases op with
  | alloc =>
    simp only [FrameOp.Right,applyOp,heldAfter]
    rcases allocFrame_spec hsize with ⟨hrun,hall⟩ | ⟨f,hlt,hclear,hbelow,hfst,hsnd⟩
    · rw [hrun,holdMore,if_pos rfl]
      exact ⟨.inr ⟨rfl,hall⟩,h,rfl,hheld⟩
    · obtain ⟨-,-,hdiv⟩ := frame_address hsize hlt
      have hout := handedOut_markFrom hheld (isRun_one hlt hclear)
      rw [hfst,hsnd]
      exact ⟨.inl ⟨f,rfl,hout,hbelow⟩,wellCounted_markFrom 1 h,markFrom_bitCount _ _ _,
        hout.used hheld hdiv⟩
  | allocAligned alignment =>
    simp only [FrameOp.Right,applyOp,heldAfter]
    by_cases hpage : alignment % pageSize = 0
    · obtain ⟨hpos,hstep⟩ := alignmentStep_pos hv hpage
      rcases nextClear_spec hpos (by omega : b.bitCount + alignmentStep alignment < 2 ^ 32)
        (b.bitCount + 1) 0 (by omega) with hend | hclear
      · have hrun : allocFrameAligned b alignment = (noFrame,b) := by
          rw [allocFrameAligned,if_neg (not_not_intro hpage),if_pos hend]
        rw [hrun,holdMore,if_pos rfl]
        exact ⟨.inr rfl,h,rfl,hheld⟩
      · by_cases hend : b.bitCount ≤ nextClear b (alignmentStep alignment) (b.bitCount + 1) 0
        · have hrun : allocFrameAligned b alignment = (noFrame,b) := by
            rw [allocFrameAligned,if_neg (not_not_intro hpage),if_pos hend]
          rw [hrun,holdMore,if_pos rfl]
          exact ⟨.inr rfl,h,rfl,hheld⟩
        · obtain ⟨hmod,hne,hdiv⟩ := frame_address hsize (Nat.lt_of_not_le hend)
          have hrun : allocFrameAligned b alignment =
              (nextClear b (alignmentStep alignment) (b.bitCount + 1) 0 * pageSize,
                markFrom b (nextClear b (alignmentStep alignment) (b.bitCount + 1) 0) 1) := by
            rw [allocFrameAligned,if_neg (not_not_intro hpage),if_neg hend,hmod]
            rfl
          have hout := handedOut_markFrom hheld (isRun_one (Nat.lt_of_not_le hend) hclear)
          rw [hrun]
          exact ⟨.inl ⟨_,rfl,hout⟩,wellCounted_markFrom 1 h,markFrom_bitCount _ _ _,
            hout.used hheld hdiv⟩
    · have hrun : allocFrameAligned b alignment = (noFrame,b) := by
        rw [allocFrameAligned,if_pos hpage]
      rw [hrun,holdMore,if_pos rfl]
      exact ⟨.inr rfl,h,rfl,hheld⟩
  | allocMany n =>
    simp only [FrameOp.Right,applyOp,heldAfter]
    rcases findFirstRun_spec hsmall false hv.1 with ⟨hnone,hall⟩ | ⟨hrunAt,hbelow⟩
    · have hrun : allocFrames b n = (noFrame,b) := by rw [allocFrames,hnone,if_pos rfl]
      rw [hrun,holdMore,if_pos rfl]
      exact ⟨.inr ⟨rfl,hall⟩,h,rfl,hheld⟩
    · have hlt : b.findFirstRun false n < b.bitCount := by
        have := hrunAt.1
        have := hv.1
        omega
      obtain ⟨hmod,hne,hdiv⟩ := frame_address hsize hlt
      have hrun : allocFrames b n =
          (b.findFirstRun false n * pageSize,markFrom b (b.findFirstRun false n) n) := by
        rw [allocFrames,if_neg (by rw [invalidOffset]; omega),hmod]
      have hout := handedOut_markFrom hheld hrunAt
      rw [hrun]
      exact ⟨.inl ⟨_,rfl,hout,hbelow⟩,wellCounted_markFrom n h,markFrom_bitCount _ _ _,
        hout.used hheld hdiv⟩
  | allocManyAligned n alignment =>
    simp only [FrameOp.Right,applyOp,heldAfter]
    by_cases hpage : alignment % pageSize = 0
    · obtain ⟨hpos,hstep⟩ := alignmentStep_pos hv.2.2 hpage
      by_cases hend : b.bitCount ≤ nextRun b n (alignmentStep alignment) (b.bitCount + 1) 0
      · have hrun : allocFramesAligned b n alignment = (noFrame,b) := by
          rw [allocFramesAligned,if_neg (not_not_intro hpage),if_pos hend]
        rw [hrun,holdMore,if_pos rfl]
        exact ⟨.inr rfl,h,rfl,hheld⟩
      · have hrunAt := (nextRun_spec (n := n) hpos
          (by omega : b.bitCount + alignmentStep alignment < 2 ^ 32)
          (b.bitCount + 1) 0 (by omega)).resolve_left hend
        obtain ⟨hmod,hne,hdiv⟩ := frame_address hsize (Nat.lt_of_not_le hend)
        have hrun : allocFramesAligned b n alignment =
            (nextRun b n (alignmentStep alignment) (b.bitCount + 1) 0 * pageSize,
              markFrom b (nextRun b n (alignmentStep alignment) (b.bitCount + 1) 0) n) := by
          rw [allocFramesAligned,if_neg (not_not_intro hpage),if_neg hend,hmod]
        have hout := handedOut_markFrom hheld hrunAt
        rw [hrun]
        exact ⟨.inl ⟨_,rfl,hout⟩,wellCounted_markFrom n h,markFrom_bitCount _ _ _,
          hout.used hheld hdiv⟩
    · have hrun : allocFramesAligned b n alignment = (noFrame,b) := by
        rw [allocFramesAligned,if_pos hpage]
      rw [hrun,holdMore,if_pos rfl]
      exact ⟨.inr rfl,h,rfl,hheld⟩
  | free pa =>
    refine ⟨⟨by rw [freeFrame_result],fun j => getBit_freeFrame pa j⟩,wellCounted_freeFrame h pa,
      freeFrame_bitCount pa,?_⟩
    intro g hg
    exact (Finset.mem_filter.mp hg).2
  | freeMany pa n =>
    obtain ⟨h1,h2,h3,h4⟩ := freeFrames_spec n hv.1 h
    refine ⟨⟨h3,h4⟩,h1,h2,?_⟩
    intro g hg
    exact (Finset.mem_filter.mp hg).2

end

/-- Over every history of calls on a counted bitmap of frames that 32-bit
addresses can name, every call does what it should and the counters are
right in every state. -/
theorem frames_right {b : Bitmap} (h : WellCounted b) (hsize : b.bitCount ≤ 2 ^ 20)
    (ops : List FrameOp) (hv : ∀ op ∈ ops, op.Valid) : FramesRight b ∅ ops := by
  have hgen : ∀ (ops : List FrameOp) {b : Bitmap} {held : Finset ℕ}, WellCounted b →
      b.bitCount ≤ 2 ^ 20 → (∀ g ∈ held, b.getBit g = true) → (∀ op ∈ ops, op.Valid) →
      FramesRight b held ops := by
    intro ops
    induction ops with
    | nil => intro b held h _ _ _; exact countsRight_of_wellCounted h
    | cons op ops ih =>
      intro b held h hsize hheld hv
      obtain ⟨hright,hwell,hcount,hheld'⟩ := applyOp_right h hsize hheld (hv op (by simp))
      exact ⟨countsRight_of_wellCounted h,hright,
        ih hwell (by omega) hheld' fun o ho => hv o (by simp [ho])⟩
  exact hgen ops h hsize (by simp) hv

/-- A bitmap of five frames: two frames in a row, an aligned one, and the
first freed again. -/
theorem frames_right_five : FramesRight (Bitmap.new 5 false) ∅
    [.allocMany 2,.allocAligned 8192,.free 0,.alloc,.freeMany 4096 2] := by
  refine frames_right (wellCounted_new (by decide) false) (by decide) _ ?_
  simp only [List.mem_cons,List.not_mem_nil,or_false,forall_eq_or_imp,forall_eq,FrameOp.Valid]
  decide

end WootOs.FrameAllocator
