import WootOs.ByteMemory

/-!
# Moves of lines that overlap

Move2D and bltmove move lines of bytes that lie a stride apart, with Memory::Move
and with memmove. They start with the first line where the destination is below
the source, and with the last elsewhere. With one stride for both that is at least
as long as a line, no line is overwritten before it has been moved, so the lines
arrive as if they had gone through a buffer. memmove is that of i386: it goes down
in bytes where it has to, and otherwise up in words, between bytes to the first
word boundary of the destination and bytes behind the last.
-/

namespace WootOs.LineMoves

open ByteMemory

section Functions

/-- The loop of memcpy to a word boundary of the destination, with so many bytes left. -/
def toBoundary : ℕ → Memory → Word → Word → ℕ × Memory × Word × Word
  | 0,m,d,s => (0,m,d,s)
  | n+1,m,d,s =>
    if d &&& 3 = 0 then (n+1,m,d,s)
    else toBoundary n (Function.update m d (m s)) (d + 1) (s + 1)

/-- rep movsl. -/
def moveWords : ℕ → Memory → Word → Word → Memory × Word × Word
  | 0,m,d,s => (m,d,s)
  | k+1,m,d,s => moveWords k (write32 m d (read32 m s)) (d + 4) (s + 4)

/-- memcpy, upwards. -/
def memcpy (m : Memory) (dst src : Word) (n : ℕ) : Memory :=
  let (n,m,d,s) := if n < 4 then (n,m,dst,src) else toBoundary n m dst src
  let (m,d,s) := moveWords (n / 4) m d s
  moveUp (n % 4) m d s

/-- memmove. -/
def memmove (m : Memory) (dst src : Word) (n : ℕ) : Memory :=
  if n ≤ (dst - src).toNat then memcpy m dst src n
  else moveDown n m (dst + BitVec.ofNat 32 n) (src + BitVec.ofNat 32 n)

variable (lineMove : Memory → Word → Word → ℕ → Memory) (bpl : ℕ) (dstride sstride : Word)

/-- Lines from the first on. -/
def linesUp : ℕ → Memory → Word → Word → Memory
  | 0,m,_,_ => m
  | n+1,m,d,s => linesUp n (lineMove m d s bpl) (d + dstride) (s + sstride)

/-- Lines from the last on. -/
def linesDown : ℕ → Memory → Word → Word → Memory
  | 0,m,_,_ => m
  | n+1,m,d,s =>
    linesDown n (lineMove m (d - dstride) (s - sstride) bpl) (d - dstride) (s - sstride)

/-- Lines in the order that their places ask for. -/
def moveLines (m : Memory) (dst src : Word) (lines : Word) : Memory :=
  if dst < src then linesUp lineMove bpl dstride sstride lines.toNat m dst src
  else
    linesDown lineMove bpl dstride sstride lines.toNat m (dst + dstride * lines)
      (src + sstride * lines)

/-- Memory::Move2D. -/
def move2D (m : Memory) (dst src bpl dstride sstride lines : Word) : Memory :=
  moveLines move bpl.toNat dstride sstride m dst src lines

/-- bltmove. -/
def bltmove (m : Memory) (dst src bpl dstride sstride lines : Word) : Memory :=
  moveLines memmove bpl.toNat dstride sstride m dst src lines

end Functions

section Bytes

variable {m : Memory} {d s : Word} {n : ℕ}

/-- An address further on by one more. -/
theorem add_next (x : Word) (k : ℕ) :
    x + 1 + BitVec.ofNat 32 k = x + BitVec.ofNat 32 (k + 1) := by
  rw [Nat.add_comm k,BitVec.ofNat_add,←BitVec.add_assoc]
  rfl

/-- Bytes that are moved upwards in two parts. -/
theorem moveUp_add (a b : ℕ) (m : Memory) (d s : Word) : moveUp (a + b) m d s =
    moveUp b (moveUp a m d s) (d + BitVec.ofNat 32 a) (s + BitVec.ofNat 32 a) := by
  induction a generalizing m d s with
  | zero => rw [Nat.zero_add,moveUp,BitVec.add_zero,BitVec.add_zero]
  | succ a ih => rw [Nat.add_right_comm,moveUp,ih,moveUp,add_next,add_next]

/-- The bytes up to the boundary are moved one after the other. -/
theorem toBoundary_eq (n : ℕ) (m : Memory) (d s : Word) : ∃ k n',k + n' = n ∧
    toBoundary n m d s =
      (n',moveUp k m d s,d + BitVec.ofNat 32 k,s + BitVec.ofNat 32 k) := by
  induction n generalizing m d s with
  | zero => exact ⟨0,0,rfl,by rw [toBoundary,moveUp,BitVec.add_zero,BitVec.add_zero]⟩
  | succ n ih =>
    rw [toBoundary]
    split_ifs
    · exact ⟨0,n+1,Nat.zero_add _,by rw [moveUp,BitVec.add_zero,BitVec.add_zero]⟩
    · obtain ⟨k,n',hk,heq⟩ := ih (Function.update m d (m s)) (d + 1) (s + 1)
      exact ⟨k+1,n',by omega,by rw [heq,add_next,add_next]; rfl⟩

/-- The bytes of a word. -/
theorem read32_bytes (m : Memory) (a : Word) : (read32 m a).extractLsb' 0 8 = m a ∧
    (read32 m a).extractLsb' 8 8 = m (a + 1) ∧ (read32 m a).extractLsb' 16 8 = m (a + 2) ∧
    (read32 m a).extractLsb' 24 8 = m (a + 3) := by
  refine ⟨?_,?_,?_,?_⟩ <;>
  · ext i hi
    simp only [read32,BitVec.getElem_extractLsb',BitVec.getLsbD_append]
    grind

/-- A word is moved like its bytes, unless the destination begins in it. -/
theorem write32_read32 (h : 4 ≤ (d - s).toNat) : write32 m d (read32 m s) = moveUp 4 m d s := by
  have hne : ∀ i j : ℕ,i < j → j < 4 → s + BitVec.ofNat 32 j ≠ d + BitVec.ofNat 32 i := by
    intro i j hij hj
    bv_omega
  obtain ⟨h0,h1,h2,h3⟩ := read32_bytes m s
  have e2 : ∀ x : Word,x + 1 + 1 = x + 2 := fun x => by bv_omega
  have e3 : ∀ x : Word,x + 2 + 1 = x + 3 := fun x => by bv_omega
  have n01 : s + 1 ≠ d := by simpa using hne 0 1
  have n02 : s + 2 ≠ d := by simpa using hne 0 2
  have n03 : s + 3 ≠ d := by simpa using hne 0 3
  have n12 : s + 2 ≠ d + 1 := hne 1 2 (by decide) (by decide)
  have n13 : s + 3 ≠ d + 1 := hne 1 3 (by decide) (by decide)
  have n23 : s + 3 ≠ d + 2 := hne 2 3 (by decide) (by decide)
  rw [write32,h0,h1,h2,h3]
  simp only [moveUp,e2,e3,Function.update_of_ne,ne_eq,n01,n02,n03,n12,n13,n23,not_false_eq_true]

/-- Words are moved like their bytes. -/
theorem moveWords_eq (k : ℕ) (h : 4 ≤ (d - s).toNat) : moveWords k m d s =
    (moveUp (4 * k) m d s,d + BitVec.ofNat 32 (4 * k),s + BitVec.ofNat 32 (4 * k)) := by
  induction k generalizing m d s with
  | zero => rw [moveWords,Nat.mul_zero,moveUp,BitVec.add_zero,BitVec.add_zero]
  | succ k ih =>
    have hfour : BitVec.ofNat 32 4 = (4 : Word) := rfl
    have hdist : d + 4 - (s + 4) = d - s := by bv_omega
    rw [moveWords,ih (by rw [hdist]; exact h),write32_read32 h,Nat.mul_succ,Nat.add_comm (4 * k),
      moveUp_add,BitVec.ofNat_add,←BitVec.add_assoc,←BitVec.add_assoc,hfour]

/-- memcpy moves upwards. -/
theorem memcpy_eq (h : n ≤ (d - s).toNat) : memcpy m d s n = moveUp n m d s := by
  rw [memcpy]
  by_cases hn : n < 4
  · rw [if_pos hn]
    simp only [Nat.div_eq_of_lt hn,Nat.mod_eq_of_lt hn]
    rfl
  · obtain ⟨k,n',hk,heq⟩ := toBoundary_eq n m d s
    have hdist : d + BitVec.ofNat 32 k - (s + BitVec.ofNat 32 k) = d - s := by bv_omega
    have hsplit : n = k + (4 * (n' / 4) + n' % 4) := by omega
    rw [if_neg hn,heq]
    simp only
    rw [moveWords_eq _ (by rw [hdist]; omega)]
    conv_rhs => rw [hsplit,moveUp_add,moveUp_add]

/-- memmove moves its bytes as if they went through a buffer. -/
theorem memmove_eq (hd : d.toNat + n ≤ 2 ^ 32) (hs : s.toNat + n ≤ 2 ^ 32) :
    memmove m d s n = copied m d s n := by
  rw [memmove]
  split_ifs with hup
  · rw [memcpy_eq hup]
    by_cases hne : d = s
    · obtain rfl : n = 0 := by
        rw [hne,BitVec.sub_self] at hup
        exact Nat.le_zero.mp hup
      funext x
      rw [moveUp,copied,if_neg (show ¬InRange d 0 x from Nat.not_lt_zero _)]
    · exact moveUp_eq n m d s (by bv_omega) hne
  · exact moveDown_eq n m d s (by bv_omega)

end Bytes

section Lines

variable {lineMove : Memory → Word → Word → ℕ → Memory} {m m' : Memory} {dst src stride : Word}
variable {bpl lines : ℕ} {done : ℕ → Prop}

/-- A byte of a line. -/
def place (a stride : Word) (k j : ℕ) : Word := a + BitVec.ofNat 32 (k * stride.toNat + j)

/-- Some lines have been moved as if all had been read into a buffer before, and nothing else
has changed. -/
structure Moved (m m' : Memory) (dst src stride : Word) (bpl : ℕ) (done : ℕ → Prop) : Prop where
  /-- The bytes of these lines. -/
  line : ∀ k,done k → ∀ j,j < bpl → m' (place dst stride k j) = m (place src stride k j)
  /-- The other bytes. -/
  frame : ∀ x,(∀ k,done k → ∀ j,j < bpl → x ≠ place dst stride k j) → m' x = m x

/-- No line goes around the end of the addresses. -/
def InSpace (a stride : Word) (bpl lines : ℕ) : Prop :=
  ∀ k,k < lines → a.toNat + k * stride.toNat + bpl ≤ 2 ^ 32

/-- Moving a line moves its bytes as if they went through a buffer. -/
def MovesLine (lineMove : Memory → Word → Word → ℕ → Memory) : Prop :=
  ∀ m d s n,d.toNat + n ≤ 2 ^ 32 → s.toNat + n ≤ 2 ^ 32 → lineMove m d s n = copied m d s n

/-- The address of a byte of a line. -/
theorem place_toNat {a : Word} (h : InSpace a stride bpl lines) {k j : ℕ} (hk : k < lines)
    (hj : j < bpl) : (place a stride k j).toNat = a.toNat + k * stride.toNat + j := by
  have hspace := h k hk
  rw [place]
  generalize k * stride.toNat = t at hspace ⊢
  rw [BitVec.toNat_add,BitVec.toNat_ofNat,Nat.add_mod_mod,Nat.add_assoc]
  exact Nat.mod_eq_of_lt (by omega)

/-- A byte of a line, from its start. -/
theorem place_start (a : Word) (k j : ℕ) :
    place a stride k 0 + BitVec.ofNat 32 j = place a stride k j := by
  rw [place,place,Nat.add_zero,BitVec.ofNat_add (k * stride.toNat),BitVec.add_assoc]

/-- The next line. -/
theorem place_next (a : Word) (k : ℕ) :
    place a stride k 0 + stride = place a stride (k + 1) 0 := by
  have hstride : BitVec.ofNat 32 stride.toNat = stride := BitVec.ofNat_toNat ..
  rw [place,place,Nat.add_zero,Nat.add_zero,Nat.succ_mul,BitVec.ofNat_add,hstride,
    BitVec.add_assoc]

/-- The line before. -/
theorem place_prev (a : Word) (k : ℕ) :
    place a stride (k + 1) 0 - stride = place a stride k 0 := by
  rw [←place_next,BitVec.add_sub_cancel]

/-- A line before another ends before it. -/
theorem line_le (hbpl : bpl ≤ stride.toNat) {i k : ℕ} (h : i < k) :
    i * stride.toNat + bpl ≤ k * stride.toNat := by
  have hmul := Nat.mul_le_mul_right stride.toNat h
  rw [Nat.succ_mul] at hmul
  omega

/-- One more line is moved, if its source has not been overwritten. -/
theorem line_moved (hm : MovesLine lineMove) (hbpl : bpl ≤ stride.toNat)
    (hdst : InSpace dst stride bpl lines) (hsrc : InSpace src stride bpl lines)
    (h : Moved m m' dst src stride bpl done) (hdone : ∀ i,done i → i < lines) {k : ℕ}
    (hk : k < lines) (hnew : ¬done k)
    (hkeep : ∀ i,done i → ∀ j,j < bpl → ∀ j',j' < bpl →
      place src stride k j ≠ place dst stride i j') :
    Moved m (lineMove m' (place dst stride k 0) (place src stride k 0) bpl) dst src stride bpl
      fun i => i = k ∨ done i := by
  have hstart : ∀ a : Word,InSpace a stride bpl lines →
      bpl = 0 ∨ (place a stride k 0).toNat + bpl ≤ 2 ^ 32 := by
    intro a ha
    rcases Nat.eq_zero_or_pos bpl with hzero | hpos
    · exact .inl hzero
    · have hspace := ha k hk
      exact .inr (by rw [place_toNat ha hk hpos]; omega)
  have hmove : lineMove m' (place dst stride k 0) (place src stride k 0) bpl =
      copied m' (place dst stride k 0) (place src stride k 0) bpl := by
    refine hm _ _ _ _ ?_ ?_
    · obtain hzero | hle := hstart dst hdst
      · rw [hzero]
        exact (place dst stride k 0).isLt.le
      · exact hle
    · obtain hzero | hle := hstart src hsrc
      · rw [hzero]
        exact (place src stride k 0).isLt.le
      · exact hle
  have hlt : bpl ≤ 2 ^ 32 := (hdst k hk).trans' (Nat.le_add_left ..)
  rw [hmove]
  refine ⟨?_,fun x hx => ?_⟩
  · rintro i hi j hj
    by_cases heq : i = k
    · subst heq
      have hoff : (place dst stride i j - place dst stride i 0).toNat = j := by
        rw [←place_start dst i j]
        bv_omega
      have hback : place src stride i 0 + (place dst stride i j - place dst stride i 0) =
          place src stride i j := by
        rw [←place_start dst i j,←place_start src i j,BitVec.add_comm (place dst stride i 0),
          BitVec.add_sub_cancel]
      have hin : InRange (place dst stride i 0) bpl (place dst stride i j) := by
        rw [InRange,hoff]
        exact hj
      rw [copied,if_pos hin,hback]
      exact h.frame _ fun i' hi' j' hj' => hkeep i' hi' j hj j' hj'
    · have hi' := hi.resolve_left heq
      have hout : ¬InRange (place dst stride k 0) bpl (place dst stride i j) := by
        have hi0 := place_toNat hdst (hdone i hi') hj
        have hk0 := place_toNat hdst hk (Nat.zero_lt_of_lt hj)
        have hspace := hdst k hk
        have hispace := hdst i (hdone i hi')
        have horder : i * stride.toNat + bpl ≤ k * stride.toNat ∨
            k * stride.toNat + bpl ≤ i * stride.toNat := by
          rcases Nat.lt_or_gt_of_ne heq with hlt' | hgt
          · exact .inl (line_le hbpl hlt')
          · exact .inr (line_le hbpl hgt)
        rw [InRange]
        generalize place dst stride i j = x at hi0 ⊢
        generalize place dst stride k 0 = y at hk0 ⊢
        generalize i * stride.toNat = ti at *
        generalize k * stride.toNat = tk at *
        bv_omega
      rw [copied,if_neg hout]
      exact h.line i hi' j hj
  · have hout : ¬InRange (place dst stride k 0) bpl x := by
      intro hin
      rw [InRange] at hin
      refine hx k (.inl rfl) _ hin ?_
      rw [←place_start]
      bv_omega
    rw [copied,if_neg hout]
    exact h.frame x fun i hi j hj => hx i (.inr hi) j hj

/-- No line has been moved. -/
theorem moved_none (hnone : ∀ k,¬done k) : Moved m m dst src stride bpl done :=
  ⟨fun k hk => absurd hk (hnone k),fun _ _ => rfl⟩

/-- The lines that have been moved, said in another way. -/
theorem Moved.congr {done' : ℕ → Prop} (h : Moved m m' dst src stride bpl done)
    (heq : ∀ k,done k ↔ done' k) : Moved m m' dst src stride bpl done' :=
  ⟨fun k hk => h.line k ((heq k).mpr hk),fun x hx => h.frame x fun k hk => hx k ((heq k).mp hk)⟩

/-- Lines from the first on, to below their source. -/
theorem linesUp_moved (hm : MovesLine lineMove) (hbpl : bpl ≤ stride.toNat)
    (hdst : InSpace dst stride bpl lines) (hsrc : InSpace src stride bpl lines)
    (hlt : dst.toNat < src.toNat) {n k : ℕ} (hn : k + n = lines)
    (h : Moved m m' dst src stride bpl (· < k)) :
    Moved m (linesUp lineMove bpl stride stride n m' (place dst stride k 0)
      (place src stride k 0)) dst src stride bpl (· < lines) := by
  induction n generalizing m' k with
  | zero =>
    rw [Nat.add_zero] at hn
    rw [←hn]
    exact h
  | succ n ih =>
    rw [linesUp,place_next,place_next]
    refine ih (by omega) (Moved.congr (line_moved hm hbpl hdst hsrc h (fun i hi => by omega)
      (by omega) (Nat.lt_irrefl k) fun i hi j hj j' hj' heq => ?_) fun i => by omega)
    have hs := place_toNat hsrc (show k < lines by omega) hj
    have hd := place_toNat hdst (show i < lines by omega) hj'
    have hle := line_le hbpl hi
    rw [heq,hd] at hs
    omega

/-- Lines from the last on, to where their source is or above it. -/
theorem linesDown_moved (hm : MovesLine lineMove) (hbpl : bpl ≤ stride.toNat)
    (hdst : InSpace dst stride bpl lines) (hsrc : InSpace src stride bpl lines)
    (hle : src.toNat ≤ dst.toNat) {n : ℕ} (hn : n ≤ lines)
    (h : Moved m m' dst src stride bpl fun i => n ≤ i ∧ i < lines) :
    Moved m (linesDown lineMove bpl stride stride n m' (place dst stride n 0)
      (place src stride n 0)) dst src stride bpl (· < lines) := by
  induction n generalizing m' with
  | zero => exact h.congr fun i => by omega
  | succ n ih =>
    rw [linesDown,place_prev,place_prev]
    refine ih (by omega) (Moved.congr (line_moved hm hbpl hdst hsrc h (fun i hi => hi.2)
      (by omega) (fun hi => by omega) fun i hi j hj j' hj' heq => ?_) fun i => by omega)
    have hs := place_toNat hsrc (show n < lines by omega) hj
    have hd := place_toNat hdst hi.2 hj'
    have hline := line_le hbpl (show n < i from hi.1)
    rw [heq,hd] at hs
    omega

/-- Lines with one stride arrive as if all had gone through a buffer. -/
theorem moveLines_moved (hm : MovesLine lineMove) {lines : Word} (hbpl : bpl ≤ stride.toNat)
    (hdst : InSpace dst stride bpl lines.toNat) (hsrc : InSpace src stride bpl lines.toNat) :
    Moved m (moveLines lineMove bpl stride stride m dst src lines) dst src stride bpl
      (· < lines.toNat) := by
  have hfirst : ∀ a : Word,place a stride 0 0 = a := by
    intro a
    rw [place,Nat.zero_mul,BitVec.add_zero]
  have hlast : ∀ a : Word,place a stride lines.toNat 0 = a + stride * lines := by
    intro a
    rw [place,Nat.add_zero,BitVec.ofNat_mul,BitVec.ofNat_toNat,BitVec.ofNat_toNat,
      BitVec.setWidth_eq,BitVec.setWidth_eq,BitVec.mul_comm]
  rw [moveLines]
  split_ifs with hup
  · have hrun := linesUp_moved (k := 0) hm hbpl hdst hsrc (BitVec.lt_def.mp hup)
      (Nat.zero_add lines.toNat) (moved_none (m := m) Nat.not_lt_zero)
    rw [hfirst,hfirst] at hrun
    exact hrun
  · have hrun := linesDown_moved hm hbpl hdst hsrc
      (Nat.not_lt.mp fun hlt => hup (BitVec.lt_def.mpr hlt)) le_rfl
      (moved_none (m := m) fun k hk => absurd hk.1 (Nat.not_le.mpr hk.2))
    rw [hlast,hlast] at hrun
    exact hrun

/-- Bytes are moved as if they went through a buffer. -/
theorem copied_spec (m : Memory) (dst src : Word) {n : ℕ} (hn : n ≤ 2 ^ 32) :
    (∀ i,i < n → copied m dst src n (dst + BitVec.ofNat 32 i) = m (src + BitVec.ofNat 32 i)) ∧
      ∀ x,(∀ i,i < n → x ≠ dst + BitVec.ofNat 32 i) → copied m dst src n x = m x := by
  refine ⟨fun i hi => ?_,fun x hx => ?_⟩
  · have hoff : (dst + BitVec.ofNat 32 i - dst).toNat = i := by bv_omega
    have hback : src + (dst + BitVec.ofNat 32 i - dst) = src + BitVec.ofNat 32 i := by bv_omega
    have hin : InRange dst n (dst + BitVec.ofNat 32 i) := by
      rw [InRange,hoff]
      exact hi
    rw [copied,if_pos hin,hback]
  · have hout : ¬InRange dst n x := by
      intro hin
      rw [InRange] at hin
      refine hx _ hin ?_
      bv_omega
    rw [copied,if_neg hout]

/-- Memory::Move moves bytes, and Memory::Move2D and bltmove move lines of one stride, as if all
of them went through a buffer, however they overlap. -/
theorem moves_through_buffer (m : Memory) {dst src n : Word} (hdst : dst.toNat + n.toNat ≤ 2 ^ 32)
    (hsrc : src.toNat + n.toNat ≤ 2 ^ 32) {d s bpl stride lines : Word} (hbpl : bpl ≤ stride)
    (hd : InSpace d stride bpl.toNat lines.toNat) (hs : InSpace s stride bpl.toNat lines.toNat) :
    ((∀ i,i < n.toNat →
        move m dst src n.toNat (dst + BitVec.ofNat 32 i) = m (src + BitVec.ofNat 32 i)) ∧
      ∀ x,(∀ i,i < n.toNat → x ≠ dst + BitVec.ofNat 32 i) → move m dst src n.toNat x = m x) ∧
    Moved m (move2D m d s bpl stride stride lines) d s stride bpl.toNat (· < lines.toNat) ∧
    Moved m (bltmove m d s bpl stride stride lines) d s stride bpl.toNat (· < lines.toNat) := by
  have hle : bpl.toNat ≤ stride.toNat := BitVec.le_def.mp hbpl
  refine ⟨?_,moveLines_moved (fun m d s n hd hs => move_eq m d s n hd hs) hle hd hs,
    moveLines_moved (fun m d s n hd hs => memmove_eq hd hs) hle hd hs⟩
  rw [move_eq m dst src n.toNat hdst hsrc]
  exact copied_spec m dst src n.isLt.le

/-- Bytes that count up. -/
def ramp : Memory := fun a => a.setWidth 8

theorem moves_through_buffer_ramp :
    ((∀ i,i < (4 : Word).toNat →
        move ramp 0x1001 0x1000 (4 : Word).toNat (0x1001 + BitVec.ofNat 32 i) =
          ramp (0x1000 + BitVec.ofNat 32 i)) ∧
      ∀ x,(∀ i,i < (4 : Word).toNat → x ≠ 0x1001 + BitVec.ofNat 32 i) →
        move ramp 0x1001 0x1000 (4 : Word).toNat x = ramp x) ∧
    Moved ramp (move2D ramp 0x2008 0x2000 6 8 8 2) 0x2008 0x2000 8 (6 : Word).toNat
      (· < (2 : Word).toNat) ∧
    Moved ramp (bltmove ramp 0x2008 0x2000 6 8 8 2) 0x2008 0x2000 8 (6 : Word).toNat
      (· < (2 : Word).toNat) :=
  moves_through_buffer ramp (by decide) (by decide) (by decide) (by unfold InSpace; decide)
    (by unfold InSpace; decide)

end Lines

end WootOs.LineMoves
