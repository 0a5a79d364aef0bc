import WootOs.PageMap

/-!
# Unmapping a range

UnmapRange walks over the pages of a range and frees what they map. It does not
look whether an entry of a page table is present before it frees the frame
that the entry names. It frees a page table that has become empty and clears
its entry in the directory, but goes on with the pages of the range that
follow, which then seem to lie in the page table at address 0.

The state of the loop is described in terms of the memory it started from.
Entry k of the directory is cleared once no page is mapped in its page table;
from there on the loop works on frame 0. The main result says when this is the
same as unmapping the range.
-/

namespace WootOs.UnmapRange

open FrameBitmap FrameAllocator Paging PageMap Runs

/-- The memory and the arguments of a call of UnmapRange. -/
structure Call where
  /-- Memory before the call. -/
  before : Frames
  /-- The address space. -/
  pd : ℕ
  /-- The first address. -/
  startVA : ℕ
  /-- The number of bytes. -/
  rangeSize : ℕ

namespace Call

variable (c : Call)

/-- A page is in the range when its address is. -/
def InRange (k i : ℕ) : Prop :=
  c.startVA ≤ k * largePageSize + i * pageSize ∧
    k * largePageSize + i * pageSize < c.startVA + c.rangeSize

instance (k i : ℕ) : Decidable (c.InRange k i) := inferInstanceAs (Decidable (_ ≤ _ ∧ _ < _))

/-- There is a page table. -/
def HasTable (k : ℕ) : Prop := Present (pde c.before c.pd k)

instance (k : ℕ) : Decidable (c.HasTable k) := inferInstanceAs (Decidable (Present _))

/-- An entry of a page table. -/
def pte (k i : ℕ) : ℕ := c.before.word (table c.before c.pd k) i

/-- The page table has been freed when the first n of its pages have been
visited: it is not of the kernel, some page was visited and every mapped one. -/
def Cleared (k n : ℕ) : Prop :=
  k < userTables ∧ (∃ i < n,c.InRange k i) ∧
    ∀ i < 1024,Present (c.pte k i) → c.InRange k i ∧ i < n

/-- The frames that unmapping the range releases: those of its pages, and the
page tables below the kernel that are empty afterwards. -/
def Released (j : ℕ) : Prop :=
  (∃ k < 1024,∃ i < 1024,c.HasTable k ∧ c.InRange k i ∧ Present (c.pte k i) ∧
      c.pte k i / pageSize = j) ∨
    ∃ k < 1024,c.HasTable k ∧ c.Cleared k 1024 ∧ table c.before c.pd k = j

/-- A frame that is free, or released. -/
def Spare (j : ℕ) : Prop := c.before.bitmap.getBit j = false ∨ c.Released j

/-- The directory and the page tables occupy different frames. Frame 0 is none
of them, since it belongs to the kernel and is never handed out. -/
structure Laid : Prop where
  /-- Page tables are different. -/
  inj : ∀ {k k'},k < 1024 → k' < 1024 → c.HasTable k → c.HasTable k' →
    table c.before c.pd k = table c.before c.pd k' → k = k'
  /-- They are in use. -/
  used : ∀ {k},k < 1024 → c.HasTable k →
    c.before.bitmap.getBit (table c.before c.pd k) = true
  /-- They are not the directory. -/
  ne_dir : ∀ {k},k < 1024 → c.HasTable k → table c.before c.pd k ≠ c.pd / pageSize
  /-- They are not frame 0. -/
  ne_zero : ∀ {k},k < 1024 → c.HasTable k → table c.before c.pd k ≠ 0
  /-- The directory is not frame 0. -/
  dir_ne_zero : c.pd / pageSize ≠ 0

/-- The end of the range, with the 4 MiB that are added to it, has 32 bits. -/
def NoWrap : Prop := c.startVA + c.rangeSize + largePageSize < 2 ^ 32

instance : Decidable c.NoWrap := inferInstanceAs (Decidable (_ < _))

/-- What unmapping the range should do. -/
structure Right (after : Frames) : Prop where
  /-- Exactly the pages of the range are unmapped. -/
  pages : ∀ k < 1024,∀ i < 1024,walk after c.pd (k * 1024 + i) =
    if c.InRange k i then none else walk c.before c.pd (k * 1024 + i)
  /-- Exactly the released frames become free. -/
  bits : ∀ j,after.bitmap.getBit j = true ↔ c.before.bitmap.getBit j = true ∧ ¬c.Released j
  /-- Every other frame keeps its words. -/
  words : ∀ frame,frame ≠ c.pd / pageSize →
    (∀ k < 1024,c.HasTable k → frame ≠ table c.before c.pd k) → ¬c.Released frame →
      ∀ i < 1024,after.word frame i = c.before.word frame i

/-- When UnmapRange does so. An entry of the range that is not present, in a
page table that is not yet empty, names a frame that is free or released. When
the range goes on after the page table has become empty, the word of frame 0 at
that index is zero or frame 0 is released, and frame 0 and the frame the word
names are free or released. -/
structure Fits : Prop where
  /-- Entries that are not present. -/
  absent : ∀ k < 1024,∀ i < 1024,c.HasTable k → c.InRange k i → ¬c.Cleared k i →
    ¬Present (c.pte k i) → c.Spare (c.pte k i / pageSize)
  /-- Pages after the page table has become empty. -/
  past : ∀ k < 1024,∀ i < 1024,c.HasTable k → c.InRange k i → c.Cleared k i →
    c.Spare 0 ∧ c.Spare (c.before.word 0 i / pageSize) ∧ (c.before.word 0 i = 0 ∨ c.Released 0)

end Call

section Cleared

variable {c : Call} {k n m i : ℕ}

theorem not_cleared_zero : ¬c.Cleared k 0 := by
  rintro ⟨-,⟨i,hi,-⟩,-⟩
  omega

/-- A page table that was freed stays so. -/
theorem Cleared.mono (h : c.Cleared k n) (hnm : n ≤ m) : c.Cleared k m := by
  obtain ⟨hk,⟨i,hi,hin⟩,hall⟩ := h
  exact ⟨hk,⟨i,by omega,hin⟩,fun j hj hp => ⟨(hall j hj hp).1,by have := (hall j hj hp).2; omega⟩⟩

/-- A page outside of the range does not count. -/
theorem cleared_succ_of_not_inRange (h : ¬c.InRange k n) : c.Cleared k (n + 1) ↔ c.Cleared k n := by
  refine ⟨?_,fun hc => Cleared.mono hc (by omega)⟩
  rintro ⟨hk,⟨i,hi,hin⟩,hall⟩
  have hlt {j : ℕ} (hj : j < n + 1) (hin : c.InRange k j) : j < n := by
    rcases Nat.lt_succ_iff_lt_or_eq.mp hj with hj | rfl
    · exact hj
    · exact absurd hin h
  exact ⟨hk,⟨i,hlt hi hin,hin⟩,fun j hj hp => ⟨(hall j hj hp).1,hlt (hall j hj hp).2 (hall j hj hp).1⟩⟩

/-- A page of the range is the last one mapped. -/
theorem cleared_succ_of_inRange (h : c.InRange k n) : c.Cleared k (n + 1) ↔
    k < userTables ∧ ∀ i < 1024,Present (c.pte k i) → c.InRange k i ∧ i < n + 1 :=
  ⟨fun hc => ⟨hc.1,hc.2.2⟩,fun hc => ⟨hc.1,⟨n,by omega,h⟩,hc.2⟩⟩

/-- Up to a mapped page the page table is not freed. -/
theorem not_cleared_of_present (hi : i < 1024) (hp : Present (c.pte k i)) : ¬c.Cleared k i := by
  rintro ⟨-,-,hall⟩
  have := (hall i hi hp).2
  omega

/-- A freed page table was freed at some page of the range. -/
theorem Cleared.exists_last (h : c.Cleared k 1024) :
    ∃ i < 1024,c.InRange k i ∧ ¬c.Cleared k i ∧ c.Cleared k (i + 1) := by
  classical
  have hex : ∃ n,c.Cleared k n := ⟨1024,h⟩
  have hfind := Nat.find_spec hex
  cases hn : Nat.find hex with
  | zero =>
    rw [hn] at hfind
    exact absurd hfind not_cleared_zero
  | succ i =>
    rw [hn] at hfind
    have hle : Nat.find hex ≤ 1024 := Nat.find_min' hex h
    have hnot : ¬c.Cleared k i := Nat.find_min hex (by omega)
    refine ⟨i,by omega,?_,hnot,hfind⟩
    by_contra hout
    exact hnot ((cleared_succ_of_not_inRange hout).mp hfind)

end Cleared

section Turn

variable {c : Call} {g : Frames} {k n : ℕ}

/-- The page table is empty once a page is unmapped, and not of the kernel. -/
def Empties (g : Frames) (t k n : ℕ) : Prop :=
  (∀ i < 1024,i ≠ n → ¬Present (g.word t i)) ∧ k < userTables

/-- The address of a page lies below the kernel when its page table does. -/
theorem va_lt_kernelBase (hn : n < 1024) :
    k * largePageSize + n * pageSize < kernelBase ↔ k < userTables := by
  simp only [userTables,kernelBase,largePageSize,pageSize]
  omega

/-- A page outside of the range is left. -/
theorem unmapEntry_of_not_inRange (hw : c.NoWrap) (hout : ¬c.InRange k n) :
    g.unmapEntry c.pd c.startVA c.rangeSize k n = g := by
  have hend : (c.startVA + c.rangeSize) % 2 ^ 32 = c.startVA + c.rangeSize :=
    Nat.mod_eq_of_lt (by rw [Call.NoWrap] at hw; omega)
  have hcond : k * largePageSize + n * pageSize < c.startVA ∨
      (c.startVA + c.rangeSize) % 2 ^ 32 ≤ k * largePageSize + n * pageSize := by
    rw [hend]
    by_contra hc
    exact hout ⟨by omega,by omega⟩
  rw [Frames.unmapEntry]
  exact if_pos hcond

open Classical in
/-- One turn of the inner loop for a page of the range. -/
theorem unmapEntry_eq (hw : c.NoWrap) (hin : c.InRange k n) (hn : n < 1024) {t : ℕ}
    (ht : g.word (c.pd / pageSize) k / pageSize = t) :
    g.unmapEntry c.pd c.startVA c.rangeSize k n =
      if Empties g t k n then
        (((g.free (g.word t n / pageSize * pageSize)).write t n 0).free (t * pageSize)).write
          (c.pd / pageSize) k 0
      else (g.free (g.word t n / pageSize * pageSize)).write t n 0 := by
  have hend : (c.startVA + c.rangeSize) % 2 ^ 32 = c.startVA + c.rangeSize :=
    Nat.mod_eq_of_lt (by rw [Call.NoWrap] at hw; omega)
  have hcond : ¬(k * largePageSize + n * pageSize < c.startVA ∨
      (c.startVA + c.rangeSize) % 2 ^ 32 ≤ k * largePageSize + n * pageSize) := by
    rw [hend]
    obtain ⟨hl,hu⟩ := hin
    omega
  have hempty : (tableEmpty (((g.free (g.word t n / pageSize * pageSize)).write t n 0).word t) = true ∧
      k * largePageSize + n * pageSize < kernelBase) ↔ Empties g t k n := by
    rw [tableEmpty_iff,va_lt_kernelBase hn,Empties]
    refine and_congr_left fun _ => forall₂_congr fun i _ => ?_
    rw [word_write]
    by_cases hi : i = n
    · simp [hi,not_present_zero]
    · simp [hi]
  have hrun : g.unmapEntry c.pd c.startVA c.rangeSize k n =
      if tableEmpty (((g.free (g.word t n / pageSize * pageSize)).write t n 0).word t) = true ∧
        k * largePageSize + n * pageSize < kernelBase then
          (((g.free (g.word t n / pageSize * pageSize)).write t n 0).free (t * pageSize)).write
            (c.pd / pageSize) k 0
      else (g.free (g.word t n / pageSize * pageSize)).write t n 0 := by
    subst ht
    rw [Frames.unmapEntry]
    exact if_neg hcond
  rw [hrun]
  by_cases he : Empties g t k n
  · rw [if_pos (hempty.mpr he),if_pos he]
  · rw [if_neg fun hc => he (hempty.mp hc),if_neg he]

/-- The words after such a turn. -/
theorem word_unmapEntry (hw : c.NoWrap) (hin : c.InRange k n) (hn : n < 1024) {t : ℕ}
    (ht : g.word (c.pd / pageSize) k / pageSize = t) (d j : ℕ) :
    (Empties g t k n → d = c.pd / pageSize → j = k →
      (g.unmapEntry c.pd c.startVA c.rangeSize k n).word d j = 0) ∧
    (¬(Empties g t k n ∧ d = c.pd / pageSize ∧ j = k) →
      (g.unmapEntry c.pd c.startVA c.rangeSize k n).word d j =
        if d = t ∧ j = n then 0 else g.word d j) := by
  rw [unmapEntry_eq hw hin hn ht]
  refine ⟨fun he hd hj => ?_,fun hno => ?_⟩
  · rw [if_pos he,word_write,if_pos ⟨hd,hj⟩]
  · by_cases he : Empties g t k n
    · rw [if_pos he,word_write,if_neg fun hc => hno ⟨he,hc⟩,word_free,word_write,word_free]
    · rw [if_neg he,word_write,word_free]

/-- The bitmap after such a turn. -/
theorem getBit_unmapEntry (hw : c.NoWrap) (hin : c.InRange k n) (hn : n < 1024) {t : ℕ}
    (ht : g.word (c.pd / pageSize) k / pageSize = t) (j : ℕ) :
    (g.unmapEntry c.pd c.startVA c.rangeSize k n).bitmap.getBit j = true ↔
      g.bitmap.getBit j = true ∧ j ≠ g.word t n / pageSize ∧ ¬(Empties g t k n ∧ j = t) := by
  have hbit (g : Frames) (a : ℕ) : (g.free (a * pageSize)).bitmap.getBit j = true ↔
      g.bitmap.getBit j = true ∧ j ≠ a := by
    simp only [Frames.free]
    rw [getBit_freeFrame,Nat.mul_div_cancel a (by decide : 0 < pageSize)]
    simp
  rw [unmapEntry_eq hw hin hn ht]
  by_cases he : Empties g t k n
  · rw [if_pos he,bitmap_write,hbit,bitmap_write,hbit]
    simp [he,and_assoc]
  · rw [if_neg he,bitmap_write,hbit]
    simp [he]

end Turn

section Loop

/-- The loop has come to page n of entry k of the directory, and has visited
page i of entry k'. -/
def Call.Visited (c : Call) (k n k' i : ℕ) : Prop :=
  k' < 1024 ∧ i < 1024 ∧ c.HasTable k' ∧ c.InRange k' i ∧ (k' < k ∨ k' = k ∧ i < n)

/-- The loop has cleared an entry of the directory. -/
def Call.DirCleared (c : Call) (k n k' : ℕ) : Prop :=
  c.HasTable k' ∧ (k' < k ∧ c.Cleared k' 1024 ∨ k' = k ∧ c.Cleared k' n)

/-- The frames that the loop frees when it visits a page. -/
def Call.Touches (c : Call) (k i j : ℕ) : Prop :=
  ¬c.Cleared k i ∧ (j = c.pte k i / pageSize ∨ c.Cleared k (i + 1) ∧ j = table c.before c.pd k) ∨
    c.Cleared k i ∧ (j = 0 ∨ j = c.before.word 0 i / pageSize)

/-- Memory when the loop has come to page n of entry k. -/
structure Loop (c : Call) (k n : ℕ) (g : Frames) : Prop where
  /-- Entries of the directory that were cleared. -/
  dir_cleared : ∀ {k'},k' < 1024 → c.DirCleared k n k' → g.word (c.pd / pageSize) k' = 0
  /-- The other entries. -/
  dir_kept : ∀ {k'},k' < 1024 → ¬c.DirCleared k n k' →
    g.word (c.pd / pageSize) k' = pde c.before c.pd k'
  /-- Entries of page tables that were visited. -/
  table_cleared : ∀ {k' i},c.Visited k n k' i → ¬c.Cleared k' i →
    g.word (table c.before c.pd k') i = 0
  /-- The other entries. -/
  table_kept : ∀ {k' i},k' < 1024 → i < 1024 → c.HasTable k' →
    ¬(c.Visited k n k' i ∧ ¬c.Cleared k' i) → g.word (table c.before c.pd k') i = c.pte k' i
  /-- Words of frame 0 that were taken for entries. -/
  zero_cleared : ∀ {k' i},c.Visited k n k' i → c.Cleared k' i → g.word 0 i = 0
  /-- The other words. -/
  zero_kept : ∀ {i},i < 1024 → (∀ k',c.Visited k n k' i → ¬c.Cleared k' i) →
    g.word 0 i = c.before.word 0 i
  /-- The other frames. -/
  others : ∀ {frame},frame ≠ c.pd / pageSize → frame ≠ 0 →
    (∀ k' < 1024,c.HasTable k' → frame ≠ table c.before c.pd k') →
      g.word frame = c.before.word frame
  /-- No frame is marked as used. -/
  mono : ∀ {j},g.bitmap.getBit j = true → c.before.bitmap.getBit j = true
  /-- Only frames that the loop touched were freed. -/
  upper : ∀ {j},c.before.bitmap.getBit j = true → g.bitmap.getBit j ≠ true →
    ∃ k' i,c.Visited k n k' i ∧ c.Touches k' i j
  /-- The frames that visited entries name are free. -/
  lower : ∀ {k' i},c.Visited k n k' i → ¬c.Cleared k' i →
    g.bitmap.getBit (c.pte k' i / pageSize) ≠ true
  /-- Page tables that were cleared are free. -/
  lower_table : ∀ {k' i},c.Visited k n k' i → ¬c.Cleared k' i → c.Cleared k' (i + 1) →
    g.bitmap.getBit (table c.before c.pd k') ≠ true
  /-- The frames that the words of frame 0 name are free. -/
  lower_zero : ∀ {k' i},c.Visited k n k' i → c.Cleared k' i →
    g.bitmap.getBit (c.before.word 0 i / pageSize) ≠ true

variable {c : Call} {g : Frames} {k n k' i j : ℕ}

/-- What the loop describes depends on the pages visited and entries cleared
only. -/
theorem Loop.congr {m l : ℕ} (h : Loop c k n g)
    (hv : ∀ k' i,c.Visited m l k' i ↔ c.Visited k n k' i)
    (hd : ∀ k' < 1024,c.DirCleared m l k' ↔ c.DirCleared k n k') : Loop c m l g := by
  refine ⟨fun hk hc => h.dir_cleared hk ((hd _ hk).mp hc),
    fun hk hc => h.dir_kept hk fun hc' => hc ((hd _ hk).mpr hc'),
    fun hv' => h.table_cleared ((hv _ _).mp hv'),
    fun hk hi ht hc => h.table_kept hk hi ht fun hc' => hc ⟨(hv _ _).mpr hc'.1,hc'.2⟩,
    fun hv' => h.zero_cleared ((hv _ _).mp hv'),
    fun hi hc => h.zero_kept hi fun k' hv' => hc k' ((hv _ _).mpr hv'),
    h.others,h.mono,fun hj hg => ?_,fun hv' => h.lower ((hv _ _).mp hv'),
    fun hv' => h.lower_table ((hv _ _).mp hv'),fun hv' => h.lower_zero ((hv _ _).mp hv')⟩
  obtain ⟨k',i,hv',ht⟩ := h.upper hj hg
  exact ⟨k',i,(hv _ _).mpr hv',ht⟩

/-- A page that is not visited does not count. -/
theorem visited_succ_of_not (h : ¬(c.HasTable k ∧ c.InRange k n)) :
    c.Visited k (n + 1) k' i ↔ c.Visited k n k' i := by
  constructor
  · rintro ⟨hk,hi,ht,hin,hlt | ⟨rfl,hlt⟩⟩
    · exact ⟨hk,hi,ht,hin,.inl hlt⟩
    · rcases Nat.lt_succ_iff_lt_or_eq.mp hlt with hlt | rfl
      · exact ⟨hk,hi,ht,hin,.inr ⟨rfl,hlt⟩⟩
      · exact absurd ⟨ht,hin⟩ h
  · rintro ⟨hk,hi,ht,hin,hlt | ⟨rfl,hlt⟩⟩
    · exact ⟨hk,hi,ht,hin,.inl hlt⟩
    · exact ⟨hk,hi,ht,hin,.inr ⟨rfl,by omega⟩⟩

/-- A turn adds the page it visits. -/
theorem visited_succ (hk : k < 1024) (hn : n < 1024) (ht : c.HasTable k) (hin : c.InRange k n) :
    c.Visited k (n + 1) k' i ↔ c.Visited k n k' i ∨ k' = k ∧ i = n := by
  constructor
  · rintro ⟨hk',hi,ht',hin',hlt | ⟨rfl,hlt⟩⟩
    · exact .inl ⟨hk',hi,ht',hin',.inl hlt⟩
    · rcases Nat.lt_succ_iff_lt_or_eq.mp hlt with hlt | rfl
      · exact .inl ⟨hk',hi,ht',hin',.inr ⟨rfl,hlt⟩⟩
      · exact .inr ⟨rfl,rfl⟩
  · rintro (⟨hk',hi,ht',hin',hlt | ⟨rfl,hlt⟩⟩ | ⟨rfl,rfl⟩)
    · exact ⟨hk',hi,ht',hin',.inl hlt⟩
    · exact ⟨hk',hi,ht',hin',.inr ⟨rfl,by omega⟩⟩
    · exact ⟨hk,hn,ht,hin,.inr ⟨rfl,by omega⟩⟩

/-- A page outside of the range changes nothing. -/
theorem Loop.skip (h : Loop c k n g) (hout : ¬c.InRange k n) : Loop c k (n + 1) g := by
  refine h.congr (fun k' i => visited_succ_of_not fun hc => hout hc.2) fun k' _ => ?_
  refine and_congr_right fun _ => or_congr_right (and_congr_right fun hk => ?_)
  rw [hk]
  exact cleared_succ_of_not_inRange hout

/-- The page that a turn visits was not visited before. -/
theorem not_visited_self : ¬c.Visited k n k n := by
  rintro ⟨-,-,-,-,hlt | ⟨-,hlt⟩⟩ <;> omega

/-- Before the page table is freed, the loop visits its own entries: it is
empty afterwards exactly when it is to be freed. -/
theorem Loop.empties_iff (h : Loop c k n g) (hk : k < 1024) (ht : c.HasTable k)
    (hin : c.InRange k n) (hlive : ¬c.Cleared k n) :
    Empties g (table c.before c.pd k) k n ↔ c.Cleared k (n + 1) := by
  rw [cleared_succ_of_inRange hin,Empties,and_comm]
  refine and_congr_right fun _ => forall₂_congr fun i hi => ?_
  by_cases hv : c.Visited k n k i
  · have hnc : ¬c.Cleared k i := by
      intro hc
      obtain ⟨-,-,-,-,hlt | ⟨-,hlt⟩⟩ := hv
      · omega
      · exact hlive (Cleared.mono hc (by omega))
    rw [h.table_cleared hv hnc]
    obtain ⟨-,-,-,hin',hlt | ⟨-,hlt⟩⟩ := hv
    · omega
    · exact ⟨fun _ _ => ⟨hin',by omega⟩,fun _ _ => not_present_zero⟩
  · rw [h.table_kept hk hi ht fun hc => hv hc.1]
    constructor
    · intro hne hp
      by_cases hni : i = n
      · rw [hni]
        exact ⟨hin,by omega⟩
      · exact absurd hp (hne hni)
    · intro hall hni hp
      obtain ⟨hin',hlt⟩ := hall hp
      exact hv ⟨hk,hi,ht,hin',.inr ⟨rfl,by omega⟩⟩

variable (hl : c.Laid) (hw : c.NoWrap) (hk : k < 1024) (hn : n < 1024) (ht : c.HasTable k)
  (hin : c.InRange k n)

include hl hw hk hn ht hin

/-- A turn while the page table is there. -/
theorem Loop.live (h : Loop c k n g) (hlive : ¬c.Cleared k n) :
    Loop c k (n + 1) (g.unmapEntry c.pd c.startVA c.rangeSize k n) := by
  have hpde : g.word (c.pd / pageSize) k / pageSize = table c.before c.pd k := by
    have hkept : ¬c.DirCleared k n k := by
      rintro ⟨-,⟨hlt,-⟩ | ⟨-,hc⟩⟩
      · omega
      · exact hlive hc
    rw [h.dir_kept hk hkept,table]
  have hpte : g.word (table c.before c.pd k) n = c.pte k n :=
    h.table_kept hk hn ht fun hc => not_visited_self hc.1
  have hempties := h.empties_iff hk ht hin hlive
  have hword := word_unmapEntry (g := g) hw hin hn hpde
  have hbit := getBit_unmapEntry (g := g) hw hin hn hpde
  rw [hpte] at hbit
  have hvisited {k' i : ℕ} := @visited_succ c k n k' i hk hn ht hin
  have hdir := hl.ne_dir hk ht
  -- Words of the other frames are as before the turn.
  have hother {d : ℕ} (hd : d ≠ c.pd / pageSize) (hd' : d ≠ table c.before c.pd k) (j : ℕ) :
      (g.unmapEntry c.pd c.startVA c.rangeSize k n).word d j = g.word d j := by
    rw [(hword d j).2 fun hc => hd hc.2.1,if_neg fun hc => hd' hc.1]
  have hmono {j : ℕ} (hj : g.bitmap.getBit j ≠ true) :
      (g.unmapEntry c.pd c.startVA c.rangeSize k n).bitmap.getBit j ≠ true :=
    fun hc => hj ((hbit j).mp hc).1
  refine ⟨?_,?_,?_,?_,?_,?_,?_,?_,?_,?_,?_,?_⟩
  · rintro k' hk' ⟨ht',⟨hlt,hc⟩ | ⟨rfl,hc⟩⟩
    · rw [(hword _ _).2 fun hc => by omega,if_neg fun hc => hdir hc.1.symm]
      exact h.dir_cleared hk' ⟨ht',.inl ⟨hlt,hc⟩⟩
    · exact (hword _ _).1 (hempties.mpr hc) rfl rfl
  · intro k' hk' hno
    have hold : ¬c.DirCleared k n k' := by
      rintro ⟨ht',hc | ⟨rfl,hc⟩⟩
      · exact hno ⟨ht',.inl hc⟩
      · exact hno ⟨ht',.inr ⟨rfl,Cleared.mono hc (by omega)⟩⟩
    rw [(hword _ _).2 ?_,if_neg fun hc => hdir hc.1.symm]
    · exact h.dir_kept hk' hold
    · rintro ⟨he,-,rfl⟩
      exact hno ⟨ht,.inr ⟨rfl,hempties.mp he⟩⟩
  · intro k' i hv hnc
    rw [(hword _ _).2 fun hc => hl.ne_dir hv.1 hv.2.2.1 hc.2.1]
    rcases hvisited.mp hv with hold | ⟨rfl,rfl⟩
    · rw [h.table_cleared hold hnc,ite_self]
    · rw [if_pos ⟨rfl,rfl⟩]
  · intro k' i hk' hi ht' hno
    rw [(hword _ _).2 fun hc => hl.ne_dir hk' ht' hc.2.1,if_neg ?_]
    · exact h.table_kept hk' hi ht' fun hc => hno ⟨hvisited.mpr (.inl hc.1),hc.2⟩
    · rintro ⟨heq,rfl⟩
      obtain rfl := hl.inj hk' hk ht' ht heq
      exact hno ⟨hvisited.mpr (.inr ⟨rfl,rfl⟩),hlive⟩
  · intro k' i hv hc
    rw [hother hl.dir_ne_zero.symm (hl.ne_zero hk ht).symm]
    rcases hvisited.mp hv with hold | ⟨rfl,rfl⟩
    · exact h.zero_cleared hold hc
    · exact absurd hc hlive
  · intro i hi hno
    rw [hother hl.dir_ne_zero.symm (hl.ne_zero hk ht).symm]
    exact h.zero_kept hi fun k' hv => hno k' (hvisited.mpr (.inl hv))
  · intro frame hd h0 htables
    funext j
    rw [hother hd (htables k hk ht),h.others hd h0 htables]
  · exact fun hj => h.mono ((hbit _).mp hj).1
  · intro j hj hg
    by_cases hold : g.bitmap.getBit j = true
    · refine ⟨k,n,hvisited.mpr (.inr ⟨rfl,rfl⟩),.inl ⟨hlive,?_⟩⟩
      by_contra hno
      rw [not_or] at hno
      exact hg ((hbit j).mpr ⟨hold,hno.1,fun hc => hno.2 ⟨hempties.mp hc.1,hc.2⟩⟩)
    · obtain ⟨k',i,hv,htouch⟩ := h.upper hj hold
      exact ⟨k',i,hvisited.mpr (.inl hv),htouch⟩
  · intro k' i hv hnc
    rcases hvisited.mp hv with hold | ⟨rfl,rfl⟩
    · exact hmono (h.lower hold hnc)
    · exact fun hc => ((hbit _).mp hc).2.1 rfl
  · intro k' i hv hnc hc
    rcases hvisited.mp hv with hold | ⟨rfl,rfl⟩
    · exact hmono (h.lower_table hold hnc hc)
    · exact fun hg => ((hbit _).mp hg).2.2 ⟨hempties.mpr hc,rfl⟩
  · intro k' i hv hc
    rcases hvisited.mp hv with hold | ⟨rfl,rfl⟩
    · exact hmono (h.lower_zero hold hc)
    · exact absurd hc hlive

/-- A turn when the page table is gone: it works on frame 0. -/
theorem Loop.past (h : Loop c k n g) (hc : c.Cleared k n) :
    Loop c k (n + 1) (g.unmapEntry c.pd c.startVA c.rangeSize k n) := by
  have hpde : g.word (c.pd / pageSize) k = 0 := h.dir_cleared hk ⟨ht,.inr ⟨rfl,hc⟩⟩
  have hzero : g.word (c.pd / pageSize) k / pageSize = 0 := by rw [hpde,Nat.zero_div]
  have hword := word_unmapEntry (g := g) hw hin hn hzero
  have hbit := getBit_unmapEntry (g := g) hw hin hn hzero
  have hvisited {k' i : ℕ} := @visited_succ c k n k' i hk hn ht hin
  have hother {d : ℕ} (hd : d ≠ c.pd / pageSize) (hd' : d ≠ 0) (j : ℕ) :
      (g.unmapEntry c.pd c.startVA c.rangeSize k n).word d j = g.word d j := by
    rw [(hword d j).2 fun hc => hd hc.2.1,if_neg fun hc => hd' hc.1]
  have hmono {j : ℕ} (hj : g.bitmap.getBit j ≠ true) :
      (g.unmapEntry c.pd c.startVA c.rangeSize k n).bitmap.getBit j ≠ true :=
    fun hc => hj ((hbit j).mp hc).1
  have hdir (k' : ℕ) : g.word (c.pd / pageSize) k' =
      (g.unmapEntry c.pd c.startVA c.rangeSize k n).word (c.pd / pageSize) k' := by
    by_cases he : Empties g 0 k n ∧ k' = k
    · rw [(hword _ _).1 he.1 rfl he.2,he.2,hpde]
    · rw [(hword _ _).2 fun hc => he ⟨hc.1,hc.2.2⟩,if_neg fun hc => hl.dir_ne_zero hc.1]
  -- The word of frame 0 is its own unless an earlier page table took it.
  have hown : (∃ k',c.Visited k n k' n ∧ c.Cleared k' n) ∨ g.word 0 n = c.before.word 0 n := by
    by_cases hex : ∃ k',c.Visited k n k' n ∧ c.Cleared k' n
    · exact .inl hex
    · exact .inr (h.zero_kept hn fun k' hv hc' => hex ⟨k',hv,hc'⟩)
  refine ⟨?_,?_,?_,?_,?_,?_,?_,?_,?_,?_,?_,?_⟩
  · rintro k' hk' ⟨ht',⟨hlt,hc'⟩ | ⟨rfl,-⟩⟩
    · rw [←hdir]
      exact h.dir_cleared hk' ⟨ht',.inl ⟨hlt,hc'⟩⟩
    · rw [←hdir,hpde]
  · intro k' hk' hno
    rw [←hdir]
    refine h.dir_kept hk' ?_
    rintro ⟨ht',hc' | ⟨rfl,hc'⟩⟩
    · exact hno ⟨ht',.inl hc'⟩
    · exact hno ⟨ht',.inr ⟨rfl,Cleared.mono hc' (by omega)⟩⟩
  · intro k' i hv hnc
    rw [hother (hl.ne_dir hv.1 hv.2.2.1) (hl.ne_zero hv.1 hv.2.2.1)]
    rcases hvisited.mp hv with hold | ⟨rfl,rfl⟩
    · exact h.table_cleared hold hnc
    · exact absurd hc hnc
  · intro k' i hk' hi ht' hno
    rw [hother (hl.ne_dir hk' ht') (hl.ne_zero hk' ht')]
    exact h.table_kept hk' hi ht' fun hc' => hno ⟨hvisited.mpr (.inl hc'.1),hc'.2⟩
  · intro k' i hv hc'
    rw [(hword _ _).2 fun hc => hl.dir_ne_zero hc.2.1.symm]
    rcases hvisited.mp hv with hold | ⟨rfl,rfl⟩
    · rw [h.zero_cleared hold hc',ite_self]
    · rw [if_pos ⟨rfl,rfl⟩]
  · intro i hi hno
    have hne : i ≠ n := by
      rintro rfl
      exact hno k (hvisited.mpr (.inr ⟨rfl,rfl⟩)) hc
    rw [(hword _ _).2 fun hc => hl.dir_ne_zero hc.2.1.symm,if_neg fun hc => hne hc.2]
    exact h.zero_kept hi fun k' hv => hno k' (hvisited.mpr (.inl hv))
  · intro frame hd h0 htables
    funext j
    rw [hother hd h0,h.others hd h0 htables]
  · exact fun hj => h.mono ((hbit _).mp hj).1
  · intro j hj hg
    by_cases hold : g.bitmap.getBit j = true
    · refine ⟨k,n,hvisited.mpr (.inr ⟨rfl,rfl⟩),.inr ⟨hc,?_⟩⟩
      by_contra hno
      rw [not_or] at hno
      refine hg ((hbit j).mpr ⟨hold,?_,fun hc => hno.1 hc.2⟩)
      rcases hown with ⟨k',hv,hc'⟩ | hsame
      · rw [h.zero_cleared hv hc',Nat.zero_div]
        exact hno.1
      · rw [hsame]
        exact hno.2
    · obtain ⟨k',i,hv,htouch⟩ := h.upper hj hold
      exact ⟨k',i,hvisited.mpr (.inl hv),htouch⟩
  · intro k' i hv hnc
    rcases hvisited.mp hv with hold | ⟨rfl,rfl⟩
    · exact hmono (h.lower hold hnc)
    · exact absurd hc hnc
  · intro k' i hv hnc hc'
    rcases hvisited.mp hv with hold | ⟨rfl,rfl⟩
    · exact hmono (h.lower_table hold hnc hc')
    · exact absurd hc hnc
  · intro k' i hv hc'
    rcases hvisited.mp hv with hold | ⟨rfl,rfl⟩
    · exact hmono (h.lower_zero hold hc')
    · rcases hown with ⟨k'',hv',hc''⟩ | hsame
      · exact hmono (h.lower_zero hv' hc'')
      · exact fun hg => ((hbit _).mp hg).2.1 (by rw [hsame])

end Loop

section Range

variable {c : Call} {g : Frames} {k : ℕ}

/-- A page of the range lies in one of the entries that the loop visits. -/
theorem Call.InRange.bounds {i : ℕ} (hw : c.NoWrap) (hin : c.InRange k i) (hi : i < 1024) :
    c.startVA / largePageSize ≤ k ∧
      k < (c.startVA + c.rangeSize + largePageSize - 1) % 2 ^ 32 / largePageSize := by
  obtain ⟨hlo,hhi⟩ := hin
  rw [Call.NoWrap] at hw
  rw [Nat.mod_eq_of_lt (by omega)]
  simp only [largePageSize,pageSize] at *
  omega

/-- After the last page of an entry comes the next entry. -/
theorem Loop.next (h : Loop c k 1024 g) : Loop c (k + 1) 0 g := by
  refine h.congr (fun k' i => ?_) fun k' _ => and_congr_right fun _ => ?_
  · exact ⟨fun ⟨hk',hi,ht',hin,hlt⟩ => ⟨hk',hi,ht',hin,by omega⟩,
      fun ⟨hk',hi,ht',hin,hlt⟩ => ⟨hk',hi,ht',hin,by omega⟩⟩
  · constructor
    · rintro (⟨hlt,hc⟩ | ⟨-,hc⟩)
      · rcases Nat.lt_succ_iff_lt_or_eq.mp hlt with hlt | rfl
        · exact .inl ⟨hlt,hc⟩
        · exact .inr ⟨rfl,hc⟩
      · exact absurd hc not_cleared_zero
    · rintro (⟨hlt,hc⟩ | ⟨rfl,hc⟩)
      · exact .inl ⟨by omega,hc⟩
      · exact .inl ⟨by omega,hc⟩

/-- An entry without a page table is skipped. -/
theorem Loop.skipTable (h : Loop c k 0 g) (ht : ¬c.HasTable k) : Loop c (k + 1) 0 g := by
  refine h.congr (fun k' i => ?_) fun k' _ => and_congr_right fun ht' => ?_
  · have hne (ht' : c.HasTable k') : k' ≠ k := by
      rintro rfl
      exact ht ht'
    exact ⟨fun ⟨hk',hi,ht',hin,hlt⟩ => ⟨hk',hi,ht',hin,by have := hne ht'; omega⟩,
      fun ⟨hk',hi,ht',hin,hlt⟩ => ⟨hk',hi,ht',hin,by omega⟩⟩
  · have hne : k' ≠ k := by
      rintro rfl
      exact ht ht'
    constructor
    · rintro (⟨hlt,hc⟩ | ⟨-,hc⟩)
      · exact .inl ⟨by omega,hc⟩
      · exact absurd hc not_cleared_zero
    · rintro (⟨hlt,hc⟩ | ⟨rfl,hc⟩)
      · exact .inl ⟨by omega,hc⟩
      · exact absurd rfl hne

/-- The loop over one entry of the directory. -/
theorem Loop.entry (hl : c.Laid) (hw : c.NoWrap) (hk : k < 1024) (h : Loop c k 0 g) :
    Loop c (k + 1) 0 (g.unmapTable c.pd c.startVA c.rangeSize k) := by
  have hpde : g.word (c.pd / pageSize) k = pde c.before c.pd k := by
    refine h.dir_kept hk ?_
    rintro ⟨-,⟨hlt,-⟩ | ⟨-,hc⟩⟩
    · omega
    · exact not_cleared_zero hc
  rw [Frames.unmapTable,hpde]
  by_cases ht : Present (pde c.before c.pd k)
  · rw [if_neg (not_not_intro ht),List.range_eq_range']
    refine Loop.next ?_
    refine @foldl_range_invariant Frames
      (fun f ptidx => f.unmapEntry c.pd c.startVA c.rangeSize k ptidx) (fun n g => Loop c k n g)
      0 1024 g (fun n s _ hn hs => ?_) h
    by_cases hin : c.InRange k n
    · by_cases hc : c.Cleared k n
      · exact hs.past hl hw hk (by omega) ht hin hc
      · exact hs.live hl hw hk (by omega) ht hin hc
    · rw [unmapEntry_of_not_inRange hw hin]
      exact hs.skip hin
  · rw [if_pos ht]
    exact h.skipTable ht

/-- At its start the loop has visited nothing. -/
theorem Loop.start (hw : c.NoWrap) : Loop c (c.startVA / largePageSize) 0 c.before := by
  have hvisited {k' i : ℕ} : ¬c.Visited (c.startVA / largePageSize) 0 k' i := by
    rintro ⟨-,hi,-,hin,hlt⟩
    have := (hin.bounds hw hi).1
    omega
  have hdir {k' : ℕ} : ¬c.DirCleared (c.startVA / largePageSize) 0 k' := by
    rintro ⟨-,⟨hlt,hc⟩ | ⟨-,hc⟩⟩
    · obtain ⟨-,⟨i,hi,hin⟩,-⟩ := hc
      have := (hin.bounds hw hi).1
      omega
    · exact not_cleared_zero hc
  exact ⟨fun _ hc => absurd hc hdir,fun _ _ => rfl,fun hv => absurd hv hvisited,
    fun _ _ _ _ => rfl,fun hv => absurd hv hvisited,fun _ _ => rfl,fun _ _ _ => rfl,id,
    fun hj hg => absurd hj hg,fun hv => absurd hv hvisited,fun hv => absurd hv hvisited,
    fun hv => absurd hv hvisited⟩

/-- The loop ends at the entry after the range, and has visited all of it. -/
theorem Loop.finish {endPD : ℕ} (h : Loop c endPD 0 g)
    (hbounds : ∀ k i,i < 1024 → c.InRange k i → k < endPD) : Loop c 1024 0 g := by
  refine h.congr (fun k' i => ?_) fun k' hk' => and_congr_right fun _ => ?_
  · refine ⟨fun ⟨hk',hi,ht',hin,_⟩ => ⟨hk',hi,ht',hin,.inl (hbounds k' i hi hin)⟩,
      fun ⟨hk',hi,ht',hin,hlt⟩ => ⟨hk',hi,ht',hin,by omega⟩⟩
  · constructor
    · rintro (⟨hlt,hc⟩ | ⟨-,hc⟩)
      · obtain ⟨i,hi,hin⟩ := hc.2.1
        exact .inl ⟨hbounds k' i hi hin,hc⟩
      · exact absurd hc not_cleared_zero
    · rintro (⟨hlt,hc⟩ | ⟨-,hc⟩)
      · exact .inl ⟨hk',hc⟩
      · exact absurd hc not_cleared_zero

/-- The whole loop. -/
theorem Loop.all (hl : c.Laid) (hw : c.NoWrap) :
    Loop c 1024 0 (c.before.unmapRange c.pd c.startVA c.rangeSize) := by
  have hbounds (k i : ℕ) (hi : i < 1024) (hin : c.InRange k i) := (hin.bounds hw hi).2
  have hstart := Loop.start hw
  have horder : c.startVA / largePageSize ≤
      (c.startVA + c.rangeSize + largePageSize - 1) % 2 ^ 32 / largePageSize := by
    rw [Call.NoWrap] at hw
    rw [Nat.mod_eq_of_lt (by omega)]
    exact Nat.div_le_div_right (by simp only [largePageSize]; omega)
  have hend : (c.startVA + c.rangeSize + largePageSize - 1) % 2 ^ 32 / largePageSize ≤ 1024 :=
    le_of_lt (Nat.div_lt_of_lt_mul (lt_of_lt_of_le (Nat.mod_lt _ (by decide)) (by decide)))
  simp only [Frames.unmapRange]
  generalize (c.startVA + c.rangeSize + largePageSize - 1) % 2 ^ 32 / largePageSize = endPD at *
  generalize c.startVA / largePageSize = startPD at *
  have hloop := @foldl_range_invariant Frames
    (fun f pdidx => f.unmapTable c.pd c.startVA c.rangeSize pdidx) (fun k g => Loop c k 0 g)
    startPD (endPD - startPD) c.before
    (fun k g _ hk hg => hg.entry hl hw (by omega)) hstart
  rw [Nat.add_sub_cancel' horder] at hloop
  exact hloop.finish hbounds

end Range

section Correct

variable {c : Call} {g : Frames} {k i j : ℕ}

/-- At the end the loop has visited every page of the range that has a page
table. -/
theorem visited_all : c.Visited 1024 0 k i ↔
    k < 1024 ∧ i < 1024 ∧ c.HasTable k ∧ c.InRange k i :=
  ⟨fun ⟨hk,hi,ht,hin,_⟩ => ⟨hk,hi,ht,hin⟩,fun ⟨hk,hi,ht,hin⟩ => ⟨hk,hi,ht,hin,.inl hk⟩⟩

/-- Whatever else it does, the loop unmaps exactly the pages of the range. -/
theorem Loop.pages (h : Loop c 1024 0 g) (hk : k < 1024) (hi : i < 1024) :
    walk g c.pd (k * 1024 + i) =
      if c.InRange k i then none else walk c.before c.pd (k * 1024 + i) := by
  have hdiv : (k * 1024 + i) / 1024 = k := by omega
  have hmod : (k * 1024 + i) % 1024 = i := by omega
  by_cases hc : c.DirCleared 1024 0 k
  · have hpde : pde g c.pd k = 0 := h.dir_cleared hk hc
    have hnone : walk g c.pd (k * 1024 + i) = none :=
      walk_of_not_present hdiv (by rw [hpde]; exact not_present_zero)
    rw [hnone]
    split_ifs with hin
    · rfl
    · obtain ⟨-,⟨-,hcl⟩ | ⟨-,hcl⟩⟩ := hc
      · have hpte : ¬Present (c.pte k i) := fun hp => hin (hcl.2.2 i hi hp).1
        rw [Call.pte] at hpte
        simp [walk,hdiv,hmod,hpte]
      · exact absurd hcl not_cleared_zero
  · have hpde : pde g c.pd k = pde c.before c.pd k := h.dir_kept hk hc
    have htable : table g c.pd k = table c.before c.pd k := by rw [table,hpde,table]
    by_cases ht : c.HasTable k
    · have hnc : ¬c.Cleared k i := fun hcl =>
        hc ⟨ht,.inl ⟨hk,Cleared.mono hcl (by omega)⟩⟩
      by_cases hin : c.InRange k i
      · have hword := h.table_cleared (visited_all.mpr ⟨hk,hi,ht,hin⟩) hnc
        rw [if_pos hin]
        simp [walk,hdiv,hmod,htable,hword,not_present_zero]
      · have hword := h.table_kept hk hi ht fun hv => hin (visited_all.mp hv.1).2.2.2
        rw [Call.pte] at hword
        rw [if_neg hin]
        simp only [walk,hdiv,hmod,htable,hpde,hword]
    · have hg : walk g c.pd (k * 1024 + i) = none :=
        walk_of_not_present hdiv (by rw [hpde]; exact ht)
      have hb : walk c.before c.pd (k * 1024 + i) = none := walk_of_not_present hdiv ht
      rw [hg,hb,ite_self]

/-- The frames to be released are freed. -/
theorem Loop.released (h : Loop c 1024 0 g) (hr : c.Released j) : g.bitmap.getBit j ≠ true := by
  rcases hr with ⟨k,hk,i,hi,ht,hin,hp,rfl⟩ | ⟨k,hk,ht,hc,rfl⟩
  · exact h.lower (visited_all.mpr ⟨hk,hi,ht,hin⟩) (not_cleared_of_present hi hp)
  · obtain ⟨i,hi,hin,hnc,hc'⟩ := Cleared.exists_last hc
    exact h.lower_table (visited_all.mpr ⟨hk,hi,ht,hin⟩) hnc hc'

/-- Where the call fits, the frames that the loop touches are spare. -/
theorem Call.Fits.spare (hf : c.Fits) (hv : c.Visited 1024 0 k i) (ht : c.Touches k i j) :
    c.Spare j := by
  obtain ⟨hk,hi,htab,hin⟩ := visited_all.mp hv
  rcases ht with ⟨hnc,rfl | ⟨hc,rfl⟩⟩ | ⟨hc,rfl | rfl⟩
  · by_cases hp : Present (c.pte k i)
    · exact .inr (.inl ⟨k,hk,i,hi,htab,hin,hp,rfl⟩)
    · exact hf.absent k hk i hi htab hin hnc hp
  · exact .inr (.inr ⟨k,hk,htab,Cleared.mono hc (by omega),rfl⟩)
  · exact (hf.past k hk i hi htab hin hc).1
  · exact (hf.past k hk i hi htab hin hc).2.1

/-- UnmapRange is right exactly when the call fits. -/
theorem Loop.right_iff (hl : c.Laid) (h : Loop c 1024 0 g) : c.Right g ↔ c.Fits := by
  constructor
  · intro hr
    have hspare {j : ℕ} (hj : g.bitmap.getBit j ≠ true) : c.Spare j := by
      by_contra hno
      rw [Call.Spare,not_or] at hno
      exact hj ((hr.bits j).mpr ⟨by simpa using hno.1,hno.2⟩)
    refine ⟨fun k hk i hi ht hin hnc _ => ?_,fun k hk i hi ht hin hc => ?_⟩
    · exact hspare (h.lower (visited_all.mpr ⟨hk,hi,ht,hin⟩) hnc)
    · have hv := visited_all.mpr ⟨hk,hi,ht,hin⟩
      have hword : c.before.word 0 i = 0 ∨ c.Released 0 := by
        by_cases hrel : c.Released 0
        · exact .inr hrel
        · rw [←hr.words 0 hl.dir_ne_zero.symm (fun k hk ht => (hl.ne_zero hk ht).symm) hrel i hi]
          exact .inl (h.zero_cleared hv hc)
      have hnamed := hspare (h.lower_zero hv hc)
      refine ⟨?_,hnamed,hword⟩
      rcases hword with h0 | hrel
      · rwa [h0,Nat.zero_div] at hnamed
      · exact .inr hrel
  · intro hf
    refine ⟨fun k hk i hi => h.pages hk hi,fun j => ⟨fun hj => ⟨h.mono hj,fun hrel =>
      h.released hrel hj⟩,fun hj => ?_⟩,fun frame hd ht hrel i hi => ?_⟩
    · by_contra hg
      obtain ⟨k,i,hv,htouch⟩ := h.upper hj.1 hg
      rcases hf.spare hv htouch with hfree | hrel
      · rw [hfree] at hj
        exact absurd hj.1 (by decide)
      · exact hj.2 hrel
    · by_cases h0 : frame = 0
      · subst h0
        by_cases hex : ∃ k,c.Visited 1024 0 k i ∧ c.Cleared k i
        · obtain ⟨k,hv,hc⟩ := hex
          obtain ⟨hk,-,htab,hin⟩ := visited_all.mp hv
          rcases (hf.past k hk i hi htab hin hc).2.2 with hzero | hrel'
          · rw [h.zero_cleared hv hc,hzero]
          · exact absurd hrel' hrel
        · exact h.zero_kept hi fun k hv hc => hex ⟨k,hv,hc⟩
      · rw [h.others hd h0 ht]

/-- The call of UnmapRange in some state. -/
def callOf (p : Kernel) (pd startVA rangeSize : ℕ) : Call :=
  { before := p.toFrames,pd := p.spaceOf pd,startVA := startVA,rangeSize := rangeSize }

/-- For every directory, memory and bitmap: UnmapRange returns, and it has
unmapped the range and nothing else exactly when the call fits. -/
theorem unmapRange_right_iff {p : Kernel} {pd startVA rangeSize : ℕ}
    (hwin : FreeWindows 512 p) (hl : (callOf p pd startVA rangeSize).Laid)
    (hw : (callOf p pd startVA rangeSize).NoWrap) :
    ∃ q,p.unmapRange pd startVA rangeSize = some q ∧
      ((callOf p pd startVA rangeSize).Right q.toFrames ↔
        (callOf p pd startVA rangeSize).Fits) := by
  obtain ⟨q,hq⟩ := unmapRange_returns hwin pd startVA rangeSize
  refine ⟨q,hq,?_⟩
  rw [(unmapRange_frames hq).1]
  exact (Loop.all hl hw).right_iff hl

/-- A directory in frame 1 whose page table in frame 2 maps its second page. -/
def onePage : Kernel :=
  { word := fun frame i =>
      if frame = 1 ∧ i = 0 then 0x2007 else if frame = 2 ∧ i = 1 then 0x3007 else 0
    bitmap := Bitmap.new 8 true
    kernel4kPT := fun _ => 0
    kernelPageDir := fun _ => 0
    cr3 := 0x1000 }

/-- The only page table is in frame 2. -/
theorem onePage_hasTable {startVA rangeSize k : ℕ}
    (ht : (callOf onePage 0x1000 startVA rangeSize).HasTable k) : k = 0 := by
  by_contra hk
  simp [Call.HasTable,callOf,onePage,pde,Kernel.spaceOf,noFrame,pageSize,hk,Present] at ht

theorem onePage_laid (startVA rangeSize : ℕ) :
    (callOf onePage 0x1000 startVA rangeSize).Laid := by
  have htable : table onePage.toFrames (onePage.spaceOf 0x1000) 0 = 2 := by decide
  have hdir : onePage.spaceOf 0x1000 / pageSize = 1 := by decide
  refine ⟨fun _ _ ht ht' _ => (onePage_hasTable ht).trans (onePage_hasTable ht').symm,
    fun _ ht => ?_,fun _ ht => ?_,fun _ ht => ?_,?_⟩
  · obtain rfl := onePage_hasTable ht
    simp only [callOf,htable]
    decide
  · obtain rfl := onePage_hasTable ht
    simp only [callOf,htable,hdir]
    decide
  · obtain rfl := onePage_hasTable ht
    simp only [callOf,htable]
    decide
  · simp only [callOf,hdir]
    decide

/-- The entries of the page table in frame 2. -/
theorem onePage_pte (startVA rangeSize i : ℕ) :
    (callOf onePage 0x1000 startVA rangeSize).pte 0 i = if i = 1 then 0x3007 else 0 := by
  simp [Call.pte,callOf,onePage,table,pde,Kernel.spaceOf,noFrame,pageSize]

/-- A range of just the mapped page fits. -/
theorem onePage_fits : (callOf onePage 0x1000 0x1000 0x1000).Fits := by
  have hin {i : ℕ} (h : (callOf onePage 0x1000 0x1000 0x1000).InRange 0 i) : i = 1 := by
    simp only [Call.InRange,callOf,largePageSize,pageSize] at h
    omega
  refine ⟨fun k hk i hi ht hr _ hp => ?_,fun k hk i hi ht hr hc => ?_⟩
  · obtain rfl := onePage_hasTable ht
    obtain rfl := hin hr
    exact absurd (by rw [onePage_pte]; decide) hp
  · obtain rfl := onePage_hasTable ht
    obtain rfl := hin hr
    obtain ⟨j,hj,hrj⟩ := hc.2.1
    have := hin hrj
    omega

/-- Unmapping just the page that is mapped is right. -/
theorem unmapRange_right_iff_exact :
    ∃ q,onePage.unmapRange 0x1000 0x1000 0x1000 = some q ∧
      (callOf onePage 0x1000 0x1000 0x1000).Right q.toFrames := by
  obtain ⟨q,hq,hiff⟩ := unmapRange_right_iff
    ⟨0,by decide,1,by decide,by decide,by decide,by decide⟩ (onePage_laid 0x1000 0x1000)
    (by decide)
  exact ⟨q,hq,hiff.mpr onePage_fits⟩

/-- With the page before it, which is not mapped, frame 0 is freed. -/
theorem frame_zero_freed :
    FreeWindows 512 onePage ∧ (callOf onePage 0x1000 0 0x2000).Laid ∧
      (callOf onePage 0x1000 0 0x2000).NoWrap ∧
      ∃ q,onePage.unmapRange 0x1000 0 0x2000 = some q ∧
        ¬(callOf onePage 0x1000 0 0x2000).Right q.toFrames := by
  have hwin : FreeWindows 512 onePage :=
    ⟨0,by decide,1,by decide,by decide,by decide,by decide⟩
  have hl := onePage_laid 0 0x2000
  have hw : (callOf onePage 0x1000 0 0x2000).NoWrap := by decide
  refine ⟨hwin,hl,hw,?_⟩
  obtain ⟨q,hq⟩ := unmapRange_returns hwin 0x1000 0 0x2000
  refine ⟨q,hq,fun hr => ?_⟩
  rw [(unmapRange_frames hq).1] at hr
  have hin : (callOf onePage 0x1000 0 0x2000).InRange 0 0 := by decide
  have hspare := ((Loop.all hl hw).right_iff hl |>.mp hr).absent 0 (by decide) 0 (by decide)
    (by decide) hin not_cleared_zero (by rw [onePage_pte]; decide)
  rw [onePage_pte,if_neg (by decide)] at hspare
  rcases hspare with hfree | ⟨k,-,i,-,ht,-,hp,heq⟩ | ⟨k,-,ht,-,heq⟩
  · exact absurd hfree (by decide)
  · obtain rfl := onePage_hasTable ht
    rw [onePage_pte] at hp heq
    by_cases hi : i = 1
    · rw [if_pos hi] at heq
      exact absurd heq (by decide)
    · rw [if_neg hi] at hp
      exact absurd hp (by decide)
  · obtain rfl := onePage_hasTable ht
    exact absurd heq (by decide)

end Correct

end WootOs.UnmapRange
