import WootOs.Paging
import WootOs.Runs

/-!
# The page map

Seen from outside, the page tables are a partial map from an address space and
a page to a frame and its rights. MapPage and UnMapPage change one page of that
map and GetPhysicalAddress reads one. Underneath, a page table is allocated
with the first page of its 4 MiB and freed with the last one.

Built says how the directories and page tables lie in memory; every call keeps
it. Only addresses below the kernel are considered, where a directory has 768
entries of its own.
-/

namespace WootOs.PageMap

open FrameBitmap FrameAllocator Paging Runs

/-- Entries of a directory below the kernel. -/
def userTables : ℕ := kernelBase / largePageSize

/-- Pages below the kernel. -/
def userPages : ℕ := kernelBase / pageSize

/-- What a page is mapped to. -/
structure Mapping where
  /-- The frame. -/
  frame : ℕ
  /-- Whether user code may access it. -/
  user : Bool
  /-- Whether it may be written. -/
  write : Bool
  deriving DecidableEq

/-- A partial map from address spaces and pages to frames. -/
def Pages : Type := ℕ → ℕ → Option Mapping

/-- The map after a change of one page. -/
def Pages.put (m : Pages) (as page : ℕ) (e : Option Mapping) : Pages :=
  fun as' page' => if as' = as ∧ page' = page then e else m as' page'

/-- The entry of a directory. -/
def pde (f : Frames) (as k : ℕ) : ℕ := f.word (as / pageSize) k

/-- The frame of a page table. -/
def table (f : Frames) (as k : ℕ) : ℕ := pde f as k / pageSize

/-- The walk that the processor makes through directory and page table. A
right counts when both entries grant it. -/
def walk (f : Frames) : Pages := fun as page =>
  if Present (pde f as (page / 1024)) then
    let pte := f.word (table f as (page / 1024)) (page % 1024)
    if Present pte then
      some
        { frame := pte / pageSize
          user := (pde f as (page / 1024)).testBit 2 && pte.testBit 2
          write := (pde f as (page / 1024)).testBit 1 && pte.testBit 1 }
    else none
  else none

/-- No page of a page table is mapped. -/
def NoPages (f : Frames) (as k : ℕ) : Prop := ∀ i < 1024,walk f as (k * 1024 + i) = none

/-- How the directories and page tables of the address spaces lie in memory. -/
structure Built (f : Frames) (spaces : List ℕ) : Prop where
  /-- Physical addresses have 32 bits. -/
  size : f.bitmap.bitCount ≤ 2 ^ 20
  /-- Directories are aligned. -/
  aligned : ∀ {as},as ∈ spaces → as % pageSize = 0
  /-- Directories are in use. -/
  used_dir : ∀ {as},as ∈ spaces → f.bitmap.getBit (as / pageSize) = true
  /-- An entry that is not present is empty. -/
  absent : ∀ {as k},as ∈ spaces → k < userTables → ¬Present (pde f as k) → pde f as k = 0
  /-- An entry that is present grants every right. -/
  rights : ∀ {as k},as ∈ spaces → k < userTables → Present (pde f as k) →
    (pde f as k).testBit 1 = true ∧ (pde f as k).testBit 2 = true
  /-- Page tables are in use. -/
  used_table : ∀ {as k},as ∈ spaces → k < userTables → Present (pde f as k) →
    f.bitmap.getBit (table f as k) = true
  /-- Page tables are no directories. -/
  table_ne_dir : ∀ {as k as'},as ∈ spaces → k < userTables → Present (pde f as k) →
    as' ∈ spaces → table f as k ≠ as' / pageSize
  /-- Page tables are different. -/
  table_inj : ∀ {as k as' k'},as ∈ spaces → k < userTables → Present (pde f as k) →
    as' ∈ spaces → k' < userTables → Present (pde f as' k') →
    table f as k = table f as' k' → as = as' ∧ k = k'
  /-- Every page table maps a page. -/
  nonempty : ∀ {as k},as ∈ spaces → k < userTables → Present (pde f as k) →
    ∃ i < 1024,Present (f.word (table f as k) i)

/-- One page of the address spaces has changed, and no other. -/
def ChangesOne (f g : Frames) (spaces : List ℕ) (as page : ℕ) (e : Option Mapping) : Prop :=
  ∀ as' ∈ spaces,∀ page' < userPages,walk g as' page' = (walk f).put as page e as' page'

/-- One frame that was free is in use, and nothing else changed in the bitmap. -/
def Allocates (f g : Frames) (t : ℕ) : Prop :=
  f.bitmap.getBit t = false ∧ ∀ j,g.bitmap.getBit j = (f.bitmap.getBit j || decide (j = t))

/-- One frame that was in use is free, and nothing else changed in the bitmap. -/
def Frees (f g : Frames) (t : ℕ) : Prop :=
  f.bitmap.getBit t = true ∧ ∀ j,g.bitmap.getBit j = (f.bitmap.getBit j && decide (j ≠ t))

section Entries

/-- An address and flags below it. -/
theorem lor_div_page {a flags : ℕ} (h : flags < pageSize) :
    (a * pageSize ||| flags) / pageSize = a := by
  have hor : (a * pageSize ||| flags) / 2 ^ 12 = a * pageSize / 2 ^ 12 ||| flags / 2 ^ 12 :=
    Nat.or_div_two_pow
  have h0 : flags / 2 ^ 12 = 0 := Nat.div_eq_of_lt h
  have ha : a * pageSize / 2 ^ 12 = a := Nat.mul_div_cancel a (by decide)
  rw [h0,ha,Nat.or_zero] at hor
  exact hor

theorem testBit_mul_page {a i : ℕ} (h : i < 12) : (a * pageSize).testBit i = false := by
  rw [show pageSize = 2 ^ 12 from rfl,Nat.testBit_mul_two_pow]
  simp [show ¬12 ≤ i by omega]

theorem present_iff_testBit {w : ℕ} : Present w ↔ w.testBit 0 = true := by
  simp [Present,Nat.testBit_zero]

/-- An entry of a page table names its frame and rights. -/
theorem leaf_spec (pa : ℕ) (user write : Bool) :
    leaf pa user write / pageSize = pa / pageSize ∧ Present (leaf pa user write) ∧
      (leaf pa user write).testBit 1 = write ∧ (leaf pa user write).testBit 2 = user := by
  have hflags : leaf pa user write = pa / pageSize * pageSize |||
      (1 ||| (if write then 2 else 0) ||| (if user then 4 else 0)) := by
    simp only [leaf,Nat.or_assoc]
  have hbit {i : ℕ} (hi : i < 12) : (leaf pa user write).testBit i =
      (1 ||| (if write then 2 else 0) ||| (if user then 4 else 0)).testBit i := by
    rw [hflags,Nat.testBit_or,testBit_mul_page hi,Bool.false_or]
  refine ⟨?_,present_iff_testBit.mpr ?_,?_,?_⟩
  · rw [hflags]
    exact lor_div_page (by cases user <;> cases write <;> decide)
  · rw [hbit (by decide)]
    cases user <;> cases write <;> decide
  · rw [hbit (by decide)]
    cases user <;> cases write <;> decide
  · rw [hbit (by decide)]
    cases user <;> cases write <;> decide

/-- An entry of a directory names its page table and grants every right. -/
theorem lor_seven_spec (t : ℕ) : (t * pageSize ||| 7) / pageSize = t ∧
    Present (t * pageSize ||| 7) ∧ (t * pageSize ||| 7).testBit 1 = true ∧
      (t * pageSize ||| 7).testBit 2 = true := by
  refine ⟨lor_div_page (by decide),present_iff_testBit.mpr ?_,?_,?_⟩
  all_goals rw [Nat.testBit_or,testBit_mul_page (by decide)]; decide

/-- The loop over a page table finds no page. -/
theorem tableEmpty_iff {words : ℕ → ℕ} :
    tableEmpty words = true ↔ ∀ i < 1024,¬Present (words i) := by
  simp [tableEmpty]

theorem not_present_zero : ¬Present 0 := by decide

theorem vacant_zero : Vacant 0 := by decide

end Entries

section Change

variable {f g : Frames} {spaces : List ℕ} {as as' k k' page i w : ℕ}

/-- Two memories agree on every page table but one, and on every directory
but for the entry of that one. -/
structure Elsewhere (f g : Frames) (spaces : List ℕ) (as k : ℕ) : Prop where
  /-- There are as many frames. -/
  bitCount : g.bitmap.bitCount = f.bitmap.bitCount
  /-- The directories are in use. -/
  dirs : ∀ {as'},as' ∈ spaces → g.bitmap.getBit (as' / pageSize) = true
  /-- The other entries are the same. -/
  entry : ∀ {as' k'},as' ∈ spaces → k' < userTables → ¬(as' = as ∧ k' = k) →
    pde g as' k' = pde f as' k'
  /-- The other page tables are the same. -/
  words : ∀ {as' k'},as' ∈ spaces → k' < userTables → ¬(as' = as ∧ k' = k) →
    Present (pde f as' k') → g.word (table f as' k') = f.word (table f as' k')
  /-- The other page tables are in use. -/
  used : ∀ {as' k'},as' ∈ spaces → k' < userTables → ¬(as' = as ∧ k' = k) →
    Present (pde f as' k') → g.bitmap.getBit (table f as' k') = true

/-- A page table of an address space is right beside the others. -/
structure Own (f g : Frames) (spaces : List ℕ) (as k : ℕ) : Prop where
  /-- Its entry is present. -/
  present : Present (pde g as k)
  /-- Its entry grants every right. -/
  rights : (pde g as k).testBit 1 = true ∧ (pde g as k).testBit 2 = true
  /-- It is in use. -/
  used : g.bitmap.getBit (table g as k) = true
  /-- It is no directory. -/
  ne_dir : ∀ {as'},as' ∈ spaces → table g as k ≠ as' / pageSize
  /-- It is no other page table. -/
  ne_table : ∀ {as' k'},as' ∈ spaces → k' < userTables → ¬(as' = as ∧ k' = k) →
    Present (pde f as' k') → table f as' k' ≠ table g as k
  /-- It maps a page. -/
  nonempty : ∃ i < 1024,Present (g.word (table g as k) i)

theorem Elsewhere.table (h : Elsewhere f g spaces as k) (hs : as' ∈ spaces) (hk : k' < userTables)
    (hne : ¬(as' = as ∧ k' = k)) : PageMap.table g as' k' = PageMap.table f as' k' := by
  rw [PageMap.table,h.entry hs hk hne,PageMap.table]

/-- A change of one page table keeps the others as they are, and the whole
when the changed one is right. -/
theorem Built.change (h : Built f spaces) (he : Elsewhere f g spaces as k)
    (hown : pde g as k = 0 ∨ Own f g spaces as k) : Built g spaces := by
  have hzero {as' k'} (hp : Present (pde g as' k')) (heq : as' = as ∧ k' = k) :
      Own f g spaces as k := by
    rcases hown with h0 | hown
    · rw [heq.1,heq.2,h0] at hp
      exact absurd hp not_present_zero
    · exact hown
  refine ⟨by rw [he.bitCount]; exact h.size,h.aligned,he.dirs,?_,?_,?_,?_,?_,?_⟩
  · intro as' k' hs hk hp
    by_cases heq : as' = as ∧ k' = k
    · rw [heq.1,heq.2] at hp ⊢
      rcases hown with h0 | hown
      · exact h0
      · exact absurd hown.present hp
    · rw [he.entry hs hk heq] at hp ⊢
      exact h.absent hs hk hp
  · intro as' k' hs hk hp
    by_cases heq : as' = as ∧ k' = k
    · rw [heq.1,heq.2]
      exact (hzero hp heq).rights
    · rw [he.entry hs hk heq] at hp ⊢
      exact h.rights hs hk hp
  · intro as' k' hs hk hp
    by_cases heq : as' = as ∧ k' = k
    · rw [heq.1,heq.2]
      exact (hzero hp heq).used
    · rw [he.entry hs hk heq] at hp
      rw [he.table hs hk heq]
      exact he.used hs hk heq hp
  · intro as' k' as'' hs hk hp hs'
    by_cases heq : as' = as ∧ k' = k
    · rw [heq.1,heq.2]
      exact (hzero hp heq).ne_dir hs'
    · rw [he.entry hs hk heq] at hp
      rw [he.table hs hk heq]
      exact h.table_ne_dir hs hk hp hs'
  · intro as₁ k₁ as₂ k₂ hs₁ hk₁ hp₁ hs₂ hk₂ hp₂ heq
    by_cases h₁ : as₁ = as ∧ k₁ = k
    · by_cases h₂ : as₂ = as ∧ k₂ = k
      · exact ⟨h₁.1.trans h₂.1.symm,h₁.2.trans h₂.2.symm⟩
      · rw [h₁.1,h₁.2,he.table hs₂ hk₂ h₂] at heq
        rw [he.entry hs₂ hk₂ h₂] at hp₂
        exact absurd heq.symm ((hzero hp₁ h₁).ne_table hs₂ hk₂ h₂ hp₂)
    · rw [he.table hs₁ hk₁ h₁] at heq
      rw [he.entry hs₁ hk₁ h₁] at hp₁
      by_cases h₂ : as₂ = as ∧ k₂ = k
      · rw [h₂.1,h₂.2] at heq
        exact absurd heq ((hzero hp₂ h₂).ne_table hs₁ hk₁ h₁ hp₁)
      · rw [he.table hs₂ hk₂ h₂] at heq
        rw [he.entry hs₂ hk₂ h₂] at hp₂
        exact h.table_inj hs₁ hk₁ hp₁ hs₂ hk₂ hp₂ heq
  · intro as' k' hs hk hp
    by_cases heq : as' = as ∧ k' = k
    · rw [heq.1,heq.2]
      exact (hzero hp heq).nonempty
    · rw [he.entry hs hk heq] at hp
      rw [he.table hs hk heq,he.words hs hk heq hp]
      exact h.nonempty hs hk hp

/-- The pages of the other page tables are the same. -/
theorem Elsewhere.walk (he : Elsewhere f g spaces as k) (hs : as' ∈ spaces)
    (hp : page < userPages) (hne : ¬(as' = as ∧ page / 1024 = k)) :
    PageMap.walk g as' page = PageMap.walk f as' page := by
  have hk : page / 1024 < userTables := by
    simp only [userPages,userTables,kernelBase,largePageSize,pageSize] at hp ⊢
    omega
  simp only [PageMap.walk,he.table hs hk hne,he.entry hs hk hne]
  by_cases h₁ : Present (pde f as' (page / 1024))
  · rw [if_pos h₁,if_pos h₁,he.words hs hk hne h₁]
  · rw [if_neg h₁,if_neg h₁]

/-- The word of a frame after a write. -/
theorem word_write (f : Frames) (frame i w frame' i' : ℕ) :
    (f.write frame i w).word frame' i' =
      if frame' = frame ∧ i' = i then w else f.word frame' i' := by
  simp only [Frames.write,Function.update_apply]
  split_ifs <;> grind

/-- A write into another frame leaves a frame. -/
theorem word_write_of_ne {frame frame' : ℕ} (h : frame' ≠ frame) :
    (f.write frame i w).word frame' = f.word frame' := by
  funext j
  rw [word_write,if_neg fun hc => h hc.1]

theorem word_clear_of_ne {frame frame' : ℕ} (h : frame' ≠ frame) :
    (f.clear frame).word frame' = f.word frame' := by
  simp [Frames.clear,h]

@[simp] theorem bitmap_write {frame : ℕ} : (f.write frame i w).bitmap = f.bitmap := rfl

@[simp] theorem bitmap_clear {frame : ℕ} : (f.clear frame).bitmap = f.bitmap := rfl

@[simp] theorem word_free {pa : ℕ} : (f.free pa).word = f.word := rfl

/-- The page tables depend on the directories and on themselves. -/
theorem Built.congr (h : Built f spaces) (hcount : g.bitmap.bitCount = f.bitmap.bitCount)
    (hpde : ∀ as ∈ spaces,∀ k,pde g as k = pde f as k)
    (hbits : ∀ j,f.bitmap.getBit j = true → g.bitmap.getBit j = true)
    (hwords : ∀ as ∈ spaces,∀ k < userTables,Present (pde f as k) →
      g.word (table f as k) = f.word (table f as k)) : Built g spaces := by
  have htable : ∀ as ∈ spaces,∀ k,table g as k = table f as k := by
    intro as hs k
    rw [PageMap.table,hpde as hs,PageMap.table]
  refine ⟨hcount ▸ h.size,h.aligned,fun hs => hbits _ (h.used_dir hs),?_,?_,?_,?_,?_,?_⟩
  · intro as k hs hk hp
    rw [hpde as hs] at hp ⊢
    exact h.absent hs hk hp
  · intro as k hs hk hp
    rw [hpde as hs] at hp ⊢
    exact h.rights hs hk hp
  · intro as k hs hk hp
    rw [hpde as hs] at hp
    rw [htable as hs]
    exact hbits _ (h.used_table hs hk hp)
  · intro as k as' hs hk hp hs'
    rw [hpde as hs] at hp
    rw [htable as hs]
    exact h.table_ne_dir hs hk hp hs'
  · intro as k as' k' hs hk hp hs' hk' hp' heq
    rw [hpde as hs] at hp
    rw [hpde as' hs'] at hp'
    rw [htable as hs,htable as' hs'] at heq
    exact h.table_inj hs hk hp hs' hk' hp' heq
  · intro as k hs hk hp
    rw [hpde as hs] at hp
    rw [htable as hs,hwords as hs k hk hp]
    exact h.nonempty hs hk hp

/-- Directories are different frames. -/
theorem Built.dir_inj (h : Built f spaces) (hs : as ∈ spaces) (hs' : as' ∈ spaces)
    (heq : as / pageSize = as' / pageSize) : as = as' := by
  have ha := h.aligned hs
  have ha' := h.aligned hs'
  simp only [pageSize] at ha ha' heq
  omega

section Write

variable (h : Built f spaces) (hs : as ∈ spaces) (hk : k < userTables)
  (hp : Present (pde f as k))

include h hs hk hp

/-- A write into a page table leaves the others and the directories. -/
theorem elsewhere_write (i w : ℕ) :
    Elsewhere f (f.write (table f as k) i w) spaces as k := by
  refine ⟨rfl,h.used_dir,fun {as' k'} hs' hk' hne => ?_,fun {as' k'} hs' hk' hne hp' => ?_,
    fun hs' hk' _ hp' => h.used_table hs' hk' hp'⟩
  · rw [pde,word_write_of_ne (h.table_ne_dir hs hk hp hs').symm,pde]
  · refine word_write_of_ne fun heq => ?_
    exact hne (h.table_inj hs' hk' hp' hs hk hp heq)

/-- A write into a page table leaves its own entry. -/
theorem pde_write (i w : ℕ) : pde (f.write (table f as k) i w) as k = pde f as k := by
  rw [pde,word_write_of_ne (h.table_ne_dir hs hk hp hs).symm,pde]

/-- A page table that maps a page after a write is right. -/
theorem own_write {j : ℕ} (hj : j < 1024)
    (hpj : Present ((f.write (table f as k) i w).word (table f as k) j)) :
    Own f (f.write (table f as k) i w) spaces as k := by
  have hpde := pde_write h hs hk hp i w
  have htable : table (f.write (table f as k) i w) as k = table f as k := by
    rw [table,hpde,table]
  refine ⟨by rwa [hpde],by rw [hpde]; exact h.rights hs hk hp,?_,?_,?_,?_⟩
  · rw [htable]
    exact h.used_table hs hk hp
  · intro as' hs'
    rw [htable]
    exact h.table_ne_dir hs hk hp hs'
  · intro as' k' hs' hk' hne hp' heq
    rw [htable] at heq
    exact hne (h.table_inj hs' hk' hp' hs hk hp heq)
  · rw [htable]
    exact ⟨j,hj,hpj⟩

/-- The pages of a page table after a write. -/
theorem walk_write (hpage : page / 1024 = k) :
    walk (f.write (table f as k) i w) as page =
      if page % 1024 = i then
        if Present w then some ⟨w / pageSize,w.testBit 2,w.testBit 1⟩ else none
      else walk f as page := by
  obtain ⟨hr₁,hr₂⟩ := h.rights hs hk hp
  have hpde := pde_write h hs hk hp i w
  simp only [walk,table,hpage,hpde] at hpde ⊢
  rw [if_pos hp,if_pos hp,word_write]
  by_cases hi : page % 1024 = i
  · simp [hi,hr₁,hr₂]
  · simp [hi]

end Write

/-- A frame in use is not a free one. -/
theorem ne_of_free {b : Bitmap} {t t' : ℕ} (hfree : b.getBit t = false)
    (hused : b.getBit t' = true) : t' ≠ t := by
  rintro rfl
  rw [hused] at hfree
  cases hfree

/-- A free frame has become a page table with one word, and nothing else
changed. -/
structure NewTable (f g : Frames) (as k t i w : ℕ) : Prop where
  /-- The frame was free. -/
  free : f.bitmap.getBit t = false
  /-- There are as many frames. -/
  bitCount : g.bitmap.bitCount = f.bitmap.bitCount
  /-- The frame is in use. -/
  bit : ∀ j,g.bitmap.getBit j = (f.bitmap.getBit j || decide (j = t))
  /-- The words of the page table and its entry. -/
  word : ∀ d j,g.word d j = if d = t then (if j = i then w else 0)
    else if d = as / pageSize ∧ j = k then t * pageSize ||| 7 else f.word d j

namespace NewTable

variable {t : ℕ} (hn : NewTable f g as k t i w) (h : Built f spaces) (hs : as ∈ spaces)

include hn h hs

/-- The entries of the directories. -/
theorem pde_eq (hs' : as' ∈ spaces) (k' : ℕ) :
    pde g as' k' = if as' = as ∧ k' = k then t * pageSize ||| 7 else pde f as' k' := by
  rw [pde,hn.word,if_neg (ne_of_free hn.free (h.used_dir hs')),pde]
  by_cases heq : as' = as
  · simp [heq]
  · rw [if_neg fun hc => heq (h.dir_inj hs' hs hc.1),if_neg fun hc => heq hc.1]

/-- The entry of the page table. -/
theorem pde_self : pde g as k = t * pageSize ||| 7 := by
  rw [hn.pde_eq h hs hs,if_pos ⟨rfl,rfl⟩]

/-- The frame of the page table. -/
theorem table_self : table g as k = t := by
  rw [table,hn.pde_self h hs]
  exact (lor_seven_spec t).1

/-- The other page tables are as before. -/
theorem elsewhere : Elsewhere f g spaces as k := by
  refine ⟨hn.bitCount,fun hs' => ?_,fun {as' k'} hs' _ hne => ?_,
    fun {as' k'} hs' hk' _ hp' => ?_,fun hs' hk' _ hp' => ?_⟩
  · rw [hn.bit,h.used_dir hs',Bool.true_or]
  · rw [hn.pde_eq h hs hs',if_neg hne]
  · funext j
    rw [hn.word,if_neg (ne_of_free hn.free (h.used_table hs' hk' hp')),
      if_neg fun hc => h.table_ne_dir hs' hk' hp' hs hc.1]
  · rw [hn.bit,h.used_table hs' hk' hp',Bool.true_or]

/-- A new page table with a page is right. -/
theorem own (hi : i < 1024) (hw : Present w) : Own f g spaces as k := by
  have hpde := hn.pde_self h hs
  have htable := hn.table_self h hs
  obtain ⟨-,hpres,hr₁,hr₂⟩ := lor_seven_spec t
  refine ⟨by rwa [hpde],by rw [hpde]; exact ⟨hr₁,hr₂⟩,?_,?_,?_,i,hi,?_⟩
  · rw [htable,hn.bit,decide_eq_true rfl,Bool.or_true]
  · intro as' hs'
    rw [htable]
    exact (ne_of_free hn.free (h.used_dir hs')).symm
  · intro as' k' hs' hk' _ hp'
    rw [htable]
    exact ne_of_free hn.free (h.used_table hs' hk' hp')
  · rw [htable,hn.word,if_pos rfl,if_pos rfl]
    exact hw

/-- The pages of a new page table. -/
theorem walk_self (hpage : page / 1024 = k) (hw : Present w) : walk g as page =
    if page % 1024 = i then some ⟨w / pageSize,w.testBit 2,w.testBit 1⟩ else none := by
  obtain ⟨-,hpres,hr₁,hr₂⟩ := lor_seven_spec t
  simp only [walk,hpage,hn.pde_self h hs,hn.table_self h hs]
  rw [if_pos hpres,hn.word,if_pos rfl]
  by_cases hi : page % 1024 = i
  · simp [hi,hr₁,hr₂,hw]
  · simp [hi,not_present_zero]

end NewTable

/-- A page table is freed, its entry is cleared and one of its words, and
nothing else changed. -/
structure DroppedTable (f g : Frames) (as k i : ℕ) : Prop where
  /-- There are as many frames. -/
  bitCount : g.bitmap.bitCount = f.bitmap.bitCount
  /-- The frame of the page table is free. -/
  bit : ∀ j,g.bitmap.getBit j = (f.bitmap.getBit j && decide (j ≠ table f as k))
  /-- The entry and the word are cleared. -/
  word : ∀ d j,g.word d j = if d = as / pageSize ∧ j = k then 0
    else if d = table f as k ∧ j = i then 0 else f.word d j

namespace DroppedTable

variable (hd : DroppedTable f g as k i) (h : Built f spaces) (hs : as ∈ spaces)
  (hk : k < userTables) (hp : Present (pde f as k))

include hd h hs hk hp

/-- The other page tables are as before. -/
theorem elsewhere : Elsewhere f g spaces as k := by
  refine ⟨hd.bitCount,fun hs' => ?_,fun {as' k'} hs' hk' hne => ?_,
    fun {as' k'} hs' hk' hne hp' => ?_,fun {as' k'} hs' hk' hne hp' => ?_⟩
  · rw [hd.bit,h.used_dir hs',decide_eq_true (h.table_ne_dir hs hk hp hs').symm,Bool.true_and]
  · rw [pde,hd.word,if_neg fun hc => hne ⟨h.dir_inj hs' hs hc.1,hc.2⟩,
      if_neg fun hc => h.table_ne_dir hs hk hp hs' hc.1.symm,pde]
  · funext j
    rw [hd.word,if_neg fun hc => h.table_ne_dir hs' hk' hp' hs hc.1,
      if_neg fun hc => hne (h.table_inj hs' hk' hp' hs hk hp hc.1)]
  · have hother : table f as' k' ≠ table f as k := fun heq =>
      hne (h.table_inj hs' hk' hp' hs hk hp heq)
    rw [hd.bit,h.used_table hs' hk' hp',decide_eq_true hother,Bool.true_and]

omit h hs hk hp in
/-- The entry is empty. -/
theorem pde_self : pde g as k = 0 := by
  rw [pde,hd.word,if_pos ⟨rfl,rfl⟩]

omit h hs hk hp in
/-- No page is mapped. -/
theorem walk_self (hpage : page / 1024 = k) : walk g as page = none := by
  simp only [walk,hpage,hd.pde_self]
  rw [if_neg not_present_zero]

end DroppedTable

end Change

section Calls

variable {f : Frames} {spaces : List ℕ} {as as' k va pa page : ℕ} {user write : Bool}

/-- The indexes of an address below the kernel. -/
theorem indexes_of_va (hva : va < kernelBase) :
    va / largePageSize < userTables ∧ va / pageSize < userPages ∧
      va / pageSize / 1024 = va / largePageSize ∧ va / pageSize % 1024 < 1024 := by
  simp only [userPages,userTables,kernelBase,largePageSize,pageSize] at hva ⊢
  omega

/-- An address space has no page in a page table exactly when there is none. -/
theorem Built.noPages_iff (h : Built f spaces) (hs : as ∈ spaces) (hk : k < userTables) :
    NoPages f as k ↔ ¬Present (pde f as k) := by
  constructor
  · intro hno hp
    obtain ⟨i,hi,hpi⟩ := h.nonempty hs hk hp
    have hwalk := hno i hi
    have hdiv : (k * 1024 + i) / 1024 = k := by omega
    have hmod : (k * 1024 + i) % 1024 = i := by omega
    simp [walk,hdiv,hmod,hp,hpi] at hwalk
  · intro hp i hi
    have hdiv : (k * 1024 + i) / 1024 = k := by omega
    simp [walk,hdiv,hp]

/-- Without a page table there is no page. -/
theorem walk_of_not_present (hpage : page / 1024 = k) (hp : ¬Present (pde f as k)) :
    walk f as page = none := by
  simp [walk,hpage,hp]

/-- MapPage finds no frame for a page table, or makes one, or writes into the
one there is. -/
theorem mapPage_cases (h : Built f spaces) (hs : as ∈ spaces) (hva : va < kernelBase) :
    (¬Present (pde f as (va / largePageSize)) ∧
        (∀ j < f.bitmap.bitCount,f.bitmap.getBit j = true) ∧
        f.mapPage as va pa user write = (false,f)) ∨
      (∃ g t,¬Present (pde f as (va / largePageSize)) ∧
        f.mapPage as va pa user write = (true,g) ∧
        NewTable f g as (va / largePageSize) t (va / pageSize % 1024) (leaf pa user write)) ∨
      (Present (pde f as (va / largePageSize)) ∧
        f.mapPage as va pa user write =
          (true,f.write (table f as (va / largePageSize)) (va / pageSize % 1024)
            (leaf pa user write))) := by
  obtain ⟨hk,-,-,-⟩ := indexes_of_va hva
  by_cases hp : Present (pde f as (va / largePageSize))
  · have hold : ¬Vacant (f.word (as / pageSize) (va / largePageSize)) := fun hv => hv.2 hp
    exact .inr (.inr ⟨hp,by simp only [Frames.mapPage,if_neg hold]; rfl⟩)
  · have h0 := h.absent hs hk hp
    have hnew : Vacant (f.word (as / pageSize) (va / largePageSize)) := by
      have hzero : f.word (as / pageSize) (va / largePageSize) = 0 := h0
      rw [hzero]
      exact vacant_zero
    rcases allocFrame_spec h.size with ⟨hrun,hall⟩ | ⟨t,hlt,hclear,-,hfst,hsnd⟩
    · refine .inl ⟨hp,hall,?_⟩
      simp only [Frames.mapPage,if_pos hnew,hrun,if_true]
    · obtain ⟨-,hne,hdiv⟩ := frame_address h.size hlt
      have hrun : f.mapPage as va pa user write =
          (true,((({ f with bitmap := markFrom f.bitmap t 1 }.clear t).write (as / pageSize)
            (va / largePageSize) (t * pageSize ||| 7)).write t (va / pageSize % 1024)
              (leaf pa user write))) := by
        simp only [Frames.mapPage,if_pos hnew,hfst,hsnd,if_neg hne,hdiv]
      refine .inr (.inl ⟨_,t,hp,hrun,hclear,by simp,fun j => ?_,fun d j => ?_⟩)
      · have hiff : (t ≤ j ∧ j < t + 1) ↔ j = t := by omega
        simp only [bitmap_write,bitmap_clear]
        rw [getBit_markFrom 1 (by omega),decide_eq_decide.mpr hiff]
      · have hdir : as / pageSize ≠ t := ne_of_free hclear (h.used_dir hs)
        simp only [word_write]
        by_cases hd : d = t
        · simp [hd,hdir.symm,Frames.clear]
        · simp [hd,Frames.clear]

/-- The page map after a change of one page table that changes one page of it. -/
theorem Elsewhere.changesOne {g : Frames} {e : Option Mapping}
    (he : Elsewhere f g spaces as (va / largePageSize)) (hva : va < kernelBase)
    (hwalk : ∀ page,page / 1024 = va / largePageSize → PageMap.walk g as page =
      if page % 1024 = va / pageSize % 1024 then e else PageMap.walk f as page) :
    ChangesOne f g spaces as (va / pageSize) e := by
  obtain ⟨-,-,hdiv,-⟩ := indexes_of_va hva
  intro as' hs' page hpage
  rw [Pages.put]
  by_cases hin : as' = as ∧ page / 1024 = va / largePageSize
  · obtain ⟨rfl,hk⟩ := hin
    rw [hwalk page hk]
    by_cases hi : page % 1024 = va / pageSize % 1024
    · rw [if_pos hi,if_pos ⟨rfl,by omega⟩]
    · rw [if_neg hi,if_neg fun hc => hi (by rw [hc.2])]
  · rw [he.walk hs' hpage hin,if_neg fun hc => hin ⟨hc.1,by rw [hc.2,hdiv]⟩]

/-- What MapPage does to the page map and to the bitmap. -/
theorem mapPage_right (h : Built f spaces) (hs : as ∈ spaces) (hva : va < kernelBase) {r : Bool}
    {g : Frames} (hrun : f.mapPage as va pa user write = (r,g)) :
    Built g spaces ∧ (r = false → g = f) ∧
      (r = true →
        ChangesOne f g spaces as (va / pageSize) (some ⟨pa / pageSize,user,write⟩) ∧
        (NoPages f as (va / largePageSize) → Allocates f g (table g as (va / largePageSize))) ∧
        (¬NoPages f as (va / largePageSize) → g.bitmap = f.bitmap)) := by
  obtain ⟨hk,-,hdiv,hi⟩ := indexes_of_va hva
  obtain ⟨hframe,hpres,hwrite,huser⟩ := leaf_spec pa user write
  rcases mapPage_cases h hs hva with ⟨-,-,hr⟩ | ⟨g',t,hp,hr,hn⟩ | ⟨hp,hr⟩
  · obtain ⟨rfl,rfl⟩ := Prod.mk.inj (hrun.symm.trans hr)
    exact ⟨h,fun _ => rfl,fun hc => by cases hc⟩
  · obtain ⟨rfl,rfl⟩ := Prod.mk.inj (hrun.symm.trans hr)
    have he := hn.elsewhere h hs
    refine ⟨h.change he (.inr (hn.own h hs hi hpres)),fun hc => absurd hc (by decide),fun _ => ⟨?_,?_,?_⟩⟩
    · refine he.changesOne hva fun page hpage => ?_
      rw [hn.walk_self h hs hpage hpres,hframe,hwrite,huser,walk_of_not_present hpage hp]
    · intro _
      rw [hn.table_self h hs]
      exact ⟨hn.free,hn.bit⟩
    · exact fun hno => absurd ((h.noPages_iff hs hk).mpr hp) hno
  · obtain ⟨rfl,rfl⟩ := Prod.mk.inj (hrun.symm.trans hr)
    have he := elsewhere_write h hs hk hp (va / pageSize % 1024) (leaf pa user write)
    have hown := own_write h hs hk hp hi
      (show Present ((f.write (table f as (va / largePageSize)) (va / pageSize % 1024)
        (leaf pa user write)).word (table f as (va / largePageSize)) (va / pageSize % 1024)) by
          rw [word_write,if_pos ⟨rfl,rfl⟩]
          exact hpres)
    refine ⟨h.change he (.inr hown),fun hc => absurd hc (by decide),fun _ => ⟨?_,?_,fun _ => rfl⟩⟩
    · refine he.changesOne hva fun page hpage => ?_
      rw [walk_write h hs hk hp hpage,if_pos hpres,hframe,hwrite,huser]
    · exact fun hno => absurd hp ((h.noPages_iff hs hk).mp hno)

/-- UnMapPage in terms of directory entries and page tables. -/
theorem unMapPage_eq : f.unMapPage as va =
    if ¬Present (pde f as (va / largePageSize)) then (false,f)
    else if ¬Present (f.word (table f as (va / largePageSize)) (va / pageSize % 1024)) then (false,f)
    else if tableEmpty ((f.write (table f as (va / largePageSize)) (va / pageSize % 1024) 0).word
        (table f as (va / largePageSize))) ∧ va / pageSize * pageSize < kernelBase then
      (true,((f.write (table f as (va / largePageSize)) (va / pageSize % 1024) 0).free
        (table f as (va / largePageSize) * pageSize)).write (as / pageSize) (va / largePageSize) 0)
    else (true,f.write (table f as (va / largePageSize)) (va / pageSize % 1024) 0) := rfl

/-- UnMapPage finds no page, or clears its word, or drops the page table with
its last page. -/
theorem unMapPage_cases (hva : va < kernelBase) :
    (walk f as (va / pageSize) = none ∧ f.unMapPage as va = (false,f)) ∨
      ((walk f as (va / pageSize)).isSome ∧ Present (pde f as (va / largePageSize)) ∧
        ((∃ j < 1024,Present ((f.write (table f as (va / largePageSize)) (va / pageSize % 1024)
            0).word (table f as (va / largePageSize)) j) ∧
            f.unMapPage as va = (true,f.write (table f as (va / largePageSize))
              (va / pageSize % 1024) 0)) ∨
          ((∀ j < 1024,¬Present ((f.write (table f as (va / largePageSize)) (va / pageSize % 1024)
            0).word (table f as (va / largePageSize)) j)) ∧
            ∃ g,f.unMapPage as va = (true,g) ∧
              DroppedTable f g as (va / largePageSize) (va / pageSize % 1024)))) := by
  obtain ⟨hk,-,hdiv,hi⟩ := indexes_of_va hva
  have hbelow : va / pageSize * pageSize < kernelBase :=
    lt_of_le_of_lt (Nat.div_mul_le_self va pageSize) hva
  by_cases hp : Present (pde f as (va / largePageSize))
  · by_cases hpte : Present (f.word (table f as (va / largePageSize)) (va / pageSize % 1024))
    · refine .inr ⟨by simp [walk,hdiv,hp,hpte],hp,?_⟩
      by_cases hempty : tableEmpty ((f.write (table f as (va / largePageSize))
          (va / pageSize % 1024) 0).word (table f as (va / largePageSize))) = true
      · have hrun := @unMapPage_eq f as va
        rw [if_neg (not_not_intro hp),if_neg (not_not_intro hpte),if_pos ⟨hempty,hbelow⟩] at hrun
        refine .inr ⟨fun j hj => tableEmpty_iff.mp hempty j hj,_,hrun,?_,fun j => ?_,fun d j => ?_⟩
        · exact freeFrame_bitCount _
        · simp only [bitmap_write,Frames.free]
          rw [getBit_freeFrame,Nat.mul_div_cancel _ (by decide : 0 < pageSize)]
        · rw [word_write,word_free,word_write]
      · have hsome : ∃ j < 1024,Present ((f.write (table f as (va / largePageSize))
            (va / pageSize % 1024) 0).word (table f as (va / largePageSize)) j) := by
          by_contra hno
          exact hempty (tableEmpty_iff.mpr fun j hj hpj => hno ⟨j,hj,hpj⟩)
        obtain ⟨j,hj,hpj⟩ := hsome
        refine .inl ⟨j,hj,hpj,?_⟩
        rw [unMapPage_eq,if_neg (not_not_intro hp),if_neg (not_not_intro hpte),
          if_neg fun hc => hempty hc.1]
    · refine .inl ⟨by simp [walk,hdiv,hp,hpte],?_⟩
      rw [unMapPage_eq,if_neg (not_not_intro hp),if_pos hpte]
  · refine .inl ⟨walk_of_not_present hdiv hp,?_⟩
    rw [unMapPage_eq,if_pos hp]

/-- What UnMapPage does to the page map and to the bitmap. -/
theorem unMapPage_right (h : Built f spaces) (hs : as ∈ spaces) (hva : va < kernelBase) {r : Bool}
    {g : Frames} (hrun : f.unMapPage as va = (r,g)) :
    Built g spaces ∧ (r = true ↔ (walk f as (va / pageSize)).isSome) ∧
      ChangesOne f g spaces as (va / pageSize) none ∧
      (r = true ∧ NoPages g as (va / largePageSize) →
        Frees f g (table f as (va / largePageSize))) ∧
      (¬(r = true ∧ NoPages g as (va / largePageSize)) → g.bitmap = f.bitmap) := by
  obtain ⟨hk,-,hdiv,hi⟩ := indexes_of_va hva
  rcases @unMapPage_cases f as va hva with ⟨hnone,hr⟩ | ⟨hsome,hp,⟨j,hj,hpj,hr⟩ | ⟨hempty,g',hr,hd⟩⟩
  · obtain ⟨rfl,rfl⟩ := Prod.mk.inj (hrun.symm.trans hr)
    refine ⟨h,by simp [hnone],fun as' hs' page' hpage' => ?_,fun hc => absurd hc.1 (by decide),
      fun _ => rfl⟩
    rw [Pages.put]
    split_ifs with heq
    · rw [heq.1,heq.2,hnone]
    · rfl
  · obtain ⟨rfl,rfl⟩ := Prod.mk.inj (hrun.symm.trans hr)
    have he := elsewhere_write h hs hk hp (va / pageSize % 1024) 0
    have hbuilt := h.change he (.inr (own_write h hs hk hp hj hpj))
    have hpages : ¬NoPages (f.write (table f as (va / largePageSize)) (va / pageSize % 1024) 0) as
        (va / largePageSize) := by
      rw [hbuilt.noPages_iff hs hk,pde_write h hs hk hp]
      exact not_not_intro hp
    refine ⟨hbuilt,by simp [hsome],?_,fun hc => absurd hc.2 hpages,fun _ => rfl⟩
    refine he.changesOne hva fun page hpage => ?_
    rw [walk_write h hs hk hp hpage,if_neg not_present_zero]
  · obtain ⟨rfl,rfl⟩ := Prod.mk.inj (hrun.symm.trans hr)
    have he := hd.elsewhere h hs hk hp
    have hbuilt := h.change he (.inl hd.pde_self)
    have hpages : NoPages g as (va / largePageSize) := by
      rw [hbuilt.noPages_iff hs hk,hd.pde_self]
      exact not_present_zero
    refine ⟨hbuilt,by simp [hsome],?_,fun _ => ⟨h.used_table hs hk hp,hd.bit⟩,
      fun hc => absurd ⟨rfl,hpages⟩ hc⟩
    refine he.changesOne hva fun page hpage => ?_
    rw [hd.walk_self hpage]
    split_ifs with hin
    · rfl
    · have hword := hempty (page % 1024) (Nat.mod_lt _ (by decide))
      rw [word_write,if_neg fun hc => hin hc.2] at hword
      simp [walk,hpage,hword]

/-- GetPhysicalAddress reads the page map. -/
theorem getPhysicalAddress_eq (va : ℕ) : f.getPhysicalAddress as va =
    match walk f as (va / pageSize) with
    | some e => (e.frame * pageSize + va % pageSize) % 2 ^ 32
    | none => noFrame := by
  have hdiv : va / pageSize / 1024 = va / largePageSize := by
    simp only [pageSize,largePageSize]
    omega
  have hrun : f.getPhysicalAddress as va =
      if ¬Present (pde f as (va / largePageSize)) then noFrame
      else if ¬Present (f.word (table f as (va / largePageSize)) (va / pageSize % 1024)) then noFrame
      else (f.word (table f as (va / largePageSize)) (va / pageSize % 1024) / pageSize * pageSize +
        va % pageSize) % 2 ^ 32 := rfl
  rw [hrun]
  simp only [walk,hdiv]
  by_cases hp : Present (pde f as (va / largePageSize))
  · by_cases hpte : Present (f.word (table f as (va / largePageSize)) (va / pageSize % 1024))
    · simp [hp,hpte]
    · simp [hp,hpte]
  · simp [hp]

/-- A new directory in a free frame. -/
theorem build_right {b : Bitmap} {kernelPageDir : ℕ → ℕ} {t : ℕ} {g : Frames}
    (h : Built f spaces) (hfree : f.bitmap.getBit t = false)
    (hcount : b.bitCount = f.bitmap.bitCount)
    (hbit : ∀ j,b.getBit j = (f.bitmap.getBit j || decide (j = t)))
    (hg : { f with bitmap := b }.buildAddressSpace kernelPageDir (t * pageSize) = g) :
    Built g (t * pageSize :: spaces) ∧ t * pageSize ∉ spaces ∧
      (∀ as' ∈ spaces,∀ page < userPages,walk g as' page = walk f as' page) ∧
      ∀ page < userPages,walk g (t * pageSize) page = none := by
  have hdiv : t * pageSize / pageSize = t := Nat.mul_div_cancel t (by decide)
  have hbitmap : g.bitmap = b := by rw [←hg]; rfl
  have hnot : t * pageSize ∉ spaces := by
    intro hs
    have hused := h.used_dir hs
    rw [hdiv,hfree] at hused
    cases hused
  have hself {k : ℕ} (hk : k < userTables) : pde g (t * pageSize) k = 0 := by
    have hk' : ¬kernelBase / largePageSize ≤ k := by
      rw [userTables] at hk
      omega
    simp [pde,←hg,Frames.buildAddressSpace,hk']
  have hother {frame : ℕ} (hused : f.bitmap.getBit frame = true) :
      g.word frame = f.word frame := by
    have hne : frame ≠ t := ne_of_free hfree hused
    simp [←hg,Frames.buildAddressSpace,hdiv,hne]
  have hpde {as' : ℕ} (hs' : as' ∈ spaces) (k : ℕ) : pde g as' k = pde f as' k := by
    rw [pde,hother (h.used_dir hs'),pde]
  have htable {as' : ℕ} (hs' : as' ∈ spaces) (k : ℕ) : table g as' k = table f as' k := by
    rw [table,hpde hs',table]
  -- The new directory has no page table, so every page table is an old one.
  have hold {as' k : ℕ} (hs' : as' ∈ t * pageSize :: spaces) (hk : k < userTables)
      (hp : Present (pde g as' k)) : as' ∈ spaces ∧ Present (pde f as' k) := by
    rcases List.mem_cons.mp hs' with rfl | hs'
    · rw [hself hk] at hp
      exact absurd hp not_present_zero
    · exact ⟨hs',by rwa [hpde hs'] at hp⟩
  refine ⟨⟨by rw [hbitmap,hcount]; exact h.size,?_,?_,?_,?_,?_,?_,?_,?_⟩,hnot,?_,?_⟩
  · intro as' hs'
    rcases List.mem_cons.mp hs' with rfl | hs'
    · exact Nat.mul_mod_left t pageSize
    · exact h.aligned hs'
  · intro as' hs'
    rw [hbitmap,hbit]
    rcases List.mem_cons.mp hs' with rfl | hs'
    · rw [hdiv,decide_eq_true rfl,Bool.or_true]
    · rw [h.used_dir hs',Bool.true_or]
  · intro as' k hs' hk hp
    rcases List.mem_cons.mp hs' with rfl | hs'
    · exact hself hk
    · rw [hpde hs'] at hp ⊢
      exact h.absent hs' hk hp
  · intro as' k hs' hk hp
    obtain ⟨hs',hp⟩ := hold hs' hk hp
    rw [hpde hs']
    exact h.rights hs' hk hp
  · intro as' k hs' hk hp
    obtain ⟨hs',hp⟩ := hold hs' hk hp
    rw [hbitmap,hbit,htable hs',h.used_table hs' hk hp,Bool.true_or]
  · intro as' k as'' hs' hk hp hs''
    obtain ⟨hs',hp⟩ := hold hs' hk hp
    rw [htable hs']
    rcases List.mem_cons.mp hs'' with rfl | hs''
    · rw [hdiv]
      exact ne_of_free hfree (h.used_table hs' hk hp)
    · exact h.table_ne_dir hs' hk hp hs''
  · intro as₁ k₁ as₂ k₂ hs₁ hk₁ hp₁ hs₂ hk₂ hp₂ heq
    obtain ⟨hs₁,hp₁⟩ := hold hs₁ hk₁ hp₁
    obtain ⟨hs₂,hp₂⟩ := hold hs₂ hk₂ hp₂
    rw [htable hs₁,htable hs₂] at heq
    exact h.table_inj hs₁ hk₁ hp₁ hs₂ hk₂ hp₂ heq
  · intro as' k hs' hk hp
    obtain ⟨hs',hp⟩ := hold hs' hk hp
    rw [htable hs',hother (h.used_table hs' hk hp)]
    exact h.nonempty hs' hk hp
  · intro as' hs' page hpage
    have hk : page / 1024 < userTables := by
      simp only [userPages,userTables,kernelBase,largePageSize,pageSize] at hpage ⊢
      omega
    simp only [walk,hpde hs',htable hs']
    by_cases hp : Present (pde f as' (page / 1024))
    · rw [if_pos hp,if_pos hp,hother (h.used_table hs' hk hp)]
    · rw [if_neg hp,if_neg hp]
  · intro page hpage
    have hk : page / 1024 < userTables := by
      simp only [userPages,userTables,kernelBase,largePageSize,pageSize] at hpage ⊢
      omega
    refine walk_of_not_present rfl ?_
    rw [hself hk]
    exact not_present_zero

end Calls

/-- The paging structures and the address spaces built so far. -/
structure Sys extends Kernel where
  /-- The addresses of their directories. -/
  spaces : List ℕ

/-- What can happen to the paging structures. -/
inductive Op where
  /-- A process gets its address space. -/
  | build
  /-- Another address space becomes the current one. -/
  | switch (as : ℕ)
  /-- Paging::MapPage. -/
  | map (pd va pa : ℕ) (user write : Bool)
  /-- Paging::UnMapPage. -/
  | unMap (pd va : ℕ)
  /-- Paging::GetPhysicalAddress. -/
  | getPhysical (pd va : ℕ)

namespace Sys

variable (s : Sys)

/-- Paging::AllocFrame and Paging::BuildAddressSpace, as for a new process. -/
def build : Option Sys :=
  let r := allocFrame s.bitmap
  if r.1 = noFrame then some s
  else do
    let p ← { s.toKernel with bitmap := r.2 }.buildAddressSpace r.1
    some { toKernel := p,spaces := r.1 :: s.spaces }

/-- The effect of an operation; the system stays as it is when it halts. -/
def apply : Op → Sys
  | .build => s.build.getD s
  | .switch as => { s with cr3 := as }
  | .map pd va pa user write =>
    { s with toKernel := ((s.mapPage pd va pa user write).map Prod.snd).getD s.toKernel }
  | .unMap pd va => { s with toKernel := ((s.unMapPage pd va).map Prod.snd).getD s.toKernel }
  | .getPhysical pd va =>
    { s with toKernel := ((s.getPhysicalAddress pd va).map Prod.snd).getD s.toKernel }

/-- Calls are made for an address space that was built, and below the kernel. -/
def Valid : Op → Prop
  | .build => True
  | .switch _ => True
  | .map pd va _ _ _ => s.spaceOf pd ∈ s.spaces ∧ va < kernelBase
  | .unMap pd va => s.spaceOf pd ∈ s.spaces ∧ va < kernelBase
  | .getPhysical pd va => s.spaceOf pd ∈ s.spaces ∧ va < kernelBase

instance (op : Op) : Decidable (s.Valid op) :=
  match op with
  | .build => inferInstanceAs (Decidable True)
  | .switch _ => inferInstanceAs (Decidable True)
  | .map pd va _ _ _ => inferInstanceAs (Decidable (s.spaceOf pd ∈ s.spaces ∧ va < kernelBase))
  | .unMap pd va => inferInstanceAs (Decidable (s.spaceOf pd ∈ s.spaces ∧ va < kernelBase))
  | .getPhysical pd va => inferInstanceAs (Decidable (s.spaceOf pd ∈ s.spaces ∧ va < kernelBase))

/-- The page tables in use are different frames, and marked as used. -/
def TablesApart : Prop :=
  ∀ as ∈ s.spaces,∀ k < userTables,Present (pde s.toFrames as k) →
    s.bitmap.getBit (table s.toFrames as k) = true ∧
      ∀ as' ∈ s.spaces,∀ k' < userTables,Present (pde s.toFrames as' k') →
        table s.toFrames as k = table s.toFrames as' k' → as = as' ∧ k = k'

/-- A new address space: there is no frame for it, or it is new and empty and
the others are as before. -/
def BuildRight : Prop :=
  (FreeWindows 1024 s.toKernel → s.build.isSome) ∧
    ∀ q,s.build = some q →
      (q = s ∧ ∀ j < s.bitmap.bitCount,s.bitmap.getBit j = true) ∨
        ∃ as,q.spaces = as :: s.spaces ∧ as ∉ s.spaces ∧
          Allocates s.toFrames q.toFrames (as / pageSize) ∧
          (∀ as' ∈ s.spaces,∀ page < userPages,
            walk q.toFrames as' page = walk s.toFrames as' page) ∧
          ∀ page < userPages,walk q.toFrames as page = none

/-- MapPage maps its page, and allocates a page table exactly with the first
page of it. When it fails it changes nothing. -/
def MapRight (pd va pa : ℕ) (user write : Bool) : Prop :=
  (FreeWindows 1024 s.toKernel → (s.mapPage pd va pa user write).isSome) ∧
    ∀ r q,s.mapPage pd va pa user write = some (r,q) →
      (r = false → q.toFrames = s.toFrames) ∧
      (r = true →
        ChangesOne s.toFrames q.toFrames s.spaces (s.spaceOf pd) (va / pageSize)
          (some ⟨pa / pageSize,user,write⟩) ∧
        (NoPages s.toFrames (s.spaceOf pd) (va / largePageSize) →
          Allocates s.toFrames q.toFrames
            (table q.toFrames (s.spaceOf pd) (va / largePageSize))) ∧
        (¬NoPages s.toFrames (s.spaceOf pd) (va / largePageSize) → q.bitmap = s.bitmap))

/-- UnMapPage succeeds exactly on a mapped page, unmaps it, and frees a page
table exactly with the last page of it. -/
def UnMapRight (pd va : ℕ) : Prop :=
  (FreeWindows 1024 s.toKernel → (s.unMapPage pd va).isSome) ∧
    ∀ r q,s.unMapPage pd va = some (r,q) →
      (r = true ↔ (walk s.toFrames (s.spaceOf pd) (va / pageSize)).isSome) ∧
      ChangesOne s.toFrames q.toFrames s.spaces (s.spaceOf pd) (va / pageSize) none ∧
      (r = true ∧ NoPages q.toFrames (s.spaceOf pd) (va / largePageSize) →
        Frees s.toFrames q.toFrames (table s.toFrames (s.spaceOf pd) (va / largePageSize))) ∧
      (¬(r = true ∧ NoPages q.toFrames (s.spaceOf pd) (va / largePageSize)) →
        q.bitmap = s.bitmap)

/-- GetPhysicalAddress reads its page and changes nothing. -/
def GetPhysicalRight (pd va : ℕ) : Prop :=
  (FreeWindows 1024 s.toKernel → (s.getPhysicalAddress pd va).isSome) ∧
    ∀ r q,s.getPhysicalAddress pd va = some (r,q) →
      q.toFrames = s.toFrames ∧
        r = match walk s.toFrames (s.spaceOf pd) (va / pageSize) with
          | some e => (e.frame * pageSize + va % pageSize) % 2 ^ 32
          | none => noFrame

/-- An operation does to the page map what it should. -/
def Refines : Op → Prop
  | .build => s.BuildRight
  | .switch _ => True
  | .map pd va pa user write => s.MapRight pd va pa user write
  | .unMap pd va => s.UnMapRight pd va
  | .getPhysical pd va => s.GetPhysicalRight pd va

/-- An operation does what it should, and leaves the page tables apart. -/
def Right (op : Op) : Prop := s.Refines op ∧ (s.apply op).TablesApart

/-- No address space has been built. -/
def start (p : Kernel) : Sys := { toKernel := p,spaces := [] }

end Sys

section Runs

variable {s : Sys}

/-- The page tables that are built are apart. -/
theorem Built.tablesApart (h : Built s.toFrames s.spaces) : s.TablesApart :=
  fun _ hs _ hk hp => ⟨h.used_table hs hk hp,fun _ hs' _ hk' hp' =>
    h.table_inj hs hk hp hs' hk' hp'⟩

/-- What a call for a new address space returns. -/
theorem build_cases (h : Built s.toFrames s.spaces) {q : Sys} (hq : s.build = some q) :
    (q = s ∧ ∀ j < s.bitmap.bitCount,s.bitmap.getBit j = true) ∨
      ∃ as,q.spaces = as :: s.spaces ∧ as ∉ s.spaces ∧ Built q.toFrames q.spaces ∧
        Allocates s.toFrames q.toFrames (as / pageSize) ∧
        (∀ as' ∈ s.spaces,∀ page < userPages,
          walk q.toFrames as' page = walk s.toFrames as' page) ∧
        ∀ page < userPages,walk q.toFrames as page = none := by
  simp only [Sys.build] at hq
  rcases allocFrame_spec h.size with ⟨hrun,hall⟩ | ⟨t,hlt,hclear,-,hfst,hsnd⟩
  · rw [hrun,if_pos rfl] at hq
    exact .inl ⟨(Option.some.inj hq).symm,hall⟩
  · obtain ⟨-,hne,hdiv⟩ := frame_address h.size hlt
    rw [hfst,hsnd,if_neg hne] at hq
    simp only [Option.bind_eq_bind,Option.bind_eq_some_iff] at hq
    obtain ⟨p,hp,hq⟩ := hq
    obtain rfl := Option.some.inj hq
    obtain ⟨hframes,-⟩ := buildAddressSpace_frames hp
    have hbit (j : ℕ) : (markFrom s.bitmap t 1).getBit j =
        (s.bitmap.getBit j || decide (j = t)) := by
      have hiff : (t ≤ j ∧ j < t + 1) ↔ j = t := by omega
      rw [getBit_markFrom 1 (by omega),decide_eq_decide.mpr hiff]
    obtain ⟨hbuilt,hnot,hsame,hnone⟩ := build_right h hclear (markFrom_bitCount 1 _ _) hbit
      hframes.symm
    have hbitmap : p.bitmap = markFrom s.bitmap t 1 := by
      rw [hframes]
      rfl
    refine .inr ⟨t * pageSize,rfl,hnot,hbuilt,⟨by rw [hdiv]; exact hclear,fun j => ?_⟩,hsame,hnone⟩
    rw [hdiv,←hbit,←hbitmap]

/-- A new address space is right. -/
theorem build_spec (h : Built s.toFrames s.spaces) :
    s.BuildRight ∧ Built (s.apply .build).toFrames (s.apply .build).spaces := by
  refine ⟨⟨fun hw => ?_,fun q hq => ?_⟩,?_⟩
  · simp only [Sys.build]
    split_ifs
    · rfl
    · obtain ⟨q,hq⟩ := @buildAddressSpace_returns
        { s.toKernel with bitmap := (allocFrame s.bitmap).2 } hw (allocFrame s.bitmap).1
      rw [hq]
      rfl
  · rcases build_cases h hq with hsame | ⟨as,hspaces,hnot,-,hrest⟩
    · exact .inl hsame
    · exact .inr ⟨as,hspaces,hnot,hrest⟩
  · cases hq : s.build with
    | none => simpa [Sys.apply,hq] using h
    | some q =>
      rcases build_cases h hq with ⟨rfl,-⟩ | ⟨as,-,-,hbuilt,-⟩
      · simpa [Sys.apply,hq] using h
      · simpa [Sys.apply,hq] using hbuilt

/-- MapPage is right. -/
theorem map_spec (h : Built s.toFrames s.spaces) {pd va : ℕ} (pa : ℕ) (user write : Bool)
    (hs : s.spaceOf pd ∈ s.spaces) (hva : va < kernelBase) :
    s.MapRight pd va pa user write ∧
      Built (s.apply (.map pd va pa user write)).toFrames (s.apply (.map pd va pa user write)).spaces := by
  refine ⟨⟨fun hw => ?_,fun r q hq => ?_⟩,?_⟩
  · obtain ⟨r,q,hq⟩ := mapPage_returns hw pd va pa user write
    rw [hq]
    rfl
  · exact (mapPage_right h hs hva (mapPage_frames hq).1.symm).2
  · cases hq : s.mapPage pd va pa user write with
    | none => simpa [Sys.apply,hq] using h
    | some rq =>
      have hbuilt := (mapPage_right h hs hva (mapPage_frames hq).1.symm).1
      simpa [Sys.apply,hq] using hbuilt

/-- UnMapPage is right. -/
theorem unMap_spec (h : Built s.toFrames s.spaces) {pd va : ℕ}
    (hs : s.spaceOf pd ∈ s.spaces) (hva : va < kernelBase) :
    s.UnMapRight pd va ∧
      Built (s.apply (.unMap pd va)).toFrames (s.apply (.unMap pd va)).spaces := by
  refine ⟨⟨fun hw => ?_,fun r q hq => ?_⟩,?_⟩
  · obtain ⟨r,q,hq⟩ := unMapPage_returns hw pd va
    rw [hq]
    rfl
  · exact (unMapPage_right h hs hva (unMapPage_frames hq).1.symm).2
  · cases hq : s.unMapPage pd va with
    | none => simpa [Sys.apply,hq] using h
    | some rq =>
      have hbuilt := (unMapPage_right h hs hva (unMapPage_frames hq).1.symm).1
      simpa [Sys.apply,hq] using hbuilt

/-- GetPhysicalAddress is right. -/
theorem getPhysical_spec (h : Built s.toFrames s.spaces) {pd va : ℕ} :
    s.GetPhysicalRight pd va ∧
      Built (s.apply (.getPhysical pd va)).toFrames (s.apply (.getPhysical pd va)).spaces := by
  refine ⟨⟨fun hw => ?_,fun r q hq => ?_⟩,?_⟩
  · obtain ⟨r,q,hq⟩ := getPhysicalAddress_returns hw pd va
    rw [hq]
    rfl
  · obtain ⟨hr,hsame,-⟩ := getPhysicalAddress_frames hq
    exact ⟨hsame,by rw [hr,getPhysicalAddress_eq]⟩
  · cases hq : s.getPhysicalAddress pd va with
    | none => simpa [Sys.apply,hq] using h
    | some rq =>
      obtain ⟨-,hsame,-⟩ := getPhysicalAddress_frames hq
      simpa [Sys.apply,hq,hsame] using h

/-- One operation is right and keeps the page tables built. -/
theorem step_spec (h : Built s.toFrames s.spaces) {op : Op} (hv : s.Valid op) :
    s.Right op ∧ Built (s.apply op).toFrames (s.apply op).spaces := by
  have hboth : s.Refines op ∧ Built (s.apply op).toFrames (s.apply op).spaces := by
    cases op with
    | build => exact build_spec h
    | switch as => exact ⟨trivial,h⟩
    | map pd va pa user write => exact map_spec h pa user write hv.1 hv.2
    | unMap pd va => exact unMap_spec h hv.1 hv.2
    | getPhysical pd va => exact getPhysical_spec h
  exact ⟨⟨hboth.1,hboth.2.tablesApart⟩,hboth.2⟩

end Runs

end WootOs.PageMap
