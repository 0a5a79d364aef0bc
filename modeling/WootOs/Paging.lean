import Mathlib.Data.List.Range
import Mathlib.Data.Nat.Bitwise
import WootOs.FrameAllocator

/-!
# Page tables

A page directory and its page tables are frames of 1024 words in physical
memory. The kernel reaches a frame only through a window: an entry of the page
table kernel4kPT that is free is made to name the frame, and freed after use.
The windows are the first half of that table; an entry of the other half is
never freed.

Each function stands here twice. The first form follows the source, windows
included, and is missing a result where the system halts for want of a window.
The second form works on frames. Whenever the first one returns, it has done
what the second one does, and it returns when two windows are free.
-/

namespace WootOs.Paging

open FrameBitmap FrameAllocator

/-- Bytes that a page table maps. -/
def largePageSize : ℕ := 2 ^ 22

/-- The first address of the kernel. -/
def kernelBase : ℕ := 0xC0000000

/-- The bit of an entry that says it is present. -/
def Present (w : ℕ) : Prop := w % 2 = 1

instance (w : ℕ) : Decidable (Present w) := inferInstanceAs (Decidable (w % 2 = 1))

/-- A directory entry without a page table: neither an address nor present. -/
def Vacant (entry : ℕ) : Prop := entry / pageSize * pageSize = 0 ∧ ¬Present entry

instance (entry : ℕ) : Decidable (Vacant entry) := inferInstanceAs (Decidable (_ = _ ∧ ¬_))

/-- No entry of a page table is present. -/
def tableEmpty (table : ℕ → ℕ) : Bool := (List.range 1024).all fun i => ¬Present (table i)

/-- The entry of a page table for a frame. -/
def leaf (pa : ℕ) (user write : Bool) : ℕ :=
  pa / pageSize * pageSize ||| 1 ||| (if write then 2 else 0) ||| (if user then 4 else 0)

/-- Physical memory and the bitmap of its frames. -/
structure Frames where
  /-- The word at an index of a frame. -/
  word : ℕ → ℕ → ℕ
  /-- The frames in use. -/
  bitmap : Bitmap

namespace Frames

variable (f : Frames)

/-- Write one word of a frame. -/
def write (frame i w : ℕ) : Frames :=
  { f with word := Function.update f.word frame (Function.update (f.word frame) i w) }

/-- Fill a frame with zeros. -/
def clear (frame : ℕ) : Frames := { f with word := Function.update f.word frame fun _ => 0 }

/-- Paging::FreeFrame. -/
def free (pa : ℕ) : Frames := { f with bitmap := (freeFrame f.bitmap pa).2 }

/-- Paging::MapPage on frames. -/
def mapPage (pd va pa : ℕ) (user write : Bool) : Bool × Frames :=
  let entry := f.word (pd / pageSize) (va / largePageSize)
  if Vacant entry then
    let r := allocFrame f.bitmap
    if r.1 = noFrame then (false,f)
    else
      let g := ({ f with bitmap := r.2 }.clear (r.1 / pageSize)).write (pd / pageSize)
        (va / largePageSize) (r.1 ||| 7)
      (true,g.write (r.1 / pageSize) (va / pageSize % 1024) (leaf pa user write))
  else (true,f.write (entry / pageSize) (va / pageSize % 1024) (leaf pa user write))

/-- Paging::UnMapPage on frames. -/
def unMapPage (pd va : ℕ) : Bool × Frames :=
  let entry := f.word (pd / pageSize) (va / largePageSize)
  if ¬Present entry then (false,f)
  else if ¬Present (f.word (entry / pageSize) (va / pageSize % 1024)) then (false,f)
  else
    let g := f.write (entry / pageSize) (va / pageSize % 1024) 0
    if tableEmpty (g.word (entry / pageSize)) ∧ va / pageSize * pageSize < kernelBase then
      (true,(g.free (entry / pageSize * pageSize)).write (pd / pageSize) (va / largePageSize) 0)
    else (true,g)

/-- Paging::GetPhysicalAddress on frames. -/
def getPhysicalAddress (pd va : ℕ) : ℕ :=
  let entry := f.word (pd / pageSize) (va / largePageSize)
  if ¬Present entry then noFrame
  else
    let pte := f.word (entry / pageSize) (va / pageSize % 1024)
    if ¬Present pte then noFrame
    else (pte / pageSize * pageSize + va % pageSize) % 2 ^ 32

/-- One turn of the inner loop of Paging::UnmapRange on frames. -/
def unmapEntry (pd startVA rangeSize pdidx ptidx : ℕ) : Frames :=
  let va := pdidx * largePageSize + ptidx * pageSize
  if va < startVA ∨ (startVA + rangeSize) % 2 ^ 32 ≤ va then f
  else
    let table := f.word (pd / pageSize) pdidx / pageSize
    let pa := f.word table ptidx / pageSize * pageSize
    let g := (f.free pa).write table ptidx 0
    if tableEmpty (g.word table) ∧ va < kernelBase then
      (g.free (table * pageSize)).write (pd / pageSize) pdidx 0
    else g

/-- One turn of the outer loop of Paging::UnmapRange on frames. -/
def unmapTable (pd startVA rangeSize pdidx : ℕ) : Frames :=
  if ¬Present (f.word (pd / pageSize) pdidx) then f
  else (List.range 1024).foldl (fun f ptidx => f.unmapEntry pd startVA rangeSize pdidx ptidx) f

/-- Paging::UnmapRange on frames. -/
def unmapRange (pd startVA rangeSize : ℕ) : Frames :=
  let startPD := startVA / largePageSize
  let endPD := (startVA + rangeSize + largePageSize - 1) % 2 ^ 32 / largePageSize
  (List.range' startPD (endPD - startPD)).foldl
    (fun f pdidx => f.unmapTable pd startVA rangeSize pdidx) f

/-- Paging::BuildAddressSpace on frames. -/
def buildAddressSpace (kernelPageDir : ℕ → ℕ) (as : ℕ) : Frames :=
  { f with
    word := Function.update f.word (as / pageSize)
      fun i => if kernelBase / largePageSize ≤ i then kernelPageDir i else 0 }

end Frames

/-- Physical memory, the windows to it, the page directory of the kernel and
the page directory in use. The tables of the kernel itself stand apart: their
frames are never handed out. -/
structure Kernel extends Frames where
  /-- Paging::kernel4kPT. -/
  kernel4kPT : ℕ → ℕ
  /-- Paging::kernelPageDir. -/
  kernelPageDir : ℕ → ℕ
  /-- The register CR3. -/
  cr3 : ℕ

namespace Kernel

variable (p : Kernel)

/-- The address space an argument names; all ones are the current one. -/
def spaceOf (pd : ℕ) : ℕ := if pd = noFrame then p.cr3 else pd

/-- Paging::map4k. -/
def map4k (slot pa : ℕ) : Kernel :=
  { p with kernel4kPT := Function.update p.kernel4kPT slot (pa ||| 3) }

/-- Paging::alloc4k; the system halts when no window is free. -/
def alloc4k (pa : ℕ) : Option (ℕ × Kernel) :=
  ((List.range 1024).find? fun slot => ¬Present (p.kernel4kPT slot)).map
    fun slot => (slot,p.map4k slot pa)

/-- Paging::free4k. -/
def free4k (slot : ℕ) : Kernel :=
  if slot < 512 then { p with kernel4kPT := Function.update p.kernel4kPT slot 0 } else p

/-- The frame behind a window. -/
def frameAt (slot : ℕ) : ℕ := p.kernel4kPT slot / pageSize

/-- Read a word through a window. -/
def get (slot i : ℕ) : ℕ := p.word (p.frameAt slot) i

/-- Write a word through a window. -/
def set (slot i w : ℕ) : Kernel := { p with toFrames := p.toFrames.write (p.frameAt slot) i w }

/-- Memory::Zero of a page through a window. -/
def zero (slot : ℕ) : Kernel := { p with toFrames := p.toFrames.clear (p.frameAt slot) }

/-- Paging::FreeFrame. -/
def freeFrame (pa : ℕ) : Kernel := { p with toFrames := p.toFrames.free pa }

/-- The first part of Paging::MapPage: the window to the page table, which is
allocated when it is missing. -/
def tableWindow (pdir pdidx : ℕ) : Option (Option ℕ × Kernel) :=
  if Vacant (p.get pdir pdidx) then
    let r := allocFrame p.bitmap
    if r.1 = noFrame then some (none,p.free4k pdir)
    else do
      let (pt,p) ← { p with bitmap := r.2 }.alloc4k r.1
      some (some pt,((p.zero pt).set pdir pdidx (r.1 ||| 7)).free4k pdir)
  else do
    let ptpa := p.get pdir pdidx / pageSize * pageSize
    let (pt,p) ← (p.free4k pdir).alloc4k ptpa
    some (some pt,p)

/-- Paging::MapPage. -/
def mapPage (pd va pa : ℕ) (user write : Bool) : Option (Bool × Kernel) := do
  let va := va / pageSize * pageSize
  let (pdir,p) ← p.alloc4k (p.spaceOf pd)
  let (pt,p) ← p.tableWindow pdir (va / largePageSize)
  match pt with
  | none => some (false,p)
  | some pt => some (true,(p.set pt (va / pageSize % 1024) (leaf pa user write)).free4k pt)

/-- Paging::UnMapPage. -/
def unMapPage (pd va : ℕ) : Option (Bool × Kernel) := do
  let va := va / pageSize * pageSize
  let (pdir,p) ← p.alloc4k (p.spaceOf pd)
  let pdidx := va / largePageSize
  if ¬Present (p.get pdir pdidx) then some (false,p.free4k pdir)
  else
    let ptpa := p.get pdir pdidx / pageSize * pageSize
    let (pt,p) ← p.alloc4k ptpa
    let ptidx := va / pageSize % 1024
    if ¬Present (p.get pt ptidx) then some (false,(p.free4k pt).free4k pdir)
    else
      let p := p.set pt ptidx 0
      let freept := tableEmpty (p.get pt)
      let p := p.free4k pt
      if freept ∧ va < kernelBase then
        some (true,((p.freeFrame ptpa).set pdir pdidx 0).free4k pdir)
      else some (true,p.free4k pdir)

/-- Paging::GetPhysicalAddress. -/
def getPhysicalAddress (pd va : ℕ) : Option (ℕ × Kernel) := do
  let (pdir,p) ← p.alloc4k (p.spaceOf pd)
  let pdidx := va / largePageSize
  if ¬Present (p.get pdir pdidx) then some (noFrame,p.free4k pdir)
  else
    let ptpa := p.get pdir pdidx / pageSize * pageSize
    let (pt,p) ← (p.free4k pdir).alloc4k ptpa
    let ptidx := va / pageSize % 1024
    if ¬Present (p.get pt ptidx) then some (noFrame,p.free4k pt)
    else
      let pa := p.get pt ptidx / pageSize * pageSize
      some ((pa + va % pageSize) % 2 ^ 32,p.free4k pt)

/-- One turn of the inner loop of Paging::UnmapRange. -/
def unmapEntry (dir startVA rangeSize pdidx ptidx : ℕ) : Option Kernel :=
  let va := pdidx * largePageSize + ptidx * pageSize
  if va < startVA ∨ (startVA + rangeSize) % 2 ^ 32 ≤ va then some p
  else do
    let ptpa := p.get dir pdidx / pageSize * pageSize
    let (pt,p) ← p.alloc4k ptpa
    let pa := p.get pt ptidx / pageSize * pageSize
    let p := (p.freeFrame pa).set pt ptidx 0
    let freept := tableEmpty (p.get pt)
    let p := p.free4k pt
    if freept ∧ va < kernelBase then some ((p.freeFrame ptpa).set dir pdidx 0)
    else some p

/-- One turn of the outer loop of Paging::UnmapRange. -/
def unmapTable (dir startVA rangeSize pdidx : ℕ) : Option Kernel :=
  if ¬Present (p.get dir pdidx) then some p
  else (List.range 1024).foldlM
    (fun p ptidx => p.unmapEntry dir startVA rangeSize pdidx ptidx) p

/-- Paging::UnmapRange. -/
def unmapRange (pd startVA rangeSize : ℕ) : Option Kernel := do
  let startPD := startVA / largePageSize
  let endPD := (startVA + rangeSize + largePageSize - 1) % 2 ^ 32 / largePageSize
  let (dir,p) ← p.alloc4k (p.spaceOf pd)
  let p ← (List.range' startPD (endPD - startPD)).foldlM
    (fun p pdidx => p.unmapTable dir startVA rangeSize pdidx) p
  some (p.free4k dir)

/-- Paging::BuildAddressSpace. -/
def buildAddressSpace (as : ℕ) : Option Kernel := do
  let (pdir,p) ← p.alloc4k as
  let p := p.zero pdir
  let p : Kernel :=
    { p with
      word := Function.update p.word (p.frameAt pdir)
        fun i => if kernelBase / largePageSize ≤ i then p.kernelPageDir i else p.get pdir i }
  some (p.free4k pdir)

end Kernel

section Windows

variable {p q : Kernel} {pa slot slot' i w : ℕ}

/-- The address in a window's entry. -/
theorem lor_three_div (pa : ℕ) : (pa ||| 3) / pageSize = pa / pageSize := by
  have h : (pa ||| 3) / 2 ^ 12 = pa / 2 ^ 12 ||| 3 / 2 ^ 12 := Nat.or_div_two_pow
  simpa [pageSize] using h

theorem present_lor_three (pa : ℕ) : Present (pa ||| 3) := by
  rcases Nat.mod_two_eq_zero_or_one pa with h | h <;> simp [Present,h]

/-- A window is taken that was free. -/
theorem alloc4k_eq (h : p.alloc4k pa = some (slot,q)) :
    slot < 1024 ∧ ¬Present (p.kernel4kPT slot) ∧ q = p.map4k slot pa := by
  rw [Kernel.alloc4k,Option.map_eq_some_iff] at h
  obtain ⟨s,hs,he⟩ := h
  obtain ⟨rfl,rfl⟩ := Prod.mk.inj he
  refine ⟨List.mem_range.mp (List.mem_of_find?_eq_some hs),?_,rfl⟩
  simpa using List.find?_some hs

/-- A free window is found when there is one. -/
theorem alloc4k_isSome (hs : slot < 1024) (h : ¬Present (p.kernel4kPT slot)) :
    ∃ s q,p.alloc4k pa = some (s,q) := by
  have hfind : ((List.range 1024).find? fun slot => ¬Present (p.kernel4kPT slot)).isSome := by
    rw [List.find?_isSome]
    exact ⟨slot,List.mem_range.mpr hs,by simpa using h⟩
  obtain ⟨s,hs⟩ := Option.isSome_iff_exists.mp hfind
  exact ⟨s,p.map4k s pa,by rw [Kernel.alloc4k,hs,Option.map_some]⟩

@[simp] theorem map4k_toFrames : (p.map4k slot pa).toFrames = p.toFrames := rfl

@[simp] theorem map4k_kernelPageDir : (p.map4k slot pa).kernelPageDir = p.kernelPageDir := rfl

@[simp] theorem map4k_cr3 : (p.map4k slot pa).cr3 = p.cr3 := rfl

@[simp] theorem frameAt_map4k_self : (p.map4k slot pa).frameAt slot = pa / pageSize := by
  simp [Kernel.frameAt,Kernel.map4k,lor_three_div]

@[simp] theorem get_map4k_self : (p.map4k slot pa).get slot = p.word (pa / pageSize) := by
  funext i
  rw [Kernel.get,frameAt_map4k_self,map4k_toFrames]

theorem frameAt_map4k_of_ne (h : slot' ≠ slot) :
    (p.map4k slot pa).frameAt slot' = p.frameAt slot' := by
  simp [Kernel.frameAt,Kernel.map4k,h]

@[simp] theorem free4k_toFrames : (p.free4k slot).toFrames = p.toFrames := by
  rw [Kernel.free4k]
  split_ifs <;> rfl

@[simp] theorem free4k_kernelPageDir : (p.free4k slot).kernelPageDir = p.kernelPageDir := by
  rw [Kernel.free4k]
  split_ifs <;> rfl

@[simp] theorem free4k_cr3 : (p.free4k slot).cr3 = p.cr3 := by
  rw [Kernel.free4k]
  split_ifs <;> rfl

theorem kernel4kPT_free4k_of_ne (h : slot' ≠ slot) :
    (p.free4k slot).kernel4kPT slot' = p.kernel4kPT slot' := by
  rw [Kernel.free4k]
  split_ifs
  · simp [h]
  · rfl

theorem frameAt_free4k_of_ne (h : slot' ≠ slot) :
    (p.free4k slot).frameAt slot' = p.frameAt slot' := by
  rw [Kernel.frameAt,kernel4kPT_free4k_of_ne h,Kernel.frameAt]

/-- A freed window is free, or it was no window of the first half. -/
theorem present_free4k (h : Present ((p.free4k slot).kernel4kPT slot')) :
    Present (p.kernel4kPT slot') := by
  rw [Kernel.free4k] at h
  split_ifs at h
  · by_cases hs : slot' = slot
    · rw [hs] at h
      simp [Present] at h
    · simpa [Function.update_of_ne hs] using h
  · exact h

@[simp] theorem set_toFrames :
    (p.set slot i w).toFrames = p.toFrames.write (p.frameAt slot) i w := rfl

theorem get_set : (p.set slot i w).get slot' =
    (p.toFrames.write (p.frameAt slot) i w).word (p.frameAt slot') := rfl

@[simp] theorem set_kernel4kPT : (p.set slot i w).kernel4kPT = p.kernel4kPT := rfl

@[simp] theorem set_kernelPageDir : (p.set slot i w).kernelPageDir = p.kernelPageDir := rfl

@[simp] theorem set_cr3 : (p.set slot i w).cr3 = p.cr3 := rfl

@[simp] theorem frameAt_set : (p.set slot i w).frameAt slot' = p.frameAt slot' := rfl

@[simp] theorem zero_toFrames : (p.zero slot).toFrames = p.toFrames.clear (p.frameAt slot) := rfl

@[simp] theorem zero_kernelPageDir : (p.zero slot).kernelPageDir = p.kernelPageDir := rfl

@[simp] theorem zero_cr3 : (p.zero slot).cr3 = p.cr3 := rfl

@[simp] theorem frameAt_zero : (p.zero slot).frameAt slot' = p.frameAt slot' := rfl

@[simp] theorem freeFrame_toFrames : (p.freeFrame pa).toFrames = p.toFrames.free pa := rfl

@[simp] theorem freeFrame_kernel4kPT : (p.freeFrame pa).kernel4kPT = p.kernel4kPT := rfl

@[simp] theorem freeFrame_kernelPageDir : (p.freeFrame pa).kernelPageDir = p.kernelPageDir := rfl

@[simp] theorem freeFrame_cr3 : (p.freeFrame pa).cr3 = p.cr3 := rfl

@[simp] theorem frameAt_freeFrame : (p.freeFrame pa).frameAt slot = p.frameAt slot := rfl

/-- Two windows in use at once are different. -/
theorem ne_of_alloc4k (h : (p.map4k slot pa).alloc4k w = some (slot',q)) : slot ≠ slot' := by
  obtain ⟨-,hfree,-⟩ := alloc4k_eq h
  rintro rfl
  exact hfree (by simpa [Kernel.map4k] using present_lor_three pa)

/-- What a call that returns leaves outside of the frames: the page directory
of the kernel and the current one are the same. -/
structure Settled (p q : Kernel) : Prop where
  /-- The page directory of the kernel. -/
  kernelPageDir : q.kernelPageDir = p.kernelPageDir
  /-- The current page directory. -/
  cr3 : q.cr3 = p.cr3

/-- Rounding an address down to its page keeps the indexes. -/
theorem page_of_va (va : ℕ) : va / pageSize * pageSize / largePageSize = va / largePageSize ∧
    va / pageSize * pageSize / pageSize = va / pageSize := by
  simp only [pageSize,largePageSize]
  omega

theorem div_page (a : ℕ) : a / pageSize * pageSize / pageSize = a / pageSize := (page_of_va a).2

/-- The first part of MapPage: no frame is left for a page table, or there is
a new one, or there is one already. -/
theorem tableWindow_frames {pdir pdidx : ℕ} {pt : Option ℕ} (hp : Present (p.kernel4kPT pdir))
    (h : p.tableWindow pdir pdidx = some (pt,q)) :
    Settled p q ∧
      ((Vacant (p.get pdir pdidx) ∧ (allocFrame p.bitmap).1 = noFrame ∧ pt = none ∧
          q.toFrames = p.toFrames) ∨
        (Vacant (p.get pdir pdidx) ∧ (allocFrame p.bitmap).1 ≠ noFrame ∧
          ∃ s,pt = some s ∧ q.frameAt s = (allocFrame p.bitmap).1 / pageSize ∧
            q.toFrames = ({ p.toFrames with bitmap := (allocFrame p.bitmap).2 }.clear
              ((allocFrame p.bitmap).1 / pageSize)).write (p.frameAt pdir) pdidx
                ((allocFrame p.bitmap).1 ||| 7)) ∨
        (¬Vacant (p.get pdir pdidx) ∧
          ∃ s,pt = some s ∧ q.frameAt s = p.get pdir pdidx / pageSize ∧
            q.toFrames = p.toFrames)) := by
  simp only [Kernel.tableWindow] at h
  split_ifs at h with hnew hno
  · obtain ⟨rfl,rfl⟩ := Prod.mk.inj (Option.some.inj h)
    exact ⟨⟨by simp,by simp⟩,.inl ⟨hnew,hno,rfl,by simp⟩⟩
  · simp only [Option.bind_eq_bind,Option.bind_eq_some_iff,Prod.exists] at h
    obtain ⟨s,p₁,h₁,h⟩ := h
    obtain ⟨-,hfree,rfl⟩ := alloc4k_eq h₁
    obtain ⟨rfl,rfl⟩ := Prod.mk.inj (Option.some.inj h)
    have hne : s ≠ pdir := by
      rintro rfl
      exact hfree hp
    refine ⟨⟨by simp,by simp⟩,.inr (.inl ⟨hnew,hno,s,rfl,?_,?_⟩)⟩
    · rw [frameAt_free4k_of_ne hne,frameAt_set,frameAt_zero,frameAt_map4k_self]
    · rw [free4k_toFrames,set_toFrames,zero_toFrames,frameAt_zero,frameAt_map4k_self,
        frameAt_map4k_of_ne hne.symm,map4k_toFrames]
      rfl
  · simp only [Option.bind_eq_bind,Option.bind_eq_some_iff,Prod.exists] at h
    obtain ⟨s,p₁,h₁,h⟩ := h
    obtain ⟨-,-,rfl⟩ := alloc4k_eq h₁
    obtain ⟨rfl,rfl⟩ := Prod.mk.inj (Option.some.inj h)
    exact ⟨⟨by simp,by simp⟩,.inr (.inr ⟨hnew,s,rfl,by simp [div_page],by simp⟩)⟩

/-- MapPage does what it does on frames. -/
theorem mapPage_frames {pd va : ℕ} {user write r : Bool}
    (h : p.mapPage pd va pa user write = some (r,q)) :
    (r,q.toFrames) = p.toFrames.mapPage (p.spaceOf pd) va pa user write ∧ Settled p q := by
  obtain ⟨hl,hp⟩ := page_of_va va
  simp only [Kernel.mapPage,Option.bind_eq_bind,Option.bind_eq_some_iff,Prod.exists,hl,hp] at h
  obtain ⟨pdir,p₁,h₁,pt,p₂,h₂,h⟩ := h
  obtain ⟨-,-,rfl⟩ := alloc4k_eq h₁
  have hpres : Present ((p.map4k pdir (p.spaceOf pd)).kernel4kPT pdir) := by
    simpa [Kernel.map4k] using present_lor_three (p.spaceOf pd)
  obtain ⟨⟨hk,hc⟩,hcase⟩ := tableWindow_frames hpres h₂
  simp only [get_map4k_self,frameAt_map4k_self,map4k_toFrames] at hcase
  rcases hcase with ⟨hnew,hno,rfl,hq⟩ | ⟨hnew,hno,s,rfl,hs,hq⟩ | ⟨hold,s,rfl,hs,hq⟩
  · obtain ⟨rfl,rfl⟩ := Prod.mk.inj (Option.some.inj h)
    refine ⟨?_,hk,hc⟩
    simp only [Frames.mapPage,if_pos hnew,if_pos hno,hq]
  · obtain ⟨rfl,rfl⟩ := Prod.mk.inj (Option.some.inj h)
    refine ⟨?_,by simpa using hk,by simpa using hc⟩
    simp only [Frames.mapPage,if_pos hnew,if_neg hno,free4k_toFrames,set_toFrames,hs,hq]
  · obtain ⟨rfl,rfl⟩ := Prod.mk.inj (Option.some.inj h)
    refine ⟨?_,by simpa using hk,by simpa using hc⟩
    simp only [Frames.mapPage,if_neg hold,free4k_toFrames,set_toFrames,hs,hq]

/-- UnMapPage does what it does on frames. -/
theorem unMapPage_frames {pd va : ℕ} {r : Bool} (h : p.unMapPage pd va = some (r,q)) :
    (r,q.toFrames) = p.toFrames.unMapPage (p.spaceOf pd) va ∧ Settled p q := by
  obtain ⟨hl,hp⟩ := page_of_va va
  simp only [Kernel.unMapPage,Option.bind_eq_bind,Option.bind_eq_some_iff,Prod.exists,hl,hp] at h
  obtain ⟨pdir,p₁,h₁,h⟩ := h
  obtain ⟨-,-,rfl⟩ := alloc4k_eq h₁
  split_ifs at h with hpde
  · simp only [Option.bind_eq_some_iff,Prod.exists] at h
    obtain ⟨pt,p₂,h₂,h⟩ := h
    have hne := ne_of_alloc4k h₂
    obtain ⟨-,-,rfl⟩ := alloc4k_eq h₂
    rw [get_map4k_self] at hpde
    split_ifs at h with hpte hempty
    · obtain ⟨rfl,rfl⟩ := Prod.mk.inj (Option.some.inj h)
      rw [get_map4k_self,get_map4k_self,map4k_toFrames,div_page] at hpte
      have hfree := hempty.1
      rw [get_set,frameAt_map4k_self,get_map4k_self,map4k_toFrames,map4k_toFrames,div_page] at hfree
      refine ⟨?_,by simp,by simp⟩
      simp [Frames.unMapPage,hpde,hpte,hfree,hempty.2,frameAt_free4k_of_ne hne,
        frameAt_map4k_of_ne hne,div_page]
    · obtain ⟨rfl,rfl⟩ := Prod.mk.inj (Option.some.inj h)
      rw [get_map4k_self,get_map4k_self,map4k_toFrames,div_page] at hpte
      rw [get_set,frameAt_map4k_self,get_map4k_self,map4k_toFrames,map4k_toFrames,div_page] at hempty
      refine ⟨?_,by simp,by simp⟩
      simp only [Frames.unMapPage,hpde,hpte,not_true_eq_false,if_false,if_neg hempty]
      simp [div_page]
    · obtain ⟨rfl,rfl⟩ := Prod.mk.inj (Option.some.inj h)
      rw [get_map4k_self,get_map4k_self,map4k_toFrames,div_page] at hpte
      exact ⟨by simp [Frames.unMapPage,hpde,hpte],by simp,by simp⟩
  · obtain ⟨rfl,rfl⟩ := Prod.mk.inj (Option.some.inj h)
    rw [get_map4k_self] at hpde
    exact ⟨by simp [Frames.unMapPage,hpde],by simp,by simp⟩

/-- GetPhysicalAddress does what it does on frames, and leaves them. -/
theorem getPhysicalAddress_frames {pd va r : ℕ} (h : p.getPhysicalAddress pd va = some (r,q)) :
    r = p.toFrames.getPhysicalAddress (p.spaceOf pd) va ∧ q.toFrames = p.toFrames ∧
      Settled p q := by
  simp only [Kernel.getPhysicalAddress,Option.bind_eq_bind,Option.bind_eq_some_iff,
    Prod.exists] at h
  obtain ⟨pdir,p₁,h₁,h⟩ := h
  obtain ⟨-,-,rfl⟩ := alloc4k_eq h₁
  split_ifs at h with hpde
  · simp only [Option.bind_eq_some_iff,Prod.exists] at h
    obtain ⟨pt,p₂,h₂,h⟩ := h
    obtain ⟨-,-,rfl⟩ := alloc4k_eq h₂
    rw [get_map4k_self] at hpde
    split_ifs at h with hpte
    · obtain ⟨rfl,rfl⟩ := Prod.mk.inj (Option.some.inj h)
      rw [get_map4k_self,get_map4k_self,free4k_toFrames,map4k_toFrames,div_page] at hpte
      exact ⟨by simp [Frames.getPhysicalAddress,hpde,hpte,div_page],by simp,by simp,by simp⟩
    · obtain ⟨rfl,rfl⟩ := Prod.mk.inj (Option.some.inj h)
      rw [get_map4k_self,get_map4k_self,free4k_toFrames,map4k_toFrames,div_page] at hpte
      exact ⟨by simp [Frames.getPhysicalAddress,hpde,hpte],by simp,by simp,by simp⟩
  · obtain ⟨rfl,rfl⟩ := Prod.mk.inj (Option.some.inj h)
    rw [get_map4k_self] at hpde
    exact ⟨by simp [Frames.getPhysicalAddress,hpde],by simp,by simp,by simp⟩

/-- BuildAddressSpace does what it does on frames. -/
theorem buildAddressSpace_frames {as : ℕ} (h : p.buildAddressSpace as = some q) :
    q.toFrames = p.toFrames.buildAddressSpace p.kernelPageDir as ∧ Settled p q := by
  simp only [Kernel.buildAddressSpace,Option.bind_eq_bind,Option.bind_eq_some_iff,
    Prod.exists] at h
  obtain ⟨pdir,p₁,h₁,h⟩ := h
  obtain ⟨-,-,rfl⟩ := alloc4k_eq h₁
  obtain rfl := Option.some.inj h
  refine ⟨?_,by simp,by simp⟩
  rw [free4k_toFrames]
  simp [Frames.buildAddressSpace,Kernel.get,Frames.clear]

/-- The inner loop of UnmapRange does what it does on frames, and keeps the
window to the directory. -/
theorem unmapEntry_frames {pd dir startVA rangeSize pdidx ptidx : ℕ}
    (hdir : p.kernel4kPT dir = pd ||| 3)
    (h : p.unmapEntry dir startVA rangeSize pdidx ptidx = some q) :
    q.toFrames = p.toFrames.unmapEntry pd startVA rangeSize pdidx ptidx ∧ Settled p q ∧
      q.kernel4kPT dir = pd ||| 3 := by
  have hframe : p.frameAt dir = pd / pageSize := by rw [Kernel.frameAt,hdir,lor_three_div]
  have hget : p.get dir = p.word (pd / pageSize) := by
    funext i
    rw [Kernel.get,hframe]
  rw [Kernel.unmapEntry] at h
  split_ifs at h with hout
  · obtain rfl := Option.some.inj h
    exact ⟨by rw [Frames.unmapEntry,if_pos hout],⟨rfl,rfl⟩,hdir⟩
  simp only [Option.bind_eq_bind,Option.bind_eq_some_iff,Prod.exists] at h
  obtain ⟨pt,p₁,h₁,h⟩ := h
  obtain ⟨-,hfree,rfl⟩ := alloc4k_eq h₁
  have hne : dir ≠ pt := by
    rintro rfl
    exact hfree (by rw [hdir]; exact present_lor_three pd)
  have hdir' : (p.map4k pt (p.get dir pdidx / pageSize * pageSize)).kernel4kPT dir = pd ||| 3 := by
    simpa [Kernel.map4k,hne] using hdir
  have htable : tableEmpty (((((p.map4k pt (p.get dir pdidx / pageSize * pageSize)).freeFrame
      ((p.map4k pt (p.get dir pdidx / pageSize * pageSize)).get pt ptidx / pageSize *
        pageSize)).set pt ptidx 0)).get pt) =
      tableEmpty (((p.toFrames.free (p.word (p.word (pd / pageSize) pdidx / pageSize) ptidx /
        pageSize * pageSize)).write (p.word (pd / pageSize) pdidx / pageSize) ptidx 0).word
          (p.word (pd / pageSize) pdidx / pageSize)) := by
    rw [get_set]
    simp [hget,div_page]
  rw [Frames.unmapEntry,if_neg hout]
  dsimp only
  split_ifs at h with hempty
  · obtain rfl := Option.some.inj h
    rw [htable] at hempty
    rw [if_pos hempty]
    refine ⟨?_,⟨by simp,by simp⟩,by simpa [kernel4kPT_free4k_of_ne hne] using hdir'⟩
    simp [frameAt_free4k_of_ne hne,frameAt_map4k_of_ne hne,hframe,hget,div_page]
  · obtain rfl := Option.some.inj h
    rw [htable] at hempty
    rw [if_neg hempty]
    refine ⟨?_,⟨by simp,by simp⟩,by simpa [kernel4kPT_free4k_of_ne hne] using hdir'⟩
    simp [hget,div_page]

theorem Settled.trans {r : Kernel} (h : Settled p q) (h' : Settled q r) : Settled p r :=
  ⟨h'.kernelPageDir.trans h.kernelPageDir,h'.cr3.trans h.cr3⟩

/-- A loop does what it does on frames when each of its turns does. -/
theorem foldlM_frames {step : Kernel → ℕ → Option Kernel} {onFrames : Frames → ℕ → Frames}
    {Inv : Kernel → Prop}
    (hstep : ∀ {p q i},Inv p → step p i = some q →
      q.toFrames = onFrames p.toFrames i ∧ Settled p q ∧ Inv q) {l : List ℕ} (hp : Inv p)
    (h : l.foldlM step p = some q) :
    q.toFrames = l.foldl onFrames p.toFrames ∧ Settled p q ∧ Inv q := by
  induction l generalizing p with
  | nil =>
    obtain rfl := Option.some.inj h
    exact ⟨rfl,⟨rfl,rfl⟩,hp⟩
  | cons i l ih =>
    simp only [List.foldlM_cons,Option.bind_eq_bind,Option.bind_eq_some_iff] at h
    obtain ⟨r,hr,h⟩ := h
    obtain ⟨hf,hs,hi⟩ := hstep hp hr
    obtain ⟨hf',hs',hi'⟩ := ih hi h
    exact ⟨by rw [hf',hf,List.foldl_cons],hs.trans hs',hi'⟩

/-- The outer loop of UnmapRange does what it does on frames. -/
theorem unmapTable_frames {pd dir startVA rangeSize pdidx : ℕ}
    (hdir : p.kernel4kPT dir = pd ||| 3)
    (h : p.unmapTable dir startVA rangeSize pdidx = some q) :
    q.toFrames = p.toFrames.unmapTable pd startVA rangeSize pdidx ∧ Settled p q ∧
      q.kernel4kPT dir = pd ||| 3 := by
  have hget : p.get dir pdidx = p.word (pd / pageSize) pdidx := by
    rw [Kernel.get,Kernel.frameAt,hdir,lor_three_div]
  rw [Kernel.unmapTable,hget] at h
  rw [Frames.unmapTable]
  split_ifs at h ⊢
  · exact @foldlM_frames p q (fun p ptidx => p.unmapEntry dir startVA rangeSize pdidx ptidx)
      (fun f ptidx => f.unmapEntry pd startVA rangeSize pdidx ptidx)
      (fun p => p.kernel4kPT dir = pd ||| 3) (fun hi hs => unmapEntry_frames hi hs) _ hdir h
  · obtain rfl := Option.some.inj h
    exact ⟨rfl,⟨rfl,rfl⟩,hdir⟩

/-- UnmapRange does what it does on frames. -/
theorem unmapRange_frames {pd startVA rangeSize : ℕ}
    (h : p.unmapRange pd startVA rangeSize = some q) :
    q.toFrames = p.toFrames.unmapRange (p.spaceOf pd) startVA rangeSize ∧ Settled p q := by
  simp only [Kernel.unmapRange,Option.bind_eq_bind,Option.bind_eq_some_iff,Prod.exists] at h
  obtain ⟨dir,p₁,h₁,p₂,h₂,h⟩ := h
  obtain ⟨-,-,rfl⟩ := alloc4k_eq h₁
  obtain rfl := Option.some.inj h
  have hdir : (p.map4k dir (p.spaceOf pd)).kernel4kPT dir = p.spaceOf pd ||| 3 := by
    simp [Kernel.map4k]
  obtain ⟨hf,hs,-⟩ := @foldlM_frames _ p₂
    (fun p pdidx => p.unmapTable dir startVA rangeSize pdidx)
    (fun f pdidx => f.unmapTable (p.spaceOf pd) startVA rangeSize pdidx)
    (fun q => q.kernel4kPT dir = p.spaceOf pd ||| 3) (fun hi hs => unmapTable_frames hi hs) _
    hdir h₂
  refine ⟨?_,by simpa using hs.kernelPageDir,by simpa using hs.cr3⟩
  rw [free4k_toFrames,hf]
  rfl

end Windows

section Returns

variable {p q : Kernel} {pa slot n i w : ℕ}

/-- One of the first n windows is free. -/
def FreeWindow (n : ℕ) (p : Kernel) : Prop := ∃ s < n,¬Present (p.kernel4kPT s)

/-- Two of the first n windows are free. -/
def FreeWindows (n : ℕ) (p : Kernel) : Prop :=
  ∃ s < n,∃ t < n,s ≠ t ∧ ¬Present (p.kernel4kPT s) ∧ ¬Present (p.kernel4kPT t)

/-- The first free window is taken. -/
theorem FreeWindow.alloc4k (h : FreeWindow n p) (hn : n ≤ 1024) (pa : ℕ) :
    ∃ s < n,p.alloc4k pa = some (s,p.map4k s pa) := by
  obtain ⟨s,hs,hfree⟩ := h
  obtain ⟨t,q,hq⟩ := @alloc4k_isSome p pa s (by omega) hfree
  obtain ⟨ht,-,rfl⟩ := alloc4k_eq hq
  refine ⟨t,?_,hq⟩
  by_contra hge
  rw [Kernel.alloc4k,Option.map_eq_some_iff] at hq
  obtain ⟨u,hu,he⟩ := hq
  obtain ⟨rfl,-⟩ := Prod.mk.inj he
  have := (List.find?_range_eq_some.mp hu).2.2 s (by omega)
  simp [hfree] at this

/-- One window is left when one of two is taken. -/
theorem FreeWindows.map4k (h : FreeWindows n p) (slot pa : ℕ) : FreeWindow n (p.map4k slot pa) := by
  obtain ⟨s,hs,t,ht,hne,hfs,hft⟩ := h
  by_cases hslot : s = slot
  · exact ⟨t,ht,by simpa [Kernel.map4k,show t ≠ slot by omega] using hft⟩
  · exact ⟨s,hs,by simpa [Kernel.map4k,hslot] using hfs⟩

theorem FreeWindows.one (h : FreeWindows n p) : FreeWindow n p := by
  obtain ⟨s,hs,t,ht,-,hfs,-⟩ := h
  exact ⟨s,hs,hfs⟩

/-- Freeing a window leaves the free ones free. -/
theorem FreeWindow.free4k (h : FreeWindow n p) (slot : ℕ) : FreeWindow n (p.free4k slot) := by
  obtain ⟨s,hs,hfree⟩ := h
  exact ⟨s,hs,fun hp => hfree (present_free4k hp)⟩

/-- The first part of MapPage returns when a window is free. -/
theorem tableWindow_returns (h : FreeWindow 1024 p) (pdir pdidx : ℕ) :
    ∃ pt q,p.tableWindow pdir pdidx = some (pt,q) := by
  simp only [Kernel.tableWindow]
  split_ifs
  · exact ⟨_,_,rfl⟩
  · obtain ⟨t,-,ht⟩ := @FreeWindow.alloc4k { p with bitmap := (allocFrame p.bitmap).2 } 1024 h
      le_rfl (allocFrame p.bitmap).1
    rw [ht]
    exact ⟨_,_,rfl⟩
  · obtain ⟨t,-,ht⟩ := (h.free4k pdir).alloc4k le_rfl (p.get pdir pdidx / pageSize * pageSize)
    rw [ht]
    exact ⟨_,_,rfl⟩

/-- MapPage returns when two windows are free. -/
theorem mapPage_returns (h : FreeWindows 1024 p) (pd va pa : ℕ) (user write : Bool) :
    ∃ r q,p.mapPage pd va pa user write = some (r,q) := by
  obtain ⟨s,-,hs⟩ := h.one.alloc4k le_rfl (p.spaceOf pd)
  obtain ⟨pt,q,hq⟩ := tableWindow_returns (h.map4k s (p.spaceOf pd)) s (va / largePageSize)
  obtain ⟨hl,hp⟩ := page_of_va va
  simp only [Kernel.mapPage,hs,hl,hq,Option.bind_eq_bind,Option.bind_some]
  cases pt with
  | none => exact ⟨_,_,rfl⟩
  | some pt => exact ⟨_,_,rfl⟩

/-- UnMapPage returns when two windows are free. -/
theorem unMapPage_returns (h : FreeWindows 1024 p) (pd va : ℕ) :
    ∃ r q,p.unMapPage pd va = some (r,q) := by
  obtain ⟨s,-,hs⟩ := h.one.alloc4k le_rfl (p.spaceOf pd)
  obtain ⟨hl,-⟩ := page_of_va va
  obtain ⟨t,-,ht⟩ := (h.map4k s (p.spaceOf pd)).alloc4k le_rfl
    ((p.map4k s (p.spaceOf pd)).get s (va / largePageSize) / pageSize * pageSize)
  simp only [Kernel.unMapPage,hs,hl,Option.bind_eq_bind,Option.bind_some]
  split_ifs with hpde
  · rw [ht]
    simp only [Option.bind_some]
    split_ifs
    all_goals exact ⟨_,_,rfl⟩
  · exact ⟨_,_,rfl⟩

/-- GetPhysicalAddress returns when a window is free. -/
theorem getPhysicalAddress_returns (h : FreeWindows 1024 p) (pd va : ℕ) :
    ∃ r q,p.getPhysicalAddress pd va = some (r,q) := by
  obtain ⟨s,-,hs⟩ := h.one.alloc4k le_rfl (p.spaceOf pd)
  obtain ⟨t,-,ht⟩ := ((h.map4k s (p.spaceOf pd)).free4k s).alloc4k le_rfl
    ((p.map4k s (p.spaceOf pd)).get s (va / largePageSize) / pageSize * pageSize)
  simp only [Kernel.getPhysicalAddress,hs,Option.bind_eq_bind,Option.bind_some]
  split_ifs with hpde
  · rw [ht]
    simp only [Option.bind_some]
    split_ifs
    all_goals exact ⟨_,_,rfl⟩
  · exact ⟨_,_,rfl⟩

/-- BuildAddressSpace returns when a window is free. -/
theorem buildAddressSpace_returns (h : FreeWindows 1024 p) (as : ℕ) :
    ∃ q,p.buildAddressSpace as = some q := by
  obtain ⟨s,-,hs⟩ := h.one.alloc4k le_rfl as
  rw [Kernel.buildAddressSpace,hs]
  exact ⟨_,rfl⟩

/-- A loop returns when each of its turns does. -/
theorem foldlM_returns {s : Kernel → ℕ → Option Kernel} {Inv : Kernel → Prop}
    (hstep : ∀ {p i},Inv p → ∃ q,s p i = some q ∧ Inv q) (l : List ℕ) (hp : Inv p) :
    ∃ q,l.foldlM s p = some q ∧ Inv q := by
  induction l generalizing p with
  | nil => exact ⟨p,rfl,hp⟩
  | cons i l ih =>
    obtain ⟨q,hq,hi⟩ := @hstep p i hp
    obtain ⟨r,hr,hi'⟩ := ih hi
    exact ⟨r,by simp [hq,hr],hi'⟩

/-- A turn of the inner loop of UnmapRange returns, and leaves a window free. -/
theorem unmapEntry_returns (h : FreeWindow 512 p) (dir startVA rangeSize pdidx ptidx : ℕ) :
    ∃ q,p.unmapEntry dir startVA rangeSize pdidx ptidx = some q ∧ FreeWindow 512 q := by
  simp only [Kernel.unmapEntry]
  split_ifs with hout
  · exact ⟨p,rfl,h⟩
  · obtain ⟨s,hs,he⟩ := h.alloc4k (by omega) (p.get dir pdidx / pageSize * pageSize)
    have hfree {q : Kernel} : ¬Present ((q.free4k s).kernel4kPT s) := by
      simp [Kernel.free4k,hs,Present]
    simp only [he,Option.bind_eq_bind,Option.bind_some]
    split_ifs
    all_goals exact ⟨_,rfl,s,hs,hfree⟩

/-- A turn of the outer loop of UnmapRange returns, and leaves a window free. -/
theorem unmapTable_returns (h : FreeWindow 512 p) (dir startVA rangeSize pdidx : ℕ) :
    ∃ q,p.unmapTable dir startVA rangeSize pdidx = some q ∧ FreeWindow 512 q := by
  rw [Kernel.unmapTable]
  split_ifs
  · exact foldlM_returns (s := fun p ptidx => p.unmapEntry dir startVA rangeSize pdidx ptidx)
      (fun hp => unmapEntry_returns hp dir startVA rangeSize pdidx _) _ h
  · exact ⟨p,rfl,h⟩

/-- UnmapRange returns when two windows of the first half are free. -/
theorem unmapRange_returns (h : FreeWindows 512 p) (pd startVA rangeSize : ℕ) :
    ∃ q,p.unmapRange pd startVA rangeSize = some q := by
  obtain ⟨s,-,hs⟩ := h.one.alloc4k (by decide) (p.spaceOf pd)
  obtain ⟨q,hq,-⟩ := foldlM_returns
    (s := fun p pdidx => p.unmapTable s startVA rangeSize pdidx)
    (fun hp => unmapTable_returns hp s startVA rangeSize _) _ (h.map4k s (p.spaceOf pd))
  refine ⟨q.free4k s,?_⟩
  rw [Kernel.unmapRange,hs,Option.bind_eq_bind,Option.bind_some]
  dsimp only
  rw [hq,Option.bind_eq_bind,Option.bind_some]

end Returns

end WootOs.Paging
