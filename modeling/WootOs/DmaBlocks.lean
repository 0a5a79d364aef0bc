import WootOs.KernelSpace
import WootOs.UserMemory

/-!
# Memory for DMA

AllocDMA takes frames that follow one another, finds a place for them in a
range of the kernel's address space, and maps and clears them; FreeDMA unmaps a
block and frees its frames. The blocks are kept in a list in order of their
addresses, and a place is the first gap between two of them, or the end of the
last one. Nothing compares that end with the end of the range, and both the
size rounded to pages and the end of a new block are computed in 32 bits.

A history of calls is right as long as each new block has at least one page
and ends where the range ends, or earlier.
-/

namespace WootOs.DmaBlocks

open FrameBitmap FrameAllocator Paging PageMap KernelSpace UserMemory Runs

/-- DMA_HEAP_START. -/
def dmaHeapStart : ℕ := 0xCE000000

/-- Paging::kernel4kVA, the end of the range. -/
def kernel4kVA : ℕ := 0xCFC00000

/-- An entry of the list of blocks. -/
structure DMAPointerHead where
  /-- First byte. -/
  address : ℕ
  /-- Number of bytes. -/
  size : ℕ
  deriving DecidableEq

/-- Memory and the list of blocks. -/
structure Dma where
  /-- Memory. -/
  frames : Frames
  /-- Paging::dmaPtrList. -/
  dmaPtrList : List DMAPointerHead

/-- Paging::MapPages. -/
def mapPages (as : ℕ) (user write : Bool) : ℕ → Frames → ℕ → ℕ → Bool × Frames
  | 0,f,_,_ => (true,f)
  | n + 1,f,va,pa =>
    let r := f.mapPage as va pa user write
    if r.1 then
      mapPages as user write n r.2 ((va + pageSize) % 2 ^ 32) ((pa + pageSize) % 2 ^ 32)
    else (false,r.2)

/-- Paging::UnMapPages. -/
def unMapPages (as : ℕ) : ℕ → Frames → ℕ → Bool × Frames
  | 0,f,_ => (true,f)
  | n + 1,f,va =>
    let r := f.unMapPage as va
    if r.1 then unMapPages as n r.2 ((va + pageSize) % 2 ^ 32) else (false,r.2)

/-- Memory::Zero of whole pages, through the page map. -/
def zeroPages (as : ℕ) : ℕ → Frames → ℕ → Frames
  | 0,f,_ => f
  | n + 1,f,va =>
    let g := match walk f as (va / pageSize) with
      | some e => f.clear e.frame
      | none => f
    zeroPages as n g ((va + pageSize) % 2 ^ 32)

/-- List::InsertBefore; entries are equal when their addresses are. -/
def insertBefore (newValue value : DMAPointerHead) : List DMAPointerHead → List DMAPointerHead
  | [] => [newValue]
  | node :: rest =>
    if node.address = value.address then newValue :: node :: rest
    else node :: insertBefore newValue value rest

/-- The loop that looks for a place: its address, and the block that comes
after it, if it is not at the end. -/
def findPlace (size : ℕ) : List DMAPointerHead → ℕ × Option DMAPointerHead
  | [] => (0,none)
  | [ph] => ((ph.address + ph.size) % 2 ^ 32,none)
  | ph :: nextPh :: rest =>
    let blockEnd := (ph.address + ph.size) % 2 ^ 32
    let newBlockEnd := (blockEnd + size) % 2 ^ 32
    if newBlockEnd ≤ nextPh.address then (blockEnd,some nextPh)
    else findPlace size (nextPh :: rest)

/-- The address of a new block and the list with it. -/
def place (size : ℕ) (l : List DMAPointerHead) : ℕ × List DMAPointerHead :=
  if l.length = 0 then (dmaHeapStart,[⟨dmaHeapStart,size⟩])
  else
    match findPlace size l with
    | (va,none) => (va,l ++ [⟨va,size⟩])
    | (va,some nextPh) => (va,insertBefore ⟨va,size⟩ nextPh l)

/-- Paging::AllocDMA in an address space. -/
def allocDMA (s : Dma) (as size alignment : ℕ) : ℕ × Dma :=
  if size = 0 then (0,s)
  else
    let size := alignPage size
    let nPages := size / pageSize
    let r := allocFramesAligned s.frames.bitmap nPages alignment
    if r.1 = noFrame then (0,{ s with frames := { s.frames with bitmap := r.2 } })
    else
      let p := place size s.dmaPtrList
      let f := (mapPages as false true nPages { s.frames with bitmap := r.2 } p.1 r.1).2
      (p.1,{ frames := zeroPages as nPages f p.1,dmaPtrList := p.2 })

/-- Paging::FreeDMA in an address space. -/
def freeDMA (s : Dma) (as va : ℕ) : Dma :=
  let ph := (s.dmaPtrList.find? fun ph => ph.address = va).getD ⟨0,0⟩
  if ph.address = 0 ∨ ph.size = 0 then s
  else
    let l := s.dmaPtrList.eraseP fun node => node.address = ph.address
    let nPages := ph.size / pageSize
    let pa := s.frames.getPhysicalAddress as va
    if pa = noFrame then { s with dmaPtrList := l }
    else
      let f := (unMapPages as nPages s.frames va).2
      { frames := { f with bitmap := (freeFrames f.bitmap pa nPages).2 },dmaPtrList := l }

/-- A call. -/
inductive DmaOp where
  /-- AllocDMA in an address space. -/
  | alloc (as size alignment : ℕ)
  /-- FreeDMA in an address space. -/
  | free (as ptr : ℕ)

namespace Dma

/-- The state after a call. -/
def apply (s : Dma) : DmaOp → Dma
  | .alloc as size alignment => (allocDMA s as size alignment).2
  | .free as ptr => freeDMA s as ptr

end Dma

/-- The place for a new block in numbers that do not wrap. -/
def exactPlace (size : ℕ) : List DMAPointerHead → ℕ
  | [] => dmaHeapStart
  | [ph] => ph.address + ph.size
  | ph :: nextPh :: rest =>
    if ph.address + ph.size + size ≤ nextPh.address then ph.address + ph.size
    else exactPlace size (nextPh :: rest)

/-- The size in pages does not wrap, and the place for the block has room below
the end of the range. -/
def HasRoom (l : List DMAPointerHead) (size : ℕ) : Prop :=
  size ≤ 2 ^ 32 - pageSize ∧ exactPlace (alignPage size) l + alignPage size ≤ kernel4kVA

instance (l : List DMAPointerHead) (size : ℕ) : Decidable (HasRoom l size) :=
  inferInstanceAs (Decidable (_ ∧ _))

/-- A call is made in one of the address spaces; a block that is allocated has
room. -/
def Valid (spaces : List ℕ) (s : Dma) : DmaOp → Prop
  | .alloc as size alignment => as ∈ spaces ∧ size < 2 ^ 32 ∧ alignment < 2 ^ 32 ∧
    (size = 0 ∨ HasRoom s.dmaPtrList size ∨
      (allocFramesAligned s.frames.bitmap (alignPage size / pageSize) alignment).1 = noFrame)
  | .free as ptr => as ∈ spaces ∧ ptr < 2 ^ 32

/-- A page of a block. -/
def DMAPointerHead.Has (ph : DMAPointerHead) (page : ℕ) : Prop :=
  ph.address ≤ page * pageSize ∧ page * pageSize < ph.address + ph.size

/-- Blocks in order of their addresses, each before the next one. -/
def Ordered (l : List DMAPointerHead) : Prop :=
  l.Pairwise fun a b => a.address < b.address ∧ a.address + a.size ≤ b.address

/-- The blocks are in order and apart, in virtual and in physical memory. -/
structure Sound (s : Dma) (spaces : List ℕ) : Prop where
  /-- Each block ends before the next one starts. -/
  ordered : Ordered s.dmaPtrList
  /-- Blocks have bytes, and lie in the range. -/
  inside : ∀ ph ∈ s.dmaPtrList,0 < ph.size ∧ dmaHeapStart ≤ ph.address ∧
    ph.address + ph.size ≤ kernel4kVA
  /-- Their pages are mapped to frames in use. -/
  mapped : ∀ as ∈ spaces,∀ ph ∈ s.dmaPtrList,∀ page,ph.Has page →
    ∃ e,walk s.frames as page = some e ∧ s.frames.bitmap.getBit e.frame = true
  /-- No two pages of blocks have one frame. -/
  physical : ∀ as ∈ spaces,∀ a ∈ s.dmaPtrList,∀ b ∈ s.dmaPtrList,∀ p q,a.Has p → b.Has q →
    ∀ e e',walk s.frames as p = some e → walk s.frames as q = some e' → e.frame = e'.frame → p = q

/-- What an allocation does: null and nothing has changed, or a block that is
new in the list, of frames that were free. -/
def AllocRight (s : Dma) (spaces : List ℕ) (size : ℕ) (r : ℕ × Dma) : Prop :=
  (r.1 = 0 ∧ r.2.frames.word = s.frames.word ∧ r.2.frames.bitmap = s.frames.bitmap ∧
    r.2.dmaPtrList = s.dmaPtrList) ∨
  (r.1 ≠ 0 ∧ ∃ ph l₁ l₂,ph.address = r.1 ∧ size ≤ ph.size ∧ s.dmaPtrList = l₁ ++ l₂ ∧
    r.2.dmaPtrList = l₁ ++ ph :: l₂ ∧
    ∀ as ∈ spaces,∀ page < allPages,
      (ph.Has page → ∃ e,walk r.2.frames as page = some e ∧
        s.frames.bitmap.getBit e.frame = false) ∧
      (¬ph.Has page → walk r.2.frames as page = walk s.frames as page))

/-- What a deallocation does: a live block leaves the list, its pages are
unmapped and its frames free, and nothing else changes; anything else than a
live block changes nothing. -/
def FreeRight (s : Dma) (spaces : List ℕ) (ptr : ℕ) (s' : Dma) : Prop :=
  ((∀ ph ∈ s.dmaPtrList,ph.address ≠ ptr) → s' = s) ∧
  ∀ ph ∈ s.dmaPtrList,ph.address = ptr → s'.dmaPtrList = s.dmaPtrList.erase ph ∧
    (∀ as ∈ spaces,∀ page < allPages,
      (ph.Has page → walk s'.frames as page = none) ∧
      (¬ph.Has page → walk s'.frames as page = walk s.frames as page)) ∧
    ∀ as ∈ spaces,∀ j,s'.frames.bitmap.getBit j = true ↔ s.frames.bitmap.getBit j = true ∧
      ¬∃ page e,ph.Has page ∧ walk s.frames as page = some e ∧ e.frame = j

/-- A call is right: the blocks are sound before and after it, and it does what
it is for. -/
def Right (spaces : List ℕ) (s : Dma) (op : DmaOp) : Prop :=
  Sound s spaces ∧ Sound (s.apply op) spaces ∧
  match op with
  | .alloc as size alignment => AllocRight s spaces size (allocDMA s as size alignment)
  | .free _ ptr => FreeRight s spaces ptr (s.apply op)

section Pages

variable {f g f' : Frames} {spaces : List ℕ} {as page p t n : ℕ} {user write : Bool}

/-- The kernel's tables and the bitmap after its pages were changed: pages
outside of a range are what they were. -/
structure Keeps (f g : Frames) (spaces : List ℕ) (p n : ℕ) : Prop where
  /-- The tables are in order. -/
  kernel : KernelMap g spaces
  /-- The directories are the same. -/
  pde : ∀ as ∈ spaces,∀ k,PageMap.pde g as k = PageMap.pde f as k
  /-- So is the bitmap. -/
  bitmap : g.bitmap = f.bitmap
  /-- So are the other pages. -/
  outside : ∀ as ∈ spaces,∀ page < allPages,page < p ∨ p + n ≤ page →
    walk g as page = walk f as page

theorem Keeps.refl (h : KernelMap f spaces) (p n : ℕ) : Keeps f f spaces p n :=
  ⟨h,fun _ _ _ => rfl,rfl,fun _ _ _ _ _ => rfl⟩

/-- A change of the first page, and one of the others. -/
theorem Keeps.trans (h : Keeps f g spaces p 1) (h' : Keeps g f' spaces (p + 1) n) :
    Keeps f f' spaces p (n + 1) := by
  refine ⟨h'.kernel,?_,h'.bitmap.trans h.bitmap,?_⟩
  · intro as hs k
    rw [h'.pde as hs,h.pde as hs]
  · intro as hs page hpage hout
    rw [h'.outside as hs page hpage (by omega),h.outside as hs page hpage (by omega)]

/-- A write of one entry. -/
theorem keeps_setEntry {w : ℕ} (h : KernelMap f spaces) (hs : as ∈ spaces) (hp : KernelPage p)
    (hw : w / pageSize < 2 ^ 20) :
    Keeps f (f.write (table f as (p / 1024)) (p % 1024) w) spaces p 1 := by
  refine ⟨h.setEntry hs hp hw,fun as' hs' k => h.pde_write hs hs' hp k,rfl,?_⟩
  intro as' hs' page hpage hout
  rw [h.walk_write hs hs' hp hpage,if_neg (by omega)]

/-- The address of the page after a given one. -/
theorem next_page (h : p < allPages - 1) :
    (p * pageSize + pageSize) % 2 ^ 32 = (p + 1) * pageSize := by
  rw [allPages] at h
  rw [pageSize,Nat.mod_eq_of_lt (by omega)]
  omega

/-- The address of the frame after a given one, if it is one of a row. -/
theorem next_frame (h : t + (n + 1) ≤ 2 ^ 20) :
    n = 0 ∨ (t * pageSize + pageSize) % 2 ^ 32 = (t + 1) * pageSize := by
  rcases Nat.eq_zero_or_pos n with hn | hn
  · exact .inl hn
  · refine .inr ?_
    rw [pageSize,Nat.mod_eq_of_lt (by omega)]
    omega

/-- The entry of a page that is mapped. -/
theorem mappingOf_leaf {pde : ℕ} :
    ∃ e,mappingOf pde (leaf (t * pageSize) user write) = some e ∧ e.frame = t := by
  obtain ⟨hframe,hpresent,-⟩ := leaf_spec (t * pageSize) user write
  rw [mappingOf,if_pos hpresent]
  exact ⟨_,rfl,hframe.trans (Nat.mul_div_cancel _ (by decide))⟩

/-- Mapping pages of the kernel to frames in a row. -/
theorem mapPages_spec (hs : as ∈ spaces) : ∀ {n p t : ℕ} {f : Frames}, KernelMap f spaces →
    kernelBase ≤ p * pageSize → p + n < allPages → t + n ≤ 2 ^ 20 →
    Keeps f (mapPages as user write n f (p * pageSize) (t * pageSize)).2 spaces p n ∧
    ∀ as' ∈ spaces,∀ i < n,∃ e,
      walk (mapPages as user write n f (p * pageSize) (t * pageSize)).2 as' (p + i) = some e ∧
      e.frame = t + i := by
  intro n
  induction n with
  | zero =>
    intro p t f h _ _ _
    exact ⟨Keeps.refl h p 0,fun _ _ i hi => absurd hi (Nat.not_lt_zero i)⟩
  | succ n ih =>
    intro p t f h hkernel hend hframes
    have hp : KernelPage p := ⟨hkernel,by omega⟩
    have hleaf := (leaf_spec (t * pageSize) user write).1
    rw [Nat.mul_div_cancel _ (by decide)] at hleaf
    have hfirst := keeps_setEntry (w := leaf (t * pageSize) user write) h hs hp (by omega)
    rw [mapPages,h.mapPage_eq hs hp]
    dsimp only
    rw [if_pos rfl,next_page (by omega)]
    have hrest : mapPages as user write n
        (f.write (table f as (p / 1024)) (p % 1024) (leaf (t * pageSize) user write))
        ((p + 1) * pageSize) ((t * pageSize + pageSize) % 2 ^ 32) = mapPages as user write n
        (f.write (table f as (p / 1024)) (p % 1024) (leaf (t * pageSize) user write))
        ((p + 1) * pageSize) ((t + 1) * pageSize) := by
      rcases next_frame hframes with rfl | hnext
      · rw [mapPages,mapPages]
      · rw [hnext]
    rw [hrest]
    obtain ⟨hkeeps,hin⟩ := ih (p := p + 1) (t := t + 1) hfirst.kernel
      (hkernel.trans (Nat.mul_le_mul_right _ (Nat.le_succ p))) (by omega) (by omega)
    refine ⟨hfirst.trans hkeeps,?_⟩
    intro as' hs' i hi
    cases i with
    | zero =>
      show ∃ e,walk _ as' p = some e ∧ e.frame = t
      rw [hkeeps.outside as' hs' p hp.2 (by omega),h.walk_write hs hs' hp hp.2,if_pos rfl]
      exact mappingOf_leaf
    | succ i =>
      obtain ⟨e,he,hframe⟩ := hin as' hs' i (by omega)
      exact ⟨e,by rw [← he]; congr 1; omega,by omega⟩

/-- Unmapping pages of the kernel that are mapped. -/
theorem unMapPages_spec (hs : as ∈ spaces) : ∀ {n p : ℕ} {f : Frames}, KernelMap f spaces →
    kernelBase ≤ p * pageSize → p + n < allPages →
    (∀ i < n,∃ e,walk f as (p + i) = some e) →
    Keeps f (unMapPages as n f (p * pageSize)).2 spaces p n ∧
    ∀ as' ∈ spaces,∀ i < n,walk (unMapPages as n f (p * pageSize)).2 as' (p + i) = none := by
  intro n
  induction n with
  | zero =>
    intro p f h _ _ _
    exact ⟨Keeps.refl h p 0,fun _ _ i hi => absurd hi (Nat.not_lt_zero i)⟩
  | succ n ih =>
    intro p f h hkernel hend hmapped
    have hp : KernelPage p := ⟨hkernel,by omega⟩
    have hfirst := keeps_setEntry (w := 0) h hs hp (by decide)
    obtain ⟨e,he⟩ := hmapped 0 (Nat.succ_pos n)
    rw [Nat.add_zero] at he
    have hne : walk f as p ≠ none := by
      rw [he]
      exact Option.some_ne_none e
    have hrest : unMapPages as (n + 1) f (p * pageSize) = unMapPages as n
        (f.write (table f as (p / 1024)) (p % 1024) 0) ((p + 1) * pageSize) := by
      rw [unMapPages,unMapPage_kernel hkernel,if_neg hne]
      dsimp only
      rw [if_pos rfl,next_page (by omega)]
    rw [hrest]
    obtain ⟨hkeeps,hin⟩ := ih (p := p + 1) hfirst.kernel
      (hkernel.trans (Nat.mul_le_mul_right _ (Nat.le_succ p))) (by omega) (by
        intro i hi
        obtain ⟨e,he⟩ := hmapped (i + 1) (by omega)
        refine ⟨e,?_⟩
        rw [hfirst.outside as hs _ (by omega) (by omega),← he]
        congr 1
        omega)
    refine ⟨hfirst.trans hkeeps,?_⟩
    intro as' hs' i hi
    cases i with
    | zero =>
      show walk _ as' p = none
      rw [hkeeps.outside as' hs' p hp.2 (by omega),h.walk_write hs hs' hp hp.2,
        if_pos rfl,mappingOf,if_neg not_present_zero]
    | succ i =>
      rw [← hin as' hs' i (by omega)]
      congr 1
      omega

/-- Clearing pages whose frames hold no tables. -/
theorem zeroPages_spec (hs : as ∈ spaces) : ∀ {n p : ℕ} {f : Frames}, KernelMap f spaces →
    p + n < allPages → (∀ i < n,∃ e,walk f as (p + i) = some e ∧ Plain f spaces e.frame) →
    Keeps f (zeroPages as n f (p * pageSize)) spaces p 0 := by
  intro n
  induction n with
  | zero =>
    intro p f h _ _
    exact Keeps.refl h p 0
  | succ n ih =>
    intro p f h hend hmapped
    obtain ⟨e,he,hplain⟩ := hmapped 0 (Nat.succ_pos n)
    rw [Nat.add_zero] at he
    have hwalk : ∀ as' ∈ spaces,∀ page < allPages,
        walk (f.clear e.frame) as' page = walk f as' page :=
      fun as' hs' page hpage => walk_clear hplain hs' hpage
    rw [zeroPages,Nat.mul_div_cancel _ (by decide : 0 < pageSize),he,next_page (by omega)]
    have hrest := ih (p := p + 1) (h.clear hplain) (by omega) (by
      intro i hi
      obtain ⟨e',he',hplain'⟩ := hmapped (i + 1) (by omega)
      refine ⟨e',?_,hplain'.congr fun as' hs' k => pde_clear hplain hs' k⟩
      rw [hwalk as hs _ (by omega),← he']
      congr 1
      omega)
    refine ⟨hrest.kernel,?_,hrest.bitmap,?_⟩
    · intro as' hs' k
      rw [hrest.pde as' hs',pde_clear hplain hs']
    · intro as' hs' page hpage _
      rw [hrest.outside as' hs' page hpage (by omega),hwalk as' hs' page hpage]

/-- Freeing frames in a row that are all in use. -/
theorem freeFrames_all : ∀ {n t : ℕ} {b : Bitmap}, t + n ≤ 2 ^ 20 →
    (∀ i < n,b.getBit (t + i) = true) →
    (freeFrames b (t * pageSize) n).2.bitCount = b.bitCount ∧
    ∀ j,(freeFrames b (t * pageSize) n).2.getBit j =
      (b.getBit j && decide (¬(t ≤ j ∧ j < t + n))) := by
  intro n
  induction n with
  | zero =>
    intro t b _ _
    refine ⟨rfl,?_⟩
    intro j
    have hno : ¬(t ≤ j ∧ j < t + 0) := by omega
    rw [freeFrames,decide_eq_true hno,Bool.and_true]
  | succ n ih =>
    intro t b hend hused
    have hbit : ∀ j,(freeFrame b (t * pageSize)).2.getBit j = (b.getBit j && decide (j ≠ t)) := by
      intro j
      rw [getBit_freeFrame,Nat.mul_div_cancel _ (by decide)]
    have hok : (freeFrame b (t * pageSize)).1 = true := by
      rw [freeFrame_result,Nat.mul_div_cancel _ (by decide)]
      exact hused 0 (Nat.succ_pos n)
    have hrest : (freeFrames (freeFrame b (t * pageSize)).2
        ((t * pageSize + pageSize) % 2 ^ 32) n).2 =
        (freeFrames (freeFrame b (t * pageSize)).2 ((t + 1) * pageSize) n).2 := by
      rcases next_frame hend with rfl | hnext
      · rw [freeFrames,freeFrames]
      · rw [hnext]
    obtain ⟨hcount,hall⟩ := ih (t := t + 1) (b := (freeFrame b (t * pageSize)).2) (by omega) (by
      intro i hi
      rw [hbit,show t + 1 + i = t + (i + 1) by omega,hused (i + 1) (by omega),Bool.true_and]
      exact decide_eq_true (by omega))
    rw [freeFrames,hok]
    simp only [Bool.not_true,Bool.false_eq_true,if_false]
    rw [hrest]
    refine ⟨hcount.trans (freeFrame_bitCount _),?_⟩
    intro j
    rw [hall,hbit,Bool.and_assoc,← Bool.decide_and]
    congr 2
    apply propext
    omega

end Pages

section Places

variable {l : List DMAPointerHead} {ph a b : DMAPointerHead} {size alignment n : ℕ} {as : ℕ}
  {m : Bitmap}

/-- The place for a block is behind the end of the first one. -/
theorem le_exactPlace : ∀ {l : List DMAPointerHead} {ph : DMAPointerHead}, Ordered (ph :: l) →
    ph.address + ph.size ≤ exactPlace size (ph :: l) := by
  intro l
  induction l with
  | nil =>
    intro ph _
    exact Nat.le_refl _
  | cons nextPh rest ih =>
    intro ph h
    have hnext := (List.pairwise_cons.mp h).1 nextPh (by simp)
    have hrest := ih (List.pairwise_cons.mp h).2
    rw [exactPlace]
    split_ifs
    · exact Nat.le_refl _
    · exact hnext.2.trans ((Nat.le_add_right _ _).trans hrest)

/-- The loop finds the place, in front of a block or at the end. -/
theorem findPlace_spec : ∀ {l : List DMAPointerHead} {ph : DMAPointerHead}, Ordered (ph :: l) →
    exactPlace size (ph :: l) + size ≤ kernel4kVA →
    ∃ l₁ l₂,ph :: l = l₁ ++ l₂ ∧
      findPlace size (ph :: l) = (exactPlace size (ph :: l),l₂.head?) ∧
      (∀ a ∈ l₁,a.address + a.size ≤ exactPlace size (ph :: l)) ∧
      ∀ b ∈ l₂,exactPlace size (ph :: l) + size ≤ b.address := by
  intro l
  induction l with
  | nil =>
    intro ph _ hroom
    refine ⟨[ph],[],rfl,?_,?_,by simp⟩
    · simp only [exactPlace,kernel4kVA] at hroom
      rw [findPlace,exactPlace,Nat.mod_eq_of_lt (by omega)]
      rfl
    · intro a ha
      rw [List.mem_singleton.mp ha]
      exact Nat.le_refl _
  | cons nextPh rest ih =>
    intro ph h hroom
    have hhead := @le_exactPlace size _ _ h
    have hbound := hhead.trans ((Nat.le_add_right _ size).trans hroom)
    rw [kernel4kVA] at hbound hroom
    rw [findPlace,@Nat.mod_eq_of_lt (ph.address + ph.size) (2 ^ 32) (by omega),
      @Nat.mod_eq_of_lt (ph.address + ph.size + size) (2 ^ 32) (by omega)]
    by_cases hfit : ph.address + ph.size + size ≤ nextPh.address
    · rw [exactPlace,if_pos hfit,if_pos hfit]
      refine ⟨[ph],nextPh :: rest,rfl,rfl,?_,?_⟩
      · intro a ha
        rw [List.mem_singleton.mp ha]
      · intro b hb
        rcases List.mem_cons.mp hb with rfl | hb
        · exact hfit
        · have hlt := (List.pairwise_cons.mp (List.pairwise_cons.mp h).2).1 b hb
          omega
    · rw [exactPlace,if_neg hfit] at hroom ⊢
      rw [exactPlace,if_neg hfit] at hhead
      rw [if_neg hfit]
      obtain ⟨l₁,l₂,hsplit,hfound,hbefore,hafter⟩ := ih (List.pairwise_cons.mp h).2 hroom
      refine ⟨ph :: l₁,l₂,by rw [hsplit,List.cons_append],hfound,?_,hafter⟩
      intro a ha
      rcases List.mem_cons.mp ha with rfl | ha
      · exact hhead
      · exact hbefore a ha

/-- An entry is put in front of the first one with an address. -/
theorem insertBefore_append {l₁ l₂ : List DMAPointerHead}
    (hfirst : ∀ a ∈ l₁,a.address ≠ b.address) :
    insertBefore ph b (l₁ ++ b :: l₂) = l₁ ++ ph :: b :: l₂ := by
  induction l₁ with
  | nil =>
    rw [List.nil_append,insertBefore,if_pos rfl,List.nil_append]
  | cons a l₁ ih =>
    rw [List.cons_append,insertBefore,if_neg (hfirst a (by simp)),
      ih fun a ha => hfirst a (List.mem_cons_of_mem _ ha),List.cons_append]

/-- The new block is put in the list between those before and after it. -/
theorem place_spec (h : Ordered l) (hsize : 0 < size)
    (hroom : exactPlace size l + size ≤ kernel4kVA) :
    ∃ l₁ l₂,l = l₁ ++ l₂ ∧
      place size l = (exactPlace size l,l₁ ++ ⟨exactPlace size l,size⟩ :: l₂) ∧
      (∀ a ∈ l₁,a.address + a.size ≤ exactPlace size l) ∧
      ∀ b ∈ l₂,exactPlace size l + size ≤ b.address := by
  cases l with
  | nil => exact ⟨[],[],rfl,rfl,by simp,by simp⟩
  | cons ph rest =>
    obtain ⟨l₁,l₂,hsplit,hfound,hbefore,hafter⟩ := findPlace_spec h hroom
    refine ⟨l₁,l₂,hsplit,?_,hbefore,hafter⟩
    rw [place,if_neg (by simp),hfound]
    generalize exactPlace size (ph :: rest) = va at hbefore hafter ⊢
    cases l₂ with
    | nil =>
      rw [hsplit,List.append_nil]
      rfl
    | cons b l₂ =>
      have hat := hafter b (by simp)
      rw [hsplit]
      show (va,insertBefore ⟨va,size⟩ b (l₁ ++ b :: l₂)) = _
      rw [insertBefore_append]
      intro a ha
      have := hbefore a ha
      omega

/-- Frames in a row that were all free are handed out, or none. -/
theorem allocFramesAligned_row (hcount : m.bitCount ≤ 2 ^ 20) (hn : 0 < n)
    (ha : alignment < 2 ^ 32) : allocFramesAligned m n alignment = (noFrame,m) ∨
    ∃ t,allocFramesAligned m n alignment = (t * pageSize,markFrom m t n) ∧ IsRun m false n t := by
  by_cases hpage : alignment % pageSize = 0
  · have hstep := alignmentStep_pos ha hpage
    rw [allocFramesAligned,if_neg (not_not_intro hpage)]
    dsimp only
    have hwide : m.bitCount + alignmentStep alignment < 2 ^ 32 := by omega
    rcases nextRun_spec (n := n) hstep.1 hwide (m.bitCount + 1) 0 (by omega) with hend | hrun
    · exact .inl (if_pos hend)
    · have hlt : nextRun m n (alignmentStep alignment) (m.bitCount + 1) 0 + n ≤ m.bitCount :=
        hrun.1
      refine .inr ⟨_,?_,hrun⟩
      rw [if_neg (by omega),(frame_address hcount (by omega)).1]
  · exact .inl (if_pos hpage)

/-- No frames, no change. -/
theorem allocFramesAligned_none (hcount : m.bitCount ≤ 2 ^ 20)
    (h : (allocFramesAligned m n alignment).1 = noFrame) :
    (allocFramesAligned m n alignment).2 = m := by
  by_cases hpage : alignment % pageSize = 0
  · rw [allocFramesAligned,if_neg (not_not_intro hpage)] at h ⊢
    dsimp only at h ⊢
    by_cases hend : m.bitCount ≤ nextRun m n (alignmentStep alignment) (m.bitCount + 1) 0
    · rw [if_pos hend]
    · rw [if_neg hend] at h
      obtain ⟨hmod,hne,-⟩ := frame_address hcount (Nat.not_le.mp hend)
      exact absurd (hmod.symm.trans h) hne
  · rw [allocFramesAligned,if_pos hpage]

end Places

section Blocks

variable {s : Dma} {spaces : List ℕ} {ph a b : DMAPointerHead} {l : List DMAPointerHead}
  {as size alignment ptr page t : ℕ} {f g : Frames}

namespace DMAPointerHead

/-- First page of a block. -/
def first (ph : DMAPointerHead) : ℕ := ph.address / pageSize

/-- Number of pages of a block. -/
def count (ph : DMAPointerHead) : ℕ := ph.size / pageSize

/-- A block is made of pages of the range. -/
structure InRange (ph : DMAPointerHead) : Prop where
  /-- It starts with a page. -/
  address : ph.address = ph.first * pageSize
  /-- It ends with one. -/
  size : ph.size = ph.count * pageSize
  /-- It has one. -/
  pos : 0 < ph.size
  /-- It starts in the range. -/
  start : dmaHeapStart ≤ ph.address
  /-- It ends in the range. -/
  stop : ph.address + ph.size ≤ kernel4kVA

end DMAPointerHead

/-- The pages of a block, counted. -/
theorem DMAPointerHead.InRange.has_iff (h : ph.InRange) :
    ph.Has page ↔ ph.first ≤ page ∧ page < ph.first + ph.count := by
  rw [DMAPointerHead.Has,h.address,h.size,pageSize]
  omega

/-- They are pages of the kernel. -/
theorem DMAPointerHead.InRange.kernel (h : ph.InRange) : 0 < ph.count ∧
    kernelBase ≤ ph.first * pageSize ∧ ph.first + ph.count < allPages := by
  obtain ⟨haddr,hsize,hpos,hstart,hstop⟩ := h
  rw [haddr] at hstart hstop
  rw [hsize] at hpos hstop
  simp only [pageSize,dmaHeapStart,kernel4kVA,kernelBase,allPages] at *
  omega

theorem DMAPointerHead.InRange.lt_allPages (h : ph.InRange) (hp : ph.Has page) :
    page < allPages := by
  have := h.has_iff.mp hp
  have := h.kernel.2.2
  omega

/-- The pages of a block are mapped to frames in a row. -/
structure Row (f : Frames) (spaces : List ℕ) (ph : DMAPointerHead) (t : ℕ) : Prop where
  /-- Frames lie below 4 GiB. -/
  fits : t + ph.count ≤ 2 ^ 20
  /-- They are in use. -/
  used : ∀ i < ph.count,f.bitmap.getBit (t + i) = true
  /-- They hold no tables. -/
  plain : ∀ i < ph.count,Plain f spaces (t + i)
  /-- The pages have them in their order. -/
  mapped : ∀ as ∈ spaces,∀ i < ph.count,∃ e,walk f as (ph.first + i) = some e ∧ e.frame = t + i

/-- The frame of a page of a block. -/
theorem Row.frame (h : Row f spaces ph t) (hr : ph.InRange) (hs : as ∈ spaces)
    (hp : ph.Has page) : ∃ i < ph.count,page = ph.first + i ∧
    ∃ e,walk f as page = some e ∧ e.frame = t + i := by
  obtain ⟨hl,hu⟩ := hr.has_iff.mp hp
  refine ⟨page - ph.first,by omega,by omega,?_⟩
  obtain ⟨e,he,hframe⟩ := h.mapped as hs (page - ph.first) (by omega)
  rw [Nat.add_sub_cancel' hl] at he
  exact ⟨e,he,hframe⟩

/-- What calls keep. -/
structure Inv (s : Dma) (spaces : List ℕ) : Prop where
  /-- The tables of the kernel are in order. -/
  kernel : KernelMap s.frames spaces
  /-- Blocks are in order of their addresses. -/
  ordered : Ordered s.dmaPtrList
  /-- They lie in the range. -/
  inside : ∀ ph ∈ s.dmaPtrList,ph.InRange
  /-- Each has frames in a row. -/
  rows : ∀ ph ∈ s.dmaPtrList,∃ t,Row s.frames spaces ph t
  /-- Blocks have no frame in common. -/
  apart : ∀ as ∈ spaces,∀ a ∈ s.dmaPtrList,∀ b ∈ s.dmaPtrList,∀ p q,a.Has p → b.Has q →
    ∀ e e',walk s.frames as p = some e → walk s.frames as q = some e' →
      e.frame = e'.frame → p = q

/-- The invariant has what is promised. -/
theorem Inv.sound (h : Inv s spaces) : Sound s spaces := by
  refine ⟨h.ordered,?_,?_,h.apart⟩
  · intro ph hph
    exact ⟨(h.inside ph hph).pos,(h.inside ph hph).start,(h.inside ph hph).stop⟩
  · intro as hs ph hph page hp
    obtain ⟨t,hrow⟩ := h.rows ph hph
    obtain ⟨i,hi,-,e,he,hframe⟩ := hrow.frame (h.inside ph hph) hs hp
    exact ⟨e,he,by rw [hframe]; exact hrow.used i hi⟩

/-- Of two blocks one is before the other. -/
theorem Ordered.cases (h : Ordered l) (ha : a ∈ l) (hb : b ∈ l) : a = b ∨
    (a.address < b.address ∧ a.address + a.size ≤ b.address) ∨
    (b.address < a.address ∧ b.address + b.size ≤ a.address) := by
  induction l with
  | nil => cases ha
  | cons x l ih =>
    have hx := (List.pairwise_cons.mp h).1
    rcases List.mem_cons.mp ha with rfl | ha'
    · rcases List.mem_cons.mp hb with rfl | hb'
      · exact .inl rfl
      · exact .inr (.inl (hx b hb'))
    · rcases List.mem_cons.mp hb with rfl | hb'
      · exact .inr (.inr (hx a ha'))
      · exact ih (List.pairwise_cons.mp h).2 ha' hb'

/-- Blocks in order have no page in common. -/
theorem Ordered.apart (h : Ordered l) (ha : a ∈ l) (hb : b ∈ l) (hpa : a.Has page)
    (hpb : b.Has page) : a = b := by
  obtain ⟨hal,hau⟩ := hpa
  obtain ⟨hbl,hbu⟩ := hpb
  rcases h.cases ha hb with heq | ⟨-,hle⟩ | ⟨-,hle⟩
  · exact heq
  · omega
  · omega

/-- The pages of a new block are mapped and cleared. -/
theorem newPages_spec (h : KernelMap f spaces) (hs : as ∈ spaces) (hr : ph.InRange)
    (hrun : IsRun f.bitmap false ph.count t)
    (hg : g = zeroPages as ph.count (mapPages as false true ph.count
      { f with bitmap := markFrom f.bitmap t ph.count } ph.address (t * pageSize)).2 ph.address) :
    KernelMap g spaces ∧ g.bitmap = markFrom f.bitmap t ph.count ∧ Row g spaces ph t ∧
    (∀ as' ∈ spaces,∀ k,pde g as' k = pde f as' k) ∧
    ∀ as' ∈ spaces,∀ page < allPages,¬ph.Has page → walk g as' page = walk f as' page := by
  obtain ⟨-,hbase,hend⟩ := hr.kernel
  have hbits := @getBit_markFrom ph.count f.bitmap t hrun.1
  have hmarked : KernelMap { f with bitmap := markFrom f.bitmap t ph.count } spaces := by
    refine h.setBitmap (markFrom_bitCount _ _ _) ?_
    intro j _ hj
    rw [hbits,hj,Bool.true_or]
  have hplain : ∀ i < ph.count,Plain f spaces (t + i) :=
    fun i hi => h.plain_of_free (hrun.2 i hi)
  obtain ⟨hmap,hin⟩ := @mapPages_spec spaces as false true hs _ _ _ _ hmarked hbase hend
    (hrun.1.trans h.size)
  rw [hr.address] at hg
  generalize (mapPages as false true ph.count
    { f with bitmap := markFrom f.bitmap t ph.count } (ph.first * pageSize) (t * pageSize)).2 =
    f' at hg hmap hin
  have hzero := zeroPages_spec (n := ph.count) hs hmap.kernel hend (by
    intro i hi
    obtain ⟨e,he,hframe⟩ := hin as hs i hi
    refine ⟨e,he,?_⟩
    rw [hframe]
    exact (hplain i hi).congr hmap.pde)
  rw [← hg] at hzero
  have hpde : ∀ as' ∈ spaces,∀ k,pde g as' k = pde f as' k := by
    intro as' hs' k
    rw [hzero.pde as' hs',hmap.pde as' hs']
    rfl
  have hbitmap : g.bitmap = markFrom f.bitmap t ph.count := hzero.bitmap.trans hmap.bitmap
  refine ⟨hzero.kernel,hbitmap,⟨hrun.1.trans h.size,?_,?_,?_⟩,hpde,?_⟩
  · intro i hi
    rw [hbitmap,hbits]
    simp [hi]
  · intro i hi
    exact (hplain i hi).congr hpde
  · intro as' hs' i hi
    rw [hzero.outside as' hs' _ (by omega) (by omega)]
    exact hin as' hs' i hi
  · intro as' hs' page hpage hnot
    rw [hr.has_iff] at hnot
    rw [hzero.outside as' hs' page hpage (by omega),hmap.outside as' hs' page hpage (by omega)]
    rfl

/-- The pages of a block are unmapped and its frames freed. -/
theorem oldPages_spec (h : KernelMap f spaces) (hs : as ∈ spaces) (hr : ph.InRange)
    (hrow : Row f spaces ph t) {f' : Frames}
    (hf' : f' = (unMapPages as ph.count f ph.address).2)
    (hg : g = { f' with bitmap := (freeFrames f'.bitmap (t * pageSize) ph.count).2 }) :
    KernelMap g spaces ∧
    (∀ j,g.bitmap.getBit j = (f.bitmap.getBit j && decide (¬(t ≤ j ∧ j < t + ph.count)))) ∧
    (∀ as' ∈ spaces,∀ k,pde g as' k = pde f as' k) ∧
    ∀ as' ∈ spaces,∀ page < allPages,(ph.Has page → walk g as' page = none) ∧
      (¬ph.Has page → walk g as' page = walk f as' page) := by
  obtain ⟨-,hbase,hend⟩ := hr.kernel
  rw [hr.address] at hf'
  obtain ⟨hkeep,hnone⟩ := unMapPages_spec (n := ph.count) hs h hbase hend fun i hi =>
    (hrow.mapped as hs i hi).imp fun _ he => he.1
  rw [← hf'] at hkeep hnone
  obtain ⟨hcount,hbits⟩ := @freeFrames_all ph.count t f.bitmap hrow.fits hrow.used
  rw [hkeep.bitmap] at hg
  have hwalk : walk g = walk f' := by
    rw [hg]
    rfl
  have hbitmap : g.bitmap = (freeFrames f.bitmap (t * pageSize) ph.count).2 := by rw [hg]
  refine ⟨?_,?_,?_,?_⟩
  · rw [hg]
    refine hkeep.kernel.setBitmap (hcount.trans (by rw [hkeep.bitmap])) ?_
    intro j hj hu
    rw [hkeep.bitmap] at hu
    rw [hbits,hu,Bool.true_and,decide_eq_true_eq]
    rintro ⟨hl,hlt⟩
    refine hj ?_
    have := (hrow.plain (j - t) (by omega)).congr hkeep.pde
    rwa [Nat.add_sub_cancel' hl] at this
  · rw [hbitmap]
    exact hbits
  · intro as' hs' k
    rw [← hkeep.pde as' hs',hg]
    rfl
  · intro as' hs' page hpage
    rw [hr.has_iff,hwalk]
    refine ⟨?_,?_⟩
    · rintro ⟨hl,hlt⟩
      have := hnone as' hs' (page - ph.first) (by omega)
      rwa [Nat.add_sub_cancel' hl] at this
    · intro hnot
      exact hkeep.outside as' hs' page hpage (by omega)

/-- A size in pages. -/
theorem alignPage_spec (hle : size ≤ 2 ^ 32 - pageSize) :
    size ≤ alignPage size ∧ alignPage size / pageSize * pageSize = alignPage size ∧
      alignPage size < 2 ^ 32 := by
  simp only [pageSize] at hle
  simp only [alignPage,pageSize]
  omega

/-- The place for a block is a page of the range. -/
theorem exactPlace_page : ∀ {l : List DMAPointerHead},(∀ ph ∈ l,ph.InRange) →
    dmaHeapStart ≤ exactPlace size l ∧ exactPlace size l / pageSize * pageSize = exactPlace size l
  | [],_ => by
    rw [exactPlace]
    decide
  | [ph],h => by
    obtain ⟨haddr,hsize,-,hstart,-⟩ := h ph (by simp)
    rw [exactPlace]
    refine ⟨hstart.trans (Nat.le_add_right _ _),?_⟩
    rw [haddr,hsize,← Nat.add_mul,Nat.mul_div_cancel _ (by decide)]
  | ph :: nextPh :: rest,h => by
    obtain ⟨haddr,hsize,-,hstart,-⟩ := h ph (by simp)
    rw [exactPlace]
    split_ifs
    · refine ⟨hstart.trans (Nat.le_add_right _ _),?_⟩
      rw [haddr,hsize,← Nat.add_mul,Nat.mul_div_cancel _ (by decide)]
    · exact exactPlace_page fun a ha => h a (List.mem_cons_of_mem _ ha)

/-- A new block in the list. -/
theorem Inv.insert {l₁ l₂ : List DMAPointerHead} (h : Inv s spaces)
    (hsplit : s.dmaPtrList = l₁ ++ l₂) (hr : ph.InRange)
    (hbefore : ∀ a ∈ l₁,a.address + a.size ≤ ph.address)
    (hafter : ∀ b ∈ l₂,ph.address + ph.size ≤ b.address)
    (hrun : IsRun s.frames.bitmap false ph.count t) (hk : KernelMap g spaces)
    (hbitmap : g.bitmap = markFrom s.frames.bitmap t ph.count) (hrow : Row g spaces ph t)
    (hpde : ∀ as ∈ spaces,∀ k,pde g as k = pde s.frames as k)
    (hwalk : ∀ as ∈ spaces,∀ page < allPages,¬ph.Has page →
      walk g as page = walk s.frames as page) :
    Inv { frames := g,dmaPtrList := l₁ ++ ph :: l₂ } spaces := by
  have hmem : ∀ a,a ∈ l₁ ++ ph :: l₂ ↔ a = ph ∨ a ∈ s.dmaPtrList := by
    intro a
    rw [hsplit]
    simp only [List.mem_append,List.mem_cons]
    tauto
  -- the pages of the other blocks are what they were
  have hold : ∀ a ∈ s.dmaPtrList,∀ page,a.Has page → ∀ as ∈ spaces,
      walk g as page = walk s.frames as page := by
    intro a ha page hp as hs
    refine hwalk as hs page ((h.inside a ha).lt_allPages hp) ?_
    rintro ⟨hl,hu⟩
    obtain ⟨hal,hau⟩ := hp
    rw [hsplit,List.mem_append] at ha
    rcases ha with ha | ha
    · have := hbefore a ha
      omega
    · have := hafter a ha
      omega
  -- so a frame of theirs was in use when those of the new block were free
  have hdiff : ∀ a ∈ s.dmaPtrList,∀ as ∈ spaces,∀ p q,a.Has p → ph.Has q → ∀ e e',
      walk g as p = some e → walk g as q = some e' → e.frame ≠ e'.frame := by
    intro a ha as hs p q hp hq e e' he he' heq
    rw [hold a ha p hp as hs] at he
    obtain ⟨u,hu⟩ := h.rows a ha
    obtain ⟨i,hi,-,x,hx,hxf⟩ := hu.frame (h.inside a ha) hs hp
    obtain ⟨j,hj,-,y,hy,hyf⟩ := hrow.frame hr hs hq
    rw [he,Option.some_inj] at hx
    rw [he',Option.some_inj] at hy
    have hused := hu.used i hi
    rw [← hxf,← hx,heq,hy,hyf,hrun.2 j hj] at hused
    cases hused
  refine ⟨hk,?_,?_,?_,?_⟩
  · have hord := h.ordered
    rw [hsplit] at hord
    obtain ⟨h₁,h₂,hcross⟩ := List.pairwise_append.mp hord
    refine List.pairwise_append.mpr ⟨h₁,List.pairwise_cons.mpr ⟨?_,h₂⟩,?_⟩
    · intro b hb
      have := hafter b hb
      have := hr.pos
      exact ⟨by omega,by omega⟩
    · intro a ha b hb
      rcases List.mem_cons.mp hb with rfl | hb
      · have := hbefore a ha
        have := (h.inside a (by rw [hsplit]; exact List.mem_append_left _ ha)).pos
        exact ⟨by omega,by omega⟩
      · exact hcross a ha b hb
  · intro a ha
    rcases (hmem a).mp ha with rfl | ha
    · exact hr
    · exact h.inside a ha
  · intro a ha
    rcases (hmem a).mp ha with rfl | ha
    · exact ⟨t,hrow⟩
    · obtain ⟨u,hu⟩ := h.rows a ha
      refine ⟨u,hu.fits,?_,fun i hi => (hu.plain i hi).congr hpde,?_⟩
      · intro i hi
        rw [hbitmap,getBit_markFrom _ hrun.1,hu.used i hi,Bool.true_or]
      · intro as hs i hi
        rw [hold a ha _ ((h.inside a ha).has_iff.mpr ⟨by omega,by omega⟩) as hs]
        exact hu.mapped as hs i hi
  · intro as hs a ha b hb p q hp hq e e' he he' heq
    rcases (hmem a).mp ha with rfl | ha'
    · rcases (hmem b).mp hb with rfl | hb'
      · obtain ⟨i,hi,rfl,x,hx,hxf⟩ := hrow.frame hr hs hp
        obtain ⟨j,hj,rfl,y,hy,hyf⟩ := hrow.frame hr hs hq
        rw [he,Option.some_inj] at hx
        rw [he',Option.some_inj] at hy
        rw [hx,hy,hxf,hyf] at heq
        omega
      · exact absurd heq.symm (hdiff b hb' as hs q p hq hp e' e he' he)
    · rcases (hmem b).mp hb with rfl | hb'
      · exact absurd heq (hdiff a ha' as hs p q hp hq e e' he he')
      · rw [hold a ha' p hp as hs] at he
        rw [hold b hb' q hq as hs] at he'
        exact h.apart as hs a ha' b hb' p q hp hq e e' he he' heq

/-- A block taken out of the list. -/
theorem Inv.remove (h : Inv s spaces) (hs : as ∈ spaces) (hph : ph ∈ s.dmaPtrList)
    (hrow : Row s.frames spaces ph t) (hk : KernelMap g spaces)
    (hbits : ∀ j,g.bitmap.getBit j =
      (s.frames.bitmap.getBit j && decide (¬(t ≤ j ∧ j < t + ph.count))))
    (hpde : ∀ as ∈ spaces,∀ k,pde g as k = pde s.frames as k)
    (hwalk : ∀ as ∈ spaces,∀ page < allPages,¬ph.Has page →
      walk g as page = walk s.frames as page) :
    Inv { frames := g,dmaPtrList := s.dmaPtrList.erase ph } spaces := by
  have hsub : (s.dmaPtrList.erase ph).Sublist s.dmaPtrList := List.erase_sublist
  have hr := h.inside ph hph
  have hnodup : s.dmaPtrList.Nodup := h.ordered.imp fun hab heq => by
    rw [heq] at hab
    exact Nat.lt_irrefl _ hab.1
  have hother : ∀ a ∈ s.dmaPtrList.erase ph,∀ page,a.Has page → ¬ph.Has page := by
    intro a ha page hp hp'
    have hne := (hnodup.mem_erase_iff.mp ha).1
    exact hne (h.ordered.apart (hsub.subset ha) hph hp hp')
  have hold : ∀ a ∈ s.dmaPtrList.erase ph,∀ page,a.Has page → ∀ as ∈ spaces,
      walk g as page = walk s.frames as page := fun a ha page hp as hs =>
    hwalk as hs page ((h.inside a (hsub.subset ha)).lt_allPages hp) (hother a ha page hp)
  refine ⟨hk,h.ordered.sublist hsub,fun a ha => h.inside a (hsub.subset ha),?_,?_⟩
  · intro a ha
    have hra := h.inside a (hsub.subset ha)
    obtain ⟨u,hu⟩ := h.rows a (hsub.subset ha)
    refine ⟨u,hu.fits,?_,fun i hi => (hu.plain i hi).congr hpde,?_⟩
    · intro i hi
      rw [hbits,hu.used i hi,Bool.true_and,decide_eq_true_eq]
      rintro ⟨hl,hlt⟩
      obtain ⟨e,he,hframe⟩ := hrow.mapped as hs (u + i - t) (by omega)
      obtain ⟨e',he',hframe'⟩ := hu.mapped as hs i hi
      have hpa : a.Has (a.first + i) := hra.has_iff.mpr ⟨by omega,by omega⟩
      have heq := h.apart as hs ph hph a (hsub.subset ha) _ _
        (hr.has_iff.mpr ⟨Nat.le_add_right _ _,by omega⟩) hpa e e' he he' (by omega)
      refine hother a ha _ hpa ?_
      rw [← heq]
      exact hr.has_iff.mpr ⟨Nat.le_add_right _ _,by omega⟩
    · intro as hs i hi
      rw [hold a ha _ (hra.has_iff.mpr ⟨by omega,by omega⟩) as hs]
      exact hu.mapped as hs i hi
  · intro as hs a ha b hb p q hp hq e e' he he' heq
    rw [hold a ha p hp as hs] at he
    rw [hold b hb q hq as hs] at he'
    exact h.apart as hs a (hsub.subset ha) b (hsub.subset hb) p q hp hq e e' he he' heq

/-- Blocks are found by their addresses. -/
theorem find_address (hph : ph ∈ l) (honly : ∀ a ∈ l,a.address = ph.address → a = ph) :
    l.find? (fun a => a.address = ph.address) = some ph := by
  cases hfind : l.find? (fun a => a.address = ph.address) with
  | none => exact absurd (decide_eq_true rfl) (List.find?_eq_none.mp hfind ph hph)
  | some a =>
    have haddr : a.address = ph.address := by simpa using List.find?_some hfind
    rw [honly a (List.mem_of_find?_eq_some hfind) haddr]

/-- They are removed by their addresses. -/
theorem eraseP_address (honly : ∀ a ∈ l,a.address = ph.address → a = ph) :
    l.eraseP (fun a => a.address = ph.address) = l.erase ph := by
  induction l with
  | nil => rfl
  | cons a l ih =>
    have hrest := ih fun b hb => honly b (List.mem_cons_of_mem _ hb)
    by_cases heq : a = ph
    · rw [heq,List.erase_cons_head]
      exact List.eraseP_cons_of_pos (by simp)
    · have hne : ¬a.address = ph.address := fun h => heq (honly a (by simp) h)
      rw [List.eraseP_cons_of_neg (by rw [decide_eq_true_eq]; exact hne),hrest,
        List.erase_cons_tail (by rw [beq_iff_eq]; exact heq)]

/-- An allocation that is made where there is room. -/
theorem allocDMA_right (h : Inv s spaces) (hs : as ∈ spaces) (ha : alignment < 2 ^ 32)
    (hroom : size = 0 ∨ HasRoom s.dmaPtrList size ∨
      (allocFramesAligned s.frames.bitmap (alignPage size / pageSize) alignment).1 = noFrame) :
    AllocRight s spaces size (allocDMA s as size alignment) ∧
      Inv (allocDMA s as size alignment).2 spaces := by
  by_cases hzero : size = 0
  · rw [allocDMA,if_pos hzero]
    exact ⟨.inl ⟨rfl,rfl,rfl,rfl⟩,h⟩
  by_cases hnone : (allocFramesAligned s.frames.bitmap (alignPage size / pageSize) alignment).1 =
      noFrame
  · have hsame := allocFramesAligned_none h.kernel.size hnone
    have hrun : allocDMA s as size alignment = (0,s) := by
      rw [allocDMA,if_neg hzero]
      dsimp only
      rw [if_pos hnone,hsame]
    rw [hrun]
    exact ⟨.inl ⟨rfl,rfl,rfl,rfl⟩,h⟩
  have hroom' : HasRoom s.dmaPtrList size :=
    (hroom.resolve_left hzero).resolve_right hnone
  obtain ⟨hle,hends⟩ := hroom'
  obtain ⟨hbytes,hpages,hsmall⟩ := alignPage_spec hle
  obtain ⟨hstart,hfirst⟩ := @exactPlace_page (alignPage size) s.dmaPtrList h.inside
  obtain ⟨l₁,l₂,hsplit,hplace,hbefore,hafter⟩ := place_spec h.ordered (by omega) hends
  generalize exactPlace (alignPage size) s.dmaPtrList = va at *
  have hr : DMAPointerHead.InRange ⟨va,alignPage size⟩ :=
    ⟨hfirst.symm,hpages.symm,by show 0 < alignPage size; omega,hstart,hends⟩
  rcases @allocFramesAligned_row alignment (alignPage size / pageSize) s.frames.bitmap
    h.kernel.size hr.kernel.1 ha with hno | ⟨t,hrow,hrun⟩
  · exact absurd (by rw [hno]) hnone
  · obtain ⟨hk,hbitmap,hrow',hpde,hwalk⟩ := newPages_spec h.kernel hs hr hrun rfl
    rw [allocDMA,if_neg hzero]
    dsimp only
    rw [if_neg hnone,hplace,hrow]
    refine ⟨.inr ⟨?_,⟨va,alignPage size⟩,l₁,l₂,rfl,hbytes,hsplit,rfl,?_⟩,
      h.insert hsplit hr hbefore hafter hrun hk hbitmap hrow' hpde hwalk⟩
    · rw [dmaHeapStart] at hstart
      show va ≠ 0
      omega
    · intro as' hs' page hpage
      refine ⟨?_,hwalk as' hs' page hpage⟩
      intro hp
      obtain ⟨i,hi,-,e,he,hframe⟩ := hrow'.frame hr hs' hp
      exact ⟨e,he,by rw [hframe]; exact hrun.2 i hi⟩

/-- A deallocation. -/
theorem freeDMA_right (h : Inv s spaces) (hs : as ∈ spaces) :
    FreeRight s spaces ptr (freeDMA s as ptr) ∧ Inv (freeDMA s as ptr) spaces := by
  by_cases hlive : ∃ ph ∈ s.dmaPtrList,ph.address = ptr
  · obtain ⟨ph,hph,rfl⟩ := hlive
    have hr := h.inside ph hph
    have honly : ∀ a ∈ s.dmaPtrList,a.address = ph.address → a = ph := by
      intro a ha heq
      rcases h.ordered.cases ha hph with hsame | ⟨hlt,-⟩ | ⟨hlt,-⟩
      · exact hsame
      · omega
      · omega
    obtain ⟨t,hrow⟩ := h.rows ph hph
    obtain ⟨e,he,hframe⟩ := hrow.mapped as hs 0 hr.kernel.1
    have hpa : s.frames.getPhysicalAddress as ph.address = t * pageSize := by
      have hlt := hr.kernel.2.2
      rw [hr.address,getPhysicalAddress_page (h.kernel.tables hs) (by omega)]
      rw [Nat.add_zero] at he
      rw [he]
      show e.frame * pageSize = t * pageSize
      rw [hframe,Nat.add_zero]
    obtain ⟨hk,hbits,hpde,hwalk⟩ := oldPages_spec h.kernel hs hr hrow rfl rfl
    have hlisted : ¬(ph.address = 0 ∨ ph.size = 0) := by
      have hstart := hr.start
      have hpos := hr.pos
      rw [dmaHeapStart] at hstart
      omega
    rw [freeDMA,find_address hph honly]
    dsimp only [Option.getD_some]
    rw [if_neg hlisted,eraseP_address honly,hpa,if_neg (frame_ne_noFrame t)]
    refine ⟨⟨fun hno => absurd rfl (hno ph hph),?_⟩,
      h.remove hs hph hrow hk hbits hpde fun as' hs' page hpage => (hwalk as' hs' page hpage).2⟩
    intro a ha heq
    rw [honly a ha heq]
    refine ⟨rfl,hwalk,?_⟩
    intro as' hs' j
    refine (Eq.congr_left (hbits j)).trans ?_
    rw [Bool.and_eq_true,decide_eq_true_eq]
    refine and_congr_right fun _ => not_congr ?_
    constructor
    · rintro ⟨hl,hu⟩
      obtain ⟨e,he,hframe⟩ := hrow.mapped as' hs' (j - t) (by omega)
      exact ⟨_,e,hr.has_iff.mpr ⟨Nat.le_add_right _ _,by omega⟩,he,by omega⟩
    · rintro ⟨page,e,hp,he,rfl⟩
      obtain ⟨i,hi,-,x,hx,hxf⟩ := hrow.frame hr hs' hp
      rw [he,Option.some_inj] at hx
      rw [hx,hxf]
      omega
  · have hno : ∀ ph ∈ s.dmaPtrList,ph.address ≠ ptr := fun ph hph heq => hlive ⟨ph,hph,heq⟩
    have hnone : s.dmaPtrList.find? (fun ph => ph.address = ptr) = none := by
      rw [List.find?_eq_none]
      intro ph hph heq
      exact hno ph hph (of_decide_eq_true heq)
    have hstate : freeDMA s as ptr = s := by
      rw [freeDMA,hnone]
      exact if_pos (.inl rfl)
    rw [hstate]
    exact ⟨⟨fun _ => rfl,fun ph hph heq => absurd heq (hno ph hph)⟩,h⟩

end Blocks

/-- A call keeps the invariant and is right. -/
theorem call_right {s : Dma} {spaces : List ℕ} (h : Inv s spaces) {op : DmaOp}
    (hv : Valid spaces s op) : Right spaces s op ∧ Inv (s.apply op) spaces := by
  cases op with
  | alloc as size alignment =>
    obtain ⟨hs,-,ha,hroom⟩ := hv
    obtain ⟨hright,hinv⟩ := allocDMA_right h hs ha hroom
    exact ⟨⟨h.sound,hinv.sound,hright⟩,hinv⟩
  | free as ptr =>
    obtain ⟨hright,hinv⟩ := @freeDMA_right s spaces as ptr h hv.1
    exact ⟨⟨h.sound,hinv.sound,hright⟩,hinv⟩

/-- From the start on every call is right in which a block has at least one
page and ends in the range. -/
theorem dma_right {s : Dma} {spaces : List ℕ} (hk : KernelMap s.frames spaces)
    (hempty : s.dmaPtrList = []) {ops : List DmaOp}
    (hv : RunMeets Dma.apply (Valid spaces) s ops) : RunMeets Dma.apply (Right spaces) s ops := by
  have hstart : Inv s spaces := by
    refine ⟨hk,?_,?_,?_,?_⟩
    all_goals rw [hempty]
    · exact List.Pairwise.nil
    all_goals simp
  exact hv.imp (fun _ _ h hvalid => (call_right h hvalid).2)
    (fun _ _ h hvalid => (call_right h hvalid).1) hstart

/-- Memory with a directory in frame 1024, whose tables for the kernel are in
the frames from 768 on. -/
def kernelFrames : Frames where
  word := fun frame i => if frame = 1024 ∧ 768 ≤ i ∧ i < 1024 then i * 4096 + 3 else 0
  bitmap :=
    { bitCount := 1056
      bits := fun d => if d = 0 then 1 else if d < 24 then 0 else BitVec.allOnes 32
      ones := 0 }

/-- The start with these tables. -/
def dmaStart : Dma := ⟨kernelFrames,[]⟩

/-- An entry of the directory. -/
theorem pde_kernelFrames (k : ℕ) :
    pde kernelFrames 0x400000 k = if 768 ≤ k ∧ k < 1024 then k * 4096 + 3 else 0 := by
  have hdir : 0x400000 / pageSize = 1024 := by decide
  rw [pde,hdir]
  by_cases hk : 768 ≤ k ∧ k < 1024
  · rw [if_pos hk]
    exact if_pos ⟨rfl,hk⟩
  · rw [if_neg hk]
    exact if_neg fun h => hk h.2

/-- Tables are at their indexes. -/
theorem table_kernelFrames {k : ℕ} (hp : Present (pde kernelFrames 0x400000 k)) :
    768 ≤ k ∧ k < 1024 ∧ table kernelFrames 0x400000 k = k := by
  rw [pde_kernelFrames] at hp
  split_ifs at hp with hk
  · refine ⟨hk.1,hk.2,?_⟩
    rw [table,pde_kernelFrames,if_pos hk,pageSize]
    omega
  · exact absurd hp not_present_zero

/-- No page is mapped. -/
theorem walk_kernelFrames (page : ℕ) : walk kernelFrames 0x400000 page = none := by
  by_cases hp : Present (pde kernelFrames 0x400000 (page / 1024))
  · obtain ⟨-,hk,htable⟩ := table_kernelFrames hp
    rw [walk_eq hp,htable]
    have hword : kernelFrames.word (page / 1024) (page % 1024) = 0 := if_neg fun h => by omega
    rw [hword]
    exact if_neg not_present_zero
  · exact walk_of_not_present rfl hp

theorem kernelMap_kernelFrames : KernelMap kernelFrames [0x400000] := by
  have hdir : 0x400000 / pageSize = 1024 := by decide
  have hused : ∀ j,768 ≤ j → j < 1056 → kernelFrames.bitmap.getBit j = true := by
    intro j hl hu
    have hword : kernelFrames.bitmap.bits (j / 32) = BitVec.allOnes 32 :=
      (if_neg (by omega)).trans (if_neg (by omega))
    have hlt : ¬kernelFrames.bitmap.bitCount ≤ j := Nat.not_le.mpr hu
    rw [Bitmap.getBit,if_neg hlt,hword,BitVec.getLsbD_allOnes]
    exact decide_eq_true (Nat.mod_lt _ (by decide))
  refine ⟨by decide,?_,?_,?_,?_,?_,?_,?_⟩
  · intro as hs
    rw [List.mem_singleton.mp hs]
    exact hused _ (by decide) (by decide)
  · intro as k hs hl hk
    rw [List.mem_singleton.mp hs,pde_kernelFrames,if_pos ⟨hl,hk⟩,Present]
    omega
  · intro as as' k hs hs' _ _
    rw [List.mem_singleton.mp hs,List.mem_singleton.mp hs']
  · intro as k hs _ hp
    rw [List.mem_singleton.mp hs] at hp ⊢
    obtain ⟨hl,hu,htable⟩ := table_kernelFrames hp
    rw [htable]
    exact hused k hl (by omega)
  · intro as as' k hs hs' _ hp
    rw [List.mem_singleton.mp hs] at hp ⊢
    obtain ⟨-,hu,htable⟩ := table_kernelFrames hp
    rw [htable,List.mem_singleton.mp hs',hdir]
    omega
  · intro as as' k k' hs hs' _ _ hp hp' heq
    rw [List.mem_singleton.mp hs] at hp heq
    rw [List.mem_singleton.mp hs'] at hp' heq
    rw [(table_kernelFrames hp).2.2,(table_kernelFrames hp').2.2] at heq
    exact heq
  · intro as page e hs _ hwalk
    rw [List.mem_singleton.mp hs,walk_kernelFrames] at hwalk
    cases hwalk

/-- Three blocks, the second of which is freed and its place taken again. -/
theorem dma_right_three : RunMeets Dma.apply (Right [0x400000]) dmaStart
    [.alloc 0x400000 100 0,.alloc 0x400000 5000 8192,.alloc 0x400000 4096 0,
      .free 0x400000 0xCE001000,.free 0x400000 0xCE000800,.alloc 0x400000 8192 4096] :=
  dma_right kernelMap_kernelFrames rfl (by
    refine ⟨?_,?_,?_,?_,?_,?_,trivial⟩
    · exact ⟨by decide,by decide,by decide,.inr (.inl (by decide))⟩
    · exact ⟨by decide,by decide,by decide,.inr (.inl (by decide))⟩
    · exact ⟨by decide,by decide,by decide,.inr (.inl (by decide))⟩
    · exact ⟨by decide,by decide⟩
    · exact ⟨by decide,by decide⟩
    · exact ⟨by decide,by decide,by decide,.inr (.inl (by decide))⟩)

/-- A size close to 4 GiB is rounded to zero: the block has no page, and the
next one has the same address. -/
theorem dma_size_wraps : ¬RunMeets Dma.apply (Right [0x400000]) dmaStart
    [.alloc 0x400000 0xFFFFF001 0,.alloc 0x400000 4096 0] := by
  rintro ⟨-,⟨-,hsound,-⟩,-⟩
  have hlist : (((dmaStart.apply (.alloc 0x400000 0xFFFFF001 0)).apply
      (.alloc 0x400000 4096 0)).dmaPtrList) = [⟨dmaHeapStart,0⟩,⟨dmaHeapStart,4096⟩] := by decide
  have hord := hsound.ordered
  rw [hlist] at hord
  exact absurd (List.pairwise_cons.mp hord).1 (by decide)

end WootOs.DmaBlocks
