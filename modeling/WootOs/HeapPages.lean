import WootOs.KernelHeapResize
import WootOs.KernelSpace
import WootOs.UserMemory

/-!
# Pages given back by the heap

A deallocation gives back the pages between the end of the block before and
the end of the freed one, rounded up and down to pages. No byte of a block that
stays lies in them, nor of the first and the last block, and every page that
lies within the data of the freed block is among them.
-/

namespace WootOs.HeapPages

open ByteStore FrameBitmap FrameAllocator Paging PageMap KernelSpace UserMemory Runs
open KernelHeap hiding pageSize

/-- Free the frame of a page, if it has one, and unmap it. -/
def freePage (f : Frames) (as pagePtr : ℕ) : Frames :=
  let phAddr := f.getPhysicalAddress as pagePtr
  let f := if phAddr ≠ noFrame then { f with bitmap := (freeFrames f.bitmap phAddr 1).2 } else f
  (f.unMapPage as pagePtr).2

/-- The loop of Heap::free over the pages that hold nothing any more. -/
def freePages (h : Heap) (f : Frames) (as ptr : ℕ) : Frames :=
  let blk := ptr - headerSize
  let prev := previous h.mem blk
  let prevEnd := (prev + headerSize + size h.mem prev) % 2 ^ 32
  let thisEnd := (blk + headerSize + size h.mem blk) % 2 ^ 32
  let prevEndPagePtr := align prevEnd pageSize
  let thisEndPagePtr := pageSize * (thisEnd / pageSize)
  (List.range (turns prevEndPagePtr thisEndPagePtr)).foldl
    (fun f i => freePage f as (prevEndPagePtr + i * pageSize)) f

/-- What a deallocation does to the list and to the pages of an address space. -/
structure FreeRight (h h' : Heap) (f g : Frames) (as ptr : ℕ) : Prop where
  /-- The block leaves the list, and no other one does. -/
  erased : h'.blocks = h.blocks.erase (ptr - headerSize)
  /-- The list is in order. -/
  order : WellFormed h'
  /-- Pages are unmapped, and none is mapped to something else. -/
  unmapped : ∀ page < allPages, walk g as page = none ∨ walk g as page = walk f as page
  /-- A page with a byte of a block in the list stays mapped. -/
  spared : ∀ blk ∈ h'.blocks, ∀ x, blk ≤ x → x < blk + headerSize + size h'.mem blk →
    walk g as (x / pageSize) = walk f as (x / pageSize)
  /-- Frames of unmapped pages are freed, and no others. -/
  frames : ∀ j, g.bitmap.getBit j = true ↔ f.bitmap.getBit j = true ∧
    ¬∃ page < allPages, ∃ e, walk f as page = some e ∧ walk g as page = none ∧ e.frame = j
  /-- A page within the data of the block is unmapped. -/
  released : ∀ page, ptr ≤ page * pageSize →
    (page + 1) * pageSize ≤ ptr + size h.mem (ptr - headerSize) → walk g as page = none

/-- The pages from a on, below n, have been given back. -/
structure Given (f g : Frames) (as a n : ℕ) : Prop where
  /-- The page tables are apart. -/
  tables : Tables g as
  /-- These pages are unmapped, and no others. -/
  pages : ∀ page < allPages, walk g as page = if a ≤ page ∧ page < n then none else walk f as page
  /-- Their frames are free, and no others. -/
  bits : ∀ j, g.bitmap.getBit j = true ↔ f.bitmap.getBit j = true ∧
    ¬∃ page, (a ≤ page ∧ page < n) ∧ ∃ e, walk f as page = some e ∧ e.frame = j

section

variable {h : Heap} {f g : Frames} {m : Store} {l₁ l₂ : List ℕ} {as a n k blk prv nxt ptr : ℕ}

/-- Before the first turn. -/
theorem Given.start (ht : Tables f as) : Given f f as a a := by
  refine ⟨ht,?_,?_⟩
  · intro page _
    rw [if_neg (by omega)]
  · intro j
    refine (and_iff_left ?_).symm
    rintro ⟨page,hin,-⟩
    omega

/-- One turn. -/
theorem Given.step (hg : Given f g as a n) (han : a ≤ n) (hn : n < allPages)
    (hkernel : kernelBase ≤ n * pageSize) :
    Given f (freePage g as (n * pageSize)) as a (n + 1) := by
  have hpage := hg.pages n hn
  rw [if_neg (by omega)] at hpage
  have hsplit : ∀ page, (a ≤ page ∧ page < n + 1) ↔ (a ≤ page ∧ page < n) ∨ page = n := by
    intro page
    omega
  rw [freePage,getPhysicalAddress_page hg.tables hn]
  cases hw : walk g as n with
  | none =>
    -- the page is not mapped, and nothing happens
    rw [hw] at hpage
    simp only [ne_eq,not_true_eq_false,if_false]
    rw [unMapPage_kernel hkernel,if_pos hw]
    refine ⟨hg.tables,?_,?_⟩
    · intro page hlt
      rw [hg.pages page hlt]
      by_cases heq : page = n
      · rw [heq,← hpage,ite_self,ite_self]
      · have hiff : (a ≤ page ∧ page < n) ↔ (a ≤ page ∧ page < n + 1) := by omega
        simp only [hiff]
    · intro j
      rw [hg.bits]
      refine and_congr_right fun _ => not_congr ?_
      constructor
      · rintro ⟨page,hin,e,he⟩
        exact ⟨page,(hsplit page).mpr (.inl hin),e,he⟩
      · rintro ⟨page,hin,e,he,hj⟩
        rcases (hsplit page).mp hin with hin | rfl
        · exact ⟨page,hin,e,he,hj⟩
        · rw [← hpage] at he
          cases he
  | some e =>
    rw [hw] at hpage
    have hp : Present (pde g as (n / 1024)) := by
      by_contra hno
      rw [walk_of_not_present rfl hno] at hw
      cases hw
    have htables := hg.tables.setBitmap (freeFrames g.bitmap (e.frame * pageSize) 1).2
    simp only [ne_eq,frame_ne_noFrame,not_false_eq_true,if_true]
    rw [unMapPage_kernel hkernel]
    have hwalk : walk { g with bitmap := (freeFrames g.bitmap (e.frame * pageSize) 1).2 } as n =
        some e := hw
    rw [if_neg (by rw [hwalk]; simp)]
    refine ⟨htables.write hn hp (by decide),?_,?_⟩
    · intro page hlt
      rw [walk_write htables hn hp hlt]
      by_cases heq : page = n
      · rw [if_pos heq,if_pos (by omega),mappingOf,if_neg not_present_zero]
      · rw [if_neg heq]
        have hiff : (a ≤ page ∧ page < n) ↔ (a ≤ page ∧ page < n + 1) := by omega
        simp only [← hiff]
        exact hg.pages page hlt
    · intro j
      have hfree : (freeFrames g.bitmap (e.frame * pageSize) 1).2.getBit j = true ↔
          g.bitmap.getBit j = true ∧ j ≠ e.frame := by
        have hone : (freeFrames g.bitmap (e.frame * pageSize) 1).2 =
            (freeFrame g.bitmap (e.frame * pageSize)).2 := by
          rw [freeFrames]
          split <;> rfl
        rw [hone,getBit_freeFrame,Nat.mul_div_cancel _ (by decide),Bool.and_eq_true,
          decide_eq_true_iff]
      rw [bitmap_write,hfree,hg.bits,and_assoc]
      refine and_congr_right fun _ => ?_
      constructor
      · rintro ⟨hbefore,hne⟩ ⟨page,hin,e',he',hj⟩
        rcases (hsplit page).mp hin with hin | rfl
        · exact hbefore ⟨page,hin,e',he',hj⟩
        · rw [← hpage] at he'
          rw [Option.some.inj he'] at hne
          exact hne hj.symm
      · intro hno
        refine ⟨?_,?_⟩
        · rintro ⟨page,hin,e',he'⟩
          exact hno ⟨page,(hsplit page).mpr (.inl hin),e',he'⟩
        · rintro rfl
          exact hno ⟨n,(hsplit n).mpr (.inr rfl),e,hpage.symm,rfl⟩

/-- All turns. -/
theorem Given.loop (ht : Tables f as) (hend : a + k ≤ allPages) (hkernel : kernelBase ≤ a * pageSize) :
    Given f ((List.range k).foldl (fun f i => freePage f as (a * pageSize + i * pageSize)) f) as a
      (a + k) := by
  rw [List.range_eq_range']
  have hloop := @foldl_range_invariant Frames
    (fun f i => freePage f as (a * pageSize + i * pageSize)) (fun i g => Given f g as a (a + i))
    0 k f ?_ (Given.start ht)
  · rwa [Nat.zero_add] at hloop
  · intro i g _ hi hg
    have hstep := hg.step (by omega) (by omega)
      (hkernel.trans (Nat.mul_le_mul_right _ (Nat.le_add_right a i)))
    rwa [Nat.add_mul] at hstep

/-- The pages given back, counted. -/
theorem freePages_given (hprv : Neighbours h.mem prv blk) (hbase : kernelBase ≤ prv)
    (hsmall : blk + headerSize + size h.mem blk + (pageSize - 1) < 2 ^ 32) (ht : Tables f as) :
    Given f (freePages h f as (blk + headerSize)) as
      ((prv + headerSize + size h.mem prv + (pageSize - 1)) / pageSize)
      ((prv + headerSize + size h.mem prv + (pageSize - 1)) / pageSize +
        ((blk + headerSize + size h.mem blk) / pageSize -
          (prv + headerSize + size h.mem prv + (pageSize - 1)) / pageSize)) := by
  have hbelow := hprv.below
  have hstart : align ((prv + headerSize + size h.mem prv) % 2 ^ 32) pageSize =
      (prv + headerSize + size h.mem prv + (pageSize - 1)) / pageSize * pageSize := by
    rw [Nat.mod_eq_of_lt (by omega),Nat.mul_comm]
    exact align_page (by simp only [KernelHeap.pageSize,pageSize] at *; omega)
  have hstop : pageSize * ((blk + headerSize + size h.mem blk) % 2 ^ 32 / pageSize) =
      (blk + headerSize + size h.mem blk) / pageSize * pageSize := by
    rw [Nat.mod_eq_of_lt (by omega),Nat.mul_comm]
  rw [freePages]
  simp only [Nat.add_sub_cancel,hprv.backward,hstart,hstop]
  generalize hA : (prv + headerSize + size h.mem prv + (pageSize - 1)) / pageSize = A
  generalize hB : (blk + headerSize + size h.mem blk) / pageSize = B
  have hturns : turns (A * pageSize) (B * pageSize) = B - A := by
    rw [turns]
    simp only [pageSize]
    omega
  rw [hturns]
  refine Given.loop ht ?_ ?_
  · simp only [allPages,pageSize] at *
    omega
  · simp only [pageSize] at *
    omega

/-- Sizes of blocks outside the gap stay. -/
theorem unlinked_size (hprv : Neighbours m prv blk) (hnxt : Neighbours m blk nxt)
    (hsmall : nxt < 2 ^ 32)
    (hwrap : prv + headerSize + size m prv + (KernelHeap.pageSize - 1) < 2 ^ 32)
    (fresh : Store) (ha : a + headerSize ≤ prv ∨ a = prv ∨ nxt ≤ a) :
    size (unlinked m prv blk nxt fresh) a = size m a := by
  have hH : headerSize = 16 := rfl
  have hb1 := hprv.below
  have hb2 := hnxt.below
  refine word_congr fun i hi => ?_
  rw [unlinked_eq hprv hnxt hsmall hwrap fresh (by omega),setWord_out (by omega),
    setWord_out (by omega)]

/-- A deallocation in the kernel's heap gives back just the pages that hold
nothing any more. -/
theorem free_right (hk : Placed h) (hlive : Live h ptr) (ht : Tables f as) (fresh : Store) :
    FreeRight h (h.free ptr fresh) f (freePages h f as ptr) as ptr := by
  have hH : headerSize = 16 := rfl
  have hP : KernelHeap.pageSize = 4096 := rfl
  have hp : pageSize = 4096 := rfl
  have hfree := hk.freeable hlive
  have hl : Linked h h.blocks := hk.wellFormed
  obtain ⟨blk,hb,hfirst,hlast,rfl⟩ := hlive
  rw [Freeable,Nat.add_sub_cancel] at hfree
  obtain ⟨hlinked,-⟩ := hl.free_live hb hfirst hlast hfree fresh
  obtain ⟨l₁,prv,nxt,l₂,hsplit⟩ := hl.between hb hfirst hlast
  have hl' := hl
  rw [hsplit] at hl'
  obtain ⟨-,hprv,hrest⟩ := chain_split hl'.chain
  have hnxt := (List.isChain_cons_cons.mp hrest).1
  have hb1 := hprv.below
  have hb2 := hnxt.below
  have hnend := hl'.end_le (a := nxt) (by simp)
  have hpstart := hl'.start_le (a := prv) (by simp)
  have habove := hk.above
  have hbelow := hk.below
  have herase : h.blocks.erase blk = l₁ ++ prv :: nxt :: l₂ := by
    have hone := (hl'.free fresh (by
      rw [prevEnd,Nat.add_sub_cancel,hprv.backward]
      omega)).1
    exact hlinked.blocks_eq.symm.trans hone.blocks_eq
  have hgiven := freePages_given hprv
    (show kernelBase ≤ prv by rw [kernelBase]; omega) (by omega) ht
  generalize freePages h f as (blk + headerSize) = g at hgiven ⊢
  have hbounds : ∀ page, (prv + headerSize + size h.mem prv + (pageSize - 1)) / pageSize ≤ page ∧
      page < (prv + headerSize + size h.mem prv + (pageSize - 1)) / pageSize +
        ((blk + headerSize + size h.mem blk) / pageSize -
          (prv + headerSize + size h.mem prv + (pageSize - 1)) / pageSize) ↔
      prv + headerSize + size h.mem prv ≤ page * pageSize ∧
        (page + 1) * pageSize ≤ blk + headerSize + size h.mem blk := by
    intro page
    rw [hp]
    omega
  refine ⟨?_,hlinked.wellFormed,?_,?_,?_,?_⟩
  · rw [hlinked.blocks_eq,Nat.add_sub_cancel]
  · intro page hpage
    rw [hgiven.pages page hpage]
    split
    · exact .inl rfl
    · exact .inr rfl
  · intro b hbin x hx hu
    rw [hlinked.blocks_eq,herase] at hbin
    have hpw := (chain_pairwise hl'.chain).sublist (sublist_between l₁ l₂ prv blk nxt)
    have hwhere : b + headerSize + size h.mem b ≤ prv ∨ b = prv ∨ nxt ≤ b := by
      by_cases heq : b = prv
      · exact .inr (.inl heq)
      · rcases apart_from_gap hpw hbin heq with hlow | hhigh
        · exact .inl hlow
        · exact .inr (.inr hhigh)
    have hin : b ∈ h.blocks := by
      rw [hsplit]
      exact (sublist_between l₁ l₂ prv blk nxt).subset hbin
    have hbend := hl.end_le hin
    rw [free_eq hprv hnxt] at hu
    dsimp only at hu
    rw [unlinked_size hprv hnxt (by omega) (by omega) fresh (by omega)] at hu
    rw [hgiven.pages _ (by rw [allPages,hp]; omega),if_neg]
    rw [hbounds,hp]
    rcases hwhere with hlow | rfl | hhigh
    · omega
    · omega
    · omega
  · intro j
    rw [hgiven.bits]
    refine and_congr_right fun _ => not_congr ?_
    constructor
    · rintro ⟨page,hin,e,he,hj⟩
      have hlt : page < allPages := by
        have := (hbounds page).mp hin
        rw [hp] at this
        rw [allPages]
        omega
      exact ⟨page,hlt,e,he,by rw [hgiven.pages page hlt,if_pos hin],hj⟩
    · rintro ⟨page,hlt,e,he,hnone,hj⟩
      rw [hgiven.pages page hlt] at hnone
      by_cases hin : (prv + headerSize + size h.mem prv + (pageSize - 1)) / pageSize ≤ page ∧
          page < (prv + headerSize + size h.mem prv + (pageSize - 1)) / pageSize +
            ((blk + headerSize + size h.mem blk) / pageSize -
              (prv + headerSize + size h.mem prv + (pageSize - 1)) / pageSize)
      · exact ⟨page,hin,e,he,hj⟩
      · rw [if_neg hin,he] at hnone
        cases hnone
  · intro page hlow hhigh
    rw [Nat.add_sub_cancel] at hhigh
    have hlt : page < allPages := by
      rw [hp] at hhigh
      rw [allPages]
      omega
    rw [hgiven.pages page hlt,if_pos]
    rw [hbounds]
    exact ⟨by omega,hhigh⟩

end

/-- Memory with a page table in frame 2 for the first pages of the heap, which
are mapped to the frames from 16 on. -/
def heapFrames : Frames where
  word := fun frame i =>
    if frame = 1 ∧ i = 768 then 0x2003
    else if frame = 2 ∧ 256 ≤ i ∧ i < 260 then (i - 240) * 4096 + 3 else 0
  bitmap := Bitmap.new 32 true

/-- The only page table is in frame 2. -/
theorem heapFrames_table {k : ℕ} (hp : Present (pde heapFrames 0x1000 k)) : k = 768 := by
  by_contra hk
  have hword : pde heapFrames 0x1000 k = 0 := by
    have hdir : 0x1000 / pageSize = 1 := by decide
    rw [pde,hdir]
    exact (if_neg fun h => hk h.2).trans (if_neg fun h => absurd h.1 (by decide))
  rw [hword] at hp
  exact not_present_zero hp

theorem tables_heapFrames : Tables heapFrames 0x1000 := by
  refine ⟨fun _ _ hp hp' _ => (heapFrames_table hp).trans (heapFrames_table hp').symm,?_,?_⟩
  · intro k _ hp
    rw [heapFrames_table hp]
    decide
  · intro page e _ hwalk
    simp only [walk] at hwalk
    split_ifs at hwalk with hp hpte
    rw [← Option.some.inj hwalk,heapFrames_table hp]
    have htable : table heapFrames 0x1000 768 = 2 := by decide
    rw [htable]
    have hword : heapFrames.word 2 (page % 1024) ≤ 100 * pageSize := by
      show (if 2 = 1 ∧ page % 1024 = 768 then 0x2003 else
        if 2 = 2 ∧ 256 ≤ page % 1024 ∧ page % 1024 < 260 then (page % 1024 - 240) * 4096 + 3
        else 0) ≤ 100 * pageSize
      rw [pageSize]
      split_ifs
      all_goals omega
    simp only [pageSize] at hword ⊢
    omega

/-- A block of 100 bytes is freed. -/
theorem free_right_block : FreeRight kernelHeapUsed
    (kernelHeapUsed.free 0xC0100020 fun _ => 7) heapFrames
    (freePages kernelHeapUsed heapFrames 0x1000 0xC0100020) 0x1000 0xC0100020 :=
  free_right placed_kernelHeapUsed live_kernelHeapUsed tables_heapFrames fun _ => 7

end WootOs.HeapPages
