import WootOs.FreshPages
import WootOs.UserCalls

/-!
# The break of a process

brk moves the end of a process's data: it maps fresh pages up to the new break
or gives back those behind it. A request that is out of bounds changes nothing.
One that runs out of frames gives up where it is: the pages mapped so far stay,
and so does a frame that was taken for a page whose page table got none. Pages
that other calls have mapped in front of the break are mapped again.
-/

namespace WootOs.ProcessBreak

open FrameBitmap FrameAllocator Paging PageMap UserMemory FreshPages Runs

/-- Bytes in whole pages, in numbers that do not wrap. -/
def pageUp (n : ℕ) : ℕ := (n + (pageSize - 1)) / pageSize * pageSize

/-- The relations of a break. -/
structure Relations (b : Brk) : Prop where
  /-- It is not below the first one. -/
  low : b.minBrk ≤ b.currentBrk
  /-- Nor above the last one. -/
  high : b.currentBrk ≤ b.maxBrk
  /-- It is mapped. -/
  mapped : b.mappedBrk = b.currentBrk
  /-- It is aligned. -/
  aligned : b.currentBrk % pageSize = 0

/-- The state in which brk is called. -/
structure Ready (m : Machine) (spaces : List ℕ) (as : ℕ) : Prop where
  /-- The page tables are in order. -/
  built : Built m.frames spaces
  /-- The process is one of those there are. -/
  space : as ∈ spaces
  /-- Its break is in order. -/
  brk : Relations (m.brk as)
  /-- The last break lies below the kernel. -/
  below : (m.brk as).maxBrk ≤ kernelBase
  /-- Its pages have frames in use, which hold no tables. -/
  frames : ∀ page < userPages,∀ e,walk m.frames as page = some e →
    m.frames.bitmap.getBit e.frame = true ∧ NoTable m.frames spaces e.frame

/-- A request that was served, with the break now at the one asked for. -/
structure Served (m n : Machine) (spaces : List ℕ) (as brk : ℕ) (allocPages : Bool) : Prop where
  /-- Pages below the break that were mapped stay mapped to their frames. -/
  stays : ∀ page e,(m.brk as).minBrk < (page + 1) * pageSize → page * pageSize < brk →
    walk m.frames as page = some e → ∃ e',walk n.frames as page = some e' ∧ e'.frame = e.frame
  /-- New pages are mapped to frames that were free. -/
  fresh : allocPages = true → ∀ page,(m.brk as).currentBrk ≤ page * pageSize →
    page * pageSize < brk → ∃ e,walk n.frames as page = some e ∧
      m.frames.bitmap.getBit e.frame = false ∧ n.frames.bitmap.getBit e.frame = true
  /-- No two of them have one frame. -/
  apart : allocPages = true → ∀ p q,(m.brk as).currentBrk ≤ p * pageSize →
    p * pageSize < brk → (m.brk as).currentBrk ≤ q * pageSize → q * pageSize < brk →
    ∀ e e',walk n.frames as p = some e → walk n.frames as q = some e' → e.frame = e'.frame → p = q
  /-- Pages behind the break are unmapped and their frames free. -/
  excess : ∀ page,brk ≤ page * pageSize → page * pageSize < (m.brk as).currentBrk →
    walk n.frames as page = none ∧
      ∀ e,walk m.frames as page = some e → n.frames.bitmap.getBit e.frame = false
  /-- Other pages are what they were. -/
  others : ∀ as' ∈ spaces,∀ page < userPages,as' ≠ as ∨
    (page * pageSize < brk ∧ page * pageSize < (m.brk as).currentBrk) ∨
    (brk ≤ page * pageSize ∧ (m.brk as).currentBrk ≤ page * pageSize) →
    walk n.frames as' page = walk m.frames as' page

/-- A request that was not served: nothing has changed. -/
structure Refused (m n : Machine) (spaces : List ℕ) (as : ℕ) : Prop where
  /-- The break is the old one. -/
  brk : n.brk as = m.brk as
  /-- The mappings are the old ones. -/
  pages : ∀ as' ∈ spaces,∀ page < userPages,walk n.frames as' page = walk m.frames as' page
  /-- The same frames are in use. -/
  bits : ∀ j,n.frames.bitmap.getBit j = m.frames.bitmap.getBit j

/-- A call of brk is right: the break is in order afterwards, and the call
has served the request or changed nothing. -/
structure Right (m : Machine) (spaces : List ℕ) (as brk : ℕ) (allocPages : Bool) : Prop where
  /-- The relations hold. -/
  relations : Relations ((m.moveBrk as brk allocPages).2.brk as)
  /-- The bounds are the old ones. -/
  bounds : ((m.moveBrk as brk allocPages).2.brk as).minBrk = (m.brk as).minBrk ∧
    ((m.moveBrk as brk allocPages).2.brk as).maxBrk = (m.brk as).maxBrk
  /-- The new break is returned, and the request is served. -/
  served : (m.moveBrk as brk allocPages).1 = pageUp brk →
    ((m.moveBrk as brk allocPages).2.brk as).currentBrk = pageUp brk ∧
      Served m (m.moveBrk as brk allocPages).2 spaces as (pageUp brk) allocPages
  /-- Or it is not: the old one is. -/
  refused : (m.moveBrk as brk allocPages).1 ≠ pageUp brk →
    (m.moveBrk as brk allocPages).1 = (m.brk as).currentBrk ∧
      Refused m (m.moveBrk as brk allocPages).2 spaces as

/-- The pages in front of a break up to another one. -/
def newPages (b : Brk) (brk : ℕ) : ℕ := (brk - b.currentBrk) / pageSize

/-- A break that can be reached: no frame is needed, or none is there, or there
are enough, and no page on the way is mapped. -/
def Reachable (m : Machine) (as brk : ℕ) (allocPages : Bool) : Prop :=
  brk ≤ (m.brk as).currentBrk ∨ allocPages = false ∨ clearCount m.frames.bitmap = 0 ∨
    Enough m.frames as ((m.brk as).currentBrk / pageSize) (newPages (m.brk as) brk) ∧
      ∀ page,(m.brk as).currentBrk ≤ page * pageSize → page * pageSize < brk →
        walk m.frames as page = none

/-- When brk is right: the request is out of bounds, or it can be reached. One that is rounded
up to 4 GiB is taken for zero, which must then be out of bounds or the break there is. -/
def Meets (m : Machine) (as brk : ℕ) (allocPages : Bool) : Prop :=
  if pageUp brk < 2 ^ 32 then
    pageUp brk < (m.brk as).minBrk ∨ (m.brk as).maxBrk < pageUp brk ∨
      Reachable m as (pageUp brk) allocPages
  else 0 < (m.brk as).minBrk ∨ (m.brk as).currentBrk = 0

section Shrink

variable {f g : Frames} {spaces : List ℕ} {as p n q : ℕ}

/-- Memory after pages in a row were given back. -/
structure Shrunk (f g : Frames) (spaces : List ℕ) (as p n : ℕ) : Prop where
  /-- The page tables are in order. -/
  built : Built g spaces
  /-- No frame was taken. -/
  bits : ∀ j,g.bitmap.getBit j = true → f.bitmap.getBit j = true
  /-- The pages are unmapped. -/
  gone : ∀ i < n,walk g as (p + i) = none
  /-- Their frames are free. -/
  freed : ∀ i < n,∀ e,walk f as (p + i) = some e → g.bitmap.getBit e.frame = false
  /-- The other pages are what they were. -/
  others : ∀ as' ∈ spaces,∀ page < userPages,¬(as' = as ∧ p ≤ page ∧ page < p + n) →
    walk g as' page = walk f as' page
  /-- There are no new page tables. -/
  tables : ∀ j,NoTable f spaces j → NoTable g spaces j

/-- The pages depend on the words only. -/
theorem walk_congr (hword : g.word = f.word) (as page : ℕ) : walk g as page = walk f as page := by
  cases f
  cases g
  cases hword
  rfl

/-- One page given back. -/
theorem releasePage_spec (h : Built f spaces) (hs : as ∈ spaces) (hp : q < userPages)
    (hframe : ∀ e,walk f as q = some e → e.frame < 2 ^ 20 ∧ NoTable f spaces e.frame) :
    Shrunk f (releasePage f as (q * pageSize)) spaces as q 1 := by
  obtain ⟨hva,-,hdiv⟩ := page_below hp
  -- FreeFrame of the frame of the page
  obtain ⟨g,hrun,hword,hg,hbits,hfreed⟩ : ∃ g,
      releasePage f as (q * pageSize) = (g.unMapPage as (q * pageSize)).2 ∧ g.word = f.word ∧
      Built g spaces ∧ (∀ j,g.bitmap.getBit j = true → f.bitmap.getBit j = true) ∧
      ∀ e,walk f as q = some e → g.bitmap.getBit e.frame = false := by
    cases hw : walk f as q with
    | none =>
      refine ⟨f,?_,rfl,h,fun _ hj => hj,fun e he => by cases he⟩
      have hpa : f.getPhysicalAddress as (q * pageSize) = noFrame := by
        rw [getPhysicalAddress_eq,hdiv,hw]
      rw [releasePage,if_neg (not_not_intro hpa)]
    | some e =>
      obtain ⟨hsmall,hno⟩ := hframe e hw
      have hpa : f.getPhysicalAddress as (q * pageSize) = e.frame * pageSize := by
        rw [getPhysicalAddress_eq,hdiv,hw]
        show (e.frame * pageSize + q * pageSize % pageSize) % 2 ^ 32 = e.frame * pageSize
        rw [Nat.mul_mod_left,Nat.add_zero,Nat.mod_eq_of_lt]
        rw [pageSize]
        omega
      have hne : e.frame * pageSize ≠ noFrame := by
        rw [pageSize,noFrame]
        omega
      have hbit : ∀ j,(f.free (e.frame * pageSize)).bitmap.getBit j =
          (f.bitmap.getBit j && decide (j ≠ e.frame)) := by
        intro j
        refine (getBit_freeFrame _ j).trans ?_
        rw [Nat.mul_div_cancel _ (by decide)]
      refine ⟨f.free (e.frame * pageSize),?_,rfl,?_,?_,?_⟩
      · rw [releasePage,hpa,if_pos hne]
      · refine built_setBitmap h (freeFrame_bitCount _) ?_
        intro j hj hu
        refine (hbit j).trans ?_
        rw [hu,Bool.true_and,decide_eq_true_eq]
        rintro rfl
        exact hj hno
      · intro j hj
        rw [hbit,Bool.and_eq_true] at hj
        exact hj.1
      · intro e' he'
        rw [← Option.some.inj he',hbit,decide_eq_false (not_not_intro rfl),Bool.and_false]
  have hpde : ∀ as k,pde g as k = pde f as k := fun as k => by rw [pde,hword,pde]
  have hwalk := walk_congr hword
  have hshift := @unMapPage_shift (fun _ => False) spaces g as (q * pageSize) hg hs hva
  obtain ⟨hbuilt,-,hchange,hfrees,hsame⟩ := unMapPage_right hg hs hva
    (Prod.mk.eta (p := g.unMapPage as (q * pageSize))).symm
  rw [← hrun] at hshift hbuilt hchange hfrees hsame
  rw [hdiv] at hchange
  have hfewer : ∀ j,(releasePage f as (q * pageSize)).bitmap.getBit j = true →
      g.bitmap.getBit j = true := by
    intro j hj
    by_cases hcase : (g.unMapPage as (q * pageSize)).1 = true ∧
        NoPages (releasePage f as (q * pageSize)) as (q * pageSize / largePageSize)
    · rw [(hfrees hcase).2,Bool.and_eq_true] at hj
      exact hj.1
    · rwa [hsame hcase] at hj
  refine ⟨hbuilt,fun j hj => hbits j (hfewer j hj),?_,?_,?_,?_⟩
  · intro i hi
    rw [Nat.lt_one_iff.mp hi,Nat.add_zero,hchange as hs q hp,Pages.put,if_pos ⟨rfl,rfl⟩]
  · intro i hi e he
    rw [Nat.lt_one_iff.mp hi,Nat.add_zero] at he
    have hfree := hfreed e he
    by_contra hu
    rw [Bool.not_eq_false] at hu
    rw [hfewer _ hu] at hfree
    cases hfree
  · intro as' hs' page hpage hout
    rw [hchange as' hs' page hpage,Pages.put,if_neg fun heq => hout ⟨heq.1,by omega⟩,hwalk]
  · intro j hj as' hs'
    refine ⟨(hj as' hs').1,?_⟩
    intro k hk hp'
    rcases hshift.tables as' hs' k hk hp' with ⟨hold,htable⟩ | hfree
    · rw [htable,table,hpde]
      rw [hpde] at hold
      exact (hj as' hs').2 k hk hold
    · rw [hfewer _ (hbuilt.used_table hs' hk hp')] at hfree
      cases hfree

/-- Pages in a row, given back one by one. -/
theorem shrink_spec (h : Built f spaces) (hs : as ∈ spaces) (hp : p + n ≤ userPages)
    (hframe : ∀ page < userPages,∀ e,walk f as page = some e →
      e.frame < 2 ^ 20 ∧ NoTable f spaces e.frame) :
    Shrunk f ((List.range n).foldl (fun f i => releasePage f as (p * pageSize + i * pageSize)) f)
      spaces as p n := by
  have hstart : Shrunk f f spaces as p 0 :=
    ⟨h,fun _ hj => hj,fun _ hi => absurd hi (Nat.not_lt_zero _),
      fun _ hi => absurd hi (Nat.not_lt_zero _),fun _ _ _ _ _ => rfl,fun _ hj => hj⟩
  have hloop := @foldl_range_invariant Frames
    (fun f i => releasePage f as (p * pageSize + i * pageSize))
    (fun i g => Shrunk f g spaces as p i) 0 n f ?_ hstart
  · rw [← List.range_eq_range',Nat.zero_add] at hloop
    exact hloop
  intro i g _ hi hg
  rw [Nat.zero_add] at hi
  have hwalk : walk g as (p + i) = walk f as (p + i) :=
    hg.others as hs _ (by omega) fun hin => by omega
  have hone := releasePage_spec hg.built hs (show p + i < userPages by omega) (by
    intro e he
    rw [hwalk] at he
    obtain ⟨hsmall,hno⟩ := hframe _ (by omega) e he
    exact ⟨hsmall,hg.tables _ hno⟩)
  rw [Nat.add_mul] at hone
  refine ⟨hone.built,fun j hj => hg.bits j (hone.bits j hj),?_,?_,?_,
    fun j hj => hone.tables j (hg.tables j hj)⟩
  · intro j hj
    by_cases heq : j = i
    · rw [heq]
      exact hone.gone 0 Nat.one_pos
    · rw [hone.others as hs _ (by omega) fun hin => by omega]
      exact hg.gone j (by omega)
  · intro j hj e he
    by_cases heq : j = i
    · rw [heq,← hwalk] at he
      exact hone.freed 0 Nat.one_pos e he
    · have hfree := hg.freed j (by omega) e he
      by_contra hu
      rw [Bool.not_eq_false] at hu
      rw [hone.bits _ hu] at hfree
      cases hfree
  · intro as' hs' page hpage hout
    rw [hone.others as' hs' page hpage fun hin => hout ⟨hin.1,by omega⟩]
    exact hg.others as' hs' page hpage fun hin => hout ⟨hin.1,by omega⟩

end Shrink

section Calls

variable {m n : Machine} {spaces : List ℕ} {as brk : ℕ} {allocPages : Bool}

/-- Rounding up fits in 32 bits, or gives 4 GiB and wraps. -/
theorem alignPage_cases (hbrk : brk < 2 ^ 32) :
    (pageUp brk < 2 ^ 32 ∧ alignPage brk = pageUp brk) ∨
      (pageUp brk = 2 ^ 32 ∧ alignPage brk = 0) := by
  simp only [pageUp,alignPage,pageSize]
  omega

theorem pageUp_mod (brk : ℕ) : pageUp brk % pageSize = 0 := Nat.mul_mod_left _ _

/-- A break between the bounds, counted in pages. -/
theorem Ready.pages (h : Ready m spaces as) (hbrk : brk % pageSize = 0)
    (hmax : brk ≤ (m.brk as).maxBrk) : brk / pageSize * pageSize = brk ∧
    (m.brk as).currentBrk / pageSize * pageSize = (m.brk as).currentBrk ∧
    brk / pageSize ≤ userPages ∧ (m.brk as).currentBrk / pageSize ≤ userPages := by
  have haligned := h.brk.aligned
  have hbelow := h.below
  have hhigh := h.brk.high
  simp only [pageSize,userPages,kernelBase] at *
  omega

/-- Pages are mapped to frames below 4 GiB that hold no tables. -/
theorem Ready.small (h : Ready m spaces as) : ∀ page < userPages,∀ e,
    walk m.frames as page = some e → e.frame < 2 ^ 20 ∧ NoTable m.frames spaces e.frame := by
  intro page hpage e he
  obtain ⟨hused,hno⟩ := h.frames page hpage e he
  exact ⟨Nat.lt_of_lt_of_le (lt_of_getBit hused) h.built.size,hno⟩

/-- A call that has changed nothing but memory, and memory not to be seen. -/
theorem right_of_refused (h : Ready m spaces as) (hne : (m.brk as).currentBrk ≠ pageUp brk)
    (hrun : m.moveBrk as brk allocPages = ((m.brk as).currentBrk,n))
    (hn : Refused m n spaces as) : Right m spaces as brk allocPages := by
  refine ⟨?_,?_,?_,?_⟩
  · rw [hrun,hn.brk]
    exact h.brk
  · rw [hrun,hn.brk]
    exact ⟨rfl,rfl⟩
  · rw [hrun]
    exact fun heq => absurd heq hne
  · rw [hrun]
    exact fun _ => ⟨rfl,hn⟩

/-- A call that has moved the break. -/
theorem right_of_served (hmin : (m.brk as).minBrk ≤ pageUp brk)
    (hmax : pageUp brk ≤ (m.brk as).maxBrk)
    (hrun : m.moveBrk as brk allocPages = (pageUp brk,n))
    (hbrk : n.brk as = { m.brk as with mappedBrk := pageUp brk,currentBrk := pageUp brk })
    (hn : Served m n spaces as (pageUp brk) allocPages) : Right m spaces as brk allocPages := by
  refine ⟨?_,?_,?_,?_⟩
  · rw [hrun,hbrk]
    exact ⟨hmin,hmax,rfl,pageUp_mod brk⟩
  · rw [hrun,hbrk]
    exact ⟨rfl,rfl⟩
  · rw [hrun,hbrk]
    exact fun _ => ⟨rfl,hn⟩
  · rw [hrun]
    exact fun hne => absurd rfl hne

/-- Out of bounds nothing happens. -/
theorem moveBrk_out (hout : alignPage brk < (m.brk as).minBrk ∨ (m.brk as).maxBrk < alignPage brk) :
    m.moveBrk as brk allocPages = ((m.brk as).currentBrk,m) := by
  rw [Machine.moveBrk]
  exact if_pos hout

/-- The break goes back. -/
theorem moveBrk_back (h : Ready m spaces as) (hmin : (m.brk as).minBrk ≤ alignPage brk)
    (hle : alignPage brk ≤ (m.brk as).currentBrk) {f : Frames}
    (hf : f = (List.range (turns (alignPage brk) (m.brk as).currentBrk)).foldl
      (fun f i => releasePage f as (alignPage brk + i * pageSize)) m.frames) :
    m.moveBrk as brk allocPages = (alignPage brk,{ m with frames := f }.setBrk as
      { m.brk as with mappedBrk := alignPage brk,currentBrk := alignPage brk }) := by
  have hmax := hle.trans h.brk.high
  rw [Machine.moveBrk]
  simp only [alignPage_alignPage,h.brk.mapped]
  rw [if_neg (by omega),if_neg (by omega),hf]

/-- The break goes on. -/
theorem moveBrk_on (h : Ready m spaces as) (hmax : alignPage brk ≤ (m.brk as).maxBrk)
    (hlt : (m.brk as).currentBrk < alignPage brk) (f : Frames) (r : Bool)
    (hloop : (r,f) = if allocPages then
        loop (fun f i => mapNew f as ((m.brk as).currentBrk + i * pageSize))
          (List.range (turns (m.brk as).currentBrk (alignPage brk))) m.frames
      else (true,m.frames)) : m.moveBrk as brk allocPages =
    if r then (alignPage brk,{ m with frames := f }.setBrk as
      { m.brk as with mappedBrk := alignPage brk,currentBrk := alignPage brk })
    else ((m.brk as).currentBrk,{ m with frames := f }) := by
  have hmin := h.brk.low
  rw [Machine.moveBrk]
  simp only [alignPage_alignPage,h.brk.mapped]
  rw [if_neg (by omega),if_pos hlt,← hloop]

/-- Pages in a range are those counted from its start. -/
theorem page_range {start stop : ℕ} (hstart : start % pageSize = 0) (hstop : stop % pageSize = 0)
    (hle : start ≤ stop) (page : ℕ) : (start ≤ page * pageSize ↔ start / pageSize ≤ page) ∧
      (page * pageSize < stop ↔ page < start / pageSize + turns start stop) := by
  simp only [turns,pageSize] at *
  omega

/-- The pages of a range end where it ends. -/
theorem turns_end {start stop : ℕ} (hstart : start % pageSize = 0) (hstop : stop % pageSize = 0)
    (hle : start ≤ stop) : start / pageSize + turns start stop = stop / pageSize ∧
      turns start stop = (stop - start) / pageSize := by
  simp only [turns,pageSize] at *
  omega

/-- Giving pages back serves a request. -/
theorem served_back (h : Ready m spaces as) (hmod : brk % pageSize = 0)
    (hle : brk ≤ (m.brk as).currentBrk) (hg : Shrunk m.frames n.frames spaces as (brk / pageSize)
      (turns brk (m.brk as).currentBrk)) : Served m n spaces as brk allocPages := by
  have hrange := page_range hmod h.brk.aligned hle
  refine ⟨?_,?_,?_,?_,?_⟩
  · intro page e _ hlt he
    refine ⟨e,?_,rfl⟩
    have hpage : page < userPages := by
      have := (h.pages hmod (hle.trans h.brk.high)).2.2.1
      have := (hrange page).1
      omega
    rw [hg.others as h.space page hpage fun hin => by have := (hrange page).1; omega,he]
  · intro _ page hl hu
    omega
  · intro _ p q hl hu
    omega
  · intro page hl hu
    obtain ⟨h₁,h₂⟩ := hrange page
    have hat : brk / pageSize + (page - brk / pageSize) = page := by omega
    have hi : page - brk / pageSize < turns brk (m.brk as).currentBrk := by omega
    have hgone := hg.gone _ hi
    have hfreed := hg.freed _ hi
    rw [hat] at hgone hfreed
    exact ⟨hgone,hfreed⟩
  · intro as' hs' page hpage hout
    obtain ⟨h₁,h₂⟩ := hrange page
    refine hg.others as' hs' page hpage fun hin => ?_
    rcases hout with hne | hin' | hin'
    · exact hne hin.1
    · omega
    · omega

/-- Fresh pages serve a request if none of them was mapped. -/
theorem served_on (h : Ready m spaces as) (hmod : brk % pageSize = 0)
    (hle : (m.brk as).currentBrk ≤ brk) (hmax : brk ≤ (m.brk as).maxBrk)
    (hnone : ∀ page,(m.brk as).currentBrk ≤ page * pageSize → page * pageSize < brk →
      walk m.frames as page = none)
    (hg : Grown m.frames n.frames spaces as ((m.brk as).currentBrk / pageSize)
      (turns (m.brk as).currentBrk brk)) : Served m n spaces as brk allocPages := by
  have hrange := page_range h.brk.aligned hmod hle
  have huser := (h.pages hmod hmax).2.2.1
  have hsplit : ∀ page,(m.brk as).currentBrk ≤ page * pageSize → page * pageSize < brk →
      ∃ i < turns (m.brk as).currentBrk brk,page = (m.brk as).currentBrk / pageSize + i := by
    intro page hl hu
    obtain ⟨h₁,h₂⟩ := hrange page
    exact ⟨page - (m.brk as).currentBrk / pageSize,by omega,by omega⟩
  refine ⟨?_,?_,?_,?_,?_⟩
  · intro page e _ hlt he
    refine ⟨e,?_,rfl⟩
    have hbelow : page * pageSize < (m.brk as).currentBrk := by
      by_contra hge
      rw [hnone page (by omega) hlt] at he
      cases he
    have hpage : page < userPages := by
      have hpages := h.pages hmod hmax
      rw [← hpages.1] at hlt
      have := Nat.lt_of_mul_lt_mul_right hlt
      omega
    rw [hg.others as h.space page hpage fun hin => by have := (hrange page).1; omega,he]
  · intro _ page hl hu
    obtain ⟨i,hi,rfl⟩ := hsplit page hl hu
    obtain ⟨e,he,hfree,hused,-⟩ := hg.fresh i hi
    exact ⟨e,he,hfree,hused⟩
  · intro _ p q hl hu hl' hu' e e' he he' heq
    obtain ⟨i,hi,rfl⟩ := hsplit p hl hu
    obtain ⟨j,hj,rfl⟩ := hsplit q hl' hu'
    rw [hg.apart i hi j hj e e' he he' heq]
  · intro page hl hu
    omega
  · intro as' hs' page hpage hout
    obtain ⟨h₁,h₂⟩ := hrange page
    refine hg.others as' hs' page hpage fun hin => ?_
    rcases hout with hne | hin' | hin'
    · exact hne hin.1
    · omega
    · omega

/-- Without fresh pages nothing changes but the break. -/
theorem served_same (hle : (m.brk as).currentBrk ≤ brk) (hframes : n.frames = m.frames) :
    Served m n spaces as brk false := by
  refine ⟨?_,fun hno => absurd hno (by decide),fun hno => absurd hno (by decide),?_,?_⟩
  · intro page e _ _ he
    exact ⟨e,by rw [hframes,he],rfl⟩
  · intro page hl hu
    omega
  · intro as' hs' page hpage hout
    rw [hframes]

/-- A request between the bounds, in front of the break or behind it. -/
theorem reach_right_iff (h : Ready m spaces as) (heq : alignPage brk = pageUp brk)
    (hmin : (m.brk as).minBrk ≤ pageUp brk) (hmax : pageUp brk ≤ (m.brk as).maxBrk) :
    Right m spaces as brk allocPages ↔ Reachable m as (pageUp brk) allocPages := by
  have hmod := pageUp_mod brk
  have hpages := h.pages hmod hmax
  have hset : ∀ f,(({ m with frames := f }.setBrk as
      { m.brk as with mappedBrk := pageUp brk,currentBrk := pageUp brk }).brk as) =
      { m.brk as with mappedBrk := pageUp brk,currentBrk := pageUp brk } :=
    fun f => Function.update_self _ _ _
  by_cases hle : pageUp brk ≤ (m.brk as).currentBrk
  · refine ⟨fun _ => .inl hle,fun _ => ?_⟩
    have hrun := @moveBrk_back m spaces as brk allocPages h (by rw [heq]; exact hmin)
      (by rw [heq]; exact hle) _ rfl
    rw [heq] at hrun
    refine right_of_served hmin hmax hrun (hset _) (served_back h hmod hle ?_)
    have hturns : pageUp brk / pageSize + turns (pageUp brk) (m.brk as).currentBrk ≤ userPages := by
      rw [(turns_end hmod h.brk.aligned hle).1]
      exact hpages.2.2.2
    have hshrink := @shrink_spec m.frames spaces as (pageUp brk / pageSize)
      (turns (pageUp brk) (m.brk as).currentBrk) h.built h.space hturns h.small
    rw [hpages.1] at hshrink
    exact hshrink
  · have hlt : (m.brk as).currentBrk < pageUp brk := Nat.not_le.mp hle
    have hon := @moveBrk_on m spaces as brk allocPages h (by rw [heq]; exact hmax)
      (by rw [heq]; exact hlt)
    rw [heq] at hon
    cases allocPages with
    | false =>
      refine ⟨fun _ => .inr (.inl rfl),fun _ => ?_⟩
      exact right_of_served hmin hmax ((hon m.frames true rfl).trans (if_pos rfl)) (hset _)
        (served_same hlt.le rfl)
    | true =>
      obtain ⟨hend,hturns⟩ := turns_end h.brk.aligned hmod hlt.le
      have hgrow := @grow_spec m.frames spaces as ((m.brk as).currentBrk / pageSize)
        (turns (m.brk as).currentBrk (pageUp brk)) h.built h.space (by
          rw [hend]
          exact hpages.2.2.1)
      rw [hpages.2.1] at hgrow
      rw [Reachable,newPages,← hturns]
      have hpos : 0 < turns (m.brk as).currentBrk (pageUp brk) := by
        simp only [turns,pageSize]
        omega
      rcases hgrow with ⟨henough,g,hg,hloop⟩ | ⟨hfew,i,hi,g,g',hg,hends,hloop⟩
      · have hrun := (hon g true hloop.symm).trans (if_pos rfl)
        have hcount := hg.count
        constructor
        · intro hright
          refine .inr (.inr (.inr ⟨henough,?_⟩))
          intro page hl hu
          by_contra hsome
          obtain ⟨e,he⟩ := Option.ne_none_iff_exists'.mp hsome
          have hserved := (hright.served (by rw [hrun])).2
          have hlow := h.brk.low
          obtain ⟨e',he',hframe⟩ := hserved.stays page e (by
            rw [Nat.add_mul]
            exact Nat.lt_of_le_of_lt (hlow.trans hl) (Nat.lt_add_of_pos_right (by decide))) hu he
          obtain ⟨x,hx,hfree,-⟩ := hserved.fresh rfl page hl hu
          have hpage : page < userPages := by
            rw [← hpages.1] at hu
            exact Nat.lt_of_lt_of_le (Nat.lt_of_mul_lt_mul_right hu) hpages.2.2.1
          have hused := (h.frames page hpage e he).1
          rw [he',Option.some_inj] at hx
          rw [← hx,hframe,hused] at hfree
          cases hfree
        · rintro (hle' | hno | hzero | ⟨-,hnone⟩)
          · omega
          · cases hno
          · omega
          · exact right_of_served hmin hmax hrun (hset _)
              (served_on h hmod hlt.le hmax hnone hg)
      · have hrun := (hon g' false hloop.symm).trans (if_neg (by decide))
        have hcount := hg.count
        constructor
        · intro hright
          refine .inr (.inr (.inl ?_))
          have hbits := (hright.refused (by rw [hrun]; exact hlt.ne)).2.bits
          rw [hrun] at hbits
          rw [← hends.count]
          exact (clearCount_congr (hends.bitCount.trans hg.bitCount) hbits).symm
        · rintro (hle' | hno | hzero | ⟨henough,-⟩)
          · omega
          · cases hno
          · obtain rfl : i = 0 := by omega
            refine right_of_refused h hlt.ne hrun ⟨rfl,?_,?_⟩
            · intro as' hs' page hpage
              show walk g' as' page = walk m.frames as' page
              rw [hends.pages]
              exact hg.others as' hs' page hpage fun hin => by omega
            · intro j
              show g'.bitmap.getBit j = m.frames.bitmap.getBit j
              by_cases hj : j < m.frames.bitmap.bitCount
              · have hall := clearCount_eq_zero.mp hzero j hj
                rw [hall,hends.bits j (hg.bits j hall)]
              · rw [getBit_past (Nat.not_lt.mp hj),
                  getBit_past (by rw [hends.bitCount,hg.bitCount]; exact Nat.not_lt.mp hj)]
          · exact absurd henough hfew

/-- brk is right exactly for a request that is out of bounds or can be reached. -/
theorem brk_right_iff (h : Ready m spaces as) (hbrk : brk < 2 ^ 32) (allocPages : Bool) :
    Right m spaces as brk allocPages ↔ Meets m as brk allocPages := by
  have hcurrent : (m.brk as).currentBrk ≤ kernelBase := h.brk.high.trans h.below
  rcases alignPage_cases hbrk with ⟨hsmall,heq⟩ | ⟨hwrap,heq⟩
  · rw [Meets,if_pos hsmall]
    by_cases hout : pageUp brk < (m.brk as).minBrk ∨ (m.brk as).maxBrk < pageUp brk
    · have hne : (m.brk as).currentBrk ≠ pageUp brk := by
        have hlow := h.brk.low
        have hhigh := h.brk.high
        omega
      refine ⟨fun _ => hout.imp_right .inl,fun _ => ?_⟩
      exact right_of_refused h hne (moveBrk_out (by rw [heq]; exact hout))
        ⟨rfl,fun _ _ _ _ => rfl,fun _ => rfl⟩
    · rw [reach_right_iff h heq (by omega) (by omega)]
      refine ⟨fun hr => .inr (.inr hr),?_⟩
      rintro (hlow | hhigh | hr)
      · exact absurd (.inl hlow) hout
      · exact absurd (.inr hhigh) hout
      · exact hr
  · rw [Meets,hwrap,if_neg (Nat.lt_irrefl _)]
    have hne : (m.brk as).currentBrk ≠ pageUp brk := by
      rw [hwrap]
      rw [kernelBase] at hcurrent
      omega
    by_cases hmin : 0 < (m.brk as).minBrk
    · refine ⟨fun _ => .inl hmin,fun _ => ?_⟩
      exact right_of_refused h hne (moveBrk_out (by rw [heq]; exact .inl hmin))
        ⟨rfl,fun _ _ _ _ => rfl,fun _ => rfl⟩
    · have hback := @moveBrk_back m spaces as brk allocPages h (by omega) (by omega) _ rfl
      rw [heq] at hback
      constructor
      · intro hright
        have hrefused := (hright.refused (by
          rw [hback,hwrap]
          exact (by decide : 0 ≠ 2 ^ 32))).1
        rw [hback] at hrefused
        exact .inr hrefused.symm
      · rintro (hpos | hzero)
        · exact absurd hpos hmin
        · rw [hzero] at hback
          refine right_of_refused h hne (by rw [hback,hzero]) ⟨?_,?_,?_⟩
          · have hmapped := h.brk.mapped
            refine (Function.update_self _ _ _).trans ?_
            generalize m.brk as = b at hmapped hzero ⊢
            cases b
            simp only at hmapped hzero
            rw [hmapped,hzero]
          · exact fun _ _ _ _ => rfl
          · exact fun _ => rfl

end Calls

section Empty

variable {f : Frames}

/-- Memory that is all zero has no page tables. -/
theorem pde_empty (hword : ∀ frame i,f.word frame i = 0) (as k : ℕ) : ¬Present (pde f as k) := by
  rw [pde,hword]
  exact not_present_zero

/-- It has no pages. -/
theorem walk_empty (hword : ∀ frame i,f.word frame i = 0) (as page : ℕ) :
    walk f as page = none :=
  walk_of_not_present rfl (pde_empty hword as _)

/-- It has a directory in order, if the frame of it is in use. -/
theorem built_empty (hword : ∀ frame i,f.word frame i = 0) (hcount : f.bitmap.bitCount ≤ 2 ^ 20)
    (hdir : f.bitmap.getBit 1 = true) : Built f [0x1000] := by
  refine ⟨hcount,?_,?_,fun _ _ _ => hword _ _,?_,?_,?_,?_,?_⟩
  · intro as hs
    rw [List.mem_singleton.mp hs]
    decide
  · intro as hs
    rw [List.mem_singleton.mp hs]
    exact hdir
  · exact fun _ _ hp => absurd hp (pde_empty hword _ _)
  · exact fun _ _ hp => absurd hp (pde_empty hword _ _)
  · exact fun _ _ hp => absurd hp (pde_empty hword _ _)
  · exact fun _ _ hp => absurd hp (pde_empty hword _ _)
  · exact fun _ _ hp => absurd hp (pde_empty hword _ _)

end Empty

/-- A machine with two free frames and an empty directory in frame 1. -/
def twoFree : Machine where
  frames :=
    { word := fun _ _ => 0
      bitmap := { bitCount := 4,bits := fun d => if d = 0 then 3 else 0,ones := 2 } }
  brk := fun _ =>
    { minBrk := 0x8100000
      maxBrk := 0x80000000
      currentBrk := 0x8100000
      mappedBrk := 0x8100000
      currentMMapBrk := 0x80000000 }
  shared := fun _ => { pageCount := 0,frames := [],mappings := [] }

theorem ready_twoFree : Ready twoFree [0x1000] 0x1000 := by
  refine ⟨built_empty (fun _ _ => rfl) (by decide) (by decide),List.mem_singleton_self _,
    ⟨by decide,by decide,rfl,by decide⟩,by decide,?_⟩
  intro page _ e he
  rw [walk_empty fun _ _ => rfl] at he
  cases he

/-- The break goes on by one page. -/
theorem brk_right_page : Right twoFree [0x1000] 0x1000 0x8100123 true :=
  (brk_right_iff ready_twoFree (by decide) true).mpr (by
    rw [Meets,if_pos (by decide)]
    refine .inr (.inr (.inr (.inr (.inr ⟨by decide,?_⟩))))
    exact fun page _ _ => walk_empty (fun _ _ => rfl) _ page)

/-- Two pages need three frames: the old break is returned, and the first page is mapped. -/
theorem brk_half_done : (twoFree.moveBrk 0x1000 0x8102000 true).1 = 0x8100000 ∧
    (walk (twoFree.moveBrk 0x1000 0x8102000 true).2.frames 0x1000 0x8100).isSome ∧
    ¬Right twoFree [0x1000] 0x1000 0x8102000 true := by
  have hrun : (twoFree.moveBrk 0x1000 0x8102000 true).1 = 0x8100000 := by decide
  refine ⟨hrun,by decide,?_⟩
  intro hright
  have hbits := (hright.refused (by rw [hrun]; decide)).2.bits 2
  revert hbits
  decide

end WootOs.ProcessBreak
