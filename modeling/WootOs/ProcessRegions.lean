import WootOs.ProcessBreak

/-!
# Regions that a process gets

SBrk and MMapSBrk hand out memory behind the break and in the area for mmap.
Both return the address where the memory would start, whether or not there is
any: SBrk does not look at what brk has answered, and MMapSBrk goes on where
no frame is left, leaves out what lies in the kernel, and lets the end of its
area wrap. A region is what was asked for when it ends below its limit and
there are enough frames.
-/

namespace WootOs.ProcessRegions

open FrameBitmap FrameAllocator Paging PageMap UserMemory FreshPages ProcessBreak Runs

/-- A positive intptr_t. -/
structure Increment where
  /-- Bytes. -/
  bytes : ℕ
  /-- It is positive. -/
  pos : 0 < bytes
  /-- It is not too large for its type. -/
  small : bytes < 2 ^ 31

/-- A call with pages to be mapped; the lock is got or not. -/
inductive Call where
  /-- SBrk. -/
  | sBrk (incr : Increment) (locked : Bool)
  /-- MMapSBrk. -/
  | mmapSBrk (incr : Increment) (locked : Bool)

/-- Memory that was returned. -/
structure Region where
  /-- First byte. -/
  base : ℕ
  /-- Number of bytes. -/
  size : ℕ

/-- A page with bytes of a region. -/
def Region.Has (r : Region) (page : ℕ) : Prop :=
  r.base < (page + 1) * pageSize ∧ page * pageSize < r.base + r.size

namespace Call

/-- What a call returns and the machine after it. -/
def run (m : Machine) (as : ℕ) : Call → ℕ × Machine
  | .sBrk incr locked => m.sBrk as incr.bytes true locked
  | .mmapSBrk incr locked => m.mmapSBrk as incr.bytes locked

/-- How much is asked for. -/
def incr : Call → Increment
  | .sBrk incr _ => incr
  | .mmapSBrk incr _ => incr

/-- Whether the lock is got. -/
def locked : Call → Bool
  | .sBrk _ locked => locked
  | .mmapSBrk _ locked => locked

/-- Where memory is handed out. -/
def start (b : Brk) : Call → ℕ
  | .sBrk _ _ => b.currentBrk
  | .mmapSBrk _ _ => b.currentMMapBrk

/-- Where it ends at the latest. -/
def limit (b : Brk) : Call → ℕ
  | .sBrk _ _ => b.maxBrk
  | .mmapSBrk _ _ => kernelBase

/-- The end of the memory, in whole pages. -/
def stop (b : Brk) (c : Call) : ℕ := pageUp (c.start b + c.incr.bytes)

end Call

/-- A machine and the regions that a process has got. -/
structure History where
  /-- The machine. -/
  machine : Machine
  /-- The regions. -/
  regions : List Region

/-- The history after a call of a process. -/
def History.step (as : ℕ) (h : History) (c : Call) : History where
  machine := (c.run h.machine as).2
  regions :=
    if (c.run h.machine as).1 = noFrame then h.regions
    else h.regions ++ [⟨(c.run h.machine as).1,c.incr.bytes⟩]

/-- A region that can be used: its pages are mapped for the process, each to a frame of its
own that was free before, it lies below the limit and apart from the earlier ones. -/
structure Usable (m n : Machine) (spaces : List ℕ) (as limit : ℕ) (regions : List Region)
    (r : Region) : Prop where
  /-- The pages are mapped. -/
  mapped : ∀ page,r.Has page → ∃ e,walk n.frames as page = some e ∧ e.user = true ∧
    e.write = true ∧ m.frames.bitmap.getBit e.frame = false ∧
    n.frames.bitmap.getBit e.frame = true
  /-- No other page has one of their frames. -/
  own : ∀ page,r.Has page → ∀ e,walk n.frames as page = some e → ∀ as' ∈ spaces,
    ∀ page' < userPages,∀ e',walk n.frames as' page' = some e' → e'.frame = e.frame →
      as' = as ∧ page' = page
  /-- They lie below the limit. -/
  below : ∀ page,r.Has page → (page + 1) * pageSize ≤ limit
  /-- The region lies apart from the earlier ones. -/
  apart : ∀ r' ∈ regions,r.base + r.size ≤ r'.base ∨ r'.base + r'.size ≤ r.base

/-- A call is right: what it returns is no address, or a region that can be used. -/
def Right (spaces : List ℕ) (as : ℕ) (h : History) (c : Call) : Prop :=
  (c.run h.machine as).1 ≠ noFrame → Usable h.machine (c.run h.machine as).2 spaces as
    (c.limit (h.machine.brk as)) h.regions ⟨(c.run h.machine as).1,c.incr.bytes⟩

/-- The number of pages that a call needs. -/
def pages (b : Brk) (c : Call) : ℕ := (c.stop b - c.start b) / pageSize

/-- The lock is not got, or the memory ends below its limit and there are enough frames. -/
def Fits (as : ℕ) (h : History) (c : Call) : Prop :=
  c.locked = false ∨ c.stop (h.machine.brk as) ≤ c.limit (h.machine.brk as) ∧
    Enough h.machine.frames as (c.start (h.machine.brk as) / pageSize)
      (pages (h.machine.brk as) c)

instance (as : ℕ) (h : History) (c : Call) : Decidable (Fits as h c) :=
  inferInstanceAs (Decidable (_ ∨ _))

/-- The state in which calls are made. -/
structure Inv (spaces : List ℕ) (as : ℕ) (h : History) : Prop where
  /-- The page tables are in order. -/
  built : Built h.machine.frames spaces
  /-- The process is one of those there are. -/
  space : as ∈ spaces
  /-- No more than 3 GiB of memory are handed out. -/
  short : h.machine.frames.bitmap.bitCount < 2 ^ 20
  /-- Pages have frames in use, which hold no tables. -/
  frames : ∀ as' ∈ spaces,∀ page < userPages,∀ e,walk h.machine.frames as' page = some e →
    h.machine.frames.bitmap.getBit e.frame = true ∧ NoTable h.machine.frames spaces e.frame
  /-- The break is in order. -/
  brk : Relations (h.machine.brk as)
  /-- The area for mmap is aligned. -/
  aligned : (h.machine.brk as).currentMMapBrk % pageSize = 0
  /-- It starts behind the last break. -/
  behind : (h.machine.brk as).maxBrk ≤ (h.machine.brk as).currentMMapBrk
  /-- It ends below the kernel. -/
  below : (h.machine.brk as).currentMMapBrk ≤ kernelBase
  /-- The regions are in front of the break and of the end of the area. -/
  regions : ∀ r ∈ h.regions,r.base + r.size ≤ (h.machine.brk as).currentBrk ∨
    (h.machine.brk as).maxBrk ≤ r.base ∧ r.base + r.size ≤ (h.machine.brk as).currentMMapBrk

section Any

variable {f g : Frames} {spaces : List ℕ} {as p n i : ℕ}

/-- Where AllocFrame and MapPage succeed nothing is different when their results are not
looked at. -/
theorem mapAny_of_mapNew {va : ℕ} (h : (mapNew f as va).1 = true) :
    mapAny f as va = (mapNew f as va).2 := by
  by_cases hnone : (allocFrame f.bitmap).1 = noFrame
  · rw [mapNew,if_pos hnone] at h
    cases h
  · rw [mapNew,if_neg hnone,mapAny]

/-- AllocFrame keeps frames in use. -/
theorem built_allocFrame (h : Built f spaces) :
    Built { f with bitmap := (allocFrame f.bitmap).2 } spaces ∧
      (allocFrame f.bitmap).2.bitCount = f.bitmap.bitCount := by
  rcases allocFrame_taken h.size with ⟨-,hrun⟩ | ⟨t,-,-,-,-,hcount,hbit,-⟩
  · rw [hrun]
    exact ⟨h,rfl⟩
  · refine ⟨built_setBitmap h hcount ?_,hcount⟩
    intro j _ hj
    rw [hbit,hj,Bool.true_or]

/-- A turn whose results are not looked at changes one page, if any. -/
theorem mapAny_spec (h : Built f spaces) (hs : as ∈ spaces) (hp : p < userPages) :
    Built (mapAny f as (p * pageSize)) spaces ∧
    (mapAny f as (p * pageSize)).bitmap.bitCount = f.bitmap.bitCount ∧
    ∀ as' ∈ spaces,∀ page < userPages,¬(as' = as ∧ page = p) →
      walk (mapAny f as (p * pageSize)) as' page = walk f as' page := by
  obtain ⟨hva,-,hdiv⟩ := page_below hp
  obtain ⟨hbuilt,hcount⟩ := built_allocFrame h
  have hshift := mapPage_shift (K := fun _ => False) hbuilt hs hva (allocFrame f.bitmap).1
    true true
  obtain ⟨hb,hno,hyes⟩ := mapPage_right hbuilt hs hva (Prod.mk.eta (p :=
    { f with bitmap := (allocFrame f.bitmap).2 }.mapPage as (p * pageSize)
      (allocFrame f.bitmap).1 true true)).symm
  refine ⟨hb,hshift.bitCount.trans hcount,?_⟩
  intro as' hs' page hpage hne
  cases hr : ({ f with bitmap := (allocFrame f.bitmap).2 }.mapPage as (p * pageSize)
      (allocFrame f.bitmap).1 true true).1 with
  | false =>
    rw [mapAny,hno hr]
    rfl
  | true =>
    have hc := (hyes hr).1 as' hs' page hpage
    rw [hdiv,Pages.put,if_neg hne] at hc
    exact hc

/-- Where one of them fails the page is not mapped, or to the last frame of 4 GiB. -/
theorem mapAny_stuck (h : Built f spaces) (hs : as ∈ spaces) (hp : p < userPages)
    (hfail : (mapNew f as (p * pageSize)).1 = false) {e : Mapping}
    (he : walk (mapAny f as (p * pageSize)) as p = some e) : e.frame = noFrame / pageSize := by
  obtain ⟨hva,hdir,hdiv⟩ := page_below hp
  obtain ⟨hbuilt,-⟩ := built_allocFrame h
  rcases @mapPage_cases _ spaces as (p * pageSize) (allocFrame f.bitmap).1 true true hbuilt hs hva
    with ⟨hno,-,hr⟩ | hsome
  · rw [mapAny,hr,walk_of_not_present rfl] at he
    · cases he
    · rw [hdir] at hno
      exact hno
  · have hok : ({ f with bitmap := (allocFrame f.bitmap).2 }.mapPage as (p * pageSize)
        (allocFrame f.bitmap).1 true true).1 = true := by
      rcases hsome with ⟨g,t,-,hr,-⟩ | ⟨-,hr⟩
      · rw [hr]
      · rw [hr]
    have hnone : (allocFrame f.bitmap).1 = noFrame := by
      by_contra hne
      rw [mapNew,if_neg hne] at hfail
      exact Bool.false_ne_true (hfail.symm.trans hok)
    have hpage := (mapPage_right hbuilt hs hva (Prod.mk.eta (p :=
      { f with bitmap := (allocFrame f.bitmap).2 }.mapPage as (p * pageSize)
        (allocFrame f.bitmap).1 true true)).symm).2.2 hok
    have hself := hpage.1 as hs p hp
    rw [hdiv,Pages.put,if_pos ⟨rfl,rfl⟩] at hself
    have heq := Option.some.inj (he.symm.trans hself)
    rw [heq,hnone]

/-- The loop of MMapSBrk: with enough frames all pages are mapped; otherwise there is a page
that is not, or is mapped to the last frame of 4 GiB. -/
theorem mapAll_spec (h : Built f spaces) (hs : as ∈ spaces) (hp : p + n ≤ userPages)
    (hg : g = (List.range n).foldl (fun f i => mapAny f as (p * pageSize + i * pageSize)) f) :
    (Enough f as p n ∧ Grown f g spaces as p n) ∨
    (¬Enough f as p n ∧ g.bitmap.bitCount = f.bitmap.bitCount ∧
      ∃ i < n,∀ e,walk g as (p + i) = some e → e.frame = noFrame / pageSize) := by
  have hstep : ∀ i < n,∀ g',Grown f g' spaces as p i ∧
      (List.range i).foldl (fun f i => mapAny f as (p * pageSize + i * pageSize)) f = g' →
      (mapNew g' as (p * pageSize + i * pageSize)).1 = true →
      Grown f (mapNew g' as (p * pageSize + i * pageSize)).2 spaces as p (i + 1) ∧
      (List.range (i + 1)).foldl (fun f i => mapAny f as (p * pageSize + i * pageSize)) f =
        (mapNew g' as (p * pageSize + i * pageSize)).2 := by
    rintro i hi g' ⟨hgrown,hrun⟩ hturn
    refine ⟨hgrown.turn hs (by omega) hturn,?_⟩
    rw [List.range_succ,List.foldl_append,hrun]
    exact mapAny_of_mapNew hturn
  rcases @loop_cases n Frames (fun f i => mapNew f as (p * pageSize + i * pageSize))
    (fun i g => Grown f g spaces as p i ∧
      (List.range i).foldl (fun f i => mapAny f as (p * pageSize + i * pageSize)) f = g)
    f ⟨Grown.zero h,rfl⟩ hstep with ⟨g',-,hgrown,hrun⟩ | ⟨i,hi,g',⟨hgrown,hrun⟩,hturn,-⟩
  · rw [hrun] at hg
    rw [hg]
    exact .inl ⟨hgrown.enough,hgrown⟩
  · refine .inr ⟨(hgrown.stuck hs hp hi hturn).1,?_⟩
    -- what the turn has left is not changed by those after it
    have hrest := @foldl_range_invariant Frames
      (fun f i => mapAny f as (p * pageSize + i * pageSize))
      (fun _ g => Built g spaces ∧ g.bitmap.bitCount = f.bitmap.bitCount ∧
        ∀ e,walk g as (p + i) = some e → e.frame = noFrame / pageSize) (i + 1) (n - (i + 1))
      (mapAny g' as (p * pageSize + i * pageSize)) ?_ ?_
    · have hsplit : List.range n = List.range i ++ i :: List.range' (i + 1) (n - (i + 1)) := by
        rw [List.range_eq_range',List.range_eq_range',← List.range'_succ]
        have happend := @List.range'_append_1 0 i (n - (i + 1) + 1)
        rw [Nat.zero_add,show i + (n - (i + 1) + 1) = n by omega] at happend
        exact happend.symm
      rw [hsplit,List.foldl_append,hrun,List.foldl_cons] at hg
      rw [hg]
      exact ⟨hrest.2.1,i,hi,hrest.2.2⟩
    · intro k g'' hl hu ⟨hb,hcount,hlast⟩
      rw [← Nat.add_mul]
      obtain ⟨hb',hcount',hothers⟩ := mapAny_spec hb hs (show p + k < userPages by omega)
      refine ⟨hb',hcount'.trans hcount,?_⟩
      intro e he
      rw [hothers as hs _ (by omega) fun heq => by omega] at he
      exact hlast e he
    · rw [← Nat.add_mul] at hturn ⊢
      obtain ⟨hb',hcount',-⟩ := mapAny_spec hgrown.built hs (show p + i < userPages by omega)
      exact ⟨hb',hcount'.trans hgrown.bitCount,
        fun e he => mapAny_stuck hgrown.built hs (by omega) hturn he⟩

end Any

section Calls

variable {spaces : List ℕ} {as : ℕ} {h : History} {c : Call} {start bytes page limit : ℕ}

/-- The variables of a process after a call that has succeeded. -/
def moved (b : Brk) (c : Call) : Brk :=
  match c with
  | .sBrk _ _ => { b with mappedBrk := c.stop b,currentBrk := c.stop b }
  | .mmapSBrk _ _ => { b with currentMMapBrk := c.stop b }

/-- The pages of a region that starts with a page. -/
theorem has_iff (hstart : start % pageSize = 0) (hpos : 0 < bytes) :
    Region.Has ⟨start,bytes⟩ page ↔ start / pageSize ≤ page ∧
      page < start / pageSize + (pageUp (start + bytes) - start) / pageSize := by
  simp only [Region.Has,pageUp,pageSize] at *
  omega

/-- The last one of them. -/
theorem last_page (hpos : 0 < bytes) :
    Region.Has ⟨start,bytes⟩ (pageUp (start + bytes) / pageSize - 1) ∧
      (pageUp (start + bytes) / pageSize - 1 + 1) * pageSize = pageUp (start + bytes) := by
  simp only [Region.Has,pageUp,pageSize]
  omega

/-- They lie below a limit when the last one does. -/
theorem below_iff (hpos : 0 < bytes) :
    (∀ page,Region.Has ⟨start,bytes⟩ page → (page + 1) * pageSize ≤ limit) ↔
      pageUp (start + bytes) ≤ limit := by
  obtain ⟨hlast,hend⟩ := @last_page start bytes hpos
  constructor
  · intro hall
    rw [← hend]
    exact hall _ hlast
  · intro hle page hpage
    refine le_trans ?_ hle
    simp only [Region.Has,pageUp,pageSize] at hpage ⊢
    omega

/-- The state is one for calls of brk. -/
theorem Inv.ready (hi : Inv spaces as h) : Ready h.machine spaces as :=
  ⟨hi.built,hi.space,hi.brk,hi.behind.trans hi.below,hi.frames as hi.space⟩

/-- Memory starts with a page, below the kernel. -/
theorem Inv.first (hi : Inv spaces as h) (c : Call) :
    c.start (h.machine.brk as) % pageSize = 0 ∧ c.start (h.machine.brk as) ≤ kernelBase ∧
      c.limit (h.machine.brk as) ≤ kernelBase := by
  have hmax := hi.behind.trans hi.below
  cases c with
  | sBrk incr locked => exact ⟨hi.brk.aligned,hi.brk.high.trans hmax,hmax⟩
  | mmapSBrk incr locked => exact ⟨hi.aligned,hi.below,Nat.le_refl _⟩

/-- The end of memory below the kernel does not wrap. -/
theorem stop_fits (hstop : pageUp (start + bytes) ≤ kernelBase) :
    (start + bytes) % 2 ^ 32 = start + bytes ∧
      alignPage (start + bytes) = pageUp (start + bytes) := by
  simp only [pageUp,alignPage,pageSize,kernelBase] at hstop ⊢
  omega

/-- A call that ends below its limit: with enough frames it is done; otherwise one of its pages
gets no frame. -/
theorem call_spec (hi : Inv spaces as h) (hlocked : c.locked = true)
    (hstop : c.stop (h.machine.brk as) ≤ c.limit (h.machine.brk as)) :
    (Enough h.machine.frames as (c.start (h.machine.brk as) / pageSize)
        (pages (h.machine.brk as) c) ∧
      ∃ n : Machine,c.run h.machine as = (c.start (h.machine.brk as),n) ∧
        n.brk as = moved (h.machine.brk as) c ∧
        Grown h.machine.frames n.frames spaces as (c.start (h.machine.brk as) / pageSize)
          (pages (h.machine.brk as) c)) ∨
    (¬Enough h.machine.frames as (c.start (h.machine.brk as) / pageSize)
        (pages (h.machine.brk as) c) ∧
      ∃ n : Machine,c.run h.machine as = (c.start (h.machine.brk as),n) ∧
        ∃ i < pages (h.machine.brk as) c,∀ e,
          walk n.frames as (c.start (h.machine.brk as) / pageSize + i) = some e →
          h.machine.frames.bitmap.getBit e.frame = true ∨
            n.frames.bitmap.getBit e.frame = false) := by
  obtain ⟨haligned,-,hlimit⟩ := hi.first c
  have hkernel := hstop.trans hlimit
  have hfit : c.start (h.machine.brk as) / pageSize + pages (h.machine.brk as) c ≤ userPages := by
    simp only [pages,Call.stop,pageUp,pageSize,userPages,kernelBase] at *
    omega
  have hturns : turns (c.start (h.machine.brk as)) (c.stop (h.machine.brk as)) =
      pages (h.machine.brk as) c := by
    simp only [pages,turns,Call.stop,pageUp,pageSize] at *
    omega
  have hpage : c.start (h.machine.brk as) / pageSize * pageSize = c.start (h.machine.brk as) :=
    Nat.div_mul_cancel (Nat.dvd_of_mod_eq_zero haligned)
  cases c with
  | sBrk incr locked =>
    obtain rfl : locked = true := hlocked
    obtain ⟨hsum,halign⟩ := @stop_fits (h.machine.brk as).currentBrk incr.bytes hkernel
    have hlt : (h.machine.brk as).currentBrk <
        pageUp ((h.machine.brk as).currentBrk + incr.bytes) := by
      have hpos := incr.pos
      simp only [pageUp,pageSize]
      omega
    have hrun : Call.run h.machine as (.sBrk incr true) = ((h.machine.brk as).currentBrk,
        (h.machine.moveBrk as ((h.machine.brk as).currentBrk + incr.bytes) true).2) := by
      show h.machine.sBrk as incr.bytes true true = _
      rw [Machine.sBrk,if_pos rfl,hsum]
    have hon := @moveBrk_on h.machine spaces as _ true hi.ready (by rw [halign]; exact hstop)
      (by rw [halign]; exact hlt)
    rw [halign] at hon
    rcases @grow_spec h.machine.frames spaces as _ _ hi.built hi.space hfit with
      ⟨henough,g,hg,hloop⟩ | ⟨hfew,i,hi',g,g',hg,hends,hloop⟩
    · rw [hpage,← hturns] at hloop
      refine .inl ⟨henough,_,hrun,?_,?_⟩
      · rw [hon g true hloop.symm]
        exact Function.update_self _ _ _
      · rw [hon g true hloop.symm]
        exact hg
    · rw [hpage,← hturns] at hloop
      refine .inr ⟨hfew,_,hrun,i,hi',?_⟩
      rw [hon g' false hloop.symm]
      intro e he
      have hsame : walk g' as ((h.machine.brk as).currentBrk / pageSize + i) = some e := he
      rw [hends.pages,hg.others as hi.space _ (by
        exact Nat.lt_of_lt_of_le (Nat.add_lt_add_left hi' _) hfit) fun hin => by
          exact Nat.lt_irrefl _ hin.2.2] at hsame
      exact .inl (hi.frames as hi.space _
        (Nat.lt_of_lt_of_le (Nat.add_lt_add_left hi' _) hfit) e hsame).1
  | mmapSBrk incr locked =>
    obtain rfl : locked = true := hlocked
    obtain ⟨hsum,halign⟩ := @stop_fits (h.machine.brk as).currentMMapBrk incr.bytes hkernel
    have hrun : Call.run h.machine as (.mmapSBrk incr true) =
        ((h.machine.brk as).currentMMapBrk,{ h.machine with
          frames := (List.range (turns (h.machine.brk as).currentMMapBrk
            (pageUp ((h.machine.brk as).currentMMapBrk + incr.bytes)))).foldl
              (fun f i => mapAny f as ((h.machine.brk as).currentMMapBrk + i * pageSize))
              h.machine.frames }.setBrk as
          { h.machine.brk as with
            currentMMapBrk := pageUp ((h.machine.brk as).currentMMapBrk + incr.bytes) }) := by
      show h.machine.mmapSBrk as incr.bytes true = _
      rw [Machine.mmapSBrk,if_pos rfl]
      dsimp only
      rw [hsum,halign]
      congr 2
      congr 1
      refine List.foldl_ext _ _ _ ?_
      intro f i hmem
      have hlt := lt_of_turns (List.mem_range.mp hmem)
      exact if_pos (Nat.lt_of_lt_of_le hlt hkernel)
    have hall := @mapAll_spec h.machine.frames _ spaces as _ _ hi.built hi.space hfit rfl
    rw [hpage,← hturns] at hall
    rcases hall with ⟨henough,hg⟩ | ⟨hfew,hcount,i,hi',hlast⟩
    · refine .inl ⟨by rw [← hturns]; exact henough,_,hrun,Function.update_self _ _ _,?_⟩
      rw [← hturns]
      exact hg
    · refine .inr ⟨by rw [← hturns]; exact hfew,_,hrun,i,by rw [← hturns]; exact hi',?_⟩
      intro e he
      refine .inr (getBit_past ?_)
      rw [hlast e he]
      refine le_trans (le_of_eq hcount) ?_
      have hshort := hi.short
      rw [noFrame,pageSize]
      omega

/-- Without the lock nothing happens. -/
theorem run_unlocked {m : Machine} (hlocked : c.locked = false) : c.run m as = (noFrame,m) := by
  cases c with
  | sBrk incr locked =>
    obtain rfl : locked = false := hlocked
    rfl
  | mmapSBrk incr locked =>
    obtain rfl : locked = false := hlocked
    rfl

/-- With the lock the start of the memory is returned. -/
theorem run_locked {m : Machine} (hlocked : c.locked = true) :
    (c.run m as).1 = c.start (m.brk as) := by
  cases c with
  | sBrk incr locked =>
    obtain rfl : locked = true := hlocked
    rfl
  | mmapSBrk incr locked =>
    obtain rfl : locked = true := hlocked
    rfl

/-- It is an address. -/
theorem Inv.start_ne (hi : Inv spaces as h) (c : Call) :
    c.start (h.machine.brk as) ≠ noFrame := by
  have hle := (hi.first c).2.1
  rw [kernelBase] at hle
  rw [noFrame]
  omega

/-- The bytes asked for lie in front of the end of the memory. -/
theorem le_stop (b : Brk) (c : Call) : c.start b + c.incr.bytes ≤ c.stop b := by
  simp only [Call.stop,pageUp,pageSize]
  omega

/-- A call that is done hands out a region that can be used. -/
theorem usable_of_grown (hi : Inv spaces as h) {n : Machine}
    (hstop : c.stop (h.machine.brk as) ≤ c.limit (h.machine.brk as))
    (hg : Grown h.machine.frames n.frames spaces as (c.start (h.machine.brk as) / pageSize)
      (pages (h.machine.brk as) c)) :
    Usable h.machine n spaces as (c.limit (h.machine.brk as)) h.regions
      ⟨c.start (h.machine.brk as),c.incr.bytes⟩ := by
  have haligned := (hi.first c).1
  have hpages : ∀ page,Region.Has ⟨c.start (h.machine.brk as),c.incr.bytes⟩ page →
      ∃ i < pages (h.machine.brk as) c,page = c.start (h.machine.brk as) / pageSize + i := by
    intro page hpage
    obtain ⟨hl,hu⟩ := (has_iff haligned c.incr.pos).mp hpage
    refine ⟨page - c.start (h.machine.brk as) / pageSize,?_,by omega⟩
    rw [pages,Call.stop]
    omega
  refine ⟨?_,?_,(below_iff c.incr.pos).mpr hstop,?_⟩
  · intro page hpage
    obtain ⟨i,hlt,rfl⟩ := hpages page hpage
    obtain ⟨e,he,hfree,hused,huser,hwrite⟩ := hg.fresh i hlt
    exact ⟨e,he,huser,hwrite,hfree,hused⟩
  · intro page hpage e he as' hs' page' hpage' e' he' heq
    obtain ⟨i,hlt,rfl⟩ := hpages page hpage
    by_cases hin : as' = as ∧ c.start (h.machine.brk as) / pageSize ≤ page' ∧
        page' < c.start (h.machine.brk as) / pageSize + pages (h.machine.brk as) c
    · obtain ⟨rfl,hl,hu⟩ := hin
      rw [← Nat.add_sub_cancel' hl] at he' ⊢
      rw [hg.apart _ (by omega) i hlt e' e he' he heq]
      exact ⟨rfl,rfl⟩
    · rw [hg.others as' hs' page' hpage' hin] at he'
      obtain ⟨x,hx,hfree,-⟩ := hg.fresh i hlt
      rw [he,Option.some_inj] at hx
      rw [← hx,← heq,(hi.frames as' hs' page' hpage' e' he').1] at hfree
      cases hfree
  · intro r' hr'
    have hle := le_stop (h.machine.brk as) c
    have hhigh := hi.brk.high
    have hbehind := hi.behind
    cases c with
    | sBrk incr locked =>
      simp only [Call.start,Call.limit,Call.incr] at hstop hle ⊢
      rcases hi.regions r' hr' with hbefore | ⟨hafter,-⟩
      · exact .inr hbefore
      · exact .inl (by omega)
    | mmapSBrk incr locked =>
      simp only [Call.start]
      rcases hi.regions r' hr' with hbefore | ⟨-,hbefore⟩
      · exact .inr (by omega)
      · exact .inr hbefore

/-- A call is right exactly when it fits. -/
theorem call_right_iff (hi : Inv spaces as h) (c : Call) :
    Right spaces as h c ↔ Fits as h c := by
  cases hlocked : c.locked with
  | false =>
    refine ⟨fun _ => .inl hlocked,fun _ hne => ?_⟩
    rw [run_unlocked hlocked] at hne
    exact absurd rfl hne
  | true =>
    have hbase := @run_locked as c h.machine hlocked
    have hne := hi.start_ne c
    rw [Right,Fits,hlocked,hbase]
    constructor
    · intro hright
      have husable := hright hne
      have hstop := (below_iff c.incr.pos).mp husable.below
      rcases call_spec hi hlocked hstop with ⟨henough,-⟩ | ⟨-,n,hrun,i,hlt,hlast⟩
      · exact .inr ⟨hstop,henough⟩
      · rw [hrun] at husable
        obtain ⟨e,he,-,-,hfree,hused⟩ := husable.mapped _
          ((has_iff (hi.first c).1 c.incr.pos).mpr ⟨Nat.le_add_right _ i,
            Nat.add_lt_add_left hlt _⟩)
        rcases hlast e he with hused' | hfree'
        · rw [hused'] at hfree
          cases hfree
        · rw [hfree'] at hused
          cases hused
    · rintro (hno | ⟨hstop,henough⟩) _
      · cases hno
      · rcases call_spec hi hlocked hstop with ⟨-,n,hrun,-,hg⟩ | ⟨hfew,-⟩
        · rw [hrun]
          exact usable_of_grown hi hstop hg
        · exact absurd henough hfew

/-- Pages keep frames of their own kind. -/
theorem grown_frames (hi : Inv spaces as h) {g : Frames} {p n : ℕ}
    (hg : Grown h.machine.frames g spaces as p n) : ∀ as' ∈ spaces,∀ page < userPages,∀ e,
    walk g as' page = some e → g.bitmap.getBit e.frame = true ∧ NoTable g spaces e.frame := by
  intro as' hs' page hpage e he
  by_cases hin : as' = as ∧ p ≤ page ∧ page < p + n
  · obtain ⟨rfl,hl,hu⟩ := hin
    rw [← Nat.add_sub_cancel' hl] at he
    obtain ⟨x,hx,-,hused,-⟩ := hg.fresh (page - p) (by omega)
    rw [he,Option.some_inj] at hx
    rw [← hx] at hused
    exact ⟨hused,hg.own _ (by omega) e he⟩
  · rw [hg.others as' hs' page hpage hin] at he
    obtain ⟨hused,hno⟩ := hi.frames as' hs' page hpage e he
    exact ⟨hg.bits _ hused,hg.tables _ hused hno⟩

/-- A call that fits leaves a state for further calls. -/
theorem Inv.step (hi : Inv spaces as h) (hfits : Fits as h c) :
    Inv spaces as (h.step as c) := by
  cases hlocked : c.locked with
  | false =>
    rw [History.step,run_unlocked hlocked,if_pos rfl]
    exact hi
  | true =>
    rw [Fits,hlocked] at hfits
    obtain ⟨hstop,henough⟩ := hfits.resolve_left (by decide)
    rcases call_spec hi hlocked hstop with ⟨-,n,hrun,hbrk,hg⟩ | ⟨hfew,-⟩
    · rw [History.step,hrun]
      dsimp only
      rw [if_neg (hi.start_ne c)]
      have hle := le_stop (h.machine.brk as) c
      have hlow := hi.brk.low
      have hhigh := hi.brk.high
      have hbehind := hi.behind
      have hvars : Relations (n.brk as) ∧ (n.brk as).currentMMapBrk % pageSize = 0 ∧
          (n.brk as).maxBrk ≤ (n.brk as).currentMMapBrk ∧
          (n.brk as).currentMMapBrk ≤ kernelBase ∧
          ∀ r ∈ h.regions ++ [⟨c.start (h.machine.brk as),c.incr.bytes⟩],
            r.base + r.size ≤ (n.brk as).currentBrk ∨
            (n.brk as).maxBrk ≤ r.base ∧ r.base + r.size ≤ (n.brk as).currentMMapBrk := by
        rw [hbrk]
        cases c with
        | sBrk incr locked =>
          refine ⟨⟨?_,hstop,rfl,pageUp_mod _⟩,hi.aligned,hbehind,hi.below,?_⟩
          · exact hlow.trans ((Nat.le_add_right _ _).trans hle)
          · intro r hr
            rcases List.mem_append.mp hr with hold | hnew
            · rcases hi.regions r hold with hbefore | hafter
              · exact .inl (hbefore.trans ((Nat.le_add_right _ _).trans hle))
              · exact .inr hafter
            · rw [List.mem_singleton.mp hnew]
              exact .inl hle
        | mmapSBrk incr locked =>
          refine ⟨⟨hlow,hhigh,hi.brk.mapped,hi.brk.aligned⟩,pageUp_mod _,
            hbehind.trans ((Nat.le_add_right _ _).trans hle),hstop,?_⟩
          intro r hr
          rcases List.mem_append.mp hr with hold | hnew
          · rcases hi.regions r hold with hbefore | ⟨hl,hu⟩
            · exact .inl hbefore
            · exact .inr ⟨hl,hu.trans ((Nat.le_add_right _ _).trans hle)⟩
          · rw [List.mem_singleton.mp hnew]
            exact .inr ⟨hbehind,hle⟩
      obtain ⟨hrel,haligned,hbehind',hbelow,hregions⟩ := hvars
      exact ⟨hg.built,hi.space,by rw [hg.bitCount]; exact hi.short,grown_frames hi hg,hrel,
        haligned,hbehind',hbelow,hregions⟩
    · exact absurd henough hfew

/-- In a run every call is right exactly when every call fits. -/
theorem regions_right_iff (hi : Inv spaces as h) (cs : List Call) :
    RunMeets (History.step as) (Right spaces as) h cs ↔
      RunMeets (History.step as) (Fits as) h cs :=
  runMeets_iff (fun _ c hi => call_right_iff hi c) (fun _ _ hi hfits => hi.step hfits) hi

end Calls

/-- A machine with six free frames and an empty directory in frame 1. -/
def sixFree : Machine where
  frames :=
    { word := fun _ _ => 0
      bitmap := { bitCount := 8,bits := fun d => if d = 0 then 3 else 0,ones := 2 } }
  brk := twoFree.brk
  shared := twoFree.shared

/-- An increment of 5000 bytes. -/
def someBytes : Increment := ⟨5000,by decide,by decide⟩

/-- An increment of 100 bytes. -/
def fewBytes : Increment := ⟨100,by decide,by decide⟩

/-- A process without pages. -/
theorem inv_empty {m : Machine} (hword : ∀ frame i,m.frames.word frame i = 0)
    (hcount : m.frames.bitmap.bitCount < 2 ^ 20) (hdir : m.frames.bitmap.getBit 1 = true)
    (hbrk : m.brk = twoFree.brk) : Inv [0x1000] 0x1000 ⟨m,[]⟩ := by
  have hone : m.brk 0x1000 = twoFree.brk 0x1000 := by rw [hbrk]
  refine ⟨built_empty hword hcount.le hdir,List.mem_singleton_self _,hcount,?_,?_,?_,?_,?_,
    by simp⟩
  · intro as' _ page _ e he
    rw [walk_empty hword] at he
    cases he
  all_goals dsimp only
  all_goals rw [hone]
  · exact ⟨by decide,by decide,rfl,by decide⟩
  all_goals decide

/-- Memory behind the break, in the area for mmap, and without the lock. -/
theorem regions_right_three : RunMeets (History.step 0x1000) (Right [0x1000] 0x1000) ⟨sixFree,[]⟩
    [.sBrk fewBytes true,.mmapSBrk someBytes true,.sBrk someBytes false] :=
  (regions_right_iff (@inv_empty sixFree (fun _ _ => rfl) (by decide) (by decide) rfl) _).mpr
    (by decide)

/-- Two pages need three frames: the address is returned, the second page is not mapped, and
the next call returns the same address. -/
theorem region_without_memory :
    (Call.run twoFree 0x1000 (.sBrk someBytes true)).1 = 0x8100000 ∧
    walk (Call.run twoFree 0x1000 (.sBrk someBytes true)).2.frames 0x1000 0x8101 = none ∧
    ((((⟨twoFree,[]⟩ : History).step 0x1000 (.sBrk someBytes true)).step 0x1000
      (.sBrk fewBytes true)).regions.map Region.base) = [0x8100000,0x8100000] ∧
    ¬RunMeets (History.step 0x1000) (Right [0x1000] 0x1000) ⟨twoFree,[]⟩
      [.sBrk someBytes true] := by
  have hbase : (Call.run twoFree 0x1000 (.sBrk someBytes true)).1 = 0x8100000 := by decide
  have hnone : walk (Call.run twoFree 0x1000 (.sBrk someBytes true)).2.frames 0x1000 0x8101 =
      none := by decide
  refine ⟨hbase,hnone,by decide,?_⟩
  rintro ⟨hright,-⟩
  have husable := hright (by rw [hbase]; decide)
  obtain ⟨e,he,-⟩ := husable.mapped 0x8101 (by
    rw [hbase]
    exact ⟨by decide,by decide⟩)
  rw [hnone] at he
  cases he

end WootOs.ProcessRegions
