import Mathlib.Order.Interval.Finset.Nat
import WootOs.UserFence

/-!
# Fresh pages

A process that grows gets its pages one by one: a frame for the page, and one
more where its page table is missing. As long as there are enough frames all
pages are mapped, each to a frame of its own that was free before; otherwise
the loop stops when no frame is left at all, and has taken the last one.
-/

namespace WootOs.FreshPages

open FrameBitmap FrameAllocator Paging PageMap UserMemory

/-- A frame that holds neither a directory nor a page table. -/
def NoTable (f : Frames) (spaces : List ℕ) (j : ℕ) : Prop :=
  ∀ as ∈ spaces,j ≠ as / pageSize ∧ ∀ k < userTables,Present (pde f as k) → j ≠ table f as k

/-- The page tables that pages in a row still need. -/
def missing (f : Frames) (as p n : ℕ) : ℕ :=
  (((Finset.Ico p (p + n)).image (· / 1024)).filter fun k => ¬Present (pde f as k)).card

/-- There are frames for pages in a row and the page tables they need. -/
def Enough (f : Frames) (as p n : ℕ) : Prop := n + missing f as p n ≤ clearCount f.bitmap

instance (f : Frames) (as p n : ℕ) : Decidable (Enough f as p n) :=
  inferInstanceAs (Decidable (_ ≤ _))

/-- Memory after pages in a row got new frames. -/
structure Grown (f g : Frames) (spaces : List ℕ) (as p n : ℕ) : Prop where
  /-- The page tables are in order. -/
  built : Built g spaces
  /-- There are as many frames. -/
  bitCount : g.bitmap.bitCount = f.bitmap.bitCount
  /-- Frames in use stay in use. -/
  bits : ∀ j,f.bitmap.getBit j = true → g.bitmap.getBit j = true
  /-- The page tables are those from before and those of the pages. -/
  present : ∀ k < userTables,
    (Present (pde g as k) ↔ Present (pde f as k) ∨ k ∈ (Finset.Ico p (p + n)).image (· / 1024))
  /-- A frame was taken for each page and each page table. -/
  count : clearCount g.bitmap + n + missing f as p n = clearCount f.bitmap
  /-- Each page has a frame that was free. -/
  fresh : ∀ i < n,∃ e,walk g as (p + i) = some e ∧ f.bitmap.getBit e.frame = false ∧
    g.bitmap.getBit e.frame = true ∧ e.user = true ∧ e.write = true
  /-- They are different frames. -/
  apart : ∀ i < n,∀ j < n,∀ e e',walk g as (p + i) = some e → walk g as (p + j) = some e' →
    e.frame = e'.frame → i = j
  /-- None of them holds a table. -/
  own : ∀ i < n,∀ e,walk g as (p + i) = some e → NoTable g spaces e.frame
  /-- Frames in use that held no table hold none. -/
  tables : ∀ j,f.bitmap.getBit j = true → NoTable f spaces j → NoTable g spaces j
  /-- The other pages are what they were. -/
  others : ∀ as' ∈ spaces,∀ page < userPages,¬(as' = as ∧ p ≤ page ∧ page < p + n) →
    walk g as' page = walk f as' page

section Count

variable {b c : Bitmap} {t : ℕ}

/-- There is a free frame or there is none. -/
theorem clearCount_eq_zero : clearCount b = 0 ↔ ∀ j < b.bitCount,b.getBit j = true := by
  rw [clearCount,Finset.card_eq_zero,Finset.filter_eq_empty_iff]
  constructor
  · intro h j hj
    have := h (Finset.mem_range.mpr hj)
    rwa [Bool.not_eq_false] at this
  · intro h j hj
    rw [Bool.not_eq_false]
    exact h j (Finset.mem_range.mp hj)

/-- A frame that is taken is one free frame less. -/
theorem clearCount_taken (hcount : c.bitCount = b.bitCount) (hclear : b.getBit t = false)
    (ht : t < b.bitCount) (hbit : ∀ j,c.getBit j = (b.getBit j || decide (j = t))) :
    clearCount c + 1 = clearCount b := by
  have hset := setCount_insert hcount ht hclear (by rw [hbit,decide_eq_true rfl,Bool.or_true])
    (fun j hj => by rw [hbit,decide_eq_false hj,Bool.or_false])
  have hb := setCount_add_clearCount b
  have hc := setCount_add_clearCount c
  omega

/-- The number of free frames depends on the bits only. -/
theorem clearCount_congr (hcount : c.bitCount = b.bitCount)
    (hbit : ∀ j,c.getBit j = b.getBit j) : clearCount c = clearCount b := by
  rw [clearCount,clearCount,hcount]
  simp only [hbit]

/-- AllocFrame, once more: what it hands out, in bits and in numbers. -/
theorem allocFrame_taken (hsize : b.bitCount ≤ 2 ^ 20) :
    (clearCount b = 0 ∧ allocFrame b = (noFrame,b)) ∨
    ∃ t,t < b.bitCount ∧ b.getBit t = false ∧ (allocFrame b).1 = t * pageSize ∧
      t * pageSize ≠ noFrame ∧
      (allocFrame b).2.bitCount = b.bitCount ∧
      (∀ j,(allocFrame b).2.getBit j = (b.getBit j || decide (j = t))) ∧
      clearCount (allocFrame b).2 + 1 = clearCount b := by
  rcases allocFrame_spec hsize with ⟨hrun,hall⟩ | ⟨t,hlt,hclear,-,hfst,hsnd⟩
  · exact .inl ⟨clearCount_eq_zero.mpr hall,hrun⟩
  · have hcount : (allocFrame b).2.bitCount = b.bitCount := by
      rw [hsnd,markFrom_bitCount]
    have hbit : ∀ j,(allocFrame b).2.getBit j = (b.getBit j || decide (j = t)) := by
      intro j
      have hiff : (t ≤ j ∧ j < t + 1) ↔ j = t := by omega
      rw [hsnd,getBit_markFrom 1 (by omega),decide_eq_decide.mpr hiff]
    exact .inr ⟨t,hlt,hclear,hfst,(frame_address hsize hlt).2.1,hcount,hbit,
      clearCount_taken hcount hclear hlt hbit⟩

end Count

section Turn

variable {f g : Frames} {spaces : List ℕ} {as p n k : ℕ}

/-- The address of a page below the kernel. -/
theorem page_below (hp : p < userPages) : p * pageSize < kernelBase ∧
    p * pageSize / largePageSize = p / 1024 ∧ p * pageSize / pageSize = p := by
  simp only [userPages,kernelBase,largePageSize,pageSize] at hp ⊢
  omega

/-- More frames in use leave the page tables in order. -/
theorem built_setBitmap (h : Built f spaces) {b : Bitmap} (hcount : b.bitCount = f.bitmap.bitCount)
    (hbits : ∀ j,¬NoTable f spaces j → f.bitmap.getBit j = true → b.getBit j = true) :
    Built { f with bitmap := b } spaces := by
  refine ⟨hcount ▸ h.size,h.aligned,?_,h.absent,h.rights,?_,h.table_ne_dir,h.table_inj,h.nonempty⟩
  · intro as hs
    exact hbits _ (fun hno => (hno as hs).1 rfl) (h.used_dir hs)
  · intro as k hs hk hp
    exact hbits _ (fun hno => (hno as hs).2 k hk hp rfl) (h.used_table hs hk hp)

/-- A free frame holds no table. -/
theorem noTable_of_free (h : Built f spaces) {j : ℕ} (hfree : f.bitmap.getBit j = false) :
    NoTable f spaces j := by
  intro as hs
  refine ⟨(ne_of_free hfree (h.used_dir hs)).symm,?_⟩
  intro k hk hp
  exact (ne_of_free hfree (h.used_table hs hk hp)).symm

/-- Page tables that are there after a change of one page. -/
theorem present_changesOne (h : Built f spaces) (hg : Built g spaces) (hs : as ∈ spaces)
    {e : Mapping} (hc : ChangesOne f g spaces as p (some e)) (hp : p < userPages)
    (hk : k < userTables) : Present (pde g as k) ↔ Present (pde f as k) ∨ k = p / 1024 := by
  have hpage : ∀ i < 1024,k * 1024 + i < userPages := by
    intro i hi
    simp only [userTables,userPages,kernelBase,largePageSize,pageSize] at hk ⊢
    omega
  rw [← not_iff_not,← hg.noPages_iff hs hk,not_or,← h.noPages_iff hs hk]
  constructor
  · intro hno
    refine ⟨?_,?_⟩
    · intro i hi
      have := hno i hi
      rw [hc as hs _ (hpage i hi),Pages.put] at this
      split_ifs at this
      exact this
    · rintro rfl
      have := hno (p % 1024) (Nat.mod_lt _ (by decide))
      rw [show p / 1024 * 1024 + p % 1024 = p by omega,hc as hs p hp,Pages.put,
        if_pos ⟨rfl,rfl⟩] at this
      cases this
  · rintro ⟨hno,hne⟩ i hi
    rw [hc as hs _ (hpage i hi),Pages.put,if_neg fun heq => hne (by omega)]
    exact hno i hi

/-- One page has got the frame t, which was free. -/
structure OneMore (f g : Frames) (spaces : List ℕ) (as p t : ℕ) : Prop where
  /-- The page tables are in order. -/
  built : Built g spaces
  /-- There are as many frames. -/
  bitCount : g.bitmap.bitCount = f.bitmap.bitCount
  /-- Frames in use stay in use. -/
  bits : ∀ j,f.bitmap.getBit j = true → g.bitmap.getBit j = true
  /-- The frame was free. -/
  free : f.bitmap.getBit t = false
  /-- It is in use. -/
  used : g.bitmap.getBit t = true
  /-- The page is mapped to it. -/
  pages : ChangesOne f g spaces as p (some ⟨t,true,true⟩)
  /-- It holds no table, nor do frames in use that held none. -/
  tables : ∀ j,j = t ∨ f.bitmap.getBit j = true → NoTable f spaces j → NoTable g spaces j
  /-- It was taken, and a frame for the page table if there was none. -/
  count : clearCount g.bitmap + 1 + (if Present (pde f as (p / 1024)) then 0 else 1) =
    clearCount f.bitmap

/-- A turn that ends the loop: no frame is left. -/
structure Ends (f g : Frames) (spaces : List ℕ) : Prop where
  /-- The page tables are in order. -/
  built : Built g spaces
  /-- There are as many frames. -/
  bitCount : g.bitmap.bitCount = f.bitmap.bitCount
  /-- Frames in use stay in use. -/
  bits : ∀ j,f.bitmap.getBit j = true → g.bitmap.getBit j = true
  /-- All pages are what they were. -/
  pages : walk g = walk f
  /-- No frame is left. -/
  count : clearCount g.bitmap = 0

/-- A turn of the loop: there is no frame, or just one where two are needed, or the page is
mapped to a fresh frame. -/
theorem mapNew_cases (h : Built f spaces) (hs : as ∈ spaces) (hp : p < userPages) :
    (clearCount f.bitmap = 0 ∧ mapNew f as (p * pageSize) = (false,f)) ∨
    (clearCount f.bitmap = 1 ∧ ¬Present (pde f as (p / 1024)) ∧
      ∃ g,mapNew f as (p * pageSize) = (false,g) ∧ Ends f g spaces) ∨
    ∃ g t,mapNew f as (p * pageSize) = (true,g) ∧ OneMore f g spaces as p t := by
  obtain ⟨hva,hdir,hdiv⟩ := page_below hp
  rcases allocFrame_taken h.size with ⟨hzero,hrun⟩ | ⟨t,-,hfree,hpa,hne,hcount,hbit,hleft⟩
  · refine .inl ⟨hzero,?_⟩
    simp only [mapNew,hrun,if_true]
  right
  have hmono : ∀ j,f.bitmap.getBit j = true → (allocFrame f.bitmap).2.getBit j = true := by
    intro j hj
    rw [hbit,hj,Bool.true_or]
  have hbuilt := built_setBitmap h hcount fun j _ hj => hmono j hj
  have hrun : mapNew f as (p * pageSize) =
      { f with bitmap := (allocFrame f.bitmap).2 }.mapPage as (p * pageSize) (t * pageSize)
        true true := by
    simp only [mapNew,hpa,if_neg hne]
  have hused : (allocFrame f.bitmap).2.getBit t = true := by
    rw [hbit,decide_eq_true rfl,Bool.or_true]
  have hshift := mapPage_shift (K := fun _ => False) hbuilt hs hva (t * pageSize) true true
  have hiff : NoPages { f with bitmap := (allocFrame f.bitmap).2 } as
      (p * pageSize / largePageSize) ↔ ¬Present (pde f as (p / 1024)) := by
    rw [hbuilt.noPages_iff hs (indexes_of_va hva).1,hdir]
    rfl
  have hmore : ∀ g,{ f with bitmap := (allocFrame f.bitmap).2 }.mapPage as (p * pageSize)
      (t * pageSize) true true = (true,g) → OneMore f g spaces as p t := by
    intro g hr
    obtain ⟨hb,-,hyes⟩ := mapPage_right hbuilt hs hva hr
    obtain ⟨hpages,halloc,hsame⟩ := hyes rfl
    rw [hdiv,Nat.mul_div_cancel _ (by decide)] at hpages
    rw [hr] at hshift
    have hsize : g.bitmap.bitCount = f.bitmap.bitCount := hshift.bitCount.trans hcount
    have htables : ∀ j,j = t ∨ f.bitmap.getBit j = true → NoTable f spaces j →
        NoTable g spaces j := by
      intro j hj hno as' hs'
      refine ⟨(hno as' hs').1,?_⟩
      rintro k hk hp' rfl
      rcases hshift.tables as' hs' k hk hp' with ⟨hold,htable⟩ | hclear
      · exact (hno as' hs').2 k hk hold htable
      · have hset : (allocFrame f.bitmap).2.getBit (table g as' k) = true := by
          rcases hj with heq | hu
          · rw [heq]
            exact hused
          · exact hmono _ hu
        exact Bool.false_ne_true (hclear.symm.trans hset)
    by_cases hp' : Present (pde f as (p / 1024))
    · have heq : g.bitmap = (allocFrame f.bitmap).2 :=
        hsame fun hno => (hiff.mp hno) hp'
      refine ⟨hb,hsize,?_,hfree,by rw [heq]; exact hused,hpages,htables,?_⟩
      · intro j hj
        rw [heq]
        exact hmono j hj
      · rw [if_pos hp',heq]
        exact hleft
    · obtain ⟨hclear,hbit'⟩ := halloc (hiff.mpr hp')
      have hlt : table g as (p * pageSize / largePageSize) < (allocFrame f.bitmap).2.bitCount := by
        rw [← hshift.bitCount]
        refine lt_of_getBit (b := g.bitmap) ?_
        rw [hbit',decide_eq_true rfl,Bool.or_true]
      have htaken := clearCount_taken hshift.bitCount hclear hlt hbit'
      refine ⟨hb,hsize,?_,hfree,?_,hpages,htables,?_⟩
      · intro j hj
        rw [hbit',hmono j hj,Bool.true_or]
      · rw [hbit',hused,Bool.true_or]
      · rw [if_neg hp',← hleft]
        exact congrArg (· + 1) htaken
  rcases @mapPage_cases _ spaces as (p * pageSize) (t * pageSize) true true hbuilt hs hva with
    ⟨hno,hall,hr⟩ | ⟨g,-,-,hr,-⟩ | ⟨-,hr⟩
  · refine .inl ⟨?_,?_,_,hrun.trans hr,hbuilt,hcount,hmono,rfl,clearCount_eq_zero.mpr hall⟩
    · have := clearCount_eq_zero.mpr hall
      exact hleft.symm.trans (by rw [this])
    · rw [hdir] at hno
      exact hno
  · exact .inr ⟨g,t,hrun.trans hr,hmore g hr⟩
  · exact .inr ⟨_,t,hrun.trans hr,hmore _ hr⟩

end Turn

section Loop

variable {f g g' : Frames} {spaces : List ℕ} {as p n i t : ℕ}

/-- The pages of a range with one more page. -/
theorem tables_succ (p n : ℕ) : (Finset.Ico p (p + (n + 1))).image (· / 1024) =
    insert ((p + n) / 1024) ((Finset.Ico p (p + n)).image (· / 1024)) := by
  rw [← Nat.add_assoc,Nat.Ico_succ_right_eq_insert_Ico (Nat.le_add_right p n),Finset.image_insert]

/-- More pages need as many page tables, or more. -/
theorem missing_mono {m : ℕ} (hle : m ≤ n) : missing f as p m ≤ missing f as p n :=
  Finset.card_le_card (Finset.filter_subset_filter _
    (Finset.image_subset_image (Finset.Ico_subset_Ico_right (Nat.add_le_add_left hle p))))

/-- Nothing was mapped yet. -/
theorem Grown.zero (h : Built f spaces) : Grown f f spaces as p 0 := by
  refine ⟨h,rfl,fun _ hj => hj,?_,?_,?_,?_,?_,fun _ _ hno => hno,fun _ _ _ _ _ => rfl⟩
  · intro k _
    simp
  · simp [missing]
  · intro i hi
    omega
  · intro i hi
    omega
  · intro i hi
    omega

/-- The next page needs a page table if it has none by now. -/
theorem missing_succ (hpres : ∀ k < userTables,
      (Present (pde g as k) ↔ Present (pde f as k) ∨ k ∈ (Finset.Ico p (p + n)).image (· / 1024)))
    (hp : p + n < userPages) : missing f as p (n + 1) =
      missing f as p n + if Present (pde g as ((p + n) / 1024)) then 0 else 1 := by
  have hk := (indexes_of_va (page_below hp).1).1
  rw [(page_below hp).2.1] at hk
  have hpres := hpres _ hk
  rw [missing,tables_succ,Finset.filter_insert]
  by_cases hold : Present (pde f as ((p + n) / 1024))
  · rw [if_neg (not_not_intro hold),if_pos (hpres.mpr (.inl hold))]
    rfl
  · rw [if_pos hold]
    by_cases hin : (p + n) / 1024 ∈ (Finset.Ico p (p + n)).image (· / 1024)
    · rw [if_pos (hpres.mpr (.inr hin)),Finset.insert_eq_of_mem]
      · rfl
      · exact Finset.mem_filter.mpr ⟨hin,hold⟩
    · rw [if_neg fun hp' => (hpres.mp hp').elim hold hin,Finset.card_insert_of_notMem]
      · rfl
      · exact fun hmem => hin (Finset.mem_filter.mp hmem).1

/-- The next page needs a page table if it has none by now. -/
theorem Grown.missing_succ (h : Grown f g spaces as p n) (hp : p + n < userPages) :
    missing f as p (n + 1) =
      missing f as p n + if Present (pde g as ((p + n) / 1024)) then 0 else 1 :=
  FreshPages.missing_succ h.present hp

/-- One page after the others. -/
theorem Grown.step (h : Grown f g spaces as p n) (hs : as ∈ spaces) (hp : p + n < userPages)
    (hone : OneMore g g' spaces as (p + n) t) : Grown f g' spaces as p (n + 1) := by
  have hfree : f.bitmap.getBit t = false := by
    by_contra hu
    rw [Bool.not_eq_false] at hu
    have hfree' := hone.free
    rw [h.bits t hu] at hfree'
    cases hfree'
  have hself : walk g' as (p + n) = some ⟨t,true,true⟩ := by
    rw [hone.pages as hs _ hp,Pages.put,if_pos ⟨rfl,rfl⟩]
  have hearlier : ∀ i < n,walk g' as (p + i) = walk g as (p + i) := by
    intro i hi
    rw [hone.pages as hs _ (by omega),Pages.put,if_neg fun heq => by omega]
  -- the frames of the earlier pages are in use when this one is free
  have hdiff : ∀ i < n,∀ e,walk g' as (p + i) = some e → e.frame ≠ t := by
    rintro i hi e he rfl
    obtain ⟨x,hx,-,hused,-⟩ := h.fresh i hi
    rw [hearlier i hi,hx,Option.some_inj] at he
    have hfree' := hone.free
    rw [← he,hused] at hfree'
    cases hfree'
  refine ⟨hone.built,hone.bitCount.trans h.bitCount,fun j hj => hone.bits j (h.bits j hj),
    ?_,?_,?_,?_,?_,fun j hj hno => hone.tables j (.inr (h.bits j hj)) (h.tables j hj hno),?_⟩
  · intro k hk
    rw [present_changesOne h.built hone.built hs hone.pages hp hk,h.present k hk,tables_succ,
      Finset.mem_insert]
    tauto
  · have hcount := hone.count
    have hbefore := h.count
    rw [h.missing_succ hp]
    omega
  · intro i hi
    rcases Nat.lt_succ_iff_lt_or_eq.mp hi with hlt | rfl
    · obtain ⟨e,he,hclear,hused,hrights⟩ := h.fresh i hlt
      exact ⟨e,by rw [hearlier i hlt,he],hclear,hone.bits _ hused,hrights⟩
    · exact ⟨_,hself,hfree,hone.used,rfl,rfl⟩
  · intro i hi j hj e e' he he' heq
    rcases Nat.lt_succ_iff_lt_or_eq.mp hi with hlt | rfl
    · rcases Nat.lt_succ_iff_lt_or_eq.mp hj with hlt' | rfl
      · rw [hearlier i hlt] at he
        rw [hearlier j hlt'] at he'
        exact h.apart i hlt j hlt' e e' he he' heq
      · rw [hself,Option.some_inj] at he'
        rw [← he'] at heq
        exact absurd heq (hdiff i hlt e he)
    · rcases Nat.lt_succ_iff_lt_or_eq.mp hj with hlt' | rfl
      · rw [hself,Option.some_inj] at he
        rw [← he] at heq
        exact absurd heq.symm (hdiff j hlt' e' he')
      · rfl
  · intro i hi e he
    rcases Nat.lt_succ_iff_lt_or_eq.mp hi with hlt | rfl
    · obtain ⟨x,hx,-,hused,-⟩ := h.fresh i hlt
      rw [hearlier i hlt] at he
      rw [he,Option.some_inj] at hx
      rw [← hx] at hused
      exact hone.tables _ (.inr hused) (h.own i hlt e he)
    · rw [hself,Option.some_inj] at he
      rw [← he]
      exact hone.tables t (.inl rfl) (noTable_of_free h.built hone.free)
  · intro as' hs' page hpage hout
    rw [hone.pages as' hs' page hpage,Pages.put,if_neg fun heq => hout ⟨heq.1,by omega⟩]
    exact h.others as' hs' page hpage fun hin => hout ⟨hin.1,by omega⟩

/-- A loop that can be left: it comes to its end, or to a turn that leaves it. -/
theorem loop_cases {S : Type*} {turn : S → ℕ → Bool × S} {P : ℕ → S → Prop} {s : S} (h0 : P 0 s)
    (hstep : ∀ i < n,∀ g,P i g → (turn g i).1 = true → P (i + 1) (turn g i).2) :
    (∃ g,loop turn (List.range n) s = (true,g) ∧ P n g) ∨
    ∃ i < n,∃ g,P i g ∧ (turn g i).1 = false ∧ loop turn (List.range n) s = turn g i := by
  have hall : ∀ m k s,k + m = n → P k s →
      (∃ g,loop turn (List.range' k m) s = (true,g) ∧ P n g) ∨
      ∃ i < n,∃ g,P i g ∧ (turn g i).1 = false ∧ loop turn (List.range' k m) s = turn g i := by
    intro m
    induction m with
    | zero =>
      intro k s hk hP
      rw [← hk]
      exact .inl ⟨s,rfl,hP⟩
    | succ m ih =>
      intro k s hk hP
      rw [List.range'_succ,loop]
      by_cases hturn : (turn s k).1 = true
      · rw [if_pos hturn]
        exact ih (k + 1) _ (by omega) (hstep k (by omega) s hP hturn)
      · rw [if_neg hturn]
        rw [Bool.not_eq_true] at hturn
        exact .inr ⟨k,by omega,s,hP,hturn,rfl⟩
  rw [List.range_eq_range']
  exact hall n 0 s (by omega) h0

/-- A turn that succeeds maps one more page. -/
theorem Grown.turn (h : Grown f g spaces as p i) (hs : as ∈ spaces) (hp : p + i < userPages)
    (hturn : (mapNew g as (p * pageSize + i * pageSize)).1 = true) :
    Grown f (mapNew g as (p * pageSize + i * pageSize)).2 spaces as p (i + 1) := by
  rw [← Nat.add_mul] at hturn ⊢
  rcases mapNew_cases h.built hs hp with ⟨-,hr⟩ | ⟨-,-,g',hr,-⟩ | ⟨g',t,hr,hone⟩
  · rw [hr] at hturn
    cases hturn
  · rw [hr] at hturn
    cases hturn
  · rw [hr]
    exact h.step hs hp hone

/-- Where a turn fails there are not enough frames, and afterwards there is none. -/
theorem Grown.stuck (h : Grown f g spaces as p i) (hs : as ∈ spaces) (hp : p + n ≤ userPages)
    (hi : i < n) (hturn : (mapNew g as (p * pageSize + i * pageSize)).1 = false) :
    ¬Enough f as p n ∧ Ends g (mapNew g as (p * pageSize + i * pageSize)).2 spaces := by
  have hcount := h.count
  have hmono := @missing_mono f as p n (i + 1) hi
  rw [h.missing_succ (by omega)] at hmono
  rw [← Nat.add_mul] at hturn ⊢
  rcases @mapNew_cases g spaces as (p + i) h.built hs (by omega) with
    ⟨hzero,hr⟩ | ⟨hone,hno,g',hr,hends⟩ | ⟨g',t,hr,-⟩
  · rw [hr,Enough]
    exact ⟨by omega,h.built,rfl,fun _ hj => hj,rfl,hzero⟩
  · rw [if_neg hno] at hmono
    rw [hr,Enough]
    exact ⟨by omega,hends⟩
  · rw [hr] at hturn
    cases hturn

/-- With all pages mapped there were enough frames. -/
theorem Grown.enough (h : Grown f g spaces as p n) : Enough f as p n := by
  have hcount := h.count
  rw [Enough]
  omega

/-- The loop over new pages: with enough frames all are mapped; otherwise it stops after some
of them, when no frame is left. -/
theorem grow_spec (h : Built f spaces) (hs : as ∈ spaces) (hp : p + n ≤ userPages) :
    (Enough f as p n ∧ ∃ g,Grown f g spaces as p n ∧
      loop (fun f i => mapNew f as (p * pageSize + i * pageSize)) (List.range n) f = (true,g)) ∨
    (¬Enough f as p n ∧ ∃ i < n,∃ g g',Grown f g spaces as p i ∧ Ends g g' spaces ∧
      loop (fun f i => mapNew f as (p * pageSize + i * pageSize)) (List.range n) f =
        (false,g')) := by
  rcases @loop_cases n Frames (fun f i => mapNew f as (p * pageSize + i * pageSize))
    (fun i g => Grown f g spaces as p i) f (Grown.zero h)
    (fun i hi g hg hturn => hg.turn hs (by omega) hturn) with
    ⟨g,hrun,hg⟩ | ⟨i,hi,g,hg,hturn,hrun⟩
  · exact .inl ⟨hg.enough,g,hg,hrun⟩
  · obtain ⟨hfew,hends⟩ := hg.stuck hs hp hi hturn
    exact .inr ⟨hfew,i,hi,g,_,hg,hends,hrun.trans (Prod.ext hturn rfl)⟩

end Loop

end WootOs.FreshPages
