import WootOs.PageMap

/-!
# Pages of the kernel

The page tables of the kernel's part of the address space are made once and
stay, also when they have become empty. Its pages are mapped and unmapped by
single entries of these tables. Seen through the walk of the processor, a write
of an entry changes one page, and unmapping a page gives its frame back.
-/

namespace WootOs.KernelSpace

open FrameBitmap FrameAllocator Paging PageMap

/-- Pages of the address space. -/
def allPages : ℕ := 2 ^ 20

/-- The page tables of a directory occupy different frames, and none that of
the directory; entries name frames below 4 GiB. -/
structure Tables (f : Frames) (as : ℕ) : Prop where
  /-- Page tables are different. -/
  inj : ∀ {k k'},k < 1024 → k' < 1024 → Present (pde f as k) → Present (pde f as k') →
    table f as k = table f as k' → k = k'
  /-- They are not the directory. -/
  ne_dir : ∀ {k},k < 1024 → Present (pde f as k) → table f as k ≠ as / pageSize
  /-- Entries have 32 bits. -/
  small : ∀ {page e},page < allPages → walk f as page = some e → e.frame < 2 ^ 20

section

variable {f g : Frames} {as page page' va w : ℕ} {e : Mapping}

/-- What the processor makes of an entry of a page table. -/
def mappingOf (pde pte : ℕ) : Option Mapping :=
  if Present pte then
    some
      { frame := pte / pageSize
        user := pde.testBit 2 && pte.testBit 2
        write := pde.testBit 1 && pte.testBit 1 }
  else none

/-- The walk reads one entry. -/
theorem walk_eq (hp : Present (pde f as (page / 1024))) : walk f as page =
    mappingOf (pde f as (page / 1024)) (f.word (table f as (page / 1024)) (page % 1024)) := by
  simp only [walk,if_pos hp]
  rfl

/-- A page with a page table is one of the address space. -/
theorem table_lt (h : page < allPages) : page / 1024 < 1024 := by
  rw [allPages] at h
  omega

/-- A write of an entry leaves the directory. -/
theorem pde_write (ht : Tables f as) (hpage : page < allPages)
    (hp : Present (pde f as (page / 1024))) (k : ℕ) :
    pde (f.write (table f as (page / 1024)) (page % 1024) w) as k = pde f as k := by
  rw [pde,word_write_of_ne (ht.ne_dir (table_lt hpage) hp).symm,pde]

theorem table_write (ht : Tables f as) (hpage : page < allPages)
    (hp : Present (pde f as (page / 1024))) (k : ℕ) :
    table (f.write (table f as (page / 1024)) (page % 1024) w) as k = table f as k := by
  rw [table,pde_write ht hpage hp,table]

/-- A write of an entry changes one page. -/
theorem walk_write (ht : Tables f as) (hpage : page < allPages)
    (hp : Present (pde f as (page / 1024))) (hpage' : page' < allPages) :
    walk (f.write (table f as (page / 1024)) (page % 1024) w) as page' =
      if page' = page then mappingOf (pde f as (page / 1024)) w else walk f as page' := by
  have hpde := pde_write (w := w) ht hpage hp
  have htable := table_write (w := w) ht hpage hp
  by_cases hp' : Present (pde f as (page' / 1024))
  · rw [walk_eq (by rw [hpde]; exact hp'),hpde,htable,word_write]
    by_cases heq : page' = page
    · subst heq
      rw [if_pos ⟨rfl,rfl⟩,if_pos rfl]
    · have hne : ¬(table f as (page' / 1024) = table f as (page / 1024) ∧
          page' % 1024 = page % 1024) := by
        rintro ⟨hsame,hmod⟩
        have := ht.inj (table_lt hpage') (table_lt hpage) hp' hp hsame
        omega
      rw [if_neg hne,if_neg heq,walk_eq hp']
  · have hne : page' ≠ page := by
      rintro rfl
      exact hp' hp
    rw [if_neg hne,walk_of_not_present rfl (by rw [hpde]; exact hp'),walk_of_not_present rfl hp']

/-- A write of an entry that names a frame below 4 GiB keeps the tables. -/
theorem Tables.write (ht : Tables f as) (hpage : page < allPages)
    (hp : Present (pde f as (page / 1024))) (hw : w / pageSize < 2 ^ 20) :
    Tables (f.write (table f as (page / 1024)) (page % 1024) w) as := by
  have hpde := pde_write (w := w) ht hpage hp
  have htable := table_write (w := w) ht hpage hp
  refine ⟨?_,?_,?_⟩
  · intro k k' hk hk' hpk hpk' heq
    rw [hpde] at hpk hpk'
    rw [htable,htable] at heq
    exact ht.inj hk hk' hpk hpk' heq
  · intro k hk hpk
    rw [hpde] at hpk
    rw [htable]
    exact ht.ne_dir hk hpk
  · intro page' e' hpage' hwalk
    rw [walk_write ht hpage hp hpage'] at hwalk
    split_ifs at hwalk with heq
    · rw [mappingOf] at hwalk
      split_ifs at hwalk
      rw [← Option.some.inj hwalk]
      exact hw
    · exact ht.small hpage' hwalk

/-- The bitmap has no part in the tables. -/
theorem Tables.setBitmap (ht : Tables f as) (b : Bitmap) : Tables { f with bitmap := b } as :=
  ⟨ht.inj,ht.ne_dir,ht.small⟩

/-- The indexes of the address of a page. -/
theorem indexes_of_page (page : ℕ) : page * pageSize / largePageSize = page / 1024 ∧
    page * pageSize / pageSize = page ∧ page * pageSize / pageSize % 1024 = page % 1024 := by
  simp only [pageSize,largePageSize]
  omega

/-- A page of the kernel is unmapped by its entry alone. -/
theorem unMapPage_kernel (hpage : kernelBase ≤ page * pageSize) :
    f.unMapPage as (page * pageSize) =
      if walk f as page = none then (false,f)
      else (true,f.write (table f as (page / 1024)) (page % 1024) 0) := by
  obtain ⟨hdir,hdiv,hmod⟩ := indexes_of_page page
  have hrun : f.unMapPage as (page * pageSize) =
      if ¬Present (pde f as (page / 1024)) then (false,f)
      else if ¬Present (f.word (table f as (page / 1024)) (page % 1024)) then (false,f)
      else (true,f.write (table f as (page / 1024)) (page % 1024) 0) := by
    rw [Frames.unMapPage]
    dsimp only
    rw [hmod,hdiv,hdir,if_neg fun h : _ ∧ _ => Nat.not_lt.mpr hpage h.2]
    rfl
  rw [hrun]
  by_cases hp : Present (pde f as (page / 1024))
  · rw [if_neg (not_not_intro hp),walk_eq hp,mappingOf]
    by_cases hpte : Present (f.word (table f as (page / 1024)) (page % 1024))
    · rw [if_neg (not_not_intro hpte),if_pos hpte,if_neg (by simp)]
    · rw [if_pos hpte,if_neg hpte,if_pos rfl]
  · rw [if_pos hp,walk_of_not_present rfl hp,if_pos rfl]

/-- The frame of a page is read. -/
theorem getPhysicalAddress_page (ht : Tables f as) (hpage : page < allPages) :
    f.getPhysicalAddress as (page * pageSize) =
      match walk f as page with
      | some e => e.frame * pageSize
      | none => noFrame := by
  obtain ⟨-,hdiv,-⟩ := indexes_of_page page
  rw [getPhysicalAddress_eq,hdiv]
  cases hw : walk f as page with
  | none => rfl
  | some e =>
    have hsmall := ht.small hpage hw
    show (e.frame * pageSize + page * pageSize % pageSize) % 2 ^ 32 = e.frame * pageSize
    rw [Nat.mul_mod_left,Nat.add_zero,Nat.mod_eq_of_lt]
    rw [pageSize]
    omega

/-- An address of a frame is not the one that stands for none. -/
theorem frame_ne_noFrame (frame : ℕ) : frame * pageSize ≠ noFrame := by
  rw [pageSize,noFrame]
  omega

end

/-- The page tables of the kernel in memory: every directory has them, and has
the same ones. -/
structure KernelMap (f : Frames) (spaces : List ℕ) : Prop where
  /-- Physical addresses have 32 bits. -/
  size : f.bitmap.bitCount ≤ 2 ^ 20
  /-- Directories are in use. -/
  used_dir : ∀ {as},as ∈ spaces → f.bitmap.getBit (as / pageSize) = true
  /-- The tables of the kernel are there. -/
  present : ∀ {as k},as ∈ spaces → userTables ≤ k → k < 1024 → Present (pde f as k)
  /-- All directories name the same ones. -/
  shared : ∀ {as as' k},as ∈ spaces → as' ∈ spaces → userTables ≤ k → k < 1024 →
    pde f as k = pde f as' k
  /-- Page tables are in use. -/
  used : ∀ {as k},as ∈ spaces → k < 1024 → Present (pde f as k) →
    f.bitmap.getBit (table f as k) = true
  /-- They are no directories. -/
  ne_dir : ∀ {as as' k},as ∈ spaces → as' ∈ spaces → k < 1024 → Present (pde f as k) →
    table f as k ≠ as' / pageSize
  /-- Page tables at different places are different. -/
  inj : ∀ {as as' k k'},as ∈ spaces → as' ∈ spaces → k < 1024 → k' < 1024 →
    Present (pde f as k) → Present (pde f as' k') → table f as k = table f as' k' → k = k'
  /-- Entries have 32 bits. -/
  small : ∀ {as page e},as ∈ spaces → page < allPages → walk f as page = some e →
    e.frame < 2 ^ 20

/-- A page of the kernel's part of the address space. -/
def KernelPage (page : ℕ) : Prop := kernelBase ≤ page * pageSize ∧ page < allPages

/-- A frame that holds neither a directory nor a page table. -/
def Plain (f : Frames) (spaces : List ℕ) (frame : ℕ) : Prop :=
  ∀ as ∈ spaces,frame ≠ as / pageSize ∧ ∀ k < 1024,Present (pde f as k) → frame ≠ table f as k

section

variable {f g : Frames} {spaces : List ℕ} {as as' page page' w frame n : ℕ} {e : Mapping}

/-- The page table of a kernel page is one of the kernel. -/
theorem KernelPage.table (h : KernelPage page) : userTables ≤ page / 1024 ∧ page / 1024 < 1024 := by
  obtain ⟨hl,hu⟩ := h
  simp only [userTables,kernelBase,largePageSize,pageSize,allPages] at *
  omega

/-- For one directory. -/
theorem KernelMap.tables (h : KernelMap f spaces) (hs : as ∈ spaces) : Tables f as :=
  ⟨fun hk hk' hp hp' heq => h.inj hs hs hk hk' hp hp' heq,fun hk hp => h.ne_dir hs hs hk hp,
    fun hpage hwalk => h.small hs hpage hwalk⟩

/-- A page of the kernel has its table in every directory. -/
theorem KernelMap.present_page (h : KernelMap f spaces) (hs : as ∈ spaces) (hp : KernelPage page) :
    Present (pde f as (page / 1024)) :=
  h.present hs hp.table.1 hp.table.2

/-- It is the same table in all directories. -/
theorem KernelMap.table_eq (h : KernelMap f spaces) (hs : as ∈ spaces) (hs' : as' ∈ spaces)
    (hp : KernelPage page) : table f as (page / 1024) = table f as' (page / 1024) := by
  rw [table,h.shared hs hs' hp.table.1 hp.table.2,table]

/-- All directories agree on the pages of the kernel. -/
theorem KernelMap.walk_shared (h : KernelMap f spaces) (hs : as ∈ spaces) (hs' : as' ∈ spaces)
    (hp : KernelPage page) : walk f as page = walk f as' page := by
  rw [walk_eq (h.present_page hs hp),walk_eq (h.present_page hs' hp),h.table_eq hs hs' hp,
    h.shared hs hs' hp.table.1 hp.table.2]

/-- A write of a kernel page's entry leaves every directory. -/
theorem KernelMap.pde_write (h : KernelMap f spaces) (hs : as ∈ spaces) (hs' : as' ∈ spaces)
    (hp : KernelPage page) (k : ℕ) :
    pde (f.write (table f as (page / 1024)) (page % 1024) w) as' k = pde f as' k := by
  rw [pde,word_write_of_ne (h.ne_dir hs hs' hp.table.2 (h.present_page hs hp)).symm,pde]

/-- It changes this page in every directory, and no other page. -/
theorem KernelMap.walk_write (h : KernelMap f spaces) (hs : as ∈ spaces) (hs' : as' ∈ spaces)
    (hp : KernelPage page) (hpage' : page' < allPages) :
    walk (f.write (table f as (page / 1024)) (page % 1024) w) as' page' =
      if page' = page then mappingOf (pde f as' (page / 1024)) w else walk f as' page' := by
  rw [h.table_eq hs hs' hp]
  exact KernelSpace.walk_write (h.tables hs') hp.2 (h.present_page hs' hp) hpage'

/-- A change that leaves the directories, and the frames with tables in use,
keeps the tables. -/
theorem KernelMap.congr (h : KernelMap f spaces) (hcount : g.bitmap.bitCount = f.bitmap.bitCount)
    (hpde : ∀ as ∈ spaces,∀ k,pde g as k = pde f as k)
    (hbits : ∀ j,¬Plain f spaces j → f.bitmap.getBit j = true → g.bitmap.getBit j = true)
    (hsmall : ∀ {as page e},as ∈ spaces → page < allPages → walk g as page = some e →
      e.frame < 2 ^ 20) : KernelMap g spaces := by
  have htable : ∀ as ∈ spaces,∀ k,table g as k = table f as k := by
    intro as hs k
    rw [table,hpde as hs,table]
  refine ⟨by rw [hcount]; exact h.size,?_,?_,?_,?_,?_,?_,hsmall⟩
  · intro as hs
    exact hbits _ (fun hplain => (hplain as hs).1 rfl) (h.used_dir hs)
  · intro as k hs hl hk
    rw [hpde as hs]
    exact h.present hs hl hk
  · intro as as' k hs hs' hl hk
    rw [hpde as hs,hpde as' hs']
    exact h.shared hs hs' hl hk
  · intro as k hs hk hp
    rw [hpde as hs] at hp
    rw [htable as hs]
    exact hbits _ (fun hplain => (hplain as hs).2 k hk hp rfl) (h.used hs hk hp)
  · intro as as' k hs hs' hk hp
    rw [hpde as hs] at hp
    rw [htable as hs]
    exact h.ne_dir hs hs' hk hp
  · intro as as' k k' hs hs' hk hk' hp hp' heq
    rw [hpde as hs] at hp
    rw [hpde as' hs'] at hp'
    rw [htable as hs,htable as' hs'] at heq
    exact h.inj hs hs' hk hk' hp hp' heq

/-- Frames without tables may be freed and handed out. -/
theorem KernelMap.setBitmap (h : KernelMap f spaces) {b : Bitmap}
    (hcount : b.bitCount = f.bitmap.bitCount)
    (hbits : ∀ j,¬Plain f spaces j → f.bitmap.getBit j = true → b.getBit j = true) :
    KernelMap { f with bitmap := b } spaces :=
  h.congr hcount (fun _ _ _ => rfl) hbits fun hs hpage hwalk => h.small hs hpage hwalk

/-- A write of a kernel page's entry keeps the tables. -/
theorem KernelMap.setEntry (h : KernelMap f spaces) (hs : as ∈ spaces) (hp : KernelPage page)
    (hw : w / pageSize < 2 ^ 20) :
    KernelMap (f.write (table f as (page / 1024)) (page % 1024) w) spaces := by
  refine h.congr rfl (fun as' hs' k => h.pde_write hs hs' hp k) (fun _ _ hu => hu) ?_
  intro as' page' e hs' hpage' hwalk
  rw [h.walk_write hs hs' hp hpage'] at hwalk
  split_ifs at hwalk with heq
  · rw [mappingOf] at hwalk
    split_ifs at hwalk
    rw [← Option.some.inj hwalk]
    exact hw
  · exact h.small hs' hpage' hwalk

/-- The directories after a frame without tables was written over. -/
theorem pde_clear (hplain : Plain f spaces frame) (hs : as ∈ spaces) (k : ℕ) :
    pde (f.clear frame) as k = pde f as k := by
  rw [pde,word_clear_of_ne (hplain as hs).1.symm,pde]

/-- The pages are what they were. -/
theorem walk_clear (hplain : Plain f spaces frame) (hs : as ∈ spaces) (hpage : page < allPages) :
    walk (f.clear frame) as page = walk f as page := by
  have hpde := pde_clear hplain hs
  have htable : table (f.clear frame) as (page / 1024) = table f as (page / 1024) := by
    rw [table,hpde,table]
  by_cases hp : Present (pde f as (page / 1024))
  · rw [walk_eq (by rw [hpde]; exact hp),walk_eq hp,hpde,htable,
      word_clear_of_ne ((hplain as hs).2 _ (table_lt hpage) hp).symm]
  · rw [walk_of_not_present rfl (by rw [hpde]; exact hp),walk_of_not_present rfl hp]

/-- Frames without tables may be written over. -/
theorem KernelMap.clear (h : KernelMap f spaces) (hplain : Plain f spaces frame) :
    KernelMap (f.clear frame) spaces := by
  refine h.congr rfl (fun as hs k => pde_clear hplain hs k) (fun _ _ hu => hu) ?_
  intro as page e hs hpage hwalk
  rw [walk_clear hplain hs hpage] at hwalk
  exact h.small hs hpage hwalk

/-- A free frame holds no table. -/
theorem KernelMap.plain_of_free (h : KernelMap f spaces) (hfree : f.bitmap.getBit frame = false) :
    Plain f spaces frame := by
  intro as hs
  refine ⟨?_,?_⟩
  · rintro rfl
    rw [h.used_dir hs] at hfree
    cases hfree
  · rintro k hk hp rfl
    rw [h.used hs hk hp] at hfree
    cases hfree

/-- What holds no table depends on the directories only. -/
theorem Plain.congr (hplain : Plain f spaces frame)
    (hpde : ∀ as ∈ spaces,∀ k,pde g as k = pde f as k) : Plain g spaces frame := by
  intro as hs
  refine ⟨(hplain as hs).1,?_⟩
  intro k hk hp
  rw [hpde as hs] at hp
  rw [table,hpde as hs]
  exact (hplain as hs).2 k hk hp

/-- A kernel page is mapped by its entry alone. -/
theorem KernelMap.mapPage_eq (h : KernelMap f spaces) (hs : as ∈ spaces) (hp : KernelPage page)
    (pa : ℕ) (user write : Bool) : f.mapPage as (page * pageSize) pa user write =
      (true,f.write (table f as (page / 1024)) (page % 1024) (leaf pa user write)) := by
  obtain ⟨hdir,-,hmod⟩ := indexes_of_page page
  have hpresent : ¬Vacant (f.word (as / pageSize) (page * pageSize / largePageSize)) := by
    rw [hdir]
    exact fun hv => hv.2 (h.present_page hs hp)
  rw [Frames.mapPage]
  dsimp only
  rw [if_neg hpresent,hdir,hmod]
  rfl

end

end WootOs.KernelSpace
