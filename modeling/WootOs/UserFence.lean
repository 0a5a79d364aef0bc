import WootOs.UserMemory

/-!
# The fence between user pages and the kernel

The frames that the addresses of the kernel lead to are in use, and none of
them is a directory, a page table or the frame of a page below the kernel. As
long as this holds, no change of a page below the kernel and no write through
one reaches them. Each step of the system calls keeps it, provided that a frame
is freed only where its last page is unmapped.
-/

namespace WootOs.UserMemory

open FrameBitmap FrameAllocator Paging PageMap

/-- A frame that pages below the kernel may have. -/
structure UserFrame (K : ℕ → Prop) (spaces : List ℕ) (f : Frames) (j : ℕ) : Prop where
  /-- It has an address of 32 bits. -/
  lt : j < 2 ^ 20
  /-- It is not of the kernel. -/
  not_kernel : ¬K j
  /-- It is no directory. -/
  ne_dir : ∀ as ∈ spaces,j ≠ as / pageSize
  /-- It is no page table. -/
  ne_table : ∀ as ∈ spaces,∀ k < userTables,Present (pde f as k) → j ≠ table f as k
  /-- It is in use, or not of the memory that is handed out. -/
  used : j < f.bitmap.bitCount → f.bitmap.getBit j = true

/-- The pages below the kernel, those of a set, stay away from the frames of the kernel. The
shared frames are fit to be mapped. -/
structure Fence (K shared : ℕ → Prop) (spaces : List ℕ) (live : ℕ → ℕ → Prop) (f : Frames) :
    Prop where
  /-- The directories and page tables. -/
  built : Built f spaces
  /-- Memory ends before the last frame: no more than 3 GiB of it are handed out. -/
  short : f.bitmap.bitCount < 2 ^ 20
  /-- The frames of the kernel are in use, or not of the memory that is handed out. -/
  kernel_used : ∀ j,K j → j < f.bitmap.bitCount → f.bitmap.getBit j = true
  /-- Directories are not of the kernel. -/
  dir_out : ∀ as ∈ spaces,¬K (as / pageSize)
  /-- Page tables are not of the kernel. -/
  table_out : ∀ as ∈ spaces,∀ k < userTables,Present (pde f as k) → ¬K (table f as k)
  /-- Nor are the frames of the pages. -/
  page_out : ∀ as ∈ spaces,∀ page < userPages,live as page → ∀ m,walk f as page = some m →
    UserFrame K spaces f m.frame
  /-- Nor those of shared memory. -/
  shared_out : ∀ j,shared j → UserFrame K spaces f j
  /-- Nor the frame that a page gets when there is none. -/
  last_out : ¬K (noFrame / pageSize)

/-- All pages. -/
def AllPages (_ _ : ℕ) : Prop := True

/-- All pages but one. -/
def OtherPages (as page as' page' : ℕ) : Prop := ¬(as' = as ∧ page' = page)

/-- The frames of the kernel and the entries of the directories for it are the same. -/
structure Untouched (K : ℕ → Prop) (spaces : List ℕ) (f g : Frames) : Prop where
  /-- The words. -/
  word : ∀ j,K j → g.word j = f.word j
  /-- A frame in use stays in use. -/
  used : ∀ j,K j → f.bitmap.getBit j = true → g.bitmap.getBit j = true
  /-- The entries. -/
  entry : ∀ as ∈ spaces,∀ k,userTables ≤ k → pde g as k = pde f as k

/-- A change of directories and page tables, in which page tables are made of free frames
only and only page tables become free. -/
structure Shift (K : ℕ → Prop) (spaces : List ℕ) (f g : Frames) : Prop where
  /-- The directories and page tables are right. -/
  built : Built g spaces
  /-- There are as many frames. -/
  bitCount : g.bitmap.bitCount = f.bitmap.bitCount
  /-- A page table was one before, or a free frame. -/
  tables : ∀ as ∈ spaces,∀ k < userTables,Present (pde g as k) →
    Present (pde f as k) ∧ table g as k = table f as k ∨
      f.bitmap.getBit (table g as k) = false
  /-- Only directories, page tables and free frames change, as far as the kernel goes. -/
  word : ∀ j,K j → (∀ as ∈ spaces,j ≠ as / pageSize) →
    (∀ as ∈ spaces,∀ k < userTables,Present (pde f as k) → j ≠ table f as k) →
      (j < f.bitmap.bitCount → f.bitmap.getBit j = true) → g.word j = f.word j
  /-- Only page tables become free. -/
  bit : ∀ j,(∀ as ∈ spaces,∀ k < userTables,Present (pde f as k) → j ≠ table f as k) →
    f.bitmap.getBit j = true → g.bitmap.getBit j = true
  /-- The entries for the kernel are the same. -/
  entry : ∀ as ∈ spaces,∀ k,userTables ≤ k → pde g as k = pde f as k

variable {K shared : ℕ → Prop} {spaces : List ℕ} {live live' : ℕ → ℕ → Prop} {f g h : Frames}
variable {as va pa j k page : ℕ}

theorem Untouched.refl (f : Frames) : Untouched K spaces f f :=
  ⟨fun _ _ => rfl,fun _ _ hu => hu,fun _ _ _ _ => rfl⟩

theorem Untouched.trans (h₁ : Untouched K spaces f g) (h₂ : Untouched K spaces g h) :
    Untouched K spaces f h :=
  ⟨fun j hj => (h₂.word j hj).trans (h₁.word j hj),
    fun j hj hu => h₂.used j hj (h₁.used j hj hu),
    fun as hs k hk => (h₂.entry as hs k hk).trans (h₁.entry as hs k hk)⟩

theorem Fence.mono (hf : Fence K shared spaces live f)
    (hlive : ∀ as page,live' as page → live as page) : Fence K shared spaces live' f :=
  ⟨hf.built,hf.short,hf.kernel_used,hf.dir_out,hf.table_out,
    fun as hs page hp hl => hf.page_out as hs page hp (hlive as page hl),hf.shared_out,hf.last_out⟩

/-- A frame for user pages stays one. -/
theorem UserFrame.shift (hj : UserFrame K spaces f j) (hs : Shift K spaces f g) :
    UserFrame K spaces g j := by
  refine ⟨hj.lt,hj.not_kernel,hj.ne_dir,fun as ha k hk hp he => ?_,fun hlt => ?_⟩
  · rcases hs.tables as ha k hk hp with ⟨hp',ht⟩ | hfree
    · exact hj.ne_table as ha k hk hp' (he.trans ht)
    · have hlt : j < f.bitmap.bitCount := by
        rw [← hs.bitCount,he]
        exact lt_of_getBit (hs.built.used_table ha hk hp)
      rw [← he,hj.used hlt] at hfree
      cases hfree
  · rw [hs.bitCount] at hlt
    exact hs.bit j hj.ne_table (hj.used hlt)

/-- A change of directories and page tables keeps the fence if each page has then a frame
that user pages may have. -/
theorem Fence.shift (hf : Fence K shared spaces live f) (hs : Shift K spaces f g)
    (hpages : ∀ as ∈ spaces,∀ page < userPages,live' as page → ∀ m,walk g as page = some m →
      UserFrame K spaces f m.frame) :
    Fence K shared spaces live' g ∧ Untouched K spaces f g := by
  have hne (j : ℕ) (hj : K j) (as : ℕ) (ha : as ∈ spaces) (k : ℕ) (hk : k < userTables)
      (hp : Present (pde f as k)) : j ≠ table f as k :=
    fun he => hf.table_out as ha k hk hp (he ▸ hj)
  refine ⟨⟨hs.built,hs.bitCount ▸ hf.short,fun j hj hlt => ?_,hf.dir_out,fun as ha k hk hp hK => ?_,?_,?_,hf.last_out⟩,
    fun j hj => ?_,fun j hj => hs.bit j (hne j hj),hs.entry⟩
  · rw [hs.bitCount] at hlt
    exact hs.bit j (hne j hj) (hf.kernel_used j hj hlt)
  · rcases hs.tables as ha k hk hp with ⟨hp',ht⟩ | hfree
    · exact hf.table_out as ha k hk hp' (ht ▸ hK)
    · have hlt : table g as k < f.bitmap.bitCount := by
        rw [← hs.bitCount]
        exact lt_of_getBit (hs.built.used_table ha hk hp)
      rw [hf.kernel_used _ hK hlt] at hfree
      cases hfree
  · exact fun as ha page hp hl m hm => (hpages as ha page hp hl m hm).shift hs
  · exact fun j hj => (hf.shared_out j hj).shift hs
  · exact hs.word j hj (fun as ha he => hf.dir_out as ha (he ▸ hj)) (hne j hj)
      (hf.kernel_used j hj)

/-! ### Page tables -/

/-- Nothing has changed. -/
theorem Shift.refl (hb : Built f spaces) : Shift K spaces f f :=
  ⟨hb,rfl,fun _ _ _ _ hp => .inl ⟨hp,rfl⟩,fun _ _ _ _ _ => rfl,fun _ _ hu => hu,
    fun _ _ _ _ => rfl⟩

/-- A word of a page table has changed. -/
theorem Shift.write (hb : Built f spaces) (hs : as ∈ spaces) (hk : k < userTables)
    (hp : Present (pde f as k)) (i w : ℕ) (hbuilt : Built (f.write (table f as k) i w) spaces) :
    Shift K spaces f (f.write (table f as k) i w) := by
  have hpde {as' k' : ℕ} (hs' : as' ∈ spaces) :
      pde (f.write (table f as k) i w) as' k' = pde f as' k' := by
    rw [pde,word_write_of_ne (hb.table_ne_dir hs hk hp hs').symm,pde]
  refine ⟨hbuilt,rfl,fun as' hs' k' hk' hp' => .inl ?_,fun j _ _ hne _ => ?_,fun _ _ hu => hu,
    fun as' hs' k' _ => hpde hs'⟩
  · rw [hpde hs'] at hp'
    exact ⟨hp',by rw [table,hpde hs',table]⟩
  · exact word_write_of_ne (hne as hs k hk hp)

/-- A free frame has become a page table. -/
theorem NewTable.shift {t i w : ℕ} (hn : NewTable f g as k t i w) (hb : Built f spaces)
    (hs : as ∈ spaces) (hk : k < userTables) (hbuilt : Built g spaces) :
    Shift K spaces f g := by
  refine ⟨hbuilt,hn.bitCount,fun as' hs' k' _ hp' => ?_,fun j _ hdir _ hu => ?_,fun j _ hu => ?_,
    fun as' hs' k' hk' => ?_⟩
  · rw [hn.pde_eq hb hs hs'] at hp'
    by_cases heq : as' = as ∧ k' = k
    · rw [heq.1,heq.2,hn.table_self hb hs]
      exact .inr hn.free
    · rw [if_neg heq] at hp'
      exact .inl ⟨hp',by rw [table,hn.pde_eq hb hs hs',if_neg heq,table]⟩
  · have hlt : t < f.bitmap.bitCount := by
      rw [← hn.bitCount]
      exact lt_of_getBit (by rw [hn.bit,decide_eq_true rfl,Bool.or_true])
    have hne : j ≠ t := by
      rintro rfl
      have hfree := hn.free
      rw [hu hlt] at hfree
      cases hfree
    funext i'
    rw [hn.word,if_neg hne,if_neg fun hc => hdir as hs hc.1]
  · rw [hn.bit,hu,Bool.true_or]
  · rw [hn.pde_eq hb hs hs',if_neg fun hc => by omega]

/-- A page table has been dropped. -/
theorem DroppedTable.shift {i : ℕ} (hd : DroppedTable f g as k i) (hb : Built f spaces)
    (hs : as ∈ spaces) (hk : k < userTables) (hp : Present (pde f as k))
    (hbuilt : Built g spaces) : Shift K spaces f g := by
  have hother {as' k' : ℕ} (hs' : as' ∈ spaces) (hne : ¬(as' = as ∧ k' = k)) :
      pde g as' k' = pde f as' k' := by
    rw [pde,hd.word,if_neg fun hc => hne ⟨hb.dir_inj hs' hs hc.1,hc.2⟩,
      if_neg fun hc => hb.table_ne_dir hs hk hp hs' hc.1.symm,pde]
  refine ⟨hbuilt,hd.bitCount,fun as' hs' k' _ hp' => .inl ?_,fun j _ hdir hne _ => ?_,
    fun j hne hu => ?_,fun as' hs' k' hk' => hother hs' fun hc => by omega⟩
  · by_cases heq : as' = as ∧ k' = k
    · rw [heq.1,heq.2,hd.pde_self] at hp'
      exact absurd hp' not_present_zero
    · rw [hother hs' heq] at hp'
      exact ⟨hp',by rw [table,hother hs' heq,table]⟩
  · funext i'
    rw [hd.word,if_neg fun hc => hdir as hs hc.1,if_neg fun hc => hne as hs k hk hp hc.1]
  · rw [hd.bit,hu,decide_eq_true (hne as hs k hk hp),Bool.true_and]

/-- MapPage below the kernel. -/
theorem mapPage_shift (hb : Built f spaces) (hs : as ∈ spaces) (hva : va < kernelBase)
    (pa : ℕ) (user write : Bool) : Shift K spaces f (f.mapPage as va pa user write).2 := by
  obtain ⟨hk,-,-,-⟩ := indexes_of_va hva
  have hbuilt : Built (f.mapPage as va pa user write).2 spaces :=
    (mapPage_right hb hs hva (Prod.mk.eta (p := f.mapPage as va pa user write)).symm).1
  rcases @mapPage_cases f spaces as va pa user write hb hs hva with
    ⟨-,-,hr⟩ | ⟨g,t,-,hr,hn⟩ | ⟨hp,hr⟩
  · rw [hr]
    exact Shift.refl hb
  · rw [hr] at hbuilt ⊢
    exact NewTable.shift hn hb hs hk hbuilt
  · rw [hr] at hbuilt ⊢
    exact Shift.write hb hs hk hp _ _ hbuilt

/-- UnMapPage below the kernel. -/
theorem unMapPage_shift (hb : Built f spaces) (hs : as ∈ spaces) (hva : va < kernelBase) :
    Shift K spaces f (f.unMapPage as va).2 := by
  obtain ⟨hk,-,-,-⟩ := indexes_of_va hva
  have hbuilt : Built (f.unMapPage as va).2 spaces :=
    (unMapPage_right hb hs hva (Prod.mk.eta (p := f.unMapPage as va)).symm).1
  rcases @unMapPage_cases f as va hva with ⟨-,hr⟩ | ⟨-,hp,⟨-,-,-,hr⟩ | ⟨-,g,hr,hd⟩⟩
  · rw [hr]
    exact Shift.refl hb
  · rw [hr] at hbuilt ⊢
    exact Shift.write hb hs hk hp _ _ hbuilt
  · rw [hr] at hbuilt ⊢
    exact DroppedTable.shift hd hb hs hk hp hbuilt

/-! ### Frames -/

/-- Frames may be marked as used, and frames of user pages as free where no page is left that
has one. -/
theorem Fence.setBitmap {b : Bitmap} (gone : ℕ → Prop) (hf : Fence K shared spaces live f)
    (hcount : b.bitCount = f.bitmap.bitCount)
    (hbit : ∀ j,¬gone j → f.bitmap.getBit j = true → b.getBit j = true)
    (hgone : ∀ j,gone j → UserFrame K spaces f j ∧ ¬shared j)
    (hlive : ∀ as page,live' as page → live as page)
    (hpages : ∀ as ∈ spaces,∀ page < userPages,live' as page → ∀ m,walk f as page = some m →
      ¬gone m.frame) :
    Fence K shared spaces live' { f with bitmap := b } ∧
      Untouched K spaces f { f with bitmap := b } := by
  have huser {j : ℕ} (hj : UserFrame K spaces f j) (hng : ¬gone j) :
      UserFrame K spaces { f with bitmap := b } j :=
    ⟨hj.lt,hj.not_kernel,hj.ne_dir,hj.ne_table,
      fun hlt => hbit j hng (hj.used (hcount ▸ hlt))⟩
  have hkernel {j : ℕ} (hj : K j) : ¬gone j := fun hg => (hgone j hg).1.not_kernel hj
  have hbuilt : Built { f with bitmap := b } spaces :=
    ⟨hcount ▸ hf.built.size,hf.built.aligned,
      fun hs => hbit _ (fun hg => (hgone _ hg).1.ne_dir _ hs rfl) (hf.built.used_dir hs),
      hf.built.absent,hf.built.rights,
      fun hs hk hp => hbit _ (fun hg => (hgone _ hg).1.ne_table _ hs _ hk hp rfl)
        (hf.built.used_table hs hk hp),
      hf.built.table_ne_dir,hf.built.table_inj,hf.built.nonempty⟩
  refine ⟨⟨hbuilt,hcount ▸ hf.short,fun j hj hlt => hbit j (hkernel hj) (hf.kernel_used j hj (hcount ▸ hlt)),
    hf.dir_out,hf.table_out,fun as hs page hp hl m hm => ?_,fun j hj => ?_,hf.last_out⟩,
    fun _ _ => rfl,fun j hj => hbit j (hkernel hj),fun _ _ _ _ => rfl⟩
  · exact huser (hf.page_out as hs page hp (hlive as page hl) m hm) (hpages as hs page hp hl m hm)
  · exact huser (hf.shared_out j hj) fun hg => (hgone j hg).2 hj

/-- A write into a frame that user pages may have changes no directory. -/
theorem UserFrame.pde_write (hj : UserFrame K spaces f j) (hs : as ∈ spaces) (i w k : ℕ) :
    pde (f.write j i w) as k = pde f as k := by
  rw [pde,word_write_of_ne (hj.ne_dir as hs).symm,pde]

/-- Nor a page table. -/
theorem UserFrame.table_write (hj : UserFrame K spaces f j) (hs : as ∈ spaces) (i w : ℕ)
    (hk : k < userTables) (hp : Present (pde f as k)) :
    (f.write j i w).word (table f as k) = f.word (table f as k) :=
  word_write_of_ne (hj.ne_table as hs k hk hp).symm

/-- Nor a page. -/
theorem UserFrame.walk_write (hj : UserFrame K spaces f j) (hs : as ∈ spaces) (i w : ℕ)
    (hp : page < userPages) : walk (f.write j i w) as page = walk f as page := by
  have hk : page / 1024 < userTables := by
    simp only [userPages,userTables,kernelBase,largePageSize,pageSize] at hp ⊢
    omega
  have htable : table (f.write j i w) as (page / 1024) = table f as (page / 1024) := by
    rw [table,hj.pde_write hs,table]
  simp only [walk,hj.pde_write hs,htable]
  by_cases hp : Present (pde f as (page / 1024))
  · rw [if_pos hp,if_pos hp,hj.table_write hs i w hk hp]
  · rw [if_neg hp,if_neg hp]

/-- It is a change like those of page tables. -/
theorem UserFrame.shift_write (hj : UserFrame K spaces f j) (hb : Built f spaces) (i w : ℕ) :
    Shift K spaces f (f.write j i w) := by
  have hbuilt : Built (f.write j i w) spaces :=
    hb.congr rfl (fun as hs k => hj.pde_write hs i w k) (fun _ hu => hu)
      fun as hs k hk hp => hj.table_write hs i w hk hp
  refine ⟨hbuilt,rfl,?_,?_,fun _ _ hu => hu,fun as hs k _ => hj.pde_write hs i w k⟩
  · intro as hs k _ hp
    rw [hj.pde_write hs] at hp
    exact .inl ⟨hp,by rw [table,hj.pde_write hs,table]⟩
  · intro j' hK _ _ _
    exact word_write_of_ne fun he => hj.not_kernel (he ▸ hK)

/-- The fence stands after such a write. -/
theorem Fence.write (hf : Fence K shared spaces live f) (hj : UserFrame K spaces f j)
    (i w : ℕ) : Fence K shared spaces live (f.write j i w) ∧ Untouched K spaces f (f.write j i w) := by
  refine hf.shift (hj.shift_write hf.built i w) fun as hs page hp hl m hm => ?_
  rw [hj.walk_write hs i w hp] at hm
  exact hf.page_out as hs page hp hl m hm

/-! ### Steps -/

/-- A step keeps the fence and leaves the kernel alone. -/
def Keeps (K shared : ℕ → Prop) (spaces : List ℕ) (f g : Frames) : Prop :=
  Fence K shared spaces AllPages g ∧ Untouched K spaces f g

theorem Keeps.refl (hf : Fence K shared spaces AllPages f) : Keeps K shared spaces f f :=
  ⟨hf,Untouched.refl f⟩

theorem Keeps.trans (h₁ : Keeps K shared spaces f g) (h₂ : Keeps K shared spaces g h) :
    Keeps K shared spaces f h :=
  ⟨h₂.1,h₁.2.trans h₂.2⟩

/-- Steps one after the other. -/
theorem foldl_keeps {turn : Frames → ℕ → Frames} {ns : List ℕ}
    (hturn : ∀ n ∈ ns,∀ g,Fence K shared spaces AllPages g → Keeps K shared spaces g (turn g n))
    (hf : Fence K shared spaces AllPages f) : Keeps K shared spaces f (ns.foldl turn f) := by
  induction ns generalizing f with
  | nil => exact Keeps.refl hf
  | cons n ns ih =>
    have hn := hturn n List.mem_cons_self f hf
    exact hn.trans (ih (fun n' hn' => hturn n' (List.mem_cons_of_mem n hn')) hn.1)

/-- Steps one after the other, up to one that gives up. -/
theorem loop_keeps {turn : Frames → ℕ → Bool × Frames} {ns : List ℕ}
    (hturn : ∀ n ∈ ns,∀ g,Fence K shared spaces AllPages g → Keeps K shared spaces g (turn g n).2)
    (hf : Fence K shared spaces AllPages f) : Keeps K shared spaces f (loop turn ns f).2 := by
  induction ns generalizing f with
  | nil => exact Keeps.refl hf
  | cons n ns ih =>
    have hn := hturn n List.mem_cons_self f hf
    rw [loop]
    split_ifs
    · exact hn.trans (ih (fun n' hn' => hturn n' (List.mem_cons_of_mem n hn')) hn.1)
    · exact hn

/-- MapPage of a frame that user pages may have. -/
theorem mapPage_keeps (hf : Fence K shared spaces AllPages f) (hs : as ∈ spaces)
    (hva : va < kernelBase) (hpa : UserFrame K spaces f (pa / pageSize)) (user write : Bool) :
    Keeps K shared spaces f (f.mapPage as va pa user write).2 := by
  obtain ⟨-,hno,hyes⟩ := mapPage_right hf.built hs hva
    (Prod.mk.eta (p := f.mapPage as va pa user write)).symm
  refine hf.shift (mapPage_shift hf.built hs hva pa user write) fun as' hs' page hp _ m hm => ?_
  cases hr : (f.mapPage as va pa user write).1 with
  | false =>
    rw [hno hr] at hm
    exact hf.page_out as' hs' page hp trivial m hm
  | true =>
    rw [(hyes hr).1 as' hs' page hp,Pages.put] at hm
    split_ifs at hm
    · rw [← Option.some.inj hm]
      exact hpa
    · exact hf.page_out as' hs' page hp trivial m hm

/-- A frame that is handed out. -/
theorem alloc_keeps (hf : Fence K shared spaces AllPages f)
    (hr : (allocFrame f.bitmap).1 ≠ noFrame) :
    Keeps K shared spaces f { f with bitmap := (allocFrame f.bitmap).2 } ∧
      UserFrame K spaces { f with bitmap := (allocFrame f.bitmap).2 }
        ((allocFrame f.bitmap).1 / pageSize) := by
  rcases allocFrame_spec hf.built.size with ⟨hrun,-⟩ | ⟨t,hlt,hclear,-,hfst,hsnd⟩
  · rw [hrun] at hr
    exact absurd rfl hr
  obtain ⟨-,-,hdiv⟩ := frame_address hf.built.size hlt
  have hbit (j : ℕ) : (markFrom f.bitmap t 1).getBit j = (f.bitmap.getBit j || decide (j = t)) := by
    have hiff : (t ≤ j ∧ j < t + 1) ↔ j = t := by omega
    rw [getBit_markFrom 1 (by omega),decide_eq_decide.mpr hiff]
  rw [hfst,hsnd,hdiv]
  refine ⟨hf.setBitmap (fun _ => False) (markFrom_bitCount 1 _ _)
    (fun j _ hu => by rw [hbit,hu,Bool.true_or]) (fun _ hg => hg.elim) (fun _ _ hl => hl)
    (fun _ _ _ _ _ _ _ hg => hg),?_,fun hK => ?_,fun as hs he => ?_,fun as hs k hk hp he => ?_,
    fun _ => ?_⟩
  · have := hf.built.size
    omega
  · rw [hf.kernel_used t hK hlt] at hclear
    cases hclear
  · rw [he,hf.built.used_dir hs] at hclear
    cases hclear
  · have hused := hf.built.used_table hs hk hp
    rw [show table f as k = t from he.symm,hclear] at hused
    cases hused
  · exact (hbit t).trans (by rw [decide_eq_true rfl,Bool.or_true])

/-- A new page. -/
theorem mapNew_keeps (hf : Fence K shared spaces AllPages f) (hs : as ∈ spaces)
    (hva : va < kernelBase) : Keeps K shared spaces f (mapNew f as va).2 := by
  simp only [mapNew]
  split_ifs with hr
  · exact Keeps.refl hf
  · obtain ⟨hk,hu⟩ := alloc_keeps hf hr
    exact hk.trans (mapPage_keeps hk.1 hs hva hu true true)

/-- A new page, of the last frame when there is none. -/
theorem mapAny_keeps (hf : Fence K shared spaces AllPages f) (hs : as ∈ spaces)
    (hva : va < kernelBase) : Keeps K shared spaces f (mapAny f as va) := by
  simp only [mapAny]
  by_cases hr : (allocFrame f.bitmap).1 = noFrame
  · have hsame : (allocFrame f.bitmap).2 = f.bitmap := by
      rcases allocFrame_spec hf.built.size with ⟨hrun,-⟩ | ⟨t,hlt,-,-,hfst,-⟩
      · rw [hrun]
      · rw [hfst] at hr
        exact absurd hr (frame_address hf.built.size hlt).2.1
    have hpast {j : ℕ} (hu : f.bitmap.getBit j = true) : noFrame / pageSize ≠ j := by
      have hlt := lt_of_getBit hu
      have hshort := hf.short
      have hlast : noFrame / pageSize = 2 ^ 20 - 1 := by decide
      omega
    rw [hsame,hr]
    refine mapPage_keeps hf hs hva ⟨by decide,hf.last_out,fun as' hs' => ?_,fun as' hs' k hk hp => ?_,
      fun hlt => ?_⟩ true true
    · exact hpast (hf.built.used_dir hs')
    · exact hpast (hf.built.used_table hs' hk hp)
    · have hshort := hf.short
      have hlast : noFrame / pageSize = 2 ^ 20 - 1 := by decide
      omega
  · obtain ⟨hk,hu⟩ := alloc_keeps hf hr
    exact hk.trans (mapPage_keeps hk.1 hs hva hu true true)

/-! ### Bytes -/

/-- Bytes from an address on lie below the kernel. -/
def Below (va n : ℕ) : Prop := n = 0 ∨ va + n ≤ kernelBase

instance (va n : ℕ) : Decidable (Below va n) := inferInstanceAs (Decidable (_ ∨ _))

/-- A byte below the kernel. -/
theorem store_keeps (hf : Fence K shared spaces AllPages f) (hs : as ∈ spaces)
    (hva : va < kernelBase) (byte : ℕ) : Keeps K shared spaces f (store f as va byte).2 := by
  rw [store]
  cases hm : walk f as (va / pageSize) with
  | none => exact Keeps.refl hf
  | some m =>
    have hu := hf.page_out as hs _ (indexes_of_va hva).2.1 trivial m hm
    exact hf.write hu _ _

/-- Bytes below the kernel. -/
theorem storeAll_keeps (hs : as ∈ spaces) {bytes : List ℕ}
    (hf : Fence K shared spaces AllPages f) (hva : Below va bytes.length) :
    Keeps K shared spaces f (storeAll as bytes f va).2 := by
  induction bytes generalizing f va with
  | nil => exact Keeps.refl hf
  | cons byte bytes ih =>
    have hlt : va + (bytes.length + 1) ≤ kernelBase := by
      rcases hva with h0 | hle
      · cases h0
      · exact hle
    have hbyte : Keeps K shared spaces f (store f as va byte).2 :=
      store_keeps hf hs (by omega) byte
    rw [storeAll]
    split_ifs
    · refine hbyte.trans (ih hbyte.1 (.inr ?_))
      rw [Nat.mod_eq_of_lt (by rw [kernelBase] at hlt; omega)]
      omega
    · exact hbyte

/-! ### Pages given back -/

/-- No other page has the frame of a page, if it has one that is handed out, and it is not of
shared memory. -/
def Sole (shared : ℕ → Prop) (spaces : List ℕ) (f : Frames) (as page : ℕ) : Prop :=
  ∀ m,walk f as page = some m → m.frame < f.bitmap.bitCount → ¬shared m.frame ∧
    ∀ as' ∈ spaces,∀ page' < userPages,∀ m',walk f as' page' = some m' → m'.frame = m.frame →
      as' = as ∧ page' = page

/-- Memory after pages of an address space below some page have been given back. -/
structure GivenBack (K shared : ℕ → Prop) (spaces : List ℕ) (f : Frames) (as page : ℕ)
    (g : Frames) : Prop where
  /-- The kernel is left alone. -/
  keeps : Keeps K shared spaces f g
  /-- There are as many frames. -/
  bitCount : g.bitmap.bitCount = f.bitmap.bitCount
  /-- The pages from there on are as before, and the others are so or gone. -/
  pages : ∀ as' ∈ spaces,∀ page' < userPages,walk g as' page' = walk f as' page' ∨
    walk g as' page' = none ∧ as' = as ∧ page' < page

theorem GivenBack.refl (hf : Fence K shared spaces AllPages f) :
    GivenBack K shared spaces f as page f :=
  ⟨Keeps.refl hf,rfl,fun _ _ _ _ => .inl rfl⟩

/-- A page that was not given back is as before. -/
theorem GivenBack.walk_eq (hg : GivenBack K shared spaces f as page g) (hs : as ∈ spaces)
    {page' : ℕ} (hlt : page' < userPages) (hle : page ≤ page') :
    walk g as page' = walk f as page' := by
  rcases hg.pages as hs page' hlt with h | ⟨-,-,h⟩
  · exact h
  · omega

/-- More pages may be given back. -/
theorem GivenBack.mono {page' : ℕ} (hg : GivenBack K shared spaces f as page g)
    (hle : page ≤ page') : GivenBack K shared spaces f as page' g :=
  ⟨hg.keeps,hg.bitCount,fun as' hs p hp => (hg.pages as' hs p hp).imp_right
    fun h => ⟨h.1,h.2.1,by omega⟩⟩

/-- A page that is unmapped stays so or was as before. -/
theorem GivenBack.step (hg : GivenBack K shared spaces f as page g)
    (hk : Keeps K shared spaces g h) (hcount : h.bitmap.bitCount = g.bitmap.bitCount)
    (hc : ChangesOne g h spaces as page none) : GivenBack K shared spaces f as (page + 1) h := by
  refine ⟨hg.keeps.trans hk,hcount.trans hg.bitCount,fun as' hs' page' hp' => ?_⟩
  rw [hc as' hs' page' hp',Pages.put]
  split_ifs with heq
  · exact .inr ⟨rfl,heq.1,by omega⟩
  · exact (hg.pages as' hs' page' hp').imp_right fun h => ⟨h.1,h.2.1,by omega⟩

/-- UnMapPage, when the other pages have frames that user pages may have. -/
theorem unMapPage_keeps (hf : Fence K shared spaces live f) (hs : as ∈ spaces)
    (hva : va < kernelBase) (hlive : ∀ as' page',¬(as' = as ∧ page' = va / pageSize) →
      live as' page') :
    Keeps K shared spaces f (f.unMapPage as va).2 ∧
      ChangesOne f (f.unMapPage as va).2 spaces as (va / pageSize) none := by
  obtain ⟨-,-,hc,-⟩ := unMapPage_right hf.built hs hva
    (Prod.mk.eta (p := f.unMapPage as va)).symm
  refine ⟨hf.shift (unMapPage_shift hf.built hs hva) fun as' hs' page' hp _ m hm => ?_,hc⟩
  rw [hc as' hs' page' hp,Pages.put] at hm
  split_ifs at hm with heq
  exact hf.page_out as' hs' page' hp (hlive as' page' heq) m hm

/-- The frame of a page is freed and the page unmapped. -/
theorem GivenBack.release (hg : GivenBack K shared spaces f as (va / pageSize) g)
    (hs : as ∈ spaces) (hva : va < kernelBase) {m : Mapping}
    (hm : walk g as (va / pageSize) = some m) (hpa : pa / pageSize = m.frame)
    (hsole : Sole shared spaces f as (va / pageSize)) :
    GivenBack K shared spaces f as (va / pageSize + 1) ((g.free pa).unMapPage as va).2 := by
  have hpage := (indexes_of_va hva).2.1
  have hmf : walk f as (va / pageSize) = some m := by rw [← hg.walk_eq hs hpage le_rfl,hm]
  have hf := hg.keeps.1
  have huser := hf.page_out as hs _ hpage trivial m hm
  have hfree : Fence K shared spaces (OtherPages as (va / pageSize)) (g.free pa) ∧
      Untouched K spaces g (g.free pa) := by
    refine hf.setBitmap (fun j => j = m.frame ∧ j < g.bitmap.bitCount)
      (freeFrame_bitCount pa) (fun j hng hu => ?_) (fun j hj => ?_) (fun _ _ _ => trivial)
      (fun as' hs' page' hp' hother m' hm' hgone => ?_)
    · have hne : j ≠ m.frame := fun he => hng ⟨he,lt_of_getBit hu⟩
      rw [getBit_freeFrame,hu,hpa,decide_eq_true hne,Bool.true_and]
    · rw [hj.1]
      exact ⟨huser,(hsole m hmf (by rw [← hg.bitCount,← hj.1]; exact hj.2)).1⟩
    · have hsole' := (hsole m hmf (by rw [← hg.bitCount,← hgone.1]; exact hgone.2)).2 as' hs' page' hp'
      rcases hg.pages as' hs' page' hp' with hsame | ⟨hnone,-⟩
      · exact hother (hsole' m' (by rw [← hsame,hm']) hgone.1)
      · rw [hnone] at hm'
        cases hm'
  obtain ⟨hk,hc⟩ := unMapPage_keeps hfree.1 hs hva fun as' page' hne => hne
  have hc' : ChangesOne g ((g.free pa).unMapPage as va).2 spaces as (va / pageSize) none := hc
  refine hg.step ⟨hk.1,hfree.2.trans hk.2⟩ ?_ hc'
  rw [(unMapPage_shift (K := K) hfree.1.built hs hva).bitCount]
  exact freeFrame_bitCount pa

end WootOs.UserMemory
