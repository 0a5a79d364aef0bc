import WootOs.CloneEntry

/-!
# Cloning a range

The loop of CloneRange comes to the pages of the range that have a page table
in the directory in use, in order, and copies them as long as frames last. The
range is cloned rightly when that directory shows there what the source maps,
entries that are not present included. A frame is lost when the last one was
taken for a page whose page table is missing.
-/

namespace WootOs.CloneRange

open FrameBitmap FrameAllocator Paging PageMap UserMemory KernelSpace FreshPages

/-- The memory and the arguments of a call of CloneRange. -/
structure Call where
  /-- Memory before the call. -/
  before : Frames
  /-- The directory in use. -/
  cr3 : ℕ
  /-- The destination. -/
  dst : ℕ
  /-- The source. -/
  src : ℕ
  /-- The first address. -/
  startVA : ℕ
  /-- The number of bytes. -/
  rangeSize : ℕ

namespace Call

variable (c : Call)

/-- The call: whether it came to its end, and memory afterwards. -/
def run : Bool × Frames := cloneRange c.before c.cr3 c.dst c.startVA c.rangeSize

/-- A page is in the range when its address is. -/
def InRange (page : ℕ) : Prop :=
  c.startVA ≤ page * pageSize ∧ page * pageSize < c.startVA + c.rangeSize

instance (page : ℕ) : Decidable (c.InRange page) := inferInstanceAs (Decidable (_ ∧ _))

/-- The frames for pages of the destination, and for the page tables that it does not have. -/
def need (A : Finset ℕ) : ℕ :=
  A.card + ((A.image (· / 1024)).filter fun k => ¬Present (pde c.before c.dst k)).card

/-- The pages of the range that the source maps. -/
def sourcePages : Finset ℕ :=
  (Finset.range allPages).filter fun page => c.InRange page ∧ (walk c.before c.src page).isSome

/-- There are frames for all of them. -/
def Enough : Prop := c.need c.sourcePages ≤ clearCount c.before.bitmap

/-- The end of the loop over the directory. -/
def endPD : ℕ := (c.startVA + c.rangeSize + largePageSize - 1) % 2 ^ 32 / largePageSize

/-- The pages that the loop copies as long as frames last. -/
def visited : Finset ℕ :=
  (Finset.range allPages).filter fun page => page / 1024 < c.endPD ∧
    Visited c.startVA c.rangeSize page ∧ Present (pde c.before c.cr3 (page / 1024))

/-- Those for which there are frames. -/
def copied : Finset ℕ :=
  c.visited.filter fun x => c.need (c.visited.filter (· ≤ x)) ≤ clearCount c.before.bitmap

/-- The last frame is taken for a page whose page table is missing. -/
def Leaks : Prop := ∃ x ∈ c.visited,
  c.need (c.visited.filter (· < x)) + 1 = clearCount c.before.bitmap ∧
    c.need (c.visited.filter (· ≤ x)) = clearCount c.before.bitmap + 1

/-- The destination maps the pages of the range that the source maps, each to a fresh frame
with a copy. Nothing else changes. -/
structure Copied (g : Frames) : Prop where
  /-- The pages are mapped. -/
  pages : ∀ page < allPages,c.InRange page → ∀ e,walk c.before c.src page = some e →
    ∃ e',walk g c.dst page = some e' ∧ e'.user = e.user ∧ e'.write = e.write ∧
      c.before.bitmap.getBit e'.frame = false ∧ g.bitmap.getBit e'.frame = true ∧
      ∀ i < 1024,g.word e'.frame i = c.before.word e.frame i
  /-- No others are. -/
  only : ∀ page < allPages,c.InRange page → walk c.before c.src page = none →
    walk g c.dst page = none
  /-- Each has a frame of its own. -/
  apart : ∀ p < allPages,∀ q < allPages,c.InRange p → c.InRange q → ∀ e e',
    walk g c.dst p = some e → walk g c.dst q = some e' → e.frame = e'.frame → p = q
  /-- The source is what it was. -/
  source : ∀ page < allPages,walk g c.src page = walk c.before c.src page
  /-- So are the pages of the destination out of the range. -/
  outside : ∀ page < allPages,¬c.InRange page → walk g c.dst page = walk c.before c.dst page
  /-- So are the contents of pages of the processes. -/
  contents : ∀ page < userPages,∀ e,walk c.before c.src page = some e ∨
    (¬c.InRange page ∧ walk c.before c.dst page = some e) →
      ∀ i < 1024,g.word e.frame i = c.before.word e.frame i

/-- Every frame that was taken is that of a page of the destination or holds a page table. -/
def NoLeak (g : Frames) : Prop :=
  ∀ j,c.before.bitmap.getBit j = false → g.bitmap.getBit j = true →
    (∃ page < allPages,∃ e,walk g c.dst page = some e ∧ e.frame = j) ∨
      ∃ k < 1024,Present (pde g c.dst k) ∧ table g c.dst k = j

/-- What cloning the range should do. -/
def Right (g : Frames) : Prop := (c.Enough → c.Copied g) ∧ c.NoLeak g

/-- The directory in use shows the range as the source has it. -/
structure Faithful : Prop where
  /-- Pages that are copied are those of the source. -/
  same : ∀ x ∈ c.copied,∃ e,walk c.before c.src x = some e ∧
    e.user = (pte c.before c.cr3 x).testBit 2 ∧ e.write = (pte c.before c.cr3 x).testBit 1 ∧
    ∀ i < 1024,c.before.word (pte c.before c.cr3 x / pageSize) i = c.before.word e.frame i
  /-- All pages of the source are copied. -/
  all : ∀ page < allPages,c.InRange page → (walk c.before c.src page).isSome → page ∈ c.copied
  /-- The destination maps no others in the range. -/
  clear : ∀ page < allPages,c.InRange page → page ∉ c.copied → walk c.before c.dst page = none
  /-- Pages are copied below the kernel only, and from another address space. -/
  below : c.copied = ∅ ∨ (c.dst ≠ c.src ∧ ∀ x ∈ c.copied,x < userPages)

/-- When the call does what it should. -/
def Fits : Prop := (c.Enough → c.Faithful) ∧ ¬c.Leaks

/-- Memory and arguments of a call: tables in order, address spaces among those there are,
and what entries name is not free. Below the kernel it is no table. -/
structure Ready (spaces : List ℕ) : Prop where
  /-- The tables are in order. -/
  sound : Sound c.before spaces
  /-- The directory in use. -/
  cr3 : c.cr3 ∈ spaces
  /-- The destination. -/
  dst : c.dst ∈ spaces
  /-- The source. -/
  src : c.src ∈ spaces
  /-- Entries name frames in use; those of no page name frame 0. -/
  used : ∀ as ∈ spaces,∀ page < allPages,Present (pde c.before as (page / 1024)) →
    pte c.before as page / pageSize < c.before.bitmap.bitCount →
      c.before.bitmap.getBit (pte c.before as page / pageSize) = true
  /-- Those below the kernel name no tables. -/
  plain : ∀ as ∈ spaces,∀ page < userPages,Present (pde c.before as (page / 1024)) →
    Plain c.before spaces (pte c.before as page / pageSize)

end Call

/-- Memory when pages of the range were copied. -/
structure Cloned (c : Call) (spaces : List ℕ) (g : Frames) (D : Finset ℕ) : Prop where
  /-- They are among those that the loop comes to. -/
  sub : D ⊆ c.visited
  /-- The tables are in order. -/
  sound : Sound g spaces
  /-- There are as many frames. -/
  bitCount : g.bitmap.bitCount = c.before.bitmap.bitCount
  /-- Frames in use stay in use. -/
  bits : ∀ j,c.before.bitmap.getBit j = true → g.bitmap.getBit j = true
  /-- A frame was taken for each page and each page table. -/
  count : clearCount g.bitmap + c.need D = clearCount c.before.bitmap
  /-- No others were. -/
  taken : ∀ j,g.bitmap.getBit j = true → c.before.bitmap.getBit j = true ∨
    (∃ x ∈ D,pte g c.dst x / pageSize = j) ∨
      ∃ k < 1024,Present (pde g c.dst k) ∧ table g c.dst k = j
  /-- Page tables stay. -/
  stays : ∀ as ∈ spaces,∀ k < 1024,Present (pde c.before as k) → pde g as k = pde c.before as k
  /-- New ones are those of the pages. -/
  more : ∀ as ∈ spaces,∀ k < 1024,Present (pde g as k) → Present (pde c.before as k) ∨
    as = c.dst ∧ k ∈ D.image (· / 1024)
  /-- The pages have page tables. -/
  present : ∀ x ∈ D,Present (pde g c.dst (x / 1024))
  /-- The other entries; a new page table has none. -/
  others : ∀ as ∈ spaces,∀ page < allPages,Present (pde g as (page / 1024)) →
    ¬(page ∈ D ∧ (as = c.dst ∨ userPages ≤ page)) →
      pte g as page = if Present (pde c.before as (page / 1024)) then pte c.before as page else 0
  /-- The pages have fresh frames with copies. -/
  fresh : ∀ x ∈ D,∃ t < c.before.bitmap.bitCount,c.before.bitmap.getBit t = false ∧
    g.bitmap.getBit t = true ∧
    pte g c.dst x = leaf (t * pageSize) ((pte c.before c.cr3 x).testBit 2)
      ((pte c.before c.cr3 x).testBit 1) ∧
    (x < userPages → g.word t = c.before.word (pte c.before c.cr3 x / pageSize)) ∧
    Steady g spaces t
  /-- Each has its own. -/
  apart : ∀ x ∈ D,∀ y ∈ D,pte g c.dst x / pageSize = pte g c.dst y / pageSize → x = y
  /-- Frames without tables are left alone. -/
  words : ∀ j,Steady c.before spaces j → g.word j = c.before.word j
  /-- They still hold none. -/
  steady : ∀ j,Steady c.before spaces j → Steady g spaces j

section Need

variable {c : Call} {A B : Finset ℕ} {x : ℕ}

/-- More pages need as many frames, or more. -/
theorem Call.need_mono (hsub : A ⊆ B) : c.need A ≤ c.need B :=
  Nat.add_le_add (Finset.card_le_card hsub)
    (Finset.card_le_card (Finset.filter_subset_filter _ (Finset.image_subset_image hsub)))

/-- One more page. -/
theorem Call.need_insert (hx : x ∉ A) : c.need (insert x A) = c.need A + 1 +
    if Present (pde c.before c.dst (x / 1024)) ∨ x / 1024 ∈ A.image (· / 1024) then 0 else 1 := by
  rw [Call.need,Call.need,Finset.card_insert_of_notMem hx,Finset.image_insert,Finset.filter_insert]
  by_cases hp : Present (pde c.before c.dst (x / 1024))
  · rw [if_neg (not_not_intro hp),if_pos (.inl hp)]
    omega
  · rw [if_pos hp]
    by_cases hin : x / 1024 ∈ A.image (· / 1024)
    · rw [Finset.insert_eq_of_mem (Finset.mem_filter.mpr ⟨hin,hp⟩),if_pos (.inr hin)]
      omega
    · rw [Finset.card_insert_of_notMem fun hmem => hin (Finset.mem_filter.mp hmem).1,
        if_neg fun hor => hor.elim hp hin]
      omega

theorem Call.need_empty : c.need ∅ = 0 := by
  simp [Call.need]

/-- The pages up to one are those before it and itself. -/
theorem filter_le_eq (hx : x ∈ A) : A.filter (· ≤ x) = insert x (A.filter (· < x)) := by
  ext y
  simp only [Finset.mem_filter,Finset.mem_insert]
  constructor
  · rintro ⟨hy,hle⟩
    rcases Nat.lt_or_eq_of_le hle with hlt | rfl
    · exact .inr ⟨hy,hlt⟩
    · exact .inl rfl
  · rintro (rfl | ⟨hy,hlt⟩)
    · exact ⟨hx,le_rfl⟩
    · exact ⟨hy,hlt.le⟩

end Need

section Step

variable {c : Call} {spaces : List ℕ} {g g' : Frames} {D : Finset ℕ} {as page x t j : ℕ}

/-- At the start nothing was copied. -/
theorem Cloned.start (h : c.Ready spaces) : Cloned c spaces c.before ∅ := by
  refine ⟨Finset.empty_subset _,h.sound,rfl,fun _ hj => hj,?_,fun _ hj => .inl hj,
    fun _ _ _ _ _ => rfl,fun _ _ _ _ hp => .inl hp,?_,?_,?_,?_,fun _ _ => rfl,fun _ hj => hj⟩
  · rw [Call.need_empty,Nat.add_zero]
  · intro x hx
    exact absurd hx (Finset.notMem_empty x)
  · intro as _ page _ hp _
    rw [if_pos hp]
  · intro x hx
    exact absurd hx (Finset.notMem_empty x)
  · intro x hx
    exact absurd hx (Finset.notMem_empty x)

/-- A page that is not of those copied has the entry it had. -/
theorem Cloned.pte_eq (h : Cloned c spaces g D) (hs : as ∈ spaces) (hpage : page < allPages)
    (hp : Present (pde c.before as (page / 1024)))
    (hne : ¬(page ∈ D ∧ (as = c.dst ∨ userPages ≤ page))) :
    pte g as page = pte c.before as page := by
  rw [h.others as hs page hpage (by rw [h.stays as hs _ (table_lt hpage) hp]; exact hp) hne,
    if_pos hp]

/-- It is mapped to what it was. -/
theorem Cloned.walk_eq (h : Cloned c spaces g D) (hs : as ∈ spaces) (hpage : page < allPages)
    (hne : ¬(page ∈ D ∧ (as = c.dst ∨ userPages ≤ page))) :
    walk g as page = walk c.before as page := by
  by_cases hp : Present (pde c.before as (page / 1024))
  · exact walk_same (h.stays as hs _ (table_lt hpage) hp) fun _ => h.pte_eq hs hpage hp hne
  · rw [walk_of_not_present rfl hp]
    by_cases hg : Present (pde g as (page / 1024))
    · rw [walk_pte hg,h.others as hs page hpage hg hne,if_neg hp,mappingOf,if_neg not_present_zero]
    · exact walk_of_not_present rfl hg

/-- A page of those copied, in the destination. -/
theorem Cloned.walk_fresh (h : Cloned c spaces g D) (hx : x ∈ D) : ∃ e,walk g c.dst x = some e ∧
    e.frame = pte g c.dst x / pageSize ∧ e.frame < c.before.bitmap.bitCount ∧
    c.before.bitmap.getBit e.frame = false ∧ g.bitmap.getBit e.frame = true ∧
    e.user = ((pde g c.dst (x / 1024)).testBit 2 && (pte c.before c.cr3 x).testBit 2) ∧
    e.write = ((pde g c.dst (x / 1024)).testBit 1 && (pte c.before c.cr3 x).testBit 1) ∧
    (x < userPages → g.word e.frame = c.before.word (pte c.before c.cr3 x / pageSize)) ∧
    Steady g spaces e.frame := by
  obtain ⟨t,ht,hfree,hused,hpte,hword,hsteady⟩ := h.fresh x hx
  obtain ⟨hframe,hpres,hwrite,huser⟩ := leaf_spec (t * pageSize)
    ((pte c.before c.cr3 x).testBit 2) ((pte c.before c.cr3 x).testBit 1)
  rw [Nat.mul_div_cancel t (by decide : 0 < pageSize),← hpte] at hframe
  rw [← hpte] at hpres hwrite huser
  have hwalk : walk g c.dst x = some
      { frame := pte g c.dst x / pageSize
        user := (pde g c.dst (x / 1024)).testBit 2 && (pte g c.dst x).testBit 2
        write := (pde g c.dst (x / 1024)).testBit 1 && (pte g c.dst x).testBit 1 } := by
    rw [walk_pte (h.present x hx),mappingOf,if_pos hpres]
  rw [hframe,hwrite,huser] at hwalk
  exact ⟨_,hwalk,hframe.symm,ht,hfree,hused,rfl,rfl,hword,hsteady⟩

/-- The page tables of the destination. -/
theorem Cloned.present_dst (hr : c.Ready spaces) (h : Cloned c spaces g D) {k : ℕ}
    (hk : k < 1024) : Present (pde g c.dst k) ↔
      Present (pde c.before c.dst k) ∨ k ∈ D.image (· / 1024) := by
  constructor
  · intro hp
    exact (h.more _ hr.dst _ hk hp).imp_right fun hc => hc.2
  · rintro (hp | hin)
    · rw [h.stays _ hr.dst _ hk hp]
      exact hp
    · obtain ⟨y,hy,heq⟩ := Finset.mem_image.mp hin
      rw [← heq]
      exact h.present y hy

/-- Pages that the loop comes to. -/
theorem Call.lt_of_visited (hx : x ∈ c.visited) : x < allPages :=
  Finset.mem_range.mp (Finset.mem_filter.mp hx).1

/-- They have a page table in the directory in use. -/
theorem Call.present_of_visited (hx : x ∈ c.visited) : Present (pde c.before c.cr3 (x / 1024)) :=
  (Finset.mem_filter.mp hx).2.2.2

/-- One page more. -/
theorem Cloned.step (hr : c.Ready spaces) (h : Cloned c spaces g D) (hx : x ∉ D)
    (hv : x ∈ c.visited) (hone : OneCopy g g' spaces c.cr3 c.dst x t) :
    Cloned c spaces g' (insert x D) := by
  have hxall := Call.lt_of_visited hv
  have hp := Call.present_of_visited hv
  have hk := table_lt hxall
  have hcr3 : pte g c.cr3 x = pte c.before c.cr3 x :=
    h.pte_eq hr.cr3 hxall hp fun hc => hx hc.1
  have hfree : c.before.bitmap.getBit t = false := by
    by_contra hu
    rw [Bool.not_eq_false] at hu
    exact Bool.false_ne_true (hone.free.symm.trans (h.bits t hu))
  have hused : g'.bitmap.getBit t = true :=
    hone.own.used (by rw [hone.bitCount]; exact hone.lt)
  have hself := hone.self
  rw [hcr3] at hself
  have hframe : pte g' c.dst x / pageSize = t := by
    rw [hself,(leaf_spec _ _ _).1,Nat.mul_div_cancel t (by decide : 0 < pageSize)]
  have hstays : ∀ y ∈ D,pde g' c.dst (y / 1024) = pde g c.dst (y / 1024) := by
    intro y hy
    exact hone.stays _ hr.dst _ (table_lt (Call.lt_of_visited (h.sub hy))) (h.present y hy)
  -- the entries of the pages copied before
  have hearlier : ∀ y ∈ D,pte g' c.dst y = pte g c.dst y := by
    intro y hy
    have hyp := h.present y hy
    rw [hone.others _ hr.dst y (Call.lt_of_visited (h.sub hy)) (by rw [hstays y hy]; exact hyp),
      if_pos hyp]
    rintro ⟨rfl,-⟩
    exact hx hy
  have hdiff : ∀ y ∈ D,pte g c.dst y / pageSize ≠ t := by
    intro y hy heq
    obtain ⟨e,-,hframe',-,-,hused',-⟩ := h.walk_fresh hy
    rw [hframe',heq] at hused'
    exact Bool.false_ne_true (hone.free.symm.trans hused')
  refine ⟨?_,hone.sound,hone.bitCount.trans h.bitCount,fun j hj => hone.bits j (h.bits j hj),?_,?_,
    ?_,?_,?_,?_,?_,?_,?_,fun j hj => hone.steady j (h.steady j hj)⟩
  · exact Finset.insert_subset hv h.sub
  · have hcount := hone.count
    have hbefore := h.count
    rw [Call.need_insert hx]
    simp only [h.present_dst hr hk] at hcount
    omega
  · intro j hj
    rcases hone.taken j hj with hold | rfl | rfl
    · rcases h.taken j hold with hb | ⟨y,hy,rfl⟩ | ⟨k,hk',hpk,rfl⟩
      · exact .inl hb
      · exact .inr (.inl ⟨y,Finset.mem_insert_of_mem hy,by rw [hearlier y hy]⟩)
      · have hsame := hone.stays _ hr.dst k hk' hpk
        refine .inr (.inr ⟨k,hk',by rw [hsame]; exact hpk,?_⟩)
        rw [table,hsame,table]
    · exact .inr (.inl ⟨x,Finset.mem_insert_self x D,hframe⟩)
    · exact .inr (.inr ⟨_,hk,hone.present,rfl⟩)
  · intro as hs k hk' hpk
    have hold := h.stays as hs k hk' hpk
    rw [hone.stays as hs k hk' (by rw [hold]; exact hpk),hold]
  · intro as hs k hk' hpk
    rcases hone.more as hs k hk' hpk with hg | ⟨rfl,rfl⟩
    · refine (h.more as hs k hk' hg).imp_right fun hc => ⟨hc.1,?_⟩
      exact Finset.image_subset_image (Finset.subset_insert x D) hc.2
    · exact .inr ⟨rfl,Finset.mem_image_of_mem _ (Finset.mem_insert_self x D)⟩
  · intro y hy
    rcases Finset.mem_insert.mp hy with rfl | hy'
    · exact hone.present
    · rw [hstays y hy']
      exact h.present y hy'
  · intro as hs page hpage hpp hne
    have hneD : ¬(page ∈ D ∧ (as = c.dst ∨ userPages ≤ page)) :=
      fun hc => hne ⟨Finset.mem_insert_of_mem hc.1,hc.2⟩
    have hnex : ¬(page = x ∧ (as = c.dst ∨ userPages ≤ x)) := by
      rintro ⟨rfl,hc⟩
      exact hne ⟨Finset.mem_insert_self _ D,hc⟩
    rw [hone.others as hs page hpage hpp hnex]
    by_cases hpg : Present (pde g as (page / 1024))
    · rw [if_pos hpg,h.others as hs page hpage hpg hneD]
    · rw [if_neg hpg,if_neg]
      intro hpb
      rw [h.stays as hs _ (table_lt hpage) hpb] at hpg
      exact hpg hpb
  · intro y hy
    rcases Finset.mem_insert.mp hy with rfl | hy'
    · refine ⟨t,by rw [← h.bitCount]; exact hone.lt,hfree,hused,hself,?_,hone.own⟩
      intro hu
      rw [hone.copied,hcr3]
      exact h.words _ ⟨hr.plain _ hr.cr3 _ hu hp,hr.used _ hr.cr3 _ hxall hp⟩
    · obtain ⟨t',ht',hfree',hused',hpte,hword,hsteady⟩ := h.fresh y hy'
      refine ⟨t',ht',hfree',hone.bits t' hused',by rw [hearlier y hy',hpte],?_,
        hone.steady t' hsteady⟩
      intro hu
      rw [hone.words t' hsteady]
      exact hword hu
  · intro y hy z hz heq
    rcases Finset.mem_insert.mp hy with rfl | hy'
    · rcases Finset.mem_insert.mp hz with rfl | hz'
      · rfl
      · rw [hframe,hearlier z hz'] at heq
        exact absurd heq.symm (hdiff z hz')
    · rcases Finset.mem_insert.mp hz with rfl | hz'
      · rw [hframe,hearlier y hy'] at heq
        exact absurd heq (hdiff y hy')
      · rw [hearlier y hy',hearlier z hz'] at heq
        exact h.apart y hy' z hz' heq
  · intro j hj
    rw [hone.words j (h.steady j hj),h.words j hj]

end Step

section Loop

variable {c : Call} {spaces : List ℕ} {f g : Frames} {k n x y : ℕ}

/-- Where a loop is when it has come to an end, or was left. -/
structure Outcome {S : Type*} (P Q : S → Prop) (r : Bool × S) : Prop where
  /-- It goes on. -/
  on : r.1 = true → P r.2
  /-- It was left. -/
  left : r.1 = false → Q r.2

theorem Outcome.of_on {S : Type*} {P Q : S → Prop} {s : S} (h : P s) : Outcome P Q (true,s) :=
  ⟨fun _ => h,fun hc => absurd hc.symm Bool.false_ne_true⟩

theorem Outcome.of_left {S : Type*} {P Q : S → Prop} {s : S} (h : Q s) : Outcome P Q (false,s) :=
  ⟨fun hc => absurd hc Bool.false_ne_true,fun _ => h⟩

/-- A loop keeps an invariant up to its end, or up to the turn that leaves it. -/
theorem loop_outcome {S : Type*} {turn : S → ℕ → Bool × S} {P : ℕ → S → Prop} {Q : S → Prop}
    {m a : ℕ} {s : S} (hs : P a s)
    (hstep : ∀ i,a ≤ i → i < a + m → ∀ s,P i s → Outcome (P (i + 1)) Q (turn s i)) :
    Outcome (P (a + m)) Q (loop turn (List.range' a m) s) := by
  induction m generalizing a s with
  | zero => exact Outcome.of_on hs
  | succ m ih =>
    have hturn := hstep a le_rfl (by omega) s hs
    rw [List.range'_succ,loop]
    by_cases hgo : (turn s a).1 = true
    · rw [if_pos hgo,show a + (m + 1) = a + 1 + m by omega]
      exact ih (hturn.on hgo) fun i hl hu => hstep i (by omega) (by omega)
    · rw [if_neg hgo]
      exact ⟨fun hc => absurd hc hgo,hturn.left⟩

/-- No frame is left when the loop comes to a page. -/
def Stuck (c : Call) (spaces : List ℕ) (y : ℕ) (g : Frames) : Prop :=
  Cloned c spaces g (c.visited.filter (· < y)) ∧ clearCount g.bitmap = 0

/-- The last frame was taken for a page whose page table is missing. -/
def Lost (c : Call) (spaces : List ℕ) (y : ℕ) (g : Frames) : Prop :=
  ∃ h t j,Cloned c spaces h (c.visited.filter (· < y)) ∧ clearCount h.bitmap = 1 ∧
    ¬Present (pde h c.dst (y / 1024)) ∧ Taken h g spaces t j

/-- The loop has come to a page. -/
def Going (c : Call) (spaces : List ℕ) (n : ℕ) (g : Frames) : Prop :=
  Cloned c spaces g (c.visited.filter (· < n)) ∨ ∃ y ∈ c.visited,y < n ∧ Lost c spaces y g

/-- The loop was left. -/
def Left (c : Call) (spaces : List ℕ) (g : Frames) : Prop :=
  ∃ y ∈ c.visited,Stuck c spaces y g ∨ Lost c spaces y g

/-- The pages before the next one. -/
theorem filter_lt_succ (hx : x ∈ c.visited) :
    c.visited.filter (· < x + 1) = insert x (c.visited.filter (· < x)) := by
  rw [← filter_le_eq hx]
  exact Finset.filter_congr fun y _ => Nat.lt_succ_iff

theorem filter_lt_succ_of_notMem (hx : x ∉ c.visited) :
    c.visited.filter (· < x + 1) = c.visited.filter (· < x) := by
  refine Finset.filter_congr fun y hy => ?_
  have hne : y ≠ x := fun heq => hx (heq ▸ hy)
  omega

/-- The directory in use has the page tables it had. -/
theorem Cloned.present_cr3 {D : Finset ℕ} (hr : c.Ready spaces) (h : Cloned c spaces g D)
    (hk : k < 1024) : Present (pde g c.cr3 k) ↔ Present (pde c.before c.cr3 k) := by
  constructor
  · intro hp
    rcases h.more _ hr.cr3 k hk hp with hb | ⟨-,hin⟩
    · exact hb
    · obtain ⟨y,hy,rfl⟩ := Finset.mem_image.mp hin
      exact Call.present_of_visited (h.sub hy)
  · intro hp
    rw [h.stays _ hr.cr3 k hk hp]
    exact hp

/-- The pages that the loop comes to, as it tells them. -/
theorem mem_visited (hx : x < allPages) (hend : x / 1024 < c.endPD) : x ∈ c.visited ↔
    Visited c.startVA c.rangeSize x ∧ Present (pde c.before c.cr3 (x / 1024)) := by
  rw [Call.visited,Finset.mem_filter,Finset.mem_range]
  exact ⟨fun h => h.2.2,fun h => ⟨hx,hend,h⟩⟩

/-- With no frame left the loop goes on without a change, or is left. -/
theorem cloneEntry_lost (hr : c.Ready spaces) (hx : x < allPages) (hf : Sound f spaces)
    (hzero : clearCount f.bitmap = 0) :
    (cloneEntry c.cr3 c.dst c.startVA c.rangeSize (x / 1024) f (x % 1024)).2 = f := by
  by_cases hv : Visited c.startVA c.rangeSize x ∧ Present (pde f c.cr3 (x / 1024))
  · rcases cloneEntry_cases hf hr.dst hx hv.1 hv.2 with
      ⟨-,hrun⟩ | ⟨hone,-⟩ | ⟨g,t,-,hone⟩
    · rw [hrun]
    · omega
    · have hcount := hone.count
      omega
  · rw [cloneEntry_skip hv]

/-- One turn of the loop. -/
theorem going_step (hr : c.Ready spaces) (hx : x < allPages) (hend : x / 1024 < c.endPD)
    (h : Going c spaces x f) : Outcome (Going c spaces (x + 1)) (Left c spaces)
      (cloneEntry c.cr3 c.dst c.startVA c.rangeSize (x / 1024) f (x % 1024)) := by
  rcases h with hc | ⟨y,hy,hlt,hlost⟩
  · have hiff := mem_visited hx hend
    rw [← hc.present_cr3 hr (table_lt hx)] at hiff
    by_cases hv : x ∈ c.visited
    · obtain ⟨hin,hp⟩ := hiff.mp hv
      have hx' : x ∉ c.visited.filter (· < x) := fun hmem =>
        Nat.lt_irrefl x (Finset.mem_filter.mp hmem).2
      rcases cloneEntry_cases hc.sound hr.dst hx hin hp with
        ⟨hzero,hrun⟩ | ⟨hone,hno,g,t,j,hrun,ht⟩ | ⟨g,t,hrun,hone⟩
      · rw [hrun]
        exact Outcome.of_left ⟨x,hv,.inl ⟨hc,hzero⟩⟩
      · rw [hrun]
        exact Outcome.of_on (.inr ⟨x,hv,Nat.lt_succ_self x,f,t,j,hc,hone,hno,ht⟩)
      · rw [hrun]
        refine Outcome.of_on (.inl ?_)
        rw [filter_lt_succ hv]
        exact hc.step hr hx' hv hone
    · rw [cloneEntry_skip (f := f) fun hc' => hv (hiff.mpr hc')]
      refine Outcome.of_on (.inl ?_)
      rw [filter_lt_succ_of_notMem hv]
      exact hc
  · have hsame : (cloneEntry c.cr3 c.dst c.startVA c.rangeSize (x / 1024) f (x % 1024)).2 = f := by
      obtain ⟨h,t,j,-,hone,-,ht⟩ := hlost
      have hcount := ht.count
      exact cloneEntry_lost hr hx ht.sound (by omega)
    refine ⟨fun _ => ?_,fun _ => ?_⟩
    · rw [hsame]
      exact .inr ⟨y,hy,by omega,hlost⟩
    · rw [hsame]
      exact ⟨y,hy,.inr hlost⟩

/-- The loop over a page table. -/
theorem going_table (hr : c.Ready spaces) (hk : k < 1024) (hend : k < c.endPD)
    (h : Going c spaces (k * 1024) f) : Outcome (Going c spaces ((k + 1) * 1024)) (Left c spaces)
      (cloneTable c.cr3 c.dst c.startVA c.rangeSize f k) := by
  have hbegin : Going c spaces (k * 1024 + 0) f := by
    rw [Nat.add_zero]
    exact h
  have hloop := @loop_outcome Frames (cloneEntry c.cr3 c.dst c.startVA c.rangeSize k)
    (fun i => Going c spaces (k * 1024 + i)) (Left c spaces) 1024 0 f hbegin
  rw [Nat.zero_add] at hloop
  rw [cloneTable,List.range_eq_range',Nat.succ_mul]
  refine hloop fun i _ hi g hg => ?_
  have hdiv : (k * 1024 + i) / 1024 = k := by omega
  have hmod : (k * 1024 + i) % 1024 = i := by omega
  have hstep := going_step hr (x := k * 1024 + i) (by rw [allPages]; omega)
    (by rw [hdiv]; exact hend) hg
  rw [hdiv,hmod,Nat.add_assoc] at hstep
  exact hstep

/-- The loop over the directory ends behind the first page that it does not come to. -/
def Call.stop (c : Call) : ℕ :=
  (c.startVA / largePageSize + (c.endPD - c.startVA / largePageSize)) * 1024

/-- Before it are all pages that the loop comes to. -/
theorem Call.lt_stop (hx : x ∈ c.visited) : x < c.stop := by
  have hlt := (Finset.mem_filter.mp hx).2.1
  rw [Call.stop]
  generalize c.startVA / largePageSize = m
  omega

/-- The loop over the directory. -/
theorem going_all (hr : c.Ready spaces) :
    Outcome (Going c spaces c.stop) (Left c spaces) c.run := by
  have hend : c.endPD ≤ 1024 := by
    rw [Call.endPD,largePageSize]
    omega
  have hbegin : c.visited.filter (· < c.startVA / largePageSize * 1024) = ∅ := by
    refine Finset.filter_eq_empty_iff.mpr fun x hx hlt => ?_
    have hl := (Finset.mem_filter.mp hx).2.2.1.1
    rw [pageSize] at hl
    rw [largePageSize] at hlt
    omega
  have hstart : Going c spaces (c.startVA / largePageSize * 1024) c.before := by
    refine .inl ?_
    rw [hbegin]
    exact Cloned.start hr
  have hrun : c.run = loop (cloneTable c.cr3 c.dst c.startVA c.rangeSize)
      (List.range' (c.startVA / largePageSize) (c.endPD - c.startVA / largePageSize))
        c.before := by
    rw [Call.run,cloneRange,Call.endPD]
  rw [hrun,Call.stop]
  exact @loop_outcome Frames (cloneTable c.cr3 c.dst c.startVA c.rangeSize)
    (fun k => Going c spaces (k * 1024)) (Left c spaces)
    (c.endPD - c.startVA / largePageSize) (c.startVA / largePageSize) c.before hstart
    (fun k hl hu g hg => going_table hr (by omega) (by omega) hg)

/-- The whole loop: all pages are copied, or there is no frame for one, or one is lost. -/
theorem cloned_cases (hr : c.Ready spaces) : ∃ r g,c.run = (r,g) ∧
    (Cloned c spaces g c.visited ∨ ∃ y ∈ c.visited,Stuck c spaces y g ∨ Lost c spaces y g) := by
  have hall := going_all hr
  refine ⟨c.run.1,c.run.2,Prod.mk.eta.symm,?_⟩
  by_cases hgo : c.run.1 = true
  · rcases hall.on hgo with hc | ⟨y,hy,-,hlost⟩
    · rw [Finset.filter_true_of_mem fun x hx => Call.lt_stop hx] at hc
      exact .inl hc
    · exact .inr ⟨y,hy,.inr hlost⟩
  · exact .inr (hall.left (Bool.eq_false_iff.mpr hgo))

end Loop

section Correct

variable {c : Call} {spaces : List ℕ} {f g : Frames} {as page x y t j : ℕ} {e : Mapping}

/-- The pages for which there are frames, when they end before a page. -/
theorem Call.copied_eq (hle : c.need (c.visited.filter (· < y)) ≤ clearCount c.before.bitmap)
    (hlt : clearCount c.before.bitmap < c.need (c.visited.filter (· ≤ y))) :
    c.copied = c.visited.filter (· < y) := by
  refine Finset.filter_congr fun x _ => ⟨fun hx => ?_,fun hx => ?_⟩
  · by_contra hge
    have hsub : c.visited.filter (· ≤ y) ⊆ c.visited.filter (· ≤ x) := by
      intro z hz
      obtain ⟨hz,hzy⟩ := Finset.mem_filter.mp hz
      exact Finset.mem_filter.mpr ⟨hz,by omega⟩
    have := Call.need_mono (c := c) hsub
    omega
  · have hsub : c.visited.filter (· ≤ x) ⊆ c.visited.filter (· < y) := by
      intro z hz
      obtain ⟨hz,hzx⟩ := Finset.mem_filter.mp hz
      exact Finset.mem_filter.mpr ⟨hz,by omega⟩
    exact (Call.need_mono hsub).trans hle

/-- A frame is lost only where the pages for which there are frames end. -/
theorem Call.not_leaks (heq : c.need (c.visited.filter (· < y)) = clearCount c.before.bitmap) :
    ¬c.Leaks := by
  rintro ⟨z,hz,hlow,hhigh⟩
  rcases Nat.lt_or_ge z y with hlt | hge
  · have hsub : c.visited.filter (· ≤ z) ⊆ c.visited.filter (· < y) := by
      intro w hw
      obtain ⟨hw,hwz⟩ := Finset.mem_filter.mp hw
      exact Finset.mem_filter.mpr ⟨hw,by omega⟩
    have := Call.need_mono (c := c) hsub
    omega
  · have hsub : c.visited.filter (· < y) ⊆ c.visited.filter (· < z) := by
      intro w hw
      obtain ⟨hw,hwy⟩ := Finset.mem_filter.mp hw
      exact Finset.mem_filter.mpr ⟨hw,by omega⟩
    have := Call.need_mono (c := c) hsub
    omega

/-- What the call does: it copies the pages for which there are frames, and takes one more
frame or not. -/
theorem cloned_spec (hr : c.Ready spaces) : ∃ r g,c.run = (r,g) ∧
    ∃ f,Cloned c spaces f c.copied ∧
      (¬c.Leaks ∧ g = f ∨ c.Leaks ∧ ∃ t j,Taken f g spaces t j) := by
  obtain ⟨r,g,hrun,hcases⟩ := cloned_cases hr
  refine ⟨r,g,hrun,?_⟩
  rcases hcases with hall | ⟨y,hy,⟨hc,hzero⟩ | ⟨f,t,j,hc,hone,hno,ht⟩⟩
  · have hcount := hall.count
    have hle : ∀ x,c.need (c.visited.filter (· ≤ x)) ≤ clearCount c.before.bitmap := by
      intro x
      have := Call.need_mono (c := c) (Finset.filter_subset (· ≤ x) c.visited)
      omega
    have heq : c.copied = c.visited := Finset.filter_true_of_mem fun x _ => hle x
    refine ⟨g,heq ▸ hall,.inl ⟨?_,rfl⟩⟩
    rintro ⟨y,-,-,hhigh⟩
    have := hle y
    omega
  · have hcount := hc.count
    have hmem : y ∉ c.visited.filter (· < y) := fun h =>
      Nat.lt_irrefl y (Finset.mem_filter.mp h).2
    have hneed := Call.need_insert (c := c) hmem
    rw [← filter_le_eq hy] at hneed
    have heq := Call.copied_eq (c := c) (y := y) (by omega) (by omega)
    exact ⟨g,heq ▸ hc,.inl ⟨Call.not_leaks (c := c) (y := y) (by omega),rfl⟩⟩
  · have hcount := hc.count
    have hmem : y ∉ c.visited.filter (· < y) := fun h =>
      Nat.lt_irrefl y (Finset.mem_filter.mp h).2
    have hneed := Call.need_insert (c := c) hmem
    rw [hc.present_dst hr (table_lt (Call.lt_of_visited hy))] at hno
    rw [← filter_le_eq hy,if_neg hno] at hneed
    have heq := Call.copied_eq (c := c) (y := y) (by omega) (by omega)
    exact ⟨f,heq ▸ hc,.inr ⟨⟨y,hy,by omega,by omega⟩,t,j,ht⟩⟩

/-- Pages were mapped to frames that are not free. -/
theorem Call.Ready.mapped_used (hr : c.Ready spaces) (hs : as ∈ spaces) (hpage : page < allPages)
    (he : walk c.before as page = some e) (hlt : e.frame < c.before.bitmap.bitCount) :
    c.before.bitmap.getBit e.frame = true := by
  obtain ⟨hp,-,hframe,-⟩ := mapped_entries he
  rw [hframe] at hlt ⊢
  exact hr.used as hs page hpage hp hlt

/-- Pages of the processes were mapped to frames without tables. -/
theorem Call.Ready.mapped_steady (hr : c.Ready spaces) (hs : as ∈ spaces) (hpage : page < userPages)
    (he : walk c.before as page = some e) : Steady c.before spaces e.frame := by
  have hall : page < allPages := by
    rw [userPages,kernelBase,pageSize] at hpage
    rw [allPages]
    omega
  refine ⟨?_,fun hlt => hr.mapped_used hs hall he hlt⟩
  obtain ⟨hp,-,hframe,-⟩ := mapped_entries he
  rw [hframe]
  exact hr.plain as hs page hpage hp

/-- The loop comes to pages of the range. -/
theorem Call.inRange_of_visited (hx : x ∈ c.visited) : c.InRange x := by
  obtain ⟨hl,hu⟩ := (Finset.mem_filter.mp hx).2.2.1
  exact ⟨hl,Nat.lt_of_lt_of_le hu (Nat.mod_le _ _)⟩

/-- The pages copied are those the loop comes to. -/
theorem Call.visited_of_copied (hx : x ∈ c.copied) : x ∈ c.visited := (Finset.mem_filter.mp hx).1

/-- Pages of the destination have frames in use. -/
theorem Cloned.used (hr : c.Ready spaces) (h : Cloned c spaces f c.copied) (hpage : page < allPages)
    (he : walk f c.dst page = some e) (hlt : e.frame < c.before.bitmap.bitCount) :
    f.bitmap.getBit e.frame = true := by
  by_cases hin : page ∈ c.copied
  · obtain ⟨x,hx,-,-,-,hused,-⟩ := h.walk_fresh hin
    rw [he,Option.some_inj] at hx
    rw [hx]
    exact hused
  · rw [h.walk_eq hr.dst hpage fun hc => hin hc.1] at he
    exact h.bits _ (hr.mapped_used hr.dst hpage he hlt)

/-- A frame taken and not mapped is lost. -/
theorem Taken.leak (hr : c.Ready spaces) (h : Cloned c spaces f c.copied)
    (ht : Taken f g spaces t j) : ¬c.NoLeak g := by
  intro hno
  have hfree : c.before.bitmap.getBit t = false := by
    by_contra hu
    rw [Bool.not_eq_false] at hu
    exact Bool.false_ne_true (ht.free.symm.trans (h.bits t hu))
  have hlt : t < c.before.bitmap.bitCount := h.bitCount ▸ ht.lt
  rcases hno t hfree (by rw [ht.bit,decide_eq_true rfl,Bool.or_true]) with
    ⟨page,hpage,e,he,rfl⟩ | ⟨k,hk,hp,rfl⟩
  · rw [walk_same (ht.pde _ hr.dst _) (ht.pte _ hr.dst page hpage)] at he
    exact Bool.false_ne_true (ht.free.symm.trans (h.used hr hpage he hlt))
  · rw [ht.pde _ hr.dst] at hp
    have hfree' := ht.free
    rw [table,ht.pde _ hr.dst] at hfree'
    exact Bool.false_ne_true (hfree'.symm.trans (h.sound.kernel.used hr.dst hk hp))

/-- Without one all frames taken are mapped. -/
theorem Cloned.noLeak (h : Cloned c spaces f c.copied) : c.NoLeak f := by
  intro j hfree hused
  rcases h.taken j hused with hb | ⟨x,hx,rfl⟩ | htable
  · exact absurd (hfree.symm.trans hb) Bool.false_ne_true
  · obtain ⟨e,he,hframe,-⟩ := h.walk_fresh hx
    exact .inl ⟨x,Call.lt_of_visited (Call.visited_of_copied hx),e,he,hframe⟩
  · exact .inr htable

/-- A copied page has the rights of its entry. -/
theorem Cloned.rights (hr : c.Ready spaces) (h : Cloned c spaces f c.copied) (hx : x ∈ c.copied)
    (hu : x < userPages) : (pde f c.dst (x / 1024)).testBit 1 = true ∧
      (pde f c.dst (x / 1024)).testBit 2 = true := by
  refine h.sound.built.rights hr.dst ?_ (h.present x hx)
  simp only [userPages,userTables,kernelBase,largePageSize,pageSize] at hu ⊢
  omega

/-- If the source is as it was, pages are copied below the kernel and from another space. -/
theorem Cloned.below (hr : c.Ready spaces) (h : Cloned c spaces f c.copied)
    (hsource : ∀ page < allPages,walk f c.src page = walk c.before c.src page) (hx : x ∈ c.copied) :
    c.dst ≠ c.src ∧ x < userPages := by
  have hall := Call.lt_of_visited (Call.visited_of_copied hx)
  obtain ⟨e,he,-,hlt,hfree,-⟩ := h.walk_fresh hx
  have hnot : walk f c.src x ≠ some e := by
    intro hs
    rw [hsource x hall] at hs
    exact Bool.false_ne_true (hfree.symm.trans (hr.mapped_used hr.src hall hs hlt))
  constructor
  · intro heq
    rw [heq] at he
    exact hnot he
  · by_contra hge
    have hkernel : KernelPage x := by
      refine ⟨?_,hall⟩
      simp only [userPages,kernelBase,pageSize] at hge ⊢
      omega
    rw [h.sound.kernel.walk_shared hr.dst hr.src hkernel] at he
    exact hnot he

/-- A range that is cloned rightly is one that the directory in use shows rightly. -/
theorem Cloned.faithful (hr : c.Ready spaces) (h : Cloned c spaces f c.copied)
    (hg : c.Copied f) : c.Faithful := by
  have hall : ∀ page < allPages,c.InRange page → (walk c.before c.src page).isSome →
      page ∈ c.copied := by
    intro page hpage hin hsome
    by_contra hno
    obtain ⟨e,he⟩ := Option.isSome_iff_exists.mp hsome
    obtain ⟨e',he',-,-,hfree,hused,-⟩ := hg.pages page hpage hin e he
    rw [h.walk_eq hr.dst hpage fun hc => hno hc.1] at he'
    have hlt := lt_of_getBit hused
    rw [h.bitCount] at hlt
    exact Bool.false_ne_true (hfree.symm.trans (hr.mapped_used hr.dst hpage he' hlt))
  refine ⟨?_,hall,?_,?_⟩
  · intro x hx
    have hv := Call.visited_of_copied hx
    have hxall := Call.lt_of_visited hv
    have hin := Call.inRange_of_visited hv
    have hu := (h.below hr hg.source hx).2
    obtain ⟨e,he,-,-,-,-,huser,hwrite,hword,-⟩ := h.walk_fresh hx
    obtain ⟨hr₁,hr₂⟩ := h.rights hr hx hu
    rw [hr₂,Bool.true_and] at huser
    rw [hr₁,Bool.true_and] at hwrite
    cases hs : walk c.before c.src x with
    | none =>
      rw [hg.only x hxall hin hs] at he
      cases he
    | some e₀ =>
      obtain ⟨e',he',huser',hwrite',-,-,hword'⟩ := hg.pages x hxall hin e₀ hs
      rw [he,Option.some_inj] at he'
      subst he'
      refine ⟨e₀,rfl,huser'.symm.trans huser,hwrite'.symm.trans hwrite,?_⟩
      intro i hi
      rw [← hword' i hi,hword hu]
  · intro page hpage hin hno
    rw [← h.walk_eq hr.dst hpage fun hc => hno hc.1]
    refine hg.only page hpage hin ?_
    by_contra hsome
    exact hno (hall page hpage hin (Option.isSome_iff_ne_none.mpr hsome))
  · rcases c.copied.eq_empty_or_nonempty with hempty | ⟨x,hx⟩
    · exact .inl hempty
    · exact .inr ⟨(h.below hr hg.source hx).1,fun y hy => (h.below hr hg.source hy).2⟩

/-- Where the directory in use shows the range rightly it is cloned rightly. -/
theorem Cloned.copied (hr : c.Ready spaces) (h : Cloned c spaces f c.copied)
    (hf : c.Faithful) : c.Copied f := by
  have hbelow : ∀ x ∈ c.copied,c.dst ≠ c.src ∧ x < userPages := by
    intro x hx
    rcases hf.below with hempty | ⟨hne,hu⟩
    · rw [hempty] at hx
      exact absurd hx (Finset.notMem_empty x)
    · exact ⟨hne,hu x hx⟩
  have hmapped : ∀ page < allPages,c.InRange page → ∀ e,walk f c.dst page = some e →
      page ∈ c.copied := by
    intro page hpage hin e he
    by_contra hno
    rw [h.walk_eq hr.dst hpage fun hc => hno hc.1,hf.clear page hpage hin hno] at he
    cases he
  refine ⟨?_,?_,?_,?_,?_,?_⟩
  · intro page hpage hin e he
    have hx := hf.all page hpage hin (by rw [he]; rfl)
    have hu := (hbelow page hx).2
    obtain ⟨e',he',-,-,hfree,hused,huser,hwrite,hword,-⟩ := h.walk_fresh hx
    obtain ⟨hr₁,hr₂⟩ := h.rights hr hx hu
    rw [hr₂,Bool.true_and] at huser
    rw [hr₁,Bool.true_and] at hwrite
    obtain ⟨e₀,he₀,huser₀,hwrite₀,hword₀⟩ := hf.same page hx
    rw [he,Option.some_inj] at he₀
    subst he₀
    refine ⟨e',he',huser.trans huser₀.symm,hwrite.trans hwrite₀.symm,hfree,hused,?_⟩
    intro i hi
    rw [hword hu,hword₀ i hi]
  · intro page hpage hin hnone
    by_contra hsome
    obtain ⟨e,he⟩ := Option.ne_none_iff_exists'.mp hsome
    obtain ⟨e₀,he₀,-⟩ := hf.same page (hmapped page hpage hin e he)
    rw [hnone] at he₀
    cases he₀
  · intro p hp q hq hinp hinq e e' he he' heq
    have hxp := hmapped p hp hinp e he
    have hxq := hmapped q hq hinq e' he'
    rw [(mapped_entries he).2.2.1,(mapped_entries he').2.2.1] at heq
    exact h.apart p hxp q hxq heq
  · intro page hpage
    refine h.walk_eq hr.src hpage ?_
    rintro ⟨hx,heq | hge⟩
    · exact (hbelow page hx).1 heq.symm
    · exact Nat.not_lt.mpr hge (hbelow page hx).2
  · intro page hpage hout
    exact h.walk_eq hr.dst hpage fun hc =>
      hout (Call.inRange_of_visited (Call.visited_of_copied hc.1))
  · intro page hpage e he i _
    have hsteady : Steady c.before spaces e.frame := by
      rcases he with he | ⟨-,he⟩
      · exact hr.mapped_steady hr.src hpage he
      · exact hr.mapped_steady hr.dst hpage he
    rw [h.words _ hsteady]

/-- CloneRange is right exactly when the call fits. -/
theorem right_iff (hr : c.Ready spaces) : ∃ r g,c.run = (r,g) ∧ (c.Right g ↔ c.Fits) := by
  obtain ⟨r,g,hrun,f,h,⟨hno,rfl⟩ | ⟨hleak,t,j,ht⟩⟩ := cloned_spec hr
  · refine ⟨r,g,hrun,fun hg => ⟨fun hen => ?_,hno⟩,fun hf => ⟨fun hen => ?_,h.noLeak⟩⟩
    · exact h.faithful hr (hg.1 hen)
    · exact h.copied hr (hf.1 hen)
  · exact ⟨r,g,hrun,fun hg => absurd hg.2 (ht.leak hr h),fun hf => absurd hleak hf.2⟩

end Correct

end WootOs.CloneRange
