import WootOs.KernelSpace
import WootOs.FreshPages

/-!
# Cloning a page

CloneRange copies the pages of a range into another address space, each into a
frame of its own. It looks for them in the directory in use, whatever source it
is given, and takes every entry of a page table there, present or not. When a
frame was taken and there is none for the page table, it goes on, and the frame
is lost.

One turn of its loop takes a frame, fills it, and maps a page to it. Page
tables are described by their raw entries here, since the loop reads those that
are not present as well.
-/

namespace WootOs.CloneRange

open FrameBitmap FrameAllocator Paging PageMap UserMemory KernelSpace FreshPages

/-- Memory::Move of a page. -/
def move (f : Frames) (dst src : ℕ) : Frames :=
  { f with word := Function.update f.word dst (f.word src) }

/-- One turn of the inner loop of Paging::CloneRange, and whether the call goes on. -/
def cloneEntry (cr3 dst startVA rangeSize pdidx : ℕ) (f : Frames) (ptidx : ℕ) : Bool × Frames :=
  let va := pdidx * largePageSize + ptidx * pageSize
  if va < startVA ∨ (startVA + rangeSize) % 2 ^ 32 ≤ va then (true,f)
  else if ¬Present (f.word (cr3 / pageSize) pdidx) then (true,f)
  else
    let pte := f.word (f.word (cr3 / pageSize) pdidx / pageSize) ptidx
    let r := allocFrame f.bitmap
    if r.1 = noFrame then (false,f)
    else
      let g := move { f with bitmap := r.2 } (r.1 / pageSize) (pte / pageSize)
      (true,(g.mapPage dst va r.1 (pte.testBit 2) (pte.testBit 1)).2)

/-- One turn of the outer loop of Paging::CloneRange. -/
def cloneTable (cr3 dst startVA rangeSize : ℕ) (f : Frames) (pdidx : ℕ) : Bool × Frames :=
  loop (cloneEntry cr3 dst startVA rangeSize pdidx) (List.range 1024) f

/-- Paging::CloneRange, and whether it came to the end of its loop. -/
def cloneRange (f : Frames) (cr3 dst startVA rangeSize : ℕ) : Bool × Frames :=
  let startPD := startVA / largePageSize
  let endPD := (startVA + rangeSize + largePageSize - 1) % 2 ^ 32 / largePageSize
  loop (cloneTable cr3 dst startVA rangeSize) (List.range' startPD (endPD - startPD)) f

/-- The entry of a page table. -/
def pte (f : Frames) (as page : ℕ) : ℕ := f.word (table f as (page / 1024)) (page % 1024)

/-- The tables of the processes and those of the kernel are in order. -/
structure Sound (f : Frames) (spaces : List ℕ) : Prop where
  /-- Below the kernel. -/
  built : Built f spaces
  /-- Those of the kernel. -/
  kernel : KernelMap f spaces

/-- A frame in use that holds no table; or a frame of no memory. -/
structure Steady (f : Frames) (spaces : List ℕ) (j : ℕ) : Prop where
  /-- It holds no table. -/
  plain : Plain f spaces j
  /-- It is not free. -/
  used : j < f.bitmap.bitCount → f.bitmap.getBit j = true

/-- A frame was free, is in use and holds what another one holds. -/
structure Taken (f g : Frames) (spaces : List ℕ) (t j : ℕ) : Prop where
  /-- The tables are in order. -/
  sound : Sound g spaces
  /-- There are as many frames. -/
  bitCount : g.bitmap.bitCount = f.bitmap.bitCount
  /-- It has an address of 32 bits. -/
  lt : t < f.bitmap.bitCount
  /-- It was free. -/
  free : f.bitmap.getBit t = false
  /-- It is in use, and no other frame has changed its part. -/
  bit : ∀ i,g.bitmap.getBit i = (f.bitmap.getBit i || decide (i = t))
  /-- There is one frame less. -/
  count : clearCount g.bitmap + 1 = clearCount f.bitmap
  /-- The directories are as before. -/
  pde : ∀ as ∈ spaces,∀ k,pde g as k = pde f as k
  /-- The page tables are as before. -/
  pte : ∀ as ∈ spaces,∀ page < allPages,Present (PageMap.pde f as (page / 1024)) →
    pte g as page = pte f as page
  /-- The frame holds what the other one does. -/
  copied : g.word t = f.word j
  /-- The other frames are as before. -/
  word : ∀ i,i ≠ t → g.word i = f.word i

/-- A page has an entry that names a frame. -/
structure Mapped (f g : Frames) (spaces : List ℕ) (dst x w : ℕ) : Prop where
  /-- The tables are in order. -/
  sound : Sound g spaces
  /-- There are as many frames. -/
  bitCount : g.bitmap.bitCount = f.bitmap.bitCount
  /-- Frames in use stay in use. -/
  bits : ∀ j,f.bitmap.getBit j = true → g.bitmap.getBit j = true
  /-- A page table was taken if there was none. -/
  count : clearCount g.bitmap + (if Present (pde f dst (x / 1024)) then 0 else 1) =
    clearCount f.bitmap
  /-- Only a page table was taken. -/
  taken : ∀ j,g.bitmap.getBit j = true → f.bitmap.getBit j = true ∨ j = table g dst (x / 1024)
  /-- Page tables stay. -/
  stays : ∀ as ∈ spaces,∀ k < 1024,Present (pde f as k) → pde g as k = pde f as k
  /-- There is at most one more. -/
  more : ∀ as ∈ spaces,∀ k < 1024,Present (pde g as k) → Present (pde f as k) ∨
    as = dst ∧ k = x / 1024
  /-- The page has a page table. -/
  present : Present (pde g dst (x / 1024))
  /-- Its entry. -/
  self : pte g dst x = w
  /-- The other entries; a new page table has none. -/
  others : ∀ as ∈ spaces,∀ page < allPages,Present (pde g as (page / 1024)) →
    ¬(page = x ∧ (as = dst ∨ userPages ≤ x)) →
      pte g as page = if Present (pde f as (page / 1024)) then pte f as page else 0
  /-- Frames without tables are left alone. -/
  words : ∀ j,Steady f spaces j → g.word j = f.word j
  /-- They still hold none. -/
  steady : ∀ j,Steady f spaces j → Steady g spaces j

section Raw

variable {f g : Frames} {spaces : List ℕ} {as page j t : ℕ} {e : Mapping}

/-- The walk in terms of entries. -/
theorem walk_pte (hp : Present (pde f as (page / 1024))) :
    walk f as page = mappingOf (pde f as (page / 1024)) (pte f as page) :=
  walk_eq hp

/-- A mapped page has both entries. -/
theorem mapped_entries (he : walk f as page = some e) :
    Present (pde f as (page / 1024)) ∧ Present (pte f as page) ∧
      e.frame = pte f as page / pageSize ∧
      e.user = ((pde f as (page / 1024)).testBit 2 && (pte f as page).testBit 2) ∧
      e.write = ((pde f as (page / 1024)).testBit 1 && (pte f as page).testBit 1) := by
  by_cases hp : Present (pde f as (page / 1024))
  · rw [walk_pte hp,mappingOf] at he
    split_ifs at he with hpte
    rw [← Option.some.inj he]
    exact ⟨hp,hpte,rfl,rfl,rfl⟩
  · rw [walk_of_not_present rfl hp] at he
    cases he

/-- Pages are the same where the entries are. -/
theorem walk_same (hpde : pde g as (page / 1024) = pde f as (page / 1024))
    (hpte : Present (pde f as (page / 1024)) → pte g as page = pte f as page) :
    walk g as page = walk f as page := by
  by_cases hp : Present (pde f as (page / 1024))
  · rw [walk_pte (by rw [hpde]; exact hp),walk_pte hp,hpde,hpte hp]
  · rw [walk_of_not_present rfl (by rw [hpde]; exact hp),walk_of_not_present rfl hp]

/-- A free frame is taken and filled. -/
theorem taken_move (h : Sound f spaces) (hfree : f.bitmap.getBit t = false)
    (ht : t < f.bitmap.bitCount) {b : Bitmap} (hcount : b.bitCount = f.bitmap.bitCount)
    (hbit : ∀ j,b.getBit j = (f.bitmap.getBit j || decide (j = t)))
    (hleft : clearCount b + 1 = clearCount f.bitmap) (j : ℕ) :
    Taken f (move { f with bitmap := b } t j) spaces t j := by
  have hplain := h.kernel.plain_of_free hfree
  have hword : ∀ i,i ≠ t → (move { f with bitmap := b } t j).word i = f.word i :=
    fun i hi => Function.update_of_ne hi _ _
  have hmono : ∀ i,f.bitmap.getBit i = true → b.getBit i = true := by
    intro i hi
    rw [hbit,hi,Bool.true_or]
  have hpde : ∀ as ∈ spaces,∀ k,pde (move { f with bitmap := b } t j) as k = pde f as k := by
    intro as hs k
    rw [pde,hword _ (hplain as hs).1.symm,pde]
  have hpte : ∀ as ∈ spaces,∀ page < allPages,Present (pde f as (page / 1024)) →
      pte (move { f with bitmap := b } t j) as page = pte f as page := by
    intro as hs page hpage hp
    rw [pte,table,hpde as hs]
    exact congrFun (hword _ ((hplain as hs).2 _ (table_lt hpage) hp).symm) _
  refine ⟨⟨?_,?_⟩,hcount,ht,hfree,hbit,hleft,hpde,hpte,Function.update_self _ _ _,hword⟩
  · refine h.built.congr hcount hpde hmono ?_
    intro as hs k hk hp
    exact hword _ (ne_of_free hfree (h.built.used_table hs hk hp))
  · refine h.kernel.congr hcount hpde (fun i _ hi => hmono i hi) ?_
    intro as page e hs hpage he
    rw [walk_same (hpde as hs _) (hpte as hs page hpage)] at he
    exact h.kernel.small hs hpage he

end Raw

section Map

variable {f g : Frames} {spaces : List ℕ} {as as' dst x k k' t w : ℕ}

/-- A page table belongs to one entry of one directory, or to the kernel. -/
theorem Sound.table_cases (h : Sound f spaces) (hs : as ∈ spaces) (hs' : as' ∈ spaces)
    (hk : k < 1024) (hk' : k' < 1024) (hp : Present (pde f as k)) (hp' : Present (pde f as' k'))
    (heq : table f as k = table f as' k') : k = k' ∧ (as = as' ∨ userTables ≤ k) := by
  obtain rfl := h.kernel.inj hs hs' hk hk' hp hp' heq
  by_cases hu : k < userTables
  · exact ⟨rfl,.inl (h.built.table_inj hs hu hp hs' hu hp' heq).1⟩
  · exact ⟨rfl,.inr (Nat.not_lt.mp hu)⟩

/-- Pages of the kernel have tables of the kernel. -/
theorem userPages_le_iff (x : ℕ) : userPages ≤ x ↔ userTables ≤ x / 1024 := by
  simp only [userPages,userTables,kernelBase,largePageSize,pageSize]
  omega

/-- The frames of pages have addresses of 32 bits when those of the entries have. -/
theorem small_of_pte (hpte : ∀ as ∈ spaces,∀ page < allPages,Present (pde f as (page / 1024)) →
    Present (pte f as page) → pte f as page / pageSize < 2 ^ 20) {as page : ℕ} {e : Mapping}
    (hs : as ∈ spaces) (hpage : page < allPages) (he : walk f as page = some e) :
    e.frame < 2 ^ 20 := by
  obtain ⟨hp,hp',hframe,-⟩ := mapped_entries he
  rw [hframe]
  exact hpte as hs page hpage hp hp'

/-- The frames that entries name have addresses of 32 bits. -/
theorem Sound.pte_small (h : Sound f spaces) (hs : as ∈ spaces) (hx : x < allPages)
    (hp : Present (pde f as (x / 1024))) (hp' : Present (pte f as x)) :
    pte f as x / pageSize < 2 ^ 20 :=
  h.kernel.small hs hx (e := ⟨_,_,_⟩) (by rw [walk_pte hp,mappingOf,if_pos hp'])

/-- An entry is written into a page table that is there. -/
theorem mapped_write (h : Sound f spaces) (hs : dst ∈ spaces) (hx : x < allPages)
    (hp : Present (pde f dst (x / 1024))) (hw : Present w) (hsmall : w / pageSize < 2 ^ 20) :
    Mapped f (f.write (table f dst (x / 1024)) (x % 1024) w) spaces dst x w := by
  have hk := table_lt hx
  have hpde : ∀ as ∈ spaces,∀ k,
      pde (f.write (table f dst (x / 1024)) (x % 1024) w) as k = pde f as k := by
    intro as hs' k
    rw [pde,word_write_of_ne (h.kernel.ne_dir hs hs' hk hp).symm,pde]
  have htable : ∀ as ∈ spaces,∀ k,
      table (f.write (table f dst (x / 1024)) (x % 1024) w) as k = table f as k := by
    intro as hs' k
    rw [table,hpde as hs',table]
  have hself : pte (f.write (table f dst (x / 1024)) (x % 1024) w) dst x = w := by
    rw [pte,htable dst hs,word_write,if_pos ⟨rfl,rfl⟩]
  have hother : ∀ as ∈ spaces,∀ page < allPages,Present (pde f as (page / 1024)) →
      ¬(page = x ∧ (as = dst ∨ userPages ≤ x)) →
        pte (f.write (table f dst (x / 1024)) (x % 1024) w) as page = pte f as page := by
    intro as hs' page hpage hpp hne
    rw [pte,htable as hs',word_write,if_neg,pte]
    rintro ⟨htab,hmod⟩
    obtain ⟨hdiv,hsame⟩ := h.table_cases hs' hs (table_lt hpage) hk hpp hp htab
    refine hne ⟨by omega,?_⟩
    rw [userPages_le_iff,← hdiv]
    exact hsame
  have hsame : ∀ as ∈ spaces,∀ page < allPages,Present (pde f as (page / 1024)) →
      pte (f.write (table f dst (x / 1024)) (x % 1024) w) as page = w ∨
        pte (f.write (table f dst (x / 1024)) (x % 1024) w) as page = pte f as page := by
    intro as hs' page hpage hpp
    rw [pte,htable as hs',word_write]
    split_ifs
    · exact .inl rfl
    · exact .inr rfl
  have hkernel : KernelMap (f.write (table f dst (x / 1024)) (x % 1024) w) spaces := by
    refine h.kernel.congr rfl hpde (fun _ _ hu => hu) (small_of_pte ?_)
    intro as hs' page hpage hpp hpp'
    rw [hpde as hs'] at hpp
    rcases hsame as hs' page hpage hpp with heq | heq
    · rw [heq]
      exact hsmall
    · rw [heq] at hpp' ⊢
      exact h.pte_small hs' hpage hpp hpp'
  have hbuilt : Built (f.write (table f dst (x / 1024)) (x % 1024) w) spaces := by
    by_cases hu : x / 1024 < userTables
    · refine h.built.change (elsewhere_write h.built hs hu hp _ _)
        (.inr (own_write h.built hs hu hp (j := x % 1024) (Nat.mod_lt _ (by decide)) ?_))
      rw [word_write,if_pos ⟨rfl,rfl⟩]
      exact hw
    · refine h.built.congr rfl hpde (fun _ hj => hj) ?_
      intro as hs' k hk' hpk
      refine word_write_of_ne fun heq => hu ?_
      rw [← h.kernel.inj hs' hs (by rw [userTables,kernelBase,largePageSize] at hk'; omega) hk hpk
        hp heq]
      exact hk'
  refine ⟨⟨hbuilt,hkernel⟩,rfl,fun _ hj => hj,?_,fun _ hj => .inl hj,
    fun as hs' k _ _ => hpde as hs' k,?_,?_,hself,?_,?_,?_⟩
  · rw [if_pos hp]
    rfl
  · intro as hs' k _ hpk
    rw [hpde as hs'] at hpk
    exact .inl hpk
  · rw [hpde dst hs]
    exact hp
  · intro as hs' page hpage hpp hne
    rw [hpde as hs'] at hpp
    rw [if_pos hpp,hother as hs' page hpage hpp hne]
  · intro j hj
    exact word_write_of_ne ((hj.plain dst hs).2 _ hk hp)
  · intro j hj
    exact ⟨hj.plain.congr hpde,hj.used⟩

/-- An entry is written into a new page table. -/
theorem mapped_newTable (h : Sound f spaces) (hs : dst ∈ spaces) (hx : x < userPages)
    (hp : ¬Present (pde f dst (x / 1024))) (hn : NewTable f g dst (x / 1024) t (x % 1024) w)
    (hw : Present w) (hsmall : w / pageSize < 2 ^ 20) : Mapped f g spaces dst x w := by
  have hxall : x < allPages := by
    rw [userPages,kernelBase,pageSize] at hx
    rw [allPages]
    omega
  have hk := table_lt hxall
  have hku : x / 1024 < userTables := by
    simp only [userPages,userTables,kernelBase,largePageSize,pageSize] at hx ⊢
    omega
  have hmono : ∀ j,f.bitmap.getBit j = true → g.bitmap.getBit j = true := by
    intro j hj
    rw [hn.bit,hj,Bool.true_or]
  have hpde := fun as (hs' : as ∈ spaces) k => hn.pde_eq h.built hs hs' k
  have hself := hn.pde_self h.built hs
  have htself := hn.table_self h.built hs
  have hold : ∀ as ∈ spaces,∀ k,Present (pde f as k) → pde g as k = pde f as k := by
    intro as hs' k hpk
    rw [hpde as hs',if_neg]
    rintro ⟨rfl,rfl⟩
    exact hp hpk
  have hotable : ∀ as ∈ spaces,∀ k,Present (pde f as k) → table g as k = table f as k := by
    intro as hs' k hpk
    rw [table,hold as hs' k hpk,table]
  have hmore : ∀ as ∈ spaces,∀ k,Present (pde g as k) → Present (pde f as k) ∨
      as = dst ∧ k = x / 1024 := by
    intro as hs' k hpk
    by_cases heq : as = dst ∧ k = x / 1024
    · exact .inr heq
    · rw [hpde as hs',if_neg heq] at hpk
      exact .inl hpk
  have hfree : ∀ as ∈ spaces,∀ k < 1024,Present (pde f as k) → table f as k ≠ t :=
    fun as hs' k hk' hpk => ne_of_free hn.free (h.kernel.used hs' hk' hpk)
  have hdir : ∀ as ∈ spaces,as / pageSize ≠ t :=
    fun as hs' => ne_of_free hn.free (h.kernel.used_dir hs')
  have hlt : t < f.bitmap.bitCount := by
    rw [← hn.bitCount]
    refine lt_of_getBit (b := g.bitmap) ?_
    rw [hn.bit,decide_eq_true rfl,Bool.or_true]
  have hwords : ∀ as ∈ spaces,∀ k < 1024,Present (pde f as k) →
      g.word (table f as k) = f.word (table f as k) := by
    intro as hs' k hk' hpk
    funext i
    rw [hn.word,if_neg (hfree as hs' k hk' hpk),if_neg]
    exact fun hc => h.kernel.ne_dir hs' hs hk' hpk hc.1
  have hown : pte g dst x = w := by
    rw [pte,htself,hn.word,if_pos rfl,if_pos rfl]
  have hothers : ∀ as ∈ spaces,∀ page < allPages,Present (pde g as (page / 1024)) →
      ¬(page = x ∧ as = dst) →
        pte g as page = if Present (pde f as (page / 1024)) then pte f as page else 0 := by
    intro as hs' page hpage hpp hne
    by_cases hpf : Present (pde f as (page / 1024))
    · rw [if_pos hpf,pte,hotable as hs' _ hpf,hwords as hs' _ (table_lt hpage) hpf,pte]
    · obtain ⟨rfl,hdiv⟩ := (hmore as hs' _ hpp).resolve_left hpf
      rw [if_neg hpf,pte,hdiv,htself,hn.word,if_pos rfl,if_neg]
      intro hmod
      exact hne ⟨by omega,rfl⟩
  have hbuilt : Built g spaces :=
    h.built.change (hn.elsewhere h.built hs)
      (.inr (hn.own h.built hs (Nat.mod_lt _ (by decide)) hw))
  have hkernel : KernelMap g spaces := by
    refine ⟨hn.bitCount ▸ h.kernel.size,fun hs' => hmono _ (h.kernel.used_dir hs'),?_,?_,?_,?_,?_,
      small_of_pte ?_⟩
    · intro as k hs' hl hk'
      have hpk := h.kernel.present hs' hl hk'
      rw [hold as hs' k hpk]
      exact hpk
    · intro as as' k hs' hs'' hl hk'
      rw [hold as hs' k (h.kernel.present hs' hl hk'),
        hold as' hs'' k (h.kernel.present hs'' hl hk')]
      exact h.kernel.shared hs' hs'' hl hk'
    · intro as k hs' hk' hpk
      rcases hmore as hs' k hpk with hpf | ⟨rfl,rfl⟩
      · rw [hotable as hs' k hpf]
        exact hmono _ (h.kernel.used hs' hk' hpf)
      · rw [htself,hn.bit,decide_eq_true rfl,Bool.or_true]
    · intro as as' k hs' hs'' hk' hpk
      rcases hmore as hs' k hpk with hpf | ⟨rfl,rfl⟩
      · rw [hotable as hs' k hpf]
        exact h.kernel.ne_dir hs' hs'' hk' hpf
      · rw [htself]
        exact (hdir as' hs'').symm
    · intro as as' k k' hs' hs'' hk' hk'' hpk hpk' heq
      rcases hmore as hs' k hpk with hpf | ⟨rfl,rfl⟩
      · rcases hmore as' hs'' k' hpk' with hpf' | ⟨rfl,rfl⟩
        · rw [hotable as hs' k hpf,hotable as' hs'' k' hpf'] at heq
          exact h.kernel.inj hs' hs'' hk' hk'' hpf hpf' heq
        · rw [hotable as hs' k hpf,htself] at heq
          exact absurd heq (hfree as hs' k hk' hpf)
      · rcases hmore as' hs'' k' hpk' with hpf' | ⟨rfl,rfl⟩
        · rw [hotable as' hs'' k' hpf',htself] at heq
          exact absurd heq.symm (hfree as' hs'' k' hk'' hpf')
        · rfl
    · intro as hs' page hpage hpp hpp'
      by_cases heq : page = x ∧ as = dst
      · obtain ⟨rfl,rfl⟩ := heq
        rw [hown]
        exact hsmall
      · rw [hothers as hs' page hpage hpp heq] at hpp' ⊢
        by_cases hpf : Present (pde f as (page / 1024))
        · rw [if_pos hpf] at hpp' ⊢
          exact h.pte_small hs' hpage hpf hpp'
        · rw [if_neg hpf] at hpp'
          exact absurd hpp' not_present_zero
  have hne : ∀ j,Steady f spaces j → j ≠ t := by
    rintro j hj rfl
    exact Bool.false_ne_true (hn.free.symm.trans (hj.used hlt))
  refine ⟨⟨hbuilt,hkernel⟩,hn.bitCount,hmono,?_,?_,fun as hs' k _ => hold as hs' k,
    fun as hs' k _ => hmore as hs' k,?_,hown,?_,?_,?_⟩
  · rw [if_neg hp]
    exact clearCount_taken hn.bitCount hn.free hlt hn.bit
  · intro j hj
    rw [hn.bit,Bool.or_eq_true,decide_eq_true_iff] at hj
    rw [htself]
    exact hj
  · rw [hself]
    exact (lor_seven_spec t).2.1
  · intro as hs' page hpage hpp hne'
    exact hothers as hs' page hpage hpp fun hc => hne' ⟨hc.1,.inl hc.2⟩
  · intro j hj
    funext i
    rw [hn.word,if_neg (hne j hj),if_neg]
    exact fun hc => (hj.plain dst hs).1 hc.1
  · intro j hj
    refine ⟨?_,fun hlt' => hmono j (hj.used (hn.bitCount ▸ hlt'))⟩
    intro as hs'
    refine ⟨(hj.plain as hs').1,?_⟩
    intro k hk' hpk
    rcases hmore as hs' k hpk with hpf | ⟨rfl,rfl⟩
    · rw [hotable as hs' k hpf]
      exact (hj.plain as hs').2 k hk' hpf
    · rw [htself]
      exact hne j hj

/-- MapPage of a page of either part: there is no frame for a page table, or the page is
mapped. -/
theorem mapPage_mapped (h : Sound f spaces) (hs : dst ∈ spaces) (hx : x < allPages)
    (ht : t < f.bitmap.bitCount) (user write : Bool) :
    (clearCount f.bitmap = 0 ∧ ¬Present (pde f dst (x / 1024)) ∧
      f.mapPage dst (x * pageSize) (t * pageSize) user write = (false,f)) ∨
    ∃ g,f.mapPage dst (x * pageSize) (t * pageSize) user write = (true,g) ∧
      Mapped f g spaces dst x (leaf (t * pageSize) user write) := by
  obtain ⟨hframe,hpres,-⟩ := leaf_spec (t * pageSize) user write
  have hsmall : leaf (t * pageSize) user write / pageSize < 2 ^ 20 := by
    rw [hframe,Nat.mul_div_cancel _ (by decide : 0 < pageSize)]
    exact Nat.lt_of_lt_of_le ht h.kernel.size
  by_cases hu : x < userPages
  · obtain ⟨hva,hdir,hdiv⟩ := page_below hu
    have hcases := @mapPage_cases f spaces dst (x * pageSize) (t * pageSize) user write h.built hs
      hva
    rw [hdir,hdiv] at hcases
    rcases hcases with ⟨hno,hall,hr⟩ | ⟨g,t',hno,hr,hn⟩ | ⟨hp,hr⟩
    · exact .inl ⟨clearCount_eq_zero.mpr hall,hno,hr⟩
    · exact .inr ⟨g,hr,mapped_newTable h hs hu hno hn hpres hsmall⟩
    · exact .inr ⟨_,hr,mapped_write h hs hx hp hpres hsmall⟩
  · have hkernel : KernelPage x := by
      refine ⟨?_,hx⟩
      simp only [userPages,kernelBase,pageSize] at hu ⊢
      omega
    exact .inr ⟨_,h.kernel.mapPage_eq hs hkernel _ user write,
      mapped_write h hs hx (h.kernel.present_page hs hkernel) hpres hsmall⟩

end Map

/-- A page has got the frame t, which was free, with a copy of what the directory in use shows. -/
structure OneCopy (f g : Frames) (spaces : List ℕ) (cr3 dst x t : ℕ) : Prop where
  /-- The tables are in order. -/
  sound : Sound g spaces
  /-- There are as many frames. -/
  bitCount : g.bitmap.bitCount = f.bitmap.bitCount
  /-- Frames in use stay in use. -/
  bits : ∀ j,f.bitmap.getBit j = true → g.bitmap.getBit j = true
  /-- The frame has an address of 32 bits. -/
  lt : t < f.bitmap.bitCount
  /-- It was free. -/
  free : f.bitmap.getBit t = false
  /-- It was taken, and a frame for the page table if there was none. -/
  count : clearCount g.bitmap + 1 + (if Present (pde f dst (x / 1024)) then 0 else 1) =
    clearCount f.bitmap
  /-- No other frame was. -/
  taken : ∀ j,g.bitmap.getBit j = true →
    f.bitmap.getBit j = true ∨ j = t ∨ j = table g dst (x / 1024)
  /-- Page tables stay. -/
  stays : ∀ as ∈ spaces,∀ k < 1024,Present (pde f as k) → pde g as k = pde f as k
  /-- There is at most one more. -/
  more : ∀ as ∈ spaces,∀ k < 1024,Present (pde g as k) → Present (pde f as k) ∨
    as = dst ∧ k = x / 1024
  /-- The page has a page table. -/
  present : Present (pde g dst (x / 1024))
  /-- Its entry names the frame, with the rights that the directory in use has. -/
  self : pte g dst x =
    leaf (t * pageSize) ((pte f cr3 x).testBit 2) ((pte f cr3 x).testBit 1)
  /-- The other entries; a new page table has none. -/
  others : ∀ as ∈ spaces,∀ page < allPages,Present (pde g as (page / 1024)) →
    ¬(page = x ∧ (as = dst ∨ userPages ≤ x)) →
      pte g as page = if Present (pde f as (page / 1024)) then pte f as page else 0
  /-- Frames without tables are left alone. -/
  words : ∀ j,Steady f spaces j → g.word j = f.word j
  /-- They still hold none. -/
  steady : ∀ j,Steady f spaces j → Steady g spaces j
  /-- The frame holds no table. -/
  own : Steady g spaces t
  /-- It holds the copy. -/
  copied : g.word t = f.word (pte f cr3 x / pageSize)

section Turn

variable {f g h : Frames} {spaces : List ℕ} {cr3 dst x j t startVA rangeSize w : ℕ}

/-- A frame that holds no table is none of those taken. -/
theorem Taken.keeps (ht : Taken f g spaces t j) {i : ℕ} (hi : Steady f spaces i) :
    Steady g spaces i ∧ g.word i = f.word i := by
  refine ⟨⟨hi.plain.congr ht.pde,?_⟩,ht.word i ?_⟩
  · intro hlt
    rw [ht.bit,hi.used (ht.bitCount ▸ hlt),Bool.true_or]
  · rintro rfl
    exact Bool.false_ne_true (ht.free.symm.trans (hi.used ht.lt))

/-- It holds no table itself. -/
theorem Taken.own (h : Sound f spaces) (ht : Taken f g spaces t j) : Steady g spaces t := by
  refine ⟨(h.kernel.plain_of_free ht.free).congr ht.pde,fun _ => ?_⟩
  rw [ht.bit,decide_eq_true rfl,Bool.or_true]

/-- A frame taken, filled and mapped. -/
theorem oneCopy_of_mapped (hf : Sound f spaces)
    (ht : Taken f h spaces t (pte f cr3 x / pageSize)) (hs : dst ∈ spaces)
    (hm : Mapped h g spaces dst x
      (leaf (t * pageSize) ((pte f cr3 x).testBit 2) ((pte f cr3 x).testBit 1))) :
    OneCopy f g spaces cr3 dst x t := by
  have hown := ht.own hf
  refine ⟨hm.sound,hm.bitCount.trans ht.bitCount,?_,ht.lt,ht.free,?_,?_,?_,?_,hm.present,hm.self,
    ?_,?_,fun i hi => hm.steady i (ht.keeps hi).1,hm.steady t hown,
    (hm.words t hown).trans ht.copied⟩
  · intro i hi
    exact hm.bits i (by rw [ht.bit,hi,Bool.true_or])
  · have hcount := hm.count
    rw [ht.pde dst hs] at hcount
    rw [← ht.count,← hcount]
    omega
  · intro i hi
    rcases hm.taken i hi with hbit | htable
    · rw [ht.bit,Bool.or_eq_true,decide_eq_true_iff] at hbit
      exact hbit.imp_right .inl
    · exact .inr (.inr htable)
  · intro as hs' k hk hp
    rw [hm.stays as hs' k hk (by rw [ht.pde as hs']; exact hp),ht.pde as hs']
  · intro as hs' k hk hp
    rw [← ht.pde as hs']
    exact hm.more as hs' k hk hp
  · intro as hs' page hpage hp hne
    rw [hm.others as hs' page hpage hp hne,ht.pde as hs']
    by_cases hpf : Present (pde f as (page / 1024))
    · rw [if_pos hpf,if_pos hpf,ht.pte as hs' page hpage hpf]
    · rw [if_neg hpf,if_neg hpf]
  · intro i hi
    rw [hm.words i (ht.keeps hi).1,(ht.keeps hi).2]

/-- The test of the loop. -/
def Visited (startVA rangeSize x : ℕ) : Prop :=
  startVA ≤ x * pageSize ∧ x * pageSize < (startVA + rangeSize) % 2 ^ 32

instance (startVA rangeSize x : ℕ) : Decidable (Visited startVA rangeSize x) :=
  inferInstanceAs (Decidable (_ ∧ _))

/-- The address of a page in terms of its indexes. -/
theorem va_of_page (x : ℕ) : x / 1024 * largePageSize + x % 1024 * pageSize = x * pageSize := by
  simp only [largePageSize,pageSize]
  omega

/-- A page out of the range, or without a page table, is passed over. -/
theorem cloneEntry_skip
    (hno : ¬(Visited startVA rangeSize x ∧ Present (pde f cr3 (x / 1024)))) :
    cloneEntry cr3 dst startVA rangeSize (x / 1024) f (x % 1024) = (true,f) := by
  rw [cloneEntry]
  dsimp only
  rw [va_of_page]
  by_cases hout : x * pageSize < startVA ∨ (startVA + rangeSize) % 2 ^ 32 ≤ x * pageSize
  · rw [if_pos hout]
  · have hpde : ¬Present (f.word (cr3 / pageSize) (x / 1024)) := by
      intro hp
      refine hno ⟨⟨?_,?_⟩,hp⟩
      · exact Nat.not_lt.mp fun hlt => hout (.inl hlt)
      · exact Nat.not_le.mp fun hle => hout (.inr hle)
    rw [if_neg hout,if_pos hpde]

/-- Any other page: there is no frame, or just one where two are needed, or the page is
copied. -/
theorem cloneEntry_cases (hf : Sound f spaces) (hs : dst ∈ spaces) (hx : x < allPages)
    (hv : Visited startVA rangeSize x) (hp : Present (pde f cr3 (x / 1024))) :
    (clearCount f.bitmap = 0 ∧
      cloneEntry cr3 dst startVA rangeSize (x / 1024) f (x % 1024) = (false,f)) ∨
    (clearCount f.bitmap = 1 ∧ ¬Present (pde f dst (x / 1024)) ∧
      ∃ g t j,cloneEntry cr3 dst startVA rangeSize (x / 1024) f (x % 1024) = (true,g) ∧
        Taken f g spaces t j) ∨
    ∃ g t,cloneEntry cr3 dst startVA rangeSize (x / 1024) f (x % 1024) = (true,g) ∧
      OneCopy f g spaces cr3 dst x t := by
  obtain ⟨hl,hu⟩ := hv
  have hin : ¬(x * pageSize < startVA ∨ (startVA + rangeSize) % 2 ^ 32 ≤ x * pageSize) := by
    rintro (hlt | hle)
    · exact Nat.not_lt.mpr hl hlt
    · exact Nat.not_le.mpr hu hle
  have hpde : ¬¬Present (f.word (cr3 / pageSize) (x / 1024)) := not_not_intro hp
  have hrun : cloneEntry cr3 dst startVA rangeSize (x / 1024) f (x % 1024) =
      if (allocFrame f.bitmap).1 = noFrame then (false,f)
      else (true,((move { f with bitmap := (allocFrame f.bitmap).2 }
        ((allocFrame f.bitmap).1 / pageSize) (pte f cr3 x / pageSize)).mapPage dst (x * pageSize)
          (allocFrame f.bitmap).1 ((pte f cr3 x).testBit 2) ((pte f cr3 x).testBit 1)).2) := by
    rw [cloneEntry]
    dsimp only
    rw [va_of_page,if_neg hin,if_neg hpde]
    rfl
  rw [hrun]
  rcases allocFrame_taken hf.built.size with ⟨hzero,hr⟩ | ⟨t,hlt,hfree,hpa,hne,hcount,hbit,hleft⟩
  · rw [hr,if_pos rfl]
    exact .inl ⟨hzero,rfl⟩
  right
  rw [hpa,if_neg hne,Nat.mul_div_cancel t (by decide : 0 < pageSize)]
  have ht := taken_move hf hfree hlt hcount hbit hleft (pte f cr3 x / pageSize)
  generalize move { f with bitmap := (allocFrame f.bitmap).2 } t (pte f cr3 x / pageSize) = h at ht
  rcases mapPage_mapped ht.sound hs hx (ht.bitCount ▸ hlt) ((pte f cr3 x).testBit 2)
    ((pte f cr3 x).testBit 1) with ⟨hzero,hno,hr⟩ | ⟨g,hr,hm⟩
  · rw [hr]
    rw [ht.pde dst hs] at hno
    have hone := ht.count
    rw [hzero] at hone
    exact .inl ⟨hone.symm,hno,h,t,_,rfl,ht⟩
  · rw [hr]
    exact .inr ⟨g,t,rfl,oneCopy_of_mapped hf ht hs hm⟩

end Turn

end WootOs.CloneRange
