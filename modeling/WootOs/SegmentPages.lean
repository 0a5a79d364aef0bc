import WootOs.ElfLoader
import WootOs.FreshPages
import Mathlib.Tactic.IntervalCases

/-!
# Pages that a loader fills

A loader maps pages to fresh frames, clears them and reads a file into them,
all through the page map of a process. Meanwhile memory differs from what it
was only in those pages: each of them has a frame that was free, no two of them
have the same, and the frames that other pages have hold what they held.

Bytes are those of the words in the frames, the lowest first.
-/

namespace WootOs.SegmentPages

open FrameBitmap FrameAllocator Paging PageMap UserMemory FreshPages

/-- A frame that pages have: it holds no directory and no page table, and is not free. -/
def PageFrame (spaces : List ℕ) (f : Frames) (j : ℕ) : Prop :=
  UserFrame (fun _ => False) spaces f j

/-- The byte at an address, where its page is mapped. -/
def byteAt (f : Frames) (as va : ℕ) : Option ℕ :=
  (walk f as (va / pageSize)).map fun e =>
    f.word e.frame (va % pageSize / 4) / 256 ^ (va % 4) % 256

/-- Memory in which some pages of an address space have got frames of their own. -/
structure Placed (f g : Frames) (spaces : List ℕ) (as : ℕ) (P : ℕ → Prop) : Prop where
  /-- The page tables are in order. -/
  built : Built g spaces
  /-- The frames that pages had hold what they held. -/
  kept : ∀ j,PageFrame spaces f j → PageFrame spaces g j ∧ g.word j = f.word j
  /-- The pages have frames that no page had. -/
  pages : ∀ page,P page → page < userPages ∧ ∃ t,walk g as page = some ⟨t,true,true⟩ ∧
    PageFrame spaces g t ∧ ¬PageFrame spaces f t
  /-- They are different frames. -/
  apart : ∀ page page' t,P page → P page' → walk g as page = some ⟨t,true,true⟩ →
    walk g as page' = some ⟨t,true,true⟩ → page = page'
  /-- The other pages are what they were. -/
  others : ∀ page < userPages,¬P page → walk g as page = walk f as page

section Words

/-- A byte that was set. -/
theorem setByte_self (w byte : ℕ) {i : ℕ} (hi : i < 4) :
    setByte w i byte / 256 ^ i % 256 = byte % 256 := by
  unfold setByte
  interval_cases i <;> omega

/-- The other bytes of the word. -/
theorem setByte_other (w byte : ℕ) {i i' : ℕ} (hi : i < 4) (hi' : i' < 4) (hne : i' ≠ i) :
    setByte w i byte / 256 ^ i' % 256 = w / 256 ^ i' % 256 := by
  unfold setByte
  interval_cases i <;> interval_cases i' <;> omega

end Words

section Pages

variable {f g h : Frames} {spaces : List ℕ} {as va j t : ℕ} {P Q : ℕ → Prop}

/-- No page has a frame that is free. -/
theorem not_pageFrame_of_free (hfree : f.bitmap.getBit j = false) (hlt : j < f.bitmap.bitCount) :
    ¬PageFrame spaces f j := by
  intro hj
  have hused := hj.used hlt
  rw [hfree] at hused
  cases hused

/-- What is mapped depends on the page only. -/
theorem mapNew_page (f : Frames) (as va : ℕ) :
    mapNew f as va = mapNew f as (va / pageSize * pageSize) := by
  have hdir : va / pageSize * pageSize / largePageSize = va / largePageSize := by
    simp only [pageSize,largePageSize]
    omega
  have hdiv : va / pageSize * pageSize / pageSize = va / pageSize :=
    Nat.mul_div_cancel _ (by decide)
  simp only [mapNew,Frames.mapPage,hdir,hdiv]

/-- A new page leaves the frames that pages have. -/
theorem mapNew_kept (hb : Built f spaces) (hs : as ∈ spaces) (hva : va < kernelBase)
    (hj : PageFrame spaces f j) :
    PageFrame spaces (mapNew f as va).2 j ∧ (mapNew f as va).2.word j = f.word j := by
  rw [mapNew]
  rcases allocFrame_taken hb.size with ⟨-,hrun⟩ | ⟨t,-,-,hpa,hne,hcount,hbit,-⟩
  · rw [if_pos (by rw [hrun])]
    exact ⟨hj,rfl⟩
  · rw [if_neg (by rw [hpa]; exact hne)]
    have hmono : ∀ i,f.bitmap.getBit i = true → (allocFrame f.bitmap).2.getBit i = true := by
      intro i hi
      rw [hbit,hi,Bool.true_or]
    have hbuilt := built_setBitmap hb hcount fun i _ hi => hmono i hi
    have hj' : PageFrame spaces { f with bitmap := (allocFrame f.bitmap).2 } j :=
      ⟨hj.lt,hj.not_kernel,hj.ne_dir,hj.ne_table,fun hlt => hmono j (hj.used (hcount ▸ hlt))⟩
    refine ⟨hj'.shift (mapPage_shift hbuilt hs hva _ true true),?_⟩
    exact (mapPage_shift (K := fun _ => True) hbuilt hs hva _ true true).word j trivial
      hj'.ne_dir hj'.ne_table hj'.used

/-- A page that is new has a frame that no page had. -/
theorem mapNew_fresh (hb : Built f spaces) (hs : as ∈ spaces) (hva : va < kernelBase)
    (run : (mapNew f as va).1 = true) : ∃ t,OneMore f (mapNew f as va).2 spaces as (va / pageSize) t ∧
      PageFrame spaces (mapNew f as va).2 t ∧ ¬PageFrame spaces f t := by
  rw [mapNew_page] at run ⊢
  rcases mapNew_cases hb hs (indexes_of_va hva).2.1 with ⟨-,hr⟩ | ⟨-,-,g,hr,-⟩ | ⟨g,t,hr,hone⟩
  · rw [hr] at run
    cases run
  · rw [hr] at run
    cases run
  · rw [hr]
    have hlt : t < f.bitmap.bitCount := by
      rw [← hone.bitCount]
      exact lt_of_getBit hone.used
    have hno := hone.tables t (.inl rfl) (noTable_of_free hb hone.free)
    refine ⟨t,hone,⟨?_,id,fun as' hs' => (hno as' hs').1,fun as' hs' => (hno as' hs').2,
      fun _ => hone.used⟩,not_pageFrame_of_free hone.free hlt⟩
    have := hb.size
    omega

/-- Nothing has been mapped. -/
theorem Placed.refl (hb : Built f spaces) : Placed f f spaces as fun _ => False :=
  ⟨hb,fun _ hj => ⟨hj,rfl⟩,fun _ hp => hp.elim,fun _ _ _ hp => hp.elim,fun _ _ _ => rfl⟩

/-- The pages may be described in other words. -/
theorem Placed.congr (hg : Placed f g spaces as P) (hiff : ∀ page,P page ↔ Q page) :
    Placed f g spaces as Q := by
  have heq : P = Q := funext fun page => propext (hiff page)
  exact heq ▸ hg

/-- A byte of a page whose frame is as before. -/
theorem byteAt_congr (hwalk : walk g as (va / pageSize) = walk f as (va / pageSize))
    (hword : ∀ e,walk f as (va / pageSize) = some e → g.word e.frame = f.word e.frame) :
    byteAt g as va = byteAt f as va := by
  rw [byteAt,byteAt,hwalk]
  cases hm : walk f as (va / pageSize) with
  | none => rfl
  | some e => rw [Option.map_some,Option.map_some,hword e hm]

/-- One more page. -/
theorem Placed.mapNew (hg : Placed f g spaces as P) (hs : as ∈ spaces) (hva : va < kernelBase)
    (run : (mapNew g as va).1 = true) :
    Placed f (UserMemory.mapNew g as va).2 spaces as (fun page => P page ∨ page = va / pageSize) ∧
      ∀ va',P (va' / pageSize) → va' / pageSize ≠ va / pageSize →
        byteAt (UserMemory.mapNew g as va).2 as va' = byteAt g as va' := by
  obtain ⟨t,hone,hframe,hnew⟩ := mapNew_fresh hg.built hs hva run
  have hkept : ∀ j,PageFrame spaces g j → PageFrame spaces (UserMemory.mapNew g as va).2 j ∧
      (UserMemory.mapNew g as va).2.word j = g.word j :=
    fun j hj => mapNew_kept hg.built hs hva hj
  have hself : walk (UserMemory.mapNew g as va).2 as (va / pageSize) = some ⟨t,true,true⟩ := by
    rw [hone.pages as hs _ (indexes_of_va hva).2.1,Pages.put,if_pos ⟨rfl,rfl⟩]
  have hother : ∀ page < userPages,page ≠ va / pageSize →
      walk (UserMemory.mapNew g as va).2 as page = walk g as page := by
    intro page hpage hne
    rw [hone.pages as hs _ hpage,Pages.put,if_neg fun hc => hne hc.2]
  have hsplit : ∀ page,P page ∨ page = va / pageSize → page = va / pageSize ∨
      P page ∧ page ≠ va / pageSize := by
    intro page hp
    by_cases heq : page = va / pageSize
    · exact .inl heq
    · exact .inr ⟨hp.resolve_right heq,heq⟩
  refine ⟨⟨hone.built,?_,?_,?_,?_⟩,?_⟩
  · intro j hj
    obtain ⟨hj',hword⟩ := hg.kept j hj
    obtain ⟨hj'',hword'⟩ := hkept j hj'
    exact ⟨hj'',hword'.trans hword⟩
  · intro page hp
    rcases hsplit page hp with rfl | ⟨hp,hne⟩
    · exact ⟨(indexes_of_va hva).2.1,t,hself,hframe,fun hj => hnew (hg.kept t hj).1⟩
    · obtain ⟨hlt,t',hwalk,hj,hno⟩ := hg.pages page hp
      exact ⟨hlt,t',by rw [hother page hlt hne,hwalk],(hkept t' hj).1,hno⟩
  · -- the frames of the pages from before are no longer free
    have hdiff : ∀ page,P page → page ≠ va / pageSize →
        walk (UserMemory.mapNew g as va).2 as page ≠ some ⟨t,true,true⟩ := by
      intro page hp hne heq
      obtain ⟨hlt,t',hwalk,hj,-⟩ := hg.pages page hp
      rw [hother page hlt hne,hwalk,Option.some_inj] at heq
      cases heq
      exact hnew hj
    intro page page' t' hp hp' hw hw'
    rcases hsplit page hp with rfl | ⟨hp,hne⟩
    · rcases hsplit page' hp' with rfl | ⟨hp',hne'⟩
      · rfl
      · rw [hself] at hw
        exact absurd (hw'.trans hw.symm) (hdiff page' hp' hne')
    · rcases hsplit page' hp' with rfl | ⟨hp',hne'⟩
      · rw [hself] at hw'
        exact absurd (hw.trans hw'.symm) (hdiff page hp hne)
      · rw [hother page (hg.pages page hp).1 hne] at hw
        rw [hother page' (hg.pages page' hp').1 hne'] at hw'
        exact hg.apart page page' t' hp hp' hw hw'
  · intro page hpage hp
    rw [not_or] at hp
    rw [hother page hpage hp.2,hg.others page hpage hp.1]
  · intro va' hp hne
    obtain ⟨hlt,t',hwalk,hj,-⟩ := hg.pages _ hp
    refine byteAt_congr (hother _ hlt hne) ?_
    intro e he
    rw [hwalk,Option.some_inj] at he
    rw [← he]
    exact (hkept t' hj).2

/-- A byte that is written. -/
theorem Placed.store (hg : Placed f g spaces as P) (hs : as ∈ spaces) (hp : P (va / pageSize))
    (byte : ℕ) : (store g as va byte).1 = true ∧
      Placed f (UserMemory.store g as va byte).2 spaces as P ∧
      byteAt (UserMemory.store g as va byte).2 as va = some (byte % 256) ∧
      ∀ va',P (va' / pageSize) → va' ≠ va →
        byteAt (UserMemory.store g as va byte).2 as va' = byteAt g as va' := by
  obtain ⟨hlt,t,hwalk,hj,hno⟩ := hg.pages _ hp
  rw [UserMemory.store,hwalk]
  -- the page that is written has a frame without tables
  have hsame : ∀ i w page,page < userPages → walk (g.write t i w) as page = walk g as page :=
    fun i w page hpage => hj.walk_write hs i w hpage
  have hkept : ∀ i w j,PageFrame spaces g j → PageFrame spaces (g.write t i w) j :=
    fun i w j hj' => hj'.shift (hj.shift_write hg.built i w)
  refine ⟨rfl,⟨(hj.shift_write hg.built _ _).built,?_,?_,?_,?_⟩,?_,?_⟩
  · intro j hj'
    obtain ⟨hjg,hword⟩ := hg.kept j hj'
    refine ⟨hkept _ _ j hjg,?_⟩
    rw [word_write_of_ne (by rintro rfl; exact hno hj'),hword]
  · intro page hp'
    obtain ⟨hlt',t',hwalk',hj',hno'⟩ := hg.pages page hp'
    exact ⟨hlt',t',by rw [hsame _ _ page hlt',hwalk'],hkept _ _ t' hj',hno'⟩
  · intro page page' t' hp' hp'' hw hw'
    rw [hsame _ _ page (hg.pages page hp').1] at hw
    rw [hsame _ _ page' (hg.pages page' hp'').1] at hw'
    exact hg.apart page page' t' hp' hp'' hw hw'
  · intro page hpage hp'
    rw [hsame _ _ page hpage,hg.others page hpage hp']
  · rw [byteAt,hsame _ _ _ hlt,hwalk,Option.map_some,word_write,if_pos ⟨rfl,rfl⟩,
      setByte_self _ _ (Nat.mod_lt _ (by decide))]
  · intro va' hp' hne
    obtain ⟨hlt',t',hwalk',-,-⟩ := hg.pages _ hp'
    rw [byteAt,byteAt,hsame _ _ _ hlt',hwalk',Option.map_some,Option.map_some,word_write]
    by_cases hat : t' = t ∧ va' % pageSize / 4 = va % pageSize / 4
    · have hpage : va' / pageSize = va / pageSize :=
        hg.apart _ _ t hp' hp (by rw [hwalk',hat.1]) hwalk
      have hbyte : va' % 4 ≠ va % 4 := by
        have hindex := hat.2
        simp only [pageSize] at hpage hindex
        omega
      rw [if_pos hat,setByte_other _ _ (Nat.mod_lt _ (by decide)) (Nat.mod_lt _ (by decide)) hbyte,
        hat.1,hat.2]
    · rw [if_neg hat]

end Pages

section Loops

variable {f g g' : Frames} {spaces : List ℕ} {as va : ℕ} {P : ℕ → Prop}

/-- Bytes in a row have been written, and the other bytes of the pages are what they were. -/
structure Written (g g' : Frames) (as : ℕ) (P : ℕ → Prop) (va : ℕ) (bytes : List ℕ) : Prop where
  /-- They are in the pages. -/
  inside : ∀ i < bytes.length,P ((va + i) / pageSize)
  /-- They are there. -/
  there : ∀ i (hi : i < bytes.length),byteAt g' as (va + i) = some (bytes[i] % 256)
  /-- The others are what they were. -/
  others : ∀ va',P (va' / pageSize) → va' < va ∨ va + bytes.length ≤ va' →
    byteAt g' as va' = byteAt g as va'

/-- Bytes are written to pages that have been placed, or to some that are not mapped. -/
theorem Placed.storeAll {bytes : List ℕ} (hg : Placed f g spaces as P) (hs : as ∈ spaces)
    (hfree : ∀ i < bytes.length,(va + i) / pageSize < userPages ∧
      (P ((va + i) / pageSize) ∨ walk f as ((va + i) / pageSize) = none))
    (run : storeAll as bytes g va = (true,g')) :
    Placed f g' spaces as P ∧ Written g g' as P va bytes := by
  induction bytes generalizing g va with
  | nil =>
    cases run
    exact ⟨hg,by simp,by simp,fun _ _ _ => rfl⟩
  | cons byte bytes ih =>
    obtain ⟨hlt,hpage⟩ := hfree 0 (by simp)
    rw [Nat.add_zero] at hlt hpage
    have hp : P (va / pageSize) := by
      rcases hpage with hp | hnone
      · exact hp
      · by_contra hp
        have hwalk := (hg.others _ hlt hp).trans hnone
        simp only [UserMemory.storeAll,UserMemory.store,hwalk] at run
        cases run
    obtain ⟨hrun,hplaced,hbyte,hsame⟩ := hg.store hs hp byte
    have hnext : (va + 1) % 2 ^ 32 = va + 1 := by
      refine Nat.mod_eq_of_lt ?_
      simp only [userPages,kernelBase,pageSize] at hlt
      omega
    rw [UserMemory.storeAll,if_pos hrun,hnext] at run
    obtain ⟨hplaced',hin,hbytes,hothers⟩ := ih hplaced (by
      intro i hi
      rw [show va + 1 + i = va + (i + 1) by omega]
      exact hfree (i + 1) (by simpa using hi)) run
    refine ⟨hplaced',?_,?_,?_⟩
    · intro i hi
      cases i with
      | zero => exact hp
      | succ i =>
        rw [show va + (i + 1) = va + 1 + i by omega]
        exact hin i (by simpa using hi)
    · intro i hi
      cases i with
      | zero =>
        rw [Nat.add_zero,hothers va hp (.inl (by omega)),hbyte]
        rfl
      | succ i =>
        rw [show va + (i + 1) = va + 1 + i by omega]
        exact hbytes i (by simpa using hi)
    · intro va' hp' hout
      rw [List.length_cons] at hout
      rw [hothers va' hp' (by omega),hsame va' hp' (by omega)]

/-- One page of a user image after the other. -/
theorem mapPages_cons (as va : ℕ) (rest : List ℕ) (f : Frames) :
    ElfLoader.mapPages as true (va :: rest) f =
      if kernelBase ≤ va then (false,f)
      else if (mapNew f as va).1 then ElfLoader.mapPages as true rest (mapNew f as va).2
      else mapNew f as va := by
  by_cases hr : (allocFrame f.bitmap).1 = noFrame
  · have hnew : mapNew f as va = (false,f) := by simp only [mapNew,hr,if_true]
    simp [ElfLoader.mapPages,hnew,hr]
  · have hnew : mapNew f as va = { f with bitmap := (allocFrame f.bitmap).2 }.mapPage as va
        (allocFrame f.bitmap).1 true true := by simp only [mapNew,hr,if_false]
    rw [hnew]
    cases hm : { f with bitmap := (allocFrame f.bitmap).2 }.mapPage as va (allocFrame f.bitmap).1
      true true with
    | mk r g => cases r <;> simp [ElfLoader.mapPages,hr,hm]

/-- Pages are mapped one by one. -/
theorem Placed.mapPages {vas : List ℕ} (hg : Placed f g spaces as P) (hs : as ∈ spaces)
    (run : ElfLoader.mapPages as true vas g = (true,g')) : (∀ va ∈ vas,va < kernelBase) ∧
      Placed f g' spaces as (fun page => P page ∨ ∃ va ∈ vas,page = va / pageSize) ∧
      ∀ va,P (va / pageSize) → (∀ va' ∈ vas,va / pageSize ≠ va' / pageSize) →
        byteAt g' as va = byteAt g as va := by
  induction vas generalizing g P with
  | nil =>
    cases run
    exact ⟨by simp,hg.congr (by simp),fun _ _ _ => rfl⟩
  | cons va vas ih =>
    rw [mapPages_cons] at run
    split_ifs at run with hk hrun
    · cases run
    · obtain ⟨hplaced,hsame⟩ := hg.mapNew hs (Nat.not_le.mp hk) hrun
      obtain ⟨hlow,hplaced',hsame'⟩ := ih hplaced run
      refine ⟨?_,hplaced'.congr ?_,?_⟩
      · exact List.forall_mem_cons.mpr ⟨Nat.not_le.mp hk,hlow⟩
      · intro page
        rw [or_assoc,List.exists_mem_cons_iff]
      · intro va' hp hne
        rw [hsame' va' (.inl hp) fun va'' hm => hne va'' (List.mem_cons_of_mem _ hm),
          hsame va' hp (hne va List.mem_cons_self)]
    · rw [run] at hrun
      exact absurd rfl hrun

end Loops

end WootOs.SegmentPages
