import WootOs.UnmapRange
import WootOs.UserFence

/-!
# System calls and the kernel

The system calls on user memory leave the kernel alone when their addresses
stay below it. What each of them has to be asked for is written down as the
condition of the call: munmap compares nothing with the start of the kernel,
mmap compares its start only, the buffer of a file may begin where the mmap
area has grown into the kernel, and shared memory is mapped wherever it is asked for.
A frame that is given back must belong to no other page, since the next one to
get it can be a page table.
-/

namespace WootOs.UserMemory

open FrameBitmap FrameAllocator Paging PageMap Runs

/-- A frame that addresses of the kernel lead to: a page table or the frame of a page. -/
def KernelFrame (spaces : List ℕ) (f : Frames) (j : ℕ) : Prop :=
  ∃ as ∈ spaces,∃ page,userPages ≤ page ∧ page < windowPages ∧
    (Present (pde f as (page / 1024)) ∧ j = table f as (page / 1024) ∨
      ∃ m,walk f as page = some m ∧ j = m.frame)

section Kernel

variable {spaces : List ℕ} {f g h : Frames} {as k page : ℕ} {shared : ℕ → Prop}

/-- The page table of a page of the kernel is none below the kernel. -/
theorem userTables_le (hp : userPages ≤ page) : userTables ≤ page / 1024 := by
  simp only [userPages,userTables,kernelBase,largePageSize,pageSize] at hp ⊢
  omega

/-- Frames of the kernel left alone, its pages are the same. -/
theorem Untouched.walk (h : Untouched (KernelFrame spaces f) spaces f g) (hs : as ∈ spaces)
    (hp : userPages ≤ page) (hw : page < windowPages) :
    PageMap.walk g as page = PageMap.walk f as page := by
  have hpde := h.entry as hs _ (userTables_le hp)
  have htable : table g as (page / 1024) = table f as (page / 1024) := by
    rw [table,hpde,table]
  simp only [PageMap.walk,hpde,htable]
  by_cases hpres : Present (pde f as (page / 1024))
  · rw [if_pos hpres,if_pos hpres,h.word _ ⟨as,hs,page,hp,hw,.inl ⟨hpres,rfl⟩⟩]
  · rw [if_neg hpres,if_neg hpres]

/-- Frames of the kernel left alone, what its addresses lead to is the same. -/
theorem Untouched.kept (h : Untouched (KernelFrame spaces f) spaces f g) :
    KernelKept spaces f g := by
  have hframe {as page : ℕ} (hs : as ∈ spaces) (hp : userPages ≤ page) (hw : page < windowPages)
      {m : Mapping} (hm : PageMap.walk f as page = some m) : KernelFrame spaces f m.frame :=
    ⟨as,hs,page,hp,hw,.inr ⟨m,hm,rfl⟩⟩
  refine ⟨fun as hs page hp hw => h.walk hs hp hw,fun as hs page hp hw m hm i _ => ?_,
    fun as hs page hp hw m hm hu => h.used _ (hframe hs hp hw hm) hu⟩
  rw [h.word _ (hframe hs hp hw hm)]

/-- The kernel has the same frames afterwards. -/
theorem Untouched.kernelFrame_eq (h : Untouched (KernelFrame spaces f) spaces f g) :
    KernelFrame spaces g = KernelFrame spaces f := by
  funext j
  rw [KernelFrame,KernelFrame,eq_iff_iff]
  refine exists_congr fun as => and_congr_right fun hs => exists_congr fun page =>
    and_congr_right fun hp => and_congr_right fun hw => ?_
  rw [h.walk hs hp hw,table,h.entry as hs _ (userTables_le hp),table]

theorem KernelKept.refl (f : Frames) : KernelKept spaces f f :=
  ⟨fun _ _ _ _ _ => rfl,fun _ _ _ _ _ _ _ _ _ => rfl,fun _ _ _ _ _ _ _ hu => hu⟩

theorem KernelKept.trans (h₁ : KernelKept spaces f g) (h₂ : KernelKept spaces g h) :
    KernelKept spaces f h := by
  have hwalk {as page : ℕ} (hs : as ∈ spaces) (hp : userPages ≤ page) (hw : page < windowPages)
      {m : Mapping} (hm : walk f as page = some m) : walk g as page = some m := by
    rw [h₁.pages as hs page hp hw,hm]
  refine ⟨fun as hs page hp hw => ?_,fun as hs page hp hw m hm i hi => ?_,
    fun as hs page hp hw m hm hu => ?_⟩
  · rw [h₂.pages as hs page hp hw,h₁.pages as hs page hp hw]
  · rw [h₂.words as hs page hp hw m (hwalk hs hp hw hm) i hi,h₁.words as hs page hp hw m hm i hi]
  · exact h₂.used as hs page hp hw m (hwalk hs hp hw hm) (h₁.used as hs page hp hw m hm hu)

end Kernel

/-! ### Loops over pages -/

section Pages

variable {K shared : ℕ → Prop} {spaces : List ℕ} {f g : Frames} {as va page start stop n i : ℕ}

/-- A turn of a loop over pages starts below the end. -/
theorem lt_of_turns (h : i < turns start stop) : start + i * pageSize < stop := by
  simp only [turns,pageSize] at h ⊢
  omega

/-- A turn of a loop over whole pages ends below the end. -/
theorem le_of_turns (h : i < turns start stop) (hd : (stop - start) % pageSize = 0) :
    start + i * pageSize + pageSize ≤ stop := by
  simp only [turns,pageSize] at h hd ⊢
  omega

theorem alignPage_mod (n : ℕ) : alignPage n % pageSize = 0 := Nat.mul_mod_left _ _

theorem alignPage_lt (n : ℕ) : alignPage n < 2 ^ 32 := by
  simp only [alignPage,pageSize]
  omega

/-- What is aligned stays so. -/
theorem alignPage_alignPage (n : ℕ) : alignPage (alignPage n) = alignPage n := by
  simp only [alignPage,pageSize]
  omega

/-- Process::brk gives back a page. -/
theorem GivenBack.releasePage (hg : GivenBack K shared spaces f as (va / pageSize) g)
    (hs : as ∈ spaces) (hva : va < kernelBase) (haligned : va % pageSize = 0)
    (hsole : Sole shared spaces f as (va / pageSize)) :
    GivenBack K shared spaces f as (va / pageSize + 1) (releasePage g as va) := by
  simp only [UserMemory.releasePage]
  cases hm : walk g as (va / pageSize) with
  | none =>
    have hpa : g.getPhysicalAddress as va = noFrame := by rw [getPhysicalAddress_eq,hm]
    rcases @unMapPage_cases g as va hva with ⟨-,hr⟩ | ⟨hsome,-⟩
    · rw [if_neg (not_not_intro hpa),hr]
      exact hg.mono (Nat.le_succ _)
    · rw [hm] at hsome
      cases hsome
  | some m =>
    have hlt := (hg.keeps.1.page_out as hs _ (indexes_of_va hva).2.1 trivial m hm).lt
    have hsmall : m.frame * pageSize < 2 ^ 32 := by
      simp only [pageSize]
      omega
    have hmod : (m.frame * pageSize + 0) % 2 ^ 32 = m.frame * pageSize := by
      rw [Nat.add_zero,Nat.mod_eq_of_lt hsmall]
    have hne : m.frame * pageSize ≠ noFrame := by
      simp only [pageSize,noFrame]
      omega
    have hpa : g.getPhysicalAddress as va = m.frame * pageSize := by
      rw [getPhysicalAddress_eq,hm,haligned]
      exact hmod
    rw [hpa,if_pos hne]
    exact hg.release hs hva hm (Nat.mul_div_cancel _ (by decide)) hsole

/-- A mapped page has a page table and an entry. -/
theorem present_of_walk {m : Mapping} (hm : walk f as page = some m) :
    Present (pde f as (page / 1024)) ∧ Present (f.word (table f as (page / 1024)) (page % 1024)) ∧
      f.word (table f as (page / 1024)) (page % 1024) / pageSize = m.frame := by
  simp only [walk] at hm
  split_ifs at hm with hp hpte
  exact ⟨hp,hpte,by rw [← Option.some.inj hm]⟩

/-- The indexes of the address of an entry of a page table. -/
theorem indexes_of_entry (k : ℕ) (hn : n < 1024) :
    (k * largePageSize + n * pageSize) / largePageSize = k ∧
      (k * largePageSize + n * pageSize) / pageSize = k * 1024 + n ∧
      (k * largePageSize + n * pageSize) / pageSize % 1024 = n ∧
      (k * largePageSize + n * pageSize) / pageSize * pageSize =
        k * largePageSize + n * pageSize := by
  have hlarge : largePageSize = 1024 * pageSize := by decide
  simp only [hlarge,pageSize]
  omega

/-- UnmapRange gives back a mapped page of its range. -/
theorem unmapEntry_release {size k : ℕ} {m : Mapping} (hn : n < 1024)
    (hin : ¬(k * largePageSize + n * pageSize < start ∨
      (start + size) % 2 ^ 32 ≤ k * largePageSize + n * pageSize))
    (hm : walk g as (k * 1024 + n) = some m) :
    g.unmapEntry as start size k n =
      ((g.free (m.frame * pageSize)).unMapPage as (k * largePageSize + n * pageSize)).2 := by
  have hdiv : (k * 1024 + n) / 1024 = k := by omega
  have hmod : (k * 1024 + n) % 1024 = n := by omega
  obtain ⟨hp,hpte,hframe⟩ := present_of_walk hm
  rw [hdiv] at hp hpte hframe
  rw [hmod] at hpte hframe
  obtain ⟨hk,hpage,hi,hva⟩ := indexes_of_entry k hn
  have hrun := @unMapPage_eq (g.free (m.frame * pageSize)) as (k * largePageSize + n * pageSize)
  rw [hk,hi,hva] at hrun
  have hp' : Present (pde (g.free (m.frame * pageSize)) as k) := hp
  have hpte' : Present ((g.free (m.frame * pageSize)).word
    (table (g.free (m.frame * pageSize)) as k) n) := hpte
  rw [hrun,if_neg (not_not_intro hp'),if_neg (not_not_intro hpte'),← hframe,Frames.unmapEntry]
  simp only [if_neg hin]
  rw [apply_ite Prod.snd]
  rfl

end Pages

/-! ### Conditions -/

/-- A range that munmap leaves: an empty one, or one whose end, with the 4 MiB that are added to
it, does not fit in 32 bits. -/
def Skipped (start size : ℕ) : Prop := size = 0 ∨ 2 ^ 32 < start + size + largePageSize

instance (start size : ℕ) : Decidable (Skipped start size) := inferInstanceAs (Decidable (_ ∨ _))

/-- A range that can be unmapped: below the kernel, and where there is a page table all of its
pages are mapped, each to a frame of its own. -/
structure Unmappable (shared : ℕ → Prop) (spaces : List ℕ) (f : Frames) (as start size : ℕ) :
    Prop where
  /-- Below the kernel. -/
  below : start + size ≤ kernelBase
  /-- All mapped. -/
  mapped : ∀ page,start / pageSize ≤ page → page < (start + size) / pageSize →
    Present (pde f as (page / 1024)) → (walk f as page).isSome
  /-- Frames of their own. -/
  sole : ∀ page,start / pageSize ≤ page → page < (start + size) / pageSize →
    Sole shared spaces f as page

namespace Machine

variable (m : Machine) (spaces : List ℕ)

/-- The frames of shared memory. -/
def SharedFrame (j : ℕ) : Prop := ∃ s,∃ pa ∈ (m.shared s).frames,j = pa / pageSize

/-- What SBrk returns. -/
def oldBrk (as : ℕ) (locked : Bool) : ℕ := if locked then (m.brk as).currentBrk else noFrame

/-- The pages that Process::brk gives back have frames of their own. -/
def BrkFits (shared : ℕ → Prop) (as brk : ℕ) : Prop :=
  (m.brk as).minBrk ≤ alignPage brk → alignPage brk ≤ (m.brk as).maxBrk →
    ∀ i < turns (alignPage brk) (m.brk as).mappedBrk,
      Sole shared spaces m.frames as (alignPage brk / pageSize + i)

/-- The frames of a buffer that are mapped below the kernel. -/
def PixelFrame (startVA size pa j : ℕ) : Prop :=
  ∃ i < turns startVA ((startVA + size) % 2 ^ 32),startVA + i * pageSize < kernelBase ∧
    j = (pa + i * pageSize) % 2 ^ 32 / pageSize

/-- What a call has to be asked for. -/
def Fits : Call → Prop
  | .mmap2 as addr length bytes locked =>
    addr < kernelBase →
      (addr ≠ 0 → addr + alignPage length ≤ kernelBase ∨ 2 ^ 32 ≤ addr + alignPage length) ∧
        ∀ bs,bytes = some bs →
          Below (if addr ≠ 0 then addr else if locked then (m.brk as).currentMMapBrk else noFrame)
            (bs.take (alignPage length)).length
  | .munmap as addr length =>
    Skipped (addr / pageSize * pageSize) (length / pageSize * pageSize) ∨
      Unmappable m.SharedFrame spaces m.frames as (addr / pageSize * pageSize)
        (length / pageSize * pageSize)
  | .brk as brk locked => locked = true → m.BrkFits spaces m.SharedFrame as brk
  | .fbMapPixels as fb startVA locked =>
    ∀ pa bytes,fb = some (pa,bytes) →
      let size := alignPage bytes
      let start := if startVA = 0 then m.oldBrk as locked else startVA
      (∀ j,PixelFrame start size pa j → UserFrame (KernelFrame spaces m.frames) spaces m.frames j) ∧
        (startVA = 0 → locked = true →
          m.BrkFits spaces (fun j => m.SharedFrame j ∨ PixelFrame start size pa j) as
            (((m.brk as).currentBrk + size) % 2 ^ 32))
  | .ipcMapShmem as shm va _ memoryLocked locked =>
    ∀ s,shm = some s →
      let start := if va = 0 then m.oldBrk as memoryLocked else va
      (locked = true → ∀ i < (m.shared s).pageCount,
        (start + i * pageSize) % 2 ^ 32 < kernelBase ∧ i < (m.shared s).frames.length) ∧
          (va = 0 → memoryLocked = true → m.BrkFits spaces m.SharedFrame as
            (((m.brk as).currentBrk + m.sharedSize s) % 2 ^ 32))
  | .ipcUnmapShmem _ _ _ _ => True

/-- A call of a process, with arguments of 32 bits, that asks for what it may. -/
def Allowed (c : Call) : Prop := c.space ∈ spaces ∧ c.Words ∧ m.Fits spaces c

/-- The brk areas lie below the kernel. -/
structure BrkRight : Prop where
  /-- Their bounds. -/
  maxBrk : ∀ as ∈ spaces,(m.brk as).maxBrk ≤ kernelBase
  /-- They are mapped within their bounds. -/
  mappedBrk : ∀ as ∈ spaces,(m.brk as).minBrk ≤ (m.brk as).maxBrk →
    (m.brk as).mappedBrk ≤ (m.brk as).maxBrk

/-- Shared memory is mapped below the kernel. -/
def MappingsRight : Prop :=
  ∀ s,∀ p ∈ (m.shared s).mappings,∀ i < (m.shared s).pageCount,
    (p.2 + i * pageSize) % 2 ^ 32 < kernelBase

/-- The state in which calls are made. -/
structure Guarded : Prop where
  /-- The fence around the kernel. -/
  fence : Fence (KernelFrame spaces m.frames) m.SharedFrame spaces AllPages m.frames
  /-- The brk areas. -/
  brkRight : m.BrkRight spaces
  /-- The mappings of shared memory. -/
  mappings : m.MappingsRight

end Machine

/-! ### The calls -/

section Calls

variable {K shared : ℕ → Prop} {spaces : List ℕ} {f : Frames} {m : Machine}
variable {as start size : ℕ}

/-- A range that is skipped is left. -/
theorem unmapRange_skipped (hstart : start < 2 ^ 32) (hsize : size < 2 ^ 32)
    (hskip : Skipped start size) : f.unmapRange as start size = f := by
  by_cases hend : start + size < 2 ^ 32 ∧ size ≠ 0
  · have hlast : (start + size + largePageSize - 1) % 2 ^ 32 / largePageSize = 0 := by
      rcases hskip with h0 | hwrap
      · exact absurd h0 hend.2
      · simp only [largePageSize] at hwrap ⊢
        omega
    simp only [Frames.unmapRange,hlast,Nat.zero_sub]
    rfl
  · have hout (va : ℕ) : va < start ∨ (start + size) % 2 ^ 32 ≤ va := by omega
    have hentry (g : Frames) (k n : ℕ) : g.unmapEntry as start size k n = g := by
      rw [Frames.unmapEntry]
      exact if_pos (hout _)
    have htable (g : Frames) (k : ℕ) : g.unmapTable as start size k = g := by
      rw [Frames.unmapTable]
      split_ifs
      · exact List.foldl_fixed' (fun n => hentry g k n) _
      · rfl
    have hfixed := List.foldl_fixed' (f := fun (g : Frames) k => g.unmapTable as start size k)
      (htable f)
    exact hfixed _

/-- UnmapRange gives back one page of its range. -/
theorem GivenBack.unmapEntry {g : Frames} {k n : ℕ} (hs : as ∈ spaces)
    (haligned : (start + size) % pageSize = 0)
    (hu : Unmappable shared spaces f as start size) (hk : k < userTables) (hn : n < 1024)
    (hpf : Present (pde f as k)) (hg : GivenBack K shared spaces f as (k * 1024 + n) g) :
    GivenBack K shared spaces f as (k * 1024 + (n + 1)) (g.unmapEntry as start size k n) := by
  rw [← Nat.add_assoc]
  obtain ⟨-,hva,-,-⟩ := indexes_of_entry k hn
  have hbelow := (UnmapRange.va_lt_kernelBase hn).mpr hk
  have hpage := (indexes_of_va hbelow).2.1
  generalize hv : k * largePageSize + n * pageSize = va at hva hbelow hpage
  by_cases hin : va < start ∨ (start + size) % 2 ^ 32 ≤ va
  · have hskip : g.unmapEntry as start size k n = g := by
      rw [Frames.unmapEntry]
      exact if_pos (hv ▸ hin)
    rw [hskip]
    exact hg.mono (Nat.le_succ _)
  have hwhole : (start + size) % 2 ^ 32 = start + size := by
    have hend := hu.below
    rw [kernelBase] at hend
    omega
  have hlow : start / pageSize ≤ va / pageSize := Nat.div_le_div_right (by omega)
  have hhigh : va / pageSize < (start + size) / pageSize := by
    have hlt : va < start + size := by omega
    simp only [pageSize] at haligned ⊢
    omega
  have hdiv : va / pageSize / 1024 = k := by
    rw [hva]
    omega
  have hsome := hu.mapped _ hlow hhigh (by rw [hdiv]; exact hpf)
  obtain ⟨e,he⟩ := Option.isSome_iff_exists.mp hsome
  rw [← hva] at hg ⊢
  have hge : walk g as (va / pageSize) = some e := by
    rw [hg.walk_eq hs hpage le_rfl,he]
  rw [unmapEntry_release hn (by rw [hv]; exact hin) (hva ▸ hge),hv]
  exact hg.release hs hbelow hge (Nat.mul_div_cancel _ (by decide)) (hu.sole _ hlow hhigh)

/-- UnmapRange gives back one page table of its range. -/
theorem GivenBack.unmapTable {g : Frames} {k : ℕ} (hs : as ∈ spaces)
    (haligned : (start + size) % pageSize = 0)
    (hu : Unmappable shared spaces f as start size) (hk : k < userTables)
    (hg : GivenBack K shared spaces f as (k * 1024) g) :
    GivenBack K shared spaces f as ((k + 1) * 1024) (g.unmapTable as start size k) := by
  have hrun : g.unmapTable as start size k = if ¬Present (pde g as k) then g
      else (List.range 1024).foldl (fun g n => g.unmapEntry as start size k n) g := rfl
  rw [hrun]
  by_cases hp : Present (pde g as k)
  swap
  · rw [if_pos hp]
    exact hg.mono (by omega)
  rw [if_neg (not_not_intro hp)]
  have hpage {n : ℕ} (hn : n < 1024) : k * 1024 + n < userPages := by
    simp only [userTables,userPages,kernelBase,largePageSize,pageSize] at hk ⊢
    omega
  have hpf : Present (pde f as k) := by
    by_contra hno
    refine (hg.keeps.1.built.noPages_iff hs hk).mp (fun n hn => ?_) hp
    rw [hg.walk_eq hs (hpage hn) (Nat.le_add_right _ _)]
    exact walk_of_not_present (by omega) hno
  rw [List.range_eq_range',Nat.add_mul,Nat.one_mul]
  have hfirst : GivenBack K shared spaces f as (k * 1024 + 0) g := by
    rw [Nat.add_zero]
    exact hg
  have hloop := @foldl_range_invariant _ (fun g n => g.unmapEntry as start size k n)
    (fun n g => GivenBack K shared spaces f as (k * 1024 + n) g) 0 1024 g
    (fun n g' _ hn hg' => hg'.unmapEntry hs haligned hu hk (by omega) hpf) hfirst
  rw [Nat.zero_add] at hloop
  exact hloop

/-- UnmapRange gives back its range. -/
theorem unmapRange_keeps (hf : Fence K shared spaces AllPages f) (hs : as ∈ spaces)
    (haligned : (start + size) % pageSize = 0)
    (hu : Unmappable shared spaces f as start size) :
    Keeps K shared spaces f (f.unmapRange as start size) := by
  have hend : (start + size + largePageSize - 1) % 2 ^ 32 / largePageSize ≤ userTables := by
    have hbelow := hu.below
    simp only [userTables,kernelBase,largePageSize] at hbelow ⊢
    omega
  rw [Frames.unmapRange]
  have hloop := @foldl_range_invariant _ (fun g k => g.unmapTable as start size k)
    (fun k g => GivenBack K shared spaces f as (k * 1024) g) (start / largePageSize)
    ((start + size + largePageSize - 1) % 2 ^ 32 / largePageSize - start / largePageSize) f
    (fun k g _ hk hg => hg.unmapTable hs haligned hu (by omega)) (GivenBack.refl hf)
  exact hloop.keeps

/-- A call keeps the fence and the brk areas, and leaves shared memory. -/
structure Moves (K shared : ℕ → Prop) (spaces : List ℕ) (m n : Machine) : Prop where
  /-- The fence. -/
  keeps : Keeps K shared spaces m.frames n.frames
  /-- The brk areas. -/
  brkRight : n.BrkRight spaces
  /-- Shared memory. -/
  shared : n.shared = m.shared

theorem Moves.refl (hf : Fence K shared spaces AllPages m.frames) (hb : m.BrkRight spaces) :
    Moves K shared spaces m m :=
  ⟨Keeps.refl hf,hb,rfl⟩

theorem Moves.trans {n o : Machine} (h₁ : Moves K shared spaces m n)
    (h₂ : Moves K shared spaces n o) : Moves K shared spaces m o :=
  ⟨h₁.keeps.trans h₂.keeps,h₂.brkRight,h₂.shared.trans h₁.shared⟩

/-- Memory changes, and nothing else. -/
theorem Keeps.moves {g : Frames} (hk : Keeps K shared spaces m.frames g)
    (hb : m.BrkRight spaces) : Moves K shared spaces m { m with frames := g } :=
  ⟨hk,⟨hb.maxBrk,hb.mappedBrk⟩,rfl⟩

/-- A brk area may be mapped up to its bound. -/
theorem Machine.BrkRight.setBrk {b : Brk} (hb : m.BrkRight spaces)
    (hmin : b.minBrk = (m.brk as).minBrk) (hmax : b.maxBrk = (m.brk as).maxBrk)
    (hmapped : b.minBrk ≤ b.maxBrk → b.mappedBrk ≤ b.maxBrk ∨ b.mappedBrk = (m.brk as).mappedBrk) :
    (m.setBrk as b).BrkRight spaces := by
  refine ⟨fun as' hs => ?_,fun as' hs hle => ?_⟩
  · by_cases heq : as' = as
    · subst heq
      simp only [Machine.setBrk,Function.update_self,hmax]
      exact hb.maxBrk as' hs
    · simp only [Machine.setBrk,Function.update_of_ne heq]
      exact hb.maxBrk as' hs
  · by_cases heq : as' = as
    · subst heq
      simp only [Machine.setBrk,Function.update_self] at hle ⊢
      rcases hmapped hle with h | h
      · exact h
      · rw [h,hmax]
        exact hb.mappedBrk as' hs (by rw [← hmin,← hmax]; exact hle)
    · simp only [Machine.setBrk,Function.update_of_ne heq] at hle ⊢
      exact hb.mappedBrk as' hs hle

/-- Pages of a brk area are given back. -/
theorem giveBack_keeps {needed mapped : ℕ} (hf : Fence K shared spaces AllPages f)
    (hs : as ∈ spaces) (haligned : needed % pageSize = 0) (hle : mapped ≤ kernelBase)
    (hsole : ∀ i < turns needed mapped,Sole shared spaces f as (needed / pageSize + i)) :
    Keeps K shared spaces f ((List.range (turns needed mapped)).foldl
      (fun f i => releasePage f as (needed + i * pageSize)) f) := by
  have hpage (i : ℕ) : (needed + i * pageSize) / pageSize = needed / pageSize + i :=
    Nat.add_mul_div_right needed i (by decide)
  have hloop := @foldl_range_invariant _ (fun f i => releasePage f as (needed + i * pageSize))
    (fun i g => GivenBack K shared spaces f as (needed / pageSize + i) g) 0
    (turns needed mapped) f (fun i g _ hi hg => ?_) (GivenBack.refl hf)
  · rw [← List.range_eq_range'] at hloop
    exact hloop.keeps
  · have hva := lt_of_turns (show i < turns needed mapped by omega)
    have hmod : (needed + i * pageSize) % pageSize = 0 := by
      rw [Nat.add_mul_mod_self_right,haligned]
    rw [← hpage] at hg
    have hnext := hg.releasePage hs (lt_of_lt_of_le hva hle) hmod
      (by rw [hpage]; exact hsole i (by omega))
    rw [hpage,Nat.add_assoc] at hnext
    exact hnext

/-- Process::brk keeps the fence. -/
theorem moveBrk_moves {brk : ℕ} (hf : Fence K shared spaces AllPages m.frames)
    (hb : m.BrkRight spaces) (hs : as ∈ spaces) (hfits : m.BrkFits spaces shared as brk)
    (allocPages : Bool) : Moves K shared spaces m (m.moveBrk as brk allocPages).2 := by
  have hmax := hb.maxBrk as hs
  rw [Machine.BrkFits] at hfits
  simp only [Machine.moveBrk,alignPage_alignPage]
  have hset {g : Frames} (hk : Keeps K shared spaces m.frames g)
      (hle : alignPage brk ≤ (m.brk as).maxBrk) :
      Moves K shared spaces m ({ m with frames := g }.setBrk as
        { m.brk as with mappedBrk := alignPage brk,currentBrk := alignPage brk }) :=
    ⟨hk,(hk.moves hb).brkRight.setBrk rfl rfl fun _ => .inl hle,rfl⟩
  have hgrown (hle : alignPage brk ≤ kernelBase) : Keeps K shared spaces m.frames
      (loop (fun f i => mapNew f as ((m.brk as).mappedBrk + i * pageSize))
        (List.range (turns (m.brk as).mappedBrk (alignPage brk))) m.frames).2 :=
    loop_keeps (fun i hi g hg => mapNew_keeps hg hs
      (lt_of_lt_of_le (lt_of_turns (List.mem_range.mp hi)) hle)) hf
  split_ifs with hout hgrow halloc hok hok
  · exact Moves.refl hf hb
  · exact hset (hgrown (by omega)) (by omega)
  · exact (hgrown (by omega)).moves hb
  · exact hset (Keeps.refl hf) (by omega)
  · exact Moves.refl hf hb
  · have hmapped := hb.mappedBrk as hs (by omega)
    exact hset (giveBack_keeps hf hs (alignPage_mod brk) (by omega)
      (hfits (by omega) (by omega))) (by omega)

/-- munmap keeps the fence. -/
theorem sysMunmap_keeps {addr length : ℕ} (hf : Fence K shared spaces AllPages m.frames)
    (hs : as ∈ spaces) (haddr : addr < 2 ^ 32) (hlength : length < 2 ^ 32)
    (hfits : Skipped (addr / pageSize * pageSize) (length / pageSize * pageSize) ∨
      Unmappable shared spaces m.frames as (addr / pageSize * pageSize)
        (length / pageSize * pageSize)) :
    Keeps K shared spaces m.frames (m.sysMunmap as addr length).frames := by
  have hle (n : ℕ) : n / pageSize * pageSize ≤ n := Nat.div_mul_le_self n pageSize
  rw [Machine.sysMunmap]
  rcases hfits with hskip | hu
  · have hsame : m.frames.unmapRange as (addr / pageSize * pageSize)
        (length / pageSize * pageSize) = m.frames :=
      unmapRange_skipped (lt_of_le_of_lt (hle _) haddr) (lt_of_le_of_lt (hle _) hlength) hskip
    rw [hsame]
    exact Keeps.refl hf
  · refine unmapRange_keeps hf hs ?_ hu
    rw [← Nat.add_mul,Nat.mul_mod_left]

/-- Process::Brk. -/
theorem brkTo_moves {brk : ℕ} {allocPages locked : Bool}
    (hf : Fence K shared spaces AllPages m.frames) (hb : m.BrkRight spaces) (hs : as ∈ spaces)
    (hfits : locked = true → m.BrkFits spaces shared as brk) :
    Moves K shared spaces m (m.brkTo as brk allocPages locked).2 := by
  rw [Machine.brkTo]
  split_ifs with hl
  · exact moveBrk_moves hf hb hs (hfits hl) allocPages
  · exact Moves.refl hf hb

/-- Process::SBrk. -/
theorem sBrk_moves {incr : ℕ} {allocPages locked : Bool}
    (hf : Fence K shared spaces AllPages m.frames) (hb : m.BrkRight spaces) (hs : as ∈ spaces)
    (hfits : locked = true →
      m.BrkFits spaces shared as (((m.brk as).currentBrk + incr) % 2 ^ 32)) :
    Moves K shared spaces m (m.sBrk as incr allocPages locked).2 ∧
      (m.sBrk as incr allocPages locked).1 = m.oldBrk as locked := by
  rw [Machine.sBrk,Machine.oldBrk]
  split_ifs with hl
  · exact ⟨moveBrk_moves hf hb hs (hfits hl) allocPages,rfl⟩
  · exact ⟨Moves.refl hf hb,rfl⟩

/-- Process::MMapSBrk. -/
theorem mmapSBrk_moves {incr : ℕ} {locked : Bool}
    (hf : Fence K shared spaces AllPages m.frames) (hb : m.BrkRight spaces) (hs : as ∈ spaces) :
    Moves K shared spaces m (m.mmapSBrk as incr locked).2 ∧
      (m.mmapSBrk as incr locked).1 =
        if locked then (m.brk as).currentMMapBrk else noFrame := by
  simp only [Machine.mmapSBrk]
  split_ifs with hl
  · have hk : Keeps K shared spaces m.frames
        ((List.range (turns (m.brk as).currentMMapBrk
          (alignPage (((m.brk as).currentMMapBrk + incr) % 2 ^ 32)))).foldl
          (fun f i =>
            if (m.brk as).currentMMapBrk + i * pageSize < kernelBase then
              mapAny f as ((m.brk as).currentMMapBrk + i * pageSize)
            else f) m.frames) := by
      refine foldl_keeps (fun i _ g hg => ?_) hf
      split_ifs with hva
      · exact mapAny_keeps hg hs hva
      · exact Keeps.refl hg
    exact ⟨⟨hk,(hk.moves hb).brkRight.setBrk rfl rfl fun _ => .inr rfl,rfl⟩,rfl⟩
  · exact ⟨Moves.refl hf hb,rfl⟩

/-- A turn of mmap: the page is mapped and filled with zeros. -/
theorem mmapPage_keeps {addr i : ℕ} (hf : Fence K shared spaces AllPages f) (hs : as ∈ spaces)
    (hle : addr + i * pageSize + pageSize ≤ kernelBase) :
    Keeps K shared spaces f (Machine.mmapPage as addr f i).2 := by
  have hva : addr + i * pageSize < kernelBase := by
    have hpos : 0 < pageSize := by decide
    omega
  have hmap : Keeps K shared spaces f
      (if f.getPhysicalAddress as (addr + i * pageSize) = noFrame then
        mapNew f as (addr + i * pageSize) else (true,f)).2 := by
    split_ifs
    · exact mapNew_keeps hf hs hva
    · exact Keeps.refl hf
  have hbelow : Below (addr + i * pageSize) (List.replicate pageSize 0).length := by
    rw [List.length_replicate]
    exact .inr hle
  simp only [Machine.mmapPage]
  generalize (if f.getPhysicalAddress as (addr + i * pageSize) = noFrame then
    mapNew f as (addr + i * pageSize) else (true,f)) = r at hmap ⊢
  split_ifs
  · exact hmap.trans (storeAll_keeps hs hmap.1 hbelow)
  · exact hmap

/-- The memory of mmap. -/
theorem mmapMemory_moves {addr length : ℕ} (locked : Bool)
    (hf : Fence K shared spaces AllPages m.frames) (hb : m.BrkRight spaces) (hs : as ∈ spaces)
    (haddr : addr < 2 ^ 32) (hlength : length % pageSize = 0) (hlt : length < 2 ^ 32)
    (hfits : addr ≠ 0 → addr + length ≤ kernelBase ∨ 2 ^ 32 ≤ addr + length) :
    Moves K shared spaces m (m.mmapMemory as addr length locked).2.2 ∧
      (m.mmapMemory as addr length locked).2.1 = if addr ≠ 0 then addr
        else if locked then (m.brk as).currentMMapBrk else noFrame := by
  by_cases h0 : addr = 0
  · rw [Machine.mmapMemory,if_pos h0,if_neg (not_not_intro h0)]
    exact mmapSBrk_moves hf hb hs
  · rw [Machine.mmapMemory,if_neg h0,if_pos h0]
    refine ⟨(loop_keeps (fun i hi g hg => ?_) hf).moves hb,rfl⟩
    have hi' := List.mem_range.mp hi
    rcases hfits h0 with hle | hwrap
    · rw [Nat.mod_eq_of_lt (by rw [kernelBase] at hle; omega)] at hi'
      refine mmapPage_keeps hg hs ((le_of_turns hi' ?_).trans hle)
      rw [Nat.add_sub_cancel_left,hlength]
    · have hva := lt_of_turns hi'
      omega

/-- mmap and mmap2. -/
theorem sysMmap2_moves {addr length : ℕ} {bytes : Option (List ℕ)} {locked : Bool}
    (hf : Fence K shared spaces AllPages m.frames) (hb : m.BrkRight spaces) (hs : as ∈ spaces)
    (haddr : addr < 2 ^ 32) (hfits : m.Fits spaces (.mmap2 as addr length bytes locked)) :
    Moves K shared spaces m (m.sysMmap2 as addr length bytes locked) := by
  simp only [Machine.sysMmap2]
  split_ifs with hkernel
  · exact Moves.refl hf hb
  obtain ⟨hrange,hread⟩ := hfits (by omega)
  obtain ⟨hm,hstart⟩ := mmapMemory_moves locked hf hb hs haddr (alignPage_mod length)
    (alignPage_lt length) hrange
  split
  · next bs _ =>
    rw [hstart]
    exact hm.trans ((storeAll_keeps hs hm.keeps.1 (hread bs rfl)).moves hm.brkRight)
  · exact hm

/-- The pages of a frame buffer. -/
theorem mapPixels_moves {startVA pa : ℕ} (hf : Fence K shared spaces AllPages m.frames)
    (hb : m.BrkRight spaces) (hs : as ∈ spaces)
    (hpixels : ∀ j,Machine.PixelFrame startVA size pa j → shared j) :
    Moves K shared spaces m (m.mapPixels as startVA size pa) := by
  refine (foldl_keeps (fun i hi g hg => ?_) hf).moves hb
  split_ifs with hva
  · exact Keeps.refl hg
  · refine mapPage_keeps hg hs (by omega) (hg.shared_out _ (hpixels _ ?_)) true true
    exact ⟨i,List.mem_range.mp hi,by omega,rfl⟩

/-- More frames may be mapped. -/
theorem Fence.share {extra : ℕ → Prop} (hf : Fence K shared spaces AllPages f)
    (hextra : ∀ j,extra j → UserFrame K spaces f j) :
    Fence K (fun j => shared j ∨ extra j) spaces AllPages f :=
  ⟨hf.built,hf.short,hf.kernel_used,hf.dir_out,hf.table_out,hf.page_out,
    fun j hj => hj.elim (hf.shared_out j) (hextra j),hf.last_out⟩

/-- Fewer frames are shared. -/
theorem Moves.unshare {shared' : ℕ → Prop} {n : Machine} (h : Moves K shared' spaces m n)
    (hless : ∀ j,shared j → shared' j) : Moves K shared spaces m n :=
  ⟨⟨⟨h.keeps.1.built,h.keeps.1.short,h.keeps.1.kernel_used,h.keeps.1.dir_out,h.keeps.1.table_out,
    h.keeps.1.page_out,fun j hj => h.keeps.1.shared_out j (hless j hj),h.keeps.1.last_out⟩,
    h.keeps.2⟩,h.brkRight,h.shared⟩

/-- fb_map_pixels. -/
theorem sysFbMapPixels_moves {fb : Option (ℕ × ℕ)} {startVA : ℕ} {locked : Bool}
    (hf : Fence (KernelFrame spaces m.frames) m.SharedFrame spaces AllPages m.frames)
    (hb : m.BrkRight spaces) (hs : as ∈ spaces)
    (hfits : m.Fits spaces (.fbMapPixels as fb startVA locked)) :
    Moves (KernelFrame spaces m.frames) m.SharedFrame spaces m
      (m.sysFbMapPixels as fb startVA locked) := by
  simp only [Machine.sysFbMapPixels]
  split
  · exact Moves.refl hf hb
  next pa bytes =>
  obtain ⟨hpixels,hbrk⟩ := hfits pa bytes rfl
  have hshare := hf.share hpixels
  split_ifs with h0
  · obtain ⟨hm,hstart⟩ := @sBrk_moves _ _ _ m as (alignPage bytes) false locked hshare hb hs
      (hbrk h0)
    refine (hm.trans (mapPixels_moves hm.keeps.1 hm.brkRight hs fun j hj => .inr ?_)).unshare
      fun j => Or.inl
    rw [if_pos h0,← hstart]
    exact hj
  · refine (mapPixels_moves hshare hb hs fun j hj => .inr ?_).unshare fun j => Or.inl
    rw [if_neg h0]
    exact hj

/-- SharedMem::Map. -/
theorem mapShared_keeps {s va : ℕ} {write : Bool}
    (hf : Fence K m.SharedFrame spaces AllPages m.frames) (hs : as ∈ spaces)
    (hfits : ∀ i < (m.shared s).pageCount,
      (va + i * pageSize) % 2 ^ 32 < kernelBase ∧ i < (m.shared s).frames.length) :
    Keeps K m.SharedFrame spaces m.frames (m.mapShared s as va write).frames := by
  refine foldl_keeps (fun i hi g hg => ?_) hf
  obtain ⟨hva,hframe⟩ := hfits i (List.mem_range.mp hi)
  refine mapPage_keeps hg hs hva (hg.shared_out _ ⟨s,_,?_,rfl⟩) true write
  rw [List.getD_eq_getElem _ _ hframe]
  exact List.getElem_mem hframe

/-- SharedMem::UnMap. -/
theorem unMapShared_keeps (hf : Fence K shared spaces AllPages m.frames) (hs : as ∈ spaces)
    (hm : m.MappingsRight) (s va : ℕ) :
    Keeps K shared spaces m.frames (m.unMapShared s as va).frames := by
  simp only [Machine.unMapShared]
  split_ifs with hin
  · refine foldl_keeps (fun i hi g hg => ?_) hf
    exact (unMapPage_keeps hg hs (hm s _ hin i (List.mem_range.mp hi)) fun _ _ _ => trivial).1
  · exact Keeps.refl hf

/-- A call that keeps the fence leaves the kernel alone, and the next call finds the same. -/
theorem Machine.Guarded.keeps {n : Machine} (hg : m.Guarded spaces)
    (hk : Keeps (KernelFrame spaces m.frames) m.SharedFrame spaces m.frames n.frames)
    (hb : n.BrkRight spaces) (hshared : ∀ s,(n.shared s).frames = (m.shared s).frames)
    (hm : m.MappingsRight → n.MappingsRight) :
    n.Guarded spaces ∧ KernelKept spaces m.frames n.frames := by
  have hsame : n.SharedFrame = m.SharedFrame := by
    funext j
    simp only [Machine.SharedFrame,hshared]
  refine ⟨⟨?_,hb,hm hg.mappings⟩,hk.2.kept⟩
  rw [hk.2.kernelFrame_eq,hsame]
  exact hk.1

/-- A call that leaves shared memory. -/
theorem Machine.Guarded.moves {n : Machine} (hg : m.Guarded spaces)
    (hm : Moves (KernelFrame spaces m.frames) m.SharedFrame spaces m n) :
    n.Guarded spaces ∧ KernelKept spaces m.frames n.frames :=
  hg.keeps hm.keeps hm.brkRight (fun s => by rw [hm.shared])
    fun h => by rwa [Machine.MappingsRight,hm.shared]

/-- A call that changes the mappings of one object. -/
theorem Machine.Guarded.remap {n : Machine} {s : ℕ} {l : List (ℕ × ℕ)} (hg : m.Guarded spaces)
    (hk : Keeps (KernelFrame spaces m.frames) m.SharedFrame spaces m.frames n.frames)
    (hb : n.brk = m.brk)
    (hshared : n.shared = Function.update m.shared s { m.shared s with mappings := l })
    (hl : ∀ p ∈ l,p ∈ (m.shared s).mappings ∨
      ∀ i < (m.shared s).pageCount,(p.2 + i * pageSize) % 2 ^ 32 < kernelBase) :
    n.Guarded spaces ∧ KernelKept spaces m.frames n.frames := by
  have hbrk : n.BrkRight spaces := by
    refine ⟨?_,?_⟩
    · rw [hb]
      exact hg.brkRight.maxBrk
    · rw [hb]
      exact hg.brkRight.mappedBrk
  refine hg.keeps hk hbrk (fun s' => ?_) fun hm s' p hp => ?_
  · rw [hshared]
    by_cases heq : s' = s
    · rw [heq,Function.update_self]
    · rw [Function.update_of_ne heq]
  · rw [hshared] at hp ⊢
    by_cases heq : s' = s
    · subst heq
      rw [Function.update_self] at hp ⊢
      exact (hl p hp).elim (hm s' p) id
    · rw [Function.update_of_ne heq] at hp ⊢
      exact hm s' p hp

/-- SharedMem::Map below the kernel. -/
theorem mapShared_guarded {s va : ℕ} {write : Bool} (hg : m.Guarded spaces) (hs : as ∈ spaces)
    (hfits : ∀ i < (m.shared s).pageCount,
      (va + i * pageSize) % 2 ^ 32 < kernelBase ∧ i < (m.shared s).frames.length) :
    (m.mapShared s as va write).Guarded spaces ∧
      KernelKept spaces m.frames (m.mapShared s as va write).frames := by
  refine hg.remap (mapShared_keeps hg.fence hs hfits) rfl rfl fun p hp => ?_
  rcases List.mem_append.mp hp with hold | hnew
  · exact .inl hold
  · rw [List.mem_singleton.mp hnew]
    exact .inr fun i hi => (hfits i hi).1

/-- ipc_map_shmem. -/
theorem sysIpcMapShmem_guarded {shm : Option ℕ} {va : ℕ} {write memoryLocked locked : Bool}
    (hg : m.Guarded spaces) (hs : as ∈ spaces)
    (hfits : m.Fits spaces (.ipcMapShmem as shm va write memoryLocked locked)) :
    (m.sysIpcMapShmem as shm va write memoryLocked locked).Guarded spaces ∧
      KernelKept spaces m.frames (m.sysIpcMapShmem as shm va write memoryLocked locked).frames := by
  cases shm with
  | none => exact ⟨hg,KernelKept.refl m.frames⟩
  | some s =>
    obtain ⟨hmap,hbrk⟩ := hfits s rfl
    simp only [Machine.sysIpcMapShmem]
    by_cases h0 : va = 0
    · obtain ⟨hm,hstart⟩ := @sBrk_moves _ _ _ m as (m.sharedSize s) false memoryLocked hg.fence
        hg.brkRight hs (hbrk h0)
      obtain ⟨hg',hkept⟩ := hg.moves hm
      rw [if_pos h0] at hmap ⊢
      split_ifs with hl
      · rw [← hstart] at hmap
        have hfits' := hmap hl
        rw [← hm.shared] at hfits'
        obtain ⟨hg'',hkept'⟩ := mapShared_guarded hg' hs hfits'
        exact ⟨hg'',hkept.trans hkept'⟩
      · exact ⟨hg',hkept⟩
    · rw [if_neg h0] at hmap ⊢
      split_ifs with hl
      · exact mapShared_guarded hg hs (hmap hl)
      · exact ⟨hg,KernelKept.refl m.frames⟩

/-- ipc_unmap_shmem. -/
theorem sysIpcUnmapShmem_guarded {shm : Option ℕ} {va : ℕ} {locked : Bool}
    (hg : m.Guarded spaces) (hs : as ∈ spaces) :
    (m.sysIpcUnmapShmem as shm va locked).Guarded spaces ∧
      KernelKept spaces m.frames (m.sysIpcUnmapShmem as shm va locked).frames := by
  cases shm with
  | none => exact ⟨hg,KernelKept.refl m.frames⟩
  | some s =>
    have hk := unMapShared_keeps hg.fence hs hg.mappings s va
    simp only [Machine.sysIpcUnmapShmem]
    split_ifs with hl
    · simp only [Machine.unMapShared] at hk ⊢
      split_ifs at hk ⊢
      · exact hg.remap hk rfl rfl fun p hp => .inl (List.mem_of_mem_erase hp)
      · exact ⟨hg,KernelKept.refl m.frames⟩
    · exact ⟨hg,KernelKept.refl m.frames⟩

/-- A call that asks for what it may leaves the kernel alone. -/
theorem apply_guarded {c : Call} (hg : m.Guarded spaces) (hc : m.Allowed spaces c) :
    (m.apply c).Guarded spaces ∧ KernelKept spaces m.frames (m.apply c).frames := by
  obtain ⟨hs,hw,hfits⟩ := hc
  cases c with
  | mmap2 as addr length bytes locked =>
    exact hg.moves (sysMmap2_moves hg.fence hg.brkRight hs hw.1 hfits)
  | munmap as addr length =>
    exact hg.moves ((sysMunmap_keeps hg.fence hs hw.1 hw.2 hfits).moves hg.brkRight)
  | brk as brk locked => exact hg.moves (brkTo_moves hg.fence hg.brkRight hs hfits)
  | fbMapPixels as fb startVA locked =>
    exact hg.moves (sysFbMapPixels_moves hg.fence hg.brkRight hs hfits)
  | ipcMapShmem as shm va write memoryLocked locked => exact sysIpcMapShmem_guarded hg hs hfits
  | ipcUnmapShmem as shm va locked => exact sysIpcUnmapShmem_guarded hg hs

end Calls

section Runs

variable {spaces : List ℕ} {m : Machine} {calls : List Call}

/-- In every run of system calls that ask for what they may, what the addresses of the kernel
lead to is in every state the same as at the start. -/
theorem kernel_kept_of_allowed (hg : m.Guarded spaces)
    (hrun : RunMeets Machine.apply (fun m c => m.Allowed spaces c) m calls) (n : ℕ) :
    KernelKept spaces m.frames ((calls.take n).foldl Machine.apply m).frames := by
  have hstep (s : Machine) (c : Call)
      (hs : s.Guarded spaces ∧ KernelKept spaces m.frames s.frames) (hc : s.Allowed spaces c) :
      (s.apply c).Guarded spaces ∧ KernelKept spaces m.frames (s.apply c).frames := by
    obtain ⟨hg',hkept⟩ := apply_guarded hs.1 hc
    exact ⟨hg',hs.2.trans hkept⟩
  exact ((hrun.take n).invariant hstep ⟨hg,KernelKept.refl m.frames⟩).2

/-- A directory in frame 1, and the first page of the kernel, in frame 0, mapped by a page table
in frame 2. -/
def small : Machine :=
  { frames :=
      { word := fun frame i =>
          if frame = 1 ∧ i = 768 then 0x2003 else if frame = 2 ∧ i = 0 then 3 else 0
        bitmap := (((Bitmap.new 8 false).setBit 0 true).setBit 1 true).setBit 2 true }
    brk := fun _ =>
      { minBrk := 0x800000
        maxBrk := 0x80000000
        currentBrk := 0x800000
        mappedBrk := 0x800000
        currentMMapBrk := 0x80000000 }
    shared := fun _ => { pageCount := 0,frames := [],mappings := [] } }

/-- The directory has the entry for the kernel only. -/
theorem small_pde {k : ℕ} (hk : Present (pde small.frames 0x1000 k)) : k = 768 := by
  by_contra hne
  simp [pde,small,pageSize,hne,Present] at hk

/-- The kernel has frames 0 and 2. -/
theorem small_kernelFrame {j : ℕ} (hj : KernelFrame [0x1000] small.frames j) :
    j = 0 ∨ j = 2 := by
  obtain ⟨as,hs,page,-,-,⟨hp,rfl⟩ | ⟨m,hm,rfl⟩⟩ := hj
  · obtain rfl := List.mem_singleton.mp hs
    rw [small_pde hp]
    exact .inr (by decide)
  · obtain rfl := List.mem_singleton.mp hs
    obtain ⟨hp,hpte,hframe⟩ := present_of_walk hm
    rw [small_pde hp] at hpte hframe
    have hword (i : ℕ) : small.frames.word (table small.frames 0x1000 768) i =
        if i = 0 then 3 else 0 := by
      simp [small,table,pde,pageSize]
    rw [hword] at hpte hframe
    left
    rw [← hframe]
    split_ifs <;> decide

/-- It has no page table below the kernel. -/
theorem small_absent {as k : ℕ} (hs : as ∈ [0x1000]) (hk : k < userTables) :
    ¬Present (pde small.frames as k) := by
  obtain rfl := List.mem_singleton.mp hs
  intro hp
  obtain rfl := small_pde hp
  exact absurd hk (by decide)

theorem small_guarded : small.Guarded [0x1000] := by
  have hbuilt : Built small.frames [0x1000] := by
    refine ⟨by decide,fun hs => ?_,fun hs => ?_,fun {as k} hs hk _ => ?_,
      fun hs hk hp => absurd hp (small_absent hs hk),fun hs hk hp => absurd hp (small_absent hs hk),
      fun hs hk hp => absurd hp (small_absent hs hk),fun hs hk hp => absurd hp (small_absent hs hk),
      fun hs hk hp => absurd hp (small_absent hs hk)⟩
    · rw [List.mem_singleton.mp hs]
      decide
    · rw [List.mem_singleton.mp hs]
      decide
    · have hne : k ≠ 768 := by
        rintro rfl
        exact absurd hk (by decide)
      rw [List.mem_singleton.mp hs]
      simp [pde,small,pageSize,hne]
  refine ⟨⟨hbuilt,by decide,fun j hj _ => ?_,fun as hs hj => ?_,
    fun as hs k hk hp => absurd hp (small_absent hs hk),fun as hs page hpage _ m hm => ?_,
    fun j hj => ?_,fun hj => ?_⟩,⟨fun _ _ => (by decide : 0x80000000 ≤ kernelBase),
      fun _ _ _ => (by decide : 0x800000 ≤ 0x80000000)⟩,fun s p hp => absurd hp List.not_mem_nil⟩
  · rcases small_kernelFrame hj with rfl | rfl
    · decide
    · decide
  · rw [List.mem_singleton.mp hs] at hj
    exact absurd (small_kernelFrame hj) (by decide)
  · refine absurd (present_of_walk hm).1 (small_absent hs ?_)
    simp only [userPages,userTables,kernelBase,largePageSize,pageSize] at hpage ⊢
    omega
  · obtain ⟨s,pa,hpa,-⟩ := hj
    exact absurd hpa List.not_mem_nil
  · exact absurd (small_kernelFrame hj) (by decide)

/-- Where no page is mapped, munmap may be asked for any range below the kernel. -/
theorem small_unmappable :
    Unmappable small.SharedFrame [0x1000] small.frames 0x1000 0x400000 0x1000 := by
  have hnone {page : ℕ} (hhigh : page < (0x400000 + 0x1000) / pageSize) :
      ¬Present (pde small.frames 0x1000 (page / 1024)) := by
    refine small_absent (List.mem_singleton_self _) ?_
    simp only [userTables,kernelBase,largePageSize,pageSize] at hhigh ⊢
    omega
  exact ⟨by decide,fun page _ hhigh hp => absurd hp (hnone hhigh),
    fun page _ hhigh m hm => absurd (present_of_walk hm).1 (hnone hhigh)⟩

/-- A range below the kernel is unmapped, and a page is mapped and a file read into it. -/
theorem kernel_kept_of_allowed_small :
    KernelKept [0x1000] small.frames
      ((([.munmap 0x1000 0x400000 0x1000,.mmap2 0x1000 0x400000 0x1000 (some [1,2,3]) true] :
        List Call).take 2).foldl Machine.apply small).frames := by
  have hmem : (0x1000 : ℕ) ∈ [0x1000] := List.mem_singleton_self _
  have hmunmap : small.Allowed [0x1000] (.munmap 0x1000 0x400000 0x1000) :=
    ⟨hmem,⟨by decide,by decide⟩,.inr small_unmappable⟩
  have hread : Below 0x400000 (([1,2,3] : List ℕ).take (alignPage 0x1000)).length := by decide
  have hmmap (m : Machine) :
      m.Allowed [0x1000] (.mmap2 0x1000 0x400000 0x1000 (some [1,2,3]) true) := by
    refine ⟨hmem,⟨by decide,by decide⟩,fun _ => ⟨fun _ => .inl (by decide),fun bs hbs => ?_⟩⟩
    rw [← Option.some.inj hbs,if_pos (by decide)]
    exact hread
  have hrun : RunMeets Machine.apply (fun m c => m.Allowed [0x1000] c) small
      [.munmap 0x1000 0x400000 0x1000,.mmap2 0x1000 0x400000 0x1000 (some [1,2,3]) true] :=
    ⟨hmunmap,hmmap _,trivial⟩
  exact kernel_kept_of_allowed small_guarded hrun 2

/-- munmap of the first page of the kernel. -/
theorem munmap_unmaps_kernel :
    small.Guarded [0x1000] ∧ (Call.munmap 0x1000 0xC0000000 0x1000).Words ∧
      ¬KernelKept [0x1000] small.frames
        (small.apply (.munmap 0x1000 0xC0000000 0x1000)).frames := by
  refine ⟨small_guarded,⟨by decide,by decide⟩,fun hkept => ?_⟩
  have hpages := hkept.pages 0x1000 (List.mem_singleton_self _) userPages le_rfl (by decide)
  exact absurd hpages (by decide +kernel)

end Runs

end WootOs.UserMemory
