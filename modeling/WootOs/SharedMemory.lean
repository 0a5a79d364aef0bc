import WootOs.FreshPages
import WootOs.HandleTable
import WootOs.ProcessBreak
import WootOs.Runs

/-!
# Shared memory

The constructor of a shared memory object takes frames for its pages, one by
one or in a row, and cannot say that it found too few: it sets the number of
pages first and leaves the vector of frames short. Map goes by the number of
pages. It reads frames past the end of the vector, which yields zero, and
ignores that MapPage finds no frame for a page table.

So Map is right when the constructor got all its frames and there are frames
for the page tables. Where the lock is not to be had, it returns an error
number that nobody set.
-/

namespace WootOs.SharedMemory

open FrameBitmap FrameAllocator Paging PageMap UserMemory FreshPages HandleTable

/-- The loop of the constructor that takes one frame after the other. -/
def takeFrames : ℕ → Bitmap → List ℕ × Bitmap
  | 0,b => ([],b)
  | n+1,b =>
    let r := allocFrame b
    if r.1 = noFrame then ([],b) else (r.1 :: (takeFrames n r.2).1,(takeFrames n r.2).2)

/-- SharedMem::pageCount. -/
def pageCount (size : ℕ) : ℕ := alignPage size / pageSize

/-- The constructor of SharedMem. -/
def create (size : ℕ) (cont : Bool) (b : Bitmap) : SharedMem × Bitmap :=
  if cont then
    let r := allocFrames b (pageCount size)
    if r.1 = noFrame then (⟨pageCount size,[],[]⟩,r.2)
    else
      (⟨pageCount size,(List.range (pageCount size)).map fun i => (r.1 + i * pageSize) % 2 ^ 32,
        []⟩,r.2)
  else
    let r := takeFrames (pageCount size) b
    (⟨pageCount size,r.1,[]⟩,r.2)

/-- The loop of SharedMem::Map. A vector yields zero past its end. -/
def mapFrames (shm : SharedMem) (f : Frames) (as va : ℕ) (user write : Bool) : Frames :=
  (List.range shm.pageCount).foldl
    (fun f i => (f.mapPage as ((va + i * pageSize) % 2 ^ 32) (shm.frames.getD i 0) user write).2) f

/-- SharedMem::Map, for a process, which may be null, whether the lock is acquired,
and errno. -/
def map (shm : SharedMem) (f : Frames) (proc : Option ℕ) (va : ℕ) (user write lock : Bool)
    (errno : ℕ) : ℤ × SharedMem × Frames :=
  match proc with
  | none => (-einval,shm,f)
  | some as =>
    if lock then
      (0,{ shm with mappings := shm.mappings ++ [(as,va)] },mapFrames shm f as va user write)
    else (-(errno : ℤ),shm,f)

/-- The call of Map by sys_ipc_map_shmem. -/
theorem mapShared_eq (m : Machine) (s as va errno : ℕ) (write : Bool) :
    (map (m.shared s) m.frames (some as) va true write true errno).2 =
      ((m.mapShared s as va write).shared s,(m.mapShared s as va write).frames) := by
  simp [map,Machine.mapShared,mapFrames]

/-- A frame was taken between two states of the bitmap. -/
def Taken (b c : Bitmap) (j : ℕ) : Prop := b.getBit j = false ∧ c.getBit j = true

/-- Pages in a row are mapped, each to a frame of its own that was taken. -/
def Mapped (b c : Bitmap) (g : Frames) (as p n : ℕ) : Prop :=
  ∃ frame : ℕ → ℕ,(∀ i < n,Taken b c (frame i) ∧
      (walk g as (p + i)).map Mapping.frame = some (frame i)) ∧
    ∀ i < n,∀ j < n,frame i = frame j → i = j

/-- Map is right: it maps all pages to frames of the object, or returns an error and
maps nothing. What it maps it maps to frames of the object. -/
structure MapRight (b c : Bitmap) (n : ℕ) (spaces : List ℕ) (f g : Frames) (proc : Option ℕ)
    (va : ℕ) (res : ℤ) : Prop where
  /-- All pages are mapped, or nothing is and there is an error. -/
  result : (res = 0 ∧ ∃ as ∈ proc,Mapped b c g as (va / pageSize) n) ∨
    (res < 0 ∧ ∀ as ∈ spaces,∀ page < userPages,walk g as page = walk f as page)
  /-- What is mapped anew is a frame of the object. -/
  owned : ∀ as ∈ spaces,∀ page < userPages,walk g as page ≠ walk f as page →
    ∀ e ∈ walk g as page,Taken b c e.frame

/-- The constructor finds its frames: as many as there are pages, in a row if asked for. -/
def Obtained (b : Bitmap) (n : ℕ) (cont : Bool) : Prop :=
  if cont then n = 0 ∨ ∃ s,IsRun b false n s else n ≤ clearCount b

/-- The calls that are served: the constructor found its frames and there are frames for
the page tables; or the call returns an error, unless the pages are mapped already. -/
def Served (size : ℕ) (cont : Bool) (b : Bitmap) (f : Frames) (proc : Option ℕ) (va : ℕ)
    (lock : Bool) (errno : ℕ) : Prop :=
  match proc with
  | none => True
  | some as =>
    if lock then
      Obtained b (pageCount size) cont ∧
        missing f as (va / pageSize) (pageCount size) ≤ clearCount f.bitmap
    else
      0 < errno ∨ Mapped b (create size cont b).2 f as (va / pageSize) (pageCount size)

section Constructor

variable {b c : Bitmap} {n : ℕ} {frames : List ℕ}

/-- What the constructor leaves in the vector: the addresses of the frames it took. -/
structure Owns (b c : Bitmap) (frames : List ℕ) : Prop where
  /-- They are the frames taken. -/
  taken : ∀ j,Taken b c j ↔ j * pageSize ∈ frames
  /-- They are addresses of frames. -/
  aligned : ∀ pa ∈ frames,pa / pageSize * pageSize = pa
  /-- None is there twice. -/
  nodup : frames.Nodup
  /-- Frames in use stay in use. -/
  bits : ∀ j,b.getBit j = true → c.getBit j = true

/-- Nothing was taken. -/
theorem Owns.nil : Owns b b [] := by
  refine ⟨fun j => ?_,fun _ h => absurd h List.not_mem_nil,List.nodup_nil,fun _ h => h⟩
  simp [Taken]

/-- One frame was taken before the others. -/
theorem Owns.cons {b' : Bitmap} {t : ℕ} (h : Owns b' c frames) (hfree : b.getBit t = false)
    (hbit : ∀ j,b'.getBit j = (b.getBit j || decide (j = t))) :
    Owns b c (t * pageSize :: frames) := by
  have ht : b'.getBit t = true := by rw [hbit,decide_eq_true rfl,Bool.or_true]
  have hother {j : ℕ} (hj : j ≠ t) : b'.getBit j = b.getBit j := by
    rw [hbit,decide_eq_false hj,Bool.or_false]
  refine ⟨fun j => ?_,fun pa hpa => ?_,List.nodup_cons.mpr ⟨fun hm => ?_,h.nodup⟩,fun j hj => ?_⟩
  · by_cases hj : j = t
    · subst hj
      exact iff_of_true ⟨hfree,h.bits j ht⟩ (List.mem_cons_self ..)
    · have hne : j * pageSize ≠ t * pageSize := fun he =>
        hj (Nat.eq_of_mul_eq_mul_right (by decide) he)
      rw [List.mem_cons,or_iff_right hne,←h.taken,Taken,Taken,hother hj]
  · rcases List.mem_cons.mp hpa with rfl | hpa
    · rw [Nat.mul_div_cancel _ (by decide)]
    · exact h.aligned pa hpa
  · have hclear := ((h.taken t).mpr hm).1
    rw [ht] at hclear
    cases hclear
  · by_cases hjt : j = t
    · rw [hjt]
      exact h.bits t ht
    · exact h.bits j ((hother hjt).trans hj)

/-- Frames are taken one by one as long as there are some. -/
theorem takeFrames_spec (n : ℕ) (hsize : b.bitCount ≤ 2 ^ 20) :
    Owns b (takeFrames n b).2 (takeFrames n b).1 ∧
      (takeFrames n b).1.length = min n (clearCount b) := by
  induction n generalizing b with
  | zero => exact ⟨.nil,(Nat.zero_min _).symm⟩
  | succ n ih =>
    rw [takeFrames]
    rcases allocFrame_taken hsize with ⟨hzero,hrun⟩ | ⟨t,-,hfree,hpa,hne,hcount,hbit,hleft⟩
    · rw [hrun,if_pos rfl,hzero]
      exact ⟨.nil,rfl⟩
    · obtain ⟨howns,hlen⟩ := ih (hcount.trans_le hsize)
      rw [hpa,if_neg hne]
      refine ⟨howns.cons hfree hbit,?_⟩
      rw [List.length_cons,hlen]
      omega

/-- Frames in a row are taken when there are such. -/
theorem allocFrames_spec (hsize : b.bitCount ≤ 2 ^ 20) (hn : 0 < n) :
    (allocFrames b n = (noFrame,b) ∧ ¬∃ s,IsRun b false n s) ∨
      ∃ s,IsRun b false n s ∧ (allocFrames b n).1 = s * pageSize ∧ s * pageSize ≠ noFrame ∧
        ∀ j,(allocFrames b n).2.getBit j = (b.getBit j || decide (s ≤ j ∧ j < s + n)) := by
  rcases @findFirstRun_spec b (by omega) false n hn with ⟨hnone,hall⟩ | ⟨hrun,-⟩
  · exact .inl ⟨by rw [allocFrames,hnone,if_pos rfl],fun ⟨s,hs⟩ => hall s hs⟩
  · have hlt : b.findFirstRun false n < b.bitCount := by
      have hend := hrun.1
      omega
    obtain ⟨hmod,hne,-⟩ := frame_address hsize hlt
    have halloc : allocFrames b n =
        (b.findFirstRun false n * pageSize,markFrom b (b.findFirstRun false n) n) := by
      rw [allocFrames,if_neg (by rw [invalidOffset]; omega),hmod]
    refine .inr ⟨_,hrun,by rw [halloc],hne,fun j => ?_⟩
    rw [halloc]
    exact getBit_markFrom n hrun.1 j

/-- Frames in a row that were free are owned. -/
theorem owns_run {s : ℕ} (hrun : IsRun b false n s)
    (hbit : ∀ j,c.getBit j = (b.getBit j || decide (s ≤ j ∧ j < s + n))) :
    Owns b c ((List.range n).map fun i => s * pageSize + i * pageSize) := by
  have hmem (j : ℕ) : j * pageSize ∈ (List.range n).map (fun i => s * pageSize + i * pageSize) ↔
      s ≤ j ∧ j < s + n := by
    simp only [List.mem_map,List.mem_range,←Nat.add_mul]
    constructor
    · rintro ⟨i,hi,he⟩
      have := Nat.eq_of_mul_eq_mul_right (by decide) he
      omega
    · rintro ⟨hle,hlt⟩
      exact ⟨j - s,by omega,by rw [Nat.add_sub_cancel' hle]⟩
  refine ⟨fun j => ?_,fun pa hpa => ?_,?_,fun j hj => by rw [hbit,hj,Bool.true_or]⟩
  · rw [hmem,Taken,hbit]
    constructor
    · rintro ⟨hclear,hset⟩
      rw [hclear,Bool.false_or] at hset
      exact of_decide_eq_true hset
    · rintro hj
      have hclear := hrun.2 (j - s) (by omega)
      rw [Nat.add_sub_cancel' hj.1] at hclear
      exact ⟨hclear,by rw [decide_eq_true hj,Bool.or_true]⟩
  · obtain ⟨i,-,rfl⟩ := List.mem_map.mp hpa
    rw [←Nat.add_mul,Nat.mul_div_cancel _ (by decide)]
  · refine List.Nodup.map (fun i j he => ?_) List.nodup_range
    have := Nat.eq_of_mul_eq_mul_right (by decide) (Nat.add_left_cancel he)
    exact this

/-- The constructor owns what is in the vector, which is as long as there are pages when it
found its frames, and shorter otherwise. -/
theorem create_spec (hsize : b.bitCount ≤ 2 ^ 20) (size : ℕ) (cont : Bool) :
    Owns b (create size cont b).2 (create size cont b).1.frames ∧
      (create size cont b).1.pageCount = pageCount size ∧
      (create size cont b).1.frames.length ≤ pageCount size ∧
      (pageCount size ≤ (create size cont b).1.frames.length ↔
        Obtained b (pageCount size) cont) := by
  cases cont with
  | false =>
    obtain ⟨howns,hlen⟩ := @takeFrames_spec b (pageCount size) hsize
    refine ⟨howns,rfl,?_,?_⟩
    · change (takeFrames (pageCount size) b).1.length ≤ _
      omega
    · change _ ≤ (takeFrames (pageCount size) b).1.length ↔ pageCount size ≤ clearCount b
      omega
  | true =>
    have hcreate (r : ℕ × Bitmap) (hr : allocFrames b (pageCount size) = r) :
        create size true b = if r.1 = noFrame then (⟨pageCount size,[],[]⟩,r.2)
          else (⟨pageCount size,(List.range (pageCount size)).map fun i =>
            (r.1 + i * pageSize) % 2 ^ 32,[]⟩,r.2) := by
      rw [create,hr]
      rfl
    have hobtained : Obtained b (pageCount size) true ↔
        pageCount size = 0 ∨ ∃ s,IsRun b false (pageCount size) s := Iff.rfl
    by_cases hn : pageCount size = 0
    · have hnone : allocFrames b (pageCount size) = (noFrame,b) := by
        rw [allocFrames,hn]
        rfl
      rw [hcreate _ hnone,if_pos rfl]
      exact ⟨.nil,rfl,Nat.zero_le _,iff_of_true (Nat.le_of_eq hn) (hobtained.mpr (.inl hn))⟩
    · rcases allocFrames_spec hsize (Nat.pos_of_ne_zero hn) with ⟨hnone,hno⟩ |
        ⟨s,hrun,hpa,hne,hbit⟩
      · rw [hcreate _ hnone,if_pos rfl]
        refine ⟨.nil,rfl,Nat.zero_le _,iff_of_false (fun hle => ?_) fun ho => ?_⟩
        · exact hn (Nat.le_zero.mp hle)
        · exact (hobtained.mp ho).elim hn hno
      · have hsmall : ∀ i ∈ List.range (pageCount size),
            (s * pageSize + i * pageSize) % 2 ^ 32 = s * pageSize + i * pageSize := by
          intro i hi
          have hi := List.mem_range.mp hi
          have hend := hrun.1
          rw [←Nat.add_mul]
          refine Nat.mod_eq_of_lt ?_
          calc (s + i) * pageSize < 2 ^ 20 * pageSize :=
                Nat.mul_lt_mul_of_pos_right (by omega) (by decide)
            _ = 2 ^ 32 := by decide
        rw [hcreate _ rfl,hpa,if_neg hne,List.map_congr_left hsmall]
        refine ⟨owns_run hrun hbit,rfl,?_,iff_of_true ?_ (hobtained.mpr (.inr ⟨s,hrun⟩))⟩
        · simp
        · simp

end Constructor

section Loop

variable {f g : Frames} {spaces : List ℕ} {as va p n i pa : ℕ} {user write : Bool} {frame : ℕ → ℕ}

/-- MapPage finds no frame for a page table, or maps the page and takes one frame if it had to
make a page table. -/
theorem mapPage_step (h : Built f spaces) (hs : as ∈ spaces) (hva : va < kernelBase) :
    (¬Present (pde f as (va / pageSize / 1024)) ∧ clearCount f.bitmap = 0 ∧
        f.mapPage as va pa user write = (false,f)) ∨
      ∃ g,f.mapPage as va pa user write = (true,g) ∧ Built g spaces ∧
        ChangesOne f g spaces as (va / pageSize) (some ⟨pa / pageSize,user,write⟩) ∧
        clearCount g.bitmap + (if Present (pde f as (va / pageSize / 1024)) then 0 else 1) =
          clearCount f.bitmap := by
  obtain ⟨hk,-,hdiv,-⟩ := indexes_of_va hva
  rw [hdiv]
  have hshift := mapPage_shift (K := fun _ => False) h hs hva pa user write
  have hiff := h.noPages_iff hs hk
  have hmapped {g : Frames} (hrun : f.mapPage as va pa user write = (true,g)) :
      ∃ g,f.mapPage as va pa user write = (true,g) ∧ Built g spaces ∧
        ChangesOne f g spaces as (va / pageSize) (some ⟨pa / pageSize,user,write⟩) ∧
        clearCount g.bitmap + (if Present (pde f as (va / largePageSize)) then 0 else 1) =
          clearCount f.bitmap := by
    obtain ⟨hb,-,hyes⟩ := mapPage_right h hs hva hrun
    obtain ⟨hpages,halloc,hsame⟩ := hyes rfl
    rw [hrun] at hshift
    refine ⟨g,hrun,hb,hpages,?_⟩
    by_cases hp : Present (pde f as (va / largePageSize))
    · rw [if_pos hp,hsame fun hno => hiff.mp hno hp]
      rfl
    · obtain ⟨hclear,hbit⟩ := halloc (hiff.mpr hp)
      rw [if_neg hp]
      refine clearCount_taken hshift.bitCount hclear ?_ hbit
      rw [←hshift.bitCount]
      refine lt_of_getBit (b := g.bitmap) ?_
      rw [hbit,decide_eq_true rfl,Bool.or_true]
  rcases mapPage_cases h hs hva with ⟨hno,hall,hr⟩ | ⟨g,-,-,hr,-⟩ | ⟨-,hr⟩
  · exact .inl ⟨hno,clearCount_eq_zero.mpr hall,hr⟩
  · exact .inr (hmapped hr)
  · exact .inr (hmapped hr)

/-- Memory after pages in a row were mapped to given addresses. -/
structure Filled (f g : Frames) (spaces : List ℕ) (as p n : ℕ) (frame : ℕ → ℕ)
    (user write : Bool) : Prop where
  /-- The page tables are in order. -/
  built : Built g spaces
  /-- The page tables are those from before and those of the pages. -/
  present : ∀ k < userTables,
    (Present (pde g as k) ↔ Present (pde f as k) ∨ k ∈ (Finset.Ico p (p + n)).image (· / 1024))
  /-- A frame was taken for each new page table. -/
  count : clearCount g.bitmap + missing f as p n = clearCount f.bitmap
  /-- The pages are mapped, and the others are what they were. -/
  pages : ∀ as' ∈ spaces,∀ page < userPages,walk g as' page =
    if as' = as ∧ p ≤ page ∧ page < p + n then some ⟨frame (page - p),user,write⟩
    else walk f as' page

/-- Memory after a page table could not be made: a page has none, and no frame is left. -/
structure Stuck (f g : Frames) (spaces : List ℕ) (as p n : ℕ) : Prop where
  /-- The page tables are in order. -/
  built : Built g spaces
  /-- No frame is left. -/
  full : clearCount g.bitmap = 0
  /-- The pages need more page tables than there were frames. -/
  short : clearCount f.bitmap < missing f as p n
  /-- One of them has none. -/
  absent : ∃ page,p ≤ page ∧ page < p + n ∧ ¬Present (pde g as (page / 1024))

/-- The next page is mapped, or the loop is stuck. -/
theorem Filled.step (h : Filled f g spaces as p i frame user write) (hs : as ∈ spaces)
    (hp : p + n ≤ userPages) (hi : i < n) (hva : va < kernelBase) (hpage : va / pageSize = p + i)
    (hframe : pa / pageSize = frame i) :
    Filled f (g.mapPage as va pa user write).2 spaces as p (i + 1) frame user write ∨
      Stuck f (g.mapPage as va pa user write).2 spaces as p n := by
  have hsucc := FreshPages.missing_succ h.present (show p + i < userPages by omega)
  have hcount := h.count
  rcases @mapPage_step g spaces as va pa user write h.built hs hva with
    ⟨hno,hzero,hr⟩ | ⟨g',hr,hb,hone,htaken⟩
  · right
    rw [hr]
    rw [hpage] at hno
    rw [if_neg hno] at hsucc
    have hmono := @missing_mono f as p n (i + 1) hi
    exact ⟨h.built,hzero,by omega,p + i,by omega,by omega,hno⟩
  · left
    rw [hr]
    rw [hpage] at hone htaken
    refine ⟨hb,fun k hk => ?_,?_,fun as' hs' page hpage' => ?_⟩
    · rw [present_changesOne h.built hb hs hone (by omega) hk,h.present k hk,tables_succ,
        Finset.mem_insert]
      tauto
    · rw [hsucc]
      change clearCount g'.bitmap + _ = _
      omega
    · change walk g' as' page = _
      rw [hone as' hs' page hpage',Pages.put]
      by_cases hself : as' = as ∧ page = p + i
      · rw [if_pos hself,if_pos (by omega),hframe,hself.2,Nat.add_sub_cancel_left]
      · rw [if_neg hself,h.pages as' hs' page hpage']
        have hiff : (as' = as ∧ p ≤ page ∧ page < p + i) ↔
            (as' = as ∧ p ≤ page ∧ page < p + (i + 1)) := by omega
        simp only [hiff]

/-- A loop that is stuck stays stuck. -/
theorem Stuck.step (h : Stuck f g spaces as p n) (hs : as ∈ spaces) (hp : p + n ≤ userPages)
    (hva : va < kernelBase) : Stuck f (g.mapPage as va pa user write).2 spaces as p n := by
  obtain ⟨page,hle,hlt,habsent⟩ := h.absent
  rcases @mapPage_step g spaces as va pa user write h.built hs hva with
    ⟨-,-,hr⟩ | ⟨g',hr,hb,hone,htaken⟩
  · rw [hr]
    exact h
  · rw [hr]
    have hfull := h.full
    have hpres : Present (pde g as (va / pageSize / 1024)) := by
      by_contra hno
      rw [if_neg hno] at htaken
      omega
    rw [if_pos hpres] at htaken
    refine ⟨hb,htaken.trans hfull,h.short,page,hle,hlt,fun hp' => ?_⟩
    have hk : page / 1024 < userTables := by
      have hpage : page < userPages := by omega
      simp only [userTables,userPages,kernelBase,largePageSize,pageSize] at hpage ⊢
      omega
    rcases (present_changesOne h.built hb hs hone (indexes_of_va hva).2.1 hk).mp hp' with hold | he
    · exact habsent hold
    · exact habsent (he ▸ hpres)

/-- The loop of Map: all pages are mapped when there are frames for the page tables, and
otherwise some page is not. -/
theorem mapFrames_spec (h : Built f spaces) (hs : as ∈ spaces) (shm : SharedMem) (va : ℕ)
    (user write : Bool) (hp : va / pageSize + shm.pageCount ≤ userPages) :
    (missing f as (va / pageSize) shm.pageCount ≤ clearCount f.bitmap ∧
        Filled f (mapFrames shm f as va user write) spaces as (va / pageSize) shm.pageCount
          (fun i => shm.frames.getD i 0 / pageSize) user write) ∨
      Stuck f (mapFrames shm f as va user write) spaces as (va / pageSize) shm.pageCount := by
  have hstart : Filled f f spaces as (va / pageSize) 0 (fun i => shm.frames.getD i 0 / pageSize)
      user write := by
    refine ⟨h,fun k _ => by simp,by simp [missing],fun as' _ page _ => ?_⟩
    rw [if_neg (by omega)]
  have haddr {i : ℕ} (hi : i < shm.pageCount) : (va + i * pageSize) % 2 ^ 32 < kernelBase ∧
      (va + i * pageSize) % 2 ^ 32 / pageSize = va / pageSize + i := by
    simp only [userPages,kernelBase,pageSize] at hp ⊢
    omega
  have hloop := @Runs.foldl_range_invariant Frames
    (fun f i => (f.mapPage as ((va + i * pageSize) % 2 ^ 32) (shm.frames.getD i 0) user write).2)
    (fun i g => Filled f g spaces as (va / pageSize) i (fun i => shm.frames.getD i 0 / pageSize)
      user write ∨ Stuck f g spaces as (va / pageSize) shm.pageCount) 0 shm.pageCount f
    (fun i g _ hi hg => by
      obtain ⟨hva,hpage⟩ := haddr (by omega : i < shm.pageCount)
      rcases hg with hfilled | hstuck
      · exact hfilled.step hs hp (by omega) hva hpage rfl
      · exact .inr (hstuck.step hs hp hva)) (.inl hstart)
  rw [Nat.zero_add,←List.range_eq_range'] at hloop
  refine hloop.imp_left fun hfilled => ⟨?_,hfilled⟩
  have hcount := hfilled.count
  omega

end Loop

section Calls

variable {b c : Bitmap} {f g : Frames} {spaces frames : List ℕ} {as p n : ℕ}

/-- Pages that are mapped to different frames of the object are not more than it has frames. -/
theorem Mapped.length_le (h : Mapped b c g as p n) (howns : Owns b c frames) :
    n ≤ frames.length := by
  obtain ⟨frame,hframe,hinj⟩ := h
  have hnodup : ((List.range n).map fun i => frame i * pageSize).Nodup := by
    refine List.Nodup.map_on (fun i hi j hj he => ?_) List.nodup_range
    exact hinj i (List.mem_range.mp hi) j (List.mem_range.mp hj)
      (Nat.eq_of_mul_eq_mul_right (by decide) he)
  have hsub : ((List.range n).map fun i => frame i * pageSize) ⊆ frames := by
    intro pa hpa
    obtain ⟨i,hi,rfl⟩ := List.mem_map.mp hpa
    exact (howns.taken _).mp (hframe i (List.mem_range.mp hi)).1
  have hlen := (hnodup.subperm hsub).length_le
  rwa [List.length_map,List.length_range] at hlen

/-- A vector with a frame for each page gives each its own. -/
theorem Owns.distinct (h : Owns b c frames) (hn : n ≤ frames.length) :
    (∀ i < n,Taken b c (frames.getD i 0 / pageSize)) ∧
      ∀ i < n,∀ j < n,frames.getD i 0 / pageSize = frames.getD j 0 / pageSize → i = j := by
  have hget {i : ℕ} (hi : i < n) : ∃ hl : i < frames.length,frames.getD i 0 = frames[i] :=
    ⟨by omega,List.getD_eq_getElem frames 0 (by omega)⟩
  constructor
  · intro i hi
    obtain ⟨hl,he⟩ := hget hi
    rw [h.taken,he,h.aligned _ (List.getElem_mem hl)]
    exact List.getElem_mem hl
  · intro i hi j hj hframe
    obtain ⟨hli,hei⟩ := hget hi
    obtain ⟨hlj,hej⟩ := hget hj
    rw [hei,hej] at hframe
    have heq : frames[i] = frames[j] := by
      rw [←h.aligned _ (List.getElem_mem hli),hframe,h.aligned _ (List.getElem_mem hlj)]
    exact h.nodup.getElem_inj_iff.mp heq

/-- The call with the lock: all pages are mapped to frames of the object exactly when there
were frames for them and their page tables. -/
theorem mapFrames_right_iff (hsize : b.bitCount ≤ 2 ^ 20) (h : Built f spaces) (hs : as ∈ spaces)
    (size : ℕ) (cont : Bool) (va : ℕ) (user write : Bool)
    (hp : va / pageSize + pageCount size ≤ userPages) :
    MapRight b (create size cont b).2 (pageCount size) spaces f
        (mapFrames (create size cont b).1 f as va user write) (some as) va 0 ↔
      Obtained b (pageCount size) cont ∧
        missing f as (va / pageSize) (pageCount size) ≤ clearCount f.bitmap := by
  obtain ⟨howns,hcount,-,hobtained⟩ := create_spec hsize size cont
  have hspec := mapFrames_spec h hs (create size cont b).1 va user write (hcount.symm ▸ hp)
  rw [hcount] at hspec
  constructor
  · intro hright
    obtain ⟨-,as',has,hmapped⟩ := hright.result.resolve_right fun he => by simp at he
    obtain rfl := Option.some.inj has
    refine ⟨hobtained.mp (hmapped.length_le howns),?_⟩
    rcases hspec with ⟨henough,-⟩ | hstuck
    · exact henough
    · obtain ⟨page,hle,hlt,habsent⟩ := hstuck.absent
      obtain ⟨frame,hframe,-⟩ := hmapped
      have hwalk := (hframe (page - va / pageSize) (by omega)).2
      rw [Nat.add_sub_cancel' hle,walk_of_not_present rfl habsent] at hwalk
      cases hwalk
  · rintro ⟨ho,henough⟩
    rcases hspec with ⟨-,hfilled⟩ | hstuck
    · obtain ⟨htaken,hinj⟩ := howns.distinct (hobtained.mpr ho)
      refine ⟨.inl ⟨rfl,as,rfl,_,fun i hi => ⟨htaken i hi,?_⟩,hinj⟩,
        fun as' hs' page hpage hne e he => ?_⟩
      · rw [hfilled.pages as hs _ (by omega),if_pos (by omega),Nat.add_sub_cancel_left]
        rfl
      · rw [hfilled.pages as' hs' page hpage] at hne he
        split_ifs at hne he with hin
        · obtain rfl := Option.some.inj he
          exact htaken _ (by omega)
        · exact absurd rfl hne
    · exact absurd henough (not_le.mpr hstuck.short)

/-- A call that maps nothing owes nothing. -/
theorem owned_refl : ∀ as ∈ spaces,∀ page < userPages,walk f as page ≠ walk f as page →
    ∀ e ∈ walk f as page,Taken b c e.frame := fun _ _ _ _ hne => absurd rfl hne

/-- For every size, both modes and all bitmaps: Map maps all pages of the object, each to a
frame of its own that the constructor took, or returns an error and maps nothing, exactly when
the call is served. -/
theorem map_right_iff (hsize : b.bitCount ≤ 2 ^ 20) (h : Built f spaces) {proc : Option ℕ}
    (hs : ∀ as ∈ proc,as ∈ spaces) (size : ℕ) (cont : Bool) (va : ℕ) (user write lock : Bool)
    (errno : ℕ) (hp : va / pageSize + pageCount size ≤ userPages) :
    MapRight b (create size cont b).2 (pageCount size) spaces f
        (map (create size cont b).1 f proc va user write lock errno).2.2 proc va
        (map (create size cont b).1 f proc va user write lock errno).1 ↔
      Served size cont b f proc va lock errno := by
  cases proc with
  | none =>
    refine iff_of_true ⟨.inr ⟨?_,fun _ _ _ _ => rfl⟩,owned_refl⟩ trivial
    change -einval < 0
    decide
  | some as =>
    have has := hs as rfl
    cases lock with
    | true => exact mapFrames_right_iff hsize h has size cont va user write hp
    | false =>
      constructor
      · intro hright
        rcases hright.result with ⟨-,as',has',hmapped⟩ | ⟨hneg,-⟩
        · obtain rfl := Option.some.inj has'
          exact .inr hmapped
        · left
          change -(errno : ℤ) < 0 at hneg
          omega
      · intro hserved
        refine ⟨?_,owned_refl⟩
        rcases Nat.eq_zero_or_pos errno with hzero | hpos
        · have hmapped := Or.resolve_left hserved (by omega)
          refine .inl ⟨?_,as,rfl,hmapped⟩
          change -(errno : ℤ) = 0
          omega
        · refine .inr ⟨?_,fun _ _ _ _ => rfl⟩
          change -(errno : ℤ) < 0
          omega

end Calls

/-- Two free frames of eight. -/
def twoOfEight : Bitmap := { bitCount := 8,bits := fun d => if d = 0 then 0xF3 else 0,ones := 6 }

/-- An empty directory in frame 1, and one free frame that is not one of those two. -/
def oneFreed : Frames where
  word := fun _ _ => 0
  bitmap := { bitCount := 8,bits := fun d => if d = 0 then 0xEF else 0,ones := 7 }

theorem built_oneFreed : Built oneFreed [0x1000] :=
  ProcessBreak.built_empty (fun _ _ => rfl) (by decide) (by decide)

/-- Two pages get the two frames, and their page table the third. -/
theorem map_right_iff_two : MapRight twoOfEight (create 0x1800 false twoOfEight).2
    (pageCount 0x1800) [0x1000] oneFreed
    (map (create 0x1800 false twoOfEight).1 oneFreed (some 0x1000) 0x8000000 true true true 0).2.2
    (some 0x1000) 0x8000000
    (map (create 0x1800 false twoOfEight).1 oneFreed (some 0x1000) 0x8000000 true true true 0).1 :=
  (map_right_iff (by decide) built_oneFreed (by simp) 0x1800 false 0x8000000 true true true 0
    (by decide)).mpr ⟨by change _ ≤ _; decide,by decide⟩

/-- The constructor finds two frames for three pages. The third page is mapped to frame zero. -/
theorem frame_zero_mapped :
    (walk (map (create 0x3000 false twoOfEight).1 oneFreed (some 0x1000) 0x8000000 true true true
      0).2.2 0x1000 0x8002 = some ⟨0,true,true⟩) ∧
    ¬MapRight twoOfEight (create 0x3000 false twoOfEight).2 (pageCount 0x3000) [0x1000] oneFreed
      (map (create 0x3000 false twoOfEight).1 oneFreed (some 0x1000) 0x8000000 true true true
        0).2.2 (some 0x1000) 0x8000000
      (map (create 0x3000 false twoOfEight).1 oneFreed (some 0x1000) 0x8000000 true true true
        0).1 := by
  have hwalk : walk (map (create 0x3000 false twoOfEight).1 oneFreed (some 0x1000) 0x8000000 true
      true true 0).2.2 0x1000 0x8002 = some ⟨0,true,true⟩ := by decide
  refine ⟨hwalk,fun hright => ?_⟩
  have hbefore : walk oneFreed 0x1000 0x8002 = none :=
    ProcessBreak.walk_empty (fun _ _ => rfl) _ _
  have htaken := hright.owned 0x1000 (by simp) 0x8002 (by decide)
    (by rw [hwalk,hbefore]; simp) _ hwalk
  exact absurd htaken.1 (by decide)

end WootOs.SharedMemory
