import WootOs.KernelHeap
import WootOs.Paging

/-!
# Memory found at boot

The boot loader leaves a list of memory regions, each with its own length in
bytes. Paging::getRAMSize folds over it: a 64-bit sum in which the end of a
region is a 32-bit word. From the result the number of page frames follows,
and storage for a bitmap of them is reserved in front of the Bitmap object
that uses it.

The fold adds the ends of regions instead of keeping the largest one, and the
storage is rounded down to bytes before it is rounded up to pages. Both are
right for some memory maps and sizes of memory, which are told here exactly.
-/

namespace WootOs.BootMemory

open ByteStore FrameBitmap FrameAllocator Paging

/-- What the boot loader says about the memory map. -/
structure MultibootInfo where
  /-- Bytes of the memory map. -/
  mmapLength : ℕ
  /-- Physical address of the memory map. -/
  mmapAddr : ℕ

/-- One record of the memory map. -/
structure MemoryMap where
  /-- Bytes of the record, without this field. -/
  size : ℕ
  /-- First byte of the region. -/
  addr : ℕ
  /-- Bytes in the region. -/
  len : ℕ
  /-- Kind of region; one is usable memory. -/
  type : ℕ
  deriving DecidableEq

/-- The record at a physical address. -/
def memoryMapAt (m : Store) (mmapAddr : ℕ) : MemoryMap :=
  let mmap := (mmapAddr + kernelBase) % 2 ^ 32
  ⟨word m 4 mmap,word m 8 (mmap + 4),word m 8 (mmap + 12),word m 4 (mmap + 20)⟩

/-- Memory that can be used and lies above the first megabyte. -/
def MemoryMap.Usable (r : MemoryMap) : Prop := 2 ^ 20 ≤ r.addr ∧ r.type = 1

instance (r : MemoryMap) : Decidable r.Usable := inferInstanceAs (Decidable (_ ∧ _))

/-- First byte past a region, as it is. -/
def MemoryMap.finish (r : MemoryMap) : ℕ := r.addr + r.len

/-- The sum after one more region. -/
def addRegion (ramSize : ℕ) (mmap : MemoryMap) : ℕ :=
  let blockEnd := (mmap.addr + mmap.len) % 2 ^ 32
  if mmap.Usable ∧ blockEnd > ramSize then (ramSize + blockEnd) % 2 ^ 64 else ramSize

/-- The loop over the records; it has no result while it runs. -/
def getRAMSizeFrom (m : Store) (mmapEnd : ℕ) : ℕ → ℕ → ℕ → Option ℕ
  | 0,_,_ => none
  | fuel + 1,mmapAddr,ramSize =>
    if mmapAddr < mmapEnd then
      let mmap := memoryMapAt m mmapAddr
      getRAMSizeFrom m mmapEnd fuel ((mmapAddr + (mmap.size + 4)) % 2 ^ 32) (addRegion ramSize mmap)
    else some ramSize

/-- Size of the memory according to the memory map. -/
def getRAMSize (m : Store) (mboot : MultibootInfo) (fuel : ℕ) : Option ℕ :=
  getRAMSizeFrom m ((mboot.mmapAddr + mboot.mmapLength) % 2 ^ 32) fuel mboot.mmapAddr 0

/-- Number of frames the kernel manages, three gigabytes at most. -/
def frameCount (ramSize : ℕ) : ℕ := min (3 * 2 ^ 30) ramSize / pageSize

/-- The memory map is a list of records, one after the other. -/
structure Mapped (m : Store) (mboot : MultibootInfo) (regions : List MemoryMap) : Prop where
  /-- It ends within the address space. -/
  fits : mboot.mmapAddr + mboot.mmapLength < 2 ^ 32
  /-- Each record starts where the one before it ends. -/
  records : Chain (memoryMapAt m) (fun r => r.size + 4) mboot.mmapAddr regions
    (mboot.mmapAddr + mboot.mmapLength)

/-- Ends of the usable regions. -/
def usableEnds (regions : List MemoryMap) : List ℕ :=
  (regions.filter fun r => r.Usable).map MemoryMap.finish

/-- The largest of some numbers, zero if there are none. -/
def largest (ends : List ℕ) : ℕ := ends.foldr max 0

/-- The size of the memory is right. -/
structure SizeRight (m : Store) (mboot : MultibootInfo) (regions : List MemoryMap)
    (ramSize : ℕ) : Prop where
  /-- The loop ends with it, however long it may run. -/
  returned : ∀ fuel, regions.length < fuel → getRAMSize m mboot fuel = some ramSize
  /-- It is the largest end of a usable region. -/
  exact : ramSize = largest (usableEnds regions)
  /-- No frame lies beyond it. -/
  covered : frameCount ramSize * pageSize ≤ largest (usableEnds regions)

/-- A choice of numbers from a list: each one chosen is above the sum of those
chosen before it, and no other one is. -/
inductive Chosen : ℕ → List ℕ → List ℕ → Prop
  /-- There is nothing to choose from. -/
  | nil (sum : ℕ) : Chosen sum [] []
  /-- A number above the sum is chosen. -/
  | take {sum e : ℕ} {es ts : List ℕ} : sum < e → Chosen (sum + e) es ts →
      Chosen sum (e :: es) (e :: ts)
  /-- Another one is not. -/
  | skip {sum e : ℕ} {es ts : List ℕ} : e ≤ sum → Chosen sum es ts → Chosen sum (e :: es) ts

/-- All usable regions end below four gigabytes, none of them above the first. -/
def FirstLargest (ends : List ℕ) : Prop :=
  (∀ e ∈ ends, e < 2 ^ 32) ∧ ∀ e ∈ ends, e ≤ ends.headD 0

/-- Several ends, or ends cut down to words, happen to add up to the largest. -/
def Coincidence (ends : List ℕ) : Prop :=
  ∃ ts, Chosen 0 (ends.map (· % 2 ^ 32)) ts ∧ ts.sum = largest ends ∧
    (1 < ts.length ∨ ∃ e ∈ ends, 2 ^ 32 ≤ e)

section

variable {m : Store} {mboot : MultibootInfo} {regions : List MemoryMap} {ends : List ℕ}

/-- A number of the list is not above the largest. -/
theorem le_largest {e : ℕ} (h : e ∈ ends) : e ≤ largest ends := by
  induction ends with
  | nil => exact absurd h List.not_mem_nil
  | cons x xs ih =>
    rw [largest,List.foldr_cons]
    rcases List.mem_cons.mp h with rfl | h
    · exact le_max_left _ _
    · exact (ih h).trans (le_max_right _ _)

/-- The largest number is bounded by what bounds all. -/
theorem largest_le {k : ℕ} (h : ∀ e ∈ ends, e ≤ k) : largest ends ≤ k := by
  induction ends with
  | nil => exact Nat.zero_le k
  | cons x xs ih =>
    rw [largest,List.foldr_cons]
    exact max_le (h x List.mem_cons_self) (ih fun e he => h e (List.mem_cons_of_mem _ he))

/-- The sum stays far below its width. -/
theorem addRegion_lt {s : ℕ} (hs : s < 2 ^ 33) (r : MemoryMap) : addRegion s r < 2 ^ 33 := by
  rw [addRegion]
  split
  · omega
  · exact hs

/-- The loop over a list of records folds over them. -/
theorem getRAMSizeFrom_eq {stop : ℕ} (hstop : stop < 2 ^ 32) : ∀ {regions : List MemoryMap}
    {pos s fuel : ℕ}, Chain (memoryMapAt m) (fun r => r.size + 4) pos regions stop →
    regions.length < fuel → getRAMSizeFrom m stop fuel pos s = some (regions.foldl addRegion s) := by
  intro regions
  induction regions with
  | nil =>
    intro pos s fuel hchain hfuel
    obtain ⟨fuel,rfl⟩ := Nat.exists_eq_add_of_lt hfuel
    rw [show pos = stop from hchain,List.length_nil,Nat.zero_add,getRAMSizeFrom,
      if_neg (lt_irrefl stop)]
    rfl
  | cons r regions ih =>
    intro pos s fuel hchain hfuel
    obtain ⟨hread,hlen,hrest⟩ := hchain
    dsimp only at hlen hrest
    obtain ⟨fuel,rfl⟩ := Nat.exists_eq_add_of_lt hfuel
    have hbound := hrest.count_le
    rw [getRAMSizeFrom,if_pos (by omega)]
    simp only [hread]
    rw [Nat.mod_eq_of_lt (by omega)]
    rw [List.length_cons] at hfuel ⊢
    exact ih hrest (by omega)

/-- Of the regions, the usable ones alone count, by their ends. -/
theorem foldl_addRegion : ∀ {s : ℕ}, s < 2 ^ 33 → ∃ ts,
    Chosen s ((usableEnds regions).map (· % 2 ^ 32)) ts ∧
    regions.foldl addRegion s = s + ts.sum := by
  induction regions with
  | nil =>
    intro s _
    exact ⟨[],.nil s,rfl⟩
  | cons r regions ih =>
    intro s hs
    by_cases huse : r.Usable
    · have hends : usableEnds (r :: regions) = r.finish :: usableEnds regions := by
        rw [usableEnds,List.filter_cons_of_pos (by simpa using huse),List.map_cons,usableEnds]
      rw [hends,List.map_cons,List.foldl_cons]
      by_cases hmore : s < r.finish % 2 ^ 32
      · have hstep : addRegion s r = s + r.finish % 2 ^ 32 := by
          rw [addRegion,if_pos ⟨huse,hmore⟩]
          exact Nat.mod_eq_of_lt (by omega)
        have hsmall := addRegion_lt hs r
        rw [hstep] at hsmall ⊢
        obtain ⟨ts,hts,hsum⟩ := ih hsmall
        refine ⟨_,.take hmore hts,?_⟩
        rw [hsum,List.sum_cons,Nat.add_assoc]
      · have hstep : addRegion s r = s := by
          rw [addRegion,if_neg fun h => hmore h.2]
        rw [hstep]
        obtain ⟨ts,hts,hsum⟩ := ih hs
        exact ⟨ts,.skip (by omega) hts,hsum⟩
    · have hends : usableEnds (r :: regions) = usableEnds regions := by
        rw [usableEnds,List.filter_cons_of_neg (by simpa using huse),usableEnds]
      have hstep : addRegion s r = s := by
        rw [addRegion,if_neg fun h => huse h.1]
      rw [hends,List.foldl_cons,hstep]
      exact ih hs

/-- Usable regions end above the first megabyte. -/
theorem usableEnds_pos {e : ℕ} (h : e ∈ usableEnds regions) : 0 < e := by
  obtain ⟨r,hr,rfl⟩ := List.mem_map.mp h
  have huse : r.Usable := by simpa using (List.mem_filter.mp hr).2
  have := huse.1
  rw [MemoryMap.finish]
  omega

/-- There is one choice only. -/
theorem Chosen.unique {s : ℕ} {es ts us : List ℕ} (h : Chosen s es ts) (h' : Chosen s es us) :
    ts = us := by
  induction h generalizing us with
  | nil s =>
    cases h'
    rfl
  | take hlt _ ih =>
    cases h' with
    | take _ hrest => rw [ih hrest]
    | skip hle _ => omega
  | skip hle _ ih =>
    cases h' with
    | take hlt _ => omega
    | skip _ hrest => exact ih hrest

/-- Nothing is chosen from numbers that are not above the sum. -/
theorem Chosen.eq_nil {s : ℕ} {es ts : List ℕ} (h : Chosen s es ts) (hle : ∀ e ∈ es, e ≤ s) :
    ts = [] := by
  induction h with
  | nil => rfl
  | take hlt _ _ => exact absurd (hle _ List.mem_cons_self) (by omega)
  | skip _ _ ih => exact ih fun e he => hle e (List.mem_cons_of_mem _ he)

/-- What the chosen words add up to is the largest end exactly in the two cases
told apart. -/
theorem chosen_sum_iff {ts : List ℕ} (hpos : ∀ e ∈ ends, 0 < e)
    (h : Chosen 0 (ends.map (· % 2 ^ 32)) ts) :
    ts.sum = largest ends ↔ FirstLargest ends ∨ Coincidence ends := by
  constructor
  · intro hsum
    by_cases hwide : 1 < ts.length ∨ ∃ e ∈ ends, 2 ^ 32 ≤ e
    · exact .inr ⟨ts,h,hsum,hwide⟩
    · rw [not_or] at hwide
      have hlow : ∀ e ∈ ends, e < 2 ^ 32 := fun e he =>
        Nat.lt_of_not_le fun hle => hwide.2 ⟨e,he,hle⟩
      refine .inl ⟨hlow,?_⟩
      cases ends with
      | nil => exact fun e he => absurd he List.not_mem_nil
      | cons x xs =>
        have hx := hlow x List.mem_cons_self
        have hx0 := hpos x List.mem_cons_self
        rw [List.map_cons,Nat.mod_eq_of_lt hx] at h
        -- the first end is chosen, and nothing after it
        cases h with
        | skip hle _ => omega
        | @take _ _ _ us _ hrest =>
          have hus : us = [] := by
            rw [List.length_cons] at hwide
            exact List.length_eq_zero_iff.mp (by omega)
          subst hus
          intro e he
          have hle := le_largest he
          rw [← hsum,List.sum_cons,List.sum_nil,Nat.add_zero] at hle
          exact hle
  · rintro (⟨hlow,hfirst⟩ | ⟨us,hus,hsum,-⟩)
    · cases ends with
      | nil =>
        cases h
        rfl
      | cons x xs =>
        have hx := hlow x List.mem_cons_self
        have hx0 := hpos x List.mem_cons_self
        rw [List.map_cons,Nat.mod_eq_of_lt hx] at h
        cases h with
        | skip hle _ => omega
        | @take _ _ _ us _ hrest =>
          have hus : us = [] := by
            apply hrest.eq_nil
            intro e he
            obtain ⟨y,hy,rfl⟩ := List.mem_map.mp he
            have hle := hfirst y (List.mem_cons_of_mem _ hy)
            rw [List.headD_cons] at hle
            exact (Nat.mod_le _ _).trans (by omega)
          subst hus
          have hmax : largest (x :: xs) = x := Nat.le_antisymm
            (largest_le fun e he => hfirst e he) (le_largest List.mem_cons_self)
          rw [hmax,List.sum_cons,List.sum_nil,Nat.add_zero]
    · rw [h.unique hus,hsum]

/-- Frames are counted within the memory. -/
theorem frameCount_covered (ramSize : ℕ) : frameCount ramSize * pageSize ≤ ramSize := by
  rw [frameCount]
  exact (Nat.div_mul_le_self _ _).trans (min_le_right _ _)

/-- The size of the memory is right exactly where the first usable region ends
last, below four gigabytes, or the ends added happen to be the largest end. -/
theorem getRAMSize_right_iff (hmap : Mapped m mboot regions) :
    (∃ ramSize, SizeRight m mboot regions ramSize) ↔
      FirstLargest (usableEnds regions) ∨ Coincidence (usableEnds regions) := by
  obtain ⟨ts,hts,hfold⟩ := @foldl_addRegion regions 0 (by decide)
  rw [Nat.zero_add] at hfold
  have hret : ∀ fuel, regions.length < fuel → getRAMSize m mboot fuel = some ts.sum := by
    intro fuel hfuel
    rw [getRAMSize,Nat.mod_eq_of_lt hmap.fits,getRAMSizeFrom_eq hmap.fits hmap.records hfuel,hfold]
  rw [← chosen_sum_iff (fun e he => usableEnds_pos he) hts]
  constructor
  · rintro ⟨ramSize,hright⟩
    have hsame := hright.returned (regions.length + 1) (Nat.lt_succ_self _)
    rw [hret _ (Nat.lt_succ_self _),Option.some_inj] at hsame
    rw [hsame,hright.exact]
  · intro hsum
    refine ⟨ts.sum,hret,hsum,?_⟩
    rw [← hsum]
    exact frameCount_covered _

end

/-- The bytes of a record. -/
def MemoryMap.bytes (r : MemoryMap) : List UInt8 :=
  leBytes 4 r.size ++ leBytes 8 r.addr ++ leBytes 8 r.len ++ leBytes 4 r.type

/-- A memory map of two banks of memory that adjoin at 16 megabytes and end at
32 megabytes. -/
def twoBanks : List MemoryMap := [⟨20,2 ^ 20,15 * 2 ^ 20,1⟩,⟨20,2 ^ 24,2 ^ 24,1⟩]

/-- Memory with these records at 64 kilobytes. -/
def twoBanksMemory : Store :=
  patch (fun _ => 0) (kernelBase + 0x10000) (twoBanks.flatMap MemoryMap.bytes)

/-- Where the records are. -/
def twoBanksInfo : MultibootInfo := ⟨48,0x10000⟩

/-- The records are there. -/
theorem twoBanks_mapped : Mapped twoBanksMemory twoBanksInfo twoBanks :=
  ⟨by decide,by decide,by decide,by decide,by decide,rfl⟩

/-- For two banks the size is right if one of the conditions holds. -/
theorem getRAMSize_right_iff_twoBanks :
    (∃ ramSize, SizeRight twoBanksMemory twoBanksInfo twoBanks ramSize) ↔
      FirstLargest (usableEnds twoBanks) ∨ Coincidence (usableEnds twoBanks) :=
  getRAMSize_right_iff twoBanks_mapped

/-- Two banks that end at 32 megabytes are taken for 48 megabytes. -/
theorem twoBanks_added : getRAMSize twoBanksMemory twoBanksInfo 3 = some (48 * 2 ^ 20) ∧
    largest (usableEnds twoBanks) = 32 * 2 ^ 20 ∧
    ¬∃ ramSize, SizeRight twoBanksMemory twoBanksInfo twoBanks ramSize := by
  have hret : getRAMSize twoBanksMemory twoBanksInfo 3 = some (48 * 2 ^ 20) := by decide
  have hlast : largest (usableEnds twoBanks) = 32 * 2 ^ 20 := by decide
  refine ⟨hret,hlast,?_⟩
  rintro ⟨ramSize,hright⟩
  have hsame := hright.returned 3 (by decide)
  rw [hret,Option.some_inj] at hsame
  have := hright.exact
  omega

/-- Fill n words. -/
def set32 (m : Store) (dst val : ℕ) : ℕ → Store
  | 0 => m
  | n + 1 => set32 (KernelHeap.setWord m dst val) (dst + 4) val n

/-- Bytes of a Bitmap object: number of bits, number of words, their address,
whether to delete them, number of ones. -/
def bitmapSize : ℕ := 20

/-- The constructor of a bitmap over a given buffer. -/
def newBitmap (m : Store) (this bitCount buffer : ℕ) (set : Bool) : Store :=
  let dwordCount := (bitCount + 31) % 2 ^ 32 / 32
  let m := KernelHeap.setWord m this bitCount
  let m := KernelHeap.setWord m (this + 4) dwordCount
  let m := KernelHeap.setWord m (this + 8) buffer
  let m := patch m (this + 12) [0]
  let m := KernelHeap.setWord m (this + 16) (if set then bitCount else 0)
  set32 m buffer (if set then 2 ^ 32 - 1 else 0) dwordCount

/-- The bitmap that an object stands for. -/
def bitmapAt (m : Store) (this : ℕ) : Bitmap where
  bitCount := word m 4 this
  bits := fun i =>
    if i < word m 4 (this + 4) then BitVec.ofNat 32 (word m 4 (word m 4 (this + 8) + 4 * i))
    else 0#32
  ones := word m 4 (this + 16)

/-- Bytes reserved for the words of the frame bitmap. -/
def bitmapStorage (ramSize : ℕ) : ℕ := KernelHeap.align (frameCount ramSize / 8) pageSize

/-- Move the top of the memory in use; the old top is the new memory. -/
def moveMemTop (memoryTop incr : ℕ) : ℕ × ℕ := (memoryTop,(memoryTop + incr) % 2 ^ 32)

/-- Reserve memory for the frame bitmap and set it up: the object, the top of
the memory in use, and memory. -/
def initializeBitmap (m : Store) (memoryTop ramSize : ℕ) : ℕ × ℕ × Store :=
  let pageBitmapBits := moveMemTop memoryTop (bitmapStorage ramSize)
  let pageBitmapStruct := moveMemTop pageBitmapBits.2 (KernelHeap.align bitmapSize pageSize)
  (pageBitmapStruct.1,pageBitmapStruct.2,
    newBitmap m pageBitmapStruct.1 (frameCount ramSize) pageBitmapBits.1 false)

/-- The storage holds what the constructor writes, and the object behind it is
the bitmap it was made to be, wherever there is memory for both. -/
structure StorageSuffices (ramSize : ℕ) : Prop where
  /-- As many bytes are reserved as are written. -/
  room : 4 * ((frameCount ramSize + 31) / 32) ≤ bitmapStorage ramSize
  /-- The object is a bitmap of clear bits, one for each frame. -/
  intact : ∀ (m : Store) (memoryTop : ℕ), memoryTop + 2 ^ 17 ≤ 2 ^ 32 →
    bitmapAt (initializeBitmap m memoryTop ramSize).2.2 (initializeBitmap m memoryTop ramSize).1 =
      Bitmap.new (frameCount ramSize) false

section

variable {m : Store} {ramSize memoryTop this buffer bitCount dst val : ℕ} {set : Bool}

/-- Filling words changes these words only. -/
theorem set32_out {a : ℕ} : ∀ {n : ℕ} {m : Store} {dst : ℕ}, a < dst ∨ dst + 4 * n ≤ a →
    set32 m dst val n a = m a := by
  intro n
  induction n with
  | zero =>
    intro m dst _
    rfl
  | succ n ih =>
    intro m dst h
    rw [set32,ih (by omega),KernelHeap.setWord]
    exact patch_out (by rw [leBytes_length]; omega)

/-- A word beside the filled ones is left alone. -/
theorem word_set32_out {n p : ℕ} (h : p + 4 ≤ dst ∨ dst + 4 * n ≤ p) :
    word (set32 m dst val n) 4 p = word m 4 p :=
  word_congr fun _ hi => set32_out (by omega)

/-- Every filled word has the value. -/
theorem word_set32 (hval : val < 2 ^ 32) : ∀ {n i : ℕ} {m : Store} {dst : ℕ}, i < n →
    word (set32 m dst val n) 4 (dst + 4 * i) = val := by
  intro n
  induction n with
  | zero =>
    intro i m dst hi
    exact absurd hi (Nat.not_lt_zero i)
  | succ n ih =>
    intro i m dst hi
    rw [set32]
    cases i with
    | zero =>
      rw [word_set32_out (by omega),Nat.mul_zero,Nat.add_zero]
      exact word_patch_same hval
    | succ i =>
      rw [show dst + 4 * (i + 1) = dst + 4 + 4 * i by omega]
      exact ih (by omega)

/-- A constructor that keeps to its buffer makes the bitmap it is called for. -/
theorem bitmapAt_newBitmap (hcount : bitCount < 2 ^ 32) (hbuffer : buffer < 2 ^ 32)
    (hroom : buffer + 4 * ((bitCount + 31) % 2 ^ 32 / 32) ≤ this) :
    bitmapAt (newBitmap m this bitCount buffer set) this = Bitmap.new bitCount set := by
  have hfit : (bitCount + 31) % 2 ^ 32 / 32 < 256 ^ 4 := by omega
  have hones : (if set then bitCount else 0) < 256 ^ 4 := by split <;> omega
  have hfill : (if set then 2 ^ 32 - 1 else 0) < 2 ^ 32 := by split <;> decide
  have h0 : word (newBitmap m this bitCount buffer set) 4 this = bitCount := by
    rw [newBitmap,word_set32_out (by omega),KernelHeap.setWord,
      word_patch_disjoint (by omega),word_patch_disjoint (by omega),KernelHeap.setWord,
      word_patch_disjoint (by omega),KernelHeap.setWord,word_patch_disjoint (by omega),
      KernelHeap.setWord,word_patch_same (by omega)]
  have h4 : word (newBitmap m this bitCount buffer set) 4 (this + 4) =
      (bitCount + 31) % 2 ^ 32 / 32 := by
    rw [newBitmap,word_set32_out (by omega),KernelHeap.setWord,
      word_patch_disjoint (by omega),word_patch_disjoint (by omega),KernelHeap.setWord,
      word_patch_disjoint (by omega),KernelHeap.setWord,word_patch_same hfit]
  have h8 : word (newBitmap m this bitCount buffer set) 4 (this + 8) = buffer := by
    rw [newBitmap,word_set32_out (by omega),KernelHeap.setWord,
      word_patch_disjoint (by omega),word_patch_disjoint (by omega),KernelHeap.setWord,
      word_patch_same (by omega)]
  have h16 : word (newBitmap m this bitCount buffer set) 4 (this + 16) =
      if set then bitCount else 0 := by
    rw [newBitmap,word_set32_out (by omega),KernelHeap.setWord,word_patch_same hones]
  rw [bitmapAt,Bitmap.new,h0,h4,h8,h16]
  congr 1
  funext i
  by_cases hi : i < (bitCount + 31) % 2 ^ 32 / 32
  · rw [if_pos hi,if_pos hi,newBitmap,word_set32 hfill hi]
    cases set <;> rfl
  · rw [if_neg hi,if_neg hi]

/-- Storage for the frames of any memory is small. -/
theorem bitmapStorage_eq (ramSize : ℕ) :
    bitmapStorage ramSize = 4096 * ((frameCount ramSize / 8 + 4095) / 4096) ∧
    frameCount ramSize ≤ 786432 := by
  have hmin : min (3 * 2 ^ 30) ramSize ≤ 3 * 2 ^ 30 := min_le_left _ _
  have hcount : frameCount ramSize ≤ 786432 := by
    rw [frameCount,pageSize]
    omega
  refine ⟨?_,hcount⟩
  rw [bitmapStorage,KernelHeap.align,pageSize]
  omega

/-- Where the object is, and behind what. -/
theorem initializeBitmap_fst (h : memoryTop + 2 ^ 17 ≤ 2 ^ 32) :
    (initializeBitmap m memoryTop ramSize).1 = memoryTop + bitmapStorage ramSize := by
  obtain ⟨hstorage,hcount⟩ := bitmapStorage_eq ramSize
  exact Nat.mod_eq_of_lt (by omega)

/-- The storage of the frame bitmap suffices except for one to seven frames
above a multiple of 32768. -/
theorem storageSuffices_iff (ramSize : ℕ) : StorageSuffices ramSize ↔
    frameCount ramSize % 32768 = 0 ∨ 8 ≤ frameCount ramSize % 32768 := by
  obtain ⟨hstorage,hcount⟩ := bitmapStorage_eq ramSize
  constructor
  · intro h
    have := h.room
    omega
  · intro h
    have hroom : 4 * ((frameCount ramSize + 31) / 32) ≤ bitmapStorage ramSize := by omega
    refine ⟨hroom,?_⟩
    intro m memoryTop htop
    have hthis := @initializeBitmap_fst m ramSize memoryTop htop
    rw [hthis,initializeBitmap]
    show bitmapAt (newBitmap m (moveMemTop memoryTop (bitmapStorage ramSize)).2 _ _ _) _ = _
    rw [show (moveMemTop memoryTop (bitmapStorage ramSize)).2 = memoryTop + bitmapStorage ramSize
      from hthis]
    exact bitmapAt_newBitmap (by omega) (by rw [moveMemTop]; omega) (by rw [moveMemTop]; omega)

/-- Where it does not suffice, the object is left without a bit. -/
theorem bitmapAt_overwritten (h : memoryTop + 2 ^ 17 ≤ 2 ^ 32)
    (hshort : ¬StorageSuffices ramSize) :
    (bitmapAt (initializeBitmap m memoryTop ramSize).2.2
      (initializeBitmap m memoryTop ramSize).1).bitCount = 0 := by
  obtain ⟨hstorage,hcount⟩ := bitmapStorage_eq ramSize
  rw [storageSuffices_iff] at hshort
  rw [initializeBitmap_fst h]
  have hwords : (frameCount ramSize + 31) % 2 ^ 32 / 32 = bitmapStorage ramSize / 4 + 1 := by omega
  have hlast := @word_set32 0 (by decide) (bitmapStorage ramSize / 4 + 1) (bitmapStorage ramSize / 4)
  rw [show 4 * (bitmapStorage ramSize / 4) = bitmapStorage ramSize by omega] at hlast
  rw [bitmapAt,initializeBitmap,newBitmap,hwords]
  exact hlast (Nat.lt_succ_self _)

end

/-- With 128 megabytes and one more page the object of the frame bitmap is
overwritten. -/
theorem bitmap_overwritten : frameCount (2 ^ 27 + 4096) = 32769 ∧
    bitmapStorage (2 ^ 27 + 4096) = 4096 ∧ 4 * ((32769 + 31) / 32) = 4100 ∧
    ¬StorageSuffices (2 ^ 27 + 4096) ∧
    ∀ (m : Store) (memoryTop : ℕ), memoryTop + 2 ^ 17 ≤ 2 ^ 32 →
      (bitmapAt (initializeBitmap m memoryTop (2 ^ 27 + 4096)).2.2
        (initializeBitmap m memoryTop (2 ^ 27 + 4096)).1).bitCount = 0 := by
  have hcount : frameCount (2 ^ 27 + 4096) = 32769 := by decide
  have hstorage : bitmapStorage (2 ^ 27 + 4096) = 4096 := by decide
  have hshort : ¬StorageSuffices (2 ^ 27 + 4096) := by
    intro h
    have := h.room
    rw [hcount,hstorage] at this
    omega
  exact ⟨hcount,hstorage,by decide,hshort,fun m memoryTop h => bitmapAt_overwritten h hshort⟩

end WootOs.BootMemory
