import WootOs.KernelHeapRuns

/-!
# Resizing a block

A block that has to grow beyond its place is copied into the first gap that is
large enough, and the old one is freed. Both happen before anyone asks whether
there was a gap: without one the old block is gone as well. A block that stays
is not looked at for the alignment when it does not grow.
-/

namespace WootOs.KernelHeap

open ByteStore KernelMemory MachineInt

/-- A heap in order where the kernel has it: above its own base and below its
modules. -/
structure Placed (h : Heap) : Prop where
  /-- The blocks are in order. -/
  wellFormed : WellFormed h
  /-- It starts in the kernel's part of the address space. -/
  above : 0xC0000000 ≤ h.heapStart
  /-- It ends before the modules. -/
  below : h.heapEnd ≤ 0xC8000000
  /-- There is a least alignment. -/
  aligned : 0 < h.defaultAlignment

/-- A live block with n bytes, which end before the next block. -/
structure Holds (h : Heap) (ptr n : ℕ) : Prop where
  /-- It is in the list. -/
  live : Live h ptr
  /-- Its size is the wanted one. -/
  size : size h.mem (ptr - headerSize) = n
  /-- So much room it has. -/
  room : ptr + n ≤ next h.mem (ptr - headerSize)

/-- A block has its new size at the given place. -/
structure Resized (h h' : Heap) (ptr res sz alignment : ℕ) (zeroed : Bool) : Prop where
  /-- It is live with the new size. -/
  block : Holds h' res sz
  /-- It is aligned. -/
  aligned : max alignment h.defaultAlignment ∣ res
  /-- It starts with the old contents. -/
  contents : ∀ i < min (size h.mem (ptr - headerSize)) sz, h'.mem (res + i) = h.mem (ptr + i)
  /-- What it has grown by is zero if wanted. -/
  cleared : zeroed = true → ∀ i, size h.mem (ptr - headerSize) ≤ i → i < sz → h'.mem (res + i) = 0

/-- What a resize should do: the block has its new size, or the result is null
and the block is what it was; all others are kept. -/
def ResizeRight (h : Heap) (ptr sz alignment : ℕ) (zeroed : Bool) (fresh : Store) : Prop :=
  let r := h.resize ptr sz alignment zeroed fresh
  (Resized h r.2 ptr r.1 sz alignment zeroed ∨ (r.1 = 0 ∧ Kept h r.2 ptr)) ∧
  KeepsOthers h r.2 (some ptr)

/-- A block that must move finds a gap before any address wraps; one that stays
is aligned already. -/
structure Resizable (h : Heap) (ptr sz alignment : ℕ) : Prop where
  /-- No address wraps on the way to a gap. -/
  moves : MustMove h ptr sz alignment → NoWrap h.mem sz (h.alignmentOf alignment) h.blocks ∧
    HasGap h.mem sz (h.alignmentOf alignment) h.blocks
  /-- The block is aligned where it is. -/
  stays : ¬MustMove h ptr sz alignment → h.alignmentOf alignment ∣ ptr

section

variable {h : Heap} {l l₁ l₂ : List ℕ} {m : Store} {cur nxt blk ptr sz alignment : ℕ}
  {zeroed : Bool} {fresh : Store}

theorem alignmentOf_eq (h : Heap) (alignment : ℕ) :
    h.alignmentOf alignment = max alignment h.defaultAlignment := by
  rw [Heap.alignmentOf]
  split <;> omega

/-- The walk meets every block once. -/
theorem Linked.nodup (hl : Linked h l) : l.Nodup :=
  (chain_pairwise hl.chain).imp fun {a b} hab => by rw [headerSize] at hab; omega

/-- A live block ends before the next one. -/
theorem Linked.holds (hl : Linked h l) (hlive : Live h ptr) :
    Holds h ptr (size h.mem (ptr - headerSize)) := by
  refine ⟨hlive,rfl,?_⟩
  obtain ⟨blk,hb,hfirst,hlast,rfl⟩ := hlive
  rw [hl.blocks_eq] at hb
  obtain ⟨l₁,nxt,l₂,rfl⟩ := hl.successor hb hlast
  obtain ⟨-,hpair,-⟩ := chain_split hl.chain
  rw [Nat.add_sub_cancel,hpair.forward]
  exact hpair.below

/-- A live block lies inside the heap. -/
theorem Linked.live_inside (hl : Linked h l) (hlive : Live h ptr) :
    h.heapStart + headerSize ≤ ptr ∧ ptr + size h.mem (ptr - headerSize) ≤ h.heapEnd := by
  obtain ⟨blk,hb,-,-,rfl⟩ := hlive
  rw [hl.blocks_eq] at hb
  have hstart := hl.start_le hb
  have hend := hl.end_le hb
  rw [Nat.add_sub_cancel]
  exact ⟨by omega,hend⟩

/-- A null pointer is not live. -/
theorem not_live_zero (h : Heap) : ¬Live h 0 := by
  rintro ⟨blk,-,-,-,he⟩
  rw [headerSize] at he
  omega

/-- A new block that was to be cleared is cleared. -/
theorem insertBlock_cleared {newBlk i : ℕ} (hi : i < sz) (hfit : newBlk + headerSize < 2 ^ 32) :
    Heap.insertBlock m cur newBlk sz true (newBlk + headerSize + i) = 0 := by
  simp only [Heap.insertBlock,if_true,Nat.mod_eq_of_lt hfit]
  exact zero_in (by omega) (by omega)

/-- The next place behind a later block is no lower. -/
theorem candidate_mono {a b : ℕ}
    (hle : a + headerSize + size m a ≤ b) : candidate m alignment a ≤ candidate m alignment b := by
  refine Nat.mul_le_mul_left _ (Nat.div_le_div_right ?_)
  omega

/-- If no rounding wraps, nothing wraps before a gap. -/
theorem noWrap_of_hasGap (hsmall : h.heapEnd + alignment ≤ 2 ^ 32) :
    ∀ {rest l₁ : List ℕ} {cur : ℕ}, Linked h (l₁ ++ cur :: rest) →
    HasGap h.mem sz alignment (cur :: rest) →
    NoWrap h.mem sz alignment (cur :: rest) ∧ candidate h.mem alignment cur + sz < 2 ^ 32 := by
  have hH : headerSize = 16 := rfl
  intro rest
  induction rest with
  | nil =>
    intro l₁ cur _ hgap
    exact absurd hgap id
  | cons nxt rest ih =>
    intro l₁ cur hl hgap
    obtain ⟨-,hpair,-⟩ := chain_split hl.chain
    have hbelow := hpair.below
    have hend := hl.end_le (a := nxt) (by simp)
    have hheap := hl.small
    have hround : cur + headerSize + size h.mem cur + headerSize + (alignment - 1) < 2 ^ 32 := by
      omega
    rcases hgap with hfit | hlater
    · have hw : candidate h.mem alignment cur + sz < 2 ^ 32 := by omega
      exact ⟨⟨hround,hw,.inl hfit⟩,hw⟩
    · obtain ⟨hrest,hw⟩ := @ih (l₁ ++ [cur]) nxt (by simpa using hl) hlater
      have hmono : candidate h.mem alignment cur ≤ candidate h.mem alignment nxt :=
        candidate_mono hbelow
      have hw' : candidate h.mem alignment cur + sz < 2 ^ 32 := by omega
      exact ⟨⟨hround,hw',.inr hrest⟩,hw'⟩

/-- Without a gap the search finds nothing, or a place from which the block
would reach past all addresses. -/
theorem allocateFrom_without_gap (ha : 0 < alignment) (hsmall : h.heapEnd + alignment ≤ 2 ^ 32) :
    ∀ {rest l₁ : List ℕ} {cur fuel : ℕ}, Linked h (l₁ ++ cur :: rest) → rest.length < fuel →
    ¬HasGap h.mem sz alignment (cur :: rest) →
    h.allocateFrom sz alignment zeroed fuel cur = (0,h) ∨
      2 ^ 32 ≤ (h.allocateFrom sz alignment zeroed fuel cur).1 + sz := by
  have hH : headerSize = 16 := rfl
  intro rest
  induction rest with
  | nil =>
    intro l₁ cur fuel hl hfuel _
    obtain ⟨fuel,rfl⟩ := Nat.exists_eq_succ_of_ne_zero (Nat.ne_of_gt hfuel)
    have hlast := hl.last
    rw [List.getLast?_append_cons,List.getLast?_singleton,Option.some.injEq] at hlast
    exact .inl (by rw [Heap.allocateFrom,if_pos hlast])
  | cons nxt rest ih =>
    intro l₁ cur fuel hl hfuel hgap
    obtain ⟨fuel,rfl⟩ :=
      Nat.exists_eq_succ_of_ne_zero (Nat.ne_of_gt (Nat.lt_of_le_of_lt (Nat.zero_le _) hfuel))
    obtain ⟨-,hpair,-⟩ := chain_split hl.chain
    have hbelow := hpair.below
    have hend := hl.end_le (a := nxt) (by simp)
    have hfinish := hl.finish
    have hne : cur ≠ h.lastBlock := by omega
    have hrest := @ih (l₁ ++ [cur]) nxt fuel (by simpa using hl) (by simpa using hfuel)
      fun hlater => hgap (.inr hlater)
    rw [Heap.allocateFrom,if_neg hne]
    simp only [@align_candidate _ h.mem ha cur (by omega),hpair.forward]
    by_cases htaken : candidate h.mem alignment cur ≤ nxt ∧
        (candidate h.mem alignment cur + sz) % 2 ^ 32 ≤ nxt
    · -- it is taken only because the end of the block wraps
      rw [if_pos htaken]
      by_cases hw : candidate h.mem alignment cur + sz < 2 ^ 32
      · rw [Nat.mod_eq_of_lt hw] at htaken
        exact absurd (Or.inl htaken.2) hgap
      · exact .inr (by omega)
    · rw [if_neg htaken]
      exact hrest

/-- A block that must move is copied and freed, wherever the copy went. -/
theorem resize_moves (hl : Linked h l) (hlive : Live h ptr) (hsz : sz ≠ 0)
    (hmove : MustMove h ptr sz alignment) :
    h.resize ptr sz alignment zeroed fresh =
      let r := h.allocate sz (h.alignmentOf alignment) zeroed
      (r.1,{ r.2 with mem := move r.2.mem r.1 ptr (size r.2.mem (ptr - headerSize)) }.free ptr
        fresh) := by
  have hne : ptr ≠ 0 := fun he => not_live_zero h (he ▸ hlive)
  have hcond : sz > size h.mem (ptr - headerSize) ∧
      (ptr % h.alignmentOf alignment ≠ 0 ∨ sz > h.getMaxSize ptr) := by
    rw [getMaxSize_lt hl hlive]
    exact hmove
  rw [Heap.resize,if_neg hne,if_neg hsz]
  exact if_pos hcond

/-- A block that stays gets its size where it is. -/
theorem resize_stays (hl : Linked h l) (hlive : Live h ptr) (hsz : sz ≠ 0)
    (hstay : ¬MustMove h ptr sz alignment) :
    h.resize ptr sz alignment zeroed fresh =
      let sizeDiff := signed 32 ((sz : ℤ) - size h.mem (ptr - headerSize))
      let m := if zeroed = true ∧ sizeDiff > 0 then
          zero h.mem (ptr + size h.mem (ptr - headerSize)) sizeDiff.toNat
        else h.mem
      (ptr,{ h with mem := setWord m (ptr - headerSize + 8) sz }) := by
  have hne : ptr ≠ 0 := fun he => not_live_zero h (he ▸ hlive)
  have hcond : ¬(sz > size h.mem (ptr - headerSize) ∧
      (ptr % h.alignmentOf alignment ≠ 0 ∨ sz > h.getMaxSize ptr)) := by
    rw [getMaxSize_lt hl hlive]
    exact hstay
  rw [Heap.resize,if_neg hne,if_neg hsz]
  exact if_neg hcond

/-- A block that stays has room for its new size. -/
theorem room_of_stays (hl : Linked h l) (hlive : Live h ptr)
    (hstay : ¬MustMove h ptr sz alignment) : ptr + sz ≤ next h.mem (ptr - headerSize) := by
  have hroom := (hl.holds hlive).room
  by_cases hgrow : size h.mem (ptr - headerSize) < sz
  · by_contra hbig
    exact hstay ⟨hgrow,.inr (by omega)⟩
  · omega

/-- The bytes of a block after it was given a size in its place. -/
theorem grown_bytes {old : ℕ} {diff : ℤ} (hdiff : diff = (sz : ℤ) - old) :
    let m' := setWord (if zeroed = true ∧ diff > 0 then
      zero m (blk + headerSize + old) diff.toNat else m) (blk + 8) sz
    (∀ i < min old sz, m' (blk + headerSize + i) = m (blk + headerSize + i)) ∧
    (zeroed = true → ∀ i, old ≤ i → i < sz → m' (blk + headerSize + i) = 0) ∧
    ∀ i < 4, m' (blk + i) = m (blk + i) := by
  have hH : headerSize = 16 := rfl
  refine ⟨?_,?_,?_⟩
  · intro i hi
    rw [setWord_out (by omega)]
    split
    · exact zero_out (by omega)
    · rfl
  · intro hz i hlow hhigh
    rw [setWord_out (by omega),if_pos ⟨hz,by omega⟩]
    exact zero_in (by omega) (by omega)
  · intro i hi
    rw [setWord_out (by omega)]
    split
    · exact zero_out (by omega)
    · rfl

/-- A block that stays and is aligned gets its new size there. -/
theorem resized_stays (hk : Placed h) (hlive : Live h ptr) (hsz : sz ≠ 0) (hsmall : sz < 2 ^ 32)
    (hstay : ¬MustMove h ptr sz alignment) (haligned : h.alignmentOf alignment ∣ ptr) :
    ResizeRight h ptr sz alignment zeroed fresh := by
  have hl := hk.wellFormed
  have hroom := room_of_stays hl hlive hstay
  have hinside := hl.live_inside hlive
  have habove := hk.above
  have hbelow := hk.below
  have hnext := word_lt h.mem 4 (ptr - headerSize)
  rw [ResizeRight,resize_stays hl hlive hsz hstay]
  obtain ⟨hl',hkeep⟩ := @grow_right h _ hl ptr sz zeroed hlive (.inr hroom) (fun _ => by omega)
  refine ⟨.inl ?_,hkeep⟩
  have hdiff : signed 32 ((sz : ℤ) - size h.mem (ptr - headerSize)) =
      (sz : ℤ) - size h.mem (ptr - headerSize) := by
    refine signed_of_range (w := 31) (by omega) ?_
    rw [next] at hroom
    omega
  obtain ⟨blk,hb,hfirst,hlast,rfl⟩ := hlive
  simp only [Nat.add_sub_cancel] at hl' hroom hdiff ⊢
  obtain ⟨hold,hnew,hlink⟩ := @grown_bytes h.mem blk sz zeroed (size h.mem blk) _ hdiff
  refine ⟨⟨⟨blk,?_,hfirst,hlast,rfl⟩,?_,?_⟩,by rwa [←alignmentOf_eq],?_,?_⟩
  · rw [hl'.blocks_eq]
    exact hb
  · rw [Nat.add_sub_cancel]
    exact word_setWord_same hsmall
  · rw [Nat.add_sub_cancel]
    refine hroom.trans (le_of_eq ?_)
    exact (word_congr hlink).symm
  · rw [Nat.add_sub_cancel]
    exact hold
  · rw [Nat.add_sub_cancel]
    exact hnew

/-- Where the kernel has its heap, a block can be freed. -/
theorem Placed.freeable (hk : Placed h) (hlive : Live h ptr) : Freeable ptr := by
  have hinside := Linked.live_inside hk.wellFormed hlive
  have hbelow := hk.below
  rw [Freeable,pageSize]
  omega

theorem Placed.alignment_pos (hk : Placed h) (alignment : ℕ) : 0 < h.alignmentOf alignment := by
  have hpos := hk.aligned
  rw [alignmentOf_eq]
  omega

/-- A block put into a gap is live, and none that was there before. -/
theorem live_new (hl : Linked h (l₁ ++ cur :: nxt :: l₂)) {h' : Heap} {c : ℕ}
    (hl' : Linked h' (l₁ ++ cur :: (c - headerSize) :: nxt :: l₂))
    (hfirst : h'.firstBlock = h.firstBlock) (hlast : h'.lastBlock = h.lastBlock)
    (hge : cur + headerSize + size h.mem cur + headerSize ≤ c) (hfit : c ≤ nxt)
    (hlive : Live h ptr) : Live h' c ∧ c ≠ ptr := by
  have hH : headerSize = 16 := rfl
  have hcur := hl.start_le (a := cur) (by simp)
  have hnxt := hl.end_le (a := nxt) (by simp)
  have hstart := hl.start
  have hfinish := hl.finish
  constructor
  · refine ⟨c - headerSize,by rw [hl'.blocks_eq]; simp,?_,?_,by omega⟩
    · rw [hfirst]
      omega
    · rw [hlast]
      omega
  · rintro rfl
    obtain ⟨blk,hb,-,-,he⟩ := hlive
    rw [hl.blocks_eq] at hb
    by_cases hsame : blk = cur
    · omega
    · rcases apart_from_gap (chain_pairwise hl.chain) hb hsame with h1 | h1 <;> omega

/-- A block that holds the copied bytes and is kept when the old one is freed. -/
theorem resized_of_kept {h₁ h₂ : Heap} {c : ℕ} (hl₂ : Linked h₂ l) (hkept : Kept h₁ h₂ c)
    (hsize : size h₁.mem (c - headerSize) = sz) (haligned : max alignment h.defaultAlignment ∣ c)
    (hcopied : ∀ i < size h.mem (ptr - headerSize), h₁.mem (c + i) = h.mem (ptr + i))
    (hcleared : zeroed = true → ∀ i, size h.mem (ptr - headerSize) ≤ i → i < sz →
      h₁.mem (c + i) = 0) : Resized h h₂ ptr c sz alignment zeroed := by
  have hbytes : ∀ i < sz, h₂.mem (c + i) = h₁.mem (c + i) :=
    fun i hi => hkept.contents (c + i) (by omega) (by omega)
  have hholds := hl₂.holds hkept.live
  rw [hkept.size,hsize] at hholds
  refine ⟨hholds,haligned,?_,?_⟩
  · intro i hi
    rw [hbytes i (by omega)]
    exact hcopied i (by omega)
  · intro hz i hlow hhigh
    rw [hbytes i hhigh]
    exact hcleared hz i hlow hhigh

/-- A block that must move and finds a gap is there afterwards. -/
theorem resized_moves (hk : Placed h) (hlive : Live h ptr) (hsz : sz ≠ 0)
    (hmove : MustMove h ptr sz alignment)
    (hwrap : NoWrap h.mem sz (h.alignmentOf alignment) h.blocks)
    (hgap : HasGap h.mem sz (h.alignmentOf alignment) h.blocks) :
    ResizeRight h ptr sz alignment zeroed fresh := by
  have hH : headerSize = 16 := rfl
  have hl : Linked h h.blocks := hk.wellFormed
  have hpos := hk.alignment_pos alignment
  have hfree := hk.freeable hlive
  rw [ResizeRight,resize_moves hl hlive hsz hmove]
  obtain ⟨rest,hrest,hlen,hrun⟩ := @allocate_eq h _ sz (h.alignmentOf alignment) zeroed hl hsz
  rw [alignmentOf_idem] at hrun
  rw [hrest] at hwrap hgap
  rcases @allocateFrom_spec h sz (h.alignmentOf alignment) zeroed hpos rest [] h.firstBlock
    h.heapEnd (hrest ▸ hl) hlen hwrap with ⟨-,hnone⟩ | ⟨l₁,cur,nxt,l₂,hsplit,hfit,hfound⟩
  · exact absurd hgap hnone
  rw [List.nil_append,←hrest] at hsplit
  simp only [hrun,hfound]
  obtain ⟨hge,-,hdvd⟩ := candidate_spec h.mem hpos cur
  generalize hc : candidate h.mem (h.alignmentOf alignment) cur = c at hge hdvd hfit
  rw [hsplit] at hl
  obtain ⟨hlinked,hsize,hkept⟩ := @Linked.insert h l₁ l₂ cur nxt hl (c - headerSize) sz zeroed
    (by omega) (by omega)
  generalize hm : Heap.insertBlock h.mem cur (c - headerSize) sz zeroed = m at hlinked hsize hkept
  have hkeep : KeepsOthers h { h with mem := m } none :=
    keepsOthers_of_blocks hl fun a ha hf hz _ => hkept a ha hf hz
  have hkp := hkeep ptr hlive (by simp)
  have hold : size m (ptr - headerSize) = size h.mem (ptr - headerSize) := hkp.size
  obtain ⟨hl₁,hkeep₁⟩ := @move_into_gap h l₁ l₂ cur nxt hl { h with mem := m } c sz
    (size m (ptr - headerSize)) ptr hlinked hge hfit (by rw [hold]; exact hmove.1.le) hkeep
  have hmoved : ∀ x, move m c ptr (size m (ptr - headerSize)) x =
      if c ≤ x ∧ x < c + size m (ptr - headerSize) then m (ptr + (x - c)) else m x :=
    move_eq m c ptr _
  dsimp only at hl₁ hkeep₁ ⊢
  generalize move m c ptr (size m (ptr - headerSize)) = m₁ at hl₁ hkeep₁ hmoved ⊢
  have hlive₁ := (hkeep₁ ptr hlive (by simp)).live
  obtain ⟨hnew,hne⟩ := live_new hl hl₁ rfl rfl hge (by omega) hlive
  obtain ⟨⟨l',hl₂⟩,hkeep₂⟩ := free_linked hl₁ hlive₁ hfree fresh
  refine ⟨.inl ?_,(hkeep₁.weaken _).trans hkeep₂⟩
  refine resized_of_kept hl₂ (hkeep₂ c hnew (by simpa using hne.symm)) ?_
    (by rwa [←alignmentOf_eq]) ?_ ?_
  · rw [←hsize]
    refine word_congr fun i hi => ?_
    dsimp only
    rw [hmoved,if_neg (by omega)]
  · intro i hi
    dsimp only
    rw [hmoved,if_pos (by omega),Nat.add_sub_cancel_left]
    exact hkp.contents _ (by omega) (by omega)
  · intro hz i hlow hhigh
    dsimp only
    rw [hmoved,if_neg (by omega),←hm,hz]
    have hcleared := @insertBlock_cleared h.mem cur sz (c - headerSize) i hhigh
      (by have := hl.end_le (a := nxt) (by simp); have := hl.small; omega)
    rwa [show c - headerSize + headerSize = c by omega] at hcleared

/-- Without a gap the block is gone, or the new one has no room. -/
theorem lost_without_gap (hk : Placed h) (hlive : Live h ptr) (hsz : sz ≠ 0) (hsmall : sz < 2 ^ 32)
    (hround : h.heapEnd + h.alignmentOf alignment ≤ 2 ^ 32) (hmove : MustMove h ptr sz alignment)
    (hgap : ¬HasGap h.mem sz (h.alignmentOf alignment) h.blocks) :
    ¬ResizeRight h ptr sz alignment zeroed fresh := by
  have hl : Linked h h.blocks := hk.wellFormed
  have hpos := hk.alignment_pos alignment
  rw [ResizeRight,resize_moves hl hlive hsz hmove]
  obtain ⟨rest,hrest,hlen,hrun⟩ := @allocate_eq h _ sz (h.alignmentOf alignment) zeroed hl hsz
  rw [alignmentOf_idem] at hrun
  rw [hrest] at hgap
  rintro ⟨hright,-⟩
  rcases @allocateFrom_without_gap h sz (h.alignmentOf alignment) zeroed hpos hround rest []
    h.firstBlock h.heapEnd (hrest ▸ hl) hlen hgap with hnone | hpast
  · -- the bytes went to address zero, and the block was freed
    rw [←hrun] at hnone
    simp only [hnone] at hright
    rcases hright with hres | ⟨-,hkept⟩
    · exact not_live_zero _ hres.block.live
    · have hinside := hl.live_inside hlive
      have habove := hk.above
      have hbelow := hk.below
      obtain ⟨hl₁,-⟩ := @move_below h _ hl ptr (size h.mem (ptr - headerSize)) (by omega)
      obtain ⟨blk,hb,hfirst,hlast,rfl⟩ := hlive
      have hfree := hk.freeable ⟨blk,hb,hfirst,hlast,rfl⟩
      rw [Freeable,Nat.add_sub_cancel] at hfree
      obtain ⟨hl₂,-⟩ := hl₁.free_live hb hfirst hlast hfree fresh
      obtain ⟨blk',hb',-,-,he⟩ := hkept.live
      rw [hl₂.blocks_eq,Nat.add_right_cancel he.symm] at hb'
      exact (List.Nodup.not_mem_erase hl.nodup) hb'
  · -- the new block would end past all addresses
    rw [←hrun] at hpast
    rcases hright with hres | ⟨hnull,-⟩
    · have hroom := hres.block.room
      have hword := word_lt (h.resize ptr sz alignment zeroed fresh).2.mem 4
        ((h.resize ptr sz alignment zeroed fresh).1 - headerSize)
      rw [resize_moves hl hlive hsz hmove] at hword
      rw [next] at hroom
      have := hpast.trans (hroom.trans hword.le)
      dsimp only at hpast hroom hword
      omega
    · dsimp only at hnull
      omega

end

/-- A resize does what it should exactly if a block that must move finds a gap
and one that stays is aligned; the alignments that wrap when the end of the
heap is rounded up are left aside in one direction. -/
theorem resize_right_iff {h : Heap} {ptr sz alignment : ℕ} {zeroed : Bool} {fresh : Store}
    (hk : Placed h) (hlive : Live h ptr) (hpos : 0 < sz) (hsmall : sz < 2 ^ 32) :
    (Resizable h ptr sz alignment → ResizeRight h ptr sz alignment zeroed fresh) ∧
    (h.heapEnd + h.alignmentOf alignment ≤ 2 ^ 32 →
      ResizeRight h ptr sz alignment zeroed fresh → Resizable h ptr sz alignment) := by
  have hsz : sz ≠ 0 := hpos.ne'
  have hl : Linked h h.blocks := hk.wellFormed
  constructor
  · intro hfits
    by_cases hmove : MustMove h ptr sz alignment
    · obtain ⟨hwrap,hgap⟩ := hfits.moves hmove
      exact resized_moves hk hlive hsz hmove hwrap hgap
    · exact resized_stays hk hlive hsz hsmall hmove (hfits.stays hmove)
  · intro hround hright
    refine ⟨?_,?_⟩
    · intro hmove
      have hgap : HasGap h.mem sz (h.alignmentOf alignment) h.blocks := by
        by_contra hnone
        exact lost_without_gap hk hlive hsz hsmall hround hmove hnone hright
      obtain ⟨rest,hrest,-,-⟩ := @allocate_eq h _ sz alignment zeroed hl hsz
      rw [hrest] at hgap hl ⊢
      exact ⟨(noWrap_of_hasGap hround (show Linked h ([] ++ _) from hl) hgap).1,hgap⟩
    · intro hstay
      rcases hright.1 with hres | ⟨hnull,-⟩
      · have haligned := hres.aligned
        rw [resize_stays hl hlive hsz hstay,←alignmentOf_eq] at haligned
        exact haligned
      · rw [resize_stays hl hlive hsz hstay] at hnull
        exact absurd (hnull ▸ hlive) (not_live_zero h)

/-- A heap of 400 bytes where the kernel has it. -/
def kernelHeap : Heap := Heap.initializeHeap (fun _ => 0) 0xC0100000 0xC0100190 4 0 0

/-- The same with one block of 100 bytes. -/
def kernelHeapUsed : Heap := (kernelHeap.allocate 100 4 false).2

theorem blocks_kernelHeapUsed :
    kernelHeapUsed.blocks = [0xC0100000,0xC0100010,0xC0100180] := by decide

theorem placed_kernelHeapUsed : Placed kernelHeapUsed := by
  refine ⟨?_,by decide,by decide,by decide⟩
  rw [WellFormed,blocks_kernelHeapUsed]
  refine ⟨?_,by decide,by decide,by decide,by decide,
    by decide,by decide,by decide,by decide⟩
  simp only [List.isChain_cons_cons,List.isChain_singleton,and_true]
  exact ⟨⟨by decide,by decide,by decide⟩,
    ⟨by decide,by decide,by decide⟩⟩

theorem live_kernelHeapUsed : Live kernelHeapUsed 0xC0100020 := by
  refine ⟨0xC0100010,?_,by decide,by decide,by decide⟩
  rw [blocks_kernelHeapUsed]
  decide

/-- The block grows to 200 bytes in its place. -/
theorem resize_right_in_place :
    ResizeRight kernelHeapUsed 0xC0100020 200 32 true fun _ => 7 := by
  refine (resize_right_iff placed_kernelHeapUsed live_kernelHeapUsed (by decide) (by decide)).1
    ⟨?_,?_⟩
  · rintro ⟨-,hmove | hmove⟩
    · exact absurd hmove (by decide)
    · exact absurd hmove (by decide)
  · intro _
    decide

/-- The block is to grow to 1000 bytes: there is no gap, the result is null,
and the block is gone. -/
theorem failed_resize_loses_block : Placed kernelHeapUsed ∧ Live kernelHeapUsed 0xC0100020 ∧
    ¬ResizeRight kernelHeapUsed 0xC0100020 1000 4 false fun _ => 0 := by
  refine ⟨placed_kernelHeapUsed,live_kernelHeapUsed,?_⟩
  refine lost_without_gap placed_kernelHeapUsed live_kernelHeapUsed (by decide) (by decide)
    (by decide) ⟨by decide,.inr (by decide)⟩ ?_
  rw [blocks_kernelHeapUsed]
  rintro (hfirst | hsecond | hnone)
  · exact absurd hfirst (by decide)
  · exact absurd hsecond (by decide)
  · exact hnone

end WootOs.KernelHeap
