import WootOs.Ext2Allocation

/-!
# Histories of allocating and freeing

A history is a list of calls. What the counters say about the bitmaps, which
blocks are handed out and which inode bits are set is followed through every
state of a history, from any consistent file system.
-/

namespace WootOs.Ext2AllocationRuns

open ByteStore BitmapStore MachineInt Ext2Driver Ext2Groups Ext2Allocation

/-- Counters and bitmaps agree: in every group, in the superblock, and in every
copy of the descriptor table. -/
structure Agrees (K : BitmapKind) (G : ℕ) (fs : Ext2) : Prop where
  /-- A group's counter is the number of clear bits of its bitmap. -/
  counted : ∀ g < G, K.freeCount (fs.bgdt g) =
    clearCount fs.volume.data (bitmapAt K fs g) (bits K fs)
  /-- The superblock's counter is the sum over the groups. -/
  total : K.total fs.superBlock = freeSum K G fs
  /-- Every copy has the counters of the table in memory. -/
  copies : ∀ i < G, fs.hasSuperBlock i = true → ∀ g < G,
    word fs.volume.data 2 (tableAt fs i + descriptorSize * g + K.fieldOffset) =
      K.freeCount (fs.bgdt g)

/-- A consistent file system: counted groups and the right total. -/
structure Consistent (K : BitmapKind) (G : ℕ) (fs : Ext2) : Prop extends Counted K G fs where
  /-- The superblock's counter. -/
  total : K.total fs.superBlock = freeSum K G fs

theorem Consistent.agrees {K : BitmapKind} {G : ℕ} {fs : Ext2} (h : Consistent K G fs) :
    Agrees K G fs :=
  ⟨h.counted,h.total,h.copies⟩

/-- A call of the block allocator. -/
inductive BlockOp where
  /-- Allocate, in the given group if possible. -/
  | alloc (preferred : ℕ)
  /-- Free a block. -/
  | free (block : ℕ)

/-- The file system after a call. -/
def applyOp (fs : Ext2) : BlockOp → Ext2
  | .alloc preferred => (fs.allocBlock preferred).2.2
  | .free block => (fs.freeBlock block).2

/-- A call with arguments that callers pass: an existing group or none, and a
block of an existing group. -/
def BlockOp.Valid (G : ℕ) (fs : Ext2) : BlockOp → Prop
  | .alloc preferred => Preferable fs preferred
  | .free block => block = 0 ∨ groupOf fs block < G

/-- In every state of the history counters and bitmaps agree, and freeing a
block in use reports success. -/
def AgreesThroughout (G : ℕ) : Ext2 → List BlockOp → Prop
  | fs,[] => Agrees blockKind G fs
  | fs,op :: ops => Agrees blockKind G fs ∧
    (∀ b, op = .free b → b ≠ 0 → InUse fs b → (fs.freeBlock b).1 = true) ∧
    AgreesThroughout G (applyOp fs op) ops

/-- No call of the history frees a block that is in use at that moment. -/
def FreesNoneInUse : Ext2 → List BlockOp → Prop
  | _,[] => True
  | fs,op :: ops => (∀ b, op = .free b → b ≠ 0 → ¬InUse fs b) ∧ FreesNoneInUse (applyOp fs op) ops

section

variable {G : ℕ} {fs fs' : Ext2}

/-- Valid arguments stay valid. -/
theorem BlockOp.Valid.of_frozen (h : frozen fs' = frozen fs) {op : BlockOp} (hv : op.Valid G fs) :
    op.Valid G fs' := by
  cases op with
  | alloc preferred =>
    have hcount : fs'.blockGroupCount = fs.blockGroupCount := frozen_eq (fun _ => rfl) h
    simpa only [BlockOp.Valid,Preferable,hcount] using hv
  | free b =>
    have hgroup : groupOf fs' b = groupOf fs b := frozen_eq (f := (groupOf · b)) (fun _ => rfl) h
    simpa only [BlockOp.Valid,hgroup] using hv

/-- Allocation keeps a consistent file system consistent. -/
theorem Consistent.alloc (h : Consistent blockKind G fs) {preferred : ℕ}
    (hp : Preferable fs preferred) :
    Consistent blockKind G (fs.allocBlock preferred).2.2 ∧
    frozen (fs.allocBlock preferred).2.2 = frozen fs := by
  rcases allocBlock_spec h.toCounted hp with ⟨-,hsame,-⟩ | ⟨b,g,fs',-,hrun,n,-,hflip,htotal,hsum⟩
  · rw [hsame]
    exact ⟨h,rfl⟩
  · rw [hrun]
    show Consistent blockKind G fs' ∧ frozen fs' = frozen fs
    have hlt := h.toCounted.freeSum_lt
    have htot := h.total
    refine ⟨⟨hflip.counted,?_⟩,hflip.frozen⟩
    rw [htotal]
    omega

/-- A call that frees nothing in use keeps a consistent file system consistent. -/
theorem Consistent.applyOp (h : Consistent blockKind G fs) {op : BlockOp} (hv : op.Valid G fs)
    (hnone : ∀ b, op = .free b → b ≠ 0 → ¬InUse fs b) :
    Consistent blockKind G (applyOp fs op) ∧ frozen (applyOp fs op) = frozen fs := by
  cases op with
  | alloc preferred => exact h.alloc hv
  | free b =>
    by_cases hb : b = 0
    · simp only [Ext2AllocationRuns.applyOp,Ext2.freeBlock,hb,if_true]
      exact ⟨h,trivial⟩
    · have hsame := freeBlock_unused h.toCounted hb (hv.resolve_left hb) (hnone b rfl hb)
      simp only [Ext2AllocationRuns.applyOp,hsame]
      exact ⟨h,trivial⟩

end

/-- Two groups of sixteen blocks of 1 KiB and eight inodes, the first five
blocks of each in use and all inodes of the first. -/
def sampleFs : Ext2 :=
  Ext2.new ⟨fun a => if a = 3072 ∨ a = 19456 then 0x1F else if a = 19457 then 0x80
      else if a = 4096 then 0xFF else if a = 2060 ∨ a = 18444 then 11
      else if a = 2092 ∨ a = 18476 then 10 else if a = 2094 ∨ a = 18478 then 8 else 0,
    fun _ n => n⟩
    ⟨32,21,8,1,0,16,8,0,1,128,0⟩
    fun g => if g = 0 then ⟨3,4,5,11,0⟩ else if g = 1 then ⟨19,20,21,10,8⟩ else ⟨0,0,0,0,0⟩

/-- It is consistent, for blocks and for inodes. -/
theorem consistent_sampleFs {K : BitmapKind} (hK : K = blockKind ∨ K = inodeKind) :
    Consistent K 2 sampleFs := by
  rcases hK with rfl | rfl
  · exact ⟨⟨⟨fun _ _ => rfl,by decide,by decide,by decide,by decide,by decide,by decide,by decide,
      by decide,by decide,by decide⟩,by decide,by decide,by decide⟩,by decide⟩
  · exact ⟨⟨⟨fun _ _ => rfl,by decide,by decide,by decide,by decide,by decide,by decide,by decide,
      by decide,by decide,by decide⟩,by decide,by decide,by decide⟩,by decide⟩

/-- Block numbering of the superblock: the first block is 0 or 1, and no bit
past the last block is clear. -/
structure BlockGeometry (G : ℕ) (fs : Ext2) : Prop where
  /-- Where blocks start. -/
  first : fs.superBlock.sFirstDataBlock = 0 ∨ fs.superBlock.sFirstDataBlock = 1
  /-- The tail of the last bitmap is set. -/
  tail : ∀ g < G, ∀ n < fs.superBlock.sBlocksPerGroup, marked blockKind fs g n = false →
    fs.superBlock.sFirstDataBlock + g * fs.superBlock.sBlocksPerGroup + n < fs.superBlock.sBlocksCount

/-- What an allocated block b must satisfy: it exists, its own bit was clear
and is set, and no other bit changed. -/
def AllocRight (G : ℕ) (fs : Ext2) (preferred : ℕ) : Prop :=
  let b := (fs.allocBlock preferred).1
  let g := (b - fs.superBlock.sFirstDataBlock) / fs.superBlock.sBlocksPerGroup
  let n := (b - fs.superBlock.sFirstDataBlock) % fs.superBlock.sBlocksPerGroup
  b ≠ 0 → fs.superBlock.sFirstDataBlock ≤ b ∧ b < fs.superBlock.sBlocksCount ∧ g < G ∧
    marked blockKind fs g n = false ∧
    ∀ h < G, ∀ m < fs.superBlock.sBlocksPerGroup,
      marked blockKind (fs.allocBlock preferred).2.2 h m =
        if h = g ∧ m = n then true else marked blockKind fs h m

section

variable {G : ℕ} {fs fs' : Ext2}

/-- Dividing a number built from group and bit gives them back. -/
theorem group_bit {d g n : ℕ} (hn : n < d) : (g * d + n) / d = g ∧ (g * d + n) % d = n := by
  have hd : 0 < d := by omega
  constructor
  · rw [Nat.mul_comm,Nat.mul_add_div hd,Nat.div_eq_of_lt hn,Nat.add_zero]
  · rw [Nat.mul_comm,Nat.mul_add_mod,Nat.mod_eq_of_lt hn]

/-- A block number is right exactly when blocks start at one. -/
theorem allocRight_iff (C : Counted blockKind G fs) (geo : BlockGeometry G fs) {preferred : ℕ}
    (hp : Preferable fs preferred) (hne : (fs.allocBlock preferred).1 ≠ 0) :
    AllocRight G fs preferred ↔ fs.superBlock.sFirstDataBlock = 1 := by
  rcases allocBlock_spec C hp with ⟨hzero,-,-⟩ | ⟨b,g,fs',hb,hrun,n,hnum,hflip,-,-⟩
  · exact absurd hzero hne
  · have hn : n < fs.superBlock.sBlocksPerGroup := hflip.bit
    simp only [AllocRight,hrun]
    constructor
    · intro hall
      obtain ⟨-,-,-,-,hbits⟩ := hall hb
      by_contra hfirst
      have hzero : fs.superBlock.sFirstDataBlock = 0 := geo.first.resolve_right hfirst
      -- the bit that changed is the one of the block before
      have hafter := hflip.after g hflip.group n hflip.bit
      rw [if_pos ⟨rfl,rfl⟩,hbits g hflip.group n hn,hflip.before,hzero] at hafter
      split at hafter
      · next hsame =>
        have hdm := Nat.div_add_mod (b - 0) fs.superBlock.sBlocksPerGroup
        rw [←hsame.1,←hsame.2,Nat.mul_comm] at hdm
        omega
      · cases hafter
    · intro hfirst _
      have hsub : b - 1 = g * fs.superBlock.sBlocksPerGroup + n := by omega
      obtain ⟨hdiv,hmod⟩ := group_bit (g := g) hn
      rw [hfirst,hsub,hdiv,hmod]
      have hlast := geo.tail g hflip.group n hn hflip.before
      exact ⟨by omega,by omega,hflip.group,hflip.before,hflip.after⟩

/-- Group and bit determine a block. -/
theorem block_unique {b c : ℕ} (hb : b ≠ 0) (hc : c ≠ 0) (hg : groupOf fs b = groupOf fs c)
    (hn : bitOf fs b = bitOf fs c) : b = c := by
  have h1 := Nat.div_add_mod (b - 1) fs.superBlock.sBlocksPerGroup
  have h2 := Nat.div_add_mod (c - 1) fs.superBlock.sBlocksPerGroup
  rw [groupOf,groupOf] at hg
  rw [bitOf,bitOf] at hn
  rw [hg,hn] at h1
  omega

end

/-- The blocks a history holds after one more call. -/
def heldAfter (fs : Ext2) (held : List ℕ) : BlockOp → List ℕ
  | .alloc preferred =>
    if (fs.allocBlock preferred).1 = 0 then held else (fs.allocBlock preferred).1 :: held
  | .free block => held.erase block

/-- In every state of the history the blocks held are different and none is
reserved, and every allocation is right. -/
def HeldApart (G : ℕ) (reserved : ℕ → Prop) : Ext2 → List ℕ → List BlockOp → Prop
  | _,held,[] => held.Nodup ∧ ∀ b ∈ held, ¬reserved b
  | fs,held,op :: ops => (held.Nodup ∧ ∀ b ∈ held, ¬reserved b) ∧
    (∀ preferred, op = .alloc preferred → AllocRight G fs preferred) ∧
    HeldApart G reserved (applyOp fs op) (heldAfter fs held op) ops

/-- A call that frees no reserved block and no block past the last. -/
def BlockOp.Spares (G : ℕ) (reserved : ℕ → Prop) (fs : Ext2) : BlockOp → Prop
  | .alloc preferred => Preferable fs preferred
  | .free block => block = 0 ∨
    (groupOf fs block < G ∧ block < fs.superBlock.sBlocksCount ∧ ¬reserved block)

/-- What a history keeps when blocks start at one: the blocks it holds and the
reserved ones are in use. -/
structure Held (G : ℕ) (reserved : ℕ → Prop) (fs : Ext2) (held : List ℕ) : Prop where
  /-- The groups are counted. -/
  counted : Counted blockKind G fs
  /-- Blocks start at one and the tail is set. -/
  geometry : BlockGeometry G fs
  /-- Blocks start at one. -/
  one : fs.superBlock.sFirstDataBlock = 1
  /-- Blocks held are different. -/
  nodup : held.Nodup
  /-- None of them is reserved. -/
  spared : ∀ b ∈ held, ¬reserved b
  /-- Blocks held or reserved are in use. -/
  used : ∀ b, b ∈ held ∨ reserved b → b ≠ 0 ∧ groupOf fs b < G ∧ InUse fs b

section

variable {G : ℕ} {fs fs' : Ext2} {reserved : ℕ → Prop} {held : List ℕ}

/-- Spared blocks stay spared. -/
theorem BlockOp.Spares.of_frozen (h : frozen fs' = frozen fs) {op : BlockOp}
    (hv : op.Spares G reserved fs) : op.Spares G reserved fs' := by
  cases op with
  | alloc preferred =>
    have hcount : fs'.blockGroupCount = fs.blockGroupCount := frozen_eq (fun _ => rfl) h
    simpa only [BlockOp.Spares,Preferable,hcount] using hv
  | free b =>
    have hgroup : groupOf fs' b = groupOf fs b := frozen_eq (f := (groupOf · b)) (fun _ => rfl) h
    have hlast : fs'.superBlock.sBlocksCount = fs.superBlock.sBlocksCount :=
      frozen_eq (f := fun x => x.superBlock.sBlocksCount) (fun _ => rfl) h
    simpa only [BlockOp.Spares,hgroup,hlast] using hv

/-- After one bit changed, in use means what it meant for every other block. -/
theorem inUse_flip {g n : ℕ} {v : Bool} (hf : Flip blockKind G fs g n v fs') {b : ℕ}
    (hG : groupOf fs b < G) :
    groupOf fs' b = groupOf fs b ∧
    (InUse fs' b ↔ if groupOf fs b = g ∧ bitOf fs b = n then v = true else InUse fs b) := by
  have hgroup : groupOf fs' b = groupOf fs b :=
    frozen_eq (f := (groupOf · b)) (fun _ => rfl) hf.frozen
  have hbit : bitOf fs' b = bitOf fs b := frozen_eq (f := (bitOf · b)) (fun _ => rfl) hf.frozen
  have hlt : bitOf fs b < bits blockKind fs :=
    Nat.mod_lt _ (Nat.lt_of_le_of_lt (Nat.zero_le n) hf.bit)
  refine ⟨hgroup,?_⟩
  rw [InUse,hgroup,hbit,hf.after _ hG _ hlt]
  split
  · rfl
  · rfl

/-- A flipped bit within the blocks keeps the numbering. -/
theorem BlockGeometry.flip (geo : BlockGeometry G fs) {g n : ℕ} {v : Bool}
    (hf : Flip blockKind G fs g n v fs') (hin : v = false →
      fs.superBlock.sFirstDataBlock + g * fs.superBlock.sBlocksPerGroup + n <
        fs.superBlock.sBlocksCount) : BlockGeometry G fs' := by
  have hfirst : fs'.superBlock.sFirstDataBlock = fs.superBlock.sFirstDataBlock :=
    frozen_eq (f := fun x => x.superBlock.sFirstDataBlock) (fun _ => rfl) hf.frozen
  have hbpg : fs'.superBlock.sBlocksPerGroup = fs.superBlock.sBlocksPerGroup :=
    frozen_eq (f := fun x => x.superBlock.sBlocksPerGroup) (fun _ => rfl) hf.frozen
  have hlast : fs'.superBlock.sBlocksCount = fs.superBlock.sBlocksCount :=
    frozen_eq (f := fun x => x.superBlock.sBlocksCount) (fun _ => rfl) hf.frozen
  refine ⟨by rw [hfirst]; exact geo.first,?_⟩
  rw [hfirst,hbpg,hlast]
  intro h hh m hm hclear
  rw [hf.after h hh m hm] at hclear
  split at hclear
  · next hsame =>
    rw [hsame.1,hsame.2]
    exact hin hclear
  · exact geo.tail h hh m hm hclear

/-- One call keeps what a history holds apart. -/
theorem Held.applyOp (h : Held G reserved fs held) {op : BlockOp}
    (hv : op.Spares G reserved fs) :
    Held G reserved (applyOp fs op) (heldAfter fs held op) ∧ frozen (applyOp fs op) = frozen fs := by
  cases op with
  | alloc preferred =>
    rcases allocBlock_spec h.counted hv with ⟨hzero,hsame,-⟩ | ⟨b,g,fs',hb,hrun,n,hnum,hflip,-,-⟩
    · simp only [Ext2AllocationRuns.applyOp,heldAfter,hzero,hsame,if_true]
      exact ⟨h,trivial⟩
    · simp only [Ext2AllocationRuns.applyOp,heldAfter,hrun,hb,if_false]
      have hn : n < fs.superBlock.sBlocksPerGroup := hflip.bit
      have hsub : b - 1 = g * fs.superBlock.sBlocksPerGroup + n := by omega
      obtain ⟨hdiv,hmod⟩ := group_bit (g := g) hn
      have hgroup : groupOf fs b = g := by rw [groupOf,hsub,hdiv]
      have hbit : bitOf fs b = n := by rw [bitOf,hsub,hmod]
      -- the new block was not in use, so it is neither held nor reserved
      have hfresh : ¬(b ∈ held ∨ reserved b) := by
        intro hold
        have hu := (h.used b hold).2.2
        rw [InUse,hgroup,hbit,hflip.before] at hu
        cases hu
      have hone : fs'.superBlock.sFirstDataBlock = fs.superBlock.sFirstDataBlock :=
        frozen_eq (f := fun x => x.superBlock.sFirstDataBlock) (fun _ => rfl) hflip.frozen
      refine ⟨⟨hflip.counted,h.geometry.flip hflip (fun hv => by cases hv),hone.trans h.one,
        List.nodup_cons.mpr ⟨fun hm => hfresh (.inl hm),h.nodup⟩,?_,?_⟩,hflip.frozen⟩
      · intro c hc
        rcases List.mem_cons.mp hc with rfl | hmem
        · exact fun hr => hfresh (.inr hr)
        · exact h.spared c hmem
      · intro c hc
        by_cases hcb : c = b
        · have hcG : groupOf fs c < G := by rw [hcb,hgroup]; exact hflip.group
          obtain ⟨hgc,huse⟩ := inUse_flip hflip hcG
          refine ⟨by rw [hcb]; exact hb,by rw [hgc]; exact hcG,huse.mpr ?_⟩
          rw [hcb,if_pos ⟨hgroup,hbit⟩]
        · have hold : c ∈ held ∨ reserved c := by
            rcases hc with hmem | hr
            · exact .inl ((List.mem_cons.mp hmem).resolve_left hcb)
            · exact .inr hr
          obtain ⟨hc0,hcG,hcu⟩ := h.used c hold
          obtain ⟨hgc,huse⟩ := inUse_flip hflip hcG
          refine ⟨hc0,by rw [hgc]; exact hcG,huse.mpr ?_⟩
          split
          · rfl
          · exact hcu
  | free b =>
    by_cases hb : b = 0
    · subst hb
      have hnot : 0 ∉ held := fun hm => (h.used 0 (.inl hm)).1 rfl
      simp only [Ext2AllocationRuns.applyOp,heldAfter,List.erase_of_not_mem hnot,Ext2.freeBlock,
        if_true]
      exact ⟨h,trivial⟩
    · obtain ⟨hG,hlast,hspare⟩ := hv.resolve_left hb
      by_cases hu : InUse fs b
      · obtain ⟨fs',hrun,hflip,-,-⟩ := freeBlock_used h.counted hb hG hu
        simp only [Ext2AllocationRuns.applyOp,heldAfter,hrun]
        have hone : fs'.superBlock.sFirstDataBlock = fs.superBlock.sFirstDataBlock :=
          frozen_eq (f := fun x => x.superBlock.sFirstDataBlock) (fun _ => rfl) hflip.frozen
        have hnum := Nat.div_add_mod (b - 1) fs.superBlock.sBlocksPerGroup
        rw [Nat.mul_comm] at hnum
        have hin : fs.superBlock.sFirstDataBlock +
            groupOf fs b * fs.superBlock.sBlocksPerGroup + bitOf fs b < fs.superBlock.sBlocksCount := by
          rw [groupOf,bitOf,h.one]
          omega
        refine ⟨⟨hflip.counted,h.geometry.flip hflip (fun _ => hin),hone.trans h.one,
          h.nodup.erase b,?_,?_⟩,hflip.frozen⟩
        · exact fun c hc => h.spared c (List.mem_of_mem_erase hc)
        · intro c hc
          have hcb : c ≠ b := by
            rintro rfl
            rcases hc with hmem | hr
            · exact h.nodup.not_mem_erase hmem
            · exact hspare hr
          obtain ⟨hc0,hcG,hcu⟩ := h.used c (hc.imp_left List.mem_of_mem_erase)
          obtain ⟨hgc,huse⟩ := inUse_flip hflip hcG
          refine ⟨hc0,by rw [hgc]; exact hcG,huse.mpr ?_⟩
          rw [if_neg fun e => hcb (block_unique hc0 hb e.1 e.2)]
          exact hcu
      · have hsame := freeBlock_unused h.counted hb hG hu
        have hnot : b ∉ held := fun hm => hu (h.used b (.inl hm)).2.2
        simp only [Ext2AllocationRuns.applyOp,heldAfter,List.erase_of_not_mem hnot,hsame]
        exact ⟨h,trivial⟩

/-- Histories of a file system whose blocks start at one hold blocks apart. -/
theorem heldApart_of_held (ops : List BlockOp) : ∀ {fs : Ext2} {held : List ℕ},
    Held G reserved fs held → (∀ op ∈ ops, op.Spares G reserved fs) →
    HeldApart G reserved fs held ops := by
  induction ops with
  | nil => intro fs held h _; exact ⟨h.nodup,h.spared⟩
  | cons op ops ih =>
    intro fs held h hv
    obtain ⟨hnext,hfz⟩ := h.applyOp (hv op (by simp))
    refine ⟨⟨h.nodup,h.spared⟩,?_,ih hnext fun o ho => (hv o (by simp [ho])).of_frozen hfz⟩
    rintro preferred rfl
    have hp : Preferable fs preferred := hv (.alloc preferred) (by simp)
    by_cases hne : (fs.allocBlock preferred).1 = 0
    · exact fun hne' => absurd hne hne'
    · exact (allocRight_iff h.counted h.geometry hp hne).mpr h.one

end

/-- Its last bitmap has a set tail. -/
theorem geometry_sampleFs : BlockGeometry 2 sampleFs := ⟨by decide,by decide⟩

/-- One group of sixteen blocks of 2 KiB, numbered from zero, the first five in
use. -/
def sampleZero : Ext2 :=
  Ext2.new ⟨fun a => if a = 4096 then 0x1F else if a = 2060 then 11 else 0,fun _ n => n⟩
    ⟨16,11,0,0,1,16,8,0,1,128,0⟩ fun g => if g = 0 then ⟨2,3,4,11,0⟩ else ⟨0,0,0,0,0⟩

/-- A call of the inode allocator. -/
inductive INodeOp where
  /-- Allocate an inode. -/
  | alloc
  /-- Free an inode. -/
  | free (ino : ℕ)

/-- The file system after a call. -/
def applyINodeOp (fs : Ext2) : INodeOp → Ext2
  | .alloc => fs.allocINode.2.2
  | .free ino => (fs.freeINode ino).2

/-- The inode bitmaps of two states differ in one bit, which is v afterwards. -/
def OneBit (G : ℕ) (fs fs' : Ext2) (g n : ℕ) (v : Bool) : Prop :=
  marked inodeKind fs g n = !v ∧ ∀ h < G, ∀ m < fs.superBlock.sInodesPerGroup,
    marked inodeKind fs' h m = if h = g ∧ m = n then v else marked inodeKind fs h m

/-- An allocated inode is the one whose bit was clear and is set, and its
number addresses the slot of that group and bit. -/
def INodeAllocRight (G : ℕ) (fs : Ext2) : Prop :=
  fs.allocINode.1 ≠ 0 → ∃ g < G, ∃ n < fs.superBlock.sInodesPerGroup,
    fs.allocINode.1 = 1 + g * fs.superBlock.sInodesPerGroup + n ∧ fs.allocINode.2.1 = some g ∧
    OneBit G fs fs.allocINode.2.2 g n true ∧
    fs.getINodeOffset fs.allocINode.1 =
      (fs.bgdt g).bgInodeTable * fs.blockSize + fs.superBlock.sInodeSize * n

/-- Freeing an allocated inode clears exactly its bit. -/
def INodeFreeRight (G : ℕ) (fs : Ext2) (ino : ℕ) : Prop :=
  marked inodeKind fs ((ino - 1) / fs.superBlock.sInodesPerGroup)
    ((ino - 1) % fs.superBlock.sInodesPerGroup) = true →
  (fs.freeINode ino).1 = true ∧
  OneBit G fs (fs.freeINode ino).2 ((ino - 1) / fs.superBlock.sInodesPerGroup)
    ((ino - 1) % fs.superBlock.sInodesPerGroup) false

/-- What a call should do. -/
def INodeOp.Right (G : ℕ) (fs : Ext2) : INodeOp → Prop
  | .alloc => INodeAllocRight G fs
  | .free ino => INodeFreeRight G fs ino

/-- In every state of the history counters and bitmaps agree, and every call
does what it should. -/
def INodesRight (G : ℕ) : Ext2 → List INodeOp → Prop
  | fs,[] => Agrees inodeKind G fs
  | fs,op :: ops =>
    Agrees inodeKind G fs ∧ op.Right G fs ∧ INodesRight G (applyINodeOp fs op) ops

/-- A call that frees an existing inode, in the place that the driver finds. -/
def INodeOp.InPlace (G : ℕ) (fs : Ext2) : INodeOp → Prop
  | .alloc => True
  | .free ino => ino ≠ 0 ∧ (ino - 1) / fs.superBlock.sInodesPerGroup < G ∧ SamePlace fs ino

/-- The fields that locate an inode have the width of the source's types. -/
structure INodeFields (G : ℕ) (fs : Ext2) : Prop where
  /-- Table positions are 32-bit block numbers. -/
  table : ∀ g < G, (fs.bgdt g).bgInodeTable < 2 ^ 32
  /-- Inode sizes are 16-bit. -/
  size : fs.superBlock.sInodeSize < 2 ^ 16
  /-- Block sizes are 32-bit. -/
  block : fs.blockSize < 2 ^ 32
  /-- Groups are not empty. -/
  blocks : 0 < fs.superBlock.sBlocksPerGroup

section

variable {G : ℕ} {fs fs' : Ext2}

/-- A flipped inode bit is one changed bit. -/
theorem oneBit_of_flip {g n : ℕ} {v : Bool} (h : Flip inodeKind G fs g n v fs') :
    OneBit G fs fs' g n v :=
  ⟨h.before,h.after⟩

/-- The place of an inode from its group and bit. -/
theorem getINodeOffset_number (hf : INodeFields G fs) {g n : ℕ} (hg : g < G)
    (hn : n < fs.superBlock.sInodesPerGroup) (hnum : G * fs.superBlock.sInodesPerGroup < 2 ^ 32)
    (hipg : fs.superBlock.sInodesPerGroup < 2 ^ 16) :
    fs.getINodeOffset (1 + g * fs.superBlock.sInodesPerGroup + n : ℕ) =
      (fs.bgdt g).bgInodeTable * fs.blockSize + fs.superBlock.sInodeSize * n := by
  have hlt : g * fs.superBlock.sInodesPerGroup + n < G * fs.superBlock.sInodesPerGroup :=
    number_lt (K := inodeKind) hg hn
  have hsub : ((1 + g * fs.superBlock.sInodesPerGroup + n : ℕ) : ℤ) - 1 =
      ((g * fs.superBlock.sInodesPerGroup + n : ℕ) : ℤ) := by push_cast; ring
  obtain ⟨hdiv,hmod⟩ := group_bit (g := g) hn
  have hgle : g ≤ g * fs.superBlock.sInodesPerGroup := Nat.le_mul_of_pos_right g (by omega)
  have hbg : unsigned 32 (((g * fs.superBlock.sInodesPerGroup + n : ℕ) : ℤ).tdiv
      (fs.superBlock.sInodesPerGroup : ℤ)) = g := by
    rw [←Int.ofNat_tdiv,hdiv]
    exact unsigned_natCast (by omega)
  have hidx : unsigned 64 (((g * fs.superBlock.sInodesPerGroup + n : ℕ) : ℤ).tmod
      (fs.superBlock.sInodesPerGroup : ℤ)) = n := by
    rw [←Int.ofNat_tmod,hmod]
    exact unsigned_natCast (by omega)
  have htable := hf.table g hg
  have hsize := hf.size
  have hbs := hf.block
  have hp1 : (fs.bgdt g).bgInodeTable * fs.blockSize ≤ (2 ^ 32 - 1) * (2 ^ 32 - 1) :=
    Nat.mul_le_mul (by omega) (by omega)
  have hp2 : fs.superBlock.sInodeSize * n ≤ (2 ^ 16 - 1) * (2 ^ 16 - 1) :=
    Nat.mul_le_mul (by omega) (by omega)
  simp only [Ext2.getINodeOffset,hsub,hbg,hidx]
  exact Nat.mod_eq_of_lt (by omega)

/-- Fields keep their widths. -/
theorem INodeFields.of_frozen (h : frozen fs' = frozen fs) (hf : INodeFields G fs) :
    INodeFields G fs' := by
  have htable : ∀ g, (fs'.bgdt g).bgInodeTable = (fs.bgdt g).bgInodeTable :=
    fun g => frozen_eq (f := fun x => (x.bgdt g).bgInodeTable) (fun _ => rfl) h
  have hsize : fs'.superBlock.sInodeSize = fs.superBlock.sInodeSize :=
    frozen_eq (f := fun x => x.superBlock.sInodeSize) (fun _ => rfl) h
  have hblocks : fs'.superBlock.sBlocksPerGroup = fs.superBlock.sBlocksPerGroup :=
    frozen_eq (f := fun x => x.superBlock.sBlocksPerGroup) (fun _ => rfl) h
  have hblock : fs'.blockSize = fs.blockSize := frozen_eq (fun _ => rfl) h
  exact ⟨fun g hg => by rw [htable]; exact hf.table g hg,by rw [hsize]; exact hf.size,
    by rw [hblock]; exact hf.block,by rw [hblocks]; exact hf.blocks⟩

/-- Calls in place stay in place. -/
theorem INodeOp.InPlace.of_frozen (h : frozen fs' = frozen fs) {op : INodeOp}
    (hv : op.InPlace G fs) : op.InPlace G fs' := by
  have hipg : fs'.superBlock.sInodesPerGroup = fs.superBlock.sInodesPerGroup :=
    frozen_eq (f := fun x => x.superBlock.sInodesPerGroup) (fun _ => rfl) h
  have hbpg : fs'.superBlock.sBlocksPerGroup = fs.superBlock.sBlocksPerGroup :=
    frozen_eq (f := fun x => x.superBlock.sBlocksPerGroup) (fun _ => rfl) h
  cases op with
  | alloc => trivial
  | free ino => simpa only [INodeOp.InPlace,SamePlace,hipg,hbpg] using hv

/-- Allocating an inode is right and keeps the file system consistent. -/
theorem Consistent.allocINode (h : Consistent inodeKind G fs) (hf : INodeFields G fs) :
    INodeAllocRight G fs ∧ Consistent inodeKind G fs.allocINode.2.2 ∧
    frozen fs.allocINode.2.2 = frozen fs := by
  rcases allocINode_spec h.toCounted with ⟨hrun,-⟩ | ⟨ino,g,fs',hino,hrun,n,hnum,hflip,htotal,hsum⟩
  · rw [INodeAllocRight,hrun]
    exact ⟨fun hne => absurd rfl hne,h,rfl⟩
  · have hsumlt := h.toCounted.freeSum_lt
    have htot := h.total
    rw [INodeAllocRight,hrun]
    refine ⟨?_,⟨hflip.counted,?_⟩,hflip.frozen⟩
    · intro _
      refine ⟨g,hflip.group,n,hflip.bit,hnum,rfl,oneBit_of_flip hflip,?_⟩
      show fs.getINodeOffset ino = _
      rw [hnum]
      exact getINodeOffset_number hf hflip.group hflip.bit h.layout.numbers h.layout.counter
    · show inodeKind.total fs'.superBlock = freeSum inodeKind G fs'
      rw [htotal]
      omega

/-- Freeing an inode in its place is right and keeps the file system
consistent. -/
theorem Consistent.freeINode (h : Consistent inodeKind G fs) (hf : INodeFields G fs) {ino : ℕ}
    (hv : INodeOp.InPlace G fs (.free ino)) :
    INodeFreeRight G fs ino ∧ Consistent inodeKind G (fs.freeINode ino).2 ∧
    frozen (fs.freeINode ino).2 = frozen fs := by
  obtain ⟨hino,hG,hplace⟩ := hv
  rcases freeINode_spec h.toCounted hino hf.blocks hG hplace with
    ⟨hclear,hrun⟩ | ⟨fs',hrun,hflip,htotal,hsum⟩
  · rw [INodeFreeRight,hrun,hclear]
    exact ⟨fun hset => absurd hset (by decide),h,rfl⟩
  · have htot := h.total
    have hlt' := hflip.counted.freeSum_lt
    rw [INodeFreeRight,hrun]
    refine ⟨fun _ => ⟨rfl,oneBit_of_flip hflip⟩,⟨hflip.counted,?_⟩,hflip.frozen⟩
    show inodeKind.total fs'.superBlock = freeSum inodeKind G fs'
    rw [htotal]
    omega

/-- One call in place does what it should and keeps the file system
consistent. -/
theorem Consistent.applyINodeOp (h : Consistent inodeKind G fs) (hf : INodeFields G fs)
    {op : INodeOp} (hv : op.InPlace G fs) :
    op.Right G fs ∧ Consistent inodeKind G (applyINodeOp fs op) ∧
    frozen (applyINodeOp fs op) = frozen fs := by
  cases op with
  | alloc =>
    rw [INodeOp.Right,Ext2AllocationRuns.applyINodeOp]
    exact h.allocINode hf
  | free ino =>
    rw [INodeOp.Right,Ext2AllocationRuns.applyINodeOp]
    exact h.freeINode hf hv

end

end WootOs.Ext2AllocationRuns
