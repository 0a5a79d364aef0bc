import WootOs.Ext2AllocationRuns
import WootOs.Ext2BlockMap
import Mathlib.Tactic.IntervalCases

/-!
# Entering a block in a file's map

Blocks that files hold are in use, and so is every block with a byte of a bitmap
or of a descriptor. A change of such a volume takes a free block, gives one back
or writes inside one; it is described by the blocks that it keeps. On top of that
EXT2::setINodeBlock is followed through the pointer tables of a file. The pointer
that it sets is the only one that changes, provided that the tables on the way do
not start with a null pointer afterwards: one that does is taken for empty.
-/

namespace WootOs.Ext2FileMaps

open ByteStore BitmapStore Ext2Driver Ext2Groups Ext2Allocation Ext2AllocationRuns Ext2BlockMap

/-- A block without a byte of a bitmap or of a copy of the descriptor table. -/
def Spare (G : ℕ) (fs : Ext2) (b : ℕ) : Prop :=
  (∀ g < G,Apart (fs.blockSize * b) fs.blockSize (bitmapAt blockKind fs g)
    (bits blockKind fs / 8)) ∧
  ∀ i < fs.blockGroupCount,fs.hasSuperBlock i = true →
    Apart (fs.blockSize * b) fs.blockSize (tableAt fs i) (descriptorSize * fs.blockGroupCount)

instance (G : ℕ) (fs : Ext2) (b : ℕ) : Decidable (Spare G fs b) :=
  inferInstanceAs (Decidable (_ ∧ _))

/-- A mounted file system that knows which of its blocks are in use. -/
structure Ready (k B G : ℕ) (fs : Ext2) : Prop where
  /-- Every access succeeds, and a table has B entries. -/
  mounted : Mounted k B fs
  /-- Bitmaps and counters agree. -/
  counted : Counted blockKind G fs
  /-- All blocks lie below 4 GiB. -/
  reach : (G * fs.superBlock.sBlocksPerGroup + 1) * fs.blockSize ≤ 2 ^ 32
  /-- The boot block starts with a null pointer. -/
  boot : entry fs.volume.data fs.blockSize 0 0 = 0
  /-- No bitmap is kept there. -/
  bitmaps : ∀ g < G,blockKind.bitmap (fs.bgdt g) ≠ 0
  /-- Blocks with bitmaps and descriptors are in use. -/
  fenced : ∀ b,b ≠ 0 → groupOf fs b < G → ¬InUse fs b → Spare G fs b

/-- A block in use that is not one of the driver's own. -/
structure Lent (G : ℕ) (fs : Ext2) (b : ℕ) : Prop where
  /-- It is not the boot block. -/
  ne_zero : b ≠ 0
  /-- It belongs to a group. -/
  group : groupOf fs b < G
  /-- It has nothing of the driver's. -/
  spare : Spare G fs b
  /-- It is in use. -/
  used : InUse fs b

/-- The bytes of a block are what they were. -/
def SameBlock (fs fs' : Ext2) (b : ℕ) : Prop :=
  ∀ o < fs.blockSize,fs'.volume.data (fs.blockSize * b + o) = fs.volume.data (fs.blockSize * b + o)

/-- A change that keeps the given blocks in use, with their bytes. -/
structure Keeps (k B G : ℕ) (fs fs' : Ext2) (keep : ℕ → Prop) : Prop where
  /-- The driver still knows which blocks are in use. -/
  ready : Ready k B G fs'
  /-- Only counters and contents changed. -/
  frozen : frozen fs' = frozen fs
  /-- The blocks are still in use. -/
  lent : ∀ b,keep b → Lent G fs' b
  /-- They have their bytes. -/
  same : ∀ b,keep b → SameBlock fs fs' b

section Volume

variable {k B G b c : ℕ} {fs fs' fs'' : Ext2} {keep keep' : ℕ → Prop} {data' : Store}

theorem frozen_blockSize (h : frozen fs' = frozen fs) : fs'.blockSize = fs.blockSize :=
  frozen_eq (fun _ => rfl) h

theorem frozen_spare (h : frozen fs' = frozen fs) (b : ℕ) : Spare G fs' b ↔ Spare G fs b :=
  iff_of_eq (frozen_eq (f := (Spare G · b)) (fun _ => rfl) h)

theorem SameBlock.trans (hsize : fs'.blockSize = fs.blockSize) (h : SameBlock fs fs' b)
    (h' : SameBlock fs' fs'' b) : SameBlock fs fs'' b := by
  intro o ho
  have hsecond := h' o (hsize ▸ ho)
  rw [hsize] at hsecond
  exact hsecond.trans (h o ho)

theorem Keeps.mono (h : Keeps k B G fs fs' keep) (hkeep : ∀ b,keep' b → keep b) :
    Keeps k B G fs fs' keep' :=
  ⟨h.ready,h.frozen,fun b hb => h.lent b (hkeep b hb),fun b hb => h.same b (hkeep b hb)⟩

/-- Two changes after each other. -/
theorem Keeps.trans (h : Keeps k B G fs fs' keep) (h' : Keeps k B G fs' fs'' keep) :
    Keeps k B G fs fs'' keep :=
  ⟨h'.ready,h'.frozen.trans h.frozen,h'.lent,
    fun b hb => (h.same b hb).trans (frozen_blockSize h.frozen) (h'.same b hb)⟩

/-- Blocks do not overlap. -/
theorem block_apart (hne : b ≠ c) (bs : ℕ) : bs * b + bs ≤ bs * c ∨ bs * c + bs ≤ bs * b := by
  rcases Nat.lt_or_gt_of_ne hne with h | h
  · exact .inl (by rw [← Nat.mul_succ]; exact Nat.mul_le_mul_left bs h)
  · exact .inr (by rw [← Nat.mul_succ]; exact Nat.mul_le_mul_left bs h)

/-- A block of a group lies below 4 GiB. -/
theorem Ready.end_le (R : Ready k B G fs) (hb : groupOf fs b < G) :
    fs.blockSize * b + fs.blockSize ≤ 2 ^ 32 := by
  have hpos : 0 < fs.superBlock.sBlocksPerGroup := R.counted.layout.nonempty
  have hlt : b - 1 < G * fs.superBlock.sBlocksPerGroup := (Nat.div_lt_iff_lt_mul hpos).mp hb
  calc fs.blockSize * b + fs.blockSize = (b + 1) * fs.blockSize := by ring
    _ ≤ (G * fs.superBlock.sBlocksPerGroup + 1) * fs.blockSize :=
      Nat.mul_le_mul_right _ (by omega)
    _ ≤ 2 ^ 32 := R.reach

theorem Ready.blockSize_large (R : Ready k B G fs) : 1024 ≤ fs.blockSize := by
  have hlarge := R.mounted.large
  rw [R.mounted.blockSize]
  omega

/-- Block numbers have 32 bits. -/
theorem Ready.number_lt (R : Ready k B G fs) (hb : groupOf fs b < G) : b < 2 ^ 32 := by
  have hend := R.end_le hb
  have hle : 1 * b ≤ fs.blockSize * b :=
    Nat.mul_le_mul_right b (by have := R.blockSize_large; omega)
  have hlarge := R.blockSize_large
  omega

/-- An address that the driver keeps something of its own at. -/
def Reserved (G : ℕ) (fs : Ext2) (a : ℕ) : Prop :=
  a < 4 ∨ (∃ g < G,bitmapAt blockKind fs g ≤ a ∧
    a < bitmapAt blockKind fs g + bits blockKind fs / 8) ∨
  ∃ i < fs.blockGroupCount,fs.hasSuperBlock i = true ∧ tableAt fs i ≤ a ∧
    a < tableAt fs i + descriptorSize * fs.blockGroupCount

/-- A spare block has no such address. -/
theorem Ready.not_reserved (R : Ready k B G fs) (hne : b ≠ 0) (hb : Spare G fs b) {a : ℕ}
    (hl : fs.blockSize * b ≤ a) (hu : a < fs.blockSize * b + fs.blockSize) :
    ¬Reserved G fs a := by
  have hlarge := R.blockSize_large
  have hle : fs.blockSize * 1 ≤ fs.blockSize * b := Nat.mul_le_mul_left _ (by omega)
  rintro (hboot | ⟨g,hg,hgl,hgu⟩ | ⟨i,hi,hs,hil,hiu⟩)
  · omega
  · have hap := hb.1 g hg
    rw [Apart] at hap
    omega
  · have hap := hb.2 i hi hs
    rw [Apart] at hap
    omega

/-- Other bytes at other addresses leave the bitmaps and counters alone. -/
theorem Ready.withData (R : Ready k B G fs)
    (hdata : ∀ a,Reserved G fs a → data' a = fs.volume.data a) :
    Ready k B G (fs.withData data') ∧
    ∀ b,groupOf fs b < G → (InUse (fs.withData data') b ↔ InUse fs b) := by
  have L := R.counted.layout
  have hwhole := L.whole
  have hbit : ∀ g < G,∀ n < bits blockKind fs,
      data' (bitmapAt blockKind fs g + n / 8) = fs.volume.data (bitmapAt blockKind fs g + n / 8) :=
    fun g hg n hn => hdata _ (.inr (.inl ⟨g,hg,by omega,by omega⟩))
  have huse : ∀ b,groupOf fs b < G → (InUse (fs.withData data') b ↔ InUse fs b) := by
    intro b hb
    have hlt : bitOf fs b < bits blockKind fs := Nat.mod_lt _ L.nonempty
    have hmark : marked blockKind (fs.withData data') (groupOf fs b) (bitOf fs b) =
        marked blockKind fs (groupOf fs b) (bitOf fs b) := bitAt_congr (hbit _ hb _ hlt)
    exact iff_of_eq (congrArg (· = true) hmark)
  have hcount : ∀ g < G,clearCount data' (bitmapAt blockKind fs g) (bits blockKind fs) =
      clearCount fs.volume.data (bitmapAt blockKind fs g) (bits blockKind fs) :=
    fun g hg => clearCount_congr fun n hn => bitAt_congr (hbit g hg n hn)
  have hcopies : ∀ i < G,fs.hasSuperBlock i = true → ∀ g < G,
      word data' 2 (tableAt fs i + descriptorSize * g + blockKind.fieldOffset) =
        word fs.volume.data 2 (tableAt fs i + descriptorSize * g + blockKind.fieldOffset) := by
    intro i hi hs g hg
    have hgroups := L.groups
    have hin := Layout.field_inside lawful_blockKind (Nat.lt_of_lt_of_le hg hgroups)
    exact word_congr fun o ho => hdata _ (.inr (.inr ⟨i,by omega,hs,by omega,by omega⟩))
  refine ⟨⟨⟨R.mounted.toTableBounds,R.mounted.size,R.mounted.infallible⟩,⟨L.of_frozen
    lawful_blockKind (show frozen (fs.withData data') = frozen fs from rfl),?_,R.counted.phantom,
    ?_⟩,R.reach,?_,R.bitmaps,?_⟩,huse⟩
  · intro g hg
    exact (R.counted.counted g hg).trans (hcount g hg).symm
  · intro i hi hs g hg
    exact (hcopies i hi hs g hg).trans (R.counted.copies i hi hs g hg)
  · have hboot : entry data' fs.blockSize 0 0 = entry fs.volume.data fs.blockSize 0 0 :=
      word_congr fun o ho => hdata _ (.inl (by omega))
    exact hboot.trans R.boot
  · intro b hne hb hu
    exact R.fenced b hne hb fun h => hu ((huse b hb).mpr h)

/-- Writing inside a block that is not the driver's own. -/
theorem Ready.write (R : Ready k B G fs) (hb : Lent G fs b) (pos : ℕ) (src : List UInt8)
    (hl : fs.blockSize * b ≤ pos) (hu : pos + src.length ≤ fs.blockSize * b + fs.blockSize) :
    Keeps k B G fs (fs.withData (patch fs.volume.data pos src))
      (fun c => Lent G fs c ∧ c ≠ b) ∧ Lent G (fs.withData (patch fs.volume.data pos src)) b := by
  have hdata : ∀ a,Reserved G fs a → patch fs.volume.data pos src a = fs.volume.data a := by
    intro a ha
    refine patch_out ?_
    by_contra hin
    exact R.not_reserved hb.ne_zero hb.spare (by omega) (by omega) ha
  obtain ⟨hready,huse⟩ := R.withData hdata
  have hlent : ∀ c,Lent G fs c → Lent G (fs.withData (patch fs.volume.data pos src)) c :=
    fun c hc => ⟨hc.ne_zero,hc.group,hc.spare,(huse c hc.group).mpr hc.used⟩
  refine ⟨⟨hready,rfl,fun c hc => hlent c hc.1,?_⟩,hlent b hb⟩
  intro c hc o ho
  have hap := block_apart hc.2 fs.blockSize
  exact patch_out (by omega)

/-- After one bit was flipped, and cleared only if its block is spare. -/
theorem Ready.flip (R : Ready k B G fs) {g n : ℕ} {v : Bool} (hf : Flip blockKind G fs g n v fs')
    (hspare : ∀ b,b ≠ 0 → groupOf fs b = g → bitOf fs b = n → v = false → Spare G fs b) :
    Ready k B G fs' ∧ ∀ b,b ≠ 0 → groupOf fs b < G → Spare G fs b → SameBlock fs fs' b := by
  have hsize := frozen_blockSize hf.frozen
  have hserved : fs'.volume.served = fs.volume.served :=
    frozen_eq (f := fun f => f.volume.served) (fun _ => rfl) hf.frozen
  have hsame : ∀ a,¬Reserved G fs a → fs'.volume.data a = fs.volume.data a := by
    intro a ha
    refine hf.frame a (fun g hg => ?_) (fun i hi hs => ?_)
    · by_contra hap
      rw [Apart] at hap
      exact ha (.inr (.inl ⟨g,hg,by omega,by omega⟩))
    · by_contra hap
      rw [Apart] at hap
      exact ha (.inr (.inr ⟨i,hi,hs,by omega,by omega⟩))
  refine ⟨⟨⟨R.mounted.toTableBounds,hsize.trans R.mounted.size,?_⟩,hf.counted,?_,?_,?_,?_⟩,?_⟩
  · intro pos m
    rw [hserved]
    exact R.mounted.infallible pos m
  · have hbpg : fs'.superBlock.sBlocksPerGroup = fs.superBlock.sBlocksPerGroup :=
      frozen_eq (f := fun f => f.superBlock.sBlocksPerGroup) (fun _ => rfl) hf.frozen
    rw [hsize,hbpg]
    exact R.reach
  · have hboot : entry fs'.volume.data fs.blockSize 0 0 =
        entry fs.volume.data fs.blockSize 0 0 := by
      refine word_congr fun o ho => hf.frame _ (fun g hg => .inl ?_) (fun i hi hs => .inl ?_)
      · have hlarge := R.blockSize_large
        have hone : fs.blockSize * 1 ≤ bitmapAt blockKind fs g :=
          Nat.mul_le_mul_left _ (Nat.one_le_iff_ne_zero.mpr (R.bitmaps g hg))
        omega
      · have hlarge := R.blockSize_large
        rw [tableAt]
        omega
    rw [hsize]
    exact hboot.trans R.boot
  · intro g hg
    have hat : bitmapAt blockKind fs' g = bitmapAt blockKind fs g :=
      frozen_bitmapAt lawful_blockKind hf.frozen g
    intro hzero
    rw [bitmapAt,hzero,Nat.mul_zero] at hat
    have hmul : fs.blockSize * blockKind.bitmap (fs.bgdt g) = 0 := hat.symm
    have hlarge := R.blockSize_large
    exact R.bitmaps g hg ((Nat.mul_eq_zero.mp hmul).resolve_left (by omega))
  · intro b hne hb hu
    have hgroup : groupOf fs' b = groupOf fs b :=
      frozen_eq (f := (groupOf · b)) (fun _ => rfl) hf.frozen
    rw [hgroup] at hb
    rw [frozen_spare hf.frozen]
    rw [(inUse_flip hf hb).2] at hu
    split at hu
    · next h => exact hspare b hne h.1 h.2 (Bool.eq_false_of_not_eq_true hu)
    · exact R.fenced b hne hb hu
  · intro b hne _ hspare o ho
    exact hsame _ (R.not_reserved hne hspare (by omega) (by omega))

/-- Taking a free block keeps all that are in use. -/
theorem Ready.alloc (R : Ready k B G fs) :
    ((fs.allocBlock Ext2.noGroup).1 = 0 ∧ (fs.allocBlock Ext2.noGroup).2.2 = fs ∧
      freeSum blockKind G fs = 0) ∨
    ∃ b g fs',fs.allocBlock Ext2.noGroup = (b,g,fs') ∧ ¬InUse fs b ∧ Lent G fs' b ∧
      Keeps k B G fs fs' (Lent G fs) ∧ freeSum blockKind G fs' + 1 = freeSum blockKind G fs := by
  rcases allocBlock_spec R.counted (.inl rfl) with ⟨hzero,hsame,hnone⟩ |
    ⟨b,g,fs',hne,hrun,n,hnum,hflip,-,hsum⟩
  · refine .inl ⟨hzero,hsame,?_⟩
    rw [freeSum]
    exact Finset.sum_eq_zero fun g hg => hnone g (Finset.mem_range.mp hg)
  · obtain ⟨hready,hsame⟩ := R.flip hflip (fun _ _ _ _ h => absurd h (by decide))
    have hbits : bits blockKind fs = fs.superBlock.sBlocksPerGroup := rfl
    have hsub : b - 1 = g * fs.superBlock.sBlocksPerGroup + n := by omega
    obtain ⟨hdiv,hmod⟩ := group_bit (g := g) (hbits ▸ hflip.bit)
    have hgroup : groupOf fs b = g := by rw [groupOf,hsub,hdiv]
    have hbit : bitOf fs b = n := by rw [bitOf,hsub,hmod]
    have hin : groupOf fs b < G := hgroup ▸ hflip.group
    have hfree : ¬InUse fs b := by
      rw [InUse,hgroup,hbit,hflip.before]
      decide
    have hlent : ∀ c,c ≠ 0 → groupOf fs c < G → Spare G fs c → InUse fs' c → Lent G fs' c := by
      intro c hc hg hs hu
      exact ⟨hc,(inUse_flip hflip hg).1 ▸ hg,(frozen_spare hflip.frozen c).mpr hs,hu⟩
    refine .inr ⟨b,some g,fs',hrun,hfree,?_,⟨hready,hflip.frozen,?_,?_⟩,hsum⟩
    · refine hlent b hne hin (R.fenced b hne hin hfree) ?_
      rw [(inUse_flip hflip hin).2,if_pos ⟨hgroup,hbit⟩]
    · intro c hc
      refine hlent c hc.ne_zero hc.group hc.spare ?_
      rw [(inUse_flip hflip hc.group).2]
      split
      · rfl
      · exact hc.used
    · exact fun c hc => hsame c hc.ne_zero hc.group hc.spare

/-- Giving a block back keeps all others. -/
theorem Ready.free (R : Ready k B G fs) (hb : Lent G fs b) :
    ∃ fs',fs.freeBlock b = (false,fs') ∧ Keeps k B G fs fs' (fun c => Lent G fs c ∧ c ≠ b) ∧
      freeSum blockKind G fs' = freeSum blockKind G fs + 1 := by
  obtain ⟨fs',hrun,hflip,-,hsum⟩ := freeBlock_used R.counted hb.ne_zero hb.group hb.used
  obtain ⟨hready,hsame⟩ := R.flip hflip (fun c hc hg hn _ =>
    block_unique hc hb.ne_zero hg hn ▸ hb.spare)
  refine ⟨fs',hrun,⟨hready,hflip.frozen,?_,fun c hc => hsame c hc.1.ne_zero hc.1.group hc.1.spare⟩,
    hsum⟩
  rintro c ⟨hc,hne⟩
  refine ⟨hc.ne_zero,(inUse_flip hflip hc.group).1 ▸ hc.group,
    (frozen_spare hflip.frozen c).mpr hc.spare,?_⟩
  rw [(inUse_flip hflip hc.group).2,if_neg]
  · exact hc.used
  · exact fun h => hne (block_unique hc.ne_zero hb.ne_zero h.1 h.2)

/-- A new table is empty. -/
theorem Ready.allocTable (R : Ready k B G fs) :
    (fs.allocTable = (0,fs) ∧ freeSum blockKind G fs = 0) ∨
    ∃ b fs',fs.allocTable = (b,fs') ∧ ¬InUse fs b ∧ Lent G fs' b ∧
      (∀ j < B,entry fs'.volume.data fs'.blockSize b j = 0) ∧ Keeps k B G fs fs' (Lent G fs) := by
  rcases R.alloc with ⟨hzero,hsame,hsum⟩ | ⟨b,g,fs',hrun,hfree,hb,hkeeps,-⟩
  · refine .inl ⟨?_,hsum⟩
    simp only [Ext2.allocTable,hzero,hsame,if_true]
  · have hzeros : (List.replicate fs'.blockSize (0 : UInt8)).length = fs'.blockSize :=
      List.length_replicate
    obtain ⟨hwrite,hlent⟩ := hkeeps.ready.write hb (fs'.blockSize * b)
      (List.replicate fs'.blockSize 0) le_rfl (by rw [hzeros])
    refine .inr ⟨b,_,?_,hfree,hlent,?_,hkeeps.trans (hwrite.mono fun c hc =>
      ⟨hkeeps.lent c hc,fun h => hfree (h ▸ hc.used)⟩)⟩
    · simp only [Ext2.allocTable,hrun,Ext2.zeroBlock,hkeeps.ready.mounted.infallible.write,
        List.length_replicate,beq_self_eq_true,Bool.not_true,Bool.false_eq_true,hb.ne_zero,if_false]
      rfl
    · intro j hj
      have hsize := hkeeps.ready.mounted.blockSize
      have hzero : ∀ i < 4,patch fs'.volume.data (fs'.blockSize * b)
          (List.replicate fs'.blockSize 0) (4 * j + fs'.blockSize * b + i) = 0 := by
        intro i hi
        rw [patch_in (by omega) (by rw [hzeros]; omega)]
        simp
      refine (word_congr (t := fun _ => 0) (q := 0) hzero).trans ?_
      simp [word,slice,leValue,List.range_succ]

end Volume

/-- The pointer tables of a file, in the range that the driver looks up right. -/
inductive Table where
  /-- The table that the inode's slot 12 leads to. -/
  | single
  /-- The table of tables that its slot 13 leads to. -/
  | double
  /-- One of those tables. -/
  | child (i : ℕ)
  deriving DecidableEq

/-- Where pointer j of a table leads, given the blocks of the file and of its tables. -/
def pointer (B : ℕ) (block : ℕ → ℕ) (table : Table → ℕ) : Table → ℕ → ℕ
  | .single,j => block (12 + j)
  | .double,i => table (.child i)
  | .child i,j => block (12 + B + i * B + j)

/-- An inode and the tables on the volume lead to the given blocks. -/
structure Laid (B : ℕ) (fs : Ext2) (inode : FSINode) (block : ℕ → ℕ) (table : Table → ℕ) :
    Prop where
  /-- Direct pointers. -/
  direct : ∀ n < 12,inode.iBlock n = block n
  /-- The single table. -/
  single : inode.iBlock 12 = table .single
  /-- The table of tables. -/
  double : inode.iBlock 13 = table .double
  /-- What the tables contain. -/
  entries : ∀ a,table a ≠ 0 → ∀ j < B,
    entry fs.volume.data fs.blockSize (table a) j = pointer B block table a j
  /-- A missing table makes holes. -/
  holes : ∀ a,table a = 0 → ∀ j < B,pointer B block table a j = 0

/-- A file's tables on a volume, apart from each other and from other blocks in use. -/
structure Stands (k B G : ℕ) (fs : Ext2) (inode : FSINode) (block : ℕ → ℕ) (table : Table → ℕ)
    (other : ℕ → Prop) : Prop where
  /-- The driver knows which blocks are in use. -/
  ready : Ready k B G fs
  /-- The file's map. -/
  laid : Laid B fs inode block table
  /-- Its tables are in use. -/
  tables : ∀ a,table a ≠ 0 → Lent G fs (table a)
  /-- They are different blocks. -/
  distinct : ∀ a a',table a ≠ 0 → table a = table a' → a = a'
  /-- So are the others. -/
  others : ∀ b,other b → Lent G fs b
  /-- No table is one of them. -/
  apart : ∀ a,¬other (table a)

/-- A change that leaves the other blocks alone. -/
structure Moved (fs fs' : Ext2) (other : ℕ → Prop) : Prop where
  /-- Only counters and contents changed. -/
  frozen : frozen fs' = frozen fs
  /-- The blocks have their bytes. -/
  same : ∀ b,other b → SameBlock fs fs' b

section Tables

variable {k B G n b : ℕ} {fs fs' fs'' : Ext2} {inode : FSINode} {block : ℕ → ℕ}
  {table : Table → ℕ} {other other' keep : ℕ → Prop} {a : Table}

theorem Moved.refl (fs : Ext2) (other : ℕ → Prop) : Moved fs fs other :=
  ⟨rfl,fun _ _ _ _ => rfl⟩

theorem Moved.trans (h : Moved fs fs' other) (h' : Moved fs' fs'' other) : Moved fs fs'' other :=
  ⟨h'.frozen.trans h.frozen,
    fun b hb => (h.same b hb).trans (frozen_blockSize h.frozen) (h'.same b hb)⟩

theorem Moved.mono (h : Moved fs fs' other) (hother : ∀ b,other' b → other b) :
    Moved fs fs' other' :=
  ⟨h.frozen,fun b hb => h.same b (hother b hb)⟩

theorem Keeps.moved (h : Keeps k B G fs fs' keep) (hother : ∀ b,other b → keep b) :
    Moved fs fs' other :=
  ⟨h.frozen,fun b hb => h.same b (hother b hb)⟩

/-- A table that has its bytes has its entries. -/
theorem entry_same (R : Ready k B G fs) (hframe : frozen fs' = frozen fs)
    (h : SameBlock fs fs' b) {j : ℕ} (hj : j < B) :
    entry fs'.volume.data fs'.blockSize b j = entry fs.volume.data fs.blockSize b j := by
  have hsize := R.mounted.blockSize
  rw [frozen_blockSize hframe]
  refine word_congr fun o ho => ?_
  have hplace : 4 * j + fs.blockSize * b + o = fs.blockSize * b + (4 * j + o) := by omega
  rw [hplace]
  exact h _ (by omega)

/-- After storing a pointer in an entry of a table. -/
theorem entry_plant {data : Store} {p q i j w : ℕ} (hi : i < B) (hj : j < B) (hw : w < 2 ^ 32) :
    entry (plant data (4 * B) p i w) (4 * B) q j =
      if q = p ∧ j = i then w else entry data (4 * B) q j := by
  by_cases h : q = p ∧ j = i
  · obtain ⟨rfl,rfl⟩ := h
    rw [if_pos ⟨rfl,rfl⟩,entry_plant_same hw]
  · rw [if_neg h]
    refine entry_plant_other fun heq => h ?_
    have hp : p = q := by
      have hdiv := congrArg (· / B) heq
      have hB : 0 < B := by omega
      simpa only [Nat.add_mul_div_left _ _ hB,Nat.div_eq_of_lt hi,Nat.div_eq_of_lt hj,
        Nat.zero_add] using hdiv
    subst hp
    exact ⟨rfl,by omega⟩

/-- A file's map outlasts a change that keeps its tables. -/
theorem Stands.keeps (S : Stands k B G fs inode block table other)
    (h : Keeps k B G fs fs' keep) (htables : ∀ a,table a ≠ 0 → keep (table a))
    (hothers : ∀ b,other' b → other b ∧ keep b) : Stands k B G fs' inode block table other' := by
  refine ⟨h.ready,⟨S.laid.direct,S.laid.single,S.laid.double,?_,S.laid.holes⟩,
    fun a ha => h.lent _ (htables a ha),S.distinct,fun b hb => h.lent b (hothers b hb).2,
    fun a ha => S.apart a (hothers _ ha).1⟩
  intro a ha j hj
  rw [entry_same S.ready h.frozen (h.same _ (htables a ha)) hj]
  exact S.laid.entries a ha j hj

/-- It does not depend on the inode's other fields. -/
theorem Stands.withINode (S : Stands k B G fs inode block table other) {inode' : FSINode}
    (h : inode'.iBlock = inode.iBlock) : Stands k B G fs inode' block table other :=
  ⟨S.ready,⟨h ▸ S.laid.direct,h ▸ S.laid.single,h ▸ S.laid.double,S.laid.entries,S.laid.holes⟩,
    S.tables,S.distinct,S.others,S.apart⟩

/-- One more block in use that is not one of its tables. -/
theorem Stands.more (S : Stands k B G fs inode block table other) (hb : Lent G fs b)
    (hne : ∀ a,table a ≠ b) : Stands k B G fs inode block table (fun c => other c ∨ c = b) := by
  refine ⟨S.ready,S.laid,S.tables,S.distinct,?_,?_⟩
  · rintro c (hc | rfl)
    · exact S.others c hc
    · exact hb
  · rintro a (ha | ha)
    · exact S.apart a ha
    · exact hne a ha

/-- Fewer others. -/
theorem Stands.fewer (S : Stands k B G fs inode block table other)
    (hother : ∀ b,other' b → other b) : Stands k B G fs inode block table other' :=
  ⟨S.ready,S.laid,S.tables,S.distinct,fun b hb => S.others b (hother b hb),
    fun a ha => S.apart a (hother _ ha)⟩

/-- A block that is not in use is neither a table nor one of the others. -/
theorem Stands.fresh (S : Stands k B G fs inode block table other) (hfree : ¬InUse fs b)
    (hne : b ≠ 0) : (∀ a,table a ≠ b) ∧ ¬other b := by
  refine ⟨?_,fun hb => hfree (S.others b hb).used⟩
  rintro a rfl
  exact hfree (S.tables a hne).used

/-- Blocks stay different when one that was missing is a new one. -/
theorem distinct_update {ι : Type} [DecidableEq ι] {f : ι → ℕ}
    (hdistinct : ∀ a a',f a ≠ 0 → f a = f a' → a = a') (hnew : ∀ a,f a ≠ b) (x : ι) :
    ∀ a a',Function.update f x b a ≠ 0 →
      Function.update f x b a = Function.update f x b a' → a = a' := by
  intro a a' ha heq
  rcases eq_or_ne a x with rfl | hax
  · rcases eq_or_ne a' a with rfl | hax'
    · rfl
    · rw [Function.update_self,Function.update_of_ne hax'] at heq
      exact absurd heq.symm (hnew a')
  · rw [Function.update_of_ne hax] at ha heq
    rcases eq_or_ne a' x with rfl | hax'
    · rw [Function.update_self] at heq
      exact absurd heq (hnew a)
    · rw [Function.update_of_ne hax'] at heq
      exact hdistinct a a' ha heq

/-- The two tables that the inode leads to itself, with their slots. -/
def IsRoot (a : Table) (slot : ℕ) : Prop := (a = .single ∧ slot = 12) ∨ (a = .double ∧ slot = 13)

/-- EXT2::setINodeBlock makes sure that such a table exists. -/
theorem rootTable_spec (S : Stands k B G fs inode block table other) {slot : ℕ}
    (hroot : IsRoot a slot) :
    (fs.rootTable inode slot = (false,fs,inode) ∧ table a = 0 ∧ freeSum blockKind G fs = 0) ∨
    ∃ fs' f d t,fs.rootTable inode slot = (true,fs',{ inode with iBlock := f, dirty := d }) ∧
      t ≠ 0 ∧ Stands k B G fs' { inode with iBlock := f, dirty := d } block
        (Function.update table a t) other ∧ Moved fs fs' other := by
  have hslot : inode.iBlock slot = table a := by
    rcases hroot with ⟨rfl,rfl⟩ | ⟨rfl,rfl⟩
    · exact S.laid.single
    · exact S.laid.double
  by_cases hthere : table a = 0
  · have hmissing : ¬inode.iBlock slot ≠ 0 := by rw [hslot]; exact not_not.mpr hthere
    rcases S.ready.allocTable with ⟨hrun,hsum⟩ | ⟨t,fs',hrun,hfree,ht,hempty,hkeeps⟩
    · refine .inl ⟨?_,hthere,hsum⟩
      simp only [Ext2.rootTable,if_neg hmissing,hrun,if_true]
    · obtain ⟨hnew,hother⟩ := S.fresh hfree ht.ne_zero
      have S' : Stands k B G fs' inode block table other :=
        S.keeps hkeeps S.tables fun b hb => ⟨hb,S.others b hb⟩
      refine .inr ⟨fs',Function.update inode.iBlock slot t,true,t,?_,ht.ne_zero,?_,
        hkeeps.moved S.others⟩
      · simp only [Ext2.rootTable,if_neg hmissing,hrun,if_neg ht.ne_zero]
      have hsame : ∀ x j,pointer B block (Function.update table a t) x j =
          pointer B block table x j := by
        intro x j
        cases x with
        | single => rfl
        | double =>
          have hchild : Table.child j ≠ a := by
            rcases hroot with ⟨rfl,-⟩ | ⟨rfl,-⟩ <;> simp
          exact Function.update_of_ne hchild _ _
        | child i => rfl
      refine ⟨S'.ready,⟨?_,?_,?_,?_,?_⟩,?_,distinct_update S.distinct hnew a,S'.others,?_⟩
      · intro n hn
        have hne : n ≠ slot := by rcases hroot with ⟨-,rfl⟩ | ⟨-,rfl⟩ <;> omega
        exact (Function.update_of_ne hne _ _).trans (S.laid.direct n hn)
      · show Function.update inode.iBlock slot t 12 = _
        rcases hroot with ⟨rfl,rfl⟩ | ⟨rfl,rfl⟩
        · rw [Function.update_self,Function.update_self]
        · rw [Function.update_of_ne (by decide),Function.update_of_ne (by decide)]
          exact S.laid.single
      · show Function.update inode.iBlock slot t 13 = _
        rcases hroot with ⟨rfl,rfl⟩ | ⟨rfl,rfl⟩
        · rw [Function.update_of_ne (by decide),Function.update_of_ne (by decide)]
          exact S.laid.double
        · rw [Function.update_self,Function.update_self]
      · intro x hx j hj
        rw [hsame]
        rcases eq_or_ne x a with rfl | hxa
        · rw [Function.update_self,hempty j hj,S.laid.holes x hthere j hj]
        · rw [Function.update_of_ne hxa] at hx ⊢
          exact S'.laid.entries x hx j hj
      · intro x hx j hj
        rw [hsame]
        rcases eq_or_ne x a with rfl | hxa
        · exact S.laid.holes x hthere j hj
        · rw [Function.update_of_ne hxa] at hx
          exact S.laid.holes x hx j hj
      · intro x hx
        rcases eq_or_ne x a with rfl | hxa
        · rw [Function.update_self]
          exact ht
        · rw [Function.update_of_ne hxa] at hx ⊢
          exact S'.tables x hx
      · intro x hx
        rcases eq_or_ne x a with rfl | hxa
        · rw [Function.update_self] at hx
          exact hother hx
        · rw [Function.update_of_ne hxa] at hx
          exact S.apart x hx
  · refine .inr ⟨fs,inode.iBlock,inode.dirty,table a,?_,hthere,?_,Moved.refl fs other⟩
    · simp only [Ext2.rootTable,hslot,ne_eq,hthere,not_false_eq_true,if_true]
    · rw [Function.update_eq_self]
      exact S

/-- Where the tables keep the pointer of logical block n. -/
def place (B n : ℕ) : Table × ℕ :=
  if n < 12 + B then (.single,n - 12) else (.child ((n - (12 + B)) / B),(n - (12 + B)) % B)

/-- Another block changes one pointer. -/
theorem pointer_update_block {j : ℕ} (hn : 12 ≤ n) (hj : j < B) :
    pointer B (Function.update block n b) table a j =
      if a = (place B n).1 ∧ j = (place B n).2 then b else pointer B block table a j := by
  by_cases hlt : n < 12 + B
  · rw [place,if_pos hlt]
    cases a with
    | single =>
      simp only [pointer,Function.update_apply,true_and]
      exact if_congr (by omega) rfl rfl
    | double => simp only [pointer,reduceCtorEq,false_and,if_false]
    | child i =>
      have hne : 12 + B + i * B + j ≠ n := by omega
      simp only [pointer,Function.update_of_ne hne,reduceCtorEq,false_and,if_false]
  · rw [place,if_neg hlt]
    cases a with
    | single =>
      have hne : 12 + j ≠ n := by omega
      simp only [pointer,Function.update_of_ne hne,reduceCtorEq,false_and,if_false]
    | double => simp only [pointer,reduceCtorEq,false_and,if_false]
    | child i =>
      simp only [pointer,Function.update_apply,Table.child.injEq]
      refine if_congr ?_ rfl rfl
      constructor
      · intro h
        obtain ⟨hdiv,hmod⟩ := group_bit (g := i) hj
        rw [show n - (12 + B) = i * B + j by omega,hdiv,hmod]
        exact ⟨rfl,rfl⟩
      · rintro ⟨rfl,rfl⟩
        have hsplit := Nat.div_add_mod' (n - (12 + B)) B
        omega

/-- Tables have no pointers of direct blocks. -/
theorem pointer_low {j : ℕ} (hn : n < 12) :
    pointer B (Function.update block n b) table a j = pointer B block table a j := by
  cases a with
  | single => exact Function.update_of_ne (by omega) _ _
  | double => rfl
  | child i => exact Function.update_of_ne (by omega) _ _

/-- Another lower table changes one pointer. -/
theorem pointer_update_child {i j : ℕ} :
    pointer B block (Function.update table (.child i) b) a j =
      if a = .double ∧ j = i then b else pointer B block table a j := by
  cases a with
  | single => simp only [pointer,reduceCtorEq,false_and,if_false]
  | double => simp only [pointer,Function.update_apply,Table.child.injEq,true_and]
  | child i => simp only [pointer,reduceCtorEq,false_and,if_false]

/-- A pointer stored in an entry of a table. -/
def planted (fs : Ext2) (p i w : ℕ) : Ext2 :=
  fs.withData (plant fs.volume.data fs.blockSize p i w)

theorem writePointer_eq (R : Ready k B G fs) (p i w : ℕ) :
    fs.writePointer w (4 * i + fs.blockSize * p) = (true,planted fs p i w) := by
  simp only [Ext2.writePointer,R.mounted.infallible.write,leBytes_length]
  rfl

/-- It changes that entry and no other block. -/
theorem planted_spec (R : Ready k B G fs) {p i w : ℕ} (hp : Lent G fs p) (hi : i < B)
    (hw : w < 2 ^ 32) :
    Keeps k B G fs (planted fs p i w) (fun c => Lent G fs c ∧ c ≠ p) ∧
    Lent G (planted fs p i w) p ∧
    ∀ q,∀ j < B,entry (planted fs p i w).volume.data (planted fs p i w).blockSize q j =
      if q = p ∧ j = i then w else entry fs.volume.data fs.blockSize q j := by
  have hsize := R.mounted.blockSize
  obtain ⟨hkeeps,hlent⟩ := R.write hp (4 * i + fs.blockSize * p) (leBytes 4 w) (by omega)
    (by rw [leBytes_length]; omega)
  refine ⟨hkeeps,hlent,fun q j hj => ?_⟩
  show entry (plant fs.volume.data fs.blockSize p i w) fs.blockSize q j = _
  rw [hsize]
  exact entry_plant hi hj hw

/-- Setting a pointer in a table that exists. -/
theorem Stands.plantBlock (S : Stands k B G fs inode block table other) (hn : 12 ≤ n)
    (ht : table (place B n).1 ≠ 0) (hi : (place B n).2 < B) (hb : b < 2 ^ 32) :
    Stands k B G (planted fs (table (place B n).1) (place B n).2 b) inode
      (Function.update block n b) table other ∧
    Moved fs (planted fs (table (place B n).1) (place B n).2 b) other := by
  obtain ⟨hkeeps,hlent,hentry⟩ := planted_spec S.ready (S.tables _ ht) hi hb
  have hother : ∀ c,other c → Lent G fs c ∧ c ≠ table (place B n).1 :=
    fun c hc => ⟨S.others c hc,fun h => S.apart _ (h ▸ hc)⟩
  refine ⟨⟨hkeeps.ready,⟨?_,S.laid.single,S.laid.double,?_,?_⟩,?_,S.distinct,
    fun c hc => hkeeps.lent c (hother c hc),S.apart⟩,hkeeps.moved hother⟩
  · intro m hm
    rw [Function.update_of_ne (by omega)]
    exact S.laid.direct m hm
  · intro x hx j hj
    rw [hentry _ j hj,pointer_update_block hn hj]
    by_cases hxa : x = (place B n).1
    · subst hxa
      simp only [true_and]
      split
      · rfl
      · exact S.laid.entries _ hx j hj
    · rw [if_neg fun h => hxa (S.distinct x _ hx h.1),if_neg fun h => hxa h.1]
      exact S.laid.entries x hx j hj
  · intro x hx j hj
    rw [pointer_update_block hn hj,if_neg]
    · exact S.laid.holes x hx j hj
    · rintro ⟨rfl,-⟩
      exact ht hx
  · intro x hx
    by_cases hxa : x = (place B n).1
    · rw [hxa]
      exact hlent
    · exact hkeeps.lent _ ⟨S.tables x hx,fun h => hxa (S.distinct x _ hx h)⟩

/-- Entering a new empty table in the table of tables. -/
theorem Stands.plantChild (S : Stands k B G fs inode block table other) {i t : ℕ}
    (hd : table .double ≠ 0) (hi : i < B) (hmissing : table (.child i) = 0) (ht : Lent G fs t)
    (hnew : ∀ a,table a ≠ t) (hother : ¬other t)
    (hempty : ∀ j < B,entry fs.volume.data fs.blockSize t j = 0) :
    Stands k B G (planted fs (table .double) i t) inode block
      (Function.update table (.child i) t) other ∧
    Moved fs (planted fs (table .double) i t) other := by
  obtain ⟨hkeeps,hlent,hentry⟩ := planted_spec S.ready (S.tables _ hd) hi
    (S.ready.number_lt ht.group)
  have hothers : ∀ c,other c → Lent G fs c ∧ c ≠ table .double :=
    fun c hc => ⟨S.others c hc,fun h => S.apart _ (h ▸ hc)⟩
  refine ⟨⟨hkeeps.ready,⟨S.laid.direct,?_,?_,?_,?_⟩,?_,distinct_update S.distinct hnew _,
    fun c hc => hkeeps.lent c (hothers c hc),?_⟩,hkeeps.moved hothers⟩
  · have hne : Table.single ≠ .child i := by simp
    rw [Function.update_of_ne hne]
    exact S.laid.single
  · have hne : Table.double ≠ .child i := by simp
    rw [Function.update_of_ne hne]
    exact S.laid.double
  · intro x hx j hj
    rw [hentry _ j hj,pointer_update_child]
    by_cases hxi : x = .child i
    · subst hxi
      rw [Function.update_self,if_neg fun h => hnew .double h.1.symm,if_neg (by simp),hempty j hj]
      exact (S.laid.holes _ hmissing j hj).symm
    · rw [Function.update_of_ne hxi] at hx ⊢
      by_cases hxd : x = .double
      · subst hxd
        simp only [true_and]
        split
        · rfl
        · exact S.laid.entries _ hx j hj
      · rw [if_neg fun h => hxd (S.distinct x _ hx h.1),if_neg fun h => hxd h.1]
        exact S.laid.entries x hx j hj
  · intro x hx j hj
    have hxi : x ≠ .child i := by
      rintro rfl
      rw [Function.update_self] at hx
      exact ht.ne_zero hx
    rw [Function.update_of_ne hxi] at hx
    rw [pointer_update_child,if_neg]
    · exact S.laid.holes x hx j hj
    · rintro ⟨rfl,-⟩
      exact hd hx
  · intro x hx
    by_cases hxi : x = .child i
    · rw [hxi,Function.update_self]
      exact hkeeps.lent t ⟨ht,(hnew .double).symm⟩
    · rw [Function.update_of_ne hxi] at hx ⊢
      by_cases hxd : x = .double
      · rw [hxd]
        exact hlent
      · exact hkeeps.lent _ ⟨S.tables x hx,fun h => hxd (S.distinct x _ hx h)⟩
  · intro x hx
    by_cases hxi : x = .child i
    · rw [hxi,Function.update_self] at hx
      exact hother hx
    · rw [Function.update_of_ne hxi] at hx
      exact S.apart x hx

/-- It makes sure that a lower table exists, too. -/
theorem childTable_spec (S : Stands k B G fs inode block table other) {i : ℕ}
    (hd : table .double ≠ 0) (hi : i < B) :
    (fs.childTable (4 * i + fs.blockSize * table .double) 0 = (0,0,fs) ∧ table (.child i) = 0 ∧
      freeSum blockKind G fs = 0) ∨
    ∃ t c fs',fs.childTable (4 * i + fs.blockSize * table .double) 0 = (t,c,fs') ∧ t ≠ 0 ∧
      Stands k B G fs' inode block (Function.update table (.child i) t) other ∧
      Moved fs fs' other := by
  have hread : fs.volume.readWord (4 * i + fs.blockSize * table .double) 4 0 =
      (((4 : ℕ) : ℤ),table (.child i)) := by
    rw [S.ready.mounted.infallible.readWord]
    exact congrArg _ (S.laid.entries _ hd i hi)
  have hserved : ¬((4 : ℕ) : ℤ) < 0 := by decide
  by_cases hthere : table (.child i) = 0
  · rcases S.ready.allocTable with ⟨hrun,hsum⟩ | ⟨t,fs',hrun,hfree,ht,hempty,hkeeps⟩
    · refine .inl ⟨?_,hthere,hsum⟩
      simp only [Ext2.childTable,hread,if_neg hserved,hthere,ne_eq,not_true_eq_false,if_false,hrun,
        if_true]
    · obtain ⟨hnew,hother⟩ := S.fresh hfree ht.ne_zero
      have S' : Stands k B G fs' inode block table other :=
        S.keeps hkeeps S.tables fun b hb => ⟨hb,S.others b hb⟩
      obtain ⟨S'',hmoved⟩ := S'.plantChild hd hi hthere ht hnew hother hempty
      refine .inr ⟨t,t,planted fs' (table .double) i t,?_,ht.ne_zero,S'',
        (hkeeps.moved S.others).trans hmoved⟩
      rw [← frozen_blockSize hkeeps.frozen] at hread ⊢
      simp only [Ext2.childTable,hread,if_neg hserved,hthere,ne_eq,not_true_eq_false,if_false,hrun,
        ht.ne_zero,hkeeps.ready.mounted.infallible.write,leBytes_length]
      rfl
  · refine .inr ⟨table (.child i),0,fs,?_,hthere,?_,Moved.refl fs other⟩
    · simp only [Ext2.childTable,hread,if_neg hserved,hthere,ne_eq,not_false_eq_true,if_true]
    · rw [Function.update_eq_self]
      exact S

/-- A table that starts with a pointer is not taken for empty. -/
theorem Stands.not_zeroed (S : Stands k B G fs inode block table other) (ha : table a ≠ 0)
    (hp : pointer B block table a 0 ≠ 0) : fs.isBlockZeroed (table a) = false := by
  have hend := S.ready.end_le (S.tables a ha).group
  have hlarge := S.ready.blockSize_large
  have hB := S.ready.mounted.large
  obtain ⟨rounds,hrounds⟩ : ∃ r,(fs.blockSize + 15) / 16 = r + 1 :=
    ⟨(fs.blockSize + 15) / 16 - 1,by omega⟩
  have hplace : fs.blockSize * table a % 2 ^ 32 = fs.blockSize * table a :=
    Nat.mod_eq_of_lt (by omega)
  rw [Ext2.isBlockZeroed,hrounds,Ext2.isBlockZeroedLoop,hplace,S.ready.mounted.infallible.read]
  simp only [Nat.cast_ofNat,ne_eq,not_true_eq_false,if_false]
  rw [if_pos]
  intro hzeros
  refine hp ((S.laid.entries a ha 0 (by omega)).symm.trans ?_)
  have hbyte : ∀ i < 4,fs.volume.data (4 * 0 + fs.blockSize * table a + i) = 0 := by
    intro i hi
    have hget : (slice fs.volume.data (fs.blockSize * table a) 16).getD i 0 =
        fs.volume.data (fs.blockSize * table a + i) := slice_getD (by omega)
    rw [hzeros] at hget
    rw [Nat.mul_zero,Nat.zero_add,← hget]
    interval_cases i <;> rfl
  refine (word_congr (t := fun _ => 0) (q := 0) hbyte).trans ?_
  simp [word,slice,leValue,List.range_succ]

/-- What setting a pointer leaves: the file with the new pointer, or as it was
when a table is missing and no block is left for one. -/
def Sets (k B G : ℕ) (fs : Ext2) (inode : FSINode) (block : ℕ → ℕ) (other : ℕ → Prop)
    (n b : ℕ) (result : Bool × Ext2 × FSINode) : Prop :=
  ∃ fs' f d table',Moved fs fs' other ∧
    ((result = (true,fs',{ inode with iBlock := f, dirty := d }) ∧
      Stands k B G fs' { inode with iBlock := f, dirty := d } (Function.update block n b) table'
        other) ∨
    (result = (false,fs',{ inode with iBlock := f, dirty := d }) ∧
      Stands k B G fs' { inode with iBlock := f, dirty := d } block table' other ∧
      block n = 0 ∧ freeSum blockKind G fs' = 0))

/-- The first block of the table that logical block n belongs to is there, and
so is the first one of the double range if n lies in it. -/
def Anchored (B : ℕ) (block : ℕ → ℕ) (n : ℕ) : Prop :=
  12 ≤ n → block (n - (n - 12) % B) ≠ 0 ∧ (12 + B ≤ n → block (12 + B) ≠ 0)

/-- In the single range. -/
theorem setSingle_spec (S : Stands k B G fs inode block table other) (hl : 12 ≤ n)
    (hu : n < 12 + B) (hb : b < 2 ^ 32) (hfirst : Anchored B (Function.update block n b) n) :
    Sets k B G fs inode block other n b (fs.setSingle inode n b) := by
  have hplace : place B n = (.single,n - 12) := by rw [place,if_pos hu]
  rcases rootTable_spec S (.inl ⟨rfl,rfl⟩) with ⟨hrun,hmissing,hsum⟩ |
    ⟨fs1,f,d,t,hrun,ht,S1,hmoved⟩
  · refine ⟨fs,inode.iBlock,inode.dirty,table,Moved.refl fs other,.inr ⟨?_,S,?_,hsum⟩⟩
    · simp only [Ext2.setSingle,hrun,Bool.not_false,if_true]
    · have hhole := S.laid.holes .single hmissing (n - 12) (by omega)
      rwa [pointer,show 12 + (n - 12) = n by omega] at hhole
  · set table1 := Function.update table .single t with htable1
    have hthere : table1 .single ≠ 0 := by rw [htable1,Function.update_self]; exact ht
    have hwrite := writePointer_eq S1.ready (table1 .single) (n - 12) b
    obtain ⟨S2,hmoved2⟩ := S1.plantBlock (b := b) hl (by rw [hplace]; exact hthere)
      (by rw [hplace]; show n - 12 < B; omega) hb
    rw [hplace] at S2 hmoved2
    have hkept := S2.not_zeroed hthere (by
      have hone := (hfirst hl).1
      rwa [show n - (n - 12) % B = 12 + 0 by rw [Nat.mod_eq_of_lt (by omega)]; omega] at hone)
    refine ⟨_,f,d,table1,hmoved.trans hmoved2,.inl ⟨?_,S2⟩⟩
    simp only [Ext2.setSingle,hrun,Bool.not_true,Bool.false_eq_true,if_false,S1.laid.single,hwrite,
      Ext2.dropRoot,hkept,Bool.not_false,if_true]

/-- In the part of the double range that the driver looks up right. -/
theorem setDouble_spec (S : Stands k B G fs inode block table other) (hl : 12 + B ≤ n)
    (hu : n < 12 + B ^ 2) (hb : b < 2 ^ 32)
    (hfirst : Anchored B (Function.update block n b) n) :
    Sets k B G fs inode block other n b (fs.setDouble inode (n - (12 + B)) b) := by
  have hB := S.ready.mounted.large
  have hdiv : ∀ fs',frozen fs' = frozen fs → fs'.blockSize / 4 = B := by
    intro fs' h
    rw [frozen_blockSize h,S.ready.mounted.blockSize]
    omega
  have hplace : place B n = (.child ((n - (12 + B)) / B),(n - (12 + B)) % B) := by
    rw [place,if_neg (by omega)]
  have hi : (n - (12 + B)) / B < B := by
    rw [Nat.div_lt_iff_lt_mul (by omega),← pow_two]
    omega
  have hj : (n - (12 + B)) % B < B := Nat.mod_lt _ (by omega)
  have hsplit := Nat.div_add_mod' (n - (12 + B)) B
  obtain ⟨hone,hroot⟩ := hfirst (by omega)
  have hshift : (n - 12) % B = (n - (12 + B)) % B := by
    rw [show n - 12 = n - (12 + B) + B by omega,Nat.add_mod_right]
  have hhole : ∀ table',Laid B fs inode block table' →
      table' (.child ((n - (12 + B)) / B)) = 0 → block n = 0 := by
    intro table' L hzero
    have h := L.holes _ hzero _ hj
    rwa [pointer,show 12 + B + (n - (12 + B)) / B * B + (n - (12 + B)) % B = n by omega] at h
  rcases rootTable_spec S (.inr ⟨rfl,rfl⟩) with ⟨hrun,hmissing,hsum⟩ |
    ⟨fs1,f,d,t,hrun,ht,S1,hmoved1⟩
  · refine ⟨fs,inode.iBlock,inode.dirty,table,Moved.refl fs other,.inr ⟨?_,S,?_,hsum⟩⟩
    · simp only [Ext2.setDouble,hrun,Bool.not_false,if_true]
    · exact hhole table S.laid (S.laid.holes .double hmissing _ hi)
  · set table1 := Function.update table .double t with htable1
    have hthere : table1 .double ≠ 0 := by rw [htable1,Function.update_self]; exact ht
    have hchild : table1 (.child ((n - (12 + B)) / B)) = table (.child ((n - (12 + B)) / B)) := by
      rw [htable1,Function.update_of_ne (by simp)]
    have hroot1 := S1.laid.double
    have hdiv1 : fs.blockSize / 4 = B := hdiv fs rfl
    rcases childTable_spec S1 hthere hi with ⟨hrun2,hmissing,hsum⟩ |
      ⟨c,c',fs2,hrun2,hc,S2,hmoved2⟩
    · refine ⟨fs1,f,d,table1,hmoved1,.inr ⟨?_,S1,hhole table S.laid (hchild ▸ hmissing),hsum⟩⟩
      simp only [Ext2.setDouble,hrun,Bool.not_true,Bool.false_eq_true,if_false,hdiv1,hroot1,hrun2,
        if_true]
    · set table2 := Function.update table1 (.child ((n - (12 + B)) / B)) c with htable2
      have hthere2 : table2 (.child ((n - (12 + B)) / B)) = c := Function.update_self _ _ _
      have hwrite := writePointer_eq S2.ready c ((n - (12 + B)) % B) b
      obtain ⟨S3,hmoved3⟩ := S2.plantBlock (n := n) (b := b) (by omega)
        (by rw [hplace]; show table2 _ ≠ 0; rw [hthere2]; exact hc) (by rw [hplace]; exact hj) hb
      rw [hplace] at S3 hmoved3
      simp only [hthere2] at S3 hmoved3
      have hkept : (planted fs2 c ((n - (12 + B)) % B) b).isBlockZeroed c = false := by
        have h := S3.not_zeroed (a := .child ((n - (12 + B)) / B)) (hthere2.symm ▸ hc) (by
          rw [pointer,show 12 + B + (n - (12 + B)) / B * B + 0 = n - (n - 12) % B by omega]
          exact hone)
        rwa [hthere2] at h
      have hfirst2 : table2 (.child 0) ≠ 0 := by
        intro hzero
        have h := S3.laid.holes _ hzero 0 (by omega)
        rw [pointer,show 12 + B + 0 * B + 0 = 12 + B by omega] at h
        exact hroot hl h
      have hdouble2 : table2 .double = table1 .double := by
        rw [htable2,Function.update_of_ne (by simp)]
      have hkept2 : (planted fs2 c ((n - (12 + B)) % B) b).isBlockZeroed (table1 .double) =
          false := by
        have h := S3.not_zeroed (a := .double) (hdouble2.symm ▸ hthere) hfirst2
        rwa [hdouble2] at h
      refine ⟨_,f,d,table2,(hmoved1.trans hmoved2).trans hmoved3,.inl ⟨?_,S3⟩⟩
      simp only [Ext2.setDouble,hrun,Bool.not_true,Bool.false_eq_true,if_false,hdiv1,hroot1,hrun2,
        if_neg hc,hwrite,Ext2.dropChild,hkept,Bool.not_false,if_true,Ext2.dropRoot,hkept2]

/-- In all of the range that the driver looks up right. -/
theorem setINodeBlock_spec (S : Stands k B G fs inode block table other) (hn : n < 12 + B ^ 2)
    (hb : b < 2 ^ 32) (hfirst : Anchored B (Function.update block n b) n) :
    Sets k B G fs inode block other n b (fs.setINodeBlock inode n b) := by
  have hsq := S.ready.mounted.square
  have hlarge := S.ready.mounted.large
  obtain ⟨hB2,hB3⟩ := S.ready.mounted.growth
  have hcube := S.ready.mounted.cube
  have hdiv : fs.blockSize / 4 = B := by rw [S.ready.mounted.blockSize]; omega
  have e1 : B * B % 2 ^ 32 = B ^ 2 := by rw [← pow_two,Nat.mod_eq_of_lt hsq]
  have e3 : (12 + B) % 2 ^ 32 = 12 + B := Nat.mod_eq_of_lt (by omega)
  have e4 : (12 + B ^ 2) % 2 ^ 32 = 12 + B ^ 2 := Nat.mod_eq_of_lt (by omega)
  simp only [Ext2.setINodeBlock,hdiv,e1,e3,e4,if_pos hn]
  by_cases h1 : n < 12
  · rw [if_pos h1]
    refine ⟨fs,Function.update inode.iBlock n b,true,table,Moved.refl fs other,.inl ⟨rfl,S.ready,
      ⟨?_,?_,?_,?_,?_⟩,S.tables,S.distinct,S.others,S.apart⟩⟩
    · intro m hm
      show Function.update inode.iBlock n b m = _
      rcases eq_or_ne m n with rfl | hmn
      · rw [Function.update_self,Function.update_self]
      · rw [Function.update_of_ne hmn,Function.update_of_ne hmn]
        exact S.laid.direct m hm
    · exact (Function.update_of_ne (by omega) _ _).trans S.laid.single
    · exact (Function.update_of_ne (by omega) _ _).trans S.laid.double
    · intro x hx j hj
      rw [pointer_low h1]
      exact S.laid.entries x hx j hj
    · intro x hx j hj
      rw [pointer_low h1]
      exact S.laid.holes x hx j hj
  · rw [if_neg h1]
    by_cases h2 : n < 12 + B
    · rw [if_pos h2]
      exact setSingle_spec S (by omega) h2 hb hfirst
    · rw [if_neg h2]
      exact setDouble_spec S (by omega) hn hb hfirst

end Tables

end WootOs.Ext2FileMaps
