import WootOs.Ext2Names

/-!
# What work on files leaves alone

Reading and writing files allocates and frees blocks, moves bytes and notes the
time. It does not touch the geometry of the file system, nor what the superblock
and the descriptors say about inodes.
-/

namespace WootOs.Ext2Steady

open ByteStore MachineInt Ext2Driver Ext2Names

/-- The part of a file system that work on files does not change. -/
def aside (fs : Ext2) : Ext2 where
  volume := ⟨fun _ => 0,fs.volume.served⟩
  superBlock := { fs.superBlock with sFreeBlocksCount := 0, sWtime := 0 }
  blockSize := fs.blockSize
  blockGroupCount := fs.blockGroupCount
  bgdt := fun g => { fs.bgdt g with bgFreeBlocksCount := 0 }
  superDirty := false

section Blocks

variable {fs fs' : Ext2} {inode : FSINode} {t : ℕ}

/-- What is read off that part stays. -/
theorem aside_eq {α : Type*} {f : Ext2 → α} (hf : ∀ x,f x = f (aside x))
    (h : aside fs' = aside fs) : f fs' = f fs := by
  rw [hf fs',h,←hf fs]

/-- A write moves bytes only. -/
theorem aside_write (buf : List UInt8) (pos : ℕ) :
    aside { fs with volume := (fs.volume.write buf pos).2 } = aside fs := rfl

theorem aside_touch : aside (fs.touch t) = aside fs := rfl

theorem aside_updateCopies {bg startOffs : ℕ} {field : List UInt8} {is : List ℕ} :
    aside (fs.updateCopies bg startOffs field is).2 = aside fs := by
  induction is generalizing fs with
  | nil => rfl
  | cons i is ih =>
    rw [Ext2.updateCopies]
    split
    · exact ih
    · simp only
      split
      · rfl
      · exact ih

theorem aside_updateBGDT {bg startOffs : ℕ} {field : List UInt8} :
    aside (fs.updateBGDT bg startOffs field).2 = aside fs := aside_updateCopies

/-- Another counter of free blocks in a descriptor. -/
theorem aside_setFreeCount {g n : ℕ} {v : Volume} (hv : v.served = fs.volume.served) :
    aside { fs with
      volume := v
      bgdt := Function.update fs.bgdt g (blockKind.setFreeCount (fs.bgdt g) n) } = aside fs := by
  have hbgdt : (fun i => { Function.update fs.bgdt g (blockKind.setFreeCount (fs.bgdt g) n) i with
      bgFreeBlocksCount := 0 }) = fun i => { fs.bgdt i with bgFreeBlocksCount := 0 } := by
    funext i
    by_cases hi : i = g
    · subst hi
      rw [Function.update_self]
      rfl
    · rw [Function.update_of_ne hi]
  simp only [aside,hv,hbgdt]

/-- Another counter of free blocks in the superblock. -/
theorem aside_setTotal {n : ℕ} {b : Bool} :
    aside { fs with superBlock := blockKind.setTotal fs.superBlock n, superDirty := b } =
      aside fs := rfl

theorem aside_takeBit {g rest j : ℕ} : aside (fs.takeBit blockKind g rest j).2 = aside fs := by
  induction rest generalizing j with
  | zero => rfl
  | succ rest ih =>
    rw [Ext2.takeBit]
    simp only
    split
    · rfl
    · split
      · exact ih
      · split
        · rfl
        · split
          · exact aside_updateBGDT.trans (aside_setFreeCount rfl)
          · exact aside_setTotal.trans (aside_updateBGDT.trans (aside_setFreeCount rfl))

theorem aside_dropBit {g n : ℕ} : aside (fs.dropBit blockKind g n).2 = aside fs := by
  rw [Ext2.dropBit]
  simp only
  split
  · rfl
  · split
    · rfl
    · split
      · rfl
      · exact aside_setFreeCount rfl

theorem aside_allocBlockInGroup {g : ℕ} : aside (fs.allocBlockInGroup g).2 = aside fs := by
  rw [Ext2.allocBlockInGroup]
  split
  · rfl
  · simp only
    split <;> exact aside_takeBit

theorem aside_allocBlockFrom {preferred : ℕ} {group : Option ℕ} {is : List ℕ} :
    aside (fs.allocBlockFrom preferred group is).2.2 = aside fs := by
  induction is generalizing fs group with
  | nil => rfl
  | cons i is ih =>
    rw [Ext2.allocBlockFrom]
    split
    · exact ih
    · simp only
      split
      · exact aside_allocBlockInGroup
      · exact ih.trans aside_allocBlockInGroup

theorem aside_allocBlock {preferred : ℕ} :
    aside (fs.allocBlock preferred).2.2 = aside fs := by
  rw [Ext2.allocBlock]
  split
  · simp only
    split
    · exact aside_allocBlockInGroup
    · exact aside_allocBlockFrom.trans aside_allocBlockInGroup
  · exact aside_allocBlockFrom

theorem aside_freeBlock {b : ℕ} : aside (fs.freeBlock b).2 = aside fs := by
  rw [Ext2.freeBlock]
  split
  · rfl
  · simp only
    split
    · exact aside_dropBit
    · split
      · exact aside_updateBGDT.trans aside_dropBit
      · exact aside_setTotal.trans (aside_updateBGDT.trans aside_dropBit)

theorem aside_zeroBlock {b : ℕ} : aside (fs.zeroBlock b).2 = aside fs := rfl

theorem aside_writePointer {b pos : ℕ} : aside (fs.writePointer b pos).2 = aside fs := rfl

theorem aside_allocTable : aside fs.allocTable.2 = aside fs := by
  rw [Ext2.allocTable]
  simp only
  split
  · exact aside_allocBlock
  · split
    · exact aside_freeBlock.trans (aside_zeroBlock.trans aside_allocBlock)
    · exact aside_zeroBlock.trans aside_allocBlock

theorem aside_rootTable {slot : ℕ} : aside (fs.rootTable inode slot).2.1 = aside fs := by
  rw [Ext2.rootTable]
  split
  · rfl
  · simp only
    split <;> exact aside_allocTable

theorem aside_childTable {pos old : ℕ} : aside (fs.childTable pos old).2.2 = aside fs := by
  rw [Ext2.childTable]
  simp only
  split
  · rfl
  · split
    · rfl
    · split
      · exact aside_allocTable
      · split
        · exact aside_freeBlock.trans ((aside_write _ _).trans aside_allocTable)
        · exact (aside_write _ _).trans aside_allocTable

theorem aside_dropChild {table pos : ℕ} : aside (fs.dropChild table pos).2 = aside fs := by
  rw [Ext2.dropChild]
  split
  · rfl
  · exact (aside_write _ _).trans aside_freeBlock

theorem aside_dropRoot {slot : ℕ} : aside (fs.dropRoot inode slot).1 = aside fs := by
  rw [Ext2.dropRoot]
  split
  · rfl
  · exact aside_freeBlock

theorem aside_setSingle {n b : ℕ} : aside (fs.setSingle inode n b).2.1 = aside fs := by
  rw [Ext2.setSingle]
  simp only
  split
  · exact aside_rootTable
  · split
    · exact aside_writePointer.trans aside_rootTable
    · exact aside_dropRoot.trans (aside_writePointer.trans aside_rootTable)

theorem aside_setDouble {n b : ℕ} : aside (fs.setDouble inode n b).2.1 = aside fs := by
  rw [Ext2.setDouble]
  simp only
  split
  · exact aside_rootTable
  · split
    · exact aside_childTable.trans aside_rootTable
    · split
      · exact aside_writePointer.trans (aside_childTable.trans aside_rootTable)
      · split
        · exact aside_dropChild.trans
            (aside_writePointer.trans (aside_childTable.trans aside_rootTable))
        · exact aside_dropRoot.trans (aside_dropChild.trans
            (aside_writePointer.trans (aside_childTable.trans aside_rootTable)))

theorem aside_setTriple {n b : ℕ} : aside (fs.setTriple inode n b).2.1 = aside fs := by
  rw [Ext2.setTriple]
  simp only
  split
  · exact aside_rootTable
  · split
    · exact aside_childTable.trans aside_rootTable
    · split
      · exact aside_childTable.trans (aside_childTable.trans aside_rootTable)
      · have hwritten : ∀ l1 old l2 old' b pos,aside ((((fs.rootTable inode 14).2.1.childTable
            l1 old).2.2.childTable l2 old').2.2.writePointer b pos).2 = aside fs :=
          fun _ _ _ _ _ _ => aside_writePointer.trans
            (aside_childTable.trans (aside_childTable.trans aside_rootTable))
        split
        · exact hwritten _ _ _ _ _ _
        · split
          · exact aside_dropChild.trans (hwritten _ _ _ _ _ _)
          · split
            · exact aside_dropChild.trans (aside_dropChild.trans (hwritten _ _ _ _ _ _))
            · exact aside_dropRoot.trans
                (aside_dropChild.trans (aside_dropChild.trans (hwritten _ _ _ _ _ _)))

theorem aside_setINodeBlock {n b : ℕ} : aside (fs.setINodeBlock inode n b).2.1 = aside fs := by
  rw [Ext2.setINodeBlock]
  split
  · rfl
  · split
    · exact aside_setSingle
    · split
      · exact aside_setDouble
      · split
        · exact aside_setTriple
        · rfl

theorem aside_mapBlock {position left : ℕ} :
    aside (fs.mapBlock inode position left).2.1 = aside fs := by
  rw [Ext2.mapBlock]
  simp only
  split
  · rfl
  · split
    · exact aside_allocBlock
    · split
      · exact aside_freeBlock.trans (aside_setINodeBlock.trans aside_allocBlock)
      · exact aside_setINodeBlock.trans aside_allocBlock

theorem aside_fillLoop {rounds pos : ℕ} {buf : List UInt8} :
    aside (Ext2.fillLoop t rounds fs inode pos buf).fs = aside fs := by
  induction rounds generalizing fs inode pos buf with
  | zero => rfl
  | succ rounds ih =>
    rw [Ext2.fillLoop]
    split
    · rfl
    · simp only
      split
      · exact aside_mapBlock
      · split
        · exact aside_mapBlock
        · split
          · exact aside_touch.trans aside_mapBlock
          · exact ih.trans (aside_touch.trans aside_mapBlock)

theorem aside_shrinkLoop {blk rest : ℕ} :
    aside (fs.shrinkLoop inode blk rest).2.1 = aside fs := by
  induction rest generalizing fs inode blk with
  | zero => rfl
  | succ rest ih =>
    rw [Ext2.shrinkLoop]
    simp only
    split
    · rfl
    · exact ih.trans (aside_setINodeBlock.trans aside_freeBlock)

theorem aside_resize {size : ℤ} : aside (fs.resize t inode size).2.1 = aside fs := by
  rw [Ext2.resize]
  simp only
  split
  · split <;> exact aside_shrinkLoop
  · split
    · split
      · exact aside_fillLoop
      · split <;> exact aside_fillLoop
    · rfl

/-- Writing a file. -/
theorem aside_file_write {buf : List UInt8} {pos : ℕ} :
    aside (fs.write t inode buf pos).2.1 = aside fs := by
  have hgrown : aside (if fs.getSize inode < pos then fs.resize t inode (signed 64 pos)
      else (0,fs,inode)).2.1 = aside fs := by
    split
    · exact aside_resize
    · rfl
  rw [Ext2.write]
  generalize (if fs.getSize inode < pos then fs.resize t inode (signed 64 pos)
    else (0,fs,inode)) = g at hgrown
  simp only
  by_cases herr : g.1 < 0
  · rw [if_pos herr]
    exact hgrown
  · rw [if_neg herr]
    split <;> exact aside_fillLoop.trans hgrown

end Blocks

end WootOs.Ext2Steady
