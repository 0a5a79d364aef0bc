import WootOs.VolumeCacheRuns
import WootOs.BitmapStore

/-!
# The ext2 driver

The volume below an ext2 file system is a byte array that may refuse or cut
short an access; a cached volume that shows an array is one. The driver keeps
the superblock and the block group descriptor table in memory, with copies of
the table in every group that carries a superblock. Here are its allocators,
its block map and its file transfers, as the source computes them: every
product and sum of 32-bit values is reduced where the source reduces it.
-/

namespace WootOs.Ext2Driver

open ByteStore BitmapStore MachineInt VolumeCacheRuns VolumeCacheTransfer

/-- The volume a file system is mounted on. -/
structure Volume where
  /-- The bytes of the volume. -/
  data : Store
  /-- What an access of n bytes at a position returns: the number of bytes
  transferred, or a negative error. -/
  served : ℕ → ℕ → ℤ

/-- Read up to n bytes. -/
def Volume.read (v : Volume) (pos n : ℕ) : ℤ × List UInt8 :=
  (v.served pos n,slice v.data pos (min n (v.served pos n).toNat))

/-- Write the given bytes, or a prefix of them. -/
def Volume.write (v : Volume) (src : List UInt8) (pos : ℕ) : ℤ × Volume :=
  (v.served pos src.length,
    { v with data := patch v.data pos (src.take (v.served pos src.length).toNat) })

/-- Read a little-endian word of n bytes over an old value, whose remaining
bytes stay when the read comes back short. -/
def Volume.readWord (v : Volume) (pos n old : ℕ) : ℤ × ℕ :=
  let r := v.read pos n
  (r.1,leValue (r.2 ++ (leBytes n old).drop r.2.length))

/-- Every access succeeds in full. -/
def Volume.Infallible (v : Volume) : Prop := ∀ pos n, v.served pos n = n

/-- A volume over an array of the given size that clips accesses to it. -/
def Volume.ofArray (size : ℕ) (arr : Store) : Volume := ⟨arr,fun pos n => clip size n pos⟩

/-- Reading such a volume is the flat array's reply, which the buffer cache
gives for the array it shows. -/
theorem ofArray_read (size : ℕ) (arr : Store) (pos n : ℕ) :
    (Volume.ofArray size arr).read pos n =
      ((flatReply size arr (.read pos n)).count,(flatReply size arr (.read pos n)).bytes) := by
  have hmin : min n (clip size n pos) = clip size n pos := by rw [clip]; omega
  simp only [Volume.read,Volume.ofArray,flatReply,Int.toNat_natCast,hmin]

/-- Writing it changes the array as the flat array's write does. -/
theorem ofArray_write (size : ℕ) (arr : Store) (src : List UInt8) (pos : ℕ) :
    ((Volume.ofArray size arr).write src pos).1 = (flatReply size arr (.write src pos)).count ∧
    ((Volume.ofArray size arr).write src pos).2 = Volume.ofArray size
      (applied arr (flatReply size arr (.write src pos)).bytes (.write src pos)) := by
  simp [Volume.write,Volume.ofArray,flatReply,applied]

section

variable {v : Volume}

/-- A full read hands over the bytes of its range. -/
theorem Volume.Infallible.read (h : v.Infallible) (pos n : ℕ) :
    v.read pos n = ((n : ℤ),slice v.data pos n) := by
  simp [Volume.read,h pos n]

/-- A full read of a word ignores the old value. -/
theorem Volume.Infallible.readWord (h : v.Infallible) (pos n old : ℕ) :
    v.readWord pos n old = ((n : ℤ),word v.data n pos) := by
  have hdrop : (leBytes n old).drop n = [] := List.drop_eq_nil_of_le (by simp)
  simp [Volume.readWord,h.read,word,hdrop]

/-- A full write stores all its bytes. -/
theorem Volume.Infallible.write (h : v.Infallible) (src : List UInt8) (pos : ℕ) :
    v.write src pos = ((src.length : ℤ),{ v with data := patch v.data pos src }) := by
  simp [Volume.write,h pos src.length]

/-- Writing changes the bytes and not which accesses succeed. -/
theorem Volume.Infallible.withData (h : v.Infallible) (data : Store) :
    ({ v with data := data } : Volume).Infallible := h

end

/-- The superblock fields that the modelled functions use. -/
structure SuperBlock where
  /-- Number of blocks. -/
  sBlocksCount : ℕ
  /-- Number of free blocks. -/
  sFreeBlocksCount : ℕ
  /-- Number of free inodes. -/
  sFreeInodesCount : ℕ
  /-- Block that holds the superblock: 1 with blocks of 1 KiB, else 0. -/
  sFirstDataBlock : ℕ
  /-- Block size as a power of two of 1 KiB. -/
  sLogBlockSize : ℕ
  /-- Blocks in one group. -/
  sBlocksPerGroup : ℕ
  /-- Inodes in one group. -/
  sInodesPerGroup : ℕ
  /-- Time of the last write. -/
  sWtime : ℕ
  /-- Revision of the format. -/
  sRevLevel : ℕ
  /-- Bytes in one on-disk inode. -/
  sInodeSize : ℕ
  /-- Features that an old driver may only read. -/
  sFeatureRoCompat : ℕ

/-- The fields of a block group descriptor that the modelled functions use. -/
structure BlockGroupDescriptor where
  /-- Block of the block bitmap. -/
  bgBlockBitmap : ℕ
  /-- Block of the inode bitmap. -/
  bgInodeBitmap : ℕ
  /-- First block of the inode table. -/
  bgInodeTable : ℕ
  /-- Number of free blocks. -/
  bgFreeBlocksCount : ℕ
  /-- Number of free inodes. -/
  bgFreeInodesCount : ℕ

/-- A mounted file system. -/
structure Ext2 where
  /-- The volume it is on. -/
  volume : Volume
  /-- Superblock in memory. -/
  superBlock : SuperBlock
  /-- Bytes in one block. -/
  blockSize : ℕ
  /-- Number of block groups. -/
  blockGroupCount : ℕ
  /-- Descriptor table in memory. -/
  bgdt : ℕ → BlockGroupDescriptor
  /-- Whether the superblock in memory is newer than the one on the volume. -/
  superDirty : Bool

/-- An inode in memory, with the fields that the modelled functions use. -/
structure FSINode where
  /-- Type and permissions. -/
  iMode : ℕ
  /-- Low word of the size. -/
  iSize : ℕ
  /-- Time of the last access. -/
  iAtime : ℕ
  /-- Time of the last modification. -/
  iMtime : ℕ
  /-- Occupied space in units of 512 bytes. -/
  iBlocks : ℕ
  /-- Twelve direct block pointers, then the single, double and triple
  indirect one. -/
  iBlock : ℕ → ℕ
  /-- High word of the size of a regular file. -/
  iDirAcl : ℕ
  /-- Whether it is newer than its copy on the volume. -/
  dirty : Bool

/-- The volume's contents replaced. -/
def Ext2.withData (fs : Ext2) (data : Store) : Ext2 :=
  { fs with volume := ⟨data,fs.volume.served⟩ }

/-- Size of one descriptor on the volume. -/
def descriptorSize : ℕ := 32

namespace Ext2

/-- A file system as its constructor sets it up, with the descriptor table
that it read. -/
def new (volume : Volume) (superBlock : SuperBlock) (bgdt : ℕ → BlockGroupDescriptor) : Ext2 where
  volume := volume
  superBlock := superBlock
  blockSize := (1024 * 2 ^ superBlock.sLogBlockSize) % 2 ^ 32
  blockGroupCount := ((superBlock.sBlocksCount + (2 ^ 32 - 1)) % 2 ^ 32 /
    superBlock.sBlocksPerGroup + 1) % 2 ^ 32
  bgdt := bgdt
  superDirty := true

/-- Byte position of an inode; inode numbers are signed 64-bit. -/
def getINodeOffset (fs : Ext2) (n : ℤ) : ℕ :=
  let bg := unsigned 32 ((n - 1).tdiv fs.superBlock.sInodesPerGroup)
  let idx := unsigned 64 ((n - 1).tmod fs.superBlock.sInodesPerGroup)
  ((fs.bgdt bg).bgInodeTable * fs.blockSize + fs.superBlock.sInodeSize * idx) % 2 ^ 64

/-- Byte position of a group, computed in 32 bits. -/
def blockGroupOffset (fs : Ext2) (bg : ℕ) : ℕ :=
  (fs.superBlock.sFirstDataBlock + fs.superBlock.sBlocksPerGroup * bg) * fs.blockSize % 2 ^ 32

end Ext2

/-- Whether a is a power of b, by multiplying up; a rounds are enough. -/
def testRoot (a b : ℕ) : ℕ → ℕ → Bool
  | 0,num => num == a
  | fuel + 1,num => if a > num then testRoot a b fuel (num * b) else num == a

/-- Groups that carry a superblock on a sparse file system. -/
def ext2GroupSparse (group : ℕ) : Bool :=
  decide (group ≤ 1) || testRoot group 3 group 3 || testRoot group 5 group 5 ||
    testRoot group 7 group 7

namespace Ext2

/-- Whether a group carries a superblock and a descriptor table. -/
def hasSuperBlock (fs : Ext2) (bg : ℕ) : Bool :=
  !(fs.superBlock.sFeatureRoCompat.testBit 0 && !ext2GroupSparse bg)

/-- Byte position of a group's descriptor table. -/
def bgdtOffset (fs : Ext2) (bg : ℕ) : ℕ := fs.blockGroupOffset bg + fs.blockSize

/-- Write one field of a descriptor to the table copies of the listed groups,
stopping at the first failure. -/
def updateCopies (fs : Ext2) (bg startOffs : ℕ) (field : List UInt8) : List ℕ → Bool × Ext2
  | [] => (true,fs)
  | i :: is =>
    if !fs.hasSuperBlock i then fs.updateCopies bg startOffs field is else
    let w := fs.volume.write field (fs.bgdtOffset i + descriptorSize * bg + startOffs)
    if w.1 ≠ field.length then (false,{ fs with volume := w.2 })
    else updateCopies { fs with volume := w.2 } bg startOffs field is

/-- Write one field of a descriptor to every table copy on the volume. -/
def updateBGDT (fs : Ext2) (bg startOffs : ℕ) (field : List UInt8) : Bool × Ext2 :=
  fs.updateCopies bg startOffs field (List.range fs.blockGroupCount)

end Ext2

/-- What the block and the inode allocator do alike: a bitmap in each group
and counters of its clear bits. -/
structure BitmapKind where
  /-- Block of a group's bitmap. -/
  bitmap : BlockGroupDescriptor → ℕ
  /-- Counter of free bits in a descriptor. -/
  freeCount : BlockGroupDescriptor → ℕ
  /-- Set that counter. -/
  setFreeCount : BlockGroupDescriptor → ℕ → BlockGroupDescriptor
  /-- Offset of that counter in a descriptor. -/
  fieldOffset : ℕ
  /-- Number of bits in a bitmap. -/
  perGroup : SuperBlock → ℕ
  /-- Counter of free bits in the superblock. -/
  total : SuperBlock → ℕ
  /-- Set that counter. -/
  setTotal : SuperBlock → ℕ → SuperBlock

/-- The block bitmaps. -/
def blockKind : BitmapKind where
  bitmap := BlockGroupDescriptor.bgBlockBitmap
  freeCount := BlockGroupDescriptor.bgFreeBlocksCount
  setFreeCount := fun d n => { d with bgFreeBlocksCount := n }
  fieldOffset := 12
  perGroup := SuperBlock.sBlocksPerGroup
  total := SuperBlock.sFreeBlocksCount
  setTotal := fun s n => { s with sFreeBlocksCount := n }

/-- The inode bitmaps. -/
def inodeKind : BitmapKind where
  bitmap := BlockGroupDescriptor.bgInodeBitmap
  freeCount := BlockGroupDescriptor.bgFreeInodesCount
  setFreeCount := fun d n => { d with bgFreeInodesCount := n }
  fieldOffset := 14
  perGroup := SuperBlock.sInodesPerGroup
  total := SuperBlock.sFreeInodesCount
  setTotal := fun s n => { s with sFreeInodesCount := n }

/-- How the search for a clear bit in one group ends. -/
inductive Taken where
  /-- No bit is clear. -/
  | full
  /-- An access failed. -/
  | failed
  /-- A bit was clear and is now set. -/
  | bit (n : ℕ)

namespace Ext2

/-- Byte of a group's bitmap, in 32 bits. -/
def bitmapByte (K : BitmapKind) (fs : Ext2) (g j : ℕ) : ℕ :=
  (fs.blockSize * K.bitmap (fs.bgdt g) + j) % 2 ^ 32

/-- Search the bytes of a bitmap from the j-th on and take the lowest clear
bit, updating bitmap, descriptor, descriptor copies and superblock in turn. -/
def takeBit (K : BitmapKind) (fs : Ext2) (g : ℕ) : ℕ → ℕ → Taken × Ext2
  | 0,_ => (.full,fs)
  | rest + 1,j =>
    let byteOffs := fs.bitmapByte K g j
    let r := fs.volume.read byteOffs 1
    if r.1 ≠ 1 then (.failed,fs) else
    let b := r.2.headD 0
    if b = 0xFF then takeBit K fs g rest (j + 1) else
    let bit := lowestClear b
    let w := fs.volume.write [markBit b bit] byteOffs
    if w.1 ≠ 1 then (.failed,{ fs with volume := w.2 }) else
    let count := (K.freeCount (fs.bgdt g) + (2 ^ 16 - 1)) % 2 ^ 16
    let fs := { fs with volume := w.2,
                        bgdt := Function.update fs.bgdt g (K.setFreeCount (fs.bgdt g) count) }
    let u := fs.updateBGDT g K.fieldOffset (leBytes 2 (K.freeCount (fs.bgdt g)))
    if !u.1 then (.failed,u.2) else
    (.bit (j * 8 + bit),{ u.2 with
      superBlock := K.setTotal u.2.superBlock ((K.total u.2.superBlock + (2 ^ 32 - 1)) % 2 ^ 32)
      superDirty := true })

/-- Clear a set bit and count it in the descriptor. -/
def dropBit (K : BitmapKind) (fs : Ext2) (g n : ℕ) : Bool × Ext2 :=
  let byteOffs := fs.bitmapByte K g (n / 8)
  let r := fs.volume.read byteOffs 1
  if r.1 ≠ 1 then (false,fs) else
  let b := r.2.headD 0
  if !b.toNat.testBit (n % 8) then (false,fs) else
  let w := fs.volume.write [unmarkBit b (n % 8)] byteOffs
  if w.1 ≠ 1 then (false,{ fs with volume := w.2 }) else
  let count := (K.freeCount (fs.bgdt g) + 1) % 2 ^ 16
  (true,{ fs with volume := w.2,
                  bgdt := Function.update fs.bgdt g (K.setFreeCount (fs.bgdt g) count) })

/-- Count one more free bit in the superblock. -/
def countFree (K : BitmapKind) (fs : Ext2) : Ext2 :=
  { fs with superBlock := K.setTotal fs.superBlock ((K.total fs.superBlock + 1) % 2 ^ 32)
            superDirty := true }

/-- Allocate an inode in the first of the listed groups that has one; the
inode, its group and the new state. -/
def allocINodeFrom (fs : Ext2) : List ℕ → ℕ × Option ℕ × Ext2
  | [] => (0,none,fs)
  | i :: is =>
    if (fs.bgdt i).bgFreeInodesCount = 0 then fs.allocINodeFrom is else
    let t := fs.takeBit inodeKind i (fs.superBlock.sInodesPerGroup / 8) 0
    match t.1 with
    | .full => t.2.allocINodeFrom is
    | .failed => (0,none,t.2)
    | .bit n => ((1 + i * t.2.superBlock.sInodesPerGroup + n) % 2 ^ 32,some i,t.2)

/-- Allocate an inode. -/
def allocINode (fs : Ext2) : ℕ × Option ℕ × Ext2 :=
  fs.allocINodeFrom (List.range fs.blockGroupCount)

/-- Free an inode. Group and bit are computed with the number of blocks in a
group. -/
def freeINode (fs : Ext2) (inode : ℕ) : Bool × Ext2 :=
  if inode = 0 then (false,fs) else
  let iGroup := (inode - 1) / fs.superBlock.sBlocksPerGroup
  let d := fs.dropBit inodeKind iGroup ((inode - 1) % fs.superBlock.sBlocksPerGroup)
  if !d.1 then (false,d.2) else
  let u := d.2.updateBGDT iGroup inodeKind.fieldOffset
    (leBytes 2 (inodeKind.freeCount (d.2.bgdt iGroup)))
  if !u.1 then (false,u.2) else (true,u.2.countFree inodeKind)

/-- Allocate a block in one group; 0 when there is none or on a failure. -/
def allocBlockInGroup (fs : Ext2) (g : ℕ) : ℕ × Ext2 :=
  if (fs.bgdt g).bgFreeBlocksCount = 0 then (0,fs) else
  let t := fs.takeBit blockKind g (fs.superBlock.sBlocksPerGroup / 8) 0
  match t.1 with
  | .bit n => ((1 + g * t.2.superBlock.sBlocksPerGroup + n) % 2 ^ 32,t.2)
  | _ => (0,t.2)

/-- Try the listed groups in turn, except the preferred one; the block, the
last group tried and the new state. -/
def allocBlockFrom (fs : Ext2) (preferredGroup : ℕ) (group : Option ℕ) :
    List ℕ → ℕ × Option ℕ × Ext2
  | [] => (0,group,fs)
  | i :: is =>
    if i = preferredGroup then fs.allocBlockFrom preferredGroup group is else
    let blk := fs.allocBlockInGroup i
    if blk.1 ≠ 0 then (blk.1,some i,blk.2)
    else blk.2.allocBlockFrom preferredGroup (some i) is

/-- The group number that stands for no preference. -/
def noGroup : ℕ := 0xFFFFFFFF

/-- Allocate a block, in the preferred group if possible. -/
def allocBlock (fs : Ext2) (preferredGroup : ℕ) : ℕ × Option ℕ × Ext2 :=
  if preferredGroup ≠ noGroup then
    let blk := fs.allocBlockInGroup preferredGroup
    if blk.1 ≠ 0 then (blk.1,some preferredGroup,blk.2)
    else blk.2.allocBlockFrom preferredGroup (some preferredGroup)
      (List.range blk.2.blockGroupCount)
  else fs.allocBlockFrom preferredGroup none (List.range fs.blockGroupCount)

/-- Free a block. The result of the descriptor update is tested the wrong way
round, so the superblock is counted only when that update fails. -/
def freeBlock (fs : Ext2) (block : ℕ) : Bool × Ext2 :=
  if block = 0 then (false,fs) else
  let bGroup := (block - 1) / fs.superBlock.sBlocksPerGroup
  let d := fs.dropBit blockKind bGroup ((block - 1) % fs.superBlock.sBlocksPerGroup)
  if !d.1 then (false,d.2) else
  let u := d.2.updateBGDT bGroup blockKind.fieldOffset
    (leBytes 2 (blockKind.freeCount (d.2.bgdt bGroup)))
  if u.1 then (false,u.2) else (true,u.2.countFree blockKind)

/-- The block pointer of logical block n. -/
def getINodeBlock (fs : Ext2) (inode : FSINode) (n : ℕ) : ℕ :=
  let blocksPerBlock := fs.blockSize / 4
  let square := blocksPerBlock * blocksPerBlock % 2 ^ 32
  let cube := square * blocksPerBlock % 2 ^ 32
  if n < 12 then inode.iBlock n
  else if n < (12 + blocksPerBlock) % 2 ^ 32 then
    let offs := 4 * (n - 12)
    let r := fs.volume.readWord (offs + fs.blockSize * inode.iBlock 12) 4 0
    if r.1 < 0 then 0 else r.2
  else if n < (12 + square) % 2 ^ 32 then
    let diff := n - (12 + blocksPerBlock) % 2 ^ 32
    let offs := 4 * (diff / blocksPerBlock)
    let r := fs.volume.readWord (offs + fs.blockSize * inode.iBlock 13) 4 0
    if r.1 < 0 then 0 else
    let offs := 4 * (diff % blocksPerBlock)
    let r := fs.volume.readWord (offs + fs.blockSize * r.2) 4 r.2
    if r.1 < 0 then 0 else r.2
  else if n < (12 + cube) % 2 ^ 32 then
    let diff := n - (12 + square) % 2 ^ 32
    let offs := 4 * (diff / square)
    let r := fs.volume.readWord (offs + fs.blockSize * inode.iBlock 14) 4 0
    if r.1 < 0 then 0 else
    let offs := 4 * (diff % square / blocksPerBlock)
    let r := fs.volume.readWord (offs + fs.blockSize * r.2) 4 r.2
    if r.1 < 0 then 0 else
    let offs := 4 * (diff / blocksPerBlock)
    let r := fs.volume.readWord (offs + fs.blockSize * r.2) 4 r.2
    if r.1 < 0 then 0 else r.2
  else 0

/-- Fill a block with zeros. -/
def zeroBlock (fs : Ext2) (block : ℕ) : Bool × Ext2 :=
  let w := fs.volume.write (List.replicate fs.blockSize 0) (fs.blockSize * block)
  (w.1 == fs.blockSize,{ fs with volume := w.2 })

/-- Compare sixteen bytes with zero, as often as the block has sixteen bytes.
The position is a 32-bit product and does not move. -/
def isBlockZeroedLoop (fs : Ext2) (block : ℕ) : ℕ → Bool
  | 0 => true
  | rest + 1 =>
    let r := fs.volume.read (fs.blockSize * block % 2 ^ 32) 16
    if r.1 ≠ 16 then false
    else if r.2 ≠ List.replicate 16 0 then false
    else fs.isBlockZeroedLoop block rest

/-- The driver's test for an empty table. -/
def isBlockZeroed (fs : Ext2) (block : ℕ) : Bool :=
  fs.isBlockZeroedLoop block ((fs.blockSize + 15) / 16)

/-- Allocate and clear a block for a pointer table; 0 on a failure. -/
def allocTable (fs : Ext2) : ℕ × Ext2 :=
  let blk := fs.allocBlock noGroup
  if blk.1 = 0 then (0,blk.2.2) else
  let z := blk.2.2.zeroBlock blk.1
  if !z.1 then (0,(z.2.freeBlock blk.1).2) else (blk.1,z.2)

/-- Make sure that the inode's table in the given slot exists. -/
def rootTable (fs : Ext2) (inode : FSINode) (slot : ℕ) : Bool × Ext2 × FSINode :=
  if inode.iBlock slot ≠ 0 then (true,fs,inode) else
  let blk := fs.allocTable
  if blk.1 = 0 then (false,blk.2,inode) else
  (true,blk.2,{ inode with iBlock := Function.update inode.iBlock slot blk.1, dirty := true })

/-- Read the pointer to a lower table over an old value and make sure that the
table exists; the table, or 0 on a failure, and once more the table if it is
new, else 0. -/
def childTable (fs : Ext2) (pos old : ℕ) : ℕ × ℕ × Ext2 :=
  let r := fs.volume.readWord pos 4 old
  if r.1 < 0 then (0,0,fs) else
  if r.2 ≠ 0 then (r.2,0,fs) else
  let blk := fs.allocTable
  if blk.1 = 0 then (0,0,blk.2) else
  let w := blk.2.volume.write (leBytes 4 blk.1) pos
  if w.1 < 0 then (0,0,(({ blk.2 with volume := w.2 } : Ext2).freeBlock blk.1).2)
  else (blk.1,blk.1,{ blk.2 with volume := w.2 })

/-- Free a lower table that looks empty and clear the pointer to it. -/
def dropChild (fs : Ext2) (table pos : ℕ) : Bool × Ext2 :=
  if !fs.isBlockZeroed table then (true,fs) else
  let freed := (fs.freeBlock table).2
  let w := freed.volume.write (List.replicate 4 0) pos
  (decide (0 ≤ w.1),{ freed with volume := w.2 })

/-- Free the inode's table in the given slot when it looks empty. -/
def dropRoot (fs : Ext2) (inode : FSINode) (slot : ℕ) : Ext2 × FSINode :=
  if !fs.isBlockZeroed (inode.iBlock slot) then (fs,inode) else
  ((fs.freeBlock (inode.iBlock slot)).2,
    { inode with iBlock := Function.update inode.iBlock slot 0 })

/-- Store a pointer on the volume. -/
def writePointer (fs : Ext2) (block pos : ℕ) : Bool × Ext2 :=
  let w := fs.volume.write (leBytes 4 block) pos
  (decide (0 ≤ w.1),{ fs with volume := w.2 })

/-- Set the pointer of a block of the single range. -/
def setSingle (fs : Ext2) (inode : FSINode) (n block : ℕ) : Bool × Ext2 × FSINode :=
  let t := fs.rootTable inode 12
  if !t.1 then (false,t.2) else
  let w := t.2.1.writePointer block (4 * (n - 12) + t.2.1.blockSize * t.2.2.iBlock 12)
  if !w.1 then (false,w.2,t.2.2) else (true,w.2.dropRoot t.2.2 12)

/-- Set the pointer of a block of the double range. -/
def setDouble (fs : Ext2) (inode : FSINode) (diff block : ℕ) : Bool × Ext2 × FSINode :=
  let blocksPerBlock := fs.blockSize / 4
  let t := fs.rootTable inode 13
  if !t.1 then (false,t.2) else
  let l1pos := 4 * (diff / blocksPerBlock) + t.2.1.blockSize * t.2.2.iBlock 13
  let r := t.2.1.childTable l1pos 0
  if r.1 = 0 then (false,r.2.2,t.2.2) else
  let w := r.2.2.writePointer block (4 * (diff % blocksPerBlock) + r.2.2.blockSize * r.1)
  if !w.1 then (false,w.2,t.2.2) else
  let d := w.2.dropChild r.1 l1pos
  if !d.1 then (false,d.2,t.2.2) else (true,d.2.dropRoot t.2.2 13)

/-- Set the pointer of a block of the triple range. What is tested for being
empty afterwards are the new tables, and block zero where none is new. -/
def setTriple (fs : Ext2) (inode : FSINode) (diff block : ℕ) : Bool × Ext2 × FSINode :=
  let blocksPerBlock := fs.blockSize / 4
  let square := blocksPerBlock * blocksPerBlock % 2 ^ 32
  let t := fs.rootTable inode 14
  if !t.1 then (false,t.2) else
  let l1pos := 4 * (diff / square) + t.2.1.blockSize * t.2.2.iBlock 14
  let r2 := t.2.1.childTable l1pos 0
  if r2.1 = 0 then (false,r2.2.2,t.2.2) else
  let l2offs := 4 * (diff % square / blocksPerBlock)
  let r := r2.2.2.childTable (l2offs + r2.2.2.blockSize * r2.1) r2.1
  if r.1 = 0 then (false,r.2.2,t.2.2) else
  let w := r.2.2.writePointer block (4 * (diff / blocksPerBlock) + r.2.2.blockSize * r.1)
  if !w.1 then (false,w.2,t.2.2) else
  let d3 := w.2.dropChild r.2.1 (l2offs + w.2.blockSize * r2.2.1)
  if !d3.1 then (false,d3.2,t.2.2) else
  let d2 := d3.2.dropChild r2.2.1 l1pos
  if !d2.1 then (false,d2.2,t.2.2) else (true,d2.2.dropRoot t.2.2 14)

/-- Set the block pointer of logical block n. -/
def setINodeBlock (fs : Ext2) (inode : FSINode) (n block : ℕ) : Bool × Ext2 × FSINode :=
  let blocksPerBlock := fs.blockSize / 4
  let square := blocksPerBlock * blocksPerBlock % 2 ^ 32
  let cube := square * blocksPerBlock % 2 ^ 32
  if n < 12 then
    (true,fs,{ inode with iBlock := Function.update inode.iBlock n block, dirty := true })
  else if n < (12 + blocksPerBlock) % 2 ^ 32 then fs.setSingle inode n block
  else if n < (12 + square) % 2 ^ 32 then
    fs.setDouble inode (n - (12 + blocksPerBlock) % 2 ^ 32) block
  else if n < (12 + cube) % 2 ^ 32 then
    fs.setTriple inode (n - (12 + square) % 2 ^ 32) block
  else (false,fs,inode)

end Ext2

end WootOs.Ext2Driver
