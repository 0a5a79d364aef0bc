import WootOs.Ext2Directory

/-!
# Writing and resizing a file of an ext2 volume

EXT2::write and the growing branch of FSINode::Resize fill a file from a
position on, block by block. A block that the map does not have yet is
allocated, entered and counted in i_blocks. The shrinking branch frees the
blocks past the new end and sets i_blocks from the new size in bytes.
-/

namespace WootOs.Ext2Driver

open ByteStore MachineInt

/-- An input or output error, EIO. -/
def eIo : ℤ := 5

/-- The align macro over 32-bit values. -/
def align32 (val alignment : ℕ) : ℕ :=
  alignment * ((val + (alignment - 1)) % 2 ^ 32 / alignment) % 2 ^ 32

/-- The align macro where the value is a signed 64-bit number. -/
def align64 (val : ℤ) (alignment : ℕ) : ℤ :=
  alignment * (val + (alignment - 1)).tdiv alignment

/-- Another modification time; the inode becomes dirty. -/
def FSINode.setModifyTime (inode : FSINode) (t : ℕ) : FSINode :=
  { inode with iMtime := t, dirty := true }

/-- Units of 512 bytes in a block. -/
def Ext2.blockUnits (fs : Ext2) : ℕ := align32 fs.blockSize 512 / 512

/-- Count one more block in an inode. -/
def FSINode.countBlock (inode : FSINode) (units : ℕ) : FSINode :=
  { inode with iBlocks := (inode.iBlocks + units) % 2 ^ 32, dirty := true }

namespace Ext2

/-- FSINode::setSize; only a regular file of a newer revision has a high word. -/
def setSize (fs : Ext2) (inode : FSINode) (size : ℕ) : FSINode :=
  if fs.superBlock.sRevLevel < 1 then { inode with iSize := size % 2 ^ 32, dirty := true }
  else { inode with
    iDirAcl := if inode.iMode &&& ext2SIfType = ext2SIfReg then size >>> 32 % 2 ^ 32
      else inode.iDirAcl
    iSize := size % 2 ^ 32
    dirty := true }

/-- The superblock remembers when the file system was written last. -/
def touch (fs : Ext2) (curTime : ℕ) : Ext2 :=
  { fs with superBlock := { fs.superBlock with sWtime := curTime }, superDirty := true }

/-- The block of a position that bytesLeft bytes go to, allocated, entered and
counted if there is none; 0 if that fails. -/
def mapBlock (fs : Ext2) (inode : FSINode) (position bytesLeft : ℕ) : ℕ × Ext2 × FSINode :=
  let blockNum := position / fs.blockSize
  let blockIdx := fs.getINodeBlock inode (blockNum % 2 ^ 32)
  if blockIdx ≠ 0 then (blockIdx,fs,inode) else
  let blk := fs.allocBlock noGroup
  if blk.1 = 0 then (0,blk.2.2,inode) else
  let s := blk.2.2.setINodeBlock inode (blockNum % 2 ^ 32) blk.1
  if !s.1 then (0,(s.2.1.freeBlock blk.1).2,s.2.2) else
  let inode := s.2.1.setSize s.2.2
    (min ((blockNum + 1) * s.2.1.blockSize) (s.2.2.iSize + bytesLeft))
  (blk.1,s.2.1,inode.countBlock s.2.1.blockUnits)

end Ext2

/-- How filling a file ends. -/
structure Fill where
  /-- A negative error of the volume, or zero. -/
  error : ℤ
  /-- The volume took fewer bytes than it was given. -/
  short : Bool
  /-- Bytes that were not written. -/
  bytesLeft : ℕ
  /-- The file system. -/
  fs : Ext2
  /-- The file. -/
  inode : FSINode

namespace Ext2

/-- Write bytes to a file from a position on, until a block is missing and
cannot be had or the volume takes fewer bytes than it should. The first number
counts rounds; every round but the last writes a byte. -/
def fillLoop (curTime : ℕ) : ℕ → Ext2 → FSINode → ℕ → List UInt8 → Fill
  | 0,fs,inode,_,buf => ⟨0,false,buf.length,fs,inode⟩
  | rounds + 1,fs,inode,position,buf =>
    if buf = [] then ⟨0,false,0,fs,inode⟩ else
    let m := fs.mapBlock inode position buf.length
    if m.1 = 0 then ⟨0,false,buf.length,m.2.1,m.2.2⟩ else
    let inBlockOffset := position % fs.blockSize
    let bytesToWrite := min buf.length (fs.blockSize - inBlockOffset)
    let w := m.2.1.volume.write (buf.take bytesToWrite) (m.1 * fs.blockSize + inBlockOffset)
    if w.1 < 0 then ⟨w.1,false,buf.length,{ m.2.1 with volume := w.2 },m.2.2⟩ else
    let fs := ({ m.2.1 with volume := w.2 } : Ext2).touch curTime
    let inode := m.2.2.setModifyTime curTime
    let inode := fs.setSize inode (max (position + w.1.toNat) (fs.getSize inode))
    if w.1 ≠ bytesToWrite then ⟨0,true,buf.length - w.1.toNat,fs,inode⟩ else
    fillLoop curTime rounds fs inode (position + bytesToWrite) (buf.drop bytesToWrite)

/-- Free the blocks from the given one on; every one of them has to be there. -/
def shrinkLoop (fs : Ext2) (inode : FSINode) (blk : ℕ) : ℕ → Bool × Ext2 × FSINode
  | 0 => (true,fs,inode)
  | rest + 1 =>
    let blkIdx := fs.getINodeBlock inode blk
    if blkIdx = 0 then (false,fs,inode) else
    let s := (fs.freeBlock blkIdx).2.setINodeBlock inode blk 0
    s.2.1.shrinkLoop s.2.2 (blk + 1) rest

/-- FSINode::Resize; the new size, or a negative error. Sizes are compared with
the low word of the current one. -/
def resize (fs : Ext2) (curTime : ℕ) (inode : FSINode) (size : ℤ) : ℤ × Ext2 × FSINode :=
  let currentSize : ℕ := fs.getSize inode % 2 ^ 32
  if size < (currentSize : ℤ) then
    let startBlk := unsigned 32 ((align64 size fs.blockSize).tdiv fs.blockSize)
    let blkCount := align32 currentSize fs.blockSize / fs.blockSize
    let s := fs.shrinkLoop inode startBlk (blkCount - startBlk)
    if !s.1 then (-eIo,s.2) else
    let inode := s.2.1.setSize { s.2.2 with iBlocks := unsigned 32 ((align64 size 512).tdiv 512) }
      (unsigned 64 size)
    ((s.2.1.getSize inode % 2 ^ 32 : ℕ),s.2.1,inode)
  else if (currentSize : ℤ) < size then
    let bytesLeft := (size - currentSize).toNat
    let t := fillLoop curTime bytesLeft fs inode currentSize (List.replicate bytesLeft 0)
    if t.error < 0 then (t.error,t.fs,t.inode)
    else if t.short then (-eIo,t.fs,t.inode)
    else ((t.fs.getSize t.inode % 2 ^ 32 : ℕ),t.fs,t.inode)
  else (currentSize,fs,inode)

/-- EXT2::write; the number of bytes written, or a negative error. A position
past the end makes the file grow first. -/
def write (fs : Ext2) (curTime : ℕ) (inode : FSINode) (buf : List UInt8) (position : ℕ) :
    ℤ × Ext2 × FSINode :=
  let g := if fs.getSize inode < position then fs.resize curTime inode (signed 64 position)
    else (0,fs,inode)
  if g.1 < 0 then g else
  let t := fillLoop curTime buf.length g.2.1 g.2.2 position buf
  if t.error < 0 then (t.error,t.fs,t.inode)
  else ((buf.length : ℤ) - t.bytesLeft,t.fs,t.inode)

end Ext2

end WootOs.Ext2Driver
