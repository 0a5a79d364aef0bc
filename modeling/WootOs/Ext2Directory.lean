import WootOs.Ext2BlockMap

/-!
# Reading a directory of an ext2 volume

An ext2 directory is a file of records, each with an inode number, a name and
its own length. FSINode::ReadDir reads the next used one through the file's
block map. File::ReadDir keeps the position of a handle, and sys_getdents fills
a user buffer with records of its own, until the next one does not fit.
-/

namespace WootOs.Ext2Driver

open ByteStore

/-- The type bits of an on-disk mode, EXT2_S_IFTYPE. -/
def ext2SIfType : ℕ := 0xF000

/-- A regular file, EXT2_S_IFREG. -/
def ext2SIfReg : ℕ := 0x8000

/-- A directory, EXT2_S_IFDIR. -/
def ext2SIfDir : ℕ := 0x4000

/-- Another access time; the inode becomes dirty. -/
def FSINode.setAccessTime (inode : FSINode) (t : ℕ) : FSINode :=
  { inode with iAtime := t, dirty := true }

namespace Ext2

/-- The size of a file; only a regular file of a newer revision has a high word. -/
def getSize (fs : Ext2) (inode : FSINode) : ℕ :=
  if fs.superBlock.sRevLevel < 1 then inode.iSize
  else inode.iSize |||
    (if inode.iMode &&& ext2SIfType = ext2SIfReg then inode.iDirAcl <<< 32 else 0)

/-- The loop of a read of n bytes, with the bytes that are left and those that
were read. The first number counts rounds; every round but the last reads a byte. -/
def readLoop (fs : Ext2) (curTime n : ℕ) :
    ℕ → FSINode → ℕ → ℕ → List UInt8 → ℤ × List UInt8 × FSINode
  | 0,inode,_,bytesLeft,buf => ((n : ℤ) - bytesLeft,buf,inode)
  | rounds + 1,inode,position,bytesLeft,buf =>
    if bytesLeft = 0 then ((n : ℤ) - bytesLeft,buf,inode) else
    let blockIdx := fs.getINodeBlock inode (position / fs.blockSize % 2 ^ 32)
    if blockIdx = 0 then ((n : ℤ) - bytesLeft,buf,inode) else
    let inBlockOffset := position % fs.blockSize
    let bytesToRead := min bytesLeft (fs.blockSize - inBlockOffset)
    let r := fs.volume.read (blockIdx * fs.blockSize + inBlockOffset) bytesToRead
    if r.1 < 0 then (r.1,buf ++ r.2,inode) else
    let inode := inode.setAccessTime curTime
    if r.1 ≠ bytesToRead then ((n : ℤ) - bytesLeft + r.1,buf ++ r.2,inode) else
    fs.readLoop curTime n rounds inode (position + bytesToRead) (bytesLeft - bytesToRead)
      (buf ++ r.2)

/-- Read up to n bytes of a file; what is past its end is left out. -/
def read (fs : Ext2) (curTime : ℕ) (inode : FSINode) (position n : ℕ) :
    ℤ × List UInt8 × FSINode :=
  let n := if fs.getSize inode < position + n then fs.getSize inode - position else n
  if n = 0 then (0,[],inode) else fs.readLoop curTime n n inode position n []

/-- ReadINode makes a copy of an inode, unless the volume does not serve it. The
inode's number is returned; the rest of the copy is not used here. -/
def readINode (fs : Ext2) (number : ℕ) : Option ℕ :=
  let btr := min 128 fs.superBlock.sInodeSize
  if (fs.volume.read (fs.getINodeOffset number) btr).1 = btr then some number else none

end Ext2

end WootOs.Ext2Driver

namespace WootOs.Ext2Directory

open ByteStore MachineInt Ext2Driver

/-- What ReadDir returns of an entry, less the attributes of its inode. -/
structure DirectoryEntry where
  /-- The inode's number. -/
  iNode : ℕ
  /-- The name, up to its terminating zero. -/
  name : List UInt8
  deriving DecidableEq

/-- The fixed part of an on-disk directory record. -/
structure Header where
  /-- The inode's number, zero in an unused record. -/
  inode : ℕ
  /-- Distance to the next record. -/
  recLen : ℕ
  /-- Bytes in the name, which follows. -/
  nameLen : ℕ
  deriving DecidableEq

/-- The fixed part takes eight bytes; the last is the file's type, which is not used. -/
def headerSize : ℕ := 8

/-- The fields of a fixed part. -/
def Header.ofBytes (bytes : List UInt8) : Header where
  inode := leValue (bytes.take 4)
  recLen := leValue ((bytes.drop 4).take 2)
  nameLen := leValue ((bytes.drop 6).take 1)

/-- The string that a buffer of characters holds. -/
def cString (bytes : List UInt8) : List UInt8 := bytes.takeWhile (· ≠ 0)

/-- The loop of FSINode::ReadDir over the records before the end of the file. A
record that is not used is skipped. It returns the entry and the position after
it, or no entry; fuel counts the records looked at. -/
def readDirLoop (fs : Ext2) (curTime size : ℕ) :
    ℕ → FSINode → ℕ → Option (Option DirectoryEntry × ℕ × FSINode)
  | 0,_,_ => none
  | fuel + 1,inode,position =>
    if size ≤ position then some (none,position,inode) else
    let r := fs.read curTime inode position headerSize
    if r.1 ≠ headerSize then some (none,position,r.2.2) else
    let de := Header.ofBytes r.2.1
    if de.inode = 0 ∨ de.nameLen = 0 then
      readDirLoop fs curTime size fuel r.2.2 (position + de.recLen) else
    let s := fs.read curTime r.2.2 (position + headerSize) de.nameLen
    if s.1 ≠ de.nameLen then some (none,position,s.2.2) else
    match fs.readINode de.inode with
    | none => some (none,position,s.2.2)
    | some number => some (some ⟨number,cString s.2.1⟩,position + de.recLen,s.2.2)

/-- FSINode::ReadDir. -/
def readDirINode (fs : Ext2) (fuel curTime : ℕ) (inode : FSINode) (position : ℕ) :
    Option (Option DirectoryEntry × ℕ × FSINode) :=
  if inode.iMode &&& ext2SIfDir = 0 then some (none,position,inode)
  else readDirLoop fs curTime (fs.getSize inode) fuel inode position

/-- The type bits of a mode, S_IFTYPE. -/
def sIfType : ℕ := 0xF000

/-- A directory, S_IFDIR. -/
def sIfDir : ℕ := 0x4000

/-- The access mode of the flags that a file was opened with, O_ACCMODE. -/
def oAccMode : ℕ := 3

/-- Opened for writing only, O_WRONLY. -/
def oWrOnly : ℕ := 1

/-- An open file. -/
structure File where
  /-- Its directory entry, if it has one, with the inode, if that has one. -/
  dentry : Option (Option FSINode)
  /-- The flags it was opened with. -/
  flags : ℕ
  /-- Its mode when it was opened. -/
  mode : ℕ
  /-- Where the next access starts. -/
  position : ℕ

/-- File::ReadDir. The position moves on whenever an entry is returned. -/
def File.readDir (fs : Ext2) (fuel curTime : ℕ) (locked : Bool) (f : File) :
    Option (Option DirectoryEntry × File) :=
  match f.dentry with
  | none => some (none,f)
  | some inode =>
    if f.mode &&& sIfType ≠ sIfDir then some (none,f)
    else if f.flags &&& oAccMode = oWrOnly then some (none,f)
    else if !locked then some (none,f)
    else match inode with
      | none => some (none,f)
      | some inode => (readDirINode fs fuel curTime inode f.position).map fun r =>
        (r.1,{ f with
          dentry := some (some r.2.2)
          position := if r.1.isSome then r.2.1 else f.position })

/-- A record of the user buffer, struct dirent with its name. -/
structure Dirent where
  /-- Number of the inode. -/
  dIno : ℕ
  /-- Position of the next entry, always zero. -/
  dOff : ℕ
  /-- Distance to the next record. -/
  dRecLen : ℕ
  /-- Type of the file, always zero. -/
  dType : ℕ
  /-- Name of the entry. -/
  dName : List UInt8
  deriving DecidableEq

/-- sizeof(struct dirent): the name starts at 19, and alignment adds a byte. -/
def sizeofDirent : ℕ := 20

/-- The bytes that are stored for a record, the name with its terminating zero. -/
def Dirent.bytes (d : Dirent) : List UInt8 :=
  leBytes 8 d.dIno ++ leBytes 8 d.dOff ++ leBytes 2 d.dRecLen ++ leBytes 1 d.dType ++
    (d.dName ++ [0])

/-- The record that is stored for an entry. -/
def DirectoryEntry.dirent (de : DirectoryEntry) : Dirent where
  dIno := de.iNode
  dOff := 0
  dRecLen := sizeofDirent + de.name.length + 1
  dType := 0
  dName := de.name

/-- A call of sys_getdents on a handle, with what it finds. -/
structure Call where
  /-- Address of the buffer. -/
  buf : ℕ
  /-- Bytes in the buffer. -/
  count : ℕ
  /-- It is an unsigned int. -/
  count_lt : count < 2 ^ 32
  /-- The user's memory. -/
  mem : Store
  /-- Whether FileSystem::Lock succeeds, at each ReadDir of the call. -/
  locks : ℕ → Bool
  /-- The time during the call. -/
  curTime : ℕ

/-- The loop of sys_getdents, in its given round, with the bytes stored and
whether anything was found. -/
def getdentsLoop (fs : Ext2) (fuel : ℕ) (call : Call) :
    ℕ → ℕ → File → Store → ℕ → Bool → Option (ℕ × Bool × File × Store)
  | 0,_,_,_,_,_ => none
  | rounds + 1,i,f,mem,br,hasSomething =>
    if call.count ≤ br then some (br,hasSomething,f,mem) else
    match f.readDir fs fuel call.curTime (call.locks i) with
    | none => none
    | some (none,f) => some (br,hasSomething,f,mem)
    | some (some de,f) =>
      let d := de.dirent
      let stop := (br + d.dRecLen) % 2 ^ 32
      if call.count ≤ stop then some (br,true,f,mem)
      else getdentsLoop fs fuel call rounds (i + 1) f (patch mem (call.buf + br) d.bytes) stop true

/-- Invalid argument. -/
def eInval : ℤ := 22

/-- sys_getdents: a negative error or the number of bytes stored, as a long. -/
def sysGetdents (fs : Ext2) (fuel : ℕ) (errno : ℤ) (f : Option File) (call : Call) :
    Option (ℤ × Option File × Store) :=
  match f with
  | none => some (-errno,none,call.mem)
  | some f => (getdentsLoop fs fuel call fuel 0 f call.mem 0 false).map fun r =>
    (if r.1 = 0 ∧ r.2.1 then -eInval else signed 32 r.1,some r.2.2.1,r.2.2.2)

end WootOs.Ext2Directory
