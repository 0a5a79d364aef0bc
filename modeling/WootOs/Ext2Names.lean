import WootOs.Ext2Files

/-!
# Names in a directory of an ext2 volume

INode::Lookup goes through the entries that ReadDir returns. FSINode::Create
allocates an inode, looks for a record with room for one more and splits it, or
appends a block; FSINode::Remove drops the links, truncates and releases the
inode and merges the record into the one before it. Inodes in use are objects in
a cache, which count their references. Both functions are called with the file
system locked by the calling thread, so that GetINode and PutINode, which lock
it once more, never fail to.
-/

namespace WootOs.Ext2Names

open ByteStore MachineInt Ext2Driver Ext2Directory

/-- No such file or directory. -/
def eNoEnt : ℤ := 2

/-- Not a directory. -/
def eNotDir : ℤ := 20

/-- Directory not empty. -/
def eNotEmpty : ℤ := 39

/-- An inode in the cache. -/
structure CachedINode where
  /-- What the file functions use. -/
  node : FSINode
  /-- Number of links. -/
  iLinksCount : ℕ
  /-- Its owner. -/
  iUid : ℕ
  /-- Its group. -/
  iGid : ℕ
  /-- Time of creation. -/
  iCtime : ℕ
  /-- Time of deletion. -/
  iDtime : ℕ
  /-- The bytes of i_flags and i_osd1. -/
  iFlags : List UInt8
  /-- The bytes of i_generation and i_file_acl. -/
  iGeneration : List UInt8
  /-- The bytes of i_faddr and i_osd2. -/
  iFaddr : List UInt8
  /-- Number of references to the object. -/
  referenceCount : ℕ

namespace CachedINode

/-- The object that ReadINode makes of the bytes on the volume. -/
def ofBytes (bytes : List UInt8) : CachedINode where
  node :=
    { iMode := leValue (bytes.take 2)
      iSize := leValue ((bytes.drop 4).take 4)
      iAtime := leValue ((bytes.drop 8).take 4)
      iMtime := leValue ((bytes.drop 16).take 4)
      iBlocks := leValue ((bytes.drop 28).take 4)
      iBlock := fun i => leValue ((bytes.drop (40 + 4 * i)).take 4)
      iDirAcl := leValue ((bytes.drop 108).take 4)
      dirty := false }
  iLinksCount := leValue ((bytes.drop 26).take 2)
  iUid := leValue ((bytes.drop 2).take 2)
  iGid := leValue ((bytes.drop 24).take 2)
  iCtime := leValue ((bytes.drop 12).take 4)
  iDtime := leValue ((bytes.drop 20).take 4)
  iFlags := (bytes.drop 32).take 8
  iGeneration := (bytes.drop 100).take 8
  iFaddr := (bytes.drop 112).take 16
  referenceCount := 0

/-- The bytes that WriteINode stores. -/
def bytes (o : CachedINode) : List UInt8 :=
  leBytes 2 o.node.iMode ++ leBytes 2 o.iUid ++ leBytes 4 o.node.iSize ++
    leBytes 4 o.node.iAtime ++ leBytes 4 o.iCtime ++ leBytes 4 o.node.iMtime ++
    leBytes 4 o.iDtime ++ leBytes 2 o.iGid ++ leBytes 2 o.iLinksCount ++
    leBytes 4 o.node.iBlocks ++ o.iFlags ++
    (List.range 15).flatMap (fun i => leBytes 4 (o.node.iBlock i)) ++ o.iGeneration ++
    leBytes 4 o.node.iDirAcl ++ o.iFaddr

/-- Another number of links; the inode becomes dirty. -/
def setLinks (o : CachedINode) (n : ℕ) : CachedINode :=
  { o with iLinksCount := n, node := { o.node with dirty := true } }

end CachedINode

/-- A mounted file system with its cached inodes. -/
structure Mount where
  /-- The driver's state. -/
  fs : Ext2
  /-- Counter of directories in each descriptor in memory. -/
  bgUsedDirsCount : ℕ → ℕ
  /-- The field after it. -/
  bgPad : ℕ → ℕ
  /-- The cached inode of each number. -/
  inodeCache : ℕ → Option CachedINode

/-- What a call finds around it. -/
structure Caller where
  /-- The time during the call. -/
  curTime : ℕ
  /-- User and group of the current process, if there is one. -/
  process : Option (ℕ × ℕ)

/-- A directory record with its last byte, the type of the file. -/
structure Record extends Header where
  /-- Type of the file. -/
  fileType : ℕ

/-- The record that eight bytes hold. -/
def Record.ofBytes (bytes : List UInt8) : Record :=
  { Header.ofBytes bytes with fileType := leValue ((bytes.drop 7).take 1) }

/-- The eight bytes of a record. -/
def Record.bytes (r : Record) : List UInt8 :=
  leBytes 4 r.inode ++ leBytes 2 r.recLen ++ leBytes 1 r.nameLen ++ leBytes 1 r.fileType

/-- A record that was never read. -/
def Record.blank : Record := ⟨⟨0,0,0⟩,0⟩

/-- The length of a record with a name of n bytes, as Create computes it. -/
def minSize (n : ℕ) : ℕ := align32 (headerSize + n) 4

/-- A directory, EXT2_S_ISDIR. -/
def isDir (mode : ℕ) : Bool := mode &&& ext2SIfType == ext2SIfDir

/-- The type of a record for an inode of the given mode. -/
def modeToFileType (mode : ℕ) : ℕ :=
  if mode &&& ext2SIfType = 0x1000 then 5
  else if mode &&& ext2SIfType = 0x2000 then 3
  else if mode &&& ext2SIfType = ext2SIfDir then 2
  else if mode &&& ext2SIfType = 0x6000 then 4
  else if mode &&& ext2SIfType = ext2SIfReg then 1
  else if mode &&& ext2SIfType = 0xA000 then 7
  else if mode &&& ext2SIfType = 0xC000 then 6
  else 0

/-- Names that Create accepts; the empty one is among them. -/
def isValidFileName (name : List UInt8) : Bool :=
  decide (name.length ≤ 255) && name != [46] && name != [46,46] && !name.contains 47

/-- The loop of INode::Lookup. -/
def lookupLoop (fs : Ext2) (fuel curTime size : ℕ) (name : List UInt8) :
    ℕ → FSINode → ℕ → Option (Option ℕ × FSINode)
  | 0,_,_ => none
  | rounds + 1,inode,position =>
    if size ≤ position then some (none,inode) else
    match readDirINode fs fuel curTime inode position with
    | none => none
    | some (none,_,inode) => some (none,inode)
    | some (some de,position,inode) =>
      if de.name = name then some (some de.iNode,inode)
      else lookupLoop fs fuel curTime size name rounds inode position

/-- INode::Lookup; the number of the inode, if there is an entry. -/
def lookup (fs : Ext2) (fuel curTime : ℕ) (inode : FSINode) (name : List UInt8) :
    Option (Option ℕ × FSINode) :=
  lookupLoop fs fuel curTime (fs.getSize inode) name fuel inode 0

/-- Where Create puts a new record. -/
inductive Place where
  /-- Behind the record at the position. -/
  | within (position : ℕ) (cde : Record)
  /-- In the unused record at the position, the first of its block. -/
  | unused (position : ℕ) (cde : Record)
  /-- In a new block. -/
  | newBlock

/-- The loop of Create over the records, until one has room for the new one. -/
def scanLoop (fs : Ext2) (curTime : ℕ) (de : Record) : ℕ → FSINode → ℕ → Option (Place × FSINode)
  | 0,_,_ => none
  | fuel + 1,inode,position =>
    let r := fs.read curTime inode position headerSize
    if r.1 ≠ headerSize then some (.newBlock,r.2.2) else
    let cde := Record.ofBytes r.2.1
    if de.nameLen ≤ unsigned 32 ((cde.recLen : ℤ) - minSize cde.nameLen) then
      some (.within position cde,r.2.2)
    else if cde.inode = 0 ∧ position % fs.blockSize = 0 ∧ de.recLen ≤ cde.recLen then
      some (.unused position cde,r.2.2)
    else scanLoop fs curTime de fuel r.2.2 (position + cde.recLen)

/-- What Remove finds under a name. -/
inductive Found where
  /-- Nothing, with the error that is returned. -/
  | failed (e : ℤ)
  /-- A record, with the one before it. -/
  | entry (prevDe : Record) (prevPos : ℕ) (de : Record) (position : ℕ)

/-- The loop of Remove over the records before the end of the directory. -/
def removeLoop (fs : Ext2) (curTime size : ℕ) (name : List UInt8) :
    ℕ → FSINode → Record → ℕ → ℕ → Option (Found × FSINode)
  | 0,_,_,_,_ => none
  | fuel + 1,inode,prevDe,prevPos,position =>
    if size ≤ position then some (.failed eNoEnt,inode) else
    let r := fs.read curTime inode position headerSize
    let de := Record.ofBytes r.2.1
    if r.1 ≠ headerSize ∨ de.recLen < headerSize then some (.failed eIo,r.2.2)
    else if de.inode = 0 ∨ de.nameLen = 0 then
      removeLoop fs curTime size name fuel r.2.2 de position (position + max de.recLen headerSize)
    else
    let s := fs.read curTime r.2.2 (position + headerSize) de.nameLen
    if s.1 ≠ de.nameLen then some (.failed eIo,s.2.2)
    else if cString s.2.1 ≠ name then
      removeLoop fs curTime size name fuel s.2.2 de position (position + de.recLen)
    else some (.entry prevDe prevPos de position,s.2.2)

/-- What Remove finds in a directory that is to be removed. -/
inductive Emptiness where
  /-- It cannot be read. -/
  | failed
  /-- It has an entry of its own. -/
  | nonEmpty
  /-- It has links to itself and to its parent only. -/
  | empty (selfLnkCnt parentLnkCnt : ℕ)

/-- The loop of Remove over the records of a directory that is to be removed.
Four bytes of a name are looked at. -/
def emptyLoop (fs : Ext2) (curTime size : ℕ) :
    ℕ → FSINode → ℕ → ℕ → ℕ → Option (Emptiness × FSINode)
  | 0,_,_,_,_ => none
  | fuel + 1,inode,position,selfLnkCnt,parentLnkCnt =>
    if size ≤ position then some (.empty selfLnkCnt parentLnkCnt,inode) else
    let r := fs.read curTime inode position headerSize
    let de := Record.ofBytes r.2.1
    if r.1 ≠ headerSize ∨ de.recLen < headerSize then some (.failed,r.2.2) else
    let next := position + max de.recLen headerSize
    if de.inode = 0 ∨ de.nameLen = 0 then
      emptyLoop fs curTime size fuel r.2.2 next selfLnkCnt parentLnkCnt
    else
    let btr := min 4 de.nameLen
    let s := fs.read curTime r.2.2 (position + headerSize) btr
    if s.1 ≠ btr then some (.failed,s.2.2)
    else if cString s.2.1 = [46] then
      emptyLoop fs curTime size fuel s.2.2 next ((selfLnkCnt + 1) % 2 ^ 32) parentLnkCnt
    else if cString s.2.1 = [46,46] then
      emptyLoop fs curTime size fuel s.2.2 next selfLnkCnt ((parentLnkCnt + 1) % 2 ^ 32)
    else some (.nonEmpty,s.2.2)

/-- A new inode gets its attributes. Its size and its blocks stay as they were
read. -/
def initINode (o : CachedINode) (curTime uid gid mode : ℕ) : CachedINode :=
  { o with
    node := { o.node with iMode := mode % 2 ^ 16, iMtime := curTime % 2 ^ 32, dirty := true }
    iUid := uid % 2 ^ 16
    iGid := gid % 2 ^ 16
    iCtime := curTime % 2 ^ 32
    iDtime := 0
    iLinksCount := 1 }

/-- The record that Create starts with. -/
def newRecord (fs : Ext2) (ino mode : ℕ) (name : List UInt8) : Record where
  inode := ino
  recLen := minSize name.length % 2 ^ 16
  nameLen := name.length % 2 ^ 8
  fileType := if fs.superBlock.sRevLevel < 1 then 0 else modeToFileType mode

namespace Mount

/-- The cached inode of a number. -/
def object (m : Mount) (number : ℕ) : CachedINode :=
  (m.inodeCache number).getD (CachedINode.ofBytes [])

/-- Replace a cached inode. -/
def setObject (m : Mount) (number : ℕ) (o : CachedINode) : Mount :=
  { m with inodeCache := Function.update m.inodeCache number (some o) }

/-- Replace what the file functions use of a cached inode. -/
def setNode (m : Mount) (number : ℕ) (node : FSINode) : Mount :=
  m.setObject number { m.object number with node := node }

/-- Write to a cached file. -/
def write (m : Mount) (curTime number : ℕ) (buf : List UInt8) (position : ℕ) : ℤ × Mount :=
  let w := m.fs.write curTime (m.object number).node buf position
  (w.1,({ m with fs := w.2.1 } : Mount).setNode number w.2.2)

/-- Resize a cached file. -/
def resize (m : Mount) (curTime number : ℕ) (size : ℤ) : ℤ × Mount :=
  let r := m.fs.resize curTime (m.object number).node size
  (r.1,({ m with fs := r.2.1 } : Mount).setNode number r.2.2)

/-- FileSystem::GetINode adds a reference to a cached inode, or reads it; nothing
if that fails. -/
def getINode (m : Mount) (number : ℕ) : Option Mount :=
  match m.inodeCache number with
  | some o => some (m.setObject number { o with referenceCount := o.referenceCount + 1 })
  | none =>
    let btr := min 128 m.fs.superBlock.sInodeSize
    let r := m.fs.volume.read (m.fs.getINodeOffset number) btr
    if r.1 ≠ btr then none
    else some (m.setObject number { CachedINode.ofBytes r.2 with referenceCount := 1 })

/-- WriteINode. -/
def writeINode (m : Mount) (number : ℕ) (o : CachedINode) : Mount :=
  let btw := min 128 m.fs.superBlock.sInodeSize
  { m with fs := { m.fs with
      volume := (m.fs.volume.write (o.bytes.take btw) (m.fs.getINodeOffset number)).2 } }

/-- The group that Release takes a directory's inode to be in. -/
def getINodeBlockGroup (m : Mount) (ino : ℕ) : ℕ := ino / m.fs.superBlock.sInodesPerGroup

/-- Offset of the counter of directories in a descriptor. -/
def usedDirsOffset : ℕ := 16

/-- Write n bytes of a descriptor, from its counter of directories on, to every
table copy. -/
def updateUsedDirs (m : Mount) (bg n : ℕ) : Mount :=
  { m with fs := (m.fs.updateBGDT bg usedDirsOffset
      ((leBytes 2 (m.bgUsedDirsCount bg) ++ leBytes 2 (m.bgPad bg)).take n)).2 }

/-- Count one directory more in a group. -/
def countDir (m : Mount) (bg : ℕ) : Mount :=
  { m with bgUsedDirsCount :=
      Function.update m.bgUsedDirsCount bg ((m.bgUsedDirsCount bg + 1) % 2 ^ 16) }

/-- Count one directory less in a group, unless none is counted. -/
def uncountDir (m : Mount) (bg : ℕ) : Mount :=
  { m with bgUsedDirsCount :=
      Function.update m.bgUsedDirsCount bg (m.bgUsedDirsCount bg - 1) }

/-- FSINode::Release frees an inode without links. -/
def release (m : Mount) (curTime number : ℕ) (o : CachedINode) : Mount :=
  if o.iLinksCount ≠ 0 then m else
  let w := m.writeINode number { o with iDtime := curTime }
  let m := { w with fs := (w.fs.freeINode number).2 }
  if !isDir o.node.iMode then m else
  let bg := m.getINodeBlockGroup number
  (m.uncountDir bg).updateUsedDirs bg 2

/-- FileSystem::PutINode drops a reference; the last one writes the inode back
if it is dirty, and releases it. -/
def putINode (m : Mount) (curTime number : ℕ) : Mount :=
  let o := { m.object number with referenceCount := (m.object number).referenceCount - 1 }
  if o.referenceCount ≠ 0 then m.setObject number o else
  let m := { m with inodeCache := Function.update m.inodeCache number none }
  let m := if o.node.dirty then m.writeINode number o else m
  m.release curTime number o

/-- FSINode::buildDirectory gives a new directory its two links. A negative
result of Resize is not taken for a failure. -/
def buildDirectory (m : Mount) (curTime parent new : ℕ) : Bool × Mount :=
  let r := m.resize curTime new m.fs.blockSize
  if r.1 = 0 then (false,r.2) else
  let dot : Record := ⟨⟨new,12,1⟩,2⟩
  let dotDot : Record := ⟨⟨parent,unsigned 16 ((m.fs.blockSize : ℤ) - 12),2⟩,2⟩
  let w := r.2.write curTime new (dot.bytes ++ [46,0,0,0] ++ dotDot.bytes ++ [46,46,0,0]) 0
  if w.1 ≠ 24 then (false,w.2) else
  let p := w.2.setObject parent
    ((w.2.object parent).setLinks (((w.2.object parent).iLinksCount + 1) % 2 ^ 16))
  (true,p.setObject new ((p.object new).setLinks (((p.object new).iLinksCount + 1) % 2 ^ 16)))

/-- Write some pieces to a cached file, stopping when one is not written in full. -/
def writeAll (m : Mount) (curTime number : ℕ) : List (List UInt8 × ℕ) → Bool × Mount
  | [] => (true,m)
  | (buf,position) :: rest =>
    let w := m.write curTime number buf position
    if w.1 ≠ buf.length then (false,w.2) else w.2.writeAll curTime number rest

/-- Create ends: a directory gets its links and is counted, with n bytes of the
descriptor written, and the reference to the new inode is dropped. -/
def finish (m : Mount) (curTime this ino bg mode n : ℕ) : Mount :=
  let m := if isDir mode then
    (((m.buildDirectory curTime this ino).2.countDir bg).updateUsedDirs bg n) else m
  m.putINode curTime ino

/-- Create puts the new record and its name in their place. -/
def link (m : Mount) (curTime this ino bg mode : ℕ) (name : List UInt8) (de : Record) :
    Place → Bool × Mount
  | .within position cde =>
    let cdeMinEnd := position + minSize cde.nameLen
    let de := { de with recLen := unsigned 16 ((position + cde.recLen : ℤ) - cdeMinEnd) }
    let shrunk := if position % m.fs.blockSize = 0 then [] else
      [(({ cde with recLen := minSize cde.nameLen } : Record).bytes,position)]
    let w := m.writeAll curTime this
      (shrunk ++ [(de.bytes,cdeMinEnd),(name,cdeMinEnd + headerSize)])
    if !w.1 then (false,w.2.putINode curTime ino)
    else (true,w.2.finish curTime this ino bg mode 2)
  | .unused position cde =>
    let de := { de with recLen := cde.recLen }
    let w := m.writeAll curTime this [(de.bytes,position)]
    if !w.1 then (false,w.2.putINode curTime ino) else
    -- this early return keeps the reference to the new inode
    let n := w.2.writeAll curTime this [(name,position + headerSize)]
    if !n.1 then n else (true,n.2.finish curTime this ino bg mode 2)
  | .newBlock =>
    let bs := m.fs.blockSize
    let cSize := bs * ((m.fs.getSize (m.object this).node + (bs - 1)) / bs)
    let newSize := cSize + bs
    let r := m.resize curTime this newSize
    if r.1 ≠ newSize then (false,r.2.putINode curTime ino) else
    let de := { de with recLen := bs % 2 ^ 16 }
    let w := r.2.writeAll curTime this [(de.bytes,cSize),(name,cSize + headerSize)]
    if !w.1 then (false,w.2.putINode curTime ino)
    else (true,w.2.finish curTime this ino bg mode 4)

/-- FSINode::Create after the name was not found: allocate an inode and link it. -/
def createNew (m : Mount) (c : Caller) (fuel this : ℕ) (name : List UInt8) (mode : ℕ) :
    Option (Bool × Mount) :=
  let a := m.fs.allocINode
  let ino := a.1
  let m := { m with fs := a.2.2 }
  if ino = 0 then some (false,m) else
  match c.process with
  | none => some (false,m)
  | some (uid,gid) =>
    match m.getINode ino with
    | none => some (false,m)
    | some m =>
      let m := m.setObject ino (initINode (m.object ino) c.curTime uid gid mode)
      let de := newRecord m.fs ino mode name
      (scanLoop m.fs c.curTime de fuel (m.object this).node 0).map fun s =>
        (m.setNode this s.2).link c.curTime this ino (a.2.1.getD 0) mode name de s.1

/-- FSINode::Create on the cached inode of the given number. Fuel bounds its
searches. -/
def create (m : Mount) (c : Caller) (fuel this : ℕ) (name : List UInt8) (mode : ℕ) :
    Option (Bool × Mount) :=
  if !isValidFileName name then some (false,m)
  else if !isDir (m.object this).node.iMode then some (false,m)
  else match lookup m.fs fuel c.curTime (m.object this).node name with
    | none => none
    | some (some _,node) => some (false,m.setNode this node)
    | some (none,node) => (m.setNode this node).createNew c fuel this name mode

/-- Remove drops the last link of an inode, truncates it if it has no other,
drops the reference and takes the record out of the directory. -/
def unlink (m : Mount) (curTime this : ℕ) (prevDe : Record) (prevPos : ℕ) (de : Record)
    (position : ℕ) : ℤ × Mount :=
  let o := m.object de.inode
  let m := if o.iLinksCount ≠ 0 then m.setObject de.inode (o.setLinks (o.iLinksCount - 1)) else m
  let r := if (m.object de.inode).iLinksCount = 0 then m.resize curTime de.inode 0 else (0,m)
  if r.1 ≠ 0 then (if r.1 < 0 then r.1 else -eIo,r.2) else
  let m := r.2.putINode curTime de.inode
  let w := if position % m.fs.blockSize = 0 then
      m.write curTime this ({ de with inode := 0 } : Record).bytes position
    else m.write curTime this
      ({ prevDe with recLen := (prevDe.recLen + de.recLen) % 2 ^ 16 } : Record).bytes prevPos
  (if w.1 ≠ headerSize then -eIo else 0,w.2)

/-- Remove takes back the links that a directory without entries holds. -/
def dropLinks (m : Mount) (this ino selfLnkCnt parentLnkCnt : ℕ) : Mount :=
  let s := m.setObject ino
    ((m.object ino).setLinks ((m.object ino).iLinksCount - selfLnkCnt))
  s.setObject this ((s.object this).setLinks ((s.object this).iLinksCount - parentLnkCnt))

/-- Remove has found a record: it gets the inode, makes sure that a directory is
empty, and unlinks it. The early returns keep the reference to the inode. -/
def removeEntry (m : Mount) (c : Caller) (fuel this : ℕ) (prevDe : Record) (prevPos : ℕ)
    (de : Record) (position : ℕ) : Option (ℤ × Mount) :=
  match m.getINode de.inode with
  | none => some (-eIo,m)
  | some m =>
    let o := m.object de.inode
    if !isDir o.node.iMode then some (m.unlink c.curTime this prevDe prevPos de position)
    else match emptyLoop m.fs c.curTime (m.fs.getSize o.node) fuel o.node 0 0 0 with
      | none => none
      | some (.failed,node) => some (-eIo,m.setNode de.inode node)
      | some (.nonEmpty,node) => some (-eNotEmpty,m.setNode de.inode node)
      | some (.empty selfLnkCnt parentLnkCnt,node) =>
        some (((m.setNode de.inode node).dropLinks this de.inode selfLnkCnt parentLnkCnt).unlink
          c.curTime this prevDe prevPos de position)

/-- FSINode::Remove on the cached inode of the given number. Fuel bounds its
searches. -/
def remove (m : Mount) (c : Caller) (fuel this : ℕ) (name : List UInt8) : Option (ℤ × Mount) :=
  let node := (m.object this).node
  if node.iMode &&& ext2SIfDir = 0 then some (-eNotDir,m) else
  match removeLoop m.fs c.curTime (m.fs.getSize node) name fuel node Record.blank 0 0 with
  | none => none
  | some (.failed e,node) => some (-e,m.setNode this node)
  | some (.entry prevDe prevPos de position,node) =>
    (m.setNode this node).removeEntry c fuel this prevDe prevPos de position

end Mount

end WootOs.Ext2Names
