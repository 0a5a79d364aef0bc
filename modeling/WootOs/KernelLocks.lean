import WootOs.CodeLogic
import WootOs.DentryCache
import WootOs.HandleTable

/-!
# Calls under the process lock and the file system mutex

The calls of Process and FileSystem take a recursive lock by hand and give it
back by hand before each return. This is how they look to the thread that makes
them: how often it holds each lock, the handles of its process, and the cached
dentries and inodes.

A lock that the thread does not hold may have to be waited for. The wait ends
with the lock, or without it, or too late: the lock was handed over to a thread
whose time was already over, which then takes it for a wait that failed. Until
then other threads change what the lock guards. What other locks guard does not
matter here. A null pointer that is used, a dentry
that was deleted and a thread that finalizes itself mean that the call does not
return.
-/

namespace WootOs.KernelLocks

open CodeLogic DentryCache HandleTable

/-- The locks that calls take. -/
inductive Lock where
  /-- Process::lock. -/
  | process
  /-- FileSystem::mutex. -/
  | fileSystem
  deriving DecidableEq

/-- How a wait for a lock ends. -/
inductive Grant where
  /-- With the lock. -/
  | taken
  /-- Without it. -/
  | timedOut
  /-- Without it for the thread, which holds it nevertheless. -/
  | late
  deriving DecidableEq

/-- A DEntry. -/
structure DEntry where
  /-- Parent. -/
  parent : Option ℕ
  /-- Name. -/
  name : Name
  /-- INode, a null pointer if it could not be read. -/
  inode : Option ℕ

/-- What Process::lock guards. -/
structure ProcessData where
  /-- Process::Handles. A file is named by its dentry. -/
  handles : Table ℕ
  /-- Process::Threads. -/
  threads : List ℕ
  /-- Process::CurrentDirectory. -/
  currentDirectory : Option ℕ
  /-- The number of threads there have been. -/
  nextThread : ℕ
  /-- The number of processes there have been. -/
  nextProcess : ℕ

/-- What FileSystem::mutex guards. -/
structure Caches where
  /-- The dentries there have been. -/
  dentries : ℕ → DEntry
  /-- ReferenceCount of a dentry, none if there is no such dentry now. -/
  dentryCount : ℕ → Option ℤ
  /-- dentryCache. -/
  dentryCache : List ℕ
  /-- The number of dentries there have been. -/
  nextDEntry : ℕ
  /-- The inodes there have been. -/
  inodes : ℕ → INode
  /-- ReferenceCount of an inode, none if there is no such inode now. -/
  inodeCount : ℕ → Option ℤ
  /-- inodeCache. -/
  inodeCache : List ℕ
  /-- The number of inodes there have been. -/
  nextINode : ℕ
  /-- The root of each file system that was found, a null pointer if it could not be read. -/
  roots : List (Option ℕ)

/-- A wait for a lock. Other threads may change what the lock guards until it ends. -/
structure Wait where
  /-- How it ends. -/
  grant : Grant
  /-- What Process::lock guards then. -/
  processData : ProcessData
  /-- What FileSystem::mutex guards then. -/
  caches : Caches

/-- The calling thread, its process, and the caches of the file systems. -/
structure Kernel extends ProcessData,Caches where
  /-- How often the thread holds a lock. -/
  held : Lock → ℕ
  /-- The waits for a lock that are still to come. -/
  waits : Lock → List Wait
  /-- The calling thread. -/
  currentThread : ℕ
  /-- Its errno. -/
  errno : ℤ

/-- What a call reads from the volumes. -/
structure Volumes where
  /-- INode::Lookup, none where it is not positive. -/
  lookup : INode → Name → Option ℕ
  /-- Whether ReadINode gives an inode. -/
  readable : INode → Bool
  /-- INode::GetMode. -/
  mode : INode → ℕ
  /-- INode::Resize to zero. -/
  resize : INode → ℤ

/-- One more hold of a lock. -/
def raise (held : Lock → ℕ) (l : Lock) : Lock → ℕ := Function.update held l (held l + 1)

/-- What the lock guards is as the other threads left it. -/
def resume (s : Kernel) (l : Lock) (w : Wait) : Kernel :=
  match l with
  | .process => { s with toProcessData := w.processData }
  | .fileSystem => { s with toCaches := w.caches }

/-- A wait for a lock is over. -/
def nextWait (s : Kernel) (l : Lock) (w : Wait) (ws : List Wait) : Kernel :=
  { resume s l w with waits := Function.update s.waits l ws }

/-- Mutex::Acquire. A lock that the thread holds is taken once more, and one that no thread
holds is taken at once. -/
def acquire (l : Lock) : Code Kernel Bool := fun s =>
  if 0 < s.held l then some (true,{ s with held := raise s.held l })
  else
    match s.waits l with
    | [] => some (true,{ s with held := raise s.held l })
    | w :: ws =>
      match w.grant with
      | .taken => some (true,{ nextWait s l w ws with held := raise s.held l })
      | .timedOut => some (false,nextWait s l w ws)
      | .late => some (false,{ nextWait s l w ws with held := raise s.held l })

/-- Mutex::Release. A lock that the thread does not hold is left. -/
def release (l : Lock) : Code Kernel Unit :=
  modify fun s => { s with held := Function.update s.held l (s.held l - 1) }

/-! ### The file systems -/

/-- An inode without references leaves the cache. -/
def dropINode (s : Kernel) (i : ℕ) : Kernel :=
  { s with
    inodeCount := Function.update s.inodeCount i none
    inodeCache := s.inodeCache.erase i }

/-- FileSystem::PutINode. -/
def putINode (inode : Option ℕ) : Code Kernel Unit :=
  match inode with
  | none => pure ()
  | some i => do
    if !(← acquire .fileSystem) then return ()
    match (← get).inodeCount i with
    | none => stuck
    | some c =>
      let c := if 0 < c then c - 1 else c
      modify fun s =>
        if c ≤ 0 then dropINode s i
        else { s with inodeCount := Function.update s.inodeCount i (some c) }
      release .fileSystem

/-- FileSystem::RemoveDEntry. -/
def removeDEntry (d : ℕ) : Code Kernel Unit := do
  let _ ← acquire .fileSystem
  modify fun s => { s with dentryCache := s.dentryCache.erase d }
  release .fileSystem

/-- FileSystem::AddDEntry. -/
def addDEntry (d : ℕ) : Code Kernel Unit := do
  let _ ← acquire .fileSystem
  modify fun s => { s with dentryCache := d :: s.dentryCache }
  release .fileSystem

/-- FileSystem::PutDEntry with the destructor of DEntry, up to a number of dentries. -/
def putUpTo : ℕ → Option ℕ → Code Kernel Unit
  | _,none => pure ()
  | 0,some _ => stuck
  | fuel + 1,some d => do
    if !(← acquire .fileSystem) then return ()
    match (← get).dentryCount d with
    | none => stuck
    | some c =>
      modify fun s => { s with dentryCount := Function.update s.dentryCount d (some (c - 1)) }
      if c = 0 then
        let dentry := (← get).dentries d
        removeDEntry d
        putINode dentry.inode
        putUpTo fuel dentry.parent
        modify fun s => { s with dentryCount := Function.update s.dentryCount d none }
        release .fileSystem
      else release .fileSystem

/-- FileSystem::PutDEntry. Each dentry that is deleted leaves the cache. -/
def putDEntry (d : Option ℕ) : Code Kernel Unit := do
  putUpTo ((← get).dentryCache.length + 1) d

/-- One more on ReferenceCount of a dentry. -/
def addReference (s : Kernel) (d : ℕ) : Kernel :=
  { s with dentryCount := Function.update s.dentryCount d ((s.dentryCount d).map (· + 1)) }

/-- FileSystem::GetDEntry. -/
def getDEntry (d : ℕ) : Code Kernel (Option ℕ) := do
  if !(← acquire .fileSystem) then return none
  if d ∉ (← get).dentryCache then
    release .fileSystem
    return none
  modify fun s => addReference s d
  release .fileSystem
  return some d

/-- An inode is read and enters the cache with one reference. -/
def cacheINode (s : Kernel) (inode : INode) : Kernel :=
  { s with
    inodes := Function.update s.inodes s.nextINode inode
    inodeCount := Function.update s.inodeCount s.nextINode (some 1)
    inodeCache := s.nextINode :: s.inodeCache
    nextINode := s.nextINode + 1 }

/-- FileSystem::GetINode. -/
def getINode (v : Volumes) (inode : INode) : Code Kernel (Option ℕ) := do
  if !(← acquire .fileSystem) then return none
  let s ← get
  match s.inodeCache.find? fun i => s.inodes i = inode with
  | some i =>
    modify fun s =>
      { s with inodeCount := Function.update s.inodeCount i ((s.inodeCount i).map (· + 1)) }
    release .fileSystem
    return some i
  | none =>
    if !v.readable inode then
      release .fileSystem
      return none
    modify fun s => cacheINode s inode
    release .fileSystem
    return some s.nextINode

/-- A reference to a dentry, unless it is a null pointer. -/
def getIfAny (d : Option ℕ) : Code Kernel (Option ℕ) :=
  match d with
  | some d => getDEntry d
  | none => pure none

/-- The constructor of DEntry. -/
def newDEntry (name : Name) (parent inode : Option ℕ) : Code Kernel ℕ := do
  let got ← getIfAny parent
  let d := (← get).nextDEntry
  modify fun s =>
    { s with
      dentries := Function.update s.dentries d ⟨got,name,inode⟩
      dentryCount := Function.update s.dentryCount d (some 0)
      nextDEntry := d + 1 }
  addDEntry d
  return d

/-- The inode of a dentry, if there is one; the dentry must not have been deleted. -/
def inodeOf (d : ℕ) : Code Kernel (Option INode) := do
  let s ← get
  if (s.dentryCount d).isNone then stuck else return (s.dentries d).inode.map s.inodes

/-- The part of FileSystem::LookupDEntry after its first test. -/
def lookupIn (v : Volumes) (parent : ℕ) (inode : INode) (name : Name) :
    Code Kernel (Option ℕ) := do
  let s ← get
  match s.dentryCache.find? fun d =>
      decide ((s.dentries d).parent = some parent ∧ name = (s.dentries d).name) with
  | some d =>
    modify fun s => addReference s d
    release .fileSystem
    return some d
  | none =>
    match v.lookup inode name with
    | none =>
      release .fileSystem
      return none
    | some ino =>
      let i ← getINode v ⟨inode.fs,ino⟩
      let d ← newDEntry name (some parent) i
      release .fileSystem
      return some d

/-- FileSystem::LookupDEntry once it has the mutex: the rest of its first test, which fails
with the mutex, and what comes after it. -/
def lookupLocked (v : Volumes) (parent : Option ℕ) (name : Option Name) :
    Code Kernel (Option ℕ) := do
  match parent with
  | none => return none
  | some parent =>
    match ← inodeOf parent,name with
    | some inode,some name => lookupIn v parent inode name
    | _,_ => return none

/-- FileSystem::LookupDEntry. -/
def lookupDEntry (v : Volumes) (parent : Option ℕ) (name : Option Name) :
    Code Kernel (Option ℕ) := do
  if !(← acquire .fileSystem) then return none
  lookupLocked v parent name

/-! ### Files -/

/-- O_APPEND. -/
def appendFlag : ℕ := 0o2000

/-- What the loop of File::open does with one token of a path: it returns a null pointer,
or goes on with another dentry. -/
def walkStep (v : Volumes) (d : Option ℕ) (t : Name) : Code Kernel (Option (Option ℕ)) := do
  if t = dot then return some d
  else if t = dotDot then
    match d with
    | none => stuck
    | some d =>
      let _ ← inodeOf d
      match ((← get).dentries d).parent with
      | none => return some (some d)
      | some p =>
        let next ← getDEntry p
        putDEntry (some d)
        return some next
  else
    let next ← lookupDEntry v d (some t)
    putDEntry d
    match next with
    | none => return none
    | some next => return some (some next)

/-- The loop of File::open over the tokens of a path. -/
def walk (v : Volumes) : List Name → Option ℕ → Code Kernel (Option (Option ℕ))
  | [],d => pure (some d)
  | t :: ts,d => do
    match ← walkStep v d t with
    | none => return none
    | some d => walk v ts d

/-- File::GetSize. -/
def getSize : Code Kernel Unit := do
  if !(← acquire .fileSystem) then return ()
  release .fileSystem

/-- The part of File::open after the loop. -/
def finishOpen (v : Volumes) (d flags : ℕ) : Code Kernel (Option ℕ) := do
  match ← inodeOf d with
  | none => stuck
  | some inode =>
    if truncates flags ∧ v.resize inode ≠ 0 ∨
        flags &&& directoryFlag ≠ 0 ∧ ¬isDirectory (v.mode inode) then
      putDEntry (some d)
      return none
    else if flags &&& appendFlag ≠ 0 then
      getSize
      return some d
    else return some d

/-- File::open. A file is named by its dentry. -/
def openFrom (v : Volumes) (parent : Option ℕ) (tokens : Option (List Name)) (flags : ℕ) :
    Code Kernel (Option ℕ) := do
  match parent with
  | none => return none
  | some parent =>
    match ← inodeOf parent,tokens with
    | some _,some tokens =>
      match ← getDEntry parent with
      | none => return none
      | some d =>
        match ← walk v tokens (some d) with
        | none => return none
        | some none => stuck
        | some (some d) => finishOpen v d flags
    | _,_ => return none

/-- File::Open below a dentry. -/
def openAt (v : Volumes) (parent : Option ℕ) (tokens : Option (List Name)) (flags : ℕ) :
    Code Kernel (Option ℕ) := do
  if !(← acquire .fileSystem) then return none
  let file ← openFrom v parent tokens flags
  release .fileSystem
  return file

/-- Where the path of a file leads: nowhere, as it has no token, or from an origin along
tokens. A file system that is named may not be there. -/
inductive Target where
  /-- A path without a token. -/
  | empty
  /-- A path in a file system that is not there. -/
  | missing
  /-- A path below the root of a file system. -/
  | fileSystem (fs : ℕ) (tokens : List Name)
  /-- A path below the current directory. -/
  | currentDirectory (tokens : List Name)
  /-- A path whose first token starts with a separator, for which the root of a null file
  system is asked. -/
  | absolute

/-- File::Open of a path. -/
def openFile (v : Volumes) (target : Target) (flags : ℕ) : Code Kernel (Option ℕ) := do
  match target with
  | .empty => return none
  | target =>
    if !(← acquire .fileSystem) then return none
    match target with
    | .empty => stuck
    | .absolute => stuck
    | .missing =>
      release .fileSystem
      return none
    | .fileSystem fs tokens =>
      match ((← get).roots[fs]?).join with
      | none =>
        release .fileSystem
        return none
      | some root =>
        let file ← openFrom v (some root) (some tokens) flags
        release .fileSystem
        return file
    | .currentDirectory tokens =>
      match (← get).currentDirectory with
      | none =>
        release .fileSystem
        return none
      | some cdir =>
        let file ← openFrom v (some cdir) (some tokens) flags
        release .fileSystem
        return file

/-- What EXT2FileSystemType::Detect finds on a volume. -/
structure SuperBlock where
  /-- s_magic. -/
  magic : ℕ
  /-- s_feature_incompat. -/
  featureIncompat : ℕ
  /-- Whether the block group descriptors can be read. -/
  descriptorsReadable : Bool

/-- EXT2_SUPER_MAGIC. -/
def superMagic : ℕ := 0xEF53

/-- The features with which Detect gives up: EXT2_FEATURE_INCOMPAT_COMPRESSION,
EXT3_FEATURE_INCOMPAT_RECOVER, EXT3_FEATURE_INCOMPAT_JOURNAL_DEV,
EXT2_FEATURE_INCOMPAT_META_BG and EXTx_FEATURE_INCOMPAT_FUTURE. -/
def incompatible : List ℕ := [0x0001,0x0004,0x0008,0x0010,0xFFE0]

/-- FileSystem::SetRoot of the file system that was made last. -/
def setRoot (d : ℕ) : Code Kernel Unit := do
  if !(← acquire .fileSystem) then return ()
  modify fun s => { s with roots := s.roots.set (s.roots.length - 1) (some d) }
  release .fileSystem

/-- The constructor of EXT2. -/
def newExt2 (v : Volumes) (sblock : SuperBlock) : Code Kernel Unit := do
  let fs := (← get).roots.length
  modify fun s => { s with roots := s.roots ++ [none] }
  if !sblock.descriptorsReadable then return ()
  match ← getINode v ⟨fs,rootNumber⟩ with
  | none => return ()
  | some i =>
    let d ← newDEntry ['/'] none (some i)
    setRoot d

/-- EXT2FileSystemType::Detect, of a volume or none, whose super block can be read or not. -/
def detect (v : Volumes) (vol : Option (Option SuperBlock)) : Code Kernel ℕ := do
  if !(← acquire .fileSystem) then return 0
  match vol with
  | none => return 0
  | some none =>
    release .fileSystem
    return 0
  | some (some sblock) =>
    if sblock.magic ≠ superMagic then
      release .fileSystem
      return 0
    if incompatible.any fun feature => sblock.featureIncompat &&& feature ≠ 0 then
      release .fileSystem
      return 0
    newExt2 v sblock
    release .fileSystem
    return 1

/-! ### Processes -/

/-- Process::allocHandleSlot, with Heap::Resize succeeding or not. -/
def allocHandleSlot (handle : Handle ℕ) (resized : Bool) : Code Kernel ℤ := do
  let r := Table.allocHandleSlot (← get).handles handle resized
  modify fun s => { s with handles := r.2 }
  return r.1

/-- Process::Lock. -/
def lockProcess : Code Kernel Bool := do
  if ← acquire .process then return true
  modify fun s => { s with errno := -NamedObjects.ebusy }
  return false

/-- Process::Open, of a file name or none. -/
def openProcessFile (v : Volumes) (filename : Option Target) (flags : ℕ) (resized : Bool) :
    Code Kernel ℤ := do
  match filename with
  | none => return -einval
  | some filename =>
    if !(← lockProcess) then return -(← get).errno
    match ← openFile v filename flags with
    | none => return -(← get).errno
    | some f =>
      let res ← allocHandleSlot { type := .file,data := some f } resized
      if res < 0 then
        putDEntry (some f)
        release .process
        return res
      else
        release .process
        return res

/-- Process::OpenObject, of a name or none. Under the name the object tree has an object or
none. -/
def openObject (named : Bool) (obj : Option ℕ) (resized : Bool) : Code Kernel ℤ := do
  if !named then return -einval
  if !(← lockProcess) then return -(← get).errno
  match obj with
  | none => return -enoent
  | some obj =>
    let res ← allocHandleSlot { type := .object,data := some obj } resized
    release .process
    return res

/-- Process::Close. The Put of a named object has a lock of its own. -/
def close (handle : BitVec 32) (putLocked : Bool) : Code Kernel ℤ := do
  if !(← lockProcess) then return -(← get).errno
  let h := (← get).handles.get handle.toNat
  modify fun s => { s with handles := Table.freeHandleSlot s.handles handle }
  match h.type with
  | .object =>
    release .process
    return 0
  | .file =>
    putDEntry h.data
    release .process
    return 0
  | .thread =>
    if h.data = some (← get).currentThread then stuck
    else
      release .process
      return 0
  | .process =>
    release .process
    return 0
  | .namedObject =>
    if h.data.isNone then stuck
    else
      release .process
      return if putLocked then 0 else -NamedObjects.ebusy
  | _ =>
    release .process
    return -ebadf

/-- Process::GetHandleData. -/
def getHandleData (handle : BitVec 32) (type : HandleType) : Code Kernel (Option ℕ) := do
  if !(← lockProcess) then return none
  let h := (← get).handles.get handle.toNat
  if h.type ≠ type then
    modify fun s => { s with errno := ebadf }
    release .process
    return none
  release .process
  return h.data

/-- Process::AddThread. -/
def addThread (t : ℕ) : Code Kernel Unit := do
  if !(← lockProcess) then return ()
  modify fun s => { s with threads := s.threads ++ [t] }
  release .process

/-- Process::NewThread. The new thread's own data needs a page that SBrk maps. -/
def newThread (resized mapped : Bool) : Code Kernel ℤ := do
  if !(← lockProcess) then return -(← get).errno
  let t := (← get).nextThread
  modify fun s => { s with nextThread := t + 1 }
  addThread t
  let res ← allocHandleSlot { type := .thread,data := some t } resized
  if res < 0 then return res
  if !mapped then stuck
  else
    release .process
    return res

/-- Process::NewProcess, of a command line or none. The new process takes a reference to the
current directory and adds its main thread under a lock of its own. -/
def newProcess (cmdline : Bool) (resized : Bool) : Code Kernel ℤ := do
  if !(← lockProcess) then return -(← get).errno
  if !cmdline then stuck
  else
    let p := (← get).nextProcess
    modify fun s => { s with nextProcess := p + 1 }
    let cdir ← getIfAny (← get).currentDirectory
    let res ← allocHandleSlot { type := .process,data := some p } resized
    if res < 0 then
      putDEntry cdir
      return res
    release .process
    return res

/-- Process::CreateNamedObjectHandle. -/
def createNamedObjectHandle (no : Option ℕ) (resized : Bool) : Code Kernel ℤ := do
  if !(← lockProcess) then return -(← get).errno
  let res ← allocHandleSlot { type := .namedObject,data := no } resized
  if res < 0 then return res
  release .process
  return res

/-- The calls. -/
inductive Call where
  /-- Process::Open. -/
  | openProcessFile (filename : Option Target) (flags : ℕ) (resized : Bool)
  /-- Process::OpenObject. -/
  | openObject (named : Bool) (obj : Option ℕ) (resized : Bool)
  /-- Process::Close. -/
  | close (handle : BitVec 32) (putLocked : Bool)
  /-- Process::GetHandleData. -/
  | getHandleData (handle : BitVec 32) (type : HandleType)
  /-- Process::NewThread. -/
  | newThread (resized mapped : Bool)
  /-- Process::NewProcess. -/
  | newProcess (cmdline resized : Bool)
  /-- Process::CreateNamedObjectHandle. -/
  | createNamedObjectHandle (no : Option ℕ) (resized : Bool)
  /-- FileSystem::LookupDEntry. -/
  | lookupDEntry (parent : Option ℕ) (name : Option Name)
  /-- FileSystem::GetDEntry. -/
  | getDEntry (d : ℕ)
  /-- FileSystem::GetINode. -/
  | getINode (inode : INode)
  /-- FileSystem::PutINode. -/
  | putINode (inode : Option ℕ)
  /-- FileSystem::PutDEntry. -/
  | putDEntry (d : Option ℕ)
  /-- File::Open of a path. -/
  | openFile (target : Target) (flags : ℕ)
  /-- File::Open below a dentry. -/
  | openAt (parent : Option ℕ) (tokens : Option (List Name)) (flags : ℕ)
  /-- EXT2FileSystemType::Detect. -/
  | detect (vol : Option (Option SuperBlock))

/-- A call, without what it returns. -/
def Call.run (v : Volumes) : Call → Code Kernel Unit
  | .openProcessFile filename flags resized =>
    discard (KernelLocks.openProcessFile v filename flags resized)
  | .openObject named obj resized => discard (KernelLocks.openObject named obj resized)
  | .close handle putLocked => discard (KernelLocks.close handle putLocked)
  | .getHandleData handle type => discard (KernelLocks.getHandleData handle type)
  | .newThread resized mapped => discard (KernelLocks.newThread resized mapped)
  | .newProcess cmdline resized => discard (KernelLocks.newProcess cmdline resized)
  | .createNamedObjectHandle no resized =>
    discard (KernelLocks.createNamedObjectHandle no resized)
  | .lookupDEntry parent name => discard (KernelLocks.lookupDEntry v parent name)
  | .getDEntry d => discard (KernelLocks.getDEntry d)
  | .getINode inode => discard (KernelLocks.getINode v inode)
  | .putINode inode => KernelLocks.putINode inode
  | .putDEntry d => KernelLocks.putDEntry d
  | .openFile target flags => discard (KernelLocks.openFile v target flags)
  | .openAt parent tokens flags => discard (KernelLocks.openAt v parent tokens flags)
  | .detect vol => discard (KernelLocks.detect v vol)

end WootOs.KernelLocks
