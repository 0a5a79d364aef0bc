import Mathlib.Data.List.Basic
import WootOs.ReferenceCounts
import WootOs.Runs

/-!
# Dentries and inodes

FileSystem keeps a cache of the dentries and one of the inodes that are in use.
A dentry is made with ReferenceCount zero for the one who made it and deleted by
the PutDEntry that finds zero, which puts its inode and, up the tree, its
parent. An inode starts at one and goes when its count is back at zero.

Locks and reads of the volumes do not fail here, so GetINode always gives an
inode and no dentry is without one, and new finds memory. An access to a deleted
dentry or inode has no outcome, nor has the absolute path that File::Open looks
up in a file system it has not got.
-/

namespace WootOs.DentryCache

open ReferenceCounts Runs

set_option linter.unusedSectionVars false

/-- A name in a directory or one of the tokens of a path. -/
abbrev Name := List Char

/-- "." -/
def dot : Name := ['.']

/-- ".." -/
def dotDot : Name := ['.','.']

/-- What the constructor of an INode fixes. -/
structure INode where
  /-- FS, the number of the file system. -/
  fs : ℕ
  /-- Number. -/
  number : ℕ
  deriving DecidableEq

/-- What the constructor of a DEntry fixes. -/
structure DEntry where
  /-- Parent. -/
  parent : Option ℕ
  /-- Name. -/
  name : Name
  /-- INode. -/
  inode : ℕ
  deriving DecidableEq

/-- A process, as far as it holds dentries. -/
structure Process where
  /-- CurrentDirectory. -/
  currentDirectory : Option ℕ
  /-- The dentry of each open file. -/
  files : List ℕ

/-- The dentries a process holds. -/
def Process.holds (p : Process) : List ℕ := p.currentDirectory.toList ++ p.files

/-- What a call reads from the volumes. -/
structure Disk where
  /-- INode::Lookup, none where it is not positive. -/
  lookup : INode → Name → Option ℕ
  /-- INode::GetMode. -/
  mode : INode → ℕ
  /-- INode::Resize to zero. -/
  resize : INode → ℤ

/-- O_ACCMODE. -/
def accMode : ℕ := 3

/-- O_TRUNC. -/
def truncFlag : ℕ := 0o1000

/-- O_DIRECTORY. -/
def directoryFlag : ℕ := 0o200000

/-- EXT2_ROOT_INO. -/
def rootNumber : ℕ := 2

/-- S_ISDIR. -/
def isDirectory (mode : ℕ) : Prop := mode &&& 0xF000 = 0x4000

instance (mode : ℕ) : Decidable (isDirectory mode) := inferInstanceAs (Decidable (_ = _))

/-- The flags ask for a truncation: they allow writing and have O_TRUNC. -/
def truncates (flags : ℕ) : Prop := flags &&& accMode ≠ 0 ∧ flags &&& truncFlag ≠ 0

instance (flags : ℕ) : Decidable (truncates flags) := inferInstanceAs (Decidable (_ ∧ _))

/-- The dentries, the inodes, the processes and the mounted file systems. -/
structure FileSystem where
  /-- The dentries there have been. -/
  dentries : ℕ → DEntry
  /-- ReferenceCount of a dentry, none if there is no such dentry now. -/
  dentryCount : ℕ → Option ℤ
  /-- dentryCache. -/
  dentryCache : List ℕ
  /-- The number of dentries there have been. -/
  nextDEntry : ℕ
  /-- The inodes there have been. -/
  inodes : ℕ → INode
  /-- ReferenceCount of an inode, none if there is no such inode now. -/
  inodeCount : ℕ → Option ℤ
  /-- inodeCache. -/
  inodeCache : List ℕ
  /-- The number of inodes there have been. -/
  nextINode : ℕ
  /-- The processes. -/
  processes : List Process
  /-- The root of each mounted file system. -/
  roots : List ℕ

namespace FileSystem

/-- The kernel process before any file system is mounted. -/
def start : FileSystem where
  dentries := fun _ => ⟨none,[],0⟩
  dentryCount := fun _ => none
  dentryCache := []
  nextDEntry := 0
  inodes := fun _ => ⟨0,0⟩
  inodeCount := fun _ => none
  inodeCache := []
  nextINode := 0
  processes := [⟨none,[]⟩]
  roots := []

variable (s : FileSystem)

/-- The inode of a dentry, if both are there. -/
def inodeOf (d : ℕ) : Option INode :=
  match s.dentryCount d,s.inodeCount (s.dentries d).inode with
  | some _,some _ => some (s.inodes (s.dentries d).inode)
  | _,_ => none

/-- FileSystem::PutINode. -/
def putINode (i : ℕ) : Option FileSystem :=
  match s.inodeCount i with
  | none => none
  | some c =>
    let c := if 0 < c then c - 1 else c
    if c ≤ 0 then
      some { s with
        inodeCount := Function.update s.inodeCount i none
        inodeCache := s.inodeCache.erase i }
    else some { s with inodeCount := Function.update s.inodeCount i (some c) }

/-- One more on ReferenceCount of an inode. -/
def addINodeReference (i : ℕ) : FileSystem :=
  { s with inodeCount := Function.update s.inodeCount i ((s.inodeCount i).map (· + 1)) }

/-- An inode is read and enters the cache with one reference. -/
def readINode (inode : INode) : FileSystem :=
  { s with
    inodes := Function.update s.inodes s.nextINode inode
    inodeCount := Function.update s.inodeCount s.nextINode (some 1)
    inodeCache := s.nextINode :: s.inodeCache
    nextINode := s.nextINode + 1 }

/-- FileSystem::GetINode. -/
def getINode (inode : INode) : FileSystem × ℕ :=
  match s.inodeCache.find? fun i => s.inodes i = inode with
  | some i => (s.addINodeReference i,i)
  | none => (s.readINode inode,s.nextINode)

/-- One more on ReferenceCount of a dentry. -/
def addReference (d : ℕ) : FileSystem :=
  { s with dentryCount := Function.update s.dentryCount d ((s.dentryCount d).map (· + 1)) }

/-- FileSystem::GetDEntry. -/
def getDEntry (d : ℕ) : FileSystem × Option ℕ :=
  if d ∈ s.dentryCache then (s.addReference d,some d) else (s,none)

/-- A new dentry in the cache, with its fields. -/
def construct (dentry : DEntry) : FileSystem :=
  { s with
    dentries := Function.update s.dentries s.nextDEntry dentry
    dentryCount := Function.update s.dentryCount s.nextDEntry (some 0)
    dentryCache := s.nextDEntry :: s.dentryCache
    nextDEntry := s.nextDEntry + 1 }

/-- The constructor of DEntry. -/
def newDEntry (name : Name) (parent : Option ℕ) (inode : ℕ) : FileSystem × ℕ :=
  match parent with
  | some p =>
    let got := s.getDEntry p
    (got.1.construct ⟨got.2,name,inode⟩,got.1.nextDEntry)
  | none => (s.construct ⟨none,name,inode⟩,s.nextDEntry)

/-- A dentry leaves the cache and its memory is freed. -/
def release (d : ℕ) : FileSystem :=
  { s with
    dentryCount := Function.update s.dentryCount d none
    dentryCache := s.dentryCache.erase d }

/-- FileSystem::PutDEntry with the destructor of DEntry, up to a number of dentries. -/
def putUpTo : ℕ → FileSystem → ℕ → Option FileSystem
  | 0,_,_ => none
  | fuel + 1,s,d =>
    match s.dentryCount d with
    | none => none
    | some c =>
      if c = 0 then
        match (s.release d).putINode (s.dentries d).inode with
        | none => none
        | some s' =>
          match (s.dentries d).parent with
          | some p => putUpTo fuel s' p
          | none => some s'
      else some { s with dentryCount := Function.update s.dentryCount d (some (c - 1)) }

/-- FileSystem::PutDEntry. Each dentry that is deleted leaves the cache. -/
def putDEntry (d : ℕ) : Option FileSystem := putUpTo (s.dentryCache.length + 1) s d

/-- FileSystem::LookupDEntry. -/
def lookupDEntry (disk : Disk) (parent : ℕ) (name : Name) : Option (FileSystem × Option ℕ) :=
  match s.inodeOf parent with
  | none => none
  | some inode =>
    let child := fun d => (s.dentries d).parent = some parent ∧ name = (s.dentries d).name
    match s.dentryCache.find? fun d => child d with
    | some d => some (s.addReference d,some d)
    | none =>
      match disk.lookup inode name with
      | none => some (s,none)
      | some ino =>
        let got := s.getINode ⟨inode.fs,ino⟩
        let made := got.1.newDEntry name (some parent) got.2
        some (made.1,some made.2)

/-- The loop of File::open over the tokens of a path. -/
def walk (disk : Disk) : FileSystem → ℕ → List Name → Option (FileSystem × Option ℕ)
  | s,d,[] => some (s,some d)
  | s,d,t :: ts =>
    if t = dot then walk disk s d ts
    else if t = dotDot then
      match s.dentryCount d,(s.dentries d).parent with
      | none,_ => none
      | some _,none => walk disk s d ts
      | some _,some p =>
        match s.getDEntry p with
        | (_,none) => none
        | (s,some next) =>
          match s.putDEntry d with
          | none => none
          | some s => walk disk s next ts
    else
      match s.lookupDEntry disk d t with
      | none => none
      | some (s,next) =>
        match s.putDEntry d,next with
        | none,_ => none
        | some s,none => some (s,none)
        | some s,some next => walk disk s next ts

/-- The end of File::open, with the dentry of the new file. -/
def finishOpen (disk : Disk) (d flags : ℕ) : Option (FileSystem × Option ℕ) :=
  match s.inodeOf d with
  | none => none
  | some inode =>
    if truncates flags ∧ disk.resize inode ≠ 0 ∨
        flags &&& directoryFlag ≠ 0 ∧ ¬isDirectory (disk.mode inode) then
      (s.putDEntry d).map fun s => (s,none)
    else some (s,some d)

/-- The dentry that the path of File::open leads to. -/
def resolve (disk : Disk) (parent : ℕ) (tokens : List Name) : Option (FileSystem × Option ℕ) :=
  match s.inodeOf parent with
  | none => none
  | some _ =>
    match s.getDEntry parent with
    | (s,none) => some (s,none)
    | (s,some d) => walk disk s d tokens

/-- File::open. -/
def openFrom (disk : Disk) (parent : ℕ) (tokens : List Name) (flags : ℕ) :
    Option (FileSystem × Option ℕ) :=
  match s.resolve disk parent tokens with
  | none => none
  | some (s,none) => some (s,none)
  | some (s,some d) => s.finishOpen disk d flags

end FileSystem

/-- Where a path starts. -/
inductive Origin where
  /-- At the root of the file system that it names. -/
  | fileSystem (fs : ℕ)
  /-- In the current directory. -/
  | currentDirectory
  /-- At the root of a file system that File::Open has not looked up: the first token
  starts with a separator, as only a quoted one can. -/
  | absolute
  deriving DecidableEq

/-- The calls that take or drop references to dentries. -/
inductive Op where
  /-- Process::Open by a process, with the tokens of the path and a free handle or not. -/
  | openFile (process : ℕ) (origin : Origin) (tokens : List Name) (flags : ℕ) (handle : Bool)
  /-- Process::Close of a file by a process. -/
  | closeFile (process file : ℕ)
  /-- The constructor of Process, run by a process. -/
  | createProcess (current : ℕ)
  /-- The destructor of Process. -/
  | destroyProcess (process : ℕ)
  /-- The constructor of EXT2. -/
  | mount
  /-- A process that has no current directory makes an open file its current directory, as
  the kernel process does when it starts. -/
  | enterDirectory (process file : ℕ)
  /-- A process leaves its current directory, as the kernel process does when it ends. -/
  | leaveDirectory (process : ℕ)

/-- A call opens an absolute path. -/
def Op.Absolute : Op → Prop
  | .openFile _ origin _ _ _ => origin = .absolute
  | _ => False

namespace FileSystem

variable (s : FileSystem)

/-- A process gets other holds. -/
def setProcess (n : ℕ) (p : Process) : FileSystem := { s with processes := s.processes.set n p }

/-- The root of an origin, none for the null file system. -/
def rootOf (p : Process) : Origin → Option (Option ℕ)
  | .fileSystem fs => some s.roots[fs]?
  | .currentDirectory => some p.currentDirectory
  | .absolute => none

/-- File::Open, with the dentry of the new file. -/
def openFile (disk : Disk) (p : Process) (origin : Origin) (tokens : List Name) (flags : ℕ) :
    Option (FileSystem × Option ℕ) :=
  match s.rootOf p origin with
  | none => none
  | some none => some (s,none)
  | some (some d) => s.openFrom disk d tokens flags

/-- Process::Open gives the process a handle of the new file, or closes it again. -/
def giveHandle (n : ℕ) (p : Process) (file : Option ℕ) (handle : Bool) : Option FileSystem :=
  match file with
  | none => some s
  | some d =>
    if handle then some (s.setProcess n { p with files := p.files ++ [d] }) else s.putDEntry d

/-- PutDEntry of several dentries. -/
def putAll : FileSystem → List ℕ → Option FileSystem
  | s,[] => some s
  | s,d :: ds =>
    match s.putDEntry d with
    | none => none
    | some s => putAll s ds

/-- The constructor of EXT2 as far as it takes references. -/
def mount : FileSystem :=
  let got := s.getINode ⟨s.roots.length,rootNumber⟩
  let made := got.1.newDEntry ['/'] none got.2
  { made.1 with roots := made.1.roots ++ [made.2] }

/-- The effect of a call. -/
def apply (disk : Disk) : Op → Option FileSystem
  | .openFile n origin tokens flags handle =>
    match s.processes[n]? with
    | none => some s
    | some p =>
      match s.openFile disk p origin tokens flags with
      | none => none
      | some (s,file) => s.giveHandle n p file handle
  | .closeFile n file =>
    match s.processes[n]? with
    | none => some s
    | some p =>
      match p.files[file]? with
      | none => some s
      | some d => (s.setProcess n { p with files := p.files.eraseIdx file }).putDEntry d
  | .createProcess n =>
    match s.processes[n]?.bind Process.currentDirectory with
    | none => some { s with processes := s.processes ++ [⟨none,[]⟩] }
    | some cdir =>
      let got := s.getDEntry cdir
      some { got.1 with processes := got.1.processes ++ [⟨got.2,[]⟩] }
  | .destroyProcess n =>
    match s.processes[n]? with
    | none => some s
    | some p =>
      { s with processes := s.processes.eraseIdx n }.putAll
        (p.files ++ p.currentDirectory.toList)
  | .mount => some s.mount
  | .enterDirectory n file =>
    match s.processes[n]? with
    | none => some s
    | some p =>
      match p.currentDirectory,p.files[file]? with
      | none,some d =>
        let got := s.getDEntry d
        some (got.1.setProcess n { p with currentDirectory := got.2 })
      | _,_ => some s
  | .leaveDirectory n =>
    match s.processes[n]? with
    | none => some s
    | some p =>
      match p.currentDirectory with
      | none => some s
      | some d => (s.setProcess n { p with currentDirectory := none }).putDEntry d

/-- The effect of several calls, each with what the volumes hold at its time. -/
def run : FileSystem → List (Disk × Op) → Option FileSystem
  | s,[] => some s
  | s,(disk,op) :: ops =>
    match s.apply disk op with
    | none => none
    | some s => run s ops

/-- The references to dentries from other dentries. -/
def parents : List ℕ := s.dentryCache.filterMap fun d => (s.dentries d).parent

/-- All references to dentries: from their children, from the processes and from the
file systems. -/
def holds : List ℕ := s.parents ++ (s.processes.flatMap Process.holds ++ s.roots)

/-- The number of holders of a dentry. -/
def holders (d : ℕ) : ℕ := s.holds.count d

/-- The references to inodes. -/
def inodeUses : List ℕ := s.dentryCache.map fun d => (s.dentries d).inode

end FileSystem

end WootOs.DentryCache
