import WootOs.Paging
import Mathlib.Data.List.Infix

/-!
# Loading of ELF images

ELF::Load reads the headers of a file, registers an image of it with the
process, maps memory for its segments and loads what its DT_NEEDED entries
name, unless the process already has an image of that name. An image goes by
the path it was opened by, or by its DT_SONAME where it has one.

Sections stand for what they hold in memory once the segments are read: the
entries of dynamic sections, the symbols, the relocations and the strings at
each offset of a string table. Of the memory itself the page tables are kept.
A load has no result where it does not return, and where it reads an image
that has been deleted.
-/

namespace WootOs.ElfLoader

open FrameAllocator Paging

/-- A program header. -/
structure Elf32Phdr where
  /-- Kind of segment. -/
  pType : ℕ
  /-- Where the segment starts in the file. -/
  pOffset : ℕ
  /-- Address that the segment wants. -/
  pVaddr : ℕ
  /-- Bytes in the file. -/
  pFilesz : ℕ
  /-- Bytes in memory. -/
  pMemsz : ℕ

/-- An entry of a dynamic section. -/
structure Elf32Dyn where
  /-- Kind of entry. -/
  dTag : ℤ
  /-- Offset into the string table. -/
  dVal : ℕ

/-- A symbol. -/
structure Elf32Sym where
  /-- Offset of the name; zero without one. -/
  stName : ℕ
  /-- Section of the symbol; zero when it is not defined here. -/
  stShndx : ℕ

/-- A relocation. -/
structure Elf32Rel where
  /-- Index of the symbol. -/
  rSym : ℕ
  /-- Kind of relocation. -/
  rType : ℕ

/-- A section header and what the section holds. -/
structure Elf32Shdr where
  /-- Kind of section. -/
  shType : ℕ
  /-- Address of the section. -/
  shAddr : ℕ
  /-- Index of the section that this one refers to. -/
  shLink : ℕ
  /-- The section as a dynamic table. -/
  dyntab : List Elf32Dyn
  /-- The section as a symbol table. -/
  symtab : List Elf32Sym
  /-- The section as a relocation table. -/
  reltab : List Elf32Rel
  /-- The section as a string table. -/
  strtab : ℕ → String

/-- A file with the fields of its ELF header. -/
structure ElfFile where
  /-- Bytes in the file. -/
  size : ℕ
  /-- The first four bytes. -/
  eIdent : List ℕ
  /-- Where the program headers start. -/
  ePhoff : ℕ
  /-- Where the section headers start. -/
  eShoff : ℕ
  /-- Bytes of a program header. -/
  ePhentsize : ℕ
  /-- Number of program headers. -/
  ePhnum : ℕ
  /-- Bytes of a section header. -/
  eShentsize : ℕ
  /-- Number of section headers. -/
  eShnum : ℕ
  /-- The program headers. -/
  phdr : ℕ → Elf32Phdr
  /-- The section headers. -/
  shdr : ℕ → Elf32Shdr

def ptLoad : ℕ := 1

def shtDynamic : ℕ := 6

def shtRel : ℕ := 9

def shtDynsym : ℕ := 11

def dtNeeded : ℤ := 1

def dtSoname : ℤ := 14

/-- Bytes of an ELF header. -/
def ehdrSize : ℕ := 52

/-- The directory of the shared objects. -/
def libDir : String := "WOOT_OS:/lib"

/-- The path of a shared object. -/
def libPath (soname : String) : String := libDir ++ "/" ++ soname

/-- The next multiple of the page size, in 32 bits. -/
def alignPage (a : ℕ) : ℕ := (a + (pageSize - 1)) % 2 ^ 32 / pageSize * pageSize

namespace ElfFile

variable (file : ElfFile)

/-- Whether a read of n bytes is served in full. -/
def reads (offset n : ℕ) : Bool := n = 0 || offset + n ≤ file.size

/-- Whether the ELF header, the program headers and the section headers can be read. -/
def headersRead : Bool :=
  file.reads 0 ehdrSize && file.eIdent == [127,69,76,70] &&
    file.reads file.ePhoff (file.ePhentsize * file.ePhnum) &&
    file.reads file.eShoff (file.eShentsize * file.eShnum)

/-- The segments to load. -/
def segments : List Elf32Phdr :=
  ((List.range file.ePhnum).map file.phdr).filter (·.pType = ptLoad)

/-- The sections of a kind. -/
def sections (shType : ℕ) : List Elf32Shdr :=
  ((List.range file.eShnum).map file.shdr).filter (·.shType = shType)

/-- The strings of the dynamic entries with a tag. -/
def tagged (tag : ℤ) : List String :=
  (file.sections shtDynamic).flatMap fun shdr =>
    (shdr.dyntab.filter (·.dTag = tag)).map fun dyn => (file.shdr shdr.shLink).strtab dyn.dVal

/-- The paths of the shared objects that are needed. -/
def needed : List String := (file.tagged dtNeeded).map libPath

/-- The name of an image opened by a path: each DT_SONAME replaces the one before. -/
def nameOf (filename : String) : String :=
  (file.tagged dtSoname).foldl (fun _ soname => soname) filename

/-- The lowest address of a segment, rounded down to a page. -/
def lowestVaddr : ℕ :=
  file.segments.foldl (fun low p => if p.pVaddr < low then p.pVaddr else low) (2 ^ 32 - 1)
    / pageSize * pageSize

/-- The highest end of a segment, rounded up to a page. -/
def highestVaddr : ℕ :=
  alignPage (file.segments.foldl (fun high p =>
    if high < (p.pVaddr + p.pMemsz) % 2 ^ 32 then (p.pVaddr + p.pMemsz) % 2 ^ 32 else high) 0)

/-- Whether the file defines a symbol. -/
def findSymbol (name : String) : Bool :=
  (file.sections shtDynsym).any fun shdr => shdr.shAddr ≠ 0 && shdr.symtab.any fun sym =>
    sym.stShndx ≠ 0 && sym.stName ≠ 0 && name = (file.shdr shdr.shLink).strtab sym.stName

/-- The relocations: whether a symbol is named, its name, and the kind. -/
def relocations : List (Bool × String × ℕ) :=
  (file.sections shtRel).flatMap fun shdr => shdr.reltab.map fun rel =>
    let symtab := file.shdr shdr.shLink
    let symbol := symtab.symtab.getD rel.rSym ⟨0,0⟩
    let name := (file.shdr symtab.shLink).strtab symbol.stName
    (rel.rSym ≠ 0 && name ≠ "",name,rel.rType)

end ElfFile

/-- The kinds of relocation that are known. -/
def relocates (rType : ℕ) : Bool := rType ∈ [0,1,2,5,6,7,8]

/-- An image in a process. -/
structure Image (F : Type) where
  /-- The file that was loaded. -/
  file : F
  /-- The name it is known by. -/
  name : String
  /-- First address. -/
  base : ℕ
  /-- End of the addresses. -/
  top : ℕ
  /-- How far the image was moved. -/
  baseDelta : ℕ
  /-- Whether its memory is that of a process. -/
  process : Bool
  /-- Whether it has been deleted. -/
  deleted : Bool

/-- The file system as ELF::Load sees it. -/
structure Files (F : Type) where
  /-- The file that a path leads to. -/
  lookup : String → Option F
  /-- What is in a file. -/
  content : F → ElfFile

variable {F : Type}

/-- The image of a file, under the path it was opened by. -/
def Files.image (fs : Files F) (f : F) (filename : String) : Image F where
  file := f
  name := filename
  base := (fs.content f).lowestVaddr
  top := (fs.content f).highestVaddr
  baseDelta := 0
  process := false
  deleted := false

/-- An image gets a place in the memory of a process. -/
def Image.placed (elf : Image F) (delta : ℕ) : Image F :=
  { elf with base := (elf.base + delta) % 2 ^ 32,top := (elf.top + delta) % 2 ^ 32
             baseDelta := delta,process := true }

/-- An image takes the name that its file gives it. -/
def Image.renamed (elf : Image F) (file : ElfFile) : Image F :=
  { elf with name := file.nameOf elf.name }

/-- File::Open and the reading of the headers. -/
def Files.elfAt (fs : Files F) (filename : String) : Option F :=
  (fs.lookup filename).filter fun f => (fs.content f).headersRead

/-- The parts of a process that are concerned. -/
structure Process (F : Type) where
  /-- The page directory. -/
  addressSpace : ℕ
  /-- Physical memory. -/
  frames : Frames
  /-- The images. -/
  images : List (Image F)

/-- Whether no page of a range is mapped; else how many bytes were checked. -/
def mappedAfter (f : Frames) (as start stop : ℕ) : Option ℕ :=
  ((List.range ((stop - start) / pageSize)).find? fun i =>
    f.getPhysicalAddress as (start + i * pageSize) ≠ noFrame).map fun i => (i + 1) * pageSize

/-- The search for a place, from a candidate on. -/
def findPlace (f : Frames) (as limit size : ℕ) : ℕ → ℕ → ℕ
  | 0,candidateStart => candidateStart
  | fuel + 1,candidateStart =>
    if candidateStart < limit then
      match mappedAfter f as candidateStart ((candidateStart + size) % 2 ^ 32) with
      | some checkedBytes => findPlace f as limit size fuel (candidateStart + checkedBytes)
      | none => candidateStart
    else candidateStart

/-- How far an image is moved: not at all where it fits, else to the first place. -/
def baseDelta (f : Frames) (as : ℕ) (user : Bool) (low high : ℕ) : ℕ :=
  if 2 ^ 20 ≤ low ∧ mappedAfter f as low high = none then 0
  else
    let start := if user then max (2 ^ 20) low else low
    let limit := if user then kernelBase else 0xFFFFE000
    (findPlace f as limit ((high + 2 ^ 32 - low) % 2 ^ 32) (2 ^ 20) start + 2 ^ 32 - low) % 2 ^ 32

/-- Map the pages of a segment, given by their addresses. -/
def mapPages (as : ℕ) (user : Bool) : List ℕ → Frames → Bool × Frames
  | [],f => (true,f)
  | va :: rest,f =>
    if user ∧ kernelBase ≤ va then (false,f)
    else if !user ∧ f.getPhysicalAddress as va ≠ noFrame then mapPages as user rest f
    else
      let r := allocFrame f.bitmap
      if r.1 = noFrame then (false,f)
      else
        let m := { f with bitmap := r.2 }.mapPage as va r.1 user true
        if m.1 then mapPages as user rest m.2 else (false,m.2)

/-- The addresses of the pages of a segment. -/
def segmentPages (delta : ℕ) (p : Elf32Phdr) : List ℕ :=
  let stop := alignPage ((p.pVaddr + p.pMemsz) % 2 ^ 32) / pageSize
  (List.range ((stop + 2 ^ 32 - p.pVaddr / pageSize) % 2 ^ 32)).map fun i =>
    (delta + p.pVaddr + i * pageSize) % 2 ^ 32

/-- Load the segments. -/
def loadSegments (file : ElfFile) (as : ℕ) (user : Bool) (delta : ℕ) :
    List Elf32Phdr → Frames → Bool × Frames
  | [],f => (true,f)
  | p :: rest,f =>
    let r := mapPages as user (segmentPages delta p) f
    if r.1 && file.reads p.pOffset p.pFilesz then loadSegments file as user delta rest r.2
    else (false,r.2)

namespace Process

variable (fs : Files F) (proc : Process F)

/-- Change one image. -/
def modifyImage (i : ℕ) (change : Image F → Image F) : Process F :=
  { proc with images := proc.images.modify i change }

/-- Process::AddELF. -/
def addELF (elf : Image F) : Process F := { proc with images := proc.images ++ [elf] }

/-- Whether Process::GetELF finds an image of a name. -/
def getELF (name : String) : List (Image F) → Option Bool
  | [] => some false
  | elf :: rest =>
    if elf.deleted then none
    else if elf.name = name then some true
    else getELF name rest

/-- Process::FindSymbol, which skips one image. -/
def findSymbol (name : String) (skip : ℕ) : List (Image F × ℕ) → Option Bool
  | [] => some false
  | (elf,i) :: rest =>
    if i = skip then findSymbol name skip rest
    else if elf.deleted then none
    else if (fs.content elf.file).findSymbol name then some true
    else findSymbol name skip rest

/-- The symbol of a relocation is looked for in the process of an image. -/
def findElsewhere (i : ℕ) (name : String) : Option Bool :=
  if proc.images[i]?.any (·.process) then findSymbol fs name i proc.images.zipIdx else none

/-- ELF::ApplyRelocations. -/
def applyRelocations (elf : ElfFile) (i : ℕ) : List (Bool × String × ℕ) → Option Bool
  | [] => some true
  | (named,name,rType) :: rest => do
    let found ← if named then proc.findElsewhere fs i name else some true
    if !found && !elf.findSymbol name then some false
    else if relocates rType then applyRelocations elf i rest
    else some false

/-- The pages of an image are unmapped and their frames freed. -/
def unmapImage (as : ℕ) (elf : Image F) (f : Frames) : Frames :=
  (List.range ((elf.top - elf.base) / pageSize)).foldl (fun f i =>
    let va := elf.base + i * pageSize
    let pa := f.getPhysicalAddress as va
    let f := (f.unMapPage as va).2
    if pa = noFrame then f else f.free pa) f

/-- An image is deleted; the process keeps its pointer to it. -/
def deleteELF (i : ℕ) : Process F :=
  let frames := match proc.images[i]? with
    | some elf => if elf.process then unmapImage proc.addressSpace elf proc.frames else proc.frames
    | none => proc.frames
  { proc.modifyImage i fun elf => { elf with deleted := true } with frames := frames }

/-- A file is registered under the path it was opened by. -/
def register (f : F) (filename : String) : Process F := proc.addELF (fs.image f filename)

/-- An image is placed, its segments are mapped and read. -/
def loadData (file : ElfFile) (i : ℕ) (user : Bool) : Bool × Process F :=
  let delta := baseDelta proc.frames proc.addressSpace user file.lowestVaddr file.highestVaddr
  let r := loadSegments file proc.addressSpace user delta file.segments proc.frames
  (r.1,{ proc.modifyImage i (·.placed delta) with frames := r.2 })

/-- An image takes its name from its file. -/
def rename (file : ElfFile) (i : ℕ) : Process F := proc.modifyImage i (·.renamed file)

/-- What is needed and not there yet is loaded; whether that succeeds is not looked at. -/
def loadNeeded (load : String → Process F → Option (Option ℕ × Process F)) :
    List String → Process F → Option (Process F)
  | [],proc => some proc
  | soname :: rest,proc => do
    if ← getELF soname proc.images then loadNeeded load rest proc
    else
      let r ← load soname proc
      loadNeeded load rest r.2

/-- The end of ELF::Load. -/
def relocate (file : ElfFile) (i : ℕ) (applyRelocs : Bool) : Option (Option ℕ × Process F) := do
  if applyRelocs then
    if ← proc.applyRelocations fs file i file.relocations then some (some i,proc)
    else some (none,proc.deleteELF i)
  else some (some i,proc)

end Process

/-- ELF::Load; a loaded image is given by its index. -/
def load (fs : Files F) (user onlyHeaders applyRelocs : Bool) :
    ℕ → String → Process F → Option (Option ℕ × Process F)
  | 0,_,_ => none
  | fuel + 1,filename,proc =>
    match fs.elfAt filename with
    | none => some (none,proc)
    | some f =>
      let file := fs.content f
      let i := proc.images.length
      let proc := proc.register fs f filename
      if onlyHeaders then proc.relocate fs file i applyRelocs
      else
        let r := proc.loadData file i user
        if !r.1 then some (none,r.2.deleteELF i)
        else if user then do
          let proc ← Process.loadNeeded (load fs user false applyRelocs fuel) file.needed
            (r.2.rename file i)
          proc.relocate fs file i applyRelocs
        else r.2.relocate fs file i applyRelocs

end WootOs.ElfLoader
