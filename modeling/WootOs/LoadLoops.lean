import WootOs.CountingLoops
import WootOs.Relocations

/-!
# The loops of loading

Loading a file looks for a place in memory, maps the pages of its segments, goes
through its dynamic sections for the name of the image and for what it needs, and goes
through its relocations, whose symbols are looked for in the tables of all images. The
numbers in the headers are whatever the file has. Memory, with the tables, is whatever
it is when it is read.

The search for a place and the loops over segments and pages always end. A table is
gone through by adding the size of its entries to an offset of 32 bits. This ends for
every content of the table exactly when the table leaves room for the greatest common
divisor of that size and 2 ^ 32 before the end of the offsets. A size of zero leaves no
room for an entry.
-/

namespace WootOs.LoadLoops

open ByteMemory CountingLoops FrameAllocator Paging
open ElfLoader (ptLoad shtDynamic shtRel shtDynsym dtSoname dtNeeded alignPage)
open Relocations (symbolAt stName stValue stSize r386None r38632 r386Pc32 r386Copy r386GlobDat
  r386JmpSlot r386Relative)

/-- A program header of a file. -/
structure Elf32Phdr where
  /-- Kind of segment. -/
  pType : Word
  /-- Where the segment starts in the file. -/
  pOffset : Word
  /-- Address that the segment wants. -/
  pVaddr : Word
  /-- Bytes in the file. -/
  pFilesz : Word
  /-- Bytes in memory. -/
  pMemsz : Word

/-- A section header of a file. -/
structure Elf32Shdr where
  /-- Kind of section. -/
  shType : Word
  /-- Address of the section. -/
  shAddr : Word
  /-- Bytes of the section. -/
  shSize : Word
  /-- Index of the section that this one refers to. -/
  shLink : Word
  /-- Bytes of an entry. -/
  shEntsize : Word

/-- The parts of class ELF that its loops read. -/
structure Elf where
  /-- Number of program headers. -/
  ePhnum : BitVec 16
  /-- The program headers. -/
  phdr : ℕ → Elf32Phdr
  /-- Number of section headers. -/
  eShnum : BitVec 16
  /-- ELF::getShdr. -/
  getShdr : ℕ → Elf32Shdr
  /-- How far the image has been moved. -/
  baseDelta : Word

/-- Counters and addresses have 32 bits. -/
def words : ℕ := 2 ^ 32

section Placement

variable (mapped : ℕ → Bool) (user : Bool)

/-- The lowest address of segments and the end of the highest one, with one more. -/
def Elf32Phdr.widen (p : Elf32Phdr) (b : ℕ × ℕ) : ℕ × ℕ :=
  if p.pType.toNat ≠ ptLoad then b
  else
    let stop := (p.pVaddr + p.pMemsz).toNat
    (if p.pVaddr.toNat<b.1 then p.pVaddr.toNat else b.1,if b.2<stop then stop else b.2)

/-- The lowest address of the segments and the end of the highest one. -/
def Elf.boundaries (e : Elf) (fuel : ℕ) : Option (Empty ⊕ ℕ × ℕ) :=
  countLoop words (fun i b => some (.inr ((e.phdr i).widen b))) e.ePhnum.toNat 1 fuel 0
    (words - 1,0)

/-- Whether pages are free, or else how many bytes were checked up to one that is mapped. -/
def checkPages (fuel start stop : ℕ) : Option (ℕ ⊕ ℕ) :=
  countLoop words (fun va checkedBytes =>
    some (if mapped va then .inl (checkedBytes + pageSize) else .inr (checkedBytes + pageSize)))
    stop pageSize fuel start 0

/-- The search for a place, from a candidate on. -/
def search (limit size fuel : ℕ) : ℕ → ℕ → Option ℕ
  | 0,_ => none
  | n + 1,candidateStart =>
    if candidateStart<limit then
      match checkPages mapped fuel candidateStart ((candidateStart + size) % words) with
      | none => none
      | some (.inl checkedBytes) => search limit size fuel n ((candidateStart + checkedBytes) % words)
      | some (.inr _) => some candidateStart
    else some candidateStart

/-- Whether an image can be where it wants. -/
def fits (fuel low high : ℕ) : Option Bool :=
  if 2 ^ 20 ≤ low then (checkPages mapped fuel low high).map Sum.isRight else some false

/-- How far an image is moved. -/
def Elf.place (e : Elf) (fuel : ℕ) : Option ℕ :=
  match e.boundaries fuel with
  | none => none
  | some (.inr (lowest,highest)) =>
    let low := lowest / pageSize * pageSize
    let high := alignPage highest
    match fits mapped fuel low high with
    | none => none
    | some true => some 0
    | some false =>
      let start := if user then max (2 ^ 20) low else low
      let limit := if user then kernelBase else 0xFFFFE000
      (search mapped limit ((high + words - low) % words) fuel fuel start).map
        fun candidateStart => (candidateStart + words - low) % words

end Placement

section Segments

variable (as : ℕ) (user : Bool) (seek read : Elf32Phdr → Bool)

/-- A page of a segment is mapped, unless it is there in the kernel; loading fails where that
fails. -/
def mapPageAt (va : ℕ) (f : Frames) : Frames ⊕ Frames :=
  if user ∧ kernelBase ≤ va then .inl f
  else if !user ∧ f.getPhysicalAddress as va ≠ noFrame then .inr f
  else
    let r := allocFrame f.bitmap
    if r.1 = noFrame then .inl f
    else
      let m := { f with bitmap := r.2 }.mapPage as va r.1 user true
      if m.1 then .inr m.2 else .inl m.2

/-- The number of pages of a segment. -/
def pageCount (p : Elf32Phdr) : ℕ :=
  (alignPage (p.pVaddr + p.pMemsz).toNat / pageSize + words - p.pVaddr.toNat / pageSize) % words

/-- The pages of a segment are mapped. -/
def Elf.loadPages (e : Elf) (p : Elf32Phdr) (fuel : ℕ) (f : Frames) : Option (Frames ⊕ Frames) :=
  countLoop words (fun i f =>
    some (mapPageAt as user (((e.baseDelta + p.pVaddr).toNat + i * pageSize) % words) f))
    (pageCount p) 1 fuel 0 f

/-- A segment is mapped and read. Where a seek or a read fails so does loading. -/
def Elf.loadSegment (e : Elf) (p : Elf32Phdr) (fuel : ℕ) (f : Frames) : Option (Frames ⊕ Frames) :=
  if p.pType.toNat ≠ ptLoad then some (.inr f)
  else if !seek p then some (.inl f)
  else
    match e.loadPages as user p fuel f with
    | none => none
    | some (.inl f) => some (.inl f)
    | some (.inr f) => some (if read p then .inr f else .inl f)

/-- The segments are mapped and read. -/
def Elf.loadSegments (e : Elf) (fuel : ℕ) (f : Frames) : Option (Frames ⊕ Frames) :=
  countLoop words (fun i => e.loadSegment as user seek read (e.phdr i) fuel) e.ePhnum.toNat 1 fuel
    0 f

end Segments

section Tables

variable {S R : Type*}

/-- A loop over the entries of a section, by their offsets. -/
def Elf32Shdr.entries (shdr : Elf32Shdr) (turn : Word → S → Option (R ⊕ S)) (fuel : ℕ) (s : S) :
    Option (R ⊕ S) :=
  countLoop words (fun coffs => turn (BitVec.ofNat 32 coffs)) shdr.shSize.toNat
    shdr.shEntsize.toNat fuel 0 s

/-- A loop over the sections and for some of them over their entries. -/
def Elf.tables (e : Elf) (walked : Elf32Shdr → Bool)
    (turn : Elf32Shdr → Word → S → Option (R ⊕ S)) (fuel : ℕ) (s : S) : Option (R ⊕ S) :=
  countLoop words (fun i s =>
    if walked (e.getShdr i) then (e.getShdr i).entries (turn (e.getShdr i)) fuel s
    else some (.inr s)) e.eShnum.toNat 1 fuel 0 s

/-- Where the section begins that another one refers to. -/
def Elf.linked (e : Elf) (shdr : Elf32Shdr) : Word :=
  (e.getShdr shdr.shLink.toNat).shAddr + e.baseDelta

/-- A turn of a loop over the entries of the dynamic sections with some tag. Something is done for
each of them, given the address of its name. -/
def Elf.entry (e : Elf) (tag : ℤ) (found : Word → Memory → Memory) (shdr : Elf32Shdr)
    (coffs : Word) (m : Memory) : Memory :=
  let dyn := shdr.shAddr + e.baseDelta + coffs
  if (read32 m dyn).toInt ≠ tag then m else found (e.linked shdr + read32 m (dyn + 4)) m

/-- Such a loop. -/
def Elf.dynamic (e : Elf) (tag : ℤ) (found : Word → Memory → Memory) (fuel : ℕ) (m : Memory) :
    Option (Empty ⊕ Memory) :=
  e.tables (fun shdr => shdr.shType.toNat = shtDynamic)
    (fun shdr coffs m => some (.inr (e.entry tag found shdr coffs m))) fuel m

/-- The loop for DT_SONAME, which gives the image a name. -/
def Elf.soname (e : Elf) (duplicate : Word → Memory → Memory) (fuel : ℕ) (m : Memory) :
    Option (Empty ⊕ Memory) := e.dynamic dtSoname duplicate fuel m

/-- The loop for DT_NEEDED, which loads what is not there. -/
def Elf.needed (e : Elf) (load : Word → Memory → Memory) (fuel : ℕ) (m : Memory) :
    Option (Empty ⊕ Memory) := e.dynamic dtNeeded load fuel m

/-- ELF::FindSymbol. -/
def Elf.findSymbol (e : Elf) (m : Memory) (name : Word) (fuel : ℕ) : Option (Word ⊕ Unit) :=
  e.tables (fun shdr => shdr.shType.toNat = shtDynsym ∧ shdr.shAddr ≠ 0) (fun shdr coffs _ =>
    match symbolAt m name (e.linked shdr) (shdr.shAddr + e.baseDelta + coffs) with
    | some sym => some (.inl sym)
    | none => some (.inr ())) fuel ()

/-- Process::FindSymbol, which skips one image: the symbol and how far its image was moved. -/
def findElsewhere (m : Memory) (name : Word) (skip fuel : ℕ) :
    List (Elf × ℕ) → Option (Option (Word × Word))
  | [] => some none
  | (e,i) :: rest =>
    if i = skip then findElsewhere m name skip fuel rest
    else
      match e.findSymbol m name fuel with
      | none => none
      | some (.inl sym) => some (some (sym,e.baseDelta))
      | some (.inr _) => findElsewhere m name skip fuel rest

/-- The symbol of a name, in the other images and then in this one. -/
def Elf.resolve (e : Elf) (images : List Elf) (skip : ℕ) (m : Memory) (name : Word) (fuel : ℕ) :
    Option (Option (Word × Word)) :=
  match findElsewhere m name skip fuel images.zipIdx with
  | none => none
  | some (some found) => some (some found)
  | some none =>
    (e.findSymbol m name fuel).map fun
      | .inl sym => some (sym,e.baseDelta)
      | .inr _ => none

/-- What a relocation stores at its place, if its kind is known. -/
def store (m : Memory) (rType val symAddr baseDelta : Word) (size : ℕ) : Option Memory :=
  if rType = r386None then some m
  else if rType = r38632 then some (write32 m val (read32 m val + symAddr))
  else if rType = r386Pc32 then some (write32 m val (read32 m val + (symAddr - val)))
  else if rType = r386Copy then some (move m val symAddr size)
  else if rType = r386GlobDat ∨ rType = r386JmpSlot then some (write32 m val symAddr)
  else if rType = r386Relative then some (write32 m val (read32 m val + baseDelta))
  else none

/-- The address of the symbol of a relocation, by its name if it has one. -/
def Elf.symAddr (e : Elf) (images : List Elf) (skip fuel : ℕ) (m : Memory)
    (symIdx symbol name : Word) : Option (Option Word) :=
  if symIdx ≠ 0 ∧ m name ≠ 0 then
    (e.resolve images skip m name fuel).map (Option.map fun found => stValue m found.1 + found.2)
  else some (some (stValue m symbol))

/-- One turn of the loop over relocations. It leaves the loop where a symbol is not found or a
kind is not known. -/
def Elf.relocate (e : Elf) (images : List Elf) (skip fuel : ℕ) (shdr : Elf32Shdr) (coffs : Word)
    (m : Memory) : Option (Memory ⊕ Memory) :=
  let rel := shdr.shAddr + e.baseDelta + coffs
  let symIdx := read32 m (rel + 4) >>> 8
  let symbol := e.linked shdr + 16 * symIdx
  let name := e.linked (e.getShdr shdr.shLink.toNat) + stName m symbol
  match e.symAddr images skip fuel m symIdx symbol name with
  | none => none
  | some none => some (.inl m)
  | some (some symAddr) =>
    match store m (read32 m (rel + 4) &&& 255) (read32 m rel + e.baseDelta) symAddr e.baseDelta
      (stSize m symbol) with
    | none => some (.inl m)
    | some m => some (.inr m)

/-- ELF::ApplyRelocations of an image of a process. -/
def Elf.applyRelocations (e : Elf) (images : List Elf) (skip fuel : ℕ) (m : Memory) :
    Option (Memory ⊕ Memory) :=
  e.tables (fun shdr => shdr.shType.toNat = shtRel) (e.relocate images skip fuel) fuel m

end Tables

/-- The sections whose entries are gone through: the dynamic ones, the relocations and the
symbols that have an address. -/
def Elf32Shdr.Walked (shdr : Elf32Shdr) : Prop :=
  shdr.shType.toNat = shtDynamic ∨ shdr.shType.toNat = shtRel ∨
    shdr.shType.toNat = shtDynsym ∧ shdr.shAddr ≠ 0

/-- The tables of an image leave room before the end of the offsets. -/
def Elf.Sized (e : Elf) : Prop := ∀ i<e.eShnum.toNat,(e.getShdr i).Walked →
  (e.getShdr i).shSize.toNat + (e.getShdr i).shEntsize.toNat.gcd (2 ^ 32) ≤ 2 ^ 32

/-- The loops of loading an image end, whatever is in memory and in its tables. -/
structure Elf.Ends (e : Elf) (images : List Elf) (skip : ℕ) : Prop where
  /-- The search for a place. -/
  place : ∀ (mapped : ℕ → Bool) (user : Bool),∃ fuel,(e.place mapped user fuel).isSome
  /-- The loop over the segments. -/
  segments : ∀ (as : ℕ) (user : Bool) (seek read : Elf32Phdr → Bool) (f : Frames),
    ∃ fuel,(e.loadSegments as user seek read fuel f).isSome
  /-- The loop for the name of the image. -/
  soname : ∀ (duplicate : Word → Memory → Memory) (m : Memory),
    ∃ fuel,(e.soname duplicate fuel m).isSome
  /-- The loop for what it needs. -/
  needed : ∀ (load : Word → Memory → Memory) (m : Memory),∃ fuel,(e.needed load fuel m).isSome
  /-- ELF::FindSymbol. -/
  findSymbol : ∀ (m : Memory) (name : Word),∃ fuel,(e.findSymbol m name fuel).isSome
  /-- ELF::ApplyRelocations. -/
  applyRelocations : ∀ m : Memory,∃ fuel,(e.applyRelocations images skip fuel m).isSome

section Places

/-- A multiple of the page size below the end of the addresses leaves room for a page. -/
theorem ends_pages {stop : ℕ} (h : pageSize ∣ stop) (lt : stop<words) :
    CountingLoops.Ends words stop pageSize := by
  obtain ⟨k,rfl⟩ := h
  have whole : pageSize.gcd words = pageSize := by decide
  rw [CountingLoops.Ends,whole]
  simp only [pageSize,words] at lt ⊢
  omega

/-- Counting one by one ends. -/
theorem ends_one {bound : ℕ} (lt : bound<words) : CountingLoops.Ends words bound 1 := by
  rw [CountingLoops.Ends,Nat.gcd_one_left]
  exact lt

variable {mapped : ℕ → Bool} {start stop : ℕ}

/-- The pages from a multiple of the page size to another are checked. -/
theorem checkPages_isSome (hs : pageSize ∣ start) (lt : start<words) (he : pageSize ∣ stop)
    (le : stop<words) : (checkPages mapped words start stop).isSome :=
  (ends_pages he le).returns (fun _ _ _ => rfl) (by
    have whole : pageSize.gcd words = pageSize := by decide
    rwa [whole]) lt 0

/-- Where one is mapped, whole pages were checked, not past the end. -/
theorem checkPages_left {fuel checkedBytes : ℕ} (hs : pageSize ∣ start) (he : pageSize ∣ stop)
    (le : stop<words) (h : checkPages mapped fuel start stop = some (.inl checkedBytes)) :
    pageSize ∣ checkedBytes ∧ 0<checkedBytes ∧ start + checkedBytes ≤ stop := by
  refine countLoop_left (P := fun va checked => va = start + checked ∧ pageSize ∣ checked)
    (Q := fun checked => pageSize ∣ checked ∧ 0<checked ∧ start + checked ≤ stop) ?_ ?_ fuel start 0
    checkedBytes ⟨rfl,dvd_zero _⟩ h
  · rintro va checked next ⟨rfl,hc⟩ below turned
    have : next = checked + pageSize := by
      split_ifs at turned with hm
      · simp at turned
      · simpa using turned.symm
    subst this
    refine ⟨?_,(Nat.dvd_add_right hc).mpr (dvd_refl _)⟩
    obtain ⟨a,rfl⟩ := hs
    obtain ⟨b,rfl⟩ := he
    obtain ⟨c,rfl⟩ := hc
    simp only [pageSize,words] at below le ⊢
    omega
  · rintro va checked next ⟨rfl,hc⟩ below turned
    have : next = checked + pageSize := by
      split_ifs at turned with hm
      · simpa using turned.symm
      · simp at turned
    subst this
    refine ⟨(Nat.dvd_add_right hc).mpr (dvd_refl _),by simp [pageSize],?_⟩
    obtain ⟨a,rfl⟩ := hs
    obtain ⟨b,rfl⟩ := he
    obtain ⟨c,rfl⟩ := hc
    simp only [pageSize,words] at below le ⊢
    omega

/-- The search ends: each candidate is above the one before. -/
theorem search_isSome {limit size : ℕ} (hsize : pageSize ∣ size) (n : ℕ) : ∀ candidate : ℕ,
    pageSize ∣ candidate → candidate<words → words - candidate<n * pageSize →
    (search mapped limit size words n candidate).isSome := by
  induction n with
  | zero =>
    intro candidate _ _ h
    omega
  | succ n ih =>
    intro candidate hc lt more
    rw [search]
    split_ifs with below
    · have stop : pageSize ∣ (candidate + size) % words :=
        (Nat.dvd_mod_iff (by decide)).mpr (Nat.dvd_add hc hsize)
      have stopLt : (candidate + size) % words<words := Nat.mod_lt _ (by decide)
      have checked : (checkPages mapped words candidate ((candidate + size) % words)).isSome :=
        checkPages_isSome hc lt stop stopLt
      cases run : checkPages mapped words candidate ((candidate + size) % words) with
      | none => simp [run] at checked
      | some x =>
        cases x with
        | inr _ => rfl
        | inl bytes =>
          obtain ⟨pages,positive,inside⟩ := checkPages_left hc stop stopLt run
          have place : (candidate + bytes) % words = candidate + bytes :=
            Nat.mod_eq_of_lt (by omega)
          simp only [place]
          have page : pageSize ≤ bytes := Nat.le_of_dvd positive pages
          rw [Nat.succ_mul] at more
          exact ih _ (Nat.dvd_add hc pages) (by omega) (by omega)
    · rfl

/-- A loop over the program headers that goes on after every turn that returns. -/
theorem headers_isSome {S R : Type*} (e : Elf) {turn : ℕ → S → Option (R ⊕ S)}
    (returns : ∀ i s,(turn i s).isSome) (s : S) :
    (countLoop words turn e.ePhnum.toNat 1 words 0 s).isSome := by
  have small := e.ePhnum.isLt
  refine (ends_one ?_).returns (fun i s _ => returns i s) (dvd_zero _) (by decide) s
  simp only [words]
  omega

/-- The addresses that the search for a place begins with are multiples of the page size. -/
theorem alignPage_dvd (a : ℕ) : pageSize ∣ alignPage a ∧ alignPage a<words := by
  refine ⟨Nat.dvd_mul_left _ _,?_⟩
  simp only [alignPage,pageSize,words]
  omega

/-- The lowest address of the segments has 32 bits. -/
theorem boundaries_lt {e : Elf} {fuel : ℕ} {b : ℕ × ℕ} (h : e.boundaries fuel = some (.inr b)) :
    b.1<words := by
  refine countLoop_right (P := fun b : ℕ × ℕ => b.1<words) ?_ fuel 0 (words - 1,0) b (by decide) h
  intro i b next hb turned
  obtain rfl : (e.phdr i).widen b = next := by simpa using turned
  rw [Elf32Phdr.widen]
  split_ifs
  · exact hb
  · exact (e.phdr i).pVaddr.isLt
  · exact hb

/-- A place is found. -/
theorem place_isSome (e : Elf) (user : Bool) : (e.place mapped user words).isSome := by
  have found : (e.boundaries words).isSome := headers_isSome e (fun _ _ => rfl) _
  rw [Elf.place]
  cases run : e.boundaries words with
  | none => simp [run] at found
  | some x =>
    obtain ⟨⟨⟩⟩ | ⟨lowest,highest⟩ := x
    have low : pageSize ∣ lowest / pageSize * pageSize := Nat.dvd_mul_left _ _
    have lowLt : lowest / pageSize * pageSize<words :=
      (Nat.div_mul_le_self _ _).trans_lt (boundaries_lt run)
    obtain ⟨high,highLt⟩ := alignPage_dvd highest
    have first : (fits mapped words (lowest / pageSize * pageSize) (alignPage highest)).isSome := by
      rw [fits]
      split_ifs
      · rw [Option.isSome_map]
        exact checkPages_isSome low lowLt high highLt
      · rfl
    have start : pageSize ∣ (if user then max (2 ^ 20) (lowest / pageSize * pageSize)
        else lowest / pageSize * pageSize) ∧ (if user then max (2 ^ 20)
        (lowest / pageSize * pageSize) else lowest / pageSize * pageSize)<words := by
      split_ifs
      · rcases max_choice (2 ^ 20) (lowest / pageSize * pageSize) with h | h
        · rw [h]
          exact ⟨by decide,by decide⟩
        · rw [h]
          exact ⟨low,lowLt⟩
      · exact ⟨low,lowLt⟩
    have size : pageSize ∣ (alignPage highest + words - lowest / pageSize * pageSize) % words :=
      (Nat.dvd_mod_iff (by decide)).mpr
        (Nat.dvd_sub (Nat.dvd_add high (by decide)) low)
    simp only
    cases ran : fits mapped words (lowest / pageSize * pageSize) (alignPage highest) with
    | none => simp [ran] at first
    | some here =>
      cases here with
      | true => rfl
      | false =>
        simp only [Option.isSome_map]
        refine search_isSome size words _ start.1 start.2 ?_
        simp only [words,pageSize]
        omega

end Places

section Loading

variable (e : Elf)

/-- The pages of a segment are mapped or not. -/
theorem loadPages_isSome (as : ℕ) (user : Bool) (p : Elf32Phdr) (f : Frames) :
    (e.loadPages as user p words f).isSome :=
  (ends_one (Nat.mod_lt _ (by decide))).returns (fun _ _ _ => rfl) (dvd_zero _) (by decide) f

/-- A segment is loaded or not. -/
theorem loadSegment_isSome (as : ℕ) (user : Bool) (seek read : Elf32Phdr → Bool) (p : Elf32Phdr)
    (f : Frames) : (e.loadSegment as user seek read p words f).isSome := by
  have pages := loadPages_isSome e as user p f
  rw [Elf.loadSegment]
  cases run : e.loadPages as user p words f with
  | none => simp [run] at pages
  | some x => rcases x with f | f <;> split_ifs <;> rfl

/-- The segments are loaded or not. -/
theorem loadSegments_isSome (as : ℕ) (user : Bool) (seek read : Elf32Phdr → Bool) (f : Frames) :
    (e.loadSegments as user seek read words f).isSome :=
  headers_isSome e (fun i f => loadSegment_isSome e as user seek read (e.phdr i) f) f

variable {S R : Type*} {walked : Elf32Shdr → Bool} {turn : Elf32Shdr → Word → S → Option (R ⊕ S)}

/-- Tables that leave room are gone through. -/
theorem tables_isSome (sized : ∀ i<e.eShnum.toNat,walked (e.getShdr i) →
    CountingLoops.Ends words (e.getShdr i).shSize.toNat (e.getShdr i).shEntsize.toNat)
    (returns : ∀ shdr coffs s,(turn shdr coffs s).isSome) (s : S) :
    (e.tables walked turn words s).isSome := by
  have small := e.eShnum.isLt
  refine (ends_one (by simp only [words]; omega)).returns (fun i s hi => ?_) (dvd_zero _)
    (by decide) s
  split_ifs with hw
  · exact (sized i hi hw).returns (fun coffs s _ => returns _ _ s) (dvd_zero _) (by decide) s
  · rfl

/-- A table that does not leave room is not, where no entry leaves the loop. -/
theorem tables_eq_none {P : S → Prop} (stays : ∀ shdr coffs s,P s →
    ∃ s',turn shdr coffs s = some (.inr s') ∧ P s') {i : ℕ} (hi : i<e.eShnum.toNat)
    (hw : walked (e.getShdr i)) (hn : ¬CountingLoops.Ends words (e.getShdr i).shSize.toNat
      (e.getShdr i).shEntsize.toNat) (fuel : ℕ) (s : S) (hs : P s) :
    e.tables walked turn fuel s = none := by
  have small := e.eShnum.isLt
  have entry (shdr : Elf32Shdr) (coffs : ℕ) (s : S) (hs : P s) :=
    stays shdr (BitVec.ofNat 32 coffs) s hs
  refine countLoop_none_at (P := P) hi (by simp only [words]; omega) (fun s hs => ?_)
    (fun j s hs => ?_) fuel 0 s hs (Nat.zero_le _)
  · rw [if_pos hw]
    exact countLoop_eq_none (entry _) hn (by decide) fuel 0 s hs (dvd_zero _) (by decide)
  · split_ifs with hj
    · exact countLoop_stays (entry _) fuel 0 s hs
    · exact .inr ⟨s,rfl,hs⟩

end Loading

section Scans

variable {e : Elf} {images : List Elf}

/-- A section that is gone through leaves room in an image whose tables do. -/
theorem Elf.Sized.ends (h : e.Sized) {i : ℕ} (hi : i<e.eShnum.toNat)
    (hw : (e.getShdr i).Walked) :
    CountingLoops.Ends words (e.getShdr i).shSize.toNat (e.getShdr i).shEntsize.toNat := h i hi hw

/-- The dynamic sections are gone through. -/
theorem dynamic_isSome (h : e.Sized) (tag : ℤ) (found : Word → Memory → Memory) (m : Memory) :
    (e.dynamic tag found words m).isSome :=
  tables_isSome e (fun i hi hw => h.ends hi (.inl (by simpa using hw))) (fun _ _ _ => rfl) m

/-- A symbol is found or not. -/
theorem findSymbol_isSome (h : e.Sized) (m : Memory) (name : Word) :
    (e.findSymbol m name words).isSome := by
  refine tables_isSome e (fun i hi hw => h.ends hi (.inr (.inr (by simpa using hw))))
    (fun shdr coffs _ => ?_) ()
  split <;> rfl

/-- It is found in the other images or not. -/
theorem findElsewhere_isSome (m : Memory) (name : Word) (skip : ℕ) {others : List (Elf × ℕ)}
    (h : ∀ p ∈ others,p.1.Sized) : (findElsewhere m name skip words others).isSome := by
  induction others with
  | nil => rfl
  | cons p rest ih =>
    obtain ⟨x,i⟩ := p
    have here := findSymbol_isSome (h (x,i) (by simp)) m name
    have later := ih fun q hq => h q (by simp [hq])
    rw [findElsewhere]
    split_ifs
    · exact later
    · cases run : x.findSymbol m name words with
      | none => simp [run] at here
      | some found =>
        cases found with
        | inl _ => rfl
        | inr _ => exact later

/-- It is found in any image or not. -/
theorem resolve_isSome (h : e.Sized) (others : ∀ x ∈ images,x.Sized) (skip : ℕ) (m : Memory)
    (name : Word) : (e.resolve images skip m name words).isSome := by
  have elsewhere : (findElsewhere m name skip words images.zipIdx).isSome :=
    findElsewhere_isSome m name skip fun p hp => others p.1 (List.fst_mem_of_mem_zipIdx hp)
  have here := findSymbol_isSome h m name
  rw [Elf.resolve]
  cases run : findElsewhere m name skip words images.zipIdx with
  | none => simp [run] at elsewhere
  | some found =>
    cases found with
    | some _ => rfl
    | none =>
      simp only [Option.isSome_map]
      exact here

/-- So is its address. -/
theorem symAddr_isSome (h : e.Sized) (others : ∀ x ∈ images,x.Sized) (skip : ℕ) (m : Memory)
    (symIdx symbol name : Word) : (e.symAddr images skip words m symIdx symbol name).isSome := by
  rw [Elf.symAddr]
  split_ifs
  · rw [Option.isSome_map]
    exact resolve_isSome h others skip m name
  · rfl

/-- The relocations are applied or not. -/
theorem applyRelocations_isSome (h : e.Sized) (others : ∀ x ∈ images,x.Sized) (skip : ℕ)
    (m : Memory) : (e.applyRelocations images skip words m).isSome := by
  refine tables_isSome e (fun i hi hw => h.ends hi (.inr (.inl (by simpa using hw))))
    (fun shdr coffs m => ?_) m
  have found := symAddr_isSome h others skip m
  rw [Elf.relocate]
  split
  · rename_i none
    have := found _ _ _ ▸ congrArg Option.isSome none
    simp at this
  · rfl
  · split <;> rfl

/-- Memory with nothing in it. -/
def empty : Memory := fun _ => 0

/-- Its words are zero. -/
theorem read32_empty (a : Word) : read32 empty a = 0 := by
  simp only [read32,empty]
  decide

/-- Where an image does not leave room, one of its loops does not end. -/
theorem sized_of_ends {skip : ℕ} (h : e.Ends images skip) : e.Sized := by
  intro i hi hw
  by_contra hn
  rcases hw with hd | hr | hs
  · obtain ⟨fuel,run⟩ := h.soname (fun _ m => m) empty
    have none : e.soname (fun _ m => m) fuel empty = none := by
      rw [Elf.soname,Elf.dynamic]
      exact tables_eq_none e (P := fun _ => True) (fun _ _ _ _ => ⟨_,rfl,trivial⟩) hi
        (by simpa using hd) hn fuel empty trivial
    rw [none] at run
    simp at run
  · obtain ⟨fuel,run⟩ := h.applyRelocations empty
    have none : e.applyRelocations images skip fuel empty = none := by
      refine tables_eq_none e (P := fun m => m = empty) (fun shdr coffs m hm => ?_) hi
        (by simpa using hr) hn fuel empty rfl
      subst hm
      refine ⟨empty,?_,rfl⟩
      simp [Elf.relocate,Elf.symAddr,store,read32_empty,r386None]
    rw [none] at run
    simp at run
  · obtain ⟨fuel,run⟩ := h.findSymbol empty 0
    have none : e.findSymbol empty 0 fuel = none := by
      refine tables_eq_none e (P := fun _ => True) (fun shdr coffs _ _ => ⟨(),?_,trivial⟩) hi
        (by simpa using hs) hn fuel () trivial
      have unused : symbolAt empty 0 (e.linked shdr) (shdr.shAddr + e.baseDelta + coffs) = none :=
        if_pos (.inl (by
          simp only [Relocations.stShndx,read16,empty]
          decide))
      rw [unused]
    rw [none] at run
    simp at run

end Scans

/-- An image with one dynamic section, whose entries have no size. -/
def unsizedElf : Elf := ⟨0,fun _ => ⟨0,0,0,0,0⟩,1,fun _ => ⟨6,0x1000,8,0,0⟩,0⟩

end WootOs.LoadLoops
