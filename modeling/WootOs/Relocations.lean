import WootOs.ByteMemory
import WootOs.ElfLoader

/-!
# The values that relocations store

ELF::ApplyRelocations goes through the relocations of an image and changes the words
that they name, after looking for the symbol of each by its name in the other images of
the process and then in its own. The tables are read from the memory that the
relocations change, so the model reads each entry when its turn comes. It is compared
with the table of values that the ABI gives for the processor, where the address of a
symbol is its value and the distance that the image defining it has been moved.
-/

namespace WootOs.Relocations

open ByteMemory
open ElfLoader (shtRel shtDynsym)

/-- A section header. A table of relocations or of symbols has entries of some size. -/
structure Elf32Shdr where
  /-- Kind of section. -/
  shType : ℕ
  /-- Address of the section before the image is moved. -/
  shAddr : Word
  /-- Bytes of the section. -/
  shSize : ℕ
  /-- Index of the section that this one refers to. -/
  shLink : ℕ
  /-- Bytes of an entry. -/
  shEntsize : ℕ
  /-- The entries of a table have a size, and the table does not go around. -/
  sized : shType = shtRel ∨ shType = shtDynsym → 0<shEntsize ∧ shSize + shEntsize ≤ 2 ^ 32

/-- The parts of class ELF that relocation reads. -/
structure Elf where
  /-- Number of section headers. -/
  eShnum : ℕ
  /-- ELF::getShdr. -/
  getShdr : ℕ → Elf32Shdr
  /-- How far the image has been moved. -/
  baseDelta : Word

/-- The values of coffs in a loop over a table. -/
def Elf32Shdr.offsets (shdr : Elf32Shdr) : List Word :=
  (List.range ((shdr.shSize + shdr.shEntsize - 1) / shdr.shEntsize)).map fun k =>
    BitVec.ofNat 32 (k * shdr.shEntsize)

/-- The kinds of relocation that are known: R_386_NONE. -/
def r386None : Word := 0
/-- R_386_32. -/
def r38632 : Word := 1
/-- R_386_PC32. -/
def r386Pc32 : Word := 2
/-- R_386_COPY. -/
def r386Copy : Word := 5
/-- R_386_GLOB_DAT. -/
def r386GlobDat : Word := 6
/-- R_386_JMP_SLOT. -/
def r386JmpSlot : Word := 7
/-- R_386_RELATIVE. -/
def r386Relative : Word := 8

section Tables

variable (m : Memory)

/-- Offset of the name of a symbol. -/
def stName (sym : Word) : Word := read32 m sym

/-- Value of a symbol. -/
def stValue (sym : Word) : Word := read32 m (sym + 4)

/-- Bytes of a symbol. -/
def stSize (sym : Word) : ℕ := (read32 m (sym + 8)).toNat

/-- Section of a symbol; zero when it is not defined here. -/
def stShndx (sym : Word) : BitVec 16 := read16 m (sym + 14)

/-- String::Compare finds no difference; the number bounds the bytes that there are. -/
def sameFrom : ℕ → Word → Word → Bool
  | 0,_,_ => false
  | n + 1,a,b =>
    if m a ≠ m b then false
    else if m a = 0 then true
    else sameFrom n (a + 1) (b + 1)

/-- Whether String::Compare finds two strings equal. -/
def sameString (a b : Word) : Bool := sameFrom m (2 ^ 32) a b

/-- The entry of a symbol table, if it defines a name. -/
def symbolAt (name strtab sym : Word) : Option Word :=
  if stShndx m sym = 0 ∨ stName m sym = 0 then none
  else if sameString m name (strtab + stName m sym) then some sym
  else none

/-- ELF::FindSymbol, which gives the address of the symbol. -/
def Elf.findSymbol (e : Elf) (name : Word) : Option Word :=
  (List.range e.eShnum).findSome? fun i =>
    let shdr := e.getShdr i
    if shdr.shType ≠ shtDynsym then none
    else if shdr.shAddr = 0 then none
    else
      let strtab := (e.getShdr shdr.shLink).shAddr + e.baseDelta
      let symtab := shdr.shAddr + e.baseDelta
      shdr.offsets.findSome? fun coffs => symbolAt m name strtab (symtab + coffs)

/-- Process::FindSymbol, which skips one image. -/
def findSymbol (images : List Elf) (name : Word) (skip : ℕ) : Option (Word × Elf) :=
  images.zipIdx.findSome? fun (e,i) =>
    if i = skip then none else (e.findSymbol m name).map fun sym => (sym,e)

end Tables

/-- A relocation of an image, and where its tables are. -/
structure Site where
  /-- The image. -/
  elf : Elf
  /-- Which image of the process it is. -/
  skip : ℕ
  /-- Address of the relocation. -/
  rel : Word
  /-- Address of the symbol table. -/
  symtab : Word
  /-- Address of the names. -/
  strtab : Word

namespace Site

variable (s : Site) (m : Memory)

/-- The word to relocate. -/
def val : Word := read32 m s.rel + s.elf.baseDelta

/-- ELF32_R_SYM. -/
def symIdx : Word := read32 m (s.rel + 4) >>> 8

/-- ELF32_R_TYPE. -/
def rType : Word := read32 m (s.rel + 4) &&& 255

/-- The symbol that is referred to. -/
def symbol : Word := s.symtab + 16 * s.symIdx m

/-- The name of the symbol. -/
def name : Word := s.strtab + stName m (s.symbol m)

/-- Whether a symbol is referred to that has a name. -/
def Named : Prop := s.symIdx m ≠ 0 ∧ m (s.name m) ≠ 0

instance : Decidable (s.Named m) := inferInstanceAs (Decidable (_ ∧ _))

end Site

/-- The relocations of an image in the order of the loops over its sections. -/
def Elf.sites (e : Elf) (i : ℕ) : List Site :=
  (List.range e.eShnum).flatMap fun j =>
    let shdr := e.getShdr j
    let symtab := e.getShdr shdr.shLink
    if shdr.shType ≠ shtRel then []
    else shdr.offsets.map fun coffs =>
      ⟨e,i,shdr.shAddr + e.baseDelta + coffs,symtab.shAddr + e.baseDelta,
        (e.getShdr symtab.shLink).shAddr + e.baseDelta⟩

section Code

variable (images : List Elf)

/-- The address of the symbol as ELF::ApplyRelocations finds it. -/
def symAddr (s : Site) (m : Memory) : Option Word :=
  if s.Named m then
    match findSymbol m images (s.name m) s.skip with
    | some (fSymbol,fElf) => some (stValue m fSymbol + fElf.baseDelta)
    | none =>
      match s.elf.findSymbol m (s.name m) with
      | some fSymbol => some (stValue m fSymbol + s.elf.baseDelta)
      | none => none
  else some (stValue m (s.symbol m))

/-- One turn of the loop of ELF::ApplyRelocations; nothing when it returns false. -/
def relocate (s : Site) (m : Memory) : Option Memory :=
  match symAddr images s m with
  | none => none
  | some symAddr =>
    let val := s.val m
    let rType := s.rType m
    if rType = r386None then some m
    else if rType = r38632 then some (write32 m val (read32 m val + symAddr))
    else if rType = r386Pc32 then some (write32 m val (read32 m val + (symAddr - val)))
    else if rType = r386Copy then some (move m val symAddr (stSize m (s.symbol m)))
    else if rType = r386GlobDat ∨ rType = r386JmpSlot then some (write32 m val symAddr)
    else if rType = r386Relative then some (write32 m val (read32 m val + s.elf.baseDelta))
    else none

/-- Turns of a loop until one of them gives up, and the memory then. -/
def loop (turn : Site → Memory → Option Memory) : List Site → Memory → Bool × Memory
  | [],m => (true,m)
  | s :: rest,m =>
    match turn s m with
    | none => (false,m)
    | some m' => loop turn rest m'

/-- ELF::ApplyRelocations. -/
def Elf.applyRelocations (e : Elf) (i : ℕ) (m : Memory) : Bool × Memory :=
  loop (relocate images) (e.sites i) m

/-- Process::ApplyRelocations, from an image on. -/
def applyFrom : List (Elf × ℕ) → Memory → Bool × Memory
  | [],m => (true,m)
  | (e,i) :: rest,m =>
    match e.applyRelocations images i m with
    | (true,m') => applyFrom rest m'
    | (false,m') => (false,m')

/-- The two functions. -/
inductive Call where
  /-- ELF::ApplyRelocations of an image. -/
  | elf (e : Elf) (i : ℕ)
  /-- Process::ApplyRelocations. -/
  | process

/-- What a call returns and the memory after it. -/
def Call.run (m : Memory) : Call → Bool × Memory
  | elf e i => e.applyRelocations images i m
  | process => applyFrom images images.zipIdx m

/-- The relocations that a call goes through. -/
def Call.sites : Call → List Site
  | elf e i => e.sites i
  | process => images.zipIdx.flatMap fun (e,i) => e.sites i

end Code

/-- Two strings in memory are the same, up to and with the zero at their end. -/
def SameString (m : Memory) (a b : Word) : Prop :=
  ∃ n<2 ^ 32, (∀ k<n, m (a + BitVec.ofNat 32 k) = m (b + BitVec.ofNat 32 k) ∧
    m (a + BitVec.ofNat 32 k) ≠ 0) ∧ m (a + BitVec.ofNat 32 n) = 0 ∧ m (b + BitVec.ofNat 32 n) = 0

/-- An image defines a name by an entry of one of its tables of dynamic symbols. -/
def Defines (m : Memory) (e : Elf) (name sym : Word) : Prop :=
  ∃ j<e.eShnum, (e.getShdr j).shType = shtDynsym ∧ (e.getShdr j).shAddr ≠ 0 ∧
    ∃ coffs ∈ (e.getShdr j).offsets, sym = (e.getShdr j).shAddr + e.baseDelta + coffs ∧
      stShndx m sym ≠ 0 ∧ stName m sym ≠ 0 ∧
      SameString m name
        ((e.getShdr (e.getShdr j).shLink).shAddr + e.baseDelta + stName m sym)

section Meaning

variable (images : List Elf)

/-- The images in which a symbol is looked for: the others, then the one relocated. -/
def places (s : Site) : List Elf :=
  (images.zipIdx.filter fun p => p.2 ≠ s.skip).map Prod.fst ++ [s.elf]

/-- The symbol found by the name of a relocation, and the image defining it. -/
def found (s : Site) (m : Memory) : Option (Word × Elf) :=
  (places images s).findSome? fun e => (e.findSymbol m (s.name m)).map fun sym => (sym,e)

/-- The address of the symbol at run time: its value and how far the image defining it has
been moved. A symbol without a name is that of the image itself. -/
def runTime (s : Site) (m : Memory) : Option Word :=
  if s.Named m then (found images s m).map fun (sym,e) => stValue m sym + e.baseDelta
  else some (stValue m (s.symbol m) + s.elf.baseDelta)

/-- What a relocation stores. -/
inductive Effect where
  /-- Nothing. -/
  | nothing
  /-- A word. -/
  | word (value : Word)
  /-- Bytes from an address. -/
  | bytes (source : Word) (n : ℕ)

/-- The memory after something has been stored at an address. -/
def Effect.store (m : Memory) (p : Word) : Effect → Memory
  | nothing => m
  | word value => write32 m p value
  | bytes source n => move m p source n

/-- A word that is stored is read back, and the bytes beside it stay. -/
theorem Effect.store_word (m : Memory) (p value : Word) :
    read32 ((word value).store m p) p = value ∧
      ∀ x, ¬InRange p 4 x → (word value).store m p x = m x :=
  ⟨read32_write32 m p value,fun x h => write32_frame m p value x h⟩

/-- Bytes that are stored are those of the source, and the others stay, when neither range
goes around the end of the addresses. -/
theorem Effect.store_bytes (m : Memory) (p source : Word) (n : ℕ) (hp : p.toNat + n ≤ 2 ^ 32)
    (hs : source.toNat + n ≤ 2 ^ 32) : (bytes source n).store m p = copied m p source n :=
  move_eq m p source n hp hs

/-- The table of the ABI: the effect of each kind of relocation from the address of the
symbol, the word that was there, the place and the distance moved. -/
def psAbi (rType S A P B : Word) (size : ℕ) : Option Effect :=
  if rType = r386None then some .nothing
  else if rType = r38632 then some (.word (S + A))
  else if rType = r386Pc32 then some (.word (S + A - P))
  else if rType = r386Copy then some (.bytes S size)
  else if rType = r386GlobDat ∨ rType = r386JmpSlot then some (.word S)
  else if rType = r386Relative then some (.word (B + A))
  else none

/-- A relocation by that table. -/
def relocateByAbi (s : Site) (m : Memory) : Option Memory :=
  (runTime images s m).bind fun S =>
    (psAbi (s.rType m) S (read32 m (s.val m)) (s.val m) s.elf.baseDelta
      (stSize m (s.symbol m))).map (Effect.store m (s.val m))

/-- A relocation has a named symbol that no image defines. -/
def Undefined (s : Site) (m : Memory) : Prop :=
  s.Named m ∧ ∀ e ∈ places images s, ∀ sym, ¬Defines m e (s.name m) sym

/-- The kinds of relocation that are supported. -/
def Supported (rType : Word) : Prop :=
  rType ∈ [r386None,r38632,r386Pc32,r386Copy,r386GlobDat,r386JmpSlot,r386Relative]

/-- The turn of a relocation comes, with some memory. -/
def Reached (call : Call) (m : Memory) (s : Site) (now : Memory) : Prop :=
  ∃ before after, call.sites images = before ++ s :: after ∧
    loop (relocate images) before m = (true,now)

/-- A call stores for every relocation what the table says and nothing else, and returns
false exactly when a named symbol is undefined or a kind is not supported. -/
structure Relocates (call : Call) (m : Memory) : Prop where
  /-- At the turn of each relocation. -/
  stores : ∀ s now, Reached images call m s now →
    relocate images s now = relocateByAbi images s now
  /-- Over the whole call. -/
  run : call.run images m = loop (relocateByAbi images) (call.sites images) m
  /-- The value that is returned. -/
  refuses : (call.run images m).1 = false ↔
    ∃ s now, Reached images call m s now ∧ (Undefined images s now ∨ ¬Supported (s.rType now))

/-- The kinds of relocation that use the address of the symbol. -/
def UsesSymbol (rType : Word) : Prop :=
  rType ∈ [r38632,r386Pc32,r386Copy,r386GlobDat,r386JmpSlot]

/-- A relocation does not need the distance that is left out where a symbol has no name: it
has a name, the image has not been moved, the kind does not use the symbol, or it is
R_386_COPY and moving the bytes from the value of the symbol leaves the same memory. -/
def NeedsNoDelta (s : Site) (m : Memory) : Prop :=
  s.Named m ∨ s.elf.baseDelta = 0 ∨ ¬UsesSymbol (s.rType m) ∨
    s.rType m = r386Copy ∧
      move m (s.val m) (stValue m (s.symbol m)) (stSize m (s.symbol m)) =
        move m (s.val m) (stValue m (s.symbol m) + s.elf.baseDelta) (stSize m (s.symbol m))

end Meaning

/-- String::Compare finds strings equal that are the same within the bytes looked at. -/
theorem sameFrom_iff (m : Memory) (n : ℕ) (a b : Word) :
    sameFrom m n a b = true ↔
      ∃ k<n, (∀ i<k, m (a + BitVec.ofNat 32 i) = m (b + BitVec.ofNat 32 i) ∧
        m (a + BitVec.ofNat 32 i) ≠ 0) ∧
        m (a + BitVec.ofNat 32 k) = 0 ∧ m (b + BitVec.ofNat 32 k) = 0 := by
  induction n generalizing a b with
  | zero => simp [sameFrom]
  | succ n ih =>
    have next (c : Word) (i : ℕ) : c + 1 + BitVec.ofNat 32 i = c + BitVec.ofNat 32 (i + 1) := by
      rw [BitVec.ofNat_add,BitVec.add_assoc,BitVec.add_comm 1]
      rfl
    have zero (c : Word) : c + BitVec.ofNat 32 0 = c := BitVec.add_zero c
    rw [sameFrom]
    split_ifs with hd hz
    · refine ⟨fun h => by simp at h,fun ⟨k,_,same,ea,eb⟩ => absurd ?_ hd⟩
      cases k with
      | zero => rw [zero] at ea eb; rw [ea,eb]
      | succ k => simpa only [zero] using (same 0 (Nat.succ_pos k)).1
    · refine ⟨fun _ => ⟨0,Nat.succ_pos n,by simp,?_,?_⟩,fun _ => rfl⟩
      · rw [zero,hz]
      · rw [zero,← not_not.mp hd,hz]
    · rw [ih]
      constructor
      · rintro ⟨k,hk,same,ea,eb⟩
        refine ⟨k + 1,by omega,fun i hi => ?_,by rw [← next,ea],by rw [← next,eb]⟩
        cases i with
        | zero => simpa only [zero] using ⟨not_not.mp hd,hz⟩
        | succ i => simpa only [next] using same i (by omega)
      · rintro ⟨k,hk,same,ea,eb⟩
        cases k with
        | zero => exact absurd (by simpa only [zero] using ea) hz
        | succ k =>
          refine ⟨k,by omega,fun i hi => ?_,by rw [next,ea],by rw [next,eb]⟩
          simpa only [next] using same (i + 1) (by omega)

/-- The strings that String::Compare finds equal. -/
theorem sameString_iff (m : Memory) (a b : Word) : sameString m a b = true ↔ SameString m a b :=
  sameFrom_iff m (2 ^ 32) a b

/-- The entry of a table defines a name, or it is passed over. -/
theorem symbolAt_eq_some {m : Memory} {name strtab sym f : Word} :
    symbolAt m name strtab sym = some f ↔ f = sym ∧ stShndx m sym ≠ 0 ∧ stName m sym ≠ 0 ∧
      SameString m name (strtab + stName m sym) := by
  rw [← sameString_iff,symbolAt]
  by_cases h : stShndx m sym = 0 ∨ stName m sym = 0
  · simp only [h,if_true,reduceCtorEq,false_iff]
    tauto
  · by_cases same : sameString m name (strtab + stName m sym) = true
    · simp only [h,same,if_false,if_true,Option.some.injEq]
      tauto
    · simp only [h,same,if_false,reduceCtorEq,false_iff]
      tauto

/-- ELF::FindSymbol finds nothing exactly when the image does not define the name. -/
theorem Elf.findSymbol_eq_none {m : Memory} {e : Elf} {name : Word} :
    e.findSymbol m name = none ↔ ∀ sym, ¬Defines m e name sym := by
  have entry (strtab sym : Word) : symbolAt m name strtab sym = none ↔
      ¬(stShndx m sym ≠ 0 ∧ stName m sym ≠ 0 ∧
        SameString m name (strtab + stName m sym)) := by
    rw [Option.eq_none_iff_forall_ne_some]
    simp only [ne_eq,symbolAt_eq_some]
    exact ⟨fun h d => h sym ⟨rfl,d⟩,fun h f d => h d.2⟩
  simp only [Elf.findSymbol,List.findSome?_eq_none_iff,List.mem_range,Defines]
  constructor
  · rintro h sym ⟨j,hj,kind,addr,coffs,hc,rfl,d⟩
    have := h j hj
    simp only [kind,ne_eq,not_true_eq_false,if_false,addr,List.findSome?_eq_none_iff] at this
    exact (entry _ _).mp (this coffs hc) d
  · intro h j hj
    split_ifs with kind addr
    · rfl
    · rfl
    · simp only [List.findSome?_eq_none_iff]
      intro coffs hc
      rw [entry]
      exact fun d => h _ ⟨j,hj,not_not.mp kind,addr,coffs,hc,rfl,d⟩

section Steps

variable {images : List Elf} {s : Site} {m : Memory}

/-- Looking in the other images and then in the image itself finds the symbol by name. -/
theorem symAddr_of_named (h : s.Named m) : symAddr images s m = runTime images s m := by
  have others : findSymbol m images (s.name m) s.skip =
      ((images.zipIdx.filter fun p => p.2 ≠ s.skip).map Prod.fst).findSome? fun e =>
        (e.findSymbol m (s.name m)).map fun sym => (sym,e) := by
    rw [findSymbol,List.findSome?_map]
    generalize images.zipIdx = l
    induction l with
    | nil => rfl
    | cons p l ih =>
      by_cases hp : p.2 = s.skip
      · simpa [hp] using ih
      · rw [List.filter_cons_of_pos (by simpa using hp),List.findSome?_cons,
          List.findSome?_cons,ih]
        simp only [hp,if_false,Function.comp]
  simp only [symAddr,runTime,h,if_true,found,places,List.findSome?_append,← others]
  cases findSymbol m images (s.name m) s.skip with
  | some f => rfl
  | none => cases own : s.elf.findSymbol m (s.name m) <;> simp [own]

/-- There is no address exactly when a named symbol is undefined. -/
theorem runTime_eq_none : runTime images s m = none ↔ Undefined images s m := by
  simp only [runTime,Undefined]
  split_ifs with h
  · simp [found,List.findSome?_eq_none_iff,Elf.findSymbol_eq_none,h]
  · simp [h]

/-- Without a name the code takes the value of the symbol, and the table what it is moved
to. -/
theorem of_not_named (h : ¬s.Named m) :
    symAddr images s m = some (stValue m (s.symbol m)) ∧
      runTime images s m = some (stValue m (s.symbol m) + s.elf.baseDelta) := by
  simp [symAddr,runTime,h]

/-- The address that the code uses is nothing exactly when a named symbol is undefined. -/
theorem symAddr_eq_none : symAddr images s m = none ↔ Undefined images s m := by
  by_cases h : s.Named m
  · rw [symAddr_of_named h,runTime_eq_none]
  · simp [(@of_not_named images s m h).1,Undefined,h]

/-- From the address that it uses the code stores what the table says. -/
theorem relocate_eq : relocate images s m =
    (symAddr images s m).bind fun S =>
      (psAbi (s.rType m) S (read32 m (s.val m)) (s.val m) s.elf.baseDelta
        (stSize m (s.symbol m))).map (Effect.store m (s.val m)) := by
  rw [relocate]
  cases symAddr images s m with
  | none => rfl
  | some S =>
    have sum (a b : Word) : a + b = b + a := BitVec.add_comm a b
    have distance (a b c : Word) : a + (b - c) = b + a - c := by bv_omega
    simp only [psAbi,Option.bind_some]
    split_ifs <;> simp only [Option.map_some,Option.map_none,Effect.store,Option.some.injEq]
    · rw [sum]
    · rw [distance]
    · rw [sum]

/-- Two addresses of a symbol have the same effect only where they are equal, the kind does
not use the symbol, or the bytes that are moved leave the same memory. -/
theorem psAbi_eq_iff (t S S' A P B : Word) (n : ℕ) :
    (psAbi t S A P B n).map (Effect.store m P) = (psAbi t S' A P B n).map (Effect.store m P) ↔
      S = S' ∨ ¬UsesSymbol t ∨ t = r386Copy ∧ move m P S n = move m P S' n := by
  simp only [psAbi,UsesSymbol]
  split_ifs with h₀ h₁ h₂ h₃ h₄ h₅
  · subst h₀
    simp [r386None,r38632,r386Pc32,r386Copy,r386GlobDat,r386JmpSlot]
  · subst h₁
    simp [Effect.store,write32_inj,r38632,r386Copy]
  · subst h₂
    have : S + A - P = S' + A - P ↔ S = S' := by constructor <;> intro h <;> bv_omega
    simp [Effect.store,write32_inj,r386Pc32,r386Copy,this]
  · subst h₃
    have : S = S' → move m P S n = move m P S' n := fun h => by rw [h]
    simp [Effect.store]
    tauto
  · obtain rfl | rfl := h₄ <;> simp [Effect.store,write32_inj,r386GlobDat,r386JmpSlot,r386Copy]
  · subst h₅
    simp [Effect.store,r386Relative,r38632,r386Pc32,r386Copy,r386GlobDat,r386JmpSlot]
  · simp only [true_iff,List.mem_cons,not_or]
    tauto

/-- A turn of the loop stores what the table says exactly when the distance that is left out
is not needed. -/
theorem relocate_eq_byAbi_iff :
    relocate images s m = relocateByAbi images s m ↔ NeedsNoDelta s m := by
  rw [relocate_eq,relocateByAbi]
  by_cases h : s.Named m
  · simp [symAddr_of_named h,NeedsNoDelta,h]
  · have same : stValue m (s.symbol m) = stValue m (s.symbol m) + s.elf.baseDelta ↔
        s.elf.baseDelta = 0 := by constructor <;> intro e <;> bv_omega
    rw [(of_not_named h).1,(of_not_named h).2,Option.bind_some,Option.bind_some,psAbi_eq_iff,
      same]
    simp only [NeedsNoDelta,h,false_or]

/-- A turn of the loop gives up exactly when a named symbol is undefined or the kind is not
supported. -/
theorem relocate_eq_none :
    relocate images s m = none ↔ Undefined images s m ∨ ¬Supported (s.rType m) := by
  have kind (S A P B : Word) (n : ℕ) : psAbi (s.rType m) S A P B n = none ↔
      ¬Supported (s.rType m) := by
    simp only [psAbi,Supported,List.mem_cons,List.not_mem_nil,or_false]
    split_ifs <;> simp only [false_iff,true_iff] <;> tauto
  rw [relocate_eq,← symAddr_eq_none]
  cases symAddr images s m with
  | none => simp
  | some S => simp [kind]

end Steps

section Runs

variable {images : List Elf}

/-- A loop over two lists does the second where the first comes to its end. -/
theorem loop_append (turn : Site → Memory → Option Memory) (xs ys : List Site) (m : Memory) :
    loop turn (xs ++ ys) m =
      if (loop turn xs m).1 then loop turn ys (loop turn xs m).2 else loop turn xs m := by
  induction xs generalizing m with
  | nil => rfl
  | cons s xs ih =>
    cases step : turn s m with
    | none => simp [loop,step]
    | some m' => simpa only [List.cons_append,loop,step] using ih m'

/-- Two loops whose turns agree wherever the first one comes agree. -/
theorem loop_congr {turn turn' : Site → Memory → Option Memory} {work : List Site} {m : Memory}
    (h : ∀ before s after now, work = before ++ s :: after → loop turn before m = (true,now) →
      turn s now = turn' s now) : loop turn work m = loop turn' work m := by
  induction work generalizing m with
  | nil => rfl
  | cons s rest ih =>
    have first : turn s m = turn' s m := h [] s rest m rfl rfl
    rw [loop,loop,← first]
    cases step : turn s m with
    | none => rfl
    | some m' =>
      refine ih fun before t after now e run => h (s :: before) t after now (by rw [e]; rfl) ?_
      simpa only [loop,step] using run

/-- A loop is left early exactly when some turn that comes gives up. -/
theorem loop_false_iff {turn : Site → Memory → Option Memory} {work : List Site} {m : Memory} :
    (loop turn work m).1 = false ↔ ∃ before s after now, work = before ++ s :: after ∧
      loop turn before m = (true,now) ∧ turn s now = none := by
  induction work generalizing m with
  | nil => simp [loop]
  | cons s rest ih =>
    rw [loop]
    cases step : turn s m with
    | none => exact ⟨fun _ => ⟨[],s,rest,m,rfl,rfl,step⟩,fun _ => rfl⟩
    | some m' =>
      rw [ih]
      constructor
      · rintro ⟨before,t,after,now,rfl,run,gives⟩
        exact ⟨s :: before,t,after,now,rfl,by simpa only [loop,step] using run,gives⟩
      · rintro ⟨before,t,after,now,e,run,gives⟩
        cases before with
        | nil =>
          obtain ⟨rfl,rfl⟩ := List.cons.inj e
          obtain rfl : m = now := (Prod.mk.inj run).2
          simp [step] at gives
        | cons u before =>
          obtain ⟨rfl,rfl⟩ := List.cons.inj e
          exact ⟨before,t,after,now,rfl,by simpa only [loop,step] using run,gives⟩

/-- Process::ApplyRelocations goes through the relocations of its images one after the
other. -/
theorem applyFrom_eq (work : List (Elf × ℕ)) (m : Memory) :
    applyFrom images work m = loop (relocate images) (work.flatMap fun (e,i) => e.sites i) m := by
  induction work generalizing m with
  | nil => rfl
  | cons p work ih =>
    obtain ⟨e,i⟩ := p
    rw [applyFrom,List.flatMap_cons,loop_append]
    simp only [Elf.applyRelocations]
    cases loop (relocate images) (e.sites i) m with
    | mk ok m' => cases ok with
      | true => simpa using ih m'
      | false => simp

/-- A call goes through its relocations until one of them gives up. -/
theorem Call.run_eq (call : Call) (m : Memory) :
    call.run images m = loop (relocate images) (call.sites images) m := by
  cases call with
  | elf e i => rfl
  | process => exact applyFrom_eq images.zipIdx m

end Runs

/-- The section headers of an image: a relocation, two symbols and their names. -/
def tableHeaders : ℕ → Elf32Shdr
  | 0 => ⟨9,0x100,8,1,8,by decide⟩
  | 1 => ⟨11,0x200,32,2,16,by decide⟩
  | _ => ⟨3,0x280,1,0,0,by decide⟩

/-- An image that has been moved by a page. -/
def moved : Elf := ⟨3,tableHeaders,0x1000⟩

/-- Its memory: an R_386_32 at 300h of the symbol at index one, which has the value 40h and
no name. -/
def movedMemory : Memory :=
  write32 (write32 (write32 (fun _ => 0) 0x1100 0x300) 0x1104 0x101) 0x1214 0x40

end WootOs.Relocations
