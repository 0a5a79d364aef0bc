import Mathlib.Data.List.TakeWhile
import WootOs.Ext2Directory

/-!
# What sys_getdents lists

A directory's records tile its file. A handle stands before some of its used
entries; ReadDir hands out the next one and moves on. A call of sys_getdents
takes entries as long as their records fit. The entry whose record does not fit
was taken from the handle as well, and is lost.
-/

namespace WootOs.Ext2Directory

open ByteStore MachineInt Ext2Driver Ext2BlockMap Ext2

section Content

variable {fs : Ext2} {inode : FSINode} {t : ℕ}

/-- The bytes of a file, where its block map leads. -/
def content (fs : Ext2) (inode : FSINode) : Store := fun pos =>
  fs.volume.data (fs.getINodeBlock inode (pos / fs.blockSize) * fs.blockSize + pos % fs.blockSize)

/-- Every byte below a file's size can be read. -/
structure Mapped (fs : Ext2) (inode : FSINode) : Prop where
  /-- The volume serves every access. -/
  infallible : fs.volume.Infallible
  /-- A block has a byte. -/
  blockSize_pos : 0 < fs.blockSize
  /-- The size is an unsigned int, as that of every directory. -/
  size_lt : fs.getSize inode < 2 ^ 32
  /-- Blocks below the size have a pointer. -/
  blocks : ∀ n,n * fs.blockSize < fs.getSize inode → fs.getINodeBlock inode n ≠ 0

/-- In the range that the driver looks up right, these are the bytes of the
on-disk layout. -/
theorem content_eq_layout {k B pos : ℕ} (h : Mounted k B fs)
    (hpos : pos / fs.blockSize < 12 + B ^ 2)
    (htables : TablesPresent fs inode (pos / fs.blockSize)) :
    content fs inode pos = fs.volume.data
      (layoutBlock fs inode (pos / fs.blockSize) * fs.blockSize + pos % fs.blockSize) := by
  rw [content,getINodeBlock_eq_layout h hpos htables]

theorem Mapped.setAccessTime (h : Mapped fs inode) : Mapped fs (inode.setAccessTime t) :=
  ⟨h.infallible,h.blockSize_pos,h.size_lt,h.blocks⟩

theorem slice_content (inode : FSINode) (h : 0 < fs.blockSize) {pos n : ℕ}
    (hn : pos % fs.blockSize + n ≤ fs.blockSize) : slice (content fs inode) pos n =
      slice fs.volume.data (fs.getINodeBlock inode (pos / fs.blockSize) * fs.blockSize +
        pos % fs.blockSize) n := by
  refine slice_congr fun i hi => ?_
  have hpos : pos + i = fs.blockSize * (pos / fs.blockSize) + (pos % fs.blockSize + i) := by
    rw [← Nat.add_assoc,Nat.div_add_mod]
  have hlt : pos % fs.blockSize + i < fs.blockSize := by omega
  have hdiv : (pos + i) / fs.blockSize = pos / fs.blockSize := by
    rw [hpos,Nat.mul_add_div h,Nat.div_eq_of_lt hlt,Nat.add_zero]
  have hmod : (pos + i) % fs.blockSize = pos % fs.blockSize + i := by
    rw [hpos,Nat.mul_add_mod,Nat.mod_eq_of_lt hlt]
  rw [content,hdiv,hmod,Nat.add_assoc]

/-- A read that stays below the size goes block by block to its end. -/
theorem readLoop_spec {n rounds pos left : ℕ} {buf : List UInt8} (h : Mapped fs inode)
    (hend : pos + left ≤ fs.getSize inode) (hrounds : left ≤ rounds) :
    fs.readLoop t n rounds inode pos left buf =
      ((n : ℤ),buf ++ slice (content fs inode) pos left,
        if left = 0 then inode else inode.setAccessTime t) := by
  induction rounds generalizing inode pos left buf with
  | zero =>
    obtain rfl : left = 0 := by omega
    simp [readLoop]
  | succ rounds ih =>
    by_cases hleft : left = 0
    · subst hleft
      simp [readLoop]
    · have hpos := h.blockSize_pos
      have hmod := Nat.mod_lt pos hpos
      have hdiv := Nat.div_mul_le_self pos fs.blockSize
      have hblock : pos / fs.blockSize % 2 ^ 32 = pos / fs.blockSize := by
        have hle := Nat.div_le_self pos fs.blockSize
        have hlt := h.size_lt
        exact Nat.mod_eq_of_lt (by omega)
      have hthere := h.blocks (pos / fs.blockSize) (by omega)
      set m := min left (fs.blockSize - pos % fs.blockSize) with hm
      have hslice := slice_content inode hpos (by omega : pos % fs.blockSize + m ≤ fs.blockSize)
      have hsplit : left = m + (left - m) := by omega
      have hwhole : slice (content fs inode) pos left = slice (content fs inode) pos m ++
          slice (content fs inode) (pos + m) (left - m) := by
        rw [← slice_append,← hsplit]
      rw [readLoop,if_neg hleft]
      simp only [hblock,← hm,h.infallible.read,if_neg hthere]
      have hend' : pos + m + (left - m) ≤ fs.getSize inode := by omega
      rw [if_neg (by omega),if_neg (by simp),ih h.setAccessTime hend' (by omega),if_neg hleft,
        List.append_assoc,hwhole,hslice,Nat.mul_comm]
      refine Prod.ext rfl (Prod.ext rfl ?_)
      exact ite_self _

/-- So does a read of at least one byte. -/
theorem read_spec {n pos : ℕ} (h : Mapped fs inode) (hend : pos + n ≤ fs.getSize inode)
    (hn : 0 < n) : fs.read t inode pos n =
      ((n : ℤ),slice (content fs inode) pos n,inode.setAccessTime t) := by
  have hclip : ¬fs.getSize inode < pos + n := by omega
  simp only [Ext2.read,if_neg hclip,if_neg hn.ne']
  rw [readLoop_spec h hend le_rfl,if_neg hn.ne',List.nil_append]

theorem readINode_spec {number : ℕ} (h : fs.volume.Infallible) :
    fs.readINode number = some number := by
  simp only [Ext2.readINode,h.read,if_true]

end Content

/-- A record of a directory's file. -/
structure Slot where
  /-- The inode's number, zero if the record is not used. -/
  inode : ℕ
  /-- Distance to the next record. -/
  recLen : ℕ
  /-- The name. -/
  name : List UInt8
  deriving DecidableEq

/-- The record at a position. -/
def slotAt (c : Store) (pos : ℕ) : Slot :=
  let de := Header.ofBytes (slice c pos headerSize)
  ⟨de.inode,de.recLen,slice c (pos + headerSize) de.nameLen⟩

/-- The entry of a record. -/
def Slot.entry (slot : Slot) : DirectoryEntry := ⟨slot.inode,slot.name⟩

/-- A record holds its fixed part. If it is used it also holds its name, which
is a string of at least one character. -/
structure Slot.WellFormed (slot : Slot) : Prop where
  /-- The fixed part. -/
  header : headerSize ≤ slot.recLen
  /-- Its name. -/
  used : slot.inode ≠ 0 →
    slot.name ≠ [] ∧ 0 ∉ slot.name ∧ headerSize + slot.name.length ≤ slot.recLen

/-- The entries of the records that are used. -/
def used (slots : List Slot) : List DirectoryEntry :=
  (slots.filter (·.inode ≠ 0)).map Slot.entry

/-- A well-formed directory: its file can be read, and records tile it. -/
structure Directory (fs : Ext2) (inode : FSINode) (slots : List Slot) : Prop where
  /-- Every byte can be read. -/
  mapped : Mapped fs inode
  /-- It is a directory. -/
  isDir : inode.iMode &&& ext2SIfType = ext2SIfDir
  /-- The records reach from the start to the end of the file. -/
  chain : Chain (slotAt (content fs inode)) Slot.recLen 0 slots (fs.getSize inode)
  /-- They are well-formed. -/
  wellFormed : ∀ slot ∈ slots,slot.WellFormed

/-- A handle that a directory can be read by. -/
structure File.Reads (f : File) (inode : FSINode) : Prop where
  /-- The inode of the handle. -/
  dentry : f.dentry = some (some inode)
  /-- It was a directory when it was opened. -/
  mode : f.mode &&& sIfType = sIfDir
  /-- It was not opened for writing only. -/
  flags : f.flags &&& oAccMode ≠ oWrOnly

/-- A handle of a well-formed directory, before some of its records. -/
structure Ready (fs : Ext2) (f : File) (inode : FSINode) (slots : List Slot) : Prop where
  /-- The directory can be read by it. -/
  reads : f.Reads inode
  /-- Every byte can be read. -/
  mapped : Mapped fs inode
  /-- It is a directory. -/
  isDir : inode.iMode &&& ext2SIfType = ext2SIfDir
  /-- The records that are left reach to the end of the file. -/
  chain : Chain (slotAt (content fs inode)) Slot.recLen f.position slots (fs.getSize inode)
  /-- They are well-formed. -/
  wellFormed : ∀ slot ∈ slots,slot.WellFormed

section ReadDir

variable {fs : Ext2} {inode : FSINode} {slots : List Slot} {f : File} {t fuel pos : ℕ}

@[simp] theorem used_nil : used [] = [] := rfl

theorem used_skip {slot : Slot} (h : slot.inode = 0) : used (slot :: slots) = used slots := by
  simp [used,h]

theorem used_cons {slot : Slot} (h : slot.inode ≠ 0) :
    used (slot :: slots) = slot.entry :: used slots := by
  simp [used,h]

/-- A string without a zero is read back whole. -/
theorem cString_eq {bytes : List UInt8} (h : 0 ∉ bytes) : cString bytes = bytes := by
  rw [cString,List.takeWhile_eq_self_iff]
  intro b hb
  exact decide_eq_true fun hz => h (hz ▸ hb)

/-- FSINode::ReadDir returns the next used entry with the position after its
record, or none if none is left. -/
theorem readDirLoop_spec (h : Mapped fs inode) (hwf : ∀ slot ∈ slots,slot.WellFormed)
    (hchain : Chain (slotAt (content fs inode)) Slot.recLen pos slots (fs.getSize inode))
    (hfuel : slots.length < fuel) :
    (used slots = [] ∧ ∃ a d pos',readDirLoop fs t (fs.getSize inode) fuel inode pos =
      some (none,pos',{ inode with iAtime := a, dirty := d })) ∨
    ∃ a d de rest pos',used slots = de :: used rest ∧
      (∀ slot ∈ rest,slot.WellFormed) ∧
      Chain (slotAt (content fs inode)) Slot.recLen pos' rest (fs.getSize inode) ∧
      readDirLoop fs t (fs.getSize inode) fuel inode pos =
        some (some de,pos',{ inode with iAtime := a, dirty := d }) := by
  induction slots generalizing fuel inode pos with
  | nil =>
    obtain ⟨fuel,rfl⟩ := Nat.exists_eq_succ_of_ne_zero (by omega : fuel ≠ 0)
    refine .inl ⟨rfl,inode.iAtime,inode.dirty,pos,?_⟩
    rw [readDirLoop,if_pos (hchain : pos = _).ge]
  | cons slot slots ih =>
    obtain ⟨fuel,rfl⟩ := Nat.exists_eq_succ_of_ne_zero (by omega : fuel ≠ 0)
    obtain ⟨hslot,hlen,hrest⟩ := hchain
    have hend := hrest.count_le
    have hheader := (hwf slot List.mem_cons_self).header
    have hread : fs.read t inode pos headerSize = ((headerSize : ℤ),
        slice (content fs inode) pos headerSize,inode.setAccessTime t) :=
      read_spec h (by omega) (by decide)
    rw [readDirLoop,if_neg (by omega)]
    simp only [hread]
    have hin : (Header.ofBytes (slice (content fs inode) pos headerSize)).inode = slot.inode :=
      congrArg Slot.inode hslot
    have hstep : (Header.ofBytes (slice (content fs inode) pos headerSize)).recLen = slot.recLen :=
      congrArg Slot.recLen hslot
    have hname : slice (content fs inode) (pos + headerSize)
        (Header.ofBytes (slice (content fs inode) pos headerSize)).nameLen = slot.name :=
      congrArg Slot.name hslot
    rw [if_neg (by simp),hin,hstep]
    have hwf' : ∀ slot ∈ slots,slot.WellFormed := fun s hs => hwf s (List.mem_cons_of_mem _ hs)
    by_cases hused : slot.inode = 0
    · rw [if_pos (.inl hused),used_skip hused]
      obtain ⟨hnone,a,d,hr⟩ | ⟨a,d,hr⟩ := ih (h.setAccessTime (t := t)) hwf' hrest
        (Nat.lt_of_succ_lt_succ hfuel)
      · exact .inl ⟨hnone,a,d,hr⟩
      · exact .inr ⟨a,d,hr⟩
    · obtain ⟨hne,hzero,hfits⟩ := (hwf slot List.mem_cons_self).used hused
      set n := (Header.ofBytes (slice (content fs inode) pos headerSize)).nameLen with hn
      have hlength : slot.name.length = n := by rw [← hname,slice_length]
      have hpos : 0 < n := hlength ▸ List.length_pos_iff.mpr hne
      have hread' : fs.read t (inode.setAccessTime t) (pos + headerSize) n =
          ((n : ℤ),slot.name,inode.setAccessTime t) := by
        rw [read_spec h.setAccessTime (show pos + headerSize + n ≤ fs.getSize inode by omega) hpos]
        exact congrArg (fun s => ((n : ℤ),s,inode.setAccessTime t)) hname
      rw [if_neg (by omega)]
      simp only [hread',readINode_spec h.infallible,cString_eq hzero]
      rw [if_neg (by simp)]
      exact .inr ⟨t,true,slot.entry,slots,pos + slot.recLen,used_cons hused,hwf',hrest,rfl⟩

/-- An entry of an on-disk record. -/
structure DirectoryEntry.Valid (de : DirectoryEntry) : Prop where
  /-- Its number takes four bytes. -/
  iNode_lt : de.iNode < 2 ^ 32
  /-- The length of its name takes one. -/
  length_lt : de.name.length < 2 ^ 8
  /-- Its name is a string. -/
  string : 0 ∉ de.name

/-- A handle of a well-formed directory of some size stands before the given used entries. -/
def Before (fs : Ext2) (size : ℕ) (f : File) (entries : List DirectoryEntry) : Prop :=
  ∃ inode slots,Ready fs f inode slots ∧ fs.getSize inode = size ∧ used slots = entries

theorem slotAt_bounds (c : Store) (pos : ℕ) :
    (slotAt c pos).inode < 2 ^ 32 ∧ (slotAt c pos).name.length < 2 ^ 8 := by
  have hinode := leValue_lt ((slice c pos headerSize).take 4)
  have hname := leValue_lt (((slice c pos headerSize).drop 6).take 1)
  simp only [List.length_take,List.length_drop,slice_length,headerSize] at hinode hname
  refine ⟨by simpa [slotAt,Header.ofBytes,headerSize] using hinode,?_⟩
  simpa [slotAt,Header.ofBytes,headerSize] using hname

theorem Ready.valid (h : Ready fs f inode slots) : ∀ de ∈ used slots,de.Valid := by
  intro de hde
  obtain ⟨slot,hslot,rfl⟩ := List.mem_map.mp hde
  obtain ⟨hmem,hused⟩ := List.mem_filter.mp hslot
  obtain ⟨pos,rfl⟩ := h.chain.exists_pos slot hmem
  obtain ⟨hinode,hlength⟩ := slotAt_bounds (content fs inode) pos
  exact ⟨hinode,hlength,((h.wellFormed _ hmem).used (by simpa using hused)).2.1⟩

variable {size : ℕ} {entries : List DirectoryEntry} {de : DirectoryEntry} {locked : Bool}

theorem Before.valid (h : Before fs size f entries) : ∀ de ∈ entries,de.Valid := by
  obtain ⟨inode,slots,hready,-,rfl⟩ := h
  exact hready.valid

/-- There are no more entries than bytes in the directory. -/
theorem Before.length_le (h : Before fs size f entries) : entries.length ≤ size := by
  obtain ⟨inode,slots,hready,rfl,rfl⟩ := h
  have hslots := hready.chain.count_le
  have hused : (used slots).length ≤ slots.length := by
    rw [used,List.length_map]
    exact List.length_filter_le _ _
  omega

/-- A directory has its type's bit. -/
theorem directory_bit {mode : ℕ} (h : mode &&& ext2SIfType = ext2SIfDir) :
    mode &&& ext2SIfDir ≠ 0 := by
  have hbit : mode &&& ext2SIfDir = (mode &&& ext2SIfType) &&& ext2SIfDir := by
    rw [Nat.and_assoc]
    rfl
  rw [hbit,h]
  decide

/-- What ReadDir of a handle does when it gets the lock. -/
theorem Ready.readDir (h : Ready fs f inode slots) (hfuel : fs.getSize inode < fuel) :
    (used slots = [] ∧ ∃ f',f.readDir fs fuel t true = some (none,f') ∧
      Before fs (fs.getSize inode) f' []) ∨
    ∃ de rest f',used slots = de :: rest ∧ f.readDir fs fuel t true = some (some de,f') ∧
      Before fs (fs.getSize inode) f' rest := by
  have hslots := h.chain.count_le
  have hopen : f.readDir fs fuel t true =
      (readDirLoop fs t (fs.getSize inode) fuel inode f.position).map fun r =>
        (r.1,{ f with
          dentry := some (some r.2.2)
          position := if r.1.isSome then r.2.1 else f.position }) := by
    rw [File.readDir,h.reads.dentry]
    simp only [h.reads.mode,h.reads.flags,ne_eq,not_true_eq_false,if_false,Bool.not_true,
      Bool.false_eq_true,readDirINode,directory_bit h.isDir]
  have hmapped : ∀ a d,Mapped fs { inode with iAtime := a, dirty := d } := fun a d =>
    ⟨h.mapped.infallible,h.mapped.blockSize_pos,h.mapped.size_lt,h.mapped.blocks⟩
  rw [hopen]
  obtain ⟨hnone,a,d,pos,hr⟩ | ⟨a,d,de,rest,pos,hde,hwf,hchain,hr⟩ :=
    readDirLoop_spec (t := t) h.mapped h.wellFormed h.chain (by omega : slots.length < fuel)
  · rw [hr]
    exact .inl ⟨hnone,_,rfl,_,slots,⟨⟨rfl,h.reads.mode,h.reads.flags⟩,hmapped a d,h.isDir,
      h.chain,h.wellFormed⟩,rfl,hnone⟩
  · rw [hr]
    exact .inr ⟨de,used rest,_,hde,rfl,_,rest,⟨⟨rfl,h.reads.mode,h.reads.flags⟩,hmapped a d,
      h.isDir,hchain,hwf⟩,rfl,rfl⟩

/-- ReadDir finds nothing if it does not get the lock, and at the end. -/
theorem Before.readDir_none (h : Before fs size f entries) (hfuel : size < fuel)
    (hstop : entries = [] ∨ locked = false) :
    ∃ f',f.readDir fs fuel t locked = some (none,f') ∧ Before fs size f' entries := by
  obtain ⟨inode,slots,hready,rfl,rfl⟩ := h
  cases locked with
  | false =>
    refine ⟨f,?_,inode,slots,hready,rfl,rfl⟩
    rw [File.readDir,hready.reads.dentry]
    simp
  | true =>
    obtain hempty | hlocked := hstop
    · obtain ⟨-,f',hr,hf'⟩ | ⟨de,rest,f',hde,-⟩ := hready.readDir (t := t) hfuel
      · exact ⟨f',hr,hempty ▸ hf'⟩
      · rw [hempty] at hde
        cases hde
    · cases hlocked

/-- With the lock it takes the next entry. -/
theorem Before.readDir_some (h : Before fs size f (de :: entries)) (hfuel : size < fuel) :
    ∃ f',f.readDir fs fuel t true = some (some de,f') ∧ Before fs size f' entries := by
  obtain ⟨inode,slots,hready,rfl,hused⟩ := h
  obtain ⟨hempty,-⟩ | ⟨de',rest,f',hde,hr,hf'⟩ := hready.readDir (t := t) hfuel
  · rw [hempty] at hused
    cases hused
  · obtain ⟨rfl,rfl⟩ := List.cons.inj (hde.symm.trans hused)
    exact ⟨f',hr,hf'⟩

end ReadDir

/-- The record of the user buffer at an address; the name is a string within it. -/
def direntAt (mem : Store) (pos : ℕ) : Dirent where
  dIno := word mem 8 pos
  dOff := word mem 8 (pos + 8)
  dRecLen := word mem 2 (pos + 16)
  dType := word mem 1 (pos + 18)
  dName := cString (slice mem (pos + 19) (word mem 2 (pos + 16) - 19))

section Records

variable {mem mem' : Store} {de : DirectoryEntry} {pos : ℕ}

theorem DirectoryEntry.dirent_bytes_length (de : DirectoryEntry) :
    de.dirent.bytes.length = 20 + de.name.length := by
  simp [Dirent.bytes,DirectoryEntry.dirent]
  omega

theorem cString_append {name rest : List UInt8} (h : 0 ∉ name) :
    cString (name ++ 0 :: rest) = name := by
  have hname : ∀ b ∈ name,decide (b ≠ 0) = true := fun b hb => decide_eq_true fun hz => h (hz ▸ hb)
  rw [cString,List.takeWhile_append_of_pos hname,List.takeWhile_cons_of_neg (by simp),
    List.append_nil]

/-- A record is stored field by field. -/
theorem patch_dirent (mem : Store) (pos : ℕ) (de : DirectoryEntry) :
    patch mem pos de.dirent.bytes =
      patch (patch (patch (patch (patch mem pos (leBytes 8 de.iNode)) (pos + 8) (leBytes 8 0))
        (pos + 16) (leBytes 2 de.dirent.dRecLen)) (pos + 18) (leBytes 1 0)) (pos + 19)
        (de.name ++ [0]) := by
  have h1 := patch_append mem pos (leBytes 8 de.iNode) (leBytes 8 0)
  have h2 := patch_append mem pos (leBytes 8 de.iNode ++ leBytes 8 0)
    (leBytes 2 de.dirent.dRecLen)
  have h3 := patch_append mem pos
    (leBytes 8 de.iNode ++ leBytes 8 0 ++ leBytes 2 de.dirent.dRecLen) (leBytes 1 0)
  have h4 := patch_append mem pos
    (leBytes 8 de.iNode ++ leBytes 8 0 ++ leBytes 2 de.dirent.dRecLen ++ leBytes 1 0)
    (de.name ++ [0])
  simp only [List.length_append,leBytes_length] at h1 h2 h3 h4
  rw [Dirent.bytes]
  change patch mem pos (leBytes 8 de.iNode ++ leBytes 8 0 ++ leBytes 2 de.dirent.dRecLen ++
    leBytes 1 0 ++ (de.name ++ [0])) = _
  rw [← h4,← h3,← h2,← h1]

/-- A record that was stored is read back. -/
theorem direntAt_patch (h : de.Valid) (mem : Store) (pos : ℕ) :
    direntAt (patch mem pos de.dirent.bytes) pos = de.dirent := by
  have hino : de.iNode < 256 ^ 8 := h.iNode_lt.trans (by norm_num)
  have hrec : de.dirent.dRecLen < 256 ^ 2 := by
    have hlength := h.length_lt
    simp only [DirectoryEntry.dirent,sizeofDirent]
    omega
  have hsize : de.dirent.dRecLen - 19 = (de.name ++ [0]).length + 1 := by
    simp only [DirectoryEntry.dirent,sizeofDirent,List.length_append,List.length_singleton]
    omega
  rw [patch_dirent]
  set s := patch (patch (patch (patch mem pos (leBytes 8 de.iNode)) (pos + 8) (leBytes 8 0))
    (pos + 16) (leBytes 2 de.dirent.dRecLen)) (pos + 18) (leBytes 1 0) with hs
  set r := patch s (pos + 19) (de.name ++ [0])
  have hword : ∀ n p,p + n ≤ pos + 19 → word r n p = word s n p := fun n p hp =>
    word_patch_disjoint (.inl hp)
  have hInoWord : word r 8 pos = de.iNode := by
    rw [hword _ _ (by omega),hs,word_patch_disjoint (by omega),word_patch_disjoint (by omega),
      word_patch_disjoint (by omega),word_patch_same hino]
  have hOffWord : word r 8 (pos + 8) = 0 := by
    rw [hword _ _ (by omega),hs,word_patch_disjoint (by omega),word_patch_disjoint (by omega),
      word_patch_same (by norm_num)]
  have hRecWord : word r 2 (pos + 16) = de.dirent.dRecLen := by
    rw [hword _ _ (by omega),hs,word_patch_disjoint (by simp),word_patch_same hrec]
  have hTypeWord : word r 1 (pos + 18) = 0 := by
    rw [hword _ _ (by omega),hs,word_patch_same (by norm_num)]
  have hname : cString (slice r (pos + 19) (de.dirent.dRecLen - 19)) = de.name := by
    rw [hsize,slice_append,slice_patch_same,List.append_assoc]
    exact cString_append h.string
  rw [direntAt,hInoWord,hOffWord,hRecWord,hTypeWord,hname]
  rfl

/-- Reading a record looks no further than its length says. -/
theorem direntAt_congr {len : ℕ} (hlen : (direntAt mem pos).dRecLen = len) (hmin : 19 ≤ len)
    (h : ∀ a,pos ≤ a → a < pos + len → mem' a = mem a) :
    direntAt mem' pos = direntAt mem pos := by
  have hword : ∀ n p,pos ≤ p → p + n ≤ pos + len → word mem' n p = word mem n p :=
    fun n p hl hu => word_congr fun i hi => h _ (by omega) (by omega)
  have hrec : word mem 2 (pos + 16) = len := hlen
  have hname : slice mem' (pos + 19) (len - 19) = slice mem (pos + 19) (len - 19) :=
    slice_congr fun i hi => h _ (by omega) (by omega)
  rw [direntAt,direntAt,hword 8 pos le_rfl (by omega),hword 8 (pos + 8) (by omega) (by omega),
    hword 2 (pos + 16) (by omega) (by omega),hword 1 (pos + 18) (by omega) (by omega),hrec,hname]

end Records

/-- How many bytes the records of some entries take. -/
def space (entries : List DirectoryEntry) : ℕ := (entries.map fun de => de.dirent.dRecLen).sum

/-- The entries that a call comes to if all fit, from its given round on: those
before the first lock that fails. -/
def reached (locks : ℕ → Bool) : ℕ → List DirectoryEntry → List DirectoryEntry
  | _,[] => []
  | i,de :: entries => if locks i then de :: reached locks (i + 1) entries else []

section Loop

variable {fs : Ext2} {size fuel rounds : ℕ} {f : File} {call : Call}
  {entries : List DirectoryEntry}

@[simp] theorem space_nil : space [] = 0 := rfl

@[simp] theorem space_cons (de : DirectoryEntry) :
    space (de :: entries) = de.dirent.dRecLen + space entries := by
  simp [space]

@[simp] theorem space_append (entries' : List DirectoryEntry) :
    space (entries ++ entries') = space entries + space entries' := by
  simp [space]

theorem DirectoryEntry.dRecLen_pos (de : DirectoryEntry) : 0 < de.dirent.dRecLen :=
  Nat.succ_pos _

theorem space_pos (h : entries ≠ []) : 0 < space entries := by
  obtain ⟨de,entries,rfl⟩ := List.exists_cons_of_ne_nil h
  have hpos := de.dRecLen_pos
  rw [space_cons]
  omega

/-- A count that is read as a long is not more than it was, and it is as much
only if its sign bit is clear. -/
theorem signed_toNat (n : ℕ) :
    (signed 32 n).toNat ≤ n ∧ ((signed 32 n).toNat = n → n < 2 ^ 31) := by
  rw [signed,Int.bmod]
  omega

theorem reached_nil {locks : ℕ → Bool} {i : ℕ} (h : entries = [] ∨ locks i = false) :
    reached locks i entries = [] := by
  cases entries with
  | nil => rfl
  | cons de entries =>
    obtain hempty | hlock := h
    · cases hempty
    · rw [reached,if_neg (by simp [hlock])]

theorem reached_drop (locks : ℕ → Bool) (i : ℕ) (entries : List DirectoryEntry) :
    reached locks i entries ++ entries.drop (reached locks i entries).length = entries := by
  induction entries generalizing i with
  | nil => rfl
  | cons de entries ih =>
    rw [reached]
    split_ifs with hlock
    · rw [List.length_cons,List.drop_succ_cons,List.cons_append,ih]
    · rfl

/-- A round that finds no room for another byte. -/
theorem getdentsLoop_full {i br : ℕ} {mem : Store} {hasSomething : Bool}
    (hfull : call.count ≤ br) :
    getdentsLoop fs fuel call (rounds + 1) i f mem br hasSomething =
      some (br,hasSomething,f,mem) := if_pos hfull

/-- A round in which ReadDir finds no entry. -/
theorem getdentsLoop_none {i br : ℕ} {mem : Store} {hasSomething : Bool} {f' : File}
    (hfull : ¬call.count ≤ br)
    (hr : f.readDir fs fuel call.curTime (call.locks i) = some (none,f')) :
    getdentsLoop fs fuel call (rounds + 1) i f mem br hasSomething =
      some (br,hasSomething,f',mem) :=
  (if_neg hfull).trans (by rw [hr])

/-- A round in which it finds one. -/
theorem getdentsLoop_some {i br : ℕ} {mem : Store} {hasSomething : Bool} {f' : File}
    {de : DirectoryEntry} (hfull : ¬call.count ≤ br)
    (hr : f.readDir fs fuel call.curTime (call.locks i) = some (some de,f')) :
    getdentsLoop fs fuel call (rounds + 1) i f mem br hasSomething =
      if call.count ≤ (br + de.dirent.dRecLen) % 2 ^ 32 then some (br,true,f',mem)
      else getdentsLoop fs fuel call rounds (i + 1) f' (patch mem (call.buf + br) de.dirent.bytes)
        ((br + de.dirent.dRecLen) % 2 ^ 32) true :=
  (if_neg hfull).trans (by rw [hr])

/-- A call takes entries from the handle and stores no more bytes than their
records take. It stores that many only if it took all it came to, and these fit. -/
theorem getdentsLoop_accounts (call : Call) (h : Before fs size f entries) (hfuel : size < fuel)
    (hrounds : entries.length < rounds) (i br : ℕ) (mem : Store) (hasSomething : Bool) :
    ∃ br' found f' mem' taken rest,
      getdentsLoop fs fuel call rounds i f mem br hasSomething = some (br',found,f',mem') ∧
      entries = taken ++ rest ∧ Before fs size f' rest ∧ br' ≤ br + space taken ∧
      (br' = br + space taken → br < call.count →
        taken = reached call.locks i entries ∧ br' < call.count) ∧
      (found = true → hasSomething = true ∨ taken ≠ []) ∧ (taken ≠ [] → br < call.count) := by
  induction rounds generalizing entries f i mem br hasSomething with
  | zero => omega
  | succ rounds ih =>
    by_cases hfull : call.count ≤ br
    · refine ⟨br,hasSomething,f,mem,[],entries,?_,rfl,h,le_rfl,fun _ hlt => ?_,.inl,
        fun hne => absurd rfl hne⟩
      · exact getdentsLoop_full hfull
      · omega
    · by_cases hstop : entries = [] ∨ call.locks i = false
      · obtain ⟨f',hr,hf'⟩ := h.readDir_none (t := call.curTime) hfuel hstop
        exact ⟨br,hasSomething,f',mem,[],entries,getdentsLoop_none hfull hr,rfl,hf',le_rfl,
          fun _ hlt => ⟨(reached_nil hstop).symm,hlt⟩,.inl,fun hne => absurd rfl hne⟩
      · obtain ⟨hne,hlock⟩ := not_or.mp hstop
        obtain ⟨de,entries,rfl⟩ := List.exists_cons_of_ne_nil hne
        rw [Bool.not_eq_false] at hlock
        obtain ⟨f',hr,hf'⟩ := h.readDir_some (t := call.curTime) hfuel
        have hpos := de.dRecLen_pos
        have hmod := Nat.mod_le (br + de.dirent.dRecLen) (2 ^ 32)
        by_cases hfit : call.count ≤ (br + de.dirent.dRecLen) % 2 ^ 32
        · refine ⟨br,true,f',mem,[de],entries,?_,rfl,hf',by omega,fun heq => ?_,
            fun _ => .inr (List.cons_ne_nil _ _),fun _ => by omega⟩
          · rw [getdentsLoop_some hfull (hlock ▸ hr),if_pos hfit]
          · rw [space_cons] at heq
            omega
        · obtain ⟨br',found,f'',mem',taken,rest,hloop,rfl,hf'',hle,heq,-,-⟩ :=
            ih hf' (Nat.lt_of_succ_lt_succ hrounds) (i + 1) ((br + de.dirent.dRecLen) % 2 ^ 32)
              (patch mem (call.buf + br) de.dirent.bytes) true
          refine ⟨br',found,f'',mem',de :: taken,rest,?_,rfl,hf'',?_,fun hall hlt => ?_,
            fun _ => .inr (List.cons_ne_nil _ _),fun _ => by omega⟩
          · rw [getdentsLoop_some hfull (hlock ▸ hr),if_neg hfit,hloop]
          · rw [space_cons]
            omega
          · rw [space_cons] at hall
            obtain ⟨htaken,hcount⟩ := heq (by omega) (by omega)
            refine ⟨?_,hcount⟩
            rw [reached,if_pos hlock,← htaken]

/-- A call whose entries all fit stores their records, one after the other. -/
theorem getdentsLoop_lists (call : Call) (h : Before fs size f entries) (hfuel : size < fuel)
    (hrounds : entries.length < rounds) (i br : ℕ) (mem : Store) (hasSomething : Bool)
    (hfit : br + space (reached call.locks i entries) < call.count) :
    ∃ f' mem',getdentsLoop fs fuel call rounds i f mem br hasSomething =
        some (br + space (reached call.locks i entries),
          hasSomething || !(reached call.locks i entries).isEmpty,f',mem') ∧
      Before fs size f' (entries.drop (reached call.locks i entries).length) ∧
      Chain (direntAt mem') Dirent.dRecLen (call.buf + br)
        ((reached call.locks i entries).map DirectoryEntry.dirent)
        (call.buf + br + space (reached call.locks i entries)) ∧
      ∀ a,a < call.buf + br ∨ call.buf + br + space (reached call.locks i entries) ≤ a →
        mem' a = mem a := by
  induction rounds generalizing entries f i mem br hasSomething with
  | zero => omega
  | succ rounds ih =>
    have hfull : ¬call.count ≤ br := by omega
    by_cases hstop : entries = [] ∨ call.locks i = false
    · obtain ⟨f',hr,hf'⟩ := h.readDir_none (t := call.curTime) hfuel hstop
      rw [reached_nil hstop]
      refine ⟨f',mem,?_,hf',rfl,fun _ _ => rfl⟩
      rw [getdentsLoop_none hfull hr]
      simp
    · obtain ⟨hne,hlock⟩ := not_or.mp hstop
      obtain ⟨de,entries,rfl⟩ := List.exists_cons_of_ne_nil hne
      rw [Bool.not_eq_false] at hlock
      obtain ⟨f',hr,hf'⟩ := h.readDir_some (t := call.curTime) hfuel
      have hvalid := h.valid de List.mem_cons_self
      rw [reached,if_pos hlock] at hfit ⊢
      rw [space_cons] at hfit ⊢
      have hcount := call.count_lt
      have hmod : (br + de.dirent.dRecLen) % 2 ^ 32 = br + de.dirent.dRecLen :=
        Nat.mod_eq_of_lt (by omega)
      have hmore : ¬call.count ≤ br + de.dirent.dRecLen := by omega
      obtain ⟨f'',mem',hloop,hf'',hchain,hframe⟩ :=
        ih hf' (Nat.lt_of_succ_lt_succ hrounds) (i + 1) (br + de.dirent.dRecLen)
          (patch mem (call.buf + br) de.dirent.bytes) true (by omega)
      have hlength := de.dirent_bytes_length
      have hsize : de.dirent.dRecLen = 21 + de.name.length := by
        simp only [DirectoryEntry.dirent,sizeofDirent]
        omega
      refine ⟨f'',mem',?_,hf'',⟨?_,de.dRecLen_pos,?_⟩,fun a ha => ?_⟩
      · rw [getdentsLoop_some hfull (hlock ▸ hr)]
        simp only [hmod,if_neg hmore,hloop,Nat.add_assoc]
        simp
      · have hstored := direntAt_patch hvalid mem (call.buf + br)
        rw [← hstored]
        refine direntAt_congr (congrArg Dirent.dRecLen hstored) (by omega) fun a _ ha => ?_
        exact hframe a (.inl (by omega))
      · simpa only [Nat.add_assoc] using hchain
      · rw [hframe a (by omega),patch_out (by omega)]

/-- No entry is taken from the handle unless its bytes are counted. -/
theorem sysGetdents_accounts (errno : ℤ) (call : Call) (h : Before fs size f entries)
    (hfuel : size < fuel) :
    ∃ result f' mem' taken rest,
      sysGetdents fs fuel errno (some f) call = some (result,some f',mem') ∧
      entries = taken ++ rest ∧ Before fs size f' rest ∧ result.toNat ≤ space taken ∧
      (result.toNat = space taken → result ≠ 0 → taken = reached call.locks 0 entries ∧
        taken ≠ [] ∧ space taken < call.count ∧ space taken < 2 ^ 31) := by
  have hrounds := h.length_le.trans_lt hfuel
  obtain ⟨br,found,f',mem',taken,rest,hloop,hentries,hf',hle,heq,hfound,hcount⟩ :=
    getdentsLoop_accounts call h hfuel hrounds 0 0 call.mem false
  rw [Nat.zero_add] at hle heq
  refine ⟨if br = 0 ∧ found then -eInval else signed 32 br,f',mem',taken,rest,?_,hentries,hf',?_⟩
  · rw [sysGetdents,hloop]
    rfl
  have hsigned := signed_toNat br
  split_ifs with hinval
  · have hne : taken ≠ [] := (hfound hinval.2).resolve_left (by simp)
    have hspace := space_pos hne
    exact ⟨Nat.zero_le _,fun hzero => absurd hzero (by simp [eInval]; omega)⟩
  · refine ⟨hsigned.1.trans hle,fun hall hnonzero => ?_⟩
    have hbr : br = space taken := by omega
    have hne : taken ≠ [] := by
      rintro rfl
      rw [space_nil] at hbr
      exact hnonzero (by rw [hbr]; rfl)
    obtain ⟨hreached,hfits⟩ := heq hbr (hcount hne)
    exact ⟨hreached,hne,hbr ▸ hfits,hbr ▸ hsigned.2 (by omega)⟩

/-- At the end of the directory a call returns 0 and stores nothing. -/
theorem sysGetdents_end (errno : ℤ) (call : Call) (h : Before fs size f [])
    (hfuel : size < fuel) :
    ∃ f',sysGetdents fs fuel errno (some f) call = some (0,some f',call.mem) := by
  obtain ⟨fuel,rfl⟩ := Nat.exists_eq_succ_of_ne_zero (by omega : fuel ≠ 0)
  obtain ⟨f',hloop⟩ : ∃ f',getdentsLoop fs (fuel + 1) call (fuel + 1) 0 f call.mem 0 false =
      some (0,false,f',call.mem) := by
    by_cases hfull : call.count ≤ 0
    · exact ⟨f,getdentsLoop_full hfull⟩
    · obtain ⟨f',hr,-⟩ := h.readDir_none (t := call.curTime) hfuel (.inl rfl)
      exact ⟨f',getdentsLoop_none hfull hr⟩
  have hzero : signed 32 ((0 : ℕ) : ℤ) = 0 := signed_of_range (by norm_num) (by norm_num)
  refine ⟨f',?_⟩
  rw [sysGetdents,hloop]
  simp only [Option.map_some,hzero]
  rw [if_neg (by simp)]

/-- A call whose entries all fit returns how many bytes their records take. -/
theorem sysGetdents_lists (errno : ℤ) (h : Before fs size f entries) (hfuel : size < fuel)
    (hne : reached call.locks 0 entries ≠ [])
    (hcount : space (reached call.locks 0 entries) < call.count)
    (hlong : space (reached call.locks 0 entries) < 2 ^ 31) :
    ∃ f' mem',sysGetdents fs fuel errno (some f) call =
        some ((space (reached call.locks 0 entries) : ℤ),some f',mem') ∧
      Before fs size f' (entries.drop (reached call.locks 0 entries).length) ∧
      Chain (direntAt mem') Dirent.dRecLen call.buf
        ((reached call.locks 0 entries).map DirectoryEntry.dirent)
        (call.buf + space (reached call.locks 0 entries)) ∧
      ∀ a,call.buf + space (reached call.locks 0 entries) ≤ a → mem' a = call.mem a := by
  obtain ⟨f',mem',hloop,hf',hchain,hframe⟩ := getdentsLoop_lists call h hfuel
    (h.length_le.trans_lt hfuel) 0 0 call.mem false (by omega)
  have hpos := space_pos hne
  refine ⟨f',mem',?_,hf',hchain,fun a ha => hframe a (.inr ha)⟩
  rw [sysGetdents,hloop,Nat.zero_add]
  have hsigned : signed 32 (space (reached call.locks 0 entries)) =
      space (reached call.locks 0 entries) := signed_of_range (by omega) (by exact_mod_cast hlong)
  simp only [Option.map_some,hsigned]
  rw [if_neg (by omega)]

end Loop

/-- What came of a call of sys_getdents. -/
structure Reply where
  /-- The call. -/
  call : Call
  /-- What it returned. -/
  result : ℤ
  /-- Position of the handle before the call. -/
  before : ℕ
  /-- Position of the handle after the call. -/
  after : ℕ
  /-- The user's memory after the call. -/
  mem : Store

/-- Successive calls on a handle, until one returns 0. -/
def serve (fs : Ext2) (fuel : ℕ) : File → List Call → Option (List Reply)
  | _,[] => some []
  | f,call :: calls =>
    match sysGetdents fs fuel 0 (some f) call with
    | some (result,some f',mem) =>
      if result = 0 then some [⟨call,result,f.position,f'.position,mem⟩]
      else (serve fs fuel f' calls).map (⟨call,result,f.position,f'.position,mem⟩ :: ·)
    | _ => none

/-- Following d_reclen through the bytes that a call returned gives records, the
last of which ends with these bytes. -/
def Reply.Returns (reply : Reply) (records : List Dirent) : Prop :=
  Chain (direntAt reply.mem) Dirent.dRecLen reply.call.buf records
    (reply.call.buf + reply.result.toNat)

/-- Calls until one returns 0 list entries: the records they return are those of
the entries, each once and in order, a call that fails does not move the handle,
and none stores anything behind its buffer. -/
structure Lists (entries : List DirectoryEntry) (replies : List Reply) : Prop where
  /-- The records that were returned. -/
  listed : ∃ outs,List.Forall₂ Reply.Returns replies outs ∧
    outs.flatten = entries.map DirectoryEntry.dirent
  /-- An entry that did not fit is not consumed. -/
  kept : ∀ reply ∈ replies,reply.result = -eInval → reply.after = reply.before
  /-- Memory behind a buffer is not written. -/
  within : ∀ reply ∈ replies,∀ a,reply.call.buf + reply.call.count ≤ a →
    reply.mem a = reply.call.mem a

/-- Every call gets the lock for its first entry, if one is left, and its buffer
is larger than the records of all entries that it comes to, which are below 2 GiB. -/
def Fits : List DirectoryEntry → List Call → Prop
  | _,[] => True
  | entries,call :: calls => entries = [] ∨
    reached call.locks 0 entries ≠ [] ∧
    space (reached call.locks 0 entries) < call.count ∧
    space (reached call.locks 0 entries) < 2 ^ 31 ∧
    Fits (entries.drop (reached call.locks 0 entries).length) calls

section Runs

variable {fs : Ext2} {size fuel : ℕ} {f : File} {entries : List DirectoryEntry}
  {calls : List Call} {replies : List Reply}

/-- The bytes that are returned are no more than the records of the entries
take. If they are as many when the run ends, every call's entries fit. -/
theorem serve_accounts (calls : List Call) (h : Before fs size f entries) (hfuel : size < fuel) :
    ∃ replies,serve fs fuel f calls = some replies ∧
      (replies.map fun reply => reply.result.toNat).sum ≤ space entries ∧
      ((∃ reply ∈ replies,reply.result = 0) →
        (replies.map fun reply => reply.result.toNat).sum = space entries →
          Fits entries calls) := by
  induction calls generalizing f entries with
  | nil => exact ⟨[],rfl,Nat.zero_le _,fun _ _ => trivial⟩
  | cons call calls ih =>
    obtain ⟨result,f',mem',taken,rest,hcall,rfl,hf',hle,heq⟩ :=
      sysGetdents_accounts 0 call h hfuel
    rw [serve,hcall]
    by_cases hzero : result = 0
    · refine ⟨_,if_pos hzero,by simp [hzero],fun _ hall => .inl ?_⟩
      by_contra hne
      have hpos := space_pos hne
      simp only [hzero,List.map_cons,List.map_nil,List.sum_singleton,Int.toNat_zero] at hall
      omega
    · obtain ⟨replies,hserve,hsum,hfits⟩ := ih hf'
      refine ⟨_,(if_neg hzero).trans (by rw [hserve]; rfl),?_,fun hend hall => ?_⟩
      · simp only [List.map_cons,List.sum_cons,space_append]
        omega
      · simp only [List.map_cons,List.sum_cons,space_append] at hall
        obtain ⟨htaken,hne,hcount,hlong⟩ := heq (by omega) hzero
        have hend' : ∃ reply ∈ replies,reply.result = 0 := by
          obtain ⟨reply,hreply,hr⟩ := hend
          obtain rfl | hreply := List.mem_cons.mp hreply
          · exact absurd hr hzero
          · exact ⟨reply,hreply,hr⟩
        have hrest : (taken ++ rest).drop taken.length = rest := List.drop_left
        refine .inr ?_
        rw [← htaken,hrest]
        exact ⟨hne,hcount,hlong,hfits hend' (by omega)⟩

/-- The records that are returned take the bytes that are returned. -/
theorem Lists.sum (h : Lists entries replies) :
    (replies.map fun reply => reply.result.toNat).sum = space entries := by
  obtain ⟨outs,houts,hlisted⟩ := h.listed
  have hsum : (replies.map fun reply => reply.result.toNat).sum =
      (outs.flatten.map Dirent.dRecLen).sum := by
    clear hlisted h
    induction houts with
    | nil => rfl
    | cons hreturns _ ih =>
      have hlength := Chain.length hreturns
      rw [List.map_cons,List.sum_cons,List.flatten_cons,List.map_append,List.sum_append,ih]
      omega
  rw [hsum,hlisted,List.map_map]
  rfl

/-- If every call's entries fit, a run to the end lists the entries. -/
theorem serve_lists (h : Before fs size f entries) (hfuel : size < fuel)
    (hfits : Fits entries calls) (hserve : serve fs fuel f calls = some replies)
    (hend : ∃ reply ∈ replies,reply.result = 0) : Lists entries replies := by
  induction calls generalizing f entries replies with
  | nil =>
    obtain rfl := Option.some.inj hserve
    obtain ⟨reply,hreply,-⟩ := hend
    exact absurd hreply List.not_mem_nil
  | cons call calls ih =>
    rw [serve] at hserve
    obtain rfl | ⟨hne,hcount,hlong,hrest⟩ := hfits
    · obtain ⟨f',hcall⟩ := sysGetdents_end 0 call h hfuel
      rw [hcall] at hserve
      obtain rfl := Option.some.inj hserve
      refine ⟨⟨[[]],.cons rfl .nil,rfl⟩,?_,?_⟩
      · intro reply hreply hr
        obtain rfl := List.mem_singleton.mp hreply
        exact absurd hr (by simp [eInval])
      · intro reply hreply a _
        obtain rfl := List.mem_singleton.mp hreply
        rfl
    · obtain ⟨f',mem',hcall,hf',hchain,hframe⟩ :=
        sysGetdents_lists 0 h hfuel hne hcount hlong
      have hpos := space_pos hne
      rw [hcall] at hserve
      simp only [if_neg (by omega : (space (reached call.locks 0 entries) : ℤ) ≠ 0)] at hserve
      obtain ⟨replies,hserve',rfl⟩ := Option.map_eq_some_iff.mp hserve
      obtain ⟨reply,hreply,hr⟩ := hend
      obtain rfl | hreply := List.mem_cons.mp hreply
      · exact absurd hr (by dsimp only; omega)
      obtain ⟨⟨outs,houts,hlisted⟩,hkept,hwithin⟩ := ih hf' hrest hserve' ⟨reply,hreply,hr⟩
      refine ⟨⟨_ :: outs,.cons hchain houts,?_⟩,?_,?_⟩
      · rw [List.flatten_cons,hlisted,← List.map_append,reached_drop]
      · intro reply hreply hr
        obtain rfl | hreply := List.mem_cons.mp hreply
        · exact absurd hr (by simp only [eInval]; omega)
        · exact hkept reply hreply hr
      · intro reply hreply a ha
        obtain rfl | hreply := List.mem_cons.mp hreply
        · exact hframe a (by dsimp only at ha; omega)
        · exact hwithin reply hreply a ha

/-- Successive calls on a new handle of a well-formed directory return, and when
one has returned 0, they have listed the used entries just when every call's
entries fit. -/
theorem listed_iff_fits (calls : List Call) {inode : FSINode} {slots : List Slot}
    (h : Directory fs inode slots) (hf : f.Reads inode) (hpos : f.position = 0)
    (hfuel : fs.getSize inode < fuel) :
    ∃ replies,serve fs fuel f calls = some replies ∧
      ((∃ reply ∈ replies,reply.result = 0) →
        (Lists (used slots) replies ↔ Fits (used slots) calls)) := by
  have hbefore : Before fs (fs.getSize inode) f (used slots) :=
    ⟨inode,slots,⟨hf,h.mapped,h.isDir,hpos ▸ h.chain,h.wellFormed⟩,rfl,rfl⟩
  obtain ⟨replies,hserve,-,hfits⟩ := serve_accounts calls hbefore hfuel
  refine ⟨replies,hserve,fun hend => ⟨fun hlists => hfits hend hlists.sum,fun hfits => ?_⟩⟩
  exact serve_lists hbefore hfuel hfits hserve hend

/-- The on-disk records of two files, a and b. -/
def twoSlots : List Slot := [⟨11,12,[97]⟩,⟨12,1012,[98]⟩]

/-- A volume whose block 5 holds them. -/
def twoFiles : Ext2 := plainFs 0 (patch (patch (fun _ => 0)
  5120 (leBytes 4 11 ++ leBytes 2 12 ++ [1,1,97]))
  5132 (leBytes 4 12 ++ leBytes 2 1012 ++ [1,1,98]))

/-- A directory of one block. -/
def oneBlock : FSINode := { onePointer 0 5 with iMode := 0x41ED, iSize := 1024 }

/-- A new handle of the directory. -/
def handle : File := ⟨some (some oneBlock),0,0x41ED,0⟩

/-- A call that gets the lock, with a buffer of 100 bytes. -/
def wide : Call := ⟨4096,100,by norm_num,fun _ => 0,fun _ => true,0⟩

/-- A call with a buffer that the first record would just fill. -/
def narrow : Call := ⟨4096,22,by norm_num,fun _ => 0,fun _ => true,0⟩

theorem twoFiles_mapped : Mapped twoFiles oneBlock := by
  refine ⟨fun _ _ => rfl,by decide,by decide,fun n hn => ?_⟩
  have hsize : twoFiles.blockSize = 1024 := by decide
  have hget : twoFiles.getSize oneBlock = 1024 := by decide
  rw [hsize,hget] at hn
  obtain rfl : n = 0 := by omega
  decide

theorem twoFiles_directory : Directory twoFiles oneBlock twoSlots := by
  refine ⟨twoFiles_mapped,by decide,?_,?_⟩
  · exact ⟨by decide +kernel,by decide,by decide +kernel,by decide,rfl⟩
  · intro slot hslot
    simp only [twoSlots,List.mem_cons,List.not_mem_nil,or_false] at hslot
    obtain rfl | rfl := hslot
    · exact ⟨by decide,fun _ => by decide⟩
    · exact ⟨by decide,fun _ => by decide⟩

/-- The record of a is refused, and so is lost: the next call returns that of b only. -/
theorem narrow_replies :
    (serve twoFiles 1025 handle [narrow,wide,wide]).map
      (List.map fun reply => (reply.result,reply.before,reply.after)) =
        some [(-22,0,12),(22,12,1024),(0,1024,1024)] := by
  decide +kernel

/-- Calls with enough room list both files. -/
theorem wide_lists : ∃ replies,serve twoFiles 1025 handle [wide,wide] = some replies ∧
    ((∃ reply ∈ replies,reply.result = 0) → Lists (used twoSlots) replies) := by
  obtain ⟨replies,hserve,hlists⟩ := listed_iff_fits [wide,wide]
    twoFiles_directory (f := handle) ⟨rfl,by decide,by decide⟩ rfl
    (by decide : twoFiles.getSize oneBlock < 1025)
  exact ⟨replies,hserve,fun hend => (hlists hend).mpr
    (.inr ⟨by decide,by decide,by decide,.inl (by decide)⟩)⟩

/-- A call with too small a buffer consumes the entry that it refuses. -/
theorem narrow_consumes : ∃ replies,
    serve twoFiles 1025 handle [narrow,wide,wide] = some replies ∧
      (∃ reply ∈ replies,reply.result = 0) ∧ ¬Lists (used twoSlots) replies := by
  obtain ⟨replies,hserve,hreplies⟩ := Option.map_eq_some_iff.mp narrow_replies
  have hmem : ∀ r ∈ [((-22 : ℤ),0,12),(22,12,1024),(0,1024,1024)],∃ reply ∈ replies,
      (reply.result,reply.before,reply.after) = r := by
    intro r hr
    rw [← hreplies] at hr
    exact List.mem_map.mp hr
  refine ⟨replies,hserve,?_,fun hlists => ?_⟩
  · obtain ⟨reply,hreply,hr⟩ := hmem (0,1024,1024) (by simp)
    exact ⟨reply,hreply,congrArg Prod.fst hr⟩
  · obtain ⟨reply,hreply,hr⟩ := hmem (-22,0,12) (by simp)
    have hkept := hlists.kept reply hreply (congrArg Prod.fst hr)
    have hbefore : reply.before = 0 := congrArg (fun r => r.2.1) hr
    have hafter : reply.after = 12 := congrArg (fun r => r.2.2) hr
    omega

end Runs

end WootOs.Ext2Directory
