import WootOs.Ext2Directory

/-!
# Where the ext2 driver accesses its volume

Positions on the volume are 64-bit numbers, but a block size and a block number
are 32-bit ones, and their product has 32 bits unless one of them is widened
first. The driver widens for inodes and data blocks; it does not for the bytes
of the bitmaps, the copies of the superblock and of the descriptor table, and
the test for an empty table.
-/

namespace WootOs.Ext2Offsets

open ByteStore MachineInt Ext2Driver

/-- Write the superblock to its copies in the listed groups, stopping at the
first failure. -/
def writeCopies (fs : Ext2) (bytes : List UInt8) : List ℕ → Bool × Ext2
  | [] => (true,{ fs with superDirty := false })
  | i :: is =>
    if !fs.hasSuperBlock i then writeCopies fs bytes is else
    let offs := fs.blockGroupOffset i
    if offs ≤ 1024 then writeCopies fs bytes is else
    let w := fs.volume.write bytes offs
    if w.1 ≠ bytes.length then (false,{ fs with volume := w.2 })
    else writeCopies { fs with volume := w.2 } bytes is

/-- Write the superblock of a mounted file system, given as bytes, to the volume. -/
def writeSuperBlock (fs : Ext2) (bytes : List UInt8) : Bool × Ext2 :=
  if !fs.superDirty then (true,fs) else
  let w := fs.volume.write bytes 1024
  if w.1 ≠ bytes.length then (false,{ fs with volume := w.2 })
  else writeCopies { fs with volume := w.2 } bytes (List.range fs.blockGroupCount)

/-- What the driver looks for on the volume. -/
inductive Access where
  /-- A byte of a group's block bitmap. -/
  | blockBitmap (g j : ℕ)
  /-- A byte of a group's inode bitmap. -/
  | inodeBitmap (g j : ℕ)
  /-- A group's copy of the superblock. -/
  | superCopy (g : ℕ)
  /-- A byte of a descriptor in a group's copy of the descriptor table. -/
  | descriptor (g bg field : ℕ)
  /-- The bytes that decide whether a block is zero. -/
  | zeroTest (block : ℕ)
  /-- An inode. -/
  | inode (n : ℕ)
  /-- A byte of a data block. -/
  | data (block offset : ℕ)

namespace Access

/-- The position that the driver passes to the volume. -/
def position (fs : Ext2) : Access → ℕ
  | blockBitmap g j => fs.bitmapByte blockKind g j
  | inodeBitmap g j => fs.bitmapByte inodeKind g j
  | superCopy g => fs.blockGroupOffset g
  | descriptor g bg field => fs.bgdtOffset g + descriptorSize * bg % 2 ^ 32 + field
  | zeroTest block => fs.blockSize * block % 2 ^ 32
  | inode n => fs.getINodeOffset n
  | data block offset => block * fs.blockSize + offset

/-- The block it counts from. -/
def block (fs : Ext2) : Access → ℕ
  | blockBitmap g _ => (fs.bgdt g).bgBlockBitmap
  | inodeBitmap g _ => (fs.bgdt g).bgInodeBitmap
  | superCopy g => fs.superBlock.sFirstDataBlock + fs.superBlock.sBlocksPerGroup * g
  | descriptor g _ _ => fs.superBlock.sFirstDataBlock + fs.superBlock.sBlocksPerGroup * g
  | zeroTest block => block
  | inode n => (fs.bgdt ((n - 1) / fs.superBlock.sInodesPerGroup)).bgInodeTable
  | data block _ => block

/-- The distance from the start of that block. -/
def offset (fs : Ext2) : Access → ℕ
  | blockBitmap _ j => j
  | inodeBitmap _ j => j
  | superCopy _ => 0
  | descriptor _ bg field => fs.blockSize + descriptorSize * bg + field
  | zeroTest _ => 0
  | inode n => fs.superBlock.sInodeSize * ((n - 1) % fs.superBlock.sInodesPerGroup)
  | data _ offset => offset

/-- It is an access that this file system can need. -/
def Valid (fs : Ext2) : Access → Prop
  | blockBitmap g j => g < fs.blockGroupCount ∧ j < fs.superBlock.sBlocksPerGroup / 8
  | inodeBitmap g j => g < fs.blockGroupCount ∧ j < fs.superBlock.sInodesPerGroup / 8
  | superCopy g => g < fs.blockGroupCount ∧ fs.hasSuperBlock g
  | descriptor g bg field => g < fs.blockGroupCount ∧ fs.hasSuperBlock g ∧
      bg < fs.blockGroupCount ∧ field < descriptorSize
  | zeroTest block => block < fs.superBlock.sBlocksCount
  | inode n => 1 ≤ n ∧ n ≤ fs.superBlock.sInodesPerGroup * fs.blockGroupCount
  | data block offset => block < fs.superBlock.sBlocksCount ∧ offset < fs.blockSize

/-- The position is the mathematical one. -/
def Exact (fs : Ext2) (a : Access) : Prop :=
  a.position fs = fs.blockSize * a.block fs + a.offset fs

/-- No product of 32-bit values passes 32 bits; one that is widened may. -/
def Narrow (fs : Ext2) : Access → Prop
  | inode _ => True
  | data _ _ => True
  | descriptor g bg field =>
    fs.blockSize * (descriptor g bg field).block fs < 2 ^ 32 ∧ descriptorSize * bg < 2 ^ 32
  | a => fs.blockSize * a.block fs < 2 ^ 32

end Access

/-- What the superblock and the descriptor table of an ext2 volume satisfy. -/
structure Geometry (fs : Ext2) : Prop where
  /-- A block holds a power of two of 1 KiB, and its size is a 32-bit number. -/
  size : ∃ k < 22, fs.blockSize = 1024 * 2 ^ k
  /-- Block numbers are 32-bit numbers. -/
  blocks : fs.superBlock.sBlocksCount < 2 ^ 32
  /-- There is a block. -/
  nonempty : 0 < fs.superBlock.sBlocksCount
  /-- The first data block is block 1, or block 0. -/
  first : fs.superBlock.sFirstDataBlock ≤ 1
  /-- A group's blocks fill the bytes of its bitmap. -/
  bytes : 8 ∣ fs.superBlock.sBlocksPerGroup
  /-- A group has blocks. -/
  perGroup : 0 < fs.superBlock.sBlocksPerGroup
  /-- A block bitmap takes one block at most. -/
  blockBitmap : fs.superBlock.sBlocksPerGroup ≤ 8 * fs.blockSize
  /-- A group has inodes. -/
  inodes : 0 < fs.superBlock.sInodesPerGroup
  /-- An inode bitmap takes one block at most. -/
  inodeBitmap : fs.superBlock.sInodesPerGroup ≤ 8 * fs.blockSize
  /-- An inode's size is a 16-bit number. -/
  inodeSize : fs.superBlock.sInodeSize < 2 ^ 16
  /-- The groups are as many as it takes for all blocks. -/
  groups : fs.blockGroupCount =
    (fs.superBlock.sBlocksCount - 1) / fs.superBlock.sBlocksPerGroup + 1
  /-- The bitmaps and the inode table of every group lie on the volume. -/
  placed : ∀ g < fs.blockGroupCount,
    (fs.bgdt g).bgBlockBitmap < fs.superBlock.sBlocksCount ∧
    (fs.bgdt g).bgInodeBitmap < fs.superBlock.sBlocksCount ∧
    (fs.bgdt g).bgInodeTable < fs.superBlock.sBlocksCount

section

variable {fs : Ext2}

/-- The zero test reads sixteen bytes at its position, round after round. -/
theorem isBlockZeroedLoop_at (block rest : ℕ) :
    fs.isBlockZeroedLoop block (rest + 1) =
      if (fs.volume.read ((Access.zeroTest block).position fs) 16).1 ≠ 16 then false
      else if (fs.volume.read ((Access.zeroTest block).position fs) 16).2 ≠ List.replicate 16 0
      then false else fs.isBlockZeroedLoop block rest := rfl

/-- A field of a descriptor is written at its position in each table copy, while
the descriptors fit into 32-bit memory. -/
theorem updateCopies_at {bg i startOffs : ℕ} {field : List UInt8} {is : List ℕ}
    (hfit : descriptorSize * bg < 2 ^ 32) (hsuper : fs.hasSuperBlock i) :
    fs.updateCopies bg startOffs field (i :: is) =
      let w := fs.volume.write field ((Access.descriptor i bg startOffs).position fs)
      if w.1 ≠ field.length then (false,{ fs with volume := w.2 })
      else Ext2.updateCopies { fs with volume := w.2 } bg startOffs field is := by
  rw [Ext2.updateCopies,hsuper,Access.position,Nat.mod_eq_of_lt hfit]
  rfl

/-- 4 GiB are a whole number of blocks. -/
theorem Geometry.whole (h : Geometry fs) : ∃ e ≥ 1,2 ^ 32 = fs.blockSize * 2 ^ e := by
  obtain ⟨k,hk,hsize⟩ := h.size
  refine ⟨22 - k,by omega,?_⟩
  rw [hsize,show 1024 = 2 ^ 10 from rfl,←pow_add,←pow_add]
  congr 1
  omega

/-- A block size is a 32-bit number. -/
theorem Geometry.size_le (h : Geometry fs) : 0 < fs.blockSize ∧ fs.blockSize ≤ 2 ^ 31 := by
  obtain ⟨k,hk,hsize⟩ := h.size
  have hpow : 2 ^ k ≤ 2 ^ 21 := Nat.pow_le_pow_right (by norm_num) (by omega)
  have hpos : 0 < 2 ^ k := Nat.two_pow_pos k
  omega

/-- A block that starts below 4 GiB ends there at most. -/
theorem Geometry.start_lt_iff (h : Geometry fs) (block : ℕ) :
    fs.blockSize * block < 2 ^ 32 ↔ fs.blockSize * (block + 1) ≤ 2 ^ 32 := by
  obtain ⟨e,-,hwhole⟩ := h.whole
  rw [hwhole]
  constructor
  · intro hlt
    exact Nat.mul_le_mul_left _ (Nat.lt_of_mul_lt_mul_left hlt)
  · intro hle
    have hpos := h.size_le.1
    rw [Nat.mul_succ] at hle
    omega

/-- A position inside one block is below 4 GiB if the block's start is. -/
theorem Geometry.mod_eq_iff (h : Geometry fs) {block offset : ℕ} (hoff : offset < fs.blockSize) :
    (fs.blockSize * block + offset) % 2 ^ 32 = fs.blockSize * block + offset ↔
      fs.blockSize * block < 2 ^ 32 := by
  constructor
  · intro heq
    have hlt := Nat.mod_lt (fs.blockSize * block + offset) (by norm_num : 2 ^ 32 > 0)
    omega
  · intro hlt
    have hend := (h.start_lt_iff block).mp hlt
    rw [Nat.mul_succ] at hend
    exact Nat.mod_eq_of_lt (by omega)

/-- The product of a block size and a block number. -/
theorem Geometry.mod_eq_start_iff (h : Geometry fs) (block : ℕ) :
    fs.blockSize * block % 2 ^ 32 = fs.blockSize * block ↔ fs.blockSize * block < 2 ^ 32 :=
  @Geometry.mod_eq_iff _ h block 0 h.size_le.1

/-- A group's position is the product reduced to 32 bits. -/
theorem blockGroupOffset_eq (g : ℕ) : fs.blockGroupOffset g =
    fs.blockSize * (fs.superBlock.sFirstDataBlock + fs.superBlock.sBlocksPerGroup * g) % 2 ^ 32 := by
  rw [Ext2.blockGroupOffset,Nat.mul_comm]

/-- There are fewer groups than a 32-bit number counts. -/
theorem Geometry.groups_lt (h : Geometry fs) : fs.blockGroupCount < 2 ^ 32 := by
  have hblocks := h.blocks
  have hle := Nat.div_le_self (fs.superBlock.sBlocksCount - 1) fs.superBlock.sBlocksPerGroup
  have hpos := h.nonempty
  rw [h.groups]
  omega

/-- Inodes are looked for where they are. -/
theorem Geometry.inode_exact (h : Geometry fs) {n : ℕ} (hv : (Access.inode n).Valid fs) :
    (Access.inode n).Exact fs := by
  obtain ⟨hn,hlast⟩ := hv
  obtain ⟨m,rfl⟩ : ∃ m, n = m + 1 := ⟨n - 1,by omega⟩
  have hipg := h.inodes
  have hbg : m / fs.superBlock.sInodesPerGroup < fs.blockGroupCount :=
    Nat.div_lt_of_lt_mul (by omega)
  have hidx : m % fs.superBlock.sInodesPerGroup < fs.superBlock.sInodesPerGroup :=
    Nat.mod_lt m hipg
  have hcount := h.groups_lt
  have hsize := h.size_le
  have hmap := h.inodeBitmap
  have htable := (h.placed _ hbg).2.2
  have hblocks := h.blocks
  have hnode := h.inodeSize
  have hp1 : (fs.bgdt (m / fs.superBlock.sInodesPerGroup)).bgInodeTable * fs.blockSize ≤
      (2 ^ 32 - 1) * 2 ^ 31 := Nat.mul_le_mul (by omega) (by omega)
  have hp2 : fs.superBlock.sInodeSize * (m % fs.superBlock.sInodesPerGroup) ≤
      (2 ^ 16 - 1) * 2 ^ 35 := Nat.mul_le_mul (by omega) (by omega)
  have hsub : ((m + 1 : ℕ) : ℤ) - 1 = (m : ℤ) := by push_cast; ring
  have hbg' : unsigned 32 ((m : ℤ).tdiv fs.superBlock.sInodesPerGroup) =
      m / fs.superBlock.sInodesPerGroup := by
    rw [←Int.ofNat_tdiv]
    exact unsigned_natCast (by omega)
  have hidx' : unsigned 64 ((m : ℤ).tmod fs.superBlock.sInodesPerGroup) =
      m % fs.superBlock.sInodesPerGroup := by
    rw [←Int.ofNat_tmod]
    exact unsigned_natCast (by omega)
  rw [Access.Exact,Access.position,Access.block,Access.offset,Nat.add_sub_cancel,Nat.mul_comm]
  simp only [Ext2.getINodeOffset,hsub,hbg',hidx']
  exact Nat.mod_eq_of_lt (by omega)

/-- A bitmap's bytes are those of one block. -/
theorem Geometry.byte_lt (h : Geometry fs) {a : Access} (hv : a.Valid fs) :
    match a with
    | .blockBitmap _ j => j < fs.blockSize
    | .inodeBitmap _ j => j < fs.blockSize
    | _ => True := by
  have hblock := h.blockBitmap
  have hinode := h.inodeBitmap
  cases a with
  | blockBitmap g j =>
    have hj := hv.2
    show j < fs.blockSize
    omega
  | inodeBitmap g j =>
    have hj := hv.2
    show j < fs.blockSize
    omega
  | _ => trivial

/-- An access goes where it should exactly if no product of 32-bit values
passes 32 bits. -/
theorem Geometry.exact_iff (h : Geometry fs) {a : Access} (hv : a.Valid fs) :
    a.Exact fs ↔ a.Narrow fs := by
  cases a with
  | blockBitmap g j => exact h.mod_eq_iff (h.byte_lt hv)
  | inodeBitmap g j => exact h.mod_eq_iff (h.byte_lt hv)
  | superCopy g =>
    rw [Access.Exact,Access.position,blockGroupOffset_eq]
    exact h.mod_eq_start_iff _
  | descriptor g bg field =>
    have hstart := h.mod_eq_start_iff (Access.block fs (.descriptor g bg field))
    have hle := Nat.mod_le (fs.blockSize * Access.block fs (.descriptor g bg field)) (2 ^ 32)
    have hle' := Nat.mod_le (descriptorSize * bg) (2 ^ 32)
    have hlt := Nat.mod_lt (descriptorSize * bg) (by norm_num : 2 ^ 32 > 0)
    have hpos : (Access.descriptor g bg field).position fs =
        fs.blockSize * Access.block fs (.descriptor g bg field) % 2 ^ 32 + fs.blockSize +
          descriptorSize * bg % 2 ^ 32 + field := by
      rw [Access.position,Ext2.bgdtOffset,blockGroupOffset_eq,Access.block]
    rw [Access.Exact,Access.Narrow,hpos,Access.offset,←hstart]
    constructor
    · intro heq
      exact ⟨by omega,by omega⟩
    · rintro ⟨heq,hbg⟩
      rw [heq,Nat.mod_eq_of_lt hbg]
      ring
  | zeroTest block => exact h.mod_eq_start_iff block
  | inode n => exact ⟨fun _ => trivial,fun _ => h.inode_exact hv⟩
  | data block offset =>
    exact ⟨fun _ => trivial,fun _ => by
      rw [Access.Exact,Access.position,Access.block,Access.offset,Nat.mul_comm]⟩

/-- Every group begins on a volume of 4 GiB or less, or where it ends. -/
theorem Geometry.start_lt (h : Geometry fs) {g : ℕ} (hg : g < fs.blockGroupCount)
    (hsmall : fs.superBlock.sBlocksCount * fs.blockSize ≤ 2 ^ 32) :
    fs.blockSize * (fs.superBlock.sFirstDataBlock + fs.superBlock.sBlocksPerGroup * g) <
      2 ^ 32 := by
  obtain ⟨m,hm⟩ := h.bytes
  have hpos := h.size_le.1
  have hfirst := h.first
  have hnonempty := h.nonempty
  have hstart : fs.superBlock.sBlocksPerGroup * g ≤ fs.superBlock.sBlocksCount - 1 := by
    rw [Nat.mul_comm]
    exact (Nat.le_div_iff_mul_le h.perGroup).mp (by rw [h.groups] at hg; omega)
  rcases Nat.lt_or_ge (fs.superBlock.sFirstDataBlock + fs.superBlock.sBlocksPerGroup * g)
    fs.superBlock.sBlocksCount with hin | hend
  · have hlt := Nat.mul_lt_mul_of_pos_left hin hpos
    rw [Nat.mul_comm fs.superBlock.sBlocksCount] at hsmall
    omega
  · -- the count is one more than a multiple of eight, so it does not divide 4 GiB
    have heq : fs.superBlock.sFirstDataBlock + fs.superBlock.sBlocksPerGroup * g =
        fs.superBlock.sBlocksCount := by omega
    rw [heq,Nat.mul_comm]
    refine Nat.lt_of_le_of_ne hsmall fun hfull => ?_
    obtain ⟨e,he,hwhole⟩ := h.whole
    rw [hwhole,Nat.mul_comm] at hfull
    have hcount := Nat.eq_of_mul_eq_mul_left hpos hfull
    obtain ⟨e,rfl⟩ := Nat.exists_eq_add_of_le' he
    have hone : fs.superBlock.sFirstDataBlock = 1 := by omega
    rw [hone,hm,hcount,Nat.pow_succ,Nat.mul_assoc] at heq
    omega

/-- The descriptors of such a volume fit into 32-bit memory. -/
theorem Geometry.table_lt (h : Geometry fs) {bg : ℕ}
    (hsmall : fs.superBlock.sBlocksCount * fs.blockSize ≤ 2 ^ 32) (hbg : bg < fs.blockGroupCount) :
    descriptorSize * bg < 2 ^ 32 := by
  obtain ⟨k,-,hsize⟩ := h.size
  have hd : descriptorSize = 32 := rfl
  have hpow := Nat.two_pow_pos k
  have hcount : fs.superBlock.sBlocksCount * 1024 ≤ fs.superBlock.sBlocksCount * fs.blockSize :=
    Nat.mul_le_mul_left _ (by omega)
  have hle := Nat.div_le_self (fs.superBlock.sBlocksCount - 1) fs.superBlock.sBlocksPerGroup
  rw [h.groups] at hbg
  rw [hd]
  omega

/-- On a volume of 4 GiB or less no product passes 32 bits. -/
theorem Geometry.narrow (h : Geometry fs)
    (hsmall : fs.superBlock.sBlocksCount * fs.blockSize ≤ 2 ^ 32) {a : Access}
    (hv : a.Valid fs) : a.Narrow fs := by
  have hin : ∀ b < fs.superBlock.sBlocksCount,fs.blockSize * b < 2 ^ 32 := fun b hb => by
    have hlt := Nat.mul_lt_mul_of_pos_left hb h.size_le.1
    rw [Nat.mul_comm fs.superBlock.sBlocksCount] at hsmall
    omega
  cases a with
  | blockBitmap g j => exact hin _ (h.placed g hv.1).1
  | inodeBitmap g j => exact hin _ (h.placed g hv.1).2.1
  | superCopy g => exact h.start_lt hv.1 hsmall
  | descriptor g bg field => exact ⟨h.start_lt hv.1 hsmall,h.table_lt hsmall hv.2.2.1⟩
  | zeroTest block => exact hin block hv
  | inode n => trivial
  | data block offset => trivial

/-- Every position that the driver passes to the volume is the mathematical one
exactly on volumes of at most 4 GiB; beyond, it is the mathematical one for the
accesses whose products are widened or stay below 4 GiB. -/
theorem positions_exact_iff (h : Geometry fs) :
    ((∀ a : Access, a.Valid fs → a.Exact fs) ↔
      fs.superBlock.sBlocksCount * fs.blockSize ≤ 2 ^ 32) ∧
    ∀ a : Access, a.Valid fs → (a.Exact fs ↔ a.Narrow fs) := by
  refine ⟨⟨?_,?_⟩,fun a hv => h.exact_iff hv⟩
  · intro hexact
    have hlast : (Access.zeroTest (fs.superBlock.sBlocksCount - 1)).Valid fs := by
      have hpos := h.nonempty
      show _ < _
      omega
    have hlt : fs.blockSize * (fs.superBlock.sBlocksCount - 1) < 2 ^ 32 :=
      (h.exact_iff hlast).mp (hexact _ hlast)
    have hend := (h.start_lt_iff _).mp hlt
    rwa [Nat.sub_add_cancel h.nonempty,Nat.mul_comm] at hend
  · intro hsmall a hv
    exact (h.exact_iff hv).mpr (h.narrow hsmall hv)

end

/-- A file system with blocks of 1 KiB on a volume of the given number of
blocks, with its bitmaps and inode tables next to each group's start. -/
def sized (blocks : ℕ) : Ext2 where
  volume := Volume.ofArray (1024 * blocks) fun _ => 0
  superBlock := ⟨blocks,0,0,1,0,8192,8,0,1,128,0⟩
  blockSize := 1024
  blockGroupCount := (blocks - 1) / 8192 + 1
  bgdt := fun g => ⟨8192 * g + 3,8192 * g + 4,8192 * g + 5,0,0⟩
  superDirty := false

/-- Such a file system has a proper geometry if its last group is not too short. -/
theorem geometry_sized {blocks : ℕ} (hlast : 8192 * ((blocks - 1) / 8192) + 5 < blocks)
    (hblocks : blocks < 2 ^ 32) : Geometry (sized blocks) where
  size := ⟨0,by norm_num,rfl⟩
  blocks := hblocks
  nonempty := Nat.lt_of_le_of_lt (Nat.zero_le _) hlast
  first := le_refl 1
  bytes := ⟨1024,rfl⟩
  perGroup := (by norm_num : 0 < 8192)
  blockBitmap := (by norm_num : 8192 ≤ 8 * 1024)
  inodes := (by norm_num : 0 < 8)
  inodeBitmap := (by norm_num : 8 ≤ 8 * 1024)
  inodeSize := (by norm_num : 128 < 2 ^ 16)
  groups := rfl
  placed := fun g hg => by
    have hg' : g < (blocks - 1) / 8192 + 1 := hg
    show 8192 * g + 3 < blocks ∧ 8192 * g + 4 < blocks ∧ 8192 * g + 5 < blocks
    omega

/-- A volume of 4 GiB has every access in its place, the last block's included. -/
theorem positions_exact_four_gib :
    (Access.zeroTest (2 ^ 22 - 1)).Exact (sized (2 ^ 22)) :=
  (positions_exact_iff (geometry_sized (by norm_num) (by norm_num))).1.mpr
    (by show 2 ^ 22 * 1024 ≤ 2 ^ 32; norm_num) _
    (by show 2 ^ 22 - 1 < 2 ^ 22; norm_num)

/-- On a volume of 8 GiB the zero test of block 2^22 looks at block 0, the block
bitmap of group 512 is taken for that of group 0, and its superblock copy for
the superblock itself. -/
theorem wrapped_positions :
    Geometry (sized (2 ^ 23)) ∧
      ((Access.zeroTest (2 ^ 22)).Valid (sized (2 ^ 23)) ∧
        (Access.zeroTest (2 ^ 22)).position (sized (2 ^ 23)) = 0 ∧
        ¬(Access.zeroTest (2 ^ 22)).Exact (sized (2 ^ 23))) ∧
      ((Access.blockBitmap 512 0).Valid (sized (2 ^ 23)) ∧
        (Access.blockBitmap 512 0).position (sized (2 ^ 23)) =
          (Access.blockBitmap 0 0).position (sized (2 ^ 23)) ∧
        ¬(Access.blockBitmap 512 0).Exact (sized (2 ^ 23))) ∧
      ((Access.superCopy 512).Valid (sized (2 ^ 23)) ∧
        (Access.superCopy 512).position (sized (2 ^ 23)) = 1024 ∧
        ¬(Access.superCopy 512).Exact (sized (2 ^ 23))) := by
  have g : Geometry (sized (2 ^ 23)) := geometry_sized (by norm_num) (by norm_num)
  have hgroup : 512 < (sized (2 ^ 23)).blockGroupCount := by
    show 512 < (2 ^ 23 - 1) / 8192 + 1
    norm_num
  have hzero : (Access.zeroTest (2 ^ 22)).Valid (sized (2 ^ 23)) := by
    show 2 ^ 22 < 2 ^ 23
    norm_num
  have hbitmap : (Access.blockBitmap 512 0).Valid (sized (2 ^ 23)) :=
    ⟨hgroup,(by norm_num : 0 < 8192 / 8)⟩
  have hcopy : (Access.superCopy 512).Valid (sized (2 ^ 23)) := ⟨hgroup,rfl⟩
  refine ⟨g,⟨hzero,?_,?_⟩,⟨hbitmap,?_,?_⟩,⟨hcopy,?_,?_⟩⟩
  · show 1024 * 2 ^ 22 % 2 ^ 32 = 0
    norm_num
  · rw [g.exact_iff hzero]
    show ¬1024 * 2 ^ 22 < 2 ^ 32
    norm_num
  · show (1024 * (8192 * 512 + 3) + 0) % 2 ^ 32 = (1024 * (8192 * 0 + 3) + 0) % 2 ^ 32
    norm_num
  · rw [g.exact_iff hbitmap]
    show ¬1024 * (8192 * 512 + 3) < 2 ^ 32
    norm_num
  · show (1 + 8192 * 512) * 1024 % 2 ^ 32 = 1024
    norm_num
  · rw [g.exact_iff hcopy]
    show ¬1024 * (1 + 8192 * 512) < 2 ^ 32
    norm_num

end WootOs.Ext2Offsets
