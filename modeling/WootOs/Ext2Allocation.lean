import WootOs.Ext2Groups

/-!
# Allocating and freeing blocks and inodes

Over whole histories of calls: the counters agree with the bitmaps as long as
no block in use is freed, because the driver never counts a freed block in the
superblock; blocks are numbered from one, which is right exactly when the
first data block is block one; and inodes are freed in the right place as
long as the number of blocks in a group puts them in the same place as the
number of inodes does.
-/

namespace WootOs.Ext2Allocation

open ByteStore BitmapStore MachineInt Ext2Driver Ext2Groups

/-- One bit of one group was set to v, and nothing else happened to the
bitmaps, the counters of the groups and the rest of the volume. -/
structure Flip (K : BitmapKind) (G : ℕ) (fs : Ext2) (g n : ℕ) (v : Bool) (fs' : Ext2) : Prop where
  /-- The group exists. -/
  group : g < G
  /-- The bit exists. -/
  bit : n < bits K fs
  /-- It was different before. -/
  before : marked K fs g n = !v
  /-- It and no other bit changed. -/
  after : ∀ h < G, ∀ m < bits K fs,
    marked K fs' h m = if h = g ∧ m = n then v else marked K fs h m
  /-- Only counters and contents changed. -/
  frozen : frozen fs' = frozen fs
  /-- The groups are still counted. -/
  counted : Counted K G fs'
  /-- Contents changed in bitmaps and tables only. -/
  frame : ∀ a, (∀ h < G, Apart a 1 (bitmapAt K fs h) (bits K fs / 8)) →
    (∀ i < fs.blockGroupCount, fs.hasSuperBlock i = true →
      Apart a 1 (tableAt fs i) (descriptorSize * fs.blockGroupCount)) →
    fs'.volume.data a = fs.volume.data a

section

variable {K : BitmapKind} {G : ℕ} {fs fs' : Ext2} {g n : ℕ} {v : Bool} {count : ℕ} {data' : Store}

/-- A rewritten volume whose groups are counted is a flip. -/
theorem flip_of_rewritten (law : Lawful K) (hg : g < G) (hn : n < bits K fs)
    (hb : marked K fs g n = !v) (hr : Rewritten K G fs g n v count data')
    (hfz : frozen fs' = frozen fs) (hdata : fs'.volume.data = data') (C : Counted K G fs') :
    Flip K G fs g n v fs' := by
  refine ⟨hg,hn,hb,?_,hfz,C,?_⟩
  · intro h hh m hm
    rw [marked,frozen_bitmapAt law hfz,hdata]
    exact hr.bit h hh m hm
  · rw [hdata]
    exact hr.frame

/-- Searching a counted group that has a free bit takes one. -/
theorem takeBit_counted (law : Lawful K) (C : Counted K G fs) (hg : g < G)
    (hfree : K.freeCount (fs.bgdt g) ≠ 0) :
    ∃ n fs', fs.takeBit K g (bits K fs / 8) 0 = (.bit n,fs') ∧ Flip K G fs g n true fs' ∧
      K.total fs'.superBlock = (K.total fs.superBlock + (2 ^ 32 - 1)) % 2 ^ 32 ∧
      freeSum K G fs' + 1 = freeSum K G fs := by
  rcases takeBit_spec law C.layout hg (bits K fs / 8) 0 (by omega) with ⟨-,hfull⟩ | hfound
  · rw [C.counted g hg] at hfree
    obtain ⟨i,hi,hclear⟩ := exists_clear hfree
    have hset : bitAt fs.volume.data (bitmapAt K fs g) i = true := hfull i (by omega) hi
    rw [hclear] at hset
    cases hset
  · obtain ⟨n,data',hn,hclear,hrun,hr⟩ := hfound
    obtain ⟨hC,hsum⟩ := C.take law hg hn hclear hr
    exact ⟨n,_,hrun,flip_of_rewritten law hg hn hclear hr (frozen_afterTake law fs g data') rfl hC,
      law.total_set _ _,hsum⟩

/-- Group, bit and number of a bit correspond. -/
theorem number_lt (hg : g < G) (hn : n < bits K fs) :
    g * bits K fs + n < G * bits K fs := by
  calc g * bits K fs + n < g * bits K fs + bits K fs := by omega
    _ = (g + 1) * bits K fs := by ring
    _ ≤ G * bits K fs := Nat.mul_le_mul_right _ hg

end

section

variable {G : ℕ} {fs fs' : Ext2} {g n : ℕ}

/-- A block allocated by its group: what the caller gets and what changed. -/
def Allocated (G : ℕ) (fs : Ext2) (b g : ℕ) (fs' : Ext2) : Prop :=
  ∃ n, b = 1 + g * fs.superBlock.sBlocksPerGroup + n ∧ Flip blockKind G fs g n true fs' ∧
    blockKind.total fs'.superBlock = (blockKind.total fs.superBlock + (2 ^ 32 - 1)) % 2 ^ 32 ∧
    freeSum blockKind G fs' + 1 = freeSum blockKind G fs

/-- One group either has no free block or hands one out. -/
theorem allocBlockInGroup_spec (C : Counted blockKind G fs) (hg : g < fs.blockGroupCount) :
    (fs.allocBlockInGroup g = (0,fs) ∧ blockKind.freeCount (fs.bgdt g) = 0) ∨
    ∃ b fs', b ≠ 0 ∧ fs.allocBlockInGroup g = (b,fs') ∧ Allocated G fs b g fs' := by
  by_cases hfree : (fs.bgdt g).bgFreeBlocksCount = 0
  · exact .inl ⟨by rw [Ext2.allocBlockInGroup,if_pos hfree],hfree⟩
  · have hgG : g < G := by
      by_contra hge
      exact hfree (C.phantom g hg (by omega))
    obtain ⟨n,fs',hrun,hflip,htotal,hsum⟩ := takeBit_counted lawful_blockKind C hgG hfree
    have hbpg : fs'.superBlock.sBlocksPerGroup = fs.superBlock.sBlocksPerGroup :=
      frozen_eq (f := fun x => x.superBlock.sBlocksPerGroup) (fun _ => rfl) hflip.frozen
    have hlt : g * fs.superBlock.sBlocksPerGroup + n < G * fs.superBlock.sBlocksPerGroup :=
      number_lt hgG hflip.bit
    have hnum : G * fs.superBlock.sBlocksPerGroup < 2 ^ 32 := C.layout.numbers
    refine .inr ⟨1 + g * fs.superBlock.sBlocksPerGroup + n,fs',by omega,?_,n,rfl,hflip,htotal,hsum⟩
    have hrun' : fs.takeBit blockKind g (fs.superBlock.sBlocksPerGroup / 8) 0 = (.bit n,fs') := hrun
    have hmod : (1 + g * fs.superBlock.sBlocksPerGroup + n) % 2 ^ 32 =
        1 + g * fs.superBlock.sBlocksPerGroup + n :=
      Nat.mod_eq_of_lt (by omega)
    simp only [Ext2.allocBlockInGroup,hfree,if_false,hrun',hbpg,hmod]

/-- Trying groups in turn. -/
theorem allocBlockFrom_spec (C : Counted blockKind G fs) (preferred : ℕ) (is : List ℕ) :
    ∀ group, (∀ i ∈ is, i < fs.blockGroupCount) →
    ((fs.allocBlockFrom preferred group is).1 = 0 ∧ (fs.allocBlockFrom preferred group is).2.2 = fs ∧
      ∀ i ∈ is, i ≠ preferred → blockKind.freeCount (fs.bgdt i) = 0) ∨
    ∃ b g fs', b ≠ 0 ∧ fs.allocBlockFrom preferred group is = (b,some g,fs') ∧
      Allocated G fs b g fs' := by
  induction is with
  | nil => intro group _; exact .inl ⟨rfl,rfl,by simp⟩
  | cons i is ih =>
    intro group hall
    have htail : ∀ j ∈ is, j < fs.blockGroupCount := fun j hj => hall j (List.mem_cons_of_mem i hj)
    rw [Ext2.allocBlockFrom]
    by_cases hp : i = preferred
    · rw [if_pos hp]
      rcases ih group htail with ⟨hzero,hsame,hnone⟩ | hfound
      · refine .inl ⟨hzero,hsame,?_⟩
        intro j hj hne
        rcases List.mem_cons.mp hj with rfl | hmem
        · exact absurd hp hne
        · exact hnone j hmem hne
      · exact .inr hfound
    · rw [if_neg hp]
      rcases allocBlockInGroup_spec C (hall i (by simp)) with ⟨hrun,hfree⟩ | ⟨b,fs',hb,hrun,hal⟩
      · simp only [hrun,ne_eq,not_true_eq_false,if_false]
        rcases ih (some i) htail with ⟨hzero,hsame,hnone⟩ | hfound
        · refine .inl ⟨hzero,hsame,?_⟩
          intro j hj hne
          rcases List.mem_cons.mp hj with rfl | hmem
          · exact hfree
          · exact hnone j hmem hne
        · exact .inr hfound
      · refine .inr ⟨b,i,fs',hb,?_,hal⟩
        simp only [hrun,hb,ne_eq,not_false_eq_true,if_true]

/-- A group number a caller may prefer. -/
def Preferable (fs : Ext2) (preferred : ℕ) : Prop :=
  preferred = Ext2.noGroup ∨ preferred < fs.blockGroupCount

instance (fs : Ext2) (preferred : ℕ) : Decidable (Preferable fs preferred) :=
  inferInstanceAs (Decidable (preferred = Ext2.noGroup ∨ preferred < fs.blockGroupCount))

/-- Allocation hands out a block whose bit was clear, or there is none. -/
theorem allocBlock_spec (C : Counted blockKind G fs) {preferred : ℕ} (hp : Preferable fs preferred) :
    ((fs.allocBlock preferred).1 = 0 ∧ (fs.allocBlock preferred).2.2 = fs ∧
      ∀ g < G, blockKind.freeCount (fs.bgdt g) = 0) ∨
    ∃ b g fs', b ≠ 0 ∧ fs.allocBlock preferred = (b,some g,fs') ∧ Allocated G fs b g fs' := by
  have hrange : ∀ i ∈ List.range fs.blockGroupCount, i < fs.blockGroupCount :=
    fun i hi => List.mem_range.mp hi
  have hgroups := C.layout.groups
  rw [Ext2.allocBlock]
  by_cases hno : preferred = Ext2.noGroup
  · rw [if_neg (by simp [hno])]
    rcases allocBlockFrom_spec C preferred _ none hrange with ⟨hzero,hsame,hnone⟩ | hfound
    · refine .inl ⟨hzero,hsame,?_⟩
      intro g hg
      have hnum := C.layout.numbers
      have hle : G ≤ G * bits blockKind fs := Nat.le_mul_of_pos_right G C.layout.nonempty
      exact hnone g (List.mem_range.mpr (by omega)) (by rw [hno,Ext2.noGroup]; omega)
    · exact .inr hfound
  · rw [if_pos hno]
    have hlt : preferred < fs.blockGroupCount := hp.resolve_left hno
    rcases allocBlockInGroup_spec C hlt with ⟨hrun,hfree⟩ | ⟨b,fs',hb,hrun,hal⟩
    · simp only [hrun,ne_eq,not_true_eq_false,if_false]
      rcases allocBlockFrom_spec C preferred _ (some preferred) hrange with
        ⟨hzero,hsame,hnone⟩ | hfound
      · refine .inl ⟨hzero,hsame,?_⟩
        intro g hg
        by_cases hgp : g = preferred
        · rw [hgp]
          exact hfree
        · exact hnone g (List.mem_range.mpr (by omega)) hgp
      · exact .inr hfound
    · refine .inr ⟨b,preferred,fs',hb,?_,hal⟩
      simp only [hrun,hb,ne_eq,not_false_eq_true,if_true]

/-- The group of a block, as the driver numbers them. -/
def groupOf (fs : Ext2) (b : ℕ) : ℕ := (b - 1) / fs.superBlock.sBlocksPerGroup

/-- The bit of a block in its group, as the driver numbers them. -/
def bitOf (fs : Ext2) (b : ℕ) : ℕ := (b - 1) % fs.superBlock.sBlocksPerGroup

/-- A block is in use when the bit that the driver keeps for it is set. -/
def InUse (fs : Ext2) (b : ℕ) : Prop := marked blockKind fs (groupOf fs b) (bitOf fs b) = true

instance (fs : Ext2) (b : ℕ) : Decidable (InUse fs b) :=
  inferInstanceAs (Decidable (marked blockKind fs (groupOf fs b) (bitOf fs b) = true))

/-- Freeing a block that is not in use changes nothing. -/
theorem freeBlock_unused (C : Counted blockKind G fs) {b : ℕ} (hb : b ≠ 0)
    (hG : groupOf fs b < G) (hu : ¬InUse fs b) : fs.freeBlock b = (false,fs) := by
  have hclear : marked blockKind fs (groupOf fs b) (bitOf fs b) = false :=
    Bool.eq_false_of_not_eq_true hu
  have hbit : bitOf fs b < bits blockKind fs := Nat.mod_lt (b - 1) C.layout.nonempty
  have hdrop := dropBit_clear C.layout hG hbit hclear
  rw [groupOf,bitOf] at hdrop
  simp only [Ext2.freeBlock,hb,if_false,hdrop,Bool.not_false,if_true]

/-- Freeing a block in use clears its bit, reports failure and leaves the
superblock's counter. -/
theorem freeBlock_used (C : Counted blockKind G fs) {b : ℕ} (hb : b ≠ 0)
    (hG : groupOf fs b < G) (hu : InUse fs b) :
    ∃ fs', fs.freeBlock b = (false,fs') ∧ Flip blockKind G fs (groupOf fs b) (bitOf fs b) false fs' ∧
      blockKind.total fs'.superBlock = blockKind.total fs.superBlock ∧
      freeSum blockKind G fs' = freeSum blockKind G fs + 1 := by
  have hbit : bitOf fs b < bits blockKind fs := Nat.mod_lt (b - 1) C.layout.nonempty
  obtain ⟨fs1,data',hdrop,hupd,hr⟩ := dropBit_marked lawful_blockKind C.layout hG hbit hu
  obtain ⟨hC,hsum⟩ := C.drop lawful_blockKind hG hbit hu hr
  refine ⟨afterDrop blockKind fs (groupOf fs b) data',?_,flip_of_rewritten lawful_blockKind hG hbit
    hu hr (frozen_afterDrop lawful_blockKind fs _ data') rfl hC,rfl,hsum⟩
  rw [groupOf] at hdrop hupd
  rw [bitOf] at hdrop
  simp only [Ext2.freeBlock,hb,if_false,hdrop,hupd,Bool.not_true,Bool.false_eq_true,if_true,groupOf]

/-- An inode allocated in a group: its number and what changed. -/
def AllocatedINode (G : ℕ) (fs : Ext2) (ino g : ℕ) (fs' : Ext2) : Prop :=
  ∃ n, ino = 1 + g * fs.superBlock.sInodesPerGroup + n ∧ Flip inodeKind G fs g n true fs' ∧
    inodeKind.total fs'.superBlock = (inodeKind.total fs.superBlock + (2 ^ 32 - 1)) % 2 ^ 32 ∧
    freeSum inodeKind G fs' + 1 = freeSum inodeKind G fs

/-- Trying groups in turn for an inode. -/
theorem allocINodeFrom_spec (C : Counted inodeKind G fs) (is : List ℕ)
    (hall : ∀ i ∈ is, i < fs.blockGroupCount) :
    (fs.allocINodeFrom is = (0,none,fs) ∧ ∀ i ∈ is, inodeKind.freeCount (fs.bgdt i) = 0) ∨
    ∃ ino g fs', ino ≠ 0 ∧ fs.allocINodeFrom is = (ino,some g,fs') ∧
      AllocatedINode G fs ino g fs' := by
  induction is with
  | nil => exact .inl ⟨rfl,by simp⟩
  | cons i is ih =>
    have htail : ∀ j ∈ is, j < fs.blockGroupCount := fun j hj => hall j (List.mem_cons_of_mem i hj)
    rw [Ext2.allocINodeFrom]
    by_cases hfree : (fs.bgdt i).bgFreeInodesCount = 0
    · rw [if_pos hfree]
      rcases ih htail with ⟨hrun,hnone⟩ | hfound
      · refine .inl ⟨hrun,?_⟩
        intro j hj
        rcases List.mem_cons.mp hj with rfl | hmem
        · exact hfree
        · exact hnone j hmem
      · exact .inr hfound
    · rw [if_neg hfree]
      have hgG : i < G := by
        by_contra hge
        exact hfree (C.phantom i (hall i (by simp)) (by omega))
      obtain ⟨n,fs',hrun,hflip,htotal,hsum⟩ := takeBit_counted lawful_inodeKind C hgG hfree
      have hipg : fs'.superBlock.sInodesPerGroup = fs.superBlock.sInodesPerGroup :=
        frozen_eq (f := fun x => x.superBlock.sInodesPerGroup) (fun _ => rfl) hflip.frozen
      have hlt : i * fs.superBlock.sInodesPerGroup + n < G * fs.superBlock.sInodesPerGroup :=
        number_lt hgG hflip.bit
      have hnum : G * fs.superBlock.sInodesPerGroup < 2 ^ 32 := C.layout.numbers
      refine .inr ⟨1 + i * fs.superBlock.sInodesPerGroup + n,i,fs',by omega,?_,n,rfl,hflip,htotal,
        hsum⟩
      have hrun' : fs.takeBit inodeKind i (fs.superBlock.sInodesPerGroup / 8) 0 = (.bit n,fs') := hrun
      have hmod : (1 + i * fs.superBlock.sInodesPerGroup + n) % 2 ^ 32 =
          1 + i * fs.superBlock.sInodesPerGroup + n := Nat.mod_eq_of_lt (by omega)
      simp only [hrun',hipg,hmod]

/-- Allocation hands out an inode whose bit was clear, or there is none. -/
theorem allocINode_spec (C : Counted inodeKind G fs) :
    (fs.allocINode = (0,none,fs) ∧ ∀ g < G, inodeKind.freeCount (fs.bgdt g) = 0) ∨
    ∃ ino g fs', ino ≠ 0 ∧ fs.allocINode = (ino,some g,fs') ∧ AllocatedINode G fs ino g fs' := by
  have hgroups := C.layout.groups
  rcases allocINodeFrom_spec C (List.range fs.blockGroupCount) (fun i hi => List.mem_range.mp hi) with
    ⟨hrun,hnone⟩ | hfound
  · exact .inl ⟨hrun,fun g hg => hnone g (List.mem_range.mpr (by omega))⟩
  · exact .inr hfound

/-- The number of blocks in a group puts an inode in the same group and bit as
the number of inodes does. -/
def SamePlace (fs : Ext2) (ino : ℕ) : Prop :=
  fs.superBlock.sInodesPerGroup = fs.superBlock.sBlocksPerGroup ∨
    (ino - 1 < fs.superBlock.sInodesPerGroup ∧ ino - 1 < fs.superBlock.sBlocksPerGroup)

instance (fs : Ext2) (ino : ℕ) : Decidable (SamePlace fs ino) :=
  inferInstanceAs (Decidable (fs.superBlock.sInodesPerGroup = fs.superBlock.sBlocksPerGroup ∨
    (ino - 1 < fs.superBlock.sInodesPerGroup ∧ ino - 1 < fs.superBlock.sBlocksPerGroup)))

/-- Where it does, both divisions agree, and only there. -/
theorem samePlace_iff {ino : ℕ} (hipg : 0 < fs.superBlock.sInodesPerGroup)
    (hbpg : 0 < fs.superBlock.sBlocksPerGroup) :
    SamePlace fs ino ↔
      (ino - 1) / fs.superBlock.sBlocksPerGroup = (ino - 1) / fs.superBlock.sInodesPerGroup ∧
      (ino - 1) % fs.superBlock.sBlocksPerGroup = (ino - 1) % fs.superBlock.sInodesPerGroup := by
  constructor
  · rintro (heq | ⟨hi,hb⟩)
    · rw [heq]
      exact ⟨rfl,rfl⟩
    · rw [Nat.div_eq_of_lt hi,Nat.div_eq_of_lt hb,Nat.mod_eq_of_lt hi,Nat.mod_eq_of_lt hb]
      exact ⟨rfl,rfl⟩
  · rintro ⟨hdiv,hmod⟩
    have h1 := Nat.div_add_mod (ino - 1) fs.superBlock.sBlocksPerGroup
    have h2 := Nat.div_add_mod (ino - 1) fs.superBlock.sInodesPerGroup
    have hm1 := Nat.mod_lt (ino - 1) hbpg
    have hm2 := Nat.mod_lt (ino - 1) hipg
    rw [hdiv,hmod] at h1
    by_cases hzero : (ino - 1) / fs.superBlock.sInodesPerGroup = 0
    · rw [hzero] at h2
      exact .inr ⟨by omega,by omega⟩
    · refine .inl (Nat.eq_of_mul_eq_mul_right (Nat.pos_of_ne_zero hzero) ?_)
      omega

/-- Freeing an inode in the right place: nothing when its bit is clear, else
the bit is cleared and everything counted. -/
theorem freeINode_spec (C : Counted inodeKind G fs) {ino : ℕ} (hino : ino ≠ 0)
    (hbpg : 0 < fs.superBlock.sBlocksPerGroup) (hG : (ino - 1) / fs.superBlock.sInodesPerGroup < G)
    (hplace : SamePlace fs ino) :
    (marked inodeKind fs ((ino - 1) / fs.superBlock.sInodesPerGroup)
        ((ino - 1) % fs.superBlock.sInodesPerGroup) = false ∧ fs.freeINode ino = (false,fs)) ∨
    ∃ fs', fs.freeINode ino = (true,fs') ∧
      Flip inodeKind G fs ((ino - 1) / fs.superBlock.sInodesPerGroup)
        ((ino - 1) % fs.superBlock.sInodesPerGroup) false fs' ∧
      inodeKind.total fs'.superBlock = (inodeKind.total fs.superBlock + 1) % 2 ^ 32 ∧
      freeSum inodeKind G fs' = freeSum inodeKind G fs + 1 := by
  have hipg : 0 < fs.superBlock.sInodesPerGroup := C.layout.nonempty
  obtain ⟨hdiv,hmod⟩ := (samePlace_iff hipg hbpg).mp hplace
  have hbit : (ino - 1) % fs.superBlock.sInodesPerGroup < bits inodeKind fs := Nat.mod_lt _ hipg
  cases hm : marked inodeKind fs ((ino - 1) / fs.superBlock.sInodesPerGroup)
      ((ino - 1) % fs.superBlock.sInodesPerGroup) with
  | false =>
    have hdrop := dropBit_clear C.layout hG hbit hm
    refine .inl ⟨rfl,?_⟩
    simp only [Ext2.freeINode,hino,if_false,hdiv,hmod,hdrop,Bool.not_false,if_true]
  | true =>
    obtain ⟨fs1,data',hdrop,hupd,hr⟩ := dropBit_marked lawful_inodeKind C.layout hG hbit hm
    obtain ⟨hC,hsum⟩ := C.drop lawful_inodeKind hG hbit hm hr
    have hfz := frozen_afterDrop lawful_inodeKind fs ((ino - 1) / fs.superBlock.sInodesPerGroup) data'
    have hfz' : frozen ((afterDrop inodeKind fs ((ino - 1) / fs.superBlock.sInodesPerGroup)
        data').countFree inodeKind) = frozen fs := hfz
    refine .inr ⟨(afterDrop inodeKind fs ((ino - 1) / fs.superBlock.sInodesPerGroup)
      data').countFree inodeKind,?_,?_,rfl,hsum⟩
    · simp only [Ext2.freeINode,hino,if_false,hdiv,hmod,hdrop,hupd,Bool.not_true,
        Bool.false_eq_true]
    · refine flip_of_rewritten lawful_inodeKind hG hbit hm hr hfz' rfl ?_
      exact ⟨hC.layout.of_frozen lawful_inodeKind (hfz'.trans hfz.symm),hC.counted,hC.phantom,
        hC.copies⟩

end

end WootOs.Ext2Allocation
