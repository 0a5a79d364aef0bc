import WootOs.DirectoryListing
import WootOs.Ext2FileMaps
import WootOs.Ext2Files
import WootOs.Runs

/-!
# Files of an ext2 volume as byte strings

A file without holes has a block for each block's length of its size and for no
more. Reading, writing and resizing such files, in any order and several of them
on one volume, is reading, overwriting, extending and cutting byte strings, within
the range that the driver looks up right. Cutting must not give up the first block
of a pointer table, because the table is then taken for empty too early.
-/

namespace WootOs.Ext2FileContents

open ByteStore MachineInt Ext2Driver Ext2Groups Ext2Allocation Ext2AllocationRuns Ext2BlockMap
  Ext2Directory Ext2FileMaps Runs

/-- A block with contents of a file. -/
def InFile (block : ℕ → ℕ) (b : ℕ) : Prop := b ≠ 0 ∧ ∃ n,block n = b

/-- A file whose blocks and tables are its own. -/
structure Owns (k B G : ℕ) (fs : Ext2) (inode : FSINode) (block : ℕ → ℕ) (table : Table → ℕ)
    (other : ℕ → Prop) : Prop where
  /-- Its map, apart from all blocks with contents. -/
  stands : Stands k B G fs inode block table fun b => other b ∨ InFile block b
  /-- Its blocks are different. -/
  distinct : ∀ n m,block n ≠ 0 → block n = block m → n = m
  /-- None of them is another file's. -/
  spared : ∀ n,block n ≠ 0 → ¬other (block n)

/-- The range that the driver looks up right, below 4 GiB. -/
def Within (B : ℕ) (fs : Ext2) (stop : ℕ) : Prop :=
  stop ≤ fs.blockSize * (12 + B ^ 2) ∧ stop + fs.blockSize ≤ 2 ^ 32

/-- A file without holes. -/
structure Stored (k B G : ℕ) (fs : Ext2) (inode : FSINode) (block : ℕ → ℕ) (table : Table → ℕ)
    (other : ℕ → Prop) : Prop extends Owns k B G fs inode block table other where
  /-- Its size is in range. -/
  within : Within B fs (fs.getSize inode)
  /-- It has a block for each block's length of its size. -/
  mapped : ∀ n,block n ≠ 0 ↔ n * fs.blockSize < fs.getSize inode

/-- The bytes in the blocks of a file. -/
def stored (fs : Ext2) (block : ℕ → ℕ) : Store := fun p =>
  fs.volume.data (fs.blockSize * block (p / fs.blockSize) + p % fs.blockSize)

section Sizes

variable {fs fs' : Ext2} {inode : FSINode} {s : ℕ}

/-- Below 4 GiB the size is its low word. -/
theorem iSize_eq (h : fs.getSize inode < 2 ^ 32) : inode.iSize = fs.getSize inode := by
  rw [Ext2.getSize] at h ⊢
  split
  · rfl
  · next hrev =>
    rw [if_neg hrev] at h
    split
    · next hreg =>
      rw [if_pos hreg] at h
      have hle : inode.iDirAcl <<< 32 ≤ inode.iSize ||| inode.iDirAcl <<< 32 := Nat.right_le_or
      have hzero : inode.iDirAcl = 0 := by
        rw [Nat.shiftLeft_eq] at hle h
        by_contra hne
        have hone : 1 * 2 ^ 32 ≤ inode.iDirAcl * 2 ^ 32 :=
          Nat.mul_le_mul_right _ (Nat.one_le_iff_ne_zero.mpr hne)
        omega
      rw [hzero,Nat.zero_shiftLeft,Nat.or_zero]
    · rw [Nat.or_zero]

/-- A size that was set is read back. -/
theorem getSize_setSize (h : s < 2 ^ 32) : fs.getSize (fs.setSize inode s) = s := by
  have hlow : s % 2 ^ 32 = s := Nat.mod_eq_of_lt h
  have hhigh : s >>> 32 = 0 := by rw [Nat.shiftRight_eq_div_pow,Nat.div_eq_of_lt h]
  rw [Ext2.getSize,Ext2.setSize]
  split
  · exact hlow
  · next hrev =>
    simp only [hlow,hhigh,Nat.zero_mod]
    split
    · simp
    · simp

theorem getSize_frozen (h : frozen fs' = frozen fs) : fs'.getSize inode = fs.getSize inode :=
  frozen_eq (f := (Ext2.getSize · inode)) (fun _ => rfl) h

theorem iBlock_setSize : (fs.setSize inode s).iBlock = inode.iBlock := by
  rw [Ext2.setSize]
  split <;> rfl

end Sizes

section Lookups

variable {k B G n : ℕ} {fs : Ext2} {inode : FSINode} {block : ℕ → ℕ} {table : Table → ℕ}
  {other : ℕ → Prop}

/-- The driver's lookup by the tables of a file. -/
theorem lookup_eq (S : Stands k B G fs inode block table other) (hn : n < 12 + B ^ 2) :
    fs.getINodeBlock inode n = if n < 12 then block n
      else if n < 12 + B then entry fs.volume.data fs.blockSize (table .single) (n - 12)
      else entry fs.volume.data fs.blockSize
        (entry fs.volume.data fs.blockSize (table .double) ((n - (12 + B)) / B))
        ((n - (12 + B)) % B) := by
  rw [getINodeBlock_eq_chase S.ready.mounted,if_pos (.inr hn),driverPath]
  by_cases h1 : n < 12
  · simp only [if_pos h1,chase]
    exact S.laid.direct n h1
  · by_cases h2 : n < 12 + B
    · simp only [if_neg h1,if_pos h2,chase,S.laid.single]
    · simp only [if_neg h1,if_neg h2,if_pos hn,chase,S.laid.double]

/-- Indices of the double range. -/
theorem double_index (hB : 0 < B) (hl : 12 + B ≤ n) (hn : n < 12 + B ^ 2) :
    (n - (12 + B)) / B < B ∧ (n - (12 + B)) % B < B ∧
    12 + B + (n - (12 + B)) / B * B + (n - (12 + B)) % B = n := by
  have hsplit := Nat.div_add_mod' (n - (12 + B)) B
  refine ⟨?_,Nat.mod_lt _ hB,by omega⟩
  rw [Nat.div_lt_iff_lt_mul hB,← pow_two]
  omega

/-- A block that is there is found. -/
theorem lookup_there (S : Stands k B G fs inode block table other) (hn : n < 12 + B ^ 2)
    (hne : block n ≠ 0) : fs.getINodeBlock inode n = block n := by
  have hB := S.ready.mounted.large
  rw [lookup_eq S hn]
  by_cases h1 : n < 12
  · rw [if_pos h1]
  · rw [if_neg h1]
    by_cases h2 : n < 12 + B
    · have hpointer : pointer B block table .single (n - 12) = block n := by
        rw [pointer,show 12 + (n - 12) = n by omega]
      have htable : table .single ≠ 0 := fun h =>
        hne (hpointer.symm.trans (S.laid.holes _ h (n - 12) (by omega)))
      rw [if_pos h2,S.laid.entries _ htable _ (by omega),hpointer]
    · obtain ⟨hi,hj,hsplit⟩ := double_index (by omega) (by omega : 12 + B ≤ n) hn
      have hpointer : pointer B block table (.child ((n - (12 + B)) / B)) ((n - (12 + B)) % B) =
          block n := by rw [pointer,hsplit]
      have hchild : table (.child ((n - (12 + B)) / B)) ≠ 0 := fun h =>
        hne (hpointer.symm.trans (S.laid.holes _ h _ hj))
      have hdouble : table .double ≠ 0 := fun h => hchild (S.laid.holes _ h _ hi)
      rw [if_neg h2,S.laid.entries _ hdouble _ hi,pointer,S.laid.entries _ hchild _ hj,hpointer]

/-- The first block that is not there is not found: where a table is missing the
driver looks at the start of the boot block. -/
theorem lookup_next (S : Stands k B G fs inode block table other) (hn : n < 12 + B ^ 2)
    (hzero : block n = 0) (hbelow : ∀ m < n,block m ≠ 0) : fs.getINodeBlock inode n = 0 := by
  have hB := S.ready.mounted.large
  have hboot := S.ready.boot
  rw [lookup_eq S hn]
  by_cases h1 : n < 12
  · rw [if_pos h1,hzero]
  · rw [if_neg h1]
    by_cases h2 : n < 12 + B
    · rw [if_pos h2]
      by_cases htable : table .single = 0
      · have hfirst : n = 12 := by
          by_contra hne
          exact hbelow 12 (by omega) (S.laid.holes _ htable 0 (by omega))
        rw [htable,hfirst]
        exact hboot
      · rw [S.laid.entries _ htable _ (by omega),pointer,show 12 + (n - 12) = n by omega,hzero]
    · rw [if_neg h2]
      obtain ⟨hi,hj,hsplit⟩ := double_index (by omega) (by omega : 12 + B ≤ n) hn
      -- a missing table has all its blocks missing, the first one too
      have hlead : table (.child ((n - (12 + B)) / B)) = 0 → (n - (12 + B)) % B = 0 := by
        intro h
        by_contra hne
        have hhole := S.laid.holes _ h 0 (by omega)
        exact hbelow _ (by omega) hhole
      by_cases hdouble : table .double = 0
      · have hfirst : n = 12 + B := by
          by_contra hne
          have hchild := S.laid.holes _ hdouble 0 (by omega)
          have hhole := S.laid.holes _ hchild 0 (by omega)
          rw [pointer,show 12 + B + 0 * B + 0 = 12 + B by omega] at hhole
          exact hbelow (12 + B) (by omega) hhole
        rw [hdouble,hfirst,Nat.sub_self,Nat.zero_div,Nat.zero_mod,hboot,hboot]
      · rw [S.laid.entries _ hdouble _ hi,pointer]
        by_cases hchild : table (.child ((n - (12 + B)) / B)) = 0
        · rw [hchild,hlead hchild]
          exact hboot
        · rw [S.laid.entries _ hchild _ hj,pointer,hsplit,hzero]

end Lookups

section Files

variable {k B G n : ℕ} {fs fs' : Ext2} {inode inode' : FSINode} {block : ℕ → ℕ}
  {table : Table → ℕ} {other : ℕ → Prop} {pos : ℕ}

theorem Within.mono {stop stop' : ℕ} (h : Within B fs stop) (hle : stop' ≤ stop) :
    Within B fs stop' := by
  rw [Within] at h ⊢
  omega

theorem Within.lt {stop : ℕ} (h : Within B fs stop) (hpos : 0 < fs.blockSize) : stop < 2 ^ 32 := by
  rw [Within] at h
  omega

/-- A position below the end of the range is in a block that is looked up right. -/
theorem Within.index {stop : ℕ} (h : Within B fs stop) (hpos : pos < stop) :
    pos / fs.blockSize < 12 + B ^ 2 :=
  Nat.div_lt_of_lt_mul (Nat.lt_of_lt_of_le hpos h.1)

theorem Within.frozen {stop : ℕ} (h : Within B fs stop) (hframe : frozen fs' = frozen fs) :
    Within B fs' stop := by
  rw [Within,frozen_blockSize hframe]
  exact h

/-- A position below the size has a block. -/
theorem Stored.there (F : Stored k B G fs inode block table other) (hpos : pos < fs.getSize inode) :
    block (pos / fs.blockSize) ≠ 0 :=
  (F.mapped _).mpr (Nat.lt_of_le_of_lt (Nat.div_mul_le_self _ _) hpos)

/-- What the driver reads are the bytes of the file's blocks. -/
theorem Stored.content_eq (F : Stored k B G fs inode block table other)
    (hpos : pos < fs.getSize inode) : content fs inode pos = stored fs block pos := by
  rw [content,stored,lookup_there F.stands (F.within.index hpos) (F.there hpos),Nat.mul_comm]

/-- All its bytes can be read. -/
theorem Stored.readable (F : Stored k B G fs inode block table other) : Mapped fs inode := by
  have hlarge := F.stands.ready.blockSize_large
  refine ⟨F.stands.ready.mounted.infallible,by omega,F.within.lt (by omega),fun m hm => ?_⟩
  have hthere := (F.mapped m).mpr hm
  have hrange : m < 12 + B ^ 2 := by
    have hlt := Nat.lt_of_lt_of_le hm F.within.1
    rw [Nat.mul_comm] at hlt
    exact Nat.lt_of_mul_lt_mul_left hlt
  rw [lookup_there F.stands hrange hthere]
  exact hthere

/-- Blocks of a file that kept their bytes. -/
theorem stored_same (hframe : frozen fs' = frozen fs) (hpos : 0 < fs.blockSize)
    (hsame : SameBlock fs fs' (block (pos / fs.blockSize))) :
    stored fs' block pos = stored fs block pos := by
  rw [stored,frozen_blockSize hframe]
  exact hsame _ (Nat.mod_lt _ hpos)

/-- Writing inside one block of a file. -/
theorem Owns.write (F : Owns k B G fs inode block table other) (src : List UInt8)
    (hthere : block (pos / fs.blockSize) ≠ 0)
    (hsrc : pos % fs.blockSize + src.length ≤ fs.blockSize) :
    Owns k B G (fs.withData (patch fs.volume.data
      (fs.blockSize * block (pos / fs.blockSize) + pos % fs.blockSize) src)) inode block table
      other ∧
    Moved fs (fs.withData (patch fs.volume.data
      (fs.blockSize * block (pos / fs.blockSize) + pos % fs.blockSize) src)) other ∧
    ∀ p,block (p / fs.blockSize) ≠ 0 → stored (fs.withData (patch fs.volume.data
      (fs.blockSize * block (pos / fs.blockSize) + pos % fs.blockSize) src)) block p =
        patch (stored fs block) pos src p := by
  have hlarge := F.stands.ready.blockSize_large
  have hin : InFile block (block (pos / fs.blockSize)) := ⟨hthere,_,rfl⟩
  obtain ⟨hkeeps,hlent⟩ := F.stands.ready.write (F.stands.others _ (.inr hin))
    (fs.blockSize * block (pos / fs.blockSize) + pos % fs.blockSize) src (by omega) (by omega)
  have htable : ∀ a,table a ≠ block (pos / fs.blockSize) :=
    fun a h => F.stands.apart a (.inr (h ▸ hin))
  have S : Stands k B G _ inode block table fun b => (other b ∨ InFile block b) ∧
      b ≠ block (pos / fs.blockSize) :=
    F.stands.keeps hkeeps (fun a ha => ⟨F.stands.tables a ha,htable a⟩)
      fun b hb => ⟨hb.1,F.stands.others b hb.1,hb.2⟩
  refine ⟨⟨(S.more hlent htable).fewer fun b hb => ?_,F.distinct,F.spared⟩,hkeeps.moved fun b hb =>
    ⟨F.stands.others b (.inl hb),fun h => F.spared _ hthere (h ▸ hb)⟩,fun p hp => ?_⟩
  · by_cases heq : b = block (pos / fs.blockSize)
    · exact .inr heq
    · exact .inl ⟨hb,heq⟩
  · have hmodp := Nat.mod_lt p (by omega : 0 < fs.blockSize)
    have hsplit := Nat.div_add_mod p fs.blockSize
    have hsplit' := Nat.div_add_mod pos fs.blockSize
    show patch fs.volume.data (fs.blockSize * block (pos / fs.blockSize) + pos % fs.blockSize) src
      (fs.blockSize * block (p / fs.blockSize) + p % fs.blockSize) = _
    by_cases hsame : p / fs.blockSize = pos / fs.blockSize
    · rw [hsame] at hsplit ⊢
      by_cases hr : pos ≤ p ∧ p < pos + src.length
      · rw [patch_in (by omega) (by omega),patch_in hr.1 hr.2]
        congr 1
        omega
      · rw [patch_out (by omega),patch_out (by omega),stored,hsame]
    · have hne : block (p / fs.blockSize) ≠ block (pos / fs.blockSize) :=
        fun h => hsame (F.distinct _ _ hp h)
      have hap := block_apart hne fs.blockSize
      have hap' := block_apart hsame fs.blockSize
      rw [patch_out (by omega),patch_out (by omega),stored]

/-- The file after a change of its blocks that goes with its size. -/
theorem Owns.sized (O : Owns k B G fs inode block table other)
    (hblock : inode'.iBlock = inode.iBlock) (hwithin : Within B fs (fs.getSize inode'))
    (hmapped : ∀ n,block n ≠ 0 ↔ n * fs.blockSize < fs.getSize inode') :
    Stored k B G fs inode' block table other :=
  ⟨⟨O.stands.withINode hblock,O.distinct,O.spared⟩,hwithin,hmapped⟩

/-- A file with a new block. -/
theorem Owns.append (O : Owns k B G fs inode block table other) {b : ℕ} {table' : Table → ℕ}
    (hb : b ≠ 0) (hother : ¬(other b ∨ InFile block b))
    (S : Stands k B G fs' inode' (Function.update block n b) table'
      fun c => (other c ∨ InFile block c) ∨ c = b) :
    Owns k B G fs' inode' (Function.update block n b) table' other := by
  have hfresh : ∀ m,block m ≠ b := fun m h => hother (.inr ⟨hb,m,h⟩)
  refine ⟨S.fewer ?_,distinct_update O.distinct hfresh n,fun m hm hc => ?_⟩
  · rintro c (hc | ⟨hc,m,hm⟩)
    · exact .inl (.inl hc)
    · rcases eq_or_ne m n with rfl | hne
      · rw [Function.update_self] at hm
        exact .inr hm.symm
      · rw [Function.update_of_ne hne] at hm
        exact .inl (.inr ⟨hc,m,hm⟩)
  · rcases eq_or_ne m n with rfl | hne
    · rw [Function.update_self] at hc
      exact hother (.inl hc)
    · rw [Function.update_of_ne hne] at hm hc
      exact O.spared m hm hc

/-- The new block goes with a size within it. -/
theorem mapped_append {b bs size : ℕ} (hmapped : ∀ m,block m ≠ 0 ↔ m * bs < n * bs) (hb : b ≠ 0)
    (hlow : n * bs < size) (hhigh : size ≤ (n + 1) * bs) (m : ℕ) :
    Function.update block n b m ≠ 0 ↔ m * bs < size := by
  rcases Nat.lt_trichotomy m n with hm | rfl | hm
  · rw [Function.update_of_ne hm.ne,hmapped]
    have hle := Nat.mul_le_mul_right bs hm.le
    have hpos : 0 < bs := by
      by_contra hzero
      rw [Nat.eq_zero_of_not_pos hzero] at hlow hhigh
      omega
    exact ⟨fun h => h.trans hlow,fun _ => Nat.mul_lt_mul_of_pos_right hm hpos⟩
  · rw [Function.update_self]
    exact ⟨fun _ => hlow,fun _ => hb⟩
  · rw [Function.update_of_ne hm.ne',hmapped]
    have hge := Nat.mul_le_mul_right bs (Nat.succ_le_of_lt hm)
    rw [Nat.succ_eq_add_one] at hge
    omega

/-- In its table all blocks before the new one are there. -/
theorem anchored_update {b : ℕ} (hbelow : ∀ m < n,block m ≠ 0) (hb : b ≠ 0) :
    Anchored B (Function.update block n b) n := by
  have hup : ∀ m ≤ n,Function.update block n b m ≠ 0 := by
    intro m hm
    rcases Nat.eq_or_lt_of_le hm with rfl | hm
    · rwa [Function.update_self]
    · rw [Function.update_of_ne hm.ne]
      exact hbelow m hm
  exact fun _ => ⟨hup _ (Nat.sub_le _ _),fun h => hup _ h⟩

/-- The size when a new block is added for some more bytes. -/
theorem getSize_append {left : ℕ} (hbs : fs'.blockSize = fs.blockSize)
    (hold : inode.iSize = n * fs.blockSize) (hlt : n * fs.blockSize + left < 2 ^ 32) :
    fs'.getSize ((fs'.setSize inode (min ((n + 1) * fs'.blockSize) (inode.iSize + left))).countBlock
      fs'.blockUnits) = n * fs.blockSize + min left fs.blockSize := by
  have hset : fs'.getSize ((fs'.setSize inode (min ((n + 1) * fs'.blockSize)
      (inode.iSize + left))).countBlock fs'.blockUnits) =
      min ((n + 1) * fs'.blockSize) (inode.iSize + left) := by
    refine getSize_setSize ?_
    rw [hold]
    omega
  rw [hset,hold,hbs,Nat.add_mul,Nat.one_mul]
  omega

/-- Finding the block of a position, or a new one at the end of the file. -/
theorem mapBlock_spec (F : Stored k B G fs inode block table other) {left : ℕ}
    (hpos : pos ≤ fs.getSize inode) (hleft : 0 < left) (hend : Within B fs (pos + left)) :
    (∃ fs' inode' table',fs.mapBlock inode pos left = (0,fs',inode') ∧
      Stored k B G fs' inode' block table' other ∧
      Moved fs fs' (fun b => other b ∨ InFile block b) ∧
      fs'.getSize inode' = fs.getSize inode ∧ freeSum blockKind G fs' ≤ 1) ∨
    ∃ fs' inode' block' table',fs.mapBlock inode pos left =
        (block' (pos / fs.blockSize),fs',inode') ∧ block' (pos / fs.blockSize) ≠ 0 ∧
      Stored k B G fs' inode' block' table' other ∧
      Moved fs fs' (fun b => other b ∨ InFile block b) ∧
      (∀ m,block m ≠ 0 → block' m = block m) ∧
      max (fs'.getSize inode') (pos + min left (fs.blockSize - pos % fs.blockSize)) =
        max (fs.getSize inode) (pos + min left (fs.blockSize - pos % fs.blockSize)) := by
  have hlarge := F.stands.ready.blockSize_large
  have hn := Within.index hend (show pos < pos + left by omega)
  have hlt := hend.lt (by omega)
  have hlow : pos / fs.blockSize % 2 ^ 32 = pos / fs.blockSize :=
    Nat.mod_eq_of_lt ((Nat.div_le_self pos fs.blockSize).trans_lt (by omega))
  by_cases hthere : block (pos / fs.blockSize) = 0
  · -- the file ends where its last block does, and a new block starts there
    have hle : fs.getSize inode ≤ pos / fs.blockSize * fs.blockSize := by
      by_contra hgt
      exact (F.mapped _).mpr (by omega) hthere
    have hsplit := Nat.div_add_mod' pos fs.blockSize
    have hsize : fs.getSize inode = pos / fs.blockSize * fs.blockSize := by omega
    have hmod : pos % fs.blockSize = 0 := by omega
    have hmapped : ∀ m,block m ≠ 0 ↔ m * fs.blockSize < pos / fs.blockSize * fs.blockSize :=
      fun m => by rw [F.mapped,hsize]
    have hbelow : ∀ m < pos / fs.blockSize,block m ≠ 0 := fun m hm =>
      (hmapped m).mpr (Nat.mul_lt_mul_of_pos_right hm (by omega))
    have hlookup := lookup_next F.stands hn hthere hbelow
    rcases F.stands.ready.alloc with ⟨hzero,hsame,hsum⟩ | ⟨b,g,fs1,hrun,hfree,hb,hkeeps,hsum⟩
    · refine .inl ⟨fs,inode,table,?_,F,Moved.refl _ _,rfl,by omega⟩
      simp only [Ext2.mapBlock,hlow,hlookup,ne_eq,not_true_eq_false,if_false,hzero,hsame,if_true]
    · obtain ⟨hnew,hother⟩ := F.stands.fresh hfree hb.ne_zero
      have S1 : Stands k B G fs1 inode block table fun b => other b ∨ InFile block b :=
        F.stands.keeps hkeeps F.stands.tables fun c hc => ⟨hc,F.stands.others c hc⟩
      obtain ⟨fs2,f,d,table2,hmoved,⟨hset,S2⟩ | ⟨hset,S2,-,hsum2⟩⟩ :=
        setINodeBlock_spec (S1.more hb hnew) hn (hkeeps.ready.number_lt hb.group)
          (anchored_update hbelow hb.ne_zero)
      · have hframe := hmoved.frozen.trans hkeeps.frozen
        have hold : inode.iSize = pos / fs.blockSize * fs.blockSize := by
          rw [iSize_eq (F.within.lt (by omega)),hsize]
        set grown : FSINode := (fs2.setSize { inode with iBlock := f, dirty := d }
          (min ((pos / fs.blockSize + 1) * fs2.blockSize) (inode.iSize + left))).countBlock
          fs2.blockUnits
        have hgrown : fs2.getSize grown =
            pos / fs.blockSize * fs.blockSize + min left fs.blockSize :=
          getSize_append (frozen_blockSize hframe) hold (by omega)
        have F2 : Stored k B G fs2 grown (Function.update block (pos / fs.blockSize) b) table2
            other := by
          refine (F.append hb.ne_zero hother S2).sized iBlock_setSize ?_ ?_
          · rw [hgrown]
            exact (hend.frozen hframe).mono (by omega)
          · rw [hgrown,frozen_blockSize hframe]
            refine mapped_append hmapped hb.ne_zero (by omega) ?_
            rw [Nat.add_mul,Nat.one_mul]
            omega
        refine .inr ⟨fs2,grown,Function.update block (pos / fs.blockSize) b,table2,?_,?_,F2,
          (hkeeps.moved F.stands.others).trans (hmoved.mono fun c hc => .inl hc),fun m hm => ?_,?_⟩
        · rw [Function.update_self]
          simp only [Ext2.mapBlock,hlow,hlookup,ne_eq,not_true_eq_false,if_false,hrun,
            if_neg hb.ne_zero,hset,Bool.not_true,Bool.false_eq_true]
          rfl
        · rw [Function.update_self]
          exact hb.ne_zero
        · refine Function.update_of_ne ?_ _ _
          rintro rfl
          exact hm hthere
        · rw [hgrown,hsize,hmod]
          omega
      · obtain ⟨fs3,hrun3,hkeeps3,hsum3⟩ := S2.ready.free (S2.others b (.inr rfl))
        have hframe := (hkeeps3.frozen.trans hmoved.frozen).trans hkeeps.frozen
        have hothers : ∀ c,other c ∨ InFile block c → Lent G fs2 c ∧ c ≠ b := fun c hc =>
          ⟨S2.others c (.inl hc),fun h => hother (h ▸ hc)⟩
        have S3 : Stands k B G fs3 { inode with iBlock := f, dirty := d } block table2
            fun c => other c ∨ InFile block c :=
          S2.keeps hkeeps3 (fun a ha => ⟨S2.tables a ha,fun h => S2.apart a (.inr h)⟩)
            fun c hc => ⟨.inl hc,hothers c hc⟩
        have hsame : fs3.getSize { inode with iBlock := f, dirty := d } = fs.getSize inode :=
          getSize_frozen hframe
        refine .inl ⟨fs3,{ inode with iBlock := f, dirty := d },table2,?_,⟨⟨S3,F.distinct,F.spared⟩,
          ?_,?_⟩,((hkeeps.moved F.stands.others).trans (hmoved.mono fun c hc => .inl hc)).trans
          (hkeeps3.moved hothers),hsame,by omega⟩
        · simp only [Ext2.mapBlock,hlow,hlookup,ne_eq,not_true_eq_false,if_false,hrun,
            if_neg hb.ne_zero,hset,Bool.not_false,if_true,hrun3]
        · rw [hsame]
          exact F.within.frozen hframe
        · intro m
          rw [hsame,frozen_blockSize hframe]
          exact F.mapped m
  · have hlookup := lookup_there F.stands hn hthere
    refine .inr ⟨fs,inode,block,table,?_,hthere,F,Moved.refl _ _,fun _ _ => rfl,rfl⟩
    simp only [Ext2.mapBlock,hlow,hlookup,ne_eq,hthere,not_false_eq_true,if_true]

/-- Noting the time of a write in the superblock. -/
theorem Owns.touch (O : Owns k B G fs inode block table other) (t : ℕ) :
    Owns k B G (fs.touch t) inode block table other := by
  have R := O.stands.ready
  have hkeeps : Keeps k B G fs (fs.touch t) (Lent G fs) :=
    ⟨⟨⟨R.mounted.toTableBounds,R.mounted.size,R.mounted.infallible⟩,
      ⟨R.counted.layout.of_frozen lawful_blockKind (show frozen (fs.touch t) = frozen fs from rfl),
        R.counted.counted,R.counted.phantom,R.counted.copies⟩,R.reach,R.boot,R.bitmaps,R.fenced⟩,
      rfl,fun b hb => ⟨hb.ne_zero,hb.group,hb.spare,hb.used⟩,fun _ _ _ _ => rfl⟩
  exact ⟨O.stands.keeps hkeeps O.stands.tables fun b hb => ⟨hb,O.stands.others b hb⟩,O.distinct,
    O.spared⟩

/-- A patch that is the same over two stores that agree outside it. -/
theorem patch_congr {c c' : Store} {p start : ℕ} {src : List UInt8}
    (h : (start ≤ p ∧ p < start + src.length) ∨ c p = c' p) :
    patch c start src p = patch c' start src p := by
  by_cases hin : start ≤ p ∧ p < start + src.length
  · rw [patch_in hin.1 hin.2,patch_in hin.1 hin.2]
  · rw [patch_out (by omega),patch_out (by omega)]
    exact h.resolve_left hin

/-- Two patches, one behind the other. -/
theorem patch_two {c c' : Store} {buf : List UInt8} {m r p : ℕ} (hm : (buf.take m).length = m)
    (hr : ((buf.drop m).take r).length = r)
    (h : ¬(pos + m ≤ p ∧ p < pos + m + r) → c' p = patch c pos (buf.take m) p) :
    patch c' (pos + m) ((buf.drop m).take r) p = patch c pos (buf.take (m + r)) p := by
  rw [List.take_add,← patch_append,hm]
  refine patch_congr ?_
  rw [hr]
  exact or_iff_not_imp_left.mpr h

/-- A write into a block of a file, and the size that goes with it. -/
theorem Stored.fill {t : ℕ} (F : Stored k B G fs inode block table other) {src : List UInt8}
    (hthere : block (pos / fs.blockSize) ≠ 0)
    (hfit : pos % fs.blockSize + src.length ≤ fs.blockSize)
    (hend : Within B fs (pos + src.length))
    (hfs : fs' = (fs.withData (patch fs.volume.data
      (fs.blockSize * block (pos / fs.blockSize) + pos % fs.blockSize) src)).touch t)
    (hinode : inode' = fs'.setSize (inode.setModifyTime t)
      (max (pos + src.length) (fs'.getSize (inode.setModifyTime t)))) :
    Stored k B G fs' inode' block table other ∧ Moved fs fs' other ∧
      fs'.getSize inode' = max (fs.getSize inode) (pos + src.length) ∧
      ∀ p,block (p / fs.blockSize) ≠ 0 → stored fs' block p = patch (stored fs block) pos src p := by
  have hlarge := F.stands.ready.blockSize_large
  obtain ⟨O,hmoved,hbytes⟩ := F.toOwns.write src hthere hfit
  have O' : Owns k B G fs' inode block table other := hfs ▸ O.touch t
  have hframe : frozen fs' = frozen fs := by rw [hfs]; rfl
  have hbs := frozen_blockSize hframe
  have hsize : fs'.getSize inode' = max (fs.getSize inode) (pos + src.length) := by
    have hold : fs'.getSize (inode.setModifyTime t) = fs.getSize inode := getSize_frozen hframe
    have hlt := F.within.lt (by omega)
    have hlt' := hend.lt (by omega)
    rw [hinode,hold,getSize_setSize (by omega)]
    exact Nat.max_comm _ _
  refine ⟨O'.sized (hinode ▸ iBlock_setSize) ?_ fun n => ?_,?_,hsize,?_⟩
  · rw [hsize]
    rcases Nat.le_total (fs.getSize inode) (pos + src.length) with h | h
    · rw [Nat.max_eq_right h]
      exact hend.frozen hframe
    · rw [Nat.max_eq_left h]
      exact F.within.frozen hframe
  · rw [hsize,hbs,F.mapped,lt_max_iff]
    refine ⟨.inl,fun h => h.elim id fun hlt => ?_⟩
    -- the bytes end in the block of the position, which the file has
    have hlast := (F.mapped _).mp hthere
    have hsplit := Nat.div_add_mod' pos fs.blockSize
    have hn : n ≤ pos / fs.blockSize := by
      by_contra hgt
      have hmul := Nat.mul_le_mul_right fs.blockSize (Nat.succ_le_of_lt (not_le.mp hgt))
      rw [Nat.succ_mul] at hmul
      omega
    exact (Nat.mul_le_mul_right fs.blockSize hn).trans_lt hlast
  · rw [hfs]
    exact ⟨rfl,hmoved.same⟩
  · rw [hfs]
    exact hbytes

/-- Filling a file from a position within it writes a prefix of the bytes given,
and all of them unless hardly a block is left. -/
theorem fillLoop_spec {t : ℕ} (rounds : ℕ) (pos : ℕ) (buf : List UInt8)
    (F : Stored k B G fs inode block table other) (hpos : pos ≤ fs.getSize inode)
    (hend : Within B fs (pos + buf.length)) (hrounds : buf.length ≤ rounds) :
    ∃ r fs' inode' block' table',r ≤ buf.length ∧
      Ext2.fillLoop t rounds fs inode pos buf = ⟨0,false,buf.length - r,fs',inode'⟩ ∧
      Stored k B G fs' inode' block' table' other ∧ Moved fs fs' other ∧
      fs'.getSize inode' = max (fs.getSize inode) (pos + r) ∧
      (∀ p < fs'.getSize inode',stored fs' block' p = patch (stored fs block) pos (buf.take r) p) ∧
      (r < buf.length → freeSum blockKind G fs' ≤ 1) := by
  have hlarge := F.stands.ready.blockSize_large
  induction rounds generalizing fs inode block table pos buf with
  | zero =>
    obtain rfl : buf = [] := List.length_eq_zero_iff.mp (by omega)
    exact ⟨0,fs,inode,block,table,le_rfl,rfl,F,Moved.refl _ _,by simp [hpos],by simp,by simp⟩
  | succ rounds ih =>
    by_cases hempty : buf = []
    · subst hempty
      exact ⟨0,fs,inode,block,table,le_rfl,by simp [Ext2.fillLoop],F,Moved.refl _ _,
        by simp [hpos],by simp,by simp⟩
    have hleft : 0 < buf.length := List.length_pos_iff.mpr hempty
    have hmod := Nat.mod_lt pos (by omega : 0 < fs.blockSize)
    rcases mapBlock_spec F hpos hleft hend with ⟨fs1,inode1,table1,hrun,F1,hmoved,hsize,hsum⟩ |
      ⟨fs1,inode1,block1,table1,hrun,hthere,F1,hmoved,hkept,hsize⟩
    · refine ⟨0,fs1,inode1,block,table1,Nat.zero_le _,?_,F1,hmoved.mono fun b hb => .inl hb,?_,?_,
        fun _ => hsum⟩
      · simp only [Ext2.fillLoop,if_neg hempty,hrun,if_true,Nat.sub_zero]
      · rw [hsize]
        omega
      · intro p hp
        rw [List.take_zero,patch_nil]
        rw [hsize] at hp
        exact stored_same hmoved.frozen (by omega) (hmoved.same _ (.inr ⟨F.there hp,_,rfl⟩))
    · set m := min buf.length (fs.blockSize - pos % fs.blockSize) with hm
      have hbs1 := frozen_blockSize hmoved.frozen
      obtain ⟨hmle,hfit,hmpos⟩ : m ≤ buf.length ∧ pos % fs.blockSize + m ≤ fs.blockSize ∧ 0 < m := by
        omega
      have htake : (buf.take m).length = m := List.length_take_of_le hmle
      have hdrop : (buf.drop m).length = buf.length - m := List.length_drop
      obtain ⟨fs2,hfs2⟩ : ∃ fs2,fs2 = (fs1.withData (patch fs1.volume.data
          (fs1.blockSize * block1 (pos / fs1.blockSize) + pos % fs1.blockSize)
          (buf.take m))).touch t := ⟨_,rfl⟩
      obtain ⟨inode2,hinode2⟩ : ∃ inode2,inode2 = fs2.setSize (inode1.setModifyTime t)
          (max (pos + (buf.take m).length) (fs2.getSize (inode1.setModifyTime t))) := ⟨_,rfl⟩
      obtain ⟨F2,hmoved2,hsize2,hbytes⟩ := F1.fill (hbs1 ▸ hthere) (by rwa [hbs1,htake])
        ((hend.frozen hmoved.frozen).mono (by rw [htake]; exact Nat.add_le_add_left hmle pos))
        hfs2 hinode2
      have hround : Ext2.fillLoop t (rounds + 1) fs inode pos buf =
          Ext2.fillLoop t rounds fs2 inode2 (pos + m) (buf.drop m) := by
        rw [hinode2,hfs2,hbs1,htake,Ext2.fillLoop,if_neg hempty]
        simp only [hrun,if_neg hthere,F1.stands.ready.mounted.infallible.write]
        simp only [← hm,htake,Int.toNat_natCast,Nat.mul_comm (block1 _) fs.blockSize]
        rw [if_neg (Int.not_lt.mpr (Int.natCast_nonneg m)),if_neg (not_not.mpr rfl)]
        rfl
      have hframe := hmoved2.frozen.trans hmoved.frozen
      rw [htake,hsize] at hsize2
      clear hm hsize hfs2 hinode2
      obtain ⟨r,fs3,inode3,block3,table3,hr,hrest,F3,hmoved3,hsize3,hbytes3,hshort⟩ :=
        ih (pos + m) (buf.drop m) F2 (hsize2 ▸ le_max_right _ _)
        ((hend.frozen hframe).mono (by rw [hdrop]; omega)) (by rw [hdrop]; omega)
        (frozen_blockSize hframe ▸ hlarge)
      rw [hdrop] at hr hrest hshort
      refine ⟨m + r,fs3,inode3,block3,table3,by omega,?_,F3,
        ((hmoved.mono fun b hb => .inl hb).trans hmoved2).trans hmoved3,?_,fun p hp => ?_,
        fun h => hshort (by omega)⟩
      · rw [hround,hrest,Nat.sub_sub]
      · rw [hsize3,hsize2]
        omega
      · have hlast : ((buf.drop m).take r).length = r :=
          List.length_take_of_le (hdrop ▸ hr)
        rw [hbytes3 p hp]
        refine patch_two htake hlast fun hout => ?_
        have hp2 : p < max (fs.getSize inode) (pos + m) := by omega
        have hthere2 : block1 (p / fs1.blockSize) ≠ 0 :=
          frozen_blockSize hmoved2.frozen ▸ F2.there (hsize2 ▸ hp2)
        refine (hbytes p hthere2).trans (patch_congr ?_)
        rw [htake]
        by_cases hnew : fs.getSize inode ≤ p
        · exact .inl (by omega)
        · have hthere0 := F.there (not_le.mp hnew)
          have hsame : block1 (p / fs.blockSize) = block (p / fs.blockSize) := hkept _ hthere0
          have hstored := stored_same hmoved.frozen (by omega)
            (hmoved.same _ (.inr (show InFile block (block (p / fs.blockSize)) from
              ⟨hthere0,_,rfl⟩)))
          right
          rw [← hstored,stored,stored,hbs1,hsame]

/-- A file without one of its blocks. -/
theorem Owns.cut (O : Owns k B G fs inode block table other) (hn : block n ≠ 0)
    {table' : Table → ℕ} (S : Stands k B G fs' inode' (Function.update block n 0) table'
      fun b => (other b ∨ InFile block b) ∧ b ≠ block n) :
    Owns k B G fs' inode' (Function.update block n 0) table' other := by
  have hkept : ∀ m,Function.update block n 0 m ≠ 0 → m ≠ n := fun m hm h =>
    hm (by rw [h,Function.update_self])
  refine ⟨S.fewer ?_,fun m m' hm heq => ?_,fun m hm => ?_⟩
  · rintro b (hb | ⟨hne,m,rfl⟩)
    · exact ⟨.inl hb,fun h => O.spared _ hn (h ▸ hb)⟩
    · have hm := hkept m hne
      rw [Function.update_of_ne hm] at hne ⊢
      exact ⟨.inr ⟨hne,m,rfl⟩,fun h => hm (O.distinct m n hne h)⟩
  · have hne := hkept m hm
    have hne' := hkept m' (heq ▸ hm)
    rw [Function.update_of_ne hne] at hm heq
    rw [Function.update_of_ne hne'] at heq
    exact O.distinct m m' hm heq
  · have hne := hkept m hm
    rw [Function.update_of_ne hne] at hm ⊢
    exact O.spared m hm

theorem clear_none {start stop : ℕ} (h : stop ≤ start) :
    (fun m => if start ≤ m ∧ m < stop then 0 else block m) = block :=
  funext fun m => if_neg (by omega)

theorem clear_next {start stop : ℕ} (h : start < stop) :
    (fun m => if start + 1 ≤ m ∧ m < stop then 0 else Function.update block start 0 m) =
      fun m => if start ≤ m ∧ m < stop then 0 else block m := by
  funext m
  rcases eq_or_ne m start with rfl | hne
  · rw [if_neg (by omega),if_pos ⟨le_rfl,h⟩,Function.update_self]
  · rw [Function.update_of_ne hne]
    exact if_congr (by omega) rfl rfl

/-- Giving up the blocks of a range, front to back, as long as no table seems
empty on the way. -/
theorem shrinkLoop_spec (blk rest : ℕ) (O : Owns k B G fs inode block table other)
    (hthere : ∀ n,blk ≤ n → n < blk + rest → block n ≠ 0) (hrange : blk + rest ≤ 12 + B ^ 2)
    (hfirst : ∀ n,blk ≤ n → n < blk + rest →
      Anchored B (fun m => if blk ≤ m ∧ m < n + 1 then 0 else block m) n) :
    ∃ fs' f d table',fs.shrinkLoop inode blk rest =
        (true,fs',{ inode with iBlock := f, dirty := d }) ∧
      Owns k B G fs' { inode with iBlock := f, dirty := d }
        (fun m => if blk ≤ m ∧ m < blk + rest then 0 else block m) table' other ∧
      Moved fs fs' other ∧
      ∀ m,¬(blk ≤ m ∧ m < blk + rest) → block m ≠ 0 → SameBlock fs fs' (block m) := by
  induction rest generalizing fs inode block table blk with
  | zero =>
    rw [Nat.add_zero,clear_none le_rfl]
    exact ⟨fs,inode.iBlock,inode.dirty,table,rfl,O,Moved.refl _ _,fun _ _ _ _ _ => rfl⟩
  | succ rest ih =>
    have hblk := hthere blk le_rfl (by omega)
    have hin : InFile block (block blk) := ⟨hblk,blk,rfl⟩
    have hlookup := lookup_there O.stands (show blk < 12 + B ^ 2 by omega) hblk
    obtain ⟨fs1,hrun,hkeeps,-⟩ := O.stands.ready.free (O.stands.others _ (.inr hin))
    have htable : ∀ a,table a ≠ block blk := fun a h => O.stands.apart a (.inr (h ▸ hin))
    have S1 : Stands k B G fs1 inode block table
        fun b => (other b ∨ InFile block b) ∧ b ≠ block blk :=
      O.stands.keeps hkeeps (fun a ha => ⟨O.stands.tables a ha,htable a⟩)
        fun b hb => ⟨hb.1,O.stands.others b hb.1,hb.2⟩
    have hone : Anchored B (Function.update block blk 0) blk := by
      have h := hfirst blk le_rfl (by omega)
      rwa [← clear_next (Nat.lt_succ_self blk),clear_none le_rfl] at h
    obtain ⟨fs2,f,d,table2,hmoved,⟨hset,S2⟩ | ⟨-,-,hzero,-⟩⟩ :=
      setINodeBlock_spec S1 (show blk < 12 + B ^ 2 by omega) (by decide) hone
    · obtain ⟨fs3,f3,d3,table3,hloop,O3,hmoved3,hsame3⟩ := ih (blk + 1) (O.cut hblk S2)
        (fun n hl hu => by
          rw [Function.update_of_ne (by omega)]
          exact hthere n (by omega) (by omega))
        (by omega)
        (fun n hl hu => by
          rw [clear_next (by omega)]
          exact hfirst n (by omega) (by omega))
      rw [show blk + 1 + rest = blk + (rest + 1) by omega] at O3 hsame3
      rw [clear_next (by omega)] at O3
      have hmoved1 : Moved fs fs2 fun b => (other b ∨ InFile block b) ∧ b ≠ block blk :=
        (hkeeps.moved fun b hb => ⟨O.stands.others b hb.1,hb.2⟩).trans hmoved
      refine ⟨fs3,f3,d3,table3,?_,O3,
        (hmoved1.mono fun b hb => ⟨.inl hb,fun h => O.spared _ hblk (h ▸ hb)⟩).trans hmoved3,?_⟩
      · simp only [Ext2.shrinkLoop,hlookup,if_neg hblk,hrun,hset]
        exact hloop
      · intro m hm hne
        have hmb : m ≠ blk := by omega
        have hlast := hsame3 m (by omega) (by rwa [Function.update_of_ne hmb])
        rw [Function.update_of_ne hmb] at hlast
        exact (hmoved1.same _ ⟨.inr ⟨hne,m,rfl⟩,fun h => hmb (O.distinct m blk hne h)⟩).trans
          (frozen_blockSize hmoved1.frozen) hlast
    · exact absurd hzero hblk

/-- How many blocks some bytes take. -/
theorem lt_ceil {n s bs : ℕ} (hbs : 0 < bs) : n < (s + (bs - 1)) / bs ↔ n * bs < s := by
  rw [← Nat.succ_le_iff,Nat.le_div_iff_mul_le hbs,Nat.succ_mul]
  omega

/-- No block from a size on is the first one of a pointer table. -/
def Cuts (B : ℕ) (fs : Ext2) (inode : FSINode) (size : ℕ) : Prop :=
  ∀ n,size ≤ n * fs.blockSize → n * fs.blockSize < fs.getSize inode → 12 ≤ n → (n - 12) % B ≠ 0

/-- Resize to a smaller size keeps the bytes below it. -/
theorem resize_shrinks {t size : ℕ} (F : Stored k B G fs inode block table other)
    (hsize : size < fs.getSize inode) (hcut : Cuts B fs inode size) :
    ∃ fs' inode' block' table',fs.resize t inode size = ((size : ℤ),fs',inode') ∧
      Stored k B G fs' inode' block' table' other ∧ Moved fs fs' other ∧
      fs'.getSize inode' = size ∧
      ∀ p < size,stored fs' block' p = stored fs block p := by
  have hlarge := F.stands.ready.blockSize_large
  have hbs : 0 < fs.blockSize := by omega
  have hlt := F.within.2
  have hcur : fs.getSize inode % 2 ^ 32 = fs.getSize inode := Nat.mod_eq_of_lt (by omega)
  set start := (size + (fs.blockSize - 1)) / fs.blockSize with hstart
  set count := (fs.getSize inode + (fs.blockSize - 1)) / fs.blockSize with hcount
  have hle : start ≤ count := Nat.div_le_div_right (by omega)
  have hstartBlk : unsigned 32 ((align64 (size : ℤ) fs.blockSize).tdiv fs.blockSize) = start := by
    have hcast : align64 (size : ℤ) fs.blockSize = ((fs.blockSize * start : ℕ) : ℤ) := by
      rw [align64,show (size : ℤ) + ((fs.blockSize : ℤ) - 1) =
        ((size + (fs.blockSize - 1) : ℕ) : ℤ) by omega,← Int.ofNat_tdiv]
      push_cast
      rfl
    rw [hcast,← Int.ofNat_tdiv,Nat.mul_div_cancel_left _ hbs]
    refine unsigned_natCast ?_
    have := Nat.div_le_self (size + (fs.blockSize - 1)) fs.blockSize
    omega
  have hblkCount : align32 (fs.getSize inode) fs.blockSize / fs.blockSize = count := by
    have hround := Nat.mul_div_le (fs.getSize inode + (fs.blockSize - 1)) fs.blockSize
    rw [align32,Nat.mod_eq_of_lt (show fs.getSize inode + (fs.blockSize - 1) < 2 ^ 32 by omega),
      Nat.mod_eq_of_lt (by omega),Nat.mul_div_cancel_left _ hbs]
  have hmapped : ∀ n,block n ≠ 0 ↔ n < count := fun n => (F.mapped n).trans (lt_ceil hbs).symm
  have hrange : start + (count - start) ≤ 12 + B ^ 2 := by
    by_contra hgt
    have h := (lt_ceil hbs).mp (show 12 + B ^ 2 < count by omega)
    have hw := F.within.1
    rw [Nat.mul_comm] at h
    omega
  obtain ⟨fs',f,d,table',hrun,O',hmoved,hsame⟩ := shrinkLoop_spec start
    (count - start) F.toOwns (fun n _ hn => (hmapped n).mpr (by omega)) hrange (by
      intro n hl hu hn
      have hfirst : ∀ m,12 ≤ m → m ≤ n → (m - 12) % B = 0 →
          (fun m => if start ≤ m ∧ m < n + 1 then 0 else block m) m ≠ 0 := by
        intro m hm hmn hmod
        have hbelow : m < start := by
          by_contra hge
          refine hcut m ?_ ((lt_ceil hbs).mp (by omega)) hm hmod
          exact not_lt.mp fun h => hge ((lt_ceil hbs).mpr h)
        show (if start ≤ m ∧ m < n + 1 then 0 else block m) ≠ 0
        rw [if_neg (by omega)]
        exact (hmapped m).mpr (by omega)
      have hB := F.stands.ready.mounted.large
      have hmodle := Nat.mod_le (n - 12) B
      refine ⟨hfirst _ (by omega) (Nat.sub_le _ _) ?_,fun h => hfirst _ (by omega) h ?_⟩
      · rw [show n - (n - 12) % B - 12 = n - 12 - (n - 12) % B by omega]
        exact Nat.sub_mod_eq_zero_of_mod_eq (Nat.mod_mod _ _).symm
      · rw [show 12 + B - 12 = B by omega,Nat.mod_self])
  set inode2 := fs'.setSize { ({ inode with iBlock := f, dirty := d } : FSINode) with
    iBlocks := unsigned 32 ((align64 (size : ℤ) 512).tdiv 512) } (unsigned 64 (size : ℤ))
    with hinode2
  have hunsigned : unsigned 64 (size : ℤ) = size := unsigned_natCast (by omega)
  have hnew : fs'.getSize inode2 = size := by
    rw [hinode2,hunsigned]
    exact getSize_setSize (by omega)
  have hbs' := frozen_blockSize hmoved.frozen
  refine ⟨fs',inode2,_,table',?_,O'.sized iBlock_setSize ?_ ?_,hmoved,hnew,?_⟩
  · rw [Ext2.resize]
    simp only [hcur]
    rw [if_pos (by omega)]
    simp only [hstartBlk,hblkCount,hrun,Bool.not_true,Bool.false_eq_true,if_false,← hinode2,hnew]
    rw [Nat.mod_eq_of_lt (by omega)]
  · rw [hnew]
    exact (F.within.frozen hmoved.frozen).mono (by omega)
  · intro n
    rw [hnew,hbs',← lt_ceil hbs,← hstart]
    by_cases hn : start ≤ n ∧ n < start + (count - start)
    · rw [if_pos hn]
      exact ⟨fun h => absurd rfl h,fun h => by omega⟩
    · rw [if_neg hn,hmapped]
      omega
  · intro p hp
    have hin : p / fs.blockSize < start :=
      (lt_ceil hbs).mpr (Nat.lt_of_le_of_lt (Nat.div_mul_le_self _ _) hp)
    have hblock := hsame (p / fs.blockSize) (by omega) (F.there (by omega))
    rw [← stored_same hmoved.frozen hbs hblock,stored,stored,hbs']
    rw [if_neg (by omega)]

/-- Resize to a larger size appends zeros, and all of them unless hardly a block
is left. -/
theorem resize_grows {t size : ℕ} (F : Stored k B G fs inode block table other)
    (hsize : fs.getSize inode < size) (hend : Within B fs size) :
    ∃ r fs' inode' block' table',r ≤ size - fs.getSize inode ∧
      fs.resize t inode size = (((fs.getSize inode + r : ℕ) : ℤ),fs',inode') ∧
      Stored k B G fs' inode' block' table' other ∧ Moved fs fs' other ∧
      fs'.getSize inode' = fs.getSize inode + r ∧
      (∀ p < fs'.getSize inode',stored fs' block' p =
        patch (stored fs block) (fs.getSize inode) (List.replicate r 0) p) ∧
      (r < size - fs.getSize inode → freeSum blockKind G fs' ≤ 1) := by
  have hlarge := F.stands.ready.blockSize_large
  have hlt := hend.lt (by omega)
  have hcur : fs.getSize inode % 2 ^ 32 = fs.getSize inode := Nat.mod_eq_of_lt (by omega)
  have hlength : (List.replicate (size - fs.getSize inode) (0 : UInt8)).length =
      size - fs.getSize inode := List.length_replicate
  obtain ⟨r,fs',inode',block',table',hr,hrun,F',hmoved,hnew,hbytes,hshort⟩ :=
    fillLoop_spec (t := t) (size - fs.getSize inode) (fs.getSize inode)
      (List.replicate (size - fs.getSize inode) 0) F le_rfl (hend.mono (by omega)) (by omega)
  rw [hlength] at hr hrun hshort
  rw [Nat.max_eq_right (by omega)] at hnew
  refine ⟨r,fs',inode',block',table',hr,?_,F',hmoved,hnew,?_,hshort⟩
  · have hleft : ((size : ℤ) - (fs.getSize inode : ℤ)).toNat = size - fs.getSize inode := by omega
    rw [Ext2.resize]
    simp only [hcur,hleft,hrun,hnew]
    rw [if_neg (by omega),if_pos (by omega),if_neg (by decide),if_neg (by decide),
      Nat.mod_eq_of_lt (by omega)]
  · rw [List.take_replicate,Nat.min_eq_left hr] at hbytes
    exact hbytes

end Files

/-- The bytes of a file, in order. -/
def contents (fs : Ext2) (inode : FSINode) : List UInt8 :=
  slice (content fs inode) 0 (fs.getSize inode)

/-- A byte string with some bytes from a position on replaced; it grows when they
reach past its end. -/
def overwrite (l : List UInt8) (pos : ℕ) (src : List UInt8) : List UInt8 :=
  l.take pos ++ src ++ l.drop (pos + src.length)

section Contents

variable {k B G : ℕ} {fs fs' : Ext2} {inode inode' : FSINode} {block block' : ℕ → ℕ}
  {table table' : Table → ℕ} {other : ℕ → Prop} {c c' : Store} {pos n size : ℕ}
  {src : List UInt8}

theorem slice_take (c : Store) (h : n ≤ size) : (slice c pos size).take n = slice c pos n := by
  obtain ⟨m,rfl⟩ := Nat.exists_eq_add_of_le h
  rw [slice_append,List.take_left' (slice_length _ _ _)]

theorem slice_drop (c : Store) (pos n size : ℕ) :
    (slice c pos size).drop n = slice c (pos + n) (size - n) := by
  rcases Nat.le_total n size with h | h
  · obtain ⟨m,rfl⟩ := Nat.exists_eq_add_of_le h
    rw [slice_append,List.drop_left' (slice_length _ _ _),Nat.add_sub_cancel_left]
  · rw [List.drop_of_length_le (by rw [slice_length]; exact h),Nat.sub_eq_zero_of_le h,slice_zero]

/-- Patching the store overwrites the string. -/
theorem slice_overwrite (hpos : pos ≤ size)
    (h : ∀ p < max size (pos + src.length),c' p = patch c pos src p) :
    slice c' 0 (max size (pos + src.length)) = overwrite (slice c 0 size) pos src := by
  have hwhole : max size (pos + src.length) =
      pos + (src.length + (size - (pos + src.length))) := by omega
  have hpatch : slice c' 0 (max size (pos + src.length)) =
      slice (patch c pos src) 0 (max size (pos + src.length)) :=
    slice_congr fun i hi => by rw [Nat.zero_add]; exact h i hi
  rw [hpatch,hwhole,slice_append,slice_append,Nat.zero_add,slice_patch_same,
    slice_patch_disjoint (.inl (by omega)),slice_patch_disjoint (.inr (by omega)),overwrite,
    slice_take c hpos,slice_drop,Nat.zero_add,List.append_assoc]

/-- The contents are the bytes of the file's blocks. -/
theorem Stored.contents_eq (F : Stored k B G fs inode block table other) :
    contents fs inode = slice (stored fs block) 0 (fs.getSize inode) :=
  slice_congr fun i hi => F.content_eq (by rwa [Nat.zero_add])

@[simp] theorem contents_length (fs : Ext2) (inode : FSINode) :
    (contents fs inode).length = fs.getSize inode := slice_length _ _ _

/-- The contents after a patch of the file's bytes. -/
theorem Stored.contents_overwrite (F : Stored k B G fs inode block table other)
    (F' : Stored k B G fs' inode' block' table' other) (hpos : pos ≤ fs.getSize inode)
    (hsize : fs'.getSize inode' = max (fs.getSize inode) (pos + src.length))
    (h : ∀ p < fs'.getSize inode',stored fs' block' p = patch (stored fs block) pos src p) :
    contents fs' inode' = overwrite (contents fs inode) pos src := by
  rw [F.contents_eq,F'.contents_eq,hsize]
  exact slice_overwrite hpos (hsize ▸ h)

theorem overwrite_end (l src : List UInt8) : overwrite l l.length src = l ++ src := by
  rw [overwrite,List.take_length,List.drop_of_length_le (Nat.le_add_right _ _),List.append_nil]

/-- The zeros that a string lacks up to a position. -/
def padded (l : List UInt8) (pos : ℕ) : List UInt8 := l ++ List.replicate (pos - l.length) 0

theorem padded_of_le {l : List UInt8} (h : pos ≤ l.length) : padded l pos = l := by
  rw [padded,Nat.sub_eq_zero_of_le h,List.replicate_zero,List.append_nil]

/-- EXT2::write puts a prefix of the bytes in the file, and all of them unless
hardly a block is left. A position past the end has to be reached first. -/
theorem write_overwrites {t : ℕ} {buf : List UInt8}
    (F : Stored k B G fs inode block table other) (hend : Within B fs (pos + buf.length))
    (hgap : pos ≤ fs.getSize inode ∨ (fs.resize t inode pos).1 = pos) :
    ∃ r fs' inode' block' table',r ≤ buf.length ∧
      fs.write t inode buf pos = ((r : ℤ),fs',inode') ∧
      Stored k B G fs' inode' block' table' other ∧ Moved fs fs' other ∧
      contents fs' inode' = overwrite (padded (contents fs inode) pos) pos (buf.take r) ∧
      (r < buf.length → freeSum blockKind G fs' ≤ 1) := by
  have hlarge := F.stands.ready.blockSize_large
  have hlt := hend.lt (by omega)
  have hsigned : signed 64 (pos : ℤ) = pos := signed_of_range (w := 63) (by omega) (by omega)
  -- the file as it is when the bytes are written
  obtain ⟨res,fs1,inode1,block1,table1,hfirst,hres,F1,hmoved1,hpos1,hcontents1⟩ :
      ∃ (res : ℤ) (fs1 : Ext2) (inode1 : FSINode) (block1 : ℕ → ℕ) (table1 : Table → ℕ),
        (if fs.getSize inode < pos then fs.resize t inode (signed 64 pos) else (0,fs,inode)) =
          (res,fs1,inode1) ∧ 0 ≤ res ∧ Stored k B G fs1 inode1 block1 table1 other ∧
        Moved fs fs1 other ∧ pos ≤ fs1.getSize inode1 ∧
        contents fs1 inode1 = padded (contents fs inode) pos := by
    by_cases hpast : fs.getSize inode < pos
    · obtain ⟨r,fs1,inode1,block1,table1,hr,hrun,F1,hmoved,hnew,hbytes,-⟩ :=
        resize_grows (t := t) F hpast (hend.mono (by omega))
      have hreach : fs.getSize inode + r = pos := by
        have hres := hgap.resolve_left (by omega)
        rw [hrun] at hres
        exact Int.ofNat.inj hres
      refine ⟨(fs.getSize inode + r : ℕ),fs1,inode1,block1,table1,?_,Int.natCast_nonneg _,F1,hmoved,
        by omega,?_⟩
      · rw [if_pos hpast,hsigned]
        exact hrun
      · rw [F.contents_overwrite F1 le_rfl (by rw [hnew,List.length_replicate]; omega) hbytes,
          padded,contents_length,show pos - fs.getSize inode = r by omega]
        have hwhole := overwrite_end (contents fs inode) (List.replicate r 0)
        rwa [contents_length] at hwhole
    · refine ⟨0,fs,inode,block,table,if_neg hpast,le_rfl,F,Moved.refl _ _,by omega,?_⟩
      rw [padded_of_le (by rw [contents_length]; omega)]
  obtain ⟨r,fs2,inode2,block2,table2,hr,hrun,F2,hmoved2,hnew,hbytes,hshort⟩ :=
    fillLoop_spec (t := t) buf.length pos buf F1 hpos1 (hend.frozen hmoved1.frozen) le_rfl
  have htake : (buf.take r).length = r := by rw [List.length_take]; omega
  refine ⟨r,fs2,inode2,block2,table2,hr,?_,F2,hmoved1.trans hmoved2,?_,hshort⟩
  · rw [Ext2.write,hfirst]
    simp only [if_neg (not_lt.mpr hres),hrun]
    rw [if_neg (by decide)]
    refine Prod.ext ?_ rfl
    show (buf.length : ℤ) - ((buf.length - r : ℕ) : ℤ) = r
    omega
  · rw [← hcontents1]
    exact F1.contents_overwrite F2 hpos1 (by rw [hnew,htake]) hbytes

/-- EXT2::read hands over the bytes from a position on, as far as there are any. -/
theorem read_slices {t : ℕ} (F : Stored k B G fs inode block table other) (pos n : ℕ) :
    ∃ inode',fs.read t inode pos n =
        (((((contents fs inode).drop pos).take n).length : ℤ),((contents fs inode).drop pos).take n,
          inode') ∧
      Stored k B G fs inode' block table other ∧ contents fs inode' = contents fs inode := by
  have hbytes : ((contents fs inode).drop pos).take n =
      slice (content fs inode) pos (min n (fs.getSize inode - pos)) := by
    rw [contents,slice_drop,Nat.zero_add]
    rcases Nat.le_total n (fs.getSize inode - pos) with h | h
    · rw [slice_take _ h,Nat.min_eq_left h]
    · rw [List.take_of_length_le (by rw [slice_length]; exact h),Nat.min_eq_right h]
  rw [hbytes,slice_length]
  by_cases hzero : min n (fs.getSize inode - pos) = 0
  · refine ⟨inode,?_,F,rfl⟩
    rw [Ext2.read,hzero,slice_zero]
    have hclip : (if fs.getSize inode < pos + n then fs.getSize inode - pos else n) = 0 := by
      split <;> omega
    simp only [hclip,if_true]
    rfl
  · refine ⟨inode.setAccessTime t,?_,F.toOwns.sized rfl F.within F.mapped,rfl⟩
    have hrun := read_spec (t := t) F.readable
      (show pos + min n (fs.getSize inode - pos) ≤ fs.getSize inode by omega) (by omega)
    have hclip : ∀ m,min n (fs.getSize inode - pos) ≤ m → m ≤ n →
        (if fs.getSize inode < pos + m then fs.getSize inode - pos else m) =
          min n (fs.getSize inode - pos) := by
      intro m hl hu
      split <;> omega
    rw [← hrun,Ext2.read,Ext2.read,hclip n (by omega) le_rfl,hclip _ le_rfl (by omega)]

end Contents

/-- A block that a file holds, for its contents or as a table. -/
def Holds (block : ℕ → ℕ) (table : Table → ℕ) (b : ℕ) : Prop :=
  InFile block b ∨ (b ≠ 0 ∧ ∃ a,table a = b)

/-- Files of one volume. -/
structure Files (ι : Type) where
  /-- The file system. -/
  fs : Ext2
  /-- The inodes of the files, in memory. -/
  inode : ι → FSINode

/-- A call on one of the files. -/
inductive Call (ι : Type) where
  /-- Read n bytes from a position on. -/
  | read (i : ι) (pos n : ℕ)
  /-- Write bytes from a position on. -/
  | write (i : ι) (buf : List UInt8) (pos : ℕ)
  /-- Set the size. -/
  | resize (i : ι) (size : ℕ)

section System

variable {ι : Type} [DecidableEq ι]

/-- The contents of each file. -/
def Files.contents (s : Files ι) (i : ι) : List UInt8 :=
  Ext2FileContents.contents s.fs (s.inode i)

/-- What a call at some time returns, and the files after it. -/
def Files.step (s : Files ι) (t : ℕ) : Call ι → (ℤ × List UInt8) × Files ι
  | .read i pos n =>
    let r := s.fs.read t (s.inode i) pos n
    ((r.1,r.2.1),⟨s.fs,Function.update s.inode i r.2.2⟩)
  | .write i buf pos =>
    let r := s.fs.write t (s.inode i) buf pos
    ((r.1,[]),⟨r.2.1,Function.update s.inode i r.2.2⟩)
  | .resize i size =>
    let r := s.fs.resize t (s.inode i) size
    ((r.1,[]),⟨r.2.1,Function.update s.inode i r.2.2⟩)

/-- A call within the range of the driver. A write past the end needs room for the
gap, and a cut keeps the first blocks of the tables. -/
def Call.Fits (B : ℕ) (s : Files ι) (t : ℕ) : Call ι → Prop
  | .read _ _ _ => True
  | .write i buf pos => Within B s.fs (pos + buf.length) ∧
    (pos ≤ s.fs.getSize (s.inode i) ∨ (s.fs.resize t (s.inode i) pos).1 = pos)
  | .resize i size => Within B s.fs size ∧ Cuts B s.fs (s.inode i) size

/-- What a call does to byte strings. Only when at most one block is free
afterwards may it write less than it was given. -/
def Call.Answered (before after : ι → List UInt8) (free : ℕ) (reply : ℤ × List UInt8) :
    Call ι → Prop
  | .read i pos n => reply = (((((before i).drop pos).take n).length : ℤ),
      ((before i).drop pos).take n) ∧
    after = before
  | .write i buf pos => ∃ r ≤ buf.length,reply.1 = r ∧
    after = Function.update before i (overwrite (padded (before i) pos) pos (buf.take r)) ∧
    (r < buf.length → free ≤ 1)
  | .resize i size => ∃ r ≤ size - (before i).length,
    reply.1 = min size (before i).length + r ∧
    after = Function.update before i ((before i).take size ++ List.replicate r 0) ∧
    (r < size - (before i).length → free ≤ 1)

/-- Files without holes that share no block. -/
def Sound (k B G : ℕ) (s : Files ι) : Prop :=
  ∃ (block : ι → ℕ → ℕ) (table : ι → Table → ℕ),∀ i,
    Stored k B G s.fs (s.inode i) (block i) (table i)
      fun b => ∃ j,j ≠ i ∧ Holds (block j) (table j) b

/-- Every call of a run is answered as byte strings answer it. -/
def Behaves (G : ℕ) : Files ι → List (ℕ × Call ι) → Prop
  | _,[] => True
  | s,(t,call) :: calls =>
    call.Answered s.contents (s.step t call).2.contents
      (freeSum blockKind G (s.step t call).2.fs) (s.step t call).1 ∧
    Behaves G (s.step t call).2 calls

variable {k B G : ℕ} {fs fs' : Ext2} {inode : FSINode} {block : ℕ → ℕ} {table : Table → ℕ}
  {other other' : ℕ → Prop} {s : Files ι}

/-- A file in a volume that was changed elsewhere. -/
theorem Stored.beside (F : Stored k B G fs inode block table other) (R : Ready k B G fs')
    (hmoved : Moved fs fs' (Holds block table))
    (hlent : ∀ b,Holds block table b → Lent G fs' b) (hother : ∀ b,other' b → Lent G fs' b)
    (hapart : ∀ b,other' b → ¬Holds block table b) :
    Stored k B G fs' inode block table other' ∧ contents fs' inode = contents fs inode := by
  have hlarge := F.stands.ready.blockSize_large
  have hkeeps : Keeps k B G fs fs' (Holds block table) := ⟨R,hmoved.frozen,hlent,hmoved.same⟩
  have S : Stands k B G fs' inode block table (InFile block) :=
    F.stands.keeps hkeeps (fun a ha => .inr ⟨ha,a,rfl⟩) fun b hb => ⟨.inr hb,.inl hb⟩
  have hsize : fs'.getSize inode = fs.getSize inode := getSize_frozen hmoved.frozen
  have F' : Stored k B G fs' inode block table other' := by
    refine ⟨⟨⟨S.ready,S.laid,S.tables,S.distinct,?_,?_⟩,F.distinct,fun n hn ho =>
      hapart _ ho (.inl ⟨hn,n,rfl⟩)⟩,?_,?_⟩
    · rintro b (hb | hb)
      · exact hother b hb
      · exact S.others b hb
    · rintro a (ha | ha)
      · exact hapart _ ha (.inr ⟨(hother _ ha).ne_zero,a,rfl⟩)
      · exact S.apart a ha
    · rw [hsize]
      exact F.within.frozen hmoved.frozen
    · intro n
      rw [hsize,frozen_blockSize hmoved.frozen]
      exact F.mapped n
  refine ⟨F',?_⟩
  rw [F.contents_eq,F'.contents_eq,hsize]
  refine slice_congr fun i hi => ?_
  have hthere := F.there (show 0 + i < fs.getSize inode by omega)
  exact stored_same hmoved.frozen (by omega) (hmoved.same _ (.inl ⟨hthere,_,rfl⟩))

/-- What a file holds is in use and not another file's. -/
theorem Stored.holds (F : Stored k B G fs inode block table other) {b : ℕ}
    (hb : Holds block table b) : Lent G fs b ∧ ¬other b := by
  rcases hb with ⟨hne,n,rfl⟩ | ⟨hne,a,rfl⟩
  · exact ⟨F.stands.others _ (.inr ⟨hne,n,rfl⟩),F.spared n hne⟩
  · exact ⟨F.stands.tables a hne,fun h => F.stands.apart a (.inl h)⟩

/-- A call on one file leaves the others as they are. -/
theorem Sound.change {blocks : ι → ℕ → ℕ} {tables : ι → Table → ℕ} {i : ι} {inode' : FSINode}
    {block' : ℕ → ℕ} {table' : Table → ℕ}
    (h : ∀ i,Stored k B G s.fs (s.inode i) (blocks i) (tables i)
      fun b => ∃ j,j ≠ i ∧ Holds (blocks j) (tables j) b)
    (F' : Stored k B G fs' inode' block' table'
      fun b => ∃ j,j ≠ i ∧ Holds (blocks j) (tables j) b)
    (hmoved : Moved s.fs fs' fun b => ∃ j,j ≠ i ∧ Holds (blocks j) (tables j) b) :
    Sound k B G (⟨fs',Function.update s.inode i inode'⟩ : Files ι) ∧
    (⟨fs',Function.update s.inode i inode'⟩ : Files ι).contents =
      Function.update s.contents i (contents fs' inode') := by
  -- another file, with what it has to be apart from now
  have hbeside : ∀ j,j ≠ i → Stored k B G fs' (s.inode j) (blocks j) (tables j)
      (fun b => Holds block' table' b ∨ ∃ l,l ≠ i ∧ l ≠ j ∧ Holds (blocks l) (tables l) b) ∧
      contents fs' (s.inode j) = contents s.fs (s.inode j) := by
    intro j hj
    refine (h j).beside F'.stands.ready (hmoved.mono fun b hb => ⟨j,hj,hb⟩)
      (fun b hb => F'.stands.others b (.inl ⟨j,hj,hb⟩)) ?_ ?_
    · rintro b (hb | ⟨l,hl,-,hb⟩)
      · exact (F'.holds hb).1
      · exact F'.stands.others b (.inl ⟨l,hl,hb⟩)
    · rintro b (hb | ⟨l,-,hlj,hb⟩) hmine
      · exact (F'.holds hb).2 ⟨j,hj,hmine⟩
      · exact ((h j).holds hmine).2 ⟨l,hlj,hb⟩
  refine ⟨⟨Function.update blocks i block',Function.update tables i table',fun j => ?_⟩,?_⟩
  · rcases eq_or_ne j i with rfl | hj
    · simp only [Function.update_self]
      have hsame : (fun b => ∃ l,l ≠ j ∧ Holds (Function.update blocks j block' l)
          (Function.update tables j table' l) b) =
            fun b => ∃ l,l ≠ j ∧ Holds (blocks l) (tables l) b := by
        funext b
        refine propext (exists_congr fun l => and_congr_right fun hl => ?_)
        rw [Function.update_of_ne hl,Function.update_of_ne hl]
      rw [hsame]
      exact F'
    · simp only [Function.update_of_ne hj]
      have hsame : (fun b => ∃ l,l ≠ j ∧ Holds (Function.update blocks i block' l)
          (Function.update tables i table' l) b) =
            fun b => Holds block' table' b ∨ ∃ l,l ≠ i ∧ l ≠ j ∧ Holds (blocks l) (tables l) b := by
        funext b
        refine propext ⟨?_,?_⟩
        · rintro ⟨l,hlj,hb⟩
          rcases eq_or_ne l i with rfl | hl
          · rw [Function.update_self,Function.update_self] at hb
            exact .inl hb
          · rw [Function.update_of_ne hl,Function.update_of_ne hl] at hb
            exact .inr ⟨l,hl,hlj,hb⟩
        · rintro (hb | ⟨l,hl,hlj,hb⟩)
          · exact ⟨i,hj.symm,by rwa [Function.update_self,Function.update_self]⟩
          · exact ⟨l,hlj,by rwa [Function.update_of_ne hl,Function.update_of_ne hl]⟩
      rw [hsame]
      exact (hbeside j hj).1
  · funext j
    show contents fs' (Function.update s.inode i inode' j) = _
    rcases eq_or_ne j i with rfl | hj
    · rw [Function.update_self,Function.update_self]
    · rw [Function.update_of_ne hj,Function.update_of_ne hj]
      exact (hbeside j hj).2

/-- One call on sound files. -/
theorem Sound.step (h : Sound k B G s) (t : ℕ) {call : Call ι} (hfits : call.Fits B s t) :
    Sound k B G (s.step t call).2 ∧
    call.Answered s.contents (s.step t call).2.contents
      (freeSum blockKind G (s.step t call).2.fs) (s.step t call).1 := by
  obtain ⟨blocks,tables,h⟩ := h
  cases call with
  | read i pos n =>
    obtain ⟨inode',hrun,F',hsame⟩ := read_slices (t := t) (h i) pos n
    obtain ⟨hsound,hcontents⟩ := Sound.change h F' (Moved.refl _ _)
    simp only [Files.step,hrun]
    refine ⟨hsound,rfl,?_⟩
    rw [hcontents,hsame]
    exact Function.update_eq_self i s.contents
  | write i buf pos =>
    obtain ⟨r,fs',inode',block',table',hr,hrun,F',hmoved,hbytes,hshort⟩ :=
      write_overwrites (t := t) (h i) hfits.1 hfits.2
    obtain ⟨hsound,hcontents⟩ := Sound.change h F' hmoved
    simp only [Files.step,hrun]
    refine ⟨hsound,r,hr,rfl,?_,hshort⟩
    rw [hcontents,hbytes]
    rfl
  | resize i size =>
    have hlength : (s.contents i).length = s.fs.getSize (s.inode i) := contents_length _ _
    have hwithin := (h i).within.2
    have hlarge := (h i).stands.ready.blockSize_large
    rcases Nat.lt_trichotomy size (s.fs.getSize (s.inode i)) with hlt | heq | hgt
    · obtain ⟨fs',inode',block',table',hrun,F',hmoved,hnew,hbytes⟩ :=
        resize_shrinks (t := t) (h i) hlt hfits.2
      obtain ⟨hsound,hcontents⟩ := Sound.change h F' hmoved
      simp only [Files.step,hrun]
      refine ⟨hsound,0,Nat.zero_le _,?_,?_,fun h => by omega⟩
      · rw [hlength]
        show (size : ℤ) = _
        omega
      · rw [hcontents,List.replicate_zero,List.append_nil]
        congr 1
        rw [Files.contents,F'.contents_eq,(h i).contents_eq,hnew,slice_take _ hlt.le]
        exact slice_congr fun p hp => hbytes _ (by omega)
    · obtain ⟨hsound,hcontents⟩ := Sound.change h (h i) (Moved.refl _ _)
      have hrun : s.fs.resize t (s.inode i) size = ((size : ℤ),s.fs,s.inode i) := by
        rw [Ext2.resize]
        simp only [Nat.mod_eq_of_lt (show s.fs.getSize (s.inode i) < 2 ^ 32 by omega)]
        rw [if_neg (by omega),if_neg (by omega),heq]
      simp only [Files.step,hrun]
      refine ⟨hsound,0,Nat.zero_le _,?_,?_,fun h => by omega⟩
      · rw [hlength]
        show (size : ℤ) = _
        omega
      · rw [hcontents,List.replicate_zero,List.append_nil,List.take_of_length_le (by omega)]
        rfl
    · obtain ⟨r,fs',inode',block',table',hr,hrun,F',hmoved,hnew,hbytes,hshort⟩ :=
        resize_grows (t := t) (h i) hgt hfits.1
      obtain ⟨hsound,hcontents⟩ := Sound.change h F' hmoved
      simp only [Files.step,hrun]
      refine ⟨hsound,r,by omega,?_,?_,fun h => hshort (by omega)⟩
      · rw [hlength]
        show ((s.fs.getSize (s.inode i) + r : ℕ) : ℤ) = _
        omega
      · rw [hcontents,List.take_of_length_le (by omega)]
        congr 1
        rw [(h i).contents_overwrite F' le_rfl (by rw [hnew,List.length_replicate]; omega) hbytes]
        have hwhole := overwrite_end (s.contents i) (List.replicate r 0)
        rwa [hlength] at hwhole

end System

/-- The sample file system knows which blocks are in use. -/
theorem ready_sampleFs : Ready 0 256 2 sampleFs := by
  refine ⟨⟨⟨by decide,by decide,by decide⟩,by decide,fun _ _ => rfl⟩,
    (consistent_sampleFs (.inl rfl)).toCounted,by decide,by decide,by decide,?_⟩
  have hall : ∀ b < 33,b ≠ 0 → groupOf sampleFs b < 2 → ¬InUse sampleFs b →
      Spare 2 sampleFs b := by decide
  intro b hne hb
  have hpos : (b - 1) / 16 < 2 := hb
  exact hall b (by omega) hne hb

/-- Two empty files on it. -/
theorem sound_sampleFs : Sound 0 256 2 (⟨sampleFs,fun _ => onePointer 0 0⟩ : Files Bool) := by
  refine ⟨fun _ _ => 0,fun _ _ => 0,fun i => ?_⟩
  have hnone : ∀ b,¬∃ j,j ≠ i ∧ Holds (fun _ => 0) (fun _ => 0) b := by
    rintro b ⟨j,-,⟨hne,n,hb⟩ | ⟨hne,a,hb⟩⟩
    · exact hne hb.symm
    · exact hne hb.symm
  refine ⟨⟨⟨ready_sampleFs,⟨fun n _ => ?_,rfl,rfl,fun a h => absurd rfl h,fun a _ j _ => ?_⟩,
    fun a h => absurd rfl h,fun a _ h => absurd rfl h,?_,?_⟩,fun n _ h => absurd rfl h,
    fun n h => absurd rfl h⟩,⟨?_,?_⟩,fun n => ?_⟩
  · show (if n = 0 then 0 else 0) = 0
    split <;> rfl
  · cases a <;> rfl
  · rintro b (hb | ⟨hne,n,hb⟩)
    · exact absurd hb (hnone b)
    · exact absurd hb.symm hne
  · rintro a (ha | ⟨hne,-⟩)
    · exact hnone _ ha
    · exact hne rfl
  · show sampleFs.getSize (onePointer 0 0) ≤ sampleFs.blockSize * (12 + 256 ^ 2)
    decide
  · show sampleFs.getSize (onePointer 0 0) + sampleFs.blockSize ≤ 2 ^ 32
    decide
  · exact ⟨fun h => absurd rfl h,fun h => absurd h (by simp [Ext2.getSize,onePointer])⟩

end WootOs.Ext2FileContents
