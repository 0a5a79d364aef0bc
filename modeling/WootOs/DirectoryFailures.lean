import WootOs.DirectoryTermination
import WootOs.DirectoryListing
import WootOs.Ext2Groups
import WootOs.Ext2Steady

/-!
# What failed directory functions leave behind

Create and Remove change several things in turn and return from many places in
between. Whatever fails before the first change leaves everything as it was.
Create has allocated an inode when it finds no process, cannot get the inode or
cannot store the record, and does not free it. Remove holds a reference to the
inode when it finds a directory that is not empty or cannot truncate a file, and
does not drop it.
-/

namespace WootOs.DirectoryFailures

open ByteStore BitmapStore MachineInt Ext2Driver Ext2Directory Ext2Names Ext2Groups Ext2Steady
open DirectoryTermination

/-- What a failed call on a directory must leave as it was. -/
structure Untouched (this : ℕ) (m m' : Mount) : Prop where
  /-- The directory's size. -/
  size : m'.fs.getSize (m'.object this).node = m.fs.getSize (m.object this).node
  /-- Its bytes. -/
  contents : ∀ pos < m.fs.getSize (m.object this).node,
    content m'.fs (m'.object this).node pos = content m.fs (m.object this).node pos
  /-- The link counts of the inodes in the cache. -/
  cachedLinks : ∀ n,(m'.inodeCache n).map (·.iLinksCount) = (m.inodeCache n).map (·.iLinksCount)
  /-- The link counts on the volume. -/
  storedLinks : ∀ n : ℕ,word m'.fs.volume.data 2 (m'.fs.getINodeOffset n + 26) =
    word m.fs.volume.data 2 (m.fs.getINodeOffset n + 26)
  /-- The bitmaps. -/
  bitmaps : ∀ K ∈ [blockKind,inodeKind],∀ g n,marked K m'.fs g n = marked K m.fs g n
  /-- The counters of the descriptors in memory. -/
  counts : ∀ K ∈ [blockKind,inodeKind],∀ g,
    K.freeCount (m'.fs.bgdt g) = K.freeCount (m.fs.bgdt g)
  /-- The counters of the superblock. -/
  totals : ∀ K ∈ [blockKind,inodeKind],K.total m'.fs.superBlock = K.total m.fs.superBlock
  /-- The counters of directories. -/
  usedDirs : m'.bgUsedDirsCount = m.bgUsedDirsCount
  /-- The descriptors on the volume. -/
  copies : ∀ i g o,m'.fs.volume.data (m'.fs.bgdtOffset i + descriptorSize * g + o) =
    m.fs.volume.data (m.fs.bgdtOffset i + descriptorSize * g + o)
  /-- The references to the inodes in the cache. -/
  references : ∀ n,
    (m'.inodeCache n).map (·.referenceCount) = (m.inodeCache n).map (·.referenceCount)

/-- The volume serves the bitmaps and the fields of descriptors, inode numbers
have 32 bits, and so has the counter of free inodes. -/
structure Sound (fs : Ext2) : Prop where
  /-- Accesses to one or two bytes succeed. -/
  served : ∀ pos,∀ n ≤ 2,fs.volume.served pos n = n
  /-- Every inode has a number. -/
  numbers : fs.blockGroupCount * fs.superBlock.sInodesPerGroup < 2 ^ 32
  /-- The counter is an unsigned int. -/
  total : fs.superBlock.sFreeInodesCount < 2 ^ 32

section Allocation

variable {fs : Ext2}

/-- Descriptor updates succeed, and change bytes only. -/
theorem updateCopies_served {bg startOffs : ℕ} {field : List UInt8} {is : List ℕ}
    (h : ∀ pos,fs.volume.served pos field.length = field.length) :
    (fs.updateCopies bg startOffs field is).1 = true ∧
      (fs.updateCopies bg startOffs field is).2.superBlock = fs.superBlock := by
  induction is generalizing fs with
  | nil => exact ⟨rfl,rfl⟩
  | cons i is ih =>
    rw [Ext2.updateCopies]
    split
    · exact ih h
    · have hw : (fs.volume.write field (fs.bgdtOffset i + descriptorSize * bg + startOffs)).1 =
          field.length := h _
      simp only [hw,ne_eq,not_true,if_false]
      exact @ih { fs with volume := _ } h

/-- The search of one group finds nothing and changes nothing, or takes a bit and
counts it. -/
theorem takeBit_served {g rest j : ℕ} (h : ∀ pos,∀ n ≤ 2,fs.volume.served pos n = n) :
    fs.takeBit inodeKind g rest j = (.full,fs) ∨
      ∃ n < 8 * (j + rest),(fs.takeBit inodeKind g rest j).1 = .bit n ∧
        (fs.takeBit inodeKind g rest j).2.superBlock = { fs.superBlock with
          sFreeInodesCount := (fs.superBlock.sFreeInodesCount + (2 ^ 32 - 1)) % 2 ^ 32 } := by
  induction rest generalizing j with
  | zero => exact .inl rfl
  | succ rest ih =>
    have hread : (fs.volume.read (fs.bitmapByte inodeKind g j) 1).1 = 1 := h _ 1 (by omega)
    rw [Ext2.takeBit]
    simp only [hread,ne_eq,not_true,if_false]
    split
    · rcases @ih (j + 1) with hfull | ⟨n,hn,hbit⟩
      · exact .inl hfull
      · exact .inr ⟨n,by omega,hbit⟩
    · rename_i hclear
      have hbit := (lowestClear_spec hclear).1
      refine .inr ⟨j * 8 + lowestClear ((fs.volume.read (fs.bitmapByte inodeKind g j) 1).2.headD 0),
        by omega,?_⟩
      have hwrite : ∀ b pos,(fs.volume.write [b] pos).1 = 1 := fun b pos => h _ 1 (by omega)
      simp only [hwrite,not_true,if_false]
      obtain ⟨hdone,hsuper⟩ := @updateCopies_served { fs with
          volume := (fs.volume.write
            [markBit ((fs.volume.read (fs.bitmapByte inodeKind g j) 1).2.headD 0)
              (lowestClear ((fs.volume.read (fs.bitmapByte inodeKind g j) 1).2.headD 0))]
            (fs.bitmapByte inodeKind g j)).2
          bgdt := Function.update fs.bgdt g (inodeKind.setFreeCount (fs.bgdt g)
            ((inodeKind.freeCount (fs.bgdt g) + (2 ^ 16 - 1)) % 2 ^ 16)) } g
        inodeKind.fieldOffset (leBytes 2 (inodeKind.freeCount (Function.update fs.bgdt g
          (inodeKind.setFreeCount (fs.bgdt g)
            ((inodeKind.freeCount (fs.bgdt g) + (2 ^ 16 - 1)) % 2 ^ 16)) g)))
        (List.range fs.blockGroupCount) (fun pos => by rw [leBytes_length]; exact h pos 2 le_rfl)
      rw [Ext2.updateBGDT]
      simp only [hdone,Bool.not_true,Bool.false_eq_true,if_false,true_and]
      rw [hsuper]
      rfl

/-- Allocating an inode changes nothing, or counts it. -/
theorem allocINode_served (h : Sound fs) :
    fs.allocINode.1 = 0 ∧ fs.allocINode.2.2 = fs ∨
      fs.allocINode.1 ≠ 0 ∧ fs.allocINode.2.2.superBlock = { fs.superBlock with
        sFreeInodesCount := (fs.superBlock.sFreeInodesCount + (2 ^ 32 - 1)) % 2 ^ 32 } := by
  have hall : ∀ is : List ℕ,(∀ i ∈ is,i < fs.blockGroupCount) →
      (fs.allocINodeFrom is).1 = 0 ∧ (fs.allocINodeFrom is).2.2 = fs ∨
      (fs.allocINodeFrom is).1 ≠ 0 ∧ (fs.allocINodeFrom is).2.2.superBlock = { fs.superBlock with
        sFreeInodesCount := (fs.superBlock.sFreeInodesCount + (2 ^ 32 - 1)) % 2 ^ 32 } := by
    intro is
    induction is with
    | nil => exact fun _ => .inl ⟨rfl,rfl⟩
    | cons i is ih =>
      intro hin
      have hrest := ih fun k hk => hin k (by simp [hk])
      rw [Ext2.allocINodeFrom]
      split
      · exact hrest
      · rcases @takeBit_served fs i (fs.superBlock.sInodesPerGroup / 8) 0 h.served with
          hfull | ⟨n,hn,hbit,hsuper⟩
        · simp only [hfull]
          exact hrest
        · have hi := hin i (by simp)
          have hle : (i + 1) * fs.superBlock.sInodesPerGroup ≤
              fs.blockGroupCount * fs.superBlock.sInodesPerGroup := Nat.mul_le_mul_right _ hi
          have hnum := h.numbers
          simp only [hbit,hsuper]
          refine .inr ⟨?_,trivial⟩
          rw [Nat.add_mul,Nat.one_mul] at hle
          rw [Nat.mod_eq_of_lt (by omega)]
          omega
  exact hall _ fun i hi => List.mem_range.mp hi

end Allocation

section Objects

variable {m m' : Mount} {n k t : ℕ} {o : CachedINode} {node : FSINode}

/-- The cache after an object is replaced. -/
theorem inodeCache_setObject :
    (m.setObject n o).inodeCache k = if k = n then some o else m.inodeCache k := by
  show Function.update m.inodeCache n (some o) k = _
  rw [Function.update_apply]

/-- A replaced object is found under its number. -/
theorem object_setObject : (m.setObject n o).object k = if k = n then o else m.object k := by
  rw [Mount.object,inodeCache_setObject]
  split <;> rfl

theorem object_setNode : (m.setNode n node).object k =
    if k = n then { m.object n with node := node } else m.object k := object_setObject

/-- Another node of a cached inode does not show in the rest of the cache. -/
theorem map_setNode {α : Type*} {f : CachedINode → α} (hf : ∀ o node,f { o with node := node } = f o)
    (hn : (m.inodeCache n).isSome) :
    ((m.setNode n node).inodeCache k).map f = (m.inodeCache k).map f := by
  rw [Mount.setNode,inodeCache_setObject]
  split
  · rename_i hk
    obtain ⟨o,ho⟩ := Option.isSome_iff_exists.mp hn
    rw [hk,Option.map_some,hf,Mount.object,ho]
    rfl
  · rfl

/-- Links are not among what the file functions change. -/
theorem links_setNode : ((m.setNode n node).object k).iLinksCount = (m.object k).iLinksCount := by
  rw [object_setNode]
  split
  · rename_i hk
    rw [hk]
  · rfl

/-- Getting an inode touches only the cache. -/
theorem getINode_fs (h : m.getINode n = some m') : m'.fs = m.fs := by
  rw [Mount.getINode] at h
  split at h
  · cases h
    rfl
  · simp only at h
    split at h
    · cases h
    · cases h
      rfl

theorem aside_mount_write {buf : List UInt8} {pos : ℕ} :
    aside (m.write t n buf pos).2.fs = aside m.fs := aside_file_write

theorem links_mount_write {buf : List UInt8} {pos : ℕ} :
    ((m.write t n buf pos).2.object k).iLinksCount = (m.object k).iLinksCount := links_setNode

theorem aside_mount_resize {size : ℤ} : aside (m.resize t n size).2.fs = aside m.fs := aside_resize

theorem links_mount_resize {size : ℤ} :
    ((m.resize t n size).2.object k).iLinksCount = (m.object k).iLinksCount := links_setNode

/-- Storing pieces of a file is work on files. -/
theorem aside_writeAll {pieces : List (List UInt8 × ℕ)} :
    aside (m.writeAll t n pieces).2.fs = aside m.fs := by
  induction pieces generalizing m with
  | nil => rfl
  | cons piece rest ih =>
    obtain ⟨buf,pos⟩ := piece
    rw [Mount.writeAll]
    split
    · exact aside_mount_write
    · exact ih.trans aside_mount_write

theorem links_writeAll {pieces : List (List UInt8 × ℕ)} :
    ((m.writeAll t n pieces).2.object k).iLinksCount = (m.object k).iLinksCount := by
  induction pieces generalizing m with
  | nil => rfl
  | cons piece rest ih =>
    obtain ⟨buf,pos⟩ := piece
    rw [Mount.writeAll]
    split
    · exact links_mount_write
    · exact ih.trans links_mount_write

/-- Putting an inode with a link does not release it. -/
theorem aside_putINode (h : (m.object n).iLinksCount ≠ 0) :
    aside (m.putINode t n).fs = aside m.fs := by
  rw [Mount.putINode]
  simp only
  split
  · rfl
  · rw [Mount.release,if_pos h]
    split <;> rfl

end Objects

section Unchanged

variable {m : Mount} {this fuel t : ℕ} {node : FSINode} {name : List UInt8}

/-- Where the bytes of a file are does not depend on the time of the last access. -/
theorem content_strip {fs : Ext2} {inode inode' : FSINode} (h : strip inode = strip inode') :
    content fs inode = content fs inode' := by
  show content fs (strip inode) = content fs (strip inode')
  rw [h]

/-- A call that has only read the directory leaves everything as it was. -/
theorem untouched_setNode (hthis : (m.inodeCache this).isSome)
    (h : strip node = strip (m.object this).node) : Untouched this m (m.setNode this node) := by
  have hnode : ((m.setNode this node).object this).node = node := by
    rw [object_setNode,if_pos rfl]
  refine ⟨?_,fun pos _ => ?_,fun n => map_setNode (fun _ _ => rfl) hthis,fun _ => rfl,
    fun _ _ _ _ => rfl,fun _ _ _ => rfl,fun _ _ => rfl,rfl,fun _ _ _ => rfl,
    fun n => map_setNode (fun _ _ => rfl) hthis⟩
  · rw [hnode]
    exact getSize_strip h
  · rw [hnode,content_strip h]
    rfl

/-- So does a call that returns at once. -/
theorem untouched_self : Untouched this m m :=
  ⟨rfl,fun _ _ => rfl,fun _ => rfl,fun _ => rfl,fun _ _ _ _ => rfl,fun _ _ _ => rfl,
    fun _ _ => rfl,rfl,fun _ _ _ => rfl,fun _ => rfl⟩

/-- A read changes the time of the last access at most. -/
theorem strip_read {fs : Ext2} {inode : FSINode} {pos n : ℕ} :
    strip (fs.read t inode pos n).2.2 = strip inode := (@read_strip fs inode inode t t n pos rfl).2.2

/-- So does ReadDir. -/
theorem readDirINode_strip {fs : Ext2} {inode inode₁ : FSINode} {pos q : ℕ}
    {e : Option DirectoryEntry} (h : readDirINode fs fuel t inode pos = some (e,q,inode₁)) :
    strip inode₁ = strip inode := by
  rw [readDirINode] at h
  split at h
  · cases h
    rfl
  · rename_i hdir
    exact (readDirLoop_spec hdir rfl h).1

/-- And Lookup. -/
theorem lookupLoop_strip {fs : Ext2} {inode inode₁ : FSINode} {size rounds pos : ℕ}
    {found : Option ℕ}
    (h : lookupLoop fs fuel t size name rounds inode pos = some (found,inode₁)) :
    strip inode₁ = strip inode := by
  induction rounds generalizing inode pos with
  | zero => cases h
  | succ rounds ih =>
    rw [lookupLoop] at h
    split at h
    · cases h
      rfl
    · split at h
      · cases h
      · rename_i hrun
        cases h
        exact readDirINode_strip hrun
      · rename_i hrun
        split at h
        · cases h
          exact readDirINode_strip hrun
        · exact (ih h).trans (readDirINode_strip hrun)

/-- And the search of Remove. -/
theorem removeLoop_strip {fs : Ext2} {inode inode₁ : FSINode} {size prevPos pos : ℕ}
    {prevDe : Record} {found : Found}
    (h : removeLoop fs t size name fuel inode prevDe prevPos pos = some (found,inode₁)) :
    strip inode₁ = strip inode := by
  induction fuel generalizing inode prevDe prevPos pos with
  | zero => cases h
  | succ fuel ih =>
    have hname : ∀ n,strip (fs.read t (fs.read t inode pos headerSize).2.2
        (pos + headerSize) n).2.2 = strip inode := fun n => strip_read.trans strip_read
    rw [removeLoop] at h
    simp only at h
    split at h
    · cases h
      rfl
    · split at h
      · cases h
        exact strip_read
      · split at h
        · exact (ih h).trans strip_read
        · split at h
          · cases h
            exact hname _
          · split at h
            · exact (ih h).trans (hname _)
            · cases h
              exact hname _

end Unchanged

/-- The new record, its name and, if there is no room, a new block can be stored. -/
def Stored (m : Mount) (curTime this : ℕ) (name : List UInt8) (de : Record) : Place → Prop
  | .within position cde =>
    let cdeMinEnd := position + minSize cde.nameLen
    let de := { de with recLen := unsigned 16 ((position + cde.recLen : ℤ) - cdeMinEnd) }
    let shrunk := if position % m.fs.blockSize = 0 then [] else
      [(({ cde with recLen := minSize cde.nameLen } : Record).bytes,position)]
    (m.writeAll curTime this
      (shrunk ++ [(de.bytes,cdeMinEnd),(name,cdeMinEnd + headerSize)])).1 = true
  | .unused position cde =>
    let w := m.writeAll curTime this [(({ de with recLen := cde.recLen } : Record).bytes,position)]
    w.1 = true ∧ (w.2.writeAll curTime this [(name,position + headerSize)]).1 = true
  | .newBlock =>
    let bs := m.fs.blockSize
    let cSize := bs * ((m.fs.getSize (m.object this).node + (bs - 1)) / bs)
    let r := m.resize curTime this (cSize + bs : ℕ)
    r.1 = (cSize + bs : ℕ) ∧ (r.2.writeAll curTime this
      [(({ de with recLen := bs % 2 ^ 16 } : Record).bytes,cSize),(name,cSize + headerSize)]).1 = true

/-- The state after Lookup and the allocation of an inode. -/
def allocated (m : Mount) (this : ℕ) (node : FSINode) : Mount :=
  { m.setNode this node with fs := m.fs.allocINode.2.2 }

/-- The state after the new inode got its attributes. -/
def begun (m : Mount) (c : Caller) (ino uid gid mode : ℕ) : Mount :=
  m.setObject ino (initINode (m.object ino) c.curTime uid gid mode)

/-- Create has allocated an inode and then finds no process, cannot get the
inode, or cannot store the record. -/
def CreateLeaks (m : Mount) (c : Caller) (fuel this : ℕ) (name : List UInt8) (mode : ℕ) : Prop :=
  isValidFileName name ∧ isDir (m.object this).node.iMode ∧ m.fs.allocINode.1 ≠ 0 ∧
    ∃ node,lookup m.fs fuel c.curTime (m.object this).node name = some (none,node) ∧
      (c.process = none ∨ (allocated m this node).getINode m.fs.allocINode.1 = none ∨
        ∃ uid gid m₁ s,c.process = some (uid,gid) ∧
          (allocated m this node).getINode m.fs.allocINode.1 = some m₁ ∧
          let m₂ := begun m₁ c m.fs.allocINode.1 uid gid mode
          let de := newRecord m₂.fs m.fs.allocINode.1 mode name
          scanLoop m₂.fs c.curTime de fuel (m₂.object this).node 0 = some s ∧
          ¬Stored (m₂.setNode this s.2) c.curTime this name de s.1)

section Creation

variable {m : Mount} {c : Caller} {fuel this mode t ino bg : ℕ} {name : List UInt8} {de : Record}

/-- Linking succeeds exactly if the record can be stored. -/
theorem link_iff_stored {place : Place} :
    (m.link t this ino bg mode name de place).1 = true ↔ Stored m t this name de place := by
  cases place with
  | within position cde =>
    simp only [Mount.link,Stored]
    generalize m.writeAll t this (_ ++ _) = w
    cases w.1 <;> simp
  | unused position cde =>
    simp only [Mount.link,Stored]
    generalize m.writeAll t this [_] = w
    cases hw : w.1 with
    | false => simp
    | true =>
      generalize w.2.writeAll t this [_] = n
      cases hn : n.1 <;> simp [hn]
  | newBlock =>
    simp only [Mount.link,Stored]
    push_cast
    generalize m.resize t this _ = r
    split
    · simp_all
    · generalize r.2.writeAll t this [_,_] = w
      cases hw : w.1 <;> simp_all

/-- A record that cannot be stored leaves the counters of inodes alone. -/
theorem aside_link_failed {place : Place} (hlinks : (m.object ino).iLinksCount ≠ 0)
    (h : (m.link t this ino bg mode name de place).1 = false) :
    aside (m.link t this ino bg mode name de place).2.fs = aside m.fs := by
  have hput : ∀ m' : Mount,aside m'.fs = aside m.fs →
      (m'.object ino).iLinksCount = (m.object ino).iLinksCount →
      aside (m'.putINode t ino).fs = aside m.fs := fun m' hfs hkeep =>
    (aside_putINode (by rw [hkeep]; exact hlinks)).trans hfs
  cases place with
  | within position cde =>
    simp only [Mount.link] at h ⊢
    generalize hw : m.writeAll t this (_ ++ _) = w at h ⊢
    have hkeep : aside w.2.fs = aside m.fs ∧
        (w.2.object ino).iLinksCount = (m.object ino).iLinksCount := hw ▸ ⟨aside_writeAll,links_writeAll⟩
    cases hok : w.1 with
    | false =>
      simp only [Bool.not_false,if_true]
      exact hput _ hkeep.1 hkeep.2
    | true => simp [hok] at h
  | unused position cde =>
    simp only [Mount.link] at h ⊢
    generalize hw : m.writeAll t this [_] = w at h ⊢
    have hkeep : aside w.2.fs = aside m.fs ∧
        (w.2.object ino).iLinksCount = (m.object ino).iLinksCount := hw ▸ ⟨aside_writeAll,links_writeAll⟩
    cases hok : w.1 with
    | false =>
      simp only [Bool.not_false,if_true]
      exact hput _ hkeep.1 hkeep.2
    | true =>
      simp only [hok,Bool.not_true,Bool.false_eq_true,if_false] at h ⊢
      split
      · exact aside_writeAll.trans hkeep.1
      · rename_i hstored
        rw [if_neg hstored] at h
        cases h
  | newBlock =>
    simp only [Mount.link] at h ⊢
    split
    · exact hput _ aside_mount_resize links_mount_resize
    · rename_i hsized
      rw [if_neg hsized] at h
      split
      · exact hput _ (aside_writeAll.trans aside_mount_resize)
          (links_writeAll.trans links_mount_resize)
      · rename_i hstored
        rw [if_neg hstored] at h
        cases h

/-- A counted inode shows in the superblock. -/
theorem not_untouched_of_allocated {m' : Mount} (hs : Sound m.fs) (hino : m.fs.allocINode.1 ≠ 0)
    (hfs : aside m'.fs = aside m.fs.allocINode.2.2) : ¬Untouched this m m' := by
  intro h
  have htotal : m'.fs.superBlock.sFreeInodesCount = m.fs.superBlock.sFreeInodesCount :=
    h.totals inodeKind (by simp)
  have hkept : m'.fs.superBlock.sFreeInodesCount =
      m.fs.allocINode.2.2.superBlock.sFreeInodesCount :=
    aside_eq (f := fun x => x.superBlock.sFreeInodesCount) (fun _ => rfl) hfs
  rcases allocINode_served hs with ⟨hnone,-⟩ | ⟨-,hsuper⟩
  · exact hino hnone
  · rw [hsuper] at hkept
    have hlt := hs.total
    have heq : (m.fs.superBlock.sFreeInodesCount + (2 ^ 32 - 1)) % 2 ^ 32 =
        m.fs.superBlock.sFreeInodesCount := hkept.symm.trans htotal
    omega

/-- After an allocation, Create fails for one of three reasons. -/
theorem createNew_failed {node : FSINode} {m' : Mount} (hino : m.fs.allocINode.1 ≠ 0)
    (h : (m.setNode this node).createNew c fuel this name mode = some (false,m')) :
    (c.process = none ∨ (allocated m this node).getINode m.fs.allocINode.1 = none ∨
      ∃ uid gid m₁ s,c.process = some (uid,gid) ∧
        (allocated m this node).getINode m.fs.allocINode.1 = some m₁ ∧
        let m₂ := begun m₁ c m.fs.allocINode.1 uid gid mode
        let de := newRecord m₂.fs m.fs.allocINode.1 mode name
        scanLoop m₂.fs c.curTime de fuel (m₂.object this).node 0 = some s ∧
        ¬Stored (m₂.setNode this s.2) c.curTime this name de s.1) := by
  rw [Mount.createNew] at h
  simp only at h
  split at h
  · rename_i hzero
    exact absurd hzero hino
  · split at h
    · rename_i hproc
      exact .inl hproc
    · rename_i uid gid hproc
      split at h
      · rename_i hget
        exact .inr (.inl hget)
      · rename_i m₁ hget
        obtain ⟨s,hscan,hlink⟩ := Option.map_eq_some_iff.mp h
        refine .inr (.inr ⟨uid,gid,m₁,s,hproc,hget,hscan,?_⟩)
        rw [←@link_iff_stored _ this mode c.curTime m.fs.allocINode.1
          (m.fs.allocINode.2.1.getD 0)]
        exact fun htrue => Bool.noConfusion (htrue.symm.trans (congrArg Prod.fst hlink))

/-- Create is refused, finds the name, finds no free inode, or leaks an inode. -/
theorem create_failed {m' : Mount} (hs : Sound m.fs) (hthis : (m.inodeCache this).isSome)
    (h : m.create c fuel this name mode = some (false,m')) :
    Untouched this m m' ∨ CreateLeaks m c fuel this name mode := by
  rw [Mount.create] at h
  split at h
  · cases h
    exact .inl untouched_self
  · rename_i hvalid
    split at h
    · cases h
      exact .inl untouched_self
    · rename_i hdir
      split at h
      · cases h
      · rename_i hlook
        cases h
        exact .inl (untouched_setNode hthis (lookupLoop_strip hlook))
      · rename_i node hlook
        rcases allocINode_served hs with ⟨hnone,hsame⟩ | ⟨hino,-⟩
        · rw [Mount.createNew] at h
          have hfs : (m.setNode this node).fs.allocINode.2.2 = m.fs := hsame
          simp only [hfs,if_pos (show (m.setNode this node).fs.allocINode.1 = 0 from hnone)] at h
          cases h
          exact .inl (untouched_setNode hthis (lookupLoop_strip hlook))
        · refine .inr ⟨by simpa using hvalid,by simpa using hdir,hino,node,hlook,?_⟩
          exact createNew_failed hino h

/-- A leaked inode stays allocated. -/
theorem create_leaks (hs : Sound m.fs) (h : CreateLeaks m c fuel this name mode) :
    ∃ m',m.create c fuel this name mode = some (false,m') ∧ ¬Untouched this m m' := by
  obtain ⟨hvalid,hdir,hino,node,hlook,hfail⟩ := h
  have hcreate : m.create c fuel this name mode =
      (m.setNode this node).createNew c fuel this name mode := by
    rw [Mount.create]
    simp only [hvalid,hdir,hlook,Bool.not_true,Bool.false_eq_true,if_false]
  have hino' : ¬(m.setNode this node).fs.allocINode.1 = 0 := hino
  rw [hcreate,Mount.createNew]
  simp only [if_neg hino']
  rcases hfail with hproc | hget | ⟨uid,gid,m₁,s,hproc,hget,hscan,hstored⟩
  · rw [hproc]
    exact ⟨_,rfl,not_untouched_of_allocated hs hino rfl⟩
  · cases hproc : c.process with
    | none => exact ⟨_,rfl,not_untouched_of_allocated hs hino rfl⟩
    | some ids =>
      obtain ⟨uid,gid⟩ := ids
      have hget' : ({ m.setNode this node with
          fs := (m.setNode this node).fs.allocINode.2.2 } : Mount).getINode
          (m.setNode this node).fs.allocINode.1 = none := hget
      simp only [hget']
      exact ⟨_,rfl,not_untouched_of_allocated hs hino rfl⟩
  · have hget' : ({ m.setNode this node with
        fs := (m.setNode this node).fs.allocINode.2.2 } : Mount).getINode
        (m.setNode this node).fs.allocINode.1 = some m₁ := hget
    have hscan' : scanLoop (m₁.setObject (m.setNode this node).fs.allocINode.1
        (initINode (m₁.object (m.setNode this node).fs.allocINode.1) c.curTime uid gid mode)).fs
        c.curTime (newRecord (m₁.setObject (m.setNode this node).fs.allocINode.1
          (initINode (m₁.object (m.setNode this node).fs.allocINode.1) c.curTime uid gid mode)).fs
          (m.setNode this node).fs.allocINode.1 mode name) fuel
        ((m₁.setObject (m.setNode this node).fs.allocINode.1
          (initINode (m₁.object (m.setNode this node).fs.allocINode.1) c.curTime uid gid
            mode)).object this).node 0 = some s := hscan
    simp only [hproc,hget',hscan',Option.map_some]
    have hfalse := Bool.eq_false_iff.mpr (mt (@link_iff_stored _ this mode c.curTime
      m.fs.allocINode.1 (m.fs.allocINode.2.1.getD 0) name _ s.1).mp hstored)
    have hlinks : (((begun m₁ c m.fs.allocINode.1 uid gid mode).setNode this s.2).object
        m.fs.allocINode.1).iLinksCount ≠ 0 := by
      rw [links_setNode,begun,object_setObject,if_pos rfl]
      exact Nat.one_ne_zero
    refine ⟨_,congrArg some (Prod.ext hfalse rfl),not_untouched_of_allocated hs hino ?_⟩
    rw [show m.fs.allocINode.2.2 = m₁.fs from (getINode_fs hget).symm]
    exact aside_link_failed hlinks hfalse

end Creation

/-- Remove has found the record and got the inode. -/
def Gets (m : Mount) (c : Caller) (fuel this : ℕ) (name : List UInt8) (prevDe : Record)
    (prevPos : ℕ) (de : Record) (position : ℕ) (m₁ : Mount) : Prop :=
  (m.object this).node.iMode &&& ext2SIfDir ≠ 0 ∧
    ∃ node,removeLoop m.fs c.curTime (m.fs.getSize (m.object this).node) name fuel
        (m.object this).node Record.blank 0 0 = some (.entry prevDe prevPos de position,node) ∧
      (m.setNode this node).getINode de.inode = some m₁

/-- What the search through the inode finds, if it is a directory. -/
def contentsOf (m₁ : Mount) (c : Caller) (fuel ino : ℕ) : Option (Emptiness × FSINode) :=
  emptyLoop m₁.fs c.curTime (m₁.fs.getSize (m₁.object ino).node) fuel (m₁.object ino).node 0 0 0

/-- Remove goes on to unlink the inode. -/
def Unlinks (m₁ : Mount) (c : Caller) (fuel this ino : ℕ) (m₂ : Mount) : Prop :=
  isDir (m₁.object ino).node.iMode = false ∧ m₂ = m₁ ∨
    isDir (m₁.object ino).node.iMode = true ∧ ∃ self parent node,
      contentsOf m₁ c fuel ino = some (.empty self parent,node) ∧
      m₂ = (m₁.setNode ino node).dropLinks this ino self parent

/-- One link less. -/
def unlinked (m₂ : Mount) (ino : ℕ) : Mount :=
  if (m₂.object ino).iLinksCount ≠ 0 then
    m₂.setObject ino ((m₂.object ino).setLinks ((m₂.object ino).iLinksCount - 1)) else m₂

/-- What truncating the inode returns, if it has no link left. -/
def truncated (m₂ : Mount) (curTime ino : ℕ) : ℤ × Mount :=
  if ((unlinked m₂ ino).object ino).iLinksCount = 0 then
    (unlinked m₂ ino).resize curTime ino 0 else (0,unlinked m₂ ino)

/-- What taking the record out of the directory returns. -/
def rewritten (m₂ : Mount) (curTime this : ℕ) (prevDe : Record) (prevPos : ℕ) (de : Record)
    (position : ℕ) : ℤ × Mount :=
  let m := (truncated m₂ curTime de.inode).2.putINode curTime de.inode
  if position % m.fs.blockSize = 0 then
    m.write curTime this ({ de with inode := 0 } : Record).bytes position
  else m.write curTime this
    ({ prevDe with recLen := (prevDe.recLen + de.recLen) % 2 ^ 16 } : Record).bytes prevPos

/-- Remove has got an inode and finds a directory that is not empty or cannot be
read, or a file that has lost its last link but cannot be truncated. -/
def RemoveLeaks (m : Mount) (c : Caller) (fuel this : ℕ) (name : List UInt8) : Prop :=
  ∃ prevDe prevPos de position m₁,Gets m c fuel this name prevDe prevPos de position m₁ ∧
    (isDir (m₁.object de.inode).node.iMode = true ∧
        (∃ node,contentsOf m₁ c fuel de.inode = some (.failed,node) ∨
          contentsOf m₁ c fuel de.inode = some (.nonEmpty,node)) ∨
      ∃ m₂,Unlinks m₁ c fuel this de.inode m₂ ∧ (truncated m₂ c.curTime de.inode).1 ≠ 0)

/-- Remove has unlinked an inode and the volume does not take the eight bytes of
the record. -/
def RewriteFails (m : Mount) (c : Caller) (fuel this : ℕ) (name : List UInt8) : Prop :=
  ∃ prevDe prevPos de position m₁ m₂,Gets m c fuel this name prevDe prevPos de position m₁ ∧
    Unlinks m₁ c fuel this de.inode m₂ ∧ (truncated m₂ c.curTime de.inode).1 = 0 ∧
    (rewritten m₂ c.curTime this prevDe prevPos de position).1 ≠ headerSize

section Removal

variable {m m' m₁ m₂ : Mount} {c : Caller} {fuel this t n k prevPos position : ℕ}
  {name : List UInt8} {prevDe de : Record} {node : FSINode}

theorem references_setNode :
    ((m.setNode n node).object k).referenceCount = (m.object k).referenceCount := by
  rw [object_setNode]
  split
  · rename_i hk
    rw [hk]
  · rfl

theorem references_setLinks {links : ℕ} :
    ((m.setObject n ((m.object n).setLinks links)).object k).referenceCount =
      (m.object k).referenceCount := by
  rw [object_setObject]
  split
  · rename_i hk
    rw [hk]
    rfl
  · rfl

/-- Getting an inode adds a reference. -/
theorem references_getINode (h : m.getINode n = some m₁) :
    (m₁.object n).referenceCount = (m.object n).referenceCount + 1 := by
  rw [Mount.getINode] at h
  split at h
  · rename_i o ho
    cases h
    rw [object_setObject,if_pos rfl,Mount.object,ho]
    rfl
  · rename_i hnone
    simp only at h
    split at h
    · cases h
    · cases h
      rw [object_setObject,if_pos rfl,Mount.object,hnone]
      rfl

/-- A reference that is not dropped shows in the cache. -/
theorem not_untouched_of_references
    (h : (m'.object n).referenceCount = (m.object n).referenceCount + 1) :
    ¬Untouched this m m' := by
  intro hsame
  have hmap := hsame.references n
  rw [Mount.object,Mount.object] at h
  cases h' : m'.inodeCache n <;> cases h'' : m.inodeCache n <;> simp_all

/-- Unlinking and truncating keep the reference. -/
theorem references_truncated :
    ((truncated m₂ t n).2.object k).referenceCount = (m₂.object k).referenceCount := by
  have hdrop : ((unlinked m₂ n).object k).referenceCount = (m₂.object k).referenceCount := by
    rw [unlinked]
    split
    · exact references_setLinks
    · rfl
  rw [truncated]
  split
  · exact references_setNode.trans hdrop
  · exact hdrop

theorem references_unlinks (h : Unlinks m₁ c fuel this n m₂) :
    (m₂.object k).referenceCount = (m₁.object k).referenceCount := by
  rcases h with ⟨-,rfl⟩ | ⟨-,self,parent,node,-,rfl⟩
  · rfl
  · exact references_setLinks.trans (references_setLinks.trans references_setNode)

/-- Unlinking, step by step. -/
theorem unlink_eq : m₂.unlink t this prevDe prevPos de position =
    if (truncated m₂ t de.inode).1 ≠ 0 then
      (if (truncated m₂ t de.inode).1 < 0 then (truncated m₂ t de.inode).1 else -eIo,
        (truncated m₂ t de.inode).2)
    else (if (rewritten m₂ t this prevDe prevPos de position).1 ≠ headerSize then -eIo else 0,
      (rewritten m₂ t this prevDe prevPos de position).2) := rfl

/-- Remove, from the inode it got. -/
theorem remove_eq (h : Gets m c fuel this name prevDe prevPos de position m₁) :
    m.remove c fuel this name =
      if isDir (m₁.object de.inode).node.iMode = false then
        some (m₁.unlink c.curTime this prevDe prevPos de position)
      else match contentsOf m₁ c fuel de.inode with
        | none => none
        | some (.failed,node) => some (-eIo,m₁.setNode de.inode node)
        | some (.nonEmpty,node) => some (-eNotEmpty,m₁.setNode de.inode node)
        | some (.empty self parent,node) =>
          some (((m₁.setNode de.inode node).dropLinks this de.inode self parent).unlink
            c.curTime this prevDe prevPos de position) := by
  obtain ⟨hdir,node,hloop,hget⟩ := h
  rw [Mount.remove]
  simp only [if_neg hdir,hloop,Mount.removeEntry,hget,contentsOf]
  cases hmode : isDir (m₁.object de.inode).node.iMode with
  | false => simp
  | true =>
    generalize emptyLoop _ _ _ _ _ _ _ _ = r
    rcases r with _ | ⟨found,node'⟩
    · rfl
    · cases found <;> rfl

/-- A failed unlinking is one of truncating or of rewriting the record. -/
theorem unlink_failed (h : (m₂.unlink t this prevDe prevPos de position).1 < 0) :
    (truncated m₂ t de.inode).1 ≠ 0 ∨ (truncated m₂ t de.inode).1 = 0 ∧
      (rewritten m₂ t this prevDe prevPos de position).1 ≠ headerSize := by
  by_cases htrunc : (truncated m₂ t de.inode).1 ≠ 0
  · exact .inl htrunc
  · refine .inr ⟨not_not.mp htrunc,fun hdone => ?_⟩
    rw [unlink_eq,if_neg htrunc] at h
    simp only [hdone,ne_eq,not_true,if_false,lt_irrefl] at h

/-- Remove finds nothing, or has got an inode and fails later. -/
theorem remove_failed {e : ℤ} (hthis : (m.inodeCache this).isSome)
    (h : m.remove c fuel this name = some (e,m')) (he : e < 0) :
    Untouched this m m' ∨ RemoveLeaks m c fuel this name ∨ RewriteFails m c fuel this name := by
  by_cases hdir : (m.object this).node.iMode &&& ext2SIfDir = 0
  · rw [Mount.remove] at h
    simp only [if_pos hdir] at h
    cases h
    exact .inl untouched_self
  · cases hloop : removeLoop m.fs c.curTime (m.fs.getSize (m.object this).node) name fuel
        (m.object this).node Record.blank 0 0 with
    | none => simp only [Mount.remove,if_neg hdir,hloop,reduceCtorEq] at h
    | some r =>
      obtain ⟨found,node⟩ := r
      have hsame := untouched_setNode hthis (removeLoop_strip hloop)
      cases found with
      | failed e' =>
        simp only [Mount.remove,if_neg hdir,hloop] at h
        cases h
        exact .inl hsame
      | entry prevDe prevPos de position =>
        cases hget : (m.setNode this node).getINode de.inode with
        | none =>
          simp only [Mount.remove,if_neg hdir,hloop,Mount.removeEntry,hget] at h
          cases h
          exact .inl hsame
        | some m₁ =>
          have hgets : Gets m c fuel this name prevDe prevPos de position m₁ :=
            ⟨hdir,node,hloop,hget⟩
          rw [remove_eq hgets] at h
          have hlater : ∀ m₂,Unlinks m₁ c fuel this de.inode m₂ →
              m₂.unlink c.curTime this prevDe prevPos de position = (e,m') →
              RemoveLeaks m c fuel this name ∨ RewriteFails m c fuel this name := by
            intro m₂ hm₂ hrun
            rcases unlink_failed (by rw [hrun]; exact he) with htrunc | ⟨hzero,hwrite⟩
            · exact .inl ⟨prevDe,prevPos,de,position,m₁,hgets,.inr ⟨m₂,hm₂,htrunc⟩⟩
            · exact .inr ⟨prevDe,prevPos,de,position,m₁,m₂,hgets,hm₂,hzero,hwrite⟩
          split at h
          · rename_i hfile
            exact .inr (hlater m₁ (.inl ⟨hfile,rfl⟩) (Option.some.inj h))
          · rename_i hfile
            have hmode : isDir (m₁.object de.inode).node.iMode = true := by simpa using hfile
            split at h
            · cases h
            · rename_i node' hfound
              exact .inr (.inl ⟨prevDe,prevPos,de,position,m₁,hgets,.inl ⟨hmode,node',.inl hfound⟩⟩)
            · rename_i node' hfound
              exact .inr (.inl ⟨prevDe,prevPos,de,position,m₁,hgets,.inl ⟨hmode,node',.inr hfound⟩⟩)
            · rename_i self parent node' hfound
              exact .inr (hlater _ (.inr ⟨hmode,self,parent,node',hfound,rfl⟩) (Option.some.inj h))

/-- A leaked reference stays. -/
theorem remove_leaks (h : RemoveLeaks m c fuel this name) :
    ∃ e m',m.remove c fuel this name = some (e,m') ∧ e < 0 ∧ ¬Untouched this m m' := by
  obtain ⟨prevDe,prevPos,de,position,m₁,hgets,hfail⟩ := h
  have hrefs : (m₁.object de.inode).referenceCount = (m.object de.inode).referenceCount + 1 := by
    obtain ⟨-,node,-,hget⟩ := hgets
    rw [references_getINode hget,references_setNode]
  rw [remove_eq hgets]
  rcases hfail with ⟨hmode,node,hfound | hfound⟩ | ⟨m₂,hunlinks,htrunc⟩
  · rw [if_neg (by rw [hmode]; decide),hfound]
    exact ⟨_,_,rfl,by decide,not_untouched_of_references (references_setNode.trans hrefs)⟩
  · rw [if_neg (by rw [hmode]; decide),hfound]
    exact ⟨_,_,rfl,by decide,not_untouched_of_references (references_setNode.trans hrefs)⟩
  · have hleft : ¬Untouched this m (truncated m₂ c.curTime de.inode).2 :=
      not_untouched_of_references
        (references_truncated.trans ((references_unlinks hunlinks).trans hrefs))
    have hneg : (if (truncated m₂ c.curTime de.inode).1 < 0 then
        (truncated m₂ c.curTime de.inode).1 else -eIo) < 0 := by
      split
      · assumption
      · decide
    rcases hunlinks with ⟨hmode,rfl⟩ | ⟨hmode,self,parent,node,hfound,rfl⟩
    · rw [if_pos hmode,unlink_eq,if_pos htrunc]
      exact ⟨_,_,rfl,hneg,hleft⟩
    · rw [if_neg (by rw [hmode]; decide),hfound]
      simp only [unlink_eq,if_pos htrunc]
      exact ⟨_,_,rfl,hneg,hleft⟩

end Removal

/-- A failed Create leaves everything as it was exactly if it does not fail
after it has allocated an inode; a failed Remove does if it fails before it gets
the inode or, as no allocation is part of that, when it takes out the record,
and it does not if it fails in between. -/
theorem failures_undone_iff {m : Mount} {this : ℕ} (hs : Sound m.fs)
    (hthis : (m.inodeCache this).isSome) (c : Caller) (name : List UInt8) (mode : ℕ) :
    ((∀ fuel m',m.create c fuel this name mode = some (false,m') → Untouched this m m') ↔
      ∀ fuel,¬CreateLeaks m c fuel this name mode) ∧
    ((∀ fuel e m',m.remove c fuel this name = some (e,m') → e < 0 → Untouched this m m') →
      ∀ fuel,¬RemoveLeaks m c fuel this name) ∧
    ((∀ fuel,¬RemoveLeaks m c fuel this name ∧ ¬RewriteFails m c fuel this name) →
      ∀ fuel e m',m.remove c fuel this name = some (e,m') → e < 0 → Untouched this m m') := by
  refine ⟨⟨?_,?_⟩,?_,?_⟩
  · intro hall fuel hleak
    obtain ⟨m',hrun,hchanged⟩ := create_leaks hs hleak
    exact hchanged (hall fuel m' hrun)
  · intro hnone fuel m' hrun
    exact (create_failed hs hthis hrun).resolve_right (hnone fuel)
  · intro hall fuel hleak
    obtain ⟨e,m',hrun,he,hchanged⟩ := remove_leaks hleak
    exact hchanged (hall fuel e m' hrun he)
  · intro hnone fuel e m' hrun he
    exact (remove_failed hthis hrun he).resolve_right fun hfail =>
      hfail.elim (hnone fuel).1 (hnone fuel).2

/-- A file system of one group with eight inodes, none of them in use. -/
def tinyFs (data : Store) : Ext2 where
  volume := ⟨data,fun _ n => n⟩
  superBlock := ⟨64,32,8,0,0,64,8,0,1,128,0⟩
  blockSize := 1024
  blockGroupCount := 1
  bgdt := fun _ => ⟨2,3,4,32,8⟩
  superDirty := false

theorem sound_tinyFs (data : Store) : Sound (tinyFs data) :=
  ⟨fun _ _ _ => rfl,by show 1 * 8 < 2 ^ 32; norm_num,by show 8 < 2 ^ 32; norm_num⟩

/-- A directory in the cache, with the given size and first block. -/
def cachedDirectory (size block : ℕ) : CachedINode :=
  { CachedINode.ofBytes [] with
    node := { Ext2BlockMap.onePointer 0 block with iMode := 0x41ED, iSize := size }
    iLinksCount := 2
    referenceCount := 1 }

/-- Inode 2 is an empty directory. -/
def tinyMount : Mount where
  fs := tinyFs fun _ => 0
  bgUsedDirsCount := fun _ => 0
  bgPad := fun _ => 0
  inodeCache := fun n => if n = 2 then some (cachedDirectory 0 0) else none

/-- Inode 2 is a directory with an entry d for the directory with inode 3, which
has an entry x. -/
def nestedMount : Mount where
  fs := tinyFs (patch (patch (fun _ => 0)
    (5 * 1024) [3,0,0,0,0,4,1,2,100]) (6 * 1024) [7,0,0,0,0,4,1,1,120])
  bgUsedDirsCount := fun _ => 0
  bgPad := fun _ => 0
  inodeCache := fun n => if n = 2 then some (cachedDirectory 1024 5)
    else if n = 3 then some (cachedDirectory 1024 6) else none

/-- A refused name changes nothing. -/
theorem refused_name_untouched : Untouched 2 tinyMount tinyMount :=
  (failures_undone_iff (sound_tinyFs _) rfl ⟨0,none⟩ [46] 0x81A4).1.mpr
    (fun _ hleak => absurd hleak.1 (by decide)) 1 tinyMount rfl

/-- Without a current process Create keeps the inode it has allocated, and Remove
keeps a reference to a directory that is not empty. -/
theorem failed_calls_leak :
    (∃ m',tinyMount.create ⟨0,none⟩ 1 2 [97] 0x81A4 = some (false,m') ∧
      ¬Untouched 2 tinyMount m') ∧
    ∃ e m',nestedMount.remove ⟨0,none⟩ 2 2 [100] = some (e,m') ∧ e < 0 ∧
      ¬Untouched 2 nestedMount m' := by
  constructor
  · exact create_leaks (sound_tinyFs _) ⟨by decide,by decide,by decide,_,rfl,.inl rfl⟩
  · exact remove_leaks ⟨_,_,_,_,_,⟨by decide,_,rfl,rfl⟩,.inl ⟨by decide,_,.inr rfl⟩⟩

end WootOs.DirectoryFailures
