import WootOs.DirectoryFailures
import WootOs.Runs
import Mathlib.Order.Interval.Finset.Nat

/-!
# Counting directories in the groups of an ext2 volume

A descriptor counts the directories of its group. Create counts a new directory
in the group that the allocator names; Release computes the group of an inode
anew, from its number, and numbers start at one: the last inode of a group is
taken for one of the next. Both write the two bytes of the counter to the table
copies, except for a directory whose record needs a new block, where four bytes
are written.
-/

namespace WootOs.DirectoryCounters

open ByteStore BitmapStore MachineInt Ext2Driver Ext2Directory Ext2Names Ext2Groups Ext2Steady
open DirectoryFailures Runs

/-- A mounted file system with the directories on it. -/
structure World where
  /-- The file system with its cached inodes. -/
  mount : Mount
  /-- Inodes of the directories that were made and not released. -/
  live : List ℕ

/-- What happens to a file system. -/
inductive Op where
  /-- A call of Create on the directory with the inode this. -/
  | create (c : Caller) (fuel this : ℕ) (name : List UInt8) (mode : ℕ)
  /-- A call of Remove. -/
  | remove (c : Caller) (fuel this : ℕ) (name : List UInt8)
  /-- Somebody gets an inode. -/
  | get (number : ℕ)
  /-- Somebody drops a reference to an inode. -/
  | put (curTime number : ℕ)

/-- Group of an inode, as the allocator numbers them. -/
def groupOf (fs : Ext2) (ino : ℕ) : ℕ := (ino - 1) / fs.superBlock.sInodesPerGroup

/-- The bit that the allocator keeps for an inode. -/
def bitOf (fs : Ext2) (ino : ℕ) : Bool :=
  let n := (ino - 1) % fs.superBlock.sInodesPerGroup
  bitAt fs.volume.data (fs.bitmapByte inodeKind (groupOf fs ino) (n / 8)) (n % 8)

/-- Number of directories alive in a group. -/
def liveIn (w : World) (g : ℕ) : ℕ := w.live.countP fun ino => groupOf w.mount.fs ino = g

/-- Dropping a reference to the inode releases a directory. -/
def releases (m : Mount) (number : ℕ) : Bool :=
  decide ((m.object number).referenceCount ≤ 1) && (m.object number).iLinksCount == 0 &&
    isDir (m.object number).node.iMode

/-- Remove has unlinked the inode and goes on to drop its reference. -/
def dropped (m₂ : Mount) (curTime ino : ℕ) : Option (ℕ × Mount) :=
  if (truncated m₂ curTime ino).1 = 0 then some (ino,(truncated m₂ curTime ino).2) else none

/-- The inode to which Remove drops a reference, and the state it does so in. -/
def dropping (m : Mount) (c : Caller) (fuel this : ℕ) (name : List UInt8) : Option (ℕ × Mount) :=
  let node := (m.object this).node
  if node.iMode &&& ext2SIfDir = 0 then none else
  match removeLoop m.fs c.curTime (m.fs.getSize node) name fuel node Record.blank 0 0 with
  | some (.entry _ _ de _,node) =>
    match (m.setNode this node).getINode de.inode with
    | none => none
    | some m₁ =>
      if isDir (m₁.object de.inode).node.iMode = false then dropped m₁ c.curTime de.inode
      else match contentsOf m₁ c fuel de.inode with
        | some (.empty self parent,node) => dropped
            ((m₁.setNode de.inode node).dropLinks this de.inode self parent) c.curTime de.inode
        | _ => none
  | _ => none

namespace World

/-- A directory that is released is no longer alive. -/
def forget (w : World) (m : Mount) (number : ℕ) : List ℕ :=
  if releases m number then w.live.erase number else w.live

/-- What a call does; one that does not return does nothing. -/
def apply (w : World) : Op → World
  | .create c fuel this name mode =>
    match w.mount.create c fuel this name mode with
    | none => w
    | some (made,m) =>
      ⟨m,if made && isDir mode then w.mount.fs.allocINode.1 :: w.live else w.live⟩
  | .remove c fuel this name =>
    match w.mount.remove c fuel this name with
    | none => w
    | some (_,m) =>
      ⟨m,match dropping w.mount c fuel this name with
        | none => w.live
        | some (ino,m₁) => w.forget m₁ ino⟩
  | .get number => ⟨(w.mount.getINode number).getD w.mount,w.live⟩
  | .put curTime number => ⟨w.mount.putINode curTime number,w.forget w.mount number⟩

end World

/-- A file system whose counters of inodes and inode numbers have room. -/
structure Geometry (fs : Ext2) : Prop where
  /-- A group has inodes. -/
  perGroup : 0 < fs.superBlock.sInodesPerGroup
  /-- Those of a group can be counted in 16 bits. -/
  counter : fs.superBlock.sInodesPerGroup < 2 ^ 16
  /-- All of them can be numbered in 32 bits. -/
  numbers : fs.blockGroupCount * fs.superBlock.sInodesPerGroup < 2 ^ 32

section Allocation

variable {K : BitmapKind} {fs fs' : Ext2} {g n rest j : ℕ}

/-- What work on files leaves alone includes what allocators do. -/
theorem frozen_of_aside (h : aside fs' = aside fs) : frozen fs' = frozen fs :=
  aside_eq (f := frozen) (fun _ => rfl) h

theorem frozen_setTotal (law : Lawful K) {b : Bool} :
    frozen { fs with superBlock := K.setTotal fs.superBlock n, superDirty := b } = frozen fs := by
  simp only [frozen,Ext2.mk.injEq,true_and,and_true]
  exact law.frozen_total _ _

theorem frozen_takeBit (law : Lawful K) : frozen (fs.takeBit K g rest j).2 = frozen fs := by
  induction rest generalizing j with
  | zero => rfl
  | succ rest ih =>
    rw [Ext2.takeBit]
    simp only
    split
    · rfl
    · split
      · exact ih
      · split
        · rfl
        · split
          · exact (frozen_of_aside aside_updateBGDT).trans (frozen_update law fs g _ _)
          · exact (frozen_setTotal law).trans
              ((frozen_of_aside aside_updateBGDT).trans (frozen_update law fs g _ _))

theorem frozen_dropBit (law : Lawful K) : frozen (fs.dropBit K g n).2 = frozen fs := by
  rw [Ext2.dropBit]
  simp only
  split
  · rfl
  · split
    · rfl
    · split
      · rfl
      · exact frozen_update law fs g _ _

theorem frozen_allocINodeFrom {is : List ℕ} : frozen (fs.allocINodeFrom is).2.2 = frozen fs := by
  induction is generalizing fs with
  | nil => rfl
  | cons i is ih =>
    rw [Ext2.allocINodeFrom]
    split
    · exact ih
    · simp only
      split
      · exact ih.trans (frozen_takeBit lawful_inodeKind)
      · exact frozen_takeBit lawful_inodeKind
      · exact frozen_takeBit lawful_inodeKind

theorem frozen_freeINode {ino : ℕ} : frozen (fs.freeINode ino).2 = frozen fs := by
  have hdropped : ∀ g n,frozen (fs.dropBit inodeKind g n).2 = frozen fs :=
    fun g n => frozen_dropBit lawful_inodeKind
  rw [Ext2.freeINode]
  split
  · rfl
  · simp only
    split
    · exact hdropped _ _
    · split
      · exact (frozen_of_aside aside_updateBGDT).trans (hdropped _ _)
      · exact (frozen_setTotal lawful_inodeKind).trans
          ((frozen_of_aside aside_updateBGDT).trans (hdropped _ _))

/-- The groups stay as they are. -/
theorem Geometry.of_frozen (hg : Geometry fs) (h : frozen fs' = frozen fs) : Geometry fs' := by
  have hipg : fs'.superBlock.sInodesPerGroup = fs.superBlock.sInodesPerGroup :=
    frozen_eq (f := fun x => x.superBlock.sInodesPerGroup) (fun _ => rfl) h
  have hcount : fs'.blockGroupCount = fs.blockGroupCount :=
    frozen_eq (f := fun x => x.blockGroupCount) (fun _ => rfl) h
  exact ⟨by rw [hipg]; exact hg.perGroup,by rw [hipg]; exact hg.counter,
    by rw [hipg,hcount]; exact hg.numbers⟩

/-- A search that finds nothing changes nothing. -/
theorem takeBit_full (h : (fs.takeBit K g rest j).1 = .full) : (fs.takeBit K g rest j).2 = fs := by
  induction rest generalizing j with
  | zero => rfl
  | succ rest ih =>
    rw [Ext2.takeBit] at h ⊢
    simp only at h ⊢
    split
    · rfl
    · rename_i hread
      rw [if_neg hread] at h
      split
      · rename_i hall
        rw [if_pos hall] at h
        exact ih h
      · rename_i hall
        rw [if_neg hall] at h
        split at h
        · cases h
        · split at h <;> cases h

/-- A search finds a bit that was clear. -/
theorem takeBit_clear (h : (fs.takeBit K g rest j).1 = .bit n) : n / 8 < j + rest ∧
    bitAt fs.volume.data (fs.bitmapByte K g (n / 8)) (n % 8) = false := by
  induction rest generalizing j with
  | zero => cases h
  | succ rest ih =>
    rw [Ext2.takeBit] at h
    simp only at h
    split at h
    · cases h
    · rename_i hread
      split at h
      · obtain ⟨hlt,hbit⟩ := ih h
        exact ⟨by omega,hbit⟩
      · rename_i hall
        obtain ⟨hlow,hclear,-⟩ := lowestClear_spec hall
        split at h
        · cases h
        · split at h
          · cases h
          · injection h with hn
            have hdiv : n / 8 = j := by omega
            have hmod : n % 8 = lowestClear
                ((fs.volume.read (fs.bitmapByte K g j) 1).2.headD 0) := by omega
            have hbyte : (fs.volume.read (fs.bitmapByte K g j) 1).2.headD 0 =
                fs.volume.data (fs.bitmapByte K g j) := by
              have hserved : fs.volume.served (fs.bitmapByte K g j) 1 = 1 := not_not.mp hread
              simp [Volume.read,hserved,slice]
            refine ⟨by omega,?_⟩
            rw [hdiv,bitAt,Nat.div_eq_of_lt (Nat.mod_lt _ (by norm_num)),Nat.add_zero,
              Nat.mod_mod,hmod,←hbyte]
            exact hclear

/-- An allocated inode had a clear bit in the group that is named. -/
theorem allocINode_clear (hg : Geometry fs) (hino : fs.allocINode.1 ≠ 0) :
    fs.allocINode.2.1 = some (groupOf fs fs.allocINode.1) ∧
      bitOf fs fs.allocINode.1 = false := by
  have hall : ∀ is : List ℕ,(∀ i ∈ is,i < fs.blockGroupCount) → (fs.allocINodeFrom is).1 ≠ 0 →
      ∃ i n,n < fs.superBlock.sInodesPerGroup ∧
        (fs.allocINodeFrom is).1 = 1 + i * fs.superBlock.sInodesPerGroup + n ∧
        (fs.allocINodeFrom is).2.1 = some i ∧
        bitAt fs.volume.data (fs.bitmapByte inodeKind i (n / 8)) (n % 8) = false := by
    intro is
    induction is with
    | nil => exact fun _ hzero => absurd rfl hzero
    | cons i is ih =>
      intro hin hnz
      have hrest := ih fun k hk => hin k (by simp [hk])
      rw [Ext2.allocINodeFrom] at hnz ⊢
      split at hnz
      · rename_i hfull
        rw [if_pos hfull]
        exact hrest hnz
      · rename_i hfree
        rw [if_neg hfree]
        simp only at hnz ⊢
        cases htaken : (fs.takeBit inodeKind i (fs.superBlock.sInodesPerGroup / 8) 0).1 with
        | full =>
          simp only [htaken,takeBit_full htaken] at hnz ⊢
          exact hrest hnz
        | failed => simp only [htaken,ne_eq,not_true] at hnz
        | bit n =>
          obtain ⟨hlt,hclear⟩ := takeBit_clear htaken
          have hipg : (fs.takeBit inodeKind i
              (fs.superBlock.sInodesPerGroup / 8) 0).2.superBlock.sInodesPerGroup =
              fs.superBlock.sInodesPerGroup :=
            frozen_eq (f := fun x => x.superBlock.sInodesPerGroup) (fun _ => rfl)
              (frozen_takeBit lawful_inodeKind)
          have hn : n < fs.superBlock.sInodesPerGroup := by omega
          have hle : (i + 1) * fs.superBlock.sInodesPerGroup ≤
              fs.blockGroupCount * fs.superBlock.sInodesPerGroup :=
            Nat.mul_le_mul_right _ (hin i (by simp))
          have hnum := hg.numbers
          rw [Nat.add_mul,Nat.one_mul] at hle
          simp only [hipg]
          exact ⟨i,n,hn,Nat.mod_eq_of_lt (by omega),rfl,hclear⟩
  obtain ⟨i,n,hn,hnumber,hgroup,hclear⟩ := hall _ (fun i hi => List.mem_range.mp hi) hino
  have hsub : fs.allocINode.1 - 1 = n + fs.superBlock.sInodesPerGroup * i := by
    rw [Ext2.allocINode,hnumber,Nat.mul_comm]
    omega
  have hdiv : groupOf fs fs.allocINode.1 = i := by
    rw [groupOf,hsub,Nat.add_mul_div_left _ _ hg.perGroup,Nat.div_eq_of_lt hn,Nat.zero_add]
  have hmod : (fs.allocINode.1 - 1) % fs.superBlock.sInodesPerGroup = n := by
    rw [hsub,Nat.add_mul_mod_self_left,Nat.mod_eq_of_lt hn]
  rw [bitOf,hdiv,hmod]
  exact ⟨hgroup,hclear⟩

end Allocation

/-- Nothing is counted, no directory is moved to another group, and an inode
keeps its links. -/
structure Quiet (ino : ℕ) (m m' : Mount) : Prop where
  /-- The counters of directories stay. -/
  used : m'.bgUsedDirsCount = m.bgUsedDirsCount
  /-- The groups stay. -/
  frozen : frozen m'.fs = frozen m.fs
  /-- The inode's links stay. -/
  links : (m'.object ino).iLinksCount = (m.object ino).iLinksCount

section Files

variable {m m' m'' : Mount} {ino k t this bg n : ℕ}

theorem Quiet.trans (h : Quiet ino m m') (h' : Quiet ino m' m'') : Quiet ino m m'' :=
  ⟨h'.used.trans h.used,h'.frozen.trans h.frozen,h'.links.trans h.links⟩

theorem quiet_writeAll {pieces : List (List UInt8 × ℕ)} :
    Quiet ino m (m.writeAll t k pieces).2 := by
  refine ⟨?_,frozen_of_aside aside_writeAll,links_writeAll⟩
  induction pieces generalizing m with
  | nil => rfl
  | cons piece rest ih =>
    obtain ⟨buf,pos⟩ := piece
    rw [Mount.writeAll]
    split
    · rfl
    · exact ih

theorem quiet_resize {size : ℤ} : Quiet ino m (m.resize t k size).2 :=
  ⟨rfl,frozen_of_aside aside_mount_resize,links_mount_resize⟩

theorem quiet_write {buf : List UInt8} {pos : ℕ} : Quiet ino m (m.write t k buf pos).2 :=
  ⟨rfl,frozen_of_aside aside_mount_write,links_mount_write⟩

theorem used_getINode (h : m.getINode k = some m') : m'.bgUsedDirsCount = m.bgUsedDirsCount := by
  rw [Mount.getINode] at h
  split at h
  · cases h
    rfl
  · simp only at h
    split at h
    · cases h
    · cases h
      rfl

theorem frozen_release {o : CachedINode} : frozen (m.release t ino o).fs = frozen m.fs := by
  rw [Mount.release]
  split
  · rfl
  · simp only
    split
    · exact frozen_freeINode.trans rfl
    · exact (frozen_of_aside aside_updateBGDT).trans (frozen_freeINode.trans rfl)

theorem frozen_putINode : frozen (m.putINode t ino).fs = frozen m.fs := by
  rw [Mount.putINode]
  simp only
  split
  · rfl
  · refine frozen_release.trans ?_
    split <;> rfl

/-- Dropping a reference counts in a group if it releases a directory. -/
theorem putINode_released (h : releases m ino = true) : ∃ m₀ : Mount,
    m₀.bgUsedDirsCount = m.bgUsedDirsCount ∧ frozen m₀.fs = frozen m.fs ∧
    m.putINode t ino =
      (m₀.uncountDir (m.getINodeBlockGroup ino)).updateUsedDirs (m.getINodeBlockGroup ino) 2 := by
  obtain ⟨⟨hrefs,hlinks⟩,hdir⟩ : ((m.object ino).referenceCount ≤ 1 ∧
      (m.object ino).iLinksCount = 0) ∧ isDir (m.object ino).node.iMode = true := by
    simpa [releases] using h
  have hgone : (m.object ino).referenceCount - 1 = 0 := by omega
  have hgroup : ∀ m' : Mount,frozen m'.fs = frozen m.fs →
      m'.getINodeBlockGroup ino = m.getINodeBlockGroup ino := fun m' hm' => by
    rw [Mount.getINodeBlockGroup,Mount.getINodeBlockGroup]
    congr 1
    exact frozen_eq (f := fun x => x.superBlock.sInodesPerGroup) (fun _ => rfl) hm'
  have hrelease : ∀ (m' : Mount) (o : CachedINode),o.iLinksCount = 0 →
      isDir o.node.iMode = true → frozen m'.fs = frozen m.fs →
      m'.bgUsedDirsCount = m.bgUsedDirsCount → ∃ m₀ : Mount,
        m₀.bgUsedDirsCount = m.bgUsedDirsCount ∧ frozen m₀.fs = frozen m.fs ∧
        m'.release t ino o =
          (m₀.uncountDir (m.getINodeBlockGroup ino)).updateUsedDirs
            (m.getINodeBlockGroup ino) 2 := by
    intro m' o hol hod hfs hused
    let m₀ : Mount := { m'.writeINode ino { o with iDtime := t } with
      fs := ((m'.writeINode ino { o with iDtime := t }).fs.freeINode ino).2 }
    have hfreed : frozen m₀.fs = frozen m.fs := frozen_freeINode.trans hfs
    refine ⟨m₀,hused,hfreed,?_⟩
    rw [Mount.release,if_neg (by rw [hol]; decide),←hgroup m₀ hfreed]
    simp only [hod,Bool.not_true,Bool.false_eq_true,if_false]
    rfl
  rw [Mount.putINode]
  simp only [hgone,ne_eq,not_true,if_false]
  split
  · exact hrelease _ _ hlinks hdir rfl rfl
  · exact hrelease _ _ hlinks hdir rfl rfl

/-- Otherwise it does not count. -/
theorem used_putINode (h : releases m ino = false) :
    (m.putINode t ino).bgUsedDirsCount = m.bgUsedDirsCount := by
  rw [Mount.putINode]
  simp only
  split
  · rfl
  · rename_i hgone
    have hrelease : ∀ (m' : Mount) (o : CachedINode),
        (o.iLinksCount = 0 → isDir o.node.iMode = false) →
        (m'.release t ino o).bgUsedDirsCount = m'.bgUsedDirsCount := by
      intro m' o hod
      rw [Mount.release]
      split
      · rfl
      · rename_i hlinks
        simp only [hod (not_not.mp hlinks),Bool.not_false,if_true]
        rfl
    have hod : (m.object ino).iLinksCount = 0 → isDir (m.object ino).node.iMode = false := by
      intro hlinks
      have hrefs : (m.object ino).referenceCount ≤ 1 := by omega
      simpa [releases,hlinks,hrefs] using h
    refine (hrelease _ _ hod).trans ?_
    split <;> rfl

/-- An inode with a link is not released. -/
theorem not_releases_of_links (h : (m.object ino).iLinksCount ≠ 0) : releases m ino = false := by
  simp [releases,h]

end Files

/-- Bytes of a descriptor that Create writes. -/
def width : Place → ℕ
  | .newBlock => 4
  | _ => 2

/-- A new directory is counted in a group, n bytes of the descriptor are written,
and the reference to it is dropped. -/
def Counts (m : Mount) (bg n curTime ino : ℕ) (m' : Mount) : Prop :=
  ∃ m₀ : Mount,m₀.bgUsedDirsCount = m.bgUsedDirsCount ∧ frozen m₀.fs = frozen m.fs ∧
    (m₀.object ino).iLinksCount ≠ 0 ∧
    m' = ((m₀.countDir bg).updateUsedDirs bg n).putINode curTime ino

/-- Where Create puts the record of a new inode, if it gets that far. -/
def placeOf (m : Mount) (c : Caller) (fuel this : ℕ) (name : List UInt8) (mode : ℕ) :
    Option Place :=
  match lookup m.fs fuel c.curTime (m.object this).node name,c.process with
  | some (none,node),some (uid,gid) =>
    match (allocated m this node).getINode m.fs.allocINode.1 with
    | none => none
    | some m₁ =>
      let m₂ := begun m₁ c m.fs.allocINode.1 uid gid mode
      (scanLoop m₂.fs c.curTime (newRecord m₂.fs m.fs.allocINode.1 mode name) fuel
        (m₂.object this).node 0).map (·.1)
  | _,_ => none

section Creation

variable {m m' : Mount} {c : Caller} {fuel this mode t ino bg n : ℕ} {name : List UInt8}
  {de : Record} {made : Bool}

/-- Counting a directory adds one. -/
theorem Counts.used (h : Counts m bg n t ino m') : m'.bgUsedDirsCount =
    Function.update m.bgUsedDirsCount bg ((m.bgUsedDirsCount bg + 1) % 2 ^ 16) := by
  obtain ⟨m₀,hused,-,hlinks,rfl⟩ := h
  have hkept : releases ((m₀.countDir bg).updateUsedDirs bg n) ino = false :=
    not_releases_of_links (m := (m₀.countDir bg).updateUsedDirs bg n) hlinks
  rw [used_putINode hkept,←hused]
  rfl

theorem Counts.frozen (h : Counts m bg n t ino m') : frozen m'.fs = Ext2Groups.frozen m.fs := by
  obtain ⟨m₀,-,hfrozen,-,rfl⟩ := h
  exact Eq.trans frozen_putINode ((frozen_of_aside aside_updateBGDT).trans hfrozen)

theorem Counts.of_quiet {m₁ : Mount} (hq : Quiet ino m m₁) (h : Counts m₁ bg n t ino m') :
    Counts m bg n t ino m' := by
  obtain ⟨m₀,hused,hfrozen,hlinks,heq⟩ := h
  exact ⟨m₀,hused.trans hq.used,hfrozen.trans hq.frozen,hlinks,heq⟩

/-- The links of a new directory are counted, or not. -/
theorem buildDirectory_spec (hlinks : (m.object ino).iLinksCount = 1) :
    (m.buildDirectory t this ino).2.bgUsedDirsCount = m.bgUsedDirsCount ∧
      Ext2Groups.frozen (m.buildDirectory t this ino).2.fs = Ext2Groups.frozen m.fs ∧
      ((m.buildDirectory t this ino).2.object ino).iLinksCount ≠ 0 := by
  have hresized : Quiet ino m (m.resize t ino m.fs.blockSize).2 := quiet_resize
  have hkept : ∀ m₁,Quiet ino m m₁ → m₁.bgUsedDirsCount = m.bgUsedDirsCount ∧
      Ext2Groups.frozen m₁.fs = Ext2Groups.frozen m.fs ∧ (m₁.object ino).iLinksCount ≠ 0 :=
    fun m₁ hq => ⟨hq.used,hq.frozen,by rw [hq.links,hlinks]; decide⟩
  rw [Mount.buildDirectory]
  simp only
  split
  · exact hkept _ hresized
  · generalize hw : (m.resize t ino m.fs.blockSize).2.write t ino _ 0 = w
    have hq : Quiet ino m w.2 := hw ▸ hresized.trans quiet_write
    split
    · exact hkept _ hq
    · refine ⟨hq.used,hq.frozen,?_⟩
      have hone := hq.links.trans hlinks
      by_cases hsame : ino = this
      · subst hsame
        simp only [object_setObject,if_true,CachedINode.setLinks,hone]
        decide
      · simp only [object_setObject,if_true,if_neg hsame,CachedINode.setLinks,hone]
        decide

/-- Create ends by counting a directory, and only a directory. -/
theorem finish_spec (hlinks : (m.object ino).iLinksCount = 1) :
    isDir mode = true ∧ Counts m bg n t ino (m.finish t this ino bg mode n) ∨
      isDir mode = false ∧ (m.finish t this ino bg mode n).bgUsedDirsCount = m.bgUsedDirsCount ∧
        Ext2Groups.frozen (m.finish t this ino bg mode n).fs = Ext2Groups.frozen m.fs := by
  cases hdir : isDir mode with
  | true =>
    obtain ⟨hused,hfrozen,hlinks'⟩ := @buildDirectory_spec m this t ino hlinks
    refine .inl ⟨rfl,(m.buildDirectory t this ino).2,hused,hfrozen,hlinks',?_⟩
    rw [Mount.finish]
    simp only [hdir,if_true]
  | false =>
    refine .inr ⟨rfl,?_⟩
    rw [Mount.finish]
    simp only [hdir,Bool.false_eq_true,if_false]
    exact ⟨used_putINode (not_releases_of_links (by rw [hlinks]; decide)),frozen_putINode⟩

/-- What linking a new inode counts. -/
def Linked (m : Mount) (bg n curTime ino mode : ℕ) (r : Bool × Mount) : Prop :=
  r.1 = true ∧ isDir mode = true ∧ Counts m bg n curTime ino r.2 ∨
    (r.1 && isDir mode) = false ∧ r.2.bgUsedDirsCount = m.bgUsedDirsCount ∧
      Ext2Groups.frozen r.2.fs = Ext2Groups.frozen m.fs

theorem linked_finish {m₁ : Mount} (hq : Quiet ino m m₁)
    (hlinks : (m.object ino).iLinksCount = 1) :
    Linked m bg n t ino mode (true,m₁.finish t this ino bg mode n) := by
  rcases @finish_spec m₁ this mode t ino bg n (hq.links.trans hlinks) with
    ⟨hdir,hcounts⟩ | ⟨hdir,hused,hfrozen⟩
  · exact .inl ⟨rfl,hdir,hcounts.of_quiet hq⟩
  · exact .inr ⟨by rw [hdir]; rfl,hused.trans hq.used,hfrozen.trans hq.frozen⟩

theorem linked_failed {m₁ : Mount} (hq : Quiet ino m m₁)
    (hlinks : (m.object ino).iLinksCount = 1) :
    Linked m bg n t ino mode (false,m₁.putINode t ino) :=
  .inr ⟨rfl,(used_putINode (not_releases_of_links
    (by rw [hq.links,hlinks]; decide))).trans hq.used,Eq.trans frozen_putINode hq.frozen⟩

/-- Linking counts a directory once, in the given group. -/
theorem link_linked {place : Place} (hlinks : (m.object ino).iLinksCount = 1) :
    Linked m bg (width place) t ino mode (m.link t this ino bg mode name de place) := by
  cases place with
  | within position cde =>
    simp only [Mount.link]
    generalize hw : m.writeAll t this (_ ++ _) = w
    have hq : Quiet ino m w.2 := hw ▸ quiet_writeAll
    cases w.1 with
    | false => exact linked_failed hq hlinks
    | true => exact linked_finish hq hlinks
  | unused position cde =>
    simp only [Mount.link]
    generalize hw : m.writeAll t this [_] = w
    have hq : Quiet ino m w.2 := hw ▸ quiet_writeAll
    cases w.1 with
    | false => exact linked_failed hq hlinks
    | true =>
      simp only [Bool.not_true,Bool.false_eq_true,if_false]
      generalize hn : w.2.writeAll t this [_] = r
      have hqn : Quiet ino m r.2 := hq.trans (hn ▸ quiet_writeAll)
      cases hr : r.1 with
      | false =>
        simp only [Bool.not_false,if_true]
        exact .inr ⟨by rw [hr]; rfl,hqn.used,hqn.frozen⟩
      | true => exact linked_finish hqn hlinks
  | newBlock =>
    simp only [Mount.link]
    split
    · exact linked_failed quiet_resize hlinks
    · generalize hw : (m.resize t this _).2.writeAll t this [_,_] = w
      have hq : Quiet ino m w.2 := quiet_resize.trans (hw ▸ quiet_writeAll)
      cases w.1 with
      | false => exact linked_failed hq hlinks
      | true => exact linked_finish hq hlinks

/-- Create counts a new directory once, in the group that the allocator names. -/
theorem create_spec (h : m.create c fuel this name mode = some (made,m')) :
    made = true ∧ isDir mode = true ∧ m.fs.allocINode.1 ≠ 0 ∧
        (∃ place,placeOf m c fuel this name mode = some place ∧
          Counts m (m.fs.allocINode.2.1.getD 0) (width place) c.curTime m.fs.allocINode.1 m') ∨
      (made && isDir mode) = false ∧ m'.bgUsedDirsCount = m.bgUsedDirsCount ∧
        Ext2Groups.frozen m'.fs = Ext2Groups.frozen m.fs := by
  have hfrozen : Ext2Groups.frozen m.fs.allocINode.2.2 = Ext2Groups.frozen m.fs :=
    frozen_allocINodeFrom
  rw [Mount.create] at h
  split at h
  · cases h
    exact .inr ⟨rfl,rfl,rfl⟩
  · split at h
    · cases h
      exact .inr ⟨rfl,rfl,rfl⟩
    · split at h
      · cases h
      · cases h
        exact .inr ⟨rfl,rfl,rfl⟩
      · rename_i node hlook
        rw [Mount.createNew] at h
        simp only at h
        split at h
        · cases h
          exact .inr ⟨rfl,rfl,hfrozen⟩
        · rename_i hino
          split at h
          · cases h
            exact .inr ⟨rfl,rfl,hfrozen⟩
          · rename_i uid gid hproc
            split at h
            · cases h
              exact .inr ⟨rfl,rfl,hfrozen⟩
            · rename_i m₁ hget
              obtain ⟨s,hscan,hlink⟩ := Option.map_eq_some_iff.mp h
              have hlinks : (((begun m₁ c m.fs.allocINode.1 uid gid mode).setNode this
                  s.2).object m.fs.allocINode.1).iLinksCount = 1 := by
                rw [links_setNode,begun,object_setObject,if_pos rfl]
                rfl
              have hused : m₁.bgUsedDirsCount = m.bgUsedDirsCount :=
                @used_getINode (allocated m this node) m₁ _ hget
              have hfs : m₁.fs = m.fs.allocINode.2.2 := getINode_fs hget
              have hfs' : Ext2Groups.frozen m₁.fs = Ext2Groups.frozen m.fs := by
                rw [hfs]
                exact hfrozen
              have hspec : Linked ((begun m₁ c m.fs.allocINode.1 uid gid mode).setNode this s.2)
                  (m.fs.allocINode.2.1.getD 0) (width s.1) c.curTime m.fs.allocINode.1 mode
                  (made,m') := hlink ▸ link_linked hlinks
              rcases hspec with ⟨hr,hdir,m₀,hm₀,hf₀,hl₀,heq⟩ | ⟨hr,hu,hf⟩
              · refine .inl ⟨hr,hdir,hino,s.1,?_,m₀,hm₀.trans hused,hf₀.trans hfs',hl₀,heq⟩
                have hget' : (allocated m this node).getINode m.fs.allocINode.1 = some m₁ := hget
                have hscan' : scanLoop (begun m₁ c m.fs.allocINode.1 uid gid mode).fs c.curTime
                    (newRecord (begun m₁ c m.fs.allocINode.1 uid gid mode).fs m.fs.allocINode.1
                      mode name) fuel ((begun m₁ c m.fs.allocINode.1 uid gid mode).object this).node
                    0 = some s := hscan
                simp only [placeOf,hlook,hproc,hget',hscan',Option.map_some]
              · exact .inr ⟨hr,hu.trans hused,hf.trans hfs'⟩

end Creation

/-- What Remove counts: what dropping the reference counts, if it gets there. -/
def Unlinked (m : Mount) (curTime : ℕ) (d : Option (ℕ × Mount)) (m' : Mount) : Prop :=
  frozen m'.fs = frozen m.fs ∧
    match d with
    | none => m'.bgUsedDirsCount = m.bgUsedDirsCount
    | some (ino,m₁) => m₁.bgUsedDirsCount = m.bgUsedDirsCount ∧ frozen m₁.fs = frozen m.fs ∧
      m'.bgUsedDirsCount = (m₁.putINode curTime ino).bgUsedDirsCount

section Removal

variable {m m' m₂ : Mount} {c : Caller} {fuel this t ino prevPos position : ℕ}
  {name : List UInt8} {prevDe de : Record} {e : ℤ}

/-- Unlinking and truncating do not count. -/
theorem truncated_spec : (truncated m₂ t ino).2.bgUsedDirsCount = m₂.bgUsedDirsCount ∧
    frozen (truncated m₂ t ino).2.fs = frozen m₂.fs := by
  have hdrop : (unlinked m₂ ino).bgUsedDirsCount = m₂.bgUsedDirsCount ∧
      (unlinked m₂ ino).fs = m₂.fs := by
    rw [unlinked]
    split <;> exact ⟨rfl,rfl⟩
  rw [truncated]
  split
  · exact ⟨hdrop.1,(frozen_of_aside aside_mount_resize).trans (by rw [hdrop.2])⟩
  · exact ⟨hdrop.1,by rw [hdrop.2]⟩

theorem unlink_spec (h : m₂.unlink t this prevDe prevPos de position = (e,m')) :
    Unlinked m₂ t (dropped m₂ t de.inode) m' := by
  obtain ⟨hused,hfrozen⟩ := @truncated_spec m₂ t de.inode
  rw [unlink_eq] at h
  unfold Unlinked dropped
  by_cases htrunc : (truncated m₂ t de.inode).1 = 0
  · rw [if_neg (not_not.mpr htrunc)] at h
    rw [if_pos htrunc]
    cases h
    have hput : frozen ((truncated m₂ t de.inode).2.putINode t de.inode).fs = frozen m₂.fs :=
      Eq.trans frozen_putINode hfrozen
    rw [rewritten]
    simp only
    split
    · exact ⟨(frozen_of_aside aside_mount_write).trans hput,hused,hfrozen,rfl⟩
    · exact ⟨(frozen_of_aside aside_mount_write).trans hput,hused,hfrozen,rfl⟩
  · rw [if_pos htrunc] at h
    rw [if_neg htrunc]
    cases h
    exact ⟨hfrozen,hused⟩

theorem Unlinked.congr {m₁ : Mount} {d : Option (ℕ × Mount)}
    (hused : m₁.bgUsedDirsCount = m.bgUsedDirsCount) (hfrozen : frozen m₁.fs = frozen m.fs)
    (h : Unlinked m₁ t d m') : Unlinked m t d m' := by
  obtain ⟨hf,hd⟩ := h
  refine ⟨hf.trans hfrozen,?_⟩
  cases d with
  | none => exact hd.trans hused
  | some r => exact ⟨hd.1.trans hused,hd.2.1.trans hfrozen,hd.2.2⟩

/-- Remove counts when it drops the reference to the inode. -/
theorem remove_spec (h : m.remove c fuel this name = some (e,m')) :
    Unlinked m c.curTime (dropping m c fuel this name) m' := by
  rw [Mount.remove] at h
  rw [dropping]
  split at h
  · rename_i hdir
    rw [if_pos hdir]
    cases h
    exact ⟨rfl,rfl⟩
  · rename_i hdir
    rw [if_neg hdir]
    generalize removeLoop _ _ _ _ _ _ _ _ _ = found at h ⊢
    rcases found with _ | ⟨found,node⟩
    · cases h
    · cases found with
      | failed e' =>
        cases h
        exact ⟨rfl,rfl⟩
      | entry prevDe prevPos de position =>
        simp only [Mount.removeEntry] at h ⊢
        cases hget : (m.setNode this node).getINode de.inode with
        | none =>
          rw [hget] at h
          cases h
          exact ⟨rfl,rfl⟩
        | some m₁ =>
          have hused : m₁.bgUsedDirsCount = m.bgUsedDirsCount :=
            @used_getINode (m.setNode this node) m₁ _ hget
          have hfrozen : frozen m₁.fs = frozen m.fs := by
            rw [getINode_fs hget]
            rfl
          simp only [hget] at h ⊢
          cases hmode : isDir (m₁.object de.inode).node.iMode with
          | false =>
            simp only [hmode,Bool.not_false,if_true] at h ⊢
            exact (unlink_spec (Option.some.inj h)).congr hused hfrozen
          | true =>
            simp only [hmode,Bool.not_true,Bool.false_eq_true,Bool.true_eq_false,if_false,
              contentsOf] at h ⊢
            generalize emptyLoop _ _ _ _ _ _ _ _ = inside at h ⊢
            rcases inside with _ | ⟨inside,node'⟩
            · cases h
            · cases inside with
              | failed =>
                cases h
                exact ⟨hfrozen,hused⟩
              | nonEmpty =>
                cases h
                exact ⟨hfrozen,hused⟩
              | empty self parent =>
                exact (unlink_spec (Option.some.inj h)).congr hused hfrozen

end Removal

/-- Place of a descriptor's counter of directories in the table copy of a group. -/
def fieldAt (fs : Ext2) (i g : ℕ) : ℕ := fs.bgdtOffset i + descriptorSize * g + Mount.usedDirsOffset

/-- The counter of a group in the table copies is written, and nothing else. -/
structure FieldWritten (m : Mount) (g : ℕ) (m' : Mount) : Prop where
  /-- The counters in memory stay. -/
  used : m'.bgUsedDirsCount = m.bgUsedDirsCount
  /-- No byte besides the two of the counter in each copy changes. -/
  other : ∀ a,(∀ i < m.fs.blockGroupCount,m.fs.hasSuperBlock i = true →
    Apart a 1 (fieldAt m.fs i g) 2) → m'.fs.volume.data a = m.fs.volume.data a
  /-- If the volume takes what is written, every copy has the counter. -/
  copies : m.fs.volume.Infallible →
    (∀ i < m.fs.blockGroupCount,∀ j < m.fs.blockGroupCount,m.fs.hasSuperBlock i = true →
      m.fs.hasSuperBlock j = true → i ≠ j → Apart (fieldAt m.fs i g) 2 (fieldAt m.fs j g) 2) →
    ∀ i < m.fs.blockGroupCount,m.fs.hasSuperBlock i = true →
      word m'.fs.volume.data 2 (fieldAt m.fs i g) = m.bgUsedDirsCount g % 2 ^ 16

/-- Dropping a reference counts a released directory in its group. -/
def DropsRight (w : World) (m : Mount) (curTime ino : ℕ) : Prop :=
  releases m ino = true → ∃ m₀ : Mount,m₀.bgUsedDirsCount = w.mount.bgUsedDirsCount ∧
    FieldWritten (m₀.uncountDir (groupOf w.mount.fs ino)) (groupOf w.mount.fs ino)
      (m.putINode curTime ino)

/-- What a call must do to the counter of a directory that is made or released:
it is changed in the group of the inode, and written to the table copies. -/
def World.Right (w : World) : Op → Prop
  | .create c fuel this name mode => isDir mode = true → ∀ m',
      w.mount.create c fuel this name mode = some (true,m') → ∃ m₀ m₁ : Mount,
        let g := groupOf w.mount.fs w.mount.fs.allocINode.1
        m₀.bgUsedDirsCount = w.mount.bgUsedDirsCount ∧ FieldWritten (m₀.countDir g) g m₁ ∧
          m' = m₁.putINode c.curTime w.mount.fs.allocINode.1
  | .remove c fuel this name => (w.mount.remove c fuel this name).isSome →
      ∀ d ∈ dropping w.mount c fuel this name,DropsRight w d.2 c.curTime d.1
  | .get _ => True
  | .put curTime number => DropsRight w w.mount curTime number

/-- A directory that is released is alive, and not the last inode of its group. -/
def Releasable (w : World) (m : Mount) (ino : ℕ) : Prop :=
  releases m ino = true → ino ∈ w.live ∧ ¬w.mount.fs.superBlock.sInodesPerGroup ∣ ino

instance (w : World) (m : Mount) (ino : ℕ) : Decidable (Releasable w m ino) := by
  unfold Releasable
  infer_instance

/-- The inodes of the directories alive are marked where the allocator looks when
a directory is made, and a record of its parent has room; what is released is
releasable. -/
def World.Proper (w : World) : Op → Prop
  | .create c fuel this name mode => isDir mode = true →
      (∀ ino ∈ w.live,bitOf w.mount.fs ino = true) ∧
      ∀ place ∈ placeOf w.mount c fuel this name mode,width place = 2
  | .remove c fuel this name => ∀ d ∈ dropping w.mount c fuel this name,Releasable w d.2 d.1
  | .get _ => True
  | .put _ number => Releasable w w.mount number

instance (w : World) (op : Op) : Decidable (w.Proper op) := by
  cases op <;> unfold World.Proper <;> infer_instance

/-- The counters say how many directories are alive in each group. -/
structure Consistent (w : World) : Prop where
  /-- No inode has two directories. -/
  nodup : w.live.Nodup
  /-- Numbers start at one. -/
  numbers : 0 ∉ w.live
  /-- Each group is counted. -/
  counts : ∀ g,w.mount.bgUsedDirsCount g = liveIn w g

section Steps

variable {fs fs' : Ext2} {m m' : Mount} {w : World} {g ino t : ℕ}

/-- Descriptor updates change the copies only. -/
theorem updateCopies_other {startOffs a : ℕ} {field : List UInt8} {is : List ℕ}
    (h : ∀ i ∈ is,fs.hasSuperBlock i = true →
      Apart a 1 (fs.bgdtOffset i + descriptorSize * g + startOffs) field.length) :
    (fs.updateCopies g startOffs field is).2.volume.data a = fs.volume.data a := by
  induction is generalizing fs with
  | nil => rfl
  | cons i is ih =>
    have hrest := fun j hj => h j (List.mem_cons_of_mem i hj)
    rw [Ext2.updateCopies]
    split
    · exact ih hrest
    · rename_i hs
      have hap := h i (by simp) (by simpa using hs)
      have hsame : (fs.volume.write field
          (fs.bgdtOffset i + descriptorSize * g + startOffs)).2.data a = fs.volume.data a := by
        refine patch_out ?_
        rw [Apart] at hap
        have hle := List.length_take_le'
          (fs.volume.served (fs.bgdtOffset i + descriptorSize * g + startOffs) field.length).toNat
          field
        omega
      simp only
      split
      · exact hsame
      · exact (@ih { fs with volume := (fs.volume.write field
          (fs.bgdtOffset i + descriptorSize * g + startOffs)).2 } hrest).trans hsame

/-- Two bytes of a descriptor are its counter of directories. -/
theorem updateUsedDirs_written (m : Mount) (g : ℕ) : FieldWritten m g (m.updateUsedDirs g 2) := by
  have hfield : (leBytes 2 (m.bgUsedDirsCount g) ++ leBytes 2 (m.bgPad g)).take 2 =
      leBytes 2 (m.bgUsedDirsCount g) := List.take_left' (leBytes_length _ _)
  have hdata : (m.updateUsedDirs g 2).fs = (m.fs.updateCopies g Mount.usedDirsOffset
      (leBytes 2 (m.bgUsedDirsCount g)) (List.range m.fs.blockGroupCount)).2 := by
    rw [←hfield]
    rfl
  refine ⟨rfl,fun a ha => ?_,fun hinf hap i hi hs => ?_⟩
  · rw [hdata]
    refine updateCopies_other fun i hi hs => ?_
    rw [leBytes_length]
    exact ha i (List.mem_range.mp hi) hs
  · obtain ⟨data',hrun,-,hslice⟩ := updateCopies_spec g Mount.usedDirsOffset
      (leBytes 2 (m.bgUsedDirsCount g)) hinf (List.range m.fs.blockGroupCount)
    simp only [List.mem_range,leBytes_length] at hslice
    rw [hdata,hrun]
    have hcopy := hslice hap i hi hs
    show leValue (slice data' (fieldAt m.fs i g) 2) = _
    rw [fieldAt,hcopy,leValue_leBytes]
    norm_num

/-- The group that Release computes is the allocator's, except for the last
inode of a group. -/
theorem getINodeBlockGroup_eq_iff (hino : ino ≠ 0) :
    m.getINodeBlockGroup ino = groupOf m.fs ino ↔ ¬m.fs.superBlock.sInodesPerGroup ∣ ino := by
  obtain ⟨n,rfl⟩ := Nat.exists_eq_succ_of_ne_zero hino
  rw [Mount.getINodeBlockGroup,groupOf,Nat.succ_eq_add_one,Nat.add_sub_cancel,Nat.succ_div]
  split
  · rename_i hdvd
    simp [hdvd]
  · rename_i hdvd
    simp [hdvd]

theorem groupOf_frozen (h : frozen fs' = frozen fs) : groupOf fs' = groupOf fs := by
  funext ino
  exact frozen_eq (f := fun x => groupOf x ino) (fun _ => rfl) h

/-- A group has no more directories than inodes. -/
theorem countP_groupOf_le {live : List ℕ} (hipg : 0 < fs.superBlock.sInodesPerGroup)
    (hn : live.Nodup) (hz : 0 ∉ live) :
    live.countP (fun ino => groupOf fs ino = g) ≤ fs.superBlock.sInodesPerGroup := by
  have hsub : (live.filter fun ino => groupOf fs ino = g).toFinset ⊆
      Finset.Ico (1 + g * fs.superBlock.sInodesPerGroup)
        (1 + g * fs.superBlock.sInodesPerGroup + fs.superBlock.sInodesPerGroup) := by
    intro ino hino
    obtain ⟨hmem,hgroup⟩ := List.mem_filter.mp (List.mem_toFinset.mp hino)
    have hgroup : (ino - 1) / fs.superBlock.sInodesPerGroup = g := of_decide_eq_true hgroup
    have hpos : ino ≠ 0 := fun h => hz (h ▸ hmem)
    have hdiv := Nat.div_add_mod (ino - 1) fs.superBlock.sInodesPerGroup
    have hmod := Nat.mod_lt (ino - 1) hipg
    rw [hgroup,Nat.mul_comm] at hdiv
    rw [Finset.mem_Ico]
    omega
  calc live.countP (fun ino => groupOf fs ino = g)
      = (live.filter fun ino => groupOf fs ino = g).toFinset.card := by
        rw [List.countP_eq_length_filter,List.toFinset_card_of_nodup (hn.filter _)]
    _ ≤ _ := Finset.card_le_card hsub
    _ = fs.superBlock.sInodesPerGroup := by rw [Nat.card_Ico]; omega

/-- A new directory that is counted in its group. -/
theorem Consistent.make (hc : Consistent w) (hg : Geometry w.mount.fs)
    (hfrozen : frozen m.fs = frozen w.mount.fs) (hino : ino ≠ 0) (hnew : ino ∉ w.live)
    (hgroup : groupOf w.mount.fs ino = g)
    (hused : m.bgUsedDirsCount = Function.update w.mount.bgUsedDirsCount g
      ((w.mount.bgUsedDirsCount g + 1) % 2 ^ 16)) : Consistent ⟨m,ino :: w.live⟩ := by
  have hn : (ino :: w.live).Nodup := List.nodup_cons.mpr ⟨hnew,hc.nodup⟩
  have hz : 0 ∉ ino :: w.live := fun h =>
    (List.mem_cons.mp h).elim (fun h => hino h.symm) hc.numbers
  refine ⟨hn,hz,fun k => ?_⟩
  have hcount : liveIn ⟨m,ino :: w.live⟩ k = liveIn w k + if g = k then 1 else 0 := by
    simp only [liveIn,groupOf_frozen hfrozen,List.countP_cons,hgroup,decide_eq_true_eq]
  rw [hcount,hused,Function.update_apply]
  by_cases hk : g = k
  · subst hk
    have hle := @countP_groupOf_le w.mount.fs g _ hg.perGroup hn hz
    have hlt := hg.counter
    have hle' : liveIn w g + 1 ≤ w.mount.fs.superBlock.sInodesPerGroup := by
      simpa only [List.countP_cons,hgroup,decide_true,if_true,liveIn] using hle
    rw [if_pos rfl,if_pos rfl,hc.counts,Nat.mod_eq_of_lt (by omega)]
  · rw [if_neg hk,if_neg (Ne.symm hk),hc.counts,Nat.add_zero]

/-- Release finds the group of a directory that is alive and not the last inode
of its group. -/
theorem Consistent.group (hc : Consistent w) (hfrozen : frozen m.fs = frozen w.mount.fs)
    (hlive : ino ∈ w.live) (hlast : ¬w.mount.fs.superBlock.sInodesPerGroup ∣ ino) :
    m.getINodeBlockGroup ino = groupOf w.mount.fs ino := by
  have hipg : m.fs.superBlock.sInodesPerGroup = w.mount.fs.superBlock.sInodesPerGroup :=
    frozen_eq (f := fun x => x.superBlock.sInodesPerGroup) (fun _ => rfl) hfrozen
  rw [←groupOf_frozen hfrozen]
  exact (getINodeBlockGroup_eq_iff fun h => hc.numbers (h ▸ hlive)).mpr (by rwa [hipg])

/-- A reference that is dropped counts a released directory in its group. -/
theorem Consistent.drop (hc : Consistent w) (hused : m.bgUsedDirsCount = w.mount.bgUsedDirsCount)
    (hfrozen : frozen m.fs = frozen w.mount.fs) (hr : Releasable w m ino)
    (hfrozen' : frozen m'.fs = frozen w.mount.fs)
    (hused' : m'.bgUsedDirsCount = (m.putINode t ino).bgUsedDirsCount) :
    Consistent ⟨m',w.forget m ino⟩ := by
  cases hrel : releases m ino with
  | false =>
    have hforget : w.forget m ino = w.live := by simp [World.forget,hrel]
    rw [hforget]
    refine ⟨hc.nodup,hc.numbers,fun g => ?_⟩
    show m'.bgUsedDirsCount g = _
    rw [hused',used_putINode hrel,hused,hc.counts]
    simp only [liveIn,groupOf_frozen hfrozen']
  | true =>
    obtain ⟨hlive,hlast⟩ := hr hrel
    have hforget : w.forget m ino = w.live.erase ino := by simp [World.forget,hrel]
    have hgroup := hc.group hfrozen hlive hlast
    obtain ⟨m₀,hm₀,-,hput⟩ := @putINode_released m ino t hrel
    rw [hforget]
    refine ⟨hc.nodup.erase ino,fun h => hc.numbers (List.mem_of_mem_erase h),fun g => ?_⟩
    have hcount : liveIn ⟨m',w.live.erase ino⟩ g =
        liveIn w g - if groupOf w.mount.fs ino = g then 1 else 0 := by
      simp only [liveIn,groupOf_frozen hfrozen',List.countP_erase,hlive,true_and,
        decide_eq_true_eq]
    have hafter : m'.bgUsedDirsCount = Function.update w.mount.bgUsedDirsCount
        (groupOf w.mount.fs ino) (w.mount.bgUsedDirsCount (groupOf w.mount.fs ino) - 1) := by
      rw [hused',hput,hgroup,←hused,←hm₀]
      rfl
    rw [hcount,hafter,Function.update_apply]
    by_cases hg : groupOf w.mount.fs ino = g
    · rw [if_pos hg.symm,if_pos hg,hc.counts,hg]
    · rw [if_neg (Ne.symm hg),if_neg hg,hc.counts,Nat.sub_zero]

/-- The counter of a releasable directory is changed in its group. -/
theorem Consistent.dropsRight (hc : Consistent w)
    (hused : m.bgUsedDirsCount = w.mount.bgUsedDirsCount)
    (hfrozen : frozen m.fs = frozen w.mount.fs) (hr : Releasable w m ino) :
    DropsRight w m t ino := by
  intro hrel
  obtain ⟨hlive,hlast⟩ := hr hrel
  obtain ⟨m₀,hm₀,-,hput⟩ := @putINode_released m ino t hrel
  refine ⟨m₀,hm₀.trans hused,?_⟩
  rw [hput,hc.group hfrozen hlive hlast]
  exact updateUsedDirs_written _ _

/-- What is not counted stays counted right. -/
theorem Consistent.keep (hc : Consistent w) (hused : m.bgUsedDirsCount = w.mount.bgUsedDirsCount)
    (hfrozen : frozen m.fs = frozen w.mount.fs) : Consistent ⟨m,w.live⟩ := by
  refine ⟨hc.nodup,hc.numbers,fun g => ?_⟩
  show m.bgUsedDirsCount g = _
  rw [hused,hc.counts]
  simp only [liveIn,groupOf_frozen hfrozen]

/-- A new directory is not the inode of one that is alive, and is counted in its
group. -/
theorem Consistent.create {c : Caller} {fuel this mode : ℕ} {name : List UInt8}
    (hc : Consistent w) (hg : Geometry w.mount.fs)
    (hp : w.Proper (.create c fuel this name mode)) :
    Consistent (w.apply (.create c fuel this name mode)) ∧
      frozen (w.apply (.create c fuel this name mode)).mount.fs = frozen w.mount.fs ∧
      w.Right (.create c fuel this name mode) := by
  delta World.apply
  dsimp only
  cases hrun : w.mount.create c fuel this name mode with
  | none =>
    refine ⟨hc,rfl,?_⟩
    intro _ m' hmade
    rw [hrun] at hmade
    cases hmade
  | some r =>
    obtain ⟨made,m'⟩ := r
    rcases create_spec hrun with ⟨hmade,hdir,hino,place,hplace,hcounts⟩ | ⟨hnone,hused,hfrozen⟩
    · obtain ⟨hmarked,hroom⟩ := hp hdir
      obtain ⟨hgroup,hclear⟩ := allocINode_clear hg hino
      rw [hgroup,Option.getD_some,hroom place hplace] at hcounts
      have hnew : w.mount.fs.allocINode.1 ∉ w.live := fun hlive => by
        rw [hmarked _ hlive] at hclear
        cases hclear
      refine ⟨?_,hcounts.frozen,?_⟩
      · simp only [hmade,hdir,Bool.and_true,if_true]
        exact hc.make hg hcounts.frozen hino hnew rfl hcounts.used
      · intro _ m'' hm''
        rw [hrun] at hm''
        cases hm''
        obtain ⟨m₀,hm₀,-,-,heq⟩ := hcounts
        exact ⟨m₀,_,hm₀,updateUsedDirs_written _ _,heq⟩
    · simp only [hnone,Bool.false_eq_true,if_false]
      refine ⟨hc.keep hused hfrozen,hfrozen,?_⟩
      intro hdir m'' hm''
      rw [hrun] at hm''
      cases hm''
      rw [hdir] at hnone
      cases hnone

/-- Remove counts the directory that it releases in its group. -/
theorem Consistent.remove {c : Caller} {fuel this : ℕ} {name : List UInt8} (hc : Consistent w)
    (hp : w.Proper (.remove c fuel this name)) :
    Consistent (w.apply (.remove c fuel this name)) ∧
      frozen (w.apply (.remove c fuel this name)).mount.fs = frozen w.mount.fs ∧
      w.Right (.remove c fuel this name) := by
  delta World.apply
  dsimp only
  cases hrun : w.mount.remove c fuel this name with
  | none =>
    refine ⟨hc,rfl,fun hsome => ?_⟩
    rw [hrun] at hsome
    cases hsome
  | some r =>
    obtain ⟨e,m'⟩ := r
    obtain ⟨hfrozen,hspec⟩ := remove_spec hrun
    cases hd : dropping w.mount c fuel this name with
    | none =>
      simp only [hd] at hspec ⊢
      refine ⟨hc.keep hspec hfrozen,hfrozen,fun _ d hmem => ?_⟩
      rw [hd] at hmem
      cases hmem
    | some d =>
      simp only [hd] at hspec ⊢
      obtain ⟨hused,hfrozen₁,hused'⟩ := hspec
      have hr : Releasable w d.2 d.1 := hp d hd
      refine ⟨hc.drop hused hfrozen₁ hr hfrozen hused',hfrozen,fun _ d' hmem => ?_⟩
      rw [hd] at hmem
      cases hmem
      exact hc.dropsRight hused hfrozen₁ hr

/-- Every proper call keeps the counters right and changes them in the right
groups. -/
theorem Consistent.apply {op : Op} (hc : Consistent w) (hg : Geometry w.mount.fs)
    (hp : w.Proper op) : Consistent (w.apply op) ∧
      frozen (w.apply op).mount.fs = frozen w.mount.fs ∧ w.Right op := by
  cases op with
  | create c fuel this name mode => exact hc.create hg hp
  | remove c fuel this name => exact hc.remove hp
  | get number =>
    have hgot : ((w.mount.getINode number).getD w.mount).bgUsedDirsCount =
        w.mount.bgUsedDirsCount ∧ ((w.mount.getINode number).getD w.mount).fs = w.mount.fs := by
      cases hget : w.mount.getINode number with
      | none => exact ⟨rfl,rfl⟩
      | some m => exact ⟨used_getINode hget,getINode_fs hget⟩
    have hfrozen : frozen ((w.mount.getINode number).getD w.mount).fs = frozen w.mount.fs := by
      rw [hgot.2]
    exact ⟨hc.keep hgot.1 hfrozen,hfrozen,trivial⟩
  | put t number =>
    exact ⟨hc.drop rfl rfl hp frozen_putINode rfl,frozen_putINode,hc.dropsRight rfl rfl hp⟩

end Steps

/-- In every run in which directories are made where a record has room, and no
directory that is released is the last inode of its group, each group counts its
directories after every call, in the group of the inode and in the two bytes of
its counter; for the last inode of a group, and only for that one, Release takes
another group than the allocator. -/
theorem directories_counted {w : World} {ops : List Op} (hg : Geometry w.mount.fs)
    (hc : Consistent w) (h : RunMeets World.apply World.Proper w ops) :
    (∀ n g,((ops.take n).foldl World.apply w).mount.bgUsedDirsCount g =
      liveIn ((ops.take n).foldl World.apply w) g) ∧
    RunMeets World.apply World.Right w ops ∧
    ∀ (m : Mount) (ino : ℕ),ino ≠ 0 → (m.getINodeBlockGroup ino = groupOf m.fs ino ↔
      ¬m.fs.superBlock.sInodesPerGroup ∣ ino) := by
  have hstep : ∀ w op,Geometry w.mount.fs ∧ Consistent w → World.Proper w op →
      Geometry (w.apply op).mount.fs ∧ Consistent (w.apply op) := fun w op hinv hp =>
    have hafter := hinv.2.apply hinv.1 hp
    ⟨hinv.1.of_frozen hafter.2.1,hafter.1⟩
  refine ⟨fun n g => ?_,?_,fun m ino hino => getINodeBlockGroup_eq_iff hino⟩
  · exact (RunMeets.invariant hstep ⟨hg,hc⟩ (h.take n)).2.counts g
  · exact h.imp hstep (fun w op hinv hp => (hinv.2.apply hinv.1 hp).2.2) ⟨hg,hc⟩

/-- A file system with one directory, inode 2, in which the inodes of the given
byte of the bitmap are in use. -/
def oneDirectory (used : UInt8) : Mount where
  fs := { tinyFs (patch (patch (patch (fun _ => 0) (2 * 1024) [0xFF]) (3 * 1024) [used]) (5 * 1024)
      [2,0,0,0,12,0,1,2,46,0,0,0,2,0,0,0,0xF4,3,2,2,46,46,0,0]) with
    bgdt := fun _ => ⟨2,3,4,24,1⟩ }
  bgUsedDirsCount := fun g => if g = 0 then 1 else 0
  bgPad := fun _ => 0
  inodeCache := fun n => if n = 2 then some (cachedDirectory 1024 5) else none

/-- A directory d is made and removed. -/
def makeAndRemove : List Op :=
  [.create ⟨0,some (0,0)⟩ 5 2 [100] 0x41ED,.remove ⟨0,some (0,0)⟩ 5 2 [100]]

/-- Inode 7 is counted in the first of the groups of eight when it becomes a
directory, and no more when it is removed. -/
theorem directories_counted_seventh :
    ((makeAndRemove.take 2).foldl World.apply ⟨oneDirectory 0x3F,[2]⟩).mount.bgUsedDirsCount 0 =
      liveIn ((makeAndRemove.take 2).foldl World.apply ⟨oneDirectory 0x3F,[2]⟩) 0 :=
  (directories_counted ⟨by decide,by decide,by decide⟩
    ⟨by decide,by decide,fun g => by
      show (if g = 0 then 1 else 0) = [2].countP fun ino => (ino - 1) / 8 = g
      by_cases hg : g = 0
      · rw [hg]
        rfl
      · simp [hg,Ne.symm hg]⟩
    (by decide +kernel)).1 2 0

/-- Inode 8, the last of the first group, is counted there when it becomes a
directory, and still when it is removed. -/
theorem last_inode_stays_counted :
    let w : World := makeAndRemove.foldl World.apply ⟨oneDirectory 0x7F,[2]⟩
    w.live = [2] ∧ w.mount.bgUsedDirsCount 0 = 2 ∧ liveIn w 0 = 1 := by
  decide +kernel

end WootOs.DirectoryCounters
