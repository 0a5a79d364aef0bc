import Mathlib.Algebra.Group.Nat.Defs
import WootOs.DentryRuns

/-!
# Cached dentries and the entries of directories

LookupDEntry looks at the cache before it looks at the directory. Create and
Remove change the directory and leave the cache as it is, and so does the
truncation by File::Open. So a dentry that is kept by an open file is found
under its name when the entry of that name is gone.

As long as no call takes away an entry whose dentry is cached, the cache has
for a name what the directory has. A volume holds a mode, a number of links and
a list of entries for each inode. Reads and writes do not fail; where the
entries lie in the blocks of the directory is left out.
-/

namespace WootOs.DentryCache

open Runs

set_option linter.unusedSectionVars false

/-- What a volume holds for an inode. -/
structure Record where
  /-- i_mode. -/
  mode : ℕ
  /-- i_links_count. -/
  links : ℕ
  /-- The used entries in the order of their positions, each with its inode number. -/
  entries : List (Name × ℕ)

namespace Record

variable (r : Record)

/-- The first entry of a name. -/
def find (name : Name) : Option ℕ := (r.entries.find? fun entry => entry.1 = name).map Prod.snd

/-- ReadDir gives entries for an inode with the bit EXT2_S_IFDIR. -/
def Readable : Prop := r.mode &&& 0x4000 ≠ 0

instance : Decidable r.Readable := inferInstanceAs (Decidable (_ ≠ _))

/-- INode::Lookup. -/
def lookup (name : Name) : Option ℕ := if r.Readable then r.find name else none

/-- Nothing but "." and "..". -/
def Empty : Prop := ∀ entry ∈ r.entries,entry.1 = dot ∨ entry.1 = dotDot

instance : Decidable r.Empty := inferInstanceAs (Decidable (∀ _ ∈ _,_))

/-- The number of entries of a name. -/
def countName (name : Name) : ℕ := r.entries.countP fun entry => entry.1 = name

/-- Resize to zero takes all entries away. -/
def erase : Record := { r with entries := [] }

/-- An entry is written. One without a name is an unused one. -/
def add (name : Name) (number : ℕ) : Record :=
  if name = [] then r else { r with entries := r.entries ++ [(name,number)] }

/-- The first entry of a name is cleared or merged into the one before. -/
def clear (name : Name) : Record :=
  { r with entries := r.entries.eraseP fun entry => entry.1 = name }

end Record

/-- The file system and what its volumes hold. -/
structure Volumes where
  /-- The caches. -/
  fs : FileSystem
  /-- The records of the inodes. -/
  records : INode → Record

/-- The calls. Those on a file name it by its process and its place there. -/
inductive Call where
  /-- A call on dentries, with the result of Resize if it resizes an inode. -/
  | call (op : Op) (resized : ℤ)
  /-- File::Create, with the number that allocINode gives, whether the entry finds a place
  and whether a directory gets its block. -/
  | create (process file : ℕ) (name : Name) (mode : ℕ) (ino : Option ℕ) (placed built : Bool)
  /-- File::Remove, with the result of Resize if it resizes an inode. -/
  | remove (process file : ℕ) (name : Name) (resized : ℤ)

/-- EXT2::isValidFileName. -/
def ValidFileName (name : Name) : Prop :=
  name.length ≤ 255 ∧ name ≠ dot ∧ name ≠ dotDot ∧ '/' ∉ name

instance (name : Name) : Decidable (ValidFileName name) := inferInstanceAs (Decidable (_ ∧ _))

namespace Volumes

variable (v : Volumes)

/-- What a call reads from the volumes. -/
def disk (resized : ℤ) : Disk where
  lookup := fun inode => (v.records inode).lookup
  mode := fun inode => (v.records inode).mode
  resize := fun _ => resized

/-- Another record for an inode. -/
def update (inode : INode) (r : Record) : Volumes :=
  { v with records := Function.update v.records inode r }

/-- The inode that File::Open comes to, and the file system then. -/
def target (resized : ℤ) (p : Process) (origin : Origin) (tokens : List Name) :
    Option (FileSystem × INode) :=
  match v.fs.rootOf p origin with
  | some (some d) =>
    match v.fs.resolve (v.disk resized) d tokens with
    | some (fs,some e) => (fs.inodeOf e).map fun inode => (fs,inode)
    | _ => none
  | _ => none

/-- The volumes after the truncation by File::Open. The blocks that Resize frees before it
fails are the first ones, so the entries go in any case. -/
def truncate (resized : ℤ) (p : Process) (origin : Origin) (tokens : List Name) (flags : ℕ) :
    INode → Record :=
  match v.target resized p origin tokens with
  | some (_,inode) =>
    if truncates flags then Function.update v.records inode (v.records inode).erase else v.records
  | none => v.records

/-- The volumes after a call on dentries. -/
def recordsAfter (resized : ℤ) : Op → INode → Record
  | .openFile n origin tokens flags _ =>
    match v.fs.processes[n]? with
    | some p => v.truncate resized p origin tokens flags
    | none => v.records
  | _ => v.records

/-- The inode of an open file. -/
def fileINode (n file : ℕ) : Option INode :=
  match v.fs.processes[n]? with
  | some p => p.files[file]?.bind v.fs.inodeOf
  | none => none

/-- Create gets to the allocation of an inode. -/
def Creates (dir : INode) (name : Name) : Prop :=
  ValidFileName name ∧ isDirectory (v.records dir).mode ∧ (v.records dir).lookup name = none

instance (dir : INode) (name : Name) : Decidable (v.Creates dir name) :=
  inferInstanceAs (Decidable (_ ∧ _))

/-- FSINode::buildDirectory. -/
def buildDirectory (parent new : INode) : Volumes :=
  let r := v.records new
  let v := v.update new { r with entries := [(dot,new.number),(dotDot,parent.number)] }
  let r := v.records parent
  let v := v.update parent { r with links := (r.links + 1) % 2 ^ 16 }
  let r := v.records new
  v.update new { r with links := (r.links + 1) % 2 ^ 16 }

/-- The records that Create writes for the new inode and its directory. -/
def place (dir new : INode) (name : Name) (mode : ℕ) (placed built : Bool) : Volumes :=
  let v := v.update new { v.records new with mode := mode % 2 ^ 16,links := 1 }
  if placed then
    let v := v.update dir ((v.records dir).add name new.number)
    if isDirectory mode ∧ built then v.buildDirectory dir new else v
  else v

/-- FSINode::Create. -/
def create (dir : INode) (name : Name) (mode : ℕ) (ino : Option ℕ) (placed built : Bool) :
    Option Volumes :=
  if v.Creates dir name then
    match ino with
    | none => some v
    | some ino =>
      let got := v.fs.getINode ⟨dir.fs,ino⟩
      (got.1.putINode got.2).map fun fs =>
        { v.place dir ⟨dir.fs,ino⟩ name mode placed built with fs := fs }
  else some v

/-- The links that Remove takes from a directory that it removes and from its parent. -/
def unlinkDirectory (dir inode : INode) : Volumes :=
  let self := (v.records inode).countName dot
  let parent := (v.records inode).countName dotDot
  let r := v.records inode
  let v := v.update inode { r with links := r.links - self }
  let r := v.records dir
  v.update dir { r with links := r.links - parent }

/-- The links that Remove takes. -/
def unlink (dir inode : INode) : Volumes :=
  let v := if isDirectory (v.records inode).mode then v.unlinkDirectory dir inode else v
  let r := v.records inode
  v.update inode { r with links := r.links - 1 }

/-- Remove comes to the contents of the inode: it is not a directory with entries. -/
def Unlinks (inode : INode) : Prop :=
  isDirectory (v.records inode).mode → (v.records inode).Empty

instance (inode : INode) : Decidable (v.Unlinks inode) := inferInstanceAs (Decidable (_ → _))

/-- The last link of the inode goes. -/
def LastLink (dir inode : INode) : Prop := ((v.unlink dir inode).records inode).links = 0

instance (dir inode : INode) : Decidable (v.LastLink dir inode) :=
  inferInstanceAs (Decidable (_ = _))

/-- The records after Remove has taken the links, and the contents with the last one. -/
def unlinked (dir inode : INode) : Volumes :=
  let v' := v.unlink dir inode
  if v.LastLink dir inode then v'.update inode (v'.records inode).erase else v'

/-- FSINode::Remove. Where it fails it keeps its reference to the inode. -/
def remove (dir : INode) (name : Name) (resized : ℤ) : Option Volumes :=
  match (v.records dir).lookup name with
  | none => some v
  | some ino =>
    let inode : INode := ⟨dir.fs,ino⟩
    let got := v.fs.getINode inode
    if v.Unlinks inode then
      let v' := v.unlinked dir inode
      if v.LastLink dir inode ∧ resized ≠ 0 then some { v' with fs := got.1 }
      else (got.1.putINode got.2).map fun fs =>
        { v'.update dir ((v'.records dir).clear name) with fs := fs }
    else some { v with fs := got.1 }

/-- The effect of a call. -/
def apply : Call → Option Volumes
  | .call op resized => (v.fs.apply (v.disk resized) op).map fun fs => ⟨fs,v.recordsAfter resized op⟩
  | .create n file name mode ino placed built =>
    match v.fileINode n file with
    | none => some v
    | some dir => v.create dir name mode ino placed built
  | .remove n file name resized =>
    match v.fileINode n file with
    | none => some v
    | some dir => v.remove dir name resized

/-- A call in a state, if there is one. -/
def step (state : Option Volumes) (call : Call) : Option Volumes :=
  state.bind fun v => v.apply call

/-- LookupDEntry of a directory gives a dentry exactly for the names that have an entry, and
its inode has the number of the entry. -/
def Coherent : Prop :=
  ∀ parent ∈ v.fs.dentryCache,∀ dir,v.fs.inodeOf parent = some dir →
    isDirectory (v.records dir).mode → ∀ name,
      ∃ fs r,v.fs.lookupDEntry (v.disk 0) parent name = some (fs,r) ∧
        (r.map fun d => (fs.inodes (fs.dentries d).inode).number) = (v.records dir).find name

end Volumes

/-- No dentry of a name is cached below an inode. -/
def Uncached (fs : FileSystem) (dir : INode) (name : Name) : Prop :=
  ∀ d ∈ fs.dentryCache,∀ p,(fs.dentries d).parent = some p → (fs.dentries d).name = name →
    fs.inodes (fs.dentries p).inode ≠ dir

/-- No dentry is cached below an inode. -/
def Childless (fs : FileSystem) (dir : INode) : Prop := ∀ name,Uncached fs dir name

/-- A call takes away no entry whose dentry is cached. -/
def Quiet (v : Volumes) : Call → Prop
  | .call (.openFile n origin tokens flags _) resized =>
    truncates flags → ∀ p,v.fs.processes[n]? = some p →
      ∀ fs inode,v.target resized p origin tokens = some (fs,inode) → Childless fs inode
  | .call _ _ => True
  | .create n file name _ ino _ _ =>
    ∀ dir,v.fileINode n file = some dir → v.Creates dir name →
      ∀ number,ino = some number → Childless v.fs ⟨dir.fs,number⟩
  | .remove n file name resized =>
    ∀ dir,v.fileINode n file = some dir → ∀ ino,(v.records dir).lookup name = some ino →
      v.Unlinks ⟨dir.fs,ino⟩ →
        ((v.LastLink dir ⟨dir.fs,ino⟩ → resized = 0) → Uncached v.fs dir name) ∧
          (v.LastLink dir ⟨dir.fs,ino⟩ → ¬isDirectory (v.records ⟨dir.fs,ino⟩).mode →
            Childless v.fs ⟨dir.fs,ino⟩)

/-- An inode has an entry that a path can look up. -/
def Stored (records : INode → Record) (dir : INode) (name : Name) (number : ℕ) : Prop :=
  (records dir).lookup name = some number ∧ name ≠ dot ∧ name ≠ dotDot

/-- The entries of the cached dentries stay. -/
def Keeps (fs : FileSystem) (records records' : INode → Record) : Prop :=
  ∀ d ∈ fs.dentryCache,∀ p,(fs.dentries d).parent = some p → ∀ number,
    Stored records (fs.inodes (fs.dentries p).inode) (fs.dentries d).name number →
      Stored records' (fs.inodes (fs.dentries p).inode) (fs.dentries d).name number

variable {v v' : Volumes} {fs : FileSystem} {dir inode a : INode} {name b : Name} {r : Record}
variable {m number : ℕ} {hand inodeHand : List ℕ} {records records' : INode → Record}

/-- The entries of the cached dentries are all that a change of the volumes has to keep. -/
theorem Accounted.keeps (h : Accounted (Stored records) fs hand inodeHand)
    (hkeeps : Keeps fs records records') : Accounted (Stored records') fs hand inodeHand := by
  refine ⟨⟨h.dentry_lt,h.inode_lt,h.oneName,h.oneINode,h.rooted,fun d hd p hp => ?_⟩,h.dentries,
    h.inodes⟩
  obtain ⟨hfs,hstored⟩ := h.linked d hd p hp
  exact ⟨hfs,hkeeps d hd p hp _ hstored⟩

theorem finds_stored (v : Volumes) (resized : ℤ) : Finds (Stored v.records) (v.disk resized) :=
  fun _ _ _ hdot hdd hlook => ⟨hlook,hdot,hdd⟩

/-- A directory can be read. -/
theorem isDirectory.readable (h : isDirectory r.mode) : r.Readable := by
  have hbit : r.mode &&& 0x4000 = (r.mode &&& 0xF000) &&& 0x4000 := by
    rw [Nat.and_assoc]
    rfl
  rw [Record.Readable,hbit,show r.mode &&& 0xF000 = 0x4000 from h]
  decide

/-! ### Records -/

namespace Record

theorem lookup_of_readable (h : r.Readable) : r.lookup name = r.find name := if_pos h

/-- An entry that is found has the name. -/
theorem mem_of_find (h : r.find name = some number) : (name,number) ∈ r.entries := by
  obtain ⟨entry,hentry,hnum⟩ := Option.map_eq_some_iff.mp h
  have hname := List.find?_some hentry
  simp only [decide_eq_true_eq] at hname
  have hmem := List.mem_of_find?_eq_some hentry
  rw [← hname,← hnum]
  exact hmem

theorem find_of_lookup (h : r.lookup name = some number) : r.find name = some number := by
  rw [lookup] at h
  split at h
  · exact h
  · exact absurd h nofun

/-- A new entry hides none that is there. -/
theorem lookup_add (h : r.lookup b = some number) : (r.add name m).lookup b = some number := by
  rw [add]
  split
  · exact h
  · rw [lookup] at h ⊢
    split at h
    · next hread =>
      have hread' : { r with entries := r.entries ++ [(name,m)] }.Readable := hread
      rw [if_pos hread',find,List.find?_append]
      rw [find] at h
      obtain ⟨entry,hentry,hnum⟩ := Option.map_eq_some_iff.mp h
      rw [hentry]
      exact congrArg some hnum
    · exact absurd h nofun

/-- The entries of other names stay when an entry is cleared. -/
theorem find_clear (hne : b ≠ name) : (r.clear name).find b = r.find b := by
  have hlist (l : List (Name × ℕ)) :
      (l.eraseP fun entry => entry.1 = name).find? (fun entry => entry.1 = b) =
        l.find? fun entry => entry.1 = b := by
    induction l with
    | nil => rfl
    | cons entry l ih =>
      by_cases hname : entry.1 = name
      · rw [List.eraseP_cons_of_pos (by simpa using hname),
          List.find?_cons_of_neg (by simpa [hname] using hne.symm)]
      · rw [List.eraseP_cons_of_neg (by simpa using hname),List.find?_cons,List.find?_cons,ih]
  rw [find,find,clear,hlist]

theorem lookup_clear (hne : b ≠ name) : (r.clear name).lookup b = r.lookup b := by
  rw [lookup,lookup,find_clear hne]
  rfl

end Record

/-! ### Changes of the volumes -/

namespace Volumes

/-- The record of another inode stays. -/
theorem update_of_ne (hne : a ≠ inode) : (v.update inode r).records a = v.records a :=
  Function.update_of_ne hne _ _

/-- The links of an inode have nothing to do with its entries. -/
theorem lookup_update_links (links : ℕ) :
    ((v.update inode { v.records inode with links := links }).records a).lookup b =
      (v.records a).lookup b := by
  by_cases hne : a = inode
  · subst hne
    rw [show (v.update a { v.records a with links := links }).records a =
      { v.records a with links := links } from Function.update_self ..]
    rfl
  · rw [update_of_ne hne]

/-- Remove takes links and no entries before it comes to the contents. -/
theorem lookup_unlink : ((v.unlink dir inode).records a).lookup b = (v.records a).lookup b := by
  rw [unlink,lookup_update_links]
  split
  · rw [unlinkDirectory,lookup_update_links,lookup_update_links]
  · rfl

/-- Create writes the record of the new inode and adds an entry. -/
theorem lookup_place (hne : a ≠ inode) (mode : ℕ) (placed built : Bool)
    (h : (v.records a).lookup b = some number) :
    ((v.place dir inode name mode placed built).records a).lookup b = some number := by
  rw [place]
  set v₁ := v.update inode { v.records inode with mode := mode % 2 ^ 16,links := 1 } with hv₁
  have h₁ : (v₁.records a).lookup b = some number := by rw [hv₁,update_of_ne hne,h]
  dsimp only
  split
  · set v₂ := v₁.update dir ((v₁.records dir).add name inode.number) with hv₂
    have h₂ : (v₂.records a).lookup b = some number := by
      by_cases hdir : a = dir
      · subst hdir
        rw [hv₂,show (v₁.update a ((v₁.records a).add name inode.number)).records a =
          (v₁.records a).add name inode.number from Function.update_self ..]
        exact Record.lookup_add h₁
      · rw [hv₂,update_of_ne hdir,h₁]
    split
    · rw [buildDirectory,update_of_ne hne,lookup_update_links,update_of_ne hne,h₂]
    · exact h₂
  · exact h₁

end Volumes

/-! ### What a quiet call keeps -/

/-- The contents of an inode that has no cached dentries below it can go. -/
theorem Childless.keeps_update (h : Childless fs inode) (hr : v.records = records) :
    Keeps fs records (v.update inode r).records := by
  intro d hd p hp number hstored
  rw [Stored,Volumes.update_of_ne (h _ d hd p hp rfl),hr]
  exact hstored

/-- Create keeps the entries of the cached dentries. -/
theorem Childless.keeps_place (h : Childless fs inode) (mode : ℕ) (placed built : Bool) :
    Keeps fs v.records (v.place dir inode name mode placed built).records := by
  intro d hd p hp number hstored
  exact ⟨Volumes.lookup_place (h _ d hd p hp rfl) mode placed built hstored.1,hstored.2⟩

/-- Before Remove clears its entry it keeps the entries of the cached dentries: what it
takes from a directory is \".\" and \"..\". -/
theorem Keeps.unlinked (hunlinks : v.Unlinks inode)
    (hchildless : v.LastLink dir inode → ¬isDirectory (v.records inode).mode →
      Childless fs inode) : Keeps fs v.records (v.unlinked dir inode).records := by
  intro d hd p hp number hstored
  refine ⟨?_,hstored.2⟩
  have hkept : ((v.unlink dir inode).records (fs.inodes (fs.dentries p).inode)).lookup
      (fs.dentries d).name = some number := Volumes.lookup_unlink.trans hstored.1
  rw [Volumes.unlinked]
  split
  · next hlast =>
    by_cases hne : fs.inodes (fs.dentries p).inode = inode
    · by_cases hdir : isDirectory (v.records inode).mode
      · have hfound := hstored.1
        rw [hne] at hfound
        have hempty := hunlinks hdir _ (Record.mem_of_find (Record.find_of_lookup hfound))
        exact absurd hempty (not_or.mpr hstored.2)
      · exact absurd hne (hchildless hlast hdir _ d hd p hp rfl)
    · rw [Volumes.update_of_ne hne]
      exact hkept
  · exact hkept

/-- The entry that Remove clears is not that of a cached dentry. -/
theorem Uncached.keeps_clear (h : Uncached fs dir name) :
    Keeps fs v.records (v.update dir ((v.records dir).clear name)).records := by
  intro d hd p hp number hstored
  refine ⟨?_,hstored.2⟩
  by_cases hne : fs.inodes (fs.dentries p).inode = dir
  · have hname : (fs.dentries d).name ≠ name := fun he => h d hd p hp he hne
    rw [hne] at hstored ⊢
    rw [show (v.update dir ((v.records dir).clear name)).records dir =
      (v.records dir).clear name from Function.update_self ..,Record.lookup_clear hname]
    exact hstored.1
  · rw [Volumes.update_of_ne hne]
    exact hstored.1

theorem Keeps.trans {records'' : INode → Record} (h : Keeps fs records records')
    (h' : Keeps fs records' records'') : Keeps fs records records'' :=
  fun d hd p hp number hstored => h' d hd p hp number (h d hd p hp number hstored)

/-- The cached dentries have the inodes of their entries. References to inodes that failed
calls to Remove keep are in hand. -/
def Fresh (v : Volumes) : Prop := ∃ kept,Accounted (Stored v.records) v.fs [] kept

/-- A reference to an inode is got and put again. -/
theorem Accounted.getINode_putINode (h : Accounted (Stored records) fs hand inodeHand)
    (inode : INode) : ∃ fs',(fs.getINode inode).1.putINode (fs.getINode inode).2 = some fs' ∧
      Accounted (Stored records) fs' hand inodeHand := by
  obtain ⟨fs',heq,hacc,-,-⟩ := (h.getINode inode).putINode
  exact ⟨fs',heq,hacc⟩

/-- Create with nothing cached below the new inode. -/
theorem Fresh.create (h : Fresh v) (mode : ℕ) (ino : Option ℕ) (placed built : Bool)
    (hquiet : v.Creates dir name → ∀ number,ino = some number → Childless v.fs ⟨dir.fs,number⟩) :
    ∃ v',v.create dir name mode ino placed built = some v' ∧ Fresh v' := by
  obtain ⟨kept,hacc⟩ := h
  unfold Volumes.create
  split
  · next hcreates =>
    cases ino with
    | none => exact ⟨v,rfl,kept,hacc⟩
    | some number =>
      have hkeeps : Keeps v.fs v.records
          (v.place dir ⟨dir.fs,number⟩ name mode placed built).records :=
        (hquiet hcreates number rfl).keeps_place mode placed built
      obtain ⟨fs',heq,hacc'⟩ := (hacc.keeps hkeeps).getINode_putINode ⟨dir.fs,number⟩
      dsimp only
      rw [heq]
      exact ⟨_,rfl,kept,hacc'⟩
  · exact ⟨v,rfl,kept,hacc⟩

/-- Remove of an entry whose dentry is not cached. -/
theorem Fresh.remove (h : Fresh v) (resized : ℤ)
    (hquiet : ∀ ino,(v.records dir).lookup name = some ino → v.Unlinks ⟨dir.fs,ino⟩ →
      ((v.LastLink dir ⟨dir.fs,ino⟩ → resized = 0) → Uncached v.fs dir name) ∧
        (v.LastLink dir ⟨dir.fs,ino⟩ → ¬isDirectory (v.records ⟨dir.fs,ino⟩).mode →
          Childless v.fs ⟨dir.fs,ino⟩)) :
    ∃ v',v.remove dir name resized = some v' ∧ Fresh v' := by
  obtain ⟨kept,hacc⟩ := h
  rw [Volumes.remove]
  cases hlook : (v.records dir).lookup name with
  | none => exact ⟨v,rfl,kept,hacc⟩
  | some ino =>
    dsimp only
    split
    · next hunlinks =>
      obtain ⟨huncached,hchildless⟩ := hquiet ino hlook hunlinks
      have hunlinked : Keeps v.fs v.records (v.unlinked dir ⟨dir.fs,ino⟩).records :=
        Keeps.unlinked hunlinks hchildless
      split
      · exact ⟨_,rfl,_,(hacc.keeps hunlinked).getINode _⟩
      · next hresized =>
        have hzero : v.LastLink dir ⟨dir.fs,ino⟩ → resized = 0 := by
          intro hlast
          by_contra hne
          exact hresized ⟨hlast,hne⟩
        have hkeeps := hunlinked.trans (huncached hzero).keeps_clear
        obtain ⟨fs',heq,hacc'⟩ := (hacc.keeps hkeeps).getINode_putINode ⟨dir.fs,ino⟩
        rw [heq]
        exact ⟨_,rfl,kept,hacc'⟩
    · exact ⟨_,rfl,_,hacc.getINode _⟩

/-- File::Open with nothing cached below an inode that it truncates. -/
theorem Fresh.openFile (h : Fresh v) {n : ℕ} {p : Process} (hp : v.fs.processes[n]? = some p)
    {origin : Origin} (horigin : origin ≠ .absolute) (tokens : List Name) (flags : ℕ)
    (handle : Bool) (resized : ℤ) (hquiet : truncates flags → ∀ fs inode,
      v.target resized p origin tokens = some (fs,inode) → Childless fs inode) :
    ∃ fs file fs',v.fs.openFile (v.disk resized) p origin tokens flags = some (fs,file) ∧
      fs.giveHandle n p file handle = some fs' ∧
      Fresh ⟨fs',v.truncate resized p origin tokens flags⟩ := by
  obtain ⟨kept,hacc⟩ := h
  cases hroot : v.fs.rootOf p origin with
  | none =>
    cases origin with
    | absolute => exact absurd rfl horigin
    | _ => exact absurd hroot nofun
  | some start =>
    cases start with
    | none =>
      have hsame : v.truncate resized p origin tokens flags = v.records := by
        simp only [Volumes.truncate,Volumes.target,hroot]
      refine ⟨v.fs,none,v.fs,by simp only [FileSystem.openFile,hroot],rfl,kept,?_⟩
      rw [hsame]
      exact hacc
    | some d =>
      have hd : d ∈ v.fs.dentryCache := hacc.of_rootOf hp hroot
      obtain ⟨t,r,hres,hacc₁,hkept₁⟩ := hacc.resolve (finds_stored v resized) tokens hd
      cases r with
      | none =>
        have hsame : v.truncate resized p origin tokens flags = v.records := by
          simp only [Volumes.truncate,Volumes.target,hroot,hres]
        refine ⟨t,none,t,by simp only [FileSystem.openFile,hroot,FileSystem.openFrom,hres],rfl,
          kept,?_⟩
        rw [hsame]
        exact hacc₁
      | some e =>
        have hinode := hacc₁.inodeOf (hacc₁.of_hand (d := e) List.mem_cons_self)
        have htarget : v.target resized p origin tokens =
            some (t,t.inodes (t.dentries e).inode) := by
          simp only [Volumes.target,hroot,hres,hinode,Option.map_some]
        have hkeeps : Keeps t v.records (v.truncate resized p origin tokens flags) := by
          simp only [Volumes.truncate,htarget]
          split
          · next htrunc => exact (hquiet htrunc _ _ htarget).keeps_update (v := v) rfl
          · exact fun _ _ _ _ _ hstored => hstored
        have hgives : Gives _ t [] kept (t.finishOpen (v.disk resized) e flags) :=
          (hacc₁.keeps hkeeps).finishOpen flags
        obtain ⟨s₂,file,hfin,hacc₂,hkept₂⟩ := hgives
        have hp₂ : s₂.processes[n]? = some p := by
          rw [(hkept₁.trans hkept₂).processes,hp]
        obtain ⟨fs',hgive,hacc'⟩ := hacc₂.giveHandle hp₂ handle
        exact ⟨s₂,file,fs',by simp only [FileSystem.openFile,hroot,FileSystem.openFrom,hres,hfin],
          hgive,kept,hacc'⟩

/-- A quiet call keeps the cached dentries right, and it has an outcome unless it opens an
absolute path. -/
theorem Fresh.apply (h : Fresh v) {call : Call} (hquiet : Quiet v call)
    (habs : ∀ op resized,call = .call op resized → ¬op.Absolute) :
    ∃ v',v.apply call = some v' ∧ Fresh v' := by
  cases call with
  | call op resized =>
    have hop := habs op resized rfl
    have hother (hsame : v.recordsAfter resized op = v.records) :
        ∃ v',v.apply (.call op resized) = some v' ∧ Fresh v' := by
      obtain ⟨kept,hacc⟩ := h
      obtain ⟨fs',heq,hacc'⟩ := hacc.apply (finds_stored v resized) hop
      refine ⟨_,by rw [Volumes.apply,heq]; rfl,kept,?_⟩
      dsimp only
      rw [hsame]
      exact hacc'
    cases op with
    | openFile n origin tokens flags handle =>
      cases hp : v.fs.processes[n]? with
      | none => exact hother (by simp only [Volumes.recordsAfter,hp])
      | some p =>
        obtain ⟨fs,file,fs',hopen,hgive,hfresh⟩ := h.openFile hp hop tokens flags handle resized
          fun htrunc fs inode => hquiet htrunc p hp fs inode
        refine ⟨_,?_,hfresh⟩
        simp only [Volumes.apply,FileSystem.apply,hp,hopen,hgive,Option.map_some,
          Volumes.recordsAfter]
    | _ => exact hother rfl
  | create n file name mode ino placed built =>
    cases hfile : v.fileINode n file with
    | none => exact ⟨v,by simp only [Volumes.apply,hfile],h⟩
    | some dir =>
      simp only [Volumes.apply,hfile]
      exact h.create mode ino placed built (hquiet dir hfile)
  | remove n file name resized =>
    cases hfile : v.fileINode n file with
    | none => exact ⟨v,by simp only [Volumes.apply,hfile],h⟩
    | some dir =>
      simp only [Volumes.apply,hfile]
      exact h.remove resized (hquiet dir hfile)

/-- The dentry that the constructor makes has the inode that it is given. -/
theorem newDEntry_inode (s : FileSystem) (name : Name) (parent : Option ℕ) (i : ℕ) :
    (s.newDEntry name parent i).1.inodes = s.inodes ∧
      ((s.newDEntry name parent i).1.dentries (s.newDEntry name parent i).2).inode = i := by
  have hmade (s : FileSystem) (dentry : DEntry) :
      (s.construct dentry).dentries s.nextDEntry = dentry := Function.update_self ..
  cases parent with
  | none => exact ⟨rfl,by rw [FileSystem.newDEntry,hmade]⟩
  | some p =>
    rw [FileSystem.newDEntry]
    dsimp only
    refine ⟨?_,by rw [hmade]⟩
    rw [FileSystem.getDEntry]
    split <;> rfl

/-- If the cached dentries have the inodes of their entries, LookupDEntry gives what the
directory has. -/
theorem Fresh.coherent (h : Fresh v) : v.Coherent := by
  obtain ⟨kept,hacc⟩ := h
  intro parent hparent dir hdir hmode name
  have hsame : dir = v.fs.inodes (v.fs.dentries parent).inode :=
    Option.some.inj (hdir.symm.trans (hacc.inodeOf hparent))
  have hread : (v.records dir).Readable := isDirectory.readable hmode
  rw [FileSystem.lookupDEntry,hdir]
  dsimp only
  cases hfind : v.fs.dentryCache.find? fun d =>
      (v.fs.dentries d).parent = some parent ∧ name = (v.fs.dentries d).name with
  | some d =>
    have hd := List.mem_of_find?_eq_some hfind
    have hchild := List.find?_some hfind
    simp only [decide_eq_true_eq] at hchild
    obtain ⟨-,hlook,-⟩ := hacc.linked d hd parent hchild.1
    rw [← hsame,← hchild.2] at hlook
    exact ⟨_,some d,rfl,(Record.find_of_lookup hlook).symm⟩
  | none =>
    dsimp only
    have hlook : (v.disk 0).lookup dir name = (v.records dir).find name :=
      Record.lookup_of_readable hread
    rw [hlook]
    cases hfound : (v.records dir).find name with
    | none => exact ⟨v.fs,none,rfl,rfl⟩
    | some number =>
      refine ⟨_,_,rfl,?_⟩
      obtain ⟨hinodes,hinode⟩ := newDEntry_inode (v.fs.getINode ⟨dir.fs,number⟩).1 name
        (some parent) (v.fs.getINode ⟨dir.fs,number⟩).2
      rw [Option.map_some,hinodes,hinode,Accounted.getINode_inode]

/-- A call of an absolute path changes nothing, if it comes to an end. -/
theorem Fresh.absolute (h : Fresh v) {op : Op} (resized : ℤ) (habs : op.Absolute)
    (heq : v.apply (.call op resized) = some v') : Fresh v' := by
  obtain ⟨fs',hfs,rfl⟩ := Option.map_eq_some_iff.mp heq
  rw [apply_absolute habs hfs]
  have hsame : v.recordsAfter resized op = v.records := by
    cases op with
    | openFile n origin tokens flags handle =>
      change origin = .absolute at habs
      subst habs
      cases hp : v.fs.processes[n]? with
      | none => simp only [Volumes.recordsAfter,hp]
      | some p =>
        simp only [Volumes.recordsAfter,hp,Volumes.truncate,Volumes.target,FileSystem.rootOf]
    | _ => exact absurd habs id
  rw [hsame]
  exact h

/-- The cached dentries are right in a state. -/
def FreshIn (state : Option Volumes) : Prop := ∀ v,state = some v → Fresh v

/-- A call in a state is quiet. -/
def QuietIn (state : Option Volumes) (call : Call) : Prop := ∀ v,state = some v → Quiet v call

/-- The cached dentries stay right in a quiet step. -/
theorem FreshIn.step (state : Option Volumes) (call : Call) (h : FreshIn state)
    (hquiet : QuietIn state call) : FreshIn (Volumes.step state call) := by
  intro v' hstep
  obtain ⟨v,hv,heq⟩ := Option.bind_eq_some_iff.mp hstep
  by_cases habs : ∀ op resized,call = .call op resized → ¬op.Absolute
  · obtain ⟨t,ht,hfresh⟩ := (h v hv).apply (hquiet v hv) habs
    rw [Option.some.inj (heq.symm.trans ht)]
    exact hfresh
  · push Not at habs
    obtain ⟨op,resized,rfl,hop⟩ := habs
    exact (h v hv).absolute resized hop heq

/-- Nothing is cached before the first file system is mounted. -/
theorem fresh_start (records : INode → Record) : Fresh ⟨.start,records⟩ := ⟨[],accounted_start⟩

/-- Without absolute paths each call of such a run comes to an end. -/
theorem quiet_run_isSome {state : Option Volumes} {calls : List Call} (hstate : state.isSome)
    (hfresh : FreshIn state) (h : RunMeets Volumes.step QuietIn state calls)
    (habs : ∀ call ∈ calls,∀ op resized,call = .call op resized → ¬op.Absolute) :
    (calls.foldl Volumes.step state).isSome := by
  induction calls generalizing state with
  | nil => exact hstate
  | cons call calls ih =>
    obtain ⟨v,rfl⟩ := Option.isSome_iff_exists.mp hstate
    obtain ⟨v',heq,-⟩ := (hfresh v rfl).apply (h.1 v rfl) (habs call List.mem_cons_self)
    refine ih ?_ (FreshIn.step _ _ hfresh h.1) h.2 fun call hin =>
      habs call (List.mem_cons_of_mem _ hin)
    rw [Volumes.step,Option.bind_some,heq]
    rfl

/-- A volume with nothing but a root directory. -/
def rootOnly (inode : INode) : Record :=
  if inode = ⟨0,2⟩ then ⟨0x41FF,2,[(dot,2),(dotDot,2)]⟩ else ⟨0,0,[]⟩

/-- The volume is mounted, and its root opened. -/
def openRoot : List Call :=
  [.call .mount 0,.call (.openFile 0 (.fileSystem 0) [] 0 true) 0]

/-- A file is made, opened and removed while it is open. -/
def removeOpen : List Call :=
  openRoot ++ [.create 0 0 ['a'] 0x81FF (some 12) true true,
    .call (.openFile 0 (.fileSystem 0) [['a']] 0 true) 0,.remove 0 0 ['a'] 0]

/-- The state after that. -/
def removedOpen : Volumes :=
  (removeOpen.foldl Volumes.step (some ⟨.start,rootOnly⟩)).getD ⟨.start,rootOnly⟩

/-- Nothing is cached below an inode as long as only roots are cached. -/
theorem childless_of_roots (h : ∀ d ∈ fs.dentryCache,(fs.dentries d).parent = none) :
    Childless fs dir := by
  intro name d hd p hp
  rw [h d hd] at hp
  exact absurd hp nofun

/-- A file is made and removed without being opened. -/
def removeClosed : List Call :=
  openRoot ++ [.create 0 0 ['a'] 0x81FF (some 12) true true,.remove 0 0 ['a'] 0]

end WootOs.DentryCache
