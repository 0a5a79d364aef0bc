import WootOs.HandleTable
import WootOs.MachineInt

/-!
# File positions

An open file has a position, which Seek sets and which Read and Write hand to
the inode and move by what the inode transferred. The offset of lseek is a
signed number to the program, a 32-bit argument of the system call and a
64-bit number to Seek, which reads the argument without a sign. So a negative
offset arrives 2^32 too high. From the end of the file Seek goes backwards: it
subtracts the offset.

The inode is a parameter: its size and what a transfer does are up to its file
system.
-/

namespace WootOs.FilePositions

open MachineInt HandleTable NamedObjects

/-- EISDIR. -/
def eisdir : ℤ := 21

/-- S_IFTYPE. -/
def sIfType : ℕ := 0xF000

/-- S_IFDIR. -/
def sIfDir : ℕ := 0x4000

/-- O_ACCMODE. -/
def oAccMode : ℕ := 3

/-- O_RDONLY. -/
def oRdOnly : ℕ := 0

/-- O_WRONLY. -/
def oWrOnly : ℕ := 1

/-- S_ISDIR. -/
def sIsDir (mode : ℕ) : Bool := mode &&& sIfType == sIfDir

/-- SEEK_SET. -/
def seekSet : ℤ := 0

/-- SEEK_CUR. -/
def seekCur : ℤ := 1

/-- SEEK_END. -/
def seekEnd : ℤ := 2

/-- What the inodes of a file system do. A transfer is given the position and
the number of bytes, and returns how many it transferred or an error. -/
structure Driver (I : Type*) where
  /-- INode::GetSize. -/
  getSize : I → ℕ
  /-- INode::Read. -/
  read : I → ℤ → ℤ → ℤ × I
  /-- INode::Write. -/
  write : I → ℤ → ℤ → ℤ × I

/-- An open file. -/
structure File (I : Type*) where
  /-- File::DEntry with its INode; either pointer may be null. -/
  dentry : Option (Option I)
  /-- File::Flags. -/
  flags : ℕ
  /-- File::Position. -/
  position : ℤ
  /-- File::Mode. -/
  mode : ℕ

namespace File

variable {I : Type*} (d : Driver I) (f : File I)

/-- File::getSize. -/
def getSize : ℤ :=
  match f.dentry with
  | some (some inode) => signed 64 (d.getSize inode)
  | _ => -einval

/-- File::Seek. -/
def seek (offs loc : ℤ) : ℤ × File I :=
  if sIsDir f.mode ∧ (offs ≠ 0 ∨ loc ≠ seekSet) then (-eisdir,f)
  else
    let position :=
      if loc = seekSet then offs
      else if loc = seekCur then signed 64 (f.position + offs)
      else if loc = seekEnd then signed 64 (f.getSize d - offs)
      else f.position
    let position := if position < 0 then 0 else position
    (position,{ f with position := position })

/-- The inode that Read or Write reaches, or the error it returns before that.
The access mode refuses one of the two. -/
def inodeFor (refused : ℕ) (lock : Bool) : Except ℤ I :=
  match f.dentry with
  | none => .error einval
  | some inode =>
    if sIsDir f.mode then .error eisdir
    else if f.flags &&& oAccMode = refused then .error einval
    else if lock = false then .error ebusy
    else
      match inode with
      | some inode => .ok inode
      | none => .error einval

/-- File::Read and File::Write: the inode is given the position, which moves by
what was transferred. -/
def transfer (transfer : I → ℤ → ℤ → ℤ × I) (refused : ℕ) (lock : Bool) (n : ℤ) : ℤ × File I :=
  match f.inodeFor refused lock with
  | .error e => (-e,f)
  | .ok inode =>
    let (res,inode) := transfer inode f.position n
    (res,
      { f with
        dentry := some (some inode)
        position := if 0 < res then signed 64 (f.position + res) else f.position })

/-- File::Read. -/
def read (lock : Bool) (n : ℤ) : ℤ × File I := f.transfer d.read oWrOnly lock n

/-- File::Write. -/
def write (lock : Bool) (n : ℤ) : ℤ × File I := f.transfer d.write oRdOnly lock n

end File

/-- SysCalls::sys_lseek, for the file that the handle stands for. An off_t has
64 bits, and the argument it is made of is an unsigned word. -/
def sysLseek {I : Type*} (d : Driver I) (f : Option (File I)) (errno : ℤ) (args : ℕ → ℕ) :
    ℤ × Option (File I) :=
  match f with
  | none => (-errno,none)
  | some f =>
    let (res,f) := f.seek d (args 2) (signed 32 (args 3))
    (signed 32 res,some f)

/-- What the program passes to lseek. -/
def lseekArgs (handle : ℕ) (offset origin : ℤ) : ℕ → ℕ
  | 1 => handle
  | 2 => unsigned 32 offset
  | 3 => unsigned 32 origin
  | _ => 0

/-- A later use of the file: the number of bytes that are wanted, and whether
the file system could be locked for it. -/
inductive Use where
  /-- File::Read. -/
  | read (lock : Bool) (n : ℤ)
  /-- File::Write. -/
  | write (lock : Bool) (n : ℤ)

section Lseek

variable {I : Type*} (d : Driver I)

/-- The file after a use. -/
def Use.next (f : File I) : Use → File I
  | .read lock n => (f.read d lock n).2
  | .write lock n => (f.write d lock n).2

/-- The position a use hands to the inode and what it transfers there, unless
it fails before that. -/
def Use.handed (f : File I) : Use → Except ℤ (ℤ × ℤ)
  | .read lock n =>
    (f.inodeFor oWrOnly lock).map fun inode => (f.position,(d.read inode f.position n).1)
  | .write lock n =>
    (f.inodeFor oRdOnly lock).map fun inode => (f.position,(d.write inode f.position n).1)

/-- The transfers of some uses, one after the other, start at a position, each
where the one before it ended. -/
def StartsAt (f : File I) : ℤ → List Use → Prop
  | _,[] => True
  | start,u :: uses =>
    match u.handed d f with
    | .error _ => StartsAt (u.next d f) start uses
    | .ok (position,res) =>
      position = start ∧
        StartsAt (u.next d f) (if 0 < res then signed 64 (start + res) else start) uses

/-- Where an offset counts from. -/
def base (f : File I) (inode : I) (origin : ℤ) : Option ℤ :=
  if origin = seekSet then some 0
  else if origin = seekCur then some f.position
  else if origin = seekEnd then some (d.getSize inode)
  else none

/-- What lseek is for: the position is that of the offset, but not negative, and
whatever is read or written later starts there. -/
def LseekRight (f : File I) (inode : I) (handle : ℕ) (errno offset origin : ℤ) : Prop :=
  ∀ b ∈ base d f inode origin,
    ∃ f',(sysLseek d (some f) errno (lseekArgs handle offset origin)).2 = some f' ∧
      f'.position = max 0 (b + offset) ∧ ∀ uses,StartsAt d f' (max 0 (b + offset)) uses

/-- The offsets that arrive: from the start those that are not negative, from
the current position also those that stay before the start when 2^32 is added,
and from the end zero, -2^31, which is its own negative, and those that lead
before the start. -/
def Arrives (f : File I) (inode : I) (offset origin : ℤ) : Prop :=
  if origin = seekSet then 0 ≤ offset
  else if origin = seekCur then
    0 ≤ offset ∧ f.position + offset < 2 ^ 63 ∨ f.position + offset + 2 ^ 32 ≤ 0
  else if origin = seekEnd then
    (offset = 0 ∨ offset = -2 ^ 31) ∧ d.getSize inode + offset < 2 ^ 63 ∨
      d.getSize inode + offset ≤ 0
  else True

end Lseek

section Transfers

variable {I : Type*} {d : Driver I}

/-- A use hands the position to the inode, and moves it by what is transferred. -/
theorem handed_cases (f : File I) (u : Use) :
    (∃ e,u.handed d f = .error e ∧ (u.next d f).position = f.position) ∨
      ∃ res,u.handed d f = .ok (f.position,res) ∧
        (u.next d f).position = if 0 < res then signed 64 (f.position + res) else f.position := by
  cases u with
  | read lock n =>
    simp only [Use.handed,Use.next,File.read,File.transfer]
    cases f.inodeFor oWrOnly lock with
    | error e => exact .inl ⟨e,rfl,rfl⟩
    | ok inode => exact .inr ⟨_,rfl,rfl⟩
  | write lock n =>
    simp only [Use.handed,Use.next,File.write,File.transfer]
    cases f.inodeFor oRdOnly lock with
    | error e => exact .inl ⟨e,rfl,rfl⟩
    | ok inode => exact .inr ⟨_,rfl,rfl⟩

/-- What is read and written starts at the position. -/
theorem startsAt_position (f : File I) (uses : List Use) : StartsAt d f f.position uses := by
  induction uses generalizing f with
  | nil => trivial
  | cons u uses ih =>
    have hnext := ih (u.next d f)
    rcases handed_cases f u with ⟨e,hhanded,hpos⟩ | ⟨res,hhanded,hpos⟩
    · rw [hpos] at hnext
      simpa only [StartsAt,hhanded] using hnext
    · rw [hpos] at hnext
      simpa only [StartsAt,hhanded,true_and] using hnext

end Transfers

section Offsets

variable {I : Type*} {d : Driver I} {f : File I} {inode : I} {offset origin : ℤ}

/-- A file that is open and not a directory; its size and position are those of
their types. -/
structure OpenRegular (d : Driver I) (f : File I) (inode : I) : Prop where
  /-- The file has a dentry with an inode. -/
  dentry : f.dentry = some (some inode)
  /-- It is not a directory. -/
  regular : sIsDir f.mode = false
  /-- The size is an uint64_t. -/
  size : d.getSize inode < 2 ^ 64
  /-- The position is an int64_t. -/
  position : -2 ^ 63 ≤ f.position ∧ f.position < 2 ^ 63

/-- The position that Seek computes from the argument, before it is made zero
when it is negative. -/
def sought (d : Driver I) (f : File I) (inode : I) (offset origin : ℤ) : ℤ :=
  if origin = seekSet then unsigned 32 offset
  else if origin = seekCur then signed 64 (f.position + unsigned 32 offset)
  else if origin = seekEnd then signed 64 (signed 64 (d.getSize inode) - unsigned 32 offset)
  else f.position

/-- A signed word read without its sign. -/
theorem unsigned_offset (hl : -2 ^ 31 ≤ offset) (hu : offset < 2 ^ 31) :
    (unsigned 32 offset : ℤ) = if 0 ≤ offset then offset else offset + 2 ^ 32 := by
  unfold unsigned
  split_ifs <;> omega

/-- A number that needs one bit more than an int64_t has. -/
theorem signed_carry {x : ℤ} (hl : -(3 * 2 ^ 63) ≤ x) (hu : x < 3 * 2 ^ 63) :
    signed 64 x =
      if x < -2 ^ 63 then x + 2 ^ 64 else if x < 2 ^ 63 then x else x - 2 ^ 64 := by
  unfold signed
  simp only [Int.bmod_def]
  split_ifs <;> omega

/-- lseek stores what was sought. -/
theorem sysLseek_open (h : OpenRegular d f inode) (handle : ℕ) (errno : ℤ)
    (hl : -2 ^ 31 ≤ origin) (hu : origin < 2 ^ 31) :
    (sysLseek d (some f) errno (lseekArgs handle offset origin)).2 =
      some { f with position := max 0 (sought d f inode offset origin) } := by
  have horigin : signed 32 (unsigned 32 origin) = origin := by
    unfold signed unsigned
    simp only [Int.bmod_def]
    omega
  have hmax (x : ℤ) : (if x < 0 then 0 else x) = max 0 x := by
    split_ifs <;> omega
  simp only [sysLseek,lseekArgs,File.seek,h.regular,horigin,File.getSize,h.dentry,hmax,sought]
  rfl

/-- The position that was sought is that of the offset exactly when the offset
arrives. -/
theorem sought_iff (h : OpenRegular d f inode) (hl : -2 ^ 31 ≤ offset) (hu : offset < 2 ^ 31) :
    (∀ b ∈ base d f inode origin,max 0 (sought d f inode offset origin) = max 0 (b + offset)) ↔
      Arrives d f inode offset origin := by
  have hsize := h.size
  obtain ⟨hlow,hhigh⟩ := h.position
  have hoff := unsigned_offset hl hu
  have hbound : (0 : ℤ) ≤ unsigned 32 offset ∧ (unsigned 32 offset : ℤ) < 2 ^ 32 := by
    rw [hoff]
    split_ifs <;> omega
  unfold base sought Arrives
  by_cases hset : origin = seekSet
  · simp only [if_pos hset,Option.mem_def,Option.some.injEq,forall_eq',zero_add,hoff]
    split_ifs <;> omega
  · by_cases hcur : origin = seekCur
    · simp only [if_neg hset,if_pos hcur,Option.mem_def,Option.some.injEq,forall_eq']
      rw [signed_carry (by omega) (by omega),hoff]
      split_ifs <;> omega
    · by_cases hend : origin = seekEnd
      · simp only [if_neg hset,if_neg hcur,if_pos hend,Option.mem_def,Option.some.injEq,forall_eq']
        have hs : signed 64 (d.getSize inode) =
            if (d.getSize inode : ℤ) < 2 ^ 63 then (d.getSize inode : ℤ)
            else (d.getSize inode : ℤ) - 2 ^ 64 := by
          rw [signed_carry (by omega) (by omega),if_neg (by omega)]
        rw [signed_carry (by rw [hs]; split_ifs <;> omega) (by rw [hs]; split_ifs <;> omega),hs,
          hoff]
        split_ifs <;> omega
      · simp [hset,hcur,hend]

/-- For every open regular file, position, size, origin and offset: lseek sets
the position to that of the offset, and what is read or written later starts
there, exactly when the offset arrives. -/
theorem lseek_right_iff (h : OpenRegular d f inode) (handle : ℕ) (errno : ℤ)
    (hl : -2 ^ 31 ≤ offset) (hu : offset < 2 ^ 31) (hol : -2 ^ 31 ≤ origin)
    (hou : origin < 2 ^ 31) :
    LseekRight d f inode handle errno offset origin ↔ Arrives d f inode offset origin := by
  rw [←sought_iff h hl hu]
  have hres := @sysLseek_open I d f inode offset origin h handle errno hol hou
  constructor
  · intro hright b hb
    obtain ⟨f',hf,hpos,-⟩ := hright b hb
    rw [hres] at hf
    obtain rfl := Option.some.inj hf
    exact hpos
  · intro hsought b hb
    refine ⟨_,hres,hsought b hb,fun uses => ?_⟩
    rw [←hsought b hb]
    exact startsAt_position { f with position := max 0 (sought d f inode offset origin) } uses

end Offsets

/-- Inodes that are sizes: a read ends at the size, and a write extends it. -/
def sizeDriver : Driver ℤ where
  getSize := Int.toNat
  read := fun size position n => (max 0 (min n (size - position)),size)
  write := fun size position n => (n,max size (position + n))

/-- A regular file that is open for reading and writing. -/
def regularFile (size position : ℤ) : File ℤ :=
  { dentry := some (some size)
    flags := 2
    position := position
    mode := 0x8000 }

/-- Ten bytes forward from the thirtieth. -/
theorem lseek_right_iff_forward :
    LseekRight sizeDriver (regularFile 100 30) 100 3 0 10 seekCur :=
  (lseek_right_iff ⟨rfl,by decide,by decide,by decide⟩ 3 0 (by decide) (by decide) (by decide)
    (by decide)).mpr (by unfold Arrives; decide)

/-- Ten bytes behind the end of the file: the position is ten bytes before it. -/
theorem end_offset_subtracted :
    ¬LseekRight sizeDriver (regularFile 100 30) 100 3 0 10 seekEnd := by
  intro h
  obtain ⟨f',hf,hpos,-⟩ := h 100 rfl
  obtain rfl := Option.some.inj hf
  exact absurd hpos (by decide)

end WootOs.FilePositions
