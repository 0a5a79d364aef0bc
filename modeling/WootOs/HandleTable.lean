import Mathlib.Data.List.Basic
import Mathlib.Data.List.GetD
import Mathlib.Tactic.SplitIfs
import WootOs.NamedObjects

/-!
# Handle table

A process names its open files, threads and other objects by handles. A handle
is the index of a slot in a vector that grows by eight slots at a time, up to
MAX_HANDLES. A slot that is freed is used again before the vector grows.

The operations that make a handle share one loop, and each has its own way to
fail before it. The table behaves like a list of slots as long as the lock of
the process is acquired, the vector can grow, a file that cannot be opened
leaves an error number behind, and the three reserved slots are left alone.
-/

namespace WootOs.HandleTable

open Runs NamedObjects

set_option linter.unusedSectionVars false

/-- ENOENT. -/
def enoent : ℤ := 2

/-- EBADF. -/
def ebadf : ℤ := 9

/-- ENOMEM. -/
def enomem : ℤ := 12

/-- EINVAL. -/
def einval : ℤ := 22

section KernelVector

variable {T : Type*} [Inhabited T]

/-- A Vector. Its elements are of a type whose default is what T() makes. -/
structure KernelVector (T : Type*) where
  /-- Vector::maxSize. -/
  maxSize : ℕ
  /-- Vector::currentSize. -/
  currentSize : ℕ
  /-- Vector::allocatedSize. -/
  allocatedSize : ℕ
  /-- Vector::allocIncr. -/
  allocIncr : ℕ
  /-- The block Vector::data points to, or none for a null pointer. Only the cells
  below currentSize are read. -/
  data : Option (ℕ → T)

namespace KernelVector

/-- The constructor, for the block that Heap::Allocate returns. -/
def new (preAlloc allocIncr maxSize : ℕ) (block : ℕ → T) : KernelVector T :=
  { maxSize := maxSize
    currentSize := 0
    allocatedSize := if preAlloc > maxSize then maxSize else preAlloc
    allocIncr := allocIncr
    data := some block }

variable (v : KernelVector T)

/-- Vector::Get. An access through a null pointer has no result of its own; it is
given the default here. -/
def get (idx : ℕ) : T :=
  if idx ≥ v.currentSize then default
  else
    match v.data with
    | some d => d idx
    | none => default

/-- Vector::Set. -/
def set (idx : ℕ) (value : T) : KernelVector T :=
  if idx ≥ v.currentSize then v
  else { v with data := v.data.map fun d => Function.update d idx value }

/-- Vector::upSize. Heap::Resize keeps the contents when it succeeds. Otherwise it
returns a null pointer, which replaces data. -/
def upSize (resized : Bool) : Bool × KernelVector T :=
  let newSize := v.currentSize + 1
  if newSize > v.maxSize then (false,v)
  else if newSize > v.allocatedSize then
    let newAllocSize := if v.allocatedSize + v.allocIncr > v.maxSize then v.maxSize
      else v.allocatedSize + v.allocIncr
    let data := if resized then v.data else none
    if newAllocSize ≠ 0 ∧ data.isNone then (false,{ v with data := data })
    else (true,{ v with data := data,allocatedSize := newAllocSize })
  else (true,v)

/-- Vector::Append. -/
def append (value : T) (resized : Bool) : Bool × KernelVector T :=
  match v.upSize resized with
  | (false,v) => (false,v)
  | (true,v) =>
    (true,
      { v with
        data := v.data.map fun d => Function.update d v.currentSize value
        currentSize := v.currentSize + 1 })

/-- The elements of a vector. -/
def toList : List T :=
  match v.data with
  | some d => (List.range v.currentSize).map d
  | none => []

/-- A vector whose elements have room. -/
structure Sound : Prop where
  /-- It has a block. -/
  data : v.data.isSome
  /-- The elements fit in it. -/
  size : v.currentSize ≤ v.allocatedSize
  /-- The block is not larger than it may get. -/
  allocated : v.allocatedSize ≤ v.maxSize
  /-- It grows by at least one element. -/
  allocIncr : 0 < v.allocIncr

variable {v}

theorem Sound.toList_eq (h : v.Sound) :
    ∃ d,v.data = some d ∧ v.toList = (List.range v.currentSize).map d := by
  obtain ⟨d,hd⟩ := Option.isSome_iff_exists.mp h.data
  exact ⟨d,hd,by simp only [toList,hd]⟩

theorem Sound.length_toList (h : v.Sound) : v.toList.length = v.currentSize := by
  obtain ⟨d,-,hl⟩ := h.toList_eq
  simp [hl]

/-- Get reads the list. -/
theorem Sound.get_eq (h : v.Sound) (idx : ℕ) : v.get idx = v.toList.getD idx default := by
  obtain ⟨d,hd,hl⟩ := h.toList_eq
  unfold get
  rw [hl]
  split_ifs with hi
  · rw [List.getD_eq_default]
    simpa using hi
  · have hlt : idx < v.currentSize := by omega
    simp [hd,List.getD_eq_getElem?_getD,hlt]

/-- Set writes one element of the list. -/
theorem Sound.toList_set (h : v.Sound) (idx : ℕ) (value : T) :
    (v.set idx value).toList = v.toList.set idx value := by
  obtain ⟨d,hd,hl⟩ := h.toList_eq
  unfold set
  rw [hl]
  split_ifs with hi
  · rw [List.set_eq_of_length_le (by simpa using hi),hl]
  · apply List.ext_getElem
    · simp [toList,hd]
    · intro n hn _
      simp only [toList,hd,Option.map_some,List.getElem_map,List.getElem_range,
        List.getElem_set,Function.update_apply,eq_comm]

theorem Sound.set (h : v.Sound) (idx : ℕ) (value : T) : (v.set idx value).Sound := by
  unfold KernelVector.set
  split_ifs
  · exact h
  · exact ⟨by simpa using h.data,h.size,h.allocated,h.allocIncr⟩

@[simp] theorem set_maxSize (idx : ℕ) (value : T) : (v.set idx value).maxSize = v.maxSize := by
  unfold set
  split_ifs <;> rfl

/-- A full vector refuses. -/
theorem append_full (value : T) (resized : Bool) (hfull : v.currentSize + 1 > v.maxSize) :
    v.append value resized = (false,v) := by
  simp [append,upSize,hfull]

/-- A vector that has room, or gets it, takes one more element. -/
theorem Sound.append (h : v.Sound) (value : T) {resized : Bool} (hroom : v.currentSize < v.maxSize)
    (hg : resized = true ∨ v.currentSize < v.allocatedSize) :
    (v.append value resized).1 = true ∧ (v.append value resized).2.Sound ∧
      (v.append value resized).2.maxSize = v.maxSize ∧
      (v.append value resized).2.toList = v.toList ++ [value] := by
  obtain ⟨d,hd,hl⟩ := h.toList_eq
  have hcells : (List.range (v.currentSize + 1)).map (Function.update d v.currentSize value) =
      (List.range v.currentSize).map d ++ [value] := by
    rw [List.range_succ,List.map_append]
    congr 1
    · apply List.map_congr_left
      intro i hi
      exact Function.update_of_ne (Nat.ne_of_lt (List.mem_range.mp hi)) _ _
    · simp
  have hfull : ¬v.currentSize + 1 > v.maxSize := by omega
  have hsize := h.size
  have hmax := h.allocated
  have hincr := h.allocIncr
  by_cases hgrow : v.currentSize + 1 > v.allocatedSize
  · have hres : resized = true := hg.resolve_right (by omega)
    subst hres
    have hnew : v.currentSize + 1 ≤ (if v.allocatedSize + v.allocIncr > v.maxSize then v.maxSize
        else v.allocatedSize + v.allocIncr) ∧
        (if v.allocatedSize + v.allocIncr > v.maxSize then v.maxSize
          else v.allocatedSize + v.allocIncr) ≤ v.maxSize := by
      split_ifs <;> omega
    simp only [KernelVector.append,upSize,if_neg hfull,if_pos hgrow,hd,if_true,Option.isNone_some,
      Bool.false_eq_true,and_false,if_false,toList,Option.map_some,true_and]
    exact ⟨⟨rfl,hnew.1,hnew.2,hincr⟩,hcells⟩
  · simp only [KernelVector.append,upSize,if_neg hfull,if_neg hgrow,hd,toList,Option.map_some,
      true_and]
    exact ⟨⟨rfl,Nat.le_of_not_lt hgrow,hmax,hincr⟩,hcells⟩

/-- A vector that cannot grow loses its elements. -/
theorem Sound.append_lost (h : v.Sound) (value : T) (hroom : v.currentSize < v.maxSize)
    (hg : v.currentSize = v.allocatedSize) :
    (v.append value false).1 = false ∧ (v.append value false).2.toList = [] := by
  have hincr := h.allocIncr
  have hfull : ¬v.currentSize + 1 > v.maxSize := by omega
  have hgrow : v.currentSize + 1 > v.allocatedSize := by omega
  have hnew : (if v.allocatedSize + v.allocIncr > v.maxSize then v.maxSize
      else v.allocatedSize + v.allocIncr) ≠ 0 := by
    split_ifs <;> omega
  simp only [KernelVector.append,upSize,if_neg hfull,if_pos hgrow,Bool.false_eq_true,if_false,
    Option.isNone_none,and_true,if_pos hnew,toList]

end KernelVector

end KernelVector

/-- MAX_HANDLES. -/
def maxHandles : ℕ := 1024

/-- Handle::HandleType. -/
inductive HandleType where
  /-- The slot is free. -/
  | free
  /-- One of the three reserved slots. -/
  | unknown
  /-- An open file. -/
  | file
  /-- An item of the object tree. -/
  | object
  /-- A thread. -/
  | thread
  /-- A process. -/
  | process
  /-- A named object. -/
  | namedObject
  /-- A mutex. -/
  | mutex
  /-- A semaphore. -/
  | semaphore
  deriving DecidableEq

/-- A Handle, with a pointer to what it names. -/
structure Handle (P : Type*) where
  /-- Handle::Type. -/
  type : HandleType
  /-- The pointer of the union. -/
  data : Option P
  deriving DecidableEq

variable {P : Type*}

/-- Handle::Handle(). -/
def Handle.free : Handle P := { type := HandleType.free,data := none }

instance : Inhabited (Handle P) := ⟨Handle.free⟩

/-- Process::Lock leaves -EBUSY in errno, and its callers return -errno. -/
def lockError : ℤ := -(-ebusy)

/-- Process::Handles. -/
abbrev Table (P : Type*) := KernelVector (Handle P)

namespace Table

variable (t : Table P)

/-- Handles as the constructor of a process leaves it. -/
def start (block : ℕ → Handle P) : Table P :=
  let reserved : Handle P := { type := .unknown,data := none }
  let t := KernelVector.new 8 8 maxHandles block
  let t := (t.append reserved true).2
  let t := (t.append reserved true).2
  (t.append reserved true).2

/-- Process::allocHandleSlot. -/
def allocHandleSlot (handle : Handle P) (resized : Bool) : ℤ × Table P :=
  match (List.range t.currentSize).find? fun i => decide ((t.get i).type = .free) with
  | some i => (i,t.set i handle)
  | none =>
    match t.append handle resized with
    | (false,t) => (-enomem,t)
    | (true,t') => (t.currentSize,t')

/-- Process::freeHandleSlot. -/
def freeHandleSlot (handle : BitVec 32) : Table P :=
  if handle.toInt < 0 ∨ handle.toNat ≥ t.currentSize then t else t.set handle.toNat Handle.free

/-- What the operations that make a handle have in common. What the handle is for,
or the value that is returned without it, is there once the lock is held. -/
def createHandle (locked : Bool) (handle : Except ℤ (Handle P)) (resized : Bool) : ℤ × Table P :=
  if locked then
    match handle with
    | .ok handle => t.allocHandleSlot handle resized
    | .error value => (value,t)
  else (lockError,t)

/-- Process::Open, with a file name or without. File::Open returns a file, or a null
pointer and leaves an errno. -/
def «open» (named locked : Bool) (file : Except ℤ P) (resized : Bool) : ℤ × Table P :=
  if named then
    t.createHandle locked
      (match file with
      | .ok f => .ok { type := .file,data := some f }
      | .error errno => .error (-errno)) resized
  else (-einval,t)

/-- Process::OpenObject, with a name or without. -/
def openObject (named locked : Bool) (obj : Option P) (resized : Bool) : ℤ × Table P :=
  if named then
    t.createHandle locked
      (match obj with
      | some obj => .ok { type := .object,data := some obj }
      | none => .error (-enoent)) resized
  else (-einval,t)

/-- Process::NewThread. -/
def newThread (locked : Bool) (thread : P) (resized : Bool) : ℤ × Table P :=
  t.createHandle locked (.ok { type := .thread,data := some thread }) resized

/-- Process::NewProcess. -/
def newProcess (locked : Bool) (process : P) (resized : Bool) : ℤ × Table P :=
  t.createHandle locked (.ok { type := .process,data := some process }) resized

/-- Process::CreateNamedObjectHandle. -/
def createNamedObjectHandle (locked : Bool) (no : P) (resized : Bool) : ℤ × Table P :=
  t.createHandle locked (.ok { type := .namedObject,data := some no }) resized

/-- Process::Close. The Put of a named object has a lock of its own. -/
def close (locked : Bool) (handle : BitVec 32) (putLocked : Bool) : ℤ × Table P :=
  if locked then
    let h := t.get handle.toNat
    let t := t.freeHandleSlot handle
    match h.type with
    | .object => (0,t)
    | .file => (0,t)
    | .thread => (0,t)
    | .process => (0,t)
    | .namedObject => (if putLocked then 0 else -ebusy,t)
    | _ => (-ebadf,t)
  else (lockError,t)

end Table

/-- What a process does with its handles. Each operation carries the outcome of the
lock of the process, and of what else it calls. -/
inductive Op (P : Type*) where
  /-- Process::Open. -/
  | «open» (named locked : Bool) (file : Except ℤ P) (resized : Bool)
  /-- Process::OpenObject. -/
  | openObject (named locked : Bool) (obj : Option P) (resized : Bool)
  /-- Process::NewThread. -/
  | newThread (locked : Bool) (thread : P) (resized : Bool)
  /-- Process::NewProcess. -/
  | newProcess (locked : Bool) (process : P) (resized : Bool)
  /-- Process::CreateNamedObjectHandle. -/
  | createNamedObjectHandle (locked : Bool) (no : P) (resized : Bool)
  /-- Process::Close. -/
  | close (locked : Bool) (handle : BitVec 32) (putLocked : Bool)

namespace Table

variable (t : Table P)

/-- The value an operation returns, and its effect. -/
def call : Op P → ℤ × Table P
  | .open named locked file resized => t.open named locked file resized
  | .openObject named locked obj resized => t.openObject named locked obj resized
  | .newThread locked thread resized => t.newThread locked thread resized
  | .newProcess locked process resized => t.newProcess locked process resized
  | .createNamedObjectHandle locked no resized => t.createNamedObjectHandle locked no resized
  | .close locked handle putLocked => t.close locked handle putLocked

/-- The effect of an operation. -/
def apply (op : Op P) : Table P := (t.call op).2

end Table

/-- A slot is in use. -/
def Live (slots : List (Handle P)) (i : ℕ) : Prop := (slots.getD i default).type ≠ .free

instance (slots : List (Handle P)) (i : ℕ) : Decidable (Live slots i) :=
  inferInstanceAs (Decidable (_ ≠ _))

/-- What an operation that makes a handle does with the slots. -/
structure Creates (handle : Option (Handle P)) (slots : List (Handle P)) (result : ℤ)
    (slots' : List (Handle P)) : Prop where
  /-- A handle that is returned is a slot that was free or new, and no other slot
  changes. -/
  returned : 0 ≤ result → ∃ i : ℕ,result = i ∧ i ≤ slots.length ∧ ¬Live slots i ∧
    slots'[i]? = handle ∧ handle.isSome ∧ ∀ j,j ≠ i → slots'[j]? = slots[j]?
  /-- An operation that fails changes no slot. -/
  refused : result < 0 → slots' = slots
  /-- There are never more than MAX_HANDLES slots. -/
  bounded : slots'.length ≤ maxHandles

/-- What Close does with the slots. -/
structure Closes (i : ℕ) (putLocked : Bool) (slots : List (Handle P)) (result : ℤ)
    (slots' : List (Handle P)) : Prop where
  /-- A handle in use is freed, with success or the result of Put. -/
  freed : Live slots i → slots' = slots.set i Handle.free ∧
    result = if (slots.getD i default).type = .namedObject ∧ putLocked = false then -ebusy else 0
  /-- A bad handle changes no slot. -/
  refused : result = -ebadf → slots' = slots
  /-- There are never more than MAX_HANDLES slots. -/
  bounded : slots'.length ≤ maxHandles

/-- The handle an operation makes when all goes well. -/
def Op.handle : Op P → Option (Handle P)
  | .open true _ (.ok f) _ => some { type := .file,data := some f }
  | .openObject true _ (some obj) _ => some { type := .object,data := some obj }
  | .newThread _ thread _ => some { type := .thread,data := some thread }
  | .newProcess _ process _ => some { type := .process,data := some process }
  | .createNamedObjectHandle _ no _ => some { type := .namedObject,data := some no }
  | _ => none

/-- An operation does with the slots what it should. -/
def Right (t : Table P) (op : Op P) : Prop :=
  match op with
  | .close _ handle putLocked =>
    Closes handle.toNat putLocked t.toList (t.call op).1 (t.call op).2.toList
  | _ => Creates op.handle t.toList (t.call op).1 (t.call op).2.toList

/-- The vector has to grow to take one more handle. -/
def Full (t : Table P) : Prop :=
  (∀ i < t.currentSize,Live t.toList i) ∧ t.currentSize = t.allocatedSize ∧
    t.currentSize < maxHandles

/-- The condition under which an operation is right. -/
def Meets (t : Table P) : Op P → Prop
  | .open named locked file resized =>
    named = true → locked = true ∧
      match file with
      | .ok _ => Full t → resized = true
      | .error errno => 0 < errno
  | .openObject named locked obj resized =>
    named = true → locked = true ∧ (obj.isSome → Full t → resized = true)
  | .newThread locked _ resized => locked = true ∧ (Full t → resized = true)
  | .newProcess locked _ resized => locked = true ∧ (Full t → resized = true)
  | .createNamedObjectHandle locked _ resized => locked = true ∧ (Full t → resized = true)
  | .close locked handle _ =>
    Live t.toList handle.toNat →
      locked = true ∧ (t.toList.getD handle.toNat default).type ≠ .unknown

section Steps

variable {t : Table P}

/-- A handle that some constructor makes. -/
structure Handle.Made (h : Handle P) : Prop where
  /-- Only Handle() makes a free one. -/
  free : h.type = .free → h = Handle.free
  /-- None is for a mutex. -/
  mutex : h.type ≠ .mutex
  /-- None is for a semaphore. -/
  semaphore : h.type ≠ .semaphore

theorem Handle.made_free : (Handle.free : Handle P).Made := ⟨fun _ => rfl,nofun,nofun⟩

/-- What every operation that meets the condition keeps. -/
structure Kept (t : Table P) : Prop where
  /-- The slots have room. -/
  sound : KernelVector.Sound t
  /-- The vector may hold MAX_HANDLES slots. -/
  maxSize : t.maxSize = maxHandles
  /-- The reserved slots are there. -/
  nonempty : t.toList ≠ []
  /-- The slots hold what the constructors make. -/
  made : ∀ i,(t.toList.getD i default).Made

theorem Kept.bounded (h : Kept t) : t.toList.length ≤ maxHandles := by
  rw [h.sound.length_toList,←h.maxSize]
  exact Nat.le_trans h.sound.size h.sound.allocated

/-- The slots after one of them has been written. -/
theorem getD_set {slots : List (Handle P)} {i : ℕ} (hi : i < slots.length) (handle : Handle P)
    (j : ℕ) : (slots.set i handle).getD j default = if j = i then handle else slots.getD j default := by
  by_cases hj : j = i
  · rw [if_pos hj,hj,List.getD_eq_getElem?_getD,List.getElem?_set_self hi,Option.getD_some]
  · rw [if_neg hj,List.getD_eq_getElem?_getD,List.getElem?_set_ne (Ne.symm hj),
      List.getD_eq_getElem?_getD]

/-- The loop takes the first slot that is free, and otherwise the vector grows. -/
theorem allocHandleSlot_cases (h : KernelVector.Sound t) (handle : Handle P) (resized : Bool) :
    (∃ i < t.currentSize,¬Live t.toList i ∧
      t.allocHandleSlot handle resized = ((i : ℤ),KernelVector.set t i handle)) ∨
    ((∀ i < t.currentSize,Live t.toList i) ∧
      t.allocHandleSlot handle resized =
        if (t.append handle resized).1 then ((t.currentSize : ℤ),(t.append handle resized).2)
        else (-enomem,(t.append handle resized).2)) := by
  unfold Table.allocHandleSlot
  cases hf : (List.range t.currentSize).find? fun i => decide ((t.get i).type = .free) with
  | none =>
    right
    constructor
    · intro i hi
      have hno := List.find?_eq_none.mp hf i (List.mem_range.mpr hi)
      simpa [h.get_eq,Live] using hno
    · rcases ha : t.append handle resized with ⟨ok,t'⟩
      cases ok <;> rfl
  | some i =>
    left
    have hi := List.mem_range.mp (List.mem_of_find?_eq_some hf)
    have hfree := List.find?_some hf
    refine ⟨i,hi,?_,rfl⟩
    simpa [h.get_eq,Live] using hfree

/-- A handle in one slot, and the others as they were. -/
theorem creates_set {slots : List (Handle P)} {i : ℕ} {handle : Handle P} (hi : i < slots.length)
    (hfree : ¬Live slots i) (hb : slots.length ≤ maxHandles) :
    Creates (some handle) slots i (slots.set i handle) where
  returned _ := by
    refine ⟨i,rfl,Nat.le_of_lt hi,hfree,?_,rfl,fun j hj => ?_⟩
    · rw [List.getElem?_set_self hi]
    · rw [List.getElem?_set_ne (Ne.symm hj)]
  refused hneg := by omega
  bounded := by rwa [List.length_set]

/-- A handle in a new slot. -/
theorem creates_append {slots : List (Handle P)} {handle : Handle P}
    (hb : slots.length < maxHandles) :
    Creates (some handle) slots slots.length (slots ++ [handle]) where
  returned _ := by
    refine ⟨slots.length,rfl,Nat.le_refl _,?_,by simp,rfl,fun j hj => ?_⟩
    · simp [Live,default,Handle.free]
    · rcases Nat.lt_or_gt_of_ne hj with hlt | hgt
      · rw [List.getElem?_append_left hlt]
      · rw [List.getElem?_eq_none (by simp; omega),List.getElem?_eq_none (Nat.le_of_lt hgt)]
  refused hneg := by omega
  bounded := by
    rw [List.length_append,List.length_singleton]
    exact hb

/-- A call that fails and changes nothing is right when it returns an error. -/
theorem creates_unchanged_iff {slots : List (Handle P)} {handle : Option (Handle P)} {result : ℤ}
    (hb : slots.length ≤ maxHandles) (htype : ∀ h ∈ handle,h.type ≠ .free) :
    Creates handle slots result slots ↔ result < 0 := by
  constructor
  · intro h
    by_contra hneg
    obtain ⟨i,-,-,hfree,hi,hsome,-⟩ := h.returned (by omega)
    obtain ⟨handle',hh⟩ := Option.isSome_iff_exists.mp hsome
    refine hfree ?_
    rw [Live,List.getD_eq_getElem?_getD,hi,hh]
    exact htype handle' hh
  · intro hneg
    exact ⟨fun hpos => by omega,fun _ => rfl,hb⟩

/-- The slot of a new handle is right unless the vector has to grow and cannot. -/
theorem Kept.allocHandleSlot_iff (h : Kept t) (handle : Handle P) (resized : Bool) :
    Creates (some handle) t.toList (t.allocHandleSlot handle resized).1
      (t.allocHandleSlot handle resized).2.toList ↔ (Full t → resized = true) := by
  have hlen := h.sound.length_toList
  have hb := h.bounded
  obtain ⟨i,hi,hfree,heq⟩ | ⟨hall,heq⟩ := allocHandleSlot_cases h.sound handle resized
  · rw [heq]
    simp only [h.sound.toList_set]
    have hright : Creates (some handle) t.toList i (t.toList.set i handle) :=
      creates_set (hlen ▸ hi) hfree hb
    exact iff_of_true hright fun hfull => absurd (hfull.1 i hi) hfree
  · by_cases hroom : t.currentSize < maxHandles
    · by_cases hg : resized = true ∨ t.currentSize < t.allocatedSize
      · obtain ⟨hok,-,-,hlist⟩ := h.sound.append handle (h.maxSize ▸ hroom) hg
        rw [heq,if_pos hok]
        simp only [hlist,←hlen]
        refine iff_of_true (creates_append (hlen ▸ hroom)) fun hfull => ?_
        exact hg.resolve_right (by rw [hfull.2.1]; exact Nat.lt_irrefl _)
      · rw [not_or,Bool.not_eq_true] at hg
        obtain ⟨hres,hsize⟩ := hg
        subst hres
        have heqs : t.currentSize = t.allocatedSize := by
          have := h.sound.size
          omega
        obtain ⟨hbad,hlist⟩ := h.sound.append_lost handle (h.maxSize ▸ hroom) heqs
        rw [heq,hbad]
        simp only [Bool.false_eq_true,if_false,hlist]
        refine iff_of_false (fun hc => ?_) fun hc => absurd (hc ⟨hall,heqs,hroom⟩) (by decide)
        exact h.nonempty (hc.refused (by decide)).symm
    · rw [heq,KernelVector.append_full handle resized (by rw [h.maxSize]; omega)]
      simp only [Bool.false_eq_true,if_false]
      refine iff_of_true ⟨fun hpos => absurd hpos (by decide),fun _ => rfl,hb⟩ fun hfull => ?_
      exact absurd hfull.2.2 hroom

/-- The vector of handles after one of them has been placed. -/
theorem Kept.allocHandleSlot (h : Kept t) {handle : Handle P} {resized : Bool}
    (hmade : handle.Made) (hfit : Full t → resized = true) :
    Kept (t.allocHandleSlot handle resized).2 := by
  have hlen := h.sound.length_toList
  obtain ⟨i,hi,hfree,heq⟩ | ⟨hall,heq⟩ := allocHandleSlot_cases h.sound handle resized
  · rw [heq]
    refine ⟨h.sound.set i handle,by simp [h.maxSize],?_,fun j => ?_⟩
    · simpa [h.sound.toList_set] using h.nonempty
    · rw [h.sound.toList_set,getD_set (hlen ▸ hi)]
      split_ifs
      · exact hmade
      · exact h.made j
  · by_cases hroom : t.currentSize < maxHandles
    · have hg : resized = true ∨ t.currentSize < t.allocatedSize := by
        by_cases hsize : t.currentSize = t.allocatedSize
        · exact .inl (hfit ⟨hall,hsize,hroom⟩)
        · exact .inr (Nat.lt_of_le_of_ne h.sound.size hsize)
      obtain ⟨hok,hsound,hmax,hlist⟩ := h.sound.append handle (h.maxSize ▸ hroom) hg
      rw [heq,if_pos hok]
      refine ⟨hsound,hmax.trans h.maxSize,by simp [hlist],fun j => ?_⟩
      rw [hlist]
      rcases Nat.lt_trichotomy j t.toList.length with hlt | heq | hgt
      · rw [List.getD_append _ _ _ _ hlt]
        exact h.made j
      · rw [heq,List.getD_append_right _ _ _ _ (Nat.le_refl _),Nat.sub_self]
        exact hmade
      · rw [List.getD_eq_default _ _ (by simp; omega)]
        exact Handle.made_free
    · rw [heq,KernelVector.append_full handle resized (by rw [h.maxSize]; omega)]
      exact h

/-- Freeing a slot writes one element of the list, or none. -/
theorem Kept.toList_freeHandleSlot (h : Kept t) (handle : BitVec 32) :
    (t.freeHandleSlot handle).toList = t.toList.set handle.toNat Handle.free := by
  have hlen := h.sound.length_toList
  have hb := h.bounded
  unfold Table.freeHandleSlot
  split_ifs with hc
  · rw [List.set_eq_of_length_le]
    rcases hc with hneg | hge
    · have hbig : 2 ^ 31 ≤ handle.toNat := by
        rw [BitVec.toInt_eq_toNat_cond] at hneg
        split_ifs at hneg <;> omega
      exact Nat.le_trans hb (Nat.le_trans (by decide) hbig)
    · rw [hlen]
      exact hge
  · exact h.sound.toList_set _ _

/-- The table after a slot has been freed. -/
theorem Kept.freeHandleSlot (h : Kept t) (handle : BitVec 32) :
    Kept (t.freeHandleSlot handle) := by
  refine ⟨?_,?_,?_,fun j => ?_⟩
  · unfold Table.freeHandleSlot
    split_ifs
    · exact h.sound
    · exact h.sound.set _ _
  · unfold Table.freeHandleSlot
    split_ifs
    · exact h.maxSize
    · rw [KernelVector.set_maxSize,h.maxSize]
  · simpa [h.toList_freeHandleSlot] using h.nonempty
  · rw [h.toList_freeHandleSlot]
    by_cases hi : handle.toNat < t.toList.length
    · rw [getD_set hi]
      split_ifs
      · exact Handle.made_free
      · exact h.made j
    · rw [List.set_eq_of_length_le (by omega)]
      exact h.made j

/-- The operations that make a handle are right when the lock is held, and there is
room for the handle or an error to return. -/
theorem Kept.createHandle_iff (h : Kept t) (locked : Bool) (handle : Except ℤ (Handle P))
    (resized : Bool) (htype : ∀ x,handle = .ok x → x.type ≠ .free) :
    Creates handle.toOption t.toList (t.createHandle locked handle resized).1
      (t.createHandle locked handle resized).2.toList ↔
    locked = true ∧
      match handle with
      | .ok _ => Full t → resized = true
      | .error value => value < 0 := by
  have hopt : ∀ x ∈ handle.toOption,x.type ≠ .free := by
    intro x hx
    cases handle with
    | ok y => exact htype x (congrArg Except.ok (Option.some.inj hx))
    | error value => cases hx
  cases locked with
  | false =>
    refine iff_of_false (fun hc => ?_) fun hc => absurd hc.1 (by decide)
    have hneg : lockError < 0 := (creates_unchanged_iff h.bounded hopt).mp hc
    exact absurd hneg (by decide)
  | true =>
    simp only [Table.createHandle,if_true,true_and]
    cases handle with
    | ok x => exact h.allocHandleSlot_iff x resized
    | error value => exact creates_unchanged_iff h.bounded hopt

/-- Close of a slot in use frees it. -/
theorem closes_live {slots : List (Handle P)} {i : ℕ} {putLocked : Bool} {result : ℤ}
    (hb : slots.length ≤ maxHandles)
    (hresult : result = if (slots.getD i default).type = .namedObject ∧ putLocked = false
      then -ebusy else 0) :
    Closes i putLocked slots result (slots.set i Handle.free) where
  freed _ := ⟨rfl,hresult⟩
  refused hbad := by
    rw [hresult] at hbad
    split_ifs at hbad <;> exact absurd hbad (by decide)
  bounded := by rwa [List.length_set]

/-- Close is right unless the lock is not acquired or the slot is a reserved one. -/
theorem Kept.close_iff (h : Kept t) (locked : Bool) (handle : BitVec 32) (putLocked : Bool) :
    Closes handle.toNat putLocked t.toList (t.close locked handle putLocked).1
      (t.close locked handle putLocked).2.toList ↔
    (Live t.toList handle.toNat →
      locked = true ∧ (t.toList.getD handle.toNat default).type ≠ .unknown) := by
  cases locked with
  | false =>
    have hresult : (t.close false handle putLocked).1 = lockError := rfl
    constructor
    · intro hc hlive
      have hr := (hc.freed hlive).2
      rw [hresult] at hr
      split_ifs at hr <;> exact absurd hr (by decide)
    · intro hc
      exact ⟨fun hlive => absurd (hc hlive).1 (by decide),fun _ => rfl,h.bounded⟩
  | true =>
    have hmade := h.made handle.toNat
    have hclose : ∀ type result,(t.toList.getD handle.toNat default).type = type →
        result = (if type = .namedObject ∧ putLocked = false then -ebusy else 0) →
        Closes handle.toNat putLocked t.toList result (t.freeHandleSlot handle).toList := by
      intro type result htype hresult
      rw [h.toList_freeHandleSlot]
      exact closes_live h.bounded (by rw [htype,hresult])
    simp only [Table.close,if_true,h.sound.get_eq handle.toNat,true_and]
    cases hty : (t.toList.getD handle.toNat default).type with
    | free =>
      -- The slot is written with what it holds.
      have hsame : t.toList.set handle.toNat Handle.free = t.toList := by
        rcases Nat.lt_or_ge handle.toNat t.toList.length with hlt | hge
        · have hget := hmade.free hty
          rw [List.getD_eq_getElem _ _ hlt] at hget
          rw [←hget,List.set_getElem_self]
        · exact List.set_eq_of_length_le hge
      simp only [h.toList_freeHandleSlot,hsame]
      have hdead : ¬Live t.toList handle.toNat := fun hlive => hlive hty
      exact iff_of_true ⟨fun hlive => absurd hlive hdead,fun _ => rfl,h.bounded⟩
        fun hlive => absurd hlive hdead
    | unknown =>
      have hlive : Live t.toList handle.toNat := by
        rw [Live,hty]
        exact nofun
      refine iff_of_false (fun hc => ?_) fun hc => hc hlive rfl
      have hr : -ebadf = _ := (hc.freed hlive).2
      simp only [hty,reduceCtorEq,false_and,if_false] at hr
      exact absurd hr (by decide)
    | file => exact iff_of_true (hclose .file 0 hty rfl) fun _ => nofun
    | object => exact iff_of_true (hclose .object 0 hty rfl) fun _ => nofun
    | thread => exact iff_of_true (hclose .thread 0 hty rfl) fun _ => nofun
    | process => exact iff_of_true (hclose .process 0 hty rfl) fun _ => nofun
    | namedObject =>
      refine iff_of_true (hclose .namedObject _ hty ?_) fun _ => nofun
      cases putLocked <;> rfl
    | mutex => exact absurd hty hmade.mutex
    | semaphore => exact absurd hty hmade.semaphore

/-- An operation is right exactly when it meets the condition. -/
theorem Kept.right_iff (h : Kept t) (op : Op P) : Right t op ↔ Meets t op := by
  have hunnamed : Creates (none : Option (Handle P)) t.toList (-einval) t.toList :=
    (creates_unchanged_iff h.bounded fun _ hn => by cases hn).mpr (by decide)
  cases op with
  | «open» named locked file resized =>
    cases named with
    | false => exact iff_of_true hunnamed nofun
    | true =>
      simp only [Meets,true_imp_iff]
      cases file with
      | ok f => exact h.createHandle_iff locked (.ok { type := .file,data := some f }) resized (by simp)
      | error errno =>
        have hiff := h.createHandle_iff locked (.error (-errno)) resized (fun _ hn => by cases hn)
        simp only [Int.neg_neg_iff_pos] at hiff
        exact hiff
  | openObject named locked obj resized =>
    cases named with
    | false => exact iff_of_true hunnamed nofun
    | true =>
      simp only [Meets,true_imp_iff]
      cases obj with
      | some obj =>
        have hiff := h.createHandle_iff locked (.ok { type := .object,data := some obj }) resized
          (by simp)
        simp only [Option.isSome_some,true_imp_iff]
        exact hiff
      | none =>
        have hiff := h.createHandle_iff locked (.error (-enoent)) resized (fun _ hn => by cases hn)
        have hneg : -enoent < 0 := by decide
        simp only [hneg] at hiff
        simp only [Option.isSome_none,Bool.false_eq_true,false_imp_iff]
        exact hiff
  | newThread locked thread resized =>
    exact h.createHandle_iff locked (.ok { type := .thread,data := some thread }) resized (by simp)
  | newProcess locked process resized =>
    exact h.createHandle_iff locked (.ok { type := .process,data := some process }) resized (by simp)
  | createNamedObjectHandle locked no resized =>
    exact h.createHandle_iff locked (.ok { type := .namedObject,data := some no }) resized (by simp)
  | close locked handle putLocked => exact h.close_iff locked handle putLocked

/-- A new handle that meets the condition leaves a table of the same kind. -/
theorem Kept.createHandle (h : Kept t) (locked : Bool) (handle : Except ℤ (Handle P))
    (resized : Bool) (hmade : ∀ x,handle = .ok x → x.Made)
    (hfit : ∀ x,handle = .ok x → Full t → resized = true) :
    Kept (t.createHandle locked handle resized).2 := by
  cases locked with
  | false => exact h
  | true =>
    cases handle with
    | ok x => exact h.allocHandleSlot (hmade x rfl) (hfit x rfl)
    | error value => exact h

/-- The same for a handle of a type that is neither free nor one of the last two. -/
theorem Kept.createHandle_ok (h : Kept t) (locked : Bool) {handle : Handle P} (resized : Bool)
    (hmade : handle.Made) (hfit : Full t → resized = true) :
    Kept (t.createHandle locked (.ok handle) resized).2 :=
  h.createHandle locked (.ok handle) resized (by rintro x ⟨⟩; exact hmade) fun _ _ => hfit

/-- An operation that meets the condition leaves a table of the same kind. -/
theorem Kept.apply (h : Kept t) {op : Op P} (hm : Meets t op) : Kept (t.apply op) := by
  cases op with
  | «open» named locked file resized =>
    cases named with
    | false => exact h
    | true =>
      cases file with
      | ok f => exact h.createHandle_ok locked resized ⟨nofun,nofun,nofun⟩ (hm rfl).2
      | error errno => exact h.createHandle locked (.error (-errno)) resized nofun nofun
  | openObject named locked obj resized =>
    cases named with
    | false => exact h
    | true =>
      cases obj with
      | some obj => exact h.createHandle_ok locked resized ⟨nofun,nofun,nofun⟩ ((hm rfl).2 rfl)
      | none => exact h.createHandle locked (.error (-enoent)) resized nofun nofun
  | newThread locked thread resized =>
    exact h.createHandle_ok locked resized ⟨nofun,nofun,nofun⟩ hm.2
  | newProcess locked process resized =>
    exact h.createHandle_ok locked resized ⟨nofun,nofun,nofun⟩ hm.2
  | createNamedObjectHandle locked no resized =>
    exact h.createHandle_ok locked resized ⟨nofun,nofun,nofun⟩ hm.2
  | close locked handle putLocked =>
    cases locked with
    | false => exact h
    | true =>
      have hfree : (t.close true handle putLocked).2 = t.freeHandleSlot handle := by
        simp only [Table.close,if_true]
        cases (t.get handle.toNat).type <;> rfl
      rw [Table.apply,Table.call,hfree]
      exact h.freeHandleSlot handle

theorem toList_start (block : ℕ → Handle P) :
    (Table.start block).toList = List.replicate 3 { type := .unknown,data := none } := rfl

theorem kept_start (block : ℕ → Handle P) : Kept (Table.start block) := by
  refine ⟨⟨rfl,?_,?_,?_⟩,rfl,?_,fun i => ?_⟩
  · show 3 ≤ 8
    decide
  · show 8 ≤ 1024
    decide
  · show 0 < 8
    decide
  · rw [toList_start]
    exact nofun
  · rw [toList_start]
    rcases Nat.lt_or_ge i 3 with hlt | hge
    · rw [List.getD_replicate _ hlt]
      exact ⟨nofun,nofun,nofun⟩
    · rw [List.getD_eq_default _ _ (by simpa using hge)]
      exact Handle.made_free

end Steps

/-- Every operation of a run is right if and only if each of them meets the condition:
its lock is acquired, the vector can grow when it has to, a file that is not opened
leaves a positive errno, and no reserved slot is closed. -/
theorem handles_right_iff (block : ℕ → Handle P) (ops : List (Op P)) :
    RunMeets Table.apply Right (Table.start block) ops ↔
      RunMeets Table.apply Meets (Table.start block) ops :=
  runMeets_iff (fun _ op h => h.right_iff op) (fun _ _ h hm => h.apply hm) (kept_start block)

/-- Close of a reserved slot frees it and calls it bad. -/
theorem close_reserved_not_right :
    ¬RunMeets Table.apply Right (Table.start fun _ => (Handle.free : Handle ℕ))
      [.close true 0 true] := by
  rintro ⟨hright,-⟩
  have hsame := Closes.refused hright (by decide)
  exact absurd hsame (by decide)

end WootOs.HandleTable
