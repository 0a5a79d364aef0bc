import Mathlib.Data.BitVec
import Mathlib.Data.List.InsertIdx
import WootOs.ByteMemory

/-!
# Vectors that grow

Vector keeps its elements at the start of a block of the heap. Appending and
inserting first see to it that the block has room for one more, by resizing it.
What the heap answers to that is an input here: a block, which keeps the elements
that fit, or null. The pointer is overwritten by the answer, so a vector whose
block could not be resized has lost it. The sizes of the block are computed in
words.
-/

namespace WootOs.Vectors

open ByteMemory

section Elements

variable {α : Type*}

/-- Memory::Move upwards, in elements. -/
def moveUp : ℕ → (ℕ → α) → ℕ → ℕ → ℕ → α
  | 0,data,_,_ => data
  | n+1,data,d,s => moveUp n (Function.update data d (data s)) (d+1) (s+1)

/-- Memory::Move downwards from the ends, in elements. -/
def moveDown : ℕ → (ℕ → α) → ℕ → ℕ → ℕ → α
  | 0,data,_,_ => data
  | n+1,data,d,s => moveDown n (Function.update data (d+n) (data (s+n))) d s

/-- A block of the heap. -/
structure Block (α : Type*) where
  /-- Its size. -/
  bytes : ℕ
  /-- The elements in it. -/
  elements : ℕ → α

/-- Vector. -/
structure Vector (α : Type*) where
  /-- maxSize. -/
  maxSize : Word
  /-- currentSize. -/
  currentSize : Word
  /-- allocatedSize. -/
  allocatedSize : Word
  /-- allocIncr. -/
  allocIncr : Word
  /-- data, unless it is null. -/
  data : Option (Block α)

variable (size : ℕ)

/-- Heap::Resize, and Heap::Allocate for no block, where the heap answers with what is in a
new block, or with null. -/
def resize (heap : Option (ℕ → α)) (data : Option (Block α)) (bytes : Word) : Option (Block α) :=
  if bytes = 0 then none
  else heap.map fun fresh =>
    { bytes := bytes.toNat
      elements := fun i =>
        match data with
        | none => fresh i
        | some b => if (i + 1) * size ≤ min b.bytes bytes.toNat then b.elements i else fresh i }

namespace Vector

/-- The constructor. -/
def new (preAlloc allocIncr maxSize : Word) (heap : Option (ℕ → α)) : Vector α :=
  let allocatedSize := if maxSize < preAlloc then maxSize else preAlloc
  { maxSize := maxSize
    currentSize := 0
    allocatedSize := allocatedSize
    allocIncr := allocIncr
    data := resize size heap none (allocatedSize * BitVec.ofNat 32 size) }

variable (v : Vector α)

/-- What allocatedSize grows to. -/
def newAllocSize : Word :=
  if v.maxSize < v.allocatedSize + v.allocIncr then v.maxSize else v.allocatedSize + v.allocIncr

/-- Vector::upSize. -/
def upSize (heap : Option (ℕ → α)) : Bool × Vector α :=
  let newSize := v.currentSize + 1
  if v.maxSize < newSize then (false,v)
  else if v.allocatedSize < newSize then
    let data := resize size heap v.data (v.newAllocSize * BitVec.ofNat 32 size)
    if v.newAllocSize ≠ 0 ∧ data.isNone then (false,{ v with data := data })
    else (true,{ v with data := data, allocatedSize := v.newAllocSize })
  else (true,v)

/-- An element of the block. -/
def elem (i : Word) : Option α :=
  v.data.bind fun b => if (i.toNat + 1) * size ≤ b.bytes then some (b.elements i.toNat) else none

/-- An element of the block is written. -/
def put (i : Word) (value : α) : Option (Vector α) :=
  v.data.bind fun b =>
    if (i.toNat + 1) * size ≤ b.bytes then
      some { v with data := some { b with elements := Function.update b.elements i.toNat value } }
    else none

/-- Memory::Move in the block. -/
def move (dst src n : Word) : Option (Vector α) :=
  if n = 0 ∨ dst = src then some v
  else v.data.bind fun b =>
    if (max dst.toNat src.toNat + n.toNat) * size ≤ b.bytes then
      some { v with
        data := some { b with
          elements :=
            if dst < src then moveUp n.toNat b.elements dst.toNat src.toNat
            else moveDown n.toNat b.elements dst.toNat src.toNat } }
    else none

/-- One element more. -/
def grown : Vector α := { v with currentSize := v.currentSize + 1 }

/-- Vector::Set. -/
def set (idx : Word) (value : α) : Option (Bool × Vector α) :=
  if v.currentSize ≤ idx then some (false,v) else (v.put size idx value).map (true,·)

/-- Vector::Append. -/
def append (heap : Option (ℕ → α)) (value : α) : Option (Bool × Vector α) :=
  let (ok,v) := v.upSize size heap
  if ok then do
    let v ← v.put size v.currentSize value
    some (true,v.grown)
  else some (false,v)

/-- Vector::Prepend. -/
def prepend (heap : Option (ℕ → α)) (value : α) : Option (Bool × Vector α) :=
  let (ok,v) := v.upSize size heap
  if ok then do
    let v ← v.move size 1 0 v.currentSize
    let v ← v.put size 0 value
    some (true,v.grown)
  else some (false,v)

/-- Vector::InsertBefore. -/
def insertBefore (heap : Option (ℕ → α)) (idx : Word) (value : α) : Option (Bool × Vector α) :=
  let idx := if v.currentSize < idx then v.currentSize else idx
  let (ok,v) := v.upSize size heap
  if ok then do
    let v ← v.move size (1 + idx) idx (v.currentSize - idx)
    let v ← v.put size idx value
    some (true,v.grown)
  else some (false,v)

/-- Vector::InsertAfter. -/
def insertAfter (heap : Option (ℕ → α)) (idx : Word) (value : α) : Option (Bool × Vector α) :=
  let idx := if v.currentSize ≤ idx then v.currentSize - 1 else idx
  let (ok,v) := v.upSize size heap
  if ok then do
    let v ← v.move size (2 + idx) (1 + idx) (v.currentSize - idx - 1)
    let v ← v.put size (idx + 1) value
    some (true,v.grown)
  else some (false,v)

/-- Vector::RemoveAt. -/
def removeAt (idx : Word) : Option (Bool × Vector α) :=
  if v.currentSize ≤ idx then some (false,v)
  else do
    let v ← v.move size idx (idx + 1) (v.currentSize - idx - 1)
    some (true,{ v with currentSize := v.currentSize - 1 })

/-- Vector::Swap. -/
def swap (idx1 idx2 : Word) : Option (Bool × Vector α) :=
  if v.currentSize ≤ idx1 ∨ v.currentSize ≤ idx2 then some (false,v)
  else do
    let tmp ← v.elem size idx2
    let x ← v.elem size idx1
    let v ← v.put size idx2 x
    let v ← v.put size idx1 tmp
    some (true,v)

variable [DecidableEq α]

/-- The loop of RemoveOne, if it ends in so many rounds. -/
def removeOneFrom (value : α) : ℕ → Word → Option (Bool × Vector α)
  | 0,_ => none
  | fuel+1,i =>
    if i < v.currentSize then do
      let x ← v.elem size i
      if value = x then v.removeAt size i else removeOneFrom value fuel (i + 1)
    else some (false,v)

/-- Vector::RemoveOne. -/
def removeOne (value : α) : Option (Bool × Vector α) :=
  v.removeOneFrom size value (v.currentSize.toNat + 1) 0

/-- The loop of RemoveAll, if it ends in so many rounds. -/
def removeAllFrom (value : α) : ℕ → Vector α → Word → Word → Option (Word × Vector α)
  | 0,_,_,_ => none
  | fuel+1,v,res,i =>
    if i < v.currentSize then do
      let x ← v.elem size i
      if value = x then
        let (ok,v) ← v.removeAt size i
        removeAllFrom value fuel v (res + if ok then 1 else 0) (i - 1 + 1)
      else removeAllFrom value fuel v res (i + 1)
    else some (res,v)

/-- Vector::RemoveAll. -/
def removeAll (value : α) : Option (Word × Vector α) :=
  removeAllFrom size value (v.currentSize.toNat + 1) v 0 0

end Vector

end Elements

section Calls

variable {α : Type*} (size : ℕ)

/-- A call. -/
inductive Op (α : Type*) where
  /-- Append. -/
  | append (value : α)
  /-- Prepend. -/
  | prepend (value : α)
  /-- InsertBefore. -/
  | insertBefore (idx : Word) (value : α)
  /-- InsertAfter. -/
  | insertAfter (idx : Word) (value : α)
  /-- Set. -/
  | set (idx : Word) (value : α)
  /-- RemoveAt. -/
  | removeAt (idx : Word)
  /-- RemoveOne. -/
  | removeOne (value : α)
  /-- RemoveAll. -/
  | removeAll (value : α)
  /-- Swap. -/
  | swap (idx1 idx2 : Word)

/-- What a call returns. -/
inductive Answer where
  /-- Whether it has been done. -/
  | flag (ok : Bool)
  /-- A number. -/
  | number (n : ℕ)

/-- The call needs room for one more element. -/
def Op.inserts : Op α → Bool
  | .append _ | .prepend _ | .insertBefore .. | .insertAfter .. => true
  | .set .. | .removeAt _ | .removeOne _ | .removeAll _ | .swap .. => false

variable [DecidableEq α]

/-- A call, and what the heap would answer in it. There is no result if an element is used
that is not in the block. -/
def Vector.step (v : Vector α) (heap : Option (ℕ → α)) : Op α → Option (Answer × Vector α)
  | .append value => (v.append size heap value).map fun r => (.flag r.1,r.2)
  | .prepend value => (v.prepend size heap value).map fun r => (.flag r.1,r.2)
  | .insertBefore idx value => (v.insertBefore size heap idx value).map fun r => (.flag r.1,r.2)
  | .insertAfter idx value => (v.insertAfter size heap idx value).map fun r => (.flag r.1,r.2)
  | .set idx value => (v.set size idx value).map fun r => (.flag r.1,r.2)
  | .removeAt idx => (v.removeAt size idx).map fun r => (.flag r.1,r.2)
  | .removeOne value => (v.removeOne size value).map fun r => (.flag r.1,r.2)
  | .removeAll value => (v.removeAll size value).map fun r => (.number r.1.toNat,r.2)
  | .swap idx1 idx2 => (v.swap size idx1 idx2).map fun r => (.flag r.1,r.2)

/-- An element is put into a list, if there is room. -/
def insertStep (room : Bool) (l : List α) (i : ℕ) (value : α) : Answer × List α :=
  if room then (.flag true,l.insertIdx i value) else (.flag false,l)

/-- A call on a list that has room for one more element, or not. -/
def listStep (room : Bool) (l : List α) : Op α → Answer × List α
  | .append value => insertStep room l l.length value
  | .prepend value => insertStep room l 0 value
  | .insertBefore idx value => insertStep room l (min idx.toNat l.length) value
  | .insertAfter idx value => insertStep room l (min (idx.toNat + 1) l.length) value
  | .set idx value =>
    if idx.toNat < l.length then (.flag true,l.set idx.toNat value) else (.flag false,l)
  | .removeAt idx =>
    if idx.toNat < l.length then (.flag true,l.eraseIdx idx.toNat) else (.flag false,l)
  | .removeOne value => (.flag (value ∈ l),l.erase value)
  | .removeAll value => (.number (l.count value),l.filter (· ≠ value))
  | .swap idx1 idx2 =>
    match l[idx1.toNat]?,l[idx2.toNat]? with
    | some x,some y => (.flag true,(l.set idx2.toNat x).set idx1.toNat y)
    | _,_ => (.flag false,l)

/-- There is room unless the vector has its largest size, or has to grow and the heap
answers with null. -/
def Vector.room (v : Vector α) (heap : Option (ℕ → α)) : Bool :=
  v.currentSize < v.maxSize && (v.currentSize < v.allocatedSize || heap.isSome)

/-- The vector has the elements of a list, and no more than it has sizes for. -/
structure Vector.Contains (v : Vector α) (l : List α) : Prop where
  /-- As many as Size() says. -/
  length : v.currentSize.toNat = l.length
  /-- The elements. -/
  elem : ∀ i (h : i < l.length),v.elem size (BitVec.ofNat 32 i) = some l[i]
  /-- Size() is at most AllocSize(). -/
  alloc : v.currentSize ≤ v.allocatedSize
  /-- AllocSize() is at most maxSize. -/
  max : v.allocatedSize ≤ v.maxSize

/-- A run of calls, with what the heap would answer, does on the vector what it does on a
list, and calls that return false do nothing. -/
def Follows (v : Vector α) (l : List α) : List (Op α × Option (ℕ → α)) → Prop
  | [] => v.Contains size l
  | (op,heap)::ops =>
    v.Contains size l ∧
      ∃ v',v.step size heap op = some ((listStep (v.room heap) l op).1,v') ∧
        ((listStep (v.room heap) l op).1 = .flag false → v' = v) ∧
        Follows v' (listStep (v.room heap) l op).2 ops

/-- Nothing goes around when the vector grows, and it is empty if the heap answers with
null. -/
structure Vector.Grows (v : Vector α) (heap : Option (ℕ → α)) : Prop where
  /-- The size can be counted. -/
  count : v.currentSize.toNat + 1 < 2 ^ 32
  /-- The next number of elements. -/
  incr : v.currentSize = v.allocatedSize → v.currentSize < v.maxSize →
    v.allocatedSize.toNat + v.allocIncr.toNat < 2 ^ 32
  /-- The size of the next block. -/
  bytes : v.currentSize = v.allocatedSize → v.currentSize < v.maxSize →
    v.newAllocSize.toNat * size < 2 ^ 32
  /-- There is a next block, or there is nothing to lose. -/
  answer : v.currentSize = v.allocatedSize → v.currentSize < v.maxSize → heap = none →
    v.currentSize = 0

/-- Every call of a run that needs room can grow the vector. -/
def AllGrow (v : Vector α) : List (Op α × Option (ℕ → α)) → Prop
  | [] => True
  | (op,heap)::ops =>
    (op.inserts = true → v.Grows size heap) ∧
      ∀ r,v.step size heap op = some r → AllGrow r.2 ops

end Calls

section Moves

variable {α : Type*} {size : ℕ} {v : Vector α} {l : List α}

/-- Moving upwards is right where the destination is not above the source. -/
theorem moveUp_eq (n : ℕ) (data : ℕ → α) {d s : ℕ} (h : d ≤ s) (i : ℕ) :
    moveUp n data d s i = if d ≤ i ∧ i < d + n then data (s + (i - d)) else data i := by
  induction n generalizing data d s with
  | zero => rw [moveUp,if_neg (by omega)]
  | succ n ih =>
    rw [moveUp,ih _ (by omega),Function.update_apply,Function.update_apply]
    by_cases hd : i = d
    · rw [if_neg (by omega),if_pos hd,if_pos (by omega),hd,Nat.sub_self,Nat.add_zero]
    · rw [if_neg hd,if_neg (show s + 1 + (i - (d + 1)) ≠ d by omega)]
      by_cases hin : d + 1 ≤ i ∧ i < d + 1 + n
      · rw [if_pos hin,if_pos (by omega)]
        exact congrArg data (by omega)
      · rw [if_neg hin,if_neg (by omega)]

/-- Moving downwards is right where the destination is not below the source. -/
theorem moveDown_eq (n : ℕ) (data : ℕ → α) {d s : ℕ} (h : s ≤ d) (i : ℕ) :
    moveDown n data d s i = if d ≤ i ∧ i < d + n then data (s + (i - d)) else data i := by
  induction n generalizing data with
  | zero => rw [moveDown,if_neg (by omega)]
  | succ n ih =>
    rw [moveDown,ih,Function.update_apply,Function.update_apply]
    by_cases hd : i = d + n
    · rw [if_neg (by omega),if_pos hd,if_pos (by omega),hd,Nat.add_sub_cancel_left]
    · rw [if_neg hd]
      by_cases hin : d ≤ i ∧ i < d + n
      · rw [if_pos hin,if_neg (by omega),if_pos (by omega)]
      · rw [if_neg hin,if_neg (by omega)]

/-- Elements of the block are moved. -/
theorem move_block {b : Block α} (dst src n : Word) (hdata : v.data = some b)
    (hroom : n ≠ 0 → (max dst.toNat src.toNat + n.toNat) * size ≤ b.bytes) :
    ∃ b' : Block α,v.move size dst src n = some { v with data := some b' } ∧ b'.bytes = b.bytes ∧
      ∀ i,b'.elements i = if dst.toNat ≤ i ∧ i < dst.toNat + n.toNat then
        b.elements (src.toNat + (i - dst.toNat)) else b.elements i := by
  rw [Vector.move]
  by_cases hskip : n = 0 ∨ dst = src
  · refine ⟨b,by rw [if_pos hskip,←hdata],rfl,fun i => ?_⟩
    split_ifs with hin
    · obtain rfl | rfl := hskip
      · exact absurd hin (by rw [show (0 : Word).toNat = 0 from rfl]; omega)
      · exact congrArg b.elements (by omega)
    · rfl
  · rw [not_or] at hskip
    rw [if_neg (by tauto),hdata,Option.bind_some,if_pos (hroom hskip.1)]
    refine ⟨_,rfl,rfl,fun i => ?_⟩
    by_cases hup : dst < src
    · rw [if_pos hup]
      exact moveUp_eq _ _ (BitVec.lt_def.mp hup).le i
    · rw [if_neg hup]
      exact moveDown_eq _ _ (Nat.not_lt.mp fun hlt => hup (BitVec.lt_def.mpr hlt)) i

/-- An element of the block is written. -/
theorem put_block {b : Block α} {i : Word} (hdata : v.data = some b)
    (hroom : (i.toNat + 1) * size ≤ b.bytes) (value : α) :
    v.put size i value = some { v with
      data := some { b with elements := Function.update b.elements i.toNat value } } := by
  rw [Vector.put,hdata,Option.bind_some,if_pos hroom]

/-- A vector with the elements of a list. -/
structure Vector.Holds (size : ℕ) (v : Vector α) (l : List α) : Prop where
  /-- Its size. -/
  length : v.currentSize.toNat = l.length
  /-- There is room for it. -/
  alloc : l.length ≤ v.allocatedSize.toNat
  /-- The room is limited. -/
  max : v.allocatedSize.toNat ≤ v.maxSize.toNat
  /-- It can grow. -/
  incr : 1 ≤ v.allocIncr.toNat
  /-- Without room there is no block. -/
  none : v.allocatedSize = 0 → v.data = none
  /-- The block. -/
  block : v.allocatedSize ≠ 0 → ∃ b,v.data = some b ∧ v.allocatedSize.toNat * size ≤ b.bytes ∧
    ∀ i (h : i < l.length),b.elements i = l[i]

namespace Vector.Holds

/-- There is a block where there is room for an element. -/
theorem exists_block (h : v.Holds size l) {n : ℕ} (hn : n < v.allocatedSize.toNat) :
    ∃ b,v.data = some b ∧ (∀ k,k ≤ v.allocatedSize.toNat → k * size ≤ b.bytes) ∧
      ∀ i (h : i < l.length),b.elements i = l[i] := by
  obtain ⟨b,hdata,hbytes,helements⟩ := h.block fun hzero => by
    rw [hzero] at hn
    exact Nat.not_lt_zero n hn
  exact ⟨b,hdata,fun k hk => (Nat.mul_le_mul_right size hk).trans hbytes,helements⟩

/-- The same vector with another block and another number of elements. -/
theorem with_block (h : v.Holds size l) (l' : List α) {n : Word} {b b' : Block α}
    (hdata : v.data = some b) (hbytes : b'.bytes = b.bytes) (hlength : n.toNat = l'.length)
    (halloc : l'.length ≤ v.allocatedSize.toNat) (hpos : v.allocatedSize ≠ 0)
    (helements : ∀ i (h : i < l'.length),b'.elements i = l'[i]) :
    ({ v with data := some b', currentSize := n } : Vector α).Holds size l' := by
  refine ⟨hlength,halloc,h.max,h.incr,fun hzero => absurd hzero hpos,fun _ => ?_⟩
  obtain ⟨b₀,hdata₀,hbytes₀,-⟩ := h.block hpos
  rw [hdata] at hdata₀
  obtain rfl := Option.some_inj.mp hdata₀
  exact ⟨b',rfl,hbytes ▸ hbytes₀,helements⟩

/-- An element. -/
theorem elem_eq (h : v.Holds size l) {i : Word} (hi : i.toNat < l.length) :
    v.elem size i = some l[i.toNat] := by
  obtain ⟨b,hdata,hroom,helements⟩ := h.exists_block (hi.trans_le h.alloc)
  have halloc := h.alloc
  rw [Vector.elem,hdata,Option.bind_some,if_pos (hroom _ (by omega)),helements _ hi]

/-- The vector has the elements of the list. -/
theorem contains (h : v.Holds size l) : v.Contains size l := by
  have hlt := v.currentSize.isLt
  rw [h.length] at hlt
  refine ⟨h.length,fun i hi => ?_,?_,BitVec.le_def.mpr h.max⟩
  · have hone : (BitVec.ofNat 32 i).toNat = i := by
      rw [BitVec.toNat_ofNat]
      exact Nat.mod_eq_of_lt (hi.trans hlt)
    rw [h.elem_eq (by rw [hone]; exact hi)]
    simp only [hone]
  · rw [BitVec.le_def,h.length]
    exact h.alloc

end Vector.Holds

end Moves

section Insertions

variable {α : Type*} {size : ℕ} {v : Vector α} {l : List α} {heap : Option (ℕ → α)} {value : α}

/-- The size of a block in words. -/
theorem bytes_toNat {n : Word} (h : n.toNat * size < 2 ^ 32) :
    (n * BitVec.ofNat 32 size).toNat = n.toNat * size := by
  rw [BitVec.toNat_mul,BitVec.toNat_ofNat,Nat.mul_mod_mod]
  exact Nat.mod_eq_of_lt h

/-- A block that the heap answers with. -/
theorem resize_some (hsize : 0 < size) (fresh : ℕ → α) (data : Option (Block α)) {n : Word}
    (hn : n ≠ 0) (h : n.toNat * size < 2 ^ 32) :
    ∃ b,resize size (some fresh) data (n * BitVec.ofNat 32 size) = some b ∧
      b.bytes = n.toNat * size ∧
      ∀ old,data = some old → ∀ i,(i + 1) * size ≤ min old.bytes (n.toNat * size) →
        b.elements i = old.elements i := by
  have hbytes := bytes_toNat h
  have hpos : n * BitVec.ofNat 32 size ≠ 0 := by
    intro hzero
    rw [hzero] at hbytes
    have hn' : n.toNat ≠ 0 := fun he => hn (BitVec.eq_of_toNat_eq he)
    exact (Nat.mul_ne_zero hn' hsize.ne') hbytes.symm
  rw [resize,if_neg hpos]
  refine ⟨_,rfl,hbytes,?_⟩
  rintro old rfl i hi
  rw [←hbytes] at hi
  exact if_pos hi

/-- There is room for one more element after upSize, unless it returns false and has done
nothing. -/
theorem upSize_holds (hsize : 0 < size) (h : v.Holds size l) (hgrow : v.Grows size heap) :
    (v.room heap = true → ∃ v',v.upSize size heap = (true,v') ∧ v'.Holds size l ∧
      l.length < v'.allocatedSize.toNat ∧ v'.currentSize = v.currentSize) ∧
    (v.room heap = false → v.upSize size heap = (false,v)) := by
  have hlength := h.length
  have halloc := h.alloc
  have hmax := h.max
  have hincr := h.incr
  have hnew : (v.currentSize + 1).toNat = v.currentSize.toNat + 1 := by
    rw [BitVec.toNat_add]
    exact Nat.mod_eq_of_lt hgrow.count
  have hfull : v.maxSize < v.currentSize + 1 ↔ ¬v.currentSize < v.maxSize := by
    rw [BitVec.lt_def,BitVec.lt_def,hnew]
    omega
  have hspare : v.allocatedSize < v.currentSize + 1 ↔ ¬v.currentSize < v.allocatedSize := by
    rw [BitVec.lt_def,BitVec.lt_def,hnew]
    omega
  rw [Vector.upSize,Vector.room]
  by_cases hlt : v.currentSize < v.maxSize
  · rw [if_neg fun hm => hfull.mp hm hlt]
    by_cases hroom : v.currentSize < v.allocatedSize
    · rw [if_neg fun hm => hspare.mp hm hroom,decide_eq_true hlt,decide_eq_true hroom]
      refine ⟨fun _ => ⟨v,rfl,h,?_,rfl⟩,fun hfalse => absurd hfalse (by simp)⟩
      rw [←hlength]
      exact BitVec.lt_def.mp hroom
    · have heq : v.currentSize = v.allocatedSize := by
        refine BitVec.eq_of_toNat_eq ?_
        rw [BitVec.lt_def] at hroom
        omega
      have hsum : (v.allocatedSize + v.allocIncr).toNat =
          v.allocatedSize.toNat + v.allocIncr.toNat := by
        rw [BitVec.toNat_add]
        exact Nat.mod_eq_of_lt (hgrow.incr heq hlt)
      have hbytes := hgrow.bytes heq hlt
      have hsizes : v.allocatedSize.toNat < v.newAllocSize.toNat ∧
          v.newAllocSize.toNat ≤ v.maxSize.toNat := by
        rw [BitVec.lt_def,heq] at hlt
        rw [Vector.newAllocSize]
        split_ifs with hle
        · exact ⟨hlt,le_rfl⟩
        · rw [BitVec.lt_def,hsum] at hle
          rw [hsum]
          omega
      have hpos : v.newAllocSize ≠ 0 := by
        intro hzero
        rw [hzero] at hsizes
        exact Nat.not_lt_zero _ hsizes.1
      rw [if_pos (hspare.mpr hroom),decide_eq_true hlt,decide_eq_false hroom]
      cases heap with
      | none =>
        have hzero := hgrow.answer heq hlt rfl
        have hnone : resize size none v.data (v.newAllocSize * BitVec.ofNat 32 size) = none := by
          rw [resize]
          split_ifs <;> rfl
        rw [hnone,if_pos ⟨hpos,rfl⟩,←h.none (heq ▸ hzero)]
        exact ⟨fun hfalse => absurd hfalse (by simp),fun _ => rfl⟩
      | some fresh =>
        obtain ⟨b,hb,hbb,hkeep⟩ := resize_some hsize fresh v.data hpos hbytes
        rw [hb,if_neg (by simp)]
        refine ⟨fun _ => ⟨_,rfl,⟨hlength,?_,hsizes.2,hincr,?_,fun _ => ?_⟩,?_,rfl⟩,
          fun hfalse => absurd hfalse (by simp)⟩
        · exact halloc.trans hsizes.1.le
        · exact fun hzero => absurd hzero hpos
        · refine ⟨b,rfl,hbb.ge,fun i hi => ?_⟩
          obtain ⟨old,hold,hroom',helements⟩ := h.exists_block (hi.trans_le halloc)
          have hi' : i + 1 ≤ v.newAllocSize.toNat := by omega
          rw [hkeep old hold i (le_min (hroom' _ (by omega)) (Nat.mul_le_mul_right size hi')),
            helements i hi]
        · exact halloc.trans_lt hsizes.1
  · rw [if_pos (hfull.mpr hlt),decide_eq_false hlt]
    exact ⟨fun hfalse => absurd hfalse (by simp),fun _ => rfl⟩

/-- An element is put where there is room for it. -/
theorem insert_holds (h : v.Holds size l) (hroom : l.length < v.allocatedSize.toNat) {k : Word}
    (hk : k.toNat ≤ l.length) :
    ∃ v',((v.move size (k + 1) k (v.currentSize - k)).bind fun v =>
        (v.put size k value).bind fun v => some (true,v.grown)) = some (true,v') ∧
      v'.Holds size (l.insertIdx k.toNat value) := by
  obtain ⟨b,hdata,hbytes,helements⟩ := h.exists_block hroom
  have hlength := h.length
  have hlt := v.allocatedSize.isLt
  have hnext : (k + 1).toNat = k.toNat + 1 := by
    rw [BitVec.toNat_add]
    exact Nat.mod_eq_of_lt (show k.toNat + 1 < 2 ^ 32 by omega)
  have hrest : (v.currentSize - k).toNat = l.length - k.toNat := by
    rw [BitVec.toNat_sub_of_le (BitVec.le_def.mpr (hlength ▸ hk)),hlength]
  have hpos : v.allocatedSize ≠ 0 := by
    intro hzero
    rw [hzero] at hroom
    exact Nat.not_lt_zero _ hroom
  obtain ⟨b',hmove,hb',helements'⟩ := move_block (k + 1) k (v.currentSize - k) hdata
    fun _ => hbytes _ (by rw [hnext,hrest]; omega)
  rw [hmove,Option.bind_some,put_block rfl (by rw [hb']; exact hbytes _ (by omega)),
    Option.bind_some]
  refine ⟨_,rfl,h.with_block (l.insertIdx k.toNat value) hdata hb' ?_ ?_ hpos
    fun i hi => ?_⟩
  · rw [List.length_insertIdx_of_le_length hk,←hlength,BitVec.toNat_add]
    exact Nat.mod_eq_of_lt (show v.currentSize.toNat + 1 < 2 ^ 32 by omega)
  · rw [List.length_insertIdx_of_le_length hk]
    exact hroom
  · rw [List.length_insertIdx_of_le_length hk] at hi
    rw [List.getElem_insertIdx]
    simp only [Function.update_apply,helements',hnext,hrest]
    by_cases hbefore : i < k.toNat
    · rw [if_neg (by omega),if_neg (by omega),dif_pos hbefore,helements i (by omega)]
    · rw [dif_neg hbefore]
      by_cases hself : i = k.toNat
      · rw [if_pos hself,dif_pos hself]
      · rw [if_neg hself,if_pos (by omega),dif_neg hself]
        have hi' : k.toNat + (i - (k.toNat + 1)) = i - 1 := by omega
        rw [hi',helements _ (by omega)]

end Insertions

section Changes

variable {α : Type*} {size : ℕ} {v : Vector α} {l : List α} {value : α}

/-- A size that is not reached. -/
theorem le_iff_length (h : v.Holds size l) (idx : Word) :
    v.currentSize ≤ idx ↔ ¬idx.toNat < l.length := by
  rw [BitVec.le_def,h.length,Nat.not_lt]

/-- An element is written. -/
theorem put_holds (h : v.Holds size l) {idx : Word} (hidx : idx.toNat < l.length) (value : α) :
    ∃ v',v.put size idx value = some v' ∧ v'.Holds size (l.set idx.toNat value) ∧
      v'.currentSize = v.currentSize := by
  obtain ⟨b,hdata,hbytes,helements⟩ := h.exists_block (hidx.trans_le h.alloc)
  have halloc := h.alloc
  have hpos : v.allocatedSize ≠ 0 := by
    intro hzero
    rw [hzero] at halloc
    exact Nat.not_lt_zero _ (hidx.trans_le halloc)
  rw [put_block hdata (hbytes _ (by omega))]
  refine ⟨_,rfl,h.with_block (l.set idx.toNat value) hdata rfl ?_ ?_ hpos fun i hi => ?_,rfl⟩
  · rw [List.length_set,h.length]
  · rw [List.length_set]
    exact halloc
  · rw [List.length_set] at hi
    simp only [Function.update_apply]
    rw [List.getElem_set]
    by_cases hself : i = idx.toNat
    · rw [if_pos hself,if_pos hself.symm]
    · rw [if_neg hself,if_neg fun he => hself he.symm,helements i hi]

/-- Set. -/
theorem set_holds (h : v.Holds size l) (idx : Word) (value : α) :
    ∃ v',v.set size idx value = some (decide (idx.toNat < l.length),v') ∧
      v'.Holds size (l.set idx.toNat value) ∧ (¬idx.toNat < l.length → v' = v) := by
  have hle := le_iff_length h idx
  rw [Vector.set]
  by_cases hidx : idx.toNat < l.length
  · obtain ⟨v',hput,hholds,-⟩ := put_holds h hidx value
    rw [if_neg fun hm => hle.mp hm hidx,hput,decide_eq_true hidx]
    exact ⟨v',rfl,hholds,fun hn => absurd hidx hn⟩
  · rw [if_pos (hle.mpr hidx),decide_eq_false hidx,
      List.set_eq_of_length_le (Nat.not_lt.mp hidx)]
    exact ⟨v,rfl,h,fun _ => rfl⟩

/-- RemoveAt. -/
theorem removeAt_holds (h : v.Holds size l) (idx : Word) :
    ∃ v',v.removeAt size idx = some (decide (idx.toNat < l.length),v') ∧
      v'.Holds size (l.eraseIdx idx.toNat) ∧ (¬idx.toNat < l.length → v' = v) := by
  have hle := le_iff_length h idx
  have hlength := h.length
  have halloc := h.alloc
  rw [Vector.removeAt]
  by_cases hidx : idx.toNat < l.length
  · obtain ⟨b,hdata,hbytes,helements⟩ := h.exists_block (hidx.trans_le halloc)
    have hlt := v.currentSize.isLt
    have hpos : v.allocatedSize ≠ 0 := by
      intro hzero
      rw [hzero] at halloc
      exact Nat.not_lt_zero _ (hidx.trans_le halloc)
    have hnext : (idx + 1).toNat = idx.toNat + 1 := by
      rw [BitVec.toNat_add]
      exact Nat.mod_eq_of_lt (show idx.toNat + 1 < 2 ^ 32 by omega)
    have hrest : (v.currentSize - idx - 1).toNat = l.length - idx.toNat - 1 := by
      bv_omega
    obtain ⟨b',hmove,hb',helements'⟩ := move_block idx (idx + 1) (v.currentSize - idx - 1) hdata
      fun _ => hbytes _ (by rw [hnext,hrest]; omega)
    rw [if_neg fun hm => hle.mp hm hidx,hmove,decide_eq_true hidx]
    refine ⟨_,rfl,h.with_block (l.eraseIdx idx.toNat) hdata hb' ?_ ?_ hpos fun i hi => ?_,
      fun hn => absurd hidx hn⟩
    · rw [List.length_eraseIdx_of_lt hidx]
      bv_omega
    · rw [List.length_eraseIdx_of_lt hidx]
      omega
    · rw [List.length_eraseIdx_of_lt hidx] at hi
      rw [helements',hnext,hrest,List.getElem_eraseIdx]
      by_cases hbefore : i < idx.toNat
      · rw [if_neg (by omega),dif_pos hbefore,helements i (by omega)]
      · rw [if_pos (by omega),dif_neg hbefore]
        have hi' : idx.toNat + 1 + (i - idx.toNat) = i + 1 := by omega
        rw [hi',helements _ (by omega)]
  · rw [if_pos (hle.mpr hidx),decide_eq_false hidx,
      List.eraseIdx_of_length_le (Nat.not_lt.mp hidx)]
    exact ⟨v,rfl,h,fun _ => rfl⟩

/-- Swap. -/
theorem swap_holds (h : v.Holds size l) {idx1 idx2 : Word} (h1 : idx1.toNat < l.length)
    (h2 : idx2.toNat < l.length) :
    ∃ v',v.swap size idx1 idx2 = some (true,v') ∧
      v'.Holds size ((l.set idx2.toNat l[idx1.toNat]).set idx1.toNat l[idx2.toNat]) := by
  obtain ⟨v',hput,hholds,-⟩ := put_holds h h2 l[idx1.toNat]
  have h1' : idx1.toNat < (l.set idx2.toNat l[idx1.toNat]).length := by
    rw [List.length_set]
    exact h1
  obtain ⟨v'',hput',hholds',-⟩ := put_holds hholds h1' l[idx2.toNat]
  rw [Vector.swap,if_neg (by rw [le_iff_length h,le_iff_length h]; tauto),h.elem_eq h2,
    h.elem_eq h1]
  refine ⟨v'',?_,hholds'⟩
  simp only [Option.bind_eq_bind,Option.bind_some,hput,hput']

/-- Swap with an element that is not there. -/
theorem swap_outside (h : v.Holds size l) {idx1 idx2 : Word}
    (hout : ¬idx1.toNat < l.length ∨ ¬idx2.toNat < l.length) :
    v.swap size idx1 idx2 = some (false,v) := by
  rw [Vector.swap,if_pos (by rw [le_iff_length h,le_iff_length h]; exact hout)]

/-- A value that was not found so far, and is not the next element. -/
theorem not_mem_take_succ {i : ℕ} (hi : i < l.length) (hbefore : value ∉ l.take i)
    (hne : value ≠ l[i]) : value ∉ l.take (i + 1) := by
  rw [List.take_succ_eq_append_getElem hi,List.mem_append,List.mem_singleton]
  rintro (hm | hm)
  · exact hbefore hm
  · exact hne hm

/-- The number of the next element. -/
theorem next_toNat (h : v.Holds size l) {i : Word} (hi : i.toNat < l.length) :
    (i + 1).toNat = i.toNat + 1 := by
  have hlt := v.currentSize.isLt
  rw [h.length] at hlt
  rw [BitVec.toNat_add]
  exact Nat.mod_eq_of_lt (show i.toNat + 1 < 2 ^ 32 by omega)

variable [DecidableEq α]

/-- The loop of RemoveOne behind elements that differ from the value. -/
theorem removeOneFrom_holds (h : v.Holds size l) {fuel : ℕ} {i : Word}
    (hi : i.toNat ≤ l.length) (hfuel : l.length < i.toNat + fuel)
    (hbefore : value ∉ l.take i.toNat) :
    ∃ v',v.removeOneFrom size value fuel i = some (decide (value ∈ l),v') ∧
      v'.Holds size (l.erase value) ∧ (value ∉ l → v' = v) := by
  induction fuel generalizing i with
  | zero => omega
  | succ fuel ih =>
    have hlt : i < v.currentSize ↔ i.toNat < l.length := by
      rw [BitVec.lt_def,h.length]
    rw [Vector.removeOneFrom]
    by_cases hin : i.toNat < l.length
    · rw [if_pos (hlt.mpr hin),h.elem_eq hin]
      simp only [Option.bind_eq_bind,Option.bind_some]
      by_cases heq : value = l[i.toNat]
      · obtain ⟨v',hremove,hholds,-⟩ := removeAt_holds h i
        have hmem : value ∈ l := heq ▸ List.getElem_mem hin
        rw [if_pos heq,hremove,decide_eq_true hin,decide_eq_true hmem]
        have hsplit : l = l.take i.toNat ++ l[i.toNat] :: l.drop (i.toNat + 1) := by
          rw [←List.drop_eq_getElem_cons hin,List.take_append_drop]
        have herase : l.erase value = l.eraseIdx i.toNat := by
          rw [List.eraseIdx_eq_take_drop_succ]
          conv_lhs => rw [hsplit]
          rw [List.erase_append_right _ hbefore,←heq,List.erase_cons_head]
        rw [herase]
        exact ⟨v',rfl,hholds,fun hn => absurd hmem hn⟩
      · rw [if_neg heq]
        have hnext := next_toNat h hin
        exact ih (by omega) (by omega) (hnext ▸ not_mem_take_succ hin hbefore heq)
    · rw [List.take_of_length_le (Nat.not_lt.mp hin)] at hbefore
      rw [if_neg fun hm => hin (hlt.mp hm),List.erase_of_not_mem hbefore,
        decide_eq_false hbefore]
      exact ⟨v,rfl,h,fun _ => rfl⟩

/-- The loop of RemoveAll behind elements that differ from the value. -/
theorem removeAllFrom_holds (h : v.Holds size l) {fuel : ℕ} {i res : Word}
    (hi : i.toNat ≤ l.length) (hfuel : l.length < i.toNat + fuel)
    (hbefore : value ∉ l.take i.toNat) (hres : res.toNat + l.count value < 2 ^ 32) :
    ∃ res' v',Vector.removeAllFrom size value fuel v res i = some (res',v') ∧
      res'.toNat = res.toNat + l.count value ∧ v'.Holds size (l.filter (· ≠ value)) := by
  induction fuel generalizing v l i res with
  | zero => omega
  | succ fuel ih =>
    have hlt : i < v.currentSize ↔ i.toNat < l.length := by
      rw [BitVec.lt_def,h.length]
    rw [Vector.removeAllFrom]
    by_cases hin : i.toNat < l.length
    · rw [if_pos (hlt.mpr hin),h.elem_eq hin]
      simp only [Option.bind_eq_bind,Option.bind_some]
      by_cases heq : value = l[i.toNat]
      · obtain ⟨v',hremove,hholds,-⟩ := removeAt_holds h i
        rw [if_pos heq,hremove,decide_eq_true hin]
        simp only [Option.bind_some,if_true]
        have hsplit : l = l.take i.toNat ++ l[i.toNat] :: l.drop (i.toNat + 1) := by
          rw [←List.drop_eq_getElem_cons hin,List.take_append_drop]
        have hrest : l.eraseIdx i.toNat = l.take i.toNat ++ l.drop (i.toNat + 1) :=
          List.eraseIdx_eq_take_drop_succ ..
        have hcount : l.count value = (l.eraseIdx i.toNat).count value + 1 := by
          rw [hrest]
          conv_lhs => rw [hsplit]
          rw [←heq,List.count_append,List.count_cons_self,List.count_append,Nat.add_assoc]
        have hfilter : l.filter (· ≠ value) = (l.eraseIdx i.toNat).filter (· ≠ value) := by
          rw [hrest]
          conv_lhs => rw [hsplit]
          rw [←heq,List.filter_append,List.filter_append,List.filter_cons_of_neg (by simp)]
        have hlen := List.length_eraseIdx_of_lt hin
        have hstay : i - 1 + 1 = i := by bv_omega
        have hsum : (res + 1).toNat = res.toNat + 1 := by
          rw [BitVec.toNat_add]
          exact Nat.mod_eq_of_lt (show res.toNat + 1 < 2 ^ 32 by omega)
        have htake : (l.eraseIdx i.toNat).take i.toNat = l.take i.toNat := by
          rw [hrest,List.take_append_of_le_length (by rw [List.length_take]; omega),
            List.take_take,Nat.min_self]
        rw [hstay,hfilter,hcount]
        obtain ⟨res',v'',hloop,hres',hholds'⟩ := ih hholds (by omega)
          (by omega) (htake ▸ hbefore) (show (res + 1).toNat + _ < 2 ^ 32 by omega)
        exact ⟨res',v'',hloop,by omega,hholds'⟩
      · rw [if_neg heq]
        have hnext := next_toNat h hin
        exact ih h (by omega) (by omega) (hnext ▸ not_mem_take_succ hin hbefore heq) hres
    · rw [List.take_of_length_le (Nat.not_lt.mp hin)] at hbefore
      rw [if_neg fun hm => hin (hlt.mp hm),List.count_eq_zero_of_not_mem hbefore]
      have hfilter : l.filter (· ≠ value) = l := by
        rw [List.filter_eq_self]
        intro x hx
        exact decide_eq_true fun he => hbefore (he ▸ hx)
      rw [hfilter]
      exact ⟨res,v,rfl,rfl,h⟩

end Changes

section Refinement

variable {α : Type*} {size : ℕ} {v : Vector α} {l : List α} {heap : Option (ℕ → α)} {value : α}

/-- The call has gone as on the list. -/
def Goes (size : ℕ) (v : Vector α) (r : Option (Answer × Vector α)) (s : Answer × List α) : Prop :=
  ∃ v',r = some (s.1,v') ∧ v'.Holds size s.2 ∧ (s.1 = .flag false → v' = v)

/-- A call that needs room, and then puts an element somewhere. -/
theorem insert_goes (hsize : 0 < size) (h : v.Holds size l) (hgrow : v.Grows size heap) (k : Word)
    (hk : k.toNat ≤ l.length) (f : Vector α → Option (Bool × Vector α))
    (hf : ∀ w : Vector α,w.currentSize = v.currentSize → f w =
      (w.move size (k + 1) k (w.currentSize - k)).bind fun w =>
        (w.put size k value).bind fun w => some (true,w.grown)) :
    Goes size v ((if (v.upSize size heap).1 then f (v.upSize size heap).2
        else some (false,(v.upSize size heap).2)).map fun r => (Answer.flag r.1,r.2))
      (insertStep (v.room heap) l k.toNat value) := by
  obtain ⟨hroom,hnone⟩ := upSize_holds hsize h hgrow
  cases hv : v.room heap with
  | true =>
    obtain ⟨w,hup,hw,hlt,hcs⟩ := hroom hv
    obtain ⟨v',hinsert,hv'⟩ := insert_holds hw hlt hk
    rw [hup,if_pos rfl,hf w hcs,hinsert]
    exact ⟨v',rfl,hv',fun hfalse => by cases hfalse⟩
  | false =>
    rw [hnone hv]
    exact ⟨v,rfl,h,fun _ => rfl⟩

variable [DecidableEq α]

/-- A call goes as on the list. -/
theorem step_goes (hsize : 0 < size) (h : v.Holds size l) (op : Op α)
    (hgrow : op.inserts = true → v.Grows size heap) :
    Goes size v (v.step size heap op) (listStep (v.room heap) l op) := by
  have hlength := h.length
  have hlt := v.currentSize.isLt
  cases op with
  | append value =>
    rw [listStep,←hlength]
    refine insert_goes hsize h (hgrow rfl) v.currentSize hlength.le (fun w =>
      (w.put size w.currentSize value).bind fun w => some (true,w.grown)) fun w hcs => ?_
    rw [hcs,BitVec.sub_self,Vector.move,if_pos (.inl rfl)]
    rfl
  | prepend value =>
    refine insert_goes hsize h (hgrow rfl) 0#32 (Nat.zero_le _) (fun w =>
      (w.move size 1 0 w.currentSize).bind fun w =>
        (w.put size 0 value).bind fun w => some (true,w.grown)) fun w hcs => ?_
    rw [BitVec.sub_zero]
    rfl
  | insertBefore idx value =>
    have hk : (if v.currentSize < idx then v.currentSize else idx).toNat =
        min idx.toNat l.length := by
      split_ifs with hout
      · rw [BitVec.lt_def] at hout
        omega
      · rw [BitVec.lt_def] at hout
        omega
    rw [listStep,←hk]
    refine insert_goes hsize h (hgrow rfl) _ (hk ▸ Nat.min_le_right _ _) (fun w =>
      (w.move size (1 + if v.currentSize < idx then v.currentSize else idx)
        (if v.currentSize < idx then v.currentSize else idx)
        (w.currentSize - if v.currentSize < idx then v.currentSize else idx)).bind fun w =>
          (w.put size (if v.currentSize < idx then v.currentSize else idx) value).bind fun w =>
            some (true,w.grown)) fun w hcs => ?_
    rw [BitVec.add_comm 1]
  | insertAfter idx value =>
    have hk : ((if v.currentSize ≤ idx then v.currentSize - 1 else idx) + 1).toNat =
        min (idx.toNat + 1) l.length := by
      split_ifs with hout
      · bv_omega
      · bv_omega
    rw [listStep,←hk]
    refine insert_goes hsize h (hgrow rfl) _ (hk ▸ Nat.min_le_right _ _) (fun w =>
      (w.move size (2 + if v.currentSize ≤ idx then v.currentSize - 1 else idx)
        (1 + if v.currentSize ≤ idx then v.currentSize - 1 else idx)
        (w.currentSize - (if v.currentSize ≤ idx then v.currentSize - 1 else idx) - 1)).bind
          fun w => (w.put size ((if v.currentSize ≤ idx then v.currentSize - 1 else idx) + 1)
            value).bind fun w => some (true,w.grown)) fun w hcs => ?_
    generalize (if v.currentSize ≤ idx then v.currentSize - 1 else idx) = k
    have hdst : k + 1 + 1 = 2 + k := by bv_omega
    have hn : w.currentSize - (k + 1) = w.currentSize - k - 1 := by bv_omega
    rw [hdst,hn,BitVec.add_comm k 1]
  | set idx value =>
    obtain ⟨v',hset,hholds,hsame⟩ := set_holds h idx value
    rw [Vector.step,listStep,hset]
    by_cases hidx : idx.toNat < l.length
    · rw [if_pos hidx,decide_eq_true hidx]
      exact ⟨v',rfl,hholds,fun hfalse => by cases hfalse⟩
    · rw [if_neg hidx,decide_eq_false hidx,hsame hidx]
      exact ⟨v,rfl,h,fun _ => rfl⟩
  | removeAt idx =>
    obtain ⟨v',hremove,hholds,hsame⟩ := removeAt_holds h idx
    rw [Vector.step,listStep,hremove]
    by_cases hidx : idx.toNat < l.length
    · rw [if_pos hidx,decide_eq_true hidx]
      exact ⟨v',rfl,hholds,fun hfalse => by cases hfalse⟩
    · rw [if_neg hidx,decide_eq_false hidx,hsame hidx]
      exact ⟨v,rfl,h,fun _ => rfl⟩
  | removeOne value =>
    obtain ⟨v',hremove,hholds,hsame⟩ : ∃ v',v.removeOneFrom size value (v.currentSize.toNat + 1) 0 =
        some (decide (value ∈ l),v') ∧ v'.Holds size (l.erase value) ∧ (value ∉ l → v' = v) :=
      removeOneFrom_holds h (Nat.zero_le _) (show _ < 0 + _ by omega) (by simp)
    rw [Vector.step,Vector.removeOne,hremove]
    refine ⟨v',rfl,hholds,fun hfalse => hsame ?_⟩
    simpa [listStep] using hfalse
  | removeAll value =>
    have hcount : l.count value ≤ l.length := List.count_le_length
    obtain ⟨res,v',hremove,hres,hholds⟩ : ∃ res v',
        Vector.removeAllFrom size value (v.currentSize.toNat + 1) v 0 0 = some (res,v') ∧
          res.toNat = (0 : Word).toNat + l.count value ∧ v'.Holds size (l.filter (· ≠ value)) :=
      removeAllFrom_holds h (Nat.zero_le _) (show _ < 0 + _ by omega) (by simp)
        (show 0 + l.count value < 2 ^ 32 by omega)
    rw [Vector.step,Vector.removeAll,hremove]
    refine ⟨v',?_,hholds,fun hfalse => by cases hfalse⟩
    rw [listStep,Option.map_some,hres,show (0 : Word).toNat = 0 from rfl,Nat.zero_add]
  | swap idx1 idx2 =>
    rw [Vector.step,listStep]
    by_cases hin : idx1.toNat < l.length ∧ idx2.toNat < l.length
    · obtain ⟨v',hswap,hholds⟩ := swap_holds h hin.1 hin.2
      rw [hswap,List.getElem?_eq_getElem hin.1,List.getElem?_eq_getElem hin.2]
      exact ⟨v',rfl,hholds,fun hfalse => by cases hfalse⟩
    · have hout : ¬idx1.toNat < l.length ∨ ¬idx2.toNat < l.length := by tauto
      have hspec : (match l[idx1.toNat]?,l[idx2.toNat]? with
          | some x,some y => (Answer.flag true,(l.set idx2.toNat x).set idx1.toNat y)
          | _,_ => (Answer.flag false,l)) = (Answer.flag false,l) := by
        split
        · rename_i x y hx hy
          obtain ⟨h1,-⟩ := List.getElem?_eq_some_iff.mp hx
          obtain ⟨h2,-⟩ := List.getElem?_eq_some_iff.mp hy
          exact absurd ⟨h1,h2⟩ hin
        · rfl
      rw [swap_outside h hout,hspec]
      exact ⟨v,rfl,h,fun _ => rfl⟩

/-- A run in which every call can grow the vector goes as on a list. -/
theorem run_follows (hsize : 0 < size) (h : v.Holds size l) {ops : List (Op α × Option (ℕ → α))}
    (hgrow : AllGrow size v ops) : Follows size v l ops := by
  induction ops generalizing v l with
  | nil => exact h.contains
  | cons call ops ih =>
    obtain ⟨op,heap⟩ := call
    obtain ⟨v',hstep,hholds,hsame⟩ := step_goes hsize h op hgrow.1
    exact ⟨h.contains,v',hstep,hsame,ih hholds (hgrow.2 _ hstep)⟩

/-- Every run of a new vector whose first block is there goes as on a list, as long as every
call can grow the vector. -/
theorem vector_follows {preAlloc allocIncr maxSize : Word} {heap : Option (ℕ → α)}
    {ops : List (Op α × Option (ℕ → α))} (hsize : 0 < size) (hincr : 1 ≤ allocIncr.toNat)
    (hbytes : (Vector.new size preAlloc allocIncr maxSize heap).allocatedSize.toNat * size < 2 ^ 32)
    (hheap : (Vector.new size preAlloc allocIncr maxSize heap).allocatedSize ≠ 0 → heap ≠ none)
    (hgrow : AllGrow size (Vector.new size preAlloc allocIncr maxSize heap) ops) :
    Follows size (Vector.new size preAlloc allocIncr maxSize heap) [] ops := by
  refine run_follows hsize ⟨rfl,Nat.zero_le _,?_,hincr,fun hzero => ?_,fun hpos => ?_⟩ hgrow
  · simp only [Vector.new]
    split_ifs with hlt
    · exact le_rfl
    · exact Nat.not_lt.mp fun hm => hlt (BitVec.lt_def.mpr hm)
  · simp only [Vector.new] at hzero ⊢
    rw [hzero,resize,if_pos (zero_mul _)]
  · obtain ⟨fresh,rfl⟩ := Option.ne_none_iff_exists'.mp (hheap hpos)
    obtain ⟨b,hb,hbb,-⟩ := resize_some hsize fresh none hpos hbytes
    exact ⟨b,hb,hbb.ge,fun i hi => absurd hi (Nat.not_lt_zero i)⟩

/-- A vector of numbers with room for one. -/
def small : Vector ℕ := Vector.new 4 1 1 8 (some fun _ => 0)

/-- Two numbers. -/
def twoNumbers (heap : Option (ℕ → ℕ)) : List (Op ℕ × Option (ℕ → ℕ)) :=
  [(.append 5,none),(.append 6,heap)]

theorem vector_follows_small : Follows 4 small [] (twoNumbers (some fun _ => 0)) := by
  refine vector_follows (by decide) (by decide) (by decide) (fun _ hnone => by cases hnone) ?_
  refine ⟨fun _ => ⟨by decide,?_,?_,?_⟩,fun r hr => ?_⟩
  · exact fun heq => absurd heq (by decide)
  · exact fun heq => absurd heq (by decide)
  · exact fun heq => absurd heq (by decide)
  · obtain rfl := Option.some_inj.mp hr
    refine ⟨fun _ => ⟨by decide,?_,?_,?_⟩,fun r _ => trivial⟩
    · exact fun _ _ => by decide
    · exact fun _ _ => by decide
    · exact fun _ _ hnone => by cases hnone

/-- Where the heap answers with null, the vector loses its block. -/
theorem null_not_follows : ¬Follows 4 small [] (twoNumbers none) := by
  rintro ⟨-,v,hstep,-,-,v',hstep',hsame,-⟩
  obtain rfl := congrArg Prod.snd (Option.some_inj.mp hstep)
  have hdata := congrArg Vector.data (hsame rfl)
  obtain rfl := congrArg Prod.snd (Option.some_inj.mp hstep')
  cases hdata

end Refinement

end WootOs.Vectors
