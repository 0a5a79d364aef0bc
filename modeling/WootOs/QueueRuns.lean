import Mathlib.Data.BitVec
import WootOs.ByteMemory
import WootOs.Paging
import WootOs.RingQueue

/-!
# Runs of the bounded queue

Queue in the words that it is written in: the capacity is a size_t, the two slots
are unsigned, and the element numbers of Peek and Remove are ints, which are
compared with the number of elements as unsigned numbers. The sums of a slot and
an element number do not go around, because the array lies in kernel space and
has at most 2^30 elements. Each call answers what a list of limited length
answers.
-/

namespace WootOs.QueueRuns

open RingQueue ByteMemory

section Calls

variable {α : Type*}

/-- Queue. -/
structure Queue (α : Type*) where
  /-- Data. -/
  data : ℕ → α
  /-- Capacity. -/
  capacity : Word
  /-- Head. -/
  head : Word
  /-- Tail. -/
  tail : Word
  /-- Full. -/
  full : Bool

/-- What new T[capacity] returns. -/
structure Elements (α : Type*) (capacity : Word) where
  /-- The address of the array. -/
  address : ℕ
  /-- The size of an element. -/
  size : ℕ
  /-- What the constructor of an element leaves. -/
  data : ℕ → α
  /-- An element has a byte. -/
  size_pos : 0 < size
  /-- The heap is in kernel space. -/
  kernel : Paging.kernelBase ≤ address
  /-- The array ends before the address space does. -/
  space : address + capacity.toNat * size ≤ 2 ^ 32

namespace Queue

/-- The constructor. -/
def new (capacity : Word) (elements : Elements α capacity) : Queue α :=
  ⟨elements.data,capacity,0,0,false⟩

variable (q : Queue α)

/-- Queue::getIndex. -/
def getIndex (elem : Word) : Word := (q.tail + elem) % q.capacity

/-- Queue::IsEmpty. -/
def isEmpty : Bool := q.head == q.tail && !q.full

/-- Queue::IsFull. -/
def isFull : Bool := q.full

/-- Queue::Write. -/
def write (value : α) : Bool × Queue α :=
  if q.full then (false,q)
  else
    (true,
      { q with
        data := Function.update q.data q.head.toNat value
        head := (q.head + 1) % q.capacity
        full := (q.head + 1) % q.capacity == q.tail })

/-- The queue behind its first element. -/
def dropFirst : Queue α := { q with tail := (q.tail + 1) % q.capacity, full := false }

/-- Queue::Count. -/
def count : Word :=
  if q.isEmpty then 0
  else if q.tail < q.head then q.head - q.tail
  else q.capacity - q.tail + q.head

/-- The loop of Remove. -/
def shiftUp : ℕ → (ℕ → α) → ℕ → α
  | 0,data => data
  | i+1,data =>
    shiftUp i (Function.update data (q.getIndex (BitVec.ofNat 32 (i+1))).toNat
      (data (q.getIndex (BitVec.ofNat 32 (i+1) - 1)).toNat))

/-- Queue::Remove. -/
def remove (elem : Word) : Word × Queue α :=
  if q.count ≤ elem then (0,q)
  else if elem = 0 then (1,q.dropFirst)
  else if elem = q.count - 1 then
    (1,{ q with head := if q.head = 0 then q.capacity - 1 else q.head - 1, full := false })
  else (1,{ q.dropFirst with data := q.shiftUp elem.toNat q.data })

section Defaults

variable [Inhabited α]

/-- Queue::Read. -/
def read : (Bool × α) × Queue α :=
  if q.isEmpty then ((false,default),q) else ((true,q.data q.tail.toNat),q.dropFirst)

/-- Queue::Peek. -/
def peek : Bool × α := if q.isEmpty then (false,default) else (true,q.data q.tail.toNat)

/-- Queue::Peek, with the number of an element. -/
def peekAt (elem : Word) : Bool × α :=
  if q.count ≤ elem then (false,default) else (true,q.data (q.getIndex elem).toNat)

/-- The loop of Clear, if it ends in so many rounds. -/
def clearLoop : ℕ → Queue α → Option (Queue α)
  | 0,_ => none
  | fuel+1,q => if q.read.1.1 then clearLoop fuel q.read.2 else some q.read.2

end Defaults

variable [DecidableEq α]

/-- The loop of RemoveFirst, with so many elements left. -/
def removeFrom (value : α) : ℕ → Word → Word × Queue α
  | 0,_ => (0,q)
  | left+1,i =>
    if q.data (q.getIndex i).toNat = value then q.remove i else removeFrom value left (i+1)

/-- Queue::RemoveFirst. -/
def removeFirst (value : α) : Word × Queue α :=
  if q.isEmpty then (0,q) else q.removeFrom value q.count.toNat 0

end Queue

/-- A call. -/
inductive Op (α : Type*) where
  /-- Write. -/
  | write (value : α)
  /-- Read. -/
  | read
  /-- Peek. -/
  | peek
  /-- Peek, with the number of an element. -/
  | peekAt (elem : Word)
  /-- Count. -/
  | count
  /-- IsEmpty. -/
  | isEmpty
  /-- IsFull. -/
  | isFull
  /-- Remove. -/
  | remove (elem : Word)
  /-- RemoveFirst. -/
  | removeFirst (value : α)
  /-- Clear. -/
  | clear

/-- What a call returns. -/
inductive Answer (α : Type*) where
  /-- Whether it has been done. -/
  | flag (ok : Bool)
  /-- Whether there is an element, and the element. -/
  | element (ok : Bool) (value : α)
  /-- A number. -/
  | number (n : ℕ)
  /-- Nothing. -/
  | done
  /-- A loop goes on. -/
  | hung

variable [Inhabited α] [DecidableEq α]

/-- A call and what it returns. -/
def Queue.step (q : Queue α) : Op α → Answer α × Queue α
  | .write value => (.flag (q.write value).1,(q.write value).2)
  | .read => (.element q.read.1.1 q.read.1.2,q.read.2)
  | .peek => (.element q.peek.1 q.peek.2,q)
  | .peekAt elem => (.element (q.peekAt elem).1 (q.peekAt elem).2,q)
  | .count => (.number q.count.toNat,q)
  | .isEmpty => (.flag q.isEmpty,q)
  | .isFull => (.flag q.isFull,q)
  | .remove elem => (.number (q.remove elem).1.toNat,(q.remove elem).2)
  | .removeFirst value => (.number (q.removeFirst value).1.toNat,(q.removeFirst value).2)
  | .clear =>
    match q.clearLoop (q.capacity.toNat + 1) with
    | some q' => (.done,q')
    | none => (.hung,q)

/-- A call on a list of at most so many elements. -/
def listStep (capacity : ℕ) (l : List α) : Op α → Answer α × List α
  | .write value => if l.length = capacity then (.flag false,l) else (.flag true,l ++ [value])
  | .read =>
    match l with
    | [] => (.element false default,[])
    | x::l => (.element true x,l)
  | .peek =>
    match l with
    | [] => (.element false default,l)
    | x::_ => (.element true x,l)
  | .peekAt elem =>
    if elem.toInt < 0 then (.element false default,l)
    else
      match l[elem.toInt.toNat]? with
      | none => (.element false default,l)
      | some x => (.element true x,l)
  | .count => (.number l.length,l)
  | .isEmpty => (.flag l.isEmpty,l)
  | .isFull => (.flag (l.length = capacity),l)
  | .remove elem =>
    if 0 ≤ elem.toInt ∧ elem.toInt < l.length then (.number 1,l.eraseIdx elem.toInt.toNat)
    else (.number 0,l)
  | .removeFirst value => if value ∈ l then (.number 1,l.erase value) else (.number 0,l)
  | .clear => (.done,[])

/-- The answers to some calls on a queue. -/
def Queue.run (q : Queue α) : List (Op α) → List (Answer α)
  | [] => []
  | op::ops => (q.step op).1 :: (q.step op).2.run ops

/-- The answers to some calls on a list. -/
def listRun (capacity : ℕ) (l : List α) : List (Op α) → List (Answer α)
  | [] => []
  | op::ops => (listStep capacity l op).1 :: listRun capacity (listStep capacity l op).2 ops

end Calls

section Rings

variable {α : Type*} {q : Queue α}

/-- The slots are in the array, and sums of two slots do not go around. -/
structure Queue.Valid (q : Queue α) : Prop where
  /-- There is a slot. -/
  capacity_pos : 0 < q.capacity.toNat
  /-- There are few enough of them. -/
  capacity_le : q.capacity.toNat ≤ 2 ^ 31
  /-- The slot of the next write exists. -/
  head_lt : q.head.toNat < q.capacity.toNat
  /-- The slot of the next read exists. -/
  tail_lt : q.tail.toNat < q.capacity.toNat
  /-- A full ring writes where it reads. -/
  full_eq : q.full = true → q.head = q.tail

/-- The ring of a queue. -/
def Queue.ring (q : Queue α) (h : q.Valid) : BoundedQueue α where
  data := q.data
  capacity := q.capacity.toNat
  head := q.head.toNat
  tail := q.tail.toNat
  full := q.full
  capacity_pos := h.capacity_pos
  head_lt := h.head_lt
  tail_lt := h.tail_lt
  full_eq := fun hf => congrArg BitVec.toNat (h.full_eq hf)

/-- A queue with a ring. -/
theorem ring_eq {r : BoundedQueue α} (hdata : q.data = r.data) (hle : r.capacity ≤ 2 ^ 31)
    (hcapacity : q.capacity.toNat = r.capacity) (hhead : q.head.toNat = r.head)
    (htail : q.tail.toNat = r.tail) (hfull : q.full = r.full) : ∃ h : q.Valid,q.ring h = r := by
  refine ⟨⟨?_,?_,?_,?_,?_⟩,?_⟩
  · rw [hcapacity]
    exact r.capacity_pos
  · rw [hcapacity]
    exact hle
  · rw [hcapacity,hhead]
    exact r.head_lt
  · rw [hcapacity,htail]
    exact r.tail_lt
  · intro hf
    refine BitVec.eq_of_toNat_eq ?_
    rw [hhead,htail]
    exact r.full_eq (hfull ▸ hf)
  · cases r
    simp only [Queue.ring,BoundedQueue.mk.injEq]
    exact ⟨hdata,hcapacity,hhead,htail,hfull⟩

/-- An array in kernel space has few enough elements. -/
theorem Elements.capacity_le {capacity : Word} (elements : Elements α capacity) :
    capacity.toNat ≤ 2 ^ 31 := by
  have hspace := elements.space
  have hkernel := elements.kernel
  rw [Paging.kernelBase] at hkernel
  have hmul := Nat.le_mul_of_pos_right capacity.toNat elements.size_pos
  omega

/-- The number before another. -/
theorem sub_one_toNat {x : Word} (h : x.toNat ≠ 0) : (x - 1).toNat = x.toNat - 1 := by
  have hle : (1 : Word) ≤ x := by
    rw [BitVec.le_def]
    exact Nat.one_le_iff_ne_zero.mpr h
  rw [BitVec.toNat_sub_of_le hle]
  rfl

/-- The slot behind another. -/
theorem next_toNat (h : q.Valid) {x : Word} (hx : x.toNat < q.capacity.toNat) :
    ((x + 1) % q.capacity).toNat = (x.toNat + 1) % q.capacity.toNat := by
  have hle := h.capacity_le
  have hsum : (x + 1).toNat = x.toNat + 1 := by
    rw [BitVec.toNat_add]
    exact Nat.mod_eq_of_lt (show x.toNat + 1 < 2 ^ 32 by omega)
  rw [BitVec.toNat_umod,hsum]

/-- The slot of an element. -/
theorem getIndex_toNat (h : q.Valid) {elem : Word} (he : elem.toNat < q.capacity.toNat) :
    (q.getIndex elem).toNat = (q.ring h).getIndex elem.toNat := by
  have hle := h.capacity_le
  have ht := h.tail_lt
  have hsum : (q.tail + elem).toNat = q.tail.toNat + elem.toNat := by
    rw [BitVec.toNat_add]
    exact Nat.mod_eq_of_lt (by omega)
  rw [Queue.getIndex,BitVec.toNat_umod,hsum]
  rfl

theorem isEmpty_ring (h : q.Valid) : q.isEmpty = (q.ring h).isEmpty := by
  have heq : (q.head == q.tail) = (q.head.toNat == q.tail.toNat) := by
    rw [Bool.eq_iff_iff,beq_iff_eq,beq_iff_eq,BitVec.toNat_inj]
  rw [Queue.isEmpty,heq]
  rfl

/-- The number of elements. -/
theorem count_toNat (h : q.Valid) : q.count.toNat = (q.ring h).count := by
  have hle := h.capacity_le
  have hh := h.head_lt
  have ht := h.tail_lt
  have hlt : (q.tail < q.head) = (q.tail.toNat < q.head.toNat) := propext BitVec.lt_def
  simp only [Queue.count,BoundedQueue.count,isEmpty_ring h,hlt]
  split_ifs with hempty htail hring hring
  · rfl
  · rw [BitVec.toNat_sub_of_le (by rw [BitVec.le_def]; omega)]
    rfl
  · exact absurd htail hring
  · exact absurd hring htail
  · rw [BitVec.toNat_add,BitVec.toNat_sub_of_le (by rw [BitVec.le_def]; omega)]
    refine (Nat.mod_eq_of_lt ?_).trans rfl
    omega

/-- Write is that of the ring. -/
theorem write_ring (h : q.Valid) (value : α) :
    (q.write value).1 = ((q.ring h).write value).1 ∧
      ∃ h',(q.write value).2.ring h' = ((q.ring h).write value).2 := by
  have hnext := next_toNat h h.head_lt
  have heq : ((q.head + 1) % q.capacity == q.tail) =
      ((q.head.toNat + 1) % q.capacity.toNat == q.tail.toNat) := by
    rw [Bool.eq_iff_iff,beq_iff_eq,beq_iff_eq,←BitVec.toNat_inj,hnext]
  rw [Queue.write,BoundedQueue.write,show (q.ring h).full = q.full from rfl]
  cases q.full with
  | true => exact ⟨rfl,h,rfl⟩
  | false => exact ⟨rfl,ring_eq rfl h.capacity_le rfl hnext rfl heq⟩

/-- The first element is dropped as in the ring. -/
theorem dropFirst_ring (h : q.Valid) : ∃ h',q.dropFirst.ring h' = (q.ring h).dropFirst :=
  ring_eq rfl h.capacity_le rfl rfl (next_toNat h h.tail_lt) rfl

/-- The loop of Remove is that of the ring. -/
theorem shiftUp_ring (h : q.Valid) {i : ℕ} (hi : i < q.capacity.toNat) (data : ℕ → α) :
    q.shiftUp i data = (q.ring h).shiftUp i data := by
  have hle := h.capacity_le
  induction i generalizing data with
  | zero => rfl
  | succ i ih =>
    have hone : (BitVec.ofNat 32 (i + 1)).toNat = i + 1 := by
      rw [BitVec.toNat_ofNat]
      exact Nat.mod_eq_of_lt (by omega)
    have hzero : (BitVec.ofNat 32 (i + 1) - 1).toNat = i := by
      rw [sub_one_toNat (by omega),hone,Nat.add_sub_cancel]
    rw [Queue.shiftUp,BoundedQueue.shiftUp,getIndex_toNat h (by omega),
      getIndex_toNat h (by omega),hone,hzero,ih (by omega)]

/-- Remove is that of the ring. -/
theorem remove_ring (h : q.Valid) (elem : Word) :
    (q.remove elem).1.toNat = (if elem.toNat < (q.ring h).count then 1 else 0) ∧
      ∃ h',(q.remove elem).2.ring h' = (q.ring h).remove elem.toNat := by
  have hcount := count_toNat h
  have hspec := (q.ring h).count_spec.1
  have hcap : (q.ring h).capacity = q.capacity.toNat := rfl
  rw [Queue.remove,BoundedQueue.remove]
  by_cases hout : q.count ≤ elem
  · have hout' : (q.ring h).count ≤ elem.toNat := hcount ▸ BitVec.le_def.mp hout
    rw [if_pos hout,if_pos hout',if_neg (Nat.not_lt.mpr hout')]
    exact ⟨rfl,h,rfl⟩
  · have hin : elem.toNat < (q.ring h).count := by
      rw [←hcount]
      exact Nat.not_le.mp fun hle => hout (BitVec.le_def.mpr hle)
    rw [if_neg hout,if_pos hin,if_neg (Nat.not_le.mpr hin)]
    by_cases hfirst : elem = 0
    · rw [if_pos hfirst,if_pos (by rw [hfirst]; rfl)]
      exact ⟨rfl,dropFirst_ring h⟩
    · have hfirst' : elem.toNat ≠ 0 := fun he => hfirst (BitVec.eq_of_toNat_eq he)
      have hlast : elem = q.count - 1 ↔ elem.toNat = (q.ring h).count - 1 := by
        rw [←BitVec.toNat_inj,sub_one_toNat (by omega),hcount]
      rw [if_neg hfirst,if_neg hfirst']
      by_cases hend : elem = q.count - 1
      · rw [if_pos hend,if_pos (hlast.mp hend)]
        refine ⟨rfl,ring_eq rfl h.capacity_le rfl ?_ rfl rfl⟩
        have hpos := h.capacity_pos
        by_cases hhead : q.head = 0
        · have hhead' : (q.ring h).head = 0 := congrArg BitVec.toNat hhead
          simp only [BoundedQueue.dropLast,hhead',if_true,if_pos hhead]
          exact sub_one_toNat (by omega)
        · have hhead' : (q.ring h).head ≠ 0 := fun he => hhead (BitVec.eq_of_toNat_eq he)
          simp only [BoundedQueue.dropLast,if_neg hhead',if_neg hhead]
          exact sub_one_toNat hhead'
      · rw [if_neg hend,if_neg fun he => hend (hlast.mpr he)]
        exact ⟨rfl,ring_eq (shiftUp_ring h (by omega) _) h.capacity_le rfl rfl
          (next_toNat h h.tail_lt) rfl⟩

end Rings

section Lists

variable {α : Type*} {q : Queue α} {n : ℕ} {l : List α}

/-- A queue of a capacity has the elements of a list. -/
def Queue.Holds (q : Queue α) (n : ℕ) (l : List α) : Prop :=
  ∃ h : q.Valid,q.capacity.toNat = n ∧ (q.ring h).toList = l

/-- A new queue is empty. -/
theorem new_holds {capacity : Word} (hpos : 1 ≤ capacity.toNat) (elements : Elements α capacity) :
    (Queue.new capacity elements).Holds capacity.toNat [] := by
  have h : (Queue.new capacity elements).Valid :=
    ⟨hpos,elements.capacity_le,hpos,hpos,fun hfull => absurd hfull Bool.false_ne_true⟩
  exact ⟨h,rfl,BoundedQueue.toList_new capacity.toNat hpos elements.data⟩

/-- The queue is empty when the list is. -/
theorem isEmpty_eq (h : q.Holds n l) : q.isEmpty = l.isEmpty := by
  obtain ⟨h,-,rfl⟩ := h
  rw [isEmpty_ring h,Bool.eq_iff_iff,BoundedQueue.isEmpty_iff,List.isEmpty_iff]

/-- The queue has as many elements as the list. -/
theorem count_eq (h : q.Holds n l) : q.count.toNat = l.length := by
  obtain ⟨h,-,rfl⟩ := h
  rw [count_toNat h,BoundedQueue.length_toList]

/-- The queue is full when the list has as many elements as there is room for. -/
theorem isFull_iff (h : q.Holds n l) : q.full = true ↔ l.length = n := by
  obtain ⟨h,rfl,rfl⟩ := h
  rw [BoundedQueue.length_toList]
  exact (q.ring h).count_spec.2.2

/-- There are no more elements than there is room for. -/
theorem length_le (h : q.Holds n l) : l.length ≤ n ∧ n ≤ 2 ^ 31 := by
  obtain ⟨h,rfl,rfl⟩ := h
  rw [BoundedQueue.length_toList]
  exact ⟨(q.ring h).count_spec.1,h.capacity_le⟩

/-- An element by its number. -/
theorem data_eq (h : q.Holds n l) {elem : Word} (he : elem.toNat < l.length) :
    q.data (q.getIndex elem).toNat = l[elem.toNat] := by
  have hle := (length_le h).1
  obtain ⟨h,rfl,rfl⟩ := h
  rw [getIndex_toNat h (by omega),BoundedQueue.getElem_toList]
  rfl

/-- An element number that is in the list. -/
theorem toInt_lt (h : q.Holds n l) (elem : Word) :
    elem.toNat < l.length ↔ 0 ≤ elem.toInt ∧ elem.toInt < l.length := by
  obtain ⟨hle,hroom⟩ := length_le h
  rw [BitVec.toInt_eq_toNat_cond]
  split_ifs with hsign
  · omega
  · have hlt := elem.isLt
    omega

/-- An int that is not negative. -/
theorem toInt_toNat {elem : Word} (h : 0 ≤ elem.toInt) : elem.toInt.toNat = elem.toNat := by
  rw [BitVec.toInt_eq_toNat_cond] at h ⊢
  split_ifs at h ⊢ <;> omega

/-- Write. -/
theorem write_holds (h : q.Holds n l) (value : α) :
    (q.write value).1 = !decide (l.length = n) ∧
      (q.write value).2.Holds n (if l.length = n then l else l ++ [value]) := by
  have hfull := isFull_iff h
  obtain ⟨h,hn,hl⟩ := h
  obtain ⟨hflag,h',hring⟩ := write_ring h value
  have hcapacity : (q.write value).2.capacity = q.capacity := by
    rw [Queue.write]
    split_ifs <;> rfl
  by_cases hlen : l.length = n
  · have hf : (q.ring h).full = true := hfull.mpr hlen
    rw [hflag,BoundedQueue.write_fst,hf,if_pos hlen,decide_eq_true hlen]
    exact ⟨rfl,h',by rw [hcapacity,hn],by rw [hring,BoundedQueue.write_full _ _ hf,hl]⟩
  · have hf : (q.ring h).full = false := Bool.eq_false_iff.mpr fun hf => hlen (hfull.mp hf)
    rw [hflag,BoundedQueue.write_fst,hf,if_neg hlen,decide_eq_false hlen]
    exact ⟨rfl,h',by rw [hcapacity,hn],by rw [hring,BoundedQueue.toList_write _ _ hf,hl]⟩

/-- Remove. -/
theorem remove_holds (h : q.Holds n l) (elem : Word) :
    (q.remove elem).1.toNat = (if elem.toNat < l.length then 1 else 0) ∧
      (q.remove elem).2.Holds n (l.eraseIdx elem.toNat) := by
  obtain ⟨h,hn,rfl⟩ := h
  obtain ⟨hnumber,h',hring⟩ := remove_ring h elem
  have hcapacity : (q.remove elem).2.capacity = q.capacity := by
    rw [Queue.remove]
    split_ifs <;> rfl
  rw [BoundedQueue.length_toList]
  refine ⟨hnumber,h',by rw [hcapacity,hn],?_⟩
  rw [hring]
  by_cases hlt : elem.toNat < (q.ring h).count
  · exact BoundedQueue.toList_remove _ hlt
  · rw [List.eraseIdx_of_length_le (by rw [BoundedQueue.length_toList]; omega),
      BoundedQueue.remove,if_pos (Nat.not_lt.mp hlt)]

section Defaults

variable [Inhabited α]

/-- Read from an empty queue. -/
theorem read_nil (h : q.Holds n []) : q.read = ((false,default),q) := by
  rw [Queue.read,isEmpty_eq h]
  rfl

/-- Read takes the first element. -/
theorem read_cons {x : α} (h : q.Holds n (x :: l)) :
    q.read.1 = (true,x) ∧ q.read.2.Holds n l := by
  have hempty := isEmpty_eq h
  obtain ⟨h,hn,hl⟩ := h
  obtain ⟨hread,htail⟩ := BoundedQueue.read_cons _ hl
  obtain ⟨h',hring⟩ := dropFirst_ring h
  rw [BoundedQueue.read,←isEmpty_ring h,hempty] at hread
  have hx : q.data q.tail.toNat = x := Option.some_inj.mp (congrArg Prod.fst hread)
  rw [Queue.read,hempty]
  exact ⟨by rw [←hx]; rfl,h',hn,(congrArg BoundedQueue.toList hring).trans htail⟩

/-- Clear ends, and the queue is empty then. -/
theorem clearLoop_holds {fuel : ℕ} (h : q.Holds n l) (hfuel : l.length < fuel) :
    ∃ q',q.clearLoop fuel = some q' ∧ q'.Holds n [] := by
  induction fuel generalizing q l with
  | zero => exact absurd hfuel (Nat.not_lt_zero _)
  | succ fuel ih =>
    rw [Queue.clearLoop]
    cases l with
    | nil =>
      rw [read_nil h]
      exact ⟨q,rfl,h⟩
    | cons x l =>
      obtain ⟨hread,htail⟩ := read_cons h
      rw [hread,if_pos rfl]
      exact ih htail (Nat.lt_of_succ_lt_succ hfuel)

end Defaults

variable [DecidableEq α]

/-- The loop of RemoveFirst behind elements that differ from the value. -/
theorem removeFrom_holds {value : α} {left : ℕ} {i : Word} (h : q.Holds n l)
    (hi : i.toNat + left = l.length) (hbefore : value ∉ l.take i.toNat) :
    (q.removeFrom value left i).1.toNat = (if value ∈ l then 1 else 0) ∧
      (q.removeFrom value left i).2.Holds n (l.erase value) := by
  induction left generalizing i with
  | zero =>
    rw [List.take_of_length_le (by omega)] at hbefore
    rw [Queue.removeFrom,List.erase_of_not_mem hbefore,if_neg hbefore]
    exact ⟨rfl,h⟩
  | succ left ih =>
    have hlt : i.toNat < l.length := by omega
    rw [Queue.removeFrom,data_eq h hlt]
    split_ifs with heq hmem hmem
    · obtain ⟨hnumber,hholds⟩ := remove_holds h i
      rw [if_pos hlt] at hnumber
      refine ⟨hnumber,?_⟩
      have hsplit : l = l.take i.toNat ++ l[i.toNat] :: l.drop (i.toNat + 1) := by
        rw [←List.drop_eq_getElem_cons hlt,List.take_append_drop]
      have herase : l.erase value = l.eraseIdx i.toNat := by
        rw [List.eraseIdx_eq_take_drop_succ]
        conv_lhs => rw [hsplit]
        rw [List.erase_append_right _ hbefore,heq,List.erase_cons_head]
      rw [herase]
      exact hholds
    · exact absurd (heq ▸ List.getElem_mem hlt) hmem
    all_goals
      have hnext : (i + 1).toNat = i.toNat + 1 := by
        have hroom := length_le h
        rw [BitVec.toNat_add]
        exact Nat.mod_eq_of_lt (show i.toNat + 1 < 2 ^ 32 by omega)
      have hrest := ih (i := i + 1) (by omega) (by
        rw [hnext,List.take_succ_eq_append_getElem hlt,List.mem_append,List.mem_singleton]
        rintro (hm | hm)
        · exact hbefore hm
        · exact heq hm.symm)
      simpa [hmem] using hrest

/-- RemoveFirst. -/
theorem removeFirst_holds (h : q.Holds n l) (value : α) :
    (q.removeFirst value).1.toNat = (if value ∈ l then 1 else 0) ∧
      (q.removeFirst value).2.Holds n (l.erase value) := by
  rw [Queue.removeFirst,isEmpty_eq h]
  cases l with
  | nil => exact ⟨rfl,h⟩
  | cons x l =>
    exact removeFrom_holds h (by rw [count_eq h]; exact Nat.zero_add _) (by simp)

end Lists

section Refinement

variable {α : Type*} [Inhabited α] [DecidableEq α] {q : Queue α} {n : ℕ} {l : List α}

/-- A call answers what it answers on the list, and leaves what it leaves there. -/
theorem step_holds (h : q.Holds n l) (op : Op α) :
    (q.step op).1 = (listStep n l op).1 ∧ (q.step op).2.Holds n (listStep n l op).2 := by
  cases op with
  | write value =>
    obtain ⟨hflag,hholds⟩ := write_holds h value
    simp only [Queue.step,listStep,hflag]
    split_ifs at hholds ⊢ with hlen
    · exact ⟨by simp [hlen],hholds⟩
    · exact ⟨by simp [hlen],hholds⟩
  | read =>
    cases l with
    | nil =>
      simp only [Queue.step,listStep,read_nil h]
      exact ⟨trivial,h⟩
    | cons x l =>
      obtain ⟨hread,htail⟩ := read_cons h
      simp only [Queue.step,listStep,hread]
      exact ⟨trivial,htail⟩
  | peek =>
    cases l with
    | nil =>
      simp only [Queue.step,listStep,Queue.peek,isEmpty_eq h]
      exact ⟨rfl,h⟩
    | cons x l =>
      have hread := (read_cons h).1
      rw [Queue.read,isEmpty_eq h] at hread
      simp only [Queue.step,listStep,Queue.peek,isEmpty_eq h]
      exact ⟨congrArg (fun r => Answer.element r.1 r.2) hread,h⟩
  | peekAt elem =>
    have hin := toInt_lt h elem
    have hcount : q.count ≤ elem ↔ ¬elem.toNat < l.length := by
      rw [BitVec.le_def,count_eq h,Nat.not_lt]
    simp only [Queue.step,listStep,Queue.peekAt]
    by_cases hlt : elem.toNat < l.length
    · rw [if_neg fun hle => hcount.mp hle hlt,if_neg (Int.not_lt.mpr (hin.mp hlt).1),
        toInt_toNat (hin.mp hlt).1,List.getElem?_eq_getElem hlt,data_eq h hlt]
      exact ⟨rfl,h⟩
    · rw [if_pos (hcount.mpr hlt)]
      split_ifs with hneg
      · exact ⟨rfl,h⟩
      · rw [List.getElem?_eq_none (by omega)]
        exact ⟨rfl,h⟩
  | count => exact ⟨congrArg Answer.number (count_eq h),h⟩
  | isEmpty => exact ⟨congrArg Answer.flag (isEmpty_eq h),h⟩
  | isFull =>
    refine ⟨congrArg Answer.flag ?_,h⟩
    rw [Bool.eq_iff_iff,decide_eq_true_iff]
    exact isFull_iff h
  | remove elem =>
    have hin := toInt_lt h elem
    obtain ⟨hnumber,hholds⟩ := remove_holds h elem
    simp only [Queue.step,listStep,hnumber]
    by_cases hlt : elem.toNat < l.length
    · rw [if_pos hlt,if_pos (hin.mp hlt),toInt_toNat (hin.mp hlt).1]
      exact ⟨rfl,hholds⟩
    · rw [List.eraseIdx_of_length_le (Nat.not_lt.mp hlt)] at hholds
      rw [if_neg hlt,if_neg fun hm => hlt (hin.mpr hm)]
      exact ⟨rfl,hholds⟩
  | removeFirst value =>
    obtain ⟨hnumber,hholds⟩ := removeFirst_holds h value
    simp only [Queue.step,listStep,hnumber]
    split_ifs with hmem
    · exact ⟨rfl,hholds⟩
    · rw [List.erase_of_not_mem hmem] at hholds
      exact ⟨rfl,hholds⟩
  | clear =>
    have hlen := (length_le h).1
    have hcapacity : q.capacity.toNat = n := by
      obtain ⟨-,hn,-⟩ := h
      exact hn
    obtain ⟨q',hclear,hholds⟩ : ∃ q',q.clearLoop (n + 1) = some q' ∧ q'.Holds n [] :=
      clearLoop_holds h (by omega)
    simp only [Queue.step,listStep,hcapacity,hclear]
    exact ⟨trivial,hholds⟩

/-- The answers to any calls are those of a list. -/
theorem run_holds (h : q.Holds n l) (ops : List (Op α)) : q.run ops = listRun n l ops := by
  induction ops generalizing q l with
  | nil => rfl
  | cons op ops ih =>
    obtain ⟨hanswer,hholds⟩ := step_holds h op
    rw [Queue.run,listRun,hanswer,ih hholds]

/-- The answers to any calls on a new queue are those of an empty list. -/
theorem queue_refines {capacity : Word} (hpos : 1 ≤ capacity.toNat)
    (elements : Elements α capacity) (ops : List (Op α)) :
    (Queue.new capacity elements).run ops = listRun capacity.toNat [] ops :=
  run_holds (new_holds hpos elements) ops

/-- A waiting list of two threads. -/
def twoWaiters : Elements ℕ 2 where
  address := 0xC0400000
  size := 4
  data := fun _ => 0
  size_pos := by decide
  kernel := by decide
  space := by decide

theorem queue_refines_two :
    (Queue.new 2 twoWaiters).run [.write 5,.write 6,.write 7,.remove 0,.write 8,.removeFirst 6,
      .peekAt 0xFFFFFFFF,.count,.clear,.isEmpty] =
    listRun 2 [] [.write 5,.write 6,.write 7,.remove 0,.write 8,.removeFirst 6,
      .peekAt 0xFFFFFFFF,.count,.clear,.isEmpty] :=
  queue_refines (by decide) twoWaiters _

end Refinement

end WootOs.QueueRuns
