import Mathlib.Data.List.Basic
import Mathlib.Data.List.Range
import Mathlib.Data.List.Nodup
import Mathlib.Logic.Function.Basic

/-!
# The bounded queue

Queue keeps its elements in an array that it uses as a ring: Head is the slot
of the next write, Tail the slot of the next read, and Full tells a full ring
from an empty one. Elements can also be taken out of the middle, by moving
those before it up by one slot, or replaced in place.

The structure carries what the constructor establishes and every operation
keeps. toList gives the elements in reading order; the lemmas read each
operation as one on that list. ReplaceAll is the exception: its loop ends
where it starts when the ring is full.
-/

namespace WootOs.RingQueue

/-- A queue over an array of some capacity. -/
structure BoundedQueue (α : Type*) where
  /-- The array. -/
  data : ℕ → α
  /-- The number of its slots. -/
  capacity : ℕ
  /-- The slot of the next write. -/
  head : ℕ
  /-- The slot of the next read. -/
  tail : ℕ
  /-- Whether every slot is in use. -/
  full : Bool
  /-- There is a slot. -/
  capacity_pos : 0 < capacity
  /-- The slot of the next write exists. -/
  head_lt : head < capacity
  /-- The slot of the next read exists. -/
  tail_lt : tail < capacity
  /-- A full ring writes where it reads. -/
  full_eq : full = true → head = tail

namespace BoundedQueue

section Operations

variable {α : Type*} (r : BoundedQueue α)

/-- The constructor. The elements of a new array are not defined. -/
def new (capacity : ℕ) (h : 0 < capacity) (data : ℕ → α) : BoundedQueue α :=
  ⟨data,capacity,0,0,false,h,h,h,fun hf => absurd hf (by simp)⟩

/-- Queue::IsEmpty. -/
def isEmpty : Bool := r.head == r.tail && !r.full

/-- Queue::getIndex. -/
def getIndex (elem : ℕ) : ℕ := (r.tail + elem) % r.capacity

/-- Queue::Count. -/
def count : ℕ :=
  if r.isEmpty then 0
  else if r.tail < r.head then r.head - r.tail
  else r.capacity - r.tail + r.head

/-- Queue::Write. -/
def write (value : α) : Bool × BoundedQueue α :=
  if r.full then (false,r)
  else
    (true,
      { data := Function.update r.data r.head value
        capacity := r.capacity
        head := (r.head + 1) % r.capacity
        tail := r.tail
        full := (r.head + 1) % r.capacity == r.tail
        capacity_pos := r.capacity_pos
        head_lt := Nat.mod_lt _ r.capacity_pos
        tail_lt := r.tail_lt
        full_eq := fun h => by simpa using h })

/-- The ring behind its first element. -/
def dropFirst : BoundedQueue α :=
  { data := r.data
    capacity := r.capacity
    head := r.head
    tail := (r.tail + 1) % r.capacity
    full := false
    capacity_pos := r.capacity_pos
    head_lt := r.head_lt
    tail_lt := Nat.mod_lt _ r.capacity_pos
    full_eq := fun h => absurd h (by simp) }

/-- Queue::Read. Nothing is read from an empty ring. -/
def read : Option α × BoundedQueue α :=
  if r.isEmpty then (none,r) else (some (r.data r.tail),r.dropFirst)

/-- The ring without its last element. -/
def dropLast : BoundedQueue α :=
  { data := r.data
    capacity := r.capacity
    head := if r.head = 0 then r.capacity - 1 else r.head - 1
    tail := r.tail
    full := false
    capacity_pos := r.capacity_pos
    head_lt := by
      have hc := r.capacity_pos
      have hh := r.head_lt
      split_ifs <;> omega
    tail_lt := r.tail_lt
    full_eq := fun h => absurd h (by simp) }

/-- The loop of Remove: every element before the removed one moves up. -/
def shiftUp : ℕ → (ℕ → α) → ℕ → α
  | 0,data => data
  | i+1,data => shiftUp i (Function.update data (r.getIndex (i+1)) (data (r.getIndex i)))

/-- Queue::Remove. -/
def remove (elem : ℕ) : BoundedQueue α :=
  if r.count ≤ elem then r
  else if elem = 0 then r.dropFirst
  else if elem = r.count - 1 then r.dropLast
  else { r.dropFirst with data := r.shiftUp elem r.data }

variable [DecidableEq α]

/-- The search of RemoveFirst, from an element on. -/
def removeFrom (value : α) : ℕ → ℕ → BoundedQueue α
  | 0,_ => r
  | left+1,i =>
    if r.data (r.getIndex i) = value then r.remove i else removeFrom value left (i+1)

/-- Queue::RemoveFirst. -/
def removeFirst (value : α) : BoundedQueue α :=
  if r.isEmpty then r else r.removeFrom value r.count 0

/-- The loop of ReplaceAll, which stops at the slot of the next write. -/
def replaceFrom (value replacement : α) : ℕ → ℕ → (ℕ → α) → ℕ → α
  | 0,_,data => data
  | fuel+1,i,data =>
    if i = r.head then data
    else replaceFrom value replacement fuel ((i+1) % r.capacity)
      (if data i = value then Function.update data i replacement else data)

/-- Queue::ReplaceAll. -/
def replaceAll (value replacement : α) : BoundedQueue α :=
  if r.isEmpty then r
  else { r with data := r.replaceFrom value replacement r.capacity r.tail r.data }

end Operations

section Lists

variable {α : Type*} (r : BoundedQueue α)

/-- The elements in reading order. -/
def toList : List α := (List.range r.count).map fun i => r.data (r.getIndex i)

/-- A sum below two turns of the ring wraps at most once. -/
theorem mod_wrap {i c : ℕ} (h : i < 2 * c) : i % c = if i < c then i else i - c := by
  split_ifs with hi
  · exact Nat.mod_eq_of_lt hi
  · rw [Nat.mod_eq_sub_mod (by omega),Nat.mod_eq_of_lt (by omega)]

/-- The slots in use: the write slot follows them, and a full ring has no other. -/
theorem count_spec : r.count ≤ r.capacity ∧ r.head = (r.tail + r.count) % r.capacity ∧
    (r.full = true ↔ r.count = r.capacity) := by
  have hh := r.head_lt
  have ht := r.tail_lt
  have hf := r.full_eq
  cases hfull : r.full with
  | true =>
    have he := hf hfull
    have hc : r.count = r.capacity := by
      simp only [count,isEmpty,hfull,he]
      simp
      omega
    rw [hc,mod_wrap (by omega)]
    exact ⟨le_rfl,by split_ifs <;> omega,by simp⟩
  | false =>
    have hlen (n : ℕ) (hn : n < r.capacity) (hh : r.head = if r.tail + n < r.capacity then
        r.tail + n else r.tail + n - r.capacity) (hc : r.count = n) :
        r.count ≤ r.capacity ∧ r.head = (r.tail + r.count) % r.capacity ∧
          (false = true ↔ r.count = r.capacity) := by
      rw [hc,mod_wrap (by omega)]
      exact ⟨by omega,hh,by simp; omega⟩
    by_cases he : r.head = r.tail
    · exact hlen 0 (by omega) (by split_ifs <;> omega) (by simp [count,isEmpty,hfull,he])
    · by_cases hlt : r.tail < r.head
      · exact hlen (r.head - r.tail) (by omega) (by split_ifs <;> omega)
          (by simp [count,isEmpty,he,hlt])
      · exact hlen (r.capacity - r.tail + r.head) (by omega) (by split_ifs <;> omega)
          (by simp [count,isEmpty,he,hlt])

/-- The number of elements is determined by the slots and the flag. -/
theorem count_eq {r : BoundedQueue α} {n : ℕ} (hn : n ≤ r.capacity)
    (hh : r.head = (r.tail + n) % r.capacity) (hf : r.full = true ↔ n = r.capacity) :
    r.count = n := by
  obtain ⟨hc,hhead,hfull⟩ := r.count_spec
  have ht := r.tail_lt
  rw [mod_wrap (by omega)] at hh hhead
  by_cases hf' : r.full = true
  · rw [hf.mp hf',hfull.mp hf']
  · have h1 : n ≠ r.capacity := fun he => hf' (hf.mpr he)
    have h2 : r.count ≠ r.capacity := fun he => hf' (hfull.mpr he)
    rw [hhead] at hh
    split_ifs at hh <;> omega

@[simp] theorem length_toList : r.toList.length = r.count := by simp [toList]

/-- The elements by position. -/
theorem getElem_toList {i : ℕ} (h : i < r.toList.length) :
    r.toList[i] = r.data (r.getIndex i) := by simp [toList]

/-- A ring of a given length, element by element. -/
theorem toList_eq {r : BoundedQueue α} {l : List α} (hc : r.count = l.length)
    (he : ∀ i (h : i < l.length),r.data (r.getIndex i) = l[i]) : r.toList = l := by
  refine List.ext_getElem (by simp [hc]) fun i h₁ h₂ => ?_
  rw [getElem_toList,he i h₂]

/-- Different positions use different slots. -/
theorem getIndex_inj {i j : ℕ} (hi : i < r.capacity) (hj : j < r.capacity)
    (h : r.getIndex i = r.getIndex j) : i = j := by
  have ht := r.tail_lt
  rw [getIndex,getIndex,mod_wrap (by omega),mod_wrap (by omega)] at h
  split_ifs at h <;> omega

/-- The slot of the next write follows the elements. -/
theorem getIndex_count : r.getIndex r.count = r.head := r.count_spec.2.1.symm

theorem isEmpty_iff : r.isEmpty = true ↔ r.toList = [] := by
  rw [←List.length_eq_zero_iff,length_toList]
  have ht := r.tail_lt
  have hh := r.head_lt
  constructor
  · intro h
    simp [count,h]
  · intro h
    by_contra hne
    simp only [count,hne] at h
    split_ifs at h <;> omega

/-- A new ring is empty. -/
theorem toList_new (capacity : ℕ) (h : 0 < capacity) (data : ℕ → α) :
    (new capacity h data).toList = [] := by
  rw [←isEmpty_iff]
  simp [isEmpty,new]

/-- A ring that is not full has a free slot. -/
theorem count_lt (h : r.full = false) : r.count < r.capacity := by
  obtain ⟨hc,-,hf⟩ := r.count_spec
  have hne : r.count ≠ r.capacity := fun he => by simp [hf.mpr he] at h
  omega

/-- Write appends, unless the ring is full. -/
theorem toList_write (value : α) (h : r.full = false) :
    (r.write value).2.toList = r.toList ++ [value] := by
  have hlt := r.count_lt h
  have hindex : (r.write value).2.getIndex = r.getIndex := by
    funext i
    simp [write,h,getIndex]
  have hcount : (r.write value).2.count = r.count + 1 := by
    have ht := r.tail_lt
    have hhead := r.count_spec.2.1
    apply count_eq
    · simp [write,h]
      omega
    · simp only [write,h,Bool.false_eq_true,if_false]
      rw [hhead,Nat.mod_add_mod]
      rfl
    · simp only [write,h,Bool.false_eq_true,if_false,beq_iff_eq]
      rw [hhead,Nat.mod_add_mod,mod_wrap (by omega)]
      split_ifs <;> omega
  refine toList_eq (by simp [hcount]) fun i hi => ?_
  rw [hindex]
  simp only [write,h,Bool.false_eq_true,if_false]
  simp only [List.length_append,length_toList,List.length_singleton] at hi
  by_cases he : i = r.count
  · subst he
    rw [getIndex_count,Function.update_self,List.getElem_append_right (by simp)]
    simp
  · have hne : r.getIndex i ≠ r.head := by
      rw [←getIndex_count]
      exact fun heq => he (r.getIndex_inj (by omega) hlt heq)
    have hli : i < r.toList.length := by
      rw [length_toList]
      omega
    rw [Function.update_of_ne hne,List.getElem_append_left hli,getElem_toList]

/-- The result of Write says whether there was room. -/
theorem write_fst (value : α) : (r.write value).1 = !r.full := by
  unfold write
  split_ifs with h <;> simp [h]

/-- A full ring is left as it is. -/
theorem write_full (value : α) (h : r.full = true) : (r.write value).2 = r := by
  simp [write,h]

/-- The positions behind the first element. -/
theorem getIndex_dropFirst (i : ℕ) : r.dropFirst.getIndex i = r.getIndex (i+1) := by
  simp only [getIndex,dropFirst]
  rw [Nat.mod_add_mod,Nat.add_right_comm,Nat.add_assoc]

theorem count_dropFirst (h : r.toList ≠ []) : r.dropFirst.count = r.count - 1 := by
  obtain ⟨hc,hh,-⟩ := r.count_spec
  have hpos : 0 < r.count := by
    rw [←length_toList]
    exact List.length_pos_iff.mpr h
  apply count_eq
  · change r.count - 1 ≤ r.capacity
    omega
  · change r.head = ((r.tail + 1) % r.capacity + (r.count - 1)) % r.capacity
    rw [Nat.mod_add_mod,hh]
    congr 1
    omega
  · have hcap : r.dropFirst.capacity = r.capacity := rfl
    simp only [dropFirst,Bool.false_eq_true,false_iff]
    omega

/-- Read takes the first element, if there is one. -/
theorem read_nil (h : r.toList = []) : r.read = (none,r) := by
  simp [read,r.isEmpty_iff.mpr h]

theorem read_cons {x : α} {l : List α} (h : r.toList = x :: l) :
    r.read = (some x,r.dropFirst) ∧ r.dropFirst.toList = l := by
  have hne : r.toList ≠ [] := by simp [h]
  have hem : r.isEmpty = false := by simpa [Bool.not_eq_true] using mt r.isEmpty_iff.mp hne
  have hlen : r.count = l.length + 1 := by rw [←length_toList,h,List.length_cons]
  have hget (i : ℕ) (hi : i < (x :: l).length) : r.data (r.getIndex i) = (x :: l)[i] := by
    rw [←getElem_toList]
    · simp [h]
    · simpa [h] using hi
  refine ⟨?_,toList_eq (by rw [r.count_dropFirst hne]; omega) fun i hi => ?_⟩
  · have hx := hget 0 (by simp)
    have h0 : r.getIndex 0 = r.tail := by
      rw [getIndex,Nat.add_zero,Nat.mod_eq_of_lt r.tail_lt]
    rw [h0] at hx
    simp [read,hem,hx]
  · rw [getIndex_dropFirst]
    exact hget (i+1) (by simpa using hi)

/-- The elements before a removed one are moved up by one. -/
theorem shiftUp_getIndex {k j : ℕ} (hk : k < r.capacity) (hj : j < r.capacity) (data : ℕ → α) :
    r.shiftUp k data (r.getIndex j) =
      if 1 ≤ j ∧ j ≤ k then data (r.getIndex (j-1)) else data (r.getIndex j) := by
  induction k generalizing data with
  | zero =>
    rw [shiftUp,if_neg (by omega)]
  | succ k ih =>
    have hne {i : ℕ} (hi : i < r.capacity) (hik : i ≠ k+1) :
        Function.update data (r.getIndex (k+1)) (data (r.getIndex k)) (r.getIndex i) =
          data (r.getIndex i) :=
      Function.update_of_ne (fun he => hik (r.getIndex_inj hi hk he)) ..
    rw [shiftUp,ih (by omega)]
    by_cases h1 : 1 ≤ j ∧ j ≤ k
    · rw [if_pos h1,if_pos (by omega),hne (by omega) (by omega)]
    · rw [if_neg h1]
      by_cases h2 : j = k+1
      · subst h2
        rw [Function.update_self,if_pos (by omega)]
        rfl
      · rw [hne hj h2,if_neg (by omega)]

/-- Remove takes one element out and keeps the order of the others. -/
theorem toList_remove {k : ℕ} (hk : k < r.count) :
    (r.remove k).toList = r.toList.eraseIdx k := by
  have hcap := r.count_spec.1
  have hne : r.toList ≠ [] := fun he => by
    rw [←length_toList,he] at hk
    simp at hk
  have hlen : (r.toList.eraseIdx k).length = r.count - 1 := by
    rw [List.length_eraseIdx_of_lt (by simpa using hk),length_toList]
  have hget {i : ℕ} (hi : i < (r.toList.eraseIdx k).length) :
      (r.toList.eraseIdx k)[i] =
        if i < k then r.data (r.getIndex i) else r.data (r.getIndex (i+1)) := by
    rw [List.getElem_eraseIdx]
    split_ifs
    · rw [getElem_toList]
    · rw [getElem_toList]
  unfold remove
  rw [if_neg (by omega)]
  split_ifs with h0 hlast
  · subst h0
    refine toList_eq (by rw [r.count_dropFirst hne,hlen]) fun i hi => ?_
    rw [hget,if_neg (by omega),getIndex_dropFirst]
    rfl
  · have hcount : r.dropLast.count = r.count - 1 := by
      have ht := r.tail_lt
      have hh := r.count_spec.2.1
      rw [mod_wrap (by omega)] at hh
      apply count_eq
      · change r.count - 1 ≤ r.capacity
        omega
      · change (if r.head = 0 then r.capacity - 1 else r.head - 1) =
          (r.tail + (r.count - 1)) % r.capacity
        rw [mod_wrap (by omega)]
        split_ifs at hh ⊢ <;> omega
      · have hc : r.dropLast.capacity = r.capacity := rfl
        simp only [dropLast,Bool.false_eq_true,false_iff]
        omega
    refine toList_eq (by rw [hcount,hlen]) fun i hi => ?_
    rw [hget,if_pos (by omega)]
    rfl
  · have hcount : ({ r.dropFirst with data := r.shiftUp k r.data } : BoundedQueue α).count =
        r.dropFirst.count := rfl
    refine toList_eq (by rw [hcount,r.count_dropFirst hne,hlen]) fun i hi => ?_
    change r.shiftUp k r.data (r.dropFirst.getIndex i) = _
    rw [getIndex_dropFirst,shiftUp_getIndex _ (by omega) (by omega),hget]
    by_cases hik : i < k
    · rw [if_pos (by omega),if_pos hik]
      rfl
    · rw [if_neg (by omega),if_neg hik]

variable [DecidableEq α]

/-- The search of RemoveFirst behind elements that differ from the value. -/
theorem toList_removeFrom (value : α) {left i : ℕ} (hi : i + left = r.count)
    (hpre : value ∉ r.toList.take i) :
    (r.removeFrom value left i).toList = r.toList.erase value := by
  induction left generalizing i with
  | zero =>
    rw [removeFrom,List.erase_of_not_mem]
    rwa [List.take_of_length_le (by rw [length_toList]; omega)] at hpre
  | succ left ih =>
    have hlt : i < r.toList.length := by rw [length_toList]; omega
    have hsplit : r.toList = r.toList.take i ++ r.toList[i] :: r.toList.drop (i+1) := by
      rw [←List.drop_eq_getElem_cons hlt,List.take_append_drop]
    rw [removeFrom]
    split_ifs with he
    · rw [toList_remove _ (by omega),List.eraseIdx_eq_take_drop_succ]
      conv_rhs => rw [hsplit]
      rw [List.erase_append_right _ hpre,getElem_toList,he,List.erase_cons_head]
    · refine ih (by omega) ?_
      rw [List.take_succ_eq_append_getElem hlt,List.mem_append,List.mem_singleton,getElem_toList]
      rintro (hm | hm)
      · exact hpre hm
      · exact he hm.symm

/-- RemoveFirst takes out the first element that equals the value. -/
theorem toList_removeFirst (value : α) :
    (r.removeFirst value).toList = r.toList.erase value := by
  unfold removeFirst
  split_ifs with h
  · simp [r.isEmpty_iff.mp h]
  · exact r.toList_removeFrom value (by omega) (by simp)

/-- RemoveFirst adds no element. -/
theorem mem_of_mem_removeFirst {value x : α} (h : x ∈ (r.removeFirst value).toList) :
    x ∈ r.toList := by
  rw [toList_removeFirst] at h
  exact List.mem_of_mem_erase h

/-- RemoveFirst takes an element out where it stands. -/
theorem split_removeFirst {value : α} (h : value ∈ r.toList) :
    ∃ l₁ l₂,r.toList = l₁ ++ value :: l₂ ∧ (r.removeFirst value).toList = l₁ ++ l₂ := by
  obtain ⟨l₁,l₂,-,hsplit,herase⟩ := List.exists_erase_eq h
  exact ⟨l₁,l₂,hsplit,(r.toList_removeFirst value).trans herase⟩

/-- Nothing is removed when no element equals the value. -/
theorem removeFirst_of_not_mem {value : α} (h : value ∉ r.toList) :
    (r.removeFirst value).toList = r.toList := by
  rw [toList_removeFirst,List.erase_of_not_mem h]

/-- The loop of ReplaceAll from the element at some position on. -/
theorem replaceFrom_getIndex (value replacement : α) (hc : r.count < r.capacity) {fuel k j : ℕ}
    (hk : k ≤ r.count) (hf : r.count ≤ k + fuel) (hj : j < r.count) (data : ℕ → α) :
    r.replaceFrom value replacement fuel (r.getIndex k) data (r.getIndex j) =
      if k ≤ j ∧ data (r.getIndex j) = value then replacement else data (r.getIndex j) := by
  induction fuel generalizing k data with
  | zero => rw [replaceFrom,if_neg (by omega)]
  | succ fuel ih =>
    rw [replaceFrom]
    by_cases he : k = r.count
    · subst he
      rw [if_pos (getIndex_count r),if_neg (by omega)]
    · have hne : r.getIndex k ≠ r.head := by
        rw [←getIndex_count]
        exact fun heq => he (r.getIndex_inj (by omega) hc heq)
      have hnext : (r.getIndex k + 1) % r.capacity = r.getIndex (k+1) := by
        rw [getIndex,getIndex,Nat.mod_add_mod,Nat.add_assoc]
      rw [if_neg hne,hnext,ih (by omega) (by omega)]
      by_cases hkj : j = k
      · subst hkj
        rw [if_neg (by omega)]
        by_cases hv : data (r.getIndex j) = value
        · rw [if_pos hv,Function.update_self,if_pos ⟨le_rfl,hv⟩]
        · rw [if_neg hv,if_neg fun h => hv h.2]
      · have hindex : r.getIndex j ≠ r.getIndex k :=
          fun heq => hkj (r.getIndex_inj (by omega) (by omega) heq)
        have hdata : (if data (r.getIndex k) = value then
            Function.update data (r.getIndex k) replacement else data) (r.getIndex j) =
              data (r.getIndex j) := by
          split_ifs
          · exact Function.update_of_ne hindex ..
          · rfl
        rw [hdata]
        congr 1
        simp only [eq_iff_iff]
        constructor <;> rintro ⟨h1,h2⟩ <;> exact ⟨by omega,h2⟩

/-- ReplaceAll replaces every element that equals the value, unless the ring is full. -/
theorem toList_replaceAll (value replacement : α) (h : r.full = false) :
    (r.replaceAll value replacement).toList =
      r.toList.map fun x => if x = value then replacement else x := by
  unfold replaceAll
  split_ifs with he
  · simp [r.isEmpty_iff.mp he]
  · have hcap := r.count_lt h
    refine toList_eq (by rw [List.length_map,length_toList]; rfl) fun i hi => ?_
    rw [List.length_map,length_toList] at hi
    rw [List.getElem_map,getElem_toList]
    have h0 : r.tail = r.getIndex 0 := by
      rw [getIndex,Nat.add_zero,Nat.mod_eq_of_lt r.tail_lt]
    change r.replaceFrom value replacement r.capacity r.tail r.data (r.getIndex i) = _
    rw [h0,r.replaceFrom_getIndex value replacement hcap (by omega) (by omega) hi]
    simp

/-- In a full ring the loop of ReplaceAll ends before its first element. -/
theorem replaceAll_full (value replacement : α) (h : r.full = true) :
    (r.replaceAll value replacement).toList = r.toList := by
  obtain ⟨n,hn⟩ : ∃ n,r.capacity = n+1 := ⟨r.capacity-1,by have := r.capacity_pos; omega⟩
  have hdata : r.replaceFrom value replacement r.capacity r.tail r.data = r.data := by
    rw [hn,replaceFrom,if_pos (r.full_eq h).symm]
  unfold replaceAll
  split_ifs
  · rfl
  · simp only [hdata]

end Lists

end BoundedQueue

end WootOs.RingQueue
