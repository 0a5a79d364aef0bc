import Mathlib.Data.List.Basic
import Mathlib.Data.List.Nodup
import Mathlib.Logic.Function.Basic

/-!
# Queues linked through a field of their items

ObjectQueue stores one pointer, first, and reaches every other item through
the field Next of the items themselves. Several queues share that field, so
an item can stand in one queue at a time. Every loop of the source follows
Next until it is null; the model gives each loop fuel and returns none when
the fuel runs out, so that a cyclic chain is a run without a result.

Linked says which list of items a queue holds. The lemmas read every
operation as an operation on that list and bound the fuel it needs. Returns
is the notion of a result behind them: every larger fuel gives the same one.
-/

namespace WootOs.ObjectQueue

section Fuel

universe u

variable {α β : Type u}

/-- A loop returns a value: it does so with every fuel from some bound on. -/
def Returns (loop : ℕ → Option α) (bound : ℕ) (result : α) : Prop :=
  ∀ fuel,bound ≤ fuel → loop fuel = some result

/-- A computation without a loop returns at once. -/
theorem returns_some (bound : ℕ) (result : α) : Returns (fun _ => some result) bound result :=
  fun _ _ => rfl

/-- A larger bound serves as well. -/
theorem Returns.mono {loop : ℕ → Option α} {bound bound' : ℕ} {result : α}
    (h : Returns loop bound result) (hb : bound ≤ bound') : Returns loop bound' result :=
  fun fuel hf => h fuel (Nat.le_trans hb hf)

/-- One computation after another. -/
theorem Returns.bind {loop : ℕ → Option α} {rest : ℕ → α → Option β} {bound : ℕ}
    {result : α} {final : β} (h : Returns loop bound result)
    (hr : Returns (fun fuel => rest fuel result) bound final) :
    Returns (fun fuel => loop fuel >>= rest fuel) bound final := by
  intro fuel hf
  change (loop fuel).bind (rest fuel) = some final
  rw [h fuel hf,Option.bind_some]
  exact hr fuel hf

/-- Two bounds give the same result. -/
theorem Returns.unique {loop : ℕ → Option α} {bound bound' : ℕ} {result result' : α}
    (h : Returns loop bound result) (h' : Returns loop bound' result') : result = result' := by
  have hm := h (max bound bound') (Nat.le_max_left ..)
  have hm' := h' (max bound bound') (Nat.le_max_right ..)
  exact Option.some.inj (hm.symm.trans hm')

end Fuel

section Operations

variable {T : Type*} [DecidableEq T]

/-- The field Next of every item, shared by all queues. -/
abbrev Next (T : Type*) := T → Option T

/-- The assignment item->Next = value. -/
def setNext (next : Next T) (item : T) (value : Option T) : Next T :=
  Function.update next item value

/-- The search for the item whose Next is null. -/
def lastItem (next : Next T) : ℕ → T → Option T
  | 0,_ => none
  | fuel+1,it =>
    match next it with
    | none => some it
    | some following => lastItem next fuel following

/-- Add an item at the front or behind the last item. The result holds the
links and the new value of first. -/
def add (fuel : ℕ) (next : Next T) (first : Option T) (item : T) (prepend : Bool) :
    Option (Next T × Option T) :=
  if prepend then some (setNext next item first,some item)
  else
    match first with
    | none => some (setNext next item none,some item)
    | some head =>
      (lastItem (setNext next item none) fuel head).map fun it =>
        (setNext (setNext next item none) it (some item),some head)

/-- Take the first item, if there is one. -/
def get (next : Next T) (first : Option T) : Option T × Next T × Option T :=
  match first with
  | none => (none,next,none)
  | some it => (some it,setNext next it none,next it)

/-- The loop of Remove behind its test of the first item. -/
def removeFrom (comparer : T → T → Bool) (item : T) (next : Next T) :
    ℕ → Option T → Option T → Option (Bool × Next T)
  | _,_,none => some (false,next)
  | 0,_,some _ => none
  | fuel+1,prev,some it =>
    if comparer it item then
      match prev with
      | none => some (true,setNext next it none)
      | some p => some (true,setNext (setNext next p (next it)) it none)
    else removeFrom comparer item next fuel (some it) (next it)

/-- Remove the first item the comparer accepts, and say whether there was one. -/
def remove (fuel : ℕ) (next : Next T) (first : Option T) (item : T)
    (comparer : T → T → Bool) : Option (Bool × Next T × Option T) :=
  match first with
  | none => some (false,next,none)
  | some head =>
    if comparer head item then some (true,setNext next item none,next item)
    else
      (removeFrom comparer item next fuel none (some head)).map fun r =>
        (r.1,r.2,some head)

/-- The comparer used when none is given. -/
def defaultItemComparer (a b : T) : Bool := decide (a = b)

/-- Call the action on every item. The action changes the state the queue is
part of, and the walk starts again at the first item whenever it asks for it. -/
def forEach {σ : Type*} (first : σ → Option T) (next : σ → Next T)
    (action : T → σ → Option (Bool × σ)) : ℕ → Option T → σ → Option σ
  | _,none,s => some s
  | 0,some _,_ => none
  | fuel+1,some it,s =>
    match action it s with
    | none => none
    | some (restart,s') =>
      forEach first next action fuel (if restart then first s' else next s' it) s'

end Operations

section Lists

variable {T : Type*}

/-- The items of a list are linked in order, from one pointer to another. -/
def Segment (next : Next T) : Option T → List T → Option T → Prop
  | first,[],last => first = last
  | first,x :: l,last => first = some x ∧ Segment next (next x) l last

/-- The queue that starts at a pointer holds the items of a list: its links
end in a null pointer. -/
def Linked (next : Next T) (first : Option T) (l : List T) : Prop :=
  Segment next first l none

/-- Only the links of the items of a segment matter to it. -/
theorem Segment.congr {next next' : Next T} {first last : Option T} {l : List T}
    (h : Segment next first l last) (hn : ∀ x ∈ l,next' x = next x) :
    Segment next' first l last := by
  induction l generalizing first with
  | nil => exact h
  | cons x l ih =>
    refine ⟨h.1,?_⟩
    rw [hn x (by simp)]
    exact ih h.2 fun y hy => hn y (by simp [hy])

/-- A segment is cut where its list is. -/
theorem segment_append {next : Next T} {first last : Option T} {l l' : List T} :
    Segment next first (l ++ l') last ↔
      ∃ mid,Segment next first l mid ∧ Segment next mid l' last := by
  induction l generalizing first with
  | nil => simp [Segment]
  | cons x l ih => simp [Segment,ih,and_assoc]

/-- A segment of one item. -/
theorem segment_singleton {next : Next T} {first last : Option T} {x : T} :
    Segment next first [x] last ↔ first = some x ∧ next x = last := Iff.rfl

/-- An empty queue has a null pointer to its first item, and no other has. -/
theorem Linked.eq_nil_iff {next : Next T} {first : Option T} {l : List T}
    (h : Linked next first l) : first = none ↔ l = [] := by
  cases l with
  | nil => exact ⟨fun _ => rfl,fun _ => h⟩
  | cons x l =>
    constructor
    · intro hn
      exact absurd (hn.symm.trans h.1) (by simp)
    · intro hn
      exact absurd hn (by simp)

/-- The links determine the items. -/
theorem Linked.unique {next : Next T} {first : Option T} {l l' : List T}
    (h : Linked next first l) (h' : Linked next first l') : l = l' := by
  induction l generalizing first l' with
  | nil => exact (h'.eq_nil_iff.mp h).symm
  | cons x l ih =>
    cases l' with
    | nil => exact h.eq_nil_iff.mp h'
    | cons y l' =>
      obtain rfl : x = y := Option.some.inj (h.1.symm.trans h'.1)
      rw [ih h.2 h'.2]

end Lists

section Specifications

variable {T : Type*} [DecidableEq T] {next : Next T} {first : Option T} {l : List T}

@[simp] theorem setNext_self (next : Next T) (item : T) (value : Option T) :
    setNext next item value item = value := Function.update_self ..

theorem setNext_ne {next : Next T} {item x : T} {value : Option T} (h : x ≠ item) :
    setNext next item value x = next x := Function.update_of_ne h ..

/-- A link outside a segment may change. -/
theorem Segment.setNext {last : Option T} {item : T} {value : Option T}
    (h : Segment next first l last) (hm : item ∉ l) :
    Segment (setNext next item value) first l last :=
  h.congr fun _ hx => setNext_ne fun he => hm (he ▸ hx)

omit [DecidableEq T] in
/-- The walk to the end of a queue stops at its last item. -/
theorem lastItem_eq {fuel : ℕ} {x z : T} (h : Linked next (some x) (l ++ [z]))
    (hf : l.length < fuel) : lastItem next fuel x = some z := by
  induction l generalizing x fuel with
  | nil =>
    obtain ⟨hx,hz⟩ := segment_singleton.mp h
    obtain rfl : x = z := Option.some.inj hx
    obtain ⟨n,rfl⟩ : ∃ n,fuel = n+1 := ⟨fuel-1,by simp at hf; omega⟩
    simp [lastItem,hz]
  | cons y l ih =>
    obtain ⟨hx,hl⟩ := h
    obtain rfl : x = y := Option.some.inj hx
    obtain ⟨n,rfl⟩ : ∃ n,fuel = n+1 := ⟨fuel-1,by simp at hf; omega⟩
    obtain ⟨y,hy⟩ : ∃ y,next x = some y := by
      cases l with
      | nil => exact ⟨z,hl.1⟩
      | cons y l => exact ⟨y,hl.1⟩
    rw [lastItem,hy]
    refine ih (hy ▸ hl) ?_
    simp only [List.length_cons] at hf
    omega

/-- Adding behind the last item. -/
theorem add_append {item : T} (h : Linked next first l) (hn : l.Nodup) (hm : item ∉ l) :
    ∃ next' first',Returns (add · next first item false) l.length (next',first') ∧
      Linked next' first' (l ++ [item]) ∧ ∀ x,x ∉ l → x ≠ item → next' x = next x := by
  rcases List.eq_nil_or_concat l with rfl | ⟨pre,z,rfl⟩
  · obtain rfl : first = none := h
    refine ⟨setNext next item none,some item,fun _ _ => rfl,?_,fun x _ hx => setNext_ne hx⟩
    exact ⟨rfl,setNext_self ..⟩
  · rw [List.concat_eq_append] at *
    obtain ⟨head,rfl⟩ : ∃ head,first = some head := by
      cases first with
      | none => exact absurd (h.eq_nil_iff.mp rfl) (by simp)
      | some head => exact ⟨head,rfl⟩
    have hlink : Linked (setNext next item none) (some head) (pre ++ [z]) := h.setNext hm
    have hlast (fuel : ℕ) (hf : (pre ++ [z]).length ≤ fuel) :
        lastItem (setNext next item none) fuel head = some z :=
      lastItem_eq hlink (by simp at hf; omega)
    refine ⟨setNext (setNext next item none) z (some item),some head,?_,?_,?_⟩
    · intro fuel hf
      simp only [add,Bool.false_eq_true,if_false,hlast fuel hf,Option.map_some]
    · have hz : z ∉ pre := fun hz => by
        have hd := List.disjoint_of_nodup_append hn hz
        exact hd (by simp)
      have hi : item ≠ z := fun he => hm (by simp [he])
      obtain ⟨mid,hpre,hzl⟩ := segment_append.mp hlink
      refine segment_append.mpr ⟨some item,segment_append.mpr ⟨mid,hpre.setNext hz,?_⟩,?_⟩
      · exact ⟨hzl.1,setNext_self ..⟩
      · refine ⟨rfl,?_⟩
        rw [setNext_ne hi,setNext_self]
        rfl
    · intro x hx hi
      rw [setNext_ne (fun he => hx (by simp [he])),setNext_ne hi]

/-- Adding in front of the first item. -/
theorem add_prepend {item : T} (h : Linked next first l) (hm : item ∉ l) :
    ∃ next' first',Returns (add · next first item true) l.length (next',first') ∧
      Linked next' first' (item :: l) ∧ ∀ x,x ∉ l → x ≠ item → next' x = next x := by
  refine ⟨setNext next item first,some item,fun _ _ => rfl,⟨rfl,?_⟩,fun x _ hx => setNext_ne hx⟩
  rw [setNext_self]
  exact h.setNext hm

/-- The list a queue holds after an item was added. -/
def added (l : List T) (item : T) (prepend : Bool) : List T :=
  if prepend then item :: l else l ++ [item]

/-- Adding to either end. -/
theorem add_spec {item : T} (prepend : Bool) (h : Linked next first l) (hn : l.Nodup)
    (hm : item ∉ l) :
    ∃ next' first',Returns (add · next first item prepend) l.length (next',first') ∧
      Linked next' first' (added l item prepend) ∧
        ∀ x,x ∉ l → x ≠ item → next' x = next x := by
  cases prepend with
  | false => exact add_append h hn hm
  | true => exact add_prepend h hm

/-- Taking the first item of a queue that has one. -/
theorem get_cons {x : T} (h : Linked next first (x :: l)) (hn : (x :: l).Nodup) :
    ∃ next' first',get next first = (some x,next',first') ∧ Linked next' first' l ∧
      ∀ y,y ∉ x :: l → next' y = next y := by
  obtain ⟨rfl,hl⟩ := h
  have hx : x ∉ l := (List.nodup_cons.mp hn).1
  exact ⟨setNext next x none,next x,rfl,hl.setNext hx,
    fun y hy => setNext_ne fun he => hy (by simp [he])⟩

/-- Taking an item from an empty queue. -/
theorem get_nil (h : Linked next first []) : get next first = (none,next,none) := by
  obtain rfl : first = none := h
  rfl

/-- The comparers of the kernel accept an item itself, under a condition. -/
def comparerOf (accept : T → Bool) (a b : T) : Bool := decide (a = b) && accept a

/-- The comparer used when none is given accepts every item. -/
theorem defaultItemComparer_eq :
    (defaultItemComparer : T → T → Bool) = comparerOf fun _ => true := by
  funext a b
  simp [defaultItemComparer,comparerOf]

theorem removeFrom_none (comparer : T → T → Bool) (item : T) (fuel : ℕ) (prev : Option T) :
    removeFrom comparer item next fuel prev none = some (false,next) := by
  cases fuel <;> rfl

theorem removeFrom_some (comparer : T → T → Bool) (item it : T) (fuel : ℕ) (prev : Option T) :
    removeFrom comparer item next (fuel+1) prev (some it) =
      if comparer it item then
        match prev with
        | none => some (true,setNext next it none)
        | some p => some (true,setNext (setNext next p (next it)) it none)
      else removeFrom comparer item next fuel (some it) (next it) := by
  cases prev <;> rfl

/-- The loop of Remove ends without effect when it accepts no item. -/
theorem removeFrom_missing (accept : T → Bool) {item : T} {fuel : ℕ} {prev : Option T}
    (h : Linked next first l) (hm : item ∈ l → accept item = false)
    (hf : l.length ≤ fuel) :
    removeFrom (comparerOf accept) item next fuel prev first = some (false,next) := by
  induction l generalizing first prev fuel with
  | nil =>
    obtain rfl : first = none := h
    exact removeFrom_none _ item fuel prev
  | cons x l ih =>
    obtain ⟨rfl,hl⟩ := h
    obtain ⟨n,rfl⟩ : ∃ n,fuel = n+1 := ⟨fuel-1,by simp at hf; omega⟩
    have hc : comparerOf accept x item = false := by
      by_cases hx : x = item
      · simp [comparerOf,hx,hm (by simp [hx])]
      · simp [comparerOf,hx]
    simp only [removeFrom_some,hc,Bool.false_eq_true,if_false]
    exact ih hl (fun hi => hm (by simp [hi])) (by simpa using hf)

/-- The loop of Remove takes an accepted item out of the links. -/
theorem removeFrom_found (accept : T → Bool) {item prev : T} {pre post : List T}
    (h : Segment next (some prev) (prev :: pre ++ item :: post) none)
    (hn : (prev :: pre ++ item :: post).Nodup) (ha : accept item = true) :
    ∃ next',Returns (removeFrom (comparerOf accept) item next · (some prev) (next prev))
        (pre.length+1) (true,next') ∧
      Segment next' (some prev) (prev :: pre ++ post) none ∧
      ∀ x,x ∉ prev :: pre → x ≠ item → next' x = next x := by
  induction pre generalizing prev with
  | nil =>
    obtain ⟨-,hi,hpost⟩ := h
    simp only [List.cons_append,List.nil_append,List.nodup_cons,List.mem_cons,not_or] at hn
    obtain ⟨⟨hpi,hpp⟩,hip,-⟩ := hn
    refine ⟨setNext (setNext next prev (next item)) item none,?_,⟨rfl,?_⟩,?_⟩
    · intro fuel hf
      obtain ⟨n,rfl⟩ : ∃ n,fuel = n+1 := ⟨fuel-1,by simp at hf; omega⟩
      simp [hi,removeFrom_some,comparerOf,ha]
    · rw [setNext_ne hpi,setNext_self]
      exact (hpost.setNext hpp).setNext hip
    · intro x hx hxi
      rw [setNext_ne hxi,setNext_ne (fun he => hx (by simp [he]))]
  | cons y pre ih =>
    obtain ⟨-,hy,hrest⟩ := h
    have hn' := List.nodup_cons.mp hn
    have hyi : y ≠ item := by
      rintro rfl
      exact (List.nodup_cons.mp hn'.2).1 (by simp)
    obtain ⟨next',hr,hs,hout⟩ := ih ⟨rfl,hrest⟩ hn'.2
    refine ⟨next',?_,⟨rfl,?_⟩,?_⟩
    · intro fuel hf
      obtain ⟨n,rfl⟩ : ∃ n,fuel = n+1 := ⟨fuel-1,by simp at hf; omega⟩
      rw [hy]
      simp only [removeFrom_some,comparerOf,hyi,decide_false,Bool.false_and,Bool.false_eq_true,
        if_false]
      exact hr n (by simpa using hf)
    · have hpy : next' prev = next prev := by
        refine hout prev (fun hm => hn'.1 ?_) fun he => hn'.1 (by simp [he])
        exact List.mem_append.mpr (Or.inl hm)
      rw [hpy,hy]
      exact hs
    · intro x hx hxi
      exact hout x (fun hm => hx (List.mem_cons_of_mem _ hm)) hxi

/-- The list a queue holds after Remove. -/
def removed (l : List T) (item : T) (accept : T → Bool) : List T :=
  if accept item then l.erase item else l

/-- Nothing is removed when no item of the queue is accepted. -/
theorem removed_eq_self {accept : T → Bool} {item : T}
    (h : (decide (item ∈ l) && accept item) = false) : removed l item accept = l := by
  unfold removed
  split_ifs with ha
  · exact List.erase_of_not_mem (by simpa [ha] using h)
  · rfl

/-- Remove takes an accepted item out of the queue and says whether it did. -/
theorem remove_spec (accept : T → Bool) (item : T) (h : Linked next first l) (hn : l.Nodup) :
    ∃ next' first',Returns (remove · next first item (comparerOf accept)) l.length
        (decide (item ∈ l) && accept item,next',first') ∧
      Linked next' first' (removed l item accept) ∧ ∀ x,x ∉ l → next' x = next x := by
  cases l with
  | nil =>
    obtain rfl : first = none := h
    exact ⟨next,none,fun _ _ => by simp [remove],by simp [removed,Linked,Segment],fun _ _ => rfl⟩
  | cons x l =>
    obtain ⟨rfl,hl⟩ := h
    have hx : x ∉ l := (List.nodup_cons.mp hn).1
    by_cases hc : comparerOf accept x item = true
    · obtain ⟨rfl,ha⟩ : x = item ∧ accept x = true := by simpa [comparerOf] using hc
      refine ⟨setNext next x none,next x,?_,?_,?_⟩
      · intro fuel _
        simp [remove,hc,ha]
      · have herase : removed (x :: l) x accept = l := by simp [removed,ha]
        rw [herase]
        exact hl.setNext hx
      · exact fun y hy => setNext_ne fun he => hy (by simp [he])
    · by_cases hfound : item ∈ x :: l ∧ accept item = true
      · obtain ⟨hmem,ha⟩ := hfound
        have hxi : x ≠ item := by
          rintro rfl
          exact hc (by simp [comparerOf,ha])
        obtain ⟨pre,post,rfl⟩ := List.append_of_mem ((List.mem_cons.mp hmem).resolve_left hxi.symm)
        obtain ⟨next',hr,hs,hout⟩ := removeFrom_found accept ⟨rfl,hl⟩ hn ha
        have herase : removed (x :: (pre ++ item :: post)) item accept =
            x :: pre ++ post := by
          have hpre : item ∉ x :: pre := by
            intro hm
            exact (List.nodup_append.mp hn).2.2 item hm item (by simp) rfl
          rw [removed,if_pos ha,←List.cons_append,List.erase_append_right _ hpre,
            List.erase_cons_head]
        refine ⟨next',some x,?_,?_,?_⟩
        · intro fuel hf
          obtain ⟨n,rfl⟩ : ∃ n,fuel = n+1 := ⟨fuel-1,by simp at hf; omega⟩
          have hskip : removeFrom (comparerOf accept) item next (n+1) none (some x) =
              some (true,next') := by
            rw [←hr n (by simp at hf; omega),removeFrom_some,if_neg hc]
          simp [remove,hc,hskip,ha]
        · rw [herase]
          exact hs
        · intro y hy
          exact hout y (fun hm => hy (by simp only [List.mem_cons,List.mem_append] at hm ⊢; grind)) fun he => hy (by simp [he])
      · have hmiss : item ∈ x :: l → accept item = false := fun hm => by
          simpa using fun ha => hfound ⟨hm,ha⟩
        have hnone : (decide (item ∈ x :: l) && accept item) = false := by
          rw [Bool.and_eq_false_iff]
          by_cases hm : item ∈ x :: l
          · exact Or.inr (hmiss hm)
          · exact Or.inl (by simp [hm])
        have hlink : Linked next (some x) (x :: l) := ⟨rfl,hl⟩
        refine ⟨next,some x,?_,?_,fun _ _ => rfl⟩
        · intro fuel hf
          have hloop : removeFrom (comparerOf accept) item next fuel none (some x) =
              some (false,next) := removeFrom_missing accept hlink hmiss hf
          rw [hnone]
          simp [remove,hc,hloop]
        · rw [removed_eq_self hnone]
          exact hlink

end Specifications

end WootOs.ObjectQueue
