import Mathlib.Logic.Function.Basic
import WootOs.ByteMemory

/-!
# Removal from a linked list

List is a chain of nodes. Remove unlinks and deletes the nodes that match, and
returns after the first if it is not to remove all of them. Otherwise the loop goes
on from the node that it has just deleted, along its link, with it as the
predecessor of what comes next. What a deleted node reads as is arbitrary here.
-/

namespace WootOs.ListRemoval

open ByteMemory

section Nodes

/-- List::Node. -/
structure Node (α : Type*) where
  /-- Next, unless it is null. -/
  next : Option Word
  /-- Value. -/
  value : α

/-- List, with the memory that its nodes are in. -/
structure NodeList (α : Type*) where
  /-- First, unless it is null. -/
  first : Option Word
  /-- What is at the address of a node. -/
  nodes : Word → Node α
  /-- The node has not been deleted. -/
  live : Word → Bool
  /-- The link of a deleted node has been followed. -/
  stale : Bool

namespace NodeList

variable {α : Type*} (s : NodeList α)

/-- The link of a node is set, or First if there is no node. -/
def setLink (prev next : Option Word) : NodeList α :=
  match prev with
  | none => { s with first := next }
  | some p => { s with nodes := Function.update s.nodes p { s.nodes p with next := next } }

/-- A node is deleted, and reads as something then. -/
def delete (junk : Word → Node α) (a : Word) : NodeList α :=
  { s with
    nodes := Function.update s.nodes a (junk a)
    live := Function.update s.live a false }

/-- The link of a node is followed. -/
def follow (a : Word) : NodeList α := { s with stale := s.stale || !s.live a }

/-- The loop of Remove, if it ends in so many rounds. -/
def removeFrom (comparer : α → α → Bool) (value : α) (all : Bool) (junk : Word → Node α) :
    ℕ → NodeList α → Option Word → Option Word → Word → Option (Word × NodeList α)
  | 0,_,_,_,_ => none
  | _+1,s,_,none,removed => some (removed,s)
  | fuel+1,s,prev,some a,removed =>
    if comparer (s.nodes a).value value then
      let s := (s.setLink prev (s.nodes a).next).delete junk a
      let removed := removed + 1
      if !all then some (removed,s)
      else
        removeFrom comparer value all junk fuel (s.follow a) (some a) (s.nodes a).next removed
    else removeFrom comparer value all junk fuel (s.follow a) (some a) (s.nodes a).next removed

/-- The comparer, or equality. -/
def comparerOf [DecidableEq α] (comparer : Option (α → α → Bool)) : α → α → Bool :=
  comparer.getD fun a b => a = b

/-- List::Remove, if the loop ends in so many rounds. -/
def remove [DecidableEq α] (value : α) (comparer : Option (α → α → Bool)) (all : Bool)
    (junk : Word → Node α) (fuel : ℕ) : Option (Word × NodeList α) :=
  removeFrom (comparerOf comparer) value all junk fuel s none s.first 0

end NodeList

end Nodes

section Chains

variable {α : Type*} {s s' : NodeList α} {as bs : List Word} {p q : Option Word}

/-- The links lead through some nodes. -/
def NodeList.Leads (s : NodeList α) : Option Word → List Word → Option Word → Prop
  | p,[],q => p = q
  | p,a::as,q => p = some a ∧ s.live a = true ∧ s.Leads (s.nodes a).next as q

/-- The list has these nodes. -/
def NodeList.Has (s : NodeList α) (as : List Word) : Prop :=
  s.Leads s.first as none ∧ as.Nodup

/-- The list has these elements. -/
def NodeList.Contains (s : NodeList α) (l : List α) : Prop :=
  ∃ as,s.Has as ∧ as.map (fun a => (s.nodes a).value) = l

/-- What is expected of Remove: it returns with the elements left that are to be left, and with
the number of the others, and it has followed no link of a deleted node. -/
def Removes [DecidableEq α] (s : NodeList α) (l : List α) (value : α)
    (comparer : Option (α → α → Bool)) (all : Bool) (junk : Word → Node α) : Prop :=
  ∃ fuel n s',s.remove value comparer all junk fuel = some (n,s') ∧
    s'.Contains (if all then l.filter fun x => !NodeList.comparerOf comparer x value
      else l.eraseP fun x => NodeList.comparerOf comparer x value) ∧
    n.toNat = (if all then l.countP fun x => NodeList.comparerOf comparer x value
      else if l.any fun x => NodeList.comparerOf comparer x value then 1 else 0) ∧
    s'.stale = false

/-- The links through two lists of nodes. -/
theorem leads_append : s.Leads p (as ++ bs) q ↔ ∃ r,s.Leads p as r ∧ s.Leads r bs q := by
  induction as generalizing p with
  | nil => exact ⟨fun h => ⟨p,rfl,h⟩,fun ⟨r,hr,h⟩ => hr ▸ h⟩
  | cons a as ih =>
    rw [List.cons_append,NodeList.Leads,ih]
    constructor
    · rintro ⟨hp,hlive,r,hr,h⟩
      exact ⟨r,⟨hp,hlive,hr⟩,h⟩
    · rintro ⟨r,⟨hp,hlive,hr⟩,h⟩
      exact ⟨hp,hlive,r,hr,h⟩

/-- Only the nodes matter that the links lead through. -/
theorem leads_congr (h : ∀ a ∈ as,s'.nodes a = s.nodes a ∧ s'.live a = s.live a)
    (hl : s.Leads p as q) : s'.Leads p as q := by
  induction as generalizing p with
  | nil => exact hl
  | cons a as ih =>
    obtain ⟨hp,hlive,hrest⟩ := hl
    obtain ⟨hnode,hl⟩ := h a List.mem_cons_self
    refine ⟨hp,hl.trans hlive,?_⟩
    rw [hnode]
    exact ih (fun b hb => h b (List.mem_cons_of_mem a hb)) hrest

/-- A node that has not been deleted may be followed. -/
theorem follow_live {a : Word} (h : s.live a = true) : s.follow a = s := by
  rw [NodeList.follow,h,Bool.not_true,Bool.or_false]

/-- A node is taken out of the list. -/
theorem unlink_has {a : Word} (h : s.Has (as ++ a :: bs)) (junk : Word → Node α) :
    ((s.setLink as.getLast? (s.nodes a).next).delete junk a).Has (as ++ bs) ∧
      (as ++ bs).map (fun x =>
        (((s.setLink as.getLast? (s.nodes a).next).delete junk a).nodes x).value) =
      (as ++ bs).map fun x => (s.nodes x).value := by
  obtain ⟨hleads,hnodup⟩ := h
  have hnodup' : (as ++ bs).Nodup := hnodup.sublist ((List.sublist_cons_self a bs).append_left as)
  have hmem : a ∉ as ++ bs := (List.nodup_middle.mp hnodup).notMem
  rw [leads_append] at hleads
  obtain ⟨r,hbefore,rfl,hlive,hafter⟩ := hleads
  cases as using List.reverseRecOn with
  | nil =>
    have hkeep : ∀ x ∈ bs,((s.setLink none (s.nodes a).next).delete junk a).nodes x = s.nodes x ∧
        ((s.setLink none (s.nodes a).next).delete junk a).live x = s.live x := by
      intro x hx
      have hne : x ≠ a := fun he => hmem (he ▸ hx)
      exact ⟨Function.update_of_ne hne ..,Function.update_of_ne hne ..⟩
    refine ⟨⟨leads_congr hkeep hafter,hnodup'⟩,List.map_congr_left fun x hx => ?_⟩
    exact congrArg Node.value (hkeep x hx).1
  | append_singleton as p =>
    rw [List.getLast?_concat]
    rw [leads_append] at hbefore
    obtain ⟨r,hpre,rfl,hp,hlink⟩ := hbefore
    have hpa : p ≠ a := fun he => hmem (he ▸ List.mem_append_left _ List.mem_concat_self)
    have hnp : p ∉ as ++ bs := by
      rw [List.append_assoc] at hnodup'
      exact (List.nodup_middle.mp hnodup').notMem
    have hkeep : ∀ x ∈ as ++ bs,
        ((s.setLink (some p) (s.nodes a).next).delete junk a).nodes x = s.nodes x ∧
          ((s.setLink (some p) (s.nodes a).next).delete junk a).live x = s.live x := by
      intro x hx
      have hne : x ≠ a := by
        rintro rfl
        refine hmem (List.mem_append.mpr ?_)
        obtain hx | hx := List.mem_append.mp hx
        · exact .inl (List.mem_append_left _ hx)
        · exact .inr hx
      have hne' : x ≠ p := fun he => hnp (he ▸ hx)
      refine ⟨?_,Function.update_of_ne hne ..⟩
      exact (Function.update_of_ne hne ..).trans (Function.update_of_ne hne' ..)
    have hnode : ((s.setLink (some p) (s.nodes a).next).delete junk a).nodes p =
        { s.nodes p with next := (s.nodes a).next } :=
      (Function.update_of_ne hpa ..).trans (Function.update_self ..)
    have hlive' : ((s.setLink (some p) (s.nodes a).next).delete junk a).live p = true :=
      (Function.update_of_ne hpa ..).trans hp
    refine ⟨⟨?_,hnodup'⟩,List.map_congr_left fun x hx => ?_⟩
    · rw [leads_append]
      refine ⟨(s.nodes a).next,leads_append.mpr ⟨some p,?_,rfl,hlive',?_⟩,?_⟩
      · exact leads_congr (fun x hx => hkeep x (List.mem_append_left bs hx)) hpre
      · rw [hnode]
        rfl
      · exact leads_congr (fun x hx => hkeep x (List.mem_append_right as hx)) hafter
    · by_cases hxp : x = p
      · rw [hxp,hnode]
      · refine congrArg Node.value (hkeep x ?_).1
        rw [List.append_assoc] at hx
        obtain hx | hx := List.mem_append.mp hx
        · exact List.mem_append_left bs hx
        · obtain rfl | hx := List.mem_cons.mp hx
          · exact absurd rfl hxp
          · exact List.mem_append_right as hx

end Chains

section Loop

variable {α : Type*} {comparer : α → α → Bool} {value : α} {all : Bool} {junk : Word → Node α}
variable {s s' : NodeList α} {as bs : List Word} {a : Word} {prev node : Option Word}
variable {removed n : Word} {fuel : ℕ}

theorem removeFrom_some :
    NodeList.removeFrom comparer value all junk (fuel + 1) s prev (some a) removed =
      if comparer (s.nodes a).value value then
        let s := (s.setLink prev (s.nodes a).next).delete junk a
        if !all then some (removed + 1,s)
        else NodeList.removeFrom comparer value all junk fuel (s.follow a) (some a)
          (s.nodes a).next (removed + 1)
      else NodeList.removeFrom comparer value all junk fuel (s.follow a) (some a)
        (s.nodes a).next removed := by
  rw [NodeList.removeFrom]

/-- Nothing happens where no element matches. -/
theorem removeFrom_none (h : s.Leads node as none)
    (hno : ∀ x ∈ as,comparer (s.nodes x).value value = false) :
    NodeList.removeFrom comparer value all junk (as.length + 1) s prev node removed =
      some (removed,s) := by
  induction as generalizing prev node with
  | nil =>
    obtain rfl : node = none := h
    rfl
  | cons x as ih =>
    obtain ⟨rfl,hlive,hrest⟩ := h
    have hx := hno x List.mem_cons_self
    rw [List.length_cons,removeFrom_some,hx,if_neg Bool.false_ne_true,follow_live hlive]
    exact ih hrest fun y hy => hno y (List.mem_cons_of_mem x hy)

/-- The first element that matches is taken out, if it is only the first. -/
theorem removeFrom_first (h : s.Leads node (as ++ a :: bs) none)
    (hno : ∀ x ∈ as,comparer (s.nodes x).value value = false)
    (hyes : comparer (s.nodes a).value value = true) :
    NodeList.removeFrom comparer value false junk (as.length + 1) s prev node removed =
      some (removed + 1,(s.setLink (as.getLast?.or prev) (s.nodes a).next).delete junk a) := by
  induction as generalizing prev node with
  | nil =>
    obtain ⟨rfl,-,-⟩ := h
    rw [List.length_nil,removeFrom_some,if_pos hyes]
    rfl
  | cons x as ih =>
    obtain ⟨rfl,hlive,hrest⟩ := h
    have hx := hno x List.mem_cons_self
    rw [List.length_cons,removeFrom_some,hx,if_neg Bool.false_ne_true,follow_live hlive,
      ih hrest fun y hy => hno y (List.mem_cons_of_mem x hy)]
    cases as using List.reverseRecOn with
    | nil => rfl
    | append_singleton as p => rw [←List.cons_append,List.getLast?_concat,List.getLast?_concat]; rfl

/-- A link that has been followed stays so. -/
theorem removeFrom_stale (h : NodeList.removeFrom comparer value all junk fuel s prev node removed =
    some (n,s')) (hstale : s.stale = true) : s'.stale = true := by
  induction fuel generalizing s prev node removed with
  | zero => cases h
  | succ fuel ih =>
    have hfollow : ∀ t : NodeList α,t.stale = true → ∀ a,(t.follow a).stale = true := by
      intro t ht a
      rw [NodeList.follow,ht,Bool.true_or]
    cases node with
    | none =>
      cases h
      exact hstale
    | some a =>
      have hunlink : ((s.setLink prev (s.nodes a).next).delete junk a).stale = true := by
        cases prev <;> exact hstale
      rw [removeFrom_some] at h
      split_ifs at h with hmatch hall
      · cases h
        exact hunlink
      · exact ih h (hfollow _ hunlink a)
      · exact ih h (hfollow _ hstale a)

/-- To remove all elements that match, the loop follows the link of the first of them after it
has been deleted. -/
theorem removeFrom_all (h : s.Leads node (as ++ a :: bs) none)
    (hno : ∀ x ∈ as,comparer (s.nodes x).value value = false)
    (hyes : comparer (s.nodes a).value value = true)
    (hrun : NodeList.removeFrom comparer value true junk fuel s prev node removed = some (n,s')) :
    s'.stale = true := by
  induction as generalizing fuel prev node with
  | nil =>
    obtain ⟨rfl,-,-⟩ := h
    cases fuel with
    | zero => cases hrun
    | succ fuel =>
      rw [removeFrom_some,if_pos hyes] at hrun
      refine removeFrom_stale hrun ?_
      have hdead : ((s.setLink prev (s.nodes a).next).delete junk a).live a = false :=
        Function.update_self ..
      rw [NodeList.follow,hdead,Bool.not_false,Bool.or_true]
  | cons x as ih =>
    obtain ⟨rfl,hlive,hrest⟩ := h
    cases fuel with
    | zero => cases hrun
    | succ fuel =>
      have hx := hno x List.mem_cons_self
      rw [removeFrom_some,hx,if_neg Bool.false_ne_true,follow_live hlive] at hrun
      exact ih hrest (fun y hy => hno y (List.mem_cons_of_mem x hy)) hrun

end Loop

section Removal

variable {α : Type*} [DecidableEq α] {s : NodeList α} {l : List α} {value : α}
variable {comparer : Option (α → α → Bool)} {all : Bool} {junk : Word → Node α}

/-- Where no element matches, Remove leaves them all. -/
theorem removes_none (h : s.Contains l) (hs : s.stale = false)
    (hno : ∀ x ∈ l,NodeList.comparerOf comparer x value = false) :
    Removes s l value comparer all junk := by
  have hcontains := h
  obtain ⟨as,⟨hleads,hnodup⟩,rfl⟩ := h
  refine ⟨as.length + 1,0,s,removeFrom_none hleads fun a ha => hno _ (List.mem_map_of_mem ha),
    ?_,?_,hs⟩
  · have hfilter : ∀ x ∈ as.map fun a => (s.nodes a).value,
        (!NodeList.comparerOf comparer x value) = true := by
      intro x hx
      rw [hno x hx]
      rfl
    rw [List.filter_eq_self.mpr hfilter,List.eraseP_of_forall_not fun x hx => by
      rw [hno x hx]
      exact Bool.false_ne_true,ite_self]
    exact hcontains
  · have hcount : (as.map fun a => (s.nodes a).value).countP
        (fun x => NodeList.comparerOf comparer x value) = 0 :=
      List.countP_eq_zero.mpr fun x hx => by
        rw [hno x hx]
        exact Bool.false_ne_true
    have hany : (as.map fun a => (s.nodes a).value).any
        (fun x => NodeList.comparerOf comparer x value) = false :=
      List.any_eq_false.mpr fun x hx => by
        rw [hno x hx]
        exact Bool.false_ne_true
    rw [hcount,hany]
    cases all <;> rfl

/-- The nodes before and behind the first that matches. -/
theorem exists_first {as : List Word} (h : ∃ x ∈ as.map fun a => (s.nodes a).value,
    NodeList.comparerOf comparer x value = true) :
    ∃ as₁ a as₂,as = as₁ ++ a :: as₂ ∧
      (∀ x ∈ as₁,NodeList.comparerOf comparer (s.nodes x).value value = false) ∧
      NodeList.comparerOf comparer (s.nodes a).value value = true := by
  obtain ⟨x,hx,hmatch⟩ := h
  obtain ⟨b,hb,rfl⟩ := List.mem_map.mp hx
  obtain ⟨a,as₁,as₂,hno,hyes,heq,-⟩ := List.exists_of_eraseP
    (p := fun a => NodeList.comparerOf comparer (s.nodes a).value value) hb hmatch
  exact ⟨as₁,a,as₂,heq,fun x hx => Bool.eq_false_iff.mpr (hno x hx),hyes⟩

/-- Remove takes out the first element that matches. -/
theorem removes_first (h : s.Contains l) (hs : s.stale = false)
    (hyes : ∃ x ∈ l,NodeList.comparerOf comparer x value = true) :
    Removes s l value comparer false junk := by
  obtain ⟨as,hhas,rfl⟩ := h
  obtain ⟨as₁,a,as₂,rfl,hno,hmatch⟩ := exists_first hyes
  obtain ⟨hhas',hvalues⟩ := unlink_has hhas junk
  have hrun : s.remove value comparer false junk (as₁.length + 1) =
      some (0 + 1,(s.setLink (as₁.getLast?.or none) (s.nodes a).next).delete junk a) :=
    removeFrom_first hhas.1 hno hmatch
  rw [Option.or_none] at hrun
  refine ⟨as₁.length + 1,1,_,hrun,⟨as₁ ++ as₂,hhas',?_⟩,?_,?_⟩
  · rw [hvalues,List.map_append,List.map_append,List.map_cons,if_neg Bool.false_ne_true,
      List.eraseP_append_right _ ?_,
      List.eraseP_cons_of_pos (p := fun x => NodeList.comparerOf comparer x value) hmatch]
    intro x hx
    obtain ⟨b,hb,rfl⟩ := List.mem_map.mp hx
    rw [hno b hb]
    exact Bool.false_ne_true
  · rw [if_neg Bool.false_ne_true,if_pos]
    · rfl
    · exact List.any_eq_true.mpr hyes
  · cases as₁.getLast? <;> exact hs

/-- Remove does what is expected of it if it is to remove only the first element, or if no
element matches. -/
theorem removes_iff (h : s.Contains l) (hs : s.stale = false) :
    Removes s l value comparer all junk ↔
      all = false ∨ ∀ x ∈ l,NodeList.comparerOf comparer x value = false := by
  by_cases hno : ∀ x ∈ l,NodeList.comparerOf comparer x value = false
  · exact ⟨fun _ => .inr hno,fun _ => removes_none h hs hno⟩
  · have hyes : ∃ x ∈ l,NodeList.comparerOf comparer x value = true := by
      by_contra hnone
      exact hno fun x hx => Bool.eq_false_iff.mpr fun ht => hnone ⟨x,hx,ht⟩
    refine ⟨fun hremoves => .inl ?_,fun hor => ?_⟩
    · cases all with
      | false => rfl
      | true =>
        obtain ⟨fuel,n,s',hrun,-,-,hstale⟩ := hremoves
        obtain ⟨as,⟨hleads,-⟩,rfl⟩ := h
        obtain ⟨as₁,a,as₂,rfl,hbefore,hmatch⟩ := exists_first hyes
        have htrue := removeFrom_all hleads hbefore hmatch hrun
        rw [hstale] at htrue
        cases htrue
    · obtain rfl := hor.resolve_right hno
      exact removes_first h hs hyes

/-- Two nodes with the same value. -/
def twins : NodeList ℕ where
  first := some 0x100
  nodes := fun a => if a = 0x100 then ⟨some 0x200,7⟩ else ⟨none,7⟩
  live := fun _ => true
  stale := false

theorem twins_contains : twins.Contains [7,7] :=
  ⟨[0x100,0x200],⟨⟨rfl,rfl,rfl,rfl,rfl⟩,by decide⟩,rfl⟩

theorem removes_iff_twins : Removes twins [7,7] 7 none false twins.nodes ↔
    false = false ∨ ∀ x ∈ [7,7],NodeList.comparerOf none x 7 = false :=
  removes_iff twins_contains rfl

/-- Where both are to be removed, First still leads to the second afterwards, even where
deleted nodes read as before. -/
theorem twins_not_removed : twins.Contains [7,7] ∧
    ¬Removes twins [7,7] 7 none true twins.nodes := by
  refine ⟨⟨[0x100,0x200],⟨⟨rfl,rfl,rfl,rfl,rfl⟩,by decide⟩,rfl⟩,?_⟩
  rintro ⟨fuel,n,s',hrun,⟨as,⟨hleads,-⟩,hempty⟩,-,-⟩
  obtain rfl : as = [] := List.map_eq_nil_iff.mp hempty
  match fuel with
  | 0 => cases hrun
  | 1 => cases hrun
  | 2 => cases hrun
  | fuel+3 =>
    cases hrun
    cases hleads

end Removal

end WootOs.ListRemoval
