import Mathlib.Data.List.Perm.Subperm
import Mathlib.Logic.Relation
import WootOs.ObjectTree
import WootOs.Runs

/-!
# Links of the object tree

An object in the tree is in the list of children of its parent. AddChild sets
both links and does not look at those the object has. RemoveChild finds an
object by a path of any length, clears its parent, and takes it out of the
children of the object it is called on, which is the parent only for a path of
one component. UnRegister searches the first children only, since its loop
returns in its first turn, and does not take out what it finds.

So the links stay in order in runs that add objects without a parent, remove
children, and unregister what is not in the tree.
-/

namespace WootOs.ObjectLinks

open Runs ObjectTree

/-- What can happen to the tree. -/
inductive Op where
  /-- ObjectTree::Item::AddChild. -/
  | addChild (this item : ℕ)
  /-- ObjectTree::MakeDir. -/
  | makeDir (path : Text)
  /-- ObjectTree::Item::RemoveChild. -/
  | removeChild (this : ℕ) (path : Text)
  /-- ObjectTree::UnRegister. -/
  | unRegister (item : ℕ)

/-- ObjectTree::Item::removeChild. -/
def removeChild (t : Objects) (this item : ℕ) : Objects :=
  { t with
    children := Function.update t.children this ((t.children this).erase item)
    parent := Function.update t.parent item none
    tree := Function.update t.tree item false }

/-- ObjectTree::Item::RemoveChild. -/
def removePath (m : Stack) (t : Objects) (this : ℕ) (path : Text) : Bool × Objects :=
  match (t.getChild m false (parts path) this).1 with
  | some item => (true,removeChild t this item)
  | none => (false,t)

/-- ObjectTree::Item::unRegister. The loop over the children returns in its first
turn. -/
def unRegister (t : Objects) (item : ℕ) : ℕ → ℕ → Option Bool
  | 0,_ => none
  | fuel+1,this =>
    match t.children this with
    | [] => some false
    | i :: _ => if i = item then some true else unRegister t item fuel i

/-- ObjectTree::UnRegister, for as many calls as there are objects. -/
def unRegisterItem (t : Objects) (item : ℕ) : Option Bool := unRegister t item (t.next + 1) root

/-- The effect of an operation. -/
def apply (m : Stack) (t : Objects) : Op → Objects
  | .addChild this item => t.addChild m this item
  | .makeDir path => (t.makeDir m path).2
  | .removeChild this path => (removePath m t this path).2
  | .unRegister _ => t

/-- The calls that can be made: they name objects that exist, and AddChild and
RemoveChild use the tree of the object they are called on. -/
def Enabled (t : Objects) : Op → Prop
  | .addChild this item => this < t.next ∧ t.tree this = true ∧ item < t.next
  | .makeDir _ => True
  | .removeChild this _ => this < t.next ∧ t.tree this = true
  | .unRegister item => item < t.next

instance (t : Objects) (op : Op) : Decidable (Enabled t op) :=
  match op with
  | .addChild this item =>
    inferInstanceAs (Decidable (this < t.next ∧ t.tree this = true ∧ item < t.next))
  | .makeDir _ => inferInstanceAs (Decidable True)
  | .removeChild this _ => inferInstanceAs (Decidable (this < t.next ∧ t.tree this = true))
  | .unRegister item => inferInstanceAs (Decidable (item < t.next))

/-- An object is below the root. -/
def InTree (t : Objects) (item : ℕ) : Prop :=
  Relation.TransGen (fun p c => c ∈ t.children p) root item

/-- An operation does what the tree is for. -/
structure Right (m : Stack) (t : Objects) (op : Op) : Prop where
  /-- Children and parents agree. -/
  linked : ∀ x p,x ∈ (apply m t op).children p ↔ (apply m t op).parent x = some p
  /-- A path from which RemoveChild removed something does not lead to it any more. -/
  removed : ∀ this path item,op = .removeChild this path →
    (removePath m t this path).1 = true →
    (t.getChild m false (parts path) this).1 = some item →
    ((apply m t op).getChild m false (parts path) this).1 ≠ some item
  /-- UnRegister returns whether the object is in the tree, and then it is not. -/
  unregistered : ∀ item,op = .unRegister item →
    ∃ b,unRegisterItem t item = some b ∧ (b = true ↔ InTree t item) ∧
      (b = true → ¬InTree (apply m t op) item)

/-- The operations the tree bears: what is added has no parent and is not the
root, what is removed is a child of the object, and what is unregistered is
not in the tree. -/
def Bears (m : Stack) (t : Objects) : Op → Prop
  | .addChild _ item => t.parent item = none ∧ item ≠ root
  | .makeDir _ => True
  | .removeChild this path =>
    ∀ item ∈ (t.getChild m false (parts path) this).1,t.parent item = some this
  | .unRegister item => ¬InTree t item

/-- A tree: children and parents agree, nothing is in a list twice, and the root
has no parent. -/
structure Linked (t : Objects) : Prop where
  /-- The children of an object are those whose parent it is. -/
  mem_iff : ∀ {x p},x ∈ t.children p ↔ t.parent x = some p
  /-- None of them is there twice. -/
  nodup : ∀ p,(t.children p).Nodup
  /-- The root has no parent. -/
  root_parent : t.parent root = none
  /-- The root exists. -/
  root_lt : root < t.next
  /-- Children and parents exist. -/
  lt : ∀ {x p},x ∈ t.children p → x < t.next ∧ p < t.next

section Steps

variable {m : Stack} {t : Objects}

/-- An object without a parent is in no list of children. -/
theorem Linked.not_mem (h : Linked t) {x p : ℕ} (hx : t.parent x = none) : x ∉ t.children p :=
  fun hm => by simp [h.mem_iff.mp hm] at hx

/-- A new object has no parent and no children. -/
theorem Linked.fresh (h : Linked t) {x : ℕ} (hx : t.next ≤ x) :
    t.parent x = none ∧ t.children x = [] := by
  constructor
  · cases hp : t.parent x with
    | none => rfl
    | some p => exact absurd (h.lt (h.mem_iff.mpr hp)).1 (not_lt.mpr hx)
  · refine List.eq_nil_iff_forall_not_mem.mpr fun c hc => ?_
    exact absurd (h.lt hc).2 (not_lt.mpr hx)

/-- A new directory is not in the tree. -/
theorem Linked.newDirectory (h : Linked t) (name : Text) : Linked (t.newDirectory name) := by
  obtain ⟨hparent,hchildren⟩ := h.fresh (le_refl t.next)
  have hp : (t.newDirectory name).parent = t.parent := by
    unfold Objects.newDirectory
    dsimp only
    rw [←hparent,Function.update_eq_self]
  have hc : (t.newDirectory name).children = t.children := by
    unfold Objects.newDirectory
    dsimp only
    rw [←hchildren,Function.update_eq_self]
  refine ⟨?_,?_,?_,Nat.lt_succ_of_lt h.root_lt,?_⟩
  · rw [hp,hc]
    exact h.mem_iff
  · rw [hc]
    exact h.nodup
  · rw [hp]
    exact h.root_parent
  · intro x p hx
    rw [hc] at hx
    exact (h.lt hx).imp Nat.lt_succ_of_lt Nat.lt_succ_of_lt

/-- Adding an object without a parent keeps the links. -/
theorem Linked.addChild (h : Linked t) {this item : ℕ} (hthis : this < t.next)
    (hitem : item < t.next) (hparent : t.parent item = none) (hroot : item ≠ root) :
    Linked (t.addChild m this item) := by
  have hmem {x p : ℕ} : x ∈ (t.addChild m this item).children p ↔
      x ∈ t.children p ∨ x = item ∧ p = this := by
    unfold Objects.addChild
    dsimp only
    by_cases hp : p = this
    · subst hp
      rw [Function.update_self,mem_insertBefore]
      simp [or_comm]
    · rw [Function.update_of_ne hp]
      simp [hp]
  refine ⟨fun {x p} => ?_,fun p => ?_,?_,h.root_lt,fun {x p} hx => ?_⟩
  · rw [hmem]
    unfold Objects.addChild
    dsimp only
    by_cases hx : x = item
    · subst hx
      rw [Function.update_self]
      simp [h.not_mem hparent,eq_comm]
    · rw [Function.update_of_ne hx,h.mem_iff]
      simp [hx]
  · unfold Objects.addChild
    dsimp only
    by_cases hp : p = this
    · subst hp
      rw [Function.update_self]
      exact nodup_insertBefore (h.nodup p) (h.not_mem hparent)
    · rw [Function.update_of_ne hp]
      exact h.nodup p
  · unfold Objects.addChild
    dsimp only
    rw [Function.update_of_ne hroot.symm]
    exact h.root_parent
  · rcases hmem.mp hx with hx | ⟨rfl,rfl⟩
    · exact h.lt hx
    · exact ⟨hitem,hthis⟩

/-- Making directories keeps the links. -/
theorem Linked.getChild (h : Linked t) {this : ℕ} (hthis : this < t.next) (ps : List Text) :
    Linked (t.getChild m true ps this).2 := by
  induction ps generalizing t this with
  | nil => exact h
  | cons part rest ih =>
    unfold Objects.getChild
    cases hfind : t.findChild m this part with
    | some child =>
      dsimp only
      split_ifs
      · exact h
      · exact ih h (h.lt (List.mem_of_find?_eq_some hfind)).1
    | none =>
      have hnew := h.newDirectory part
      have hadd : Linked ((t.newDirectory part).addChild m this t.next) := by
        refine hnew.addChild (Nat.lt_succ_of_lt hthis) (Nat.lt_succ_self _) ?_ ?_
        · exact Function.update_self ..
        · exact Nat.ne_of_gt h.root_lt
      dsimp only
      rw [if_pos rfl]
      split_ifs
      · exact hadd
      · exact ih hadd (Nat.lt_succ_self _)

/-- Removing a child keeps the links. -/
theorem Linked.removeChild (h : Linked t) {this item : ℕ} (hparent : t.parent item = some this) :
    Linked (ObjectLinks.removeChild t this item) := by
  have hmem {x p : ℕ} : x ∈ (ObjectLinks.removeChild t this item).children p ↔
      x ∈ t.children p ∧ x ≠ item := by
    unfold ObjectLinks.removeChild
    dsimp only
    by_cases hp : p = this
    · subst hp
      rw [Function.update_self,(h.nodup p).mem_erase_iff,and_comm]
    · rw [Function.update_of_ne hp]
      refine (and_iff_left_of_imp fun hx => ?_).symm
      rintro rfl
      exact hp (Option.some.inj ((h.mem_iff.mp hx).symm.trans hparent))
  refine ⟨fun {x p} => ?_,fun p => ?_,?_,h.root_lt,fun {x p} hx => h.lt (hmem.mp hx).1⟩
  · rw [hmem]
    unfold ObjectLinks.removeChild
    dsimp only
    by_cases hx : x = item
    · subst hx
      simp
    · rw [Function.update_of_ne hx,h.mem_iff]
      simp [hx]
  · unfold ObjectLinks.removeChild
    dsimp only
    by_cases hp : p = this
    · subst hp
      rw [Function.update_self]
      exact (h.nodup p).erase item
    · rw [Function.update_of_ne hp]
      exact h.nodup p
  · unfold ObjectLinks.removeChild
    dsimp only
    by_cases hroot : root = item
    · rw [hroot,Function.update_self]
    · rw [Function.update_of_ne hroot]
      exact h.root_parent

end Steps

section Searches

variable {m : Stack} {t : Objects} {item : ℕ}

/-- The objects from one up to the root. -/
inductive Line (t : Objects) : ℕ → List ℕ → Prop
  /-- The root stands alone. -/
  | root : Line t root []
  /-- A child stands before its parent. -/
  | child {x p : ℕ} {l : List ℕ} : t.parent x = some p → Line t p l → Line t x (p :: l)

/-- A child of the first object of a line is not in the line. -/
theorem Line.not_mem (h : Linked t) {x c : ℕ} {l : List ℕ} (hline : Line t x l)
    (hn : (x :: l).Nodup) (hc : t.parent c = some x) : c ∉ x :: l := by
  -- Whatever stands below c in the line has c as its parent, so c's own parent stands above.
  have habove : ∀ {y l},Line t y l → c ∈ y :: l → x ∈ l := by
    intro y l hl
    induction hl with
    | root =>
      intro hm
      obtain rfl := List.mem_singleton.mp hm
      simp [h.root_parent] at hc
    | child hp _ ih =>
      intro hm
      rcases List.mem_cons.mp hm with rfl | hm
      · obtain rfl := Option.some.inj (hc.symm.trans hp)
        exact List.mem_cons_self ..
      · exact List.mem_cons_of_mem _ (ih hm)
  exact fun hm => (List.nodup_cons.mp hn).1 (habove hline hm)

/-- The objects of a line exist. -/
theorem Line.lt (h : Linked t) {x : ℕ} {l : List ℕ} (hline : Line t x l) :
    ∀ y ∈ x :: l,y < t.next := by
  induction hline with
  | root =>
    intro y hy
    obtain rfl := List.mem_singleton.mp hy
    exact h.root_lt
  | child hp _ ih =>
    intro y hy
    rcases List.mem_cons.mp hy with rfl | hy
    · exact (h.lt (h.mem_iff.mpr hp)).1
    · exact ih y hy

/-- A line is not longer than there are objects. -/
theorem Line.length_lt (h : Linked t) {x : ℕ} {l : List ℕ} (hline : Line t x l)
    (hn : (x :: l).Nodup) : l.length < t.next := by
  have hsub : x :: l ⊆ List.range t.next := fun y hy => List.mem_range.mpr (hline.lt h y hy)
  have hlen := (hn.subperm hsub).length_le
  rw [List.length_range,List.length_cons] at hlen
  omega

/-- The search of UnRegister returns, and finds only what is in the tree. -/
theorem unRegister_returns (h : Linked t) (item : ℕ) {fuel x : ℕ} {l : List ℕ}
    (hline : Line t x l) (hn : (x :: l).Nodup) (hfuel : t.next < fuel + l.length)
    (hx : Relation.ReflTransGen (fun p c => c ∈ t.children p) root x) :
    ∃ b,unRegister t item fuel x = some b ∧ (b = true → InTree t item) := by
  induction fuel generalizing x l with
  | zero =>
    have hlen := hline.length_lt h hn
    omega
  | succ fuel ih =>
    rw [unRegister]
    cases hchildren : t.children x with
    | nil => exact ⟨false,rfl,fun hb => absurd hb Bool.false_ne_true⟩
    | cons i rest =>
      have hi : i ∈ t.children x := by simp [hchildren]
      dsimp only
      split_ifs with he
      · exact ⟨true,rfl,fun _ => .tail' hx (he ▸ hi)⟩
      · have hp := h.mem_iff.mp hi
        exact ih (.child hp hline) (List.nodup_cons.mpr ⟨hline.not_mem h hn hp,hn⟩)
          (by rw [List.length_cons]; omega) (hx.tail hi)

/-- UnRegister returns, and finds only what is in the tree. -/
theorem unRegisterItem_returns (h : Linked t) (item : ℕ) :
    ∃ b,unRegisterItem t item = some b ∧ (b = true → InTree t item) :=
  unRegister_returns h item .root (List.nodup_singleton _) (by simp) .refl

/-- What a search finds is a child of something. -/
theorem getChild_mem {ps : List Text} {this : ℕ}
    (h : (t.getChild m false ps this).1 = some item) : ∃ p,item ∈ t.children p := by
  induction ps generalizing this with
  | nil => cases h
  | cons part rest ih =>
    cases rest with
    | nil =>
      rw [getChild_singleton] at h
      exact ⟨this,List.mem_of_find?_eq_some h⟩
    | cons part' rest =>
      rw [getChild_cons (by simp)] at h
      obtain ⟨child,-,hrest⟩ := Option.bind_eq_some_iff.mp h
      exact ih hrest

end Searches

section Runs

variable {m : Stack} {t : Objects} {op : Op}

/-- What RemoveChild does when it finds something. -/
theorem removePath_some {this item : ℕ} {path : Text}
    (h : (t.getChild m false (parts path) this).1 = some item) :
    removePath m t this path = (true,removeChild t this item) := by
  rw [removePath,h]

/-- An operation that the tree bears keeps the links. -/
theorem Linked.apply (h : Linked t) (he : Enabled t op) (hb : Bears m t op) :
    Linked (apply m t op) := by
  cases op with
  | addChild this item => exact h.addChild he.1 he.2.2 hb.1 hb.2
  | makeDir path =>
    change Linked (t.makeDir m path).2
    unfold Objects.makeDir
    split_ifs
    · exact h
    · exact h.getChild h.root_lt _
  | removeChild this path =>
    change Linked (removePath m t this path).2
    cases hget : (t.getChild m false (parts path) this).1 with
    | none =>
      rw [removePath,hget]
      exact h
    | some item =>
      rw [removePath_some hget]
      exact h.removeChild (hb item hget)
  | unRegister item => exact h

/-- Such an operation does what the tree is for. -/
theorem Linked.right (h : Linked t) (he : Enabled t op) (hb : Bears m t op) : Right m t op := by
  have h' := h.apply he hb
  refine ⟨fun x p => h'.mem_iff,?_,?_⟩
  · rintro this path item rfl - hget hagain
    have happ : ObjectLinks.apply m t (.removeChild this path) =
        ObjectLinks.removeChild t this item :=
      congrArg Prod.snd (removePath_some hget)
    obtain ⟨p,hp⟩ := getChild_mem hagain
    have hnone : (ObjectLinks.apply m t (.removeChild this path)).parent item = none := by
      rw [happ]
      exact Function.update_self ..
    exact h'.not_mem hnone hp
  · rintro item rfl
    obtain ⟨b,hres,himp⟩ := unRegisterItem_returns h item
    refine ⟨b,hres,iff_of_false (fun ht => hb (himp ht)) hb,fun ht => absurd (himp ht) hb⟩

/-- For every tree: in every run of operations that it bears, children and
parents agree in every state, what is removed is not found any more, and
UnRegister says what is in the tree. -/
theorem links_right {ops : List Op} (h : Linked t) (he : RunMeets (apply m) Enabled t ops)
    (hb : RunMeets (apply m) (Bears m) t ops) : RunMeets (apply m) (Right m) t ops :=
  (he.and hb).imp (fun _ _ hl hop => hl.apply hop.1 hop.2)
    (fun _ _ hl hop => hl.right hop.1 hop.2) h

end Runs

/-- A stack whose buffers end in zeros. -/
def clean : Stack := ⟨[],[],[]⟩

/-- A tree of the root, and an object that is not in it. -/
def oneObject : Objects :=
  { kind := fun x => if x = root then .directory ['/'] else .item (· == ['i']) ['@']
    parent := fun _ => none
    children := fun _ => []
    tree := fun x => x == root
    next := 2 }

theorem linked_oneObject : Linked oneObject :=
  ⟨by simp [oneObject],fun _ => List.nodup_nil,rfl,by decide,fun h => absurd h List.not_mem_nil⟩

/-- The object is put into a new directory and taken out again. -/
theorem links_right_removed : RunMeets (apply clean) (Right clean) oneObject
    [.makeDir ['a'],.addChild 2 1,.removeChild 2 ['i']] := by
  refine links_right linked_oneObject (by decide) ⟨trivial,⟨rfl,by decide⟩,fun item hitem => ?_,
    trivial⟩
  obtain rfl := Option.some.inj hitem
  rfl

/-- A directory that is removed by a path of two components stays where it is. -/
theorem removed_stays : RunMeets (apply clean) Enabled oneObject
      [.makeDir ['a','/','b'],.removeChild root ['a','/','b']] ∧
    ¬RunMeets (apply clean) (Right clean) oneObject
      [.makeDir ['a','/','b'],.removeChild root ['a','/','b']] := by
  refine ⟨by decide,fun h => ?_⟩
  exact absurd ((h.2.1.linked 3 2).mp (by decide)) (by decide)

end WootOs.ObjectLinks
