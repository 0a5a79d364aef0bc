import Mathlib.Data.Char
import Mathlib.Data.List.Basic
import Mathlib.Data.List.Nodup
import Mathlib.Logic.Function.Basic
import Mathlib.Tactic.SplitIfs

/-!
# The object tree

The kernel keeps its named objects in a tree. An object knows its parent and
the list of its children, which is meant to be in alphabetical order, and says
itself which names it answers to. A path is resolved one component at a time:
the search takes the first child that answers to the component.

Directories answer to their name, which they write into a buffer of 64 bytes.
A longer name fills the buffer without an end, and what is compared then goes
on with whatever the memory behind the buffer holds; that is a parameter here,
the stack.
The lock of the tree is left out: a call that does not get it changes nothing.
-/

namespace WootOs.ObjectTree

/-- The characters of a string in front of its end. -/
abbrev Text := List Char

/-- String::Compare, as far as the sign of its result. -/
def compareText : Text → Text → Ordering
  | [],[] => .eq
  | [],_ :: _ => .lt
  | _ :: _,[] => .gt
  | a :: s,b :: t => if a = b then compareText s t else if a < b then .lt else .gt

/-- The size of the buffers for names, OBJTREE_MAX_NAME_LEN + 1. -/
def nameBuffer : ℕ := 64

/-- What the memory behind the buffers for names holds, up to an end. -/
structure Stack where
  /-- Behind the buffer of KeyCheck. -/
  key : Text
  /-- Behind the first buffer of addChild. -/
  first : Text
  /-- Behind its second buffer. -/
  second : Text

/-- A name as it is read back from a buffer, for what follows the buffer. -/
def buffered (behind name : Text) : Text :=
  if name.length < nameBuffer then name else name.take nameBuffer ++ behind

/-- The number of an object, as %d prints it. -/
def decimal (id : ℕ) : Text := Nat.toDigits 10 id

/-- What the virtual functions of an object depend on. -/
inductive Kind where
  /-- ObjectTree::Directory. -/
  | directory (name : Text)
  /-- FileSystem: its number, what GetLabel writes, and its display name. -/
  | fileSystem (id : ℕ) (label : Option Text) (shown : Text)
  /-- Volume: its number, its file system with what GetLabel writes, and its display name. -/
  | volume (id : ℕ) (fs : Option (Option Text)) (shown : Text)
  /-- Any other object. -/
  | item (keyCheck : Text → Bool) (shown : Text)

/-- The test that file systems and volumes share. -/
def numberedKeyCheck (id : ℕ) (label : Option Text) (name : Text) : Bool :=
  compareText (decimal id) name != .eq ||
    match label with
    | some buf => compareText buf name == .eq
    | none => false

/-- FileSystem::KeyCheck. -/
def fileSystemKeyCheck (id : ℕ) (label : Option Text) (name : Text) : Bool :=
  numberedKeyCheck id label name

/-- Volume::KeyCheck. -/
def volumeKeyCheck (id : ℕ) (fs : Option (Option Text)) (name : Text) : Bool :=
  numberedKeyCheck id (fs.bind fun label => label) name

/-- KeyCheck of an object. -/
def Kind.keyCheck (m : Stack) : Kind → Text → Bool
  | .directory name,part => compareText (buffered m.key name) part == .eq
  | .fileSystem id label _,part => fileSystemKeyCheck id label part
  | .volume id fs _,part => volumeKeyCheck id fs part
  | .item keyCheck _,part => keyCheck part

/-- What GetDisplayName of an object writes. -/
def Kind.displayName : Kind → Text
  | .directory name => name
  | .fileSystem _ _ shown => shown
  | .volume _ _ shown => shown
  | .item _ shown => shown

/-- The comparer of addChild: the display name of the first object comes later. -/
def Kind.shownAfter (m : Stack) (a b : Kind) : Bool :=
  compareText (buffered m.first a.displayName) (buffered m.second b.displayName) == .gt

/-- The components of a path: separators before each of them are skipped, and
each ends in front of a separator. What follows the last one is searched as
well, so a separator at the end makes an empty component. The first argument is
the component that is being read. -/
def partsFrom : Text → Text → List Text
  | part,[] => [part]
  | part,c :: path =>
    if c = '/' then if part = [] then partsFrom [] path else part :: partsFrom [] path
    else partsFrom (part ++ [c]) path

/-- The components of a path. -/
def parts (path : Text) : List Text := partsFrom [] path

/-- List::InsertBefore. -/
def insertBefore {α : Type*} (comparer : α → α → Bool) (value : α) : List α → List α
  | [] => [value]
  | node :: l =>
    if comparer node value then value :: node :: l else node :: insertBefore comparer value l

/-- The objects of the kernel, by number; the root is object 0. -/
structure Objects where
  /-- The class of each object. -/
  kind : ℕ → Kind
  /-- Item::parent. -/
  parent : ℕ → Option ℕ
  /-- Item::children. -/
  children : ℕ → List ℕ
  /-- Whether Item::tree is set. -/
  tree : ℕ → Bool
  /-- The number of objects there have been. -/
  next : ℕ

/-- The root of the tree. -/
def root : ℕ := 0

/-- A path that names the root. -/
def isRoot (path : Text) : Bool := path == [] || path == ['/']

namespace Objects

variable (m : Stack) (t : Objects)

/-- The first child that answers to a name. -/
def findChild (this : ℕ) (part : Text) : Option ℕ :=
  (t.children this).find? fun child => (t.kind child).keyCheck m part

/-- ObjectTree::Item::addChild. -/
def addChild (this item : ℕ) : Objects :=
  { t with
    parent := Function.update t.parent item (some this)
    tree := Function.update t.tree item (t.tree this)
    children := Function.update t.children this
      (insertBefore (fun a b => (t.kind a).shownAfter m (t.kind b)) item (t.children this)) }

/-- A new Directory, which is not in the tree yet. -/
def newDirectory (name : Text) : Objects :=
  { kind := Function.update t.kind t.next (.directory name)
    parent := Function.update t.parent t.next none
    children := Function.update t.children t.next []
    tree := Function.update t.tree t.next false
    next := t.next + 1 }

/-- ObjectTree::Item::containsChild, on the components of the name. -/
def containsChild : List Text → ℕ → Bool
  | [],_ => false
  | part :: rest,this =>
    match t.findChild m this part with
    | some child => if rest.isEmpty then true else containsChild rest child
    | none => false

/-- ObjectTree::Item::getChild, on the components of the name. -/
def getChild (t : Objects) (create : Bool) : List Text → ℕ → Option ℕ × Objects
  | [],_ => (none,t)
  | part :: rest,this =>
    match t.findChild m this part with
    | some child => if rest.isEmpty then (some child,t) else getChild t create rest child
    | none =>
      if create then
        let dir := t.next
        let t := (t.newDirectory part).addChild m this dir
        if rest.isEmpty then (some dir,t) else getChild t create rest dir
      else (none,t)

/-- ObjectTree::Contains. -/
def contains (path : Text) : Bool := isRoot path || t.containsChild m (parts path) root

/-- ObjectTree::Get. -/
def get (path : Text) : Option ℕ :=
  if isRoot path then some root else (t.getChild m false (parts path) root).1

/-- ObjectTree::MakeDir. -/
def makeDir (path : Text) : Option ℕ × Objects :=
  if isRoot path then (some root,t) else t.getChild m true (parts path) root

end Objects

section Strings

/-- Only equal strings compare as equal. -/
theorem compareText_eq_iff {a b : Text} : compareText a b = .eq ↔ a = b := by
  induction a generalizing b with
  | nil => cases b <;> simp [compareText]
  | cons x a ih =>
    cases b with
    | nil => simp [compareText]
    | cons y b =>
      rw [compareText,List.cons.injEq]
      split_ifs with hxy hlt
      · rw [ih,hxy]
        simp
      · simp [hxy]
      · simp [hxy]

/-- A name that fits is read back as it is. -/
theorem buffered_of_lt {behind name : Text} (h : name.length < nameBuffer) :
    buffered behind name = name := if_pos h

/-- A directory answers to its name as it is read back. -/
theorem directory_keyCheck {m : Stack} {name part : Text} :
    (Kind.directory name).keyCheck m part = true ↔ buffered m.key name = part := by
  rw [Kind.keyCheck,beq_iff_eq,compareText_eq_iff]

/-- The search skips separators, reads a component and goes on with the rest of
the path if there is one. -/
theorem partsFrom_eq (part path : Text) : partsFrom part path =
    let name := if part = [] then path.dropWhile (· == '/') else path
    let read := part ++ name.takeWhile (· != '/')
    let rest := name.dropWhile (· != '/')
    if rest = [] then [read] else read :: parts rest := by
  induction path generalizing part with
  | nil => simp [partsFrom]
  | cons c path ih =>
    rw [partsFrom]
    by_cases hc : c = '/'
    · subst hc
      by_cases hp : part = []
      · rw [if_pos rfl,if_pos hp,ih []]
        simp [hp]
      · rw [if_pos rfl,if_neg hp]
        simp [hp,parts,partsFrom]
    · rw [if_neg hc,ih (part ++ [c])]
      by_cases hp : part = []
      · simp [hp,hc]
      · simp [hp,hc]

/-- There is always a component. -/
theorem partsFrom_ne_nil (part path : Text) : partsFrom part path ≠ [] := by
  rw [partsFrom_eq]
  dsimp only
  split_ifs <;> simp

/-- A path behind one that does not end in a separator. -/
theorem partsFrom_append {part dir path : Text} (hlast : dir.getLast? ≠ some '/')
    (hne : part ≠ [] ∨ dir ≠ []) :
    partsFrom part (dir ++ '/' :: path) = partsFrom part dir ++ parts path := by
  induction dir generalizing part with
  | nil =>
    have hp := hne.resolve_right fun h => h rfl
    simp [partsFrom,hp,parts]
  | cons c dir ih =>
    have hrest : dir.getLast? ≠ some '/' := by
      cases dir with
      | nil => simp
      | cons d dir => simpa using hlast
    rw [List.cons_append,partsFrom,partsFrom]
    by_cases hc : c = '/'
    · have hd : dir ≠ [] := by
        rintro rfl
        simp [hc] at hlast
      rw [if_pos hc,if_pos hc,ih hrest (.inr hd)]
      split_ifs <;> rfl
    · rw [if_neg hc,if_neg hc]
      exact ih hrest (.inl (by simp))

/-- A component is a path of its own. -/
theorem partsFrom_component {part path : Text} (h : '/' ∉ path) :
    partsFrom part path = [part ++ path] := by
  induction path generalizing part with
  | nil => simp [partsFrom]
  | cons c path ih =>
    rw [List.mem_cons,not_or] at h
    rw [partsFrom,if_neg (Ne.symm h.1),ih h.2]
    simp

/-- A number has no separators. -/
theorem separator_not_mem_decimal (id : ℕ) : '/' ∉ decimal id := fun h => by
  have hdigit := Nat.isDigit_of_mem_toDigits (by decide) (by decide) h
  simp at hdigit

/-- A path has a component. -/
theorem parts_ne_nil (path : Text) : parts path ≠ [] := partsFrom_ne_nil [] path

/-- The components of a path behind one that does not end in a separator. -/
theorem parts_append {dir : Text} (path : Text) (hlast : dir.getLast? ≠ some '/') (hne : dir ≠ []) :
    parts (dir ++ '/' :: path) = parts dir ++ parts path :=
  partsFrom_append hlast (.inr hne)

end Strings

section Insertion

variable {α : Type*} {comparer : α → α → Bool} {value : α}

theorem insertBefore_nil : insertBefore comparer value [] = [value] := (rfl)

theorem insertBefore_cons (node : α) (l : List α) :
    insertBefore comparer value (node :: l) =
      if comparer node value then value :: node :: l
      else node :: insertBefore comparer value l := (rfl)

/-- InsertBefore adds the value. -/
theorem mem_insertBefore {l : List α} {x : α} :
    x ∈ insertBefore comparer value l ↔ x = value ∨ x ∈ l := by
  induction l with
  | nil => simp [insertBefore_nil]
  | cons y l ih =>
    rw [insertBefore_cons]
    split_ifs
    · simp
    · rw [List.mem_cons,ih,List.mem_cons]
      exact or_left_comm

/-- A list that did not hold the value holds nothing twice. -/
theorem nodup_insertBefore {l : List α} (hl : l.Nodup) (h : value ∉ l) :
    (insertBefore comparer value l).Nodup := by
  induction l with
  | nil => simp [insertBefore_nil]
  | cons y l ih =>
    rw [List.mem_cons,not_or] at h
    obtain ⟨hy,hrest⟩ := List.nodup_cons.mp hl
    rw [insertBefore_cons]
    split_ifs
    · exact List.nodup_cons.mpr ⟨by simp [h],hl⟩
    · refine List.nodup_cons.mpr ⟨fun hm => ?_,ih hrest h.2⟩
      rcases mem_insertBefore.mp hm with rfl | hm
      · exact h.1 rfl
      · exact hy hm

/-- A search finds what it found before when the new value is not looked for. -/
theorem find?_insertBefore_of_not {p : α → Bool} {l : List α} (h : p value = false) :
    (insertBefore comparer value l).find? p = l.find? p := by
  induction l with
  | nil => simp [insertBefore_nil,h]
  | cons y l ih =>
    rw [insertBefore_cons]
    split_ifs
    · rw [List.find?_cons_of_neg (by simp [h])]
    · rw [List.find?_cons,List.find?_cons,ih]

/-- A search that found nothing before finds the new value. -/
theorem find?_insertBefore_of_none {p : α → Bool} {l : List α} (h : p value = true)
    (hl : l.find? p = none) : (insertBefore comparer value l).find? p = some value := by
  induction l with
  | nil => simp [insertBefore_nil,h]
  | cons y l ih =>
    have hnone := List.find?_eq_none.mp hl
    rw [insertBefore_cons]
    split_ifs
    · rw [List.find?_cons_of_pos h]
    · rw [List.find?_cons_of_neg (hnone y (by simp)),
        ih (List.find?_eq_none.mpr fun x hx => hnone x (by simp [hx]))]

/-- A value that is inserted in front of the first one that comes later keeps a
list in order. -/
theorem pairwise_insertBefore {le : α → α → Prop} {l : List α}
    (htrans : ∀ {a b c},le a b → le b c → le a c) (hl : l.Pairwise le)
    (hbefore : ∀ y ∈ l,comparer y value = true → le value y)
    (hafter : ∀ y ∈ l,comparer y value = false → le y value) :
    (insertBefore comparer value l).Pairwise le := by
  induction l with
  | nil => simp [insertBefore_nil]
  | cons y l ih =>
    obtain ⟨hy,hrest⟩ := List.pairwise_cons.mp hl
    rw [insertBefore_cons]
    split_ifs with hc
    · have hvy := hbefore y (by simp) hc
      refine List.pairwise_cons.mpr ⟨fun z hz => ?_,hl⟩
      rcases List.mem_cons.mp hz with rfl | hz
      · exact hvy
      · exact htrans hvy (hy z hz)
    · refine List.pairwise_cons.mpr ⟨fun z hz => ?_,?_⟩
      · rcases mem_insertBefore.mp hz with rfl | hz
        · exact hafter y (by simp) (by simpa using hc)
        · exact hy z hz
      · exact ih hrest (fun z hz => hbefore z (by simp [hz])) fun z hz => hafter z (by simp [hz])

end Insertion

section Search

variable {m : Stack} {t : Objects}

/-- The search for a component that is there. -/
theorem getChild_some {create : Bool} {part : Text} {this child : ℕ}
    (h : t.findChild m this part = some child) (rest : List Text) :
    t.getChild m create (part :: rest) this =
      if rest.isEmpty then (some child,t) else t.getChild m create rest child := by
  show (match t.findChild m this part with | some child => _ | none => _) = _
  rw [h]

/-- The search for a component that is missing, which creates nothing. -/
theorem getChild_none {part : Text} {this : ℕ} (h : t.findChild m this part = none)
    (rest : List Text) : t.getChild m false (part :: rest) this = (none,t) := by
  show (match t.findChild m this part with | some _ => _ | none => _) = _
  rw [h]
  rfl

/-- A search that creates nothing leaves the tree as it is. -/
theorem getChild_snd (ps : List Text) (this : ℕ) : (t.getChild m false ps this).2 = t := by
  induction ps generalizing this with
  | nil => rfl
  | cons part rest ih =>
    cases hfind : t.findChild m this part with
    | none => rw [getChild_none hfind]
    | some child =>
      rw [getChild_some hfind]
      split_ifs
      · rfl
      · exact ih _

/-- The search for a first component and then for the others. -/
theorem getChild_cons {part : Text} {rest : List Text} (hrest : rest ≠ []) (this : ℕ) :
    (t.getChild m false (part :: rest) this).1 =
      (t.findChild m this part).bind fun child => (t.getChild m false rest child).1 := by
  have hempty : rest.isEmpty = false := by simpa using hrest
  cases hfind : t.findChild m this part with
  | none => rw [getChild_none hfind,Option.bind_none]
  | some child => simp [getChild_some hfind,hempty]

/-- The search for a single component. -/
theorem getChild_singleton (part : Text) (this : ℕ) :
    (t.getChild m false [part] this).1 = t.findChild m this part := by
  cases hfind : t.findChild m this part with
  | none => rw [getChild_none hfind]
  | some child => rw [getChild_some hfind]; rfl

/-- A search goes on where a shorter one ended. -/
theorem getChild_append {ps qs : List Text} (hp : ps ≠ []) (hq : qs ≠ []) (this : ℕ) :
    (t.getChild m false (ps ++ qs) this).1 =
      (t.getChild m false ps this).1.bind fun child => (t.getChild m false qs child).1 := by
  induction ps generalizing this with
  | nil => exact absurd rfl hp
  | cons part rest ih =>
    rw [List.cons_append,getChild_cons (by simp [hq])]
    cases rest with
    | nil =>
      rw [getChild_singleton]
      rfl
    | cons part' rest =>
      rw [getChild_cons (by simp),Option.bind_assoc]
      congr 1
      funext child
      exact ih (by simp) child

/-- Contains holds when Get finds something. -/
theorem contains_iff_get (path : Text) : t.contains m path = (t.get m path).isSome := by
  have hwalk (ps : List Text) (this : ℕ) :
      t.containsChild m ps this = (t.getChild m false ps this).1.isSome := by
    induction ps generalizing this with
    | nil => rfl
    | cons part rest ih =>
      unfold Objects.containsChild
      cases hfind : t.findChild m this part with
      | none => rw [getChild_none hfind]; rfl
      | some child =>
        rw [getChild_some hfind]
        dsimp only
        split_ifs
        · rfl
        · exact ih child
  unfold Objects.contains Objects.get
  rw [hwalk]
  split_ifs with hroot
  · simp [hroot]
  · simp [hroot]

end Search

end WootOs.ObjectTree
