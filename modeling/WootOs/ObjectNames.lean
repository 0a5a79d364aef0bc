import WootOs.ObjectTree

/-!
# File systems and volumes by name

A file system answers to its number and to its label, and a volume to its
number and to the label of its file system. The test for the number lacks a
negation: it accepts every name but the number. So the search takes the first
object whatever the name is, unless the name is the number of that object and
not its label.

The search is right when the first object, apart from such ones, happens to
have the label that is looked for.
-/

namespace WootOs.ObjectNames

open ObjectTree

/-- The number and the label of a file system or a volume. -/
def number : Kind → Option (ℕ × Option Text)
  | .fileSystem id label _ => some (id,label)
  | .volume id fs _ => some (id,fs.bind fun label => label)
  | _ => none

/-- The label of an object is some name. -/
def Labelled (k : Kind) (name : Text) : Prop := (number k).map Prod.snd = some (some name)

instance (k : Kind) (name : Text) : Decidable (Labelled k name) :=
  inferInstanceAs (Decidable (_ = _))

/-- The number of an object, as %d prints it, is some name. -/
def Numbered (k : Kind) (name : Text) : Prop :=
  (number k).map (fun n => decimal n.1) = some name

instance (k : Kind) (name : Text) : Decidable (Numbered k name) :=
  inferInstanceAs (Decidable (_ = _))

/-- A directory of file systems or volumes, with its path. Nothing is registered
below a file system or a volume. -/
structure Container (m : Stack) (t : Objects) (dir : Text) (this : ℕ) : Prop where
  /-- The path is that of the directory. -/
  path : t.get m dir = some this
  /-- It is not empty. -/
  path_ne : dir ≠ []
  /-- It does not end in a separator. -/
  path_last : dir.getLast? ≠ some '/'
  /-- The directory holds file systems or volumes. -/
  numbered : ∀ c ∈ t.children this,(number (t.kind c)).isSome
  /-- They hold nothing. -/
  leaf : ∀ c ∈ t.children this,t.children c = []

/-- What looking a name up is for: the object found has the name, and one is
found if there is one. -/
def Found (t : Objects) (this : ℕ) (name : Text) : Option ℕ → Prop
  | some c => c ∈ t.children this ∧ (Numbered (t.kind c) name ∨ Labelled (t.kind c) name)
  | none => ∀ c ∈ t.children this,¬(Numbered (t.kind c) name ∨ Labelled (t.kind c) name)

/-- An object refuses a component: it is its number and not its label. -/
def Refuses (k : Kind) (part : Text) : Prop := Numbered k part ∧ ¬Labelled k part

/-- The first object that does not refuse a component has a label. -/
def LabelFirst (t : Objects) (this : ℕ) (part name : Text) : Prop :=
  ∃ before c after,t.children this = before ++ c :: after ∧
    (∀ b ∈ before,Refuses (t.kind b) part) ∧ ¬Refuses (t.kind c) part ∧ Labelled (t.kind c) name

/-- The names that are looked up as they should be. A name of one component, with
or without separators before it, must be the label of the first object that
does not refuse the component, unless all of them refuse it and none has the
name. Of more than one component, no object may be labelled so. -/
def Resolves (t : Objects) (this : ℕ) (name : Text) : Prop :=
  match parts name with
  | [part] => LabelFirst t this part name ∨ ∀ c ∈ t.children this,
      Refuses (t.kind c) part ∧ ¬(Numbered (t.kind c) name ∨ Labelled (t.kind c) name)
  | _ => ∀ c ∈ t.children this,¬(Numbered (t.kind c) name ∨ Labelled (t.kind c) name)

section Lookup

variable {m : Stack} {t : Objects} {dir name part : Text} {this : ℕ}

/-- File systems and volumes accept what they do not refuse. -/
theorem keyCheck_numbered {k : Kind} (h : (number k).isSome) :
    k.keyCheck m part = true ↔ ¬Refuses k part := by
  have hshared (id : ℕ) (label : Option Text) : numberedKeyCheck id label part = true ↔
      decimal id ≠ part ∨ label = some part := by
    unfold numberedKeyCheck
    cases label with
    | none => simp [compareText_eq_iff]
    | some buf => simp [compareText_eq_iff]
  cases k with
  | directory name => simp [number] at h
  | fileSystem id label shown =>
    simp [Kind.keyCheck,fileSystemKeyCheck,hshared,Refuses,Numbered,Labelled,number,imp_iff_not_or]
  | volume id fs shown =>
    simp [Kind.keyCheck,volumeKeyCheck,hshared,Refuses,Numbered,Labelled,number,imp_iff_not_or]
  | item keyCheck shown => simp [number] at h

/-- The object that the search finds is the first that does not refuse the
component. -/
theorem findChild_cases (hd : Container m t dir this) (part : Text) :
    (∃ before c after,t.children this = before ++ c :: after ∧
        (∀ b ∈ before,Refuses (t.kind b) part) ∧ ¬Refuses (t.kind c) part ∧
        t.findChild m this part = some c) ∨
      (∀ c ∈ t.children this,Refuses (t.kind c) part) ∧ t.findChild m this part = none := by
  have hkey {c : ℕ} (hc : c ∈ t.children this) :
      (t.kind c).keyCheck m part = true ↔ ¬Refuses (t.kind c) part :=
    keyCheck_numbered (hd.numbered c hc)
  cases hfind : t.findChild m this part with
  | none =>
    refine .inr ⟨fun c hc => ?_,rfl⟩
    by_contra href
    exact List.find?_eq_none.mp hfind c hc ((hkey hc).mpr href)
  | some c =>
    obtain ⟨hc,before,after,hsplit,hbefore⟩ := List.find?_eq_some_iff_append.mp hfind
    refine .inl ⟨before,c,after,hsplit,fun b hb => ?_,(hkey ?_).mp hc,rfl⟩
    · have hmem : b ∈ t.children this := by simp [hsplit,hb]
      by_contra href
      have htrue := (hkey hmem).mpr href
      have hfalse := hbefore b hb
      simp [htrue] at hfalse
    · simp [hsplit]

/-- Get below the directory searches its children. -/
theorem get_name (hd : Container m t dir this) (name : Text) :
    t.get m (dir ++ '/' :: name) = (t.getChild m false (parts name) this).1 := by
  have hne := hd.path_ne
  have hroot : isRoot dir = false := by
    have hlast := hd.path_last
    rw [isRoot,Bool.or_eq_false_iff,beq_eq_false_iff_ne,beq_eq_false_iff_ne]
    refine ⟨hne,?_⟩
    rintro rfl
    exact hlast rfl
  have hlong : isRoot (dir ++ '/' :: name) = false := by
    cases dir with
    | nil => exact absurd rfl hne
    | cons c dir => simp [isRoot]
  have hget := hd.path
  rw [Objects.get,if_neg (by simp [hroot])] at hget
  rw [Objects.get,if_neg (by simp [hlong]),parts_append name hd.path_last hne,
    getChild_append (parts_ne_nil _) (parts_ne_nil _),hget]
  rfl

/-- Below a file system or a volume nothing is found. -/
theorem findChild_leaf {c : ℕ} (h : t.children c = []) (part : Text) :
    t.findChild m c part = none := by
  rw [Objects.findChild,h]
  rfl

/-- A name of several components finds nothing. -/
theorem getChild_several (hd : Container m t dir this) {p q : Text} {rest : List Text} :
    (t.getChild m false (p :: q :: rest) this).1 = none := by
  rw [getChild_cons (by simp)]
  cases hfind : t.findChild m this p with
  | none => rfl
  | some c =>
    have hc : c ∈ t.children this := List.mem_of_find?_eq_some hfind
    have hleaf := findChild_leaf (m := m) (hd.leaf c hc) q
    rw [Option.bind_some,getChild_none hleaf]

/-- A number is one component. -/
theorem parts_of_numbered {k : Kind} (h : Numbered k name) : parts name = [name] := by
  obtain ⟨n,-,hname⟩ := Option.map_eq_some_iff.mp h
  rw [←hname]
  exact partsFrom_component (separator_not_mem_decimal n.1)

/-- An object that accepts the only component of its name has it as its label. -/
theorem labelled_of_accepts {k : Kind} (hparts : parts name = [part]) (hacc : ¬Refuses k part)
    (h : Numbered k name ∨ Labelled k name) : Labelled k name := by
  rcases h with hnumber | hlabel
  · have hpart : name = part := by simpa using (parts_of_numbered hnumber).symm.trans hparts
    by_contra hlabel
    exact hacc (hpart ▸ ⟨hnumber,hlabel⟩)
  · exact hlabel

/-- The first object that does not refuse a component is the only one. -/
theorem first_unique {b₁ b₂ a₁ a₂ : List ℕ} {c₁ c₂ : ℕ} (h : b₁ ++ c₁ :: a₁ = b₂ ++ c₂ :: a₂)
    (h₁ : ∀ b ∈ b₁,Refuses (t.kind b) part) (hc₁ : ¬Refuses (t.kind c₁) part)
    (h₂ : ∀ b ∈ b₂,Refuses (t.kind b) part) (hc₂ : ¬Refuses (t.kind c₂) part) : c₁ = c₂ := by
  induction b₁ generalizing b₂ with
  | nil =>
    cases b₂ with
    | nil => exact (List.cons.inj h).1
    | cons b b₂ =>
      obtain ⟨rfl,-⟩ := List.cons.inj h
      exact absurd (h₂ c₁ (by simp)) hc₁
  | cons b b₁ ih =>
    cases b₂ with
    | nil =>
      obtain ⟨rfl,-⟩ := List.cons.inj h
      exact absurd (h₁ b (by simp)) hc₂
    | cons b' b₂ =>
      exact ih (List.cons.inj h).2 (fun x hx => h₁ x (by simp [hx])) fun x hx => h₂ x (by simp [hx])

/-- For every set of mounted file systems or volumes and every name: the object
with that number or label is found, and nothing if there is none, exactly when
the name resolves. -/
theorem get_found_iff (hd : Container m t dir this) (name : Text) :
    Found t this name (t.get m (dir ++ '/' :: name)) ↔ Resolves t this name := by
  rw [get_name hd,Resolves]
  match hparts : parts name with
  | [] => exact absurd hparts (parts_ne_nil name)
  | p :: q :: rest =>
    rw [getChild_several hd]
    rfl
  | [part] =>
    rw [getChild_singleton]
    rcases findChild_cases hd part with ⟨before,c,after,hsplit,hbefore,hacc,hfind⟩ | ⟨hall,hfind⟩
    · rw [hfind]
      constructor
      · rintro ⟨-,hnamed⟩
        exact .inl ⟨before,c,after,hsplit,hbefore,hacc,labelled_of_accepts hparts hacc hnamed⟩
      · rintro (⟨before',c',after',hsplit',hbefore',hacc',hlabel⟩ | hall)
        · obtain rfl := first_unique (hsplit.symm.trans hsplit') hbefore hacc hbefore' hacc'
          exact ⟨by simp [hsplit],.inr hlabel⟩
        · exact absurd (hall c (by simp [hsplit])).1 hacc
    · rw [hfind]
      constructor
      · exact fun hnone => .inr fun c hc => ⟨hall c hc,hnone c hc⟩
      · rintro (⟨before,c,after,hsplit,-,hacc,-⟩ | hnone)
        · exact absurd (hall c (by simp [hsplit])) hacc
        · exact fun c hc => (hnone c hc).2

end Lookup

/-- Objects of which some are mounted file systems: the root, the directories of
FS_DIR and the file systems. -/
def mounted (labels : List (Option Text)) : Objects :=
  let systems := List.range labels.length
  { kind := fun x => match x with
      | 0 => .directory ['/']
      | 1 => .directory ['d','e','v']
      | 2 => .directory ['f','s']
      | x+3 => .fileSystem x (labels.getD x none) (decimal x)
    parent := fun x => if x = 0 then none else some (min (x - 1) 2)
    children := fun x => match x with
      | 0 => [1]
      | 1 => [2]
      | 2 => systems.map (· + 3)
      | _ => []
    tree := fun _ => true
    next := labels.length + 3 }

/-- FS_DIR. -/
def fsDir : Text := ['/','d','e','v','/','f','s']

/-- A stack whose buffers end in zeros. -/
def cleanStack : Stack := ⟨[],[],[]⟩

/-- The directory of the file systems. -/
theorem container_mounted (labels : List (Option Text)) :
    Container cleanStack (mounted labels) fsDir 2 := by
  refine ⟨by rfl,by decide,by decide,fun c hc => ?_,fun c hc => ?_⟩
  · obtain ⟨x,-,rfl⟩ := List.mem_map.mp hc
    rfl
  · obtain ⟨x,-,rfl⟩ := List.mem_map.mp hc
    rfl

/-- A file system that is the first one is found by its label. -/
theorem get_found_iff_label : Found (mounted [some ['a'],some ['b']]) 2 ['a']
    ((mounted [some ['a'],some ['b']]).get cleanStack (fsDir ++ '/' :: ['a'])) :=
  (get_found_iff (container_mounted _) ['a']).mpr
    (.inl ⟨[],3,[4],rfl,by simp,fun h => h.2 (by decide),by decide⟩)

/-- The second of two file systems is not found by its number: the first one is. -/
theorem number_finds_another : ¬Found (mounted [none,none]) 2 ['1']
    ((mounted [none,none]).get cleanStack (fsDir ++ '/' :: ['1'])) := by
  have hget : (mounted [none,none]).get cleanStack (fsDir ++ '/' :: ['1']) = some 3 := by decide
  rw [hget]
  rintro ⟨-,hnamed⟩
  exact absurd hnamed (by decide)

end WootOs.ObjectNames
