import Mathlib.Data.List.Find
import Mathlib.Data.List.Lex
import WootOs.ObjectTree

/-!
# Directories of the object tree

MakeDir creates the directories of a path that are missing. It, Get and
Contains walk over the same components and agree on what a path names, as long
as each component fits the buffer that KeyCheck compares it with: then what
was made is found, nothing is made twice, and what was there is found as
before. A longer component is compared with a name that has no end.

A separator at the end of a path makes an empty component, and so a directory
without a name. So of two paths that differ only in separators, both must end
in one or neither.
-/

namespace WootOs.ObjectDirectories

open ObjectTree

/-- The components of a path that are not empty. -/
def components (path : Text) : List Text := (parts path).filter (· ≠ [])

/-- A separator ends a path. -/
def Trailing (path : Text) : Prop := path.getLast? = some '/'

instance (path : Text) : Decidable (Trailing path) := inferInstanceAs (Decidable (_ = _))

/-- A tree of directories: every object in a list of children is a directory, and
no directory is its own child. -/
structure Directories (t : Objects) : Prop where
  /-- The root exists. -/
  root_lt : root < t.next
  /-- The children exist. -/
  child_lt : ∀ {x c},c ∈ t.children x → c < t.next
  /-- They are directories. -/
  directory : ∀ {x c},c ∈ t.children x → ∃ name,t.kind c = .directory name
  /-- No directory is its own child. -/
  irrefl : ∀ x,x ∉ t.children x

/-- The children of an object are in alphabetical order. -/
def Sorted (t : Objects) (x : ℕ) : Prop :=
  (t.children x).Pairwise fun a b =>
    compareText (t.kind a).displayName (t.kind b).displayName ≠ .gt

/-- What making a directory is for, whatever the stack holds: the path and
another one then name what was made, making it again changes nothing, Contains
agrees with Get, the paths there were name what they did, and lists of children
stay sorted. -/
def Agrees (t : Objects) (path other : Text) : Prop :=
  ∀ m,∃ d t',t.makeDir m path = (some d,t') ∧ t'.get m path = some d ∧
    t'.makeDir m path = (some d,t') ∧ t'.get m other = some d ∧
    (∀ r,t'.contains m r = (t'.get m r).isSome) ∧
    (∀ r x,t.get m r = some x → t'.get m r = some x) ∧
    ∀ x,Sorted t x → Sorted t' x

section Paths

/-- The last component is empty: a separator ends the path, or there is nothing. -/
def EndsEmpty (part path : Text) : Prop := path.getLast? = some '/' ∨ path = [] ∧ part = []

instance (part path : Text) : Decidable (EndsEmpty part path) :=
  inferInstanceAs (Decidable (_ ∨ _ ∧ _))

/-- The end of a path by its first character. -/
theorem endsEmpty_cons {part part' path : Text} {c : Char} (h : part' = [] ↔ c = '/') :
    EndsEmpty part (c :: path) ↔ EndsEmpty part' path := by
  unfold EndsEmpty
  cases path with
  | nil => simp [h]
  | cons d path => simp [List.getLast?_cons_cons]

/-- What a path is searched for: its components, and the empty one when a
separator ends it. -/
theorem partsFrom_filter (part path : Text) : partsFrom part path =
    (partsFrom part path).filter (· ≠ []) ++ if EndsEmpty part path then [[]] else [] := by
  induction path generalizing part with
  | nil => by_cases hp : part = [] <;> simp [partsFrom,EndsEmpty,hp]
  | cons c path ih =>
    by_cases hc : c = '/'
    · have hend := @endsEmpty_cons part [] path c (by simp [hc])
      by_cases hp : part = []
      · have hparts : partsFrom part (c :: path) = partsFrom [] path := by simp [partsFrom,hc,hp]
        simp only [hparts,hend]
        exact ih []
      · have hparts : partsFrom part (c :: path) = part :: partsFrom [] path := by
          simp [partsFrom,hc,hp]
        rw [hparts,List.filter_cons_of_pos (by simpa using hp),List.cons_append]
        simp only [hend]
        exact congrArg _ (ih [])
    · have hend := @endsEmpty_cons part (part ++ [c]) path c (by simp [hc])
      have hparts : partsFrom part (c :: path) = partsFrom (part ++ [c]) path := by
        simp [partsFrom,hc]
      simp only [hparts,hend]
      exact ih (part ++ [c])

/-- What a path with a component is searched for. -/
theorem parts_eq {path : Text} (h : components path ≠ []) :
    parts path = components path ++ if Trailing path then [[]] else [] := by
  have hne : path ≠ [] := by
    rintro rfl
    exact h rfl
  have hend : EndsEmpty [] path ↔ Trailing path := by simp [EndsEmpty,Trailing,hne]
  have hparts := partsFrom_filter [] path
  simp only [hend] at hparts
  exact hparts

/-- A path with a component is not that of the root. -/
theorem isRoot_of_components {path : Text} (h : components path ≠ []) : isRoot path = false := by
  rw [isRoot,Bool.or_eq_false_iff,beq_eq_false_iff_ne,beq_eq_false_iff_ne]
  constructor
  · rintro rfl
    exact h rfl
  · rintro rfl
    exact h rfl

/-- The order of strings is the lexicographic one. -/
theorem compareText_gt_iff {a b : Text} : compareText a b = .gt ↔ b < a := by
  induction a generalizing b with
  | nil => cases b <;> simp [compareText]
  | cons x a ih =>
    cases b with
    | nil => simp [compareText]
    | cons y b =>
      rw [compareText,List.cons_lt_cons_iff]
      split_ifs with hxy hlt
      · rw [ih]
        simp [hxy]
      · simp [hlt.not_gt,Ne.symm hxy]
      · have hgt := lt_of_le_of_ne (not_lt.mp hlt) (Ne.symm hxy)
        simp [hgt]

/-- What stands behind the end of a shorter string does not matter. -/
theorem compareText_append {a b : Text} (x y : Text) (h : b.length < a.length) :
    compareText (a ++ x) b = compareText (a ++ y) b := by
  induction a generalizing b with
  | nil => simp at h
  | cons c a ih =>
    cases b with
    | nil => rfl
    | cons d b => simp only [List.cons_append,compareText,ih (by simpa using h)]

/-- A name that does not fit is compared with one that does as if it did. -/
theorem compareText_buffered {behind name part : Text} (h : part.length < nameBuffer) :
    compareText (buffered behind name) part = compareText name part := by
  unfold buffered
  split_ifs with hname
  · rfl
  · calc compareText (name.take nameBuffer ++ behind) part
        = compareText (name.take nameBuffer ++ name.drop nameBuffer) part :=
          compareText_append _ _ (by rw [List.length_take]; omega)
      _ = compareText name part := by rw [List.take_append_drop]

end Paths

section Making

variable {m : Stack} {t t' : Objects} {part : Text} {this : ℕ}

/-- Directories are added: what was found is found, and what was in order is. -/
structure Extends (m : Stack) (t t' : Objects) : Prop where
  /-- There are at least as many objects. -/
  next_le : t.next ≤ t'.next
  /-- What a search found it finds. -/
  found : ∀ {x part c},x < t.next → t.findChild m x part = some c → t'.findChild m x part = some c
  /-- Lists of children stay in order. -/
  sorted : ∀ x,Sorted t x → Sorted t' x

theorem Extends.refl : Extends m t t := ⟨le_rfl,fun _ h => h,fun _ h => h⟩

theorem Extends.trans {t'' : Objects} (h : Extends m t t') (h' : Extends m t' t'') :
    Extends m t t'' :=
  ⟨h.next_le.trans h'.next_le,fun hx hf => h'.found (hx.trans_le h.next_le) (h.found hx hf),
    fun x hs => h'.sorted x (h.sorted x hs)⟩

/-- The tree with a new directory below an object. -/
def withDirectory (m : Stack) (t : Objects) (this : ℕ) (part : Text) : Objects :=
  (t.newDirectory part).addChild m this t.next

/-- The new directory is in the list of its parent, which has no other. -/
theorem children_withDirectory (hthis : this < t.next) (x : ℕ) :
    (withDirectory m t this part).children x =
      if x = this then insertBefore (fun a b => ((withDirectory m t this part).kind a).shownAfter m
        ((withDirectory m t this part).kind b)) t.next (t.children this)
      else if x = t.next then [] else t.children x := by
  unfold withDirectory Objects.addChild Objects.newDirectory
  dsimp only
  by_cases hx : x = this
  · subst hx
    rw [if_pos rfl,Function.update_self,Function.update_of_ne (Nat.ne_of_lt hthis)]
  · rw [if_neg hx,Function.update_of_ne hx]
    by_cases hn : x = t.next
    · rw [if_pos hn,hn,Function.update_self]
    · rw [if_neg hn,Function.update_of_ne hn]

/-- The objects there were keep their kinds. -/
theorem kind_withDirectory (x : ℕ) : (withDirectory m t this part).kind x =
    if x = t.next then .directory part else t.kind x := by
  unfold withDirectory Objects.addChild Objects.newDirectory
  dsimp only
  by_cases hx : x = t.next
  · rw [if_pos hx,hx,Function.update_self]
  · rw [if_neg hx,Function.update_of_ne hx]

/-- A new directory leaves a tree of directories. -/
theorem directories_withDirectory (hd : Directories t) (hthis : this < t.next) :
    Directories (withDirectory m t this part) := by
  have hmem {x c : ℕ} (hc : c ∈ (withDirectory m t this part).children x) :
      c = t.next ∧ x = this ∨ c ∈ t.children x := by
    rw [children_withDirectory hthis] at hc
    split_ifs at hc with hx hn
    · rcases mem_insertBefore.mp hc with rfl | hc
      · exact .inl ⟨rfl,hx⟩
      · exact .inr (hx ▸ hc)
    · simp at hc
    · exact .inr hc
  refine ⟨Nat.lt_succ_of_lt hd.root_lt,fun hc => ?_,fun hc => ?_,fun x hx => ?_⟩
  · rcases hmem hc with ⟨rfl,-⟩ | hc
    · exact Nat.lt_succ_self _
    · exact Nat.lt_succ_of_lt (hd.child_lt hc)
  · rw [kind_withDirectory]
    rcases hmem hc with ⟨rfl,-⟩ | hc
    · exact ⟨part,if_pos rfl⟩
    · rw [if_neg (Nat.ne_of_lt (hd.child_lt hc))]
      exact hd.directory hc
  · rcases hmem hx with ⟨rfl,he⟩ | hx
    · exact absurd hthis (he ▸ lt_irrefl _)
    · exact hd.irrefl x hx

/-- The children there were answer to what they did. -/
theorem keyCheck_withDirectory (hd : Directories t) {x c : ℕ} (hc : c ∈ t.children x)
    (name : Text) : ((withDirectory m t this part).kind c).keyCheck m name =
      (t.kind c).keyCheck m name := by
  rw [kind_withDirectory,if_neg (Nat.ne_of_lt (hd.child_lt hc))]

/-- Among the children there were a search finds what it found. -/
theorem find?_withDirectory (hd : Directories t) (x : ℕ) (name : Text) :
    (t.children x).find? (fun c => ((withDirectory m t this part).kind c).keyCheck m name) =
      t.findChild m x name :=
  List.find?_congr fun _ hc => keyCheck_withDirectory hd hc name

/-- A search for another name finds what it found. -/
theorem findChild_other (hd : Directories t) (hthis : this < t.next) {x : ℕ} {name : Text}
    (hx : x < t.next) (hname : x = this → buffered m.key part ≠ name) :
    (withDirectory m t this part).findChild m x name = t.findChild m x name := by
  rw [Objects.findChild,children_withDirectory hthis]
  split_ifs with he hn
  · have hnot : ((withDirectory m t this part).kind t.next).keyCheck m name = false := by
      rw [kind_withDirectory,if_pos rfl,Bool.eq_false_iff,ne_eq,directory_keyCheck]
      exact hname he
    rw [he]
    have hfind := @find?_insertBefore_of_not _ (fun a b =>
      ((withDirectory m t this part).kind a).shownAfter m ((withDirectory m t this part).kind b)) _
      (fun c => ((withDirectory m t this part).kind c).keyCheck m name) (t.children this) hnot
    exact hfind.trans (find?_withDirectory hd this name)
  · exact absurd hx (hn ▸ lt_irrefl _)
  · exact find?_withDirectory hd x name

/-- A search for the name of the new directory finds it when it found nothing. -/
theorem findChild_new (hd : Directories t) (hthis : this < t.next) {name : Text}
    (hnone : t.findChild m this name = none) (hname : buffered m.key part = name) :
    (withDirectory m t this part).findChild m this name = some t.next := by
  rw [Objects.findChild,children_withDirectory hthis,if_pos rfl]
  refine find?_insertBefore_of_none ?_ ?_
  · rw [kind_withDirectory,if_pos rfl,directory_keyCheck]
    exact hname
  · rw [find?_withDirectory hd this name]
    exact hnone

/-- A new directory whose name fits keeps every list of children in order. -/
theorem sorted_withDirectory (hd : Directories t) (hthis : this < t.next)
    (hfit : part.length < nameBuffer) {x : ℕ} (hs : Sorted t x) :
    Sorted (withDirectory m t this part) x := by
  have hkind {y c : ℕ} (hc : c ∈ t.children y) :
      (withDirectory m t this part).kind c = t.kind c := by
    rw [kind_withDirectory,if_neg (Nat.ne_of_lt (hd.child_lt hc))]
  have hnew : (withDirectory m t this part).kind t.next = .directory part := by
    rw [kind_withDirectory,if_pos rfl]
  have hold {y : ℕ} (hs : Sorted t y) : (t.children y).Pairwise fun a b =>
      compareText ((withDirectory m t this part).kind a).displayName
        ((withDirectory m t this part).kind b).displayName ≠ .gt :=
    hs.imp_of_mem fun {a b} ha hb hab => by rwa [hkind ha,hkind hb]
  unfold Sorted
  rw [children_withDirectory hthis]
  split_ifs with he hn
  · subst he
    -- The comparer is the order of the names, since the new name fits.
    have hcomparer (y : ℕ) : ((withDirectory m t x part).kind y).shownAfter m
        ((withDirectory m t x part).kind t.next) = true ↔
          compareText ((withDirectory m t x part).kind y).displayName part = .gt := by
      rw [hnew,Kind.shownAfter,beq_iff_eq]
      change compareText _ (buffered m.second part) = _ ↔ _
      rw [buffered_of_lt hfit,compareText_buffered hfit]
    refine pairwise_insertBefore (fun hab hbc => ?_) (hold hs) (fun y hy hc => ?_)
      fun y hy hc => ?_
    · rw [ne_eq,compareText_gt_iff,not_lt] at hab hbc ⊢
      exact hab.trans hbc
    · have hgt := (hcomparer y).mp hc
      rw [hnew]
      rw [compareText_gt_iff] at hgt
      rw [ne_eq,compareText_gt_iff]
      exact hgt.not_gt
    · rw [hnew]
      exact fun hgt => by simp [(hcomparer y).mpr hgt] at hc
  · exact List.Pairwise.nil
  · exact hold hs

/-- A new directory whose name fits, and that nothing answered to, extends the tree. -/
theorem extends_withDirectory (hd : Directories t) (hthis : this < t.next)
    (hfit : part.length < nameBuffer) (hnone : t.findChild m this part = none) :
    Extends m t (withDirectory m t this part) := by
  refine ⟨Nat.le_succ _,fun {x name c} hx hf => ?_,
    fun x hs => sorted_withDirectory hd hthis hfit hs⟩
  rw [findChild_other hd hthis hx]
  · exact hf
  · rintro rfl hname
    rw [buffered_of_lt hfit] at hname
    rw [←hname,hnone] at hf
    simp at hf

end Making

section Walks

variable {m : Stack} {t t' : Objects} {this : ℕ}

/-- Making the first component of a path and then the others. -/
theorem getChild_create (part : Text) (rest : List Text) :
    t.getChild m true (part :: rest) this =
      match t.findChild m this part with
      | some child => if rest = [] then (some child,t) else t.getChild m true rest child
      | none =>
        if rest = [] then (some t.next,withDirectory m t this part)
        else (withDirectory m t this part).getChild m true rest t.next := by
  cases hfind : t.findChild m this part with
  | none => cases rest <;> simp [Objects.getChild,hfind,withDirectory]
  | some child => cases rest <;> simp [getChild_some hfind]

/-- A search finds in an extended tree what it found. -/
theorem getChild_extends (hd : Directories t) (he : Extends m t t') {ps : List Text} {d : ℕ}
    (hthis : this < t.next) (h : (t.getChild m false ps this).1 = some d) :
    (t'.getChild m false ps this).1 = some d := by
  induction ps generalizing this with
  | nil => cases h
  | cons part rest ih =>
    cases rest with
    | nil =>
      rw [getChild_singleton] at h ⊢
      exact he.found hthis h
    | cons part' rest =>
      rw [getChild_cons (by simp)] at h ⊢
      obtain ⟨child,hfind,hrest⟩ := Option.bind_eq_some_iff.mp h
      rw [he.found hthis hfind,Option.bind_some]
      exact ih (hd.child_lt (List.mem_of_find?_eq_some hfind)) hrest

/-- Nothing is made of a path that is found. -/
theorem getChild_found {ps : List Text} {d : ℕ} (h : (t.getChild m false ps this).1 = some d) :
    t.getChild m true ps this = (some d,t) := by
  induction ps generalizing this with
  | nil => cases h
  | cons part rest ih =>
    rw [getChild_create]
    cases rest with
    | nil =>
      rw [getChild_singleton] at h
      rw [h]
      rfl
    | cons part' rest =>
      rw [getChild_cons (by simp)] at h
      obtain ⟨child,hfind,hrest⟩ := Option.bind_eq_some_iff.mp h
      rw [hfind]
      exact ih hrest

/-- Making directories leaves a tree of directories. -/
theorem directories_getChild (hd : Directories t) (hthis : this < t.next) (ps : List Text) :
    Directories (t.getChild m true ps this).2 := by
  induction ps generalizing t this with
  | nil => exact hd
  | cons part rest ih =>
    rw [getChild_create]
    cases hfind : t.findChild m this part with
    | some child =>
      dsimp only
      split_ifs
      · exact hd
      · exact ih hd (hd.child_lt (List.mem_of_find?_eq_some hfind))
    | none =>
      have hd' := @directories_withDirectory m t part this hd hthis
      dsimp only
      split_ifs
      · exact hd'
      · exact ih hd' (Nat.lt_succ_self _)

/-- Components that fit are made, and then found. -/
theorem getChild_made (hd : Directories t) (hthis : this < t.next) {ps : List Text} (hne : ps ≠ [])
    (hfit : ∀ part ∈ ps,part.length < nameBuffer) :
    ∃ d t',t.getChild m true ps this = (some d,t') ∧ Extends m t t' ∧
      (t'.getChild m false ps this).1 = some d := by
  induction ps generalizing t this with
  | nil => exact absurd rfl hne
  | cons part rest ih =>
    have hrest : ∀ p ∈ rest,p.length < nameBuffer := fun p hp => hfit p (by simp [hp])
    rw [getChild_create]
    cases hfind : t.findChild m this part with
    | some child =>
      dsimp only
      by_cases hempty : rest = []
      · refine ⟨child,t,if_pos hempty,.refl,?_⟩
        rw [hempty,getChild_singleton,hfind]
      · obtain ⟨d,t',hmade,hext,hget⟩ :=
          ih hd (hd.child_lt (List.mem_of_find?_eq_some hfind)) hempty hrest
        refine ⟨d,t',(if_neg hempty).trans hmade,hext,?_⟩
        rw [getChild_cons hempty,hext.found hthis hfind]
        exact hget
    | none =>
      have hpart := hfit part (by simp)
      have hd' := @directories_withDirectory m t part this hd hthis
      have hext := extends_withDirectory hd hthis hpart hfind
      have hnew := findChild_new hd hthis hfind (buffered_of_lt hpart)
      dsimp only
      by_cases hempty : rest = []
      · refine ⟨t.next,withDirectory m t this part,if_pos hempty,hext,?_⟩
        rw [hempty,getChild_singleton,hnew]
      · obtain ⟨d,t',hmade,hext',hget⟩ := ih hd' (Nat.lt_succ_self _) hempty hrest
        refine ⟨d,t',(if_neg hempty).trans hmade,hext.trans hext',?_⟩
        rw [getChild_cons hempty,hext'.found (hthis.trans (Nat.lt_succ_self _)) hnew]
        exact hget

/-- A component that does not fit is not found when there is enough behind the
buffer. -/
theorem getChild_long (hd : Directories t) {ps : List Text} {part : Text} (hp : part ∈ ps)
    (hlong : nameBuffer ≤ part.length) (hkey : part.length < nameBuffer + m.key.length) :
    (t.getChild m false ps this).1 = none := by
  have hnone (x : ℕ) : t.findChild m x part = none := by
    refine List.find?_eq_none.mpr fun c hc hkc => ?_
    obtain ⟨name,hname⟩ := hd.directory hc
    rw [hname,directory_keyCheck,buffered] at hkc
    split_ifs at hkc with hlt
    · rw [hkc] at hlt
      omega
    · have hlen := congrArg List.length hkc
      rw [List.length_append,List.length_take] at hlen
      omega
  induction ps generalizing this with
  | nil => rfl
  | cons p rest ih =>
    cases rest with
    | nil =>
      obtain rfl : part = p := by simpa using hp
      rw [getChild_singleton,hnone]
    | cons p' rest =>
      rw [getChild_cons (by simp)]
      rcases List.mem_cons.mp hp with rfl | hp
      · rw [hnone]
        rfl
      · cases hfind : t.findChild m this p with
        | none => rfl
        | some child => exact ih hp

end Walks

section Agreement

variable {m : Stack} {t t' : Objects} {path other : Text}

/-- Get of a path with a component. -/
theorem get_of_components (h : components path ≠ []) :
    t.get m path = (t.getChild m false (parts path) root).1 := by
  rw [Objects.get,isRoot_of_components h]
  rfl

/-- MakeDir of a path with a component. -/
theorem makeDir_of_components (h : components path ≠ []) :
    t.makeDir m path = t.getChild m true (parts path) root := by
  rw [Objects.makeDir,isRoot_of_components h]
  rfl

/-- Of two paths with the same components, one ends in a separator: it does not
name what the other one names. -/
theorem get_trailing_ne (hd : Directories t) (h : components path ≠ [])
    (hsame : components other = components path) (hp : ¬Trailing path) (ho : Trailing other) {d : ℕ}
    (hget : t.get m path = some d) : t.get m other ≠ some d := by
  have h' : components other ≠ [] := hsame ▸ h
  have hparts := parts_eq h
  have hparts' := parts_eq h'
  rw [if_neg hp,List.append_nil] at hparts
  rw [if_pos ho,hsame] at hparts'
  rw [get_of_components h,hparts] at hget
  rw [get_of_components h',hparts',getChild_append h (by simp),hget,Option.bind_some,
    getChild_singleton]
  exact fun hf => hd.irrefl d (List.mem_of_find?_eq_some hf)

/-- For every tree of directories, every path with a component and every other
path with the same components: MakeDir, Get and Contains agree, exactly when
every component fits the buffer and both paths end in a separator or neither. -/
theorem makeDir_agrees_iff (hd : Directories t) (h : components path ≠ [])
    (hsame : components other = components path) :
    Agrees t path other ↔
      (∀ part ∈ components path,part.length < nameBuffer) ∧ (Trailing path ↔ Trailing other) := by
  have h' : components other ≠ [] := hsame ▸ h
  constructor
  · intro hagrees
    refine ⟨fun part hpart => ?_,?_⟩
    · by_contra hlong
      obtain ⟨d,t',hmade,hget,-⟩ := hagrees ⟨List.replicate part.length 'x',[],[]⟩
      rw [makeDir_of_components h] at hmade
      have hd' := congrArg Prod.snd hmade ▸ directories_getChild hd hd.root_lt (parts path)
      have hnone : (t'.getChild ⟨List.replicate part.length 'x',[],[]⟩ false (parts path) root).1 =
          none := getChild_long hd' (List.mem_of_mem_filter hpart) (not_lt.mp hlong)
            (by simp [nameBuffer])
      rw [get_of_components h,hnone] at hget
      simp at hget
    · obtain ⟨d,t',hmade,hget,-,hother,-⟩ := hagrees ⟨[],[],[]⟩
      rw [makeDir_of_components h] at hmade
      have hd' := congrArg Prod.snd hmade ▸ directories_getChild hd hd.root_lt (parts path)
      by_cases hp : Trailing path
      · refine iff_of_true hp ?_
        by_contra ho
        exact get_trailing_ne hd' h' hsame.symm ho hp hother hget
      · refine iff_of_false hp fun ho => ?_
        exact get_trailing_ne hd' h hsame hp ho hget hother
  · rintro ⟨hfit,htrail⟩ m
    have hparts : parts other = parts path := by
      rw [parts_eq h,parts_eq h',hsame]
      simp only [htrail]
    have hall : ∀ part ∈ parts path,part.length < nameBuffer := by
      intro part hpart
      by_cases hempty : part = []
      · simp [hempty,nameBuffer]
      · exact hfit part (List.mem_filter.mpr ⟨hpart,by simpa using hempty⟩)
    obtain ⟨d,t',hmade,hext,hget⟩ :=
      getChild_made (m := m) hd hd.root_lt (parts_ne_nil path) hall
    refine ⟨d,t',?_,?_,?_,?_,contains_iff_get,fun r x hr => ?_,hext.sorted⟩
    · rw [makeDir_of_components h,hmade]
    · rw [get_of_components h,hget]
    · rw [makeDir_of_components h,getChild_found hget]
    · rw [get_of_components h',hparts,hget]
    · unfold Objects.get at hr ⊢
      split_ifs at hr ⊢
      · exact hr
      · exact getChild_extends hd hext hd.root_lt hr

end Agreement

/-- A tree without objects but the root. -/
def onlyRoot : Objects :=
  { kind := fun _ => .directory ['/']
    parent := fun _ => none
    children := fun _ => []
    tree := fun x => x == root
    next := 1 }

theorem directories_onlyRoot : Directories onlyRoot :=
  ⟨Nat.zero_lt_one,fun h => absurd h List.not_mem_nil,fun h => absurd h List.not_mem_nil,
    fun _ => List.not_mem_nil⟩

/-- Two directories, with separators before and between them. -/
theorem makeDir_agrees_iff_two : Agrees onlyRoot ['/','a','/','/','b'] ['a','/','b'] :=
  (makeDir_agrees_iff directories_onlyRoot (by decide) (by decide)).mpr
    ⟨by decide,by decide⟩

/-- A separator at the end makes a directory without a name. -/
theorem trailing_separator_names_another : ¬Agrees onlyRoot ['a','/'] ['a'] := by
  intro h
  obtain ⟨d,t',hmade,-,-,hother,-⟩ := h ⟨[],[],[]⟩
  obtain rfl := congrArg Prod.snd hmade
  obtain rfl := Option.some.inj (congrArg Prod.fst hmade)
  exact absurd hother (by decide)

end WootOs.ObjectDirectories
