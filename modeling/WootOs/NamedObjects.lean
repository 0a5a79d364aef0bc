import Mathlib.Data.Int.Notation
import Mathlib.Logic.Function.Basic
import Mathlib.Tactic.SplitIfs
import WootOs.Runs

/-!
# Named objects

The kernel keeps a list of its named objects. A new object enters the list
with one reference, Get finds an object by name and adds a reference, and Put
takes a reference away. The last Put deletes the object.

Put takes the object out of the list each time, also when references are left.
Such an object lives on and no Get finds it. The list and the count describe
one lifetime exactly as long as each Put is the last one.

An operation is atomic, as the lock makes it. The count is an integer; it stays
far below the bound of an int, since each reference is a slot of some handle
table.
-/

namespace WootOs.NamedObjects

open Runs

set_option linter.unusedSectionVars false

/-- EBUSY. -/
def ebusy : ℤ := 16

/-- A NamedObject. -/
structure NamedObject (N : Type*) where
  /-- NamedObject::refCount. -/
  refCount : ℤ
  /-- NamedObject::name. -/
  name : N
  deriving DecidableEq

/-- The named objects of the kernel. The last three fields record the history. -/
structure Registry (O N : Type*) where
  /-- NamedObject::objects. -/
  objects : List O
  /-- The objects that have been created and not deleted. -/
  memory : O → Option (NamedObject N)
  /-- The objects created so far. -/
  created : O → Bool
  /-- Creations and successful Gets less the Puts, of each object. -/
  holders : O → ℤ
  /-- How many times each object has been deleted. -/
  deletions : O → ℕ

/-- What can happen to the named objects. Get and Put carry the outcome of Lock,
which gives up after a second. -/
inductive Op (O N : Type*) where
  /-- The constructor, for an object of a name. -/
  | create (obj : O) (name : N)
  /-- NamedObject::Get. -/
  | get (name : N) (locked : Bool)
  /-- NamedObject::Put. -/
  | put (obj : O) (locked : Bool)
  deriving DecidableEq

variable {O N : Type*} [DecidableEq O] [DecidableEq N]

namespace Registry

/-- No object yet. -/
def empty : Registry O N :=
  { objects := []
    memory := fun _ => none
    created := fun _ => false
    holders := fun _ => 0
    deletions := fun _ => 0 }

variable (r : Registry O N)

/-- An object has been created and not deleted. -/
def Alive (obj : O) : Prop := (r.memory obj).isSome

instance (obj : O) : Decidable (r.Alive obj) := inferInstanceAs (Decidable ((r.memory obj).isSome = true))

/-- NamedObject::NamedObject. It does not look at what Lock returns. -/
def create (obj : O) (name : N) : Registry O N :=
  { objects := obj :: r.objects
    memory := Function.update r.memory obj (some { refCount := 1,name := name })
    created := Function.update r.created obj true
    holders := Function.update r.holders obj (r.holders obj + 1)
    deletions := r.deletions }

/-- The comparison of names in the loop of Get. -/
def named (name : N) (obj : O) : Bool :=
  match r.memory obj with
  | some no => decide (name = no.name)
  | none => false

/-- NamedObject::Get. -/
def get (name : N) (locked : Bool) : Option O × Registry O N :=
  if locked then
    match r.objects.find? (r.named name) with
    | some obj =>
      (some obj,
        { r with
          memory := Function.update r.memory obj
            ((r.memory obj).map fun no => { no with refCount := no.refCount + 1 })
          holders := Function.update r.holders obj (r.holders obj + 1) })
    | none => (none,r)
  else (none,r)

/-- NamedObject::Put. -/
def put (obj : O) (locked : Bool) : ℤ × Registry O N :=
  if locked then
    match r.memory obj with
    | some no =>
      if no.refCount - 1 ≤ 0 then
        (0,
          { r with
            objects := r.objects.erase obj
            memory := Function.update r.memory obj none
            holders := Function.update r.holders obj (r.holders obj - 1)
            deletions := Function.update r.deletions obj (r.deletions obj + 1) })
      else
        (0,
          { r with
            objects := r.objects.erase obj
            memory := Function.update r.memory obj
              (some { no with refCount := no.refCount - 1 })
            holders := Function.update r.holders obj (r.holders obj - 1) })
    | none => (0,r)
  else (-ebusy,r)

/-- The effect of an operation. -/
def apply : Op O N → Registry O N
  | .create obj name => r.create obj name
  | .get name locked => (r.get name locked).2
  | .put obj locked => (r.put obj locked).2

/-- A new object is not one there has been before, and its name is not in use.
A Put comes from a holder. -/
def Enabled : Op O N → Prop
  | .create obj name => r.created obj = false ∧ ∀ other,r.named name other = false
  | .get _ _ => True
  | .put obj _ => 0 < r.holders obj

/-- An object is alive and Get finds it by its name. -/
def Findable (obj : O) : Prop :=
  ∃ no,r.memory obj = some no ∧ (r.get no.name true).1 = some obj

/-- The lifetime of an object follows the number of its holders. -/
structure Lifetime (obj : O) : Prop where
  /-- It is alive and findable as long as it has a holder. -/
  findable : r.Findable obj ↔ 0 < r.holders obj
  /-- It has been deleted once when it has lost its last holder, and never before. -/
  deletions : r.deletions obj = if r.created obj = true ∧ r.holders obj = 0 then 1 else 0

/-- The Put of an operation finds no second holder. -/
def LastPut : Op O N → Prop
  | .put obj true => r.holders obj = 1
  | _ => True

end Registry

section Steps

variable {r : Registry O N}

/-- What the list and the counts have to do with each other as long as each Put
is the last one. -/
structure Listed (r : Registry O N) : Prop where
  /-- The list holds the objects that are alive. -/
  mem : ∀ obj,obj ∈ r.objects ↔ r.Alive obj
  /-- It holds each of them once. -/
  nodup : r.objects.Nodup
  /-- The count of an object is the number of its holders. -/
  refCount : ∀ obj no,r.memory obj = some no → no.refCount = r.holders obj ∧ 0 < r.holders obj
  /-- An object that is not alive has no holder. -/
  holders : ∀ obj,r.memory obj = none → r.holders obj = 0
  /-- Two objects that are alive have two names. -/
  distinct : ∀ a b no no',r.memory a = some no → r.memory b = some no' →
    no.name = no'.name → a = b
  /-- An object that is alive has been created. -/
  created : ∀ obj,r.Alive obj → r.created obj = true
  /-- An object is deleted once. -/
  deletions : ∀ obj,r.deletions obj =
    if r.created obj = true ∧ r.memory obj = none then 1 else 0

theorem listed_empty : Listed (Registry.empty : Registry O N) where
  mem _ := by simp [Registry.empty,Registry.Alive]
  nodup := List.nodup_nil
  refCount _ _ h := by cases h
  holders _ _ := rfl
  distinct _ _ _ _ h := by cases h
  created _ h := by cases h
  deletions _ := rfl

theorem named_eq_true_iff (name : N) (obj : O) :
    r.named name obj = true ↔ ∃ no,r.memory obj = some no ∧ no.name = name := by
  unfold Registry.named
  cases r.memory obj with
  | none => simp
  | some no => simp [eq_comm]

theorem named_eq_false_iff (name : N) (obj : O) :
    r.named name obj = false ↔ ∀ no,r.memory obj = some no → no.name ≠ name := by
  rw [←Bool.not_eq_true,named_eq_true_iff]
  simp

/-- What Get finds is in the list and has the name. -/
theorem get_fst_eq_some {name : N} {obj : O} (h : (r.get name true).1 = some obj) :
    obj ∈ r.objects ∧ r.named name obj = true := by
  unfold Registry.get at h
  rw [if_pos rfl] at h
  cases hf : r.objects.find? (r.named name) with
  | none => simp [hf] at h
  | some found =>
    simp only [hf,Option.some.injEq] at h
    subst h
    exact ⟨List.mem_of_find?_eq_some hf,List.find?_some hf⟩

/-- With distinct names an object in the list is found. -/
theorem Listed.get_fst (h : Listed r) {obj : O} {no : NamedObject N}
    (hm : r.memory obj = some no) : (r.get no.name true).1 = some obj := by
  unfold Registry.get
  rw [if_pos rfl]
  cases hf : r.objects.find? (r.named no.name) with
  | none =>
    have hmem : obj ∈ r.objects := (h.mem obj).mpr (by simp [Registry.Alive,hm])
    have hno := List.find?_eq_none.mp hf obj hmem
    exact absurd ((named_eq_true_iff _ _).mpr ⟨no,hm,rfl⟩) hno
  | some found =>
    obtain ⟨no',hm',hname⟩ := (named_eq_true_iff _ _).mp (List.find?_some hf)
    rw [h.distinct found obj no' no hm' hm hname]

theorem Listed.memory_none_iff (h : Listed r) (obj : O) :
    r.memory obj = none ↔ r.holders obj = 0 := by
  cases hm : r.memory obj with
  | none => simp [h.holders obj hm]
  | some no =>
    have hpos := (h.refCount obj no hm).2
    simp only [reduceCtorEq,false_iff]
    omega

theorem Listed.lifetime (h : Listed r) (obj : O) : r.Lifetime obj where
  findable := by
    constructor
    · rintro ⟨no,hm,-⟩
      exact (h.refCount obj no hm).2
    · intro hpos
      cases hm : r.memory obj with
      | none =>
        have hzero := h.holders obj hm
        omega
      | some no => exact ⟨no,hm,h.get_fst hm⟩
  deletions := by
    rw [h.deletions obj]
    simp only [h.memory_none_iff]

/-- A new object of a name that is not in use. -/
theorem Listed.create (h : Listed r) {obj : O} {name : N} (he : r.Enabled (.create obj name)) :
    Listed (r.create obj name) := by
  obtain ⟨hnew,hfree⟩ := he
  have hnone : r.memory obj = none := by
    cases hm : r.memory obj with
    | none => rfl
    | some no =>
      have hc := h.created obj (by simp [Registry.Alive,hm])
      rw [hnew] at hc
      cases hc
  have hout : obj ∉ r.objects := by
    rw [h.mem]
    simp [Registry.Alive,hnone]
  have hname : ∀ other no,r.memory other = some no → no.name ≠ name := fun other =>
    (named_eq_false_iff _ _).mp (hfree other)
  refine ⟨fun other => ?_,List.nodup_cons.mpr ⟨hout,h.nodup⟩,fun other no hm => ?_,
    fun other hm => ?_,fun a b no no' ha hb hab => ?_,fun other hm => ?_,fun other => ?_⟩
  · by_cases ho : other = obj
    · simp [Registry.create,Registry.Alive,ho]
    · simpa [Registry.create,Registry.Alive,ho] using h.mem other
  · by_cases ho : other = obj
    · subst ho
      simp only [Registry.create,Function.update_self,Option.some.injEq] at hm ⊢
      rw [←hm,h.holders other hnone]
      exact ⟨rfl,Int.one_pos⟩
    · simp only [Registry.create,Function.update_of_ne ho] at hm ⊢
      exact h.refCount other no hm
  · by_cases ho : other = obj
    · simp [Registry.create,ho] at hm
    · simp only [Registry.create,Function.update_of_ne ho] at hm ⊢
      exact h.holders other hm
  · simp only [Registry.create] at ha hb
    by_cases hao : a = obj
    · by_cases hbo : b = obj
      · rw [hao,hbo]
      · rw [hao,Function.update_self,Option.some.injEq] at ha
        rw [Function.update_of_ne hbo] at hb
        exact absurd (by rw [←hab,←ha]) (hname b no' hb)
    · rw [Function.update_of_ne hao] at ha
      by_cases hbo : b = obj
      · rw [hbo,Function.update_self,Option.some.injEq] at hb
        exact absurd (by rw [hab,←hb]) (hname a no ha)
      · rw [Function.update_of_ne hbo] at hb
        exact h.distinct a b no no' ha hb hab
  · by_cases ho : other = obj
    · simp [Registry.create,ho]
    · simp only [Registry.create,Registry.Alive,Function.update_of_ne ho] at hm ⊢
      exact h.created other hm
  · by_cases ho : other = obj
    · simp [Registry.create,ho,h.deletions obj,hnew]
    · simp only [Registry.create,Function.update_of_ne ho]
      exact h.deletions other

/-- Get adds a holder to the object it finds. -/
theorem Listed.get (h : Listed r) (name : N) (locked : Bool) : Listed (r.get name locked).2 := by
  unfold Registry.get
  split_ifs with hl
  · cases hf : r.objects.find? (r.named name) with
    | none => exact h
    | some obj =>
      obtain ⟨no,hm,-⟩ := (named_eq_true_iff _ _).mp (List.find?_some hf)
      obtain ⟨hcount,hpos⟩ := h.refCount obj no hm
      have halive : ∀ other,(Function.update r.memory obj
          (some { no with refCount := no.refCount + 1 }) other).isSome = (r.memory other).isSome := by
        intro other
        by_cases ho : other = obj
        · rw [ho,Function.update_self,hm]
          rfl
        · rw [Function.update_of_ne ho]
      have hname : ∀ other no',Function.update r.memory obj
          (some { no with refCount := no.refCount + 1 }) other = some no' →
          ∃ old,r.memory other = some old ∧ old.name = no'.name := by
        intro other no' hu
        by_cases ho : other = obj
        · rw [ho,Function.update_self,Option.some.injEq] at hu
          exact ⟨no,ho ▸ hm,by rw [←hu]⟩
        · rw [Function.update_of_ne ho] at hu
          exact ⟨no',hu,rfl⟩
      simp only [hm,Option.map_some]
      refine ⟨fun other => ?_,h.nodup,fun other no' hu => ?_,fun other hu => ?_,
        fun a b na nb ha hb hab => ?_,fun other hu => ?_,fun other => ?_⟩
      · rw [h.mem other,Registry.Alive,Registry.Alive,halive other]
      · by_cases ho : other = obj
        · subst ho
          simp only [Function.update_self,Option.some.injEq] at hu ⊢
          rw [←hu]
          exact ⟨by simp only [hcount],by omega⟩
        · simp only [Function.update_of_ne ho] at hu ⊢
          exact h.refCount other no' hu
      · by_cases ho : other = obj
        · simp [ho] at hu
        · simp only [Function.update_of_ne ho] at hu ⊢
          exact h.holders other hu
      · obtain ⟨na',ha',hna⟩ := hname a na ha
        obtain ⟨nb',hb',hnb⟩ := hname b nb hb
        exact h.distinct a b na' nb' ha' hb' (by rw [hna,hnb,hab])
      · rw [Registry.Alive,halive other] at hu
        exact h.created other hu
      · rw [h.deletions other]
        simp only [←Option.isNone_iff_eq_none,←Option.not_isSome,halive other]
  · exact h

/-- The last Put deletes the object. -/
theorem Listed.put (h : Listed r) {obj : O} {locked : Bool} (he : r.Enabled (.put obj locked))
    (hlast : r.LastPut (.put obj locked)) : Listed (r.put obj locked).2 := by
  cases locked with
  | false => exact h
  | true =>
    have hone : r.holders obj = 1 := hlast
    cases hm : r.memory obj with
    | none =>
      have hzero := h.holders obj hm
      omega
    | some no =>
      have hcount := (h.refCount obj no hm).1
      have hle : no.refCount - 1 ≤ 0 := by omega
      have hgone : ∀ other,Function.update r.memory obj none other =
          if other = obj then none else r.memory other := fun other => by
        rw [Function.update_apply]
      simp only [Registry.put,if_true,hm,if_pos hle]
      refine ⟨fun other => ?_,h.nodup.erase obj,fun other no' hu => ?_,fun other hu => ?_,
        fun a b na nb ha hb hab => ?_,fun other hu => ?_,fun other => ?_⟩
      · rw [h.nodup.mem_erase_iff,h.mem other]
        simp only [Registry.Alive,hgone other]
        split_ifs with ho <;> simp [ho]
      · simp only [hgone other] at hu
        split_ifs at hu with ho
        simp only [Function.update_of_ne ho]
        exact h.refCount other no' hu
      · by_cases ho : other = obj
        · simp only [ho,Function.update_self]
          omega
        · simp only [Function.update_of_ne ho] at hu ⊢
          exact h.holders other hu
      · simp only [hgone] at ha hb
        split_ifs at ha hb
        exact h.distinct a b na nb ha hb hab
      · simp only [Registry.Alive,hgone other] at hu
        split_ifs at hu
        · cases hu
        · exact h.created other hu
      · by_cases ho : other = obj
        · subst ho
          have hc := h.created other (by simp [Registry.Alive,hm])
          simp [h.deletions other,hm,hc]
        · simp only [Function.update_of_ne ho]
          exact h.deletions other

theorem Listed.apply (h : Listed r) {op : Op O N} (he : r.Enabled op) (hlast : r.LastPut op) :
    Listed (r.apply op) := by
  cases op with
  | create obj name => exact h.create he
  | get name locked => exact h.get name locked
  | put obj locked => exact h.put he hlast

/-- A Put with a second holder leaves an object that no Get finds. -/
theorem Listed.not_findable (h : Listed r) {obj : O} (he : r.Enabled (.put obj true))
    (hmore : r.holders obj ≠ 1) : ¬(r.put obj true).2.Lifetime obj := by
  intro hlife
  have hpos : 0 < r.holders obj := he
  cases hm : r.memory obj with
  | none =>
    have hzero := h.holders obj hm
    omega
  | some no =>
    have hcount := (h.refCount obj no hm).1
    have hlt : ¬no.refCount - 1 ≤ 0 := by omega
    have hfind := hlife.findable.mpr (by
      simp only [Registry.put,if_true,hm,if_neg hlt,Function.update_self]
      omega)
    obtain ⟨no',-,hget⟩ := hfind
    have hin := (get_fst_eq_some hget).1
    simp only [Registry.put,if_true,hm,if_neg hlt] at hin
    exact h.nodup.not_mem_erase hin

end Steps

/-- In every state of a run an object is alive and findable exactly as long as
it has a holder, and is deleted once, by the Put of its last holder, if and only
if no Put of the run finds a second holder. -/
theorem lifetime_iff_lastPut (ops : List (Op O N))
    (h : RunMeets Registry.apply Registry.Enabled Registry.empty ops) :
    (∀ n obj,((ops.take n).foldl Registry.apply Registry.empty).Lifetime obj) ↔
      RunMeets Registry.apply Registry.LastPut Registry.empty ops := by
  refine RunMeets.always_iff (fun r hr obj => hr.lifetime obj) (fun r op hr he hq => hr.apply he hq)
    (fun r op hr he hq hall => ?_) listed_empty h
  cases op with
  | create obj name => exact hq trivial
  | get name locked => exact hq trivial
  | put obj locked =>
    cases locked with
    | false => exact hq trivial
    | true => exact hr.not_findable he hq (hall obj)

/-- A name that is used again after the last Put. -/
def renewedRun : List (Op ℕ String) :=
  [.create 0 "frames",.put 0 true,.create 1 "frames"]

/-- The name is free again when the first object is deleted. -/
theorem renewedRun_enabled :
    RunMeets Registry.apply Registry.Enabled Registry.empty renewedRun := by
  refine ⟨⟨rfl,fun _ => rfl⟩,?_,⟨rfl,fun other => ?_⟩,trivial⟩
  · unfold Registry.Enabled
    decide
  · simp [Registry.apply,Registry.put,Registry.create,Registry.named,Registry.empty]

theorem renewedRun_lifetime :
    ((renewedRun.take 2).foldl Registry.apply Registry.empty).Lifetime 0 :=
  (lifetime_iff_lastPut renewedRun renewedRun_enabled).mpr ⟨trivial,rfl,trivial,trivial⟩ 2 0

/-- Two holders of one object, of which the first lets go. -/
def sharedRun : List (Op ℕ String) :=
  [.create 0 "frames",.get "frames" true,.put 0 true]

theorem sharedRun_not_lifetime :
    RunMeets Registry.apply Registry.Enabled Registry.empty sharedRun ∧
      ¬(sharedRun.foldl Registry.apply Registry.empty).Lifetime 0 := by
  constructor
  · refine ⟨⟨rfl,fun _ => rfl⟩,trivial,?_,trivial⟩
    unfold Registry.Enabled
    decide
  · intro h
    obtain ⟨no,-,hget⟩ := h.findable.mpr (by decide)
    have hin := (get_fst_eq_some hget).1
    exact absurd hin (by decide)

end WootOs.NamedObjects
