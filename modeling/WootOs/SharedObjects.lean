import WootOs.DepthFirst
import WootOs.ElfLoader
import WootOs.Runs

/-!
# Shared objects are loaded once

The files and their DT_NEEDED entries are a graph. A loader that knew which
file each image came from would walk it depth first. ELF::Load goes by names
instead, which images change to their DT_SONAME. It makes the same walk as long
as the names agree with the files at every DT_NEEDED entry; the first time
they do not, a file is loaded twice, or is never loaded.
-/

namespace WootOs.ElfLoader

open DepthFirst Runs

variable {F : Type} (fs : Files F)

/-- The paths that a file needs. -/
def Files.names (f : F) : List String := (fs.content f).needed

/-- The files that can be reached from a path through DT_NEEDED. -/
def Files.Reachable (filename : String) (f : F) : Prop :=
  ∃ r,fs.elfAt filename = some r ∧ Relation.ReflTransGen (Arrow fs.elfAt fs.names) r f

/-- The names in the library directory are names of different files. -/
def Files.Distinct : Prop := ∀ n n' f,fs.elfAt (libPath n) = some f →
  fs.elfAt (libPath n') = some f → n = n'

namespace Process

/-- A file has been loaded. -/
def Loaded (images : List (Image F)) (f : F) : Prop := ∃ elf ∈ images,elf.file = f

/-- An image goes by a name. -/
def Named (images : List (Image F)) (name : String) : Prop := ∃ elf ∈ images,elf.name = name

/-- What an event of the walk does to a process. -/
def apply (proc : Process F) : Event F String → Process F
  | .enter f p =>
    ((proc.register fs f p).loadData (fs.content f) proc.images.length true).2.rename
      (fs.content f) proc.images.length
  | _ => proc

variable [DecidableEq F] (applyRelocs : Bool)

/-- An event goes well: the entry's path is the name of an image just when its
file was loaded before, the data of a file can be loaded, and its relocations
can be applied. -/
def Smooth (proc : Process F) : Event F String → Prop
  | .ask p => ∀ f,fs.elfAt p = some f → (Named proc.images p ↔ Loaded proc.images f)
  | .enter f p =>
    ((proc.register fs f p).loadData (fs.content f) proc.images.length true).1 = true
  | .leave f => applyRelocs = true →
    proc.applyRelocations fs (fs.content f) (proc.images.findIdx (·.file = f))
      (fs.content f).relocations = some true

instance (images : List (Image F)) (f : F) : Decidable (Loaded images f) :=
  inferInstanceAs (Decidable (∃ elf ∈ images,elf.file = f))

instance (images : List (Image F)) (name : String) : Decidable (Named images name) :=
  inferInstanceAs (Decidable (∃ elf ∈ images,elf.name = name))

instance [Fintype F] (proc : Process F) :
    ∀ e,Decidable (proc.Smooth fs applyRelocs e)
  | .ask p => inferInstanceAs (Decidable (∀ f,fs.elfAt p = some f →
      (Named proc.images p ↔ Loaded proc.images f)))
  | .enter f p => inferInstanceAs (Decidable
      (((proc.register fs f p).loadData (fs.content f) proc.images.length true).1 = true))
  | .leave f => inferInstanceAs (Decidable (applyRelocs = true →
      proc.applyRelocations fs (fs.content f) (proc.images.findIdx (·.file = f))
        (fs.content f).relocations = some true))

end Process

/-- ELF::Load of a program returns an image, the process then has exactly one
image of each file that can be reached, and none of them has been deleted. -/
def LoadsOnce (applyRelocs : Bool) (filename : String) (proc : Process F) : Prop :=
  ∃ fuel elf proc',load fs true false applyRelocs fuel filename proc = some (some elf,proc') ∧
    (proc'.images.map Image.file).Nodup ∧
    (∀ f,Process.Loaded proc'.images f ↔ fs.Reachable filename f) ∧
    ∀ elf ∈ proc'.images,elf.deleted = false

section Steps

open Process

variable {fs} {proc proc' : Process F} {images images' : List (Image F)} {f g : F}
  {p name : String} {user applyRelocs : Bool} {fuel : ℕ} {r : Option ℕ}

theorem modify_append_length (l r : List (Image F)) (x : Image F) (change : Image F → Image F) :
    (l ++ x :: r).modify l.length change = l ++ change x :: r := by
  rw [List.modify_eq_take_cons_drop (by simp)]
  simp

/-- An image is registered and placed at the end of the list. -/
theorem loadData_images (fs : Files F) (proc : Process F) (f : F) (p : String) (user : Bool) :
    ∃ delta,
    ((proc.register fs f p).loadData (fs.content f) proc.images.length user).2.images =
      proc.images ++ [(fs.image f p).placed delta] :=
  ⟨_,modify_append_length proc.images [] (fs.image f p) _⟩

/-- Entering a file adds an image of it. -/
theorem enter_images (fs : Files F) (proc : Process F) (f : F) (p : String) :
    ∃ x,(proc.apply fs (.enter f p)).images = proc.images ++ [x] ∧
    x.file = f ∧ x.deleted = false := by
  obtain ⟨delta,himages⟩ := loadData_images fs proc f p true
  refine ⟨((fs.image f p).placed delta).renamed (fs.content f),?_,rfl,rfl⟩
  change ((proc.register fs f p).loadData (fs.content f) proc.images.length true).2.images.modify
    proc.images.length _ = _
  rw [himages,modify_append_length]

/-- Deleting an image leaves it in the list. -/
theorem deleteELF_images {x : Image F} (h : proc.images = images ++ x :: images') :
    (proc.deleteELF images.length).images = images ++ { x with deleted := true } :: images' := by
  change proc.images.modify images.length _ = _
  rw [h,modify_append_length]

theorem deleted_of_deleteELF {x : Image F} (h : proc.images = images ++ x :: images') :
    ∃ elf ∈ (proc.deleteELF images.length).images,elf.deleted = true := by
  refine ⟨{ x with deleted := true },?_,rfl⟩
  rw [deleteELF_images h]
  exact List.mem_append_right _ List.mem_cons_self

/-- Relocation changes nothing, or it fails and the image is deleted. -/
theorem relocate_cases {file : ElfFile} {i : ℕ}
    (h : proc.relocate fs file i applyRelocs = some (r,proc')) :
    (r = some i ∧ proc' = proc ∧
      (applyRelocs = true → proc.applyRelocations fs file i file.relocations = some true)) ∨
    (r = none ∧ proc' = proc.deleteELF i ∧ applyRelocs = true ∧
      proc.applyRelocations fs file i file.relocations = some false) := by
  rw [Process.relocate] at h
  split at h
  · case isTrue hon =>
    cases hr : proc.applyRelocations fs file i file.relocations with
    | none =>
      rw [hr] at h
      cases h
    | some b =>
      rw [hr] at h
      cases b with
      | false =>
        obtain ⟨rfl,rfl⟩ := Prod.mk.inj (Option.some.inj h)
        exact .inr ⟨rfl,rfl,hon,rfl⟩
      | true =>
        obtain ⟨rfl,rfl⟩ := Prod.mk.inj (Option.some.inj h)
        exact .inl ⟨rfl,rfl,fun _ => rfl⟩
  · case isFalse hoff =>
    obtain ⟨rfl,rfl⟩ := Prod.mk.inj (Option.some.inj h)
    exact .inl ⟨rfl,rfl,fun hon => absurd hon hoff⟩

/-- What a load of a user program does, step by step. -/
theorem load_cases (h : load fs true false applyRelocs (fuel + 1) p proc = some (r,proc')) :
    (fs.elfAt p = none ∧ r = none ∧ proc' = proc) ∨
    ∃ f,fs.elfAt p = some f ∧
      ((((proc.register fs f p).loadData (fs.content f) proc.images.length true).1 = false ∧
        r = none ∧ proc' = ((proc.register fs f p).loadData (fs.content f)
          proc.images.length true).2.deleteELF proc.images.length) ∨
      (((proc.register fs f p).loadData (fs.content f) proc.images.length true).1 = true ∧
        ∃ q,loadNeeded (load fs true false applyRelocs fuel) (fs.names f)
            (proc.apply fs (.enter f p)) = some q ∧
          q.relocate fs (fs.content f) proc.images.length applyRelocs = some (r,proc'))) := by
  rw [load] at h
  cases hf : fs.elfAt p with
  | none =>
    rw [hf] at h
    obtain ⟨rfl,rfl⟩ := Prod.mk.inj (Option.some.inj h)
    exact .inl ⟨rfl,rfl,rfl⟩
  | some f =>
    refine .inr ⟨f,rfl,?_⟩
    simp only [hf,Bool.false_eq_true,if_false] at h
    cases hdata : ((proc.register fs f p).loadData (fs.content f) proc.images.length true).1 with
    | false =>
      rw [hdata] at h
      obtain ⟨rfl,rfl⟩ := Prod.mk.inj (Option.some.inj h)
      exact .inl ⟨rfl,rfl,rfl⟩
    | true =>
      rw [hdata] at h
      obtain ⟨q,hq,hr⟩ := Option.bind_eq_some_iff.mp h
      exact .inr ⟨rfl,q,hq,hr⟩

/-- What every load keeps is kept when all that is needed is loaded. -/
theorem loadNeeded_invariant (Inv : Process F → Prop) {names : List String}
    {load : String → Process F → Option (Option ℕ × Process F)}
    (hload : ∀ name ∈ names,∀ proc r proc',getELF name proc.images = some false →
      load name proc = some (r,proc') → Inv proc → Inv proc')
    (hproc : Inv proc) (h : loadNeeded load names proc = some proc') : Inv proc' := by
  induction names generalizing proc with
  | nil => exact Option.some.inj h ▸ hproc
  | cons name rest ih =>
    have hrest := fun name hn => hload name (List.mem_cons_of_mem _ hn)
    obtain ⟨found,hfound,h⟩ := Option.bind_eq_some_iff.mp h
    cases found with
    | true => exact ih hrest hproc h
    | false =>
      obtain ⟨r,hr,h⟩ := Option.bind_eq_some_iff.mp h
      exact ih hrest (hload name List.mem_cons_self proc r.1 r.2 hfound hr hproc) h

/-- A load adds images, first one of the file its path leads to. -/
theorem load_adds (h : load fs true false applyRelocs fuel p proc = some (r,proc')) :
    proc.images <+: proc'.images ∧ ∀ f,fs.elfAt p = some f →
      ∃ x rest,proc'.images = proc.images ++ x :: rest ∧ x.file = f := by
  induction fuel generalizing p proc r proc' with
  | zero => cases h
  | succ fuel ih =>
    obtain ⟨hnone,-,rfl⟩ | ⟨f,hf,⟨-,-,rfl⟩ | ⟨-,q,hq,hr⟩⟩ := load_cases h
    · exact ⟨List.prefix_rfl,fun f hf => absurd (hnone.symm.trans hf) (by simp)⟩
    · obtain ⟨delta,himages⟩ := loadData_images fs proc f p true
      have hdeleted := deleteELF_images himages
      refine ⟨hdeleted ▸ List.prefix_append ..,fun g hg => ⟨_,[],hdeleted,?_⟩⟩
      exact Option.some.inj (hf.symm.trans hg)
    · obtain ⟨x,hx,hfile,-⟩ := enter_images fs proc f p
      have hgrown : proc.images ++ [x] <+: q.images :=
        loadNeeded_invariant (fun q => proc.images ++ [x] <+: q.images)
          (fun name _ u r u' _ hu hpre => hpre.trans (ih hu).1) (hx ▸ List.prefix_rfl) hq
      obtain ⟨rest,hrest⟩ := hgrown
      rw [List.append_assoc,List.singleton_append] at hrest
      have hfile : ∀ g,fs.elfAt p = some g → f = g := fun g hg =>
        Option.some.inj (hf.symm.trans hg)
      obtain ⟨-,rfl,-⟩ | ⟨-,rfl,-⟩ := relocate_cases hr
      · refine ⟨hrest ▸ List.prefix_append ..,fun g hg => ⟨x,rest,hrest.symm,?_⟩⟩
        rw [‹x.file = f›,hfile g hg]
      · have hdeleted := deleteELF_images hrest.symm
        refine ⟨hdeleted ▸ List.prefix_append ..,fun g hg => ⟨_,rest,hdeleted,?_⟩⟩
        rw [← hfile g hg]
        exact ‹x.file = f›

/-- When a file has been entered and what it needs is loaded, its image is
where it was put. -/
theorem needed_images {names : List String} {q : Process F}
    (h : loadNeeded (load fs true false applyRelocs fuel) names
      (proc.apply fs (.enter f p)) = some q) :
    ∃ x rest,q.images = proc.images ++ x :: rest ∧ x.file = f := by
  obtain ⟨x,hx,hfile,-⟩ := enter_images fs proc f p
  have hgrown : proc.images ++ [x] <+: q.images :=
    loadNeeded_invariant (fun q => proc.images ++ [x] <+: q.images)
      (fun name _ u r u' _ hu hpre => hpre.trans (load_adds hu).1) (hx ▸ List.prefix_rfl) h
  obtain ⟨rest,hrest⟩ := hgrown
  rw [List.append_assoc,List.singleton_append] at hrest
  exact ⟨x,rest,hrest.symm,hfile⟩

theorem getELF_cons (name : String) (elf : Image F) (rest : List (Image F)) :
    getELF name (elf :: rest) =
      if elf.deleted then none else if elf.name = name then some true else getELF name rest :=
  (rfl)

theorem named_of_getELF (h : getELF name images = some true) : Named images name := by
  induction images with
  | nil => cases h
  | cons elf rest ih =>
    rw [getELF_cons] at h
    split_ifs at h with hdeleted hname
    · exact ⟨elf,List.mem_cons_self,hname⟩
    · obtain ⟨x,hx,hname⟩ := ih h
      exact ⟨x,List.mem_cons_of_mem _ hx,hname⟩

theorem not_named_of_getELF (h : getELF name images = some false) : ¬Named images name := by
  induction images with
  | nil => exact fun ⟨x,hx,_⟩ => absurd hx List.not_mem_nil
  | cons elf rest ih =>
    rw [getELF_cons] at h
    split_ifs at h with hdeleted hname
    · cases h
    · rintro ⟨x,hx,hx'⟩
      obtain rfl | hx := List.mem_cons.mp hx
      · exact hname hx'
      · exact ih h ⟨x,hx,hx'⟩

/-- While no image has been deleted, looking for a name has an answer. -/
theorem getELF_isSome (h : ∀ elf ∈ images,elf.deleted = false) (name : String) :
    ∃ found,getELF name images = some found := by
  induction images with
  | nil => exact ⟨false,rfl⟩
  | cons elf rest ih =>
    rw [getELF_cons,h elf List.mem_cons_self]
    by_cases hname : elf.name = name
    · exact ⟨true,by simp [hname]⟩
    · obtain ⟨found,hfound⟩ := ih fun x hx => h x (List.mem_cons_of_mem _ hx)
      exact ⟨found,by simp [hname,hfound]⟩

theorem loadNeeded_mono {load load' : String → Process F → Option (Option ℕ × Process F)}
    {names : List String} {q : Process F}
    (hle : ∀ name proc x,load name proc = some x → load' name proc = some x)
    (h : loadNeeded load names proc = some q) : loadNeeded load' names proc = some q := by
  induction names generalizing proc with
  | nil => exact h
  | cons name rest ih =>
    obtain ⟨found,hfound,h⟩ := Option.bind_eq_some_iff.mp h
    refine Option.bind_eq_some_iff.mpr ⟨found,hfound,?_⟩
    cases found with
    | true => exact ih h
    | false =>
      obtain ⟨r,hr,h⟩ := Option.bind_eq_some_iff.mp h
      exact Option.bind_eq_some_iff.mpr ⟨r,hle name proc r hr,ih h⟩

/-- A load that returns does the same with more steps to spare. -/
theorem load_mono {x : Option ℕ × Process F} {more : ℕ} (hle : fuel ≤ more)
    (h : load fs true false applyRelocs fuel p proc = some x) :
    load fs true false applyRelocs more p proc = some x := by
  induction fuel generalizing p proc x more with
  | zero => cases h
  | succ fuel ih =>
    obtain ⟨more,rfl⟩ := Nat.exists_eq_add_of_le' (Nat.one_le_of_lt hle)
    rw [load] at h ⊢
    cases hf : fs.elfAt p with
    | none => rwa [hf] at h
    | some f =>
      simp only [hf,Bool.false_eq_true,if_false,if_true] at h ⊢
      split_ifs at h ⊢ with hdata
      · exact h
      · obtain ⟨q,hq,hr⟩ := Option.bind_eq_some_iff.mp h
        exact Option.bind_eq_some_iff.mpr
          ⟨q,loadNeeded_mono (fun _ _ _ => ih (Nat.le_of_succ_le_succ hle)) hq,hr⟩

/-- Two loads that return have done the same. -/
theorem loadNeeded_unique {names : List String} {fuel' : ℕ} {q q' : Process F}
    (h : loadNeeded (load fs true false applyRelocs fuel) names proc = some q)
    (h' : loadNeeded (load fs true false applyRelocs fuel') names proc = some q') : q = q' := by
  have hq := loadNeeded_mono (fun _ _ _ => load_mono (Nat.le_max_left fuel fuel')) h
  have hq' := loadNeeded_mono (fun _ _ _ => load_mono (Nat.le_max_right fuel fuel')) h'
  exact Option.some.inj (hq.symm.trans hq')

end Steps

section Spoiled

open Process

variable {fs} {proc proc' : Process F} {images images' : List (Image F)} {f g : F}
  {p root name : String} {applyRelocs : Bool} {fuel : ℕ} {r : Option ℕ}

variable (fs root) in
/-- What no load makes good again: a deleted image, two images of a file, or a
file that is needed and passed over because another image has its name. -/
def Spoiled (images : List (Image F)) : Prop :=
  (∃ elf ∈ images,elf.deleted = true) ∨ ¬(images.map Image.file).Nodup ∨
  ∃ soname f,fs.elfAt (libPath soname) = some f ∧ fs.Reachable root f ∧
    Named images (libPath soname) ∧ ¬Loaded images f

theorem Spoiled.append (h : Spoiled fs root images)
    (hnew : ∀ soname f,fs.elfAt (libPath soname) = some f → Named images (libPath soname) →
      ¬Loaded images f → ¬Loaded images' f) : Spoiled fs root (images ++ images') := by
  obtain ⟨x,hx,hdeleted⟩ | hdup | ⟨soname,f,hf,hreach,⟨x,hx,hname⟩,hmissed⟩ := h
  · exact .inl ⟨x,List.mem_append_left _ hx,hdeleted⟩
  · exact .inr (.inl fun hn => hdup (hn.sublist (by simp)))
  · refine .inr (.inr ⟨soname,f,hf,hreach,⟨x,List.mem_append_left _ hx,hname⟩,?_⟩)
    rintro ⟨y,hy,hfile⟩
    obtain hy | hy := List.mem_append.mp hy
    · exact hmissed ⟨y,hy,hfile⟩
    · exact hnew soname f hf ⟨x,hx,hname⟩ hmissed ⟨y,hy,hfile⟩

/-- A load of a name that no image has leaves it spoiled. -/
theorem Spoiled.load (hdistinct : fs.Distinct) {soname : String}
    (hfound : getELF (libPath soname) proc.images = some false)
    (h : load fs true false applyRelocs fuel (libPath soname) proc = some (r,proc'))
    (hs : Spoiled fs root proc.images) : Spoiled fs root proc'.images := by
  induction fuel generalizing soname proc r proc' with
  | zero => cases h
  | succ fuel ih =>
    have hnew : ∀ f,fs.elfAt (libPath soname) = some f → ∀ x : Image F,x.file = f →
        Spoiled fs root (proc.images ++ [x]) := by
      intro f hf x hx
      refine hs.append fun other g hg hnamed hmissed => ?_
      rintro ⟨y,hy,hfile⟩
      obtain rfl := List.mem_singleton.mp hy
      obtain rfl := hdistinct other soname g hg (by rw [hf,← hx,hfile])
      exact not_named_of_getELF hfound hnamed
    obtain ⟨-,-,rfl⟩ | ⟨f,hf,⟨-,-,rfl⟩ | ⟨-,q,hq,hr⟩⟩ := load_cases h
    · exact hs
    · obtain ⟨delta,himages⟩ := loadData_images fs proc f (libPath soname) true
      rw [deleteELF_images himages]
      exact hnew f hf _ rfl
    · obtain ⟨x,hx,hfile,-⟩ := enter_images fs proc f (libPath soname)
      have hq' : Spoiled fs root q.images := by
        refine loadNeeded_invariant (fun q => Spoiled fs root q.images) ?_
          (hx ▸ hnew f hf x hfile) hq
        intro name hname u s u' hfound hu hspoiled
        obtain ⟨n,-,rfl⟩ := List.mem_map.mp hname
        exact ih hfound hu hspoiled
      obtain ⟨-,rfl,-⟩ | ⟨-,rfl,-⟩ := relocate_cases hr
      · exact hq'
      · obtain ⟨y,rest,hy,-⟩ := needed_images hq
        exact .inl (deleted_of_deleteELF hy)

theorem Spoiled.loadNeeded (hdistinct : fs.Distinct) {names : List String}
    (hnames : ∀ p ∈ names,∃ soname,p = libPath soname)
    (h : loadNeeded (ElfLoader.load fs true false applyRelocs fuel) names proc = some proc')
    (hs : Spoiled fs root proc.images) : Spoiled fs root proc'.images := by
  refine loadNeeded_invariant (fun q => Spoiled fs root q.images) ?_ hs h
  intro name hname u r u' hfound hu hspoiled
  obtain ⟨soname,rfl⟩ := hnames name hname
  exact hspoiled.load hdistinct hfound hu

/-- A load of a file that was loaded before makes two images of it. -/
theorem spoiled_of_again (hf : fs.elfAt p = some f) (hloaded : Loaded proc.images f)
    (h : load fs true false applyRelocs fuel p proc = some (r,proc')) :
    Spoiled fs root proc'.images := by
  obtain ⟨x,rest,hx,hfile⟩ := (load_adds h).2 f hf
  obtain ⟨y,hy,hyfile⟩ := hloaded
  refine .inr (.inl fun hn => ?_)
  rw [hx,List.map_append,List.map_cons,hfile] at hn
  exact List.disjoint_of_nodup_append hn (List.mem_map.mpr ⟨y,hy,hyfile⟩) List.mem_cons_self

end Spoiled

section Simulation

open Process

variable {fs} {start proc proc' : Process F} {applyRelocs : Bool} {fuel : ℕ}
  {p q root : String} {ps : List String} {f v : F} {t : List (Event F String)} {r : Option ℕ}
  {e : Event F String}

variable (fs start) in
/-- The process after the events of a walk. -/
def after (t : List (Event F String)) : Process F := t.foldl (apply fs) start

theorem after_append_one : after fs start (t ++ [e]) = apply fs (after fs start t) e :=
  List.foldl_append ..

@[simp] theorem after_ask : after fs start (t ++ [.ask p]) = after fs start t :=
  after_append_one

@[simp] theorem after_leave : after fs start (t ++ [.leave v]) = after fs start t :=
  after_append_one

/-- The process has the files that were entered, and none is deleted. -/
theorem after_images (fs : Files F) (hstart : start.images = []) (t : List (Event F String)) :
    (after fs start t).images.map Image.file = entered t ∧
      ∀ elf ∈ (after fs start t).images,elf.deleted = false := by
  induction t using List.reverseRecOn with
  | nil =>
    rw [after,List.foldl_nil,hstart]
    exact ⟨rfl,fun _ h => absurd h List.not_mem_nil⟩
  | append_singleton t e ih =>
    rw [entered_append]
    cases e with
    | ask p => simpa using ih
    | leave f => simpa using ih
    | enter f p =>
      obtain ⟨x,hx,hfile,hdeleted⟩ := enter_images fs (after fs start t) f p
      rw [after_append_one,hx,List.map_append,ih.1,List.map_singleton,hfile]
      refine ⟨rfl,fun elf helf => ?_⟩
      obtain helf | helf := List.mem_append.mp helf
      · exact ih.2 elf helf
      · rw [List.mem_singleton.mp helf,hdeleted]

theorem loaded_iff (hstart : start.images = []) :
    Loaded (after fs start t).images v ↔ v ∈ entered t := by
  rw [← (after_images fs hstart t).1]
  exact List.mem_map.symm

theorem load_enter (hf : fs.elfAt p = some f)
    (hdata : ((proc.register fs f p).loadData (fs.content f) proc.images.length true).1 = true) :
    load fs true false applyRelocs (fuel + 1) p proc =
      (loadNeeded (load fs true false applyRelocs fuel) (fs.names f)
        (proc.apply fs (.enter f p))).bind fun q =>
          q.relocate fs (fs.content f) proc.images.length applyRelocs := by
  rw [load]
  simp only [hf,hdata,Bool.false_eq_true,if_false,if_true,Bool.not_true]
  rfl

variable [DecidableEq F]

variable (fs start applyRelocs) in
/-- All events of a walk go well. -/
def GoesWell (t : List (Event F String)) : Prop :=
  RunMeets (apply fs) (Smooth fs applyRelocs) start t

theorem goesWell_append_one : GoesWell fs start applyRelocs (t ++ [e]) ↔
    GoesWell fs start applyRelocs t ∧ Smooth fs applyRelocs (after fs start t) e :=
  runMeets_append.trans (and_congr_right' ⟨fun h => h.1,fun h => ⟨h,trivial⟩⟩)

theorem GoesWell.earlier {s : List (Event F String)} (h : GoesWell fs start applyRelocs t)
    (hs : s <+: t) : GoesWell fs start applyRelocs s := by
  obtain ⟨u,rfl⟩ := hs
  exact (runMeets_append.mp h).1

/-- The image of a file that was not loaded before is the one where it was put. -/
theorem findIdx_file {images rest : List (Image F)} {x : Image F} (hnew : ¬Loaded images v)
    (hx : x.file = v) : (images ++ x :: rest).findIdx (·.file = v) = images.length := by
  have hnone : images.findIdx (·.file = v) = images.length := by
    rw [List.findIdx_eq_length]
    intro y hy
    simpa using fun hfile => hnew ⟨y,hy,hfile⟩
  rw [List.findIdx_append,hnone]
  simp [List.findIdx_cons,hx]

variable (fs start applyRelocs root) in
/-- What a load does, compared with the walk of as many steps: it does the same
when all goes well, else what it leaves is spoiled. -/
def Follows (fuel : ℕ) (p : String) (t : List (Event F String)) : Prop :=
  (GoesWell fs start applyRelocs (visit fs.elfAt fs.names fuel p t) →
    ∃ r,load fs true false applyRelocs (fuel + 1) p (after fs start t) =
      some (r,after fs start (visit fs.elfAt fs.names fuel p t)) ∧
        (r.isSome ↔ (fs.elfAt p).isSome)) ∧
  (¬GoesWell fs start applyRelocs (visit fs.elfAt fs.names fuel p t) →
    ∀ fuel' r proc',load fs true false applyRelocs fuel' p (after fs start t) = some (r,proc') →
      Spoiled fs root proc'.images)

variable (fs start applyRelocs root) in
/-- The same for the loading of everything needed. -/
def FollowsAll (fuel : ℕ) (ps : List String) (t : List (Event F String)) : Prop :=
  (GoesWell fs start applyRelocs (follow fs.elfAt fs.names fuel ps t) →
    loadNeeded (load fs true false applyRelocs (fuel + 1)) ps (after fs start t) =
      some (after fs start (follow fs.elfAt fs.names fuel ps t))) ∧
  (¬GoesWell fs start applyRelocs (follow fs.elfAt fs.names fuel ps t) →
    ∀ fuel' proc',loadNeeded (load fs true false applyRelocs fuel') ps (after fs start t) =
      some proc' → Spoiled fs root proc'.images)

/-- A new file: its data, then all it needs, then its relocations. -/
theorem follows_enter (hstart : start.images = []) (hf : fs.elfAt p = some f)
    (hnew : f ∉ entered t) (hwell : GoesWell fs start applyRelocs t)
    (hall : GoesWell fs start applyRelocs (t ++ [.enter f p]) →
      FollowsAll fs start applyRelocs root fuel (fs.names f) (t ++ [.enter f p])) :
    Follows fs start applyRelocs root (fuel + 1) p t := by
  rw [Follows,visit_new hf hnew,after_leave,goesWell_append_one]
  set u := follow fs.elfAt fs.names fuel (fs.names f) (t ++ [.enter f p]) with hu
  by_cases hdata : Smooth fs applyRelocs (after fs start t) (.enter f p)
  · have hentered := goesWell_append_one.mpr ⟨hwell,hdata⟩
    have hneeded := hall hentered
    rw [FollowsAll,← hu,after_append_one] at hneeded
    have hplace : ∀ fuel',loadNeeded (load fs true false applyRelocs fuel') (fs.names f)
        (apply fs (after fs start t) (.enter f p)) = some (after fs start u) →
        (after fs start u).images.findIdx (·.file = f) = (after fs start t).images.length := by
      intro fuel' h
      obtain ⟨x,rest,hx,hfile⟩ := needed_images h
      rw [hx]
      exact findIdx_file (fun h => hnew ((loaded_iff hstart).mp h)) hfile
    constructor
    · rintro ⟨hgood,hleave⟩
      have hload := hneeded.1 hgood
      refine ⟨some (after fs start t).images.length,?_,by simp [hf]⟩
      rw [load_enter hf hdata,hload,Option.bind_some,relocate]
      rw [Smooth,hplace _ hload] at hleave
      cases applyRelocs with
      | false => rfl
      | true =>
        simp only [hleave rfl,if_true]
        rfl
    · intro hbad fuel' r proc' h
      cases fuel' with
      | zero => cases h
      | succ fuel' =>
        rw [load_enter hf hdata] at h
        obtain ⟨q,hq,hr⟩ := Option.bind_eq_some_iff.mp h
        obtain ⟨x,rest,hx,hfile⟩ := needed_images hq
        obtain ⟨-,rfl,hrelocs⟩ | ⟨-,rfl,-,-⟩ := relocate_cases hr
        · by_cases hgood : GoesWell fs start applyRelocs u
          · obtain rfl := loadNeeded_unique hq (hneeded.1 hgood)
            refine absurd ⟨hgood,?_⟩ hbad
            rw [Smooth,hplace _ hq]
            exact hrelocs
          · exact hneeded.2 hgood fuel' _ hq
        · exact .inl (deleted_of_deleteELF hx)
  · have hnot : ¬GoesWell fs start applyRelocs u := fun h =>
      hdata (goesWell_append_one.mp (h.earlier prefix_follow)).2
    refine ⟨fun h => absurd h.1 hnot,fun _ fuel' r proc' h => ?_⟩
    cases fuel' with
    | zero => cases h
    | succ fuel' =>
      obtain ⟨hnone,-,-⟩ | ⟨g,hg,⟨-,-,rfl⟩ | ⟨hgood,-⟩⟩ := load_cases h
      · exact absurd (hnone.symm.trans hf) (by simp)
      · obtain ⟨delta,himages⟩ := loadData_images fs (after fs start t) g p true
        exact .inl (deleted_of_deleteELF himages)
      · obtain rfl := Option.some.inj (hf.symm.trans hg)
        exact absurd hgood hdata

/-- A DT_NEEDED entry, and those after it. -/
theorem followsAll_cons (hdistinct : fs.Distinct) (hstart : start.images = [])
    (hwell : GoesWell fs start applyRelocs t) (hlib : ∀ p ∈ q :: ps,∃ soname,p = libPath soname)
    (hreach : ∀ f,fs.elfAt q = some f → fs.Reachable root f)
    (hvisit : (∀ f,fs.elfAt q = some f → f ∉ entered t) →
      GoesWell fs start applyRelocs (t ++ [.ask q]) →
      Follows fs start applyRelocs root fuel q (t ++ [.ask q]))
    (hrest : GoesWell fs start applyRelocs (visit fs.elfAt fs.names fuel q (t ++ [.ask q])) →
      FollowsAll fs start applyRelocs root fuel ps
        (visit fs.elfAt fs.names fuel q (t ++ [.ask q]))) :
    FollowsAll fs start applyRelocs root fuel (q :: ps) t := by
  have hlib' : ∀ p ∈ ps,∃ soname,p = libPath soname := fun p hp =>
    hlib p (List.mem_cons_of_mem q hp)
  obtain ⟨soname,rfl⟩ := hlib q List.mem_cons_self
  rw [FollowsAll,follow_cons]
  set u := visit fs.elfAt fs.names fuel (libPath soname) (t ++ [.ask (libPath soname)]) with hu
  have hpre : t ++ [.ask (libPath soname)] <+: u := prefix_visit
  obtain ⟨found,hfound⟩ := getELF_isSome (after_images fs hstart t).2 (libPath soname)
  have hstep : ∀ fuel',loadNeeded (load fs true false applyRelocs fuel') (libPath soname :: ps)
      (after fs start t) =
        if found then loadNeeded (load fs true false applyRelocs fuel') ps (after fs start t)
        else (load fs true false applyRelocs fuel' (libPath soname) (after fs start t)).bind
          fun r => loadNeeded (load fs true false applyRelocs fuel') ps r.2 := by
    intro fuel'
    rw [loadNeeded,hfound]
    rfl
  simp only [hstep]
  by_cases hask : Smooth fs applyRelocs (after fs start t) (.ask (libPath soname))
  · have hasked := goesWell_append_one.mpr ⟨hwell,hask⟩
    cases found with
    | true =>
      have hsame : u = t ++ [.ask (libPath soname)] := by
        cases hf : fs.elfAt (libPath soname) with
        | none => exact visit_nowhere hf
        | some f =>
          refine visit_again hf ?_
          rw [entered_append,entered_ask,List.append_nil]
          exact (loaded_iff hstart).mp ((hask f hf).mp (named_of_getELF hfound))
      have hall := hrest (hsame ▸ hasked)
      rw [hsame,FollowsAll,after_ask] at hall
      rw [hsame]
      exact hall
    | false =>
      have hnew : ∀ f,fs.elfAt (libPath soname) = some f → f ∉ entered t := fun f hf hin =>
        not_named_of_getELF hfound ((hask f hf).mpr ((loaded_iff hstart).mpr hin))
      have hload := hvisit hnew hasked
      rw [Follows,after_ask,← hu] at hload
      by_cases hgood : GoesWell fs start applyRelocs u
      · obtain ⟨r,hr,-⟩ := hload.1 hgood
        refine ⟨fun h => ?_,fun hbad fuel' proc' h => ?_⟩
        · rw [if_neg Bool.false_ne_true,hr]
          exact (hrest hgood).1 h
        · rw [if_neg Bool.false_ne_true] at h
          obtain ⟨r',hr',h⟩ := Option.bind_eq_some_iff.mp h
          have hmax := load_mono (Nat.le_max_left fuel' (fuel + 1)) hr'
          have hsame := hmax.symm.trans (load_mono (Nat.le_max_right fuel' (fuel + 1)) hr)
          rw [Option.some.inj hsame] at h
          exact (hrest hgood).2 hbad fuel' proc' h
      · refine ⟨fun h => absurd (h.earlier prefix_follow) hgood,fun _ fuel' proc' h => ?_⟩
        rw [if_neg Bool.false_ne_true] at h
        obtain ⟨r',hr',h⟩ := Option.bind_eq_some_iff.mp h
        exact (hload.2 hgood fuel' r'.1 r'.2 hr').loadNeeded hdistinct hlib' h
  · refine ⟨fun h => ?_,fun _ fuel' proc' h => ?_⟩
    · exact absurd (goesWell_append_one.mp (h.earlier (hpre.trans prefix_follow))).2 hask
    · rw [Smooth] at hask
      push Not at hask
      obtain ⟨f,hf,hwrong⟩ := hask
      cases found with
      | true =>
        have hnamed := named_of_getELF hfound
        have hmissed : ¬Loaded (after fs start t).images f := by
          rcases hwrong with ⟨-,hmissed⟩ | ⟨hnot,-⟩
          · exact hmissed
          · exact absurd hnamed hnot
        rw [if_pos rfl] at h
        exact Spoiled.loadNeeded hdistinct hlib' h
          (.inr (.inr ⟨soname,f,hf,hreach f hf,hnamed,hmissed⟩))
      | false =>
        have hloaded : Loaded (after fs start t).images f := by
          rcases hwrong with ⟨hnamed,-⟩ | ⟨-,hloaded⟩
          · exact absurd hnamed (not_named_of_getELF hfound)
          · exact hloaded
        rw [if_neg Bool.false_ne_true] at h
        obtain ⟨r',hr',h⟩ := Option.bind_eq_some_iff.mp h
        exact (spoiled_of_again hf hloaded hr').loadNeeded hdistinct hlib' h

variable [Fintype F]

/-- With a step for every file not entered yet, a load follows the walk. -/
theorem follows_walk (hdistinct : fs.Distinct) (hstart : start.images = [])
    (hfuel : unentered t ≤ fuel) (hwell : GoesWell fs start applyRelocs t)
    (hreach : ∀ f,fs.elfAt p = some f → fs.Reachable root f)
    (hnew : ∀ f,fs.elfAt p = some f → f ∉ entered t) :
    Follows fs start applyRelocs root fuel p t := by
  induction fuel generalizing p t with
  | zero =>
    have hnone : fs.elfAt p = none := by
      cases hf : fs.elfAt p with
      | none => rfl
      | some f => exact absurd (unentered_pos (hnew f hf)) (by omega)
    rw [Follows,visit_nowhere hnone]
    exact ⟨fun _ => ⟨none,by rw [load,hnone],by simp [hnone]⟩,fun hbad => absurd hwell hbad⟩
  | succ fuel ih =>
    cases hf : fs.elfAt p with
    | none =>
      rw [Follows,visit_nowhere hf]
      exact ⟨fun _ => ⟨none,by rw [load,hf],by simp [hf]⟩,fun hbad => absurd hwell hbad⟩
    | some f =>
      obtain ⟨r,hr,hpath⟩ := hreach f hf
      have hall : ∀ ps,(∀ q ∈ ps,q ∈ fs.names f) → ∀ t,unentered t ≤ fuel →
          GoesWell fs start applyRelocs t → FollowsAll fs start applyRelocs root fuel ps t := by
        intro ps
        induction ps with
        | nil => exact fun _ t _ hwell => ⟨fun _ => rfl,fun hbad => absurd hwell hbad⟩
        | cons q ps ihps =>
          intro hps t ht hwell
          have hlib : ∀ q ∈ fs.names f,∃ soname,q = libPath soname := by
            intro q hq
            obtain ⟨soname,-,rfl⟩ := List.mem_map.mp hq
            exact ⟨soname,rfl⟩
          have hto : ∀ g,fs.elfAt q = some g → fs.Reachable root g := fun g hg =>
            ⟨r,hr,hpath.tail ⟨q,hps q List.mem_cons_self,hg⟩⟩
          have hask : unentered (t ++ [.ask q]) ≤ fuel :=
            (unentered_le (List.prefix_append t _)).trans ht
          refine followsAll_cons hdistinct hstart hwell (fun p hp => hlib p (hps p hp)) hto
            (fun hq hwell => ih hask hwell hto fun g hg => ?_) fun hwell => ?_
          · rw [entered_append,entered_ask,List.append_nil]
            exact hq g hg
          · exact ihps (fun p hp => hps p (List.mem_cons_of_mem q hp)) _
              ((unentered_le prefix_visit).trans hask) hwell
      refine follows_enter hstart hf (hnew f hf) hwell fun hwell => ?_
      refine hall _ (fun _ h => h) _ ?_ hwell
      have := unentered_enter (p := p) (hnew f hf)
      omega

theorem follows_from_start (hdistinct : fs.Distinct) (hstart : start.images = []) :
    Follows fs start applyRelocs p (Fintype.card F) p [] :=
  follows_walk hdistinct hstart (Finset.card_le_univ _) trivial (fun f hf => ⟨f,hf,.refl⟩)
    fun _ _ => List.not_mem_nil

/-- Where every file is loaded once, all went well. -/
theorem LoadsOnce.goesWell (hdistinct : fs.Distinct) (hstart : start.images = [])
    (h : LoadsOnce fs applyRelocs p start) :
    RunMeets (apply fs) (Smooth fs applyRelocs) start (walk fs.elfAt fs.names p) := by
  obtain ⟨fuel,elf,proc',hload,hnodup,hexact,hdeleted⟩ := h
  by_contra hbad
  obtain ⟨x,hx,hgone⟩ | hdup | ⟨soname,f,hf,hreach,-,hmissed⟩ :=
    (follows_from_start hdistinct hstart).2 hbad fuel _ _ hload
  · exact absurd (hdeleted x hx) (by simp [hgone])
  · exact hdup hnodup
  · exact hmissed ((hexact f).mpr hreach)

/-- ELF::Load of a program loads each file that can be reached exactly once just
when, on the depth-first walk along DT_NEEDED, every entry names an image
exactly if the file it leads to was entered before, and the data and the
relocations of every file can be loaded. -/
theorem load_once_iff {filename : String} (hdistinct : fs.Distinct)
    (hprogram : (fs.elfAt filename).isSome) (hstart : start.images = []) :
    LoadsOnce fs applyRelocs filename start ↔
      RunMeets (apply fs) (Smooth fs applyRelocs) start (walk fs.elfAt fs.names filename) := by
  refine ⟨fun h => h.goesWell hdistinct hstart,fun hgood => ?_⟩
  obtain ⟨r,hr,hsome⟩ := (follows_from_start hdistinct hstart).1 hgood
  obtain ⟨elf,rfl⟩ := Option.isSome_iff_exists.mp (hsome.mpr hprogram)
  have himages := after_images fs hstart (walk fs.elfAt fs.names filename)
  refine ⟨_,elf,_,hr,?_,fun f => (loaded_iff hstart).trans mem_entered_walk,himages.2⟩
  rw [← walk,himages.1]
  exact nodup_entered_walk

end Simulation

section Examples

open Process

theorem libPath_injective : Function.Injective libPath := fun n n' h => by
  simpa [libPath] using h

/-- A file with one segment, a dynamic section and its strings. -/
def sharedObject (pVaddr : ℕ) (dyntab : List Elf32Dyn) : ElfFile where
  size := 4096
  eIdent := [127,69,76,70]
  ePhoff := 52
  eShoff := 84
  ePhentsize := 32
  ePhnum := 1
  eShentsize := 40
  eShnum := 3
  phdr := fun _ => ⟨1,0,pVaddr,4096,4096⟩
  shdr := fun i =>
    { shType := if i = 1 then 6 else if i = 2 then 3 else 0
      shAddr := pVaddr + 1024 * i,shLink := 2,dyntab := dyntab,symtab := [],reltab := []
      strtab := fun offset => if offset = 1 then "a" else "b" }

/-- Three files. -/
local instance three_files : NeZero 3 := ⟨by decide⟩

/-- A program that needs a and b, where b needs a as well; a may have a DT_SONAME. -/
def diamond (soname : Bool) : Files (Fin 3) where
  lookup := fun p =>
    if p = "program" then some 0 else if p = libPath "a" then some 1
    else if p = libPath "b" then some 2 else none
  content := fun f =>
    if f = 0 then sharedObject 0x08048000 [⟨1,1⟩,⟨1,2⟩]
    else if f = 1 then sharedObject 0x10000000 (if soname then [⟨14,1⟩] else [])
    else sharedObject 0x20000000 [⟨1,1⟩]

/-- A process without images in a memory of 16 MiB. -/
def newProcess (F : Type) : Process F where
  addressSpace := 4096
  frames := ⟨fun _ _ => 0,(FrameBitmap.Bitmap.new 4096 false).setBit 1 true⟩
  images := []

theorem diamond_lookup {soname : Bool} {n : String} {f : Fin 3}
    (h : (diamond soname).elfAt (libPath n) = some f) :
    (f = 0 ∧ libPath n = "program") ∨ (f = 1 ∧ n = "a") ∨ (f = 2 ∧ n = "b") := by
  have hlookup : (diamond soname).lookup (libPath n) = some f := Option.eq_some_of_filter_eq_some h
  rw [diamond] at hlookup
  dsimp only at hlookup
  split_ifs at hlookup with h0 h1 h2
  · exact .inl ⟨(Option.some.inj hlookup).symm,h0⟩
  · exact .inr (.inl ⟨(Option.some.inj hlookup).symm,libPath_injective h1⟩)
  · exact .inr (.inr ⟨(Option.some.inj hlookup).symm,libPath_injective h2⟩)

theorem diamond_distinct (soname : Bool) : (diamond soname).Distinct := by
  intro n n' f h h'
  obtain ⟨rfl,hp⟩ | ⟨rfl,hn⟩ | ⟨rfl,hn⟩ := diamond_lookup h
  · obtain ⟨-,hp'⟩ | ⟨hf,-⟩ | ⟨hf,-⟩ := diamond_lookup h'
    · exact libPath_injective (hp.trans hp'.symm)
    · cases hf
    · cases hf
  · obtain ⟨hf,-⟩ | ⟨-,hn'⟩ | ⟨hf,-⟩ := diamond_lookup h'
    · cases hf
    · exact hn.trans hn'.symm
    · cases hf
  · obtain ⟨hf,-⟩ | ⟨hf,-⟩ | ⟨-,hn'⟩ := diamond_lookup h'
    · cases hf
    · cases hf
    · exact hn.trans hn'.symm

/-- Without the DT_SONAME, each of the three is loaded once. -/
theorem diamond_loads_once : LoadsOnce (diamond false) true "program" (newProcess (Fin 3)) :=
  (load_once_iff (diamond_distinct false) (by decide) rfl).mpr (by decide)

/-- With it, b does not find a, which goes by the name "a", and loads it again. -/
theorem diamond_loads_twice : (diamond true).Distinct ∧ (diamond true).elfAt "program" = some 0 ∧
    (newProcess (Fin 3)).images = [] ∧
    ¬LoadsOnce (diamond true) true "program" (newProcess (Fin 3)) := by
  refine ⟨diamond_distinct true,by decide,rfl,fun h => ?_⟩
  exact absurd (h.goesWell (diamond_distinct true) rfl) (by decide)

end Examples

end WootOs.ElfLoader
