import WootOs.SharedObjects

/-!
# What a failed load leaves

ELF::Load enters the image into the list of its process before anything is mapped. When
something fails after that the image is deleted, but the process keeps its pointer to
it. So a load that fails leaves the process as it was, apart from what other images
have that were loaded, exactly when the file or its headers cannot be read.
-/

namespace WootOs.ElfLoader

open FrameAllocator Paging Process

variable {F : Type} {fs : Files F} {proc proc' : Process F} {f : F} {filename : String}
  {user onlyHeaders applyRelocs : Bool} {fuel : ℕ}

/-- A frame is used for an address: it is the page there or the page table for it. -/
def UsedFor (g : Frames) (as va frame : ℕ) : Prop :=
  g.getPhysicalAddress as va / pageSize = frame ∨
    g.word (as / pageSize) (va / largePageSize) / pageSize = frame

/-- Between two states of a process only some images were added that were loaded. -/
structure Adds (proc proc' : Process F) (loaded : List (Image F)) : Prop where
  /-- The images were added to those that there were. -/
  images : proc'.images = proc.images ++ loaded
  /-- None of them was deleted. -/
  alive : ∀ elf ∈ loaded,elf.deleted = false
  /-- Beside their addresses nothing else is mapped than before. -/
  mappings : ∀ va : ℕ,(∀ elf ∈ loaded,¬(elf.base ≤ va ∧ va<elf.top)) →
    proc'.frames.getPhysicalAddress proc'.addressSpace va =
      proc.frames.getPhysicalAddress proc.addressSpace va
  /-- The frames that are not used for these are taken or free as before. -/
  bitmap : ∀ frame : ℕ,(∀ elf ∈ loaded,∀ va : ℕ,elf.base ≤ va → va<elf.top →
    ¬UsedFor proc'.frames proc'.addressSpace va frame) →
    proc'.frames.bitmap.getBit frame = proc.frames.bitmap.getBit frame

/-- Of a load nothing is left but images that it needed and that were loaded. -/
def NoTrace (proc proc' : Process F) : Prop := ∃ loaded,Adds proc proc' loaded

/-- A load that fails after the headers were read leaves its image, deleted, behind those that
there were. -/
theorem failed_image (h : load fs user onlyHeaders applyRelocs fuel filename proc =
    some (none,proc')) (hf : fs.elfAt filename = some f) :
    ∃ x rest,proc'.images = proc.images ++ x :: rest ∧ x.deleted = true := by
  cases fuel with
  | zero => simp [load] at h
  | succ fuel =>
    obtain ⟨delta,loaded⟩ := loadData_images fs proc f filename user
    have relocated {q : Process F} {x : Image F} {rest : List (Image F)}
        (hq : q.images = proc.images ++ x :: rest)
        (hr : q.relocate fs (fs.content f) proc.images.length applyRelocs = some (none,proc')) :
        ∃ x rest,proc'.images = proc.images ++ x :: rest ∧ x.deleted = true := by
      obtain ⟨none,-⟩ | ⟨-,rfl,-⟩ := relocate_cases hr
      · simp at none
      · exact ⟨_,rest,deleteELF_images hq,rfl⟩
    rw [load] at h
    simp only [hf] at h
    split_ifs at h with headers failed users
    · exact relocated (q := proc.register fs f filename) rfl h
    · obtain ⟨-,rfl⟩ := Prod.mk.inj (Option.some.inj h)
      exact ⟨_,[],deleteELF_images loaded,rfl⟩
    · obtain ⟨q,hq,hr⟩ := Option.bind_eq_some_iff.mp h
      subst users
      obtain ⟨x,rest,images,-⟩ := needed_images (f := f) (p := filename) hq
      exact relocated images hr
    · exact relocated loaded h

/-- That is a trace. -/
theorem trace_of_failed (h : load fs user onlyHeaders applyRelocs fuel filename proc =
    some (none,proc')) (hf : fs.elfAt filename = some f) : ¬NoTrace proc proc' := by
  rintro ⟨loaded,adds⟩
  obtain ⟨x,rest,images,deleted⟩ := failed_image h hf
  have same : loaded = x :: rest := List.append_cancel_left (adds.images.symm.trans images)
  have := adds.alive x (same ▸ List.mem_cons_self)
  simp [deleted] at this

/-- A load that fails leaves nothing exactly when the file is not found or its headers cannot
be read. -/
theorem noTrace_iff (h : load fs user onlyHeaders applyRelocs fuel filename proc =
    some (none,proc')) : NoTrace proc proc' ↔ fs.elfAt filename = none := by
  constructor
  · intro clean
    cases hf : fs.elfAt filename with
    | none => rfl
    | some f => exact absurd clean (trace_of_failed h hf)
  · intro none
    cases fuel with
    | zero => simp [load] at h
    | succ fuel =>
      rw [load] at h
      simp only [none] at h
      obtain ⟨-,rfl⟩ := Prod.mk.inj (Option.some.inj h)
      exact ⟨[],by simp,by simp,fun _ _ => rfl,fun _ _ => rfl⟩

/-- One file that ends before its segment does. -/
def shortFile : Files (Fin 1) where
  lookup := fun _ => some 0
  content := fun _ => { sharedObject 0x08048000 [] with size := 1000 }

/-- It cannot be loaded. -/
theorem shortFile_fails : ∃ proc',load shortFile true false true 1 "program" (newProcess (Fin 1)) =
    some (none,proc') := by
  have fails : (load shortFile true false true 1 "program" (newProcess (Fin 1))).map Prod.fst =
      some none := by decide
  obtain ⟨⟨r,proc'⟩,run,rfl⟩ := Option.map_eq_some_iff.mp fails
  exact ⟨proc',run⟩

/-- After that a trace of it is there, as its headers can be read. -/
theorem noTrace_iff_shortFile : ∃ proc',load shortFile true false true 1 "program"
    (newProcess (Fin 1)) = some (none,proc') ∧
    (NoTrace (newProcess (Fin 1)) proc' ↔ shortFile.elfAt "program" = none) := by
  obtain ⟨proc',run⟩ := shortFile_fails
  exact ⟨proc',run,noTrace_iff run⟩

/-- So not every load that fails leaves nothing. -/
theorem shortFile_leaves_trace : ¬∀ (fs : Files (Fin 1)) (user onlyHeaders applyRelocs : Bool)
    (fuel : ℕ) (filename : String) (proc proc' : Process (Fin 1)),
    load fs user onlyHeaders applyRelocs fuel filename proc = some (none,proc') →
    NoTrace proc proc' := by
  intro h
  obtain ⟨proc',run⟩ := shortFile_fails
  have found : shortFile.elfAt "program" = some 0 := by decide
  exact trace_of_failed run found (h shortFile true false true 1 "program" _ proc' run)

end WootOs.ElfLoader
