import WootOs.CloneWindows
import WootOs.Leases

/-!
# Window balance

The functions that build, change and read page tables reach frames through
windows, entries of kernel4kPT. Each function stands here once more, as a program that
takes windows and gives them back; its runs are those of the function. The windows
are a pool of 1024 slots in which only the first 512 can be given back.

A window is never taken that a live pointer names. A call leaves kernel4kPT as it was
exactly when, of the first 512 windows, as many are free as it opens at once: one,
two or three, as the page tables of the call are there and a frame is left.
-/

namespace WootOs.WindowBalance

open FrameAllocator Paging CloneRange Leases Leases.Prog

/-- The windows. -/
def windows : Pool Kernel ℕ ℕ where
  alloc := Kernel.alloc4k
  free := Kernel.free4k
  entry := Kernel.kernel4kPT
  used := Present
  decUsed := inferInstance
  empty := 0
  low := Finset.range 512
  not_used_empty := by decide
  alloc_free h := (alloc4k_eq h).2.1
  alloc_used {q a s r} h := by
    obtain ⟨-,-,rfl⟩ := alloc4k_eq h
    simpa [Kernel.map4k] using present_lor_three a
  alloc_other {q a s r t} h ht := by
    obtain ⟨-,-,rfl⟩ := alloc4k_eq h
    exact Function.update_of_ne ht _ _
  alloc_low {q s} a hs hfree := by
    have hw : FreeWindow 512 q := ⟨s,Finset.mem_range.mp hs,hfree⟩
    obtain ⟨t,ht,hq⟩ := hw.alloc4k (by decide) a
    exact ⟨t,Finset.mem_range.mpr ht,_,hq⟩
  free_low {q s} hs := by
    rw [Kernel.free4k,if_pos (Finset.mem_range.mp hs)]
    exact Function.update_self s 0 q.kernel4kPT
  free_high {q s} hs := by
    rw [Kernel.free4k,if_neg fun h => hs (Finset.mem_range.mpr h)]
  free_other ht := kernel4kPT_free4k_of_ne ht

section Programs

/-- The first part of Paging::MapPage. -/
def tableWindow (pdir pdidx : ℕ) : Prog Kernel ℕ (Option ℕ) := do
  let pde ← gets fun p => p.get pdir pdidx
  if Vacant pde then
    let r ← gets fun p => allocFrame p.bitmap
    if r.1 = noFrame then
      free pdir
      return none
    else
      modify fun p => { p with bitmap := r.2 }
      let pt ← alloc r.1
      modify fun p => (p.zero pt).set pdir pdidx (r.1 ||| 7)
      free pdir
      return some pt
  else
    free pdir
    let pt ← alloc (pde / pageSize * pageSize)
    return some pt

/-- Paging::MapPage. -/
def mapPage (pd va pa : ℕ) (user write : Bool) : Prog Kernel ℕ Bool := do
  let va := va / pageSize * pageSize
  let pd ← gets fun p => p.spaceOf pd
  let pdir ← alloc pd
  let pt ← tableWindow pdir (va / largePageSize)
  match pt with
  | none => return false
  | some pt =>
    modify fun p => p.set pt (va / pageSize % 1024) (leaf pa user write)
    free pt
    return true

/-- Paging::UnMapPage. -/
def unMapPage (pd va : ℕ) : Prog Kernel ℕ Bool := do
  let va := va / pageSize * pageSize
  let pd ← gets fun p => p.spaceOf pd
  let pdir ← alloc pd
  let pdidx := va / largePageSize
  let pde ← gets fun p => p.get pdir pdidx
  if ¬Present pde then
    free pdir
    return false
  else
    let ptpa := pde / pageSize * pageSize
    let pt ← alloc ptpa
    let ptidx := va / pageSize % 1024
    let pte ← gets fun p => p.get pt ptidx
    if ¬Present pte then
      free pt
      free pdir
      return false
    else
      modify fun p => p.set pt ptidx 0
      let freept ← gets fun p => tableEmpty (p.get pt)
      free pt
      if freept ∧ va < kernelBase then
        modify fun p => (p.freeFrame ptpa).set pdir pdidx 0
        free pdir
        return true
      else
        free pdir
        return true

/-- Paging::GetPhysicalAddress. -/
def getPhysicalAddress (pd va : ℕ) : Prog Kernel ℕ ℕ := do
  let pd ← gets fun p => p.spaceOf pd
  let pdir ← alloc pd
  let pde ← gets fun p => p.get pdir (va / largePageSize)
  if ¬Present pde then
    free pdir
    return noFrame
  else
    free pdir
    let pt ← alloc (pde / pageSize * pageSize)
    let pte ← gets fun p => p.get pt (va / pageSize % 1024)
    if ¬Present pte then
      free pt
      return noFrame
    else
      free pt
      return (pte / pageSize * pageSize + va % pageSize) % 2 ^ 32

/-- One turn of the inner loop of Paging::UnmapRange. -/
def unmapEntry (dir startVA rangeSize pdidx ptidx : ℕ) : Prog Kernel ℕ Bool :=
  let va := pdidx * largePageSize + ptidx * pageSize
  if va < startVA ∨ (startVA + rangeSize) % 2 ^ 32 ≤ va then return true
  else do
    let pde ← gets fun p => p.get dir pdidx
    let ptpa := pde / pageSize * pageSize
    let pt ← alloc ptpa
    let pte ← gets fun p => p.get pt ptidx
    modify fun p => (p.freeFrame (pte / pageSize * pageSize)).set pt ptidx 0
    let freept ← gets fun p => tableEmpty (p.get pt)
    free pt
    if freept ∧ va < kernelBase then
      modify fun p => (p.freeFrame ptpa).set dir pdidx 0
      return true
    else return true

/-- One turn of the outer loop of Paging::UnmapRange. -/
def unmapTable (dir startVA rangeSize pdidx : ℕ) : Prog Kernel ℕ Bool := do
  let pde ← gets fun p => p.get dir pdidx
  if ¬Present pde then return true
  else loop (unmapEntry dir startVA rangeSize pdidx) (List.range 1024)

/-- Paging::UnmapRange. -/
def unmapRange (pd startVA rangeSize : ℕ) : Prog Kernel ℕ Unit := do
  let startPD := startVA / largePageSize
  let endPD := (startVA + rangeSize + largePageSize - 1) % 2 ^ 32 / largePageSize
  let pd ← gets fun p => p.spaceOf pd
  let dir ← alloc pd
  let _ ← loop (unmapTable dir startVA rangeSize) (List.range' startPD (endPD - startPD))
  free dir

/-- One turn of the inner loop of Paging::CloneRange. -/
def cloneEntry (dir dst startVA rangeSize pdidx ptidx : ℕ) : Prog Kernel ℕ Bool :=
  let va := pdidx * largePageSize + ptidx * pageSize
  if va < startVA ∨ (startVA + rangeSize) % 2 ^ 32 ≤ va then return true
  else do
    let pde ← gets fun p => p.get dir pdidx
    if ¬Present pde then return true
    else
      let pt ← alloc (pde / pageSize * pageSize)
      let pte ← gets fun p => p.get pt ptidx
      let dpa ← gets fun p => allocFrame p.bitmap
      if dpa.1 = noFrame then
        free pt
        return false
      else
        modify fun p => { p with bitmap := dpa.2 }
        free pt
        let src ← alloc (pte / pageSize * pageSize)
        let win ← alloc dpa.1
        modify fun p => p.move win src
        free win
        free src
        let _ ← mapPage dst va dpa.1 (pte.testBit 2) (pte.testBit 1)
        return true

/-- One turn of the outer loop of Paging::CloneRange. -/
def cloneTable (dir dst startVA rangeSize pdidx : ℕ) : Prog Kernel ℕ Bool :=
  loop (cloneEntry dir dst startVA rangeSize pdidx) (List.range 1024)

/-- Paging::CloneRange. -/
def cloneRange (dstPd startVA rangeSize : ℕ) : Prog Kernel ℕ Unit := do
  let startPD := startVA / largePageSize
  let endPD := (startVA + rangeSize + largePageSize - 1) % 2 ^ 32 / largePageSize
  let dst ← gets fun p => p.spaceOf dstPd
  let cr3 ← gets fun p => p.cr3
  let dir ← alloc cr3
  let _ ← loop (cloneTable dir dst startVA rangeSize) (List.range' startPD (endPD - startPD))
  free dir

/-- Paging::BuildAddressSpace. -/
def buildAddressSpace (as : ℕ) : Prog Kernel ℕ Unit := do
  let pdir ← alloc as
  modify fun p => p.zero pdir
  modify fun p =>
    { p with
      word := Function.update p.word (p.frameAt pdir)
        fun i => if kernelBase / largePageSize ≤ i then p.kernelPageDir i else p.get pdir i }
  free pdir

end Programs

section Runs

variable {p : Kernel}

theorem windows_alloc (q : Kernel) (pa : ℕ) : windows.alloc q pa = q.alloc4k pa := by
  rw [windows]

theorem windows_free (q : Kernel) (slot : ℕ) : windows.free q slot = q.free4k slot := by
  rw [windows]

theorem run_tableWindow (pdir pdidx : ℕ) :
    run windows (tableWindow pdir pdidx) p = p.tableWindow pdir pdidx := by
  simp only [tableWindow,Kernel.tableWindow,bind_eq,pure_eq,gets_bind,alloc_bind,free_bind,
    modify_bind,run_ret,run_take,run_give,run_change,run_look,run_ite,windows_alloc,
    windows_free]
  rfl

/-- The program of MapPage runs as MapPage does. -/
theorem run_mapPage (pd va pa : ℕ) (user write : Bool) :
    run windows (mapPage pd va pa user write) p = p.mapPage pd va pa user write := by
  simp only [mapPage,Kernel.mapPage,bind_eq,pure_eq,gets_bind,alloc_bind,run_take,run_look,run_bind,
    run_tableWindow,windows_alloc]
  refine congrArg _ (funext fun w => congrArg _ (funext fun w' => ?_))
  cases w'.1 <;> rfl

/-- The program of UnMapPage runs as UnMapPage does. -/
theorem run_unMapPage (pd va : ℕ) :
    run windows (unMapPage pd va) p = p.unMapPage pd va := by
  simp only [unMapPage,Kernel.unMapPage,bind_eq,pure_eq,gets_bind,alloc_bind,free_bind,
    modify_bind,run_ret,run_take,run_give,run_change,run_look,run_ite,windows_alloc,
    windows_free]
  rfl

/-- The program of GetPhysicalAddress runs as GetPhysicalAddress does. -/
theorem run_getPhysicalAddress (pd va : ℕ) :
    run windows (getPhysicalAddress pd va) p = p.getPhysicalAddress pd va := by
  simp only [getPhysicalAddress,Kernel.getPhysicalAddress,bind_eq,pure_eq,gets_bind,alloc_bind,
    free_bind,run_ret,run_take,run_give,run_look,run_ite,windows_alloc,windows_free]
  rfl

/-- The program of BuildAddressSpace runs as BuildAddressSpace does. -/
theorem run_buildAddressSpace (as : ℕ) :
    run windows (buildAddressSpace as) p = (p.buildAddressSpace as).map fun q => ((),q) := by
  simp only [buildAddressSpace,Kernel.buildAddressSpace,bind_eq,alloc_bind,modify_bind,run_take,
    run_change,windows_alloc]
  cases p.alloc4k as <;> rfl

/-- A loop whose turns all go on. -/
theorem run_loop_fold {f : ℕ → Prog Kernel ℕ Bool} {step : Kernel → ℕ → Option Kernel}
    (h : ∀ i p,run windows (f i) p = (step p i).map fun q => (true,q)) (l : List ℕ) :
    run windows (loop f l) p = (l.foldlM step p).map fun q => (true,q) := by
  induction l generalizing p with
  | nil => rfl
  | cons i l ih =>
    rw [loop,run_bind,h,List.foldlM_cons]
    cases step p i with
    | none => rfl
    | some q => exact ih

theorem run_loop {f : ℕ → Prog Kernel ℕ Bool} {turn : Kernel → ℕ → Option (Bool × Kernel)}
    (h : ∀ i p,run windows (f i) p = turn p i) (l : List ℕ) :
    run windows (loop f l) p = loopM turn l p := by
  induction l generalizing p with
  | nil => rfl
  | cons i l ih =>
    rw [loop,run_bind,h,loopM]
    refine congrArg _ (funext fun w => ?_)
    obtain ⟨go,q⟩ := w
    cases go with
    | true => exact ih
    | false => rfl

theorem run_unmapEntry (dir startVA rangeSize pdidx ptidx : ℕ) (p : Kernel) :
    run windows (unmapEntry dir startVA rangeSize pdidx ptidx) p =
      (p.unmapEntry dir startVA rangeSize pdidx ptidx).map fun q => (true,q) := by
  simp only [unmapEntry,Kernel.unmapEntry,bind_eq,pure_eq,gets_bind,alloc_bind,free_bind,
    modify_bind,run_ret,run_take,run_give,run_change,run_look,run_ite,windows_alloc,
    windows_free]
  split_ifs
  · rfl
  · cases p.alloc4k (p.get dir pdidx / pageSize * pageSize) with
    | none => rfl
    | some w =>
      simp only [Option.bind_some,Option.bind_eq_bind]
      split_ifs <;> rfl

theorem run_unmapTable (dir startVA rangeSize pdidx : ℕ) (p : Kernel) :
    run windows (unmapTable dir startVA rangeSize pdidx) p =
      (p.unmapTable dir startVA rangeSize pdidx).map fun q => (true,q) := by
  simp only [unmapTable,Kernel.unmapTable,bind_eq,pure_eq,gets_bind,run_ret,run_look,run_ite]
  split_ifs
  · exact run_loop_fold (fun i p => run_unmapEntry dir startVA rangeSize pdidx i p) _
  · rfl

/-- A loop under a window. -/
theorem run_under {x : ℕ → Prog Kernel ℕ Bool} {g : ℕ → Kernel → Option (Bool × Kernel)}
    (h : ∀ w p,run windows (x w) p = g w p) (pa : ℕ) :
    run windows (take pa fun w => (x w).bind fun _ => free w) p =
      (p.alloc4k pa).bind fun w => (g w.1 w.2).map fun r => ((),r.2.free4k w.1) := by
  rw [run_take,windows_alloc]
  refine congrArg _ (funext fun w => ?_)
  rw [run_bind,h]
  cases g w.1 w.2 with
  | none => rfl
  | some r => rfl

theorem kernel_unmapRange_eq (pd startVA rangeSize : ℕ) :
    p.unmapRange pd startVA rangeSize = (p.alloc4k (p.spaceOf pd)).bind fun w =>
      ((List.range' (startVA / largePageSize)
        ((startVA + rangeSize + largePageSize - 1) % 2 ^ 32 / largePageSize -
          startVA / largePageSize)).foldlM
            (fun (p : Kernel) pdidx => p.unmapTable w.1 startVA rangeSize pdidx) w.2).bind
        fun q => some (q.free4k w.1) := by
  rw [Kernel.unmapRange]
  rfl

/-- The program of UnmapRange runs as UnmapRange does. -/
theorem run_unmapRange (pd startVA rangeSize : ℕ) :
    run windows (unmapRange pd startVA rangeSize) p =
      (p.unmapRange pd startVA rangeSize).map fun q => ((),q) := by
  rw [unmapRange,kernel_unmapRange_eq]
  simp only [bind_eq,gets_bind,alloc_bind]
  rw [run_look,run_under fun w p => run_loop_fold (fun i p =>
    run_unmapTable w startVA rangeSize i p) _]
  have hmap : ∀ (o : Option Kernel) dir,
      ((o.map fun q => (true,q)).map fun r : Bool × Kernel => ((),r.2.free4k dir)) =
        (o.bind fun q => some (q.free4k dir)).map fun q => ((),q) := by
    intro o dir
    cases o with
    | none => rfl
    | some q => rfl
  cases p.alloc4k (p.spaceOf pd) with
  | none => rfl
  | some w =>
    rw [Option.bind_some,Option.bind_some]
    exact hmap _ w.1

theorem run_cloneEntry (dir dst startVA rangeSize pdidx ptidx : ℕ) (p : Kernel) :
    run windows (cloneEntry dir dst startVA rangeSize pdidx ptidx) p =
      Kernel.cloneEntry dir dst startVA rangeSize pdidx p ptidx := by
  simp only [cloneEntry,Kernel.cloneEntry,bind_eq,pure_eq,gets_bind,alloc_bind,free_bind,
    modify_bind,run_ret,run_take,run_give,run_change,run_look,run_ite,run_bind,
    run_mapPage,windows_alloc,windows_free]
  rfl

theorem run_cloneTable (dir dst startVA rangeSize pdidx : ℕ) (p : Kernel) :
    run windows (cloneTable dir dst startVA rangeSize pdidx) p =
      Kernel.cloneTable dir dst startVA rangeSize p pdidx :=
  run_loop (run_cloneEntry dir dst startVA rangeSize pdidx) _

/-- The program of CloneRange runs as CloneRange does. -/
theorem run_cloneRange (dstPd srcPd startVA rangeSize : ℕ) :
    run windows (cloneRange dstPd startVA rangeSize) p =
      (p.cloneRange dstPd srcPd startVA rangeSize).map fun q => ((),q) := by
  rw [cloneRange,kernel_cloneRange_eq]
  simp only [bind_eq,gets_bind,alloc_bind]
  rw [run_look,run_look,run_under fun w p => run_loop (fun i p =>
    run_cloneTable w _ startVA rangeSize i p) _]
  have hmap : ∀ (o : Option (Bool × Kernel)) dir,
      (o.map fun r => ((),r.2.free4k dir)) =
        (o.bind fun r => some (r.2.free4k dir)).map fun q => ((),q) := by
    intro o dir
    cases o with
    | none => rfl
    | some r => rfl
  cases p.alloc4k p.cr3 with
  | none => rfl
  | some w =>
    rw [Option.bind_some,Option.bind_some]
    exact hmap _ w.1

end Runs

section Tidiness

variable (l : Multiset ℕ)

theorem tidy_tableWindow (pdir pdidx : ℕ) :
    Tidy windows (tableWindow pdir pdidx) (pdir ::ₘ l) fun pt => pt.elim l (· ::ₘ l) := by
  simp only [tableWindow,bind_eq,pure_eq,gets_bind,alloc_bind,free_bind,modify_bind]
  refine tidy_look fun p => tidy_ite (fun _ => ?_) fun _ => ?_
  · refine tidy_look fun p' => tidy_ite (fun _ => ?_) fun _ => ?_
    · exact tidy_give (tidy_ret rfl)
    · refine tidy_change (fun _ => rfl) (tidy_take fun pt => tidy_change (fun _ => rfl) ?_)
      rw [Multiset.cons_swap]
      exact tidy_give (tidy_ret rfl)
  · exact tidy_give (tidy_take fun pt => tidy_ret rfl)

theorem tidy_mapPage (pd va pa : ℕ) (user write : Bool) :
    Tidy windows (mapPage pd va pa user write) l fun _ => l := by
  simp only [mapPage,bind_eq,pure_eq,gets_bind,alloc_bind]
  refine tidy_look fun p => tidy_take fun pdir =>
    tidy_bind (tidy_tableWindow l pdir _) fun pt => ?_
  cases pt with
  | none => exact tidy_ret rfl
  | some pt => exact tidy_change (fun _ => rfl) (tidy_give (tidy_ret rfl))

theorem tidy_unMapPage (pd va : ℕ) : Tidy windows (unMapPage pd va) l fun _ => l := by
  simp only [unMapPage,bind_eq,pure_eq,gets_bind,alloc_bind,free_bind,modify_bind]
  refine tidy_look fun p => tidy_take fun pdir => tidy_look fun p' =>
    tidy_ite (fun _ => ?_) fun _ => ?_
  · exact tidy_give (tidy_ret rfl)
  · refine tidy_take fun pt => tidy_look fun p'' => tidy_ite (fun _ => ?_) fun _ => ?_
    · exact tidy_give (tidy_give (tidy_ret rfl))
    · refine tidy_change (fun _ => rfl) (tidy_look fun p₃ => tidy_give ?_)
      refine tidy_ite (fun _ => ?_) fun _ => ?_
      · exact tidy_change (fun _ => rfl) (tidy_give (tidy_ret rfl))
      · exact tidy_give (tidy_ret rfl)

theorem tidy_getPhysicalAddress (pd va : ℕ) :
    Tidy windows (getPhysicalAddress pd va) l fun _ => l := by
  simp only [getPhysicalAddress,bind_eq,pure_eq,gets_bind,alloc_bind,free_bind]
  refine tidy_look fun p => tidy_take fun pdir => tidy_look fun p' =>
    tidy_ite (fun _ => ?_) fun _ => ?_
  · exact tidy_give (tidy_ret rfl)
  · refine tidy_give (tidy_take fun pt => tidy_look fun p'' => tidy_ite (fun _ => ?_) fun _ => ?_)
    · exact tidy_give (tidy_ret rfl)
    · exact tidy_give (tidy_ret rfl)

theorem tidy_buildAddressSpace (as : ℕ) :
    Tidy windows (buildAddressSpace as) l fun _ => l := by
  simp only [buildAddressSpace,bind_eq,alloc_bind,modify_bind]
  exact tidy_take fun pdir => tidy_change (fun _ => rfl) (tidy_change (fun _ => rfl)
    (tidy_give (tidy_ret rfl)))

theorem tidy_unmapEntry (dir startVA rangeSize pdidx ptidx : ℕ) :
    Tidy windows (unmapEntry dir startVA rangeSize pdidx ptidx) l fun _ => l := by
  simp only [unmapEntry,bind_eq,pure_eq,gets_bind,alloc_bind,free_bind,modify_bind]
  refine tidy_ite (fun _ => tidy_ret rfl) fun _ => ?_
  refine tidy_look fun p => tidy_take fun pt => tidy_look fun p' => ?_
  refine tidy_change (fun _ => rfl) (tidy_look fun p'' => tidy_give ?_)
  exact tidy_ite (fun _ => tidy_change (fun _ => rfl) (tidy_ret rfl)) fun _ => tidy_ret rfl

theorem tidy_unmapTable (dir startVA rangeSize pdidx : ℕ) :
    Tidy windows (unmapTable dir startVA rangeSize pdidx) l fun _ => l := by
  simp only [unmapTable,bind_eq,pure_eq,gets_bind]
  exact tidy_look fun p => tidy_ite (fun _ => tidy_ret rfl)
    fun _ => tidy_loop (tidy_unmapEntry l dir startVA rangeSize pdidx) _

theorem tidy_unmapRange (pd startVA rangeSize : ℕ) :
    Tidy windows (unmapRange pd startVA rangeSize) l fun _ => l := by
  simp only [unmapRange,bind_eq,gets_bind,alloc_bind]
  exact tidy_look fun p => tidy_take fun dir =>
    tidy_bind (tidy_loop (tidy_unmapTable (dir ::ₘ l) dir startVA rangeSize) _)
      fun _ => tidy_give (tidy_ret rfl)

theorem tidy_cloneEntry (dir dst startVA rangeSize pdidx ptidx : ℕ) :
    Tidy windows (cloneEntry dir dst startVA rangeSize pdidx ptidx) l fun _ => l := by
  simp only [cloneEntry,bind_eq,pure_eq,gets_bind,alloc_bind,free_bind,modify_bind]
  refine tidy_ite (fun _ => tidy_ret rfl) fun _ => ?_
  refine tidy_look fun p => tidy_ite (fun _ => tidy_ret rfl) fun _ => ?_
  refine tidy_take fun pt => tidy_look fun p' => tidy_look fun p'' => ?_
  refine tidy_ite (fun _ => tidy_give (tidy_ret rfl)) fun _ => ?_
  refine tidy_change (fun _ => rfl) (tidy_give (tidy_take fun src => tidy_take fun win => ?_))
  refine tidy_change (fun _ => rfl) (tidy_give (tidy_give ?_))
  exact tidy_bind (tidy_mapPage l dst _ _ _ _) fun _ => tidy_ret rfl

theorem tidy_cloneTable (dir dst startVA rangeSize pdidx : ℕ) :
    Tidy windows (cloneTable dir dst startVA rangeSize pdidx) l fun _ => l := by
  rw [cloneTable]
  exact tidy_loop (tidy_cloneEntry l dir dst startVA rangeSize pdidx) _

theorem tidy_cloneRange (dstPd startVA rangeSize : ℕ) :
    Tidy windows (cloneRange dstPd startVA rangeSize) l fun _ => l := by
  simp only [cloneRange,bind_eq,gets_bind,alloc_bind]
  refine tidy_look fun p => tidy_look fun p' => tidy_take fun dir => ?_
  exact tidy_bind (tidy_loop (tidy_cloneTable (dir ::ₘ l) dir _ startVA rangeSize) _)
    fun _ => tidy_give (tidy_ret rfl)

end Tidiness

/-- A page that a loop over a range skips. -/
def Skipped (startVA rangeSize pdidx ptidx : ℕ) : Prop :=
  pdidx * largePageSize + ptidx * pageSize < startVA ∨
    (startVA + rangeSize) % 2 ^ 32 ≤ pdidx * largePageSize + ptidx * pageSize

instance (startVA rangeSize pdidx ptidx : ℕ) : Decidable (Skipped startVA rangeSize pdidx ptidx) :=
  inferInstanceAs (Decidable (_ ∨ _))

/-- A page table that a loop over a range reaches in a directory. -/
def Reached (p : Kernel) (pd startVA rangeSize pdidx : ℕ) : Prop :=
  Present (p.word (pd / pageSize) pdidx) ∧
    ∃ ptidx ∈ List.range 1024,¬Skipped startVA rangeSize pdidx ptidx

instance (p : Kernel) (pd startVA rangeSize pdidx : ℕ) :
    Decidable (Reached p pd startVA rangeSize pdidx) := inferInstanceAs (Decidable (_ ∧ _))

/-- The page tables of a range. -/
def tables (startVA rangeSize : ℕ) : List ℕ :=
  List.range' (startVA / largePageSize)
    ((startVA + rangeSize + largePageSize - 1) % 2 ^ 32 / largePageSize - startVA / largePageSize)

section Opening

variable {p q : Kernel} {n : ℕ}

theorem opens_tableWindow (pdir pdidx : ℕ) (hn : 0 < n) :
    Opens windows (tableWindow pdir pdidx) p n
      (if Vacant (p.get pdir pdidx) then
        if (allocFrame p.bitmap).1 = noFrame then n else n + 1
      else n) := by
  simp only [tableWindow,bind_eq,pure_eq,gets_bind,alloc_bind,free_bind,modify_bind]
  refine Opens.look (Opens.ite (fun _ => Opens.look (Opens.ite (fun _ => ?_) fun _ => ?_))
    fun _ => ?_)
  · exact Opens.give (Opens.ret _) (by omega)
  · refine Opens.change (Opens.take le_rfl fun pt r _ => Opens.change ?_)
    exact Opens.give (Opens.ret _) (by omega)
  · refine Opens.give (j := n) (Opens.take (by omega) fun pt r _ => ?_) (by omega)
    rw [Nat.sub_add_cancel hn]
    exact Opens.ret _

/-- MapPage opens a second window for a page table that it makes. -/
theorem opens_mapPage (pd va pa : ℕ) (user write : Bool) :
    Opens windows (mapPage pd va pa user write) p n
      (if Vacant (p.word (p.spaceOf pd / pageSize) (va / largePageSize)) then
        if (allocFrame p.bitmap).1 = noFrame then n + 1 else n + 2
      else n + 1) := by
  simp only [mapPage,bind_eq,pure_eq,gets_bind,alloc_bind]
  rw [(page_of_va va).1,(page_of_va va).2]
  refine Opens.look (Opens.take ?_ fun pdir r hr => ?_)
  · split_ifs <;> omega
  rw [windows_alloc] at hr
  obtain ⟨-,-,rfl⟩ := alloc4k_eq hr
  have htable := opens_tableWindow (p := p.map4k pdir (p.spaceOf pd)) pdir (va / largePageSize)
    (Nat.succ_pos n)
  rw [get_map4k_self] at htable
  refine htable.bind fun pt r' hr' => ?_
  have hcount := (tidy_tableWindow (Multiset.replicate n 0) pdir _).count hr'
  rw [Multiset.card_cons,Multiset.card_replicate] at hcount
  rw [hcount]
  have hle : n + 1 ≤ if Vacant (p.word (p.spaceOf pd / pageSize) (va / largePageSize)) then
        if (allocFrame p.bitmap).1 = noFrame then n + 1 else n + 2
      else n + 1 := by
    split_ifs <;> omega
  refine le_trans ?_ hle
  cases pt with
  | none =>
    show (Multiset.replicate n 0).card ≤ n + 1
    rw [Multiset.card_replicate]
    exact Nat.le_succ n
  | some pt =>
    show max (pt ::ₘ Multiset.replicate n 0).card ((pt ::ₘ Multiset.replicate n 0).card - 1) ≤ n + 1
    rw [Multiset.card_cons,Multiset.card_replicate]
    omega

/-- UnMapPage opens a second window for the page table. -/
theorem opens_unMapPage (pd va : ℕ) :
    Opens windows (unMapPage pd va) p n
      (if Present (p.word (p.spaceOf pd / pageSize) (va / largePageSize)) then n + 2
      else n + 1) := by
  simp only [unMapPage,bind_eq,pure_eq,gets_bind,alloc_bind,free_bind,modify_bind]
  rw [(page_of_va va).1]
  refine Opens.look (Opens.take ?_ fun pdir r hr => Opens.look ?_)
  · split_ifs <;> omega
  rw [windows_alloc] at hr
  obtain ⟨-,-,rfl⟩ := alloc4k_eq hr
  rw [get_map4k_self]
  rw [← ite_not (Present (p.word (p.spaceOf pd / pageSize) (va / largePageSize))) (n + 1)]
  refine Opens.ite (fun _ => ?_) fun _ => Opens.take le_rfl fun pt r _ => Opens.look ?_
  · exact Opens.give (Opens.ret _) (by omega)
  · split_ifs
    · refine Opens.change (Opens.look ?_)
      refine Opens.give (j := n + 1) ?_ (by omega)
      split_ifs
      · exact Opens.change (Opens.give (Opens.ret _) (by omega))
      · exact Opens.give (Opens.ret _) (by omega)
    · exact Opens.give (Opens.give (Opens.ret _) rfl) (by omega)

/-- GetPhysicalAddress opens one window at a time. -/
theorem opens_getPhysicalAddress (pd va : ℕ) :
    Opens windows (getPhysicalAddress pd va) p n (n + 1) := by
  simp only [getPhysicalAddress,bind_eq,pure_eq,gets_bind,alloc_bind,free_bind]
  refine Opens.look (Opens.take le_rfl fun pdir r _ => Opens.look ?_)
  split_ifs
  · refine Opens.give (j := n + 1) (Opens.take le_rfl fun pt r' _ => Opens.look ?_) (by omega)
    split_ifs
    · exact Opens.give (Opens.ret _) (by omega)
    · exact Opens.give (Opens.ret _) (by omega)
  · exact Opens.give (Opens.ret _) (by omega)

/-- BuildAddressSpace opens one window. -/
theorem opens_buildAddressSpace (as : ℕ) :
    Opens windows (buildAddressSpace as) p n (n + 1) := by
  simp only [buildAddressSpace,bind_eq,alloc_bind,modify_bind]
  exact Opens.take le_rfl fun pdir r _ => Opens.change (Opens.change
    (Opens.give (Opens.ret _) (by omega)))

/-- A turn of the inner loop of UnmapRange opens a window for a page of the range. -/
theorem opens_unmapEntry (dir startVA rangeSize pdidx ptidx : ℕ) :
    Opens windows (unmapEntry dir startVA rangeSize pdidx ptidx) p n
      (if Skipped startVA rangeSize pdidx ptidx then n else n + 1) := by
  simp only [unmapEntry,bind_eq,pure_eq,gets_bind,alloc_bind,free_bind,modify_bind]
  refine Opens.ite (fun _ => Opens.ret _) fun _ => Opens.look (Opens.take le_rfl fun pt r _ => ?_)
  refine Opens.look (Opens.change (Opens.look ?_))
  refine Opens.give (j := n) ?_ (by omega)
  split_ifs
  · exact Opens.change (Opens.ret _)
  · exact Opens.ret _

theorem count_unmapEntry {dir startVA rangeSize pdidx : ℕ} (i : ℕ) (q : Kernel) (b : Bool)
    (r : Kernel) (h : run windows (unmapEntry dir startVA rangeSize pdidx i) q = some (b,r)) :
    count (trace windows (unmapEntry dir startVA rangeSize pdidx i) q) n = n :=
  count_of_tidy (fun l => tidy_unmapEntry l dir startVA rangeSize pdidx i) h

theorem unmapEntry_idle {dir startVA rangeSize pdidx ptidx : ℕ}
    (h : Skipped startVA rangeSize pdidx ptidx) :
    Idle windows (unmapEntry dir startVA rangeSize pdidx ptidx) q := by
  rw [Skipped] at h
  rw [unmapEntry]
  dsimp only
  rw [if_pos h]
  exact ⟨rfl,rfl⟩

/-- A turn of the outer loop of UnmapRange opens a window when it reaches its page table. -/
theorem opens_unmapTable {pd dir startVA rangeSize pdidx : ℕ}
    (hget : p.get dir = p.word (pd / pageSize)) (h : Reached p pd startVA rangeSize pdidx) :
    Opens windows (unmapTable dir startVA rangeSize pdidx) p n (n + 1) := by
  have hle : ∀ i q,peak (trace windows (unmapEntry dir startVA rangeSize pdidx i) q) n ≤ n + 1 := by
    intro i q
    refine (opens_unmapEntry dir startVA rangeSize pdidx i).le.trans ?_
    split_ifs <;> omega
  simp only [unmapTable,bind_eq,pure_eq,gets_bind]
  refine Opens.look ?_
  rw [hget,if_neg (not_not.mpr h.1)]
  refine Opens.loop (fun i => ¬Skipped startVA rangeSize pdidx i) ?_ ?_ count_unmapEntry
    ?_ (Nat.le_succ n) h.2
  · exact fun i _ hi => unmapEntry_idle (not_not.mp hi)
  · intro i _ hi
    have hopen := opens_unmapEntry (p := p) (n := n) dir startVA rangeSize pdidx i
    rwa [if_neg hi] at hopen
  · exact fun i _ _ r _ js => peak_loop_le hle count_unmapEntry js r (Nat.le_succ n)

theorem unmapTable_idle {pd dir startVA rangeSize pdidx : ℕ}
    (hget : p.get dir = p.word (pd / pageSize)) (h : ¬Reached p pd startVA rangeSize pdidx) :
    Idle windows (unmapTable dir startVA rangeSize pdidx) p := by
  simp only [unmapTable,bind_eq,pure_eq,gets_bind]
  by_cases hp : Present (p.word (pd / pageSize) pdidx)
  · have hskip : ∀ i ∈ List.range 1024,Skipped startVA rangeSize pdidx i := by
      intro i hi
      by_contra hs
      exact h ⟨hp,i,hi,hs⟩
    rw [Idle,run_look,trace,hget,if_neg (not_not.mpr hp)]
    exact loop_idle fun i hi => unmapEntry_idle (hskip i hi)
  · rw [Idle,run_look,trace,hget,if_pos hp]
    exact ⟨rfl,rfl⟩

/-- The words behind a window. -/
theorem get_frameAt (q : Kernel) (dir : ℕ) :
    q.get dir = q.word (q.frameAt dir * pageSize / pageSize) := by
  rw [Nat.mul_div_cancel _ (by decide)]
  rfl

theorem peak_unmapTable (dir startVA rangeSize pdidx : ℕ) (q : Kernel) :
    peak (trace windows (unmapTable dir startVA rangeSize pdidx) q) n ≤ n + 1 := by
  have hget := get_frameAt q dir
  by_cases h : Reached q (q.frameAt dir * pageSize) startVA rangeSize pdidx
  · exact (opens_unmapTable hget h).le
  · rw [(unmapTable_idle hget h).2]
    exact Nat.le_succ n

/-- UnmapRange opens a second window when it reaches a page table. -/
theorem opens_unmapRange (pd startVA rangeSize : ℕ) :
    Opens windows (unmapRange pd startVA rangeSize) p n
      (if ∃ i ∈ tables startVA rangeSize,Reached p (p.spaceOf pd) startVA rangeSize i then n + 2
      else n + 1) := by
  have hcount : ∀ {dir n} i q b r,run windows (unmapTable dir startVA rangeSize i) q = some (b,r) →
      count (trace windows (unmapTable dir startVA rangeSize i) q) n = n :=
    fun i q b r h => count_of_tidy (fun l => tidy_unmapTable l _ startVA rangeSize i) h
  simp only [unmapRange,bind_eq,gets_bind,alloc_bind]
  refine Opens.look (Opens.take ?_ fun dir r hr => ?_)
  · split_ifs <;> omega
  rw [windows_alloc] at hr
  obtain ⟨-,-,rfl⟩ := alloc4k_eq hr
  have hget : (p.map4k dir (p.spaceOf pd)).get dir =
      (p.map4k dir (p.spaceOf pd)).word (p.spaceOf pd / pageSize) := get_map4k_self
  have hidle : ∀ i ∈ tables startVA rangeSize,¬Reached p (p.spaceOf pd) startVA rangeSize i →
      Idle windows (unmapTable dir startVA rangeSize i) (p.map4k dir (p.spaceOf pd)) :=
    fun i _ hi => unmapTable_idle hget hi
  refine Opens.bind_free ?_ fun b r hr =>
    count_of_tidy (fun l => tidy_loop (tidy_unmapTable l dir startVA rangeSize) _) hr
  split_ifs with hex
  · exact Opens.loop _ hidle (fun i _ hi => opens_unmapTable hget hi) hcount
      (fun i _ _ r _ js => peak_loop_le (peak_unmapTable dir startVA rangeSize) hcount js r
        (Nat.le_succ _)) (Nat.le_succ _) hex
  · exact (loop_idle fun i hi => hidle i hi fun h => hex ⟨i,hi,h⟩).opens

/-- A turn of the inner loop of CloneRange opens two windows when it finds a frame. -/
theorem opens_cloneEntry (dir dst startVA rangeSize pdidx ptidx : ℕ) :
    Opens windows (cloneEntry dir dst startVA rangeSize pdidx ptidx) p n
      (if Skipped startVA rangeSize pdidx ptidx then n
      else if ¬Present (p.get dir pdidx) then n
      else if (allocFrame p.bitmap).1 = noFrame then n + 1 else n + 2) := by
  simp only [cloneEntry,bind_eq,pure_eq,gets_bind,alloc_bind,free_bind,modify_bind]
  refine Opens.ite (fun _ => Opens.ret _) fun _ => Opens.look ?_
  refine Opens.ite (fun _ => Opens.ret _) fun _ => Opens.take ?_ fun pt r hr => ?_
  · split_ifs <;> omega
  rw [windows_alloc] at hr
  obtain ⟨-,-,rfl⟩ := alloc4k_eq hr
  refine Opens.look (Opens.look (Opens.ite (fun _ => ?_) fun _ => ?_))
  · exact Opens.give (Opens.ret _) (by omega)
  · refine Opens.change (Opens.give (j := n + 2) ?_ (by omega))
    refine Opens.take (by omega) fun src r _ => Opens.take (by omega) fun win r _ => ?_
    refine Opens.change (Opens.give (Opens.give ((opens_mapPage dst _ _ _ _).bind ?_) rfl) ?_)
    · intro b r hr
      rw [count_of_tidy (fun l => tidy_mapPage l _ _ _ _ _) hr]
      show n + 1 + 1 - 1 - 1 ≤ _
      split_ifs <;> omega
    · split_ifs <;> omega

theorem count_cloneEntry {dir dst startVA rangeSize pdidx : ℕ} (i : ℕ) (q : Kernel) (b : Bool)
    (r : Kernel) (h : run windows (cloneEntry dir dst startVA rangeSize pdidx i) q = some (b,r)) :
    count (trace windows (cloneEntry dir dst startVA rangeSize pdidx i) q) n = n :=
  count_of_tidy (fun l => tidy_cloneEntry l dir dst startVA rangeSize pdidx i) h

theorem peak_cloneEntry (dir dst startVA rangeSize pdidx ptidx : ℕ) (q : Kernel) :
    peak (trace windows (cloneEntry dir dst startVA rangeSize pdidx ptidx) q) n ≤ n + 2 := by
  refine (opens_cloneEntry dir dst startVA rangeSize pdidx ptidx).le.trans ?_
  split_ifs <;> omega

theorem cloneEntry_idle {dir dst startVA rangeSize pdidx ptidx : ℕ}
    (h : Skipped startVA rangeSize pdidx ptidx ∨ ¬Present (p.get dir pdidx)) :
    Idle windows (cloneEntry dir dst startVA rangeSize pdidx ptidx) p := by
  by_cases hs : Skipped startVA rangeSize pdidx ptidx
  · rw [Skipped] at hs
    rw [cloneEntry,if_pos hs]
    exact ⟨rfl,rfl⟩
  · have hp := h.resolve_left hs
    rw [Skipped] at hs
    simp only [cloneEntry,bind_eq,pure_eq,gets_bind]
    rw [if_neg hs,Idle,run_look,trace,if_pos hp]
    exact ⟨rfl,rfl⟩

/-- It stops the loop when there is no frame. -/
theorem cloneEntry_stops {dir dst startVA rangeSize pdidx ptidx : ℕ}
    (hs : ¬Skipped startVA rangeSize pdidx ptidx) (hp : Present (p.get dir pdidx))
    (hno : (allocFrame p.bitmap).1 = noFrame) {b : Bool}
    (h : run windows (cloneEntry dir dst startVA rangeSize pdidx ptidx) p = some (b,q)) :
    b = false := by
  rw [Skipped] at hs
  rw [run_cloneEntry,Kernel.cloneEntry] at h
  dsimp only at h
  rw [if_neg hs,if_neg (not_not.mpr hp)] at h
  simp only [Option.bind_eq_bind,Option.bind_eq_some_iff,Prod.exists] at h
  obtain ⟨pt,r,hr,h⟩ := h
  obtain ⟨-,-,rfl⟩ := alloc4k_eq hr
  rw [map4k_toFrames,if_pos hno] at h
  exact (Prod.mk.inj (Option.some.inj h)).1.symm

/-- A turn of the outer loop of CloneRange opens windows when it reaches its page table. -/
theorem opens_cloneTable {pd dir dst startVA rangeSize pdidx : ℕ}
    (hget : p.get dir = p.word (pd / pageSize)) (h : Reached p pd startVA rangeSize pdidx) :
    Opens windows (cloneTable dir dst startVA rangeSize pdidx) p n
      (if (allocFrame p.bitmap).1 = noFrame then n + 1 else n + 2) := by
  have hp : Present (p.get dir pdidx) := hget ▸ h.1
  rw [cloneTable]
  refine Opens.loop (fun i => ¬Skipped startVA rangeSize pdidx i) ?_ ?_ count_cloneEntry
    ?_ ?_ h.2
  · exact fun i _ hi => cloneEntry_idle (.inl (not_not.mp hi))
  · intro i _ hi
    have hopen := opens_cloneEntry (p := p) (n := n) dir dst startVA rangeSize pdidx i
    rwa [if_neg hi,if_neg (not_not.mpr hp)] at hopen
  · intro i _ hi r hr js
    split_ifs with hno
    · exact absurd (cloneEntry_stops hi hp hno hr) (by decide)
    · exact peak_loop_le (peak_cloneEntry dir dst startVA rangeSize pdidx) count_cloneEntry js r
        (by omega)
  · split_ifs <;> omega

theorem cloneTable_idle {pd dir dst startVA rangeSize pdidx : ℕ}
    (hget : p.get dir = p.word (pd / pageSize)) (h : ¬Reached p pd startVA rangeSize pdidx) :
    Idle windows (cloneTable dir dst startVA rangeSize pdidx) p := by
  rw [cloneTable]
  refine loop_idle fun i hi => cloneEntry_idle ?_
  rw [hget]
  by_contra hc
  rw [not_or,not_not] at hc
  exact h ⟨hc.2,i,hi,hc.1⟩

theorem cloneTable_stops {pd dir dst startVA rangeSize pdidx : ℕ}
    (hget : p.get dir = p.word (pd / pageSize)) (h : Reached p pd startVA rangeSize pdidx)
    (hno : (allocFrame p.bitmap).1 = noFrame) {b : Bool}
    (hr : run windows (cloneTable dir dst startVA rangeSize pdidx) p = some (b,q)) :
    b = false := by
  rw [cloneTable] at hr
  refine loop_stops (fun i => ¬Skipped startVA rangeSize pdidx i)
    (fun i _ hi => cloneEntry_idle (.inl (not_not.mp hi))) (fun i _ hi b r hr => ?_) h.2 hr
  exact cloneEntry_stops hi (hget ▸ h.1) hno hr

theorem peak_cloneTable (dir dst startVA rangeSize pdidx : ℕ) (q : Kernel) :
    peak (trace windows (cloneTable dir dst startVA rangeSize pdidx) q) n ≤ n + 2 := by
  rw [cloneTable]
  exact peak_loop_le (peak_cloneEntry dir dst startVA rangeSize pdidx) count_cloneEntry _ q
    (by omega)

/-- CloneRange opens more windows when it reaches a page table: a second one, and a third one
when it finds a frame. -/
theorem opens_cloneRange (dstPd startVA rangeSize : ℕ) :
    Opens windows (cloneRange dstPd startVA rangeSize) p n
      (if ∃ i ∈ tables startVA rangeSize,Reached p p.cr3 startVA rangeSize i then
        if (allocFrame p.bitmap).1 = noFrame then n + 2 else n + 3
      else n + 1) := by
  have hcount : ∀ {dir dst n} i q b r,
      run windows (cloneTable dir dst startVA rangeSize i) q = some (b,r) →
        count (trace windows (cloneTable dir dst startVA rangeSize i) q) n = n :=
    fun i q b r h => count_of_tidy (fun l => tidy_cloneTable l _ _ startVA rangeSize i) h
  simp only [cloneRange,bind_eq,gets_bind,alloc_bind]
  refine Opens.look (Opens.look (Opens.take ?_ fun dir r hr => ?_))
  · split_ifs <;> omega
  rw [windows_alloc] at hr
  obtain ⟨-,-,rfl⟩ := alloc4k_eq hr
  have hget : (p.map4k dir p.cr3).get dir = (p.map4k dir p.cr3).word (p.cr3 / pageSize) :=
    get_map4k_self
  have hidle : ∀ i ∈ tables startVA rangeSize,¬Reached p p.cr3 startVA rangeSize i →
      Idle windows (cloneTable dir (p.spaceOf dstPd) startVA rangeSize i) (p.map4k dir p.cr3) :=
    fun i _ hi => cloneTable_idle hget hi
  refine Opens.bind_free ?_ fun b r hr =>
    count_of_tidy (fun l => tidy_loop (tidy_cloneTable l dir _ startVA rangeSize) _) hr
  split_ifs with hex hno
  · refine Opens.loop _ hidle (fun i _ hi => ?_) hcount ?_ (Nat.le_succ _) hex
    · have hopen : Opens windows (cloneTable dir (p.spaceOf dstPd) startVA rangeSize i)
          (p.map4k dir p.cr3) (n + 1) _ := opens_cloneTable hget hi
      rwa [map4k_toFrames,if_pos hno] at hopen
    · exact fun i _ hi r hr => absurd (cloneTable_stops hget hi hno hr) (by decide)
  · refine Opens.loop _ hidle (fun i _ hi => ?_) hcount ?_ (by omega) hex
    · have hopen : Opens windows (cloneTable dir (p.spaceOf dstPd) startVA rangeSize i)
          (p.map4k dir p.cr3) (n + 1) _ := opens_cloneTable hget hi
      rwa [map4k_toFrames,if_neg hno] at hopen
    · exact fun i _ _ r _ js => peak_loop_le
        (peak_cloneTable dir (p.spaceOf dstPd) startVA rangeSize) hcount js r (by omega)
  · exact (loop_idle fun i hi => hidle i hi fun h => hex ⟨i,hi,h⟩).opens

end Opening

/-- The calls that use windows. -/
inductive Call where
  /-- Paging::MapPage. -/
  | mapPage (pd va pa : ℕ) (user write : Bool)
  /-- Paging::UnMapPage. -/
  | unMapPage (pd va : ℕ)
  /-- Paging::UnmapRange. -/
  | unmapRange (pd startVA rangeSize : ℕ)
  /-- Paging::CloneRange. -/
  | cloneRange (dstPd srcPd startVA rangeSize : ℕ)
  /-- Paging::GetPhysicalAddress. -/
  | getPhysicalAddress (pd va : ℕ)
  /-- Paging::BuildAddressSpace. -/
  | buildAddressSpace (as : ℕ)

namespace Call

/-- The state when the call returns. -/
def run (p : Kernel) : Call → Option Kernel
  | mapPage pd va pa user write => (p.mapPage pd va pa user write).map Prod.snd
  | unMapPage pd va => (p.unMapPage pd va).map Prod.snd
  | unmapRange pd startVA rangeSize => p.unmapRange pd startVA rangeSize
  | cloneRange dstPd srcPd startVA rangeSize => p.cloneRange dstPd srcPd startVA rangeSize
  | getPhysicalAddress pd va => (p.getPhysicalAddress pd va).map Prod.snd
  | buildAddressSpace as => p.buildAddressSpace as

/-- The windows that the call takes and gives back. -/
def trace (p : Kernel) : Call → List Event
  | mapPage pd va pa user write =>
    Leases.trace windows (WindowBalance.mapPage pd va pa user write) p
  | unMapPage pd va => Leases.trace windows (WindowBalance.unMapPage pd va) p
  | unmapRange pd startVA rangeSize =>
    Leases.trace windows (WindowBalance.unmapRange pd startVA rangeSize) p
  | cloneRange dstPd _ startVA rangeSize =>
    Leases.trace windows (WindowBalance.cloneRange dstPd startVA rangeSize) p
  | getPhysicalAddress pd va => Leases.trace windows (WindowBalance.getPhysicalAddress pd va) p
  | buildAddressSpace as => Leases.trace windows (WindowBalance.buildAddressSpace as) p

/-- The windows that the call needs at once. MapPage needs one more to make a page table,
UnMapPage for a page table that is there, UnmapRange for a page table of the range, CloneRange
for one and yet another one when a frame is left. -/
def needs (p : Kernel) : Call → ℕ
  | mapPage pd va _ _ _ =>
    if Vacant (p.word (p.spaceOf pd / pageSize) (va / largePageSize)) then
      if (allocFrame p.bitmap).1 = noFrame then 1 else 2
    else 1
  | unMapPage pd va =>
    if Present (p.word (p.spaceOf pd / pageSize) (va / largePageSize)) then 2 else 1
  | unmapRange pd startVA rangeSize =>
    if ∃ i ∈ tables startVA rangeSize,Reached p (p.spaceOf pd) startVA rangeSize i then 2 else 1
  | cloneRange _ _ startVA rangeSize =>
    if ∃ i ∈ tables startVA rangeSize,Reached p p.cr3 startVA rangeSize i then
      if (allocFrame p.bitmap).1 = noFrame then 2 else 3
    else 1
  | getPhysicalAddress _ _ => 1
  | buildAddressSpace _ => 1

/-- The call returns and leaves the windows as they were, and never takes one that a live
pointer names. -/
def Balanced (c : Call) (p : Kernel) : Prop :=
  (∃ q,c.run p = some q ∧ q.kernel4kPT = p.kernel4kPT) ∧
    Apart {s | Present (p.kernel4kPT s)} (c.trace p) 0

end Call

section Balance

variable {p q : Kernel} {α : Type} {x : Prog Kernel ℕ α} {m : ℕ}

/-- A program is balanced when windows enough can be given back. -/
theorem balanced_of_opens {o : Option Kernel} (hc : Clean windows p)
    (hx : Tidy windows x 0 fun _ => 0) (ho : Opens windows x p 0 m)
    (hrun : (run windows x p).map Prod.snd = o) :
    ((∃ q,o = some q ∧ q.kernel4kPT = p.kernel4kPT) ∧
      Apart {s | Present (p.kernel4kPT s)} (trace windows x p) 0) ↔
      m ≤ (spare windows p).card := by
  have hapart : Apart {s | Present (p.kernel4kPT s)} (trace windows x p) 0 :=
    hx.apart (fun s hs => absurd hs (Multiset.notMem_zero s)) (fun s hs => hs)
      Multiset.nodup_zero
  have hiff := balanced_iff hc hx
  constructor
  · rintro ⟨⟨q,hq,heq⟩,-⟩
    rw [← hrun] at hq
    obtain ⟨⟨b,r⟩,hr,rfl⟩ := Option.map_eq_some_iff.mp hq
    rw [← ho.eq b r hr]
    exact hiff.mp ⟨b,r,hr,heq⟩
  · intro hm
    obtain ⟨b,q,hq,heq⟩ := hiff.mpr (ho.le.trans hm)
    refine ⟨⟨q,?_,heq⟩,hapart⟩
    rw [← hrun,hq]
    rfl

theorem map_snd (o : Option Kernel) : (o.map fun q => ((),q)).map Prod.snd = o := by
  cases o with
  | none => rfl
  | some q => rfl

theorem Call.needs_le (c : Call) (p : Kernel) : c.needs p ≤ 3 := by
  cases c with
  | mapPage => rw [Call.needs]; split_ifs <;> decide
  | unMapPage => rw [Call.needs]; split_ifs <;> decide
  | unmapRange => rw [Call.needs]; split_ifs <;> decide
  | cloneRange => rw [Call.needs]; split_ifs <;> decide
  | getPhysicalAddress => exact (by decide : 1 ≤ 3)
  | buildAddressSpace => exact (by decide : 1 ≤ 3)

/-- No window is in use in an empty table. -/
theorem spare_of_zero (h : ∀ s < 512,p.kernel4kPT s = 0) : spare windows p = Finset.range 512 := by
  refine Finset.filter_true_of_mem fun s hs => ?_
  show ¬Present (p.kernel4kPT s)
  rw [h s (Finset.mem_range.mp hs)]
  decide

/-- An empty table is clean. -/
theorem clean_of_zero (h : ∀ s < 512,p.kernel4kPT s = 0) : Clean windows p := by
  intro s hs
  rw [spare_of_zero h] at hs
  exact h s (Finset.mem_range.mp hs)

/-- The call as a program. -/
def Call.prog : Call → Prog Kernel ℕ Unit
  | mapPage pd va pa user write =>
    (WindowBalance.mapPage pd va pa user write).bind fun _ => ret ()
  | unMapPage pd va => (WindowBalance.unMapPage pd va).bind fun _ => ret ()
  | unmapRange pd startVA rangeSize => WindowBalance.unmapRange pd startVA rangeSize
  | cloneRange dstPd _ startVA rangeSize => WindowBalance.cloneRange dstPd startVA rangeSize
  | getPhysicalAddress pd va => (WindowBalance.getPhysicalAddress pd va).bind fun _ => ret ()
  | buildAddressSpace as => WindowBalance.buildAddressSpace as

/-- What a program returns is dropped. -/
theorem run_drop (x : Prog Kernel ℕ α) :
    Leases.run windows (x.bind fun _ => ret ()) p =
      ((Leases.run windows x p).map Prod.snd).map fun q => ((),q) := by
  rw [run_bind]
  cases Leases.run windows x p with
  | none => rfl
  | some w => rfl

theorem Call.run_prog (c : Call) (p : Kernel) :
    Leases.run windows c.prog p = (c.run p).map fun q => ((),q) := by
  cases c with
  | mapPage pd va pa user write => rw [prog,run_drop,run_mapPage,run]
  | unMapPage pd va => rw [prog,run_drop,run_unMapPage,run]
  | unmapRange pd startVA rangeSize => rw [prog,run_unmapRange,run]
  | cloneRange dstPd srcPd startVA rangeSize =>
    rw [prog,run_cloneRange dstPd srcPd,run]
  | getPhysicalAddress pd va => rw [prog,run_drop,run_getPhysicalAddress,run]
  | buildAddressSpace as => rw [prog,run_buildAddressSpace,run]

theorem Call.tidy_prog (c : Call) : Tidy windows c.prog 0 fun _ => 0 := by
  cases c with
  | mapPage pd va pa user write =>
    exact tidy_bind (tidy_mapPage 0 pd va pa user write) fun _ => tidy_ret rfl
  | unMapPage pd va => exact tidy_bind (tidy_unMapPage 0 pd va) fun _ => tidy_ret rfl
  | unmapRange pd startVA rangeSize => exact tidy_unmapRange 0 pd startVA rangeSize
  | cloneRange dstPd srcPd startVA rangeSize => exact tidy_cloneRange 0 dstPd startVA rangeSize
  | getPhysicalAddress pd va =>
    exact tidy_bind (tidy_getPhysicalAddress 0 pd va) fun _ => tidy_ret rfl
  | buildAddressSpace as => exact tidy_buildAddressSpace 0 as

/-- A call opens at most three windows at a time. -/
theorem Call.peak_prog (c : Call) (p : Kernel) : peak (Leases.trace windows c.prog p) 0 ≤ 3 := by
  have hdrop : ∀ {β} {x : Prog Kernel ℕ β} {m},Opens windows x p 0 m → m ≤ 3 →
      peak (Leases.trace windows (x.bind fun _ => ret ()) p) 0 ≤ 3 := by
    intro β x m h hm
    rw [trace_bind]
    cases Leases.run windows x p with
    | none =>
      rw [Option.map_none,Option.getD_none,List.append_nil]
      exact h.le.trans hm
    | some w =>
      rw [Option.map_some,Option.getD_some,Leases.trace,List.append_nil]
      exact h.le.trans hm
  have hneeds := c.needs_le p
  cases c with
  | mapPage pd va pa user write => exact hdrop (opens_mapPage pd va pa user write) hneeds
  | unMapPage pd va => exact hdrop (opens_unMapPage pd va) hneeds
  | unmapRange pd startVA rangeSize =>
    exact (opens_unmapRange pd startVA rangeSize).le.trans hneeds
  | cloneRange dstPd srcPd startVA rangeSize =>
    exact (opens_cloneRange dstPd startVA rangeSize).le.trans hneeds
  | getPhysicalAddress pd va => exact hdrop (opens_getPhysicalAddress pd va) hneeds
  | buildAddressSpace as => exact (opens_buildAddressSpace as).le.trans hneeds

/-- The table stays clean over a call. -/
theorem Call.run_clean (hc : Clean windows p) {c : Call} (h : c.run p = some q) :
    Clean windows q := by
  refine hc.run c.tidy_prog (b := ()) ?_
  rw [c.run_prog,h]
  rfl

theorem mem_low {s : ℕ} : s ∈ windows.low ↔ s < 512 := by
  rw [windows]
  exact Finset.mem_range

theorem windows_entry (q : Kernel) (s : ℕ) : windows.entry q s = q.kernel4kPT s := by
  rw [windows]

theorem windows_used (e : ℕ) : windows.used e ↔ Present e := by
  rw [windows]

/-- A call changes neither windows in use nor those that can be given back. -/
theorem Call.run_leaves (hc : Clean windows p) {c : Call} (h : c.run p = some q) {s : ℕ}
    (hs : s < 512 ∨ Present (p.kernel4kPT s)) : q.kernel4kPT s = p.kernel4kPT s := by
  have hl : Leaves windows p q 0 := by
    refine (Leaves.refl p).run hc c.tidy_prog (b := ()) ?_
    rw [c.run_prog,h]
    rfl
  rw [← windows_entry,← windows_entry p]
  rcases hs with hlow | hbusy
  · exact hl.low s (mem_low.mpr hlow) (Multiset.notMem_zero s)
  · refine hl.busy s ?_
    rwa [windows_used,windows_entry]

/-- With three windows to spare, a call returns with all windows as they were. -/
theorem Call.run_spare (hc : Clean windows p) (hs : 3 ≤ (spare windows p).card) (c : Call) :
    ∃ q,c.run p = some q ∧ q.kernel4kPT = p.kernel4kPT := by
  obtain ⟨b,q,hq,heq⟩ := (balanced_iff hc c.tidy_prog).mpr ((c.peak_prog p).trans hs)
  rw [c.run_prog] at hq
  obtain ⟨r,hr,hqr⟩ := Option.map_eq_some_iff.mp hq
  obtain rfl := (Prod.mk.inj hqr).2
  exact ⟨r,hr,heq⟩

/-- The first 512 windows are in use, the others are free. -/
def crowded : Kernel :=
  { twoSpaces with kernel4kPT := fun s => if s < 512 then s * pageSize ||| 3 else 0 }

end Balance

end WootOs.WindowBalance
