import WootOs.CloneRange

/-!
# Cloning through windows

CloneRange reaches the directory in use, a page table, and the frames it copies
through windows, up to two beside that of the directory. Whenever it returns,
it has done what it does on frames, and it returns when three windows are free.
The source it is given is not looked at.
-/

namespace WootOs.Paging

open FrameAllocator

/-- A loop whose turns can leave it, or halt. -/
def loopM {S : Type*} (turn : S → ℕ → Option (Bool × S)) : List ℕ → S → Option (Bool × S)
  | [],s => some (true,s)
  | n :: ns,s => do
    let r ← turn s n
    if r.1 then loopM turn ns r.2 else some r

namespace Kernel

/-- Memory::Move of a page through windows. -/
def move (p : Kernel) (dst src : ℕ) : Kernel :=
  { p with toFrames := CloneRange.move p.toFrames (p.frameAt dst) (p.frameAt src) }

/-- One turn of the inner loop of Paging::CloneRange, and whether the call goes on. -/
def cloneEntry (dir dst startVA rangeSize pdidx : ℕ) (p : Kernel) (ptidx : ℕ) :
    Option (Bool × Kernel) :=
  let va := pdidx * largePageSize + ptidx * pageSize
  if va < startVA ∨ (startVA + rangeSize) % 2 ^ 32 ≤ va then some (true,p)
  else if ¬Present (p.get dir pdidx) then some (true,p)
  else do
    let ptpa := p.get dir pdidx / pageSize * pageSize
    let (pt,p) ← p.alloc4k ptpa
    let pte := p.get pt ptidx
    let dpa := allocFrame p.bitmap
    if dpa.1 = noFrame then some (false,p.free4k pt)
    else
      let (src,p) ← ({ p with bitmap := dpa.2 }.free4k pt).alloc4k (pte / pageSize * pageSize)
      let (win,p) ← p.alloc4k dpa.1
      let (_,p) ← (((p.move win src).free4k win).free4k src).mapPage dst va dpa.1
        (pte.testBit 2) (pte.testBit 1)
      some (true,p)

/-- One turn of the outer loop of Paging::CloneRange. -/
def cloneTable (dir dst startVA rangeSize : ℕ) (p : Kernel) (pdidx : ℕ) :
    Option (Bool × Kernel) :=
  loopM (cloneEntry dir dst startVA rangeSize pdidx) (List.range 1024) p

/-- Paging::CloneRange. -/
def cloneRange (p : Kernel) (dstPd srcPd startVA rangeSize : ℕ) : Option Kernel := do
  let dst := p.spaceOf dstPd
  let _src := p.spaceOf srcPd
  let startPD := startVA / largePageSize
  let endPD := (startVA + rangeSize + largePageSize - 1) % 2 ^ 32 / largePageSize
  let (dir,p) ← p.alloc4k p.cr3
  let r ← loopM (cloneTable dir dst startVA rangeSize) (List.range' startPD (endPD - startPD)) p
  some (r.2.free4k dir)

end Kernel

end WootOs.Paging

namespace WootOs.CloneRange

open FrameBitmap FrameAllocator Paging PageMap UserMemory KernelSpace FreshPages

/-- The windows that are taken and not yet given back. The others are as before, and those of
the first half that were free are free. -/
structure Open (p q : Kernel) (l : List ℕ) : Prop where
  /-- They were free. -/
  taken : ∀ s ∈ l,¬Present (p.kernel4kPT s)
  /-- Those in use are the same. -/
  busy : ∀ s,Present (p.kernel4kPT s) → q.kernel4kPT s = p.kernel4kPT s
  /-- Those of the first half are free again. -/
  free : ∀ s < 512,s ∉ l → ¬Present (p.kernel4kPT s) → ¬Present (q.kernel4kPT s)

section Windows

variable {p q r : Kernel} {l : List ℕ} {slot pa : ℕ}

theorem Open.refl (p : Kernel) : Open p p [] :=
  ⟨fun _ hs => absurd hs List.not_mem_nil,fun _ _ => rfl,fun _ _ _ hs => hs⟩

theorem Open.trans (h : Open p q l) (h' : Open q r []) : Open p r l := by
  refine ⟨h.taken,?_,fun s hs hl hp => h'.free s hs List.not_mem_nil (h.free s hs hl hp)⟩
  intro s hs
  rw [h'.busy s (by rw [h.busy s hs]; exact hs),h.busy s hs]

/-- Where the entries of the windows are the same. -/
theorem Open.congr (h : Open p q l) (hr : r.kernel4kPT = q.kernel4kPT) : Open p r l :=
  ⟨h.taken,by rw [hr]; exact h.busy,by rw [hr]; exact h.free⟩

/-- A window is taken. -/
theorem Open.alloc4k (h : Open p q l) (hq : q.alloc4k pa = some (slot,r)) :
    Open p r (slot :: l) := by
  obtain ⟨-,hfree,rfl⟩ := alloc4k_eq hq
  have hslot : ¬Present (p.kernel4kPT slot) := by
    intro hs
    rw [h.busy slot hs] at hfree
    exact hfree hs
  have hother : ∀ s,s ≠ slot → (q.map4k slot pa).kernel4kPT s = q.kernel4kPT s :=
    fun s hs => Function.update_of_ne hs _ _
  refine ⟨?_,?_,?_⟩
  · intro s hs
    rcases List.mem_cons.mp hs with rfl | hs'
    · exact hslot
    · exact h.taken s hs'
  · intro s hs
    rw [hother s fun heq => hslot (heq ▸ hs),h.busy s hs]
  · intro s hs hl hp
    rw [List.mem_cons,not_or] at hl
    rw [hother s hl.1]
    exact h.free s hs hl.2 hp

/-- A window is given back. -/
theorem Open.free4k (h : Open p q (slot :: l)) : Open p (q.free4k slot) l := by
  have hother : ∀ s,s ≠ slot → (q.free4k slot).kernel4kPT s = q.kernel4kPT s :=
    fun s hs => kernel4kPT_free4k_of_ne hs
  refine ⟨fun s hs => h.taken s (List.mem_cons_of_mem slot hs),?_,?_⟩
  · intro s hs
    rw [hother s fun heq => h.taken slot List.mem_cons_self (heq ▸ hs),h.busy s hs]
  · intro s hs hl hp
    by_cases heq : s = slot
    · rw [heq,Kernel.free4k,if_pos (heq ▸ hs)]
      simp [Present]
    · rw [hother s heq]
      exact h.free s hs (fun hc => (List.mem_cons.mp hc).elim heq hl) hp

/-- A window is given back before the one taken last. -/
theorem Open.swap {slot' : ℕ} (h : Open p q (slot :: slot' :: l)) :
    Open p q (slot' :: slot :: l) := by
  have hmem : ∀ s,s ∈ slot' :: slot :: l ↔ s ∈ slot :: slot' :: l := by
    intro s
    rw [List.mem_cons,List.mem_cons,List.mem_cons,List.mem_cons]
    tauto
  exact ⟨fun s hs => h.taken s ((hmem s).mp hs),h.busy,
    fun s hs hl => h.free s hs fun hc => hl ((hmem s).mpr hc)⟩

/-- MapPage gives its windows back. -/
theorem mapPage_windows {pd va : ℕ} {user write b : Bool}
    (h : p.mapPage pd va pa user write = some (b,q)) : Open p q [] := by
  simp only [Kernel.mapPage,Option.bind_eq_bind,Option.bind_eq_some_iff,Prod.exists] at h
  obtain ⟨pdir,p₁,h₁,pt,p₂,h₂,h⟩ := h
  have ho := (Open.refl p).alloc4k h₁
  have hwin : Open p p₂ pt.toList := by
    simp only [Kernel.tableWindow] at h₂
    split_ifs at h₂
    · obtain ⟨rfl,rfl⟩ := Prod.mk.inj (Option.some.inj h₂)
      exact ho.free4k
    · simp only [Option.bind_eq_bind,Option.bind_eq_some_iff,Prod.exists] at h₂
      obtain ⟨s,p₃,h₃,h₂⟩ := h₂
      obtain ⟨rfl,rfl⟩ := Prod.mk.inj (Option.some.inj h₂)
      have ho' := (ho.congr (r := { p₁ with bitmap := (allocFrame p₁.bitmap).2 }) rfl).alloc4k h₃
      exact Open.free4k (ho'.swap.congr rfl)
    · simp only [Option.bind_eq_bind,Option.bind_eq_some_iff,Prod.exists] at h₂
      obtain ⟨s,p₃,h₃,h₂⟩ := h₂
      obtain ⟨rfl,rfl⟩ := Prod.mk.inj (Option.some.inj h₂)
      exact ho.free4k.alloc4k h₃
  cases pt with
  | none =>
    obtain ⟨rfl,rfl⟩ := Prod.mk.inj (Option.some.inj h)
    exact hwin
  | some s =>
    obtain ⟨rfl,rfl⟩ := Prod.mk.inj (Option.some.inj h)
    exact Open.free4k (hwin.congr rfl)

end Windows

section Frames

variable {p q : Kernel} {dir dst startVA rangeSize pdidx ptidx slot pa w : ℕ} {b : Bool}

@[simp] theorem move_toFrames : (p.move w slot).toFrames =
    move p.toFrames (p.frameAt w) (p.frameAt slot) := rfl

@[simp] theorem move_cr3 : (p.move w slot).cr3 = p.cr3 := rfl

/-- The address space of an address space. -/
theorem spaceOf_of_cr3 (h : q.cr3 = p.cr3) (pd : ℕ) : q.spaceOf (p.spaceOf pd) = p.spaceOf pd := by
  simp only [Kernel.spaceOf,h]
  split_ifs <;> rfl

/-- A loop returns and does what it does on frames when each of its turns does. -/
theorem loopM_frames {turn : Kernel → ℕ → Option (Bool × Kernel)}
    {onFrames : Frames → ℕ → Bool × Frames} {Inv : Kernel → Prop}
    (hstep : ∀ p i,Inv p → ∃ b q,turn p i = some (b,q) ∧
      onFrames p.toFrames i = (b,q.toFrames) ∧ Inv q) (l : List ℕ) (hp : Inv p) :
    ∃ b q,loopM turn l p = some (b,q) ∧ loop onFrames l p.toFrames = (b,q.toFrames) ∧ Inv q := by
  induction l generalizing p with
  | nil => exact ⟨true,p,rfl,rfl,hp⟩
  | cons i l ih =>
    obtain ⟨go,r,hr,hf,hi⟩ := hstep p i hp
    simp only [loopM,hr,Option.bind_eq_bind,Option.bind_some]
    rw [loop,hf]
    cases go with
    | true =>
      rw [if_pos rfl,if_pos rfl]
      exact ih hi
    | false =>
      rw [if_neg Bool.false_ne_true,if_neg Bool.false_ne_true]
      exact ⟨false,r,rfl,rfl,hi⟩

/-- A page is moved through two windows and mapped. -/
theorem moved_frames {p₁ p₂ : Kernel} {va dpa : ℕ} {src win : ℕ} {user write : Bool}
    (h₁ : p.alloc4k (w / pageSize * pageSize) = some (src,p₁)) (h₂ : p₁.alloc4k dpa = some (win,p₂))
    (h : (((p₂.move win src).free4k win).free4k src).mapPage dst va dpa user write = some (b,q)) :
    (move p.toFrames (dpa / pageSize) (w / pageSize)).mapPage (p.spaceOf dst) va dpa user write =
      (b,q.toFrames) ∧ q.cr3 = p.cr3 ∧ Open p q [] := by
  have ho := ((Open.refl p).alloc4k h₁).alloc4k h₂
  obtain ⟨-,-,rfl⟩ := alloc4k_eq h₁
  have hne := ne_of_alloc4k h₂
  obtain ⟨-,-,rfl⟩ := alloc4k_eq h₂
  have ho' := Open.free4k (Open.free4k (ho.congr
    (r := ((p.map4k src (w / pageSize * pageSize)).map4k win dpa).move win src) rfl))
  obtain ⟨hmap,-,hcr3⟩ := mapPage_frames h
  simp only [free4k_cr3,move_cr3,map4k_cr3] at hcr3
  refine ⟨?_,hcr3,ho'.trans (mapPage_windows h)⟩
  rw [hmap]
  simp only [free4k_toFrames,move_toFrames,map4k_toFrames,frameAt_map4k_self,
    frameAt_map4k_of_ne hne,div_page,Kernel.spaceOf,free4k_cr3,move_cr3,map4k_cr3]

/-- A turn of the inner loop does what it does on frames, and gives its windows back. -/
theorem cloneEntry_frames (hdir : p.kernel4kPT dir = p.cr3 ||| 3)
    (h : Kernel.cloneEntry dir dst startVA rangeSize pdidx p ptidx = some (b,q)) :
    cloneEntry p.cr3 (p.spaceOf dst) startVA rangeSize pdidx p.toFrames ptidx = (b,q.toFrames) ∧
      q.cr3 = p.cr3 ∧ Open p q [] := by
  have hget : p.get dir pdidx = p.word (p.cr3 / pageSize) pdidx := by
    rw [Kernel.get,Kernel.frameAt,hdir,lor_three_div]
  rw [Kernel.cloneEntry,hget] at h
  rw [cloneEntry]
  dsimp only at h ⊢
  by_cases hout : pdidx * largePageSize + ptidx * pageSize < startVA ∨
      (startVA + rangeSize) % 2 ^ 32 ≤ pdidx * largePageSize + ptidx * pageSize
  · rw [if_pos hout] at h ⊢
    obtain ⟨rfl,rfl⟩ := Prod.mk.inj (Option.some.inj h)
    exact ⟨rfl,rfl,Open.refl p⟩
  rw [if_neg hout] at h ⊢
  by_cases hpde : ¬Present (p.word (p.cr3 / pageSize) pdidx)
  · rw [if_pos hpde] at h ⊢
    obtain ⟨rfl,rfl⟩ := Prod.mk.inj (Option.some.inj h)
    exact ⟨rfl,rfl,Open.refl p⟩
  rw [if_neg hpde] at h ⊢
  simp only [Option.bind_eq_bind,Option.bind_eq_some_iff,Prod.exists] at h
  obtain ⟨pt,p₁,h₁,h⟩ := h
  have ho₁ := (Open.refl p).alloc4k h₁
  obtain ⟨-,-,rfl⟩ := alloc4k_eq h₁
  rw [get_map4k_self,div_page,map4k_toFrames] at h
  by_cases hno : (allocFrame p.bitmap).1 = noFrame
  · rw [if_pos hno] at h ⊢
    obtain ⟨rfl,rfl⟩ := Prod.mk.inj (Option.some.inj h)
    exact ⟨by simp,by simp,ho₁.free4k⟩
  rw [if_neg hno] at h ⊢
  simp only [Option.bind_eq_some_iff,Prod.exists] at h
  obtain ⟨src,p₂,h₂,win,p₃,h₃,b',p₄,h₄,h⟩ := h
  obtain ⟨rfl,rfl⟩ := Prod.mk.inj (Option.some.inj h)
  obtain ⟨hmap,hcr3,ho⟩ := moved_frames h₂ h₃ h₄
  have ho' := Open.free4k (ho₁.congr (r :=
    { p.map4k pt _ with bitmap := (allocFrame p.bitmap).2 }) rfl)
  rw [free4k_cr3] at hcr3
  refine ⟨?_,hcr3,ho'.trans ho⟩
  rw [free4k_toFrames] at hmap
  simp only [Kernel.spaceOf,free4k_cr3,map4k_cr3] at hmap
  rw [Kernel.spaceOf]
  exact congrArg (fun r : Bool × Frames => (true,r.2)) hmap

/-- Windows that were free are free again. -/
theorem Open.freeWindows (h : Open p q []) (hw : FreeWindows 512 p) : FreeWindows 512 q := by
  obtain ⟨s,hs,t,ht,hne,hfs,hft⟩ := hw
  exact ⟨s,hs,t,ht,hne,h.free s hs List.not_mem_nil hfs,h.free t ht List.not_mem_nil hft⟩

/-- A turn of the inner loop returns when two windows are free. -/
theorem cloneEntry_returns (h : FreeWindows 512 p) (dir dst startVA rangeSize pdidx ptidx : ℕ) :
    ∃ b q,Kernel.cloneEntry dir dst startVA rangeSize pdidx p ptidx = some (b,q) := by
  rw [Kernel.cloneEntry]
  dsimp only
  split_ifs
  · exact ⟨_,_,rfl⟩
  · obtain ⟨pt,-,hpt⟩ := h.one.alloc4k (by decide) (p.get dir pdidx / pageSize * pageSize)
    have ho := (Open.refl p).alloc4k hpt
    simp only [hpt,Option.bind_eq_bind,Option.bind_some]
    split_ifs
    · exact ⟨_,_,rfl⟩
    · generalize p.map4k pt (p.get dir pdidx / pageSize * pageSize) = p₁ at ho
      have ho' := Open.free4k (ho.congr (r := { p₁ with bitmap := (allocFrame p₁.bitmap).2 }) rfl)
      generalize Kernel.free4k { p₁ with bitmap := (allocFrame p₁.bitmap).2 } pt = p₂ at ho'
      have hw := ho'.freeWindows h
      obtain ⟨src,-,hsrc⟩ := hw.one.alloc4k (by decide) (p₁.get pt ptidx / pageSize * pageSize)
      obtain ⟨win,-,hwin⟩ := (hw.map4k src (p₁.get pt ptidx / pageSize * pageSize)).alloc4k
        (by decide) (allocFrame p₁.bitmap).1
      have ho₂ := ((Open.refl p₂).alloc4k hsrc).alloc4k hwin
      simp only [hsrc,hwin,Option.bind_some]
      generalize (p₂.map4k src (p₁.get pt ptidx / pageSize * pageSize)).map4k win
        (allocFrame p₁.bitmap).1 = p₃ at ho₂
      have ho₃ := Open.free4k (Open.free4k (ho₂.congr (r := p₃.move win src) rfl))
      obtain ⟨s,hs,t,ht,hfree⟩ := ho₃.freeWindows hw
      obtain ⟨b,q,hq⟩ := mapPage_returns ⟨s,by omega,t,by omega,hfree⟩ dst
        (pdidx * largePageSize + ptidx * pageSize) (allocFrame p₁.bitmap).1
        ((p₁.get pt ptidx).testBit 2) ((p₁.get pt ptidx).testBit 1)
      rw [hq]
      exact ⟨true,q,rfl⟩
  · exact ⟨_,_,rfl⟩

/-- During the call the directory in use is behind its window, and two windows are free. -/
structure Within (cr3 dir : ℕ) (p : Kernel) : Prop where
  /-- The directory in use. -/
  same : p.cr3 = cr3
  /-- Its window. -/
  window : p.kernel4kPT dir = cr3 ||| 3
  /-- Two more are free. -/
  free : FreeWindows 512 p

/-- A turn of the inner loop returns and does what it does on frames. -/
theorem cloneEntry_within {cr3 : ℕ} (h : Within cr3 dir p) (hdst : p.spaceOf dst = dst) :
    ∃ b q,Kernel.cloneEntry dir dst startVA rangeSize pdidx p ptidx = some (b,q) ∧
      cloneEntry cr3 dst startVA rangeSize pdidx p.toFrames ptidx = (b,q.toFrames) ∧
      Within cr3 dir q := by
  obtain ⟨b,q,hq⟩ := cloneEntry_returns h.free dir dst startVA rangeSize pdidx ptidx
  have hdir := h.window
  rw [← h.same] at hdir
  obtain ⟨hf,hcr3,ho⟩ := cloneEntry_frames hdir hq
  rw [h.same,hdst] at hf
  refine ⟨b,q,hq,hf,hcr3.trans h.same,?_,ho.freeWindows h.free⟩
  rw [ho.busy dir (by rw [hdir]; exact present_lor_three _),h.window]

/-- Three windows of the first half are free. -/
def ThreeWindows (p : Kernel) : Prop :=
  ∃ s < 512,¬Present (p.kernel4kPT s) ∧ ∃ t < 512,¬Present (p.kernel4kPT t) ∧
    ∃ u < 512,¬Present (p.kernel4kPT u) ∧ s ≠ t ∧ t ≠ u ∧ s ≠ u

/-- Two are left when one is taken. -/
theorem ThreeWindows.map4k (h : ThreeWindows p) (slot pa : ℕ) :
    FreeWindows 512 (p.map4k slot pa) := by
  obtain ⟨s,hs,hfs,t,ht,hft,u,hu,hfu,hst,htu,hsu⟩ := h
  have hother : ∀ i,i ≠ slot → ¬Present (p.kernel4kPT i) →
      ¬Present ((p.map4k slot pa).kernel4kPT i) := by
    intro i hi hfree
    rw [Kernel.map4k]
    simpa [hi] using hfree
  by_cases h₁ : s = slot
  · exact ⟨t,ht,u,hu,htu,hother t (by omega) hft,hother u (by omega) hfu⟩
  · by_cases h₂ : t = slot
    · exact ⟨s,hs,u,hu,hsu,hother s h₁ hfs,hother u (by omega) hfu⟩
    · exact ⟨s,hs,t,ht,hst,hother s h₁ hfs,hother t h₂ hft⟩

/-- CloneRange in terms of its loop. -/
theorem kernel_cloneRange_eq (p : Kernel) (dstPd srcPd startVA rangeSize : ℕ) :
    p.cloneRange dstPd srcPd startVA rangeSize = (p.alloc4k p.cr3).bind fun w =>
      (loopM (Kernel.cloneTable w.1 (p.spaceOf dstPd) startVA rangeSize)
        (List.range' (startVA / largePageSize)
          ((startVA + rangeSize + largePageSize - 1) % 2 ^ 32 / largePageSize -
            startVA / largePageSize)) w.2).bind fun r => some (r.2.free4k w.1) := by
  rw [Kernel.cloneRange]
  rfl

/-- The loop over the directory returns and does what it does on frames. -/
theorem cloneTables_within {cr3 : ℕ} (h : Within cr3 dir p)
    (hdst : ∀ q : Kernel,q.cr3 = cr3 → q.spaceOf dst = dst) (l : List ℕ) :
    ∃ b q,loopM (Kernel.cloneTable dir dst startVA rangeSize) l p = some (b,q) ∧
      loop (cloneTable cr3 dst startVA rangeSize) l p.toFrames = (b,q.toFrames) ∧
      Within cr3 dir q :=
  loopM_frames (fun _ _ hq => loopM_frames
    (fun _ _ hq' => cloneEntry_within hq' (hdst _ hq'.same)) _ hq) l h

/-- CloneRange returns when three windows are free, and does what it does on frames. -/
theorem cloneRange_frames (h : ThreeWindows p) (dstPd srcPd startVA rangeSize : ℕ) :
    ∃ b q,p.cloneRange dstPd srcPd startVA rangeSize = some q ∧
      cloneRange p.toFrames p.cr3 (p.spaceOf dstPd) startVA rangeSize = (b,q.toFrames) := by
  have hone : FreeWindow 512 p := by
    obtain ⟨s,hs,hfs,-⟩ := h
    exact ⟨s,hs,hfs⟩
  obtain ⟨dir,-,hdir⟩ := hone.alloc4k (by decide) p.cr3
  have hwithin : Within p.cr3 dir (p.map4k dir p.cr3) :=
    ⟨rfl,by simp [Kernel.map4k],h.map4k dir p.cr3⟩
  rw [kernel_cloneRange_eq,cloneRange,hdir,Option.bind_some]
  dsimp only
  generalize List.range' (startVA / largePageSize)
    ((startVA + rangeSize + largePageSize - 1) % 2 ^ 32 / largePageSize -
      startVA / largePageSize) = l
  obtain ⟨b,q,hq,hf,-⟩ := @cloneTables_within _ dir (p.spaceOf dstPd) startVA rangeSize
    p.cr3 hwithin (fun q hq => spaceOf_of_cr3 hq dstPd) l
  refine ⟨b,q.free4k dir,?_,?_⟩
  · rw [hq,Option.bind_some]
  · rw [free4k_toFrames]
    exact hf

end Frames

/-- The call of CloneRange in some state. -/
def callOf (p : Kernel) (dstPd srcPd startVA rangeSize : ℕ) : Call where
  before := p.toFrames
  cr3 := p.cr3
  dst := p.spaceOf dstPd
  src := p.spaceOf srcPd
  startVA := startVA
  rangeSize := rangeSize

/-- For every memory, all address spaces and every range: CloneRange returns, and it has cloned
the range and lost no frame exactly when the call fits. -/
theorem cloneRange_right_iff {p : Kernel} {spaces : List ℕ} {dstPd srcPd startVA rangeSize : ℕ}
    (hwin : ThreeWindows p) (hr : (callOf p dstPd srcPd startVA rangeSize).Ready spaces) :
    ∃ q,p.cloneRange dstPd srcPd startVA rangeSize = some q ∧
      ((callOf p dstPd srcPd startVA rangeSize).Right q.toFrames ↔
        (callOf p dstPd srcPd startVA rangeSize).Fits) := by
  obtain ⟨b,q,hq,hf⟩ := cloneRange_frames hwin dstPd srcPd startVA rangeSize
  obtain ⟨r,g,hrun,hiff⟩ := right_iff hr
  rw [Call.run] at hrun
  obtain ⟨-,rfl⟩ := Prod.mk.inj (hf.symm.trans hrun)
  exact ⟨q,hq,hiff⟩

/-- Two address spaces, in frames 1 and 2. The one in use maps its second page to frame 4. -/
def twoSpaces : Kernel where
  word := fun frame i =>
    if (frame = 1 ∨ frame = 2) ∧ 768 ≤ i ∧ i < 1024 then i * 4096 + 3
    else if frame = 1 ∧ i = 0 then 0x3007
    else if frame = 3 ∧ i = 1 then 0x4007
    else if frame = 4 then i else 0
  bitmap :=
    { bitCount := 1056
      bits := fun d => if d = 0 then 31 else if d < 24 then 0 else BitVec.allOnes 32
      ones := 0 }
  kernel4kPT := fun _ => 0
  kernelPageDir := fun _ => 0
  cr3 := 0x1000

/-- The entries of the two directories. -/
theorem pde_twoSpaces {as : ℕ} (hs : as ∈ [0x1000,0x2000]) (k : ℕ) :
    pde twoSpaces.toFrames as k = if 768 ≤ k ∧ k < 1024 then k * 4096 + 3
      else if as = 0x1000 ∧ k = 0 then 0x3007 else 0 := by
  have hcases : as = 0x1000 ∨ as = 0x2000 := by simpa using hs
  have hword : ∀ i,twoSpaces.word 1 i = if 768 ≤ i ∧ i < 1024 then i * 4096 + 3
      else if i = 0 then 0x3007 else 0 := by
    intro i
    simp [twoSpaces]
  have hword' : ∀ i,twoSpaces.word 2 i = if 768 ≤ i ∧ i < 1024 then i * 4096 + 3 else 0 := by
    intro i
    simp [twoSpaces]
  rcases hcases with rfl | rfl
  · rw [pde,show 0x1000 / pageSize = 1 from rfl,hword]
    simp
  · rw [pde,show 0x2000 / pageSize = 2 from rfl,hword']
    simp

/-- Their page tables. -/
theorem table_twoSpaces {as k : ℕ} (hs : as ∈ [0x1000,0x2000])
    (hp : Present (pde twoSpaces.toFrames as k)) :
    (768 ≤ k ∧ k < 1024 ∧ table twoSpaces.toFrames as k = k) ∨
      (as = 0x1000 ∧ k = 0 ∧ table twoSpaces.toFrames as k = 3) := by
  have hpde := pde_twoSpaces hs k
  rw [hpde] at hp
  split_ifs at hp with hk hz
  · rw [if_pos hk] at hpde
    refine .inl ⟨hk.1,hk.2,?_⟩
    rw [table,hpde,pageSize]
    omega
  · rw [if_neg hk,if_pos hz] at hpde
    refine .inr ⟨hz.1,hz.2,?_⟩
    rw [table,hpde,pageSize]
  · exact absurd hp not_present_zero

/-- The entries of the page tables: all but one are empty. -/
theorem pte_twoSpaces {as page : ℕ} (hs : as ∈ [0x1000,0x2000])
    (hp : Present (pde twoSpaces.toFrames as (page / 1024))) :
    pte twoSpaces.toFrames as page = if as = 0x1000 ∧ page = 1 then 0x4007 else 0 := by
  rw [pte]
  rcases table_twoSpaces hs hp with ⟨hl,hu,htable⟩ | ⟨has,hk,htable⟩
  · have hout : ¬(as = 0x1000 ∧ page = 1) := by omega
    have hword : twoSpaces.word (page / 1024) (page % 1024) = 0 := by
      have h₁ : ¬((page / 1024 = 1 ∨ page / 1024 = 2) ∧ 768 ≤ page % 1024 ∧ page % 1024 < 1024) := by
        omega
      have h₂ : ¬(page / 1024 = 1 ∧ page % 1024 = 0) := by omega
      have h₃ : ¬(page / 1024 = 3 ∧ page % 1024 = 1) := by omega
      have h₄ : ¬page / 1024 = 4 := by omega
      simp only [twoSpaces,if_neg h₁,if_neg h₂,if_neg h₃,if_neg h₄]
    rw [htable,if_neg hout,hword]
  · have hword : twoSpaces.word 3 (page % 1024) = if page % 1024 = 1 then 0x4007 else 0 := by
      simp [twoSpaces]
    rw [htable,hword]
    by_cases hpage : page = 1
    · rw [if_pos (by omega),if_pos ⟨has,hpage⟩]
    · rw [if_neg (by omega),if_neg fun h => hpage h.2]

/-- Frames in use. -/
theorem used_twoSpaces {j : ℕ} (h : j < 5 ∨ 768 ≤ j ∧ j < 1056) :
    twoSpaces.bitmap.getBit j = true := by
  have hcount : twoSpaces.bitmap.bitCount = 1056 := rfl
  rw [Bitmap.getBit,if_neg (by omega)]
  rcases h with hlow | ⟨hl,hu⟩
  · have hzero : j / 32 = 0 := by omega
    have hall : ∀ i < 5,(twoSpaces.bitmap.bits 0).getLsbD i = true := by decide
    rw [hzero,Nat.mod_eq_of_lt (by omega)]
    exact hall j hlow
  · have hbits : twoSpaces.bitmap.bits (j / 32) = BitVec.allOnes 32 :=
      (if_neg (by omega)).trans (if_neg (by omega))
    rw [hbits,BitVec.getLsbD_allOnes]
    exact decide_eq_true (Nat.mod_lt _ (by decide))

theorem sound_twoSpaces : Sound twoSpaces.toFrames [0x1000,0x2000] := by
  have hdir : ∀ as ∈ [0x1000,0x2000],as / pageSize < 3 ∧ 0 < as / pageSize := by decide
  have hused : ∀ {as k},as ∈ [0x1000,0x2000] → Present (pde twoSpaces.toFrames as k) →
      twoSpaces.bitmap.getBit (table twoSpaces.toFrames as k) = true := by
    intro as k hs hp
    rcases table_twoSpaces hs hp with ⟨hl,hu,htable⟩ | ⟨-,-,htable⟩
    · exact used_twoSpaces (by omega)
    · exact used_twoSpaces (by omega)
  have hne : ∀ {as as' k},as ∈ [0x1000,0x2000] → as' ∈ [0x1000,0x2000] →
      Present (pde twoSpaces.toFrames as k) → table twoSpaces.toFrames as k ≠ as' / pageSize := by
    intro as as' k hs hs' hp
    have := hdir as' hs'
    rcases table_twoSpaces hs hp with ⟨hl,hu,htable⟩ | ⟨-,-,htable⟩
    · omega
    · omega
  have huser : ∀ {as k},as ∈ [0x1000,0x2000] → k < userTables →
      Present (pde twoSpaces.toFrames as k) → as = 0x1000 ∧ k = 0 := by
    intro as k hs hk hp
    have hlt : userTables = 768 := rfl
    rcases table_twoSpaces hs hp with ⟨hl,-,-⟩ | ⟨has,hk0,-⟩
    · omega
    · exact ⟨has,hk0⟩
  refine ⟨⟨by decide,?_,?_,?_,?_,fun hs _ hp => hused hs hp,fun hs _ hp hs' => hne hs hs' hp,?_,?_⟩,
    ⟨by decide,?_,?_,?_,fun hs _ hp => hused hs hp,fun hs hs' _ hp => hne hs hs' hp,?_,?_⟩⟩
  · decide
  · intro as hs
    exact used_twoSpaces (.inl (by have := hdir as hs; omega))
  · intro as k hs hk hp
    have hlt : userTables = 768 := rfl
    rw [pde_twoSpaces hs] at hp ⊢
    split_ifs at hp ⊢ with h₁ h₂
    · exact absurd h₁ (by omega)
    · exact absurd (by decide) hp
    · rfl
  · intro as k hs hk hp
    obtain ⟨rfl,rfl⟩ := huser hs hk hp
    decide
  · intro as k as' k' hs hk hp hs' hk' hp' _
    obtain ⟨rfl,rfl⟩ := huser hs hk hp
    obtain ⟨rfl,rfl⟩ := huser hs' hk' hp'
    exact ⟨rfl,rfl⟩
  · intro as k hs hk hp
    obtain ⟨rfl,rfl⟩ := huser hs hk hp
    exact ⟨1,by decide,by decide⟩
  · intro as hs
    exact used_twoSpaces (.inl (by have := hdir as hs; omega))
  · intro as k hs hl hu
    have hlt : userTables = 768 := rfl
    rw [pde_twoSpaces hs,if_pos ⟨by omega,hu⟩,Present]
    omega
  · intro as as' k hs hs' hl hu
    have hlt : userTables = 768 := rfl
    rw [pde_twoSpaces hs,pde_twoSpaces hs',if_pos ⟨by omega,hu⟩,if_pos ⟨by omega,hu⟩]
  · intro as as' k k' hs hs' _ _ hp hp' heq
    rcases table_twoSpaces hs hp with ⟨hl,-,ht⟩ | ⟨-,hk,ht⟩
    · rcases table_twoSpaces hs' hp' with ⟨hl',-,ht'⟩ | ⟨-,hk',ht'⟩
      · omega
      · omega
    · rcases table_twoSpaces hs' hp' with ⟨hl',-,ht'⟩ | ⟨-,hk',ht'⟩
      · omega
      · omega
  · intro as page e hs _ he
    obtain ⟨hp,-,hframe,-⟩ := mapped_entries he
    rw [hframe,pte_twoSpaces hs hp,pageSize]
    split_ifs
    · decide
    · decide

/-- A call that clones from the first space into the second one. -/
theorem ready_twoSpaces (startVA rangeSize : ℕ) :
    (callOf twoSpaces 0x2000 0x1000 startVA rangeSize).Ready [0x1000,0x2000] := by
  have hframe : ∀ as ∈ [0x1000,0x2000],∀ page,
      Present (pde twoSpaces.toFrames as (page / 1024)) →
        pte twoSpaces.toFrames as page / pageSize = 0 ∨
          pte twoSpaces.toFrames as page / pageSize = 4 := by
    intro as hs page hp
    rw [pte_twoSpaces hs hp]
    split_ifs
    · exact .inr (by decide)
    · exact .inl (by decide)
  have hdst : twoSpaces.spaceOf 0x2000 ∈ [0x1000,0x2000] := by decide
  have hsrc : twoSpaces.spaceOf 0x1000 ∈ [0x1000,0x2000] := by decide
  refine ⟨sound_twoSpaces,List.mem_cons_self,hdst,hsrc,?_,?_⟩
  · intro as hs page _ hp _
    rcases hframe as hs page hp with heq | heq
    · exact used_twoSpaces (.inl (by rw [show (callOf twoSpaces 0x2000 0x1000 startVA
        rangeSize).before = twoSpaces.toFrames from rfl,heq]; decide))
    · exact used_twoSpaces (.inl (by rw [show (callOf twoSpaces 0x2000 0x1000 startVA
        rangeSize).before = twoSpaces.toFrames from rfl,heq]; decide))
  · intro as hs page _ hp as' hs'
    have hdir : ∀ as ∈ [0x1000,0x2000],as / pageSize < 3 ∧ 0 < as / pageSize := by decide
    have hd := hdir as' hs'
    have hcases := hframe as hs page hp
    refine ⟨?_,?_⟩
    · show pte twoSpaces.toFrames as page / pageSize ≠ as' / pageSize
      omega
    · intro k hk hpk
      show pte twoSpaces.toFrames as page / pageSize ≠ table twoSpaces.toFrames as' k
      rcases table_twoSpaces hs' hpk with ⟨hl,-,ht⟩ | ⟨-,-,ht⟩
      · omega
      · omega

section TwoSpaces

variable {as startVA rangeSize page : ℕ}

/-- One page is mapped. -/
theorem walk_twoSpaces (hs : as ∈ [0x1000,0x2000]) : walk twoSpaces.toFrames as page =
    if as = 0x1000 ∧ page = 1 then some ⟨4,true,true⟩ else none := by
  by_cases heq : as = 0x1000 ∧ page = 1
  · obtain ⟨rfl,rfl⟩ := heq
    rw [if_pos ⟨rfl,rfl⟩]
    decide
  · rw [if_neg heq]
    by_cases hp : Present (pde twoSpaces.toFrames as (page / 1024))
    · rw [walk_pte hp,pte_twoSpaces hs hp,if_neg heq]
      exact if_neg not_present_zero
    · exact walk_of_not_present rfl hp

/-- The pages that the loop comes to, when they are in the first page table. -/
theorem visited_twoSpaces (hend : startVA + rangeSize ≤ 0x400000) :
    page ∈ (callOf twoSpaces 0x2000 0x1000 startVA rangeSize).visited ↔
      startVA ≤ page * pageSize ∧ page * pageSize < startVA + rangeSize := by
  rw [Call.visited,Finset.mem_filter,Finset.mem_range]
  have hmod : (startVA + rangeSize) % 2 ^ 32 = startVA + rangeSize := Nat.mod_eq_of_lt (by omega)
  constructor
  · rintro ⟨-,-,⟨hl,hu⟩,-⟩
    exact ⟨hl,by rw [← hmod]; exact hu⟩
  · rintro ⟨hl,hu⟩
    have hpage : page < 1024 := by
      rw [pageSize] at hu
      omega
    have hzero : page / 1024 = 0 := by omega
    rw [hzero]
    refine ⟨by rw [allPages]; omega,?_,⟨hl,by rw [← hmod] at hu; exact hu⟩,?_⟩
    · show 0 < (startVA + rangeSize + largePageSize - 1) % 2 ^ 32 / largePageSize
      rw [largePageSize]
      omega
    · show Present (pde twoSpaces.toFrames 0x1000 0)
      decide

/-- A page needs at most two frames. -/
theorem Call.need_le (c : Call) (A : Finset ℕ) : c.need A ≤ 2 * A.card := by
  have himage : (A.image (· / 1024)).card ≤ A.card := Finset.card_image_le
  have hfilter := Finset.card_filter_le (A.image (· / 1024))
    fun k => ¬Present (pde c.before c.dst k)
  rw [Call.need]
  omega

theorem clearCount_twoSpaces : 5 ≤ clearCount twoSpaces.bitmap := by
  have hsub : ({5,6,7,8,9} : Finset ℕ) ⊆
      (Finset.range twoSpaces.bitmap.bitCount).filter fun j => twoSpaces.bitmap.getBit j = false := by
    intro j hj
    rw [Finset.mem_filter,Finset.mem_range]
    revert hj
    revert j
    decide
  exact Finset.card_le_card hsub

/-- There are frames for all pages of a range of two pages. -/
theorem copied_twoSpaces (hend : startVA + rangeSize ≤ 0x400000) {A : Finset ℕ} (hA : A.card ≤ 2)
    (hsub : ∀ page,startVA ≤ page * pageSize → page * pageSize < startVA + rangeSize → page ∈ A) :
    (callOf twoSpaces 0x2000 0x1000 startVA rangeSize).copied =
      (callOf twoSpaces 0x2000 0x1000 startVA rangeSize).visited := by
  refine Finset.filter_true_of_mem fun x _ => ?_
  have hcard : ((callOf twoSpaces 0x2000 0x1000 startVA rangeSize).visited.filter (· ≤ x)).card ≤
      A.card := by
    refine Finset.card_le_card fun y hy => ?_
    obtain ⟨hl,hu⟩ := (visited_twoSpaces hend).mp (Finset.mem_filter.mp hy).1
    exact hsub y hl hu
  have hneed := Call.need_le (callOf twoSpaces 0x2000 0x1000 startVA rangeSize)
    ((callOf twoSpaces 0x2000 0x1000 startVA rangeSize).visited.filter (· ≤ x))
  have hclear := clearCount_twoSpaces
  show _ ≤ clearCount twoSpaces.bitmap
  omega

/-- There are frames for all pages of the source. -/
theorem enough_twoSpaces : (callOf twoSpaces 0x2000 0x1000 startVA rangeSize).Enough := by
  have hcard : (callOf twoSpaces 0x2000 0x1000 startVA rangeSize).sourcePages.card ≤
      ({1} : Finset ℕ).card := by
    refine Finset.card_le_card fun y hy => ?_
    have hsome : (walk twoSpaces.toFrames 0x1000 y).isSome := (Finset.mem_filter.mp hy).2.2
    rw [walk_twoSpaces (by decide)] at hsome
    split_ifs at hsome with heq
    · exact Finset.mem_singleton.mpr heq.2
    · cases hsome
  have hneed := Call.need_le (callOf twoSpaces 0x2000 0x1000 startVA rangeSize)
    (callOf twoSpaces 0x2000 0x1000 startVA rangeSize).sourcePages
  have hclear := clearCount_twoSpaces
  rw [Finset.card_singleton] at hcard
  show _ ≤ clearCount twoSpaces.bitmap
  omega

end TwoSpaces

theorem threeWindows_twoSpaces : ThreeWindows twoSpaces :=
  ⟨0,by decide,by decide,1,by decide,by decide,2,by decide,by decide,by decide,by decide,by decide⟩

/-- The mapped page is cloned. -/
theorem fits_twoSpaces : (callOf twoSpaces 0x2000 0x1000 0x1000 0x1000).Fits := by
  have hone : ∀ page,0x1000 ≤ page * pageSize → page * pageSize < 0x1000 + 0x1000 → page = 1 := by
    intro page hl hu
    rw [pageSize] at hl hu
    omega
  have hcopied : ∀ page,page ∈ (callOf twoSpaces 0x2000 0x1000 0x1000 0x1000).copied ↔
      page = 1 := by
    intro page
    rw [copied_twoSpaces (A := {1}) (by decide) (by decide)
      fun page hl hu => Finset.mem_singleton.mpr (hone page hl hu),visited_twoSpaces (by decide)]
    constructor
    · rintro ⟨hl,hu⟩
      exact hone page hl hu
    · rintro rfl
      decide
  refine ⟨fun _ => ⟨?_,?_,?_,?_⟩,?_⟩
  · intro x hx
    obtain rfl := (hcopied x).mp hx
    have hwalk : walk twoSpaces.toFrames 0x1000 1 = some ⟨4,true,true⟩ := by decide
    have hpte : pte twoSpaces.toFrames 0x1000 1 = 0x4007 := by decide
    refine ⟨_,hwalk,?_,?_,?_⟩
    · show true = (pte twoSpaces.toFrames 0x1000 1).testBit 2
      rw [hpte]
      decide
    · show true = (pte twoSpaces.toFrames 0x1000 1).testBit 1
      rw [hpte]
      decide
    · intro i _
      show twoSpaces.word (pte twoSpaces.toFrames 0x1000 1 / pageSize) i = twoSpaces.word 4 i
      rw [hpte]
      rfl
  · intro page _ hin _
    exact (hcopied page).mpr (hone page hin.1 hin.2)
  · intro page _ _ _
    show walk twoSpaces.toFrames 0x2000 page = none
    rw [walk_twoSpaces (by decide),if_neg fun h => absurd h.1 (by decide)]
  · refine .inr ⟨by decide,fun x hx => ?_⟩
    rw [(hcopied x).mp hx]
    decide
  · rintro ⟨y,hy,-,hhigh⟩
    have hin : y ∈ (callOf twoSpaces 0x2000 0x1000 0x1000 0x1000).copied := by
      rw [copied_twoSpaces (A := {1}) (by decide) (by decide)
        fun page hl hu => Finset.mem_singleton.mpr (hone page hl hu)]
      exact hy
    have hle := (Finset.mem_filter.mp hin).2
    omega

/-- A range of just the mapped page. -/
theorem cloneRange_right_iff_page : ∃ q,twoSpaces.cloneRange 0x2000 0x1000 0x1000 0x1000 = some q ∧
    (callOf twoSpaces 0x2000 0x1000 0x1000 0x1000).Right q.toFrames := by
  obtain ⟨q,hq,hiff⟩ := cloneRange_right_iff threeWindows_twoSpaces (ready_twoSpaces 0x1000 0x1000)
  exact ⟨q,hq,hiff.mpr fits_twoSpaces⟩

/-- With the page behind it, which the source does not map, the destination gets two pages. -/
theorem absent_page_cloned : ThreeWindows twoSpaces ∧
    (callOf twoSpaces 0x2000 0x1000 0x1000 0x2000).Ready [0x1000,0x2000] ∧
    ∃ q,twoSpaces.cloneRange 0x2000 0x1000 0x1000 0x2000 = some q ∧
      ¬(callOf twoSpaces 0x2000 0x1000 0x1000 0x2000).Right q.toFrames := by
  have hr := ready_twoSpaces 0x1000 0x2000
  refine ⟨threeWindows_twoSpaces,hr,?_⟩
  obtain ⟨b,q,hq,hf⟩ := cloneRange_frames threeWindows_twoSpaces 0x2000 0x1000 0x1000 0x2000
  obtain ⟨r,g,hrun,hiff⟩ := right_iff hr
  rw [Call.run] at hrun
  obtain ⟨-,rfl⟩ := Prod.mk.inj (hf.symm.trans hrun)
  refine ⟨q,hq,fun hright => ?_⟩
  have hin : 2 ∈ (callOf twoSpaces 0x2000 0x1000 0x1000 0x2000).copied := by
    rw [copied_twoSpaces (A := {1,2}) (by decide) (by decide),visited_twoSpaces (by decide)]
    · decide
    · intro page hl hu
      rw [pageSize] at hl hu
      rw [Finset.mem_insert,Finset.mem_singleton]
      omega
  obtain ⟨e,he,-⟩ := ((hiff.mp hright).1 enough_twoSpaces).same 2 hin
  have hnone : walk twoSpaces.toFrames 0x1000 2 = none := by decide
  exact absurd (hnone.symm.trans he) (by simp)

end WootOs.CloneRange
