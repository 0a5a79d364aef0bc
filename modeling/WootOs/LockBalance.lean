import WootOs.KernelLocks

/-!
# Balance of the locks

A call that takes a lock by hand leaves it one hold higher where it forgets to
give it back. Settles says when it does: the condition in it is about the
arguments and the state, not about the run. Under the lock itself a nested call
never waits, so what it leaves is known. From the conditions of the parts comes
the exact condition for each call, and one theorem for all of them.
-/

namespace WootOs.KernelLocks

open CodeLogic DentryCache HandleTable

section Locks

variable {s t u : Kernel} {l : Lock} {A : Type}

/-- The thread does not hold a lock, and its next wait for it ends late. -/
def Late (l : Lock) (s : Kernel) : Prop :=
  s.held l = 0 ∧ ∃ w ws,s.waits l = w :: ws ∧ w.grant = .late

theorem not_late_of_held (h : 0 < s.held l) : ¬Late l s := by
  rintro ⟨h0,-⟩
  omega

theorem raise_ne (held : Lock → ℕ) (l : Lock) : raise held l ≠ held := by
  intro h
  have hl := congrFun h l
  simp [raise] at hl

theorem raise_pos (held : Lock → ℕ) (l : Lock) : 0 < raise held l l := by
  simp [raise]

/-- Code takes a lock, and says so unless its wait ends late. -/
def Locks (c : Code Kernel Bool) (l : Lock) : Prop :=
  ∀ s,Ensures c s fun b t =>
    b = true ∧ ¬Late l s ∧ t.held = raise s.held l ∨
      b = false ∧ (¬Late l s ∧ t.held = s.held ∨ Late l s ∧ t.held = raise s.held l)

theorem resume_held (s : Kernel) (l : Lock) (w : Wait) : (resume s l w).held = s.held := by
  cases l <;> rfl

theorem locks_acquire (l : Lock) : Locks (acquire l) l := by
  intro s b t hrun
  unfold acquire at hrun
  split_ifs at hrun with hheld
  · obtain ⟨rfl,rfl⟩ := Prod.mk.inj (Option.some.inj hrun)
    exact .inl ⟨rfl,not_late_of_held hheld,rfl⟩
  · have h0 : s.held l = 0 := by omega
    cases hw : s.waits l with
    | nil =>
      rw [hw] at hrun
      obtain ⟨rfl,rfl⟩ := Prod.mk.inj (Option.some.inj hrun)
      refine .inl ⟨rfl,?_,rfl⟩
      rintro ⟨-,w,ws,h,-⟩
      cases hw.symm.trans h
    | cons w ws =>
      have hlate : Late l s ↔ w.grant = .late := by
        constructor
        · rintro ⟨-,w',ws',h,hl⟩
          cases hw.symm.trans h
          exact hl
        · exact fun h => ⟨h0,w,ws,hw,h⟩
      rw [hw] at hrun
      rw [hlate]
      cases hg : w.grant with
      | taken =>
        simp only [hg] at hrun
        obtain ⟨rfl,rfl⟩ := Prod.mk.inj (Option.some.inj hrun)
        exact .inl ⟨rfl,by simp,rfl⟩
      | timedOut =>
        simp only [hg] at hrun
        obtain ⟨rfl,rfl⟩ := Prod.mk.inj (Option.some.inj hrun)
        exact .inr ⟨rfl,.inl ⟨by simp,resume_held s l w⟩⟩
      | late =>
        simp only [hg] at hrun
        obtain ⟨rfl,rfl⟩ := Prod.mk.inj (Option.some.inj hrun)
        exact .inr ⟨rfl,.inr ⟨rfl,rfl⟩⟩

/-- A lock that the thread holds is taken once more. -/
theorem acquire_held (hs : 0 < s.held l) :
    acquire l s = some (true,{ s with held := raise s.held l }) := by
  rw [acquire,if_pos hs]

/-- Process::Lock also leaves an errno. -/
theorem locks_lockProcess : Locks lockProcess .process := by
  intro s
  refine ensures_bind.mpr ((locks_acquire .process s).mono fun b t h => ?_)
  rcases h with ⟨rfl,hl,ht⟩ | ⟨rfl,h⟩
  · exact ensures_pure.mpr (.inl ⟨rfl,hl,ht⟩)
  · exact ensures_bind.mpr (ensures_modify.mpr (ensures_pure.mpr (.inr ⟨rfl,h⟩)))

/-- A call leaves the hold counts alone if P, and a lock one hold higher if not. -/
def Settles (l : Lock) (P : Prop) (s t : Kernel) : Prop :=
  P ∧ t.held = s.held ∨ ¬P ∧ t.held = raise s.held l

theorem Settles.iff {P : Prop} (h : Settles l P s t) : t.held = s.held ↔ P := by
  rcases h with ⟨hp,ht⟩ | ⟨hp,ht⟩
  · exact ⟨fun _ => hp,fun _ => ht⟩
  · rw [ht]
    exact ⟨fun h => absurd h (raise_ne _ _),fun h => absurd h hp⟩

theorem Settles.congr {P Q : Prop} (h : Settles l P s t) (hpq : P ↔ Q) : Settles l Q s t := by
  rwa [Settles,← hpq]

/-- The other lock is as it was. -/
theorem Settles.other {P : Prop} {k : Lock} (h : Settles l P s t) (hk : k ≠ l) :
    t.held k = s.held k := by
  rcases h with ⟨-,ht⟩ | ⟨-,ht⟩
  · rw [ht]
  · rw [ht,raise,Function.update_of_ne hk]

/-- A call that leaves a lock one hold higher returns a null pointer then. -/
def Yields {B : Type} (l : Lock) (P : Prop) (s : Kernel) (r : Option B) (t : Kernel) : Prop :=
  P ∧ t.held = s.held ∨ ¬P ∧ r = none ∧ t.held = raise s.held l

theorem Yields.settles {B : Type} {P : Prop} {r : Option B} (h : Yields l P s r t) :
    Settles l P s t := by
  rcases h with h | ⟨hp,-,ht⟩
  · exact .inl h
  · exact .inr ⟨hp,ht⟩

theorem Yields.congr {B : Type} {P Q : Prop} {r : Option B} (h : Yields l P s r t)
    (hpq : P ↔ Q) : Yields l Q s r t := by
  rwa [Yields,← hpq]

/-- A lock that is held once more is given back. -/
theorem ensures_release {held : Lock → ℕ} (hs : s.held = raise held l) :
    Ensures (release l) s fun _ t => t.held = held := by
  refine ensures_modify.mpr ?_
  simp [hs,raise]

/-- The end of a call gives the lock back. -/
theorem ensures_finish {held : Lock → ℕ} {a : A} (hs : s.held = raise held l) :
    Ensures (do release l; return a) s fun _ t => t.held = held :=
  ensures_bind.mpr ((ensures_release hs).mono fun _ _ h => ensures_pure.mpr h)

/-- The wait at the start of a call does not end late, and where it ends with the lock, the
state then meets a condition. -/
def Guarded (c : Code Kernel Bool) (l : Lock) (P : Kernel → Prop) (s : Kernel) : Prop :=
  ¬Late l s ∧ ∀ t,c s = some (true,t) → P t

/-- Under the lock itself there is no wait. -/
theorem guarded_held {P : Kernel → Prop} (hs : 0 < s.held l) :
    Guarded (acquire l) l P s ↔ P { s with held := raise s.held l } := by
  constructor
  · exact fun h => h.2 _ (acquire_held hs)
  · intro hp
    refine ⟨not_late_of_held hs,fun t ht => ?_⟩
    obtain ⟨-,rfl⟩ := Prod.mk.inj (Option.some.inj ((acquire_held hs).symm.trans ht))
    exact hp

/-- A call that starts with a lock, with what the rest of it leaves. -/
theorem guard_ensures {c : Code Kernel Bool} {fail k : Code Kernel A} {P : Kernel → Prop}
    {F : A → Prop} {Q : A → Kernel → Prop} (hc : Locks c l)
    (hfail : ∀ t,Ensures fail t fun a u => F a ∧ u.held = t.held)
    (hk : ∀ t,t.held = raise s.held l → (Guarded c l P s ↔ P t) → Ensures k t Q)
    (hkeep : ∀ a u,F a → Settles l (Guarded c l P s) s u → Q a u) :
    Ensures (do let b ← c; if (!b) = true then fail else k) s Q := by
  refine ensures_bind.mpr fun b t hrun => ?_
  rcases hc s b t hrun with ⟨rfl,hl,ht⟩ | ⟨rfl,h⟩
  · refine hk t ht ⟨fun h => h.2 t hrun,fun hp => ⟨hl,fun t' ht' => ?_⟩⟩
    obtain ⟨-,rfl⟩ := Prod.mk.inj (Option.some.inj (hrun.symm.trans ht'))
    exact hp
  · refine (hfail t).mono fun a u hu => hkeep a u hu.1 ?_
    have hu := hu.2
    rcases h with ⟨hl,ht⟩ | ⟨hl,ht⟩
    · refine .inl ⟨⟨hl,fun t' ht' => ?_⟩,hu.trans ht⟩
      cases hrun.symm.trans ht'
    · exact .inr ⟨fun h => h.1 hl,hu.trans ht⟩

/-- A call is balanced exactly when its wait does not end late and the rest of it gives the
lock back. -/
theorem guard_iff {c : Code Kernel Bool} {fail k : Code Kernel A} {P : Kernel → Prop}
    (hc : Locks c l) (hfail : ∀ t,Ensures fail t fun _ u => u.held = t.held)
    (hk : ∀ t,t.held = raise s.held l → Ensures k t fun _ u => u.held = s.held ↔ P t) :
    Ensures (do let b ← c; if (!b) = true then fail else k) s fun _ u =>
      u.held = s.held ↔ Guarded c l P s :=
  guard_ensures hc (P := P) (F := fun _ => True) (fun t => (hfail t).mono fun _ _ h => ⟨trivial,h⟩)
    (fun t ht hp => (hk t ht).mono fun _ _ hu => hu.trans hp.symm) fun _ _ _ h => h.iff

/-- The rest of a call gives the lock back, or leaves it and returns a null pointer. -/
theorem guard_yields {B : Type} {c : Code Kernel Bool} {k : Code Kernel (Option B)}
    {P : Kernel → Prop} (hc : Locks c l)
    (hk : ∀ t,t.held = raise s.held l → Ensures k t fun r u =>
      P t ∧ u.held = s.held ∨ ¬P t ∧ r = none ∧ u.held = raise s.held l) :
    Ensures (do let b ← c; if (!b) = true then pure none else k) s fun r u =>
      Yields l (Guarded c l P s) s r u := by
  refine guard_ensures hc (P := P) (F := fun r => r = none) (fun t => ensures_pure.mpr ⟨rfl,rfl⟩)
    (fun t ht hp => (hk t ht).mono fun r u hu => ?_) fun r u hr h => ?_
  · rwa [Yields,hp]
  · rcases h with h | ⟨hp,hu⟩
    · exact .inl h
    · exact .inr ⟨hp,hr,hu⟩

/-- The rest of a call gives the lock back. -/
theorem guard_balanced {c : Code Kernel Bool} {fail k : Code Kernel A}
    (hc : Locks c l) (hfail : ∀ t,Ensures fail t fun _ u => u.held = t.held)
    (hk : ∀ t,t.held = raise s.held l → Ensures k t fun _ u => u.held = s.held) :
    Ensures (do let b ← c; if (!b) = true then fail else k) s fun _ u =>
      Settles l (¬Late l s) s u := by
  have hp : Guarded c l (fun _ => True) s ↔ ¬Late l s :=
    ⟨fun h => h.1,fun h => ⟨h,fun _ _ => trivial⟩⟩
  refine guard_ensures hc (P := fun _ => True) (F := fun _ => True)
    (fun t => (hfail t).mono fun _ _ h => ⟨trivial,h⟩) (fun t ht ht' => ?_)
    fun _ _ _ h => h.congr hp
  exact (hk t ht).mono fun _ _ hu => .inl ⟨hp.mp (ht'.mpr trivial),hu⟩

/-- Code that keeps the hold counts, and what comes after it. -/
theorem keep_bind {B : Type} {c : Code Kernel A} {k : A → Code Kernel B} {Q : B → Kernel → Prop}
    (hc : Ensures c s fun _ t => t.held = s.held)
    (hk : ∀ a t,t.held = s.held → Ensures (k a) t Q) : Ensures (c >>= k) s Q :=
  ensures_bind.mpr (hc.mono hk)

/-- A change of anything else. -/
theorem modify_held {f : Kernel → Kernel} (hf : (f s).held = s.held) :
    Ensures (modify f : Code Kernel Unit) s fun _ t => t.held = s.held :=
  ensures_modify.mpr hf

theorem ensures_held {a : A} : Ensures (pure a : Code Kernel A) s fun _ t => t.held = s.held :=
  ensures_pure.mpr rfl

/-- A call that waits at most for a lock keeps the hold counts under it. -/
theorem nested {c : Code Kernel A} {p : Prop}
    (h : Ensures c s fun _ t => Settles l (p → ¬Late l s) s t) (hs : 0 < s.held l) :
    Ensures c s fun _ t => t.held = s.held :=
  h.mono fun _ _ ht => ht.iff.mpr fun _ => not_late_of_held hs

/-- A call that waits for a lock keeps the hold counts under it. -/
theorem nested_always {c : Code Kernel A}
    (h : Ensures c s fun _ t => Settles l (¬Late l s) s t) (hs : 0 < s.held l) :
    Ensures c s fun _ t => t.held = s.held :=
  h.mono fun _ _ ht => ht.iff.mpr (not_late_of_held hs)

end Locks

/-! ### The caches -/

section Caches

variable {s t : Kernel} {A : Type}

/-- A null pointer is left alone. -/
theorem settles_of_isSome {d : Option ℕ} {l : Lock} {c : Code Kernel A} (hd : d.isSome)
    (h : Ensures c s fun _ t => Settles l (¬Late l s) s t) :
    Ensures c s fun _ t => Settles l (d.isSome → ¬Late l s) s t :=
  h.mono fun _ _ ht => ht.congr ⟨fun h _ => h,fun h => h hd⟩

theorem settles_null {l : Lock} {a : A} {p : Prop} :
    Ensures (pure a : Code Kernel A) s fun _ t =>
      Settles l ((none : Option ℕ).isSome → p) s t :=
  ensures_pure.mpr (.inl ⟨fun h => (by cases h),rfl⟩)

/-- FileSystem::RemoveDEntry and FileSystem::AddDEntry under the mutex. -/
theorem updateCache_held {f : Kernel → Kernel} (hf : ∀ s,(f s).held = s.held)
    (hs : 0 < s.held .fileSystem) :
    Ensures (do let _ ← acquire .fileSystem; modify f; release .fileSystem) s
      fun _ t => t.held = s.held := by
  refine ensures_bind.mpr fun b t hrun => ?_
  obtain ⟨-,rfl⟩ := Prod.mk.inj (Option.some.inj ((acquire_held hs).symm.trans hrun))
  exact ensures_bind.mpr (ensures_modify.mpr (ensures_release (hf _)))

/-- FileSystem::PutINode. -/
theorem putINode_settles (inode : Option ℕ) (s : Kernel) :
    Ensures (putINode inode) s fun _ t =>
      Settles .fileSystem (inode.isSome → ¬Late .fileSystem s) s t := by
  cases inode with
  | none => exact settles_null
  | some i =>
    refine settles_of_isSome rfl (guard_balanced (locks_acquire .fileSystem)
      (fun t => ensures_held) fun t ht => ?_)
    refine ensures_bind.mpr (ensures_get.mpr ?_)
    cases t.inodeCount i with
    | none => exact ensures_stuck
    | some c =>
      refine ensures_bind.mpr (ensures_modify.mpr (ensures_release ?_))
      rw [← ht]
      split_ifs <;> rfl

/-- FileSystem::PutDEntry, up to a number of dentries. -/
theorem putUpTo_settles (fuel : ℕ) : ∀ (d : Option ℕ) (s : Kernel),
    Ensures (putUpTo fuel d) s fun _ t =>
      Settles .fileSystem (d.isSome → ¬Late .fileSystem s) s t := by
  induction fuel with
  | zero =>
    intro d s
    cases d with
    | none =>
      rw [putUpTo]
      exact settles_null
    | some d =>
      rw [putUpTo]
      exact ensures_stuck
  | succ fuel ih =>
    intro d s
    cases d with
    | none =>
      rw [putUpTo]
      exact settles_null
    | some d =>
      rw [putUpTo]
      refine settles_of_isSome rfl (guard_balanced (locks_acquire .fileSystem)
        (fun t => ensures_held) fun t ht => ?_)
      have hpos : 0 < t.held .fileSystem := by
        rw [ht]
        exact raise_pos _ _
      refine ensures_bind.mpr (ensures_get.mpr ?_)
      cases t.dentryCount d with
      | none => exact ensures_stuck
      | some c =>
        refine keep_bind (modify_held rfl) fun _ t₁ h₁ => ensures_ite.mpr ⟨fun _ => ?_,fun _ => ?_⟩
        · -- The destructor: all of it runs under the mutex.
          refine ensures_bind.mpr (ensures_get.mpr ?_)
          have hp₁ : 0 < t₁.held .fileSystem := by rwa [h₁]
          refine keep_bind (updateCache_held (fun _ => rfl) hp₁) fun _ t₂ h₂ => ?_
          have hp₂ : 0 < t₂.held .fileSystem := by rwa [h₂]
          refine keep_bind (nested (putINode_settles _ t₂) hp₂) fun _ t₃ h₃ => ?_
          have hp₃ : 0 < t₃.held .fileSystem := by rwa [h₃]
          refine keep_bind (nested (ih _ t₃) hp₃) fun _ t₄ h₄ => ?_
          refine keep_bind (modify_held rfl) fun _ t₅ h₅ => ensures_release ?_
          rw [h₅,h₄,h₃,h₂,h₁,ht]
        · refine ensures_release ?_
          rw [h₁,ht]

/-- FileSystem::PutDEntry. -/
theorem putDEntry_settles (d : Option ℕ) (s : Kernel) :
    Ensures (putDEntry d) s fun _ t =>
      Settles .fileSystem (d.isSome → ¬Late .fileSystem s) s t :=
  ensures_bind.mpr (ensures_get.mpr (putUpTo_settles _ d s))

/-- FileSystem::GetDEntry. -/
theorem getDEntry_settles (d : ℕ) (s : Kernel) :
    Ensures (getDEntry d) s fun _ t => Settles .fileSystem (¬Late .fileSystem s) s t := by
  refine guard_balanced (locks_acquire .fileSystem) (fun t => ensures_held) fun t ht => ?_
  refine ensures_bind.mpr (ensures_get.mpr (ensures_ite.mpr ⟨fun _ => ?_,fun _ => ?_⟩))
  · exact ensures_finish ht
  · exact keep_bind (modify_held rfl) fun _ u hu => ensures_finish (hu.trans ht)

/-- A reference to a dentry, unless it is a null pointer. -/
theorem getIfAny_settles (d : Option ℕ) (s : Kernel) :
    Ensures (getIfAny d) s fun _ t =>
      Settles .fileSystem (d.isSome → ¬Late .fileSystem s) s t := by
  cases d with
  | none => exact settles_null
  | some d => exact settles_of_isSome rfl (getDEntry_settles d s)

/-- FileSystem::GetINode. -/
theorem getINode_settles (v : Volumes) (inode : INode) (s : Kernel) :
    Ensures (getINode v inode) s fun _ t => Settles .fileSystem (¬Late .fileSystem s) s t := by
  refine guard_balanced (locks_acquire .fileSystem) (fun t => ensures_held) fun t ht => ?_
  refine ensures_bind.mpr (ensures_get.mpr ?_)
  cases t.inodeCache.find? fun i => t.inodes i = inode with
  | some i => exact keep_bind (modify_held rfl) fun _ u hu => ensures_finish (hu.trans ht)
  | none =>
    refine ensures_ite.mpr ⟨fun _ => ensures_finish ht,fun _ => ?_⟩
    exact keep_bind (modify_held rfl) fun _ u hu => ensures_finish (hu.trans ht)

/-- The constructor of DEntry, under the mutex. -/
theorem newDEntry_held (name : Name) (parent inode : Option ℕ) (hs : 0 < s.held .fileSystem) :
    Ensures (newDEntry name parent inode) s fun _ t => t.held = s.held := by
  refine keep_bind (nested (getIfAny_settles parent s) hs) fun got t ht =>
    ensures_bind.mpr (ensures_get.mpr ?_)
  refine keep_bind (modify_held rfl) fun _ u hu => ?_
  have hp : 0 < u.held .fileSystem := by rwa [hu,ht]
  refine keep_bind (updateCache_held (fun _ => rfl) hp) fun _ w hw => ensures_pure.mpr ?_
  rw [hw,hu,ht]

theorem inodeOf_ensures (d : ℕ) (s : Kernel) : Ensures (inodeOf d) s fun r t =>
    t = s ∧ r = (s.dentries d).inode.map s.inodes :=
  ensures_bind.mpr (ensures_get.mpr (ensures_ite.mpr ⟨fun _ => ensures_stuck,
    fun _ => ensures_pure.mpr ⟨rfl,rfl⟩⟩))

/-- The part of LookupDEntry after its first test gives the mutex back. -/
theorem lookupIn_released {held : Lock → ℕ} (v : Volumes) (parent : ℕ) (inode : INode)
    (name : Name) (hs : s.held = raise held .fileSystem) :
    Ensures (lookupIn v parent inode name) s fun _ t => t.held = held := by
  have hp : 0 < s.held .fileSystem := by
    rw [hs]
    exact raise_pos _ _
  refine ensures_bind.mpr (ensures_get.mpr ?_)
  cases s.dentryCache.find? fun d =>
      decide ((s.dentries d).parent = some parent ∧ name = (s.dentries d).name) with
  | some d => exact keep_bind (modify_held rfl) fun _ u hu => ensures_finish (hu.trans hs)
  | none =>
    cases v.lookup inode name with
    | none => exact ensures_finish hs
    | some ino =>
      refine keep_bind (nested_always (getINode_settles v _ s) hp) fun i t ht => ?_
      have hpt : 0 < t.held .fileSystem := by rwa [ht]
      refine keep_bind (newDEntry_held name (some parent) i hpt) fun d u hu => ensures_finish ?_
      rw [hu,ht,hs]

end Caches

/-! ### Files -/

section Files

variable {s t u : Kernel}

/-- A dentry whose inode could be read. -/
def HasINode (d : Option ℕ) (s : Kernel) : Prop :=
  ∃ e,d = some e ∧ (s.dentries e).inode.isSome

/-- What LookupDEntry does with the mutex. -/
theorem lookupLocked_ensures {held : Lock → ℕ} (v : Volumes) (parent : Option ℕ)
    (name : Option Name) (hs : s.held = raise held .fileSystem) :
    Ensures (lookupLocked v parent name) s fun r u =>
      (HasINode parent s ∧ name.isSome) ∧ u.held = held ∨
        ¬(HasINode parent s ∧ name.isSome) ∧ r = none ∧ u.held = raise held .fileSystem := by
  cases parent with
  | none => exact ensures_pure.mpr (.inr ⟨fun h => (by cases h.1.choose_spec.1),rfl,hs⟩)
  | some p =>
    refine ensures_bind.mpr ((inodeOf_ensures p s).mono fun r u h => ?_)
    obtain ⟨rfl,rfl⟩ := h
    cases hi : (u.dentries p).inode with
    | none =>
      refine ensures_pure.mpr (.inr ⟨fun h => ?_,rfl,hs⟩)
      obtain ⟨e,he,hinode⟩ := h.1
      cases he
      simp [hi] at hinode
    | some i =>
      cases name with
      | none => exact ensures_pure.mpr (.inr ⟨fun h => (by cases h.2),rfl,hs⟩)
      | some name =>
        refine (lookupIn_released v p (u.inodes i) name hs).mono fun r w hw => .inl ⟨⟨?_,rfl⟩,hw⟩
        exact ⟨p,rfl,by simp [hi]⟩

/-- FileSystem::LookupDEntry. -/
theorem lookupDEntry_yields (v : Volumes) (parent : Option ℕ) (name : Option Name) (s : Kernel) :
    Ensures (lookupDEntry v parent name) s fun r u =>
      Yields .fileSystem (Guarded (acquire .fileSystem) .fileSystem
        (fun t => HasINode parent t ∧ name.isSome) s) s r u :=
  guard_yields (locks_acquire .fileSystem) fun _ ht => lookupLocked_ensures v parent name ht

/-- A token that File::open can follow from a dentry. -/
def StepClean (d : Option ℕ) (t : Name) (s : Kernel) : Prop :=
  t = dot ∨ t = dotDot ∨ HasINode d s

/-- One token of a path. -/
theorem walkStep_yields (v : Volumes) (d : Option ℕ) (t : Name) (hs : 0 < s.held .fileSystem) :
    Ensures (walkStep v d t) s fun r u => Yields .fileSystem (StepClean d t s) s r u := by
  refine ensures_ite.mpr ⟨fun ht => ?_,fun hdot => ensures_ite.mpr ⟨fun ht => ?_,fun hdots => ?_⟩⟩
  · exact ensures_pure.mpr (.inl ⟨.inl ht,rfl⟩)
  · have hclean : StepClean d t s := .inr (.inl ht)
    cases d with
    | none => exact ensures_stuck
    | some d =>
      refine ensures_bind.mpr ((inodeOf_ensures d s).mono fun _ u h => ensures_bind.mpr
        (ensures_get.mpr ?_))
      obtain ⟨rfl,-⟩ := h
      cases (u.dentries d).parent with
      | none => exact ensures_pure.mpr (.inl ⟨hclean,rfl⟩)
      | some p =>
        refine keep_bind (nested_always (getDEntry_settles p u) hs) fun next w hw => ?_
        have hp : 0 < w.held .fileSystem := by rwa [hw]
        refine keep_bind (nested (putDEntry_settles (some d) w) hp) fun _ x hx => ?_
        exact ensures_pure.mpr (.inl ⟨hclean,hx.trans hw⟩)
  · have hiff : Guarded (acquire .fileSystem) .fileSystem
        (fun t' => HasINode d t' ∧ (some t).isSome) s ↔ StepClean d t s := by
      rw [guarded_held hs]
      exact ⟨fun h => .inr (.inr h.1),fun h => ⟨(h.resolve_left hdot).resolve_left hdots,rfl⟩⟩
    refine ensures_bind.mpr ((lookupDEntry_yields v d (some t) s).mono fun next u hy => ?_)
    rcases hy.congr hiff with ⟨hclean,hu⟩ | ⟨hclean,rfl,hu⟩
    · have hp : 0 < u.held .fileSystem := by rwa [hu]
      refine keep_bind (nested (putDEntry_settles d u) hp) fun _ w hw => ?_
      cases next with
      | none => exact ensures_pure.mpr (.inl ⟨hclean,hw.trans hu⟩)
      | some next => exact ensures_pure.mpr (.inl ⟨hclean,hw.trans hu⟩)
    · have hp : 0 < u.held .fileSystem := by
        rw [hu]
        exact raise_pos _ _
      refine keep_bind (nested (putDEntry_settles d u) hp) fun _ w hw => ?_
      exact ensures_pure.mpr (.inr ⟨hclean,rfl,hw.trans hu⟩)

/-- Each token that File::open comes to can be followed. -/
def WalkClean (v : Volumes) : List Name → Option ℕ → Kernel → Prop
  | [],_,_ => True
  | t :: ts,d,s =>
    StepClean d t s ∧ ∀ d' u,walkStep v d t s = some (some d',u) → WalkClean v ts d' u

/-- The loop over the tokens of a path. -/
theorem walk_yields (v : Volumes) (ts : List Name) : ∀ (d : Option ℕ) (s : Kernel),
    0 < s.held .fileSystem → Ensures (walk v ts d) s fun r u =>
      Yields .fileSystem (WalkClean v ts d s) s r u := by
  induction ts with
  | nil => exact fun d s hs => ensures_pure.mpr (.inl ⟨trivial,rfl⟩)
  | cons t ts ih =>
    intro d s hs
    refine ensures_bind.mpr fun r u hrun => ?_
    rcases walkStep_yields v d t hs r u hrun with ⟨hclean,hu⟩ | ⟨hclean,rfl,hu⟩
    · cases r with
      | none =>
        refine ensures_pure.mpr (.inl ⟨⟨hclean,fun d' u' h => ?_⟩,hu⟩)
        cases hrun.symm.trans h
      | some d' =>
        have hp : 0 < u.held .fileSystem := by rwa [hu]
        refine (ih d' u hp).mono fun r w hw => ?_
        have hiff : WalkClean v ts d' u ↔ WalkClean v (t :: ts) d s := by
          refine ⟨fun h => ⟨hclean,fun e x hx => ?_⟩,fun h => h.2 d' u hrun⟩
          cases hrun.symm.trans hx
          exact h
        rw [Yields,hiff,hu] at hw
        exact hw
    · exact ensures_pure.mpr (.inr ⟨fun h => hclean h.1,rfl,hu⟩)

/-- File::GetSize under the mutex. -/
theorem getSize_held (hs : 0 < s.held .fileSystem) :
    Ensures getSize s fun _ t => t.held = s.held :=
  nested_always (guard_balanced (locks_acquire .fileSystem) (fun _ => ensures_held)
    fun _ ht => ensures_release ht) hs

/-- What File::open does after the loop. -/
theorem finishOpen_held (v : Volumes) (d flags : ℕ) (hs : 0 < s.held .fileSystem) :
    Ensures (finishOpen v d flags) s fun _ t => t.held = s.held := by
  refine ensures_bind.mpr ((inodeOf_ensures d s).mono fun r u h => ?_)
  obtain ⟨rfl,rfl⟩ := h
  cases (u.dentries d).inode with
  | none => exact ensures_stuck
  | some i =>
    refine ensures_ite.mpr ⟨fun _ => ?_,fun _ => ensures_ite.mpr ⟨fun _ => ?_,fun _ => ?_⟩⟩
    · exact keep_bind (nested (putDEntry_settles (some d) u) hs) fun _ w hw => ensures_pure.mpr hw
    · exact keep_bind (getSize_held hs) fun _ w hw => ensures_pure.mpr hw
    · exact ensures_held

/-- File::open can follow the whole path. -/
def OpenClean (v : Volumes) (parent : Option ℕ) (tokens : Option (List Name)) (s : Kernel) :
    Prop :=
  ∀ p ts d u,parent = some p → tokens = some ts → (s.dentries p).inode.isSome →
    getDEntry p s = some (some d,u) → WalkClean v ts (some d) u

/-- File::open. -/
theorem openFrom_yields (v : Volumes) (parent : Option ℕ) (tokens : Option (List Name))
    (flags : ℕ) (hs : 0 < s.held .fileSystem) :
    Ensures (openFrom v parent tokens flags) s fun r u =>
      Yields .fileSystem (OpenClean v parent tokens s) s r u := by
  cases parent with
  | none => exact ensures_pure.mpr (.inl ⟨fun p ts d u h => (by cases h),rfl⟩)
  | some p =>
    refine ensures_bind.mpr ((inodeOf_ensures p s).mono fun r u h => ?_)
    obtain ⟨rfl,rfl⟩ := h
    cases hi : (u.dentries p).inode with
    | none =>
      refine ensures_pure.mpr (.inl ⟨fun q ts d w h _ hinode => ?_,rfl⟩)
      cases h
      simp [hi] at hinode
    | some i =>
      cases tokens with
      | none => exact ensures_pure.mpr (.inl ⟨fun q ts d w _ h => (by cases h),rfl⟩)
      | some ts =>
        refine ensures_bind.mpr fun r w hrun => ?_
        have hw := nested_always (getDEntry_settles p u) hs r w hrun
        cases r with
        | none =>
          refine ensures_pure.mpr (.inl ⟨fun q ts' d w' h _ _ hget => ?_,hw⟩)
          cases h
          cases hrun.symm.trans hget
        | some d =>
          have hiff : WalkClean v ts (some d) w ↔ OpenClean v (some p) (some ts) u := by
            constructor
            · intro h q ts' d' w' hq hts hinode hget
              cases hq
              cases hts
              cases hrun.symm.trans hget
              exact h
            · exact fun h => h p ts d w rfl rfl (by simp [hi]) hrun
          have hp : 0 < w.held .fileSystem := by rwa [hw]
          refine ensures_bind.mpr ((walk_yields v ts (some d) w hp).mono fun r x hx => ?_)
          rw [Yields,hiff,hw] at hx
          rcases hx with ⟨hclean,hx⟩ | ⟨hclean,rfl,hx⟩
          · rcases r with - | - | d'
            · exact ensures_pure.mpr (.inl ⟨hclean,hx⟩)
            · exact ensures_stuck
            · have hpx : 0 < x.held .fileSystem := by rwa [hx]
              exact (finishOpen_held v d' flags hpx).mono fun _ y hy => .inl ⟨hclean,hy.trans hx⟩
          · exact ensures_pure.mpr (.inr ⟨hclean,rfl,hx⟩)

/-- File::open between the calls that take and give back the mutex. -/
theorem openUnder (v : Volumes) (parent : Option ℕ) (tokens : Option (List Name)) (flags : ℕ)
    {held : Lock → ℕ} (hs : s.held = raise held .fileSystem) :
    Ensures (do
      let file ← openFrom v parent tokens flags
      release .fileSystem
      return file) s fun r u =>
        OpenClean v parent tokens s ∧ u.held = held ∨
          ¬OpenClean v parent tokens s ∧ r = none ∧ u.held = raise held .fileSystem := by
  have hp : 0 < s.held .fileSystem := by
    rw [hs]
    exact raise_pos _ _
  refine ensures_bind.mpr ((openFrom_yields v parent tokens flags hp).mono fun r u hu => ?_)
  rw [Yields,hs] at hu
  rcases hu with ⟨hclean,hu⟩ | ⟨hclean,rfl,hu⟩
  · exact (ensures_finish hu).mono fun _ _ h => .inl ⟨hclean,h⟩
  · refine ensures_bind.mpr ((ensures_release hu).mono fun _ w hw => ?_)
    exact ensures_pure.mpr (.inr ⟨hclean,rfl,hw⟩)

/-- File::Open below a dentry. -/
theorem openAt_yields (v : Volumes) (parent : Option ℕ) (tokens : Option (List Name))
    (flags : ℕ) (s : Kernel) :
    Ensures (openAt v parent tokens flags) s fun r u =>
      Yields .fileSystem (Guarded (acquire .fileSystem) .fileSystem
        (OpenClean v parent tokens) s) s r u :=
  guard_yields (locks_acquire .fileSystem) fun _ ht => openUnder v parent tokens flags ht

/-- The dentry and the tokens that File::Open of a path starts with. -/
def origin (s : Kernel) : Target → Option (ℕ × List Name)
  | .fileSystem fs tokens => ((s.roots[fs]?).join).map fun root => (root,tokens)
  | .currentDirectory tokens => s.currentDirectory.map fun cdir => (cdir,tokens)
  | _ => none

/-- File::Open can follow the whole path. -/
def TargetClean (v : Volumes) (target : Target) (s : Kernel) : Prop :=
  ∀ o,origin s target = some o → OpenClean v (some o.1) (some o.2) s

/-- File::Open takes no lock for a path without a token. -/
def OpensClean (v : Volumes) (target : Target) (s : Kernel) : Prop :=
  target = .empty ∨
    Guarded (acquire .fileSystem) .fileSystem (TargetClean v target) s

/-- File::Open of a path. -/
theorem openFile_yields (v : Volumes) (target : Target) (flags : ℕ) (s : Kernel) :
    Ensures (openFile v target flags) s fun r u =>
      Yields .fileSystem (OpensClean v target s) s r u := by
  have hopens {target : Target} (hne : target ≠ .empty) :
      Guarded (acquire .fileSystem) .fileSystem (TargetClean v target) s ↔
        OpensClean v target s :=
    ⟨fun h => .inr h,fun h => h.resolve_left hne⟩
  have hnone {target : Target} {t u : Kernel} {held : Lock → ℕ} {r : Option ℕ}
      (ho : origin t target = none) (hu : u.held = held) :
      TargetClean v target t ∧ u.held = held ∨
        ¬TargetClean v target t ∧ r = none ∧ u.held = raise held .fileSystem :=
    .inl ⟨fun o h => (by cases ho.symm.trans h),hu⟩
  have hsome {target : Target} {t : Kernel} {root : ℕ} {tokens : List Name}
      (ho : origin t target = some (root,tokens)) :
      OpenClean v (some root) (some tokens) t ↔ TargetClean v target t := by
    refine ⟨fun h o ho' => ?_,fun h => h _ ho⟩
    cases ho.symm.trans ho'
    exact h
  cases target with
  | empty => exact ensures_pure.mpr (.inl ⟨.inl rfl,rfl⟩)
  | missing =>
    refine (guard_yields (P := TargetClean v .missing) (locks_acquire .fileSystem)
      fun t ht => ?_).mono fun _ _ h => h.congr (hopens (by simp))
    exact (ensures_finish ht).mono fun _ _ hu => hnone rfl hu
  | absolute =>
    refine (guard_yields (P := TargetClean v .absolute) (locks_acquire .fileSystem)
      fun t ht => ?_).mono fun _ _ h => h.congr (hopens (by simp))
    exact ensures_stuck
  | fileSystem fs tokens =>
    refine (guard_yields (P := TargetClean v (.fileSystem fs tokens)) (locks_acquire .fileSystem)
      fun t ht => ?_).mono fun _ _ h => h.congr (hopens (by simp))
    refine ensures_bind.mpr (ensures_get.mpr ?_)
    cases hroot : (t.roots[fs]?).join with
    | none =>
      exact (ensures_finish ht).mono fun _ _ hu => hnone (by simp [origin,hroot]) hu
    | some root =>
      have ho : origin t (.fileSystem fs tokens) = some (root,tokens) := by simp [origin,hroot]
      rw [← hsome ho]
      exact openUnder v (some root) (some tokens) flags ht
  | currentDirectory tokens =>
    refine (guard_yields (P := TargetClean v (.currentDirectory tokens))
      (locks_acquire .fileSystem) fun t ht => ?_).mono fun _ _ h => h.congr (hopens (by simp))
    refine ensures_bind.mpr (ensures_get.mpr ?_)
    cases hcdir : t.currentDirectory with
    | none =>
      exact (ensures_finish ht).mono fun _ _ hu => hnone (by simp [origin,hcdir]) hu
    | some cdir =>
      have ho : origin t (.currentDirectory tokens) = some (cdir,tokens) := by
        simp [origin,hcdir]
      rw [← hsome ho]
      exact openUnder v (some cdir) (some tokens) flags ht

/-- EXT2 finds its root under the mutex. -/
theorem newExt2_held (v : Volumes) (sblock : SuperBlock) (hs : 0 < s.held .fileSystem) :
    Ensures (newExt2 v sblock) s fun _ t => t.held = s.held := by
  refine ensures_bind.mpr (ensures_get.mpr ?_)
  refine keep_bind (modify_held rfl) fun _ t ht => ensures_ite.mpr ⟨fun _ => ?_,fun _ => ?_⟩
  · exact ensures_pure.mpr ht
  · have hp : 0 < t.held .fileSystem := by rwa [ht]
    refine keep_bind (nested_always (getINode_settles v _ t) hp) fun r u hu => ?_
    cases r with
    | none => exact ensures_pure.mpr (hu.trans ht)
    | some i =>
      have hpu : 0 < u.held .fileSystem := by rwa [hu]
      refine keep_bind (newDEntry_held ['/'] none (some i) hpu) fun d w hw => ?_
      have hpw : 0 < w.held .fileSystem := by rwa [hw]
      have hroot : Ensures (setRoot d) w fun _ x => x.held = w.held :=
        nested_always (guard_balanced (locks_acquire .fileSystem) (fun _ => ensures_held)
          fun _ hx => keep_bind (modify_held rfl) fun _ _ hy => ensures_release (hy.trans hx)) hpw
      exact hroot.mono fun _ x hx => by rw [hx,hw,hu,ht]

/-- EXT2FileSystemType::Detect. -/
theorem detect_iff (v : Volumes) (vol : Option (Option SuperBlock)) (s : Kernel) :
    Ensures (detect v vol) s fun _ t =>
      t.held = s.held ↔ Guarded (acquire .fileSystem) .fileSystem (fun _ => vol.isSome) s := by
  refine guard_iff (locks_acquire .fileSystem) (fun _ => ensures_held) fun t ht => ?_
  rcases vol with - | - | sblock
  · refine ensures_pure.mpr ?_
    rw [ht]
    exact ⟨fun h => absurd h (raise_ne _ _),fun h => (by cases h)⟩
  · exact (ensures_finish ht).mono fun _ _ hu => ⟨fun _ => rfl,fun _ => hu⟩
  · have hp : 0 < t.held .fileSystem := by
      rw [ht]
      exact raise_pos _ _
    have hdone : Ensures (do newExt2 v sblock; release .fileSystem; return 1) t
        fun _ u => u.held = s.held :=
      keep_bind (newExt2_held v sblock hp) fun _ u hu => ensures_finish (hu.trans ht)
    refine Ensures.mono (ensures_ite.mpr ⟨fun _ => ensures_finish ht,fun _ => ensures_ite.mpr
      ⟨fun _ => ensures_finish ht,fun _ => hdone⟩⟩) fun _ u hu => ⟨fun _ => rfl,fun _ => hu⟩

end Files

/-! ### Processes -/

section Processes

variable {s t u : Kernel}

/-- A process has a slot for one more handle. -/
def HasSlot (resized : Bool) (s : Kernel) : Prop :=
  (∃ i < s.handles.currentSize,(s.handles.get i).type = .free) ∨
    (s.handles.upSize resized).1 = true

theorem allocHandleSlot_ensures (handle : Handle ℕ) (resized : Bool) (s : Kernel) :
    Ensures (allocHandleSlot handle resized) s fun res t =>
      (res < 0 ↔ ¬HasSlot resized s) ∧ t.held = s.held ∧ t.waits = s.waits := by
  refine ensures_bind.mpr (ensures_get.mpr (ensures_bind.mpr (ensures_modify.mpr
    (ensures_pure.mpr ⟨?_,rfl,rfl⟩))))
  unfold Table.allocHandleSlot
  cases hf : (List.range s.handles.currentSize).find? fun i =>
      decide ((s.handles.get i).type = .free) with
  | some i =>
    have hi := List.mem_range.mp (List.mem_of_find?_eq_some hf)
    have hfree : (s.handles.get i).type = .free := by
      simpa using List.find?_some hf
    have hslot : HasSlot resized s := .inl ⟨i,hi,hfree⟩
    simp [hslot]
  | none =>
    have hno : ¬∃ i < s.handles.currentSize,(s.handles.get i).type = .free := by
      rintro ⟨i,hi,hfree⟩
      exact absurd (decide_eq_true hfree) (List.find?_eq_none.mp hf i (List.mem_range.mpr hi))
    unfold HasSlot KernelVector.append
    rcases s.handles.upSize resized with ⟨ok,v⟩
    cases ok <;> simp [hno,enomem]

/-- A call that waits for the process lock: what it gives back after the mutex was used. -/
theorem release_iff {P : Prop} (ht : t.held = raise s.held .process)
    (hu : Settles .fileSystem P t u) :
    Ensures (release .process) u fun _ w => w.held = s.held ↔ P := by
  rcases hu with ⟨hp,hu⟩ | ⟨hp,hu⟩
  · exact (ensures_release (hu.trans ht)).mono fun _ _ hw => ⟨fun _ => hp,fun _ => hw⟩
  · refine ensures_modify.mpr ⟨fun h => ?_,fun h => absurd h hp⟩
    have hfs := congrFun h Lock.fileSystem
    simp [hu,ht,raise] at hfs

/-- A process lock that is forgotten. -/
theorem held_ne (ht : t.held = raise s.held .process) (hu : u.held .process = t.held .process) :
    u.held ≠ s.held := by
  intro h
  rw [h,ht] at hu
  simp [raise] at hu

/-- A file that is found, and a slot for its handle or the mutex to close it. -/
def OpensFile (v : Volumes) (filename : Target) (flags : ℕ) (resized : Bool) (s : Kernel) :
    Prop :=
  ∃ f t,openFile v filename flags s = some (some f,t) ∧
    (HasSlot resized t ∨ ¬Late .fileSystem t)

/-- Process::Open. -/
theorem openProcessFile_iff (v : Volumes) (filename : Target) (flags : ℕ) (resized : Bool)
    (s : Kernel) :
    Ensures (openProcessFile v (some filename) flags resized) s fun _ u =>
      u.held = s.held ↔ Guarded lockProcess .process (OpensFile v filename flags resized) s := by
  refine guard_iff locks_lockProcess (fun t => ensures_bind.mpr (ensures_get.mpr ensures_held))
    fun t ht => ensures_bind.mpr fun r u hrun => ?_
  have hu := openFile_yields v filename flags t r u hrun
  cases r with
  | none =>
    refine ensures_bind.mpr (ensures_get.mpr (ensures_pure.mpr ?_))
    refine iff_of_false (held_ne ht (hu.settles.other (by decide))) ?_
    rintro ⟨f,t',hfound,-⟩
    cases hrun.symm.trans hfound
  | some f =>
    have hheld : u.held = t.held := by
      rcases hu with ⟨-,hu⟩ | ⟨-,hnull,-⟩
      · exact hu
      · cases hnull
    have hiff : OpensFile v filename flags resized t ↔ HasSlot resized u ∨ ¬Late .fileSystem u := by
      refine ⟨?_,fun h => ⟨f,u,hrun,h⟩⟩
      rintro ⟨f',t',hfound,h⟩
      cases hrun.symm.trans hfound
      exact h
    rw [hiff]
    refine ensures_bind.mpr ((allocHandleSlot_ensures _ resized u).mono fun res w hw => ?_)
    obtain ⟨hres,hw,hwaits⟩ := hw
    refine ensures_ite.mpr ⟨fun hneg => ?_,fun hpos => ?_⟩
    · refine ensures_bind.mpr ((putDEntry_settles (some f) w).mono fun _ x hx => ?_)
      have hlate : (Option.isSome (some f) → ¬Late .fileSystem w) ↔
          HasSlot resized u ∨ ¬Late .fileSystem u := by
        rw [Late,Late,hw,hwaits]
        exact ⟨fun h => .inr (h rfl),fun h _ => h.resolve_left (hres.mp hneg)⟩
      refine ensures_bind.mpr ((release_iff (hw.trans (hheld.trans ht)) (hx.congr hlate)).mono
        fun _ y hy => ensures_pure.mpr hy)
    · have hslot : HasSlot resized u := not_not.mp fun h => hpos (hres.mpr h)
      exact (ensures_finish (hw.trans (hheld.trans ht))).mono fun _ y hy =>
        ⟨fun _ => .inl hslot,fun _ => hy⟩

/-- A new handle, and the lock only if there is a slot for it. -/
theorem createHandle_iff {handle : Handle ℕ} {resized : Bool}
    (ht : t.held = raise s.held .process) :
    Ensures (do
      let res ← allocHandleSlot handle resized
      if res < 0 then return res
      release .process
      return res) t fun _ u => u.held = s.held ↔ HasSlot resized t := by
  refine ensures_bind.mpr ((allocHandleSlot_ensures handle resized t).mono fun res u hu => ?_)
  obtain ⟨hres,hu,-⟩ := hu
  refine ensures_ite.mpr ⟨fun hneg => ?_,fun hpos => ?_⟩
  · exact ensures_pure.mpr (iff_of_false (held_ne ht (congrFun hu _)) (hres.mp hneg))
  · exact (ensures_finish (hu.trans ht)).mono fun _ _ hw =>
      ⟨fun _ => not_not.mp fun h => hpos (hres.mpr h),fun _ => hw⟩

/-- Process::OpenObject. -/
theorem openObject_iff (obj : Option ℕ) (resized : Bool) (s : Kernel) :
    Ensures (openObject true obj resized) s fun _ u =>
      u.held = s.held ↔ Guarded lockProcess .process (fun _ => obj.isSome) s := by
  refine guard_iff locks_lockProcess (fun t => ensures_bind.mpr (ensures_get.mpr ensures_held))
    fun t ht => ?_
  cases obj with
  | none =>
    exact ensures_pure.mpr (iff_of_false (held_ne ht rfl) (by simp))
  | some obj =>
    refine ensures_bind.mpr ((allocHandleSlot_ensures _ resized t).mono fun res u hu => ?_)
    exact (ensures_finish (hu.2.1.trans ht)).mono fun _ _ hw => ⟨fun _ => rfl,fun _ => hw⟩

/-- A file that is closed needs the mutex. -/
def ClosesFile (handle : BitVec 32) (s : Kernel) : Prop :=
  (s.handles.get handle.toNat).type = .file → (s.handles.get handle.toNat).data.isSome →
    ¬Late .fileSystem s

/-- Process::Close. -/
theorem close_iff (handle : BitVec 32) (putLocked : Bool) (s : Kernel) :
    Ensures (close handle putLocked) s fun _ u =>
      u.held = s.held ↔ Guarded lockProcess .process (ClosesFile handle) s := by
  refine guard_iff locks_lockProcess (fun t => ensures_bind.mpr (ensures_get.mpr ensures_held))
    fun t ht => ensures_bind.mpr (ensures_get.mpr (ensures_bind.mpr (ensures_modify.mpr ?_)))
  have hback {r : ℤ} (hne : (t.handles.get handle.toNat).type ≠ .file) :
      Ensures (do release .process; return r)
        { t with handles := Table.freeHandleSlot t.handles handle }
        fun _ u => u.held = s.held ↔ ClosesFile handle t := by
    have hfree : ({ t with handles := Table.freeHandleSlot t.handles handle } : Kernel).held =
        raise s.held .process := ht
    exact (ensures_finish hfree).mono fun _ _ hu => ⟨fun _ h => absurd h hne,fun _ => hu⟩
  cases hty : (t.handles.get handle.toNat).type with
  | file =>
    refine ensures_bind.mpr ((putDEntry_settles _ _).mono fun _ u hu => ?_)
    have hcloses : ClosesFile handle t ↔
        ((t.handles.get handle.toNat).data.isSome → ¬Late .fileSystem t) :=
      ⟨fun h => h hty,fun h _ => h⟩
    rw [hcloses]
    refine ensures_bind.mpr ((release_iff ht hu).mono fun _ w hw => ensures_pure.mpr hw)
  | thread =>
    refine ensures_bind.mpr (ensures_get.mpr (ensures_ite.mpr ⟨fun _ => ensures_stuck,fun _ => ?_⟩))
    exact hback (by simp [hty])
  | namedObject =>
    exact ensures_ite.mpr ⟨fun _ => ensures_stuck,fun _ => hback (by simp [hty])⟩
  | _ => exact hback (by simp [hty])

/-- Process::GetHandleData. -/
theorem getHandleData_iff (handle : BitVec 32) (type : HandleType) (s : Kernel) :
    Ensures (getHandleData handle type) s fun _ u => u.held = s.held ↔ ¬Late .process s := by
  refine (guard_balanced locks_lockProcess (fun t => ensures_held) fun t ht => ?_).mono
    fun _ _ hu => hu.iff
  refine ensures_bind.mpr (ensures_get.mpr (ensures_ite.mpr ⟨fun _ => ?_,fun _ => ?_⟩))
  · exact keep_bind (modify_held rfl) fun _ _ hu => ensures_finish (hu.trans ht)
  · exact ensures_finish ht

/-- A lock that need not be waited for, or that does not guard the handles, leaves them. -/
theorem acquire_handles {l : Lock} (hl : 0 < s.held l ∨ l = .fileSystem) :
    Ensures (acquire l) s fun _ t => t.handles = s.handles := by
  intro b t hrun
  unfold acquire at hrun
  split_ifs at hrun with hheld
  · obtain ⟨-,rfl⟩ := Prod.mk.inj (Option.some.inj hrun)
    rfl
  · obtain rfl := hl.resolve_left hheld
    split at hrun
    · obtain ⟨-,rfl⟩ := Prod.mk.inj (Option.some.inj hrun)
      rfl
    · split at hrun <;>
      · obtain ⟨-,rfl⟩ := Prod.mk.inj (Option.some.inj hrun)
        rfl

theorem getIfAny_handles (d : Option ℕ) (s : Kernel) :
    Ensures (getIfAny d) s fun _ t => t.handles = s.handles := by
  cases d with
  | none => exact ensures_pure.mpr rfl
  | some d =>
    refine ensures_bind.mpr ((acquire_handles (.inr rfl)).mono fun b t ht => ?_)
    refine ensures_ite.mpr ⟨fun _ => ensures_pure.mpr ht,fun _ => ensures_bind.mpr
      (ensures_get.mpr (ensures_ite.mpr ⟨fun _ => ?_,fun _ => ?_⟩))⟩
    · exact ensures_bind.mpr (ensures_modify.mpr (ensures_pure.mpr ht))
    · exact ensures_bind.mpr (ensures_modify.mpr (ensures_bind.mpr (ensures_modify.mpr
        (ensures_pure.mpr ht))))

/-- Process::AddThread under the process lock. -/
theorem addThread_keeps (i : ℕ) (hs : 0 < s.held .process) :
    Ensures (addThread i) s fun _ t => t.held = s.held ∧ t.handles = s.handles := by
  refine Ensures.and ?_ ?_
  · refine nested_always (guard_balanced locks_lockProcess (fun _ => ensures_held)
      fun _ ht => ?_) hs
    exact keep_bind (modify_held rfl) fun _ _ hu => ensures_release (hu.trans ht)
  · refine ensures_bind.mpr (ensures_bind.mpr ((acquire_handles (.inl hs)).mono fun b t ht => ?_))
    have hrest {b : Bool} {u : Kernel} (hu : u.handles = s.handles) :
        Ensures (if (!b) = true then pure () else do
          modify fun s => { s with threads := s.threads ++ [i] }
          release .process) u fun _ w => w.handles = s.handles :=
      ensures_ite.mpr ⟨fun _ => ensures_pure.mpr hu,fun _ => ensures_bind.mpr
        (ensures_modify.mpr (ensures_modify.mpr hu))⟩
    refine ensures_ite.mpr ⟨fun _ => ensures_pure.mpr (hrest ht),fun _ => ?_⟩
    exact ensures_bind.mpr (ensures_modify.mpr (ensures_pure.mpr (hrest ht)))

/-- Process::NewThread. -/
theorem newThread_iff (resized mapped : Bool) (s : Kernel) :
    Ensures (newThread resized mapped) s fun _ u =>
      u.held = s.held ↔ Guarded lockProcess .process (HasSlot resized) s := by
  refine guard_iff locks_lockProcess (fun t => ensures_bind.mpr (ensures_get.mpr ensures_held))
    fun t ht => ensures_bind.mpr (ensures_get.mpr (ensures_bind.mpr (ensures_modify.mpr ?_)))
  have hp : 0 < t.held .process := by
    rw [ht]
    exact raise_pos _ _
  refine ensures_bind.mpr ((@addThread_keeps { t with nextThread := t.nextThread + 1 } _ hp).mono
    fun _ u hu => ?_)
  have hslot : HasSlot resized t ↔ HasSlot resized u := by
    rw [HasSlot,HasSlot,hu.2]
  rw [hslot]
  cases mapped with
  | true => exact createHandle_iff (hu.1.trans ht)
  | false =>
    refine ensures_bind.mpr ((allocHandleSlot_ensures _ resized u).mono fun res w hw => ?_)
    refine ensures_ite.mpr ⟨fun hneg => ensures_pure.mpr (iff_of_false ?_ (hw.1.mp hneg)),
      fun _ => ensures_stuck⟩
    exact held_ne (hu.1.trans ht) (congrFun hw.2.1 _)

/-- A new process has a slot for its handle, and the mutex for the current directory. -/
def HasRoom (resized : Bool) (s : Kernel) : Prop :=
  HasSlot resized s ∧ (s.currentDirectory.isSome → ¬Late .fileSystem s)

/-- Process::NewProcess. -/
theorem newProcess_iff (cmdline resized : Bool) (s : Kernel) :
    Ensures (newProcess cmdline resized) s fun _ u =>
      u.held = s.held ↔ Guarded lockProcess .process (HasRoom resized) s := by
  refine guard_iff locks_lockProcess (fun t => ensures_bind.mpr (ensures_get.mpr ensures_held))
    fun t ht => ?_
  refine ensures_ite.mpr ⟨fun _ => ensures_stuck,fun _ => ensures_bind.mpr (ensures_get.mpr
    (ensures_bind.mpr (ensures_modify.mpr (ensures_bind.mpr (ensures_get.mpr ?_)))))⟩
  refine ensures_bind.mpr (((getIfAny_settles _ _).and (getIfAny_handles _ _)).mono
    fun cdir u hu => ?_)
  obtain ⟨hu,hhandles⟩ := hu
  have hslot : HasSlot resized t ↔ HasSlot resized u := by
    rw [HasSlot,HasSlot,hhandles]
  refine ensures_bind.mpr ((allocHandleSlot_ensures _ resized u).mono fun res w hw => ?_)
  obtain ⟨hres,hw,-⟩ := hw
  have hprocess : w.held .process = t.held .process :=
    (congrFun hw _).trans (hu.other (by decide))
  refine ensures_ite.mpr ⟨fun hneg => ?_,fun hpos => ?_⟩
  · refine ensures_bind.mpr ((putDEntry_settles cdir w).mono fun _ x hx => ensures_pure.mpr ?_)
    refine iff_of_false (held_ne ht ((hx.other (by decide)).trans hprocess)) fun h => ?_
    exact hres.mp hneg (hslot.mp h.1)
  · have hfree : HasSlot resized t := hslot.mpr (not_not.mp fun h => hpos (hres.mpr h))
    have hroom : HasRoom resized t ↔ (t.currentDirectory.isSome → ¬Late .fileSystem t) :=
      ⟨fun h => h.2,fun h => ⟨hfree,h⟩⟩
    rw [hroom]
    rw [Settles,← hw] at hu
    exact ensures_bind.mpr ((release_iff ht hu).mono fun _ _ hx => ensures_pure.mpr hx)

/-- Process::CreateNamedObjectHandle. -/
theorem createNamedObjectHandle_iff (no : Option ℕ) (resized : Bool) (s : Kernel) :
    Ensures (createNamedObjectHandle no resized) s fun _ u =>
      u.held = s.held ↔ Guarded lockProcess .process (HasSlot resized) s :=
  guard_iff locks_lockProcess (fun _ => ensures_bind.mpr (ensures_get.mpr ensures_held))
    fun _ ht => createHandle_iff ht

end Processes

/-! ### The calls -/

section Calls

variable {s : Kernel}

/-- When a call gives back the locks it takes. -/
def Balances (v : Volumes) : Call → Kernel → Prop
  | .openProcessFile filename flags resized => fun s =>
    ∀ f,filename = some f → Guarded lockProcess .process (OpensFile v f flags resized) s
  | .openObject named obj _ => fun s =>
    named = true → Guarded lockProcess .process (fun _ => obj.isSome) s
  | .close handle _ => Guarded lockProcess .process (ClosesFile handle)
  | .getHandleData _ _ => fun s => ¬Late .process s
  | .newThread resized _ => Guarded lockProcess .process (HasSlot resized)
  | .newProcess _ resized => Guarded lockProcess .process (HasRoom resized)
  | .createNamedObjectHandle _ resized => Guarded lockProcess .process (HasSlot resized)
  | .lookupDEntry parent name =>
    Guarded (acquire .fileSystem) .fileSystem fun t => HasINode parent t ∧ name.isSome
  | .getDEntry _ => fun s => ¬Late .fileSystem s
  | .getINode _ => fun s => ¬Late .fileSystem s
  | .putINode inode => fun s => inode.isSome → ¬Late .fileSystem s
  | .putDEntry d => fun s => d.isSome → ¬Late .fileSystem s
  | .openFile target _ => OpensClean v target
  | .openAt parent tokens _ =>
    Guarded (acquire .fileSystem) .fileSystem (OpenClean v parent tokens)
  | .detect vol => Guarded (acquire .fileSystem) .fileSystem fun _ => vol.isSome

theorem ensures_discard {A : Type} {c : Code Kernel A} {Q : Kernel → Prop}
    (h : Ensures c s fun _ t => Q t) : Ensures (discard c) s fun _ t => Q t :=
  ensures_bind.mpr (h.mono fun _ _ ht => ensures_pure.mpr ht)

/-- A call leaves the hold counts of the process lock and of the file system mutex as they
were exactly when it gives back the locks it takes. -/
theorem run_balanced_iff (v : Volumes) (call : Call) (s : Kernel) :
    Ensures (call.run v) s fun _ t => t.held = s.held ↔ Balances v call s := by
  cases call with
  | openProcessFile filename flags resized =>
    refine ensures_discard ?_
    cases filename with
    | none => exact ensures_pure.mpr (iff_of_true rfl fun f h => by cases h)
    | some f =>
      refine (openProcessFile_iff v f flags resized s).mono fun _ _ h => h.trans ?_
      exact ⟨fun h g hg => (by cases hg; exact h),fun h => h f rfl⟩
  | openObject named obj resized =>
    refine ensures_discard ?_
    cases named with
    | false => exact ensures_pure.mpr (iff_of_true rfl fun h => by cases h)
    | true =>
      exact (openObject_iff obj resized s).mono fun _ _ h => h.trans ⟨fun h _ => h,fun h => h rfl⟩
  | close handle putLocked => exact ensures_discard (close_iff handle putLocked s)
  | getHandleData handle type => exact ensures_discard (getHandleData_iff handle type s)
  | newThread resized mapped => exact ensures_discard (newThread_iff resized mapped s)
  | newProcess cmdline resized => exact ensures_discard (newProcess_iff cmdline resized s)
  | createNamedObjectHandle no resized =>
    exact ensures_discard (createNamedObjectHandle_iff no resized s)
  | lookupDEntry parent name =>
    exact ensures_discard ((lookupDEntry_yields v parent name s).mono fun _ _ h => h.settles.iff)
  | getDEntry d => exact ensures_discard ((getDEntry_settles d s).mono fun _ _ h => h.iff)
  | getINode inode => exact ensures_discard ((getINode_settles v inode s).mono fun _ _ h => h.iff)
  | putINode inode => exact (putINode_settles inode s).mono fun _ _ h => h.iff
  | putDEntry d => exact (putDEntry_settles d s).mono fun _ _ h => h.iff
  | openFile target flags =>
    exact ensures_discard ((openFile_yields v target flags s).mono fun _ _ h => h.settles.iff)
  | openAt parent tokens flags =>
    exact ensures_discard ((openAt_yields v parent tokens flags s).mono
      fun _ _ h => h.settles.iff)
  | detect vol => exact ensures_discard (detect_iff v vol s)

end Calls

/-- Volumes on which nothing can be read. -/
def emptyVolumes : Volumes where
  lookup _ _ := none
  readable _ := false
  mode _ := 0
  resize _ := 0

/-- A thread of a new process, before there is any file system. -/
def quiet : Kernel where
  handles := Table.start fun _ => default
  threads := [0]
  currentDirectory := none
  nextThread := 1
  nextProcess := 1
  dentries _ := ⟨none,[],none⟩
  dentryCount _ := none
  dentryCache := []
  nextDEntry := 0
  inodes _ := ⟨0,0⟩
  inodeCount _ := none
  inodeCache := []
  nextINode := 0
  roots := []
  held _ := 0
  waits _ := []
  currentThread := 0
  errno := 0

/-- Process::Open of a path in a file system that is not there leaves the process lock. -/
theorem open_missing_keeps_lock :
    ¬Ensures ((Call.openProcessFile (some .missing) 0 true).run emptyVolumes) quiet
      fun _ t => t.held = quiet.held := by
  intro h
  have hheld := h () _ rfl
  have hprocess := congrFun hheld .process
  revert hprocess
  decide

end WootOs.KernelLocks
