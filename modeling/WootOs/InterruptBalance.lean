import WootOs.PagingInterrupts

/-!
# Balance of the interrupt flag

Code that keeps the flag may do so by never touching it, or by putting back
what it found before each return. Keeps and Puts are these two ways to end,
with a rule for each way to put code together; a call is then gone through once,
return by return. Two calls have a return that puts nothing back, and one call
may leave interrupts disabled on purpose.
-/

namespace WootOs.InterruptFlag

open CodeLogic FrameAllocator Paging Scheduler WaitQueue

section Rules

variable {T A B : Type} {is : Bool} {c : Code (Machine T) A}

/-- Code that returns with the interrupt flag as it was. -/
def Keeps (c : Code (Machine T) A) : Prop :=
  ∀ s,Ensures c s fun _ t => t.interrupts = s.interrupts

/-- Code that returns with an interrupt flag, whatever it was. -/
def Puts (is : Bool) (c : Code (Machine T) A) : Prop :=
  ∀ s,Ensures c s fun _ t => t.interrupts = is

theorem keeps_pure {a : A} : Keeps (pure a : Code (Machine T) A) :=
  fun _ => ensures_pure.mpr rfl

theorem keeps_stuck : Keeps (stuck : Code (Machine T) A) := fun _ => ensures_stuck

theorem keeps_get : Keeps (get : Code (Machine T) (Machine T)) :=
  fun _ => ensures_get.mpr rfl

theorem keeps_modify {f : Machine T → Machine T} (hf : ∀ s,(f s).interrupts = s.interrupts) :
    Keeps (modify f : Code (Machine T) Unit) :=
  fun s => ensures_modify.mpr (hf s)

theorem Keeps.bind {k : A → Code (Machine T) B} (hc : Keeps c) (hk : ∀ a,Keeps (k a)) :
    Keeps (c >>= k) :=
  fun s => ensures_bind.mpr ((hc s).mono fun a t ht => (hk a t).mono fun _ _ hu => hu.trans ht)

theorem keeps_ite {p : Prop} [Decidable p] {d : Code (Machine T) A} (hc : Keeps c)
    (hd : Keeps d) : Keeps (if p then c else d) :=
  fun s => ensures_ite.mpr ⟨fun _ => hc s,fun _ => hd s⟩

theorem puts_stuck : Puts is (stuck : Code (Machine T) A) :=
  fun _ => ensures_stuck

/-- Only the end of code counts. -/
theorem puts_bind {k : A → Code (Machine T) B} (hk : ∀ a,Puts is (k a)) : Puts is (c >>= k) :=
  fun _ => ensures_bind.mpr fun a t _ => hk a t

theorem puts_ite {p : Prop} [Decidable p] {d : Code (Machine T) A} (hc : Puts is c)
    (hd : Puts is d) : Puts is (if p then c else d) :=
  fun s => ensures_ite.mpr ⟨fun _ => hc s,fun _ => hd s⟩

theorem preempt_interrupts (m : Machine T) : (preempt m).interrupts = m.interrupts := by
  unfold preempt
  split <;> rfl

theorem puts_restore : Puts is (restoreInterrupts is : Code (Machine T) Unit) := by
  intro s
  refine ensures_modify.mpr ?_
  cases is with
  | false => rfl
  | true => exact preempt_interrupts _

/-- A return behind cpuRestoreInterrupts. -/
theorem puts_return {a : A} :
    Puts is (do restoreInterrupts is; return a : Code (Machine T) A) :=
  fun s => ensures_bind.mpr ((puts_restore s).mono fun _ _ ht => ensures_pure.mpr ht)

/-- Code that disables interrupts and goes on with the old flag. -/
theorem ensures_disable {k : Bool → Code (Machine T) A} {s : Machine T}
    {Q : A → Machine T → Prop}
    (hk : Ensures (k s.interrupts) { s with interrupts := false } Q) :
    Ensures (disableInterrupts >>= k) s Q :=
  ensures_bind.mpr (ensures_bind.mpr (ensures_get.mpr (ensures_bind.mpr (ensures_modify.mpr
    (ensures_pure.mpr hk)))))

/-- Code that disables interrupts keeps the flag when it puts the old one back. -/
theorem keeps_disable {k : Bool → Code (Machine T) A} (hk : ∀ is,Puts is (k is)) :
    Keeps (disableInterrupts >>= k) :=
  fun s => ensures_disable (hk s.interrupts _)

theorem keeps_untilFails {turn : A → Code (Machine T) Bool} (h : ∀ a,Keeps (turn a))
    (l : List A) : Keeps (untilFails turn l) := by
  induction l with
  | nil => exact keeps_pure
  | cons a l ih => exact (h a).bind fun _ => keeps_ite keeps_pure ih

/-- A loop that is left where a turn fails leaves what that turn put. -/
theorem untilFails_puts {turn : A → Code (Machine T) Bool}
    (h : ∀ a s,Ensures (turn a) s fun ok t => ok = false → t.interrupts = is) (l : List A) :
    ∀ s,Ensures (untilFails turn l) s fun ok t => ok = false → t.interrupts = is := by
  induction l with
  | nil => exact fun s => ensures_pure.mpr fun h => by cases h
  | cons a l ih =>
    refine fun s => ensures_bind.mpr ((h a s).mono fun ok t ht => ?_)
    cases ok with
    | false => exact ensures_pure.mpr ht
    | true => exact ih t

theorem keeps_tickInterrupt : Keeps (tickInterrupt : Code (Machine T) Unit) := by
  intro s u t hrun
  unfold tickInterrupt at hrun
  cases h : s.resumed with
  | nil =>
    rw [h] at hrun
    cases hrun
  | cons w ws =>
    rw [h] at hrun
    obtain ⟨-,rfl⟩ := Prod.mk.inj (Option.some.inj hrun)
    rfl

theorem keeps_fakeTick : Keeps (fakeTick : Code (Machine T) Unit) :=
  keeps_disable fun _ => puts_bind fun _ => puts_bind fun _ => puts_restore

end Rules

/-! ### Threads -/

section Threads

variable {T : Type}

theorem keeps_getCurrent : Keeps (getCurrent : Code (Machine T) (Option T)) :=
  keeps_disable fun _ => puts_bind fun _ => puts_return

theorem keeps_reset (i : ℕ) (count : ℤ) : Keeps (reset i count : Code (Machine T) Unit) :=
  keeps_disable fun _ => puts_bind fun _ => puts_restore

/-- There is a thread with an ID that runs or is in a queue. -/
def Known (id : ℤ) (s : Machine T) : Prop :=
  (∃ c,s.sched.currentThread = some c ∧ s.id c = id) ∨
    ∃ q,∃ t ∈ s.sched.queue q,s.id t = id

/-- Thread::GetByID puts nothing back where it finds no thread. -/
theorem getByID_iff (id : ℤ) (s : Machine T) :
    Ensures (getByID id : Code (Machine T) (Option T)) s fun _ u =>
      u.interrupts = s.interrupts ↔ (s.interrupts = true → Known id s) := by
  refine ensures_disable (ensures_bind.mpr (ensures_get.mpr ?_))
  have hfound {A : Type} {a : A} {m : Machine T} (hk : Known id s) :
      Ensures (do restoreInterrupts s.interrupts; return a) m fun _ u =>
        u.interrupts = s.interrupts ↔ (s.interrupts = true → Known id s) :=
    (puts_return m).mono fun _ _ hu => ⟨fun _ _ => hk,fun _ => hu⟩
  have hin {q : Queue} {t : T} (h : ((s.sched.queue q).find? fun t => s.id t = id) = some t) :
      Known id s :=
    .inr ⟨q,t,List.mem_of_find?_eq_some h,by simpa using List.find?_some h⟩
  have hout {q : Queue} (h : ((s.sched.queue q).find? fun t => s.id t = id) = none) :
      ¬∃ t ∈ s.sched.queue q,s.id t = id := by
    rintro ⟨t,ht,hid⟩
    exact absurd (decide_eq_true hid) (List.find?_eq_none.mp h t ht)
  dsimp only
  cases hc : s.sched.currentThread with
  | none => exact ensures_stuck
  | some c =>
    refine ensures_ite.mpr ⟨fun hid => hfound (.inl ⟨c,hc,hid⟩),fun hid => ?_⟩
    cases hready : (s.sched.queue .readyThreads).find? fun t => s.id t = id with
    | some t => exact hfound (hin hready)
    | none =>
      cases hsusp : (s.sched.queue .suspendedThreads).find? fun t => s.id t = id with
      | some t => exact hfound (hin hsusp)
      | none =>
        cases hsleep : (s.sched.queue .sleepingThreads).find? fun t => s.id t = id with
        | some t => exact hfound (hin hsleep)
        | none =>
          refine ensures_pure.mpr ?_
          have hno : ¬Known id s := by
            rintro (⟨d,hd,hd'⟩ | ⟨q,h⟩)
            · cases hc.symm.trans hd
              exact hid hd'
            · cases q with
              | readyThreads => exact hout hready h
              | suspendedThreads => exact hout hsusp h
              | sleepingThreads => exact hout hsleep h
          constructor
          · exact fun h hon => absurd (h.trans hon) (by simp)
          · exact fun h => (Bool.eq_false_iff.mpr fun hon => hno (h hon)).symm

variable [DecidableEq T]

theorem keeps_enable (t : T) : Keeps (enable t) :=
  keeps_disable fun _ => puts_bind fun _ => puts_restore

theorem keeps_suspend (t : T) : Keeps (suspend t) := by
  refine keeps_disable fun is => puts_bind fun _ => puts_bind fun m => ?_
  refine puts_ite puts_return (puts_ite ?_ (puts_ite puts_return ?_))
  · exact puts_bind fun _ => puts_bind fun _ => puts_return
  · exact puts_bind fun _ => puts_restore

theorem keeps_resume (t : T) (prepend : Bool) : Keeps (resume t prepend) := by
  refine keeps_disable fun is => puts_bind fun _ => puts_bind fun m => ?_
  exact puts_ite (puts_bind fun _ => puts_return) puts_return

theorem keeps_ticksSleep (t : T) (ticks : ℕ) (interruptible : Bool) :
    Keeps (ticksSleep t ticks interruptible) := by
  refine keeps_disable fun is => puts_bind fun _ => puts_bind fun m => ?_
  refine puts_ite puts_return (puts_bind fun _ => puts_bind fun m => puts_ite ?_ puts_return)
  exact puts_bind fun _ => puts_bind fun _ => puts_bind fun _ => puts_bind fun _ => puts_return

theorem keeps_acquire (i timeout : ℕ) (tryAcquire : Bool) :
    Keeps (acquire i timeout tryAcquire : Code (Machine T) Bool) := by
  refine keeps_disable fun is => puts_bind fun ct => ?_
  cases ct with
  | none => exact puts_return
  | some ct =>
    refine puts_bind fun m => puts_ite (puts_ite puts_return (puts_ite puts_stuck ?_))
      (puts_ite puts_return (puts_ite ?_ puts_return))
    · exact puts_bind fun _ => puts_return
    · exact puts_bind fun _ => puts_bind fun _ => puts_bind fun _ => puts_bind fun _ =>
        puts_bind fun _ => puts_return

theorem keeps_release (i : ℕ) : Keeps (release i : Code (Machine T) Unit) := by
  refine keeps_disable fun is => puts_bind fun ct => ?_
  cases ct with
  | none => exact puts_restore
  | some ct =>
    refine puts_bind fun m => puts_ite puts_return (puts_bind fun _ => puts_bind fun m => ?_)
    refine puts_ite puts_return (puts_bind fun _ => ?_)
    split
    · exact puts_restore
    · exact puts_bind fun _ => puts_bind fun _ => puts_restore

theorem keeps_cancelMutex (i : ℕ) (t : T) : Keeps (cancelMutex i t) :=
  keeps_disable fun _ => puts_bind fun _ => puts_restore

theorem keeps_signal (idle : T) (i : ℕ) (state : Bool) : Keeps (signal idle i state) := by
  refine keeps_disable fun is => puts_bind fun _ => puts_bind fun m => puts_bind fun _ => ?_
  split
  · exact puts_restore
  · exact puts_ite (puts_bind fun _ => puts_restore) (puts_bind fun _ => puts_restore)

theorem keeps_cancelSemaphore (i : ℕ) (t : T) : Keeps (cancelSemaphore i t) :=
  keeps_disable fun _ => puts_bind fun _ => puts_restore

theorem keeps_raise (t : T) (signum : ℕ) : Keeps (raise t signum) := by
  refine keeps_disable fun is => puts_bind fun m => puts_ite ?_ puts_restore
  exact puts_bind fun _ => puts_bind fun _ => puts_restore

/-- What Thread::Resume can wake. -/
def Resumable (t : T) (s : Machine T) : Prop :=
  t ∈ s.sched.queue .suspendedThreads ∨
    t ∈ s.sched.queue .sleepingThreads ∧ (s.sched.thread t).interruptibleSleep = true

/-- Thread::Resume fails exactly where there is nothing to wake. -/
theorem resume_result (t : T) (prepend : Bool) (s : Machine T) :
    Ensures (resume t prepend) s fun r _ => r = true ↔ Resumable t s := by
  refine ensures_disable (ensures_bind.mpr (ensures_modify.mpr (ensures_bind.mpr
    (ensures_get.mpr (ensures_ite.mpr ⟨fun h => ?_,fun h => ?_⟩)))))
  · have hr : Resumable t s := by
      simpa [Resumable,Sched.modify,Thread.countWake] using h
    exact ensures_bind.mpr (ensures_modify.mpr (ensures_bind.mpr (ensures_modify.mpr
      (ensures_pure.mpr ⟨fun _ => hr,fun _ => rfl⟩))))
  · have hr : ¬Resumable t s := by
      simpa [Resumable,Sched.modify,Thread.countWake] using h
    exact ensures_bind.mpr (ensures_modify.mpr (ensures_pure.mpr
      ⟨fun h => (by cases h),fun h => absurd h hr⟩))

/-- Thread::QuickResume puts nothing back where Thread::Resume fails. -/
theorem quickResume_iff (idle t : T) (s : Machine T) :
    Ensures (quickResume idle t) s fun _ u =>
      u.interrupts = s.interrupts ↔ (s.interrupts = true → Resumable t s) := by
  refine ensures_disable (ensures_bind.mpr (((keeps_resume t true _).and
    (resume_result t true _)).mono fun r m hm => ?_))
  obtain ⟨hflag,hr⟩ := hm
  cases r with
  | false =>
    refine ensures_pure.mpr ?_
    have hno : ¬Resumable t s := fun h => by cases hr.mpr h
    rw [hflag]
    constructor
    · exact fun h hon => absurd (h.trans hon) (by simp)
    · exact fun h => (Bool.eq_false_iff.mpr fun hon => hno (h hon)).symm
  | true =>
    refine ensures_bind.mpr (ensures_modify.mpr ((puts_return _).mono fun _ u hu => ?_))
    exact ⟨fun _ _ => hr.mp rfl,fun _ => hu⟩

theorem keeps_block (t : T) (timeout : ℕ) : Keeps (block t timeout) :=
  keeps_ite ((keeps_ticksSleep t _ true).bind fun _ => keeps_pure)
    ((keeps_suspend t).bind fun _ => keeps_pure)

/-- Semaphore::Wait leaves interrupts disabled when it is asked to and takes a unit. -/
theorem wait_flag (i timeout : ℕ) (tryWait disableInts : Bool) (s : Machine T) :
    Ensures (wait i timeout tryWait disableInts : Code (Machine T) (Except ℤ ℕ)) s fun r u =>
      u.interrupts = if disableInts = true ∧ r.toBool = true then false else s.interrupts := by
  have hback {r : Except ℤ ℕ} {m : Machine T}
      (hr : ¬(disableInts = true ∧ r.toBool = true)) :
      Ensures (do restoreInterrupts s.interrupts; return r) m fun r u =>
        u.interrupts = if disableInts = true ∧ r.toBool = true then false else s.interrupts := by
    refine ensures_bind.mpr ((puts_restore m).mono fun _ u hu => ensures_pure.mpr ?_)
    rw [if_neg hr,hu]
  refine ensures_disable (ensures_bind.mpr ((keeps_getCurrent _).mono fun ct m hm =>
    ensures_bind.mpr (ensures_get.mpr (ensures_ite.mpr ⟨fun _ => ?_,fun _ => ?_⟩))))
  · refine ensures_bind.mpr (ensures_modify.mpr (ensures_ite.mpr ⟨fun hd => ?_,fun hd => ?_⟩))
    · exact hback fun h => by simp [h.1] at hd
    · refine ensures_pure.mpr ?_
      rw [if_pos ⟨by simpa using hd,rfl⟩]
      exact hm
  · refine ensures_ite.mpr ⟨fun _ => hback fun h => (by cases h.2),fun _ => ?_⟩
    refine ensures_ite.mpr ⟨fun _ => ?_,fun _ => hback fun h => (by cases h.2)⟩
    refine ensures_bind.mpr (ensures_modify.mpr ?_)
    cases ct with
    | none => exact ensures_stuck
    | some ct =>
      refine ensures_bind.mpr (ensures_modify.mpr (ensures_bind.mpr
        ((keeps_block ct timeout _).mono fun timeleft n hn => ?_)))
      refine ensures_bind.mpr (ensures_modify.mpr (ensures_bind.mpr (ensures_modify.mpr ?_)))
      refine ensures_ite.mpr ⟨fun hd => hback fun h => ?_,fun hd => ensures_pure.mpr ?_⟩
      · rcases hd with hd | hd
        · simp [h.1] at hd
        · simp [hd,Except.toBool] at h
      · have hd' : disableInts = true ∧ timeleft ≠ 0 := by simpa using hd
        rw [if_pos ⟨hd'.1,by rw [if_pos hd'.2]; rfl⟩]
        exact hn.trans hm

end Threads

/-! ### Paging -/

section Paging

variable {T : Type}

theorem keeps_modifyPaging (f : Paging.Kernel → Paging.Kernel) :
    Keeps (modifyPaging f : Code (Machine T) Unit) :=
  keeps_modify fun _ => rfl

theorem keeps_spaceOf (pd : ℕ) : Keeps (spaceOf pd : Code (Machine T) ℕ) :=
  keeps_get.bind fun _ => keeps_pure

theorem puts_takeFrames (cs : Bool) (found : ℕ × FrameBitmap.Bitmap) :
    Puts cs (takeFrames cs found : Code (Machine T) ℕ) :=
  puts_ite puts_return (puts_bind fun _ => puts_return)

theorem keeps_allocFrame : Keeps (allocFrame : Code (Machine T) ℕ) :=
  keeps_disable fun cs => puts_bind fun _ => puts_takeFrames cs _

theorem keeps_allocFrameAligned (alignment : ℕ) :
    Keeps (allocFrameAligned alignment : Code (Machine T) ℕ) :=
  keeps_ite keeps_pure (keeps_disable fun cs => puts_bind fun _ => puts_takeFrames cs _)

theorem keeps_allocFrames (n : ℕ) : Keeps (allocFrames n : Code (Machine T) ℕ) :=
  keeps_disable fun cs => puts_bind fun _ => puts_takeFrames cs _

theorem keeps_allocFramesAligned (n alignment : ℕ) :
    Keeps (allocFramesAligned n alignment : Code (Machine T) ℕ) :=
  keeps_ite keeps_pure (keeps_disable fun cs => puts_bind fun _ => puts_takeFrames cs _)

theorem keeps_freeFrame (pa : ℕ) : Keeps (freeFrame pa : Code (Machine T) Bool) :=
  keeps_disable fun _ => puts_bind fun _ => puts_ite puts_return (puts_bind fun _ => puts_return)

theorem keeps_freeFrames (pa n : ℕ) : Keeps (freeFrames pa n : Code (Machine T) Bool) :=
  keeps_untilFails (fun _ => keeps_freeFrame _) _

theorem keeps_getFreeFrames : Keeps (getFreeFrames : Code (Machine T) ℕ) :=
  keeps_disable fun _ => puts_bind fun _ => puts_return

theorem keeps_getUsedFrames : Keeps (getUsedFrames : Code (Machine T) ℕ) :=
  keeps_disable fun _ => puts_bind fun _ => puts_return

theorem puts_mapLeaf (cs : Bool) (pt va pa : ℕ) (user write : Bool) :
    Puts cs (mapLeaf cs pt va pa user write : Code (Machine T) Bool) :=
  puts_bind fun _ => puts_bind fun _ => puts_return

theorem keeps_mapPage (pd va pa : ℕ) (user write : Bool) :
    Keeps (mapPage pd va pa user write : Code (Machine T) Bool) := by
  refine (keeps_spaceOf pd).bind fun pd => keeps_disable fun cs => puts_bind fun pdir =>
    puts_bind fun entry => puts_ite (puts_bind fun ptpa => puts_ite ?_ ?_) ?_
  · exact puts_bind fun _ => puts_return
  · exact puts_bind fun pt => puts_bind fun _ => puts_bind fun _ => puts_bind fun _ =>
      puts_mapLeaf cs pt _ pa user write
  · exact puts_bind fun _ => puts_bind fun pt => puts_mapLeaf cs pt _ pa user write

theorem keeps_unMapPage (pd va : ℕ) : Keeps (unMapPage pd va : Code (Machine T) Bool) := by
  refine (keeps_spaceOf pd).bind fun pd => keeps_disable fun cs => puts_bind fun pdir =>
    puts_bind fun entry => puts_ite (puts_bind fun _ => puts_return) (puts_bind fun pt =>
      puts_bind fun pte => puts_ite ?_ ?_)
  · exact puts_bind fun _ => puts_bind fun _ => puts_return
  · exact puts_bind fun _ => puts_bind fun _ => puts_bind fun _ => puts_bind fun _ =>
      puts_bind fun _ => puts_return

theorem keeps_mapPages (pd va pa : ℕ) (user write : Bool) (n : ℕ) :
    Keeps (mapPages pd va pa user write n : Code (Machine T) Bool) :=
  (keeps_spaceOf pd).bind fun _ => keeps_untilFails (fun _ => keeps_mapPage _ _ _ user write) _

theorem keeps_unMapPages (pd va n : ℕ) : Keeps (unMapPages pd va n : Code (Machine T) Bool) :=
  (keeps_spaceOf pd).bind fun _ => keeps_untilFails (fun _ => keeps_unMapPage _ _) _

theorem keeps_unmapRange (pd startVA rangeSize : ℕ) :
    Keeps (unmapRange pd startVA rangeSize : Code (Machine T) Unit) :=
  (keeps_spaceOf pd).bind fun _ => keeps_disable fun _ => puts_bind fun _ => puts_bind fun _ =>
    puts_bind fun _ => puts_restore

/-- A turn of Paging::CloneRange that returns from the function has put the flag back. -/
theorem cloneEntry_puts (cs : Bool) (dir dstPd startVA rangeSize pdidx ptidx : ℕ)
    (s : Machine T) :
    Ensures (cloneEntry cs dir dstPd startVA rangeSize pdidx ptidx) s fun ok t =>
      ok = false → t.interrupts = cs := by
  have hgoes {m : Machine T} : Ensures (pure true : Code (Machine T) Bool) m fun ok t =>
      ok = false → t.interrupts = cs :=
    ensures_pure.mpr fun h => by cases h
  refine ensures_ite.mpr ⟨fun _ => hgoes,fun _ => ensures_bind.mpr fun entry m₁ _ => ?_⟩
  refine ensures_ite.mpr ⟨fun _ => hgoes,fun _ => ensures_bind.mpr fun pt m₂ _ => ?_⟩
  refine ensures_bind.mpr fun pte m₃ _ => ensures_bind.mpr fun dpa m₄ _ => ?_
  refine ensures_ite.mpr ⟨fun _ => ?_,fun _ => ?_⟩
  · refine ensures_bind.mpr fun _ m₅ _ => ensures_bind.mpr fun _ m₆ _ => ?_
    exact (puts_return m₆).mono fun _ _ ht _ => ht
  · exact ensures_bind.mpr fun _ _ _ => ensures_bind.mpr fun _ _ _ => ensures_bind.mpr
      fun _ _ _ => ensures_bind.mpr fun _ _ _ => ensures_bind.mpr fun _ _ _ =>
        ensures_bind.mpr fun _ _ _ => ensures_bind.mpr fun _ _ _ => hgoes

theorem keeps_cloneRange (dstPd startVA rangeSize : ℕ) :
    Keeps (cloneRange dstPd startVA rangeSize : Code (Machine T) Unit) := by
  refine (keeps_spaceOf dstPd).bind fun pd => keeps_disable fun cs => puts_bind fun m =>
    puts_bind fun dir s => ensures_bind.mpr ?_
  refine (untilFails_puts (fun k => untilFails_puts (fun i =>
    cloneEntry_puts cs dir pd startVA rangeSize k i) _) _ s).mono fun done t ht => ?_
  cases done with
  | false => exact ensures_pure.mpr (ht rfl)
  | true => exact (puts_bind fun _ => puts_restore) t

theorem keeps_getPhysicalAddress (pd va : ℕ) :
    Keeps (getPhysicalAddress pd va : Code (Machine T) ℕ) := by
  refine (keeps_spaceOf pd).bind fun pd => keeps_disable fun cs => puts_bind fun pdir =>
    puts_bind fun entry => puts_ite (puts_bind fun _ => puts_return) (puts_bind fun _ =>
      puts_bind fun pt => puts_bind fun pte => puts_ite ?_ ?_)
  · exact puts_bind fun _ => puts_return
  · exact puts_bind fun _ => puts_return

theorem keeps_buildAddressSpace (as : ℕ) :
    Keeps (buildAddressSpace as : Code (Machine T) Unit) := by
  refine keeps_get.bind fun m => ?_
  split
  · exact keeps_stuck
  · exact keeps_modifyPaging _

theorem keeps_allocDMA (size alignment : ℕ) :
    Keeps (allocDMA size alignment : Code (Machine T) ℕ) := by
  refine keeps_ite keeps_pure ((keeps_allocFramesAligned _ _).bind fun pa =>
    keeps_ite keeps_pure (keeps_disable fun ints => puts_bind fun m => ?_))
  exact puts_bind fun _ => puts_bind fun _ => puts_bind fun _ => puts_return

theorem keeps_freeDMA (ptr : ℕ) : Keeps (freeDMA ptr : Code (Machine T) Unit) := by
  refine keeps_disable fun ints => puts_bind fun m => ?_
  dsimp only
  split
  · exact puts_restore
  · refine puts_ite puts_return (puts_bind fun _ => puts_bind fun _ => puts_bind fun pa =>
      puts_ite puts_return ?_)
    exact puts_bind fun _ => puts_bind fun _ => puts_restore

end Paging

/-! ### The calls -/

section Calls

variable {T : Type} {s : Machine T}

theorem without_ensures {A : Type} {c : Code (Machine T) A} {P : Machine T → Prop}
    {Q : Bool → Machine T → Prop} (h : Ensures c s fun _ t => P t) (hpq : ∀ t,P t → Q false t) :
    Ensures (without c) s Q :=
  ensures_bind.mpr (h.mono fun _ t ht => ensures_pure.mpr (hpq t ht))

/-- When a call puts back the interrupt flag it found. -/
def Restores : Call T → Machine T → Prop
  | .getByID id => fun s => s.interrupts = true → Known id s
  | .quickResume t => fun s => s.interrupts = true → Resumable t s
  | _ => fun _ => True

/-- The interrupt flag a call should return with. -/
def Call.flag (call : Call T) (got : Bool) (s : Machine T) : Bool :=
  if call.disableInts = true ∧ got = true then false else s.interrupts

/-- A call that keeps the flag. -/
theorem keeps_flag {A : Type} {c : Code (Machine T) A} {call : Call T} (h : Keeps c)
    (hr : Restores call s) (hd : call.disableInts = false) :
    Ensures (without c) s fun got t => t.interrupts = call.flag got s ↔ Restores call s :=
  without_ensures (h s) fun t ht => by
    rw [Call.flag,hd,ht]
    exact iff_of_true rfl hr

variable [DecidableEq T]

/-- A call returns with the interrupt flag it found, or disabled where Semaphore::Wait is
asked for that and takes a unit, exactly when it puts back what it found. -/
theorem flag_balanced_iff (idle : T) (call : Call T) (s : Machine T) :
    Ensures (call.run idle) s fun got t =>
      t.interrupts = call.flag got s ↔ Restores call s := by
  cases call with
  | getByID id => exact without_ensures (getByID_iff id s) fun t ht => ht
  | quickResume t => exact without_ensures (quickResume_iff idle t s) fun u hu => hu
  | wait i timeout tryWait disableInts =>
    refine ensures_bind.mpr ((wait_flag i timeout tryWait disableInts s).mono fun r t ht => ?_)
    exact ensures_pure.mpr (iff_of_true ht trivial)
  | getCurrent => exact keeps_flag keeps_getCurrent trivial rfl
  | suspend t => exact keeps_flag (keeps_suspend t) trivial rfl
  | resume t prepend => exact keeps_flag (keeps_resume t prepend) trivial rfl
  | ticksSleep t ticks interruptible =>
    exact keeps_flag (keeps_ticksSleep t ticks interruptible) trivial rfl
  | enable t => exact keeps_flag (keeps_enable t) trivial rfl
  | acquire i timeout tryAcquire =>
    exact keeps_flag (keeps_acquire i timeout tryAcquire) trivial rfl
  | release i => exact keeps_flag (keeps_release i) trivial rfl
  | cancelMutex i t => exact keeps_flag (keeps_cancelMutex i t) trivial rfl
  | signal i state => exact keeps_flag (keeps_signal idle i state) trivial rfl
  | cancelSemaphore i t => exact keeps_flag (keeps_cancelSemaphore i t) trivial rfl
  | reset i count => exact keeps_flag (keeps_reset i count) trivial rfl
  | raise t signum => exact keeps_flag (keeps_raise t signum) trivial rfl
  | allocFrame => exact keeps_flag keeps_allocFrame trivial rfl
  | allocFrameAligned alignment =>
    exact keeps_flag (keeps_allocFrameAligned alignment) trivial rfl
  | allocFrames n => exact keeps_flag (keeps_allocFrames n) trivial rfl
  | allocFramesAligned n alignment =>
    exact keeps_flag (keeps_allocFramesAligned n alignment) trivial rfl
  | freeFrame pa => exact keeps_flag (keeps_freeFrame pa) trivial rfl
  | freeFrames pa n => exact keeps_flag (keeps_freeFrames pa n) trivial rfl
  | getTotalFrames => exact keeps_flag (keeps_get.bind fun _ => keeps_pure) trivial rfl
  | getFreeFrames => exact keeps_flag keeps_getFreeFrames trivial rfl
  | getUsedFrames => exact keeps_flag keeps_getUsedFrames trivial rfl
  | mapPage pd va pa user write =>
    exact keeps_flag (keeps_mapPage pd va pa user write) trivial rfl
  | unMapPage pd va => exact keeps_flag (keeps_unMapPage pd va) trivial rfl
  | mapPages pd va pa user write n =>
    exact keeps_flag (keeps_mapPages pd va pa user write n) trivial rfl
  | unMapPages pd va n => exact keeps_flag (keeps_unMapPages pd va n) trivial rfl
  | unmapRange pd startVA rangeSize =>
    exact keeps_flag (keeps_unmapRange pd startVA rangeSize) trivial rfl
  | cloneRange dstPd startVA rangeSize =>
    exact keeps_flag (keeps_cloneRange dstPd startVA rangeSize) trivial rfl
  | getPhysicalAddress pd va => exact keeps_flag (keeps_getPhysicalAddress pd va) trivial rfl
  | buildAddressSpace as => exact keeps_flag (keeps_buildAddressSpace as) trivial rfl
  | allocDMA size alignment => exact keeps_flag (keeps_allocDMA size alignment) trivial rfl
  | getDMAPhysicalAddress ptr =>
    exact keeps_flag (keeps_get.bind fun m => keeps_getPhysicalAddress m.paging.cr3 ptr)
      trivial rfl
  | freeDMA ptr => exact keeps_flag (keeps_freeDMA ptr) trivial rfl

end Calls

/-- One thread that runs with interrupts enabled. -/
def oneThread : Machine Unit where
  sched := { currentThread := some (),thread := fun _ => Thread.new,queue := fun _ => [] }
  id _ := 1
  waitingMutex _ := none
  waitingSemaphore _ := none
  signalMask _ := 0
  signalQueue _ := RingQueue.BoundedQueue.new 1 (by decide) fun _ => 0
  isFakeTick := false
  mutex _ := ⟨false,0,none,RingQueue.BoundedQueue.new 1 (by decide) fun _ => none⟩
  semaphore _ := ⟨0,RingQueue.BoundedQueue.new 1 (by decide) fun _ => none⟩
  paging :=
    { word := fun _ _ => 0
      bitmap := FrameBitmap.Bitmap.new 0 false
      kernel4kPT := fun _ => 0
      kernelPageDir := fun _ => 0
      cr3 := 0 }
  dmaPtrList := []
  interrupts := true
  interrupted := []
  resumed := []

/-- Thread::GetByID of an ID that no thread has leaves interrupts disabled. -/
theorem getByID_keeps_interrupts_off :
    ¬Ensures ((Call.getByID 2).run ()) oneThread fun got t =>
      t.interrupts = (Call.getByID 2 : Call Unit).flag got oneThread := by
  intro h
  have hflag := h false _ rfl
  revert hflag
  decide

end WootOs.InterruptFlag
