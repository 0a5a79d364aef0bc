import WootOs.SchedulerWakeups

/-!
# Waiting calls and what passes meanwhile

Mutexes and semaphores let the current thread suspend, or sleep with a
timeout, and go on when the scheduler returns to it. Passes says what the
operations on other threads may do to a thread meanwhile: a runnable thread
stays runnable, a suspended one stays suspended, and a sleeping one sleeps on
or finds that its time is over.
-/

namespace WootOs.Scheduler

open ObjectQueue Sched

set_option linter.unusedSectionVars false

variable {T : Type*} [DecidableEq T]

/-- The thread sleeps by its own call, and Resume may end the sleep. -/
structure Dozing (x : T) (s : Sched T) : Prop where
  /-- It is queued. -/
  mem : x ∈ s.queue .sleepingThreads
  /-- Resume may wake it. -/
  interruptible : (s.thread x).interruptibleSleep = true
  /-- Its call waits for the ticks left. -/
  awaits : (s.thread x).canChangeState = true

/-- What may happen to a thread while others act. -/
structure Passes (x : T) (s s' : Sched T) : Prop where
  /-- A runnable thread stays so, with the result of its call. -/
  runnable : Runnable x s → Runnable x s' ∧ (s'.thread x).stackTop = (s.thread x).stackTop
  /-- A suspended thread stays so. -/
  suspended : x ∈ s.queue .suspendedThreads → x ∈ s'.queue .suspendedThreads
  /-- A sleeping thread sleeps on or is told that no ticks are left. -/
  dozing : Dozing x s → Dozing x s' ∨ Runnable x s' ∧ (s'.thread x).stackTop = 0

theorem Passes.refl (x : T) (s : Sched T) : Passes x s s :=
  ⟨fun h => ⟨h,rfl⟩,fun h => h,fun h => Or.inl h⟩

theorem Passes.trans {x : T} {s s' s'' : Sched T} (h : Passes x s s') (h' : Passes x s' s'') :
    Passes x s s'' := by
  refine ⟨fun hr => ?_,fun hs => h'.suspended (h.suspended hs),fun hd => ?_⟩
  · obtain ⟨hr',he⟩ := h.runnable hr
    obtain ⟨hr'',he'⟩ := h'.runnable hr'
    exact ⟨hr'',he'.trans he⟩
  · rcases h.dozing hd with hd' | ⟨hr',he⟩
    · exact h'.dozing hd'
    · obtain ⟨hr'',he'⟩ := h'.runnable hr'
      exact Or.inr ⟨hr'',he'.trans he⟩

section Fields

variable {s : Sched T} {x : T}

@[simp] theorem Thread.setState_stackTop (state : State) (th : Thread) :
    (th.setState state).stackTop = th.stackTop := rfl

@[simp] theorem Thread.setState_interruptibleSleep (state : State) (th : Thread) :
    (th.setState state).interruptibleSleep = th.interruptibleSleep := rfl

@[simp] theorem Thread.setState_canChangeState (state : State) (th : Thread) :
    (th.setState state).canChangeState = th.canChangeState := rfl

@[simp] theorem Thread.tick_interruptibleSleep (th : Thread) :
    th.tick.interruptibleSleep = th.interruptibleSleep := by
  unfold Thread.tick; split_ifs <;> rfl

@[simp] theorem Thread.tick_canChangeState (th : Thread) :
    th.tick.canChangeState = th.canChangeState := by
  unfold Thread.tick; split_ifs <;> rfl

/-- A record outside the queues a thread is in, and the queues of others, do
not matter to it. -/
theorem passes_of_eq {s' : Sched T} (hc : s.currentThread = some x → s'.currentThread = some x)
    (hr : x ∈ s.queue .readyThreads → x ∈ s'.queue .readyThreads)
    (hs : x ∈ s.queue .suspendedThreads → x ∈ s'.queue .suspendedThreads)
    (hd : x ∈ s.queue .sleepingThreads → x ∈ s'.queue .sleepingThreads)
    (htop : (s'.thread x).stackTop = (s.thread x).stackTop)
    (hint : (s'.thread x).interruptibleSleep = (s.thread x).interruptibleSleep)
    (hcan : (s'.thread x).canChangeState = (s.thread x).canChangeState) : Passes x s s' := by
  refine ⟨fun h => ⟨h.imp hc hr,htop⟩,hs,fun h => Or.inl ⟨hd h.mem,?_,?_⟩⟩
  · rw [hint,h.interruptible]
  · rw [hcan,h.awaits]

/-- A change of another thread's record. -/
theorem passes_modify {t : T} (f : Thread → Thread) (h : x ≠ t) : Passes x s (s.modify t f) := by
  have hth := modify_thread_ne s t f h
  exact passes_of_eq id id id id (by rw [hth]) (by rw [hth]) (by rw [hth])

/-- Another thread is added to a queue. -/
theorem passes_add (q : Queue) (t : T) (prepend : Bool) : Passes x s (s.add q t prepend) := by
  have hm {q' : Queue} (h : x ∈ s.queue q') : x ∈ (s.add q t prepend).queue q' :=
    (mem_add ..).mpr (Or.inl h)
  exact passes_of_eq id hm hm hm rfl rfl rfl

/-- Another thread is removed from a queue. -/
theorem passes_remove {q : Queue} {t : T} (hn : (s.queue q).Nodup) (h : x ≠ t) :
    Passes x s (s.remove q t) := by
  have hm {q' : Queue} (hx : x ∈ s.queue q') : x ∈ (s.remove q t).queue q' :=
    (mem_remove _ _ _ hn).mpr ⟨hx,fun he => h he.2⟩
  exact passes_of_eq id hm hm hm rfl rfl rfl

end Fields

section Tick

variable {idle : T} {live : List T} {s : Sched T} {x : T}

/-- Counting the sleeps down. -/
theorem passes_settle (doTick : Bool) (h : Queued idle live s)
    (hc : s.currentThread = some x → x ∉ s.queue .sleepingThreads) :
    Passes x s (settle doTick s) := by
  refine ⟨fun hr => ?_,fun hs => ?_,fun hd => ?_⟩
  · have hns : x ∉ s.queue .sleepingThreads := by
      rcases hr with hcur | hready
      · exact hc hcur
      · exact fun hm => absurd (h.disjoint hready hm) (by simp)
    refine ⟨?_,by rw [settle_thread doTick hns]⟩
    rcases hr with hcur | hready
    · exact Or.inl ((settle_currentThread doTick).trans hcur)
    · right
      cases doTick <;>
        exact (mem_wakeExpired _ _).mpr (Or.inl ⟨hready,fun he => absurd he (by simp)⟩)
  · cases doTick <;> exact (mem_wakeExpired _ _).mpr (Or.inl ⟨hs,fun he => absurd he (by simp)⟩)
  · have hw (s : Sched T) (hd : Dozing x s) : Dozing x s.wakeExpired ∨
        Runnable x s.wakeExpired ∧ (s.wakeExpired.thread x).stackTop = 0 := by
      by_cases hz : (s.thread x).sleepTicks = 0
      · have hm : x ∈ s.expired := mem_expired.mpr ⟨hd.mem,hz⟩
        have hth : s.wakeExpired.thread x = (s.thread x).expire := if_pos hm
        refine Or.inr ⟨Or.inr ((mem_wakeExpired _ _).mpr (Or.inr ⟨rfl,hm⟩)),?_⟩
        rw [hth,Thread.expire,Thread.storeResult,if_pos hd.awaits,hz]
        rfl
      · have hm : x ∉ s.expired := fun he => hz (mem_expired.mp he).2
        have hth := wakeExpired_thread hm
        refine Or.inl ⟨(mem_wakeExpired _ _).mpr (Or.inl ⟨hd.mem,fun _ => hz⟩),?_,?_⟩
        · rw [hth,hd.interruptible]
        · rw [hth,hd.awaits]
    cases doTick with
    | false => exact hw s hd
    | true =>
      have hth : (tickSleepers s).thread x = (s.thread x).tick := if_pos hd.mem
      exact hw (tickSleepers s) ⟨hd.mem,by rw [hth]; simp [hd.interruptible],
        by rw [hth]; simp [hd.awaits]⟩

/-- Queueing the current thread. -/
theorem passes_yieldCurrent : Passes x s (yieldCurrent idle s) := by
  have hset (st : State) (q : Queue) (c : T) :
      Passes x s ((s.modify c (Thread.setState st)).add q c false) := by
    refine Passes.trans ?_ (passes_add q c false)
    by_cases hxc : x = c
    · subst hxc
      exact passes_of_eq id id id id (by simp) (by simp) (by simp)
    · exact passes_modify _ hxc
  unfold yieldCurrent
  cases s.currentThread with
  | none => exact Passes.refl x s
  | some c =>
    dsimp only
    split_ifs
    · exact hset _ _ c
    · exact hset _ _ c
    · exact Passes.refl x s

/-- Switch changes no queue and only the state of a record. -/
theorem passes_switch_fields (t : T) : (s.switch t).queue = s.queue ∧
    ((s.switch t).thread x).stackTop = (s.thread x).stackTop ∧
    ((s.switch t).thread x).interruptibleSleep = (s.thread x).interruptibleSleep ∧
    ((s.switch t).thread x).canChangeState = (s.thread x).canChangeState := by
  unfold switch
  split_ifs
  · exact ⟨rfl,rfl,rfl,rfl⟩
  · refine ⟨rfl,?_⟩
    change ((s.modify t (Thread.setState .active)).thread x).stackTop = _ ∧
      ((s.modify t (Thread.setState .active)).thread x).interruptibleSleep = _ ∧
      ((s.modify t (Thread.setState .active)).thread x).canChangeState = _
    by_cases hxt : x = t
    · subst hxt
      simp
    · rw [modify_thread_ne _ _ _ hxt]
      exact ⟨rfl,rfl,rfl⟩

/-- The switch to a thread that was not current makes it so. -/
theorem switch_current (t : T) : (s.switch t).currentThread = some t := by
  unfold switch
  split_ifs with h
  · exact h
  · rfl

/-- The choice of the next thread passes over the queued threads. -/
theorem dispatch_queued (h : Apart s) :
    (x ∈ s.queue .readyThreads →
      Runnable x (switch (takeReady idle s).1 (takeReady idle s).2)) ∧
    (∀ q ≠ .readyThreads,x ∈ s.queue q →
      x ∈ (switch (takeReady idle s).1 (takeReady idle s).2).queue q) ∧
    (takeReady idle s).2.thread = s.thread := by
  have hq (t : T) (s : Sched T) : (s.switch t).queue = s.queue :=
    (@passes_switch_fields T _ s t t).1
  cases hready : s.queue .readyThreads with
  | nil =>
    have ht : takeReady idle s = (idle,s) := by simp [takeReady,hready]
    rw [ht]
    refine ⟨fun hm => absurd hm (by simp),fun q _ hm => ?_,rfl⟩
    rw [hq]
    exact hm
  | cons t rest =>
    have ht : takeReady idle s = (t,s.remove .readyThreads t) := by simp [takeReady,hready]
    rw [ht]
    refine ⟨fun hm => ?_,fun q hne hm => ?_,rfl⟩
    · by_cases hxt : x = t
      · exact Or.inl (hxt ▸ switch_current x)
      · right
        rw [hq,mem_remove _ _ _ (h.nodup _),hready]
        exact ⟨hm,fun he => hxt he.2⟩
    · rw [hq,mem_remove _ _ _ (h.nodup _)]
      exact ⟨hm,fun he => hne he.1⟩

/-- A tick passes over every thread that does not block itself. -/
theorem passes_tick {doTick : Bool} (h : Switchable idle live doTick s) (hx : x ∈ live)
    (hc : s.currentThread = some x →
      (s.thread x).state ≠ .sleeping ∧ (s.thread x).state ≠ .suspending) :
    Passes x s (tick idle doTick s) := by
  have hi : x ≠ idle := fun he => h.queued.idle_free (he ▸ hx)
  have hout : s.currentThread = some x → ∀ q,x ∉ s.queue q := by
    intro hcur
    rcases h.yielding x hcur with he | ⟨-,hout,-⟩ | ⟨-,hsl⟩
    · exact absurd he hi
    · exact hout
    · have hst : Queue.Holds .sleepingThreads _ := h.queued.state hsl
      exact absurd hst.1 (hc hcur).1
  have hpass := (passes_settle doTick h.queued fun hcur => hout hcur _).trans
    (@passes_yieldCurrent T _ idle (settle doTick s) x)
  set s' := yieldCurrent idle (settle doTick s) with hs'
  -- A runnable thread is among the ready ones once the current thread is queued.
  have hready : Runnable x s → x ∈ s'.queue .readyThreads := by
    rintro (hcur | hr)
    · have hth : (settle doTick s).thread x = s.thread x := settle_thread doTick (hout hcur _)
      have hy : s' = ((settle doTick s).modify x (Thread.setState .ready)).add
          .readyThreads x false := by
        simp [hs',yieldCurrent,hcur,hi,hth,hc hcur]
      rw [hy]
      exact (mem_add ..).mpr (Or.inr ⟨rfl,rfl⟩)
    · have hset : x ∈ (settle doTick s).queue .readyThreads := by
        cases doTick <;>
          exact (mem_wakeExpired _ _).mpr (Or.inl ⟨hr,fun he => absurd he (by simp)⟩)
      rw [hs',yieldCurrent]
      split
      · exact hset
      · split_ifs
        · exact (mem_add ..).mpr (Or.inl hset)
        · exact (mem_add ..).mpr (Or.inl hset)
        · exact hset
  obtain ⟨hyq,-,hcur'⟩ := yieldCurrent_queued h
  obtain ⟨hrun,hqueue,hthread⟩ := @dispatch_queued T _ idle s' x hyq.toApart
  have htick : tick idle doTick s = switch (takeReady idle s').1 (takeReady idle s').2 := rfl
  obtain ⟨-,htop,hint,hcan⟩ := @passes_switch_fields T _ (takeReady idle s').2 x
    (takeReady idle s').1
  rw [hthread] at htop hint hcan
  rw [htick]
  refine ⟨fun hr => ⟨hrun (hready hr),htop.trans (hpass.runnable hr).2⟩,
    fun hs => hqueue _ (by simp) (hpass.suspended hs),fun hd => ?_⟩
  rcases hpass.dozing hd with hd' | ⟨hr,hzero⟩
  · refine Or.inl ⟨hqueue _ (by simp) hd'.mem,?_,?_⟩
    · rw [hint,hd'.interruptible]
    · rw [hcan,hd'.awaits]
  · refine Or.inr ⟨hrun (hr.resolve_left fun hc' => ?_),htop.trans hzero⟩
    rw [hcur'] at hc'
    exact hout hc' _ hd.mem

/-- A thread that put itself to sleep dozes on over the fake tick that follows. -/
theorem dozing_tick (h : Switchable idle live false s) (hc : s.currentThread = some x)
    (hd : Dozing x s) : Dozing x (tick idle false s) := by
  obtain ⟨hm,hth⟩ := settle_sleeping h.queued hd.mem
  have hst : Queue.Holds .sleepingThreads _ := h.queued.state hd.mem
  have hy : yieldCurrent idle (settle false s) = settle false s := by
    simp [yieldCurrent,hc,hth,hst.1]
  have hthread := (@dispatch_queued T _ idle (settle false s) x
    (settle_queued false h.queued).toApart).2.2
  obtain ⟨-,-,hint,hcan⟩ := @passes_switch_fields T _ (takeReady idle (settle false s)).2 x
    (takeReady idle (settle false s)).1
  have htick : tick idle false s =
      switch (takeReady idle (settle false s)).1 (takeReady idle (settle false s)).2 := by
    change switch (takeReady idle (yieldCurrent idle (settle false s))).1
      (takeReady idle (yieldCurrent idle (settle false s))).2 = _
    rw [hy]
  refine ⟨mem_sleeping_tick h.queued hc hd.mem,?_,?_⟩
  · rw [htick,hint,hthread,hth,hd.interruptible]
  · rw [htick,hcan,hthread,hth,hd.awaits]

end Tick

section Operations

variable {idle : T} {live : List T} {s : Sched T} {x t : T}

/-- Between operations a tick passes over every thread. -/
theorem Partition.passes_tick (h : Partition idle live s) (doTick : Bool) (hx : x ∈ live) :
    Passes x s (Sched.tick idle doTick s) := by
  refine Scheduler.passes_tick (h.switchable doTick) hx fun hcur => ?_
  obtain ⟨c,hc,hrun⟩ := h.current
  obtain rfl : x = c := Option.some.inj (hcur.symm.trans hc)
  rcases hrun with rfl | ⟨-,-,hst⟩
  · exact absurd hx h.queued.idle_free
  · exact hst

/-- Resume passes over the other threads. -/
theorem Partition.passes_resume (h : Partition idle live s) (prepend : Bool) (hne : x ≠ t) :
    Passes x s (s.resume t prepend).2 := by
  have hmove (q : Queue) : Passes x (s.modify t Thread.countWake)
      ((((s.modify t Thread.countWake).remove q t).modify t Thread.wake).add
        .readyThreads t prepend) := by
    have hn : ((s.modify t Thread.countWake).queue q).Nodup := h.queued.nodup q
    exact ((passes_remove hn hne).trans (passes_modify _ hne)).trans (passes_add _ _ _)
  refine (passes_modify Thread.countWake hne).trans ?_
  unfold Sched.resume
  dsimp only
  split_ifs
  · exact hmove _
  · exact hmove _
  · exact Passes.refl ..

/-- Resume wakes a suspended thread. -/
theorem resume_suspended (prepend : Bool) (ht : t ∈ s.queue .suspendedThreads) :
    (s.resume t prepend).1 = true ∧ t ∈ (s.resume t prepend).2.queue .readyThreads := by
  unfold Sched.resume
  dsimp only
  rw [if_pos (show t ∈ (s.modify t Thread.countWake).queue .suspendedThreads from ht)]
  exact ⟨rfl,(mem_add ..).mpr (Or.inr ⟨rfl,rfl⟩)⟩

/-- Resume wakes a thread that dozes and leaves it the ticks it has left. -/
theorem Partition.resume_dozing (h : Partition idle live s) (prepend : Bool) (ht : Dozing t s) :
    (s.resume t prepend).1 = true ∧ t ∈ (s.resume t prepend).2.queue .readyThreads ∧
      ((s.resume t prepend).2.thread t).stackTop =
        MachineInt.unsigned 32 (s.thread t).sleepTicks := by
  have hns : t ∉ (s.modify t Thread.countWake).queue .suspendedThreads :=
    fun hm => absurd (h.queued.disjoint hm ht.mem) (by simp)
  have hsl : t ∈ (s.modify t Thread.countWake).queue .sleepingThreads ∧
      ((s.modify t Thread.countWake).thread t).interruptibleSleep = true := by
    refine ⟨ht.mem,?_⟩
    rw [modify_thread_self]
    exact ht.interruptible
  have hst : Queue.Holds .sleepingThreads _ := h.queued.state ht.mem
  unfold Sched.resume
  dsimp only
  rw [if_neg hns,if_pos hsl]
  refine ⟨rfl,(mem_add ..).mpr (Or.inr ⟨rfl,rfl⟩),?_⟩
  rw [add_thread,modify_thread_self,remove_thread,modify_thread_self,Thread.wake,
    if_pos (by exact hst.1)]
  change (Thread.storeResult (Thread.countWake (s.thread t))).stackTop = _
  rw [Thread.storeResult,if_pos (by exact ht.awaits)]
  rfl

/-- The count of the thread itself does not matter to its place. -/
theorem passes_count {f : Thread → Thread}
    (hf : ∀ th,(f th).stackTop = th.stackTop ∧
      (f th).interruptibleSleep = th.interruptibleSleep ∧
      (f th).canChangeState = th.canChangeState) : Passes x s (s.modify t f) := by
  by_cases hxt : x = t
  · subst hxt
    refine passes_of_eq id id id id ?_ ?_ ?_
    · rw [modify_thread_self,(hf _).1]
    · rw [modify_thread_self,(hf _).2.1]
    · rw [modify_thread_self,(hf _).2.2]
  · exact passes_modify f hxt

/-- Resume makes its thread ready or passes over it. -/
theorem resume_self (prepend : Bool) :
    Passes t s (s.resume t prepend).2 ∨
      t ∈ (s.resume t prepend).2.queue .readyThreads := by
  unfold Sched.resume
  dsimp only
  split_ifs
  · exact Or.inr ((mem_add ..).mpr (Or.inr ⟨rfl,rfl⟩))
  · exact Or.inr ((mem_add ..).mpr (Or.inr ⟨rfl,rfl⟩))
  · exact Or.inl (passes_count fun _ => ⟨rfl,rfl,rfl⟩)

/-- A live thread that is not runnable is blocked. -/
theorem Partition.blocked_of_not_runnable (h : Partition idle live s) (hx : x ∈ live)
    (hr : ¬Runnable x s) :
    x ∈ s.queue .suspendedThreads ∨ x ∈ s.queue .sleepingThreads := by
  rcases h.placed x hx with hc | ⟨q,hq⟩
  · exact absurd (Or.inl hc) hr
  · cases q with
    | readyThreads => exact absurd (Or.inr hq) hr
    | suspendedThreads => exact Or.inl hq
    | sleepingThreads => exact Or.inr hq

/-- A thread that is blocked is not runnable. -/
theorem Partition.not_runnable_of_blocked (h : Partition idle live s)
    (hx : x ∈ s.queue .suspendedThreads ∨ x ∈ s.queue .sleepingThreads) : ¬Runnable x s := by
  rcases hx with hx | hx
  · exact h.not_runnable hx (by simp)
  · exact h.not_runnable hx (by simp)

/-- Resume only counts on a thread that is runnable. -/
theorem Partition.resume_runnable (h : Partition idle live s) (prepend : Bool)
    (ht : Runnable t s) :
    s.resume t prepend = (false,s.modify t Thread.countWake) := by
  have hns (q : Queue) (hq : q ≠ .readyThreads) : t ∉ s.queue q := by
    rcases ht with hc | hr
    · exact h.current_out hc q
    · exact fun hm => hq (h.queued.disjoint hm hr)
  have hsus : t ∉ (s.modify t Thread.countWake).queue .suspendedThreads := hns _ (by simp)
  have hsl : ¬(t ∈ (s.modify t Thread.countWake).queue .sleepingThreads ∧
      ((s.modify t Thread.countWake).thread t).interruptibleSleep = true) :=
    fun hm => hns _ (by simp) hm.1
  unfold Sched.resume
  dsimp only
  rw [if_neg hsus,if_neg hsl]

end Operations

section Waiting

/-- The nanoseconds of one tick. -/
def nanosPerTick : ℕ := max 1 (1000000000 / tickFrequency)

/-- The milliseconds Thread::Sleep returns for the ticks left. -/
def timeLeft (ticksLeft : ℕ) : ℕ := ticksLeft * nanosPerTick / 1000000 % 2 ^ 32

/-- A call that waits, as its own stack remembers it. -/
structure WaitCall where
  /-- The timeout in milliseconds, or zero to wait without one. -/
  timeout : ℕ
  /-- What TicksSleep returned when it did not block. -/
  early : Option ℕ
  deriving DecidableEq

/-- What the call finds when it goes on: the milliseconds left, or one
without a timeout. -/
def WaitCall.timeleft (c : WaitCall) (th : Thread) : ℕ :=
  if c.timeout = 0 then 1 else timeLeft (c.early.getD th.stackTop)

/-- The current thread starts to wait: it sleeps when there is a timeout and
suspends otherwise. -/
def beginWait (idle : T) (t : T) (timeout : ℕ) (s : Sched T) : WaitCall × Sched T :=
  if timeout = 0 then (⟨0,none⟩,s.suspend idle t)
  else
    (⟨timeout,if (s.thread t).wakeCount - 1 ≠ 0 then some (sleepTicksOf timeout) else none⟩,
      s.ticksSleep idle t (sleepTicksOf timeout) true)

variable {idle : T} {live : List T} {s : Sched T} {x c : T} {timeout : ℕ}

/-- Both ways to wait keep the scheduler in order. -/
theorem Partition.beginWait (h : Partition idle live s) (hc : c ∈ live)
    (hm : timeout < 2 ^ 32) : Partition idle live (beginWait idle c timeout s).2 := by
  unfold Scheduler.beginWait
  split_ifs
  · exact h.suspend hc
  · obtain ⟨hlow,hhigh⟩ := sleepTicksOf_range hm
    exact h.ticksSleep true hc hlow hhigh
  · obtain ⟨hlow,hhigh⟩ := sleepTicksOf_range hm
    exact h.ticksSleep true hc hlow hhigh

/-- A call that does not block only uses a wake-up. -/
theorem beginWait_early (hw : 2 ≤ (s.thread c).wakeCount) :
    (beginWait idle c timeout s).2 = s.modify c Thread.dropWake ∧
      (beginWait idle c timeout s).1 =
        ⟨timeout,if timeout = 0 then none else some (sleepTicksOf timeout)⟩ := by
  have hcount : ((s.modify c Thread.dropWake).thread c).wakeCount ≠ 0 := by
    rw [modify_thread_self,Thread.dropWake_wakeCount]
    omega
  unfold beginWait
  by_cases h0 : timeout = 0
  · simp only [if_pos h0]
    refine ⟨?_,by rw [h0]⟩
    unfold Sched.suspend
    dsimp only
    rw [if_pos hcount]
  · simp only [if_neg h0]
    refine ⟨?_,by rw [if_pos (by omega)]⟩
    unfold Sched.ticksSleep
    dsimp only
    rw [if_pos hcount]

/-- A call that blocks leaves its thread suspended, or dozing when there is a timeout. -/
theorem Partition.beginWait_blocks (h : Partition idle live s) (hc : c ∈ live)
    (hcur : s.currentThread = some c) (hm : timeout < 2 ^ 32)
    (hw : (s.thread c).wakeCount ≤ 1) :
    (Scheduler.beginWait idle c timeout s).1 = ⟨timeout,none⟩ ∧
      (timeout = 0 →
        c ∈ (Scheduler.beginWait idle c timeout s).2.queue .suspendedThreads) ∧
      (timeout ≠ 0 → Dozing c (Scheduler.beginWait idle c timeout s).2) ∧
      ∀ x ∈ live,x ≠ c → Passes x s (Scheduler.beginWait idle c timeout s).2 := by
  have hk : Partition idle live (s.modify c Thread.dropWake) :=
    h.modify_keep Thread.dropWake_state Thread.dropWake_sleepTicks
  have hi : c ≠ idle := fun he => h.queued.idle_free (he ▸ hc)
  have hcount : ¬((s.modify c Thread.dropWake).thread c).wakeCount ≠ 0 := by
    rw [modify_thread_self,Thread.dropWake_wakeCount]
    omega
  unfold Scheduler.beginWait
  by_cases h0 : timeout = 0
  · have hsus : s.suspend idle c =
        (s.modify c Thread.dropWake |>.modify c (Thread.setState .suspending)).tick idle false := by
      unfold Sched.suspend
      dsimp only
      rw [if_neg hcount,if_pos (by exact hcur)]
    have hsw := hk.suspending hc hcur
    simp only [if_pos h0]
    refine ⟨by rw [h0],fun _ => ?_,fun hne => absurd h0 hne,fun x hx hne => ?_⟩
    · rw [hsus]
      exact mem_suspended_tick hcur hi (hk.current_out hcur _) (by simp)
    · rw [hsus]
      refine ((passes_modify _ hne).trans (passes_modify _ hne)).trans
        (Scheduler.passes_tick hsw hx fun hx' => ?_)
      exact absurd (Option.some.inj (hcur.symm.trans hx')).symm hne
  · obtain ⟨hlow,hhigh⟩ := sleepTicksOf_range hm
    have hsleep : s.ticksSleep idle c (sleepTicksOf timeout) true =
        ((fallAsleep c (sleepTicksOf timeout) true (s.modify c Thread.dropWake)).modify c
          Thread.awaitResult).tick idle false := by
      unfold Sched.ticksSleep
      dsimp only
      rw [if_neg hcount,if_pos (by exact hcur)]
      rfl
    have hsw := hk.asleep true hc hlow hhigh hcur
    have hq := hk.queued
    have hmem : c ∈ (fallAsleep c (sleepTicksOf timeout) true
        (s.modify c Thread.dropWake)).queue .sleepingThreads :=
      (mem_fallAsleep hq.nodup).mpr (Or.inr ⟨rfl,rfl⟩)
    simp only [if_neg h0]
    refine ⟨by rw [if_neg (by omega)],fun he => absurd he h0,fun _ => ?_,fun x hx hne => ?_⟩
    · rw [hsleep]
      refine dozing_tick hsw hcur ⟨hmem,?_,?_⟩
      · rw [modify_thread_self,fallAsleep,add_thread,modify_thread_self]
        rfl
      · rw [modify_thread_self]
        rfl
    · rw [hsleep]
      refine Passes.trans ?_ (Scheduler.passes_tick hsw hx fun hx' =>
        absurd (Option.some.inj (hcur.symm.trans hx')).symm hne)
      refine Passes.trans ?_ (passes_modify _ hne)
      refine (passes_modify Thread.dropWake hne).trans ?_
      unfold fallAsleep
      have hr₁ := hq.remove c .readyThreads
      have hr₂ := hr₁.remove c .suspendedThreads
      exact ((((passes_remove (hq.nodup _) hne).trans (passes_remove (hr₁.nodup _) hne)).trans
        (passes_remove (hr₂.nodup _) hne)).trans (passes_modify _ hne)).trans (passes_add ..)

end Waiting

end WootOs.Scheduler
