import WootOs.SchedulerPartition

/-!
# Wake-ups and the calls that use them

Resume increments WakeCount, and Suspend and TicksSleep decrement it and
return at once when it is still positive. The count is meant to keep a wake-up
that comes before the call it should end. What it holds depends on how the
thread last became runnable: Resume leaves one behind, the end of a sleep
leaves none.

Wakes follows one thread through a run: the count the thread had when it
became runnable, and the wake-ups it has been sent since. The main result says
exactly which calls of the thread on itself those wake-ups decide as they should.
-/

namespace WootOs.Scheduler

open ObjectQueue Sched

set_option linter.unusedSectionVars false

variable {T : Type*} [DecidableEq T]

/-- The thread is current or ready. -/
def Runnable (t : T) (s : Sched T) : Prop :=
  s.currentThread = some t ∨ t ∈ s.queue .readyThreads

instance (t : T) (s : Sched T) : Decidable (Runnable t s) :=
  inferInstanceAs (Decidable (s.currentThread = some t ∨ t ∈ s.queue .readyThreads))

/-- The operation calls Resume on the thread. -/
def Op.Wakes (t : T) : Op T → Prop
  | .resume x _ => x = t
  | .quickResume x => x = t
  | .finalize _ woken => woken = some t
  | _ => False

/-- The operation is a call of Suspend or TicksSleep on the thread. -/
def Op.Blocks (t : T) : Op T → Prop
  | .suspend x => x = t
  | .ticksSleep x _ _ => x = t
  | .sleep x _ _ => x = t
  | _ => False

instance (t : T) (op : Op T) : Decidable (op.Wakes t) :=
  match op with
  | .resume x _ => inferInstanceAs (Decidable (x = t))
  | .quickResume x => inferInstanceAs (Decidable (x = t))
  | .finalize _ woken => inferInstanceAs (Decidable (woken = some t))
  | .enable _ => inferInstanceAs (Decidable False)
  | .suspend _ => inferInstanceAs (Decidable False)
  | .ticksSleep .. => inferInstanceAs (Decidable False)
  | .sleep .. => inferInstanceAs (Decidable False)
  | .tick _ => inferInstanceAs (Decidable False)

instance (t : T) (op : Op T) : Decidable (op.Blocks t) :=
  match op with
  | .suspend x => inferInstanceAs (Decidable (x = t))
  | .ticksSleep x _ _ => inferInstanceAs (Decidable (x = t))
  | .sleep x _ _ => inferInstanceAs (Decidable (x = t))
  | .enable _ => inferInstanceAs (Decidable False)
  | .resume .. => inferInstanceAs (Decidable False)
  | .quickResume _ => inferInstanceAs (Decidable False)
  | .finalize .. => inferInstanceAs (Decidable False)
  | .tick _ => inferInstanceAs (Decidable False)

/-- The wake-ups of one thread since it last became runnable. -/
structure Wakes where
  /-- WakeCount when the thread became runnable, less what calls have used of it. -/
  base : ℕ
  /-- Calls of Resume since then that no call of the thread has used. -/
  pending : ℕ
  deriving DecidableEq

/-- The wake-ups after an operation. A thread that becomes runnable starts
anew; a call that does not block uses a pending wake-up before the others. -/
def Wakes.next (t : T) (op : Op T) (before after : Sched T) (w : Wakes) : Wakes :=
  if Runnable t after then
    if Runnable t before then
      if op.Wakes t then ⟨w.base,w.pending+1⟩
      else if op.Blocks t then
        if w.pending = 0 then ⟨w.base-1,0⟩ else ⟨w.base,w.pending-1⟩
      else w
    else ⟨(after.thread t).wakeCount,0⟩
  else w

section Counts

variable {idle : T} {s : Sched T}

/-- A change of a record that keeps its count keeps every count. -/
theorem modify_wakeCount {f : Thread → Thread} (hf : ∀ th,(f th).wakeCount = th.wakeCount)
    (x t : T) : ((s.modify x f).thread t).wakeCount = (s.thread t).wakeCount := by
  by_cases h : t = x
  · subst h
    rw [modify_thread_self,hf]
  · rw [modify_thread_ne _ _ _ h]

theorem settle_wakeCount (doTick : Bool) (t : T) :
    ((settle doTick s).thread t).wakeCount = (s.thread t).wakeCount := by
  have hw (s : Sched T) : (s.wakeExpired.thread t).wakeCount = (s.thread t).wakeCount := by
    simp only [wakeExpired]
    split_ifs
    · exact Thread.expire_wakeCount _
    · rfl
  cases doTick with
  | false => exact hw s
  | true =>
    rw [settle,if_pos rfl,hw]
    simp only [tickSleepers]
    split_ifs
    · exact Thread.tick_wakeCount _
    · rfl

theorem yieldCurrent_wakeCount (t : T) :
    ((yieldCurrent idle s).thread t).wakeCount = (s.thread t).wakeCount := by
  unfold yieldCurrent
  cases s.currentThread with
  | none => rfl
  | some c =>
    dsimp only
    split_ifs
    · exact modify_wakeCount (Thread.setState_wakeCount _) c t
    · exact modify_wakeCount (Thread.setState_wakeCount _) c t
    · rfl

/-- A tick changes no count, although it may end a sleep. -/
theorem tick_wakeCount (doTick : Bool) (t : T) :
    ((tick idle doTick s).thread t).wakeCount = (s.thread t).wakeCount := by
  have hnext : ((getNext idle doTick s).2.thread t).wakeCount = (s.thread t).wakeCount := by
    have htake (s : Sched T) : (takeReady idle s).2.thread = s.thread := by
      unfold takeReady
      split <;> rfl
    change ((takeReady idle (yieldCurrent idle (settle doTick s))).2.thread t).wakeCount = _
    rw [htake,yieldCurrent_wakeCount,settle_wakeCount]
  rw [tick,switch]
  split_ifs
  · exact hnext
  · rw [←hnext]
    exact modify_wakeCount (Thread.setState_wakeCount _) _ t

theorem resume_wakeCount (x t : T) (prepend : Bool) :
    ((s.resume x prepend).2.thread t).wakeCount =
      if t = x then ((s.thread t).wakeCount + 1) % 2 ^ 32 else (s.thread t).wakeCount := by
  have hcount : ((s.modify x Thread.countWake).thread t).wakeCount =
      if t = x then ((s.thread t).wakeCount + 1) % 2 ^ 32 else (s.thread t).wakeCount := by
    split_ifs with h
    · subst h
      rw [modify_thread_self,Thread.countWake]
    · rw [modify_thread_ne _ _ _ h]
  rw [←hcount]
  unfold resume
  dsimp only
  split_ifs
  · exact modify_wakeCount Thread.wake_wakeCount x t
  · exact modify_wakeCount Thread.wake_wakeCount x t
  · rfl

theorem quickResume_wakeCount (x t : T) :
    ((quickResume idle x s).2.thread t).wakeCount =
      if t = x then ((s.thread t).wakeCount + 1) % 2 ^ 32 else (s.thread t).wakeCount := by
  rw [←resume_wakeCount x t true]
  unfold quickResume
  split_ifs
  · exact tick_wakeCount true t
  · rfl

theorem dropWake_count (x t : T) :
    ((s.modify x Thread.dropWake).thread t).wakeCount =
      if t = x then (s.thread t).wakeCount - 1 else (s.thread t).wakeCount := by
  split_ifs with h
  · subst h
    rw [modify_thread_self,Thread.dropWake_wakeCount]
  · rw [modify_thread_ne _ _ _ h]

theorem suspend_wakeCount (x t : T) :
    ((suspend idle x s).thread t).wakeCount =
      if t = x then (s.thread t).wakeCount - 1 else (s.thread t).wakeCount := by
  rw [←dropWake_count]
  unfold suspend
  dsimp only
  split_ifs
  · rfl
  · rw [tick_wakeCount]
    exact modify_wakeCount (Thread.setState_wakeCount _) x t
  · exact modify_wakeCount (Thread.setState_wakeCount _) x t
  · exact modify_wakeCount (Thread.setState_wakeCount _) x t
  · rfl

theorem ticksSleep_wakeCount (x t : T) (ticks : ℕ) (interruptible : Bool) :
    ((ticksSleep idle x ticks interruptible s).thread t).wakeCount =
      if t = x then (s.thread t).wakeCount - 1 else (s.thread t).wakeCount := by
  rw [←dropWake_count]
  unfold ticksSleep
  dsimp only
  split_ifs
  · rfl
  · rw [tick_wakeCount,modify_wakeCount Thread.awaitResult_wakeCount]
    exact modify_wakeCount (Thread.sleep_wakeCount _ _) x t
  · exact modify_wakeCount (Thread.sleep_wakeCount _ _) x t

theorem retire_wakeCount (x t : T) :
    ((retire idle x s).thread t).wakeCount = (s.thread t).wakeCount := by
  unfold retire
  dsimp only
  split_ifs
  · rw [tick_wakeCount]
    exact modify_wakeCount (Thread.setState_wakeCount _) x t
  · exact modify_wakeCount (Thread.setState_wakeCount _) x t

theorem finalize_wakeCount {thread : Option T} {x : T} (hx : thread.or s.currentThread = some x)
    (woken : Option T) (t : T) :
    ((finalize idle thread woken s).thread t).wakeCount =
      if woken = some t then ((s.thread t).wakeCount + 1) % 2 ^ 32
      else (s.thread t).wakeCount := by
  unfold finalize
  rw [hx]
  cases woken with
  | none => exact (retire_wakeCount x t).trans (by simp)
  | some w =>
    refine (retire_wakeCount x t).trans ((resume_wakeCount w t false).trans ?_)
    simp [eq_comm]

/-- Only the operations on a thread change its count. -/
theorem apply_wakeCount {g : Census T} {op : Op T} {t : T} (hl : op.Legal s.currentThread g) :
    ((s.apply idle op).thread t).wakeCount =
      if op.Wakes t then ((s.thread t).wakeCount + 1) % 2 ^ 32
      else if op.Blocks t then (s.thread t).wakeCount - 1
      else (s.thread t).wakeCount := by
  cases op with
  | enable x =>
    refine Eq.trans (modify_wakeCount (Thread.setState_wakeCount _) x t) ?_
    simp [Op.Wakes,Op.Blocks]
  | suspend x =>
    refine (suspend_wakeCount x t).trans ?_
    simp [Op.Wakes,Op.Blocks,eq_comm]
  | resume x prepend =>
    refine (resume_wakeCount x t prepend).trans ?_
    simp [Op.Wakes,Op.Blocks,eq_comm]
  | quickResume x =>
    refine (quickResume_wakeCount x t).trans ?_
    simp [Op.Wakes,Op.Blocks,eq_comm]
  | ticksSleep x ticks interruptible =>
    refine (ticksSleep_wakeCount x t ticks interruptible).trans ?_
    simp [Op.Wakes,Op.Blocks,eq_comm]
  | sleep x millis interruptible =>
    refine (ticksSleep_wakeCount x t _ interruptible).trans ?_
    simp [Op.Wakes,Op.Blocks,eq_comm]
  | finalize thread woken =>
    obtain ⟨⟨x,-,hx⟩,-⟩ := hl
    refine (finalize_wakeCount hx woken t).trans ?_
    simp [Op.Wakes,Op.Blocks]
  | tick doTick =>
    refine (tick_wakeCount doTick t).trans ?_
    simp [Op.Wakes,Op.Blocks]

end Counts

section Calls

variable {idle : T} {live : List T} {s : Sched T} {t : T}

/-- A blocked thread of an ordered scheduler is not runnable. -/
theorem Partition.not_runnable (h : Partition idle live s) {q : Queue} (ht : t ∈ s.queue q)
    (hq : q ≠ .readyThreads) : ¬Runnable t s := by
  rintro (hc | hr)
  · exact h.current_out hc q ht
  · exact hq (h.queued.disjoint ht hr)

/-- A thread that GetNext finds blocked stays so over the switch. -/
theorem mem_tick {doTick : Bool} {q : Queue} (hq : q ≠ .readyThreads)
    (ht : t ∈ (yieldCurrent idle (settle doTick s)).queue q) :
    t ∈ (tick idle doTick s).queue q := by
  have hnext : t ∈ (getNext idle doTick s).2.queue q := by
    change t ∈ (takeReady idle (yieldCurrent idle (settle doTick s))).2.queue q
    unfold takeReady
    split
    · exact ht
    · simpa [Sched.remove,hq] using ht
  rw [tick,switch]
  split_ifs
  · exact hnext
  · exact hnext

/-- A current thread that marked itself suspends. -/
theorem mem_suspended_tick (hc : s.currentThread = some t) (hi : t ≠ idle)
    (hs : t ∉ s.queue .sleepingThreads) (hst : (s.thread t).state = .suspending) :
    t ∈ (tick idle false s).queue .suspendedThreads := by
  refine mem_tick (by simp) ?_
  have hth : (settle false s).thread t = s.thread t := settle_thread false hs
  have hy : yieldCurrent idle (settle false s) =
      ((settle false s).modify t (Thread.setState .suspended)).add .suspendedThreads t false := by
    simp [yieldCurrent,hc,hi,hth,hst]
  rw [hy]
  exact (mem_add ..).mpr (Or.inr ⟨rfl,rfl⟩)

/-- A current thread that was put to sleep sleeps on. -/
theorem mem_sleeping_tick (h : Queued idle live s) (hc : s.currentThread = some t)
    (ht : t ∈ s.queue .sleepingThreads) : t ∈ (tick idle false s).queue .sleepingThreads := by
  refine mem_tick (by simp) ?_
  obtain ⟨hm,hth⟩ := settle_sleeping h ht
  have hst : Queue.Holds .sleepingThreads _ := h.state ht
  have hy : yieldCurrent idle (settle false s) = settle false s := by
    simp [yieldCurrent,hc,hth,hst.1]
  rw [hy]
  exact hm

/-- Suspend on a runnable thread returns with the thread runnable exactly when
the count allows two. -/
theorem Partition.runnable_suspend (h : Partition idle live s) (ht : t ∈ live)
    (hr : Runnable t s) :
    Runnable t (Sched.suspend idle t s) ↔ 2 ≤ (s.thread t).wakeCount := by
  have hp := h.suspend ht
  have hk : Partition idle live (s.modify t Thread.dropWake) :=
    h.modify_keep Thread.dropWake_state Thread.dropWake_sleepTicks
  have hw : ((s.modify t Thread.dropWake).thread t).wakeCount = (s.thread t).wakeCount - 1 := by
    rw [modify_thread_self,Thread.dropWake_wakeCount]
  have hi : t ≠ idle := fun he => h.queued.idle_free (he ▸ ht)
  have hrun : Runnable t (s.modify t Thread.dropWake) := hr
  by_cases hcount : 2 ≤ (s.thread t).wakeCount
  · have he : Sched.suspend idle t s = s.modify t Thread.dropWake := by
      unfold Sched.suspend
      dsimp only
      rw [if_pos (by omega)]
    rw [he]
    exact ⟨fun _ => hcount,fun _ => hrun⟩
  · refine ⟨fun hrun' => absurd hrun' ?_,fun h2 => absurd h2 hcount⟩
    have hblocked : t ∈ (Sched.suspend idle t s).queue .suspendedThreads := by
      unfold Sched.suspend
      dsimp only
      rw [if_neg (by omega)]
      split_ifs with hc hready hsl
      · have hsw := hk.suspending ht hc
        exact mem_suspended_tick hc hi (hk.current_out hc _) (by simp)
      · exact (mem_add ..).mpr (Or.inr ⟨rfl,rfl⟩)
      · exact (mem_add ..).mpr (Or.inr ⟨rfl,rfl⟩)
      · rcases hrun with hc' | hr'
        · exact absurd hc' hc
        · exact absurd hr' hready
    exact hp.not_runnable hblocked (by simp)

/-- So does TicksSleep. -/
theorem Partition.runnable_ticksSleep (h : Partition idle live s) (ht : t ∈ live)
    (hr : Runnable t s) {ticks : ℕ} (interruptible : Bool) (hlow : 1 ≤ ticks)
    (hhigh : ticks < 2 ^ 31) :
    Runnable t (Sched.ticksSleep idle t ticks interruptible s) ↔ 2 ≤ (s.thread t).wakeCount := by
  have hp := h.ticksSleep interruptible ht hlow hhigh
  have hk : Partition idle live (s.modify t Thread.dropWake) :=
    h.modify_keep Thread.dropWake_state Thread.dropWake_sleepTicks
  have hw : ((s.modify t Thread.dropWake).thread t).wakeCount = (s.thread t).wakeCount - 1 := by
    rw [modify_thread_self,Thread.dropWake_wakeCount]
  have hrun : Runnable t (s.modify t Thread.dropWake) := hr
  by_cases hcount : 2 ≤ (s.thread t).wakeCount
  · have he : Sched.ticksSleep idle t ticks interruptible s = s.modify t Thread.dropWake := by
      unfold Sched.ticksSleep
      dsimp only
      rw [if_pos (by omega)]
    rw [he]
    exact ⟨fun _ => hcount,fun _ => hrun⟩
  · refine ⟨fun hrun' => absurd hrun' ?_,fun h2 => absurd h2 hcount⟩
    have hmem : t ∈ (fallAsleep t ticks interruptible (s.modify t Thread.dropWake)).queue
        .sleepingThreads := (mem_fallAsleep hk.queued.nodup).mpr (Or.inr ⟨rfl,rfl⟩)
    have hblocked : t ∈ (Sched.ticksSleep idle t ticks interruptible s).queue .sleepingThreads := by
      unfold Sched.ticksSleep
      dsimp only
      rw [if_neg (by omega)]
      split_ifs with hc
      · exact mem_sleeping_tick (hk.asleep interruptible ht hlow hhigh hc).queued hc hmem
      · exact hmem
    exact hp.not_runnable hblocked (by simp)

/-- A call that may block leaves a runnable thread runnable exactly when its
count is at least two. -/
theorem Ordered.runnable_blocks {g : Census T} {op : Op T} (h : Ordered idle g s)
    (hl : op.Legal s.currentThread g) (hb : op.Blocks t) (hr : Runnable t s) :
    Runnable t (s.apply idle op) ↔ 2 ≤ (s.thread t).wakeCount := by
  cases op with
  | suspend x =>
    obtain rfl : x = t := hb
    exact h.partition.runnable_suspend hl hr
  | ticksSleep x ticks interruptible =>
    obtain rfl : x = t := hb
    exact h.partition.runnable_ticksSleep hl.1 hr interruptible hl.2.1 hl.2.2
  | sleep x millis interruptible =>
    obtain rfl : x = t := hb
    obtain ⟨hlow,hhigh⟩ := sleepTicksOf_range hl.2
    exact h.partition.runnable_ticksSleep hl.1 hr interruptible hlow hhigh
  | enable x => exact absurd hb (by simp [Op.Blocks])
  | resume x prepend => exact absurd hb (by simp [Op.Blocks])
  | quickResume x => exact absurd hb (by simp [Op.Blocks])
  | finalize thread woken => exact absurd hb (by simp [Op.Blocks])
  | tick doTick => exact absurd hb (by simp [Op.Blocks])

end Calls

section Runs

variable (idle t : T)

/-- The operations of a run are legal, each in the state it finds. -/
def LegalRun : Sched T → Census T → List (Op T) → Prop
  | _,_,[] => True
  | s,g,op :: ops =>
    op.Legal s.currentThread g ∧ LegalRun (s.apply idle op) (op.census s.currentThread g) ops

/-- A property of every call of Suspend or TicksSleep that the thread makes on
itself in a run. -/
def AtCalls (P : Sched T → Op T → Wakes → Prop) : Sched T → Wakes → List (Op T) → Prop
  | _,_,[] => True
  | s,w,op :: ops =>
    (op.Blocks t → s.currentThread = some t → P s op w) ∧
    AtCalls P (s.apply idle op) (w.next t op s (s.apply idle op)) ops

/-- The call returns without blocking exactly when a wake-up is pending. -/
def CallRight (s : Sched T) (op : Op T) (w : Wakes) : Prop :=
  Runnable t (s.apply idle op) ↔ 0 < w.pending

/-- The count left from the last wake-up serves its purpose: one at most with
no wake-up pending, and with one pending enough to make two. -/
def Wakes.Serves (w : Wakes) : Prop :=
  if w.pending = 0 then w.base ≤ 1 else 2 ≤ (w.base + w.pending) % 2 ^ 32

/-- Every call of the thread on itself is right. -/
def CallsRight : Sched T → Wakes → List (Op T) → Prop := AtCalls idle t (CallRight idle t)

/-- The count serves at every such call. -/
def CallsServed : Sched T → Wakes → List (Op T) → Prop := AtCalls idle t fun _ _ w => w.Serves

instance decidableLegalRun (s : Sched T) (g : Census T) (ops : List (Op T)) :
    Decidable (LegalRun idle s g ops) :=
  match ops with
  | [] => inferInstanceAs (Decidable True)
  | op :: ops =>
    have := decidableLegalRun (s.apply idle op) (op.census s.currentThread g) ops
    inferInstanceAs (Decidable (op.Legal s.currentThread g ∧ _))

instance decidableAtCalls {P : Sched T → Op T → Wakes → Prop}
    [∀ s op w,Decidable (P s op w)] (s : Sched T) (w : Wakes) (ops : List (Op T)) :
    Decidable (AtCalls idle t P s w ops) :=
  match ops with
  | [] => inferInstanceAs (Decidable True)
  | op :: ops =>
    have := decidableAtCalls (P := P) (s.apply idle op) (w.next t op s (s.apply idle op)) ops
    inferInstanceAs (Decidable ((op.Blocks t → s.currentThread = some t → P s op w) ∧ _))

instance (s : Sched T) (op : Op T) (w : Wakes) : Decidable (CallRight idle t s op w) :=
  inferInstanceAs (Decidable (_ ↔ _))

instance (w : Wakes) : Decidable w.Serves :=
  inferInstanceAs (Decidable (if w.pending = 0 then w.base ≤ 1 else _))

instance (s : Sched T) (w : Wakes) (ops : List (Op T)) : Decidable (CallsRight idle t s w ops) :=
  decidableAtCalls idle t s w ops

instance (s : Sched T) (w : Wakes) (ops : List (Op T)) : Decidable (CallsServed idle t s w ops) :=
  decidableAtCalls idle t s w ops

/-- What the wake-ups say about the count of a runnable thread. -/
def Counted (s : Sched T) (w : Wakes) : Prop :=
  (s.thread t).wakeCount < 2 ^ 32 ∧
    (Runnable t s → (s.thread t).wakeCount = (w.base + w.pending) % 2 ^ 32 ∧ w.base < 2 ^ 32)

variable {idle t}

/-- Every operation keeps the count and the wake-ups in step. -/
theorem Counted.next {s : Sched T} {g : Census T} {w : Wakes} {op : Op T} (hc : Counted t s w)
    (h : Ordered idle g s) (hl : op.Legal s.currentThread g) :
    Counted t (s.apply idle op) (w.next t op s (s.apply idle op)) := by
  obtain ⟨hbound,hrun⟩ := hc
  have hcount := @apply_wakeCount T _ idle s g op t hl
  have hbound' : ((s.apply idle op).thread t).wakeCount < 2 ^ 32 := by
    rw [hcount]
    split_ifs <;> omega
  refine ⟨hbound',fun hafter => ?_⟩
  rw [Wakes.next,if_pos hafter]
  by_cases hbefore : Runnable t s
  · obtain ⟨hw,hbase⟩ := hrun hbefore
    rw [if_pos hbefore]
    by_cases hwakes : op.Wakes t
    · rw [if_pos hwakes] at hcount ⊢
      rw [hcount,hw]
      exact ⟨by simp only; omega,hbase⟩
    · rw [if_neg hwakes] at hcount ⊢
      by_cases hblocks : op.Blocks t
      · rw [if_pos hblocks] at hcount ⊢
        have htwo := (h.runnable_blocks hl hblocks hbefore).mp hafter
        rw [hcount]
        split_ifs with hp
        · rw [hp] at hw
          exact ⟨by simp only; omega,by simp only; omega⟩
        · exact ⟨by simp only; omega,hbase⟩
      · rw [if_neg hblocks] at hcount ⊢
        rw [hcount]
        exact ⟨hw,hbase⟩
  · rw [if_neg hbefore]
    exact ⟨(Nat.mod_eq_of_lt hbound').symm,hbound'⟩

/-- A call of the thread on itself is decided by its wake-ups exactly when
the count serves. -/
theorem Counted.call_iff {s : Sched T} {g : Census T} {w : Wakes} {op : Op T}
    (hc : Counted t s w) (h : Ordered idle g s) (hl : op.Legal s.currentThread g)
    (hb : op.Blocks t) (hcur : s.currentThread = some t) :
    CallRight idle t s op w ↔ w.Serves := by
  have hrun : Runnable t s := Or.inl hcur
  obtain ⟨hw,hbase⟩ := hc.2 hrun
  rw [CallRight,h.runnable_blocks hl hb hrun,hw,Wakes.Serves]
  split_ifs with hp
  · rw [hp,Nat.add_zero,Nat.mod_eq_of_lt hbase]
    omega
  · have hpos : 0 < w.pending := by omega
    simp [hpos]

/-- Along any legal run the calls are right exactly when the count serves at each. -/
theorem callsRight_iff_served {s : Sched T} {g : Census T} {w : Wakes} {ops : List (Op T)}
    (hc : Counted t s w) (h : Ordered idle g s) (hl : LegalRun idle s g ops) :
    CallsRight idle t s w ops ↔ CallsServed idle t s w ops := by
  induction ops generalizing s g w with
  | nil => rfl
  | cons op ops ih =>
    obtain ⟨hop,hrest⟩ := hl
    have hcall : (op.Blocks t → s.currentThread = some t → CallRight idle t s op w) ↔
          (op.Blocks t → s.currentThread = some t → w.Serves) :=
      forall_congr' fun hb => forall_congr' fun hcur => hc.call_iff h hop hb hcur
    exact and_congr hcall (ih (hc.next h hop) (h.apply hop) hrest)

end Runs

end WootOs.Scheduler
