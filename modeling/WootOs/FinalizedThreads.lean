import WootOs.Runs
import WootOs.SchedulerPartition

/-!
# Finalized threads

A handle outlives the thread it names: Finalize takes the thread out of every
queue, and the handle calls go on working on the object. Resume and Suspend
move a thread only from a queue they find it in, and Finalize may come twice.
TicksSleep does not look where the thread is. It puts any thread among the
sleeping ones, and when the sleep is over a finalized thread runs again.

So a finalized thread stays where it is as long as nothing puts it to sleep,
or the sleep is one of those that WakeCount makes TicksSleep ignore.
-/

namespace WootOs.FinalizedThreads

open Runs Scheduler Sched

set_option linter.unusedSectionVars false

variable {T : Type*} [DecidableEq T]

section Operations

variable {idle : T} {g : Census T} {s : Sched T}

/-- Finalize has run for a thread. -/
def Finalized (idle : T) (g : Census T) (t : T) : Prop := t ∈ g.seen ∧ t ∉ g.live ∧ t ≠ idle

/-- Every finalized thread is in no queue and is not the current thread. -/
def StayDead (idle : T) (g : Census T) (s : Sched T) : Prop :=
  ∀ t,Finalized idle g t → (∀ q,t ∉ s.queue q) ∧ s.currentThread ≠ some t

/-- The operations on any thread there has been, finalized or not. A new thread is enabled
once, and the idle thread is left alone. -/
def Allowed (idle : T) (current : Option T) (g : Census T) : Op T → Prop
  | .enable t => t ∉ g.seen
  | .suspend t => t ∈ g.seen ∧ t ≠ idle
  | .resume _ _ => True
  | .quickResume _ => True
  | .ticksSleep t ticks _ => (t ∈ g.seen ∧ t ≠ idle) ∧ 1 ≤ ticks ∧ ticks < 2 ^ 31
  | .sleep t millis _ => (t ∈ g.seen ∧ t ≠ idle) ∧ millis < 2 ^ 32
  | .finalize thread _ => ∃ t,thread.or current = some t ∧ t ∈ g.seen ∧ t ≠ idle
  | .tick _ => True

/-- A sleep is that of a thread that is not finalized, or WakeCount makes it be ignored. -/
def Wakeful (g : Census T) (s : Sched T) : Op T → Prop
  | .ticksSleep t _ _ => t ∈ g.live ∨ 2 ≤ (s.thread t).wakeCount
  | .sleep t _ _ => t ∈ g.live ∨ 2 ≤ (s.thread t).wakeCount
  | _ => True

/-- The threads that are not live are out of the way of the scheduler. -/
theorem not_current_of_dead {live : List T} {t : T} (h : Partition idle live s) (ht : t ∉ live)
    (hi : t ≠ idle) : s.currentThread ≠ some t := by
  intro hc
  obtain ⟨c,hcur,hrun⟩ := h.current
  obtain rfl : t = c := Option.some.inj (hc.symm.trans hcur)
  rcases hrun with rfl | hrun
  · exact hi rfl
  · exact ht hrun.1

theorem stayDead_of_ordered (h : Ordered idle g s) : StayDead idle g s := by
  intro t ht
  refine ⟨fun q hq => ht.2.1 (h.partition.queued.mem_live hq),?_⟩
  exact not_current_of_dead h.partition ht.2.1 ht.2.2

/-- Suspend leaves a finalized thread where it is. -/
theorem suspend_dead {live : List T} {t : T} (h : Partition idle live s) (ht : t ∉ live)
    (hi : t ≠ idle) : s.suspend idle t = s.modify t Thread.dropWake := by
  have hout : ∀ q,t ∉ (s.modify t Thread.dropWake).queue q := fun q hq => ht (h.queued.mem_live hq)
  have hcur := not_current_of_dead h ht hi
  unfold Sched.suspend
  dsimp only
  split_ifs with hw hc hr hsl
  · rfl
  · exact absurd hc hcur
  · exact absurd hr (hout _)
  · exact absurd hsl (hout _)
  · rfl

/-- A sleep that WakeCount makes be ignored only uses a wake-up. -/
theorem ticksSleep_ignored {t : T} {ticks : ℕ} {interruptible : Bool}
    (hw : 2 ≤ (s.thread t).wakeCount) :
    s.ticksSleep idle t ticks interruptible = s.modify t Thread.dropWake := by
  have hcount : ((s.modify t Thread.dropWake).thread t).wakeCount ≠ 0 := by
    rw [modify_thread_self,Thread.dropWake_wakeCount]
    omega
  unfold Sched.ticksSleep
  dsimp only
  rw [if_pos hcount]

/-- TicksSleep keeps the scheduler in order when it leaves the finalized threads alone. -/
theorem partition_ticksSleep {live : List T} {t : T} {ticks : ℕ} (interruptible : Bool)
    (h : Partition idle live s) (hw : t ∈ live ∨ 2 ≤ (s.thread t).wakeCount) (hlow : 1 ≤ ticks)
    (hhigh : ticks < 2 ^ 31) : Partition idle live (s.ticksSleep idle t ticks interruptible) := by
  rcases hw with ht | hw
  · exact h.ticksSleep interruptible ht hlow hhigh
  · rw [ticksSleep_ignored hw]
    exact h.modify_keep Thread.dropWake_state Thread.dropWake_sleepTicks

/-- Finalize keeps the scheduler in order, whatever thread it is called for. -/
theorem ordered_finalize {thread woken : Option T} {t : T} (h : Ordered idle g s)
    (ht : thread.or s.currentThread = some t) :
    Ordered idle ⟨g.seen,g.live.erase t⟩ (s.finalize idle thread woken) := by
  have hret : Partition idle (g.live.erase t) (s.finalize idle thread woken) := by
    simp only [Sched.finalize,ht]
    cases woken with
    | none => exact h.partition.retire h.nodup
    | some w => exact (h.partition.resume w false).retire h.nodup
  exact ⟨hret,fun x hx => h.seen x (List.mem_of_mem_erase hx),h.idle_seen,h.nodup.erase t⟩

/-- Every operation keeps the scheduler in order when it leaves the finalized threads alone. -/
theorem ordered_apply {op : Op T} (h : Ordered idle g s) (ha : Allowed idle s.currentThread g op)
    (hw : Wakeful g s op) : Ordered idle (op.census s.currentThread g) (s.apply idle op) := by
  have hp := h.partition
  cases op with
  | enable t => exact h.apply ha
  | suspend t =>
    refine ⟨?_,h.seen,h.idle_seen,h.nodup⟩
    by_cases ht : t ∈ g.live
    · exact hp.suspend ht
    · rw [Sched.apply,suspend_dead hp ht ha.2]
      exact hp.modify_keep Thread.dropWake_state Thread.dropWake_sleepTicks
  | resume t prepend => exact ⟨hp.resume t prepend,h.seen,h.idle_seen,h.nodup⟩
  | quickResume t => exact ⟨hp.quickResume t,h.seen,h.idle_seen,h.nodup⟩
  | ticksSleep t ticks interruptible =>
    obtain ⟨-,hlow,hhigh⟩ := ha
    exact ⟨partition_ticksSleep interruptible hp hw hlow hhigh,h.seen,h.idle_seen,h.nodup⟩
  | sleep t millis interruptible =>
    obtain ⟨hlow,hhigh⟩ := sleepTicksOf_range ha.2
    exact ⟨partition_ticksSleep interruptible hp hw hlow hhigh,h.seen,h.idle_seen,h.nodup⟩
  | finalize thread woken =>
    obtain ⟨t,hthread,-,-⟩ := ha
    have hg : (Op.finalize thread woken).census s.currentThread g = ⟨g.seen,g.live.erase t⟩ := by
      simp only [Op.census,hthread]
    rw [hg]
    exact ordered_finalize h hthread
  | tick doTick => exact ⟨hp.tick doTick,h.seen,h.idle_seen,h.nodup⟩

/-- A finalized thread that is put to sleep is in a queue again. -/
theorem ticksSleep_revives {t : T} {ticks : ℕ} {interruptible : Bool} (h : Ordered idle g s)
    (ht : Finalized idle g t) (hw : (s.thread t).wakeCount < 2) :
    t ∈ (s.ticksSleep idle t ticks interruptible).queue .sleepingThreads := by
  have hcount : ¬((s.modify t Thread.dropWake).thread t).wakeCount ≠ 0 := by
    rw [modify_thread_self,Thread.dropWake_wakeCount]
    omega
  have hcur : s.currentThread ≠ some t := not_current_of_dead h.partition ht.2.1 ht.2.2
  have hsleep : s.ticksSleep idle t ticks interruptible =
      fallAsleep t ticks interruptible (s.modify t Thread.dropWake) := by
    unfold Sched.ticksSleep
    dsimp only
    rw [if_neg hcount,if_neg (by exact hcur)]
    rfl
  have hn : ∀ q,((s.modify t Thread.dropWake).queue q).Nodup := h.partition.queued.nodup
  rw [hsleep]
  exact (mem_fallAsleep hn).mpr (.inr ⟨rfl,rfl⟩)

/-- An operation that puts a finalized thread to sleep brings it back. -/
theorem not_stayDead {op : Op T} (h : Ordered idle g s) (ha : Allowed idle s.currentThread g op)
    (hw : ¬Wakeful g s op) : ¬StayDead idle (op.census s.currentThread g) (s.apply idle op) := by
  intro hdead
  cases op with
  | ticksSleep t ticks interruptible =>
    obtain ⟨hlive,hcount⟩ := not_or.mp hw
    have ht : Finalized idle g t := ⟨ha.1.1,hlive,ha.1.2⟩
    exact (hdead t ht).1 _ (ticksSleep_revives h ht (by omega))
  | sleep t millis interruptible =>
    obtain ⟨hlive,hcount⟩ := not_or.mp hw
    have ht : Finalized idle g t := ⟨ha.1.1,hlive,ha.1.2⟩
    exact (hdead t ht).1 _ (ticksSleep_revives h ht (by omega))
  | enable t => exact hw trivial
  | suspend t => exact hw trivial
  | resume t prepend => exact hw trivial
  | quickResume t => exact hw trivial
  | finalize thread woken => exact hw trivial
  | tick doTick => exact hw trivial

end Operations

section Handles

/-- The scheduler and the open thread handles of the processes. The census records the
history. -/
structure System (T : Type*) where
  /-- The scheduler. -/
  sched : Sched T
  /-- The threads there have been. -/
  census : Census T
  /-- The thread that each open handle names. -/
  handles : ℕ → Option T

/-- What a process does with its threads, and what the scheduler does by itself. Each
handle stands for the one of some process. -/
inductive Call (T : Type*) where
  /-- An operation of the scheduler. -/
  | op (op : Op T)
  /-- Process::NewThread, with the thread it makes and the handle it returns. -/
  | newThread (t : T) (handle : ℕ)
  /-- Process::Close of a thread handle. -/
  | close (handle : ℕ) (woken : Option T)
  /-- Process::ResumeThread. -/
  | resumeThread (handle : ℕ)
  /-- Process::SuspendThread. -/
  | suspendThread (handle : ℕ)
  /-- Process::SleepThread. -/
  | sleepThread (handle : ℕ) (ms : BitVec 32)
  /-- Process::WaitThread, with whether its Wait has to wait. -/
  | waitThread (handle : ℕ) (timeout : BitVec 32) (blocked : Bool)
  /-- Process::AbortThread. -/
  | abortThread (handle : ℕ) (woken : Option T)
  deriving DecidableEq

namespace System

variable (idle : T) (m : System T)

/-- The operation of the scheduler that a call comes to. A handle that names no thread
makes the call fail before it. -/
def op : Call T → Option (Op T)
  | .op op => some op
  | .newThread t _ => some (.enable t)
  | .close handle woken => (m.handles handle).map fun t => .finalize (some t) woken
  | .resumeThread handle => (m.handles handle).map fun t => .resume t false
  | .suspendThread handle => (m.handles handle).map .suspend
  | .sleepThread handle ms => (m.handles handle).map fun t => .sleep t ms.toNat false
  | .waitThread handle timeout blocked =>
    match m.handles handle,m.sched.currentThread with
    | some _,some c =>
      if blocked ∧ timeout ≠ 0 then
        some (if timeout.toInt < 0 then .suspend c else .sleep c timeout.toNat true)
      else none
    | _,_ => none
  | .abortThread handle woken => (m.handles handle).map fun t => .finalize (some t) woken

/-- The handles after a call. -/
def handlesAfter : Call T → ℕ → Option T
  | .newThread t handle => Function.update m.handles handle (some t)
  | .close handle _ => Function.update m.handles handle none
  | _ => m.handles

/-- The effect of a call. -/
def apply (call : Call T) : System T :=
  match m.op call with
  | some op =>
    { sched := m.sched.apply idle op
      census := op.census m.sched.currentThread m.census
      handles := m.handlesAfter call }
  | none => { m with handles := m.handlesAfter call }

/-- The kernel after Thread::Initialize. -/
def boot (main : T) : System T :=
  { sched := Sched.boot main idle
    census := Census.boot main idle
    handles := fun _ => none }

/-- The calls there can be. A thread that waits is not the idle thread. -/
def Enabled : Call T → Prop
  | .op op => Allowed idle m.sched.currentThread m.census op
  | .newThread t handle => t ∉ m.census.seen ∧ m.handles handle = none
  | .waitThread _ _ _ => ∃ c ∈ m.census.live,m.sched.currentThread = some c
  | _ => True

/-- The calls that leave the finalized threads alone. -/
def LeavesDead (call : Call T) : Prop := ∀ op,m.op call = some op → Wakeful m.census m.sched op

/-- The scheduler is in order and the handles name threads there have been. -/
structure Sound : Prop where
  /-- The scheduler is in order. -/
  ordered : Ordered idle m.census m.sched
  /-- A handle names a thread that has been enabled. -/
  handles : ∀ handle t,m.handles handle = some t → t ∈ m.census.seen ∧ t ≠ idle

variable {idle m}

/-- The operation that a call comes to is allowed. -/
theorem Sound.allowed (h : m.Sound idle) {call : Call T} {op : Op T} (he : m.Enabled idle call)
    (hop : m.op call = some op) : Allowed idle m.sched.currentThread m.census op := by
  have hseen : ∀ {handle f},(m.handles handle).map f = some op →
      ∃ t,f t = op ∧ t ∈ m.census.seen ∧ t ≠ idle := fun {handle f} hmap => by
    obtain ⟨t,ht,hf⟩ := Option.map_eq_some_iff.mp hmap
    exact ⟨t,hf,h.handles handle t ht⟩
  cases call with
  | op op' =>
    obtain rfl : op' = op := Option.some.inj hop
    exact he
  | newThread t handle =>
    obtain rfl := Option.some.inj hop
    exact he.1
  | close handle woken =>
    obtain ⟨t,rfl,ht⟩ := hseen hop
    exact ⟨t,rfl,ht⟩
  | resumeThread handle =>
    obtain ⟨t,rfl,ht⟩ := hseen hop
    exact trivial
  | suspendThread handle =>
    obtain ⟨t,rfl,ht⟩ := hseen hop
    exact ht
  | sleepThread handle ms =>
    obtain ⟨t,rfl,ht⟩ := hseen hop
    exact ⟨ht,ms.isLt⟩
  | abortThread handle woken =>
    obtain ⟨t,rfl,ht⟩ := hseen hop
    exact ⟨t,rfl,ht⟩
  | waitThread handle timeout blocked =>
    obtain ⟨c,hc,hcur⟩ := he
    have hci : c ≠ idle := fun hi => h.ordered.partition.queued.idle_free (hi ▸ hc)
    have hcs : c ∈ m.census.seen := h.ordered.seen c hc
    simp only [System.op,hcur] at hop
    cases hh : m.handles handle with
    | none => simp [hh] at hop
    | some t =>
      simp only [hh] at hop
      by_cases hb : blocked = true ∧ timeout ≠ 0
      · rw [if_pos hb] at hop
        obtain rfl := Option.some.inj hop
        by_cases hneg : timeout.toInt < 0
        · rw [if_pos hneg]
          exact ⟨hcs,hci⟩
        · rw [if_neg hneg]
          exact ⟨⟨hcs,hci⟩,timeout.isLt⟩
      · rw [if_neg hb] at hop
        cases hop

/-- A thread that has been seen stays so. -/
theorem seen_census (op : Op T) (current : Option T) (g : Census T) {t : T} (ht : t ∈ g.seen) :
    t ∈ (op.census current g).seen := by
  cases op with
  | enable x => exact List.mem_cons_of_mem x ht
  | finalize thread woken =>
    cases hthread : thread.or current with
    | none =>
      simp only [Op.census,hthread]
      exact ht
    | some x =>
      simp only [Op.census,hthread]
      exact ht
  | suspend x => exact ht
  | resume x prepend => exact ht
  | quickResume x => exact ht
  | ticksSleep x ticks interruptible => exact ht
  | sleep x millis interruptible => exact ht
  | tick doTick => exact ht

/-- A call that leaves the finalized threads alone keeps the kernel in order. -/
theorem Sound.apply (h : m.Sound idle) {call : Call T} (he : m.Enabled idle call)
    (hl : m.LeavesDead call) : (m.apply idle call).Sound idle := by
  have hhandles : ∀ g : Census T,(∀ t ∈ m.census.seen,t ∈ g.seen) →
      (∀ t handle,call = .newThread t handle → t ∈ g.seen) →
      ∀ handle t,m.handlesAfter call handle = some t → t ∈ g.seen ∧ t ≠ idle := by
    intro g hseen hnew handle t ht
    cases call with
    | newThread x handle' =>
      by_cases hh : handle = handle'
      · subst hh
        obtain rfl : x = t := by simpa [handlesAfter] using ht
        exact ⟨hnew x handle rfl,fun hi => he.1 (hi ▸ h.ordered.idle_seen)⟩
      · rw [handlesAfter,Function.update_of_ne hh] at ht
        obtain ⟨hs,hi⟩ := h.handles handle t ht
        exact ⟨hseen t hs,hi⟩
    | close handle' woken =>
      by_cases hh : handle = handle'
      · simp [handlesAfter,hh] at ht
      · rw [handlesAfter,Function.update_of_ne hh] at ht
        obtain ⟨hs,hi⟩ := h.handles handle t ht
        exact ⟨hseen t hs,hi⟩
    | _ =>
      obtain ⟨hs,hi⟩ := h.handles handle t ht
      exact ⟨hseen t hs,hi⟩
  unfold System.apply
  cases hop : m.op call with
  | none =>
    refine ⟨h.ordered,hhandles m.census (fun _ ht => ht) ?_⟩
    rintro t handle rfl
    cases hop
  | some op =>
    refine ⟨ordered_apply h.ordered (h.allowed he hop) (hl op hop),
      hhandles _ (fun t ht => seen_census op _ _ ht) ?_⟩
    rintro t handle rfl
    obtain rfl := Option.some.inj hop
    exact List.mem_cons_self ..

/-- A call that puts a finalized thread to sleep brings it back. -/
theorem Sound.not_stayDead (h : m.Sound idle) {call : Call T} (he : m.Enabled idle call)
    (hl : ¬m.LeavesDead call) :
    ¬StayDead idle (m.apply idle call).census (m.apply idle call).sched := by
  unfold LeavesDead at hl
  push Not at hl
  obtain ⟨op,hop,hw⟩ := hl
  have happly : m.apply idle call =
      { sched := m.sched.apply idle op
        census := op.census m.sched.currentThread m.census
        handles := m.handlesAfter call } := by
    unfold System.apply
    rw [hop]
  rw [happly]
  exact FinalizedThreads.not_stayDead h.ordered (h.allowed he hop) hw

theorem sound_boot {main : T} (h : main ≠ idle) : (boot idle main).Sound idle :=
  ⟨ordered_boot h,nofun⟩

end System

end Handles

/-- In every state of a run no finalized thread is in a queue or current, if and only if
no call of the run puts a finalized thread to sleep with a WakeCount below two. -/
theorem stayDead_iff {main idle : T} (h : main ≠ idle) (calls : List (Call T))
    (he : RunMeets (System.apply idle) (System.Enabled idle) (System.boot idle main) calls) :
    (∀ n,StayDead idle ((calls.take n).foldl (System.apply idle) (System.boot idle main)).census
      ((calls.take n).foldl (System.apply idle) (System.boot idle main)).sched) ↔
      RunMeets (System.apply idle) System.LeavesDead (System.boot idle main) calls :=
  @RunMeets.always_iff (System T) (Call T) (System.apply idle) (System.Enabled idle)
    System.LeavesDead (System.Sound idle) (fun m => StayDead idle m.census m.sched) _ _
    (fun _ hm => stayDead_of_ordered hm.ordered) (fun _ _ hm hen hl => hm.apply hen hl)
    (fun _ _ hm hen hl => hm.not_stayDead hen hl) (System.sound_boot h) he

/-- Thread 2 is finalized, and calls on its handle go on. -/
def resumedRun : List (Call ℕ) :=
  [.newThread 2 3,.abortThread 3 none,.resumeThread 3,.resumeThread 3,.sleepThread 3 10]

theorem stayDead_iff_resumedRun :
    StayDead 1 ((resumedRun.take 5).foldl (System.apply 1) (System.boot 1 0)).census
      ((resumedRun.take 5).foldl (System.apply 1) (System.boot 1 0)).sched := by
  refine (stayDead_iff (by decide) resumedRun ⟨⟨by decide,rfl⟩,trivial,trivial,trivial,trivial,
    trivial⟩).mpr ⟨?_,?_,?_,?_,?_,trivial⟩ 5
  · rintro op ⟨⟩
    trivial
  · rintro op ⟨⟩
    trivial
  · rintro op ⟨⟩
    trivial
  · rintro op ⟨⟩
    trivial
  · rintro op ⟨⟩
    exact .inr (by decide)

/-- Thread 2 is finalized and then put to sleep. -/
def revivedRun : List (Call ℕ) := [.newThread 2 3,.abortThread 3 none,.sleepThread 3 10]

theorem revivedRun_not_stayDead :
    RunMeets (System.apply 1) (System.Enabled 1) (System.boot 1 0) revivedRun ∧
      ¬StayDead 1 (revivedRun.foldl (System.apply 1) (System.boot 1 0)).census
        (revivedRun.foldl (System.apply 1) (System.boot 1 0)).sched := by
  constructor
  · exact ⟨⟨by decide,rfl⟩,trivial,trivial,trivial⟩
  · intro h
    exact (h 2 ⟨by decide,by decide,by decide⟩).1 .sleepingThreads (by decide)

end WootOs.FinalizedThreads
