import WootOs.MachineInt
import WootOs.ObjectQueue

/-!
# The thread scheduler over lists

Every thread that can run is the current thread or stands in one of three
queues: the ready threads, the suspended threads and the sleeping threads.
This module models the operations of thread.cpp with each queue as the list
of its threads. Interrupts are disabled from the start of every operation to
the switch it ends in, so each operation is one step.

Partition is the invariant of the scheduler. It is shown for every sequence
of operations; the links that hold the queues together come in a later module.
-/

namespace WootOs.Scheduler

open ObjectQueue

/-- Thread::State. -/
inductive State where
  | unknown | active | ready | suspending | suspended | sleeping | finalized
  deriving DecidableEq,Repr

/-- The fields of a thread that scheduling reads or writes. -/
structure Thread where
  /-- State as the last operation left it. -/
  state : State
  /-- Ticks a sleeping thread still has to wait. -/
  sleepTicks : ℤ
  /-- Whether Resume may end the sleep. -/
  interruptibleSleep : Bool
  /-- Whether waking the thread writes the result of TicksSleep to its stack. -/
  canChangeState : Bool
  /-- Wake-ups that no suspend or sleep has used, as the bits of an int. -/
  wakeCount : ℕ
  /-- The word on top of the saved stack, which TicksSleep returns. -/
  stackTop : ℕ
  deriving DecidableEq,Repr

/-- The values the constructor of Thread stores. -/
def Thread.new : Thread :=
  { state := .unknown
    sleepTicks := 0
    interruptibleSleep := false
    canChangeState := false
    wakeCount := 0
    stackTop := 0 }

/-- The word TicksSleep pushes before it lets another thread run. -/
def sleepMark : ℕ := 0x1234abcd

namespace Thread

/-- Change the field State. -/
def setState (state : State) (th : Thread) : Thread := { th with state := state }

/-- One tick of the timer, as the sleeping threads see it. -/
def tick (th : Thread) : Thread :=
  if 0 < th.sleepTicks then { th with sleepTicks := th.sleepTicks - 1 } else th

/-- The ticks left are what TicksSleep returns, when it waits for them. -/
def storeResult (th : Thread) : Thread :=
  if th.canChangeState then
    { th with stackTop := MachineInt.unsigned 32 th.sleepTicks }
  else th

/-- The end of a sleep in GetNext. -/
def expire (th : Thread) : Thread :=
  { storeResult th with
    state := .ready
    interruptibleSleep := false
    canChangeState := false }

/-- The increment of WakeCount in Resume. -/
def countWake (th : Thread) : Thread :=
  { th with wakeCount := (th.wakeCount + 1) % 2 ^ 32 }

/-- The decrement of WakeCount in Suspend and TicksSleep. -/
def dropWake (th : Thread) : Thread := { th with wakeCount := th.wakeCount - 1 }

/-- What Resume does to a thread that it took out of its queue. -/
def wake (th : Thread) : Thread :=
  if th.state = .sleeping then
    { storeResult th with
      state := .ready
      interruptibleSleep := false
      canChangeState := false
      sleepTicks := 0 }
  else { th with state := .ready }

/-- What TicksSleep stores in the thread it puts to sleep. -/
def sleep (ticks : ℕ) (interruptible : Bool) (th : Thread) : Thread :=
  { th with
    state := .sleeping
    sleepTicks := MachineInt.signed 32 ticks
    interruptibleSleep := interruptible }

/-- A thread that sleeps by its own call leaves room for the result. -/
def awaitResult (th : Thread) : Thread :=
  { th with
    canChangeState := true
    stackTop := sleepMark }

@[simp] theorem setState_state (state : State) (th : Thread) :
    (th.setState state).state = state := rfl

@[simp] theorem setState_sleepTicks (state : State) (th : Thread) :
    (th.setState state).sleepTicks = th.sleepTicks := rfl

@[simp] theorem setState_wakeCount (state : State) (th : Thread) :
    (th.setState state).wakeCount = th.wakeCount := rfl

@[simp] theorem tick_state (th : Thread) : th.tick.state = th.state := by
  unfold tick; split_ifs <;> rfl

@[simp] theorem tick_wakeCount (th : Thread) : th.tick.wakeCount = th.wakeCount := by
  unfold tick; split_ifs <;> rfl

@[simp] theorem storeResult_sleepTicks (th : Thread) :
    th.storeResult.sleepTicks = th.sleepTicks := by
  unfold storeResult; split_ifs <;> rfl

@[simp] theorem storeResult_wakeCount (th : Thread) :
    th.storeResult.wakeCount = th.wakeCount := by
  unfold storeResult; split_ifs <;> rfl

@[simp] theorem expire_state (th : Thread) : th.expire.state = .ready := rfl

@[simp] theorem expire_sleepTicks (th : Thread) :
    th.expire.sleepTicks = th.sleepTicks := storeResult_sleepTicks th

@[simp] theorem expire_wakeCount (th : Thread) :
    th.expire.wakeCount = th.wakeCount := storeResult_wakeCount th

@[simp] theorem countWake_state (th : Thread) : th.countWake.state = th.state := rfl

@[simp] theorem countWake_sleepTicks (th : Thread) :
    th.countWake.sleepTicks = th.sleepTicks := rfl

@[simp] theorem dropWake_state (th : Thread) : th.dropWake.state = th.state := rfl

@[simp] theorem dropWake_sleepTicks (th : Thread) :
    th.dropWake.sleepTicks = th.sleepTicks := rfl

@[simp] theorem dropWake_wakeCount (th : Thread) :
    th.dropWake.wakeCount = th.wakeCount - 1 := rfl

@[simp] theorem wake_state (th : Thread) : th.wake.state = .ready := by
  unfold wake; split_ifs <;> rfl

@[simp] theorem wake_wakeCount (th : Thread) : th.wake.wakeCount = th.wakeCount := by
  unfold wake
  split_ifs
  · exact storeResult_wakeCount th
  · rfl

@[simp] theorem sleep_state (ticks : ℕ) (interruptible : Bool) (th : Thread) :
    (th.sleep ticks interruptible).state = .sleeping := rfl

@[simp] theorem sleep_wakeCount (ticks : ℕ) (interruptible : Bool) (th : Thread) :
    (th.sleep ticks interruptible).wakeCount = th.wakeCount := rfl

@[simp] theorem awaitResult_state (th : Thread) : th.awaitResult.state = th.state := rfl

@[simp] theorem awaitResult_sleepTicks (th : Thread) :
    th.awaitResult.sleepTicks = th.sleepTicks := rfl

@[simp] theorem awaitResult_wakeCount (th : Thread) :
    th.awaitResult.wakeCount = th.wakeCount := rfl

/-- The ticks that fit an int are stored unchanged. -/
theorem sleep_sleepTicks {ticks : ℕ} (h : ticks < 2 ^ 31) (interruptible : Bool)
    (th : Thread) : (th.sleep ticks interruptible).sleepTicks = ticks := by
  have hu : (ticks : ℤ) < 2 ^ 31 := by exact_mod_cast h
  have hl : -2 ^ 31 ≤ (ticks : ℤ) := by omega
  have hs : MachineInt.signed (31+1) (ticks : ℤ) = ticks := MachineInt.signed_of_range hl hu
  simpa only [sleep] using hs

end Thread

/-- The three queues of the scheduler. -/
inductive Queue where
  | readyThreads | suspendedThreads | sleepingThreads
  deriving DecidableEq,Repr

/-- The scheduler, with each queue as the list of its threads. -/
structure Sched (T : Type*) where
  /-- The thread that runs; null only inside Finalize. -/
  currentThread : Option T
  /-- The record of every thread. -/
  thread : T → Thread
  /-- The threads of each queue, in order. -/
  queue : Queue → List T

namespace Sched

variable {T : Type*} [DecidableEq T]

/-- Change the record of one thread. -/
def modify (t : T) (f : Thread → Thread) (s : Sched T) : Sched T :=
  { s with thread := Function.update s.thread t (f (s.thread t)) }

/-- ObjectQueue::Add on one of the queues. -/
def add (q : Queue) (t : T) (prepend : Bool) (s : Sched T) : Sched T :=
  { s with queue := Function.update s.queue q (added (s.queue q) t prepend) }

/-- ObjectQueue::Remove on one of the queues, for a thread that is accepted. -/
def remove (q : Queue) (t : T) (s : Sched T) : Sched T :=
  { s with queue := Function.update s.queue q ((s.queue q).erase t) }

/-- The first walk of GetNext counts every sleep down. -/
def tickSleepers (s : Sched T) : Sched T :=
  { s with thread := fun t =>
      if t ∈ s.queue .sleepingThreads then (s.thread t).tick else s.thread t }

/-- The threads whose sleep is over, in queue order. -/
def expired (s : Sched T) : List T :=
  (s.queue .sleepingThreads).filter fun t => (s.thread t).sleepTicks = 0

/-- The second walk of GetNext moves every thread whose sleep is over. -/
def wakeExpired (s : Sched T) : Sched T :=
  { s with
    thread := fun t => if t ∈ s.expired then (s.thread t).expire else s.thread t
    queue := fun q =>
      match q with
      | .readyThreads => s.queue .readyThreads ++ s.expired
      | .suspendedThreads => s.queue .suspendedThreads
      | .sleepingThreads =>
        (s.queue .sleepingThreads).filter fun t => (s.thread t).sleepTicks ≠ 0 }

variable (idle : T)

/-- GetNext puts the current thread into the queue its state asks for. -/
def yieldCurrent (s : Sched T) : Sched T :=
  match s.currentThread with
  | none => s
  | some c =>
    if c ≠ idle ∧ (s.thread c).state ≠ .sleeping then
      if (s.thread c).state ≠ .suspending then
        (s.modify c (Thread.setState .ready)).add .readyThreads c false
      else (s.modify c (Thread.setState .suspended)).add .suspendedThreads c false
    else s

/-- GetNext takes the first ready thread, or the idle thread. -/
def takeReady (s : Sched T) : T × Sched T :=
  match s.queue .readyThreads with
  | [] => (idle,s)
  | t :: _ => (t,s.remove .readyThreads t)

/-- Thread::GetNext. -/
def getNext (doTick : Bool) (s : Sched T) : T × Sched T :=
  takeReady idle (yieldCurrent idle (wakeExpired (if doTick then tickSleepers s else s)))

/-- Thread::Switch. A thread that is already current keeps its state. -/
def switch (t : T) (s : Sched T) : Sched T :=
  if s.currentThread = some t then s
  else { s.modify t (Thread.setState .active) with currentThread := some t }

/-- Time::Tick: GetNext and then Switch. A fake tick counts no sleep down. -/
def tick (doTick : Bool) (s : Sched T) : Sched T :=
  switch (getNext idle doTick s).1 (getNext idle doTick s).2

/-- Thread::Enable. -/
def enable (t : T) (s : Sched T) : Sched T :=
  (s.add .suspendedThreads t false).modify t (Thread.setState .suspended)

/-- Thread::Suspend. -/
def suspend (t : T) (s : Sched T) : Sched T :=
  let s := s.modify t Thread.dropWake
  if (s.thread t).wakeCount ≠ 0 then s
  else if s.currentThread = some t then
    tick idle false (s.modify t (Thread.setState .suspending))
  else if t ∈ s.queue .readyThreads then
    ((s.remove .readyThreads t).modify t (Thread.setState .suspended)).add
      .suspendedThreads t false
  else if t ∈ s.queue .sleepingThreads then
    ((s.remove .sleepingThreads t).modify t (Thread.setState .suspended)).add
      .suspendedThreads t false
  else s

/-- Thread::Resume. The result says whether the thread was taken out of a queue. -/
def resume (t : T) (prepend : Bool) (s : Sched T) : Bool × Sched T :=
  let s := s.modify t Thread.countWake
  if t ∈ s.queue .suspendedThreads then
    (true,((s.remove .suspendedThreads t).modify t Thread.wake).add .readyThreads t prepend)
  else if t ∈ s.queue .sleepingThreads ∧ (s.thread t).interruptibleSleep then
    (true,((s.remove .sleepingThreads t).modify t Thread.wake).add .readyThreads t prepend)
  else (false,s)

/-- Thread::QuickResume. -/
def quickResume (t : T) (s : Sched T) : Bool × Sched T :=
  if (s.resume t true).1 then (true,tick idle true (s.resume t true).2)
  else (false,(s.resume t true).2)

/-- Thread::TicksSleep, up to the switch to another thread. -/
def ticksSleep (t : T) (ticks : ℕ) (interruptible : Bool) (s : Sched T) : Sched T :=
  let s := s.modify t Thread.dropWake
  if (s.thread t).wakeCount ≠ 0 then s
  else
    let s := ((s.remove .readyThreads t).remove .suspendedThreads t).remove
      .sleepingThreads t
    let s := (s.modify t (Thread.sleep ticks interruptible)).add .sleepingThreads t false
    if s.currentThread = some t then tick idle false (s.modify t Thread.awaitResult)
    else s

/-- The part of Thread::Finalize behind the signal to the thread that waits
for the end of this one. -/
def retire (t : T) (s : Sched T) : Sched T :=
  let s := s.modify t (Thread.setState .finalized)
  let s := ((s.remove .readyThreads t).remove .suspendedThreads t).remove
    .sleepingThreads t
  if s.currentThread = some t then tick idle false { s with currentThread := none }
  else s

/-- Thread::Finalize. The signal to the semaphore Finished resumes at most one
thread; a null argument stands for the current thread. -/
def finalize (thread : Option T) (woken : Option T) (s : Sched T) : Sched T :=
  match thread.or s.currentThread with
  | none => s
  | some t =>
    match woken with
    | none => retire idle t s
    | some w => retire idle t (s.resume w false).2

end Sched

/-- The timer frequency the kernel programs, in ticks for each second. -/
def tickFrequency : ℕ := 128

/-- The ticks Thread::Sleep passes to TicksSleep. -/
def sleepTicksOf (millis : ℕ) : ℕ := (tickFrequency * millis / 1000 + 1) % 2 ^ 32

/-- Every number of milliseconds gives ticks that fit SleepTicks. -/
theorem sleepTicksOf_range {millis : ℕ} (h : millis < 2 ^ 32) :
    1 ≤ sleepTicksOf millis ∧ sleepTicksOf millis < 2 ^ 31 := by
  have hd : tickFrequency * millis / 1000 < 2 ^ 31 - 1 := by
    rw [tickFrequency,Nat.div_lt_iff_lt_mul (by omega)]
    omega
  rw [sleepTicksOf,Nat.mod_eq_of_lt (by omega)]
  omega

end WootOs.Scheduler
