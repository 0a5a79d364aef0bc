import WootOs.CodeLogic
import WootOs.Paging
import WootOs.WaitQueue

/-!
# Calls with interrupts disabled

The kernel protects short pieces of code by disabling interrupts: it keeps the
old flag, and puts it back before each return. This is how the calls that do so
look to the thread that makes them, with the flag of this thread.

While interrupts are enabled other threads may run, and a thread that waits
lets them run. The flag is saved with the thread then and loaded when the
thread runs again, so the others change the world but not this flag. A thread
that never runs again does not return, nor does a system that halts or a null
pointer that is used.
-/

namespace WootOs.InterruptFlag

open CodeLogic FrameAllocator Paging RingQueue Scheduler WaitQueue

/-- A Mutex. -/
structure Mutex (T : Type) where
  /-- Mutex::Recursive. -/
  recursive : Bool
  /-- Mutex::Count. -/
  count : ℤ
  /-- Mutex::Owner. -/
  owner : Option T
  /-- Mutex::Waiters. -/
  waiters : BoundedQueue (Option T)

/-- A Semaphore. -/
structure Semaphore (T : Type) where
  /-- Semaphore::Count. -/
  count : ℤ
  /-- Semaphore::Waiters. -/
  waiters : BoundedQueue (Option T)

/-- What the threads share. -/
structure World (T : Type) where
  /-- The scheduler. -/
  sched : Sched T
  /-- Thread::ID. -/
  id : T → ℤ
  /-- Thread::WaitingMutex. -/
  waitingMutex : T → Option ℕ
  /-- Thread::WaitingSemaphore. -/
  waitingSemaphore : T → Option ℕ
  /-- Thread::SignalMask. -/
  signalMask : T → ℕ
  /-- Thread::SignalQueue. -/
  signalQueue : T → BoundedQueue ℕ
  /-- Time::isFakeTick. -/
  isFakeTick : Bool
  /-- The mutexes there are. -/
  mutex : ℕ → Mutex T
  /-- The semaphores there are. -/
  semaphore : ℕ → Semaphore T
  /-- The page tables, and the windows to them. -/
  paging : Paging.Kernel
  /-- Paging::dmaPtrList, an address and a size each. -/
  dmaPtrList : List (ℕ × ℕ)

/-- The processor, as a thread sees it. -/
structure Machine (T : Type) extends World T where
  /-- The interrupt flag. -/
  interrupts : Bool
  /-- What other threads make of the world when interrupts get enabled. -/
  interrupted : List (World T)
  /-- What other threads make of the world when the thread waits for them. -/
  resumed : List (World T)

variable {T : Type}

/-- cpuDisableInterrupts. -/
def disableInterrupts : Code (Machine T) Bool := do
  let ints := (← get).interrupts
  modify fun m => { m with interrupts := false }
  return ints

/-- Other threads run if there are any. -/
def preempt (m : Machine T) : Machine T :=
  match m.interrupted with
  | [] => m
  | w :: ws => { m with toWorld := w,interrupted := ws }

/-- cpuRestoreInterrupts. -/
def restoreInterrupts (state : Bool) : Code (Machine T) Unit :=
  modify fun m =>
    if state then preempt { m with interrupts := true } else { m with interrupts := false }

/-- Change the scheduler. -/
def modifySched (f : Sched T → Sched T) : Code (Machine T) Unit :=
  modify fun m => { m with sched := f m.sched }

/-- Interrupt 0x28, which calls Time::Tick: other threads run, and then this one again. -/
def tickInterrupt : Code (Machine T) Unit := fun m =>
  match m.resumed with
  | [] => none
  | w :: ws => some ((),{ m with toWorld := w,resumed := ws })

/-- Time::FakeTick. -/
def fakeTick : Code (Machine T) Unit := do
  let ints ← disableInterrupts
  modify fun m => { m with isFakeTick := true }
  tickInterrupt
  restoreInterrupts ints

/-- Thread::GetCurrent. -/
def getCurrent : Code (Machine T) (Option T) := do
  let ints ← disableInterrupts
  let res := (← get).sched.currentThread
  restoreInterrupts ints
  return res

section Threads

variable [DecidableEq T]

/-- Thread::GetByID. -/
def getByID (id : ℤ) : Code (Machine T) (Option T) := do
  let ints ← disableInterrupts
  let m ← get
  match m.sched.currentThread with
  | none => stuck
  | some c =>
    if m.id c = id then
      restoreInterrupts ints
      return some c
    match (m.sched.queue .readyThreads).find? fun t => m.id t = id with
    | some t =>
      restoreInterrupts ints
      return some t
    | none =>
      match (m.sched.queue .suspendedThreads).find? fun t => m.id t = id with
      | some t =>
        restoreInterrupts ints
        return some t
      | none =>
        match (m.sched.queue .sleepingThreads).find? fun t => m.id t = id with
        | some t =>
          restoreInterrupts ints
          return some t
        | none => return none

/-- Thread::Enable. -/
def enable (t : T) : Code (Machine T) Unit := do
  let ints ← disableInterrupts
  modifySched fun s => s.enable t
  restoreInterrupts ints

/-- Thread::Suspend. -/
def suspend (t : T) : Code (Machine T) Unit := do
  let ints ← disableInterrupts
  modifySched fun s => s.modify t Thread.dropWake
  let s := (← get).sched
  if (s.thread t).wakeCount ≠ 0 then
    restoreInterrupts ints
    return ()
  if s.currentThread = some t then
    modifySched fun s => s.modify t (Thread.setState .suspending)
    fakeTick
    restoreInterrupts ints
    return ()
  if t ∉ s.queue .readyThreads ∧ t ∉ s.queue .sleepingThreads then
    restoreInterrupts ints
    return ()
  let q := if t ∈ s.queue .readyThreads then Queue.readyThreads else .sleepingThreads
  modifySched fun s =>
    ((s.remove q t).modify t (Thread.setState .suspended)).add .suspendedThreads t false
  restoreInterrupts ints

/-- Thread::Resume. -/
def resume (t : T) (prepend : Bool) : Code (Machine T) Bool := do
  let ints ← disableInterrupts
  modifySched fun s => s.modify t Thread.countWake
  let s := (← get).sched
  if t ∈ s.queue .suspendedThreads ∨
      t ∈ s.queue .sleepingThreads ∧ (s.thread t).interruptibleSleep then
    let q := if t ∈ s.queue .suspendedThreads then Queue.suspendedThreads else .sleepingThreads
    modifySched fun s => ((s.remove q t).modify t Thread.wake).add .readyThreads t prepend
    restoreInterrupts ints
    return true
  restoreInterrupts ints
  return false

/-- Thread::QuickResume. The caller goes on until the end of its interrupt. -/
def quickResume (idle t : T) : Code (Machine T) Bool := do
  let ints ← disableInterrupts
  if !(← resume t true) then return false
  modifySched fun s => s.tick idle true
  restoreInterrupts ints
  return true

/-- Thread::TicksSleep. -/
def ticksSleep (t : T) (ticks : ℕ) (interruptible : Bool) : Code (Machine T) ℕ := do
  let ints ← disableInterrupts
  modifySched fun s => s.modify t Thread.dropWake
  if ((← get).sched.thread t).wakeCount ≠ 0 then
    restoreInterrupts ints
    return ticks
  modifySched fun s =>
    let s := ((s.remove .readyThreads t).remove .suspendedThreads t).remove .sleepingThreads t
    (s.modify t (Thread.sleep ticks interruptible)).add .sleepingThreads t false
  if (← get).sched.currentThread = some t then
    modify fun m => { m with isFakeTick := true }
    modifySched fun s => s.modify t Thread.awaitResult
    tickInterrupt
    let result := ((← get).sched.thread t).stackTop
    restoreInterrupts ints
    return result
  restoreInterrupts ints
  return 0

/-- Thread::Sleep. -/
def sleep (t : T) (millis : ℕ) (interruptible : Bool) : Code (Machine T) ℕ := do
  return timeLeft (← ticksSleep t (sleepTicksOf millis) interruptible)

/-! ### Mutexes, semaphores and signals -/

/-- Change a mutex. -/
def modifyMutex (i : ℕ) (f : Mutex T → Mutex T) : Code (Machine T) Unit :=
  modify fun m => { m with mutex := Function.update m.mutex i (f (m.mutex i)) }

/-- Change a semaphore. -/
def modifySemaphore (i : ℕ) (f : Semaphore T → Semaphore T) : Code (Machine T) Unit :=
  modify fun m => { m with semaphore := Function.update m.semaphore i (f (m.semaphore i)) }

/-- Thread::WaitingMutex is set. -/
def setWaitingMutex (t : T) (i : Option ℕ) : Code (Machine T) Unit :=
  modify fun m => { m with waitingMutex := Function.update m.waitingMutex t i }

/-- Thread::WaitingSemaphore is set. -/
def setWaitingSemaphore (t : T) (i : Option ℕ) : Code (Machine T) Unit :=
  modify fun m => { m with waitingSemaphore := Function.update m.waitingSemaphore t i }

/-- How a thread waits for a mutex or a semaphore. The result is the time left, or one
without a timeout. -/
def block (t : T) (timeout : ℕ) : Code (Machine T) ℕ := do
  if timeout ≠ 0 then sleep t timeout true
  else
    suspend t
    return 1

/-- Mutex::Acquire. -/
def acquire (i timeout : ℕ) (tryAcquire : Bool) : Code (Machine T) Bool := do
  let is ← disableInterrupts
  match ← getCurrent with
  | none =>
    restoreInterrupts is
    return true
  | some ct =>
    let x := (← get).mutex i
    if x.count = 0 ∨ x.owner = some ct then
      if tryAcquire then
        restoreInterrupts is
        return false
      if x.recursive = false ∧ x.count ≠ 0 then stuck
      else
        modifyMutex i fun x => { x with count := x.count + 1,owner := some ct }
        restoreInterrupts is
        return true
    else if tryAcquire then
      restoreInterrupts is
      return false
    else if (x.waiters.write (some ct)).1 then
      modifyMutex i fun x => { x with waiters := (x.waiters.write (some ct)).2 }
      setWaitingMutex ct (some i)
      let timeleft ← block ct timeout
      setWaitingMutex ct none
      modifyMutex i fun x =>
        if timeleft = 0 then { x with waiters := x.waiters.removeFirst (some ct) } else x
      restoreInterrupts is
      return timeleft ≠ 0
    else
      restoreInterrupts is
      return false

/-- Mutex::Release. -/
def release (i : ℕ) : Code (Machine T) Unit := do
  let is ← disableInterrupts
  match ← getCurrent with
  | none => restoreInterrupts is
  | some ct =>
    if ((← get).mutex i).owner ≠ some ct then
      restoreInterrupts is
      return ()
    modifyMutex i fun x => { x with count := if 0 < x.count then x.count - 1 else x.count }
    let x := (← get).mutex i
    if x.count ≠ 0 then
      restoreInterrupts is
      return ()
    let next := nextWaiter (x.waiters.count + 1) x.waiters
    modifyMutex i fun x => { x with owner := none,waiters := next.2 }
    match next.1 with
    | none => restoreInterrupts is
    | some t =>
      modifyMutex i fun x => { x with owner := some t,count := 1 }
      let _ ← resume t false
      restoreInterrupts is

/-- Mutex::Cancel. -/
def cancelMutex (i : ℕ) (t : T) : Code (Machine T) Unit := do
  let is ← disableInterrupts
  modifyMutex i fun x => { x with waiters := x.waiters.replaceAll (some t) none }
  restoreInterrupts is

/-- ENOMEM. -/
def enomem : ℤ := 12

/-- EBUSY. -/
def ebusy : ℤ := 16

/-- Semaphore::Wait: the time left, or why there is no unit. -/
def wait (i timeout : ℕ) (tryWait disableInts : Bool) : Code (Machine T) (Except ℤ ℕ) := do
  let is ← disableInterrupts
  let ct ← getCurrent
  let x := (← get).semaphore i
  if 0 < x.count then
    modifySemaphore i fun x => { x with count := x.count - 1 }
    if !disableInts then
      restoreInterrupts is
      return .ok timeout
    else return .ok timeout
  if tryWait then
    restoreInterrupts is
    return .error (-ebusy)
  if (x.waiters.write ct).1 then
    modifySemaphore i fun x => { x with waiters := (x.waiters.write ct).2 }
    match ct with
    | none => stuck
    | some ct =>
      setWaitingSemaphore ct (some i)
      let timeleft ← block ct timeout
      setWaitingSemaphore ct none
      modifySemaphore i fun x =>
        if timeleft = 0 then { x with waiters := x.waiters.removeFirst (some ct) }
        else { x with count := x.count - 1 }
      if !disableInts ∨ timeleft = 0 then
        restoreInterrupts is
        return if timeleft ≠ 0 then .ok timeleft else .error (-ebusy)
      else return if timeleft ≠ 0 then .ok timeleft else .error (-ebusy)
  else
    restoreInterrupts is
    return .error (-enomem)

/-- Semaphore::Signal, with the state of an interrupt or without. -/
def signal (idle : T) (i : ℕ) (state : Bool) : Code (Machine T) Unit := do
  let is ← disableInterrupts
  modifySemaphore i fun x => { x with count := x.count + 1 }
  let x := (← get).semaphore i
  let next := nextWaiter (x.waiters.count + 1) x.waiters
  modifySemaphore i fun x => { x with waiters := next.2 }
  match next.1 with
  | none => restoreInterrupts is
  | some t =>
    if state then
      let _ ← quickResume idle t
      restoreInterrupts is
    else
      let _ ← resume t false
      restoreInterrupts is

/-- Semaphore::Cancel. -/
def cancelSemaphore (i : ℕ) (t : T) : Code (Machine T) Unit := do
  let is ← disableInterrupts
  modifySemaphore i fun x => { x with waiters := x.waiters.removeFirst (some t) }
  restoreInterrupts is

/-- Queue::Clear. -/
def clearQueue {A : Type} (r : BoundedQueue A) : BoundedQueue A :=
  { r with
    tail := r.head
    full := false
    tail_lt := r.head_lt
    full_eq := fun h => (by cases h) }

/-- Semaphore::Reset. -/
def reset (i : ℕ) (count : ℤ) : Code (Machine T) Unit := do
  let is ← disableInterrupts
  modifySemaphore i fun x => { waiters := clearQueue x.waiters,count := count }
  restoreInterrupts is

/-- Signal::Raise. -/
def raise (t : T) (signum : ℕ) : Code (Machine T) Unit := do
  let ints ← disableInterrupts
  if ((← get).signalMask t).testBit signum then
    modify fun m =>
      { m with
        signalQueue :=
          Function.update m.signalQueue t ((m.signalQueue t).write signum).2 }
    let _ ← resume t false
    restoreInterrupts ints
  else restoreInterrupts ints

end Threads

end WootOs.InterruptFlag
