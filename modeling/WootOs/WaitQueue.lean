import WootOs.RingQueue
import WootOs.SchedulerWaits

/-!
# Queues of waiting threads

Mutexes and semaphores share one way to wait. The current thread is written
into a queue of waiters and sleeps or suspends; it goes on with its call when
the scheduler returns to it. Interrupts are disabled from the start of the
call until its end, except while another thread runs, so a thread goes on
before anything else happens.

WaitSys holds the scheduler, the queue and the unfinished calls. Sound is
their invariant. A call is in flight when its thread is runnable and will
return with success; the lemmas say which steps put a call in flight.
-/

namespace WootOs.WaitQueue

open Scheduler RingQueue

set_option linter.unusedSectionVars false

variable {T : Type*} [DecidableEq T]

/-- The scheduler, a queue of waiters and the calls that wait. -/
structure WaitSys (T : Type*) where
  /-- The threads. -/
  sched : Sched T
  /-- The queue of waiters; a cancelled entry is null. -/
  waiters : BoundedQueue (Option T)
  /-- The unfinished call of each thread. -/
  calls : T → Option WaitCall

/-- Reading the queue of waiters until a thread is found. -/
def nextWaiter : ℕ → BoundedQueue (Option T) → Option T × BoundedQueue (Option T)
  | 0,r => (none,r)
  | fuel+1,r =>
    match r.read with
    | (none,r') => (none,r')
    | (some none,r') => nextWaiter fuel r'
    | (some (some t),r') => (some t,r')

namespace WaitSys

variable (idle : T) (w : WaitSys T)

/-- The current thread is written into the queue and starts to wait. -/
def enter (c : T) (timeout : ℕ) : WaitSys T :=
  { sched := (beginWait idle c timeout w.sched).2
    waiters := (w.waiters.write (some c)).2
    calls := Function.update w.calls c (some (beginWait idle c timeout w.sched).1) }

/-- The call of a thread ends; a thread whose time is over leaves the queue. -/
def leave (c : T) (call : WaitCall) : WaitSys T :=
  { sched := w.sched
    waiters :=
      if call.timeleft (w.sched.thread c) = 0 then w.waiters.removeFirst (some c)
      else w.waiters
    calls := Function.update w.calls c none }

/-- Resume, or QuickResume from an interrupt handler. -/
def wakeUp (state : Bool) (t : T) : WaitSys T :=
  { w with sched :=
      if state then (w.sched.quickResume idle t).2 else (w.sched.resume t false).2 }

/-- A tick of the timer. -/
def tick (doTick : Bool) : WaitSys T := { w with sched := w.sched.tick idle doTick }

/-- The current thread has no unfinished call, so interrupts are enabled. -/
def Open : Prop := ∀ c ∈ w.sched.currentThread,w.calls c = none

instance : Decidable w.Open :=
  inferInstanceAs (Decidable (∀ c ∈ w.sched.currentThread,w.calls c = none))

/-- The call of a waiting thread will return with success. -/
def InFlight (x : T) : Prop :=
  match w.calls x with
  | some call => Runnable x w.sched ∧ call.timeleft (w.sched.thread x) ≠ 0
  | none => False

instance (x : T) : Decidable (w.InFlight x) :=
  match h : w.calls x with
  | some call => decidable_of_iff
      (Runnable x w.sched ∧ call.timeleft (w.sched.thread x) ≠ 0) (by simp [InFlight,h])
  | none => isFalse (by simp [InFlight,h])

/-- The number of calls in flight. -/
def inFlight (live : List T) : ℕ := live.countP fun x => w.InFlight x

/-- A thread is in the queue of waiters and blocked. -/
def Parked (x : T) : Prop :=
  some x ∈ w.waiters.toList ∧
    (x ∈ w.sched.queue .suspendedThreads ∨ x ∈ w.sched.queue .sleepingThreads)

instance (x : T) : Decidable (w.Parked x) :=
  inferInstanceAs (Decidable (some x ∈ w.waiters.toList ∧
    (x ∈ w.sched.queue .suspendedThreads ∨ x ∈ w.sched.queue .sleepingThreads)))

/-- A blocked call would be put in flight by Resume: it waits without a
timeout, or has at least one millisecond left. -/
def Takes (x : T) : Prop :=
  match w.calls x with
  | some call => ¬Runnable x w.sched ∧ (call.timeout = 0 ∨
      timeLeft (MachineInt.unsigned 32 (w.sched.thread x).sleepTicks) ≠ 0)
  | none => False

instance (x : T) : Decidable (w.Takes x) :=
  match h : w.calls x with
  | some call => decidable_of_iff
      (¬Runnable x w.sched ∧ (call.timeout = 0 ∨
        timeLeft (MachineInt.unsigned 32 (w.sched.thread x).sleepTicks) ≠ 0))
      (by simp [Takes,h])
  | none => isFalse (by simp [Takes,h])

/-- A thread that starts to wait returns at once with success, since its count
is above one. -/
def EntersAwake (c : T) (timeout : ℕ) : Prop :=
  2 ≤ (w.sched.thread c).wakeCount ∧ (timeout = 0 ∨ timeLeft (sleepTicksOf timeout) ≠ 0)

instance (c : T) (timeout : ℕ) : Decidable (w.EntersAwake c timeout) :=
  inferInstanceAs (Decidable (_ ∧ (_ ∨ _ ≠ _)))

/-- The queue of a mutex or a semaphore has places. -/
theorem capacity_pos : 0 < 32 := by decide

/-- No thread waits. -/
def start (s : Sched T) (capacity : ℕ) (h : 0 < capacity) : WaitSys T :=
  { sched := s
    waiters := BoundedQueue.new capacity h fun _ => none
    calls := fun _ => none }

end WaitSys

section Waiters

/-- The first thread of a list that may hold null pointers, and what follows it. -/
def firstThread : List (Option T) → Option T × List (Option T)
  | [] => (none,[])
  | none :: l => firstThread l
  | some t :: l => (some t,l)

/-- The loop of Signal finds the first thread in the queue. -/
theorem nextWaiter_eq {fuel : ℕ} (r : BoundedQueue (Option T)) (h : r.count < fuel) :
    (nextWaiter fuel r).1 = (firstThread r.toList).1 ∧
      (nextWaiter fuel r).2.toList = (firstThread r.toList).2 := by
  induction fuel generalizing r with
  | zero => exact absurd h (by omega)
  | succ fuel ih =>
    cases hl : r.toList with
    | nil =>
      simp only [nextWaiter,r.read_nil hl,firstThread]
      exact ⟨trivial,hl⟩
    | cons e l =>
      obtain ⟨hr,hrest⟩ := r.read_cons hl
      cases e with
      | none =>
        have hlen : r.dropFirst.count < fuel := by
          rw [r.count_dropFirst (by simp [hl])]
          have hc : r.count = l.length + 1 := by rw [←r.length_toList,hl,List.length_cons]
          omega
        simp only [nextWaiter,hr,firstThread]
        rw [←hrest]
        exact ih r.dropFirst hlen
      | some t =>
        simp only [nextWaiter,hr,firstThread]
        exact ⟨trivial,hrest⟩

/-- What follows the first thread was in the list. -/
theorem mem_firstThread {l : List (Option T)} {e : Option T} (h : e ∈ (firstThread l).2) :
    e ∈ l := by
  induction l with
  | nil => exact h
  | cons a l ih =>
    cases a with
    | none => exact List.mem_cons_of_mem _ (ih h)
    | some t => exact List.mem_cons_of_mem _ h

/-- So was the first thread. -/
theorem firstThread_mem {l : List (Option T)} {t : T} (h : (firstThread l).1 = some t) :
    some t ∈ l := by
  induction l with
  | nil => exact absurd h (by simp [firstThread])
  | cons a l ih =>
    cases a with
    | none => exact List.mem_cons_of_mem _ (ih h)
    | some x =>
      obtain rfl : x = t := Option.some.inj h
      exact List.mem_cons_self ..

/-- Without a thread in the list nothing follows. -/
theorem firstThread_none {l : List (Option T)} (h : (firstThread l).1 = none) :
    (firstThread l).2 = [] ∧ ∀ t,some t ∉ l := by
  induction l with
  | nil => exact ⟨rfl,fun t => by simp⟩
  | cons a l ih =>
    cases a with
    | none =>
      obtain ⟨hl,hn⟩ := ih h
      exact ⟨hl,fun t hm => by simp [hn] at hm⟩
    | some x => exact absurd h (by simp [firstThread])

end Waiters

section Calls

variable {idle : T} {live : List T} {w : WaitSys T}

/-- The calls that wait agree with the scheduler and the queue of waiters. -/
structure Sound (idle : T) (live : List T) (w : WaitSys T) : Prop where
  /-- Every thread has one place. -/
  partition : Partition idle live w.sched
  /-- No thread is counted twice. -/
  nodup : live.Nodup
  /-- Only live threads have calls. -/
  calls_live : ∀ {x},(w.calls x).isSome → x ∈ live
  /-- A blocked call blocks the way it was started. -/
  blocked : ∀ {x call},w.calls x = some call → ¬Runnable x w.sched → call.early = none ∧
    (call.timeout = 0 → x ∈ w.sched.queue .suspendedThreads) ∧
    (call.timeout ≠ 0 → Dozing x w.sched)
  /-- The queue holds live threads, and those without a call are runnable. -/
  waiters : ∀ {x},some x ∈ w.waiters.toList → x ∈ live ∧
    ((w.calls x).isSome ∨ Runnable x w.sched)

/-- A thread over which the scheduler passes, or which it made runnable. -/
def Moves (s s' : Sched T) (x : T) : Prop := Passes x s s' ∨ Runnable x s'

/-- Nobody waits at the start. -/
theorem sound_start {s : Sched T} {capacity : ℕ} (hc : 0 < capacity)
    (h : Partition idle live s) (hn : live.Nodup) :
    Sound idle live (WaitSys.start s capacity hc) := by
  refine ⟨h,hn,fun hx => absurd hx (by simp [WaitSys.start]),
    fun hx => absurd hx (by simp [WaitSys.start]),fun hx => absurd hx ?_⟩
  simp [WaitSys.start,BoundedQueue.toList_new]

/-- The queue of waiters may lose entries. -/
theorem Sound.queue {r : BoundedQueue (Option T)} (h : Sound idle live w)
    (hr : ∀ x,some x ∈ r.toList → some x ∈ w.waiters.toList) :
    Sound idle live { w with waiters := r } :=
  ⟨h.partition,h.nodup,h.calls_live,h.blocked,fun {x} hx => h.waiters (hr x hx)⟩

/-- The scheduler moves on and the calls stay. -/
theorem Sound.sched {s' : Sched T} (h : Sound idle live w) (hp : Partition idle live s')
    (hm : ∀ x ∈ live,Moves w.sched s' x) : Sound idle live { w with sched := s' } := by
  refine ⟨hp,h.nodup,h.calls_live,fun {x call} hc hr => ?_,fun {x} he => ?_⟩
  · have hx : x ∈ live := h.calls_live (by rw [hc]; rfl)
    have hpass := (hm x hx).resolve_right hr
    have hr' : ¬Runnable x w.sched := fun hrun => hr (hpass.runnable hrun).1
    obtain ⟨hearly,hsus,hdoze⟩ := h.blocked hc hr'
    refine ⟨hearly,fun h0 => hpass.suspended (hsus h0),fun h0 => ?_⟩
    rcases hpass.dozing (hdoze h0) with hd | ⟨hrun,-⟩
    · exact hd
    · exact absurd hrun hr
  · obtain ⟨hx,hcall⟩ := h.waiters he
    refine ⟨hx,hcall.imp_right fun hrun => ?_⟩
    rcases hm x hx with hpass | hrun'
    · exact (hpass.runnable hrun).1
    · exact hrun'

/-- What a call finds depends on the word it is left on the stack. -/
theorem timeleft_congr (call : WaitCall) {th th' : Thread} (h : th.stackTop = th'.stackTop) :
    call.timeleft th = call.timeleft th' := by rw [WaitCall.timeleft,WaitCall.timeleft,h]

/-- A call over which the scheduler passes is in flight as before. -/
theorem Sound.inFlight_passes {s' : Sched T} {x : T} (h : Sound idle live w)
    (hp : Partition idle live s') (hpass : Passes x w.sched s') :
    ({ w with sched := s' } : WaitSys T).InFlight x ↔ w.InFlight x := by
  unfold WaitSys.InFlight
  cases hc : w.calls x with
  | none => exact Iff.rfl
  | some call =>
    dsimp only
    by_cases hr : Runnable x w.sched
    · obtain ⟨hr',htop⟩ := hpass.runnable hr
      rw [timeleft_congr call htop]
      simp [hr,hr']
    · obtain ⟨hearly,hsus,hdoze⟩ := h.blocked hc hr
      refine ⟨fun hflight => absurd hflight ?_,fun hflight => absurd hflight.1 hr⟩
      rintro ⟨hr',htake⟩
      by_cases h0 : call.timeout = 0
      · exact hp.not_runnable (hpass.suspended (hsus h0)) (by simp) hr'
      · rcases hpass.dozing (hdoze h0) with hd | ⟨-,hzero⟩
        · exact hp.not_runnable hd.mem (by simp) hr'
        · apply htake
          rw [WaitCall.timeleft,if_neg h0,hearly,hzero]
          rfl

/-- A thread that is parked after the scheduler moved on was so before. -/
theorem Sound.parked_moves {s' : Sched T} {x : T} (h : Sound idle live w)
    (hp : Partition idle live s') (hx : x ∈ live) (hm : Moves w.sched s' x)
    (hpark : ({ w with sched := s' } : WaitSys T).Parked x) : w.Parked x := by
  obtain ⟨hmem,hblock⟩ := hpark
  have hr := hp.not_runnable_of_blocked hblock
  refine ⟨hmem,h.partition.blocked_of_not_runnable hx fun hrun => hr ?_⟩
  exact ((hm.resolve_right hr).runnable hrun).1

/-- The number of calls in flight depends on each of them alone. -/
theorem inFlight_congr {w' : WaitSys T} (h : ∀ x ∈ live,w'.InFlight x ↔ w.InFlight x) :
    w'.inFlight live = w.inFlight live :=
  List.countP_congr fun x hx => by simpa using h x hx

/-- One call more is in flight. -/
theorem inFlight_succ {w' : WaitSys T} {t : T} (hn : live.Nodup) (ht : t ∈ live)
    (h : ∀ x ∈ live,x ≠ t → (w'.InFlight x ↔ w.InFlight x)) (hb : ¬w.InFlight t)
    (ha : w'.InFlight t) : w'.inFlight live = w.inFlight live + 1 := by
  have hperm := List.perm_cons_erase ht
  have hrest : (live.erase t).countP (fun x => w'.InFlight x) =
      (live.erase t).countP (fun x => w.InFlight x) := by
    refine List.countP_congr fun x hx => ?_
    obtain ⟨hne,hx⟩ := hn.mem_erase_iff.mp hx
    simpa using h x hx hne
  rw [WaitSys.inFlight,WaitSys.inFlight,hperm.countP_eq,
    hperm.countP_eq (fun x => decide (w.InFlight x)),List.countP_cons,List.countP_cons,hrest]
  simp [ha,hb]

end Calls

section Steps

variable {idle : T} {live : List T} {w : WaitSys T}

/-- A tick keeps the calls sound and puts none in flight. -/
theorem Sound.tick (h : Sound idle live w) (doTick : Bool) :
    Sound idle live (w.tick idle doTick) ∧
      (∀ x ∈ live,(w.tick idle doTick).InFlight x ↔ w.InFlight x) ∧
      ∀ x ∈ live,(w.tick idle doTick).Parked x → w.Parked x := by
  have hp := h.partition.tick doTick
  have hm : ∀ x ∈ live,Passes x w.sched (w.sched.tick idle doTick) :=
    fun x hx => h.partition.passes_tick doTick hx
  exact ⟨h.sched hp fun x hx => Or.inl (hm x hx),fun x hx => h.inFlight_passes hp (hm x hx),
    fun x hx => h.parked_moves hp hx (Or.inl (hm x hx))⟩

/-- Resume keeps the calls sound. It puts the call of its thread in flight
when that was blocked and had time left, and no other. -/
theorem Sound.resume (h : Sound idle live w) (t : T) (prepend : Bool) :
    Sound idle live { w with sched := (w.sched.resume t prepend).2 } ∧
      (∀ x ∈ live,({ w with sched := (w.sched.resume t prepend).2 } : WaitSys T).InFlight x ↔
        w.InFlight x ∨ x = t ∧ w.Takes t) ∧
      (∀ x ∈ live,({ w with sched := (w.sched.resume t prepend).2 } : WaitSys T).Parked x →
        w.Parked x) ∧
      ((w.calls t).isSome → Runnable t (w.sched.resume t prepend).2) := by
  have hp := h.partition.resume t prepend
  have hself : Moves w.sched (w.sched.resume t prepend).2 t :=
    (resume_self prepend).imp_right Or.inr
  have hm : ∀ x ∈ live,Moves w.sched (w.sched.resume t prepend).2 x := by
    intro x _
    by_cases hxt : x = t
    · exact hxt ▸ hself
    · exact Or.inl (h.partition.passes_resume prepend hxt)
  -- The thread itself: its call is blocked, runnable, or there is none.
  have hrun : (w.calls t).isSome → Runnable t (w.sched.resume t prepend).2 := by
    intro hsome
    obtain ⟨call,hc⟩ := Option.isSome_iff_exists.mp hsome
    by_cases hr : Runnable t w.sched
    · rw [h.partition.resume_runnable prepend hr]
      exact hr
    · obtain ⟨-,hsus,hdoze⟩ := h.blocked hc hr
      by_cases h0 : call.timeout = 0
      · exact Or.inr (resume_suspended prepend (hsus h0)).2
      · exact Or.inr (h.partition.resume_dozing prepend (hdoze h0)).2.1
  refine ⟨h.sched hp hm,fun x hx => ?_,fun x hx => h.parked_moves hp hx (hm x hx),hrun⟩
  by_cases hxt : x = t
  · subst hxt
    simp only [true_and]
    cases hc : w.calls x with
    | none => simp [WaitSys.InFlight,WaitSys.Takes,hc]
    | some call =>
      by_cases hr : Runnable x w.sched
      · have hpass : Passes x w.sched (w.sched.resume x prepend).2 := by
          rw [h.partition.resume_runnable prepend hr]
          exact passes_count fun _ => ⟨rfl,rfl,rfl⟩
        rw [h.inFlight_passes hp hpass]
        simp [WaitSys.Takes,hc,hr]
      · have hr' := hrun (by rw [hc]; rfl)
        obtain ⟨hearly,hsus,hdoze⟩ := h.blocked hc hr
        simp only [WaitSys.InFlight,WaitSys.Takes,hc,hr,hr',not_false_eq_true,true_and,false_and,
          false_or]
        by_cases h0 : call.timeout = 0
        · simp [WaitCall.timeleft,h0]
        · have htop := (h.partition.resume_dozing prepend (hdoze h0)).2.2
          rw [WaitCall.timeleft,if_neg h0,hearly,Option.getD_none,htop]
          simp [h0]
  · rw [h.inFlight_passes hp (h.partition.passes_resume prepend hxt)]
    simp [hxt]

/-- So does a wake-up from an interrupt handler, which ends in a tick. -/
theorem Sound.wakeUp (h : Sound idle live w) (state : Bool) (t : T) :
    Sound idle live (w.wakeUp idle state t) ∧
      (∀ x ∈ live,(w.wakeUp idle state t).InFlight x ↔ w.InFlight x ∨ x = t ∧ w.Takes t) ∧
      (∀ x ∈ live,(w.wakeUp idle state t).Parked x → w.Parked x) ∧
      ((w.calls t).isSome → Runnable t (w.wakeUp idle state t).sched) := by
  cases state with
  | false => exact h.resume t false
  | true =>
    obtain ⟨hs,hf,hpark,hrun⟩ := h.resume t true
    by_cases hres : (w.sched.resume t true).1 = true
    · have he : w.wakeUp idle true t =
          ({ w with sched := (w.sched.resume t true).2 } : WaitSys T).tick idle true := by
        simp [WaitSys.wakeUp,WaitSys.tick,Sched.quickResume,hres]
      obtain ⟨hs',hf',hpark'⟩ := hs.tick true
      rw [he]
      refine ⟨hs',fun x hx => (hf' x hx).trans (hf x hx),fun x hx h' => hpark x hx (hpark' x hx h'),
        fun hc => ?_⟩
      have ht := h.calls_live hc
      exact (hs.partition.passes_tick true ht).runnable (hrun hc) |>.1
    · have he : w.wakeUp idle true t = { w with sched := (w.sched.resume t true).2 } := by
        simp [WaitSys.wakeUp,Sched.quickResume,hres]
      rw [he]
      exact ⟨hs,hf,hpark,hrun⟩

/-- The end of a call keeps the others sound. -/
theorem Sound.leave (h : Sound idle live w) {c : T} {call : WaitCall}
    (hc : w.sched.currentThread = some c) :
    Sound idle live (w.leave c call) ∧
      (∀ x,x ≠ c → ((w.leave c call).InFlight x ↔ w.InFlight x)) ∧
      ¬(w.leave c call).InFlight c ∧
      ∀ x,(w.leave c call).Parked x → w.Parked x := by
  have hcalls {x : T} (hx : x ≠ c) : (w.leave c call).calls x = w.calls x :=
    Function.update_of_ne hx ..
  have hself : (w.leave c call).calls c = none := Function.update_self ..
  have hmem {e : Option T} (he : e ∈ (w.leave c call).waiters.toList) :
      e ∈ w.waiters.toList := by
    simp only [WaitSys.leave] at he
    split_ifs at he
    · exact BoundedQueue.mem_of_mem_removeFirst _ he
    · exact he
  refine ⟨⟨h.partition,h.nodup,fun {x} hx => ?_,fun {x call'} hx hr => ?_,fun {x} hx => ?_⟩,
    fun x hx => ?_,?_,fun x hx => ⟨hmem hx.1,hx.2⟩⟩
  · by_cases hxc : x = c
    · subst hxc
      simp [hself] at hx
    · rw [hcalls hxc] at hx
      exact h.calls_live hx
  · by_cases hxc : x = c
    · subst hxc
      simp [hself] at hx
    · rw [hcalls hxc] at hx
      exact h.blocked hx hr
  · obtain ⟨hl,hor⟩ := h.waiters (hmem hx)
    refine ⟨hl,?_⟩
    by_cases hxc : x = c
    · subst hxc
      exact Or.inr (Or.inl hc)
    · rw [hcalls hxc]
      exact hor
  · simp only [WaitSys.InFlight,hcalls hx]
    rfl
  · simp [WaitSys.InFlight,hself]

/-- A thread that starts to wait is sound. Its call is in flight at once when
its count is above one. -/
theorem Sound.enter (h : Sound idle live w) {c : T} {timeout : ℕ} (hl : c ∈ live)
    (hc : w.sched.currentThread = some c) (hcall : w.calls c = none) (hm : timeout < 2 ^ 32)
    (hfull : w.waiters.full = false) :
    Sound idle live (w.enter idle c timeout) ∧
      (∀ x ∈ live,x ≠ c → ((w.enter idle c timeout).InFlight x ↔ w.InFlight x)) ∧
      ((w.enter idle c timeout).InFlight c ↔ w.EntersAwake c timeout) ∧
      ¬w.InFlight c := by
  have hp : Partition idle live (w.enter idle c timeout).sched := h.partition.beginWait hl hm
  have hcalls {x : T} (hx : x ≠ c) : (w.enter idle c timeout).calls x = w.calls x :=
    Function.update_of_ne hx ..
  have hself : (w.enter idle c timeout).calls c = some (beginWait idle c timeout w.sched).1 :=
    Function.update_self ..
  have hpass : ∀ x ∈ live,x ≠ c → Passes x w.sched (w.enter idle c timeout).sched := by
    intro x hx hne
    by_cases hw : 2 ≤ (w.sched.thread c).wakeCount
    · have hs := (@beginWait_early T _ idle w.sched c timeout hw).1
      change Passes x w.sched (beginWait idle c timeout w.sched).2
      rw [hs]
      exact passes_modify _ hne
    · exact (h.partition.beginWait_blocks hl hc hm (by omega)).2.2.2 x hx hne
  have hblocked {call : WaitCall} (hx : (w.enter idle c timeout).calls c = some call)
      (hr : ¬Runnable c (w.enter idle c timeout).sched) : call.early = none ∧
        (call.timeout = 0 → c ∈ (w.enter idle c timeout).sched.queue .suspendedThreads) ∧
        (call.timeout ≠ 0 → Dozing c (w.enter idle c timeout).sched) := by
    have hw : (w.sched.thread c).wakeCount ≤ 1 := by
      by_contra hw
      refine hr ?_
      change Runnable c (beginWait idle c timeout w.sched).2
      rw [(@beginWait_early T _ idle w.sched c timeout (by omega)).1]
      exact Or.inl hc
    obtain ⟨hcallEq,hsus,hdoze,-⟩ := h.partition.beginWait_blocks hl hc hm hw
    rw [hself,hcallEq] at hx
    obtain rfl := Option.some.inj hx
    exact ⟨rfl,hsus,hdoze⟩
  refine ⟨⟨hp,h.nodup,fun {x} hx => ?_,fun {x call} hx hr => ?_,fun {x} hx => ?_⟩,
    fun x hx hne => ?_,?_,by simp [WaitSys.InFlight,hcall]⟩
  · by_cases hxc : x = c
    · exact hxc ▸ hl
    · rw [hcalls hxc] at hx
      exact h.calls_live hx
  · by_cases hxc : x = c
    · subst hxc
      exact hblocked hx hr
    · rw [hcalls hxc] at hx
      have hx' : x ∈ live := h.calls_live (by rw [hx]; rfl)
      have hpx := hpass x hx' hxc
      obtain ⟨hearly,hsus,hdoze⟩ := h.blocked hx fun hrun => hr (hpx.runnable hrun).1
      refine ⟨hearly,fun h0 => hpx.suspended (hsus h0),fun h0 => ?_⟩
      rcases hpx.dozing (hdoze h0) with hd | ⟨hrun,-⟩
      · exact hd
      · exact absurd hrun hr
  · change some x ∈ (w.waiters.write (some c)).2.toList at hx
    rw [BoundedQueue.toList_write _ _ hfull,List.mem_append,List.mem_singleton] at hx
    by_cases hxc : x = c
    · subst hxc
      exact ⟨hl,Or.inl (by rw [hself]; rfl)⟩
    · rcases hx with hx | hx
      · obtain ⟨hx',hor⟩ := h.waiters hx
        refine ⟨hx',?_⟩
        rw [hcalls hxc]
        exact hor.imp_right fun hrun => ((hpass x hx' hxc).runnable hrun).1
      · exact absurd (Option.some.inj hx) hxc
  · have hiff := h.inFlight_passes hp (hpass x hx hne)
    simp only [WaitSys.InFlight] at hiff ⊢
    rw [hcalls hne]
    exact hiff
  · unfold WaitSys.EntersAwake
    by_cases hw : 2 ≤ (w.sched.thread c).wakeCount
    · obtain ⟨hs,hcallEq⟩ := @beginWait_early T _ idle w.sched c timeout hw
      have hrun : Runnable c (w.enter idle c timeout).sched := by
        change Runnable c (beginWait idle c timeout w.sched).2
        rw [hs]
        exact Or.inl hc
      simp only [WaitSys.InFlight,hself,hcallEq,hrun,hw,true_and,WaitCall.timeleft]
      by_cases h0 : timeout = 0
      · simp [h0]
      · simp [h0]
    · obtain ⟨hcallEq,hsus,hdoze,-⟩ := h.partition.beginWait_blocks hl hc hm (by omega)
      have hrun : ¬Runnable c (w.enter idle c timeout).sched := by
        by_cases h0 : timeout = 0
        · exact hp.not_runnable (hsus h0) (by simp)
        · exact hp.not_runnable (hdoze h0).mem (by simp)
      simp only [WaitSys.InFlight,hself,hrun,false_and,hw]

end Steps

/-- Three threads, with the one that is idle. -/
local instance three_threads : NeZero 3 := ⟨by decide⟩

/-- Two threads: the first thread of the kernel and one that is ready. -/
def twoThreads : Sched (Fin 3) :=
  ((Sched.boot 0 1).apply 1 (.enable 2)).apply 1 (.resume 2 false)

theorem twoThreads_partition : Partition 1 [2,0] twoThreads := by
  have h₀ := ordered_boot (show (0 : Fin 3) ≠ 1 by decide)
  have h₁ := @Ordered.apply _ _ _ _ _ (.enable 2) h₀ (by decide)
  exact (@Ordered.apply _ _ _ _ _ (.resume 2 false) h₁ (by decide)).partition

end WootOs.WaitQueue
