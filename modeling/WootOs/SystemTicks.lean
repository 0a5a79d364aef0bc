import WootOs.Runs
import WootOs.SchedulerPartition

/-!
# Ticks of the timer

The real-time clock sets a flag at each periodic interrupt, and reading its
status register clears it. Time::Tick reads it on a timer interrupt and on every
fake tick, counts systemTicks by it, and counts the sleeps down by it unless the
tick is a fake one. QuickResume counts the sleeps down by no flag at all.

A sleeping thread and systemTicks agree with the interrupts as long as no fake
tick finds the flag set, no interrupt comes while it is set, and no QuickResume
takes a thread out of its queue.
-/

namespace WootOs.SystemTicks

open Scheduler ObjectQueue Sched Runs

variable {T : Type*} [DecidableEq T]

/-- The scheduler with the timer. -/
structure Clock (T : Type*) where
  /-- The threads and their queues. -/
  sched : Sched T
  /-- The interrupt flag in status register C of the clock chip. -/
  status : Bool
  /-- Time::isFakeTick. -/
  isFakeTick : Bool
  /-- Time::systemTicks. -/
  systemTicks : ℕ

namespace Clock

variable (idle : T)

/-- Time::Tick; reading the flag clears it. -/
def tick (s : Clock T) : Clock T where
  sched := s.sched.tick idle (s.status && !s.isFakeTick)
  status := false
  isFakeTick := false
  systemTicks := if s.status then (s.systemTicks + 1) % 2 ^ 64 else s.systemTicks

/-- Time::FakeTick. -/
def fakeTick (s : Clock T) : Clock T := tick idle { s with isFakeTick := true }

/-- Thread::Suspend. -/
def suspend (t : T) (s : Clock T) : Clock T :=
  let sched := s.sched.modify t Thread.dropWake
  if (sched.thread t).wakeCount ≠ 0 then { s with sched := sched }
  else if sched.currentThread = some t then
    fakeTick idle { s with sched := sched.modify t (Thread.setState .suspending) }
  else if t ∈ sched.queue .readyThreads then
    let sched := (sched.remove .readyThreads t).modify t (Thread.setState .suspended)
    { s with sched := sched.add .suspendedThreads t false }
  else if t ∈ sched.queue .sleepingThreads then
    let sched := (sched.remove .sleepingThreads t).modify t (Thread.setState .suspended)
    { s with sched := sched.add .suspendedThreads t false }
  else { s with sched := sched }

/-- Thread::QuickResume. The tick of its GetNext belongs to no interrupt. -/
def quickResume (t : T) (s : Clock T) : Clock T :=
  let r := s.sched.resume t true
  if r.1 then { s with sched := switch (getNext idle true r.2).1 (getNext idle true r.2).2 }
  else { s with sched := r.2 }

/-- Thread::TicksSleep, up to the switch to another thread. -/
def ticksSleep (t : T) (ticks : ℕ) (interruptible : Bool) (s : Clock T) : Clock T :=
  let sched := s.sched.modify t Thread.dropWake
  if (sched.thread t).wakeCount ≠ 0 then { s with sched := sched }
  else
    let sched := ((sched.remove .readyThreads t).remove .suspendedThreads t).remove
      .sleepingThreads t
    let sched := (sched.modify t (Thread.sleep ticks interruptible)).add .sleepingThreads t false
    if sched.currentThread = some t then
      tick idle { s with sched := sched.modify t Thread.awaitResult, isFakeTick := true }
    else { s with sched := sched }

/-- The part of Thread::Finalize behind its signal. -/
def retire (t : T) (s : Clock T) : Clock T :=
  let sched := s.sched.modify t (Thread.setState .finalized)
  let sched := ((sched.remove .readyThreads t).remove .suspendedThreads t).remove
    .sleepingThreads t
  if sched.currentThread = some t then
    fakeTick idle { s with sched := { sched with currentThread := none } }
  else { s with sched := sched }

/-- Thread::Finalize, with the thread that its signal resumes. -/
def finalize (thread : Option T) (woken : Option T) (s : Clock T) : Clock T :=
  match thread.or s.sched.currentThread with
  | none => s
  | some t =>
    match woken with
    | none => retire idle t s
    | some w => retire idle t { s with sched := (s.sched.resume w false).2 }

end Clock

/-- What may happen: the clock chip raises an interrupt, the processor takes it,
or a thread or an interrupt handler calls the scheduler. -/
inductive Event (T : Type*) where
  /-- A periodic interrupt of the clock chip. -/
  | periodic
  /-- The timer interrupt reaches the processor. -/
  | interrupt
  /-- Thread::Yield. -/
  | yield
  /-- Thread::Enable. -/
  | enable (t : T)
  /-- Thread::Suspend. -/
  | suspend (t : T)
  /-- Thread::Resume. -/
  | resume (t : T) (prepend : Bool)
  /-- Thread::QuickResume. -/
  | quickResume (t : T)
  /-- Thread::TicksSleep. -/
  | ticksSleep (t : T) (ticks : ℕ) (interruptible : Bool)
  /-- Thread::Finalize, with the thread its signal resumes. -/
  | finalize (thread : Option T) (woken : Option T)

variable (idle : T)

/-- The effect of an event. -/
def Clock.apply (s : Clock T) : Event T → Clock T
  | .periodic => { s with status := true }
  | .interrupt => s.tick idle
  | .yield => s.fakeTick idle
  | .enable t => { s with sched := s.sched.enable t }
  | .suspend t => s.suspend idle t
  | .resume t prepend => { s with sched := (s.sched.resume t prepend).2 }
  | .quickResume t => s.quickResume idle t
  | .ticksSleep t ticks interruptible => s.ticksSleep idle t ticks interruptible
  | .finalize thread woken => s.finalize idle thread woken

/-- What an event is to the scheduler. -/
def Event.op (s : Clock T) : Event T → Option (Op T)
  | .periodic => none
  | .interrupt => some (.tick (s.status && !s.isFakeTick))
  | .yield => some (.tick false)
  | .enable t => some (.enable t)
  | .suspend t => some (.suspend t)
  | .resume t prepend => some (.resume t prepend)
  | .quickResume t => some (.quickResume t)
  | .ticksSleep t ticks interruptible => some (.ticksSleep t ticks interruptible)
  | .finalize thread woken => some (.finalize thread woken)

/-- Whether an event ends in a fake tick. -/
def Event.fakes (s : Clock T) : Event T → Bool
  | .yield => true
  | .suspend t => (s.sched.thread t).wakeCount - 1 = 0 ∧ s.sched.currentThread = some t
  | .ticksSleep t _ _ => (s.sched.thread t).wakeCount - 1 = 0 ∧ s.sched.currentThread = some t
  | .finalize thread _ =>
    match thread.or s.sched.currentThread with
    | none => false
    | some t => s.sched.currentThread = some t
  | _ => false

/-- Whether the clock chip raises an interrupt. -/
def Event.raises : Event T → Bool
  | .periodic => true
  | _ => false

/-- Whether QuickResume calls GetNext. -/
def Event.rushes (s : Clock T) : Event T → Bool
  | .quickResume t => (s.sched.resume t true).1
  | _ => false

/-- Whether an event counts the sleeps down. -/
def Event.counts (s : Clock T) : Event T → Bool
  | .interrupt => s.status && !s.isFakeTick
  | e => e.rushes s

/-- Whether an event reads the status register. -/
def Event.reads (s : Clock T) : Event T → Bool
  | .interrupt => true
  | e => e.fakes s

section Sleepers

variable {idle : T} {live : List T} {s : Sched T} {x : T}

/-- A change of a record that leaves SleepTicks alone. -/
theorem modify_sleepTicks {f : Thread → Thread} (hf : ∀ th,(f th).sleepTicks = th.sleepTicks)
    (t : T) : ((s.modify t f).thread x).sleepTicks = (s.thread x).sleepTicks := by
  by_cases hx : x = t
  · subst hx
    rw [modify_thread_self,hf]
  · rw [modify_thread_ne _ _ _ hx]

/-- GetNext and Switch move no thread to the sleeping ones, and change nothing
of a sleep beyond the two walks. -/
theorem tick_settled (idle : T) (doTick : Bool) (s : Sched T) (x : T) :
    (s.tick idle doTick).queue .sleepingThreads = (settle doTick s).queue .sleepingThreads ∧
      ((s.tick idle doTick).thread x).sleepTicks =
        ((settle doTick s).thread x).sleepTicks := by
  have hyield : (yieldCurrent idle (settle doTick s)).queue .sleepingThreads =
      (settle doTick s).queue .sleepingThreads ∧
      ((yieldCurrent idle (settle doTick s)).thread x).sleepTicks =
        ((settle doTick s).thread x).sleepTicks := by
    unfold yieldCurrent
    split
    · exact ⟨rfl,rfl⟩
    · split_ifs
      · exact ⟨rfl,modify_sleepTicks (Thread.setState_sleepTicks _) _⟩
      · exact ⟨rfl,modify_sleepTicks (Thread.setState_sleepTicks _) _⟩
      · exact ⟨rfl,rfl⟩
  have htake : ∀ u : Sched T,(takeReady idle u).2.queue .sleepingThreads =
      u.queue .sleepingThreads ∧ (takeReady idle u).2.thread = u.thread := by
    intro u
    unfold takeReady
    split <;> exact ⟨rfl,rfl⟩
  have hswitch : ∀ (t : T) (u : Sched T),(switch t u).queue = u.queue ∧
      ((switch t u).thread x).sleepTicks = (u.thread x).sleepTicks := by
    intro t u
    unfold switch
    split_ifs
    · exact ⟨rfl,rfl⟩
    · exact ⟨rfl,modify_sleepTicks (Thread.setState_sleepTicks _) _⟩
  obtain ⟨hqueue,hthread⟩ := htake (yieldCurrent idle (settle doTick s))
  rw [Sched.tick,(hswitch _ _).1,(hswitch _ _).2]
  exact ⟨hqueue.trans hyield.1,by rw [← hyield.2,← hthread]; rfl⟩

/-- A fake tick changes nothing of any sleep. -/
theorem fakeTick_sleepTicks (idle : T) (s : Sched T) (x : T) :
    ((s.tick idle false).thread x).sleepTicks = (s.thread x).sleepTicks := by
  rw [(tick_settled idle false s x).2,settle,if_neg Bool.false_ne_true,wakeExpired]
  dsimp only
  split_ifs
  · exact Thread.expire_sleepTicks _
  · rfl

/-- A thread that sleeps after a tick slept before it, and the tick took one
from its SleepTicks. -/
theorem realTick_sleepTicks (h : Queued idle live s)
    (hx : x ∈ (s.tick idle true).queue .sleepingThreads) : x ∈ s.queue .sleepingThreads ∧
      ((s.tick idle true).thread x).sleepTicks = (s.thread x).sleepTicks - 1 := by
  obtain ⟨hqueue,hthread⟩ := tick_settled idle true s x
  rw [hqueue,settle,if_pos rfl] at hx
  obtain ⟨hmem,hticks⟩ | ⟨hready,-⟩ := (mem_wakeExpired _ _).mp hx
  · have hsleep : x ∈ s.queue .sleepingThreads := hmem
    have hpos : Queue.Holds .sleepingThreads (s.thread x) := h.state hsleep
    refine ⟨hsleep,?_⟩
    have hleft : x ∉ (tickSleepers s).expired := fun he => hticks rfl (mem_expired.mp he).2
    rw [hthread,settle,if_pos rfl,wakeExpired_thread hleft,tickSleepers]
    dsimp only
    rw [if_pos hsleep,Thread.tick,if_pos hpos.2]
  · cases hready

/-- Resume changes nothing of the sleep of a thread that sleeps on. -/
theorem resume_sleepTicks (h : Queued idle live s) {t : T} {prepend : Bool}
    (hx : x ∈ (s.resume t prepend).2.queue .sleepingThreads) : x ∈ s.queue .sleepingThreads ∧
      ((s.resume t prepend).2.thread x).sleepTicks = (s.thread x).sleepTicks := by
  have hcount : ((s.modify t Thread.countWake).thread x).sleepTicks = (s.thread x).sleepTicks :=
    modify_sleepTicks Thread.countWake_sleepTicks t
  have hne : ∀ q,t ∈ s.queue q → x ≠ t →
      ((((s.modify t Thread.countWake).remove q t).modify t Thread.wake).thread x).sleepTicks =
        (s.thread x).sleepTicks := by
    intro q _ hne
    rw [modify_thread_ne _ _ _ hne]
    exact hcount
  unfold Sched.resume at hx ⊢
  dsimp only at hx ⊢
  split_ifs at hx ⊢ with hsusp hint
  · have hsleep : x ∈ s.queue .sleepingThreads := by simpa [Sched.add,Sched.remove] using hx
    exact ⟨hsleep,hne .suspendedThreads hsusp fun hxt =>
      absurd (h.disjoint hsleep (hxt ▸ hsusp)) (by simp)⟩
  · have hsleep : x ∈ (s.queue .sleepingThreads).erase t := by
      simpa [Sched.add,Sched.remove] using hx
    obtain ⟨hxt,hmem⟩ := (h.nodup _).mem_erase_iff.mp hsleep
    exact ⟨hmem,hne .sleepingThreads hint.1 hxt⟩
  · exact ⟨hx,hcount⟩

/-- A thread that sleeps after a fake tick slept before it. -/
theorem fakeTick_sleeps (hx : x ∈ (s.tick idle false).queue .sleepingThreads) :
    x ∈ s.queue .sleepingThreads := by
  rw [(tick_settled idle false s x).1,settle,if_neg Bool.false_ne_true] at hx
  obtain ⟨hmem,-⟩ | ⟨hready,-⟩ := (mem_wakeExpired _ _).mp hx
  · exact hmem
  · cases hready

theorem suspend_sleepTicks (t : T) :
    ((s.suspend idle t).thread x).sleepTicks = (s.thread x).sleepTicks := by
  have hdrop : ((s.modify t Thread.dropWake).thread x).sleepTicks = (s.thread x).sleepTicks :=
    modify_sleepTicks Thread.dropWake_sleepTicks t
  unfold Sched.suspend
  dsimp only
  split_ifs
  · exact hdrop
  · rw [fakeTick_sleepTicks,modify_sleepTicks (Thread.setState_sleepTicks _)]
    exact hdrop
  · exact (modify_sleepTicks (Thread.setState_sleepTicks _) t).trans hdrop
  · exact (modify_sleepTicks (Thread.setState_sleepTicks _) t).trans hdrop
  · exact hdrop

theorem ticksSleep_sleepTicks {t : T} {ticks : ℕ} {interruptible : Bool} (hne : x ≠ t) :
    ((s.ticksSleep idle t ticks interruptible).thread x).sleepTicks = (s.thread x).sleepTicks := by
  unfold Sched.ticksSleep
  dsimp only
  split_ifs
  · exact modify_sleepTicks Thread.dropWake_sleepTicks t
  · rw [fakeTick_sleepTicks,modify_thread_ne _ _ _ hne,add_thread,modify_thread_ne _ _ _ hne]
    exact modify_sleepTicks Thread.dropWake_sleepTicks t
  · rw [add_thread,modify_thread_ne _ _ _ hne]
    exact modify_sleepTicks Thread.dropWake_sleepTicks t

theorem retire_sleepTicks {t : T} (hx : x ∈ (s.retire idle t).queue .sleepingThreads) :
    x ∈ s.queue .sleepingThreads ∧
      ((s.retire idle t).thread x).sleepTicks = (s.thread x).sleepTicks := by
  have hstate : ((s.modify t (Thread.setState .finalized)).thread x).sleepTicks =
      (s.thread x).sleepTicks := modify_sleepTicks (Thread.setState_sleepTicks _) t
  have hmem : ∀ y,y ∈ ((((s.modify t (Thread.setState .finalized)).remove .readyThreads t).remove
      .suspendedThreads t).remove .sleepingThreads t).queue .sleepingThreads →
        y ∈ s.queue .sleepingThreads := by
    intro y hy
    exact List.mem_of_mem_erase (by simpa [Sched.remove] using hy)
  unfold Sched.retire at hx ⊢
  dsimp only at hx ⊢
  split_ifs at hx ⊢
  · have hslept := fakeTick_sleeps hx
    refine ⟨hmem x hslept,?_⟩
    rw [fakeTick_sleepTicks]
    exact hstate
  · exact ⟨hmem x hx,hstate⟩

theorem finalize_sleepTicks (h : Queued idle live s) {thread woken : Option T}
    (hx : x ∈ (s.finalize idle thread woken).queue .sleepingThreads) :
    ((s.finalize idle thread woken).thread x).sleepTicks = (s.thread x).sleepTicks := by
  cases ht : thread.or s.currentThread with
  | none =>
    have hnone : s.finalize idle thread woken = s := by rw [Sched.finalize,ht]
    rw [hnone]
  | some t =>
    cases woken with
    | none =>
      have hretire : s.finalize idle thread none = s.retire idle t := by rw [Sched.finalize,ht]
      rw [hretire] at hx ⊢
      exact (retire_sleepTicks hx).2
    | some w =>
      have hretire : s.finalize idle thread (some w) =
          (s.resume w false).2.retire idle t := by rw [Sched.finalize,ht]
      rw [hretire] at hx ⊢
      obtain ⟨hmem,hticks⟩ := retire_sleepTicks hx
      exact hticks.trans (resume_sleepTicks h hmem).2

end Sleepers

section Steps

variable {idle : T} {s : Clock T} {g : Census T} {e : Event T} {x : T}

/-- The event puts a thread to sleep. -/
def Event.Sleeps (x : T) : Event T → Prop
  | .ticksSleep t _ _ => t = x
  | _ => False

/-- The scheduler is left as by its own operation. -/
theorem apply_sched : (s.apply idle e).sched =
    match e.op s with
    | none => s.sched
    | some op => s.sched.apply idle op := by
  cases e with
  | periodic => rfl
  | interrupt => rfl
  | yield =>
    change s.sched.tick idle (s.status && !true) = s.sched.tick idle false
    rw [Bool.not_true,Bool.and_false]
  | enable t => rfl
  | resume t prepend => rfl
  | quickResume t =>
    change (s.quickResume idle t).sched = (s.sched.quickResume idle t).2
    unfold Clock.quickResume Sched.quickResume
    dsimp only
    split_ifs <;> rfl
  | suspend t =>
    change (s.suspend idle t).sched = s.sched.suspend idle t
    unfold Clock.suspend Sched.suspend Clock.fakeTick Clock.tick
    dsimp only
    split_ifs <;> simp
  | ticksSleep t ticks interruptible =>
    change (s.ticksSleep idle t ticks interruptible).sched =
      s.sched.ticksSleep idle t ticks interruptible
    unfold Clock.ticksSleep Sched.ticksSleep Clock.tick
    dsimp only
    split_ifs <;> simp
  | finalize thread woken =>
    have hretire : ∀ (t : T) (u : Clock T),(u.retire idle t).sched = u.sched.retire idle t := by
      intro t u
      unfold Clock.retire Sched.retire Clock.fakeTick Clock.tick
      dsimp only
      split_ifs <;> simp
    change (s.finalize idle thread woken).sched = s.sched.finalize idle thread woken
    unfold Clock.finalize Sched.finalize
    cases thread.or s.sched.currentThread with
    | none => rfl
    | some t =>
      cases woken with
      | none => exact hretire _ _
      | some w => exact hretire _ _

/-- An event counts one tick down for a thread that sleeps on, if it counts any. -/
theorem apply_sleepTicks (h : Ordered idle g s.sched)
    (hl : ∀ op ∈ e.op s,op.Legal s.sched.currentThread g) (hne : ¬e.Sleeps x)
    (hx : x ∈ s.sched.queue .sleepingThreads)
    (hx' : x ∈ (s.apply idle e).sched.queue .sleepingThreads) :
    ((s.apply idle e).sched.thread x).sleepTicks =
      (s.sched.thread x).sleepTicks - (e.counts s).toNat := by
  have hq := h.partition.queued
  rw [apply_sched] at hx' ⊢
  cases e with
  | periodic => simp [Event.op,Event.counts,Event.rushes]
  | interrupt =>
    simp only [Event.op,Event.counts] at hx' ⊢
    generalize (s.status && !s.isFakeTick) = doTick at hx' ⊢
    cases doTick with
    | false =>
      rw [Sched.apply,fakeTick_sleepTicks]
      simp
    | true => exact (realTick_sleepTicks hq hx').2
  | yield =>
    simp only [Event.op,Event.counts,Event.rushes,Sched.apply,fakeTick_sleepTicks]
    simp
  | enable t =>
    have hxt : x ≠ t := fun hxt => hl _ rfl (hxt ▸ h.seen x (hq.mem_live hx))
    simp only [Event.op,Event.counts,Event.rushes,Sched.apply,Sched.enable,
      modify_thread_ne _ _ _ hxt]
    simp
  | suspend t =>
    simp only [Event.op,Event.counts,Event.rushes,Sched.apply,suspend_sleepTicks]
    simp
  | resume t prepend =>
    simp only [Event.op,Event.counts,Event.rushes,Sched.apply] at hx' ⊢
    rw [(resume_sleepTicks hq hx').2]
    simp
  | quickResume t =>
    simp only [Event.op,Event.counts,Event.rushes,Sched.apply,Sched.quickResume] at hx' ⊢
    cases hr : (s.sched.resume t true).1 with
    | false =>
      simp only [hr,Bool.false_eq_true,if_false] at hx' ⊢
      rw [(resume_sleepTicks hq hx').2]
      simp
    | true =>
      simp only [hr,if_true] at hx' ⊢
      have hresumed := (h.partition.resume t true).queued
      obtain ⟨hmem,hticks⟩ := realTick_sleepTicks hresumed hx'
      rw [hticks,(resume_sleepTicks hq hmem).2]
      rfl
  | ticksSleep t ticks interruptible =>
    have hxt : x ≠ t := fun hxt => hne hxt.symm
    simp only [Event.op,Event.counts,Event.rushes,Sched.apply,ticksSleep_sleepTicks hxt]
    simp
  | finalize thread woken =>
    simp only [Event.op,Event.counts,Event.rushes,Sched.apply] at hx' ⊢
    rw [finalize_sleepTicks hq hx']
    simp

/-- How the timer changes when the status register is read, and when it is not. -/
def TimedBy (s s' : Clock T) (reads : Bool) : Prop :=
  s'.status = (s.status && !reads) ∧ s'.isFakeTick = (s.isFakeTick && !reads) ∧
    s'.systemTicks = if (reads && s.status) = true then (s.systemTicks + 1) % 2 ^ 64
      else s.systemTicks

omit [DecidableEq T] in
theorem TimedBy.unread (s : Clock T) (sched : Sched T) :
    TimedBy s { s with sched := sched } false := by
  simp [TimedBy]

theorem TimedBy.tick (idle : T) (s : Clock T) (sched : Sched T) (isFakeTick : Bool) :
    TimedBy s (Clock.tick idle { s with sched := sched, isFakeTick := isFakeTick }) true := by
  simp [TimedBy,Clock.tick]

theorem suspend_timer (t : T) :
    TimedBy s (s.suspend idle t) ((Event.suspend t).fakes s) := by
  by_cases hfake : (s.sched.thread t).wakeCount - 1 = 0 ∧ s.sched.currentThread = some t
  · simp only [Event.fakes,hfake,and_self,decide_true]
    rw [Clock.suspend]
    simp only [modify_thread_self,Thread.dropWake_wakeCount,modify_currentThread,hfake.1,hfake.2,
      ne_eq,not_true_eq_false,if_false,if_true]
    exact .tick ..
  · simp only [Event.fakes,hfake,decide_false]
    rw [Clock.suspend]
    simp only [modify_thread_self,Thread.dropWake_wakeCount,modify_currentThread]
    split_ifs with hcount hself
    · exact .unread ..
    · exact absurd ⟨not_not.mp hcount,hself⟩ hfake
    · exact .unread ..
    · exact .unread ..
    · exact .unread ..

theorem ticksSleep_timer (t : T) (ticks : ℕ) (interruptible : Bool) :
    TimedBy s (s.ticksSleep idle t ticks interruptible)
      ((Event.ticksSleep t ticks interruptible).fakes s) := by
  by_cases hfake : (s.sched.thread t).wakeCount - 1 = 0 ∧ s.sched.currentThread = some t
  · simp only [Event.fakes,hfake,and_self,decide_true]
    rw [Clock.ticksSleep]
    simp only [modify_thread_self,Thread.dropWake_wakeCount,modify_currentThread,
      add_currentThread,remove_currentThread,hfake.1,hfake.2,ne_eq,not_true_eq_false,if_false,
      if_true]
    exact .tick ..
  · simp only [Event.fakes,hfake,decide_false]
    rw [Clock.ticksSleep]
    simp only [modify_thread_self,Thread.dropWake_wakeCount,modify_currentThread,
      add_currentThread,remove_currentThread]
    by_cases hcount : (s.sched.thread t).wakeCount - 1 = 0
    · have hself : s.sched.currentThread ≠ some t := fun hself => hfake ⟨hcount,hself⟩
      simp only [hcount,hself,ne_eq,not_true_eq_false,if_false]
      exact .unread ..
    · simp only [hcount,ne_eq,not_false_eq_true,if_true]
      exact .unread ..

theorem retire_timer (t : T) (sched : Sched T) :
    TimedBy s (Clock.retire idle t { s with sched := sched })
      (decide (sched.currentThread = some t)) := by
  rw [Clock.retire]
  by_cases hself : sched.currentThread = some t
  · simp only [remove_currentThread,modify_currentThread,hself,if_true,decide_true]
    exact .tick ..
  · simp only [remove_currentThread,modify_currentThread,hself,if_false,decide_false]
    exact .unread ..

theorem finalize_timer (thread woken : Option T) :
    TimedBy s (s.finalize idle thread woken) ((Event.finalize thread woken).fakes s) := by
  rw [Clock.finalize,Event.fakes]
  cases thread.or s.sched.currentThread with
  | none => exact .unread s s.sched
  | some t =>
    cases woken with
    | none => exact retire_timer t s.sched
    | some w =>
      have hcurrent : (s.sched.resume w false).2.currentThread = s.sched.currentThread := by
        unfold Sched.resume
        dsimp only
        split_ifs <;> rfl
      dsimp only
      rw [← hcurrent]
      exact retire_timer t (s.sched.resume w false).2

/-- An event other than a periodic interrupt changes the timer just if it reads
the status register. -/
theorem apply_timer (idle : T) (s : Clock T) (he : e ≠ .periodic) :
    TimedBy s (s.apply idle e) (e.reads s) := by
  cases e with
  | periodic => exact absurd rfl he
  | interrupt => exact .tick idle s s.sched s.isFakeTick
  | yield => exact .tick idle s s.sched true
  | enable t => exact .unread ..
  | resume t prepend => exact .unread ..
  | quickResume t =>
    change TimedBy s (s.quickResume idle t) false
    rw [Clock.quickResume]
    split_ifs
    · exact .unread ..
    · exact .unread ..
  | suspend t => exact suspend_timer t
  | ticksSleep t ticks interruptible => exact ticksSleep_timer t ticks interruptible
  | finalize thread woken => exact finalize_timer thread woken

end Steps

/-- A run's state, with what is known of the run besides. -/
structure World (T : Type*) where
  /-- The scheduler with the timer. -/
  clock : Clock T
  /-- The threads there are. -/
  census : Census T
  /-- How many periodic interrupts there have been. -/
  raised : ℕ

/-- An event and its account. -/
def World.step (idle : T) (w : World T) (e : Event T) : World T where
  clock := w.clock.apply idle e
  census :=
    match e.op w.clock with
    | none => w.census
    | some op => op.census w.clock.sched.currentThread w.census
  raised := w.raised + e.raises.toNat

/-- The kernel starts with its first thread; nothing has been raised. -/
def World.boot (main idle : T) : World T :=
  ⟨⟨Sched.boot main idle,false,false,0⟩,Census.boot main idle,0⟩

/-- The calls that a kernel may make. -/
def Legal (w : World T) (e : Event T) : Prop :=
  ∀ op ∈ e.op w.clock,op.Legal w.clock.sched.currentThread w.census

/-- A thread sleeps. -/
def Asleep (x : T) (w : World T) : Prop := x ∈ w.clock.sched.queue .sleepingThreads

/-- The event leaves a thread in its sleep. -/
def SleepsOn (idle x : T) (w : World T) (e : Event T) : Prop :=
  Legal w e ∧ ¬e.Sleeps x ∧ Asleep x (w.step idle e)

instance (w : World T) (e : Event T) : Decidable (Legal w e) :=
  inferInstanceAs (Decidable (∀ op ∈ e.op w.clock,op.Legal w.clock.sched.currentThread w.census))

instance (x : T) (w : World T) : Decidable (Asleep x w) :=
  inferInstanceAs (Decidable (x ∈ w.clock.sched.queue .sleepingThreads))

instance (x : T) : ∀ e : Event T,Decidable (e.Sleeps x)
  | .ticksSleep t _ _ => inferInstanceAs (Decidable (t = x))
  | .periodic => inferInstanceAs (Decidable False)
  | .interrupt => inferInstanceAs (Decidable False)
  | .yield => inferInstanceAs (Decidable False)
  | .enable _ => inferInstanceAs (Decidable False)
  | .suspend _ => inferInstanceAs (Decidable False)
  | .resume .. => inferInstanceAs (Decidable False)
  | .quickResume _ => inferInstanceAs (Decidable False)
  | .finalize .. => inferInstanceAs (Decidable False)

instance (idle x : T) (w : World T) (e : Event T) : Decidable (SleepsOn idle x w e) :=
  inferInstanceAs (Decidable (Legal w e ∧ ¬e.Sleeps x ∧ Asleep x (w.step idle e)))

/-- Between two states so many periodic interrupts came that are no longer
outstanding, SleepTicks of a thread decreased by their number and systemTicks
increased by it. -/
def Accounted (x : T) (w w' : World T) : Prop :=
  ∃ n,w'.raised + w.clock.status.toNat = w.raised + n + w'.clock.status.toNat ∧
    (w.clock.sched.thread x).sleepTicks = (w'.clock.sched.thread x).sleepTicks + n ∧
    w'.clock.systemTicks = (w.clock.systemTicks + n) % 2 ^ 64

/-- No periodic interrupt comes while one is outstanding, no fake tick reads the
flag of one, and no QuickResume counts the sleeps down. -/
def Regular (w : World T) (e : Event T) : Prop :=
  ((e.raises || e.fakes w.clock) = true → w.clock.status = false) ∧ e.rushes w.clock = false

instance (w : World T) (e : Event T) : Decidable (Regular w e) :=
  inferInstanceAs (Decidable (((e.raises || e.fakes w.clock) = true → w.clock.status = false) ∧
    e.rushes w.clock = false))

section Runs

variable {main idle x : T} {w w' : World T} {e : Event T} {before interval : List (Event T)}

/-- What every run keeps. -/
structure Steady (idle : T) (w : World T) : Prop where
  /-- The scheduler is in order. -/
  ordered : Ordered idle w.census w.clock.sched
  /-- Between events no fake tick is under way. -/
  noFake : w.clock.isFakeTick = false
  /-- systemTicks is a word. -/
  ticks_lt : w.clock.systemTicks < 2 ^ 64

theorem steady_boot (h : main ≠ idle) : Steady idle (World.boot main idle) :=
  ⟨ordered_boot h,rfl,by norm_num [World.boot]⟩

theorem Steady.step (h : Steady idle w) (hl : Legal w e) : Steady idle (w.step idle e) := by
  obtain ⟨hordered,hfake,hticks⟩ := h
  have hsched : Ordered idle (w.step idle e).census (w.step idle e).clock.sched := by
    change Ordered idle (match e.op w.clock with | none => w.census | some op => _)
      (w.clock.apply idle e).sched
    rw [apply_sched]
    cases hop : e.op w.clock with
    | none => exact hordered
    | some op => exact hordered.apply (hl op hop)
  by_cases he : e = .periodic
  · subst he
    exact ⟨hsched,hfake,hticks⟩
  · obtain ⟨-,hfake',hticks'⟩ := apply_timer idle w.clock he
    refine ⟨hsched,hfake'.trans (by rw [hfake,Bool.false_and]),?_⟩
    change (w.clock.apply idle e).systemTicks < 2 ^ 64
    rw [hticks']
    split_ifs
    · exact Nat.mod_lt _ (by norm_num)
    · exact hticks

omit [DecidableEq T] in
/-- An account goes on over an event that ends d interrupts, counts c ticks down
and s up, just when these are the same. -/
theorem accounted_iff {start : World T} {c d s : ℕ} (hacc : Accounted x start w)
    (hraised : w'.raised + w.clock.status.toNat = w.raised + d + w'.clock.status.toNat)
    (hsleep : (w'.clock.sched.thread x).sleepTicks = (w.clock.sched.thread x).sleepTicks - c)
    (hticks : w'.clock.systemTicks = (w.clock.systemTicks + s) % 2 ^ 64) (hs : c = d → s = d) :
    Accounted x start w' ↔ c = d := by
  obtain ⟨n,hn,hx,hsys⟩ := hacc
  constructor
  · rintro ⟨n',hn',hx',-⟩
    omega
  · intro hcd
    refine ⟨n + d,by omega,by omega,?_⟩
    rw [hticks,hsys,hs hcd,Nat.mod_add_mod,Nat.add_assoc]

omit [DecidableEq T] in
theorem raises_eq_false (hp : e ≠ .periodic) : e.raises = false := by
  cases e with
  | periodic => exact absurd rfl hp
  | _ => rfl

/-- An event other than a periodic interrupt counts down as many ticks as it
ends interrupts just when it is regular. -/
theorem counts_eq_iff (hp : e ≠ .periodic) (hfake : w.clock.isFakeTick = false) :
    (e.counts w.clock).toNat = (e.reads w.clock && w.clock.status).toNat ↔ Regular w e := by
  have hboth : ∀ a b : Bool,0 = (a && b).toNat ↔ (a = true → b = false) := by decide
  cases e with
  | periodic => exact absurd rfl hp
  | interrupt => simp [Regular,Event.raises,Event.rushes,Event.counts,Event.reads,Event.fakes,hfake]
  | quickResume t =>
    simp [Regular,Event.raises,Event.rushes,Event.counts,Event.reads,Event.fakes]
  | _ => simp [Regular,Event.raises,Event.rushes,Event.counts,Event.reads,hboth]

/-- One event keeps the account just when it is regular. -/
theorem accounted_step {start : World T} (h : Steady idle w) (hx : Asleep x w)
    (he : SleepsOn idle x w e) (hacc : Accounted x start w) :
    Accounted x start (w.step idle e) ↔ Regular w e := by
  have hsleep := apply_sleepTicks h.ordered he.1 he.2.1 hx he.2.2
  have hsame : w.clock.systemTicks = (w.clock.systemTicks + 0) % 2 ^ 64 :=
    (Nat.mod_eq_of_lt h.ticks_lt).symm
  by_cases hp : e = .periodic
  · subst hp
    have hraised : (w.step idle .periodic).raised + w.clock.status.toNat =
        w.raised + w.clock.status.toNat + (w.step idle .periodic).clock.status.toNat := by
      change w.raised + 1 + w.clock.status.toNat = w.raised + w.clock.status.toNat + 1
      omega
    have hregular : Regular w .periodic ↔ 0 = w.clock.status.toNat := by
      cases hst : w.clock.status <;> simp [Regular,Event.raises,Event.rushes,hst]
    rw [hregular]
    exact accounted_iff hacc hraised hsleep hsame fun hd => hd
  · obtain ⟨hstatus,-,hticks⟩ := apply_timer idle w.clock hp
    rw [← counts_eq_iff hp h.noFake]
    refine accounted_iff hacc ?_ hsleep ?_ fun _ => rfl
    · change w.raised + e.raises.toNat + w.clock.status.toNat = w.raised +
        (e.reads w.clock && w.clock.status).toNat + (w.clock.apply idle e).status.toNat
      rw [raises_eq_false hp,hstatus]
      cases w.clock.status <;> cases e.reads w.clock <;> simp
    · change (w.clock.apply idle e).systemTicks = _
      rw [hticks]
      cases hread : e.reads w.clock && w.clock.status
      · simpa using hsame
      · simp

/-- While a thread sleeps, its SleepTicks and systemTicks account for the periodic
interrupts in every state of a run just when every event is regular. -/
theorem ticks_accounted_iff (hne : main ≠ idle)
    (hbefore : RunMeets (World.step idle) Legal (World.boot main idle) before)
    (hasleep : Asleep x (before.foldl (World.step idle) (World.boot main idle)))
    (hinterval : RunMeets (World.step idle) (SleepsOn idle x)
      (before.foldl (World.step idle) (World.boot main idle)) interval) :
    (∀ n,Accounted x (before.foldl (World.step idle) (World.boot main idle))
      ((interval.take n).foldl (World.step idle)
        (before.foldl (World.step idle) (World.boot main idle)))) ↔
      RunMeets (World.step idle) Regular
        (before.foldl (World.step idle) (World.boot main idle)) interval := by
  have hstep : ∀ (w : World T) e,Steady idle w → Legal w e → Steady idle (w.step idle e) :=
    fun w e hw hl => hw.step hl
  have hstart := hbefore.invariant hstep (steady_boot hne)
  set start := before.foldl (World.step idle) (World.boot main idle)
  have hself : Accounted x start start :=
    ⟨0,rfl,(add_zero _).symm,(Nat.mod_eq_of_lt hstart.ticks_lt).symm⟩
  have hkeep : ∀ w e,(Steady idle w ∧ Asleep x w ∧ Accounted x start w) → SleepsOn idle x w e →
      Regular w e → Steady idle (w.step idle e) ∧ Asleep x (w.step idle e) ∧
        Accounted x start (w.step idle e) := by
    rintro w e ⟨hw,hx,hacc⟩ he hregular
    exact ⟨hw.step he.1,he.2.2,(accounted_step hw hx he hacc).mpr hregular⟩
  have hbreak : ∀ w e,(Steady idle w ∧ Asleep x w ∧ Accounted x start w) → SleepsOn idle x w e →
      ¬Regular w e → ¬Accounted x start (w.step idle e) := by
    rintro w e ⟨hw,hx,hacc⟩ he hirregular hgood
    exact hirregular ((accounted_step hw hx he hacc).mp hgood)
  exact RunMeets.always_iff (fun w hw => hw.2.2) hkeep hbreak ⟨hstart,hasleep,hself⟩ hinterval

end Runs

/-- The first thread, 0, goes to sleep for 5 ticks, and thread 2 runs. -/
def fallAsleep : List (Event ℕ) := [.enable 2,.resume 2 false,.ticksSleep 0 5 false]

/-- The state in which thread 0 sleeps. -/
def sleeping : World ℕ := fallAsleep.foldl (World.step 1) (World.boot 0 1)

/-- An interrupt whose tick comes next is accounted for. -/
theorem next_tick_accounted :
    Accounted 0 sleeping ([.periodic,.interrupt].foldl (World.step 1) sleeping) := by
  have hall : ∀ n,Accounted 0 sleeping
      (([.periodic,.interrupt].take n).foldl (World.step 1) sleeping) :=
    (ticks_accounted_iff (by decide) (by decide) (by decide) (by decide)).mpr (by decide)
  exact hall 2

/-- Thread 2 yields before the processor takes the interrupt: the fake tick counts
systemTicks, and the sleep is not counted down. -/
theorem yield_loses_tick :
    RunMeets (World.step 1) Legal (World.boot 0 1) fallAsleep ∧ Asleep 0 sleeping ∧
      RunMeets (World.step 1) (SleepsOn 1 0) sleeping [.periodic,.yield,.interrupt] ∧
      ¬∀ n,Accounted 0 sleeping
        (([.periodic,.yield,.interrupt].take n).foldl (World.step 1) sleeping) := by
  refine ⟨by decide,by decide,by decide,fun hall => ?_⟩
  obtain ⟨n,hraised,hsleep,-⟩ := hall 3
  have hn : 1 + 0 = 0 + n + 0 := hraised
  have hn' : (5 : ℤ) = 5 + n := hsleep
  omega

end WootOs.SystemTicks
