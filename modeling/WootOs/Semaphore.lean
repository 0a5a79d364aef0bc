import WootOs.Runs
import WootOs.WaitQueue

/-!
# Semaphores

Wait takes a unit when there is one. Otherwise the thread waits, and takes a
unit when its call goes on, without looking at the count again. Signal adds a
unit and resumes the first waiter. So a unit belongs to a call in flight
before that call takes it, and nothing but the order of events reserves it.

Two results follow. The first says when the count covers every call in
flight, so that no more calls succeed than there are units. The second says
when every unit is on its way to a waiter as long as one is parked. Count is
an integer here; an int that overflows has no defined value.
-/

namespace WootOs.Semaphore

open Runs Scheduler RingQueue WaitQueue

set_option linter.unusedSectionVars false

variable {T : Type*} [DecidableEq T]

/-- A semaphore and its waiters. The last two fields record the history. -/
structure Sys (T : Type*) extends WaitSys T where
  /-- Semaphore::Count. -/
  count : ℤ
  /-- The calls of Signal so far. -/
  signals : ℕ
  /-- The calls of Wait that have returned with success so far. -/
  successes : ℕ

/-- What can happen to a semaphore. -/
inductive Op (T : Type*) where
  /-- The current thread calls Wait. -/
  | wait (timeout : ℕ) (tryWait : Bool)
  /-- The current thread goes on with its call. -/
  | finish
  /-- Signal, from an interrupt handler when it is given a state. -/
  | signal (state : Bool)
  /-- Semaphore::Cancel. -/
  | cancel (t : T)
  /-- Signal::Raise resumes a thread. -/
  | resume (t : T)
  /-- A tick of the timer. -/
  | tick (doTick : Bool)
  deriving DecidableEq

namespace Sys

variable (idle : T) (m : Sys T)

/-- Semaphore::Wait, up to the point where the thread is switched away. -/
def wait (c : T) (timeout : ℕ) (tryWait : Bool) : Sys T :=
  if 0 < m.count then { m with count := m.count - 1,successes := m.successes + 1 }
  else if tryWait then m
  else if (m.waiters.write (some c)).1 then
    { m with toWaitSys := m.toWaitSys.enter idle c timeout }
  else m

/-- The rest of Semaphore::Wait. -/
def finish (c : T) (call : WaitCall) : Sys T :=
  if call.timeleft (m.sched.thread c) = 0 then { m with toWaitSys := m.toWaitSys.leave c call }
  else
    { m with
      toWaitSys := m.toWaitSys.leave c call
      count := m.count - 1
      successes := m.successes + 1 }

/-- Semaphore::Signal. -/
def signal (state : Bool) : Sys T :=
  match nextWaiter (m.waiters.count + 1) m.waiters with
  | (none,r) => { m with waiters := r,count := m.count + 1,signals := m.signals + 1 }
  | (some t,r) =>
    { m with
      toWaitSys := { m.toWaitSys with waiters := r }.wakeUp idle state t
      count := m.count + 1
      signals := m.signals + 1 }

/-- The effect of an operation. -/
def apply : Op T → Sys T
  | .wait timeout tryWait =>
    match m.sched.currentThread with
    | some c => m.wait idle c timeout tryWait
    | none => m
  | .finish =>
    match m.sched.currentThread with
    | some c =>
      match m.calls c with
      | some call => m.finish c call
      | none => m
    | none => m
  | .signal state => m.signal idle state
  | .cancel t => { m with waiters := m.waiters.removeFirst (some t) }
  | .resume t => { m with sched := (m.sched.resume t false).2 }
  | .tick doTick => { m with toWaitSys := m.toWaitSys.tick idle doTick }

/-- The operations that can happen in a state, over the threads there are. -/
def Enabled (live : List T) : Op T → Prop
  | .wait timeout _ => m.Open ∧ (∃ c ∈ live,m.sched.currentThread = some c) ∧ timeout < 2 ^ 32
  | .finish => ∃ c ∈ live,m.sched.currentThread = some c ∧ (m.calls c).isSome
  | .signal _ => m.Open
  | .cancel t => m.Open ∧ t ∈ live
  | .resume t => m.Open ∧ t ∈ live
  | .tick _ => m.Open

instance (live : List T) (op : Op T) : Decidable (m.Enabled live op) :=
  match op with
  | .wait timeout _ => inferInstanceAs (Decidable
      (m.Open ∧ (∃ c ∈ live,m.sched.currentThread = some c) ∧ timeout < 2 ^ 32))
  | .finish => inferInstanceAs (Decidable
      (∃ c ∈ live,m.sched.currentThread = some c ∧ (m.calls c).isSome))
  | .signal _ => inferInstanceAs (Decidable m.Open)
  | .cancel t => inferInstanceAs (Decidable (m.Open ∧ t ∈ live))
  | .resume t => inferInstanceAs (Decidable (m.Open ∧ t ∈ live))
  | .tick _ => inferInstanceAs (Decidable m.Open)

/-- A semaphore with a count of units and no waiter. -/
def start (s : Sched T) (count : ℕ) : Sys T :=
  { toWaitSys := WaitSys.start s 32 WaitSys.capacity_pos
    count := count
    signals := 0
    successes := 0 }

/-- A run of operations. -/
def run (ops : List (Op T)) : Sys T := ops.foldl (apply idle) m

end Sys

section Steps

variable {idle : T} {live : List T} {m : Sys T}

/-- The threads a signal leaves in the queue, and the one it resumes. -/
theorem signal_eq (state : Bool) :
    ∃ r : BoundedQueue (Option T),r.toList = (firstThread m.waiters.toList).2 ∧
      m.signal idle state =
        match (firstThread m.waiters.toList).1 with
        | none => { m with waiters := r,count := m.count + 1,signals := m.signals + 1 }
        | some t =>
          { m with
            toWaitSys := { m.toWaitSys with waiters := r }.wakeUp idle state t
            count := m.count + 1
            signals := m.signals + 1 } := by
  obtain ⟨hfst,hsnd⟩ := nextWaiter_eq m.waiters (Nat.lt_succ_self _)
  refine ⟨(nextWaiter (m.waiters.count + 1) m.waiters).2,hsnd,?_⟩
  rw [Sys.signal,←hfst]
  cases hn : nextWaiter (m.waiters.count + 1) m.waiters with
  | mk t r => cases t <;> rfl

/-- A call of Wait that finds no unit and room in the queue starts to wait. -/
theorem enter_spec {c : T} {timeout : ℕ} (h : Sound idle live m.toWaitSys) (hl : c ∈ live)
    (hc : m.sched.currentThread = some c) (hcall : m.calls c = none) (hm : timeout < 2 ^ 32)
    (hfull : m.waiters.full = false) :
    Sound idle live (m.toWaitSys.enter idle c timeout) ∧
      (m.toWaitSys.enter idle c timeout).inFlight live =
        m.toWaitSys.inFlight live + if m.EntersAwake c timeout then 1 else 0 := by
  obtain ⟨hs,hothers,hself,hnot⟩ := h.enter hl hc hcall hm hfull
  refine ⟨hs,?_⟩
  split_ifs with hawake
  · exact inFlight_succ h.nodup hl hothers hnot (hself.mpr hawake)
  · refine inFlight_congr fun x hx => ?_
    by_cases hxc : x = c
    · subst hxc
      simp [hnot,hself,hawake]
    · exact hothers x hx hxc

/-- The end of a call takes it out of flight. -/
theorem leave_spec {c : T} {call : WaitCall} (h : Sound idle live m.toWaitSys) (hl : c ∈ live)
    (hc : m.sched.currentThread = some c) (hcall : m.calls c = some call) :
    Sound idle live (m.toWaitSys.leave c call) ∧
      m.toWaitSys.inFlight live = (m.toWaitSys.leave c call).inFlight live +
        (if call.timeleft (m.sched.thread c) = 0 then 0 else 1) ∧
      ∀ x,(m.toWaitSys.leave c call).Parked x → m.Parked x := by
  obtain ⟨hs,hothers,hnot,hpark⟩ := @Sound.leave T _ idle live _ h c call hc
  refine ⟨hs,?_,hpark⟩
  have hflight : m.InFlight c ↔ call.timeleft (m.sched.thread c) ≠ 0 := by
    have hr : Runnable c m.sched := Or.inl hc
    simp [WaitSys.InFlight,hcall,hr]
  split_ifs with h0
  · refine inFlight_congr fun x _ => ?_
    by_cases hxc : x = c
    · subst hxc
      simp [hnot,hflight,h0]
    · exact (hothers x hxc).symm
  · exact inFlight_succ h.nodup hl (fun x _ hne => (hothers x hne).symm) hnot (hflight.mpr h0)

/-- A wake-up puts at most the call of its thread in flight. -/
theorem wakeUp_spec {w : WaitSys T} (state : Bool) {t : T} (h : Sound idle live w)
    (ht : t ∈ live) :
    Sound idle live (w.wakeUp idle state t) ∧
      (w.wakeUp idle state t).inFlight live = w.inFlight live + if w.Takes t then 1 else 0 := by
  obtain ⟨hs,hflight,-,-⟩ := h.wakeUp state t
  refine ⟨hs,?_⟩
  split_ifs with htake
  · have hnot : ¬w.InFlight t := by
      unfold WaitSys.Takes at htake
      unfold WaitSys.InFlight
      cases hc : w.calls t with
      | none => simp
      | some call =>
        simp only [hc] at htake ⊢
        exact fun hf => htake.1 hf.1
    refine inFlight_succ h.nodup ht (fun x hx hne => ?_) hnot ?_
    · rw [hflight x hx]
      simp [hne]
    · rw [hflight t ht]
      exact Or.inr ⟨rfl,htake⟩
  · refine inFlight_congr fun x hx => ?_
    rw [hflight x hx]
    simp [htake]

/-- The thread Signal resumes is not parked afterwards. -/
theorem wakeUp_not_parked {w : WaitSys T} (state : Bool) {t : T} (h : Sound idle live w)
    (ht : t ∈ live) (hw : (w.calls t).isSome ∨ Runnable t w.sched) :
    ¬(w.wakeUp idle state t).Parked t := by
  obtain ⟨hs,-,hpark,hrun⟩ := h.wakeUp state t
  intro hp
  rcases hw with hcall | hr
  · exact hs.partition.not_runnable_of_blocked hp.2 (hrun hcall)
  · exact h.partition.not_runnable_of_blocked (hpark t ht hp).2 hr

/-- The queue Signal leaves behind is part of the one it found. -/
theorem signal_queue {r : BoundedQueue (Option T)} (h : Sound idle live m.toWaitSys)
    (hr : r.toList = (firstThread m.waiters.toList).2) :
    Sound idle live { m.toWaitSys with waiters := r } :=
  h.queue fun _ hx => mem_firstThread (hr ▸ hx)

end Steps

section Conservation

variable {idle : T} {live : List T} {m : Sys T} {n : ℕ}

/-- No more calls have succeeded than there were units, the count is not
negative, and it is what the units and the calls leave when none is in flight. -/
def Conserved (n : ℕ) (m : Sys T) : Prop :=
  m.successes ≤ n + m.signals ∧ 0 ≤ m.count ∧
    ((∀ x,¬m.InFlight x) → m.count = n + m.signals - m.successes)

/-- An operation leaves a unit for every call in flight: Wait takes one only
when there are more units than such calls, it does not return at once for
want of a unit, and Resume wakes no waiter when every unit is spoken for. -/
def Backed (live : List T) (m : Sys T) : Op T → Prop
  | .wait timeout tryWait => ∀ c ∈ m.sched.currentThread,
    if 0 < m.count then (m.toWaitSys.inFlight live : ℤ) < m.count
    else tryWait = false → m.waiters.full = false → ¬m.EntersAwake c timeout
  | .resume t => m.Takes t → (m.toWaitSys.inFlight live : ℤ) < m.count
  | _ => True

instance (live : List T) (m : Sys T) (op : Op T) : Decidable (Backed live m op) :=
  match op with
  | .wait timeout tryWait => inferInstanceAs (Decidable (∀ c ∈ m.sched.currentThread,
      if 0 < m.count then (m.toWaitSys.inFlight live : ℤ) < m.count
      else tryWait = false → m.waiters.full = false → ¬m.EntersAwake c timeout))
  | .resume t => inferInstanceAs (Decidable
      (m.Takes t → (m.toWaitSys.inFlight live : ℤ) < m.count))
  | .finish => inferInstanceAs (Decidable True)
  | .signal _ => inferInstanceAs (Decidable True)
  | .cancel _ => inferInstanceAs (Decidable True)
  | .tick _ => inferInstanceAs (Decidable True)

/-- The units cover the calls in flight, and the books balance. -/
structure Covered (idle : T) (live : List T) (n : ℕ) (m : Sys T) : Prop where
  /-- The calls agree with the scheduler. -/
  sound : Sound idle live m.toWaitSys
  /-- There is a unit for every call in flight. -/
  units : (m.toWaitSys.inFlight live : ℤ) ≤ m.count
  /-- The count is what the calls have left of the units. -/
  balance : m.count = n + m.signals - m.successes

/-- Every operation that leaves a unit for each call in flight keeps them covered. -/
theorem Covered.apply {op : Op T} (h : Covered idle live n m) (he : m.Enabled live op)
    (hb : Backed live m op) : Covered idle live n (m.apply idle op) := by
  obtain ⟨hs,hu,hbal⟩ := h
  cases op with
  | wait timeout tryWait =>
    obtain ⟨hopen,⟨c,hl,hc⟩,hm⟩ := he
    have hback := hb c hc
    have happ : m.apply idle (.wait timeout tryWait) = m.wait idle c timeout tryWait := by
      simp [Sys.apply,hc]
    rw [happ,Sys.wait]
    split_ifs at hback ⊢ with hpos htry hroom
    · exact ⟨hs,by push_cast; linarith,by push_cast; linarith⟩
    · exact ⟨hs,hu,hbal⟩
    · have hfull : m.waiters.full = false := by
        simpa [BoundedQueue.write_fst] using hroom
      have hawake := hback (by simpa using htry) hfull
      obtain ⟨hs',hf⟩ := enter_spec hs hl hc (hopen c hc) hm hfull
      rw [if_neg hawake,Nat.add_zero] at hf
      exact ⟨hs',by rw [hf]; exact hu,hbal⟩
    · exact ⟨hs,hu,hbal⟩
  | finish =>
    obtain ⟨c,hl,hc,hsome⟩ := he
    obtain ⟨call,hcall⟩ := Option.isSome_iff_exists.mp hsome
    have happ : m.apply idle .finish = m.finish c call := by simp [Sys.apply,hc,hcall]
    obtain ⟨hs',hf,-⟩ := leave_spec hs hl hc hcall
    rw [happ,Sys.finish]
    split_ifs at hf ⊢ with h0
    · exact ⟨hs',by rw [←Nat.add_zero ((m.toWaitSys.leave c call).inFlight live),←hf]; exact hu,
        hbal⟩
    · rw [hf] at hu
      push_cast at hu
      exact ⟨hs',by dsimp only; linarith,by push_cast; linarith⟩
  | signal state =>
    obtain ⟨r,hr,hsig⟩ := @signal_eq T _ idle m state
    have hs' := signal_queue hs hr
    rw [show m.apply idle (.signal state) = m.signal idle state from rfl,hsig]
    cases hfirst : (firstThread m.waiters.toList).1 with
    | none =>
      have hu' : (({ m.toWaitSys with waiters := r } : WaitSys T).inFlight live : ℤ) ≤ m.count := hu
      exact ⟨hs',by dsimp only; linarith,by push_cast; linarith⟩
    | some t =>
      obtain ⟨ht,-⟩ := hs.waiters (firstThread_mem hfirst)
      obtain ⟨hs'',hf⟩ := wakeUp_spec state hs' ht
      have hu' : (({ m.toWaitSys with waiters := r } : WaitSys T).inFlight live : ℤ) ≤ m.count := hu
      refine ⟨hs'',?_,by push_cast; linarith⟩
      dsimp only
      rw [hf]
      split_ifs
      · push_cast; linarith
      · push_cast; linarith
  | cancel t =>
    exact ⟨hs.queue fun x hx => BoundedQueue.mem_of_mem_removeFirst _ hx,hu,hbal⟩
  | resume t =>
    obtain ⟨-,ht⟩ := he
    obtain ⟨hs',hf⟩ := wakeUp_spec false hs ht
    refine ⟨hs',?_,hbal⟩
    change (((m.toWaitSys.wakeUp idle false t).inFlight live : ℕ) : ℤ) ≤ m.count
    rw [hf]
    split_ifs with htake
    · have hlt := hb htake
      push_cast
      linarith
    · exact hu
  | tick doTick =>
    obtain ⟨hs',hf,-⟩ := hs.tick doTick
    refine ⟨hs',?_,hbal⟩
    change (((m.toWaitSys.tick idle doTick).inFlight live : ℕ) : ℤ) ≤ m.count
    rw [inFlight_congr hf]
    exact hu

/-- A covered semaphore conserves its units. -/
theorem Covered.conserved (h : Covered idle live n m) : Conserved n m := by
  have hpos : 0 ≤ m.count := le_trans (by positivity) h.units
  have hbal := h.balance
  exact ⟨by omega,hpos,fun _ => hbal⟩

/-- No call is in flight at the start. -/
theorem inFlight_start (s : Sched T) (n : ℕ) : (Sys.start s n).toWaitSys.inFlight live = 0 := by
  rw [WaitSys.inFlight,List.countP_eq_zero]
  intro x _
  have hno : ¬(Sys.start s n).InFlight x := by simp [Sys.start,WaitSys.start,WaitSys.InFlight]
  simpa using hno

/-- For every number of threads: in every run whose operations leave a unit
for each call in flight, no more calls of Wait have succeeded than there were
units to begin with and signals since. -/
theorem semaphore_conserved {s : Sched T} {ops : List (Op T)} (hp : Partition idle live s)
    (hn : live.Nodup) (he : RunMeets (Sys.apply idle) (Sys.Enabled · live) (Sys.start s n) ops)
    (hb : RunMeets (Sys.apply idle) (Backed live) (Sys.start s n) ops) :
    Conserved n ((Sys.start s n).run idle ops) := by
  have hstart : Covered idle live n (Sys.start s n) := by
    refine ⟨sound_start _ hp hn,?_,by simp [Sys.start]⟩
    rw [inFlight_start]
    simp [Sys.start]
  have hrun : Covered idle live n ((Sys.start s n).run idle ops) :=
    (he.and hb).invariant (fun m op hm hop => hm.apply hop.1 hop.2) hstart
  exact hrun.conserved

/-- A thread waits, the other one signals, and the first takes the unit. -/
theorem semaphore_conserved_pair :
    Conserved 0 ((Sys.start twoThreads 0).run 1
      [.tick true,.wait 0 false,.signal false,.tick true,.finish]) :=
  semaphore_conserved twoThreads_partition (by decide) (by decide) (by decide)

/-- The thread that signalled waits before the other one runs. It takes the
unit, and so does the thread it was meant for. -/
theorem unit_taken_twice :
    RunMeets (Sys.apply 1) (Sys.Enabled · [2,0]) (Sys.start twoThreads 0)
        [.tick true,.wait 0 false,.signal false,.wait 0 false,.tick true,.finish] ∧
      ¬Conserved 0 ((Sys.start twoThreads 0).run 1
        [.tick true,.wait 0 false,.signal false,.wait 0 false,.tick true,.finish]) := by
  refine ⟨by decide,fun h => absurd h.2.1 ?_⟩
  decide +kernel

end Conservation

section Parking

variable {idle : T} {live : List T} {m : Sys T}

/-- A unit is free, no call is in flight to take it, and a thread is parked. -/
def Stuck (m : Sys T) : Prop := 0 < m.count ∧ (∀ x,¬m.InFlight x) ∧ ∃ x,m.Parked x

/-- Signal leaves its unit with someone: the thread it reads is blocked and
has time left, or no other thread in the queue is blocked, or there are more
calls in flight than units. -/
def Delivers (live : List T) (m : Sys T) : Op T → Prop
  | .signal _ => ∀ t ∈ (firstThread m.waiters.toList).1,m.Takes t ∨
    (∀ x ∈ live,x ≠ t → some x ∈ (firstThread m.waiters.toList).2 → ¬m.Parked x) ∨
      m.count < m.toWaitSys.inFlight live
  | _ => True

instance (live : List T) (m : Sys T) (op : Op T) : Decidable (Delivers live m op) :=
  match op with
  | .signal _ => inferInstanceAs (Decidable
      (∀ t ∈ (firstThread m.waiters.toList).1,m.Takes t ∨
        (∀ x ∈ live,x ≠ t → some x ∈ (firstThread m.waiters.toList).2 → ¬m.Parked x) ∨
          m.count < m.toWaitSys.inFlight live))
  | .wait .. => inferInstanceAs (Decidable True)
  | .finish => inferInstanceAs (Decidable True)
  | .cancel _ => inferInstanceAs (Decidable True)
  | .resume _ => inferInstanceAs (Decidable True)
  | .tick _ => inferInstanceAs (Decidable True)

/-- While a thread is parked, every unit is on its way to a call. -/
structure Spoken (idle : T) (live : List T) (m : Sys T) : Prop where
  /-- The calls agree with the scheduler. -/
  sound : Sound idle live m.toWaitSys
  /-- There are no more units than calls in flight. -/
  units : ∀ x,m.Parked x → m.count ≤ m.toWaitSys.inFlight live

/-- Every operation that delivers its unit keeps the units spoken for. -/
theorem Spoken.apply {op : Op T} (h : Spoken idle live m) (he : m.Enabled live op)
    (hd : Delivers live m op) : Spoken idle live (m.apply idle op) := by
  obtain ⟨hs,hu⟩ := h
  cases op with
  | wait timeout tryWait =>
    obtain ⟨hopen,⟨c,hl,hc⟩,hm⟩ := he
    have happ : m.apply idle (.wait timeout tryWait) = m.wait idle c timeout tryWait := by
      simp [Sys.apply,hc]
    rw [happ,Sys.wait]
    split_ifs with hpos htry hroom
    · refine ⟨hs,fun x hx => ?_⟩
      have hle := hu x hx
      dsimp only
      linarith
    · exact ⟨hs,hu⟩
    · have hfull : m.waiters.full = false := by
        simpa [BoundedQueue.write_fst] using hroom
      obtain ⟨hs',-⟩ := enter_spec hs hl hc (hopen c hc) hm hfull
      refine ⟨hs',fun x _ => ?_⟩
      have hnonneg : (0 : ℤ) ≤ ((m.toWaitSys.enter idle c timeout).inFlight live : ℤ) := by
        positivity
      dsimp only
      linarith
    · exact ⟨hs,hu⟩
  | finish =>
    obtain ⟨c,hl,hc,hsome⟩ := he
    obtain ⟨call,hcall⟩ := Option.isSome_iff_exists.mp hsome
    have happ : m.apply idle .finish = m.finish c call := by simp [Sys.apply,hc,hcall]
    obtain ⟨hs',hf,hpark⟩ := leave_spec hs hl hc hcall
    rw [happ,Sys.finish]
    split_ifs at hf ⊢ with h0
    · refine ⟨hs',fun x hx => ?_⟩
      have hle := hu x (hpark x hx)
      rw [hf,Nat.add_zero] at hle
      exact hle
    · refine ⟨hs',fun x hx => ?_⟩
      have hle := hu x (hpark x hx)
      rw [hf] at hle
      push_cast at hle
      dsimp only
      linarith
  | signal state =>
    obtain ⟨r,hr,hsig⟩ := @signal_eq T _ idle m state
    have hs' := signal_queue hs hr
    rw [show m.apply idle (.signal state) = m.signal idle state from rfl,hsig]
    cases hfirst : (firstThread m.waiters.toList).1 with
    | none =>
      refine ⟨hs',fun x hx => absurd hx.1 ?_⟩
      dsimp only
      rw [hr,(firstThread_none hfirst).1]
      simp
    | some t =>
      obtain ⟨ht,hw⟩ := hs.waiters (firstThread_mem hfirst)
      obtain ⟨hs'',hf⟩ := wakeUp_spec state hs' ht
      obtain ⟨-,-,hback,-⟩ := hs'.wakeUp state t
      refine ⟨hs'',fun x hx => ?_⟩
      have hx' : x ∈ live := (hs''.waiters hx.1).1
      have hxt : x ≠ t := by
        rintro rfl
        exact wakeUp_not_parked state hs' ht hw hx
      have hold := hback x hx' hx
      have hrest : some x ∈ (firstThread m.waiters.toList).2 := hr ▸ hold.1
      have hpark : m.Parked x := ⟨mem_firstThread hrest,hold.2⟩
      have hle := hu x hpark
      have hsame : ({ m.toWaitSys with waiters := r } : WaitSys T).inFlight live =
          m.toWaitSys.inFlight live := rfl
      rw [hsame] at hf
      dsimp only
      rw [hf]
      rcases hd t hfirst with htake | hnone | hlt
      · have htake' : ({ m.toWaitSys with waiters := r } : WaitSys T).Takes t := htake
        rw [if_pos htake']
        push_cast
        linarith
      · exact absurd hpark (hnone x hx' hxt hrest)
      · split_ifs
        · push_cast; linarith
        · push_cast; linarith
  | cancel t =>
    refine ⟨hs.queue fun x hx => BoundedQueue.mem_of_mem_removeFirst _ hx,fun x hx => hu x ?_⟩
    exact ⟨BoundedQueue.mem_of_mem_removeFirst _ hx.1,hx.2⟩
  | resume t =>
    obtain ⟨-,ht⟩ := he
    obtain ⟨hs',hf⟩ := wakeUp_spec false hs ht
    obtain ⟨-,-,hback,-⟩ := hs.wakeUp false t
    refine ⟨hs',fun x hx => ?_⟩
    have hle := hu x (hback x (hs'.waiters hx.1).1 hx)
    change m.count ≤ ((m.toWaitSys.wakeUp idle false t).inFlight live : ℤ)
    rw [hf]
    push_cast
    split_ifs <;> linarith
  | tick doTick =>
    obtain ⟨hs',hf,hback⟩ := hs.tick doTick
    refine ⟨hs',fun x hx => ?_⟩
    have hle := hu x (hback x (hs'.waiters hx.1).1 hx)
    change m.count ≤ ((m.toWaitSys.tick idle doTick).inFlight live : ℤ)
    rw [inFlight_congr hf]
    exact hle

/-- For every number of threads: in every run whose signals deliver their
unit, no thread is parked while a unit is free and no call is in flight to take it. -/
theorem semaphore_not_stuck {s : Sched T} {n : ℕ} {ops : List (Op T)}
    (hp : Partition idle live s) (hn : live.Nodup)
    (he : RunMeets (Sys.apply idle) (Sys.Enabled · live) (Sys.start s n) ops)
    (hd : RunMeets (Sys.apply idle) (Delivers live) (Sys.start s n) ops) :
    ¬Stuck ((Sys.start s n).run idle ops) := by
  have hstart : Spoken idle live (Sys.start s n) := by
    refine ⟨sound_start _ hp hn,fun x hx => absurd hx.1 ?_⟩
    simp [Sys.start,WaitSys.start,BoundedQueue.toList_new]
  have hrun : Spoken idle live ((Sys.start s n).run idle ops) :=
    (he.and hd).invariant (fun m op hm hop => hm.apply hop.1 hop.2) hstart
  rintro ⟨hpos,hflight,x,hx⟩
  have hzero : ((Sys.start s n).run idle ops).toWaitSys.inFlight live = 0 := by
    rw [WaitSys.inFlight,List.countP_eq_zero]
    intro y _
    simpa using hflight y
  have hle := hrun.units x hx
  rw [hzero] at hle
  exact absurd hpos (not_lt.mpr hle)

/-- Four threads: the first thread of the kernel and three that are ready. -/
def fourThreads : Sched (Fin 5) :=
  [Scheduler.Op.enable 2,.enable 3,.enable 4,.resume 2 false,.resume 3 false,
    .resume 4 false].foldl (Sched.apply 1) (Sched.boot 0 1)

theorem fourThreads_partition : Partition 1 [4,3,2,0] fourThreads := by
  have h₀ := ordered_boot (show (0 : Fin 5) ≠ 1 by decide)
  have h₁ := @Ordered.apply _ _ _ _ _ (.enable 2) h₀ (by decide)
  have h₂ := @Ordered.apply _ _ _ _ _ (.enable 3) h₁ (by decide)
  have h₃ := @Ordered.apply _ _ _ _ _ (.enable 4) h₂ (by decide)
  have h₄ := @Ordered.apply _ _ _ _ _ (.resume 2 false) h₃ (by decide)
  have h₅ := @Ordered.apply _ _ _ _ _ (.resume 3 false) h₄ (by decide)
  exact (@Ordered.apply _ _ _ _ _ (.resume 4 false) h₅ (by decide)).partition

/-- Two threads wait, and the first of them is signalled before its time is over. -/
theorem semaphore_not_stuck_signalled :
    ¬Stuck ((Sys.start fourThreads 0).run 1
      [.tick true,.wait 1 false,.wait 0 false,.signal false,.tick true,.tick true,.finish]) :=
  semaphore_not_stuck fourThreads_partition (by decide) (by decide) (by decide)

/-- Thread 2 waits for a millisecond and thread 3 without a timeout. The tick
that ends the sleep of thread 2 lets the first thread run, which signals: it
reads thread 2, whose call then returns that the time is over. -/
theorem unit_left_behind :
    RunMeets (Sys.apply 1) (Sys.Enabled · [4,3,2,0]) (Sys.start fourThreads 0)
        [.tick true,.wait 1 false,.wait 0 false,.tick true,.signal false,.tick true,.finish] ∧
      Stuck ((Sys.start fourThreads 0).run 1
        [.tick true,.wait 1 false,.wait 0 false,.tick true,.signal false,.tick true,
          .finish]) := by
  refine ⟨by decide,by decide +kernel,by decide +kernel,3,by decide +kernel⟩

end Parking

end WootOs.Semaphore
