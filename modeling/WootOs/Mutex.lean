import WootOs.Runs
import WootOs.WaitQueue

/-!
# Mutexes

Acquire takes a free mutex, or one more time a recursive mutex of its own.
Otherwise the thread waits, and returns what its sleep returned: nothing is
said about the owner any more. Release hands the mutex to the first waiter and
resumes it. So a thread owns the mutex before its call has returned, and the
call trusts that nobody but Release ends its sleep.

The depth of a thread counts its successful calls of Acquire without a
matching Release; it is not part of the source. Count is an integer here; an
int that overflows has no defined value.
-/

namespace WootOs.Mutex

open Runs Scheduler RingQueue WaitQueue

set_option linter.unusedSectionVars false

variable {T : Type*} [DecidableEq T]

/-- A mutex and its waiters. The last two fields are not part of it: the
system stops when a thread locks a mutex of its own that is not recursive. -/
structure Sys (T : Type*) extends WaitSys T where
  /-- Mutex::Recursive. -/
  recursive : Bool
  /-- Mutex::Count. -/
  count : ℤ
  /-- Mutex::Owner. -/
  owner : Option T
  /-- Whether the system was halted. -/
  halted : Bool
  /-- Successful calls of each thread that it has not released. -/
  depth : T → ℕ

/-- What can happen to a mutex. -/
inductive Op (T : Type*) where
  /-- The current thread calls Acquire. -/
  | acquire (timeout : ℕ) (tryAcquire : Bool)
  /-- The current thread goes on with its call. -/
  | finish
  /-- The current thread calls Release. -/
  | release
  /-- Mutex::Cancel. -/
  | cancel (t : T)
  /-- Signal::Raise or Process::ResumeThread resumes a thread. -/
  | resume (t : T)
  /-- A tick of the timer. -/
  | tick (doTick : Bool)
  deriving DecidableEq

namespace Sys

variable (idle : T) (m : Sys T)

/-- Mutex::Acquire, up to the point where the thread is switched away. The
result is missing when the call does not return. -/
def acquire (c : T) (timeout : ℕ) (tryAcquire : Bool) : Option Bool × Sys T :=
  if m.count = 0 ∨ m.owner = some c then
    if tryAcquire then (some false,m)
    else if m.recursive = false ∧ m.count ≠ 0 then (none,{ m with halted := true })
    else
      (some true,
        { m with
          count := m.count + 1
          owner := some c
          depth := Function.update m.depth c (m.depth c + 1) })
  else if tryAcquire then (some false,m)
  else if (m.waiters.write (some c)).1 then
    (none,{ m with toWaitSys := m.toWaitSys.enter idle c timeout })
  else (some false,m)

/-- The rest of Mutex::Acquire. -/
def finish (c : T) (call : WaitCall) : Bool × Sys T :=
  if call.timeleft (m.sched.thread c) = 0 then
    (false,{ m with toWaitSys := m.toWaitSys.leave c call })
  else
    (true,
      { m with
        toWaitSys := m.toWaitSys.leave c call
        depth := Function.update m.depth c (m.depth c + 1) })

/-- Mutex::Release. -/
def release (c : T) : Sys T :=
  if m.owner ≠ some c then m
  else
    let count := if 0 < m.count then m.count - 1 else m.count
    let m := { m with count := count,depth := Function.update m.depth c (m.depth c - 1) }
    if count ≠ 0 then m
    else
      match nextWaiter (m.waiters.count + 1) m.waiters with
      | (none,r) => { m with owner := none,waiters := r }
      | (some t,r) =>
        { m with
          toWaitSys := { m.toWaitSys with waiters := r }.wakeUp idle false t
          owner := some t
          count := 1 }

/-- The effect of an operation. -/
def apply : Op T → Sys T
  | .acquire timeout tryAcquire =>
    match m.sched.currentThread with
    | some c => (m.acquire idle c timeout tryAcquire).2
    | none => m
  | .finish =>
    match m.sched.currentThread with
    | some c =>
      match m.calls c with
      | some call => (m.finish c call).2
      | none => m
    | none => m
  | .release =>
    match m.sched.currentThread with
    | some c => m.release idle c
    | none => m
  | .cancel t => { m with waiters := m.waiters.replaceAll (some t) none }
  | .resume t => { m with sched := (m.sched.resume t false).2 }
  | .tick doTick => { m with toWaitSys := m.toWaitSys.tick idle doTick }

/-- The call of Acquire that an operation ends: the thread and the result. -/
def returned : Op T → Option (T × Bool)
  | .acquire timeout tryAcquire =>
    match m.sched.currentThread with
    | some c => (m.acquire idle c timeout tryAcquire).1.map fun b => (c,b)
    | none => none
  | .finish =>
    match m.sched.currentThread with
    | some c => (m.calls c).map fun call => (c,(m.finish c call).1)
    | none => none
  | _ => none

/-- The operations that can happen in a state, over the threads there are. -/
def Enabled (live : List T) (op : Op T) : Prop :=
  m.halted = false ∧
    match op with
    | .acquire timeout _ =>
      m.Open ∧ (∃ c ∈ live,m.sched.currentThread = some c) ∧ timeout < 2 ^ 32
    | .finish => ∃ c ∈ live,m.sched.currentThread = some c ∧ (m.calls c).isSome
    | .release => m.Open ∧ ∃ c ∈ live,m.sched.currentThread = some c
    | .cancel t => m.Open ∧ t ∈ live
    | .resume t => m.Open ∧ t ∈ live
    | .tick _ => m.Open

instance (live : List T) (op : Op T) : Decidable (m.Enabled live op) :=
  match op with
  | .acquire timeout _ => inferInstanceAs (Decidable (m.halted = false ∧
      m.Open ∧ (∃ c ∈ live,m.sched.currentThread = some c) ∧ timeout < 2 ^ 32))
  | .finish => inferInstanceAs (Decidable (m.halted = false ∧
      ∃ c ∈ live,m.sched.currentThread = some c ∧ (m.calls c).isSome))
  | .release => inferInstanceAs (Decidable (m.halted = false ∧
      m.Open ∧ ∃ c ∈ live,m.sched.currentThread = some c))
  | .cancel t => inferInstanceAs (Decidable (m.halted = false ∧ m.Open ∧ t ∈ live))
  | .resume t => inferInstanceAs (Decidable (m.halted = false ∧ m.Open ∧ t ∈ live))
  | .tick _ => inferInstanceAs (Decidable (m.halted = false ∧ m.Open))

/-- A free mutex without waiters. -/
def start (s : Sched T) (recursive : Bool) : Sys T :=
  { toWaitSys := WaitSys.start s 32 WaitSys.capacity_pos
    recursive := recursive
    count := 0
    owner := none
    halted := false
    depth := fun _ => 0 }

end Sys

/-- An operation does what a mutex promises. A call that returns has
succeeded exactly when the thread is the owner and the count was raised for
it, and one that fails leaves the thread neither owner nor in the queue. A
call that finds the mutex free, or a recursive one its own, succeeds at once.
At most one thread is inside. -/
def Right (idle : T) (m : Sys T) (op : Op T) : Prop :=
  (∀ c b,m.returned idle op = some (c,b) →
    (b = true ↔ (m.apply idle op).owner = some c ∧ (m.apply idle op).count = m.depth c + 1) ∧
    (b = false → (m.apply idle op).owner ≠ some c ∧
      some c ∉ (m.apply idle op).waiters.toList)) ∧
  (∀ timeout tryAcquire c,op = .acquire timeout tryAcquire → m.sched.currentThread = some c →
    m.count = 0 ∨ m.recursive = true ∧ m.owner = some c →
      m.returned idle op = some (c,true)) ∧
  ∀ x y,0 < (m.apply idle op).depth x → 0 < (m.apply idle op).depth y → x = y

/-- The operations a mutex bears. Acquire does not try a mutex it could have,
and does not return at once because the thread was resumed before; Release
finds its first waiter still blocked and with time left; and nobody else
resumes a thread whose call could succeed by it. -/
def Bears (m : Sys T) : Op T → Prop
  | .acquire timeout tryAcquire => ∀ c ∈ m.sched.currentThread,
    if m.count = 0 ∨ m.owner = some c then tryAcquire = false
    else tryAcquire = false → m.waiters.full = false → ¬m.EntersAwake c timeout
  | .release => ∀ c ∈ m.sched.currentThread,m.owner = some c → m.count = 1 →
    ∀ t ∈ (firstThread m.waiters.toList).1,m.Takes t
  | .resume t => ¬m.Takes t
  | _ => True

instance (m : Sys T) (op : Op T) : Decidable (Bears m op) :=
  match op with
  | .acquire timeout tryAcquire => inferInstanceAs (Decidable (∀ c ∈ m.sched.currentThread,
      if m.count = 0 ∨ m.owner = some c then tryAcquire = false
      else tryAcquire = false → m.waiters.full = false → ¬m.EntersAwake c timeout))
  | .release => inferInstanceAs (Decidable (∀ c ∈ m.sched.currentThread,m.owner = some c →
      m.count = 1 → ∀ t ∈ (firstThread m.waiters.toList).1,m.Takes t))
  | .resume t => inferInstanceAs (Decidable (¬m.Takes t))
  | .finish => inferInstanceAs (Decidable True)
  | .cancel _ => inferInstanceAs (Decidable True)
  | .tick _ => inferInstanceAs (Decidable True)

section Queue

/-- The threads in a queue of waiters, without the cancelled entries. -/
def threads (l : List (Option T)) : List T := l.filterMap id

theorem mem_threads {l : List (Option T)} {x : T} : x ∈ threads l ↔ some x ∈ l := by
  simp [threads]

/-- The first thread stands before those that follow it. -/
theorem threads_firstThread (l : List (Option T)) :
    threads l = (firstThread l).1.toList ++ threads (firstThread l).2 := by
  induction l with
  | nil => rfl
  | cons e l ih =>
    cases e with
    | none => simpa [threads,firstThread] using ih
    | some t => simp [threads,firstThread]

/-- Replacing a thread by null leaves the other threads in order. -/
theorem threads_map_sublist (l : List (Option T)) (t : T) :
    (threads (l.map fun e => if e = some t then none else e)).Sublist (threads l) := by
  induction l with
  | nil => exact List.Sublist.refl _
  | cons e l ih =>
    cases e with
    | none => simpa [threads] using ih
    | some x =>
      by_cases hx : x = t
      · simp only [threads,List.map_cons,hx,if_true,List.filterMap_cons,id] at ih ⊢
        exact ih.cons _
      · simp only [threads,List.map_cons,Option.some.injEq,hx,if_false,List.filterMap_cons,
          id] at ih ⊢
        exact ih.cons_cons _

/-- Cancel leaves the other threads of the queue in order. -/
theorem threads_replaceAll (r : BoundedQueue (Option T)) (t : T) :
    (threads (r.replaceAll (some t) none).toList).Sublist (threads r.toList) := by
  cases hf : r.full with
  | true =>
    rw [r.replaceAll_full (some t) none hf]
  | false =>
    rw [r.toList_replaceAll (some t) none hf]
    exact threads_map_sublist r.toList t

/-- A thread that is in the queue once is not in it after it was removed. -/
theorem threads_removeFirst (r : BoundedQueue (Option T)) (c : T)
    (h : (threads r.toList).Nodup) :
    (threads (r.removeFirst (some c)).toList).Sublist (threads r.toList) ∧
      c ∉ threads (r.removeFirst (some c)).toList := by
  by_cases hc : some c ∈ r.toList
  · obtain ⟨l₁,l₂,hsplit,hrem⟩ := r.split_removeFirst hc
    have hthreads : threads r.toList = threads l₁ ++ c :: threads l₂ := by
      rw [hsplit]
      simp [threads]
    have hthreads' : threads (r.removeFirst (some c)).toList = threads l₁ ++ threads l₂ := by
      rw [hrem]
      simp [threads]
    rw [hthreads,hthreads']
    rw [hthreads] at h
    refine ⟨List.Sublist.append_left (List.sublist_cons_self _ _) _,?_⟩
    rw [List.nodup_append] at h
    obtain ⟨-,hn,hd⟩ := h
    rw [List.mem_append]
    rintro (hm | hm)
    · exact hd c hm c (List.mem_cons_self ..) rfl
    · exact (List.nodup_cons.mp hn).1 hm
  · rw [r.removeFirst_of_not_mem hc]
    exact ⟨List.Sublist.refl _,fun hm => hc (mem_threads.mp hm)⟩

end Queue

section Ownership

variable {idle : T} {live : List T} {m : Sys T}

/-- The owner, the count and the depths agree, and the calls in flight are
those of a thread that was handed the mutex. -/
structure Held (idle : T) (live : List T) (m : Sys T) : Prop where
  /-- The calls agree with the scheduler. -/
  sound : Sound idle live m.toWaitSys
  /-- The count is not negative. -/
  nonneg : 0 ≤ m.count
  /-- A free mutex has no owner, and a mutex without an owner is free. -/
  free : m.count = 0 ↔ m.owner = none
  /-- A call in flight belongs to the new owner. -/
  granted : ∀ {x},m.InFlight x → m.owner = some x ∧ m.count = 1 ∧ m.depth x = 0
  /-- The count is the depth of the owner, and no other thread is inside. -/
  inside : ∀ {x},¬m.InFlight x → (m.depth x : ℤ) = if m.owner = some x then m.count else 0
  /-- A thread whose call is not in flight is not the owner. -/
  waiting : ∀ {x},(m.calls x).isSome → ¬m.InFlight x → m.owner ≠ some x
  /-- The queue holds the threads whose calls are not in flight. -/
  queued : ∀ {x},x ∈ threads m.waiters.toList → (m.calls x).isSome ∧ ¬m.InFlight x
  /-- Each thread is in the queue once. -/
  once : (threads m.waiters.toList).Nodup

/-- A thread without a call is not in flight. -/
theorem not_inFlight_of_none {w : WaitSys T} {x : T} (h : w.calls x = none) : ¬w.InFlight x := by
  simp [WaitSys.InFlight,h]

/-- At most one thread is inside. -/
theorem Held.exclusive (h : Held idle live m) {x y : T} (hx : 0 < m.depth x)
    (hy : 0 < m.depth y) : x = y := by
  have howner {z : T} (hz : 0 < m.depth z) : m.owner = some z := by
    by_cases hf : m.InFlight z
    · exact (h.granted hf).1
    · have hd := h.inside hf
      by_contra hne
      rw [if_neg hne] at hd
      omega
  exact Option.some.inj ((howner hx).symm.trans (howner hy))

/-- The scheduler and the queue may change as long as the same calls are in
flight and no thread enters the queue. -/
theorem Held.waits {w : WaitSys T} (h : Held idle live m) (hs : Sound idle live w)
    (hcalls : w.calls = m.calls) (hf : ∀ x,w.InFlight x ↔ m.InFlight x)
    (hq : (threads w.waiters.toList).Sublist (threads m.waiters.toList)) :
    Held idle live { m with toWaitSys := w } := by
  refine ⟨hs,h.nonneg,h.free,fun hx => h.granted ((hf _).mp hx),
    fun hx => h.inside fun hx' => hx ((hf _).mpr hx'),fun hc hx => ?_,fun hx => ?_,
    h.once.sublist hq⟩
  · dsimp only at hc
    rw [hcalls] at hc
    exact h.waiting hc fun hx' => hx ((hf _).mpr hx')
  · obtain ⟨hc,hn⟩ := h.queued (hq.subset hx)
    refine ⟨?_,fun hx' => hn ((hf _).mp hx')⟩
    dsimp only
    rw [hcalls]
    exact hc

/-- A call in flight belongs to a live thread. -/
theorem inFlight_live {w : WaitSys T} (hs : Sound idle live w) {x : T} (h : w.InFlight x) :
    x ∈ live := by
  refine hs.calls_live ?_
  by_contra hc
  exact not_inFlight_of_none (by simpa using hc) h

/-- It is enough to compare the live threads. -/
theorem inFlight_iff_of_live {w w' : WaitSys T} (hs : Sound idle live w) (hs' : Sound idle live w')
    (h : ∀ x ∈ live,w'.InFlight x ↔ w.InFlight x) (x : T) : w'.InFlight x ↔ w.InFlight x := by
  constructor
  · exact fun hx => (h x (inFlight_live hs' hx)).mp hx
  · exact fun hx => (h x (inFlight_live hs hx)).mpr hx

/-- Acquire by a thread that may have the mutex at once. -/
theorem Held.acquire_own {c : T} {timeout : ℕ} (h : Held idle live m) (hcall : m.calls c = none)
    (hown : m.count = 0 ∨ m.owner = some c) :
    (m.recursive = false ∧ m.count ≠ 0 ∧
        m.acquire idle c timeout false = (none,{ m with halted := true })) ∨
      ((m.acquire idle c timeout false).1 = some true ∧
        (m.acquire idle c timeout false).2.owner = some c ∧
        (m.acquire idle c timeout false).2.count = m.depth c + 1 ∧
        Held idle live (m.acquire idle c timeout false).2) := by
  by_cases hhalt : m.recursive = false ∧ m.count ≠ 0
  · refine Or.inl ⟨hhalt.1,hhalt.2,?_⟩
    simp only [Sys.acquire,if_pos hown,Bool.false_eq_true,if_false,if_pos hhalt]
  · right
    have hacq : m.acquire idle c timeout false = (some true,
        { m with
          count := m.count + 1
          owner := some c
          depth := Function.update m.depth c (m.depth c + 1) }) := by
      simp only [Sys.acquire,if_pos hown,Bool.false_eq_true,if_false,if_neg hhalt]
    have hnc : ¬m.InFlight c := not_inFlight_of_none hcall
    have hnone {x : T} : ¬m.InFlight x := by
      intro hx
      obtain ⟨hox,hcx,-⟩ := h.granted hx
      rcases hown with h0 | hoc
      · omega
      · exact hnc (Option.some.inj (hoc.symm.trans hox) ▸ hx)
    have hdepth : (m.depth c : ℤ) = m.count := by
      have hd := h.inside hnc
      split_ifs at hd with hoc
      · exact hd
      · rcases hown with h0 | hoc'
        · omega
        · exact absurd hoc' hoc
    have hother {x : T} (hx : x ≠ c) : m.depth x = 0 := by
      have hd := h.inside (hnone (x := x))
      have hne : m.owner ≠ some x := by
        rcases hown with h0 | hoc
        · simp [h.free.mp h0]
        · rw [hoc]
          exact fun he => hx (Option.some.inj he).symm
      rw [if_neg hne] at hd
      omega
    rw [hacq]
    refine ⟨rfl,rfl,by simp [hdepth],h.sound,by have := h.nonneg; dsimp only; omega,?_,
      fun hx => absurd hx hnone,fun {x} _ => ?_,fun {x} hcx hx => ?_,h.queued,h.once⟩
    · have hp := h.nonneg
      simp only [reduceCtorEq,iff_false]
      omega
    · dsimp only
      by_cases hxc : x = c
      · subst hxc
        simp [hdepth]
      · have hne : some c ≠ some x := fun he => hxc (Option.some.inj he).symm
        rw [Function.update_of_ne hxc,if_neg hne,hother hxc]
        rfl
    · dsimp only at hcx ⊢
      intro he
      obtain rfl := Option.some.inj he
      simp [hcall] at hcx

/-- A thread that starts to wait for the mutex of another one. -/
theorem Held.enter {c : T} {timeout : ℕ} (h : Held idle live m) (hl : c ∈ live)
    (hc : m.sched.currentThread = some c) (hcall : m.calls c = none) (hm : timeout < 2 ^ 32)
    (hfull : m.waiters.full = false) (hother : m.owner ≠ some c)
    (hawake : ¬m.EntersAwake c timeout) :
    Held idle live { m with toWaitSys := m.toWaitSys.enter idle c timeout } := by
  obtain ⟨hs,hothers,hself,hnot⟩ := h.sound.enter hl hc hcall hm hfull
  have hcalls {x : T} (hx : x ≠ c) : (m.toWaitSys.enter idle c timeout).calls x = m.calls x :=
    Function.update_of_ne hx ..
  have hf (x : T) : (m.toWaitSys.enter idle c timeout).InFlight x ↔ m.InFlight x := by
    refine inFlight_iff_of_live h.sound hs (fun x hx => ?_) x
    by_cases hxc : x = c
    · subst hxc
      simp [hnot,hself,hawake]
    · exact hothers x hx hxc
  have hqueue : threads (m.toWaitSys.enter idle c timeout).waiters.toList =
      threads m.waiters.toList ++ [c] := by
    change threads (m.waiters.write (some c)).2.toList = _
    rw [BoundedQueue.toList_write _ _ hfull]
    simp [threads]
  have hnew : c ∉ threads m.waiters.toList := fun hm => by
    have hq := (h.queued hm).1
    simp [hcall] at hq
  refine ⟨hs,h.nonneg,h.free,fun hx => h.granted ((hf _).mp hx),
    fun hx => h.inside fun hx' => hx ((hf _).mpr hx'),fun {x} hcx hx => ?_,fun {x} hx => ?_,?_⟩
  · by_cases hxc : x = c
    · exact hxc ▸ hother
    · dsimp only at hcx
      rw [hcalls hxc] at hcx
      exact h.waiting hcx fun hx' => hx ((hf _).mpr hx')
  · dsimp only at hx ⊢
    rw [hqueue,List.mem_append,List.mem_singleton] at hx
    by_cases hxc : x = c
    · subst hxc
      refine ⟨?_,fun hx' => hnot ((hf _).mp hx')⟩
      change (Function.update m.calls x _ x).isSome
      rw [Function.update_self]
      rfl
    · obtain ⟨hq,hn⟩ := h.queued (hx.resolve_right hxc)
      rw [hcalls hxc]
      exact ⟨hq,fun hx' => hn ((hf _).mp hx')⟩
  · dsimp only
    rw [hqueue]
    exact List.nodup_append.mpr ⟨h.once,by simp,fun x hx y hy => by
      rintro rfl
      exact hnew (List.mem_singleton.mp hy ▸ hx)⟩

/-- The end of a call, in either way. -/
theorem Held.finish {c : T} {call : WaitCall} (h : Held idle live m)
    (hc : m.sched.currentThread = some c) (hcall : m.calls c = some call) :
    Held idle live (m.finish c call).2 ∧
      (((m.finish c call).1 = true ∧ (m.finish c call).2.owner = some c ∧
          (m.finish c call).2.count = m.depth c + 1) ∨
        ((m.finish c call).1 = false ∧ (m.finish c call).2.owner ≠ some c ∧
          some c ∉ (m.finish c call).2.waiters.toList)) := by
  obtain ⟨hs,hothers,hnot,-⟩ := @Sound.leave T _ idle live _ h.sound c call hc
  have hflight : m.InFlight c ↔ call.timeleft (m.sched.thread c) ≠ 0 := by
    have hr : Runnable c m.sched := Or.inl hc
    simp [WaitSys.InFlight,hcall,hr]
  have hcalls {x : T} (hx : x ≠ c) : (m.toWaitSys.leave c call).calls x = m.calls x :=
    Function.update_of_ne hx ..
  have hself : (m.toWaitSys.leave c call).calls c = none := Function.update_self ..
  by_cases h0 : call.timeleft (m.sched.thread c) = 0
  · have hfin : m.finish c call = (false,{ m with toWaitSys := m.toWaitSys.leave c call }) := by
      simp only [Sys.finish,if_pos h0]
    have hnc : ¬m.InFlight c := fun hx => hflight.mp hx h0
    have hwait := h.waiting (by rw [hcall]; rfl) hnc
    have hqueue : (m.toWaitSys.leave c call).waiters = m.waiters.removeFirst (some c) := by
      simp only [WaitSys.leave,if_pos h0]
    obtain ⟨hsub,hgone⟩ := threads_removeFirst m.waiters c h.once
    have hf (x : T) : (m.toWaitSys.leave c call).InFlight x ↔ m.InFlight x := by
      by_cases hxc : x = c
      · subst hxc
        simp [hnot,hnc]
      · exact hothers x hxc
    rw [hfin]
    refine ⟨⟨hs,h.nonneg,h.free,fun hx => h.granted ((hf _).mp hx),
      fun hx => h.inside fun hx' => hx ((hf _).mpr hx'),fun {x} hcx hx => ?_,fun {x} hx => ?_,?_⟩,
      Or.inr ⟨rfl,hwait,?_⟩⟩
    · dsimp only at hcx
      by_cases hxc : x = c
      · exact hxc ▸ hwait
      · rw [hcalls hxc] at hcx
        exact h.waiting hcx fun hx' => hx ((hf _).mpr hx')
    · dsimp only at hx ⊢
      rw [hqueue] at hx
      have hxc : x ≠ c := by
        rintro rfl
        exact hgone hx
      obtain ⟨hq,hn⟩ := h.queued (hsub.subset hx)
      rw [hcalls hxc]
      exact ⟨hq,fun hx' => hn ((hf _).mp hx')⟩
    · dsimp only
      rw [hqueue]
      exact h.once.sublist hsub
    · dsimp only
      rw [hqueue]
      exact fun hm => hgone (mem_threads.mpr hm)
  · have hfin : m.finish c call = (true,
        { m with
          toWaitSys := m.toWaitSys.leave c call
          depth := Function.update m.depth c (m.depth c + 1) }) := by
      simp only [Sys.finish,if_neg h0]
    obtain ⟨howner,hcount,hdepth⟩ := h.granted (hflight.mpr h0)
    have hqueue : (m.toWaitSys.leave c call).waiters = m.waiters := by
      simp only [WaitSys.leave,if_neg h0]
    have hnone {x : T} : ¬(m.toWaitSys.leave c call).InFlight x := by
      intro hx
      by_cases hxc : x = c
      · subst hxc
        exact hnot hx
      · have hox := (h.granted ((hothers x hxc).mp hx)).1
        exact hxc (Option.some.inj (howner.symm.trans hox)).symm
    rw [hfin]
    refine ⟨⟨hs,h.nonneg,h.free,fun hx => absurd hx hnone,fun {x} _ => ?_,fun {x} hcx _ => ?_,
      fun {x} hx => ?_,?_⟩,Or.inl ⟨rfl,howner,by simp [hcount,hdepth]⟩⟩
    · dsimp only
      by_cases hxc : x = c
      · subst hxc
        simp [howner,hcount,hdepth]
      · have hne : m.owner ≠ some x := by
          rw [howner]
          exact fun he => hxc (Option.some.inj he).symm
        have hd := h.inside (x := x) fun hx => hne (h.granted hx).1
        rw [Function.update_of_ne hxc]
        exact hd
    · dsimp only at hcx ⊢
      rw [howner]
      intro he
      obtain rfl := Option.some.inj he
      simp [hself] at hcx
    · dsimp only at hx ⊢
      rw [hqueue] at hx
      obtain ⟨hq,hn⟩ := h.queued hx
      have hxc : x ≠ c := by
        rintro rfl
        exact hn (hflight.mpr h0)
      rw [hcalls hxc]
      exact ⟨hq,hnone⟩
    · dsimp only
      rw [hqueue]
      exact h.once

/-- Release hands the mutex to the first waiter, which it finds blocked. -/
theorem Held.release {c : T} (h : Held idle live m) (hcall : m.calls c = none)
    (hb : m.owner = some c → m.count = 1 → ∀ t ∈ (firstThread m.waiters.toList).1,m.Takes t) :
    Held idle live (m.release idle c) := by
  by_cases howner : m.owner = some c
  · have hnc : ¬m.InFlight c := not_inFlight_of_none hcall
    have hnone {x : T} : ¬m.InFlight x := by
      intro hx
      have hox := (h.granted hx).1
      obtain rfl := Option.some.inj (howner.symm.trans hox)
      exact hnc hx
    have hpos : 0 < m.count := by
      have hn := h.nonneg
      have hne : m.count ≠ 0 := fun h0 => by simp [h.free.mp h0] at howner
      omega
    have hdepth : (m.depth c : ℤ) = m.count := by
      rw [h.inside hnc,if_pos howner]
    have hother {x : T} (hx : x ≠ c) : m.depth x = 0 := by
      have hne : m.owner ≠ some x := by
        rw [howner]
        exact fun he => hx (Option.some.inj he).symm
      have hd := h.inside (hnone (x := x))
      rw [if_neg hne] at hd
      omega
    obtain ⟨hfst,hsnd⟩ := nextWaiter_eq m.waiters (Nat.lt_succ_self _)
    have hsplit := threads_firstThread m.waiters.toList
    have honce := h.once
    unfold Sys.release
    rw [if_neg (by simp [howner])]
    dsimp only
    rw [if_pos hpos]
    by_cases hlast : m.count - 1 = 0
    · rw [if_neg (by simp [hlast])]
      cases hnext : nextWaiter (m.waiters.count + 1) m.waiters with
      | mk first r =>
        rw [hnext] at hfst hsnd
        dsimp only at hfst hsnd
        have hsub : (threads r.toList).Sublist (threads m.waiters.toList) := by
          rw [hsplit,hsnd]
          exact List.sublist_append_right _ _
        have hsq : Sound idle live { m.toWaitSys with waiters := r } :=
          h.sound.queue fun x hx => mem_firstThread (hsnd ▸ hx)
        -- With no thread left inside, the depths are all zero.
        have hzero (x : T) : Function.update m.depth c (m.depth c - 1) x = 0 := by
          by_cases hxc : x = c
          · subst hxc
            rw [Function.update_self]
            omega
          · rw [Function.update_of_ne hxc]
            exact hother hxc
        cases first with
        | none =>
          refine ⟨hsq,by dsimp only; omega,by simp [hlast],fun hx => absurd hx hnone,
            fun {x} _ => by simp [hzero x],fun _ _ => by simp,fun hx => h.queued (hsub.subset hx),
            h.once.sublist hsub⟩
        | some t =>
          have hmem : t ∈ threads m.waiters.toList := by
            rw [hsplit,←hfst]
            simp
          have htake : m.Takes t := hb howner (by omega) t hfst.symm
          have ht : t ∈ live := h.sound.calls_live (h.queued hmem).1
          have hgone : t ∉ threads r.toList := by
            rw [hsplit,←hfst,←hsnd] at honce
            exact (List.nodup_cons.mp (by simpa using honce)).1
          obtain ⟨hs,hflight,-,-⟩ := hsq.wakeUp false t
          have hf (x : T) : (({ m.toWaitSys with waiters := r } : WaitSys T).wakeUp
              idle false t).InFlight x ↔ x = t := by
            constructor
            · intro hx
              rcases (hflight x (inFlight_live hs hx)).mp hx with hx' | ⟨rfl,-⟩
              · exact absurd hx' hnone
              · rfl
            · rintro rfl
              exact (hflight x ht).mpr (Or.inr ⟨rfl,htake⟩)
          refine ⟨hs,by simp,by simp,fun {x} hx => ?_,fun {x} hx => ?_,fun {x} _ hx => ?_,
            fun {x} hx => ?_,h.once.sublist hsub⟩
          · obtain rfl := (hf x).mp hx
            exact ⟨rfl,rfl,hzero x⟩
          · dsimp only
            rw [hzero x,if_neg fun he => hx ((hf x).mpr (Option.some.inj he).symm)]
            rfl
          · exact fun he => hx ((hf x).mpr (Option.some.inj he).symm)
          · refine ⟨(h.queued (hsub.subset hx)).1,fun hx' => ?_⟩
            obtain rfl := (hf x).mp hx'
            exact hgone hx
    · rw [if_pos hlast]
      refine ⟨h.sound,by dsimp only; omega,?_,fun hx => absurd hx hnone,fun {x} _ => ?_,h.waiting,
        h.queued,h.once⟩
      · simp [hlast,howner]
      · dsimp only
        by_cases hxc : x = c
        · subst hxc
          rw [Function.update_self,if_pos howner]
          omega
        · have hne : m.owner ≠ some x := by
            rw [howner]
            exact fun he => hxc (Option.some.inj he).symm
          rw [Function.update_of_ne hxc,if_neg hne,hother hxc]
          rfl
  · have hrel : m.release idle c = m := by
      unfold Sys.release
      rw [if_pos howner]
    rw [hrel]
    exact h

/-- A tick passes over the mutex. -/
theorem Held.tick (h : Held idle live m) (doTick : Bool) :
    Held idle live { m with toWaitSys := m.toWaitSys.tick idle doTick } := by
  obtain ⟨hs,hf,-⟩ := h.sound.tick doTick
  exact h.waits hs rfl (inFlight_iff_of_live h.sound hs hf) (List.Sublist.refl _)

/-- So does a call of Resume that puts no call in flight. -/
theorem Held.resume (h : Held idle live m) {t : T} (ht : ¬m.Takes t) :
    Held idle live { m with sched := (m.sched.resume t false).2 } := by
  obtain ⟨hs,hf,-,-⟩ := h.sound.resume t false
  refine h.waits hs rfl (inFlight_iff_of_live h.sound hs fun x hx => ?_) (List.Sublist.refl _)
  rw [hf x hx]
  simp [ht]

/-- Cancel only takes entries out of the queue. -/
theorem Held.cancel (h : Held idle live m) (t : T) :
    Held idle live { m with waiters := m.waiters.replaceAll (some t) none } := by
  have hsub := threads_replaceAll m.waiters t
  have hs : Sound idle live { m.toWaitSys with waiters := m.waiters.replaceAll (some t) none } :=
    h.sound.queue fun x hx => mem_threads.mp (hsub.subset (mem_threads.mpr hx))
  exact h.waits hs rfl (fun _ => Iff.rfl) hsub

end Ownership

section Runs

variable {idle : T} {live : List T} {m : Sys T}

/-- Acquire, as the mutex bears it: the state stays in order, and a result is right. -/
theorem Held.acquire {c : T} {timeout : ℕ} {tryAcquire : Bool} (h : Held idle live m)
    (hl : c ∈ live) (hc : m.sched.currentThread = some c) (hcall : m.calls c = none)
    (hm : timeout < 2 ^ 32)
    (hb : if m.count = 0 ∨ m.owner = some c then tryAcquire = false
      else tryAcquire = false → m.waiters.full = false → ¬m.EntersAwake c timeout) :
    Held idle live (m.acquire idle c timeout tryAcquire).2 ∧
      (m.count = 0 ∨ m.recursive = true ∧ m.owner = some c →
        (m.acquire idle c timeout tryAcquire).1 = some true) ∧
      ((m.acquire idle c timeout tryAcquire).1 = some true →
        (m.acquire idle c timeout tryAcquire).2.owner = some c ∧
          (m.acquire idle c timeout tryAcquire).2.count = m.depth c + 1) ∧
      ((m.acquire idle c timeout tryAcquire).1 = some false →
        (m.acquire idle c timeout tryAcquire).2.owner ≠ some c ∧
          some c ∉ (m.acquire idle c timeout tryAcquire).2.waiters.toList) := by
  by_cases hown : m.count = 0 ∨ m.owner = some c
  · rw [if_pos hown] at hb
    subst hb
    rcases @Held.acquire_own T _ idle live m c timeout h hcall hown with
      ⟨hrec,hne,hhalt⟩ | ⟨hres,howner,hcount,hheld⟩
    · rw [hhalt]
      refine ⟨⟨h.sound,h.nonneg,h.free,h.granted,h.inside,h.waiting,h.queued,h.once⟩,
        fun hfree => ?_,by simp,by simp⟩
      rcases hfree with h0 | ⟨hr,-⟩
      · exact absurd h0 hne
      · simp [hrec] at hr
    · exact ⟨hheld,fun _ => hres,fun _ => ⟨howner,hcount⟩,fun hf => by simp [hres] at hf⟩
  · rw [if_neg hown] at hb
    have hfail : m.owner ≠ some c ∧ some c ∉ m.waiters.toList := by
      refine ⟨fun ho => hown (Or.inr ho),fun hmem => ?_⟩
      have hq := (h.queued (mem_threads.mpr hmem)).1
      simp [hcall] at hq
    have hfree : ¬(m.count = 0 ∨ m.recursive = true ∧ m.owner = some c) := by
      rintro (h0 | ⟨-,ho⟩)
      · exact hown (Or.inl h0)
      · exact hown (Or.inr ho)
    unfold Sys.acquire
    rw [if_neg hown]
    split_ifs with htry hroom
    · exact ⟨h,fun hf => absurd hf hfree,by simp,fun _ => hfail⟩
    · have hfull : m.waiters.full = false := by
        simpa [BoundedQueue.write_fst] using hroom
      have hawake := hb (by simpa using htry) hfull
      exact ⟨h.enter hl hc hcall hm hfull hfail.1 hawake,fun hf => absurd hf hfree,by simp,by simp⟩
    · exact ⟨h,fun hf => absurd hf hfree,by simp,fun _ => hfail⟩

/-- Every operation that the mutex bears keeps it in order. -/
theorem Held.apply {op : Op T} (h : Held idle live m) (he : m.Enabled live op)
    (hb : Bears m op) : Held idle live (m.apply idle op) := by
  obtain ⟨-,he⟩ := he
  cases op with
  | acquire timeout tryAcquire =>
    obtain ⟨hopen,⟨c,hl,hc⟩,hm⟩ := he
    have happ : m.apply idle (.acquire timeout tryAcquire) =
        (m.acquire idle c timeout tryAcquire).2 := by simp [Sys.apply,hc]
    rw [happ]
    exact (h.acquire hl hc (hopen c hc) hm (hb c hc)).1
  | finish =>
    obtain ⟨c,-,hc,hsome⟩ := he
    obtain ⟨call,hcall⟩ := Option.isSome_iff_exists.mp hsome
    have happ : m.apply idle .finish = (m.finish c call).2 := by simp [Sys.apply,hc,hcall]
    rw [happ]
    exact (h.finish hc hcall).1
  | release =>
    obtain ⟨hopen,c,-,hc⟩ := he
    have happ : m.apply idle .release = m.release idle c := by simp [Sys.apply,hc]
    rw [happ]
    exact h.release (hopen c hc) (hb c hc)
  | cancel t => exact h.cancel t
  | resume t => exact h.resume hb
  | tick doTick => exact h.tick doTick

/-- Such an operation does what a mutex promises. -/
theorem Held.right {op : Op T} (h : Held idle live m) (he : m.Enabled live op)
    (hb : Bears m op) : Right idle m op := by
  refine ⟨fun c b hret => ?_,fun timeout tryAcquire c hop hc hfree => ?_,
    fun x y hx hy => (h.apply he hb).exclusive hx hy⟩
  · cases op with
    | acquire timeout tryAcquire =>
      obtain ⟨-,hopen,⟨c',hl,hc⟩,hm⟩ := he
      obtain ⟨-,-,htrue,hfalse⟩ := h.acquire hl hc (hopen c' hc) hm (hb c' hc)
      have happ : m.apply idle (.acquire timeout tryAcquire) =
          (m.acquire idle c' timeout tryAcquire).2 := by simp [Sys.apply,hc]
      have hres : (m.acquire idle c' timeout tryAcquire).1 = some b ∧ c' = c := by
        simpa [Sys.returned,hc] using hret
      obtain ⟨hres,rfl⟩ := hres
      rw [happ]
      cases b with
      | false =>
        have hf := hfalse hres
        exact ⟨⟨fun ht => by simp at ht,fun ht => absurd ht.1 hf.1⟩,fun _ => hf⟩
      | true => exact ⟨⟨fun _ => htrue hres,fun _ => rfl⟩,fun hf => by simp at hf⟩
    | finish =>
      obtain ⟨-,c',-,hc,hsome⟩ := he
      obtain ⟨call,hcall⟩ := Option.isSome_iff_exists.mp hsome
      have happ : m.apply idle .finish = (m.finish c' call).2 := by simp [Sys.apply,hc,hcall]
      have hres : c' = c ∧ (m.finish c' call).1 = b := by
        simpa [Sys.returned,hc,hcall] using hret
      obtain ⟨rfl,hres⟩ := hres
      rw [happ]
      rcases (h.finish hc hcall).2 with ⟨htrue,howner,hcount⟩ | ⟨hfalse,hfail⟩
      · rw [htrue] at hres
        subst hres
        exact ⟨⟨fun _ => ⟨howner,hcount⟩,fun _ => rfl⟩,fun hf => by simp at hf⟩
      · rw [hfalse] at hres
        subst hres
        exact ⟨⟨fun ht => by simp at ht,fun ht => absurd ht.1 hfail.1⟩,fun _ => hfail⟩
    | release => simp [Sys.returned] at hret
    | cancel t => simp [Sys.returned] at hret
    | resume t => simp [Sys.returned] at hret
    | tick doTick => simp [Sys.returned] at hret
  · subst hop
    obtain ⟨-,hopen,⟨c',hl,hc'⟩,hm⟩ := he
    obtain rfl := Option.some.inj (hc.symm.trans hc')
    have hres := (h.acquire hl hc (hopen c hc) hm (hb c hc)).2.1 hfree
    simp [Sys.returned,hc,hres]

/-- For every number of threads: in every run of operations that the mutex
bears, each operation does what a mutex promises. -/
theorem mutex_right {s : Sched T} {recursive : Bool} {ops : List (Op T)}
    (hp : Partition idle live s) (hn : live.Nodup)
    (he : RunMeets (Sys.apply idle) (Sys.Enabled · live) (Sys.start s recursive) ops)
    (hb : RunMeets (Sys.apply idle) Bears (Sys.start s recursive) ops) :
    RunMeets (Sys.apply idle) (Right idle) (Sys.start s recursive) ops := by
  have hstart : Held idle live (Sys.start s recursive) := by
    have hno {x : T} : ¬(Sys.start s recursive).InFlight x := not_inFlight_of_none rfl
    have hempty : threads (Sys.start s recursive).waiters.toList = [] := by
      simp [Sys.start,WaitSys.start,BoundedQueue.toList_new,threads]
    refine ⟨sound_start _ hp hn,le_rfl,by simp [Sys.start],fun hx => absurd hx hno,
      fun _ => by simp [Sys.start],fun hc => by simp [Sys.start,WaitSys.start] at hc,
      fun hx => ?_,?_⟩
    · rw [hempty] at hx
      exact absurd hx List.not_mem_nil
    · rw [hempty]
      exact List.nodup_nil
  exact (he.and hb).imp (fun m op hm hop => hm.apply hop.1 hop.2)
    (fun m op hm hop => hm.right hop.1 hop.2) hstart

/-- The first thread takes the mutex, the second one waits for it, and gets
it when the first one lets it go. -/
theorem mutex_right_handed_over :
    RunMeets (Sys.apply 1) (Right 1) (Sys.start twoThreads false)
      [.acquire 0 false,.tick true,.acquire 100 false,.release,.tick true,.finish,.release] := by
  have he : RunMeets (Sys.apply 1) (Sys.Enabled · [2,0]) (Sys.start twoThreads false)
      [.acquire 0 false,.tick true,.acquire 100 false,.release,.tick true,.finish,.release] := by
    decide +kernel
  have hb : RunMeets (Sys.apply 1) Bears (Sys.start twoThreads false)
      [.acquire 0 false,.tick true,.acquire 100 false,.release,.tick true,.finish,.release] := by
    decide +kernel
  exact mutex_right twoThreads_partition (by decide) he hb

/-- Trying a free mutex fails, although nobody has it. -/
theorem free_mutex_refused :
    RunMeets (Sys.apply 1) (Sys.Enabled · [2,0]) (Sys.start twoThreads false)
        [.acquire 0 true] ∧
      ¬RunMeets (Sys.apply 1) (Right 1) (Sys.start twoThreads false) [.acquire 0 true] := by
  refine ⟨by decide,fun h => ?_⟩
  have hret := h.1.2.1 0 true 0 rfl (by decide) (Or.inl rfl)
  exact absurd hret (by decide)

end Runs

end WootOs.Mutex
