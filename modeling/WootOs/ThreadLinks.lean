import WootOs.SchedulerPartition

/-!
# The scheduler over linked threads

Thread derives from ObjectQueue::Item, so one field Next of each thread links
all three queues. This module translates thread.cpp over those links. Every
loop has fuel, and an operation returns none when a loop does not end.

The linked scheduler refines the one over lists: from a state whose queues
hold the lists, every operation returns, and the queues hold the lists that
the operation gives there.
-/

namespace WootOs.Scheduler

open ObjectQueue

set_option linter.unusedSectionVars false

variable {T : Type*} [DecidableEq T]

/-- The scheduler as the source stores it. -/
structure Threads (T : Type*) where
  /-- The thread that runs; null only inside Finalize. -/
  currentThread : Option T
  /-- The record of every thread. -/
  thread : T → Thread
  /-- The field Next of every thread. -/
  next : Next T
  /-- The first thread of each queue. -/
  first : Queue → Option T

namespace Threads

/-- Change the record of one thread. -/
def modify (t : T) (f : Thread → Thread) (s : Threads T) : Threads T :=
  { s with thread := Function.update s.thread t (f (s.thread t)) }

/-- ObjectQueue::Add on one of the queues. -/
def add (fuel : ℕ) (q : Queue) (t : T) (prepend : Bool) (s : Threads T) :
    Option (Threads T) :=
  (ObjectQueue.add fuel s.next (s.first q) t prepend).map fun r =>
    { s with next := r.1,first := Function.update s.first q r.2 }

/-- ObjectQueue::Remove on one of the queues. -/
def remove (fuel : ℕ) (q : Queue) (t : T) (comparer : T → T → Bool) (s : Threads T) :
    Option (Bool × Threads T) :=
  (ObjectQueue.remove fuel s.next (s.first q) t comparer).map fun r =>
    (r.1,{ s with next := r.2.1,first := Function.update s.first q r.2.2 })

/-- ObjectQueue::Get on one of the queues. -/
def get (q : Queue) (s : Threads T) : Option T × Threads T :=
  ((ObjectQueue.get s.next (s.first q)).1,
    { s with
      next := (ObjectQueue.get s.next (s.first q)).2.1
      first := Function.update s.first q (ObjectQueue.get s.next (s.first q)).2.2 })

/-- Thread::sleepingThreadComparer. -/
def sleepingThreadComparer (s : Threads T) (a b : T) : Bool :=
  decide (a = b) && (s.thread a).interruptibleSleep

/-- The action of the first walk of GetNext. -/
def tickAction (t : T) (s : Threads T) : Option (Bool × Threads T) :=
  some (false,s.modify t Thread.tick)

/-- The action of the second walk of GetNext. It restarts the walk after it
has moved a thread, since the links behind that thread are those of another
queue by then. -/
def wakeAction (fuel : ℕ) (t : T) (s : Threads T) : Option (Bool × Threads T) :=
  if (s.thread t).sleepTicks = 0 then do
    let (_,s) ← s.remove fuel .sleepingThreads t defaultItemComparer
    let s ← (s.modify t Thread.expire).add fuel .readyThreads t false
    some (true,s)
  else some (false,s)

/-- One walk over the sleeping threads. -/
def forEachSleeping (fuel : ℕ) (action : T → Threads T → Option (Bool × Threads T))
    (s : Threads T) : Option (Threads T) :=
  forEach (fun s => s.first .sleepingThreads) (fun s => s.next) action fuel
    (s.first .sleepingThreads) s

/-- The first walk of GetNext, which a fake tick leaves out. -/
def tickSleepers (fuel : ℕ) (doTick : Bool) (s : Threads T) : Option (Threads T) :=
  if doTick then s.forEachSleeping fuel tickAction else some s

/-- Both walks of GetNext. -/
def settle (fuel : ℕ) (doTick : Bool) (s : Threads T) : Option (Threads T) := do
  let s ← s.tickSleepers fuel doTick
  s.forEachSleeping fuel (wakeAction fuel)

/-- Remove from one queue or else from another, as the conditions of Suspend
and Resume do. -/
def removeEither (fuel : ℕ) (q q' : Queue) (t : T) (comparer' : T → T → Bool)
    (s : Threads T) : Option (Bool × Threads T) :=
  match s.remove fuel q t defaultItemComparer with
  | none => none
  | some (true,s) => some (true,s)
  | some (false,s) => s.remove fuel q' t comparer'

variable (idle : T)

/-- GetNext puts the current thread into the queue its state asks for. -/
def yieldCurrent (fuel : ℕ) (s : Threads T) : Option (Threads T) :=
  match s.currentThread with
  | none => some s
  | some c =>
    if c ≠ idle ∧ (s.thread c).state ≠ .sleeping then
      if (s.thread c).state ≠ .suspending then
        (s.modify c (Thread.setState .ready)).add fuel .readyThreads c false
      else (s.modify c (Thread.setState .suspended)).add fuel .suspendedThreads c false
    else some s

/-- Thread::GetNext. -/
def getNext (fuel : ℕ) (doTick : Bool) (s : Threads T) : Option (T × Threads T) := do
  let s ← s.settle fuel doTick
  let s ← s.yieldCurrent idle fuel
  some ((s.get .readyThreads).1.getD idle,(s.get .readyThreads).2)

/-- Thread::Switch. -/
def switch (t : T) (s : Threads T) : Threads T :=
  if s.currentThread = some t then s
  else { s.modify t (Thread.setState .active) with currentThread := some t }

/-- Time::Tick. -/
def tick (fuel : ℕ) (doTick : Bool) (s : Threads T) : Option (Threads T) := do
  let (t,s) ← s.getNext idle fuel doTick
  some (s.switch t)

/-- Thread::Enable. -/
def enable (fuel : ℕ) (t : T) (s : Threads T) : Option (Threads T) := do
  let s ← s.add fuel .suspendedThreads t false
  some (s.modify t (Thread.setState .suspended))

/-- Thread::Suspend. -/
def suspend (fuel : ℕ) (t : T) (s : Threads T) : Option (Threads T) :=
  let s := s.modify t Thread.dropWake
  if (s.thread t).wakeCount ≠ 0 then some s
  else if s.currentThread = some t then
    (s.modify t (Thread.setState .suspending)).tick idle fuel false
  else do
    let (found,s) ← s.removeEither fuel .readyThreads .sleepingThreads t defaultItemComparer
    if found then
      (s.modify t (Thread.setState .suspended)).add fuel .suspendedThreads t false
    else some s

/-- Thread::Resume. -/
def resume (fuel : ℕ) (t : T) (prepend : Bool) (s : Threads T) :
    Option (Bool × Threads T) := do
  let s := s.modify t Thread.countWake
  let (found,s) ← s.removeEither fuel .suspendedThreads .sleepingThreads t
    s.sleepingThreadComparer
  if found then do
    let s ← (s.modify t Thread.wake).add fuel .readyThreads t prepend
    some (true,s)
  else some (false,s)

/-- Thread::QuickResume. -/
def quickResume (fuel : ℕ) (t : T) (s : Threads T) : Option (Bool × Threads T) := do
  let (resumed,s) ← s.resume fuel t true
  if resumed then do
    let s ← s.tick idle fuel true
    some (true,s)
  else some (false,s)

/-- The three calls of Remove that take a thread out of whatever queue it is in. -/
def removeAll (fuel : ℕ) (t : T) (s : Threads T) : Option (Threads T) := do
  let (_,s) ← s.remove fuel .readyThreads t defaultItemComparer
  let (_,s) ← s.remove fuel .suspendedThreads t defaultItemComparer
  let (_,s) ← s.remove fuel .sleepingThreads t defaultItemComparer
  some s

/-- Thread::TicksSleep, up to the switch to another thread. -/
def ticksSleep (fuel : ℕ) (t : T) (ticks : ℕ) (interruptible : Bool) (s : Threads T) :
    Option (Threads T) :=
  let s := s.modify t Thread.dropWake
  if (s.thread t).wakeCount ≠ 0 then some s
  else do
    let s ← s.removeAll fuel t
    let s ← (s.modify t (Thread.sleep ticks interruptible)).add fuel .sleepingThreads t false
    if s.currentThread = some t then (s.modify t Thread.awaitResult).tick idle fuel false
    else some s

/-- Thread::Finalize behind its signal. -/
def retire (fuel : ℕ) (t : T) (s : Threads T) : Option (Threads T) := do
  let s := s.modify t (Thread.setState .finalized)
  let s ← s.removeAll fuel t
  if s.currentThread = some t then tick idle fuel false { s with currentThread := none }
  else some s

/-- Thread::Finalize. -/
def finalize (fuel : ℕ) (thread : Option T) (woken : Option T) (s : Threads T) :
    Option (Threads T) :=
  match thread.or s.currentThread with
  | none => some s
  | some t =>
    match woken with
    | none => s.retire idle fuel t
    | some w => do
      let (_,s) ← s.resume fuel w false
      s.retire idle fuel t

/-- The effect of an operation on the linked scheduler. -/
def apply (fuel : ℕ) (s : Threads T) : Op T → Option (Threads T)
  | .enable t => s.enable fuel t
  | .suspend t => s.suspend idle fuel t
  | .resume t prepend => (s.resume fuel t prepend).map Prod.snd
  | .quickResume t => (s.quickResume idle fuel t).map Prod.snd
  | .ticksSleep t ticks interruptible => s.ticksSleep idle fuel t ticks interruptible
  | .sleep t millis interruptible =>
    s.ticksSleep idle fuel t (sleepTicksOf millis) interruptible
  | .finalize thread woken => s.finalize idle fuel thread woken
  | .tick doTick => s.tick idle fuel doTick

/-- The linked scheduler after Thread::Initialize. The constructors leave Next
as they find it. -/
def boot (main idle : T) (next : Next T) : Threads T :=
  { currentThread := some main
    thread := Function.update (fun _ => Thread.new) idle (Thread.new.setState .ready)
    next := next
    first := fun _ => none }

end Threads

section Refinement

/-- The linked scheduler holds the lists of the other one. -/
structure Refines (s : Threads T) (a : Sched T) : Prop where
  /-- The same thread runs. -/
  currentThread : s.currentThread = a.currentThread
  /-- The records are the same. -/
  thread : s.thread = a.thread
  /-- The links of each queue lead through its list. -/
  links : ∀ q,Linked s.next (s.first q) (a.queue q)

/-- The number of queued threads. -/
def queuedCount (a : Sched T) : ℕ :=
  (a.queue .readyThreads).length + (a.queue .suspendedThreads).length +
    (a.queue .sleepingThreads).length

variable {s : Threads T} {a : Sched T} {bound : ℕ}

/-- Each queue is within the number of queued threads. -/
theorem length_le_queuedCount (a : Sched T) (q : Queue) :
    (a.queue q).length ≤ queuedCount a := by
  unfold queuedCount
  cases q <;> omega

theorem queuedCount_add (q : Queue) (t : T) (prepend : Bool) :
    queuedCount (a.add q t prepend) = queuedCount a + 1 := by
  have hl : (added (a.queue q) t prepend).length = (a.queue q).length + 1 := by
    cases prepend <;> simp [added]
  cases q <;> simp [queuedCount,Sched.add,hl] <;> omega

theorem queuedCount_remove {q : Queue} {t : T} (h : t ∈ a.queue q) :
    queuedCount (a.remove q t) + 1 = queuedCount a := by
  have hl := List.length_erase_of_mem h
  have hp := List.length_pos_of_mem h
  cases q <;> simp [queuedCount,Sched.remove,hl] <;> omega

theorem queuedCount_remove_le (q : Queue) (t : T) :
    queuedCount (a.remove q t) ≤ queuedCount a := by
  have hl := (List.erase_sublist (a := t) (l := a.queue q)).length_le
  cases q <;> simp [queuedCount,Sched.remove] <;> omega

/-- Records change in step. -/
theorem Refines.modify (h : Refines s a) (t : T) (f : Thread → Thread) :
    Refines (s.modify t f) (a.modify t f) := by
  refine ⟨h.currentThread,?_,h.links⟩
  simp only [Threads.modify,Sched.modify,h.thread]

/-- Add on the links is Add on the list. -/
theorem Refines.add (h : Refines s a) (ha : Apart a) {t : T} {q : Queue} (prepend : Bool)
    (ht : ∀ q,t ∉ a.queue q) (hb : queuedCount a ≤ bound) :
    ∃ s',Returns (fun fuel => s.add fuel q t prepend) bound s' ∧
      Refines s' (a.add q t prepend) := by
  obtain ⟨next',first',hr,hlink,hout⟩ := add_spec prepend (h.links q) (ha.nodup q) (ht q)
  refine ⟨{ s with next := next',first := Function.update s.first q first' },fun fuel hf => ?_,
    h.currentThread,h.thread,fun q' => ?_⟩
  · have hlen := length_le_queuedCount a q
    have hadd := hr fuel (by omega)
    simp only [Threads.add]
    rw [show ObjectQueue.add fuel s.next (s.first q) t prepend = some (next',first') from hadd]
    rfl
  · by_cases hq : q' = q
    · subst hq
      simpa [Sched.add] using hlink
    · simp only [Sched.add,Function.update_of_ne hq]
      refine (h.links q').congr fun x hx => hout x (fun hm => hq (ha.disjoint hx hm)) ?_
      rintro rfl
      exact ht q' hx

/-- Remove on the links is Remove on the list, for a thread the comparer accepts. -/
theorem Refines.remove (h : Refines s a) (ha : Apart a) (accept : T → Bool) (t : T) (q : Queue)
    (hb : queuedCount a ≤ bound) :
    ∃ s',Returns (fun fuel => s.remove fuel q t (comparerOf accept)) bound
        (decide (t ∈ a.queue q) && accept t,s') ∧
      Refines s' (if accept t then a.remove q t else a) := by
  obtain ⟨next',first',hr,hlink,hout⟩ := remove_spec accept t (h.links q) (ha.nodup q)
  refine ⟨{ s with next := next',first := Function.update s.first q first' },fun fuel hf => ?_,?_⟩
  · have hlen := length_le_queuedCount a q
    have hrem := hr fuel (by omega)
    simp only [Threads.remove]
    rw [show ObjectQueue.remove fuel s.next (s.first q) t (comparerOf accept) = _ from hrem]
    rfl
  · have hq : (if accept t then a.remove q t else a).queue =
        Function.update a.queue q (removed (a.queue q) t accept) := by
      unfold removed
      split_ifs
      · rfl
      · simp
    have hrest : (if accept t then a.remove q t else a).currentThread = a.currentThread ∧
        (if accept t then a.remove q t else a).thread = a.thread := by
      split_ifs <;> exact ⟨rfl,rfl⟩
    refine ⟨hrest.1 ▸ h.currentThread,hrest.2 ▸ h.thread,fun q' => ?_⟩
    rw [hq]
    by_cases he : q' = q
    · subst he
      simpa using hlink
    · simp only [Function.update_of_ne he]
      exact (h.links q').congr fun x hx => hout x fun hm => he (ha.disjoint hx hm)

/-- Remove with the default comparer. -/
theorem Refines.remove_default (h : Refines s a) (ha : Apart a) (t : T) (q : Queue)
    (hb : queuedCount a ≤ bound) :
    ∃ s',Returns (fun fuel => s.remove fuel q t defaultItemComparer) bound
        (decide (t ∈ a.queue q),s') ∧ Refines s' (a.remove q t) := by
  rw [defaultItemComparer_eq]
  obtain ⟨s',hr,hs⟩ := h.remove ha (fun _ => true) t q hb
  exact ⟨s',by simpa using hr,by simpa using hs⟩

/-- The first walk of GetNext has passed some of the sleeping threads. -/
def ticked (passed : List T) (a : Sched T) : Sched T :=
  { a with thread := fun t => if t ∈ passed then (a.thread t).tick else a.thread t }

/-- The walk passes one more thread. -/
theorem ticked_modify {passed : List T} {t : T} (ht : t ∉ passed) :
    (ticked passed a).modify t Thread.tick = ticked (passed ++ [t]) a := by
  have hth : Function.update (ticked passed a).thread t ((ticked passed a).thread t).tick =
      (ticked (passed ++ [t]) a).thread := by
    funext x
    by_cases hx : x = t
    · subst hx
      simp [ticked,ht]
    · simp [ticked,hx]
  unfold Sched.modify
  rw [hth]
  rfl

/-- The first walk counts every sleep down. -/
theorem tick_walk {passed rest : List T} {start : Option T}
    (hq : a.queue .sleepingThreads = passed ++ rest) (hn : (a.queue .sleepingThreads).Nodup)
    (h : Refines s (ticked passed a)) (hs : Linked s.next start rest) :
    ∃ s',(∀ fuel,rest.length ≤ fuel → forEach (fun s : Threads T => s.first .sleepingThreads)
        (fun s => s.next) Threads.tickAction fuel start s = some s') ∧
      Refines s' a.tickSleepers := by
  induction rest generalizing passed start s with
  | nil =>
    obtain rfl : start = none := hs
    refine ⟨s,fun fuel _ => by simp [forEach],?_⟩
    rw [List.append_nil] at hq
    rw [←hq] at h
    exact h
  | cons t rest ih =>
    obtain ⟨rfl,hrest⟩ := hs
    have ht : t ∉ passed := fun hm => by
      rw [hq] at hn
      exact (List.nodup_append.mp hn).2.2 t hm t (by simp) rfl
    have hstep : Refines (s.modify t Thread.tick) (ticked (passed ++ [t]) a) := by
      rw [←ticked_modify ht]
      exact h.modify t Thread.tick
    obtain ⟨s',hr,hs'⟩ := ih (by simpa using hq) hstep hrest
    refine ⟨s',fun fuel hf => ?_,hs'⟩
    obtain ⟨n,rfl⟩ : ∃ n,fuel = n+1 := ⟨fuel-1,by simp at hf; omega⟩
    simp only [forEach,Threads.tickAction,Bool.false_eq_true,if_false]
    exact hr n (by simpa using hf)

/-- The second walk of GetNext moves one thread. -/
def wakeOne (t : T) (a : Sched T) : Sched T :=
  ((a.remove .sleepingThreads t).modify t Thread.expire).add .readyThreads t false

/-- Moving a thread does not change the ticks of any. -/
theorem wakeOne_sleepTicks (t x : T) :
    ((wakeOne t a).thread x).sleepTicks = (a.thread x).sleepTicks := by
  rw [wakeOne,add_thread]
  by_cases hx : x = t
  · subst hx
    rw [modify_thread_self,Thread.expire_sleepTicks,remove_thread]
  · rw [modify_thread_ne _ _ _ hx,remove_thread]

section WakeOne

variable {passed rest : List T} {t : T}
  (hq : a.queue .sleepingThreads = passed ++ t :: rest)
  (hn : (a.queue .sleepingThreads).Nodup)
  (hp : ∀ x ∈ passed,(a.thread x).sleepTicks ≠ 0) (ht : (a.thread t).sleepTicks = 0)

include hq hn in
/-- The queue of sleeping threads without the thread that was moved. -/
theorem wakeOne_sleeping : (wakeOne t a).queue .sleepingThreads = passed ++ rest := by
  have hpass : t ∉ passed := fun hm => by
    rw [hq] at hn
    exact (List.nodup_append.mp hn).2.2 t hm t (by simp) rfl
  have hrem : (a.remove .sleepingThreads t).queue .sleepingThreads = passed ++ rest := by
    simp only [Sched.remove,Function.update_self]
    rw [hq,List.erase_append_right _ hpass,List.erase_cons_head]
  rw [←hrem]
  simp [wakeOne,Sched.add]

include hq hp ht in
/-- The thread that is moved is the first that expired. -/
theorem expired_eq_cons :
    a.expired = t :: rest.filter fun x => (a.thread x).sleepTicks = 0 := by
  have hpass : passed.filter (fun x => (a.thread x).sleepTicks = 0) = [] := by
    rw [List.filter_eq_nil_iff]
    intro x hx
    simpa using hp x hx
  rw [Sched.expired,hq,List.filter_append,hpass,List.nil_append,
    List.filter_cons_of_pos (by simpa using ht)]

include hq hn hp in
/-- The others expire as before. -/
theorem expired_wakeOne :
    (wakeOne t a).expired = rest.filter fun x => (a.thread x).sleepTicks = 0 := by
  have hpass : passed.filter (fun x => (a.thread x).sleepTicks = 0) = [] := by
    rw [List.filter_eq_nil_iff]
    intro x hx
    simpa using hp x hx
  simp only [Sched.expired,wakeOne_sleeping hq hn,wakeOne_sleepTicks]
  rw [List.filter_append,hpass,List.nil_append]

include hq hn hp ht in
/-- Moving the first expired thread leaves the same result to reach. -/
theorem wakeExpired_wakeOne : (wakeOne t a).wakeExpired = a.wakeExpired := by
  have htr : t ∉ rest := fun hm => by
    rw [hq] at hn
    exact (List.nodup_cons.mp (List.nodup_append.mp hn).2.1).1 hm
  have he := expired_eq_cons hq hp ht
  have he' := expired_wakeOne hq hn hp
  have hthread : (wakeOne t a).wakeExpired.thread = a.wakeExpired.thread := by
    funext x
    simp only [Sched.wakeExpired,he,he']
    by_cases hx : x = t
    · subst hx
      simp [htr,wakeOne]
    · have hth : (wakeOne t a).thread x = a.thread x := by
        rw [wakeOne,add_thread,modify_thread_ne _ _ _ hx,remove_thread]
      simp [hx,hth]
  have hqueue : (wakeOne t a).wakeExpired.queue = a.wakeExpired.queue := by
    funext q
    cases q with
    | readyThreads =>
      simp only [Sched.wakeExpired,he,he']
      simp [wakeOne,Sched.add,Sched.remove,added]
    | suspendedThreads => simp [Sched.wakeExpired,wakeOne,Sched.add,Sched.remove]
    | sleepingThreads =>
      simp only [Sched.wakeExpired,wakeOne_sleeping hq hn,wakeOne_sleepTicks]
      rw [hq,List.filter_append,List.filter_append,List.filter_cons_of_neg (by simpa using ht)]
  calc (wakeOne t a).wakeExpired
      = ⟨a.currentThread,(wakeOne t a).wakeExpired.thread,
          (wakeOne t a).wakeExpired.queue⟩ := rfl
    _ = ⟨a.currentThread,a.wakeExpired.thread,a.wakeExpired.queue⟩ := by rw [hthread,hqueue]

end WakeOne

/-- Moving a thread keeps the number of queued threads. -/
theorem queuedCount_wakeOne {t : T} (ht : t ∈ a.queue .sleepingThreads) :
    queuedCount (wakeOne t a) = queuedCount a := by
  have hr := queuedCount_remove ht
  have hm : queuedCount ((a.remove .sleepingThreads t).modify t Thread.expire) =
      queuedCount (a.remove .sleepingThreads t) := rfl
  rw [wakeOne,queuedCount_add,hm,hr]

/-- Moving a thread keeps the queues apart. -/
theorem Apart.wakeOne (h : Apart a) {t : T} (ht : t ∈ a.queue .sleepingThreads) :
    Apart (wakeOne t a) := by
  have hr := h.remove t .sleepingThreads
  have hm : Apart ((a.remove .sleepingThreads t).modify t Thread.expire) :=
    ⟨hr.nodup,hr.disjoint⟩
  exact hm.add false (h.not_mem_remove ht)

/-- The action of the second walk on a thread whose sleep is over. -/
theorem Refines.wakeAction (h : Refines s a) (ha : Apart a) {t : T}
    (ht : t ∈ a.queue .sleepingThreads) (hz : (a.thread t).sleepTicks = 0)
    (hb : queuedCount a ≤ bound) :
    ∃ s',Returns (fun fuel => Threads.wakeAction fuel t s) bound (true,s') ∧
      Refines s' (wakeOne t a) := by
  obtain ⟨s₁,hr₁,hs₁⟩ := h.remove_default ha t .sleepingThreads hb
  have hrem := queuedCount_remove ht
  have ha₁ := ha.remove t .sleepingThreads
  have hm₁ : Apart ((a.remove .sleepingThreads t).modify t Thread.expire) :=
    ⟨ha₁.nodup,ha₁.disjoint⟩
  have hb₁ : queuedCount ((a.remove .sleepingThreads t).modify t Thread.expire) ≤ bound := by
    change queuedCount (a.remove .sleepingThreads t) ≤ bound
    omega
  obtain ⟨s₂,hr₂,hs₂⟩ := (hs₁.modify t Thread.expire).add hm₁ false
    (ha.not_mem_remove ht) hb₁
  refine ⟨s₂,?_,hs₂⟩
  have hz' : (s.thread t).sleepTicks = 0 := by rw [h.thread,hz]
  simp only [Threads.wakeAction,if_pos hz']
  exact hr₁.bind (hr₂.bind (returns_some _ _))

/-- Nothing is left to move when every sleep goes on. -/
theorem wakeExpired_eq_self (h : ∀ t ∈ a.queue .sleepingThreads,(a.thread t).sleepTicks ≠ 0) :
    a.wakeExpired = a := by
  have he : a.expired = [] := by
    rw [Sched.expired,List.filter_eq_nil_iff]
    intro t ht
    simpa using h t ht
  have hf : (a.queue .sleepingThreads).filter (fun t => (a.thread t).sleepTicks ≠ 0) =
      a.queue .sleepingThreads := by
    rw [List.filter_eq_self]
    intro t ht
    simpa using h t ht
  have hthread : a.wakeExpired.thread = a.thread := by
    funext t
    simp [Sched.wakeExpired,he]
  have hqueue : a.wakeExpired.queue = a.queue := by
    funext q
    cases q with
    | readyThreads => simp [Sched.wakeExpired,he]
    | suspendedThreads => rfl
    | sleepingThreads => exact hf
  calc a.wakeExpired
      = ⟨a.currentThread,a.wakeExpired.thread,a.wakeExpired.queue⟩ := rfl
    _ = a := by rw [hthread,hqueue]

/-- The second walk, which starts again after every thread it moves, ends
within the square of the number of sleeping threads. -/
theorem wake_walk {steps : ℕ} {passed rest : List T} {start : Option T} (h : Refines s a)
    (ha : Apart a) (hq : a.queue .sleepingThreads = passed ++ rest)
    (hp : ∀ x ∈ passed,(a.thread x).sleepTicks ≠ 0) (hs : Linked s.next start rest)
    (hb : queuedCount a ≤ bound)
    (hm : (passed.length + rest.length) * (passed.length + rest.length) + rest.length ≤ steps) :
    ∃ s',(∀ fuel fuel',bound ≤ fuel → steps ≤ fuel' →
        forEach (fun s : Threads T => s.first .sleepingThreads) (fun s => s.next)
          (Threads.wakeAction fuel) fuel' start s = some s') ∧
      Refines s' a.wakeExpired := by
  induction steps generalizing s a passed rest start with
  | zero =>
    obtain rfl : rest = [] := List.length_eq_zero_iff.mp (by omega)
    obtain rfl : start = none := hs
    refine ⟨s,fun fuel fuel' _ _ => by simp [forEach],?_⟩
    rw [wakeExpired_eq_self (by simpa [hq] using hp)]
    exact h
  | succ steps ih =>
    cases rest with
    | nil =>
      obtain rfl : start = none := hs
      refine ⟨s,fun fuel fuel' _ _ => by simp [forEach],?_⟩
      rw [wakeExpired_eq_self (by simpa [hq] using hp)]
      exact h
    | cons t rest =>
      obtain ⟨rfl,hrest⟩ := hs
      have ht : t ∈ a.queue .sleepingThreads := by simp [hq]
      simp only [List.length_cons] at hm
      by_cases hz : (a.thread t).sleepTicks = 0
      · obtain ⟨s₁,hr₁,hs₁⟩ := h.wakeAction ha ht hz hb
        have hn := ha.nodup .sleepingThreads
        have hq₁ : (wakeOne t a).queue .sleepingThreads = [] ++ (passed ++ rest) := by
          rw [List.nil_append,wakeOne_sleeping hq hn]
        have hlink : Linked s₁.next (s₁.first .sleepingThreads) (passed ++ rest) := by
          have hl := hs₁.links .sleepingThreads
          rw [hq₁] at hl
          exact hl
        have hm₁ : (([] : List T).length + (passed ++ rest).length) *
            (([] : List T).length + (passed ++ rest).length) + (passed ++ rest).length ≤ steps := by
          simp only [List.length_nil,List.length_append]
          nlinarith
        obtain ⟨s₂,hr₂,hs₂⟩ := ih hs₁ (ha.wakeOne ht) hq₁ (by simp) hlink
          (by rw [queuedCount_wakeOne ht]; exact hb) hm₁
        rw [wakeExpired_wakeOne hq hn hp hz] at hs₂
        refine ⟨s₂,fun fuel fuel' hf hf' => ?_,hs₂⟩
        obtain ⟨n,rfl⟩ : ∃ n,fuel' = n+1 := ⟨fuel'-1,by omega⟩
        have hact : Threads.wakeAction fuel t s = some (true,s₁) := hr₁ fuel hf
        simp only [forEach,hact,if_true]
        exact hr₂ fuel n hf (by omega)
      · have hp₁ : ∀ x ∈ passed ++ [t],(a.thread x).sleepTicks ≠ 0 := by
          intro x hx
          rcases List.mem_append.mp hx with hx | hx
          · exact hp x hx
          · rw [List.mem_singleton.mp hx]
            exact hz
        have hm₁ : ((passed ++ [t]).length + rest.length) * ((passed ++ [t]).length + rest.length) +
            rest.length ≤ steps := by
          simp only [List.length_append,List.length_singleton]
          rw [show passed.length + 1 + rest.length = passed.length + (rest.length + 1) by omega]
          omega
        obtain ⟨s₂,hr₂,hs₂⟩ := ih h ha (by simpa using hq) hp₁ hrest hb hm₁
        refine ⟨s₂,fun fuel fuel' hf hf' => ?_,hs₂⟩
        obtain ⟨n,rfl⟩ : ∃ n,fuel' = n+1 := ⟨fuel'-1,by omega⟩
        have hz' : ¬(s.thread t).sleepTicks = 0 := by rwa [h.thread]
        have hact : Threads.wakeAction fuel t s = some (false,s) := by
          simp [Threads.wakeAction,hz']
        simp only [forEach,hact,Bool.false_eq_true,if_false]
        exact hr₂ fuel n hf (by omega)

/-- The fuel GetNext needs with a number of queued threads. -/
def fuelFor (count : ℕ) : ℕ := (count + 1) * (count + 1)

theorem fuelFor_mono {m n : ℕ} (h : m ≤ n) : fuelFor m ≤ fuelFor n :=
  Nat.mul_le_mul (by omega) (by omega)

theorem le_fuelFor (n : ℕ) : n + 1 ≤ fuelFor n := by
  unfold fuelFor
  nlinarith

/-- Both walks of GetNext over the links settle the sleeping threads. -/
theorem Refines.settle (h : Refines s a) (ha : Apart a) (doTick : Bool)
    (hb : fuelFor (queuedCount a) ≤ bound) :
    ∃ s',Returns (fun fuel => s.settle fuel doTick) bound s' ∧
      Refines s' (settle doTick a) := by
  have hwake {s : Threads T} {a' : Sched T} (h : Refines s a') (hq : a'.queue = a.queue) :
      ∃ s',Returns (fun fuel => s.forEachSleeping fuel (Threads.wakeAction fuel)) bound s' ∧
        Refines s' a'.wakeExpired := by
    have hcount : queuedCount a' = queuedCount a := by rw [queuedCount,queuedCount,hq]
    have hlen := length_le_queuedCount a' .sleepingThreads
    have hle := le_fuelFor (queuedCount a)
    have ha' : Apart a' := by
      refine ⟨?_,?_⟩
      · rw [hq]
        exact ha.nodup
      · rw [hq]
        exact ha.disjoint
    have hm : (([] : List T).length + (a'.queue .sleepingThreads).length) *
        (([] : List T).length + (a'.queue .sleepingThreads).length) +
          (a'.queue .sleepingThreads).length ≤ bound := by
      refine le_trans ?_ hb
      rw [←hcount]
      unfold fuelFor
      simp only [List.length_nil]
      nlinarith
    have hqueue : a'.queue .sleepingThreads = [] ++ a'.queue .sleepingThreads := rfl
    have hbound : queuedCount a' ≤ bound := by omega
    obtain ⟨s',hr,hs⟩ := wake_walk h ha' hqueue (by simp) (h.links _) hbound hm
    exact ⟨s',fun fuel hf => hr fuel fuel hf hf,hs⟩
  cases doTick with
  | false =>
    obtain ⟨s',hr,hs⟩ := hwake h rfl
    exact ⟨s',(returns_some _ _).bind hr,hs⟩
  | true =>
    have h₀ : Refines s (ticked [] a) := ⟨h.currentThread,by simpa [ticked] using h.thread,h.links⟩
    have hqueue : a.queue .sleepingThreads = [] ++ a.queue .sleepingThreads := rfl
    obtain ⟨s₁,hr₁,hs₁⟩ := tick_walk hqueue (ha.nodup _) h₀ (h.links _)
    obtain ⟨s₂,hr₂,hs₂⟩ := hwake hs₁ rfl
    have hlen := length_le_queuedCount a .sleepingThreads
    have hle := le_fuelFor (queuedCount a)
    exact ⟨s₂,Returns.bind (fun fuel hf => hr₁ fuel (by omega)) hr₂,hs₂⟩

/-- Settling the sleeping threads moves threads but keeps their number. -/
theorem queuedCount_settle (doTick : Bool) (a : Sched T) :
    queuedCount (settle doTick a) = queuedCount a := by
  have hw (a : Sched T) : queuedCount a.wakeExpired = queuedCount a := by
    have hlen := List.length_eq_length_filter_add (l := a.queue .sleepingThreads)
      fun t => decide ((a.thread t).sleepTicks = 0)
    simp only [queuedCount,Sched.wakeExpired,Sched.expired,List.length_append,ne_eq,decide_not]
    omega
  cases doTick with
  | false => exact hw a
  | true => exact hw a.tickSleepers

variable {idle : T} {live : List T}

/-- A current thread that GetNext queues is in no queue yet. -/
theorem yielding_free {doTick : Bool} (hq : Queued idle live a)
    (hy : Yielding idle live doTick a) {c : T} (hc : a.currentThread = some c) (hi : c ≠ idle)
    (hs : ((settle doTick a).thread c).state ≠ .sleeping) (q : Queue) :
    c ∉ (settle doTick a).queue q := by
  rcases hy c hc with rfl | ⟨-,hout,-⟩ | ⟨rfl,hsl⟩
  · exact absurd rfl hi
  · intro hm
    obtain ⟨q',hq'⟩ := (queued_settle doTick).mp ⟨q,hm⟩
    exact hout q' hq'
  · obtain ⟨-,hth⟩ := settle_sleeping hq hsl
    have hst : Queue.Holds .sleepingThreads _ := hq.state hsl
    rw [hth] at hs
    exact absurd hst.1 hs

/-- GetNext puts the current thread behind the links of its queue. -/
theorem Refines.yieldCurrent (h : Refines s a) (ha : Apart a)
    (hfree : ∀ c,a.currentThread = some c → c ≠ idle → (a.thread c).state ≠ .sleeping →
      ∀ q,c ∉ a.queue q) (hb : queuedCount a ≤ bound) :
    ∃ s',Returns (fun fuel => s.yieldCurrent idle fuel) bound s' ∧
      Refines s' (a.yieldCurrent idle) := by
  unfold Threads.yieldCurrent Sched.yieldCurrent
  rw [h.currentThread,h.thread]
  cases hc : a.currentThread with
  | none => exact ⟨s,returns_some _ _,h⟩
  | some c =>
    dsimp only
    by_cases hcond : c ≠ idle ∧ (a.thread c).state ≠ .sleeping
    · have hout := hfree c hc hcond.1 hcond.2
      simp only [if_pos hcond]
      by_cases hsus : (a.thread c).state ≠ .suspending
      · simp only [if_pos hsus]
        exact (h.modify c _).add ⟨ha.nodup,ha.disjoint⟩ false hout hb
      · simp only [if_neg hsus]
        exact (h.modify c _).add ⟨ha.nodup,ha.disjoint⟩ false hout hb
    · simp only [if_neg hcond]
      exact ⟨s,returns_some _ _,h⟩

/-- Get on the links takes the first thread of the list. -/
theorem Refines.takeReady (h : Refines s a) (ha : Apart a) :
    (s.get .readyThreads).1.getD idle = (a.takeReady idle).1 ∧
      Refines (s.get .readyThreads).2 (a.takeReady idle).2 := by
  have hlink := h.links .readyThreads
  cases hq : a.queue .readyThreads with
  | nil =>
    rw [hq] at hlink
    have hg := get_nil hlink
    have hnone : s.first .readyThreads = none := hlink
    have ht : a.takeReady idle = (idle,a) := by simp [Sched.takeReady,hq]
    rw [ht]
    refine ⟨by simp [Threads.get,hg],h.currentThread,h.thread,fun q => ?_⟩
    simp only [Threads.get,hg,←hnone,Function.update_eq_self]
    exact h.links q
  | cons t rest =>
    rw [hq] at hlink
    have hn : (t :: rest).Nodup := hq ▸ ha.nodup .readyThreads
    obtain ⟨next',first',hg,hrest,hout⟩ := get_cons hlink hn
    have ht : a.takeReady idle = (t,a.remove .readyThreads t) := by simp [Sched.takeReady,hq]
    rw [ht]
    refine ⟨by simp [Threads.get,hg],h.currentThread,h.thread,fun q => ?_⟩
    simp only [Threads.get,hg]
    by_cases he : q = .readyThreads
    · subst he
      simpa [Sched.remove,hq] using hrest
    · simp only [Sched.remove,Function.update_of_ne he]
      refine (h.links q).congr fun x hx => hout x fun hm => he ?_
      exact ha.disjoint hx (hq ▸ hm)

/-- Switch needs no loop. -/
theorem Refines.switch (h : Refines s a) (t : T) : Refines (s.switch t) (a.switch t) := by
  unfold Threads.switch Sched.switch
  rw [h.currentThread]
  split_ifs
  · exact h
  · have hm := h.modify t (Thread.setState .active)
    exact ⟨rfl,hm.thread,hm.links⟩

/-- A tick on the links is a tick on the lists. -/
theorem Refines.tick {doTick : Bool} (h : Refines s a) (hsw : Switchable idle live doTick a)
    (hb : fuelFor (queuedCount a) ≤ bound) :
    ∃ s',Returns (fun fuel => s.tick idle fuel doTick) bound s' ∧
      Refines s' (a.tick idle doTick) := by
  have hq := hsw.queued
  obtain ⟨s₁,hr₁,hs₁⟩ := h.settle hq.toApart doTick hb
  have hsq := settle_queued doTick hq
  have hle := le_fuelFor (queuedCount a)
  have hcount := queuedCount_settle doTick a
  have hb₁ : queuedCount (Scheduler.settle doTick a) ≤ bound := by omega
  have hfree : ∀ c,(Scheduler.settle doTick a).currentThread = some c → c ≠ idle →
      ((Scheduler.settle doTick a).thread c).state ≠ .sleeping →
        ∀ q,c ∉ (Scheduler.settle doTick a).queue q := by
    intro c hc hi hst
    rw [settle_currentThread] at hc
    exact yielding_free hq hsw.yielding hc hi hst
  obtain ⟨s₂,hr₂,hs₂⟩ := hs₁.yieldCurrent hsq.toApart hfree hb₁
  obtain ⟨hyq,-,-⟩ := yieldCurrent_queued hsw
  obtain ⟨hval,hs₃⟩ := @Refines.takeReady T _ _ _ idle hs₂ hyq.toApart
  refine ⟨(s₂.get .readyThreads).2.switch (a.getNext idle doTick).1,?_,hs₃.switch _⟩
  rw [show (a.getNext idle doTick).1 = (s₂.get .readyThreads).1.getD idle from hval.symm]
  have hnext : Returns (fun fuel => s.getNext idle fuel doTick) bound
      ((s₂.get .readyThreads).1.getD idle,(s₂.get .readyThreads).2) :=
    hr₁.bind (hr₂.bind (returns_some _ _))
  exact hnext.bind fun _ _ => rfl

/-- Nothing changes when the thread is not in the queue. -/
theorem remove_eq_self {q : Queue} {t : T} (h : t ∉ a.queue q) : a.remove q t = a := by
  simp [Sched.remove,List.erase_of_not_mem h]

/-- Remove from one queue or else from another. -/
theorem Refines.removeEither (h : Refines s a) (ha : Apart a) (q q' : Queue) (t : T)
    (accept : T → Bool) (hb : queuedCount a ≤ bound) :
    ∃ s',Returns (fun fuel => s.removeEither fuel q q' t (comparerOf accept)) bound
        (decide (t ∈ a.queue q ∨ t ∈ a.queue q' ∧ accept t = true),s') ∧
      Refines s' (if t ∈ a.queue q then a.remove q t
        else if accept t = true then a.remove q' t else a) := by
  obtain ⟨s₁,hr₁,hs₁⟩ := h.remove_default ha t q hb
  by_cases hq : t ∈ a.queue q
  · refine ⟨s₁,fun fuel hf => ?_,by rwa [if_pos hq]⟩
    have h₁ : s.remove fuel q t defaultItemComparer = _ := hr₁ fuel hf
    simp only [Threads.removeEither,h₁,hq,decide_true,true_or]
  · rw [remove_eq_self hq] at hs₁
    obtain ⟨s₂,hr₂,hs₂⟩ := hs₁.remove ha accept t q' hb
    refine ⟨s₂,fun fuel hf => ?_,by rwa [if_neg hq]⟩
    have h₁ : s.remove fuel q t defaultItemComparer = _ := hr₁ fuel hf
    have h₂ : s₁.remove fuel q' t (comparerOf accept) = _ := hr₂ fuel hf
    simp only [Threads.removeEither,h₁,hq,decide_false,h₂,false_or,Bool.decide_and,
      Bool.decide_eq_true]

/-- A thread taken out of one queue goes into another. -/
theorem Refines.move {q : Queue} {t : T} (h : Refines s (a.remove q t)) (ha : Apart a)
    (f : Thread → Thread) (q' : Queue) (prepend : Bool) (ht : t ∈ a.queue q) (hb : queuedCount a ≤ bound) :
    ∃ s',Returns (fun fuel => (s.modify t f).add fuel q' t prepend) bound s' ∧
      Refines s' (((a.remove q t).modify t f).add q' t prepend) := by
  have hr := ha.remove t q
  have hle : queuedCount ((a.remove q t).modify t f) ≤ bound :=
    le_trans (queuedCount_remove_le q t) hb
  exact (h.modify t f).add ⟨hr.nodup,hr.disjoint⟩ prepend (ha.not_mem_remove ht) hle

/-- Enable on the links. -/
theorem Refines.enable (h : Refines s a) (ha : Apart a) {t : T} (ht : ∀ q,t ∉ a.queue q)
    (hb : queuedCount a ≤ bound) :
    ∃ s',Returns (fun fuel => s.enable fuel t) bound s' ∧ Refines s' (a.enable t) := by
  obtain ⟨s₁,hr₁,hs₁⟩ := h.add ha (q := .suspendedThreads) false ht hb
  exact ⟨_,hr₁.bind (returns_some _ _),hs₁.modify t _⟩

/-- Resume on the links. -/
theorem Refines.resume (h : Refines s a) (ha : Apart a) (t : T) (prepend : Bool)
    (hb : queuedCount a ≤ bound) :
    ∃ s',Returns (fun fuel => s.resume fuel t prepend) bound ((a.resume t prepend).1,s') ∧
      Refines s' (a.resume t prepend).2 := by
  have hm := h.modify t Thread.countWake
  have ha' : Apart (a.modify t Thread.countWake) := ⟨ha.nodup,ha.disjoint⟩
  have hb' : queuedCount (a.modify t Thread.countWake) ≤ bound := hb
  unfold Threads.resume Sched.resume
  generalize s.modify t Thread.countWake = s₀ at hm ⊢
  generalize a.modify t Thread.countWake = a₀ at hm ha' hb' ⊢
  have hcmp : s₀.sleepingThreadComparer = comparerOf fun x => (a₀.thread x).interruptibleSleep := by
    funext x y
    rw [Threads.sleepingThreadComparer,hm.thread,comparerOf]
  obtain ⟨s₁,hr₁,hs₁⟩ := hm.removeEither ha' .suspendedThreads .sleepingThreads t
    (fun x => (a₀.thread x).interruptibleSleep) hb'
  rw [←hcmp] at hr₁
  dsimp only
  by_cases hsus : t ∈ a₀.queue .suspendedThreads
  · rw [if_pos hsus] at hs₁ ⊢
    obtain ⟨s₂,hr₂,hs₂⟩ := hs₁.move ha' Thread.wake .readyThreads
      prepend hsus hb'
    refine ⟨s₂,hr₁.bind ?_,hs₂⟩
    simp only [hsus,true_or,decide_true,if_true]
    exact hr₂.bind (returns_some _ _)
  · rw [if_neg hsus] at hs₁ ⊢
    by_cases hsl : t ∈ a₀.queue .sleepingThreads ∧ (a₀.thread t).interruptibleSleep = true
    · rw [if_pos hsl.2] at hs₁
      rw [if_pos hsl]
      obtain ⟨s₂,hr₂,hs₂⟩ := hs₁.move ha' Thread.wake .readyThreads
        prepend hsl.1 hb'
      refine ⟨s₂,hr₁.bind ?_,hs₂⟩
      simp only [hsl,and_self,or_true,decide_true,if_true]
      exact hr₂.bind (returns_some _ _)
    · have hsame : Refines s₁ a₀ := by
        split_ifs at hs₁ with hacc
        · have hout : t ∉ a₀.queue .sleepingThreads := fun hmem => hsl ⟨hmem,hacc⟩
          rwa [remove_eq_self hout] at hs₁
        · exact hs₁
      rw [if_neg hsl]
      refine ⟨s₁,hr₁.bind ?_,hsame⟩
      simp only [hsus,hsl,or_self,decide_false,Bool.false_eq_true,if_false]
      exact returns_some _ _

/-- Removing from all queues on the links. -/
theorem Refines.removeAll (h : Refines s a) (ha : Apart a) (t : T) (hb : queuedCount a ≤ bound) :
    ∃ s',Returns (fun fuel => s.removeAll fuel t) bound s' ∧
      Refines s' (((a.remove .readyThreads t).remove .suspendedThreads t).remove
        .sleepingThreads t) := by
  have ha₁ := ha.remove t .readyThreads
  have hb₁ := le_trans (queuedCount_remove_le .readyThreads t) hb
  have hb₂ := le_trans (queuedCount_remove_le .suspendedThreads t) hb₁
  obtain ⟨s₁,hr₁,hs₁⟩ := h.remove_default ha t .readyThreads hb
  obtain ⟨s₂,hr₂,hs₂⟩ := hs₁.remove_default ha₁ t .suspendedThreads hb₁
  obtain ⟨s₃,hr₃,hs₃⟩ := hs₂.remove_default (ha₁.remove t _) t .sleepingThreads hb₂
  exact ⟨s₃,hr₁.bind (hr₂.bind (hr₃.bind (returns_some _ _))),hs₃⟩

/-- Suspend on the links. -/
theorem Refines.suspend (h : Refines s a) (hp : Partition idle live a) {t : T} (ht : t ∈ live)
    (hb : fuelFor (queuedCount a) ≤ bound) :
    ∃ s',Returns (fun fuel => s.suspend idle fuel t) bound s' ∧
      Refines s' (a.suspend idle t) := by
  have hm := h.modify t Thread.dropWake
  have hk : Partition idle live (a.modify t Thread.dropWake) :=
    hp.modify_keep Thread.dropWake_state Thread.dropWake_sleepTicks
  have hb' : fuelFor (queuedCount (a.modify t Thread.dropWake)) ≤ bound := hb
  unfold Threads.suspend Sched.suspend
  generalize s.modify t Thread.dropWake = s₀ at hm ⊢
  generalize a.modify t Thread.dropWake = a₀ at hm hk hb' ⊢
  have hle := le_fuelFor (queuedCount a₀)
  have hb₀ : queuedCount a₀ ≤ bound := by omega
  have ha := hk.queued.toApart
  dsimp only
  rw [hm.thread,hm.currentThread]
  split_ifs with hw hc hr hsl
  · exact ⟨s₀,returns_some _ _,hm⟩
  · exact (hm.modify t _).tick (hk.suspending ht hc) hb'
  all_goals
    obtain ⟨s₁,hr₁,hs₁⟩ := hm.removeEither ha .readyThreads .sleepingThreads t (fun _ => true) hb₀
    rw [←defaultItemComparer_eq] at hr₁
  · rw [if_pos hr] at hs₁
    obtain ⟨s₂,hr₂,hs₂⟩ := hs₁.move ha (Thread.setState .suspended) .suspendedThreads
      false hr hb₀
    refine ⟨s₂,hr₁.bind ?_,hs₂⟩
    simpa only [hr,true_or,decide_true,if_true] using hr₂
  · rw [if_neg hr,if_pos rfl] at hs₁
    obtain ⟨s₂,hr₂,hs₂⟩ := hs₁.move ha (Thread.setState .suspended) .suspendedThreads
      false hsl hb₀
    refine ⟨s₂,hr₁.bind ?_,hs₂⟩
    simpa only [hsl,and_self,or_true,decide_true,if_true] using hr₂
  · rw [if_neg hr,if_pos rfl,remove_eq_self hsl] at hs₁
    refine ⟨s₁,hr₁.bind ?_,hs₁⟩
    simp only [hr,hsl,false_and,or_self,decide_false,Bool.false_eq_true,if_false]
    exact returns_some _ _

/-- Resume puts back what it takes out. -/
theorem queuedCount_resume (t : T) (prepend : Bool) :
    queuedCount (a.resume t prepend).2 = queuedCount a := by
  have hm (f : Thread → Thread) (a : Sched T) : queuedCount (a.modify t f) = queuedCount a := rfl
  unfold Sched.resume
  dsimp only
  split_ifs with hsus hsl
  · rw [queuedCount_add,hm,queuedCount_remove hsus,hm]
  · rw [queuedCount_add,hm,queuedCount_remove hsl.1,hm]
  · exact hm _ _

/-- QuickResume on the links. -/
theorem Refines.quickResume (h : Refines s a) (hp : Partition idle live a) (t : T)
    (hb : fuelFor (queuedCount a) ≤ bound) :
    ∃ s',Returns (fun fuel => s.quickResume idle fuel t) bound
        ((a.quickResume idle t).1,s') ∧ Refines s' (a.quickResume idle t).2 := by
  have hle := le_fuelFor (queuedCount a)
  obtain ⟨s₁,hr₁,hs₁⟩ := h.resume hp.queued.toApart t true
    (show queuedCount a ≤ bound by omega)
  unfold Sched.quickResume
  split_ifs with hres
  · have hcount : fuelFor (queuedCount (a.resume t true).2) ≤ bound := by
      rwa [queuedCount_resume]
    obtain ⟨s₂,hr₂,hs₂⟩ := hs₁.tick ((hp.resume t true).switchable true) hcount
    refine ⟨s₂,hr₁.bind ?_,hs₂⟩
    simp only [hres,if_true]
    exact hr₂.bind (returns_some _ _)
  · refine ⟨s₁,hr₁.bind ?_,hs₁⟩
    simp only [hres,Bool.false_eq_true,if_false]
    exact returns_some _ _

/-- TicksSleep on the links. -/
theorem Refines.ticksSleep (h : Refines s a) (hp : Partition idle live a) {t : T} {ticks : ℕ}
    (interruptible : Bool) (ht : t ∈ live) (hlow : 1 ≤ ticks) (hhigh : ticks < 2 ^ 31)
    (hb : fuelFor (queuedCount a + 1) ≤ bound) :
    ∃ s',Returns (fun fuel => s.ticksSleep idle fuel t ticks interruptible) bound s' ∧
      Refines s' (a.ticksSleep idle t ticks interruptible) := by
  have hm := h.modify t Thread.dropWake
  have hk : Partition idle live (a.modify t Thread.dropWake) :=
    hp.modify_keep Thread.dropWake_state Thread.dropWake_sleepTicks
  have hb' : fuelFor (queuedCount (a.modify t Thread.dropWake) + 1) ≤ bound := hb
  unfold Threads.ticksSleep Sched.ticksSleep
  generalize s.modify t Thread.dropWake = s₀ at hm ⊢
  generalize a.modify t Thread.dropWake = a₀ at hm hk hb' ⊢
  have hle := le_fuelFor (queuedCount a₀ + 1)
  have ha := hk.queued.toApart
  dsimp only
  rw [hm.thread]
  by_cases hw : (a₀.thread t).wakeCount ≠ 0
  · simp only [if_pos hw]
    exact ⟨s₀,returns_some _ _,hm⟩
  · simp only [if_neg hw]
    obtain ⟨s₁,hr₁,hs₁⟩ := hm.removeAll ha t (show queuedCount a₀ ≤ bound by omega)
    have hall := hk.queued.removeAll t
    have hcount : queuedCount (((a₀.remove .readyThreads t).remove .suspendedThreads t).remove
        .sleepingThreads t) ≤ queuedCount a₀ :=
      le_trans (queuedCount_remove_le ..) (le_trans (queuedCount_remove_le ..)
        (queuedCount_remove_le ..))
    have hout : ∀ q,t ∉ (((a₀.remove .readyThreads t).remove .suspendedThreads t).remove
        .sleepingThreads t).queue q := fun q hmem => ((mem_removeAll ha.nodup).mp hmem).2 rfl
    obtain ⟨s₂,hr₂,hs₂⟩ := (hs₁.modify t (Thread.sleep ticks interruptible)).add
      ⟨hall.nodup,hall.disjoint⟩ (q := .sleepingThreads) false hout
      (show _ ≤ bound from le_trans hcount (by omega))
    have hcur : s₂.currentThread = a₀.currentThread := hs₂.currentThread
    by_cases hc : a₀.currentThread = some t
    · have hfall : fuelFor (queuedCount ((fallAsleep t ticks interruptible a₀).modify t
          Thread.awaitResult)) ≤ bound := by
        have hadd : queuedCount (fallAsleep t ticks interruptible a₀) ≤ queuedCount a₀ + 1 := by
          rw [fallAsleep,queuedCount_add]
          exact Nat.succ_le_succ hcount
        exact le_trans (fuelFor_mono hadd) hb'
      obtain ⟨s₃,hr₃,hs₃⟩ := (hs₂.modify t Thread.awaitResult).tick
        (hk.asleep interruptible ht hlow hhigh hc) hfall
      refine ⟨s₃,hr₁.bind (hr₂.bind ?_),?_⟩
      · simpa only [hcur,if_pos hc] using hr₃
      · split_ifs with hc'
        · exact hs₃
        · exact absurd hc hc'
    · refine ⟨s₂,hr₁.bind (hr₂.bind ?_),?_⟩
      · simp only [hcur,if_neg hc]
        exact returns_some _ _
      · split_ifs with hc'
        · exact absurd hc' hc
        · exact hs₂

/-- The end of Finalize on the links. -/
theorem Refines.retire (h : Refines s a) (hp : Partition idle live a) (hn : live.Nodup) (t : T)
    (hb : fuelFor (queuedCount a) ≤ bound) :
    ∃ s',Returns (fun fuel => s.retire idle fuel t) bound s' ∧ Refines s' (a.retire idle t) := by
  have hm := h.modify t (Thread.setState .finalized)
  have ha : Apart (a.modify t (Thread.setState .finalized)) :=
    ⟨hp.queued.nodup,hp.queued.disjoint⟩
  have hle := le_fuelFor (queuedCount a)
  have hb₀ : queuedCount (a.modify t (Thread.setState .finalized)) ≤ bound := by
    change queuedCount a ≤ bound
    omega
  obtain ⟨s₁,hr₁,hs₁⟩ := hm.removeAll ha t hb₀
  have hcur : s₁.currentThread = a.currentThread := hs₁.currentThread
  unfold Threads.retire Sched.retire
  dsimp only
  by_cases hc : a.currentThread = some t
  · have hcount : queuedCount ((((a.modify t (Thread.setState .finalized)).remove
        .readyThreads t).remove .suspendedThreads t).remove .sleepingThreads t) ≤ queuedCount a :=
      le_trans (queuedCount_remove_le ..) (le_trans (queuedCount_remove_le ..)
        (queuedCount_remove_le ..))
    have hnone : Refines { s₁ with currentThread := none }
        { (((a.modify t (Thread.setState .finalized)).remove .readyThreads t).remove
          .suspendedThreads t).remove .sleepingThreads t with currentThread := none } :=
      ⟨rfl,hs₁.thread,hs₁.links⟩
    obtain ⟨s₂,hr₂,hs₂⟩ := hnone.tick (hp.retired hn hc) (le_trans (fuelFor_mono hcount) hb)
    refine ⟨s₂,hr₁.bind ?_,?_⟩
    · simpa only [hcur,if_pos hc] using hr₂
    · split_ifs with hc'
      · exact hs₂
      · exact absurd hc hc'
  · refine ⟨s₁,hr₁.bind ?_,?_⟩
    · simp only [hcur,if_neg hc]
      exact returns_some _ _
    · split_ifs with hc'
      · exact absurd hc' hc
      · exact hs₁

/-- Finalize on the links. -/
theorem Refines.finalize (h : Refines s a) (hp : Partition idle live a) (hn : live.Nodup)
    (thread woken : Option T) (hb : fuelFor (queuedCount a) ≤ bound) :
    ∃ s',Returns (fun fuel => s.finalize idle fuel thread woken) bound s' ∧
      Refines s' (a.finalize idle thread woken) := by
  unfold Threads.finalize Sched.finalize
  rw [h.currentThread]
  cases thread.or a.currentThread with
  | none => exact ⟨s,returns_some _ _,h⟩
  | some t =>
    cases woken with
    | none => exact h.retire hp hn t hb
    | some w =>
      have hle := le_fuelFor (queuedCount a)
      obtain ⟨s₁,hr₁,hs₁⟩ := h.resume hp.queued.toApart w false
        (show queuedCount a ≤ bound by omega)
      have hcount : fuelFor (queuedCount (a.resume w false).2) ≤ bound := by
        rwa [queuedCount_resume]
      obtain ⟨s₂,hr₂,hs₂⟩ := hs₁.retire (hp.resume w false) hn t hcount
      exact ⟨s₂,hr₁.bind hr₂,hs₂⟩

/-- Every operation of a legal run returns on the links, with the result it
has on the lists. -/
theorem Refines.apply {g : Census T} {op : Op T} (h : Refines s a) (ho : Ordered idle g a)
    (hl : op.Legal a.currentThread g) :
    ∃ s',Returns (fun fuel => s.apply idle fuel op) (fuelFor (queuedCount a + 1)) s' ∧
      Refines s' (a.apply idle op) := by
  obtain ⟨hp,hs,hi,hn⟩ := ho
  have ha := hp.queued.toApart
  have hmono : fuelFor (queuedCount a) ≤ fuelFor (queuedCount a + 1) := fuelFor_mono (by omega)
  have hle : queuedCount a ≤ fuelFor (queuedCount a + 1) := by
    have hf := le_fuelFor (queuedCount a + 1)
    omega
  cases op with
  | enable t =>
    have hout : ∀ q,t ∉ a.queue q := fun q hm => hl (hs t (hp.queued.mem_live hm))
    exact h.enable ha hout hle
  | suspend t => exact h.suspend hp hl hmono
  | resume t prepend =>
    obtain ⟨s',hr,hs'⟩ := h.resume ha t prepend hle
    refine ⟨s',fun fuel hf => ?_,hs'⟩
    have hres : s.resume fuel t prepend = _ := hr fuel hf
    simp only [Threads.apply,hres,Option.map_some]
  | quickResume t =>
    obtain ⟨s',hr,hs'⟩ := h.quickResume hp t hmono
    refine ⟨s',fun fuel hf => ?_,hs'⟩
    have hres : s.quickResume idle fuel t = _ := hr fuel hf
    simp only [Threads.apply,hres,Option.map_some]
  | ticksSleep t ticks interruptible =>
    obtain ⟨ht,hlow,hhigh⟩ := hl
    exact h.ticksSleep hp interruptible ht hlow hhigh le_rfl
  | sleep t millis interruptible =>
    obtain ⟨ht,hm⟩ := hl
    obtain ⟨hlow,hhigh⟩ := sleepTicksOf_range hm
    exact h.ticksSleep hp interruptible ht hlow hhigh le_rfl
  | finalize thread woken => exact h.finalize hp hn thread woken hmono
  | tick doTick => exact h.tick (hp.switchable doTick) hmono

end Refinement

section Runs

variable (main idle : T) (next : Next T)

/-- The states a kernel can reach: each operation is legal and returns. -/
inductive Reachable : Threads T → Census T → Prop where
  /-- The state after Thread::Initialize. -/
  | boot : Reachable (Threads.boot main idle next) (Census.boot main idle)
  /-- The state after one more operation. -/
  | step {s s' : Threads T} {g : Census T} {op : Op T} {bound : ℕ} (h : Reachable s g)
      (legal : op.Legal s.currentThread g)
      (returns : Returns (fun fuel => s.apply idle fuel op) bound s') :
      Reachable s' (op.census s.currentThread g)

/-- A queue is acyclic and holds the threads of a list, each once. -/
def Holds (s : Threads T) (q : Queue) (l : List T) : Prop :=
  Linked s.next (s.first q) l ∧ l.Nodup

/-- The places a thread can have, as a number: one for each of the current
thread and the queues that have it. -/
def placeCount (s : Threads T) (lists : Queue → List T) (t : T) : ℕ :=
  (if s.currentThread = some t then 1 else 0) +
    (lists .readyThreads).count t + (lists .suspendedThreads).count t +
      (lists .sleepingThreads).count t

/-- The scheduler is in order: its queues are acyclic and free of duplicates,
every live thread has exactly one place, the idle thread is in no queue, and
the states of suspended and sleeping threads fit their queues. -/
def PartitionRight (s : Threads T) (g : Census T) : Prop :=
  ∃ lists : Queue → List T,(∀ q,Holds s q (lists q)) ∧
    (∀ t ∈ g.live,t ≠ idle → placeCount s lists t = 1) ∧
    (∀ q,idle ∉ lists q) ∧
    (∀ t ∈ lists .suspendedThreads,(s.thread t).state = .suspended) ∧
    ∀ t ∈ lists .sleepingThreads,(s.thread t).state = .sleeping ∧ 0 < (s.thread t).sleepTicks

variable {main idle next}

/-- Every reachable state refines an ordered one. -/
theorem Reachable.refines {s : Threads T} {g : Census T} (hne : main ≠ idle)
    (h : Reachable main idle next s g) : ∃ a,Refines s a ∧ Ordered idle g a := by
  induction h with
  | boot => exact ⟨Sched.boot main idle,⟨rfl,rfl,fun _ => rfl⟩,ordered_boot hne⟩
  | step h legal returns ih =>
    obtain ⟨a,ha,ho⟩ := ih
    rw [ha.currentThread] at legal ⊢
    obtain ⟨s'',hr,hs''⟩ := ha.apply ho legal
    have he := returns.unique hr
    subst he
    exact ⟨a.apply idle _,hs'',ho.apply legal⟩

/-- An ordered scheduler is in order on the links as well. -/
theorem partitionRight_of_refines {s : Threads T} {g : Census T} {a : Sched T}
    (h : Refines s a) (ho : Ordered idle g a) : PartitionRight idle s g := by
  obtain ⟨hq,hcur,hplaced⟩ := ho.partition
  refine ⟨a.queue,fun q => ⟨h.links q,hq.nodup q⟩,fun t ht _ => ?_,hq.idle_not_mem,?_,?_⟩
  · have hcount (q : Queue) : (a.queue q).count t = if t ∈ a.queue q then 1 else 0 := by
      split_ifs with hm
      · exact List.count_eq_one_of_mem (hq.nodup q) hm
      · exact List.count_eq_zero_of_not_mem hm
    have hsingle {q q' : Queue} (hm : t ∈ a.queue q) (hqq : q' ≠ q) : t ∉ a.queue q' :=
      fun hm' => hqq (hq.disjoint hm' hm)
    simp only [placeCount,h.currentThread,hcount]
    rcases hplaced t ht with hc | ⟨q,hm⟩
    · have hout := ho.partition.current_out hc
      simp [hc,hout]
    · have hnc : a.currentThread ≠ some t := fun hc => ho.partition.current_out hc q hm
      cases q with
      | readyThreads => simp [hnc,hm,hsingle hm]
      | suspendedThreads => simp [hnc,hm,hsingle hm]
      | sleepingThreads => simp [hnc,hm,hsingle hm]
  · intro t ht
    rw [h.thread]
    exact hq.state ht
  · intro t ht
    rw [h.thread]
    exact hq.state ht

/-- In every run of legal operations, the queues stay acyclic and every live
thread keeps exactly one place; and from every state reached each legal
operation returns, so that no run stops in a loop. -/
theorem scheduler_partition {s : Threads T} {g : Census T} (hne : main ≠ idle)
    (h : Reachable main idle next s g) :
    PartitionRight idle s g ∧
      ∀ op : Op T,op.Legal s.currentThread g →
        ∃ bound s',Returns (fun fuel => s.apply idle fuel op) bound s' := by
  obtain ⟨a,ha,ho⟩ := h.refines hne
  refine ⟨partitionRight_of_refines ha ho,fun op hl => ?_⟩
  rw [ha.currentThread] at hl
  obtain ⟨s',hr,-⟩ := ha.apply ho hl
  exact ⟨_,s',hr⟩

/-- After the first thread has enabled another one, both have one place. -/
theorem scheduler_partition_enabled :
    ∃ s : Threads ℕ,Reachable 0 1 (fun _ => none) s ⟨[2,0,1],[2,0]⟩ ∧
      PartitionRight 1 s ⟨[2,0,1],[2,0]⟩ := by
  obtain ⟨bound,s,hr⟩ :=
    (scheduler_partition (by decide) (@Reachable.boot ℕ _ 0 1 fun _ => none)).2
      (.enable 2) (by decide)
  have hs := Reachable.step Reachable.boot (by decide) hr
  exact ⟨s,hs,(scheduler_partition (by decide) hs).1⟩

end Runs

end WootOs.Scheduler
