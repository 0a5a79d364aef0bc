import WootOs.FinalizedThreads

/-!
# Lifetimes of threads

A process refers to a thread from its list of threads and from its handle
table, and the scheduler from its queues. NewThread enters a thread into the
list and gives it a handle. Close finalizes the thread of a handle and deletes
it, and NewThread deletes its thread again when no handle is free. Finalize
takes the thread out of the queues; only RemoveThread takes it out of the list.

So no reference dangles as long as each thread that is deleted was removed
from its list before. A thread that closes its own handle is not deleted, since
Finalize does not return to it.
-/

namespace WootOs.ThreadLifetimes

open Runs Scheduler Sched FinalizedThreads

set_option linter.unusedSectionVars false

/-- The threads and what refers to them. -/
structure Kernel (P T : Type*) where
  /-- The scheduler. -/
  sched : Sched T
  /-- The threads there have been, for the scheduler. -/
  census : Census T
  /-- Process::Threads of each process. -/
  threads : P → List T
  /-- The thread that each handle of a process names. -/
  handles : P → ℕ → Option T
  /-- The threads that have been constructed. -/
  created : T → Bool
  /-- The threads that have been deleted. -/
  deleted : T → Bool

/-- What happens to threads. An operation carries the outcome of the lock of the process,
and the thread that each Finalize resumes. -/
inductive Op (P T : Type*) where
  /-- Process::NewThread, with the handle that is free, if there is one. -/
  | newThread (p : P) (t : T) (slot : Option ℕ) (locked : Bool)
  /-- Process::Close and Process::DeleteThread of a thread handle. -/
  | close (p : P) (handle : ℕ) (woken : Option T) (locked : Bool)
  /-- Process::AbortThread. -/
  | abortThread (p : P) (handle : ℕ) (woken : Option T) (locked : Bool)
  /-- Process::AddThread. -/
  | addThread (p : P) (t : T) (locked : Bool)
  /-- Process::RemoveThread. -/
  | removeThread (p : P) (t : T) (locked : Bool)
  /-- Process::Finalize. -/
  | finalizeProcess (p : P) (woken : T → Option T)
  /-- An operation of the scheduler. -/
  | op (op : Scheduler.Op T)

variable {P T : Type*} [DecidableEq P] [DecidableEq T]

namespace Kernel

variable (idle : T) (k : Kernel P T)

/-- An operation of the scheduler. -/
def schedule (op : Scheduler.Op T) : Kernel P T :=
  { k with
    sched := k.sched.apply idle op
    census := op.census k.sched.currentThread k.census }

/-- Thread::Finalize. -/
def finalize (t : T) (woken : Option T) : Kernel P T := k.schedule idle (.finalize (some t) woken)

/-- Process::AddThread. -/
def addThread (p : P) (t : T) : Kernel P T :=
  { k with threads := Function.update k.threads p (k.threads p ++ [t]) }

/-- Process::RemoveThread. -/
def removeThread (p : P) (t : T) : Kernel P T :=
  { k with threads := Function.update k.threads p ((k.threads p).erase t) }

/-- The handle table after a change of one slot. -/
def setHandle (p : P) (handle : ℕ) (t : Option T) : Kernel P T :=
  { k with handles := Function.update k.handles p (Function.update (k.handles p) handle t) }

/-- The operator delete. -/
def delete (t : T) : Kernel P T := { k with deleted := Function.update k.deleted t true }

/-- The constructor of a thread of a process. -/
def construct (p : P) (t : T) : Kernel P T :=
  { k with created := Function.update k.created t true }.addThread p t

/-- Process::NewThread, once the lock is held. -/
def newThread (p : P) (t : T) : Option ℕ → Kernel P T
  | some handle => ((k.construct p t).setHandle p handle (some t)).schedule idle (.enable t)
  | none => (k.construct p t).delete t

/-- Process::Close of a thread handle, once the lock is held. -/
def close (p : P) (handle : ℕ) (woken : Option T) : Kernel P T :=
  match k.handles p handle with
  | some t =>
    if k.sched.currentThread = some t then (k.setHandle p handle none).finalize idle t woken
    else ((k.setHandle p handle none).finalize idle t woken).delete t
  | none => k

/-- Process::AbortThread, once the lock is held. -/
def abortThread (p : P) (handle : ℕ) (woken : Option T) : Kernel P T :=
  match k.handles p handle with
  | some t => k.finalize idle t woken
  | none => k

/-- The loop of Process::Finalize leaves out the thread that runs it. -/
def finalizeThreads (current : Option T) (woken : T → Option T) (threads : List T) : Kernel P T :=
  threads.foldl (fun k t => if some t = current then k else k.finalize idle t (woken t)) k

/-- Process::Finalize. -/
def finalizeProcess (p : P) (woken : T → Option T) : Kernel P T :=
  let k' := k.finalizeThreads idle k.sched.currentThread woken (k.threads p)
  match k.sched.currentThread with
  | some c => if c ∈ k.threads p then k'.finalize idle c (woken c) else k'
  | none => k'

/-- The effect of an operation. -/
def apply : Op P T → Kernel P T
  | .newThread p t slot locked => if locked then k.newThread idle p t slot else k
  | .close p handle woken locked => if locked then k.close idle p handle woken else k
  | .abortThread p handle woken locked => if locked then k.abortThread idle p handle woken else k
  | .addThread p t locked => if locked then k.addThread p t else k
  | .removeThread p t locked => if locked then k.removeThread p t else k
  | .finalizeProcess p woken => k.finalizeProcess idle p woken
  | .op op => k.schedule idle op

/-- The operations there can be. A new thread is a new object at a free handle, and
AddThread and Enable get a thread that is there. A sleep is that of a thread that is
not finalized. -/
def Enabled : Op P T → Prop
  | .newThread p t slot _ =>
    k.created t = false ∧ ∀ handle,slot = some handle → k.handles p handle = none
  | .addThread _ t _ => k.created t = true ∧ k.deleted t = false
  | .op op =>
    Allowed idle k.sched.currentThread k.census op ∧ Wakeful k.census k.sched op ∧
      ∀ t,op = .enable t → k.created t = true ∧ k.deleted t = false
  | _ => True

/-- Every reference to a thread is to one that has not been deleted. -/
structure NoDangling : Prop where
  /-- In the lists of the processes. -/
  threads : ∀ p t,t ∈ k.threads p → k.deleted t = false
  /-- In the queues of the scheduler. -/
  queues : ∀ q t,t ∈ k.sched.queue q → k.deleted t = false
  /-- In the handles. -/
  handles : ∀ p handle t,k.handles p handle = some t → k.deleted t = false

/-- An operation deletes no thread that is in the list of a process. -/
def RemovesFirst : Op P T → Prop
  | .newThread _ _ slot locked => locked = true → slot ≠ none
  | .close p handle _ locked =>
    locked = true → ∀ t,k.handles p handle = some t →
      k.sched.currentThread = some t ∨ ∀ p',t ∉ k.threads p'
  | _ => True

/-- The kernel after Process::Initialize, with the first thread and the idle thread in the
list of the kernel process. -/
def boot (kernelProc : P) (main : T) : Kernel P T :=
  { sched := Sched.boot main idle
    census := Census.boot main idle
    threads := Function.update (fun _ => []) kernelProc [main,idle]
    handles := fun _ _ => none
    created := fun t => decide (t = main ∨ t = idle)
    deleted := fun _ => false }

end Kernel

section Steps

variable {idle : T} {k : Kernel P T}

/-- What every operation keeps that deletes no thread in a list. -/
structure Sound (idle : T) (k : Kernel P T) : Prop where
  /-- The scheduler is in order. -/
  ordered : Ordered idle k.census k.sched
  /-- The threads in the lists have not been deleted. -/
  threads : ∀ p t,t ∈ k.threads p → k.created t = true ∧ k.deleted t = false
  /-- The threads the scheduler knows have been constructed. -/
  seen : ∀ t ∈ k.census.seen,k.created t = true
  /-- Those that are not finalized have not been deleted. -/
  live : ∀ t ∈ k.census.live,k.deleted t = false
  /-- The threads of the handles have not been deleted. -/
  handles : ∀ p handle t,k.handles p handle = some t → k.created t = true ∧ k.deleted t = false
  /-- No thread has two handles. -/
  unique : ∀ p handle p' handle' t,k.handles p handle = some t → k.handles p' handle' = some t →
    p = p' ∧ handle = handle'
  /-- Only threads that were constructed are deleted. -/
  deleted : ∀ t,k.deleted t = true → k.created t = true

theorem Sound.noDangling (h : Sound idle k) : k.NoDangling :=
  ⟨fun p t ht => (h.threads p t ht).2,
    fun _ t ht => h.live t (h.ordered.partition.queued.mem_live ht),
    fun p handle t ht => (h.handles p handle t ht).2⟩

theorem sound_boot {kernelProc : P} {main : T} (hmain : main ≠ idle) :
    Sound idle (Kernel.boot idle kernelProc main) := by
  refine ⟨ordered_boot hmain,fun p t ht => ⟨?_,rfl⟩,fun t ht => ?_,fun _ _ => rfl,nofun,nofun,nofun⟩
  · by_cases hp : p = kernelProc
    · subst hp
      simpa [Kernel.boot] using ht
    · simp [Kernel.boot,Function.update_of_ne hp] at ht
  · simpa [Kernel.boot,Census.boot] using ht

/-- An operation of the scheduler enters no thread but the one it enables. -/
theorem live_census {op : Scheduler.Op T} {current : Option T} {g : Census T} {x : T}
    (hx : x ∈ (op.census current g).live) : x ∈ g.live ∨ op = .enable x := by
  cases op with
  | enable t =>
    rcases List.mem_cons.mp hx with rfl | hx
    · exact .inr rfl
    · exact .inl hx
  | finalize thread woken =>
    cases hthread : thread.or current with
    | none =>
      simp only [Op.census,hthread] at hx
      exact .inl hx
    | some t =>
      simp only [Op.census,hthread] at hx
      exact .inl (List.mem_of_mem_erase hx)
  | suspend t => exact .inl hx
  | resume t prepend => exact .inl hx
  | quickResume t => exact .inl hx
  | ticksSleep t ticks interruptible => exact .inl hx
  | sleep t millis interruptible => exact .inl hx
  | tick doTick => exact .inl hx

/-- Likewise for the threads there have been. -/
theorem seen_of_census {op : Scheduler.Op T} {current : Option T} {g : Census T} {x : T}
    (hx : x ∈ (op.census current g).seen) : x ∈ g.seen ∨ op = .enable x := by
  cases op with
  | enable t =>
    rcases List.mem_cons.mp hx with rfl | hx
    · exact .inr rfl
    · exact .inl hx
  | finalize thread woken =>
    cases hthread : thread.or current with
    | none =>
      simp only [Op.census,hthread] at hx
      exact .inl hx
    | some t =>
      simp only [Op.census,hthread] at hx
      exact .inl hx
  | suspend t => exact .inl hx
  | resume t prepend => exact .inl hx
  | quickResume t => exact .inl hx
  | ticksSleep t ticks interruptible => exact .inl hx
  | sleep t millis interruptible => exact .inl hx
  | tick doTick => exact .inl hx

/-- An operation of the scheduler that keeps it in order. -/
theorem Sound.schedule (h : Sound idle k) {op : Scheduler.Op T}
    (hord : Ordered idle (op.census k.sched.currentThread k.census) (k.sched.apply idle op))
    (hnew : ∀ t,op = .enable t → k.created t = true ∧ k.deleted t = false) :
    Sound idle (k.schedule idle op) := by
  refine ⟨hord,h.threads,fun t ht => ?_,fun t ht => ?_,h.handles,h.unique,h.deleted⟩
  · rcases seen_of_census ht with hs | he
    · exact h.seen t hs
    · exact (hnew t he).1
  · rcases live_census ht with hs | he
    · exact h.live t hs
    · exact (hnew t he).2

theorem Sound.finalize (h : Sound idle k) (t : T) (woken : Option T) :
    Sound idle (k.finalize idle t woken) := by
  have hord : Ordered idle ⟨k.census.seen,k.census.live.erase t⟩
      (k.sched.finalize idle (some t) woken) := ordered_finalize h.ordered rfl
  exact h.schedule hord nofun

/-- A finalized thread is not among those that are live. -/
theorem Sound.not_live_finalize (h : Sound idle k) (t : T) (woken : Option T) :
    t ∉ (k.finalize idle t woken).census.live :=
  fun hm => (h.ordered.nodup.mem_erase_iff.mp hm).1 rfl

/-- A handle table that only loses a handle. -/
theorem Sound.closeHandle (h : Sound idle k) (p : P) (handle : ℕ) :
    Sound idle (k.setHandle p handle none) := by
  have hsub : ∀ p' handle' t,(k.setHandle p handle none).handles p' handle' = some t →
      k.handles p' handle' = some t := by
    intro p' handle' t ht
    by_cases hp : p' = p
    · subst hp
      by_cases hh : handle' = handle
      · simp [Kernel.setHandle,hh] at ht
      · simpa [Kernel.setHandle,hh] using ht
    · simpa [Kernel.setHandle,hp] using ht
  exact ⟨h.ordered,h.threads,h.seen,h.live,fun p' handle' t ht => h.handles p' handle' t (hsub _ _ _ ht),
    fun p' handle' p'' handle'' t ht ht' => h.unique _ _ _ _ t (hsub _ _ _ ht) (hsub _ _ _ ht'),
    h.deleted⟩

/-- A thread that nothing refers to is deleted. -/
theorem Sound.delete (h : Sound idle k) {t : T} (hcreated : k.created t = true)
    (hthreads : ∀ p,t ∉ k.threads p) (hlive : t ∉ k.census.live)
    (hhandles : ∀ p handle,k.handles p handle ≠ some t) : Sound idle (k.delete t) := by
  have hother : ∀ x,x ≠ t → k.deleted x = false → (k.delete t).deleted x = false := by
    intro x hx hd
    simpa [Kernel.delete,hx] using hd
  refine ⟨h.ordered,fun p x hx => ?_,h.seen,fun x hx => ?_,fun p handle x hx => ?_,h.unique,
    fun x hx => ?_⟩
  · obtain ⟨hc,hd⟩ := h.threads p x hx
    exact ⟨hc,hother x (fun he => hthreads p (he ▸ hx)) hd⟩
  · exact hother x (fun he => hlive (he ▸ hx)) (h.live x hx)
  · obtain ⟨hc,hd⟩ := h.handles p handle x hx
    exact ⟨hc,hother x (fun he => hhandles p handle (he ▸ hx)) hd⟩
  · by_cases hxt : x = t
    · rw [hxt]
      exact hcreated
    · exact h.deleted x (by simpa [Kernel.delete,hxt] using hx)

/-- A thread that is there enters the list of a process. -/
theorem Sound.addThread (h : Sound idle k) {t : T} (p : P) (hc : k.created t = true)
    (hd : k.deleted t = false) : Sound idle (k.addThread p t) := by
  refine ⟨h.ordered,fun p' x hx => ?_,h.seen,h.live,h.handles,h.unique,h.deleted⟩
  by_cases hp : p' = p
  · subst hp
    simp only [Kernel.addThread,Function.update_self,List.mem_append,List.mem_singleton] at hx
    rcases hx with hx | rfl
    · exact h.threads p' x hx
    · exact ⟨hc,hd⟩
  · simp only [Kernel.addThread,Function.update_of_ne hp] at hx
    exact h.threads p' x hx

theorem Sound.removeThread (h : Sound idle k) (p : P) (t : T) : Sound idle (k.removeThread p t) := by
  refine ⟨h.ordered,fun p' x hx => ?_,h.seen,h.live,h.handles,h.unique,h.deleted⟩
  by_cases hp : p' = p
  · subst hp
    simp only [Kernel.removeThread,Function.update_self] at hx
    exact h.threads p' x (List.mem_of_mem_erase hx)
  · simp only [Kernel.removeThread,Function.update_of_ne hp] at hx
    exact h.threads p' x hx

/-- A thread that has not been constructed has not been deleted. -/
theorem Sound.not_deleted (h : Sound idle k) {t : T} (hnew : k.created t = false) :
    k.deleted t = false := by
  by_contra hd
  rw [h.deleted t (by simpa using hd)] at hnew
  cases hnew

/-- A new thread in the list of its process. -/
theorem Sound.construct (h : Sound idle k) {t : T} (p : P) (hnew : k.created t = false) :
    Sound idle (k.construct p t) := by
  have hmono : ∀ x,k.created x = true → Function.update k.created t true x = true := by
    intro x hx
    by_cases hxt : x = t
    · simp [hxt]
    · simpa [hxt] using hx
  have hdeleted := h.not_deleted hnew
  have hbase : Sound idle { k with created := Function.update k.created t true } :=
    ⟨h.ordered,fun p x hx => ⟨hmono x (h.threads p x hx).1,(h.threads p x hx).2⟩,
      fun x hx => hmono x (h.seen x hx),h.live,
      fun p handle x hx => ⟨hmono x (h.handles p handle x hx).1,(h.handles p handle x hx).2⟩,h.unique,
      fun x hx => hmono x (h.deleted x hx)⟩
  exact hbase.addThread p (Function.update_self ..) hdeleted

/-- A new handle, for a thread that had none. -/
theorem Sound.openHandle (h : Sound idle k) {p : P} {handle : ℕ} {t : T} (hc : k.created t = true)
    (hd : k.deleted t = false) (hnone : ∀ p' handle',k.handles p' handle' ≠ some t) :
    Sound idle (k.setHandle p handle (some t)) := by
  have hcases : ∀ p' handle' x,(k.setHandle p handle (some t)).handles p' handle' = some x →
      (p' = p ∧ handle' = handle ∧ x = t) ∨ k.handles p' handle' = some x := by
    intro p' handle' x hx
    by_cases hp : p' = p
    · subst hp
      by_cases hh : handle' = handle
      · subst hh
        exact .inl ⟨rfl,rfl,by simpa [Kernel.setHandle,eq_comm] using hx⟩
      · exact .inr (by simpa [Kernel.setHandle,hh] using hx)
    · exact .inr (by simpa [Kernel.setHandle,hp] using hx)
  refine ⟨h.ordered,h.threads,h.seen,h.live,fun p' handle' x hx => ?_,
    fun p' handle' p'' handle'' x hx hx' => ?_,h.deleted⟩
  · rcases hcases p' handle' x hx with ⟨-,-,rfl⟩ | hx
    · exact ⟨hc,hd⟩
    · exact h.handles p' handle' x hx
  · rcases hcases p' handle' x hx with ⟨rfl,rfl,rfl⟩ | hx
    · rcases hcases p'' handle'' x hx' with ⟨rfl,rfl,-⟩ | hx'
      · exact ⟨rfl,rfl⟩
      · exact absurd hx' (hnone p'' handle'')
    · rcases hcases p'' handle'' x hx' with ⟨-,-,ht⟩ | hx'
      · exact absurd (ht ▸ hx) (hnone p' handle')
      · exact h.unique p' handle' p'' handle'' x hx hx'

/-- A thread of no handle, list or queue before it is constructed. -/
theorem Sound.not_handle (h : Sound idle k) {t : T} (hnew : k.created t = false) (p : P)
    (handle : ℕ) : k.handles p handle ≠ some t := by
  intro ht
  rw [(h.handles p handle t ht).1] at hnew
  cases hnew

/-- NewThread when a handle is free. -/
theorem Sound.newThread (h : Sound idle k) {t : T} (p : P) (handle : ℕ)
    (hnew : k.created t = false) : Sound idle (k.newThread idle p t (some handle)) := by
  have hcreated : (k.construct p t).created t = true := Function.update_self ..
  have hdeleted : (k.construct p t).deleted t = false := h.not_deleted hnew
  have hopen : Sound idle ((k.construct p t).setHandle p handle (some t)) :=
    (h.construct p hnew).openHandle hcreated hdeleted (h.not_handle hnew)
  have hseen : t ∉ k.census.seen := by
    intro hs
    rw [h.seen t hs] at hnew
    cases hnew
  refine hopen.schedule (h.ordered.apply hseen) ?_
  rintro x ⟨⟩
  exact ⟨hcreated,hdeleted⟩

/-- Close of the handle of a thread that is in no list. -/
theorem Sound.close (h : Sound idle k) {p : P} {handle : ℕ} {woken : Option T}
    (hr : ∀ t,k.handles p handle = some t → k.sched.currentThread = some t ∨ ∀ p',t ∉ k.threads p') :
    Sound idle (k.close idle p handle woken) := by
  unfold Kernel.close
  cases ht : k.handles p handle with
  | none => exact h
  | some t =>
    have hclosed := (h.closeHandle p handle).finalize t woken
    by_cases hc : k.sched.currentThread = some t
    · simp only [if_pos hc]
      exact hclosed
    · simp only [if_neg hc]
      refine hclosed.delete (h.handles p handle t ht).1 ((hr t ht).resolve_left hc)
        ((h.closeHandle p handle).not_live_finalize t woken) fun p' handle' hp' => ?_
      have hother : (k.setHandle p handle none).handles p' handle' = some t := hp'
      by_cases hp : p' = p
      · subst hp
        by_cases hh : handle' = handle
        · simp [Kernel.setHandle,hh] at hother
        · have hk : k.handles p' handle' = some t := by simpa [Kernel.setHandle,hh] using hother
          exact hh (h.unique _ _ _ _ t hk ht).2
      · have hk : k.handles p' handle' = some t := by simpa [Kernel.setHandle,hp] using hother
        exact hp (h.unique _ _ _ _ t hk ht).1

theorem Sound.abortThread (h : Sound idle k) (p : P) (handle : ℕ) (woken : Option T) :
    Sound idle (k.abortThread idle p handle woken) := by
  unfold Kernel.abortThread
  cases k.handles p handle with
  | none => exact h
  | some t => exact h.finalize t woken

/-- The loop of Process::Finalize. -/
theorem Sound.finalizeThreads (h : Sound idle k) (current : Option T) (woken : T → Option T)
    (threads : List T) : Sound idle (k.finalizeThreads idle current woken threads) := by
  unfold Kernel.finalizeThreads
  induction threads generalizing k with
  | nil => exact h
  | cons t threads ih =>
    rw [List.foldl_cons]
    by_cases ht : some t = current
    · rw [if_pos ht]
      exact ih h
    · rw [if_neg ht]
      exact ih (h.finalize t (woken t))

theorem Sound.finalizeProcess (h : Sound idle k) (p : P) (woken : T → Option T) :
    Sound idle (k.finalizeProcess idle p woken) := by
  have hloop := h.finalizeThreads k.sched.currentThread woken (k.threads p)
  unfold Kernel.finalizeProcess
  cases hc : k.sched.currentThread with
  | none =>
    rw [hc] at hloop
    exact hloop
  | some c =>
    rw [hc] at hloop
    simp only
    split_ifs
    · exact hloop.finalize c (woken c)
    · exact hloop

/-- An operation that deletes no thread in a list leaves no reference dangling. -/
theorem Sound.apply (h : Sound idle k) {op : Op P T} (he : k.Enabled idle op)
    (hr : k.RemovesFirst op) : Sound idle (k.apply idle op) := by
  cases op with
  | newThread p t slot locked =>
    cases locked with
    | false => exact h
    | true =>
      cases slot with
      | none => exact absurd rfl (hr rfl)
      | some handle => exact h.newThread p handle he.1
  | close p handle woken locked =>
    cases locked with
    | false => exact h
    | true => exact h.close (hr rfl)
  | abortThread p handle woken locked =>
    cases locked with
    | false => exact h
    | true => exact h.abortThread p handle woken
  | addThread p t locked =>
    cases locked with
    | false => exact h
    | true => exact h.addThread p he.1 he.2
  | removeThread p t locked =>
    cases locked with
    | false => exact h
    | true => exact h.removeThread p t
  | finalizeProcess p woken => exact h.finalizeProcess p woken
  | op op => exact h.schedule (ordered_apply h.ordered he.1 he.2.1) he.2.2

/-- An operation that deletes a thread in a list leaves it there. -/
theorem not_noDangling {op : Op P T} (hr : ¬k.RemovesFirst op) :
    ¬(k.apply idle op).NoDangling := by
  intro hno
  cases op with
  | newThread p t slot locked =>
    obtain ⟨rfl,hslot⟩ := Classical.not_imp.mp hr
    obtain rfl := Classical.not_not.mp hslot
    have hin : t ∈ (k.apply idle (.newThread p t none true)).threads p := by
      simp [Kernel.apply,Kernel.newThread,Kernel.construct,Kernel.addThread,Kernel.delete]
    have hgone : (k.apply idle (.newThread p t none true)).deleted t = true := by
      simp [Kernel.apply,Kernel.newThread,Kernel.delete]
    rw [hno.threads p t hin] at hgone
    cases hgone
  | close p handle woken locked =>
    obtain ⟨rfl,hclose⟩ := Classical.not_imp.mp hr
    push Not at hclose
    obtain ⟨t,ht,hc,p',hp'⟩ := hclose
    have heq : k.apply idle (.close p handle woken true) =
        ((k.setHandle p handle none).finalize idle t woken).delete t := by
      simp only [Kernel.apply,if_true,Kernel.close,ht,if_neg hc]
    rw [heq] at hno
    have hgone : (((k.setHandle p handle none).finalize idle t woken).delete t).deleted t = true :=
      Function.update_self ..
    rw [hno.threads p' t hp'] at hgone
    cases hgone
  | abortThread p handle woken locked => exact hr trivial
  | addThread p t locked => exact hr trivial
  | removeThread p t locked => exact hr trivial
  | finalizeProcess p woken => exact hr trivial
  | op op => exact hr trivial

end Steps

/-- In every state of a run no reference to a thread dangles, if and only if each thread
that is deleted is in the list of no process: every NewThread that holds the lock finds a
free handle, and every Close of a thread handle is of a thread that was removed before, or
of the thread that runs. -/
theorem noDangling_iff {kernelProc : P} {main idle : T} (hmain : main ≠ idle) (ops : List (Op P T))
    (he : RunMeets (Kernel.apply idle) (Kernel.Enabled idle) (Kernel.boot idle kernelProc main) ops) :
    (∀ n,((ops.take n).foldl (Kernel.apply idle) (Kernel.boot idle kernelProc main)).NoDangling) ↔
      RunMeets (Kernel.apply idle) Kernel.RemovesFirst (Kernel.boot idle kernelProc main) ops :=
  RunMeets.always_iff (fun _ h => h.noDangling) (fun _ _ h hen hr => h.apply hen hr)
    (fun _ _ _ _ hr => not_noDangling hr) (sound_boot hmain) he

/-- A thread that is removed from its list before its handle is closed. -/
def removedRun : List (Op ℕ ℕ) :=
  [.newThread 0 2 (some 3) true,.removeThread 0 2 true,.close 0 3 none true]

theorem noDangling_iff_removedRun :
    ((removedRun.take 3).foldl (Kernel.apply 1) (Kernel.boot 1 0 0)).NoDangling := by
  refine (noDangling_iff (by decide) removedRun ⟨⟨by decide,fun _ _ => rfl⟩,trivial,trivial,
    trivial⟩).mpr ⟨fun _ => by decide,trivial,fun _ t ht => .inr fun p hp => ?_,trivial⟩ 3
  obtain rfl : 2 = t := Option.some.inj ht
  by_cases h0 : p = 0
  · subst h0
    exact absurd hp (by decide)
  · simp [Kernel.apply,Kernel.newThread,Kernel.construct,Kernel.addThread,Kernel.removeThread,
      Kernel.setHandle,Kernel.schedule,Kernel.boot,h0] at hp

/-- A thread whose handle is closed. -/
def closedRun : List (Op ℕ ℕ) := [.newThread 0 2 (some 3) true,.close 0 3 none true]

theorem closedRun_dangling :
    RunMeets (Kernel.apply 1) (Kernel.Enabled 1) (Kernel.boot 1 0 0 : Kernel ℕ ℕ) closedRun ∧
      ¬(closedRun.foldl (Kernel.apply 1) (Kernel.boot 1 0 0)).NoDangling := by
  constructor
  · exact ⟨⟨by decide,fun _ _ => rfl⟩,trivial,trivial⟩
  · intro h
    exact absurd (h.threads 0 2 (by decide)) (by decide)

end WootOs.ThreadLifetimes
