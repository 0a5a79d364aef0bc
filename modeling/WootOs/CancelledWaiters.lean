import WootOs.Mutex

/-!
# Cancelled waiters

Thread::Finalize takes a thread out of the mutex it waits for: Cancel blanks
its entries in the ring of waiters, and Release skips the blanks. ReplaceAll
goes from the slot of the next read to the slot of the next write, which are
one slot when the ring is full. So in a full ring nothing is blanked, and a
later Release hands the mutex to the finalized thread.

Below the capacity the entries are gone, and they stay away as long as the
thread does not call Acquire again.
-/

namespace WootOs.CancelledWaiters

open Runs RingQueue WaitQueue Mutex

set_option linter.unusedSectionVars false

variable {T : Type*} [DecidableEq T]

/-- An operation is not a call of Acquire by a thread. -/
def StaysAway (t : T) (m : Sys T) : Op T → Prop
  | .acquire _ _ => m.sched.currentThread ≠ some t
  | _ => True

/-- An operation is not a Release that makes a thread the owner. -/
def NotHanded (idle t : T) (m : Sys T) (op : Op T) : Prop :=
  op = .release → m.owner ≠ some t → (m.apply idle op).owner ≠ some t

/-- What cancelling the wait of a thread is for. -/
structure Cancelled (idle : T) (m : Sys T) (t : T) : Prop where
  /-- The thread is not in the queue any more. -/
  gone : some t ∉ (m.apply idle (.cancel t)).waiters.toList
  /-- The other threads are in it as before, in the same order. -/
  order : (threads (m.apply idle (.cancel t)).waiters.toList).filter (· ≠ t) =
    (threads m.waiters.toList).filter (· ≠ t)
  /-- No later Release makes the thread the owner. -/
  never : ∀ ops,RunMeets (Sys.apply idle) (StaysAway t) (m.apply idle (.cancel t)) ops →
    RunMeets (Sys.apply idle) (NotHanded idle t) (m.apply idle (.cancel t)) ops

section Steps

variable {idle t : T} {m : Sys T}

/-- Write adds no other thread. -/
theorem mem_of_mem_write {r : BoundedQueue (Option T)} {c : T} (hc : c ≠ t)
    (h : some t ∈ (r.write (some c)).2.toList) : some t ∈ r.toList := by
  cases hf : r.full with
  | true =>
    rw [r.write_full (some c) hf] at h
    exact h
  | false =>
    rw [r.toList_write (some c) hf,List.mem_append,List.mem_singleton] at h
    exact h.resolve_right fun he => hc (Option.some.inj he).symm

/-- The first thread of a list is in it. -/
theorem mem_of_firstThread {l : List (Option T)} (h : (firstThread l).1 = some t) :
    some t ∈ l := by
  have hsplit := threads_firstThread l
  rw [h] at hsplit
  exact mem_threads.mp (hsplit ▸ List.mem_cons_self ..)

/-- Release hands the mutex to a thread from the queue, and puts none into it. -/
theorem release_away {c : T} (h : some t ∉ m.waiters.toList) :
    some t ∉ (m.release idle c).waiters.toList ∧
      (m.owner ≠ some t → (m.release idle c).owner ≠ some t) := by
  unfold Sys.release
  by_cases hown : m.owner ≠ some c
  · rw [if_pos hown]
    exact ⟨h,id⟩
  · rw [if_neg hown]
    generalize (if 0 < m.count then m.count - 1 else m.count) = count
    dsimp only
    split_ifs with hcount
    · exact ⟨h,id⟩
    · obtain ⟨hfst,hsnd⟩ := nextWaiter_eq m.waiters (Nat.lt_succ_self _)
      generalize nextWaiter (m.waiters.count + 1) m.waiters = next at hfst hsnd
      obtain ⟨first,r⟩ := next
      have hr : some t ∉ r.toList := fun hm => h (mem_firstThread (hsnd ▸ hm))
      cases first with
      | none => exact ⟨hr,fun _ => by simp⟩
      | some x =>
        refine ⟨hr,fun _ he => h ?_⟩
        obtain rfl := Option.some.inj he
        exact mem_of_firstThread hfst.symm

/-- Acquire by another thread does not put the thread into the queue. -/
theorem acquire_away {c : T} {timeout : ℕ} {tryAcquire : Bool} (hc : c ≠ t)
    (h : some t ∉ m.waiters.toList) :
    some t ∉ (m.acquire idle c timeout tryAcquire).2.waiters.toList := by
  unfold Sys.acquire
  split_ifs
  any_goals exact h
  exact fun hm => h (mem_of_mem_write hc hm)

/-- The end of a call puts no thread into the queue. -/
theorem finish_away {c : T} {call : Scheduler.WaitCall} (h : some t ∉ m.waiters.toList) :
    some t ∉ (m.finish c call).2.waiters.toList := by
  have hleave : some t ∉ (m.toWaitSys.leave c call).waiters.toList := by
    intro hm
    simp only [WaitSys.leave] at hm
    split_ifs at hm
    · exact h (BoundedQueue.mem_of_mem_removeFirst _ hm)
    · exact h hm
  unfold Sys.finish
  split_ifs
  · exact hleave
  · exact hleave

/-- Cancel of any thread puts none into the queue. -/
theorem cancel_away {x : T} (h : some t ∉ m.waiters.toList) :
    some t ∉ (m.waiters.replaceAll (some x) none).toList := fun hm =>
  h (mem_threads.mp ((threads_replaceAll m.waiters x).subset (mem_threads.mpr hm)))

/-- A thread that is not in the queue stays out of it until it calls Acquire. -/
theorem apply_away {op : Op T} (h : some t ∉ m.waiters.toList) (hop : StaysAway t m op) :
    some t ∉ (m.apply idle op).waiters.toList := by
  cases op with
  | acquire timeout tryAcquire =>
    cases hc : m.sched.currentThread with
    | none => simpa [Sys.apply,hc] using h
    | some c =>
      have hct : c ≠ t := fun he => hop (hc.trans (congrArg some he))
      simpa [Sys.apply,hc] using acquire_away hct h
  | finish =>
    cases hc : m.sched.currentThread with
    | none => simpa [Sys.apply,hc] using h
    | some c =>
      cases hcall : m.calls c with
      | none => simpa [Sys.apply,hc,hcall] using h
      | some call => simpa [Sys.apply,hc,hcall] using finish_away h
  | release =>
    cases hc : m.sched.currentThread with
    | none => simpa [Sys.apply,hc] using h
    | some c => simpa [Sys.apply,hc] using (release_away h).1
  | cancel x => exact cancel_away h
  | resume x => exact h
  | tick doTick => exact h

/-- Release does not make a thread the owner that is not in the queue. -/
theorem notHanded_away {op : Op T} (h : some t ∉ m.waiters.toList) : NotHanded idle t m op := by
  rintro rfl hown
  cases hc : m.sched.currentThread with
  | none => simpa [Sys.apply,hc] using hown
  | some c => simpa [Sys.apply,hc] using (release_away h).2 hown

end Steps

section Cancel

variable {idle t : T} {m : Sys T}

/-- Replacing a thread by null leaves the others. -/
theorem filter_threads_map (l : List (Option T)) (t : T) :
    (threads (l.map fun e => if e = some t then none else e)).filter (· ≠ t) =
      (threads l).filter (· ≠ t) := by
  induction l with
  | nil => rfl
  | cons e l ih =>
    cases e with
    | none => simpa [threads] using ih
    | some x =>
      by_cases hx : x = t
      · simpa [threads,hx] using ih
      · simpa [threads,hx] using ih

/-- In a full ring Cancel finds nobody. -/
theorem waits_after_cancel (hfull : m.waiters.full = true) (ht : some t ∈ m.waiters.toList) :
    some t ∈ (m.apply idle (.cancel t)).waiters.toList := by
  change some t ∈ (m.waiters.replaceAll (some t) none).toList
  rw [m.waiters.replaceAll_full (some t) none hfull]
  exact ht

/-- For every mutex, all its waiters and each of them: Cancel takes the thread
out, leaves the others in order and keeps the mutex from it, exactly when the
ring of waiters is not full. -/
theorem cancel_right_iff (idle : T) (m : Sys T) {t : T} (ht : some t ∈ m.waiters.toList) :
    Cancelled idle m t ↔ m.waiters.full = false := by
  constructor
  · intro h
    by_contra hfull
    exact h.gone (waits_after_cancel (by simpa using hfull) ht)
  · intro hfull
    have hlist : (m.apply idle (.cancel t)).waiters.toList =
        m.waiters.toList.map fun e => if e = some t then none else e :=
      m.waiters.toList_replaceAll (some t) none hfull
    have hgone : some t ∉ (m.apply idle (.cancel t)).waiters.toList := by
      rw [hlist,List.mem_map]
      rintro ⟨e,-,he⟩
      split_ifs at he with heq
      exact heq he
    refine ⟨hgone,?_,fun ops hops => ?_⟩
    · rw [hlist]
      exact filter_threads_map _ t
    · exact hops.imp (fun m op h hop => apply_away h hop) (fun m op h _ => notHanded_away h) hgone

end Cancel

/-- A mutex that the first thread holds and for which some threads wait. -/
def heldMutex (waiting : List ℕ) : Sys ℕ :=
  { Sys.start (Scheduler.Sched.boot 0 100) false with
    waiters := waiting.foldl (fun r t => (r.write (some t)).2)
      (BoundedQueue.new 32 WaitSys.capacity_pos fun _ => none)
    count := 1
    owner := some 0 }

/-- One thread of three stops waiting. -/
theorem cancel_right_iff_three : Cancelled 100 (heldMutex [1,2,3]) 2 :=
  (cancel_right_iff 100 (heldMutex [1,2,3]) (by decide)).mpr (by decide)

/-- One thread of thirty-two goes on waiting. -/
theorem full_ring_not_cancelled : ¬Cancelled 100 (heldMutex (List.range' 1 32)) 2 := fun h =>
  h.gone (waits_after_cancel (by decide) (by decide))

end WootOs.CancelledWaiters
