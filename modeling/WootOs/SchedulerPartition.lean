import WootOs.Scheduler

/-!
# Every thread has one place

The threads of the three queues and the current thread share out the live
threads: those that were enabled, or started the kernel, and are not
finalized. Queued is the part of the invariant that concerns the queues and
also holds in the middle of an operation. Partition adds the place of the
current thread; every operation restores it.
-/

namespace WootOs.Scheduler

open ObjectQueue Sched

set_option linter.unusedSectionVars false

variable {T : Type*} [DecidableEq T]

/-- What a queue says about the record of its threads. -/
def Queue.Holds : Queue → Thread → Prop
  | .readyThreads,th => th.state = .ready
  | .suspendedThreads,th => th.state = .suspended
  | .sleepingThreads,th => th.state = .sleeping ∧ 0 < th.sleepTicks

/-- No thread stands in the queues twice. -/
structure Apart (s : Sched T) : Prop where
  /-- No queue holds a thread twice. -/
  nodup : ∀ q,(s.queue q).Nodup
  /-- No two queues share a thread. -/
  disjoint : ∀ {q q' t},t ∈ s.queue q → t ∈ s.queue q' → q = q'

/-- The queues hold live threads, each at most once, in states that fit. -/
structure Queued (idle : T) (live : List T) (s : Sched T) : Prop extends Apart s where
  /-- Only live threads are queued. -/
  mem_live : ∀ {q t},t ∈ s.queue q → t ∈ live
  /-- The idle thread is never counted among the live threads. -/
  idle_free : idle ∉ live
  /-- The state of a queued thread fits its queue. -/
  state : ∀ {q t},t ∈ s.queue q → q.Holds (s.thread t)

/-- Every live thread is current or queued. -/
def Placed (live : List T) (s : Sched T) : Prop :=
  ∀ t ∈ live,s.currentThread = some t ∨ ∃ q,t ∈ s.queue q

/-- A thread that can run on: it is in no queue and has not started to block. -/
def Running (live : List T) (s : Sched T) (c : T) : Prop :=
  c ∈ live ∧ (∀ q,c ∉ s.queue q) ∧
    (s.thread c).state ≠ .sleeping ∧ (s.thread c).state ≠ .suspending

/-- The invariant of the scheduler. -/
structure Partition (idle : T) (live : List T) (s : Sched T) : Prop where
  /-- The queues are in order. -/
  queued : Queued idle live s
  /-- The current thread is the idle thread or a live one outside the queues. -/
  current : ∃ c,s.currentThread = some c ∧ (c = idle ∨ Running live s c)
  /-- No live thread is lost. -/
  placed : Placed live s

section Fields

variable (s : Sched T) (t : T) (q : Queue)

@[simp] theorem modify_currentThread (f : Thread → Thread) :
    (s.modify t f).currentThread = s.currentThread := rfl

@[simp] theorem modify_queue (f : Thread → Thread) : (s.modify t f).queue = s.queue := rfl

@[simp] theorem modify_thread_self (f : Thread → Thread) :
    (s.modify t f).thread t = f (s.thread t) := Function.update_self ..

theorem modify_thread_ne {x : T} (f : Thread → Thread) (h : x ≠ t) :
    (s.modify t f).thread x = s.thread x := Function.update_of_ne h ..

@[simp] theorem add_currentThread (prepend : Bool) :
    (s.add q t prepend).currentThread = s.currentThread := rfl

@[simp] theorem add_thread (prepend : Bool) : (s.add q t prepend).thread = s.thread := rfl

@[simp] theorem remove_currentThread : (s.remove q t).currentThread = s.currentThread := rfl

@[simp] theorem remove_thread : (s.remove q t).thread = s.thread := rfl

/-- The threads queued after Add. -/
theorem mem_add {q' : Queue} {x : T} {prepend : Bool} :
    x ∈ (s.add q t prepend).queue q' ↔ x ∈ s.queue q' ∨ q' = q ∧ x = t := by
  by_cases h : q' = q
  · subst h
    cases prepend <;> simp [Sched.add,added,or_comm]
  · simp [Sched.add,h]

/-- The threads queued after Remove. -/
theorem mem_remove {q' : Queue} {x : T} (hn : (s.queue q).Nodup) :
    x ∈ (s.remove q t).queue q' ↔ x ∈ s.queue q' ∧ ¬(q' = q ∧ x = t) := by
  by_cases h : q' = q
  · subst h
    simp [Sched.remove,hn.mem_erase_iff,and_comm]
  · simp [Sched.remove,h]

end Fields

section Steps

variable {idle : T} {live : List T} {s : Sched T}

/-- The record of a thread outside the queues may change. -/
theorem Queued.modify_out (h : Queued idle live s) {t : T} (f : Thread → Thread)
    (ht : ∀ q,t ∉ s.queue q) : Queued idle live (s.modify t f) := by
  refine ⟨⟨h.nodup,h.disjoint⟩,h.mem_live,h.idle_free,fun {q x} hx => ?_⟩
  have hne : x ≠ t := by
    rintro rfl
    exact ht q hx
  rw [modify_thread_ne _ _ _ hne]
  exact h.state hx

/-- A change that keeps the state and the ticks keeps the queues in order. -/
theorem Queued.modify_keep (h : Queued idle live s) {t : T} {f : Thread → Thread}
    (hs : ∀ th,(f th).state = th.state) (ht : ∀ th,(f th).sleepTicks = th.sleepTicks) :
    Queued idle live (s.modify t f) := by
  refine ⟨⟨h.nodup,h.disjoint⟩,h.mem_live,h.idle_free,fun {q x} hx => ?_⟩
  have hq : q.Holds (s.thread x) := h.state hx
  by_cases he : x = t
  · subst he
    rw [modify_thread_self]
    cases q <;> simpa [Queue.Holds,hs,ht] using hq
  · rwa [modify_thread_ne _ _ _ he]

/-- A thread outside the queues may be added to any of them. -/
theorem Apart.add (h : Apart s) {t : T} {q : Queue} (prepend : Bool)
    (ht : ∀ q,t ∉ s.queue q) : Apart (s.add q t prepend) := by
  refine ⟨fun q' => ?_,fun {q' q'' x} hx hx' => ?_⟩
  · by_cases he : q' = q
    · subst he
      cases prepend with
      | false =>
        simp only [Sched.add,Function.update_self,added,Bool.false_eq_true,if_false]
        exact List.nodup_append.mpr ⟨h.nodup q',by simp,fun x hx y hy => by
          rintro rfl
          exact ht q' ((List.mem_singleton.mp hy) ▸ hx)⟩
      | true =>
        simp only [Sched.add,Function.update_self,added,if_true]
        exact List.nodup_cons.mpr ⟨ht q',h.nodup q'⟩
    · simpa [Sched.add,he] using h.nodup q'
  · rw [mem_add] at hx hx'
    rcases hx with hx | ⟨rfl,rfl⟩
    · rcases hx' with hx' | ⟨rfl,rfl⟩
      · exact h.disjoint hx hx'
      · exact absurd hx (ht _)
    · rcases hx' with hx' | ⟨rfl,-⟩
      · exact absurd hx' (ht _)
      · rfl

/-- A thread may be taken out of any queue. -/
theorem Apart.remove (h : Apart s) (t : T) (q : Queue) : Apart (s.remove q t) := by
  have hm {q' : Queue} {x : T} (hx : x ∈ (s.remove q t).queue q') : x ∈ s.queue q' :=
    ((mem_remove s t q (h.nodup q)).mp hx).1
  refine ⟨fun q' => ?_,fun hx hx' => h.disjoint (hm hx) (hm hx')⟩
  by_cases he : q' = q
  · subst he
    simpa [Sched.remove] using (h.nodup q').erase t
  · simpa [Sched.remove,he] using h.nodup q'

/-- A live thread outside the queues may be added to one that fits its state. -/
theorem Queued.add (h : Queued idle live s) {t : T} {q : Queue} (prepend : Bool)
    (ht : ∀ q,t ∉ s.queue q) (hl : t ∈ live) (hq : q.Holds (s.thread t)) :
    Queued idle live (s.add q t prepend) := by
  refine ⟨h.toApart.add prepend ht,fun {q' x} hx => ?_,h.idle_free,fun {q' x} hx => ?_⟩
  · rcases (mem_add ..).mp hx with hx | ⟨-,rfl⟩
    · exact h.mem_live hx
    · exact hl
  · rcases (mem_add ..).mp hx with hx | ⟨rfl,rfl⟩
    · exact h.state hx
    · exact hq

/-- Taking a thread out of a queue keeps the queues in order. -/
theorem Queued.remove (h : Queued idle live s) (t : T) (q : Queue) :
    Queued idle live (s.remove q t) := by
  have hm {q' : Queue} {x : T} (hx : x ∈ (s.remove q t).queue q') : x ∈ s.queue q' :=
    ((mem_remove s t q (h.nodup q)).mp hx).1
  exact ⟨h.toApart.remove t q,fun hx => h.mem_live (hm hx),h.idle_free,fun hx => h.state (hm hx)⟩

/-- A thread that was removed from its queue is in no queue. -/
theorem Apart.not_mem_remove (h : Apart s) {t : T} {q : Queue}
    (ht : t ∈ s.queue q) (q' : Queue) : t ∉ (s.remove q t).queue q' := by
  rw [mem_remove s t q (h.nodup q)]
  rintro ⟨hm,hn⟩
  exact hn ⟨h.disjoint hm ht,rfl⟩

/-- The idle thread is in no queue. -/
theorem Queued.idle_not_mem (h : Queued idle live s) (q : Queue) : idle ∉ s.queue q :=
  fun hm => h.idle_free (h.mem_live hm)

end Steps

section Tick

variable {idle : T} {live : List T} {s : Sched T}

/-- A thread has expired when it sleeps and has no ticks left. -/
theorem mem_expired {t : T} :
    t ∈ s.expired ↔ t ∈ s.queue .sleepingThreads ∧ (s.thread t).sleepTicks = 0 := by
  simp [expired]

/-- The threads queued after the second walk of GetNext. -/
theorem mem_wakeExpired (t : T) (q : Queue) :
    t ∈ (wakeExpired s).queue q ↔
      t ∈ s.queue q ∧ (q = .sleepingThreads → (s.thread t).sleepTicks ≠ 0) ∨
        q = .readyThreads ∧ t ∈ s.expired := by
  cases q <;> simp [wakeExpired]

/-- The second walk loses no thread and finds no new one. -/
theorem queued_wakeExpired {t : T} :
    (∃ q,t ∈ (wakeExpired s).queue q) ↔ ∃ q,t ∈ s.queue q := by
  constructor
  · rintro ⟨q,hq⟩
    rcases (mem_wakeExpired _ _).mp hq with ⟨hm,-⟩ | ⟨-,he⟩
    · exact ⟨q,hm⟩
    · exact ⟨_,(mem_expired.mp he).1⟩
  · rintro ⟨q,hq⟩
    by_cases he : t ∈ s.expired
    · exact ⟨.readyThreads,(mem_wakeExpired _ _).mpr (Or.inr ⟨rfl,he⟩)⟩
    · refine ⟨q,(mem_wakeExpired _ _).mpr (Or.inl ⟨hq,?_⟩)⟩
      rintro rfl hz
      exact he (mem_expired.mpr ⟨hq,hz⟩)

/-- The record of a thread that has not expired is unchanged. -/
theorem wakeExpired_thread {t : T} (h : t ∉ s.expired) :
    (wakeExpired s).thread t = s.thread t := if_neg h

/-- Moving the expired threads puts the queues in order, when the other
threads that sleep have ticks left. -/
theorem wakeExpired_queued (hn : ∀ q,(s.queue q).Nodup)
    (hd : ∀ {q q' t},t ∈ s.queue q → t ∈ s.queue q' → q = q')
    (hl : ∀ {q t},t ∈ s.queue q → t ∈ live) (hi : idle ∉ live)
    (hs : ∀ {q t},q ≠ .sleepingThreads → t ∈ s.queue q → q.Holds (s.thread t))
    (hc : ∀ {t},t ∈ s.queue .sleepingThreads →
      (s.thread t).state = .sleeping ∧ 0 ≤ (s.thread t).sleepTicks) :
    Queued idle live (wakeExpired s) := by
  have hout {q : Queue} {t : T} (hq : q ≠ .sleepingThreads) (ht : t ∈ s.queue q) :
      t ∉ s.expired := fun he => hq (hd ht (mem_expired.mp he).1)
  refine ⟨⟨fun q => ?_,fun {q q' t} hq hq' => ?_⟩,fun {q t} hq => ?_,hi,fun {q t} hq => ?_⟩
  · cases q with
    | readyThreads =>
      refine List.nodup_append.mpr ⟨hn _,(hn _).filter _,fun x hx y hy => ?_⟩
      rintro rfl
      exact hout (by simp) hx hy
    | suspendedThreads => exact hn _
    | sleepingThreads => exact (hn _).filter _
  · rcases (mem_wakeExpired _ _).mp hq with ⟨hm,hz⟩ | ⟨rfl,he⟩
    · rcases (mem_wakeExpired _ _).mp hq' with ⟨hm',-⟩ | ⟨rfl,he'⟩
      · exact hd hm hm'
      · have hs := hd hm (mem_expired.mp he').1
        exact absurd (mem_expired.mp he').2 (hz hs)
    · rcases (mem_wakeExpired _ _).mp hq' with ⟨hm',hz'⟩ | ⟨rfl,-⟩
      · have hs := hd hm' (mem_expired.mp he).1
        exact absurd (mem_expired.mp he).2 (hz' hs)
      · rfl
  · obtain ⟨q',hq'⟩ := queued_wakeExpired.mp ⟨q,hq⟩
    exact hl hq'
  · rcases (mem_wakeExpired _ _).mp hq with ⟨hm,hz⟩ | ⟨rfl,he⟩
    · by_cases hs' : q = .sleepingThreads
      · subst hs'
        have hne : t ∉ s.expired := fun he => hz rfl (mem_expired.mp he).2
        rw [wakeExpired_thread hne]
        have hpos := hc hm
        have hticks := hz rfl
        exact ⟨hpos.1,by omega⟩
      · rw [wakeExpired_thread (hout hs' hm)]
        exact hs hs' hm
    · have hth : (wakeExpired s).thread t = (s.thread t).expire := if_pos he
      rw [hth]
      exact Thread.expire_state _

/-- The sleeping threads are counted down and those whose sleep is over are moved. -/
def settle (doTick : Bool) (s : Sched T) : Sched T :=
  wakeExpired (if doTick then tickSleepers s else s)

/-- Counting the sleeps down keeps the queues in order. -/
theorem settle_queued (doTick : Bool) (h : Queued idle live s) :
    Queued idle live (settle doTick s) := by
  cases doTick with
  | false =>
    refine wakeExpired_queued h.nodup h.disjoint h.mem_live h.idle_free
      (fun _ hx => h.state hx) fun hx => ?_
    have hs : Queue.Holds .sleepingThreads _ := h.state hx
    exact ⟨hs.1,hs.2.le⟩
  | true =>
    have hq : (tickSleepers s).queue = s.queue := rfl
    refine wakeExpired_queued h.nodup h.disjoint h.mem_live h.idle_free
      (fun {q t} hq hx => ?_) fun {t} hx => ?_
    · have hns : t ∉ s.queue .sleepingThreads := fun hm => hq (h.disjoint hx hm)
      have hth : (tickSleepers s).thread t = s.thread t := if_neg hns
      rw [if_pos rfl,hth]
      exact h.state hx
    · have hth : (tickSleepers s).thread t = (s.thread t).tick := if_pos hx
      have hs : Queue.Holds .sleepingThreads _ := h.state hx
      rw [if_pos rfl,hth]
      refine ⟨(Thread.tick_state _).trans hs.1,?_⟩
      rw [Thread.tick,if_pos hs.2]
      exact Int.sub_nonneg_of_le hs.2

/-- The same threads are queued before and after. -/
theorem queued_settle (doTick : Bool) {t : T} :
    (∃ q,t ∈ (settle doTick s).queue q) ↔ ∃ q,t ∈ s.queue q := by
  rw [settle,queued_wakeExpired]
  cases doTick <;> rfl

/-- A thread that does not sleep keeps its record. -/
theorem settle_thread (doTick : Bool) {t : T} (h : t ∉ s.queue .sleepingThreads) :
    (settle doTick s).thread t = s.thread t := by
  cases doTick with
  | false => exact wakeExpired_thread fun he => h (mem_expired.mp he).1
  | true =>
    have hth : (tickSleepers s).thread t = s.thread t := if_neg h
    have he : t ∉ (tickSleepers s).expired := fun he => h (mem_expired.mp he).1
    rw [settle,if_pos rfl,wakeExpired_thread he,hth]

@[simp] theorem settle_currentThread (doTick : Bool) :
    (settle doTick s).currentThread = s.currentThread := by
  cases doTick <;> rfl

/-- Without a tick every sleeping thread sleeps on. -/
theorem settle_sleeping (h : Queued idle live s) {t : T}
    (ht : t ∈ s.queue .sleepingThreads) :
    t ∈ (settle false s).queue .sleepingThreads ∧ (settle false s).thread t = s.thread t := by
  have hs : Queue.Holds .sleepingThreads _ := h.state ht
  refine ⟨(mem_wakeExpired _ _).mpr (Or.inl ⟨ht,fun _ => hs.2.ne'⟩),wakeExpired_thread fun he => ?_⟩
  exact hs.2.ne' (mem_expired.mp he).2

/-- The current thread as GetNext may find it: absent, idle, outside the
queues, or put to sleep by its own call, which is followed by a fake tick. -/
def Yielding (idle : T) (live : List T) (doTick : Bool) (s : Sched T) : Prop :=
  ∀ c,s.currentThread = some c → c = idle ∨
    (c ∈ live ∧ (∀ q,c ∉ s.queue q) ∧ (s.thread c).state ≠ .sleeping) ∨
    (doTick = false ∧ c ∈ s.queue .sleepingThreads)

/-- The states in which an operation may call GetNext and Switch. -/
structure Switchable (idle : T) (live : List T) (doTick : Bool) (s : Sched T) : Prop where
  /-- The queues are in order. -/
  queued : Queued idle live s
  /-- No live thread is lost. -/
  placed : Placed live s
  /-- The current thread is as GetNext expects it. -/
  yielding : Yielding idle live doTick s

/-- GetNext queues the current thread, so every live thread is queued. -/
theorem yieldCurrent_queued {doTick : Bool} (hs : Switchable idle live doTick s) :
    Queued idle live (yieldCurrent idle (settle doTick s)) ∧
      (∀ t ∈ live,∃ q,t ∈ (yieldCurrent idle (settle doTick s)).queue q) ∧
      (yieldCurrent idle (settle doTick s)).currentThread = s.currentThread := by
  obtain ⟨h,hp,hc⟩ := hs
  have hq := settle_queued doTick h
  have hplaced : ∀ t ∈ live,s.currentThread ≠ some t → ∃ q,t ∈ (settle doTick s).queue q :=
    fun t ht hne => (queued_settle doTick).mpr ((hp t ht).resolve_left hne)
  cases hcur : s.currentThread with
  | none =>
    have hy : yieldCurrent idle (settle doTick s) = settle doTick s := by
      simp [yieldCurrent,hcur]
    rw [hy]
    exact ⟨hq,fun t ht => hplaced t ht (by simp [hcur]),by simp [hcur]⟩
  | some c =>
    rcases hc c hcur with rfl | ⟨hl,hout,hst⟩ | ⟨rfl,hsl⟩
    · have hy : yieldCurrent c (settle doTick s) = settle doTick s := by
        simp [yieldCurrent,hcur]
      rw [hy]
      refine ⟨hq,fun t ht => hplaced t ht ?_,by simp [hcur]⟩
      rw [hcur]
      rintro he
      exact h.idle_free (Option.some.inj he ▸ ht)
    · have hout' : ∀ q,c ∉ (settle doTick s).queue q := fun q hm => by
        obtain ⟨q',hq'⟩ := (queued_settle doTick).mp ⟨q,hm⟩
        exact hout q' hq'
      have hci : c ≠ idle := fun he => h.idle_free (he ▸ hl)
      have hth : (settle doTick s).thread c = s.thread c := settle_thread doTick (hout _)
      have hall (st : State) (q : Queue) : ∀ t ∈ live,
          ∃ q',t ∈ (((settle doTick s).modify c (Thread.setState st)).add q c false).queue q' := by
        intro t ht
        by_cases htc : t = c
        · exact ⟨q,(mem_add ..).mpr (Or.inr ⟨rfl,htc⟩)⟩
        · obtain ⟨q',hq'⟩ := hplaced t ht (by rw [hcur]; exact fun he => htc (Option.some.inj he).symm)
          exact ⟨q',(mem_add ..).mpr (Or.inl hq')⟩
      by_cases hsus : (s.thread c).state = .suspending
      · have hy : yieldCurrent idle (settle doTick s) =
            ((settle doTick s).modify c (Thread.setState .suspended)).add
              .suspendedThreads c false := by
          simp [yieldCurrent,hcur,hci,hth,hsus]
        rw [hy]
        refine ⟨(hq.modify_out _ hout').add _ hout' hl ?_,hall _ _,by simp [hcur]⟩
        simp [Queue.Holds]
      · have hy : yieldCurrent idle (settle doTick s) =
            ((settle doTick s).modify c (Thread.setState .ready)).add
              .readyThreads c false := by
          simp [yieldCurrent,hcur,hci,hth,hsus,hst]
        rw [hy]
        refine ⟨(hq.modify_out _ hout').add _ hout' hl ?_,hall _ _,by simp [hcur]⟩
        simp [Queue.Holds]
    · obtain ⟨hm,hth⟩ := settle_sleeping h hsl
      have hs : Queue.Holds .sleepingThreads _ := h.state hsl
      have hy : yieldCurrent idle (settle false s) = settle false s := by
        simp [yieldCurrent,hcur,hth,hs.1]
      rw [hy]
      refine ⟨hq,fun t ht => ?_,by simp [hcur]⟩
      by_cases htc : t = c
      · exact ⟨_,htc ▸ hm⟩
      · exact hplaced t ht (by rw [hcur]; exact fun he => htc (Option.some.inj he).symm)

/-- The switch to a thread outside the queues ends an operation. -/
theorem switch_partition {t : T} (h : Queued idle live s) (ht : ∀ q,t ∉ s.queue q)
    (hl : t = idle ∨ t ∈ live) (hst : (s.thread t).state = .ready ∨ s.currentThread ≠ some t ∨ t = idle)
    (hp : ∀ x ∈ live,x = t ∨ ∃ q,x ∈ s.queue q) : Partition idle live (switch t s) := by
  unfold switch
  split_ifs with hcur
  · refine ⟨h,⟨t,hcur,?_⟩,fun x hx => ?_⟩
    · rcases hl with hl | hl
      · exact Or.inl hl
      · refine Or.inr ⟨hl,ht,?_⟩
        rcases hst with hst | hst | rfl
        · simp [hst]
        · exact absurd hcur hst
        · exact absurd hl h.idle_free
    · rcases hp x hx with rfl | hq
      · exact Or.inl hcur
      · exact Or.inr hq
  · have hm := h.modify_out (Thread.setState .active) ht
    refine ⟨⟨⟨hm.nodup,hm.disjoint⟩,hm.mem_live,hm.idle_free,hm.state⟩,⟨t,rfl,?_⟩,fun x hx => ?_⟩
    · rcases hl with hl | hl
      · exact Or.inl hl
      · exact Or.inr ⟨hl,ht,by simp,by simp⟩
    · rcases hp x hx with rfl | hq
      · exact Or.inl rfl
      · exact Or.inr hq

/-- GetNext followed by Switch restores the invariant. -/
theorem tick_partition {doTick : Bool} (h : Switchable idle live doTick s) :
    Partition idle live (tick idle doTick s) := by
  obtain ⟨hq,hall,-⟩ := yieldCurrent_queued h
  set s' := yieldCurrent idle (settle doTick s) with hs'
  have hnext : getNext idle doTick s = takeReady idle s' := rfl
  rw [tick,hnext]
  cases hready : s'.queue .readyThreads with
  | nil =>
    have ht : takeReady idle s' = (idle,s') := by simp [takeReady,hready]
    rw [ht]
    exact switch_partition hq hq.idle_not_mem (Or.inl rfl) (Or.inr (Or.inr rfl))
      fun x hx => Or.inr (hall x hx)
  | cons t rest =>
    have hm : t ∈ s'.queue .readyThreads := by simp [hready]
    have ht : takeReady idle s' = (t,s'.remove .readyThreads t) := by simp [takeReady,hready]
    rw [ht]
    refine switch_partition (hq.remove t _) (hq.not_mem_remove hm) (Or.inr (hq.mem_live hm))
      (Or.inl (hq.state hm)) fun x hx => ?_
    by_cases hxt : x = t
    · exact Or.inl hxt
    · obtain ⟨q,hxq⟩ := hall x hx
      exact Or.inr ⟨q,(mem_remove _ _ _ (hq.nodup _)).mpr ⟨hxq,fun he => hxt he.2⟩⟩

end Tick

section Operations

variable {idle : T} {live : List T} {s : Sched T}

/-- A thread taken out of its queue and put into another one. -/
theorem Queued.move (h : Queued idle live s) {t : T} {q q' : Queue} {f : Thread → Thread}
    (prepend : Bool) (ht : t ∈ s.queue q) (hf : q'.Holds (f (s.thread t))) :
    Queued idle live (((s.remove q t).modify t f).add q' t prepend) := by
  have hout := h.not_mem_remove ht
  refine ((h.remove t q).modify_out f hout).add prepend hout (h.mem_live ht) ?_
  rw [modify_thread_self,remove_thread]
  exact hf

/-- Moving a thread changes no other place. -/
theorem Placed.move (hp : Placed live s) (hn : ∀ q,(s.queue q).Nodup) {t : T} {q q' : Queue}
    (f : Thread → Thread) (prepend : Bool) :
    Placed live (((s.remove q t).modify t f).add q' t prepend) := by
  intro x hx
  rcases hp x hx with hc | ⟨r,hr⟩
  · exact Or.inl hc
  · by_cases hxt : x = t
    · exact Or.inr ⟨q',(mem_add ..).mpr (Or.inr ⟨rfl,hxt⟩)⟩
    · refine Or.inr ⟨r,(mem_add ..).mpr (Or.inl ?_)⟩
      exact (mem_remove _ _ _ (hn q)).mpr ⟨hr,fun he => hxt he.2⟩

/-- The invariant bears a change of a record that keeps state and ticks. -/
theorem Partition.modify_keep (h : Partition idle live s) {t : T} {f : Thread → Thread}
    (hs : ∀ th,(f th).state = th.state) (ht : ∀ th,(f th).sleepTicks = th.sleepTicks) :
    Partition idle live (s.modify t f) := by
  obtain ⟨hq,⟨c,hc,hrun⟩,hp⟩ := h
  refine ⟨hq.modify_keep hs ht,⟨c,hc,?_⟩,hp⟩
  rcases hrun with rfl | ⟨hl,hout,hs1,hs2⟩
  · exact Or.inl rfl
  · refine Or.inr ⟨hl,hout,?_⟩
    have hst : ((s.modify t f).thread c).state = (s.thread c).state := by
      by_cases hct : c = t
      · subst hct
        rw [modify_thread_self,hs]
      · rw [modify_thread_ne _ _ _ hct]
    rw [hst]
    exact ⟨hs1,hs2⟩

/-- The invariant bears moving a thread from one queue to another. -/
theorem Partition.move (h : Partition idle live s) {t : T} {q q' : Queue}
    {f : Thread → Thread} (prepend : Bool) (ht : t ∈ s.queue q)
    (hf : q'.Holds (f (s.thread t))) :
    Partition idle live (((s.remove q t).modify t f).add q' t prepend) := by
  obtain ⟨hq,⟨c,hc,hrun⟩,hp⟩ := h
  refine ⟨hq.move prepend ht hf,⟨c,hc,?_⟩,hp.move hq.nodup f prepend⟩
  rcases hrun with rfl | ⟨hl,hout,hst⟩
  · exact Or.inl rfl
  · have hct : c ≠ t := by
      rintro rfl
      exact hout q ht
    refine Or.inr ⟨hl,fun r hr => ?_,?_⟩
    · rcases (mem_add ..).mp hr with hr | ⟨-,he⟩
      · exact hout r ((mem_remove _ _ _ (hq.nodup q)).mp hr).1
      · exact hct he
    · rw [add_thread,modify_thread_ne _ _ _ hct,remove_thread]
      exact hst

/-- The current thread of a state between operations is in no queue. -/
theorem Partition.current_out (h : Partition idle live s) {c : T}
    (hc : s.currentThread = some c) (q : Queue) : c ∉ s.queue q := by
  obtain ⟨c',hc',hrun⟩ := h.current
  obtain rfl : c = c' := Option.some.inj (hc.symm.trans hc')
  rcases hrun with rfl | hrun
  · exact h.queued.idle_not_mem q
  · exact hrun.2.1 q

/-- Between operations any tick may come. -/
theorem Partition.switchable (h : Partition idle live s) (doTick : Bool) :
    Switchable idle live doTick s := by
  refine ⟨h.queued,h.placed,fun c hc => ?_⟩
  obtain ⟨c',hc',hrun⟩ := h.current
  obtain rfl : c = c' := Option.some.inj (hc.symm.trans hc')
  rcases hrun with rfl | ⟨hl,hout,hst,-⟩
  · exact Or.inl rfl
  · exact Or.inr (Or.inl ⟨hl,hout,hst⟩)

/-- A timer tick keeps the invariant. -/
theorem Partition.tick (h : Partition idle live s) (doTick : Bool) :
    Partition idle live (Sched.tick idle doTick s) :=
  tick_partition (h.switchable doTick)

/-- The current thread may mark itself as suspending. -/
theorem Partition.suspending (h : Partition idle live s) {t : T} (ht : t ∈ live)
    (hc : s.currentThread = some t) :
    Switchable idle live false (s.modify t (Thread.setState .suspending)) := by
  have hout := h.current_out hc
  refine ⟨h.queued.modify_out _ hout,h.placed,fun c hc' => ?_⟩
  obtain rfl : t = c := Option.some.inj (hc.symm.trans hc')
  exact Or.inr (Or.inl ⟨ht,hout,by simp⟩)

/-- Resume keeps the invariant. -/
theorem Partition.resume (h : Partition idle live s) (t : T) (prepend : Bool) :
    Partition idle live (s.resume t prepend).2 := by
  have hk : Partition idle live (s.modify t Thread.countWake) :=
    h.modify_keep Thread.countWake_state Thread.countWake_sleepTicks
  unfold Sched.resume
  dsimp only
  split_ifs with hsus hsl
  · exact hk.move prepend hsus (Thread.wake_state _)
  · exact hk.move prepend hsl.1 (Thread.wake_state _)
  · exact hk

/-- QuickResume keeps the invariant. -/
theorem Partition.quickResume (h : Partition idle live s) (t : T) :
    Partition idle live (Sched.quickResume idle t s).2 := by
  unfold Sched.quickResume
  split_ifs
  · exact (h.resume t true).tick true
  · exact h.resume t true

/-- Suspend keeps the invariant. -/
theorem Partition.suspend (h : Partition idle live s) {t : T} (ht : t ∈ live) :
    Partition idle live (Sched.suspend idle t s) := by
  have hk : Partition idle live (s.modify t Thread.dropWake) :=
    h.modify_keep Thread.dropWake_state Thread.dropWake_sleepTicks
  unfold Sched.suspend
  dsimp only
  split_ifs with hw hc hr hsl
  · exact hk
  · exact tick_partition (hk.suspending ht hc)
  · exact hk.move false hr rfl
  · exact hk.move false hsl rfl
  · exact hk

/-- The threads that are queued after a thread was taken out of all queues. -/
theorem mem_removeAll (hn : ∀ q,(s.queue q).Nodup) {t x : T} {q : Queue} :
    x ∈ (((s.remove .readyThreads t).remove .suspendedThreads t).remove
        .sleepingThreads t).queue q ↔ x ∈ s.queue q ∧ x ≠ t := by
  have hn1 : ((s.remove .readyThreads t).queue .suspendedThreads).Nodup := by
    simpa [Sched.remove] using hn .suspendedThreads
  have hn2 : (((s.remove .readyThreads t).remove .suspendedThreads t).queue
      .sleepingThreads).Nodup := by
    simpa [Sched.remove] using hn .sleepingThreads
  rw [mem_remove _ _ _ hn2,mem_remove _ _ _ hn1,mem_remove _ _ _ (hn _)]
  cases q <;> simp

/-- Taking a thread out of all queues keeps them in order. -/
theorem Queued.removeAll (h : Queued idle live s) (t : T) :
    Queued idle live (((s.remove .readyThreads t).remove .suspendedThreads t).remove
      .sleepingThreads t) :=
  ((h.remove t _).remove t _).remove t _

/-- TicksSleep takes a thread out of all queues and puts it to sleep. -/
def fallAsleep (t : T) (ticks : ℕ) (interruptible : Bool) (s : Sched T) : Sched T :=
  ((((s.remove .readyThreads t).remove .suspendedThreads t).remove .sleepingThreads t).modify t
    (Thread.sleep ticks interruptible)).add .sleepingThreads t false

/-- The threads queued once a thread was put to sleep. -/
theorem mem_fallAsleep (hn : ∀ q,(s.queue q).Nodup) {t x : T} {ticks : ℕ}
    {interruptible : Bool} {q : Queue} :
    x ∈ (fallAsleep t ticks interruptible s).queue q ↔
      x ∈ s.queue q ∧ x ≠ t ∨ q = .sleepingThreads ∧ x = t := by
  rw [fallAsleep,mem_add,modify_queue,mem_removeAll hn]

/-- Another thread keeps its record. -/
theorem fallAsleep_thread_ne {t x : T} (ticks : ℕ) (interruptible : Bool) (h : x ≠ t) :
    (fallAsleep t ticks interruptible s).thread x = s.thread x := by
  rw [fallAsleep,add_thread,modify_thread_ne _ _ _ h]
  rfl

/-- The queues stay in order when a live thread falls asleep. -/
theorem Queued.fallAsleep (h : Queued idle live s) {t : T} {ticks : ℕ}
    (interruptible : Bool) (ht : t ∈ live) (hlow : 1 ≤ ticks) (hhigh : ticks < 2 ^ 31) :
    Queued idle live (fallAsleep t ticks interruptible s) := by
  have hout : ∀ q,t ∉ (((s.remove .readyThreads t).remove .suspendedThreads t).remove
      .sleepingThreads t).queue q := fun q hm => ((mem_removeAll h.nodup).mp hm).2 rfl
  refine ((h.removeAll t).modify_out _ hout).add false hout ht ?_
  rw [modify_thread_self]
  refine ⟨Thread.sleep_state ..,?_⟩
  rw [Thread.sleep_sleepTicks hhigh]
  exact_mod_cast hlow

/-- No thread is lost when one falls asleep. -/
theorem Placed.fallAsleep (hp : Placed live s) (hn : ∀ q,(s.queue q).Nodup) (t : T)
    (ticks : ℕ) (interruptible : Bool) :
    Placed live (Scheduler.fallAsleep t ticks interruptible s) := by
  intro x hx
  by_cases hxt : x = t
  · exact Or.inr ⟨_,(mem_fallAsleep hn).mpr (Or.inr ⟨rfl,hxt⟩)⟩
  · rcases hp x hx with hc | ⟨q,hq⟩
    · exact Or.inl hc
    · exact Or.inr ⟨q,(mem_fallAsleep hn).mpr (Or.inl ⟨hq,hxt⟩)⟩

/-- The current thread may put itself to sleep. -/
theorem Partition.asleep (h : Partition idle live s) {t : T} {ticks : ℕ}
    (interruptible : Bool) (ht : t ∈ live) (hlow : 1 ≤ ticks) (hhigh : ticks < 2 ^ 31)
    (hc : s.currentThread = some t) :
    Switchable idle live false
      ((fallAsleep t ticks interruptible s).modify t Thread.awaitResult) := by
  have hq := h.queued.fallAsleep interruptible ht hlow hhigh
  have hp := h.placed.fallAsleep h.queued.nodup t ticks interruptible
  refine ⟨hq.modify_keep Thread.awaitResult_state Thread.awaitResult_sleepTicks,hp,fun c hc' => ?_⟩
  obtain rfl : t = c := Option.some.inj (hc.symm.trans hc')
  exact Or.inr (Or.inr ⟨rfl,(mem_fallAsleep h.queued.nodup).mpr (Or.inr ⟨rfl,rfl⟩)⟩)

/-- TicksSleep keeps the invariant for ticks that SleepTicks can hold. -/
theorem Partition.ticksSleep (h : Partition idle live s) {t : T} {ticks : ℕ}
    (interruptible : Bool) (ht : t ∈ live) (hlow : 1 ≤ ticks) (hhigh : ticks < 2 ^ 31) :
    Partition idle live (Sched.ticksSleep idle t ticks interruptible s) := by
  have hk : Partition idle live (s.modify t Thread.dropWake) :=
    h.modify_keep Thread.dropWake_state Thread.dropWake_sleepTicks
  have hq := hk.queued.fallAsleep interruptible ht hlow hhigh
  have hp := hk.placed.fallAsleep hk.queued.nodup t ticks interruptible
  have hmem {x : T} {q : Queue} := @mem_fallAsleep T _ _ hk.queued.nodup t x ticks interruptible q
  unfold Sched.ticksSleep
  dsimp only
  split_ifs with hw hc
  · exact hk
  · exact tick_partition (hk.asleep interruptible ht hlow hhigh hc)
  · obtain ⟨c,hcur,hrun⟩ := hk.current
    have hct : c ≠ t := by
      rintro rfl
      exact hc hcur
    refine ⟨hq,⟨c,hcur,?_⟩,hp⟩
    rcases hrun with rfl | ⟨hl,hout,hst⟩
    · exact Or.inl rfl
    · refine Or.inr ⟨hl,fun q hm => ?_,?_⟩
      · rcases hmem.mp hm with ⟨hm,-⟩ | ⟨-,he⟩
        · exact hout q hm
        · exact hct he
      · have hth := @fallAsleep_thread_ne T _ (s.modify t Thread.dropWake) t c ticks
          interruptible hct
        unfold fallAsleep at hth
        rw [hth]
        exact hst

/-- The queues without a finalized thread. -/
theorem Queued.retire (h : Queued idle live s) (t : T) :
    Queued idle (live.erase t) ((((s.modify t (Thread.setState .finalized)).remove
      .readyThreads t).remove .suspendedThreads t).remove .sleepingThreads t) := by
  have hmem {x : T} {q : Queue} := @mem_removeAll T _ (s.modify t (Thread.setState .finalized))
    h.nodup t x q
  have hall := (show Queued idle live s from h).removeAll t
  refine ⟨⟨hall.nodup,hall.disjoint⟩,fun hx => ?_,fun hm => h.idle_free (List.mem_of_mem_erase hm),
    fun {q x} hx => ?_⟩
  · obtain ⟨hm,hne⟩ := hmem.mp hx
    exact (List.mem_erase_of_ne hne).mpr (h.mem_live hm)
  · obtain ⟨hm,hne⟩ := hmem.mp hx
    have hth : (s.modify t (Thread.setState .finalized)).thread x = s.thread x :=
      modify_thread_ne _ _ _ hne
    simp only [remove_thread]
    rw [hth]
    exact h.state hm

/-- The place of every other thread once one is taken out of all queues. -/
theorem Placed.retire (hp : Placed live s) (hq : ∀ q,(s.queue q).Nodup) (hn : live.Nodup)
    (t : T) :
    Placed (live.erase t) ((((s.modify t (Thread.setState .finalized)).remove
      .readyThreads t).remove .suspendedThreads t).remove .sleepingThreads t) := by
  intro x hx
  obtain ⟨hne,hx⟩ := hn.mem_erase_iff.mp hx
  rcases hp x hx with hc | ⟨q,hxq⟩
  · exact Or.inl hc
  · exact Or.inr ⟨q,(@mem_removeAll T _ (s.modify t (Thread.setState .finalized)) hq t x q).mpr
      ⟨hxq,hne⟩⟩

/-- A current thread that is finalized leaves no thread running. -/
theorem Partition.retired (h : Partition idle live s) {t : T} (hn : live.Nodup)
    (hc : s.currentThread = some t) :
    Switchable idle (live.erase t) false { (((s.modify t (Thread.setState .finalized)).remove
      .readyThreads t).remove .suspendedThreads t).remove .sleepingThreads t with
        currentThread := none } := by
  have hq := h.queued.retire t
  refine ⟨⟨⟨hq.nodup,hq.disjoint⟩,hq.mem_live,hq.idle_free,hq.state⟩,fun x hx => ?_,
    fun c hc' => absurd hc' (by simp)⟩
  refine Or.inr ((h.placed.retire h.queued.nodup hn t x hx).resolve_left fun hcx => ?_)
  obtain rfl : t = x := Option.some.inj (hc.symm.trans hcx)
  exact (hn.mem_erase_iff.mp hx).1 rfl

/-- The end of Finalize keeps the invariant over the other threads. -/
theorem Partition.retire (h : Partition idle live s) {t : T} (hn : live.Nodup) :
    Partition idle (live.erase t) (Sched.retire idle t s) := by
  unfold Sched.retire
  dsimp only
  split_ifs with hc
  · exact tick_partition (h.retired hn hc)
  · obtain ⟨c,hcur,hrun⟩ := h.current
    have hct : c ≠ t := by
      rintro rfl
      exact hc hcur
    refine ⟨h.queued.retire t,⟨c,hcur,?_⟩,h.placed.retire h.queued.nodup hn t⟩
    rcases hrun with rfl | ⟨hl,hout,hst⟩
    · exact Or.inl rfl
    · refine Or.inr ⟨(List.mem_erase_of_ne hct).mpr hl,fun q hm => hout q ?_,?_⟩
      · exact ((@mem_removeAll T _ (s.modify t (Thread.setState .finalized)) h.queued.nodup
          t c q).mp hm).1
      · simp only [remove_thread]
        rw [modify_thread_ne _ _ _ hct]
        exact hst

/-- Enable adds a thread that was not live before. -/
theorem Partition.enable (h : Partition idle live s) {t : T} (ht : t ∉ live) (hi : t ≠ idle) :
    Partition idle (t :: live) (s.enable t) := by
  have hout : ∀ q,t ∉ s.queue q := fun q hm => ht (h.queued.mem_live hm)
  have hq : Queued idle (t :: live) s :=
    ⟨⟨h.queued.nodup,h.queued.disjoint⟩,fun hx => List.mem_cons_of_mem _ (h.queued.mem_live hx),
      by simpa [hi.symm] using h.queued.idle_free,h.queued.state⟩
  have hadd := (hq.modify_out (Thread.setState .suspended) hout).add false hout
    (List.mem_cons_self ..) (q := .suspendedThreads) (by simp [Queue.Holds])
  obtain ⟨c,hcur,hrun⟩ := h.current
  refine ⟨hadd,⟨c,hcur,?_⟩,fun x hx => ?_⟩
  · rcases hrun with rfl | ⟨hl,hcout,hst⟩
    · exact Or.inl rfl
    · have hct : c ≠ t := by
        rintro rfl
        exact ht hl
      refine Or.inr ⟨List.mem_cons_of_mem _ hl,fun q hm => ?_,?_⟩
      · rcases (mem_add ..).mp hm with hm | ⟨-,he⟩
        · exact hcout q hm
        · exact hct he
      · have hth : (s.enable t).thread c = s.thread c := modify_thread_ne _ _ _ hct
        rw [hth]
        exact hst
  · have hqueue : (s.enable t).queue = (s.add .suspendedThreads t false).queue := rfl
    rw [hqueue]
    rcases List.mem_cons.mp hx with rfl | hx
    · exact Or.inr ⟨.suspendedThreads,(mem_add ..).mpr (Or.inr ⟨rfl,rfl⟩)⟩
    · rcases h.placed x hx with hc | ⟨q,hxq⟩
      · exact Or.inl hc
      · exact Or.inr ⟨q,(mem_add ..).mpr (Or.inl hxq)⟩

end Operations

section Runs

/-- The threads there are: those ever seen and those not finalized. -/
structure Census (T : Type*) where
  /-- The first thread, the idle thread and every thread ever enabled. -/
  seen : List T
  /-- The threads of seen that are not finalized, without the idle thread. -/
  live : List T
  deriving DecidableEq

/-- One operation of the scheduler. -/
inductive Op (T : Type*) where
  /-- Thread::Enable. -/
  | enable (t : T)
  /-- Thread::Suspend. -/
  | suspend (t : T)
  /-- Thread::Resume. -/
  | resume (t : T) (prepend : Bool)
  /-- Thread::QuickResume. -/
  | quickResume (t : T)
  /-- Thread::TicksSleep. -/
  | ticksSleep (t : T) (ticks : ℕ) (interruptible : Bool)
  /-- Thread::Sleep. -/
  | sleep (t : T) (millis : ℕ) (interruptible : Bool)
  /-- Thread::Finalize, with the thread its signal resumes. -/
  | finalize (thread : Option T) (woken : Option T)
  /-- Time::Tick, real or fake. -/
  | tick (doTick : Bool)
  deriving DecidableEq

/-- The effect of an operation on the scheduler. -/
def Sched.apply (idle : T) (s : Sched T) : Op T → Sched T
  | .enable t => s.enable t
  | .suspend t => s.suspend idle t
  | .resume t prepend => (s.resume t prepend).2
  | .quickResume t => (s.quickResume idle t).2
  | .ticksSleep t ticks interruptible => s.ticksSleep idle t ticks interruptible
  | .sleep t millis interruptible => s.ticksSleep idle t (sleepTicksOf millis) interruptible
  | .finalize thread woken => s.finalize idle thread woken
  | .tick doTick => s.tick idle doTick

/-- The operations a kernel may perform: each new thread is enabled once, and
a finalized thread is passed to no operation. The ticks of a sleep are positive
in the int that stores them. -/
def Op.Legal (current : Option T) (g : Census T) : Op T → Prop
  | .enable t => t ∉ g.seen
  | .suspend t => t ∈ g.live
  | .resume t _ => t ∈ g.live
  | .quickResume t => t ∈ g.live
  | .ticksSleep t ticks _ => t ∈ g.live ∧ 1 ≤ ticks ∧ ticks < 2 ^ 31
  | .sleep t millis _ => t ∈ g.live ∧ millis < 2 ^ 32
  | .finalize thread woken =>
    (∃ t ∈ g.live,thread.or current = some t) ∧ ∀ w ∈ woken,w ∈ g.live
  | .tick _ => True

instance (current : Option T) (g : Census T) (op : Op T) : Decidable (op.Legal current g) :=
  match op with
  | .enable t => inferInstanceAs (Decidable (t ∉ g.seen))
  | .suspend t => inferInstanceAs (Decidable (t ∈ g.live))
  | .resume t _ => inferInstanceAs (Decidable (t ∈ g.live))
  | .quickResume t => inferInstanceAs (Decidable (t ∈ g.live))
  | .ticksSleep t ticks _ =>
    inferInstanceAs (Decidable (t ∈ g.live ∧ 1 ≤ ticks ∧ ticks < 2 ^ 31))
  | .sleep t millis _ => inferInstanceAs (Decidable (t ∈ g.live ∧ millis < 2 ^ 32))
  | .finalize thread woken => inferInstanceAs (Decidable
      ((∃ t ∈ g.live,thread.or current = some t) ∧ ∀ w ∈ woken,w ∈ g.live))
  | .tick _ => inferInstanceAs (Decidable True)

/-- The threads there are after an operation. -/
def Op.census (current : Option T) (g : Census T) : Op T → Census T
  | .enable t => ⟨t :: g.seen,t :: g.live⟩
  | .finalize thread _ =>
    match thread.or current with
    | some t => ⟨g.seen,g.live.erase t⟩
    | none => g
  | _ => g

/-- What every run keeps. -/
structure Ordered (idle : T) (g : Census T) (s : Sched T) : Prop where
  /-- The live threads have one place each. -/
  partition : Partition idle g.live s
  /-- A live thread was seen. -/
  seen : ∀ t ∈ g.live,t ∈ g.seen
  /-- So was the idle thread. -/
  idle_seen : idle ∈ g.seen
  /-- No thread is counted twice. -/
  nodup : g.live.Nodup

/-- Every operation keeps the scheduler in order. -/
theorem Ordered.apply {idle : T} {g : Census T} {s : Sched T} {op : Op T}
    (h : Ordered idle g s) (hl : op.Legal s.currentThread g) :
    Ordered idle (op.census s.currentThread g) (s.apply idle op) := by
  obtain ⟨hp,hs,hi,hn⟩ := h
  cases op with
  | enable t =>
    have hnew : t ∉ g.live := fun hm => hl (hs t hm)
    have hne : t ≠ idle := by
      rintro rfl
      exact hl hi
    refine ⟨hp.enable hnew hne,fun x hx => ?_,List.mem_cons_of_mem _ hi,
      List.nodup_cons.mpr ⟨hnew,hn⟩⟩
    rcases List.mem_cons.mp hx with rfl | hx
    · exact List.mem_cons_self ..
    · exact List.mem_cons_of_mem _ (hs x hx)
  | suspend t => exact ⟨hp.suspend hl,hs,hi,hn⟩
  | resume t prepend => exact ⟨hp.resume t prepend,hs,hi,hn⟩
  | quickResume t => exact ⟨hp.quickResume t,hs,hi,hn⟩
  | ticksSleep t ticks interruptible =>
    obtain ⟨ht,hlow,hhigh⟩ := hl
    exact ⟨hp.ticksSleep interruptible ht hlow hhigh,hs,hi,hn⟩
  | sleep t millis interruptible =>
    obtain ⟨ht,hm⟩ := hl
    obtain ⟨hlow,hhigh⟩ := sleepTicksOf_range hm
    exact ⟨hp.ticksSleep interruptible ht hlow hhigh,hs,hi,hn⟩
  | finalize thread woken =>
    obtain ⟨⟨t,ht,hthread⟩,hw⟩ := hl
    have hg : (Op.finalize thread woken).census s.currentThread g = ⟨g.seen,g.live.erase t⟩ := by
      simp [Op.census,hthread]
    have hret : Partition idle (g.live.erase t) (s.finalize idle thread woken) := by
      cases woken with
      | none =>
        have he : s.finalize idle thread none = s.retire idle t := by
          simp [Sched.finalize,hthread]
        rw [he]
        exact hp.retire hn
      | some w =>
        have he : s.finalize idle thread (some w) = (s.resume w false).2.retire idle t := by
          simp [Sched.finalize,hthread]
        rw [he]
        exact (hp.resume w false).retire hn
    rw [hg]
    exact ⟨hret,fun x hx => hs x (List.mem_of_mem_erase hx),hi,hn.erase t⟩
  | tick doTick => exact ⟨hp.tick doTick,hs,hi,hn⟩

/-- The scheduler after Thread::Initialize: the first thread runs, and no
thread is queued. -/
def Sched.boot (main idle : T) : Sched T :=
  { currentThread := some main
    thread := Function.update (fun _ => Thread.new) idle (Thread.new.setState .ready)
    queue := fun _ => [] }

/-- The threads there are at that time. -/
def Census.boot (main idle : T) : Census T := ⟨[main,idle],[main]⟩

/-- The first state is in order. -/
theorem ordered_boot {main idle : T} (h : main ≠ idle) :
    Ordered idle (Census.boot main idle) (Sched.boot main idle) := by
  have hq : Queued idle [main] (Sched.boot main idle) :=
    ⟨⟨fun _ => List.nodup_nil,fun hm => absurd hm List.not_mem_nil⟩,
      fun hm => absurd hm List.not_mem_nil,by simpa using h.symm,
      fun hm => absurd hm List.not_mem_nil⟩
  refine ⟨⟨hq,⟨main,rfl,Or.inr ⟨by simp [Census.boot],fun _ => List.not_mem_nil,?_,?_⟩⟩,?_⟩,
    ?_,?_,?_⟩
  · simp [Sched.boot,h,Thread.new]
  · simp [Sched.boot,h,Thread.new]
  · intro t ht
    obtain rfl : t = main := by simpa [Census.boot] using ht
    exact Or.inl rfl
  · simp [Census.boot]
  · simp [Census.boot]
  · simp [Census.boot]

end Runs

end WootOs.Scheduler
