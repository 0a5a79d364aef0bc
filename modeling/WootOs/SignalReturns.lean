import WootOs.Runs
import WootOs.SignalDelivery

/-!
# Returns from signals

The two returns put back what was saved, whether or not a delivery has saved
anything, and neither looks which way the delivery went. Both can be made by
the program at any time. Saved is the invariant of every run: while a delivery
is active its signal is current, and what it saved is still where it was put.
So a return is right exactly when a delivery of its kind is active, or what it
puts back is there already.
-/

namespace WootOs.SignalDelivery

open Runs

/-- What can happen to a thread. -/
inductive Event where
  /-- An interrupt of the program. -/
  | interrupt (state : Context)
  /-- A syscall of the program, with the signals that other threads raise meanwhile. -/
  | syscall (args : Word) (req : Request) (raised : List ℕ)
  /-- Signal::Raise by another thread. -/
  | raise (n : ℕ)
  /-- The program writes to its memory. -/
  | write (mem : Word → Word)

namespace Machine

variable (sigHandlerAsm : Word) (m : Machine)

/-- The first part of Ints::CommonHandler, up to Signal::ReturnFromSignal. -/
def interruptDelivery (state : Context) : Machine × Context :=
  if state.cs &&& 3 ≠ 0 ∧ m.thread.currentSignal < 0 then m.handleSignals state else (m,state)

/-- The effect of an event. -/
def apply : Event → Machine
  | .interrupt state => (m.commonHandler state).1
  | .syscall args req raised => (m.sysHandler sigHandlerAsm args req raised).2
  | .raise n => m.raise n
  | .write mem => { m with mem := mem }

/-- Whether an interrupt returns from a signal. -/
def Returns (state : Context) : Prop := state.interruptNumber = 0x80 ∧ state.eax = 0

instance (state : Context) : Decidable (Returns state) :=
  inferInstanceAs (Decidable (_ ∧ _))

/-- A delivery of the kind of an interrupt is active, and its signal is current. -/
def ActiveInterrupt (state : Context) : Prop :=
  m.thread.active = some (.interrupt state) ∧ 0 ≤ m.thread.currentSignal

/-- A delivery of the kind of a syscall is active, and its signal is current. -/
def ActiveSyscall (retAddr : Word) : Prop :=
  m.thread.active = some (.syscall retAddr) ∧ 0 ≤ m.thread.currentSignal

/-- No delivery begins while one is active. -/
def BeginsAlone : Prop :=
  m.thread.currentSignal < 0 → m.next.isSome → m.thread.active = none

/-- A return changes the saved state only to what an active delivery of its kind has saved. -/
def Right : Event → Prop
  | .interrupt state =>
    m.BeginsAlone ∧
      let r := m.interruptDelivery state
      (m.commonHandler state).2 = r.2 ∨
        Returns r.2 ∧ r.1.ActiveInterrupt (m.commonHandler state).2
  | .syscall args req raised =>
    (raised.foldl raise (m.sysCall args req).2).BeginsAlone ∧
      (req = .signalReturn →
        let retAddr := (m.sysCall args req).2.mem (args - 4)
        retAddr = m.mem (args - 4) ∨ m.ActiveSyscall retAddr)
  | _ => True

/-- A return is made while a delivery of its kind is active, or puts back what is there. -/
def Matches : Event → Prop
  | .interrupt state =>
    let r := m.interruptDelivery state
    Returns r.2 →
      r.1.thread.savedMachineState = r.2 ∨ ∃ saved,r.1.thread.active = some (.interrupt saved)
  | .syscall args req _ =>
    req = .signalReturn →
      m.thread.signalRetAddr = m.mem (args - 4) ∨
        ∃ retAddr,m.thread.active = some (.syscall retAddr)
  | _ => True

/-- A signal is current exactly while a delivery is active, and what it saved is still
there. -/
structure Saved : Prop where
  /-- Without a delivery no signal is current. -/
  idle : m.thread.active = none → m.thread.currentSignal < 0
  /-- What was saved at the end of an interrupt. -/
  interrupt : ∀ state,m.thread.active = some (.interrupt state) →
    0 ≤ m.thread.currentSignal ∧ m.thread.savedMachineState = state
  /-- What was saved at the end of a syscall. -/
  syscall : ∀ retAddr,m.thread.active = some (.syscall retAddr) →
    0 ≤ m.thread.currentSignal ∧ m.thread.signalRetAddr = retAddr

section Saved

variable {sigHandlerAsm : Word} {m : Machine}

theorem Saved.of_thread {m' : Machine} (h : m.Saved)
    (hc : m'.thread.currentSignal = m.thread.currentSignal)
    (ha : m'.thread.active = m.thread.active)
    (hs : m'.thread.savedMachineState = m.thread.savedMachineState)
    (hr : m'.thread.signalRetAddr = m.thread.signalRetAddr) : m'.Saved where
  idle := by
    rw [ha,hc]
    exact h.idle
  interrupt := by
    rw [ha,hc,hs]
    exact h.interrupt
  syscall := by
    rw [ha,hc,hr]
    exact h.syscall

theorem Saved.active_none (h : m.Saved) (hc : m.thread.currentSignal < 0) :
    m.thread.active = none := by
  rcases ha : m.thread.active with - | state | retAddr
  · rfl
  · have := (h.interrupt state ha).1
    omega
  · have := (h.syscall retAddr ha).1
    omega

theorem Saved.beginsAlone (h : m.Saved) : m.BeginsAlone :=
  fun hc _ => h.active_none hc

theorem saved_of_none (ha : m.thread.active = none) (hc : m.thread.currentSignal < 0) :
    m.Saved where
  idle _ := hc
  interrupt state h := by cases ha.symm.trans h
  syscall retAddr h := by cases ha.symm.trans h

/-- A return ends whatever delivery there was. -/
theorem saved_finish : m.finish.Saved := saved_of_none rfl (by decide : (-1 : ℤ) < 0)

theorem Saved.raise (h : m.Saved) (n : ℕ) : (m.raise n).Saved := by
  unfold Machine.raise
  split_ifs
  · exact h.of_thread rfl rfl rfl rfl
  · exact h

theorem Saved.raiseAll (h : m.Saved) (raised : List ℕ) : (raised.foldl Machine.raise m).Saved := by
  induction raised generalizing m with
  | nil => exact h
  | cons n raised ih => exact ih (h.raise n)

theorem Saved.handleSignals (h : m.Saved) (state : Context) :
    (m.handleSignals state).1.Saved := by
  unfold Machine.handleSignals
  split
  · exact h.of_thread rfl rfl rfl rfl
  · exact
      { idle := fun ha => (by cases ha)
        interrupt := fun state' ha => (by cases ha; exact ⟨Int.natCast_nonneg _,rfl⟩)
        syscall := fun retAddr ha => (by cases ha) }

theorem Saved.interruptDelivery (h : m.Saved) (state : Context) :
    (m.interruptDelivery state).1.Saved := by
  unfold Machine.interruptDelivery
  split_ifs
  · exact h.handleSignals state
  · exact h

theorem commonHandler_eq (state : Context) :
    m.commonHandler state =
      if Returns (m.interruptDelivery state).2 then
        (m.interruptDelivery state).1.returnFromSignal
      else m.interruptDelivery state := rfl

theorem Saved.commonHandler (h : m.Saved) (state : Context) :
    (m.commonHandler state).1.Saved := by
  rw [commonHandler_eq]
  split_ifs
  · exact saved_finish
  · exact h.interruptDelivery state

theorem Saved.sysCall (h : m.Saved) (args : Word) (req : Request) :
    (m.sysCall args req).2.Saved := by
  cases req with
  | getHandler signum => exact h
  | getCurrent => exact h
  | signalReturn => exact saved_finish
  | other res mem => exact h.of_thread rfl rfl rfl rfl
  | raise signum =>
    simp only [Machine.sysCall]
    split_ifs
    · exact h
    · exact h.raise _
  | isEnabled signum =>
    simp only [Machine.sysCall]
    split_ifs <;> exact h
  | _ =>
    simp only [Machine.sysCall]
    split_ifs
    · exact h
    · exact h.of_thread rfl rfl rfl rfl

theorem Saved.deliver (h : m.Saved) (args : Word) : (m.deliver sigHandlerAsm args).Saved := by
  unfold Machine.deliver Machine.handleSyscallSignals
  split_ifs
  · split
    · exact h.of_thread rfl rfl rfl rfl
    · exact
        { idle := fun ha => (by cases ha)
          interrupt := fun state ha => (by cases ha)
          syscall := fun retAddr ha => (by cases ha; exact ⟨Int.natCast_nonneg _,rfl⟩) }
  · exact h

/-- Every event keeps what an active delivery has saved. -/
theorem Saved.apply (h : m.Saved) (e : Event) : (m.apply sigHandlerAsm e).Saved := by
  cases e with
  | interrupt state => exact h.commonHandler state
  | syscall args req raised => exact ((h.sysCall args req).raiseAll raised).deliver args
  | raise n => exact h.raise n
  | write mem => exact h.of_thread rfl rfl rfl rfl

/-- An event is right exactly when the return it makes, if any, has its delivery. -/
theorem Saved.right_iff (h : m.Saved) (e : Event) : m.Right e ↔ m.Matches e := by
  cases e with
  | raise n => exact Iff.rfl
  | write mem => exact Iff.rfl
  | interrupt state =>
    have hs := h.interruptDelivery state
    unfold Machine.Right Machine.Matches
    dsimp only
    rw [commonHandler_eq]
    by_cases hret : Returns (m.interruptDelivery state).2
    · rw [if_pos hret]
      constructor
      · rintro ⟨-,heq | ⟨-,ha,-⟩⟩ -
        · exact .inl heq
        · exact .inr ⟨_,ha⟩
      · intro hm
        refine ⟨h.beginsAlone,?_⟩
        rcases hm hret with heq | ⟨saved,ha⟩
        · exact .inl heq
        · obtain ⟨hc,hsaved⟩ := hs.interrupt _ ha
          refine .inr ⟨hret,?_,hc⟩
          rw [ha,← hsaved]
          rfl
    · rw [if_neg hret]
      exact iff_of_true ⟨h.beginsAlone,.inl rfl⟩ fun hr => absurd hr hret
  | syscall args req raised =>
    have hb := ((h.sysCall args req).raiseAll raised).beginsAlone
    unfold Machine.Right Machine.Matches
    constructor
    · rintro ⟨-,hr⟩ rfl
      have hslot : (m.sysCall args .signalReturn).2.mem (args - 4) = m.thread.signalRetAddr :=
        Function.update_self ..
      rcases hr rfl with heq | ⟨ha,-⟩
      · exact .inl (hslot.symm.trans heq)
      · exact .inr ⟨_,ha⟩
    · refine fun hm => ⟨hb,?_⟩
      rintro rfl
      have hslot : (m.sysCall args .signalReturn).2.mem (args - 4) = m.thread.signalRetAddr :=
        Function.update_self ..
      dsimp only
      rw [hslot]
      rcases hm rfl with heq | ⟨retAddr,ha⟩
      · exact .inl heq
      · obtain ⟨hc,hsaved⟩ := h.syscall _ ha
        exact .inr ⟨hsaved ▸ ha,hc⟩

end Saved

end Machine

/-- A thread as its constructor leaves it. Three of its fields are not initialized. -/
def Thread.created (signalHandlers : ℕ → Word) (savedMachineState : Context)
    (signalRetAddr : Word) : Thread where
  currentSignal := -1
  signalQueue := []
  signalHandlers := signalHandlers
  signalMask := 0
  savedMachineState := savedMachineState
  signalRetAddr := signalRetAddr
  active := none

/-- In every run of a thread each return is right exactly when each return has its delivery,
or puts back what is there. -/
theorem returns_right_iff (sigHandlerAsm : Word) (signalHandlers : ℕ → Word)
    (savedMachineState : Context) (signalRetAddr : Word) (mem : Word → Word)
    (events : List Event) :
    RunMeets (Machine.apply sigHandlerAsm) Machine.Right
        ⟨Thread.created signalHandlers savedMachineState signalRetAddr,mem⟩ events ↔
      RunMeets (Machine.apply sigHandlerAsm) Machine.Matches
        ⟨Thread.created signalHandlers savedMachineState signalRetAddr,mem⟩ events := by
  have hstart : Machine.Saved
      ⟨Thread.created signalHandlers savedMachineState signalRetAddr,mem⟩ :=
    Machine.saved_of_none rfl (by decide : (-1 : ℤ) < 0)
  exact runMeets_iff (fun m e hs => hs.right_iff e) (fun m e hs _ => hs.apply e) hstart

/-- A saved state in which everything is zero. -/
def zeroContext : Context :=
  ⟨0,0,0,0,0,0,0,0,0,0,0,0,0,0,0,0,0,0,0,0⟩

/-- A new thread makes interrupt 0x80 with EAX = 0, and its state is replaced by one that no
delivery has saved. -/
theorem forged_return :
    ¬RunMeets (Machine.apply 0) Machine.Right ⟨Thread.created (fun _ => 0) zeroContext 0,fun _ => 0⟩
      [.interrupt { zeroContext with interruptNumber := 0x80,cs := 0x1B,eip := 0x400000 }] := by
  rw [returns_right_iff]
  rintro ⟨h,-⟩
  have hret := h (by decide)
  revert hret
  simp [Machine.interruptDelivery,Machine.handleSignals,Machine.next,Thread.created,zeroContext,
    Machine.dropNext]

end WootOs.SignalDelivery
