import Mathlib.Data.BitVec

/-!
# Signal delivery

A signal that was raised waits in the queue of its thread until the thread is
about to go back to its program. There are two ways. At the end of an interrupt
the saved state of the program is kept and replaced by one that calls the
handler; the handler returns to an instruction that makes interrupt 0x80 with
EAX = 0. At the end of a syscall only the return address is kept and replaced
by that of a trampoline, which calls the handler and then makes
SYS_SIGNAL_RETURN.

The model has what the kernel reads and writes for this: the fields of the
thread and the memory of the program. A word stands at an address, and words
that overlap are not used. One field is not part of a thread: the delivery that
has begun and not ended.
-/

namespace WootOs.SignalDelivery

/-- A machine word or an address. -/
abbrev Word := BitVec 32

/-- SIGNAL_COUNT. -/
def signalCount : ℕ := 64

/-- The signals that Thread::SignalQueue has room for. -/
def queueCapacity : ℕ := 64

/-- EINVAL. -/
def einval : Word := 22

/-- ENOSYS. -/
def enosys : Word := 38

/-- Ints::State. -/
structure Context where
  /-- ESP. -/
  esp : Word
  /-- SS. -/
  ss : Word
  /-- GS. -/
  gs : Word
  /-- FS. -/
  fs : Word
  /-- ES. -/
  es : Word
  /-- DS. -/
  ds : Word
  /-- EDI. -/
  edi : Word
  /-- ESI. -/
  esi : Word
  /-- EBP. -/
  ebp : Word
  /-- EBX. -/
  ebx : Word
  /-- EDX. -/
  edx : Word
  /-- ECX. -/
  ecx : Word
  /-- EAX. -/
  eax : Word
  /-- InterruptNumber. -/
  interruptNumber : Word
  /-- ErrorCode. -/
  errorCode : Word
  /-- EIP. -/
  eip : Word
  /-- CS. -/
  cs : Word
  /-- EFLAGS. -/
  eflags : Word
  /-- UserESP. -/
  userESP : Word
  /-- UserSS. -/
  userSS : Word
  deriving DecidableEq

/-- A delivery, with what it saved. -/
inductive Delivery where
  /-- At the end of an interrupt. -/
  | interrupt (state : Context)
  /-- At the end of a syscall. -/
  | syscall (retAddr : Word)
  deriving DecidableEq

/-- The fields of a Thread that signals use. -/
structure Thread where
  /-- CurrentSignal. -/
  currentSignal : ℤ
  /-- SignalQueue, from the next signal on. -/
  signalQueue : List ℕ
  /-- SignalHandlers. -/
  signalHandlers : ℕ → Word
  /-- SignalMask. -/
  signalMask : BitVec 64
  /-- SavedMachineState. -/
  savedMachineState : Context
  /-- SignalRetAddr. -/
  signalRetAddr : Word
  /-- The delivery that has begun and not ended. -/
  active : Option Delivery

/-- A thread and the memory of its program. -/
structure Machine where
  /-- The thread. -/
  thread : Thread
  /-- The word at an address. -/
  mem : Word → Word

namespace Machine

variable (m : Machine)

/-- Store a word. -/
def store (a w : Word) : Machine := { m with mem := Function.update m.mem a w }

/-- The signal that is read from the queue, if it has a handler. -/
def next : Option ℕ :=
  match m.thread.signalQueue with
  | [] => none
  | n :: _ => if n < signalCount ∧ m.thread.signalHandlers n ≠ 0 then some n else none

/-- A signal is read from the queue. -/
def dropNext : Machine :=
  { m with thread := { m.thread with signalQueue := m.thread.signalQueue.tail } }

/-- A signal gets current. -/
def begin (n : ℕ) (d : Delivery) : Machine :=
  { m with thread := { m.thread with currentSignal := n,active := some d } }

/-- No signal is current any more. -/
def finish : Machine :=
  { m with thread := { m.thread with currentSignal := -1,active := none } }

/-- The code that a handler returns to: xor eax, eax / int 0x80. -/
def returnCode : Word := 0x80CDC031

/-- Signal::HandleSignals at the end of an interrupt. -/
def handleSignals (state : Context) : Machine × Context :=
  match m.next with
  | none => (m.dropNext,state)
  | some n =>
    let m' := m.dropNext.begin n (.interrupt state)
    let m' := { m' with thread := { m'.thread with savedMachineState := state } }
    let retAddr := state.userESP - 4
    (((m'.store retAddr returnCode).store (retAddr - 4) (BitVec.ofNat 32 n)).store
        (retAddr - 8) retAddr,
      { state with userESP := retAddr - 8,eip := m.thread.signalHandlers n })

/-- Signal::ReturnFromSignal. -/
def returnFromSignal : Machine × Context := (m.finish,m.thread.savedMachineState)

/-- The part of Ints::CommonHandler that may change the saved state. -/
def commonHandler (state : Context) : Machine × Context :=
  let r := if state.cs &&& 3 ≠ 0 ∧ m.thread.currentSignal < 0 then m.handleSignals state
    else (m,state)
  if r.2.interruptNumber = 0x80 ∧ r.2.eax = 0 then r.1.returnFromSignal else r

variable (sigHandlerAsm : Word)

/-- Signal::HandleSignals at the end of a syscall. -/
def handleSyscallSignals (retAddrAddr : Word) : Machine :=
  match m.next with
  | none => m.dropNext
  | some n =>
    let m' := m.dropNext.begin n (.syscall (m.mem retAddrAddr))
    let m' := { m' with thread := { m'.thread with signalRetAddr := m.mem retAddrAddr } }
    m'.store retAddrAddr sigHandlerAsm

/-- Signal::Raise, without waking the thread. -/
def raise (n : ℕ) : Machine :=
  if m.thread.signalMask.getLsbD n = true ∧ m.thread.signalQueue.length < queueCapacity then
    { m with thread := { m.thread with signalQueue := m.thread.signalQueue ++ [n] } }
  else m

end Machine

/-- A syscall, with its arguments. -/
inductive Request where
  /-- SYS_SIGNAL_GET_HANDLER. -/
  | getHandler (signum : Word)
  /-- SYS_SIGNAL_SET_HANDLER. -/
  | setHandler (signum handler : Word)
  /-- SYS_SIGNAL_IS_ENABLED. -/
  | isEnabled (signum : Word)
  /-- SYS_SIGNAL_ENABLE. -/
  | enable (signum : Word)
  /-- SYS_SIGNAL_DISABLE. -/
  | disable (signum : Word)
  /-- SYS_SIGNAL_RAISE, to the calling thread. -/
  | raise (signum : Word)
  /-- SYS_SIGNAL_RETURN. -/
  | signalReturn
  /-- SYS_SIGNAL_GET_CURRENT. -/
  | getCurrent
  /-- A syscall that has nothing to do with the signals of the thread. It may write to the
  memory of the program. -/
  | other (res : Word) (mem : Word → Word)

namespace Machine

variable (m : Machine)

/-- Change the signal mask. -/
def setMask (mask : BitVec 64) : Machine := { m with thread := { m.thread with signalMask := mask } }

/-- The syscalls. Their arguments are at an address. -/
def sysCall (args : Word) : Request → Word × Machine
  | .getHandler signum =>
    (if signum.toNat < signalCount then m.thread.signalHandlers signum.toNat else 0,m)
  | .setHandler signum handler =>
    if signum.toNat ≥ signalCount then (-einval,m)
    else
      (0,
        { m with
          thread :=
            { m.thread with
              signalHandlers :=
                Function.update m.thread.signalHandlers signum.toNat handler } })
  | .isEnabled signum =>
    let n := signum.toNat % 2 ^ 8
    if n ≥ signalCount then (-einval,m) else (if m.thread.signalMask.getLsbD n then 1 else 0,m)
  | .enable signum =>
    let n := signum.toNat % 2 ^ 8
    if n ≥ signalCount then (-einval,m)
    else (0,m.setMask (m.thread.signalMask ||| BitVec.twoPow 64 n))
  | .disable signum =>
    let n := signum.toNat % 2 ^ 8
    if n ≥ signalCount then (-einval,m)
    else (0,m.setMask (m.thread.signalMask &&& ~~~BitVec.twoPow 64 n))
  | .raise signum =>
    let n := signum.toNat % 2 ^ 8
    if n ≥ signalCount then (-einval,m) else (0,m.raise n)
  | .signalReturn => (0,(m.store (args - 4) m.thread.signalRetAddr).finish)
  | .getCurrent => (BitVec.ofInt 32 m.thread.currentSignal,m)
  | .other res mem => (res,{ m with mem := mem })

variable (sigHandlerAsm : Word)

/-- The end of SysCalls::handler. -/
def deliver (args : Word) : Machine :=
  if m.thread.currentSignal < 0 then m.handleSyscallSignals sigHandlerAsm (args - 4) else m

/-- SysCalls::handler, with the signals that other threads raise while it runs. -/
def sysHandler (args : Word) (req : Request) (raised : List ℕ) : Word × Machine :=
  let r := m.sysCall args req
  (r.1,(raised.foldl raise r.2).deliver sigHandlerAsm args)

end Machine

end WootOs.SignalDelivery
