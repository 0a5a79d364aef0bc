import WootOs.SignalDelivery

/-!
# A syscall with a pending signal

The detour of a program that finds a signal pending at the end of a syscall:
the kernel goes back to the trampoline, whose instructions make three syscalls
and call the handler. The last of them finds the next pending signal, so the
detour may start again. The instructions of the trampoline stand at addresses
one apart here, and the handler is a function of the program that follows the
C calling convention.

The trampoline does not keep EAX, so the program that resumes finds the result
of SYS_SIGNAL_RETURN in it. It also resumes four bytes lower on its stack for
every signal, as the number of that syscall is not taken off again.
-/

namespace WootOs.SignalDelivery

/-- The registers a program uses in the detour, its memory and its thread, and the signals
that were delivered and those whose handlers ran, with the handlers. -/
structure Program extends Machine where
  /-- EIP. -/
  eip : Word
  /-- ESP. -/
  esp : Word
  /-- EBP. -/
  ebp : Word
  /-- EAX. -/
  eax : Word
  /-- The signals delivered. -/
  delivered : List (Word × Word)
  /-- The signals whose handlers ran. -/
  ran : List (Word × Word)

/-- An instruction of the trampoline. -/
inductive Instr where
  /-- push of a number. -/
  | push (w : Word)
  /-- push eax. -/
  | pushEax
  /-- call __doSyscall. -/
  | callDoSyscall
  /-- add esp. -/
  | addEsp (n : Word)
  /-- call eax. -/
  | callEax
  /-- int3. -/
  | int3

/-- SYS_SIGNAL_GET_HANDLER. -/
def sysSignalGetHandler : Word := 144

/-- SYS_SIGNAL_RETURN. -/
def sysSignalReturn : Word := 150

/-- SYS_SIGNAL_GET_CURRENT. -/
def sysSignalGetCurrent : Word := 151

/-- __sigHandlerAsm. -/
def sigHandlerAsm : List Instr :=
  [.push sysSignalGetCurrent,.callDoSyscall,.addEsp 4,.pushEax,.pushEax,
    .push sysSignalGetHandler,.callDoSyscall,.addEsp 8,.callEax,.addEsp 4,
    .push sysSignalReturn,.callDoSyscall,.int3]

/-- The syscall whose number and arguments stand at an address. Of those that have nothing
to do with signals none is made here. -/
def requestAt (mem : Word → Word) (args : Word) : Request :=
  match (mem args).toNat with
  | 144 => .getHandler (mem (args + 4))
  | 145 => .setHandler (mem (args + 4)) (mem (args + 8))
  | 146 => .isEnabled (mem (args + 4))
  | 147 => .enable (mem (args + 4))
  | 148 => .disable (mem (args + 4))
  | 149 => .raise (mem (args + 8))
  | 150 => .signalReturn
  | 151 => .getCurrent
  | _ => .other (-enosys) mem

namespace Program

variable (base : Word) (p : Program)

/-- push. -/
def push (w : Word) : Program :=
  { p with toMachine := p.store (p.esp - 4) w,esp := p.esp - 4 }

/-- The end of a syscall: SysCalls::handler looks for a signal, and the program goes on behind
the call of the function that made the syscall with EBP. -/
def sysExit (m : Machine) (ebp res : Word) : Program :=
  let m' := m.deliver base (ebp + 8)
  { p with
    toMachine := m'
    eip := m'.mem (ebp + 4)
    esp := ebp + 8
    ebp := m'.mem ebp
    eax := res
    delivered := p.delivered ++
      if m.thread.currentSignal < 0 then
        (m.next.map fun n => (BitVec.ofNat 32 n,m.thread.signalHandlers n)).toList
      else [] }

/-- __doSyscall, called from an address. -/
def doSyscall : Program :=
  let p := (p.push (p.eip + 1)).push p.ebp
  let args := p.esp + 8
  let r := p.toMachine.sysCall args (requestAt p.mem args)
  p.sysExit base r.2 p.esp r.1

variable (handler : Word → Program → Program)

/-- One instruction; int3 is an exception. -/
def exec (p : Program) : Instr → Option Program
  | .push w => some { p.push w with eip := p.eip + 1 }
  | .pushEax => some { p.push p.eax with eip := p.eip + 1 }
  | .callDoSyscall => some (p.doSyscall base)
  | .addEsp n => some { p with esp := p.esp + n,eip := p.eip + 1 }
  | .callEax =>
    some (handler p.eax
      { p.push (p.eip + 1) with eip := p.eax,ran := p.ran ++ [(p.mem p.esp,p.eax)] })
  | .int3 => none

/-- The instruction of the trampoline that is next, if the program is in it. -/
def fetch : Option Instr := sigHandlerAsm[(p.eip - base).toNat]?

/-- The program has left the trampoline after a number of instructions at most. -/
def runFor : ℕ → Program → Option Program
  | 0,_ => none
  | fuel + 1,p =>
    match p.fetch base with
    | none => some p
    | some i => (p.exec base handler i).bind (runFor fuel)

/-- The program resumes behind its syscall. -/
def Resumes (p r : Program) : Prop := ∃ fuel,runFor base handler fuel p = some r

end Program

/-- A handler follows the C calling convention, and leaves it to the trampoline to return from
its signal. -/
structure Convention (handler : Word → Program → Program) : Prop where
  /-- It returns. -/
  eip : ∀ a p,(handler a p).eip = p.mem p.esp
  /-- Its argument is left on the stack. -/
  esp : ∀ a p,(handler a p).esp = p.esp + 4
  /-- Its signal is current until it has returned. -/
  currentSignal : ∀ a p,(handler a p).thread.currentSignal = p.thread.currentSignal
  /-- The return address of the program is kept. -/
  signalRetAddr : ∀ a p,(handler a p).thread.signalRetAddr = p.thread.signalRetAddr
  /-- No signal is delivered to it. -/
  delivered : ∀ a p,(handler a p).delivered = p.delivered
  /-- It runs once. -/
  ran : ∀ a p,(handler a p).ran = p.ran

namespace Program

variable {base : Word} {handler : Word → Program → Program} {p q r : Program}

/-! ### Instructions -/

/-- The memory when a syscall is made: the return address and EBP below its number. -/
def callFrame (p : Program) : Word → Word :=
  Function.update (Function.update p.mem (p.esp - 4) (p.eip + 1)) (p.esp - 8) p.ebp

theorem callFrame_above (p : Program) {a : Word} (h4 : a ≠ p.esp - 4) (h8 : a ≠ p.esp - 8) :
    p.callFrame a = p.mem a := by
  rw [callFrame,Function.update_of_ne h8,Function.update_of_ne h4]

theorem callFrame_return (p : Program) : p.callFrame (p.esp - 4) = p.eip + 1 := by
  rw [callFrame,Function.update_of_ne (by grind),Function.update_self]

theorem callFrame_ebp (p : Program) : p.callFrame (p.esp - 8) = p.ebp := by
  rw [callFrame,Function.update_self]

/-- What __doSyscall leaves, from what the syscall does. -/
theorem doSyscall_eq {res : Word} {m : Machine}
    (h : (⟨p.thread,p.callFrame⟩ : Machine).sysCall p.esp (requestAt p.callFrame p.esp) =
      (res,m)) : p.doSyscall base = p.sysExit base m (p.esp - 8) res := by
  have h8 : p.esp - 4 - 4 = p.esp - 8 := by grind
  have h0 : p.esp - 8 + 8 = p.esp := by grind
  have hpush : (p.push (p.eip + 1)).push p.ebp =
      { p with toMachine := ⟨p.thread,p.callFrame⟩,esp := p.esp - 8 } := by
    simp only [push,Machine.store,callFrame,h8]
  unfold doSyscall
  rw [hpush]
  dsimp only
  rw [h0,h]
  rfl

/-- A syscall of the trampoline while a signal is current. -/
theorem doSyscall_current {res : Word}
    (h : (⟨p.thread,p.callFrame⟩ : Machine).sysCall p.esp (requestAt p.callFrame p.esp) =
      (res,⟨p.thread,p.callFrame⟩)) (hc : 0 ≤ p.thread.currentSignal) :
    p.doSyscall base = { p with mem := p.callFrame,eip := p.eip + 1,eax := res } := by
  have h4 : p.esp - 8 + 4 = p.esp - 4 := by grind
  have h0 : p.esp - 8 + 8 = p.esp := by grind
  rw [doSyscall_eq h,sysExit,Machine.deliver,if_neg (by exact not_lt.mpr hc)]
  dsimp only
  rw [h4,h0,callFrame_return,callFrame_ebp,if_neg (not_lt.mpr hc),List.append_nil]

theorem fetch_at {i : ℕ} (h : p.eip = base + BitVec.ofNat 32 i) (hi : i < 2 ^ 32) :
    p.fetch base = sigHandlerAsm[i]? := by
  have hsub : base + BitVec.ofNat 32 i - base = BitVec.ofNat 32 i := by grind
  rw [fetch,h,hsub,BitVec.toNat_ofNat,Nat.mod_eq_of_lt hi]

/-- A number of instructions leads from one state to another, all of them in the trampoline. -/
def Goes (base : Word) (handler : Word → Program → Program) (n : ℕ) (p q : Program) : Prop :=
  (∀ k,runFor base handler (k + n) p = runFor base handler k q) ∧
    ∀ k < n,runFor base handler k p = none

theorem Goes.trans {n m : ℕ} (h : Goes base handler n p q) (h' : Goes base handler m q r) :
    Goes base handler (m + n) p r := by
  constructor
  · intro k
    rw [← Nat.add_assoc,h.1,h'.1]
  · intro k hk
    by_cases hn : k < n
    · exact h.2 k hn
    · obtain ⟨j,rfl⟩ := Nat.exists_eq_add_of_le' (Nat.le_of_not_lt hn)
      rw [h.1]
      exact h'.2 j (by omega)

/-- One instruction of the trampoline. -/
theorem goes_one {i : ℕ} {instr : Instr} (hp : p.eip = base + BitVec.ofNat 32 i)
    (hi : sigHandlerAsm[i]? = some instr) (he : p.exec base handler instr = some q) :
    Goes base handler 1 p q := by
  have hlt : i < sigHandlerAsm.length := (List.getElem?_eq_some_iff.mp hi).1
  have hlen : sigHandlerAsm.length = 13 := rfl
  have hf : p.fetch base = some instr := (fetch_at hp (by omega)).trans hi
  constructor
  · intro k
    rw [runFor,hf]
    dsimp only
    rw [he,Option.bind_some]
  · intro k hk
    obtain rfl : k = 0 := by omega
    rfl

/-- The address behind an instruction. -/
theorem next_address {i : ℕ} (hp : p.eip = base + BitVec.ofNat 32 i) :
    p.eip + 1 = base + BitVec.ofNat 32 (i + 1) := by
  rw [hp,BitVec.ofNat_add,BitVec.add_assoc]
  rfl

/-! ### One detour -/

/-- A program that is about to make a detour for a signal, which it was delivered last. -/
structure Detours (base ret top : Word) (p : Program) (n : ℕ) : Prop where
  /-- It is at the start of the trampoline. -/
  eip : p.eip = base
  /-- Every handler that has run has left its stack four bytes lower. -/
  esp : p.esp = top - BitVec.ofNat 32 (4 * p.ran.length)
  /-- The signal is current. -/
  current : p.thread.currentSignal = n
  /-- The signal has a number. -/
  lt : n < signalCount
  /-- The return address is kept. -/
  ret : p.thread.signalRetAddr = ret
  /-- Its handler has not run, and those of the signals before it have. -/
  delivered : p.delivered = p.ran ++ [(BitVec.ofNat 32 n,p.thread.signalHandlers n)]

/-- The start of a handler: its argument and its return address are on the stack. -/
structure Starts (base : Word) (p q : Program) (n : ℕ) : Prop where
  /-- The return address. -/
  returns : q.mem q.esp = base + 9
  /-- The stack. -/
  esp : q.esp = p.esp - 8
  /-- The thread. -/
  thread : q.thread = p.thread
  /-- The signals delivered. -/
  delivered : q.delivered = p.delivered
  /-- The handlers that have run. -/
  ran : q.ran = p.ran ++ [(BitVec.ofNat 32 n,p.thread.signalHandlers n)]

theorem goes_push {i : ℕ} {w : Word} (hp : p.eip = base + BitVec.ofNat 32 i)
    (hi : sigHandlerAsm[i]? = some (.push w)) :
    Goes base handler 1 p { p.push w with eip := base + BitVec.ofNat 32 (i + 1) } := by
  refine goes_one hp hi ?_
  rw [exec,next_address hp]

theorem goes_pushEax {i : ℕ} (hp : p.eip = base + BitVec.ofNat 32 i)
    (hi : sigHandlerAsm[i]? = some .pushEax) :
    Goes base handler 1 p { p.push p.eax with eip := base + BitVec.ofNat 32 (i + 1) } := by
  refine goes_one hp hi ?_
  rw [exec,next_address hp]

theorem goes_addEsp {i : ℕ} {n : Word} (hp : p.eip = base + BitVec.ofNat 32 i)
    (hi : sigHandlerAsm[i]? = some (.addEsp n)) :
    Goes base handler 1 p
      { p with esp := p.esp + n,eip := base + BitVec.ofNat 32 (i + 1) } := by
  refine goes_one hp hi ?_
  rw [exec,next_address hp]

/-- A syscall of the trampoline while a signal is current. -/
theorem goes_current {i : ℕ} {res : Word} (hp : p.eip = base + BitVec.ofNat 32 i)
    (hi : sigHandlerAsm[i]? = some .callDoSyscall)
    (h : (⟨p.thread,p.callFrame⟩ : Machine).sysCall p.esp (requestAt p.callFrame p.esp) =
      (res,⟨p.thread,p.callFrame⟩)) (hc : 0 ≤ p.thread.currentSignal) :
    Goes base handler 1 p
      { p with mem := p.callFrame,eip := base + BitVec.ofNat 32 (i + 1),eax := res } := by
  refine goes_one hp hi ?_
  rw [exec,doSyscall_current h hc,next_address hp]

/-- The number of a syscall is where it was pushed. -/
theorem callFrame_push (p : Program) (w : Word) (eip : Word) :
    ({ p.push w with eip := eip } : Program).callFrame (p.esp - 4) = w := by
  rw [callFrame_above]
  · exact Function.update_self ..
  · change p.esp - 4 ≠ p.esp - 4 - 4
    grind
  · change p.esp - 4 ≠ p.esp - 4 - 8
    grind

theorem push_esp (p : Program) (w : Word) : (p.push w).mem (p.esp - 4) = w :=
  Function.update_self ..

theorem push_above (p : Program) (w : Word) {a : Word} (h : a ≠ p.esp - 4) :
    (p.push w).mem a = p.mem a :=
  Function.update_of_ne h ..

/-- The way to the handler. -/
theorem Detours.toHandler {ret top : Word} {n : ℕ} (h : Detours base ret top p n)
    (handler : Word → Program → Program) :
    ∃ q,Goes base handler 9 p (handler (p.thread.signalHandlers n) q) ∧ Starts base p q n := by
  have hc : 0 ≤ p.thread.currentSignal := by
    rw [h.current]
    exact Int.natCast_nonneg n
  have hnat : (BitVec.ofNat 32 n).toNat = n := by
    rw [BitVec.toNat_ofNat,Nat.mod_eq_of_lt]
    have := h.lt
    rw [signalCount] at this
    omega
  have h0 : p.eip = base + BitVec.ofNat 32 0 := by
    rw [h.eip]
    grind
  -- SYS_SIGNAL_GET_CURRENT
  let p₁ : Program := { p.push sysSignalGetCurrent with eip := base + BitVec.ofNat 32 1 }
  have g₁ : Goes base handler 1 p p₁ := goes_push h0 rfl
  have hnum₁ : p₁.callFrame p₁.esp = sysSignalGetCurrent := callFrame_push p _ _
  have hcall₁ : (⟨p₁.thread,p₁.callFrame⟩ : Machine).sysCall p₁.esp
      (requestAt p₁.callFrame p₁.esp) = (BitVec.ofNat 32 n,⟨p₁.thread,p₁.callFrame⟩) := by
    have hreq : requestAt p₁.callFrame p₁.esp = .getCurrent := by
      rw [requestAt,hnum₁]
      rfl
    rw [hreq,Machine.sysCall]
    change (BitVec.ofInt 32 p.thread.currentSignal,_) = _
    rw [h.current,BitVec.ofInt_natCast]
  let p₂ : Program :=
    { p₁ with
      mem := p₁.callFrame
      eip := base + BitVec.ofNat 32 2
      eax := BitVec.ofNat 32 n }
  have g₂ : Goes base handler 1 p₁ p₂ := goes_current rfl rfl hcall₁ hc
  let p₃ : Program := { p₂ with esp := p₂.esp + 4,eip := base + BitVec.ofNat 32 3 }
  have g₃ : Goes base handler 1 p₂ p₃ := goes_addEsp rfl rfl
  -- SYS_SIGNAL_GET_HANDLER
  let p₄ : Program := { p₃.push p₃.eax with eip := base + BitVec.ofNat 32 4 }
  have g₄ : Goes base handler 1 p₃ p₄ := goes_pushEax rfl rfl
  let p₅ : Program := { p₄.push p₄.eax with eip := base + BitVec.ofNat 32 5 }
  have g₅ : Goes base handler 1 p₄ p₅ := goes_pushEax rfl rfl
  let p₆ : Program := { p₅.push sysSignalGetHandler with eip := base + BitVec.ofNat 32 6 }
  have g₆ : Goes base handler 1 p₅ p₆ := goes_push rfl rfl
  have he₃ : p₃.esp = p.esp := by
    change p.esp - 4 + 4 = p.esp
    grind
  have he₄ : p₄.esp = p.esp - 4 := by
    change p₃.esp - 4 = _
    rw [he₃]
  have he₅ : p₅.esp = p.esp - 8 := by
    change p₄.esp - 4 = _
    rw [he₄]
    grind
  have he₆ : p₆.esp = p.esp - 12 := by
    change p₅.esp - 4 = _
    rw [he₅]
    grind
  have hframe₆ {a : Word} (ha : a ≠ p.esp - 12) (ha4 : a ≠ p.esp - 16) (ha8 : a ≠ p.esp - 20) :
      p₆.callFrame a = p₅.mem a := by
    have h4 : p₆.esp - 4 = p.esp - 16 := by grind
    have h8 : p₆.esp - 8 = p.esp - 20 := by grind
    have h12 : p₅.esp - 4 = p.esp - 12 := by grind
    rw [callFrame_above _ (h4 ▸ ha4) (h8 ▸ ha8)]
    exact push_above p₅ _ (h12 ▸ ha)
  have harg₅ : p₅.mem (p.esp - 8) = BitVec.ofNat 32 n := by
    rw [← he₅]
    exact push_esp p₄ _
  have harg₄ : p₅.mem (p.esp - 4) = BitVec.ofNat 32 n := by
    have hne : p.esp - 4 ≠ p₄.esp - 4 := by grind
    rw [show p₅.mem (p.esp - 4) = p₄.mem (p.esp - 4) from push_above p₄ _ hne,← he₄]
    exact push_esp p₃ _
  have hnum₆ : p₆.callFrame p₆.esp = sysSignalGetHandler := callFrame_push p₅ _ _
  have hcall₆ : (⟨p₆.thread,p₆.callFrame⟩ : Machine).sysCall p₆.esp
      (requestAt p₆.callFrame p₆.esp) =
        (p.thread.signalHandlers n,⟨p₆.thread,p₆.callFrame⟩) := by
    have hsig : p₆.callFrame (p₆.esp + 4) = BitVec.ofNat 32 n := by
      have h8 : p₆.esp + 4 = p.esp - 8 := by grind
      rw [h8,hframe₆ (by grind) (by grind) (by grind),harg₅]
    have hreq : requestAt p₆.callFrame p₆.esp = .getHandler (BitVec.ofNat 32 n) := by
      rw [requestAt,hnum₆,hsig]
      rfl
    rw [hreq,Machine.sysCall,hnat,if_pos h.lt]
    rfl
  let p₇ : Program :=
    { p₆ with
      mem := p₆.callFrame
      eip := base + BitVec.ofNat 32 7
      eax := p.thread.signalHandlers n }
  have g₇ : Goes base handler 1 p₆ p₇ := goes_current rfl rfl hcall₆ hc
  let p₈ : Program := { p₇ with esp := p₇.esp + 8,eip := base + BitVec.ofNat 32 8 }
  have g₈ : Goes base handler 1 p₇ p₈ := goes_addEsp rfl rfl
  have he₈ : p₈.esp = p.esp - 4 := by
    change p₆.esp + 8 = _
    rw [he₆]
    grind
  -- The call of the handler
  let q : Program :=
    { p₈.push (p₈.eip + 1) with
      eip := p₈.eax
      ran := p₈.ran ++ [(p₈.mem p₈.esp,p₈.eax)] }
  have g₉ : Goes base handler 1 p₈ (handler (p.thread.signalHandlers n) q) :=
    goes_one (i := 8) rfl rfl rfl
  refine ⟨q,((((((((g₁.trans g₂).trans g₃).trans g₄).trans g₅).trans g₆).trans g₇).trans
    g₈).trans g₉),?_⟩
  have hmem₈ : p₈.mem p₈.esp = BitVec.ofNat 32 n := by
    rw [he₈]
    change p₆.callFrame (p.esp - 4) = _
    rw [hframe₆ (by grind) (by grind) (by grind),harg₄]
  exact
    { returns := by
        change (p₈.push (p₈.eip + 1)).mem (p₈.esp - 4) = _
        rw [push_esp]
        change base + BitVec.ofNat 32 8 + 1 = _
        grind
      esp := by
        change p₈.esp - 4 = _
        rw [he₈]
        grind
      thread := rfl
      delivered := rfl
      ran := by
        change p.ran ++ [(p₈.mem p₈.esp,_)] = _
        rw [hmem₈] }

/-- What SYS_SIGNAL_RETURN does to the machine: the return address is put back. -/
def returned (p : Program) : Machine :=
  ((⟨p.thread,p.callFrame⟩ : Machine).store (p.esp - 4) p.thread.signalRetAddr).finish

/-- The program after a syscall of SYS_SIGNAL_RETURN. -/
theorem doSyscall_return (h : p.callFrame p.esp = sysSignalReturn) :
    p.doSyscall base = p.sysExit base p.returned (p.esp - 8) 0 := by
  refine doSyscall_eq ?_
  have hreq : requestAt p.callFrame p.esp = .signalReturn := by
    rw [requestAt,h]
    rfl
  rw [hreq]
  rfl

theorem next_lt {m : Machine} {n : ℕ} (h : m.next = some n) : n < signalCount := by
  unfold Machine.next at h
  split at h
  · cases h
  · split_ifs at h with hn
    cases h
    exact hn.1

/-- A signal that is pending at the end of a syscall sends the program on a detour. -/
theorem detours_sysExit {m : Machine} {n : ℕ} {ebp res top : Word}
    (hcur : m.thread.currentSignal < 0) (hnext : m.next = some n) (hran : p.delivered = p.ran)
    (hesp : ebp + 8 = top - BitVec.ofNat 32 (4 * p.ran.length)) :
    Detours base (m.mem (ebp + 4)) top (p.sysExit base m ebp res) n := by
  have h4 : ebp + 8 - 4 = ebp + 4 := by grind
  have hdel : m.deliver base (ebp + 8) =
      (({ (m.dropNext.begin n (.syscall (m.mem (ebp + 4)))) with
        thread :=
          { (m.dropNext.begin n (.syscall (m.mem (ebp + 4)))).thread with
            signalRetAddr := m.mem (ebp + 4) } } : Machine).store (ebp + 4) base) := by
    rw [Machine.deliver,if_pos hcur,Machine.handleSyscallSignals,hnext,h4]
  have hm : (p.sysExit base m ebp res).toMachine = m.deliver base (ebp + 8) := rfl
  rw [hdel] at hm
  exact
    { eip := by
        change (p.sysExit base m ebp res).toMachine.mem (ebp + 4) = _
        rw [hm]
        exact Function.update_self ..
      esp := hesp
      current := by
        rw [hm]
        rfl
      lt := next_lt hnext
      ret := by
        rw [hm]
        rfl
      delivered := by
        change p.delivered ++ _ =
          p.ran ++ [(_,(p.sysExit base m ebp res).toMachine.thread.signalHandlers n)]
        rw [if_pos hcur,hnext,hran,hm]
        rfl }

/-- After SYS_SIGNAL_RETURN the program goes back, or makes the next detour. -/
theorem sysExit_returned {n : ℕ} {top : Word} (hran : p.delivered = p.ran)
    (hesp : p.esp = top - BitVec.ofNat 32 (4 * p.ran.length)) :
    let r := p.sysExit base p.returned (p.esp - 8) 0
    (p.returned.next = none → r.eip = p.thread.signalRetAddr ∧ r.delivered = r.ran) ∧
      (p.returned.next = some n → Detours base p.thread.signalRetAddr top r n) := by
  have h0 : p.esp - 8 + 8 = p.esp := by grind
  have h4 : p.esp - 8 + 4 = p.esp - 4 := by grind
  have hslot : p.returned.mem (p.esp - 8 + 4) = p.thread.signalRetAddr := by
    rw [h4]
    exact Function.update_self ..
  have hcur : p.returned.thread.currentSignal < 0 := (by decide : (-1 : ℤ) < 0)
  intro r
  constructor
  · intro hnext
    constructor
    · change ((p.returned.deliver base (p.esp - 8 + 8)).mem (p.esp - 8 + 4)) = _
      rw [Machine.deliver,if_pos hcur,Machine.handleSyscallSignals,hnext]
      exact hslot
    · change p.delivered ++ _ = p.ran
      rw [if_pos hcur,hnext,hran]
      exact List.append_nil _
  · intro hnext
    have hd := @detours_sysExit base p _ n _ 0 top hcur hnext hran (h0.trans hesp)
    rw [hslot] at hd
    exact hd

/-- The way back from the handler. -/
theorem goes_back (handler : Word → Program → Program) (hp : p.eip = base + 9) :
    ∃ r,Goes base handler 3 p (sysExit base r r.returned (r.esp - 8) 0) ∧
      r.thread = p.thread ∧ r.delivered = p.delivered ∧ r.ran = p.ran ∧ r.esp = p.esp := by
  let p₁ : Program := { p with esp := p.esp + 4,eip := base + BitVec.ofNat 32 10 }
  have g₁ : Goes base handler 1 p p₁ := goes_addEsp (i := 9) hp rfl
  let p₂ : Program := { p₁.push sysSignalReturn with eip := base + BitVec.ofNat 32 11 }
  have g₂ : Goes base handler 1 p₁ p₂ := goes_push rfl rfl
  have hnum : p₂.callFrame p₂.esp = sysSignalReturn := callFrame_push p₁ _ _
  have hexec : p₂.exec base handler .callDoSyscall =
      some (p₂.sysExit base p₂.returned (p₂.esp - 8) 0) := by
    rw [exec,doSyscall_return hnum]
  have g₃ := goes_one (i := 11) rfl rfl hexec
  refine ⟨p₂,(g₁.trans g₂).trans g₃,rfl,rfl,rfl,?_⟩
  change p.esp + 4 - 4 = p.esp
  grind

/-! ### The whole way -/

/-- A handler raises no signal for its own thread, and no other thread does meanwhile. -/
def Quiet (handler : Word → Program → Program) : Prop :=
  ∀ a p,(handler a p).thread.signalQueue = p.thread.signalQueue

/-- The program is behind its syscall, and every signal that was delivered has been handled. -/
structure Resumed (ret top : Word) (r : Program) : Prop where
  /-- It is where its syscall returns to. -/
  eip : r.eip = ret
  /-- It finds the result of SYS_SIGNAL_RETURN. -/
  eax : r.eax = 0
  /-- Every handler has run once for each delivery. -/
  ran : r.ran = r.delivered
  /-- Its stack is four bytes lower for every handler. -/
  esp : r.esp = top - BitVec.ofNat 32 (4 * r.ran.length)

/-- One detour, and what comes after it. -/
theorem Detours.step {ret top : Word} {n : ℕ} (h : Detours base ret top p n)
    (hc : Convention handler) :
    ∃ r,Goes base handler 12 p r ∧ p.delivered <+: r.delivered ∧
      (Resumed ret top r ∨ ∃ n',Detours base ret top r n' ∧
        (Quiet handler → r.thread.signalQueue.length < p.thread.signalQueue.length)) := by
  obtain ⟨q,hgo,hq⟩ := h.toHandler handler
  set a := p.thread.signalHandlers n
  obtain ⟨r,hback,hthread,hdelivered,hran,hesp⟩ :=
    goes_back handler ((hc.eip a q).trans hq.returns)
  have hrun : r.delivered = r.ran := by
    rw [hdelivered,hran,hc.delivered,hc.ran,hq.delivered,hq.ran]
    exact h.delivered
  have htop : r.esp = top - BitVec.ofNat 32 (4 * r.ran.length) := by
    have hlen : 4 * r.ran.length = 4 * p.ran.length + 4 := by
      rw [hran,hc.ran,hq.ran,List.length_append]
      rfl
    rw [hesp,hc.esp,hq.esp,h.esp,hlen,BitVec.ofNat_add]
    grind
  have hret : r.thread.signalRetAddr = ret := by
    rw [hthread,hc.signalRetAddr,hq.thread]
    exact h.ret
  have hqueue (hquiet : Quiet handler) : r.thread.signalQueue = p.thread.signalQueue := by
    rw [hthread,hquiet a q,hq.thread]
  refine ⟨_,hgo.trans hback,?_,?_⟩
  · refine List.IsPrefix.trans ?_ (List.prefix_append _ _)
    rw [hdelivered,hc.delivered,hq.delivered]
  · cases hnext : r.returned.next with
    | none =>
      obtain ⟨heip,hdel⟩ := (@sysExit_returned base r n top hrun htop).1 hnext
      refine .inl ⟨heip.trans hret,rfl,hdel.symm,?_⟩
      have h0 : r.esp - 8 + 8 = r.esp := by grind
      exact h0.trans htop
    | some n' =>
      have hd : Detours base ret top (sysExit base r r.returned (r.esp - 8) 0) n' := by
        rw [← hret]
        exact (@sysExit_returned base r n' top hrun htop).2 hnext
      refine .inr ⟨n',hd,fun hquiet => ?_⟩
      have hne : r.thread.signalQueue ≠ [] := by
        intro hnil
        have hnone : r.returned.next = none := by
          rw [Machine.next,show r.returned.thread.signalQueue = [] from hnil]
        cases hnone.symm.trans hnext
      have htail : (sysExit base r r.returned (r.esp - 8) 0).thread.signalQueue =
          r.thread.signalQueue.tail := by
        have hcur : r.returned.thread.currentSignal < 0 := (by decide : (-1 : ℤ) < 0)
        change (r.returned.deliver base _).thread.signalQueue = _
        rw [Machine.deliver,if_pos hcur,Machine.handleSyscallSignals,hnext]
        rfl
      rw [htail,← hqueue hquiet,List.length_tail]
      have := List.length_pos_iff.mpr hne
      omega

/-- An address in the trampoline. -/
def InTrampoline (base a : Word) : Prop := (a - base).toNat < sigHandlerAsm.length

theorem fetch_outside {a : Word} (h : ¬InTrampoline base a) (hp : p.eip = a) :
    p.fetch base = none := by
  rw [fetch,hp]
  exact List.getElem?_eq_none (Nat.le_of_not_lt h)

/-- However often a signal comes, the program that resumes has been through all of them. -/
theorem Detours.resumed {ret top : Word} (hc : Convention handler) (ho : ¬InTrampoline base ret)
    (fuel : ℕ) : ∀ p n,Detours base ret top p n → runFor base handler fuel p = some r →
      Resumed ret top r ∧ p.delivered <+: r.delivered := by
  induction fuel using Nat.strong_induction_on with
  | _ fuel ih =>
    intro p n h hr
    obtain ⟨q,hgo,hpre,hq⟩ := h.step hc
    have hle : 12 ≤ fuel := by
      by_contra hlt
      cases (hgo.2 fuel (by omega)).symm.trans hr
    obtain ⟨k,rfl⟩ := Nat.exists_eq_add_of_le' hle
    rw [hgo.1] at hr
    rcases hq with hres | ⟨n',hd,-⟩
    · cases k with
      | zero => cases hr
      | succ k =>
        rw [runFor,fetch_outside ho hres.eip] at hr
        cases hr
        exact ⟨hres,hpre⟩
    · obtain ⟨hres,hpre'⟩ := ih k (by omega) q n' hd hr
      exact ⟨hres,hpre.trans hpre'⟩

/-- Handlers that raise no signals come to an end. -/
theorem Detours.ends {ret top : Word} (hc : Convention handler) (hquiet : Quiet handler)
    (ho : ¬InTrampoline base ret) (len : ℕ) : ∀ p n,p.thread.signalQueue.length = len →
      Detours base ret top p n → ∃ r,Resumes base handler p r := by
  induction len using Nat.strong_induction_on with
  | _ len ih =>
    intro p n hlen h
    obtain ⟨q,hgo,-,hq⟩ := h.step hc
    rcases hq with hres | ⟨n',hd,hlt⟩
    · refine ⟨q,1 + 12,?_⟩
      rw [hgo.1,runFor,fetch_outside ho hres.eip]
    · obtain ⟨r,fuel,hr⟩ := ih _ (hlen ▸ hlt hquiet) q n' rfl hd
      exact ⟨r,fuel + 12,(hgo.1 fuel).trans hr⟩

/-- A program behind its syscall: no detour has been made yet. -/
def leave (base : Word) (m : Machine) (ebp res : Word) : Program :=
  sysExit base ⟨m,0,0,0,0,[],[]⟩ m ebp res

/-- The machine without its pending signals. -/
def withoutSignals (m : Machine) : Machine :=
  { m with thread := { m.thread with signalQueue := [] } }

/-- The program resumes at the address and with the result it would have had without the
signal, and the handlers have run once for each signal delivered, this one first. -/
def Transparent (base : Word) (m : Machine) (ebp res : Word) (n : ℕ) (r : Program) : Prop :=
  r.eip = (leave base (withoutSignals m) ebp res).eip ∧
    r.eax = (leave base (withoutSignals m) ebp res).eax ∧
      r.ran = r.delivered ∧ [(BitVec.ofNat 32 n,m.thread.signalHandlers n)] <+: r.ran

theorem leave_withoutSignals (m : Machine) (ebp res : Word) :
    (leave base (withoutSignals m) ebp res).eip = m.mem (ebp + 4) ∧
      (leave base (withoutSignals m) ebp res).eax = res := by
  refine ⟨?_,rfl⟩
  change ((withoutSignals m).deliver base (ebp + 8)).mem (ebp + 4) = _
  unfold Machine.deliver
  split_ifs <;> rfl

/-- A program whose syscall ends with a signal pending makes its way back. -/
theorem leave_resumed {m : Machine} {n : ℕ} (hc : Convention handler)
    (hcur : m.thread.currentSignal < 0) (hnext : m.next = some n) (ebp res : Word)
    (ho : ¬InTrampoline base (m.mem (ebp + 4))) :
    (∀ r,Resumes base handler (leave base m ebp res) r →
      Resumed (m.mem (ebp + 4)) (ebp + 8) r ∧
        [(BitVec.ofNat 32 n,m.thread.signalHandlers n)] <+: r.ran) ∧
      (Quiet handler → ∃ r,Resumes base handler (leave base m ebp res) r) := by
  have hd : Detours base (m.mem (ebp + 4)) (ebp + 8) (leave base m ebp res) n := by
    refine detours_sysExit hcur hnext rfl ?_
    change ebp + 8 = ebp + 8 - 0
    grind
  constructor
  · rintro r ⟨fuel,hr⟩
    obtain ⟨hres,hpre⟩ := Detours.resumed hc ho fuel _ n hd hr
    refine ⟨hres,?_⟩
    rw [hres.ran]
    refine List.IsPrefix.trans ?_ hpre
    change _ <+: [] ++ _
    rw [if_pos hcur,hnext]
    exact List.prefix_refl _
  · exact fun hquiet => Detours.ends hc hquiet ho _ _ n rfl hd

/-- A handler that returns at once. -/
def returning (_ : Word) (p : Program) : Program :=
  { p with eip := p.mem p.esp,esp := p.esp + 4 }

theorem convention_returning : Convention returning :=
  ⟨fun _ _ => rfl,fun _ _ => rfl,fun _ _ => rfl,fun _ _ => rfl,fun _ _ => rfl,fun _ _ => rfl⟩

/-- A program that returns to address 0x8000 from its syscall, with signal 1 pending. -/
def onePending : Machine where
  thread :=
    { currentSignal := -1
      signalQueue := [1]
      signalHandlers := fun _ => 0x400000
      signalMask := 2
      savedMachineState := ⟨0,0,0,0,0,0,0,0,0,0,0,0,0,0,0,0,0,0,0,0⟩
      signalRetAddr := 0
      active := none }
  mem _ := 0x8000

end Program

end WootOs.SignalDelivery
