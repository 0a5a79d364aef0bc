import WootOs.LittleEndian

/-!
# Interrupts in virtual 8086 mode

Instructions that trap in virtual 8086 mode are done by exceptionCallback, on the
registers that the trap has saved and on memory by segment and offset. INT pushes
flags, segment and offset and goes where the vector table says; IRET pops them.
Offsets are words, so the stack and the instruction pointer go around at the end
of their segments, and a word at the last offset ends behind its segment.
-/

namespace WootOs.V86

open ByteMemory

section Registers

/-- A register with another low word. -/
def setLow (x : Word) (v : BitVec 16) : Word := x.extractLsb' 16 16 ++ v

/-- Ints::State. -/
structure State where
  /-- ESP. -/
  esp : Word
  /-- SS. -/
  ss : Word
  /-- GS. -/
  gs : Word
  /-- FS. -/
  fs : Word
  /-- ES. -/
  es : Word
  /-- DS. -/
  ds : Word
  /-- EDI. -/
  edi : Word
  /-- ESI. -/
  esi : Word
  /-- EBP. -/
  ebp : Word
  /-- EBX. -/
  ebx : Word
  /-- EDX. -/
  edx : Word
  /-- ECX. -/
  ecx : Word
  /-- EAX. -/
  eax : Word
  /-- InterruptNumber. -/
  interruptNumber : Word
  /-- ErrorCode. -/
  errorCode : Word
  /-- EIP. -/
  eip : Word
  /-- CS. -/
  cs : BitVec 16
  /-- EFLAGS. -/
  eflags : Word
  /-- UserESP. -/
  userESP : Word
  /-- UserSS. -/
  userSS : BitVec 16

namespace State

variable (s : State)

/-- AL. -/
def al : BitVec 8 := s.eax.setWidth 8

/-- AX. -/
def ax : BitVec 16 := s.eax.setWidth 16

/-- DX. -/
def dx : BitVec 16 := s.edx.setWidth 16

/-- IP. -/
def ip : BitVec 16 := s.eip.setWidth 16

/-- FLAGS. -/
def flags : BitVec 16 := s.eflags.setWidth 16

/-- UserSP. -/
def userSP : BitVec 16 := s.userESP.setWidth 16

/-- Another AL. -/
def setAl (v : BitVec 8) : State := { s with eax := s.eax.extractLsb' 8 24 ++ v }

/-- Another AX. -/
def setAx (v : BitVec 16) : State := { s with eax := setLow s.eax v }

/-- Another IP. -/
def setIp (v : BitVec 16) : State := { s with eip := setLow s.eip v }

/-- Other FLAGS. -/
def setFlags (v : BitVec 16) : State := { s with eflags := setLow s.eflags v }

/-- Another UserSP. -/
def setUserSP (v : BitVec 16) : State := { s with userESP := setLow s.userESP v }

end State

/-- What is written to a port. -/
inductive PortWrite where
  /-- _outb. -/
  | byte (port : BitVec 16) (v : BitVec 8)
  /-- _outw. -/
  | word (port : BitVec 16) (v : BitVec 16)
  /-- _outl. -/
  | long (port : BitVec 16) (v : Word)

/-- What ports answer. -/
structure Ports where
  /-- _inb. -/
  inb : BitVec 16 → BitVec 8
  /-- _inw. -/
  inw : BitVec 16 → BitVec 16
  /-- _inl. -/
  inl : BitVec 16 → Word

/-- The registers, the memory, the registers to go back to and the ports. -/
structure Machine where
  /-- The registers. -/
  state : State
  /-- Memory. -/
  memory : Memory
  /-- V86::cpuState. -/
  cpuState : State
  /-- What has been written to ports. -/
  writes : List PortWrite

end Registers

section Instructions

/-- The address of a segment and an offset. -/
def linear (seg offs : BitVec 16) : Word := seg.setWidth 32 <<< 4 + offs.setWidth 32

namespace Machine

variable (m : Machine)

/-- V86::peekb. -/
def peekb (seg offs : BitVec 16) : BitVec 8 := m.memory (linear seg offs)

/-- V86::peekw. -/
def peekw (seg offs : BitVec 16) : BitVec 16 := read16 m.memory (linear seg offs)

/-- V86::pokew. -/
def pokew (seg offs val : BitVec 16) : Machine :=
  { m with memory := write16 m.memory (linear seg offs) val }

/-- V86::pushw. -/
def pushw (val : BitVec 16) : Machine :=
  let m := { m with state := m.state.setUserSP (m.state.userSP - 2) }
  m.pokew m.state.userSS m.state.userSP val

/-- V86::popw. -/
def popw : BitVec 16 × Machine :=
  (m.peekw m.state.userSS m.state.userSP,
    { m with state := m.state.setUserSP (m.state.userSP + 2) })

/-- The next byte. -/
def next : Machine := { m with state := m.state.setIp (m.state.ip + 1) }

/-- A port is written. -/
def out (w : PortWrite) : Machine := { m with writes := m.writes ++ [w] }

/-- The byte before the instruction asks for 32 bits. -/
def isLong : Bool := m.peekb m.state.cs (m.state.ip - 1) = 0x66#8

/-- AX or EAX is written to a port. -/
def outAx (long : Bool) (port : BitVec 16) : Machine :=
  m.out (if long then .long port m.state.eax else .word port m.state.ax)

/-- AX or EAX is read from a port. -/
def inAx (ports : Ports) (long : Bool) (port : BitVec 16) : Machine :=
  { m with
    state := if long then { m.state with eax := ports.inl port }
      else m.state.setAx (ports.inw port) }

/-- The port in the byte behind the opcode. -/
def immediate : BitVec 16 := (m.peekb m.state.cs m.state.ip).setWidth 16

/-- What INT pushes, from the byte with the vector on. -/
def pushFrame : Machine :=
  let m := m.pushw m.state.flags
  let m := { m with state := { m.state with eflags := m.state.eflags &&& 0xFFFBFCFF#32 } }
  let m := m.pushw m.state.cs
  let m := m.next
  m.pushw m.state.ip

/-- INT, from the byte with the vector on. -/
def int (intNo : BitVec 8) : Machine :=
  let m := m.pushFrame
  let m := { m with state := { m.state with cs := m.peekw 0 (4 * intNo.setWidth 16 + 2) } }
  { m with state := m.state.setIp (m.peekw 0 (4 * intNo.setWidth 16)) }

/-- IRET. -/
def iret : Machine :=
  let (ip,m) := m.popw
  let m := { m with state := m.state.setIp ip }
  let (cs,m) := m.popw
  let m := { m with state := { m.state with cs := cs } }
  let (flags,m) := m.popw
  { m with state := m.state.setFlags flags }

/-- V86::exceptionCallback. -/
def exceptionCallback (ports : Ports) : Bool × Machine :=
  if m.state.eflags.getLsbD 17 = false then (false,m)
  else
    let opcode := m.peekb m.state.cs m.state.ip
    if opcode = 0xEE#8 then (true,(m.out (.byte m.state.dx m.state.al)).next)
    else if opcode = 0xEF#8 then (true,(m.outAx m.isLong m.state.dx).next)
    else if opcode = 0xEC#8 then
      (true,{ m with state := m.state.setAl (ports.inb m.state.dx) }.next)
    else if opcode = 0xED#8 then (true,(m.inAx ports m.isLong m.state.dx).next)
    else if opcode = 0xE6#8 then
      let m := m.next
      (true,(m.out (.byte m.immediate m.state.al)).next)
    else if opcode = 0xE7#8 then
      let long := m.isLong
      let m := m.next
      (true,(m.outAx long m.immediate).next)
    else if opcode = 0xE4#8 then
      let m := m.next
      (true,{ m with state := m.state.setAl (ports.inb m.immediate) }.next)
    else if opcode = 0xE5#8 then
      let long := m.isLong
      let m := m.next
      (true,(m.inAx ports long m.immediate).next)
    else if opcode = 0xCD#8 then
      let m := m.next
      let intNo := m.peekb m.state.cs m.state.ip
      if intNo = 0xFE#8 then (true,{ m with state := m.cpuState }) else (true,m.int intNo)
    else if opcode = 0xCF#8 then (true,m.iret)
    else if opcode = 0x9C#8 then (true,(m.pushw m.state.flags).next)
    else if opcode = 0x9D#8 then
      let (flags,m) := m.popw
      (true,{ m with state := m.state.setFlags flags }.next)
    else if opcode = 0xFA#8 then
      (true,{ m with state := m.state.setFlags (m.state.flags &&& 0xFDFF#16) }.next)
    else if opcode = 0xFB#8 then
      (true,{ m with state := m.state.setFlags (m.state.flags ||| 0x0200#16) }.next)
    else (false,m)

end Machine

end Instructions

section Stack

variable {m : Memory} {m' : Machine} {x : Word} {v w seg offs : BitVec 16} {a : Word}

/-- The bits of a register with another low word. -/
theorem getLsbD_setLow (x : Word) (v : BitVec 16) (i : ℕ) :
    (setLow x v).getLsbD i = if i < 16 then v.getLsbD i else x.getLsbD i := by
  have happend := @BitVec.getLsbD_append 16 16 i (x.extractLsb' 16 16) v
  rw [BitVec.getLsbD_extractLsb'] at happend
  refine happend.trans ?_
  by_cases hlow : i < 16
  · simp [hlow]
  · rw [if_neg hlow,Nat.add_sub_cancel' (Nat.not_lt.mp hlow)]
    by_cases hi : i < 32
    · simp [hlow,show i - 16 < 16 by omega]
    · simp [hlow,show ¬i - 16 < 16 by omega,BitVec.getLsbD_of_ge x i (Nat.not_lt.mp hi)]

@[simp] theorem setWidth_setLow (x : Word) (v : BitVec 16) : (setLow x v).setWidth 16 = v := by
  refine BitVec.eq_of_getLsbD_eq fun i hi => ?_
  simp [getLsbD_setLow,hi]

@[simp] theorem setLow_setLow (x : Word) (v w : BitVec 16) :
    setLow (setLow x v) w = setLow x w := by
  refine BitVec.eq_of_getLsbD_eq fun i hi => ?_
  rw [getLsbD_setLow,getLsbD_setLow,getLsbD_setLow]
  split_ifs <;> rfl

/-- Two bytes that were written are read back. -/
theorem read16_write16 (m : Memory) (a : Word) (v : BitVec 16) : read16 (write16 m a v) a = v := by
  refine BitVec.eq_of_toNat_eq ?_
  rw [read16_toNat,write16_eq,readNat_writeNat (by decide)]
  exact Nat.mod_eq_of_lt v.isLt

/-- Two bytes beside those that were written. -/
theorem read16_write16_apart {b : Word} (h : ∀ x,InRange a 2 x → ¬InRange b 2 x) :
    read16 (write16 m a v) b = read16 m b := by
  refine BitVec.eq_of_toNat_eq ?_
  rw [read16_toNat,read16_toNat,write16_eq,readNat_writeNat_apart h]

/-- A byte beside those that were written. -/
theorem write16_of_not (h : ¬InRange a 2 x) : write16 m a v x = m x := by
  rw [write16_eq,writeNat_of_not h]

/-- Words of the stack two or four bytes apart have no byte in common. -/
theorem linear_apart (h : v = w + 2 ∨ v = w + 4) (hx : InRange (linear seg v) 2 x) :
    ¬InRange (linear seg w) 2 x := by
  rw [InRange,linear] at hx ⊢
  generalize seg.setWidth 32 <<< 4 = base at hx ⊢
  obtain rfl | rfl := h
  · bv_omega
  · bv_omega

end Stack

section Interrupts

variable {m m' : Machine} {n : BitVec 8} {ports : Ports} {a : Word}

/-- Where a word of the stack is, so many bytes below its top. -/
def Machine.below (m : Machine) (k : BitVec 16) : Word :=
  linear m.state.userSS (m.state.userSP - k)

/-- What INT leaves on the stack, and the registers by then. -/
theorem pushFrame_eq (m : Machine) : m.pushFrame =
    { m with
      state :=
        { m.state with
          eip := setLow m.state.eip (m.state.ip + 1)
          eflags := m.state.eflags &&& 0xFFFBFCFF#32
          userESP := setLow m.state.userESP (m.state.userSP - 6) }
      memory := write16 (write16 (write16 m.memory (m.below 2) m.state.flags) (m.below 4)
        m.state.cs) (m.below 6) (m.state.ip + 1) } := by
  have h4 : m.state.userSP - 2 - 2 = m.state.userSP - 4 := by bv_omega
  have h6 : m.state.userSP - 4 - 2 = m.state.userSP - 6 := by bv_omega
  simp only [State.userSP] at h4 h6
  simp only [Machine.pushFrame,Machine.pushw,Machine.pokew,Machine.next,State.setUserSP,
    State.setIp,State.userSP,State.ip,State.flags,setWidth_setLow,setLow_setLow,Machine.below,h4,h6]

/-- The memory after INT. -/
theorem int_memory (m : Machine) (n : BitVec 8) : (m.int n).memory =
    write16 (write16 (write16 m.memory (m.below 2) m.state.flags) (m.below 4) m.state.cs)
      (m.below 6) (m.state.ip + 1) := by
  rw [show (m.int n).memory = m.pushFrame.memory from rfl,pushFrame_eq]

/-- The registers after INT: those of the handler, and a stack that is lower by three words. -/
theorem int_state (m : Machine) (n : BitVec 8) : (m.int n).state =
    { m.state with
      eip := setLow m.state.eip ((m.int n).peekw 0 (4 * n.setWidth 16))
      cs := (m.int n).peekw 0 (4 * n.setWidth 16 + 2)
      eflags := m.state.eflags &&& 0xFFFBFCFF#32
      userESP := setLow m.state.userESP (m.state.userSP - 6) } := by
  have hmemory : (m.int n).memory = m.pushFrame.memory := rfl
  have hpeek : ∀ seg offs,m.pushFrame.peekw seg offs = (m.int n).peekw seg offs := by
    intro seg offs
    rw [Machine.peekw,Machine.peekw,hmemory]
  have hstate : (m.int n).state =
      { m.pushFrame.state with
        eip := setLow m.pushFrame.state.eip (m.pushFrame.peekw 0 (4 * n.setWidth 16))
        cs := m.pushFrame.peekw 0 (4 * n.setWidth 16 + 2) } := rfl
  rw [hstate,hpeek,hpeek,pushFrame_eq]
  simp only [setLow_setLow]

/-- What IRET takes from the stack. -/
theorem iret_state (m : Machine) :
    m.iret.state.ip = m.peekw m.state.userSS m.state.userSP ∧
      m.iret.state.cs = m.peekw m.state.userSS (m.state.userSP + 2) ∧
      m.iret.state.flags = m.peekw m.state.userSS (m.state.userSP + 4) ∧
      m.iret.state.userESP = setLow m.state.userESP (m.state.userSP + 6) ∧
      m.iret.memory = m.memory := by
  have h4 : m.state.userSP + 2 + 2 = m.state.userSP + 4 := by bv_omega
  have h6 : m.state.userSP + 4 + 2 = m.state.userSP + 6 := by bv_omega
  simp only [State.userSP] at h4 h6
  simp only [Machine.iret,Machine.popw,Machine.peekw,State.setUserSP,State.setIp,State.setFlags,
    State.userSP,State.ip,State.flags,setWidth_setLow,setLow_setLow,h4,h6]
  exact ⟨trivial,trivial,trivial,trivial,trivial⟩

end Interrupts

section Emulation

variable {m m' : Machine} {n : BitVec 8} {ports : Ports} {a : Word}

/-- The address is in none of the three words below the stack. -/
def Machine.Beside (m : Machine) (a : Word) : Prop :=
  ∀ k ∈ [(2 : BitVec 16),4,6],¬InRange (m.below k) 2 a

/-- The vector that the instruction names. -/
def Machine.vector (m : Machine) : BitVec 8 := m.peekb m.state.cs (m.state.ip + 1)

/-- What is expected of INT and IRET. -/
structure Emulates (ports : Ports) (m : Machine) : Prop where
  /-- The instruction is done. -/
  done : (m.exceptionCallback ports).1 = true
  /-- The handler is the one in the vector table. -/
  handler : (m.exceptionCallback ports).2.state.cs =
      (m.exceptionCallback ports).2.peekw 0 (4 * m.vector.setWidth 16 + 2) ∧
    (m.exceptionCallback ports).2.state.ip =
      (m.exceptionCallback ports).2.peekw 0 (4 * m.vector.setWidth 16)
  /-- It is the one from before, unless the stack lies over it. -/
  before : (∀ a,InRange (linear 0 (4 * m.vector.setWidth 16)) 4 a → m.Beside a) →
    (m.exceptionCallback ports).2.state.cs = m.peekw 0 (4 * m.vector.setWidth 16 + 2) ∧
      (m.exceptionCallback ports).2.state.ip = m.peekw 0 (4 * m.vector.setWidth 16)
  /-- Interrupts and traps are off, and the mode stays. -/
  masked : (m.exceptionCallback ports).2.state.eflags.getLsbD 8 = false ∧
    (m.exceptionCallback ports).2.state.eflags.getLsbD 9 = false ∧
    (m.exceptionCallback ports).2.state.eflags.getLsbD 17 = true
  /-- Nothing else is written. -/
  frame : ∀ a,m.Beside a → (m.exceptionCallback ports).2.memory a = m.memory a
  /-- An IRET with the stack and the memory as INT left them goes back behind it. -/
  back : ∀ m' : Machine,m'.state.eflags.getLsbD 17 = true →
    m'.memory = (m.exceptionCallback ports).2.memory →
    m'.state.userSS = (m.exceptionCallback ports).2.state.userSS →
    m'.state.userSP = (m.exceptionCallback ports).2.state.userSP →
    m'.peekb m'.state.cs m'.state.ip = 0xCF#8 →
    (m'.exceptionCallback ports).1 = true ∧
      (m'.exceptionCallback ports).2.state.cs = m.state.cs ∧
      (m'.exceptionCallback ports).2.state.flags = m.state.flags ∧
      (m'.exceptionCallback ports).2.state.userSP = m.state.userSP ∧
      (m'.exceptionCallback ports).2.state.ip = m.state.ip + 2 ∧
      (m'.exceptionCallback ports).2.memory = m'.memory

/-- INT goes through INT. -/
theorem exceptionCallback_int (hvm : m.state.eflags.getLsbD 17 = true)
    (hop : m.peekb m.state.cs m.state.ip = 0xCD#8) (hn : m.vector ≠ 0xFE#8) :
    m.exceptionCallback ports = (true,m.next.int m.vector) := by
  have hvector : m.next.peekb m.next.state.cs m.next.state.ip = m.vector := by
    rw [Machine.vector]
    simp only [Machine.next,State.setIp,State.ip,setWidth_setLow]
    rfl
  rw [Machine.exceptionCallback,if_neg (by rw [hvm]; decide)]
  simp only [hop]
  rw [if_neg (by decide),if_neg (by decide),if_neg (by decide),if_neg (by decide),
    if_neg (by decide),if_neg (by decide),if_neg (by decide),if_neg (by decide),if_pos trivial,
    hvector,if_neg hn]

/-- IRET goes through IRET. -/
theorem exceptionCallback_iret (hvm : m.state.eflags.getLsbD 17 = true)
    (hop : m.peekb m.state.cs m.state.ip = 0xCF#8) :
    m.exceptionCallback ports = (true,m.iret) := by
  rw [Machine.exceptionCallback,if_neg (by rw [hvm]; decide)]
  simp only [hop]
  rw [if_neg (by decide),if_neg (by decide),if_neg (by decide),if_neg (by decide),
    if_neg (by decide),if_neg (by decide),if_neg (by decide),if_neg (by decide),
    if_neg (by decide),if_pos trivial]

/-- What INT writes is found on the stack. -/
theorem int_stack (m : Machine) (n : BitVec 8) :
    read16 (m.int n).memory (m.below 6) = m.state.ip + 1 ∧
      read16 (m.int n).memory (m.below 4) = m.state.cs ∧
      read16 (m.int n).memory (m.below 2) = m.state.flags := by
  have hapart : ∀ k l : BitVec 16,l = k + 2 ∨ l = k + 4 → ∀ x,InRange (m.below l) 2 x →
      ¬InRange (m.below k) 2 x := by
    intro k l h x hx hx'
    refine linear_apart ?_ hx' hx
    obtain rfl | rfl := h
    · exact .inl (by bv_omega)
    · exact .inr (by bv_omega)
  rw [int_memory]
  refine ⟨read16_write16 _ _ _,?_,?_⟩
  · rw [read16_write16_apart (hapart 4 6 (.inl rfl)),read16_write16]
  · rw [read16_write16_apart (hapart 2 6 (.inr rfl)),read16_write16_apart (hapart 2 4 (.inl rfl)),
      read16_write16]

end Emulation

section Restored

variable {m : Machine} {ports : Ports}

/-- INT writes three words. -/
theorem int_beside {n : BitVec 8} {a : Word} (ha : m.Beside a) :
    (m.next.int n).memory a = m.memory a := by
  have hbelow : ∀ k,m.next.below k = m.below k := fun _ => rfl
  rw [int_memory,hbelow,hbelow,hbelow,write16_of_not (ha 6 (by decide)),
    write16_of_not (ha 4 (by decide)),write16_of_not (ha 2 (by decide))]
  rfl

/-- A word of the vector table that the stack is not over. -/
theorem int_entry {n : BitVec 8} {offs : BitVec 16} (hoffs : offs = 0#16 ∨ offs = 2)
    (hbeside : ∀ a,InRange (linear 0 (4 * n.setWidth 16)) 4 a → m.Beside a) :
    (m.next.int n).peekw 0 (4 * n.setWidth 16 + offs) = m.peekw 0 (4 * n.setWidth 16 + offs) := by
  refine BitVec.eq_of_toNat_eq ?_
  rw [Machine.peekw,Machine.peekw,read16_toNat,read16_toNat]
  refine readNat_congr fun x hx => int_beside (hbeside x ?_)
  rw [InRange,linear] at hx ⊢
  obtain rfl | rfl := hoffs
  · bv_omega
  · bv_omega

/-- IRET takes what INT has pushed. -/
theorem iret_int {n : BitVec 8} {m' : Machine} (hmemory : m'.memory = (m.next.int n).memory)
    (hss : m'.state.userSS = (m.next.int n).state.userSS)
    (hsp : m'.state.userSP = (m.next.int n).state.userSP) :
    m'.iret.state.cs = m.state.cs ∧ m'.iret.state.flags = m.state.flags ∧
      m'.iret.state.userSP = m.state.userSP ∧ m'.iret.state.ip = m.state.ip + 2 ∧
      m'.iret.memory = m'.memory := by
  obtain ⟨hip',hcs',hflags',hesp',hmemory'⟩ := iret_state m'
  obtain ⟨h6,h4,h2⟩ := int_stack m.next n
  have hnext : m.next.state.ip = m.state.ip + 1 := by
    simp only [Machine.next,State.setIp,State.ip,setWidth_setLow]
  have hss' : m'.state.userSS = m.state.userSS := by
    rw [hss,int_state]
    rfl
  have hsp' : m'.state.userSP = m.state.userSP - 6 := by
    rw [hsp,int_state]
    simp only [State.userSP,setWidth_setLow]
    rfl
  have hpeek : ∀ k l : BitVec 16,l = 6 - k → m'.peekw m'.state.userSS (m'.state.userSP + k) =
      read16 (m.next.int n).memory (m.next.below l) := by
    intro k l hl
    rw [Machine.peekw,hmemory,hss',hsp']
    refine congrArg (fun offs => read16 _ (linear m.state.userSS offs)) ?_
    rw [hl,show m.next.state.userSP = m.state.userSP from rfl]
    bv_omega
  have hpeek0 := hpeek 0#16 6 rfl
  rw [BitVec.add_zero] at hpeek0
  refine ⟨?_,?_,?_,?_,hmemory'⟩
  · rw [hcs',hpeek 2 4 rfl,h4]
    rfl
  · rw [hflags',hpeek 4 2 rfl,h2]
    rfl
  · rw [State.userSP,hesp',setWidth_setLow,hsp']
    bv_omega
  · rw [hip',hpeek0,h6,hnext]
    bv_omega

/-- INT and IRET, for all registers, all memory and every vector but the special one. -/
theorem int_emulates (hvm : m.state.eflags.getLsbD 17 = true)
    (hop : m.peekb m.state.cs m.state.ip = 0xCD#8) (hn : m.vector ≠ 0xFE#8) :
    Emulates ports m := by
  have hcall : m.exceptionCallback ports = (true,m.next.int m.vector) :=
    exceptionCallback_int hvm hop hn
  have hstate := int_state m.next m.vector
  have hcs : (m.next.int m.vector).state.cs =
      (m.next.int m.vector).peekw 0 (4 * m.vector.setWidth 16 + 2) := by
    rw [hstate]
  have hip : (m.next.int m.vector).state.ip =
      (m.next.int m.vector).peekw 0 (4 * m.vector.setWidth 16) := by
    rw [hstate]
    simp only [State.ip,setWidth_setLow]
  have hflags : (m.next.int m.vector).state.eflags = m.state.eflags &&& 0xFFFBFCFF#32 := by
    rw [hstate]
    rfl
  refine ⟨by rw [hcall],by rw [hcall]; exact ⟨hcs,hip⟩,fun hbeside => ?_,?_,?_,?_⟩
  · rw [hcall]
    have hentry := int_entry (.inl rfl) hbeside
    rw [BitVec.add_zero] at hentry
    exact ⟨hcs.trans (int_entry (.inr rfl) hbeside),hip.trans hentry⟩
  · rw [hcall,hflags]
    refine ⟨?_,?_,?_⟩
    · rw [BitVec.getLsbD_and,show (0xFFFBFCFF#32).getLsbD 8 = false by decide,Bool.and_false]
    · rw [BitVec.getLsbD_and,show (0xFFFBFCFF#32).getLsbD 9 = false by decide,Bool.and_false]
    · rw [BitVec.getLsbD_and,hvm]
      decide
  · rw [hcall]
    exact fun a => int_beside
  · intro m' hvm' hmemory hss hsp hop'
    rw [hcall] at hmemory hss hsp
    rw [exceptionCallback_iret hvm' hop']
    exact ⟨rfl,iret_int hmemory hss hsp⟩

/-- Registers at the end of a segment, with a stack at its start. -/
def edge : State where
  esp := 0
  ss := 0
  gs := 0
  fs := 0
  es := 0
  ds := 0
  edi := 0
  esi := 0
  ebp := 0
  ebx := 0
  edx := 0
  ecx := 0
  eax := 0
  interruptNumber := 13
  errorCode := 0
  eip := 0xFFFE
  cs := 0x1000
  eflags := 0x20202
  userESP := 0
  userSS := 0x2000

/-- INT 10h at the end of a segment, and IRET everywhere else. -/
def edgeMachine : Machine where
  state := edge
  memory := fun a => if a = 0x1FFFE then 0xCD else if a = 0x1FFFF then 0x10 else 0xCF
  cpuState := edge
  writes := []

theorem int_emulates_edge : Emulates ⟨fun _ => 0,fun _ => 0,fun _ => 0⟩ edgeMachine :=
  int_emulates (by decide) (by decide) (by decide)

end Restored

end WootOs.V86
