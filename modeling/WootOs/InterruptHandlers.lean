import Mathlib.Data.BitVec
import Mathlib.Tactic.IntervalCases
import WootOs.ObjectQueue
import WootOs.Runs

/-!
# Interrupt handlers and the interrupt controllers

Ints keeps, for each of 256 interrupt numbers, a chain of handlers linked
through their own field Next, the newest first. IRQs programs the two
interrupt controllers: the master has the lines 0 to 7 and takes the slave
with the lines 8 to 15 at its line 2. The controllers are modelled as far as
the ports are used: the mask, the lines in service, the interrupt base, the
initialization words and the choice of the register that a status read gives.

Board is what the tables are for, without pointers or registers: the list of
handlers of each number, the lines that are let through, and a count of the
interrupts nobody answered. Every run of the calls and of the interrupts that
come between them does to the machine what Board says. The loops over the
chains end, and no line stays in service.
-/

namespace WootOs.InterruptHandlers

open ObjectQueue Runs

section Controllers

/-- The interrupt number of line 0. -/
def irqsBase : ℕ := 32

/-- The number of lines. -/
def irqsCount : ℕ := 16

/-- The number of interrupt numbers. -/
def vectorCount : ℕ := 256

/-- One interrupt controller. -/
structure Controller where
  /-- Lines that are held back. -/
  imr : BitVec 8
  /-- Lines in service. -/
  isr : BitVec 8
  /-- Lines that ask for service. -/
  irr : BitVec 8
  /-- Interrupt number of its first line. -/
  base : BitVec 8
  /-- Initialization words it still waits for on its data port. -/
  words : ℕ
  /-- A status read gives the lines in service. -/
  readIsr : Bool

namespace Controller

variable (c : Controller)

/-- A byte written to the command port: the first initialization word, the
choice of the status register, or the end of an interrupt. -/
def command (value : BitVec 8) : Controller :=
  if value.getLsbD 4 then { c with imr := 0, isr := 0, words := 3, readIsr := false }
  else if value.getLsbD 3 then
    if value.getLsbD 1 then { c with readIsr := value.getLsbD 0 } else c
  else if value.extractLsb' 5 3 = 3 then
    { c with isr := c.isr &&& ~~~(1#8 <<< (value.extractLsb' 0 3).toNat) }
  else c

/-- A byte written to the data port: a further initialization word, of which
the first is the interrupt base, or the mask. -/
def data (value : BitVec 8) : Controller :=
  if c.words = 3 then { c with base := value, words := 2 }
  else if c.words = 0 then { c with imr := value }
  else { c with words := c.words - 1 }

/-- A byte read from the command port. -/
def status : BitVec 8 := if c.readIsr then c.isr else c.irr

/-- A line goes into service. -/
def serve (line : ℕ) : Controller := { c with isr := c.isr ||| 1#8 <<< line }

/-- The controller is set up with an interrupt base and serves no line. -/
structure Idle (c : Controller) (base : BitVec 8) : Prop where
  /-- No line is in service. -/
  isr : c.isr = 0
  /-- The interrupt base. -/
  base_eq : c.base = base
  /-- The next data byte is a mask. -/
  words : c.words = 0

end Controller

end Controllers

section Machines

/-- The tables of Ints and IRQs, and the two controllers. A handler is known
by its address. -/
structure Machine where
  /-- The field Next of every handler. -/
  next : Next ℕ
  /-- The first handler of each interrupt number. -/
  handlers : ℕ → Option ℕ
  /-- The controller of the lines 0 to 7. -/
  master : Controller
  /-- The controller of the lines 8 to 15. -/
  slave : Controller
  /-- Interrupts that came from no device or that no handler took. -/
  spuriousIRQCount : BitVec 64
  /-- The callbacks made so far, as interrupt number and handler. -/
  calls : List (ℕ × ℕ)

namespace Machine

variable (m : Machine)

/-- A byte written to a port. -/
def outb (port : ℕ) (value : BitVec 8) : Machine :=
  if port = 0x20 then { m with master := m.master.command value }
  else if port = 0x21 then { m with master := m.master.data value }
  else if port = 0xA0 then { m with slave := m.slave.command value }
  else if port = 0xA1 then { m with slave := m.slave.data value }
  else m

/-- A byte read from a port. -/
def inb (port : ℕ) : BitVec 8 :=
  if port = 0x20 then m.master.status
  else if port = 0x21 then m.master.imr
  else if port = 0xA0 then m.slave.status
  else if port = 0xA1 then m.slave.imr
  else 0xFF

/-- IRQs::Initialize. -/
def initializeIrqs : Machine :=
  let m := (m.outb 0x20 0x11).outb 0xA0 0x11
  let m := (m.outb 0x21 (BitVec.ofNat 8 irqsBase)).outb 0xA1 (BitVec.ofNat 8 (irqsBase + 8))
  let m := (m.outb 0x21 0x04).outb 0xA1 0x02
  let m := (m.outb 0x21 0x01).outb 0xA1 0x01
  (m.outb 0x21 0xFB).outb 0xA1 0xFF

/-- IRQs::Enable. -/
def enable (irq : ℕ) : Machine :=
  if irq < 8 then m.outb 0x21 (m.inb 0x21 &&& ~~~(1#8 <<< irq))
  else m.outb 0xA1 (m.inb 0xA1 &&& ~~~(1#8 <<< (irq - 8)))

/-- IRQs::Disable. -/
def disable (irq : ℕ) : Machine :=
  if irq < 8 then m.outb 0x21 (m.inb 0x21 ||| 1#8 <<< irq)
  else m.outb 0xA1 (m.inb 0xA1 ||| 1#8 <<< (irq - 8))

/-- IRQs::IsEnabled. -/
def isEnabled (irq : ℕ) : Bool :=
  decide ((m.inb (if irq < 8 then 0x21 else 0xA1) &&& 1#8 <<< (irq % 8)) = 0)

/-- IRQs::SendEOI. -/
def sendEOI (irq : ℕ) : Machine :=
  if 8 ≤ irq then (m.outb 0xA0 (0x60 ||| BitVec.ofNat 8 (irq % 8))).outb 0x20 0x62
  else m.outb 0x20 (0x60 ||| BitVec.ofNat 8 irq)

/-- IRQs::IsSpurious. The controllers answer a request that went away with
their last line, which is then not in service. -/
def isSpurious (irq : ℕ) : Bool × Machine :=
  if irq = 7 then
    let m := m.outb 0x20 0x0B
    (decide (m.inb 0x20 &&& 0x80 = 0),m)
  else if irq = 15 then
    let m := m.outb 0xA0 0x0B
    (decide (m.inb 0xA0 &&& 0x80 = 0),m)
  else (false,m)

/-- IRQs::HandleSpurious. -/
def handleSpurious (irq : ℕ) : Machine :=
  let m := { m with spuriousIRQCount := m.spuriousIRQCount + 1 }
  if irq ≠ 7 then m.sendEOI 2 else m

/-- Ints::RegisterHandler. -/
def registerHandler (intNo handler : ℕ) : Machine :=
  if vectorCount ≤ intNo then m
  else
    { m with
      next := setNext m.next handler (m.handlers intNo)
      handlers := Function.update m.handlers intNo (some handler) }

/-- The loop of UnRegisterHandler. It goes on behind the handler it took out. -/
def unlink (intNo handler : ℕ) : ℕ → Machine → Option ℕ → Option ℕ → Option Machine
  | _,m,_,none => some m
  | 0,_,_,some _ => none
  | fuel+1,m,prev,some h =>
    let m' :=
      if handler = h then
        match prev with
        | some p => { m with next := setNext m.next p (m.next h) }
        | none => { m with handlers := Function.update m.handlers intNo (m.next h) }
      else m
    unlink intNo handler fuel m' (some h) (m'.next h)

/-- Ints::UnRegisterHandler. -/
def unRegisterHandler (fuel intNo handler : ℕ) : Option Machine :=
  if vectorCount ≤ intNo then some m
  else unlink intNo handler fuel m none (m.handlers intNo)

/-- The loop of HandlerCount. -/
def countFrom (next : Next ℕ) : ℕ → Option ℕ → ℕ → Option ℕ
  | _,none,res => some res
  | 0,some _,_ => none
  | fuel+1,some h,res => countFrom next fuel (next h) (res + 1)

/-- Ints::HandlerCount. -/
def handlerCount (fuel intNo : ℕ) : Option ℕ :=
  if vectorCount ≤ intNo then some 0 else countFrom m.next fuel (m.handlers intNo) 0

/-- IRQs::TryDisable. -/
def tryDisable (fuel irq : ℕ) : Option Machine :=
  (m.handlerCount fuel (irq + irqsBase)).map fun count =>
    if count = 0 then m.disable irq else m

/-- The loop over the handlers. The answer of a handler is what its callback
returns, and none for a handler without a callback. The result tells whether
the interrupt was handled, and the handlers that were called. -/
def callHandlers (next : Next ℕ) (answer : ℕ → Option Bool) :
    ℕ → Option ℕ → Option (Bool × List ℕ)
  | _,none => some (false,[])
  | 0,some _ => none
  | fuel+1,some h =>
    match answer h with
    | none => some (false,[])
    | some true => some (true,[h])
    | some false => (callHandlers next answer fuel (next h)).map fun r => (r.1,h::r.2)

/-- Ints::CommonHandler for the interrupt of a line. -/
def commonHandler (fuel : ℕ) (answer : ℕ → Option Bool) (interruptNumber : ℕ) :
    Option Machine :=
  let irq := interruptNumber - irqsBase
  let isIrq := irqsBase ≤ interruptNumber ∧ irq < irqsCount
  let spurious := m.isSpurious irq
  if isIrq ∧ spurious.1 then some (spurious.2.handleSpurious irq)
  else
    let m := if isIrq then spurious.2 else m
    (callHandlers m.next answer fuel (m.handlers interruptNumber)).map fun r =>
      let m := { m with calls := m.calls ++ r.2.map fun h => (interruptNumber,h) }
      let m := if ¬r.1 ∧ isIrq then m.handleSpurious irq else m
      if isIrq then m.sendEOI irq else m

/-- A controller takes the request of a line: the lines in service change,
and the processor gets an interrupt number. -/
def acknowledge (irq : ℕ) : Machine × ℕ :=
  if irq < 8 then ({ m with master := m.master.serve irq },m.master.base.toNat + irq)
  else
    ({ m with master := m.master.serve 2, slave := m.slave.serve (irq - 8) },
      m.slave.base.toNat + (irq - 8))

/-- A controller answers a request that went away. The master does not know
that the slave has nothing to serve. -/
def acknowledgeNone (ofSlave : Bool) : Machine × ℕ :=
  if ofSlave then ({ m with master := m.master.serve 2 },m.slave.base.toNat + 7)
  else (m,m.master.base.toNat + 7)

end Machine

/-- A call of a driver, or an interrupt. -/
inductive Op
  /-- Ints::RegisterHandler. -/
  | register (intNo handler : ℕ)
  /-- Ints::UnRegisterHandler. -/
  | unRegister (intNo handler : ℕ)
  /-- IRQs::Enable. -/
  | enable (irq : ℕ)
  /-- IRQs::Disable. -/
  | disable (irq : ℕ)
  /-- IRQs::TryDisable. -/
  | tryDisable (irq : ℕ)
  /-- The interrupt of a line, and how each handler would answer it. -/
  | line (irq : ℕ) (answer : ℕ → Option Bool)
  /-- An interrupt of a request that went away. -/
  | noLine (ofSlave : Bool) (answer : ℕ → Option Bool)

/-- One call or interrupt. -/
def Machine.step (fuel : ℕ) (m : Machine) : Op → Option Machine
  | .register intNo handler => some (m.registerHandler intNo handler)
  | .unRegister intNo handler => m.unRegisterHandler fuel intNo handler
  | .enable irq => some (m.enable irq)
  | .disable irq => some (m.disable irq)
  | .tryDisable irq => m.tryDisable fuel irq
  | .line irq answer => (m.acknowledge irq).1.commonHandler fuel answer (m.acknowledge irq).2
  | .noLine ofSlave answer =>
    (m.acknowledgeNone ofSlave).1.commonHandler fuel answer (m.acknowledgeNone ofSlave).2

/-- Calls and interrupts, one after the other. -/
def Machine.run (fuel : ℕ) (m : Machine) (ops : List Op) : Option Machine :=
  ops.foldlM (Machine.step fuel) m

end Machines

section Boards

/-- What the tables and the controllers are for. -/
structure Board where
  /-- The handlers of each interrupt number, the newest first. -/
  chain : ℕ → List ℕ
  /-- The lines that are let through. -/
  enabled : ℕ → Bool
  /-- Interrupts of no line, or that no handler took. -/
  spurious : ℕ
  /-- The callbacks made so far. -/
  calls : List (ℕ × ℕ)

/-- The handlers that are asked, up to the first that takes the interrupt or
has no callback, and whether one takes it. -/
def asked (answer : ℕ → Option Bool) : List ℕ → Bool × List ℕ
  | [] => (false,[])
  | h::l =>
    match answer h with
    | none => (false,[])
    | some true => (true,[h])
    | some false => ((asked answer l).1,h::(asked answer l).2)

namespace Board

/-- After IRQs::Initialize only the line of the slave is let through. -/
def start : Board := ⟨fun _ => [],fun irq => decide (irq = 2),0,[]⟩

variable (b : Board)

/-- The handlers of a line are asked, and an interrupt nobody takes is counted. -/
def take (irq : ℕ) (answer : ℕ → Option Bool) : Board :=
  let r := asked answer (b.chain (irqsBase + irq))
  { b with
    spurious := b.spurious + if r.1 then 0 else 1
    calls := b.calls ++ r.2.map fun h => (irqsBase + irq,h) }

/-- What one call or interrupt is for. -/
def step : Op → Board
  | .register intNo handler =>
    if vectorCount ≤ intNo then b
    else { b with chain := Function.update b.chain intNo (handler::b.chain intNo) }
  | .unRegister intNo handler =>
    { b with chain := Function.update b.chain intNo ((b.chain intNo).erase handler) }
  | .enable irq => { b with enabled := Function.update b.enabled irq true }
  | .disable irq => { b with enabled := Function.update b.enabled irq false }
  | .tryDisable irq =>
    if b.chain (irqsBase + irq) = [] then
      { b with enabled := Function.update b.enabled irq false }
    else b
  | .line irq answer => b.take irq answer
  | .noLine _ _ => { b with spurious := b.spurious + 1 }

/-- A handler is registered when it stands in no chain, and the lines are
those of the two controllers. -/
def Proper (b : Board) : Op → Prop
  | .register _ handler => ∀ intNo,handler ∉ b.chain intNo
  | .unRegister _ _ => True
  | .enable irq => irq < irqsCount
  | .disable irq => irq < irqsCount
  | .tryDisable irq => irq < irqsCount
  | .line irq _ => irq < irqsCount ∧ irq ≠ 2
  | .noLine _ _ => True

end Board

/-- The machine is in the state a board describes. -/
structure Shows (m : Machine) (b : Board) : Prop where
  /-- The chain of each interrupt number. -/
  linked : ∀ intNo,Linked m.next (m.handlers intNo) (b.chain intNo)
  /-- A handler stands in a chain once. -/
  nodup : ∀ intNo,(b.chain intNo).Nodup
  /-- A handler stands in one chain at most. -/
  apart : ∀ intNo intNo' h,h ∈ b.chain intNo → h ∈ b.chain intNo' → intNo = intNo'
  /-- There are no handlers beyond the table. -/
  beyond : ∀ intNo,vectorCount ≤ intNo → b.chain intNo = []
  /-- The lines that are let through. -/
  enabled : ∀ irq < irqsCount,m.isEnabled irq = b.enabled irq
  /-- The master waits for an interrupt. -/
  master : m.master.Idle (BitVec.ofNat 8 irqsBase)
  /-- The slave waits for an interrupt. -/
  slave : m.slave.Idle (BitVec.ofNat 8 (irqsBase + 8))
  /-- The count of interrupts that nobody took. -/
  spurious : m.spuriousIRQCount = BitVec.ofNat 64 b.spurious
  /-- The callbacks. -/
  calls : m.calls = b.calls

end Boards

section Chains

variable {m : Machine} {first prev : Option ℕ} {l : List ℕ} {intNo handler : ℕ}

/-- The loop over the handlers asks those of the list. -/
theorem callHandlers_linked {next : Next ℕ} (answer : ℕ → Option Bool)
    (h : Linked next first l) :
    Returns (Machine.callHandlers next answer · first) l.length (asked answer l) := by
  induction l generalizing first with
  | nil =>
    obtain rfl : first = none := h
    intro fuel _
    cases fuel <;> rfl
  | cons x l ih =>
    obtain ⟨rfl,hl⟩ := h
    intro fuel hf
    obtain ⟨n,rfl⟩ : ∃ n,fuel = n+1 := ⟨fuel-1,by simp at hf; omega⟩
    have hrest : Machine.callHandlers next answer n (next x) = some (asked answer l) :=
      ih hl n (by simp at hf; omega)
    simp only [Machine.callHandlers,asked,hrest]
    rcases answer x with _ | _ | _ <;> rfl

/-- HandlerCount counts the handlers of the list. -/
theorem countFrom_linked {next : Next ℕ} (h : Linked next first l) (res : ℕ) :
    Returns (Machine.countFrom next · first res) l.length (res + l.length) := by
  induction l generalizing first res with
  | nil =>
    obtain rfl : first = none := h
    intro fuel _
    cases fuel <;> rfl
  | cons x l ih =>
    obtain ⟨rfl,hl⟩ := h
    intro fuel hf
    obtain ⟨n,rfl⟩ : ∃ n,fuel = n+1 := ⟨fuel-1,by simp at hf; omega⟩
    have hrest : Machine.countFrom next n (next x) (res + 1) = some (res + 1 + l.length) :=
      ih hl (res + 1) n (by simp at hf; omega)
    simp only [Machine.countFrom,hrest,List.length_cons,Nat.add_assoc,Nat.add_comm 1]

/-- A handler that is not in the chain is looked for in vain. -/
theorem unlink_missing (h : Linked m.next first l) (hm : handler ∉ l) :
    Returns (Machine.unlink intNo handler · m prev first) l.length m := by
  induction l generalizing first prev with
  | nil =>
    obtain rfl : first = none := h
    intro fuel _
    cases fuel <;> rfl
  | cons x l ih =>
    obtain ⟨rfl,hl⟩ := h
    intro fuel hf
    obtain ⟨n,rfl⟩ : ∃ n,fuel = n+1 := ⟨fuel-1,by simp at hf; omega⟩
    have hx : handler ≠ x := fun he => hm (he ▸ List.mem_cons_self)
    simp only [Machine.unlink,if_neg hx]
    exact ih hl (fun hc => hm (List.mem_cons_of_mem _ hc)) n (by simp at hf; omega)

/-- A handler behind another one is taken out of the chain. -/
theorem unlink_behind (intNo : ℕ) {p : ℕ} {pre post : List ℕ}
    (h : Linked m.next (some p) (p::(pre ++ handler::post)))
    (hn : (p::(pre ++ handler::post)).Nodup) :
    ∃ next,Returns (Machine.unlink intNo handler · m (some p) (m.next p))
        (pre ++ handler::post).length { m with next := next } ∧
      Linked next (some p) (p::(pre ++ post)) ∧
      ∀ x,x ∉ p::(pre ++ handler::post) → next x = m.next x := by
  induction pre generalizing p with
  | nil =>
    rw [List.nil_append] at *
    obtain ⟨hp,hpost⟩ := List.nodup_cons.mp hn
    have hhp : handler ≠ p := fun he => hp (he ▸ List.mem_cons_self)
    have hpp : p ∉ post := fun hc => hp (List.mem_cons_of_mem _ hc)
    have hfirst : m.next p = some handler := h.2.1
    have hlinked : Linked (setNext m.next p (m.next handler)) (m.next handler) post :=
      Segment.setNext h.2.2 hpp
    refine ⟨setNext m.next p (m.next handler),?_,⟨rfl,?_⟩,?_⟩
    · intro fuel hf
      obtain ⟨n,rfl⟩ : ∃ n,fuel = n+1 := ⟨fuel-1,by simp at hf; omega⟩
      simp only [hfirst,Machine.unlink,if_pos,setNext_ne hhp]
      exact unlink_missing (m := { m with next := setNext m.next p (m.next handler) })
        hlinked (List.nodup_cons.mp hpost).1 n (by simp at hf; omega)
    · rw [setNext_self]
      exact hlinked
    · intro x hx
      exact setNext_ne fun he => hx (he ▸ List.mem_cons_self)
  | cons y pre ih =>
    obtain ⟨hp,hrest⟩ := List.nodup_cons.mp hn
    have hfirst : m.next p = some y := h.2.1
    have hhy : handler ≠ y := by
      rintro rfl
      exact (List.nodup_cons.mp hrest).1 (by simp)
    obtain ⟨next,hr,hl,hkeep⟩ := ih ⟨rfl,h.2.2⟩ hrest
    refine ⟨next,?_,⟨rfl,?_⟩,?_⟩
    · intro fuel hf
      obtain ⟨n,rfl⟩ : ∃ n,fuel = n+1 := ⟨fuel-1,by simp at hf; omega⟩
      simp only [hfirst,Machine.unlink,if_neg hhy]
      exact hr n (by simp at hf ⊢; omega)
    · rw [hkeep p (by simpa using hp),hfirst]
      exact hl
    · intro x hx
      exact hkeep x fun hc => hx (List.mem_cons_of_mem _ hc)

/-- UnRegisterHandler takes a handler out of its chain and changes nothing
outside the chain. -/
theorem unlink_linked (handler : ℕ) (h : Linked m.next (m.handlers intNo) l) (hn : l.Nodup) :
    ∃ next first,
      Returns (Machine.unlink intNo handler · m none (m.handlers intNo)) l.length
        { m with next := next,handlers := Function.update m.handlers intNo first } ∧
      Linked next first (l.erase handler) ∧ ∀ x,x ∉ l → next x = m.next x := by
  have hsame : { m with handlers := Function.update m.handlers intNo (m.handlers intNo) } = m := by
    rw [Function.update_eq_self]
  by_cases hm : handler ∈ l
  · cases l with
    | nil => exact absurd hm (by simp)
    | cons p l =>
      have hfirst : m.handlers intNo = some p := h.1
      by_cases hhp : handler = p
      · subst hhp
        have hnot := (List.nodup_cons.mp hn).1
        refine ⟨m.next,m.next handler,?_,?_,fun _ _ => rfl⟩
        · intro fuel hf
          obtain ⟨n,rfl⟩ : ∃ n,fuel = n+1 := ⟨fuel-1,by simp at hf; omega⟩
          simp only [hfirst,Machine.unlink,if_pos]
          exact unlink_missing
            (m := { m with handlers := Function.update m.handlers intNo (m.next handler) })
            h.2 hnot n (by simp at hf; omega)
        · rw [List.erase_cons_head]
          exact h.2
      · obtain ⟨pre,post,rfl⟩ := List.append_of_mem ((List.mem_cons.mp hm).resolve_left hhp)
        obtain ⟨next,hr,hl,hkeep⟩ := unlink_behind intNo (hfirst ▸ h) hn
        refine ⟨next,some p,?_,?_,hkeep⟩
        · intro fuel hf
          obtain ⟨n,rfl⟩ : ∃ n,fuel = n+1 := ⟨fuel-1,by simp at hf; omega⟩
          rw [← hfirst,Function.update_eq_self]
          simp only [hfirst,Machine.unlink,if_neg hhp]
          exact hr n (by simp at hf ⊢; omega)
        · have hpre : handler ∉ pre := fun hc =>
            (List.disjoint_of_nodup_append (List.nodup_cons.mp hn).2) hc (by simp)
          rw [List.erase_cons_tail (by simpa using fun he => hhp he.symm),
            List.erase_append_right _ hpre,List.erase_cons_head]
          exact hl
  · refine ⟨m.next,m.handlers intNo,?_,?_,fun _ _ => rfl⟩
    · rw [hsame]
      exact unlink_missing h hm
    · rw [List.erase_of_not_mem hm]
      exact h

end Chains

section Lines

variable {m : Machine} {c : Controller} {base : BitVec 8} {irq : ℕ}

namespace Controller

/-- The end of the interrupt of one line. -/
def finish (c : Controller) (line : ℕ) : Controller :=
  { c with isr := c.isr &&& ~~~(1#8 <<< line) }

/-- The next status read gives the lines in service. -/
def look (c : Controller) : Controller := { c with readIsr := true }

/-- The mask is written. -/
def mask (c : Controller) (imr : BitVec 8) : Controller := { c with imr := imr }

theorem command_finish {line : ℕ} (h : line < 8) :
    c.command (0x60 ||| BitVec.ofNat 8 line) = c.finish line := by
  interval_cases line <;> rfl

theorem Idle.data (h : c.Idle base) (value : BitVec 8) : c.data value = c.mask value := by
  simp [Controller.data,h.words,mask]

theorem Idle.mask (h : c.Idle base) (value : BitVec 8) : (c.mask value).Idle base :=
  ⟨h.isr,h.base_eq,h.words⟩

theorem Idle.finished {isr : BitVec 8} {readIsr : Bool} (h : c.Idle base) (hi : isr = 0) :
    { c with isr := isr,readIsr := readIsr }.Idle base :=
  ⟨hi,h.base_eq,h.words⟩

end Controller

theorem outb_masterCommand (m : Machine) (value : BitVec 8) :
    m.outb 0x20 value = { m with master := m.master.command value } := rfl

theorem outb_masterData (m : Machine) (value : BitVec 8) :
    m.outb 0x21 value = { m with master := m.master.data value } := rfl

theorem outb_slaveCommand (m : Machine) (value : BitVec 8) :
    m.outb 0xA0 value = { m with slave := m.slave.command value } := rfl

theorem outb_slaveData (m : Machine) (value : BitVec 8) :
    m.outb 0xA1 value = { m with slave := m.slave.data value } := rfl

/-- A bit of a byte is looked at through a mask of that bit. -/
theorem and_line_eq_zero (x : BitVec 8) {i : ℕ} (h : i < 8) :
    (x &&& 1#8 <<< i = 0) ↔ x.getLsbD i = false := by
  constructor
  · intro he
    have hb := congrArg (fun y : BitVec 8 => y.getLsbD i) he
    simpa [h] using hb
  · intro hb
    apply BitVec.eq_of_getLsbD_eq
    intro j hj
    rcases Nat.lt_trichotomy j i with hji | rfl | hji
    · simp; omega
    · simp [hb]
    · simp; omega

/-- A line is let through again. -/
theorem getLsbD_open (x : BitVec 8) {i j : ℕ} (h : j < 8) :
    (x &&& ~~~(1#8 <<< i)).getLsbD j = (x.getLsbD j && decide (j ≠ i)) := by
  rw [← BitVec.twoPow_eq]
  simp [h,eq_comm]

/-- A line is held back. -/
theorem getLsbD_close (x : BitVec 8) {i j : ℕ} (h : j < 8) :
    (x ||| 1#8 <<< i).getLsbD j = (x.getLsbD j || decide (j = i)) := by
  rw [← BitVec.twoPow_eq]
  simp [h,eq_comm]

/-- The lines of the master. -/
theorem isEnabled_master (h : irq < 8) : m.isEnabled irq = !m.master.imr.getLsbD irq := by
  have hport : m.inb 0x21 = m.master.imr := rfl
  rw [Machine.isEnabled,if_pos h,hport,Nat.mod_eq_of_lt h]
  simp only [and_line_eq_zero _ h]
  cases m.master.imr.getLsbD irq <;> rfl

/-- The lines of the slave. -/
theorem isEnabled_slave (h : 8 ≤ irq) (h' : irq < irqsCount) :
    m.isEnabled irq = !m.slave.imr.getLsbD (irq - 8) := by
  have hport : m.inb 0xA1 = m.slave.imr := rfl
  have hline : irq % 8 = irq - 8 ∧ irq - 8 < 8 := by
    simp only [irqsCount] at h'
    omega
  rw [Machine.isEnabled,if_neg (by omega),hport,hline.1]
  simp only [and_line_eq_zero _ hline.2]
  cases m.slave.imr.getLsbD (irq - 8) <;> rfl

/-- The masks decide which lines are let through. -/
theorem isEnabled_congr {m' : Machine} (hm : m'.master.imr = m.master.imr)
    (hs : m'.slave.imr = m.slave.imr) : m'.isEnabled irq = m.isEnabled irq := by
  have h21 : m'.inb 0x21 = m.inb 0x21 := hm
  have hA1 : m'.inb 0xA1 = m.inb 0xA1 := hs
  rw [Machine.isEnabled,Machine.isEnabled]
  split <;> simp only [h21,hA1]

theorem sendEOI_master (h : irq < 8) :
    m.sendEOI irq = { m with master := m.master.finish irq } := by
  rw [Machine.sendEOI,if_neg (by omega),outb_masterCommand,Controller.command_finish h]

theorem sendEOI_slave (h : 8 ≤ irq) (h' : irq < irqsCount) :
    m.sendEOI irq =
      { m with master := m.master.finish 2,slave := m.slave.finish (irq - 8) } := by
  have hline : irq % 8 = irq - 8 ∧ irq - 8 < 8 := by
    simp only [irqsCount] at h'
    omega
  have hmaster : m.master.command 0x62 = m.master.finish 2 := rfl
  rw [Machine.sendEOI,if_pos h,hline.1,outb_slaveCommand,outb_masterCommand,
    Controller.command_finish hline.2]
  simp only [hmaster]

theorem isSpurious_master (m : Machine) :
    m.isSpurious 7 = (decide (m.master.isr &&& 0x80 = 0),{ m with master := m.master.look }) :=
  rfl

theorem isSpurious_slave (m : Machine) :
    m.isSpurious 15 = (decide (m.slave.isr &&& 0x80 = 0),{ m with slave := m.slave.look }) :=
  rfl

/-- A line that is in service is no request that went away. -/
theorem isSpurious_served (irq : ℕ) (hm : m.master.isr = 0) (hs : m.slave.isr = 0) :
    ∃ r r',(m.acknowledge irq).1.isSpurious irq =
      (false,{ (m.acknowledge irq).1 with
        master := { (m.acknowledge irq).1.master with readIsr := r }
        slave := { (m.acknowledge irq).1.slave with readIsr := r' } }) := by
  by_cases h7 : irq = 7
  · subst h7
    refine ⟨true,m.slave.readIsr,?_⟩
    have hserved : (m.acknowledge 7).1.master.isr &&& 0x80 ≠ 0 := by
      simp [Machine.acknowledge,Controller.serve,hm]
    rw [isSpurious_master,decide_eq_false hserved]
    rfl
  · by_cases h15 : irq = 15
    · subst h15
      refine ⟨m.master.readIsr,true,?_⟩
      have hserved : (m.acknowledge 15).1.slave.isr &&& 0x80 ≠ 0 := by
        simp [Machine.acknowledge,Controller.serve,hs]
      rw [isSpurious_slave,decide_eq_false hserved]
      rfl
    · refine ⟨(m.acknowledge irq).1.master.readIsr,(m.acknowledge irq).1.slave.readIsr,?_⟩
      rw [Machine.isSpurious,if_neg h7,if_neg h15]

end Lines

section Steps

variable {m : Machine} {b : Board} {irq : ℕ}

/-- What the state of a board needs beside the chains and the masks, which an
interrupt does not change. -/
theorem Shows.after (h : Shows m b) {m' : Machine} {n : ℕ} {cs : List (ℕ × ℕ)}
    (hn : m'.next = m.next) (hh : m'.handlers = m.handlers)
    (hmaster : m'.master.imr = m.master.imr) (hslave : m'.slave.imr = m.slave.imr)
    (im : m'.master.Idle (BitVec.ofNat 8 irqsBase))
    (is : m'.slave.Idle (BitVec.ofNat 8 (irqsBase + 8)))
    (hs : m'.spuriousIRQCount = BitVec.ofNat 64 n) (hc : m'.calls = cs) :
    Shows m' { b with spurious := n,calls := cs } where
  linked intNo := by
    rw [hn,hh]
    exact h.linked intNo
  nodup := h.nodup
  apart := h.apart
  beyond := h.beyond
  enabled irq hirq := (isEnabled_congr hmaster hslave).trans (h.enabled irq hirq)
  master := im
  slave := is
  spurious := hs
  calls := hc

/-- The interrupt number of a line. -/
theorem acknowledge_number (h : Shows m b) : (m.acknowledge irq).2 = irqsBase + irq := by
  rw [Machine.acknowledge]
  split
  · simp only [h.master.base_eq]
    rfl
  · simp only [h.slave.base_eq]
    change 40 + (irq - 8) = 32 + irq
    omega

theorem handleSpurious_eq (m : Machine) (irq : ℕ) :
    m.handleSpurious irq =
      { m with
        spuriousIRQCount := m.spuriousIRQCount + 1
        master := if irq = 7 then m.master else m.master.finish 2 } := by
  rw [Machine.handleSpurious]
  by_cases h : irq = 7
  · rw [if_neg (not_not_intro h),if_pos h]
  · rw [if_pos h,if_neg h,sendEOI_master (by decide)]

/-- The lines of the master in service after the interrupt of one of them. -/
theorem finished_master (h : irq < 8) (hne : irq ≠ 2) :
    ((0 : BitVec 8) ||| 1#8 <<< irq) &&& ~~~(1#8 <<< irq) = 0 ∧
      ((0 : BitVec 8) ||| 1#8 <<< irq) &&& ~~~(1#8 <<< 2) &&& ~~~(1#8 <<< irq) = 0 := by
  interval_cases irq <;> decide

/-- The lines of the slave in service after the interrupt of one of them. -/
theorem finished_slave {line : ℕ} (h : line < 8) :
    ((0 : BitVec 8) ||| 1#8 <<< line) &&& ~~~(1#8 <<< line) = 0 := by
  interval_cases line <;> decide

/-- What CommonHandler does at the end of the interrupt of a line. -/
def Machine.finishLine (m : Machine) (irq : ℕ) (handled : Bool) (calls : List (ℕ × ℕ)) : Machine :=
  let m := { m with calls := calls }
  (if handled then m else m.handleSpurious irq).sendEOI irq

/-- An interrupt that nobody took is counted. -/
theorem count_succ (n : ℕ) : BitVec.ofNat 64 n + 1 = BitVec.ofNat 64 (n + 1) := by
  rw [BitVec.ofNat_add]
  rfl

/-- The machine waits again after the interrupt of a line. -/
theorem Shows.finishLine (h : Shows m b) (hirq : irq < irqsCount) (hne : irq ≠ 2)
    (handled : Bool) (calls : List (ℕ × ℕ)) (r r' : Bool) :
    Shows
      (Machine.finishLine { (m.acknowledge irq).1 with
        master := { (m.acknowledge irq).1.master with readIsr := r }
        slave := { (m.acknowledge irq).1.slave with readIsr := r' } } irq handled calls)
      { b with spurious := b.spurious + if handled then 0 else 1,calls := calls } := by
  have hcount := (congrArg (· + 1) h.spurious).trans (count_succ b.spurious)
  by_cases hlow : irq < 8
  · obtain ⟨h0,h1⟩ := finished_master hlow hne
    rw [Machine.finishLine,Machine.acknowledge,if_pos hlow]
    cases handled with
    | true =>
      rw [if_pos rfl,if_pos rfl,sendEOI_master hlow]
      refine h.after rfl rfl rfl rfl (h.master.finished ?_) (h.slave.finished h.slave.isr)
        h.spurious rfl
      simp only [Controller.serve,h.master.isr,h0]
    | false =>
      rw [if_neg Bool.false_ne_true,if_neg Bool.false_ne_true,sendEOI_master hlow,
        handleSpurious_eq]
      split_ifs
      · refine h.after rfl rfl rfl rfl (h.master.finished ?_) (h.slave.finished h.slave.isr)
          hcount rfl
        simp only [Controller.serve,h.master.isr,h0]
      · refine h.after rfl rfl rfl rfl (h.master.finished ?_) (h.slave.finished h.slave.isr)
          hcount rfl
        simp only [Controller.serve,Controller.finish,h.master.isr,h1]
  · have hhigh : 8 ≤ irq := Nat.le_of_not_lt hlow
    have hslave := finished_slave (show irq - 8 < 8 by simp only [irqsCount] at hirq; omega)
    rw [Machine.finishLine,Machine.acknowledge,if_neg hlow]
    cases handled with
    | true =>
      rw [if_pos rfl,if_pos rfl,sendEOI_slave hhigh hirq]
      refine h.after rfl rfl rfl rfl (h.master.finished ?_) (h.slave.finished ?_)
        h.spurious rfl
      · simp only [Controller.serve,h.master.isr]
        rfl
      · simp only [Controller.serve,h.slave.isr,hslave]
    | false =>
      rw [if_neg Bool.false_ne_true,if_neg Bool.false_ne_true,sendEOI_slave hhigh hirq,
        handleSpurious_eq,if_neg (by omega)]
      refine h.after rfl rfl rfl rfl (h.master.finished ?_) (h.slave.finished ?_)
        hcount rfl
      · simp only [Controller.serve,Controller.finish,h.master.isr]
        rfl
      · simp only [Controller.serve,h.slave.isr,hslave]

/-- The interrupt of a line. -/
theorem Shows.line (h : Shows m b) (hirq : irq < irqsCount) (hne : irq ≠ 2)
    (answer : ℕ → Option Bool) :
    ∃ m',Returns (fun fuel => m.step fuel (.line irq answer))
      (b.chain (irqsBase + irq)).length m' ∧ Shows m' (b.take irq answer) := by
  obtain ⟨r,r',hsp⟩ := isSpurious_served irq h.master.isr h.slave.isr
  have hcall := callHandlers_linked answer (h.linked (irqsBase + irq))
  have hchains : (m.acknowledge irq).1.next = m.next ∧
      (m.acknowledge irq).1.handlers = m.handlers ∧ (m.acknowledge irq).1.calls = m.calls := by
    rw [Machine.acknowledge]
    split <;> exact ⟨rfl,rfl,rfl⟩
  refine ⟨_,?_,h.finishLine hirq hne (asked answer (b.chain (irqsBase + irq))).1
    (b.calls ++ (asked answer (b.chain (irqsBase + irq))).2.map fun h => (irqsBase + irq,h))
    r r'⟩
  intro fuel hf
  have hr := hcall fuel hf
  have hnum : irqsBase ≤ irqsBase + irq ∧ irqsBase + irq - irqsBase < irqsCount :=
    ⟨Nat.le_add_right ..,by rwa [Nat.add_sub_cancel_left]⟩
  simp only [Machine.step,acknowledge_number h,Machine.commonHandler,Nat.add_sub_cancel_left,hsp,
    hchains,hirq,Nat.le_add_right,and_true,and_false,Bool.false_eq_true,if_false,if_true,
    hr,Option.map_some,← h.calls,Machine.finishLine]
  cases (asked answer (b.chain (irqsBase + irq))).1 <;> rfl

/-- An interrupt of a request that went away. -/
theorem Shows.noLine (h : Shows m b) (ofSlave : Bool) (answer : ℕ → Option Bool) :
    ∃ m',Returns (fun fuel => m.step fuel (.noLine ofSlave answer)) 0 m' ∧
      Shows m' { b with spurious := b.spurious + 1 } := by
  have hcount := (congrArg (· + 1) h.spurious).trans (count_succ b.spurious)
  cases ofSlave with
  | false =>
    have hnum : m.acknowledgeNone false = (m,irqsBase + 7) := by
      rw [Machine.acknowledgeNone,if_neg Bool.false_ne_true,h.master.base_eq]
      rfl
    have hnone : m.master.isr &&& 0x80 = 0 := by
      rw [h.master.isr]
      rfl
    refine ⟨{ m with spuriousIRQCount := m.spuriousIRQCount + 1,master := m.master.look },?_,
      h.after rfl rfl rfl rfl (h.master.finished h.master.isr) h.slave hcount h.calls⟩
    intro fuel _
    simp only [Machine.step,hnum,Machine.commonHandler,Nat.add_sub_cancel_left,
      isSpurious_master,decide_eq_true hnone]
    rw [if_pos ⟨⟨by decide,by decide⟩,trivial⟩,handleSpurious_eq,if_pos rfl]
  | true =>
    have hnum : m.acknowledgeNone true =
        ({ m with master := m.master.serve 2 },irqsBase + 15) := by
      rw [Machine.acknowledgeNone,if_pos rfl,h.slave.base_eq]
      rfl
    have hnone : m.slave.isr &&& 0x80 = 0 := by
      rw [h.slave.isr]
      rfl
    refine ⟨{ m with
        spuriousIRQCount := m.spuriousIRQCount + 1
        master := (m.master.serve 2).finish 2
        slave := m.slave.look },?_,
      h.after rfl rfl rfl rfl (h.master.finished ?_) (h.slave.finished h.slave.isr) hcount
        h.calls⟩
    · intro fuel _
      simp only [Machine.step,hnum,Machine.commonHandler,Nat.add_sub_cancel_left,
        isSpurious_slave,decide_eq_true hnone]
      rw [if_pos ⟨⟨by decide,by decide⟩,trivial⟩,handleSpurious_eq,if_neg (by decide)]
    · simp only [Controller.serve,h.master.isr]
      rfl

/-- A handler that stands in no chain becomes the first of one. -/
theorem Shows.register (h : Shows m b) {intNo handler : ℕ}
    (hnew : b.Proper (.register intNo handler)) :
    Shows (m.registerHandler intNo handler) (b.step (.register intNo handler)) := by
  rw [Machine.registerHandler,Board.step]
  split_ifs with hint
  · exact h
  · refine
      { h with linked := fun k => ?_,nodup := fun k => ?_,apart := fun k k' x hx hx' => ?_,
               beyond := fun k hk => ?_ }
    all_goals simp only [Function.update_apply] at *
    · split_ifs with hk
      · subst hk
        refine ⟨rfl,?_⟩
        rw [setNext_self]
        exact (h.linked k).setNext (hnew k)
      · exact (h.linked k).setNext (hnew k)
    · split_ifs with hk
      · exact List.nodup_cons.mpr ⟨hnew intNo,h.nodup intNo⟩
      · exact h.nodup k
    · split_ifs at hx hx' with hk hk' hk'
      · rw [hk,hk']
      · rcases List.mem_cons.mp hx with rfl | hx
        · exact absurd hx' (hnew k')
        · exact hk.trans (h.apart intNo k' x hx hx')
      · rcases List.mem_cons.mp hx' with rfl | hx'
        · exact absurd hx (hnew k)
        · exact (h.apart k intNo x hx hx').trans hk'.symm
      · exact h.apart k k' x hx hx'
    · rw [if_neg (by omega)]
      exact h.beyond k hk

/-- A handler is taken out of its chain. -/
theorem Shows.unRegister (h : Shows m b) (intNo handler : ℕ) :
    ∃ m',Returns (fun fuel => m.step fuel (.unRegister intNo handler))
        (b.chain intNo).length m' ∧
      Shows m' (b.step (.unRegister intNo handler)) := by
  by_cases hint : vectorCount ≤ intNo
  · refine ⟨m,?_,?_⟩
    · intro fuel _
      simp only [Machine.step,Machine.unRegisterHandler,if_pos hint]
    · have hsame : (b.chain intNo).erase handler = b.chain intNo := by
        rw [h.beyond intNo hint,List.erase_nil]
      rw [Board.step,hsame,Function.update_eq_self]
      exact h
  · obtain ⟨next,first,hr,hl,hkeep⟩ :=
      unlink_linked handler (h.linked intNo) (h.nodup intNo)
    have hsub (k x : ℕ) (hx : x ∈ Function.update b.chain intNo
        ((b.chain intNo).erase handler) k) : x ∈ b.chain k := by
      rw [Function.update_apply] at hx
      split_ifs at hx with hk
      · exact hk ▸ List.mem_of_mem_erase hx
      · exact hx
    refine ⟨{ m with next := next,handlers := Function.update m.handlers intNo first },?_,
      { h with linked := fun k => ?_,nodup := fun k => ?_,apart := fun k k' x hx hx' => ?_,
               beyond := fun k hk => ?_ }⟩
    · intro fuel hf
      simp only [Machine.step,Machine.unRegisterHandler,if_neg hint]
      exact hr fuel hf
    · simp only [Board.step,Function.update_apply]
      split_ifs with hk
      · exact hl
      · exact (h.linked k).congr fun x hx => hkeep x fun hc => hk (h.apart k intNo x hx hc)
    · simp only [Board.step,Function.update_apply]
      split_ifs with hk
      · exact (h.nodup intNo).erase handler
      · exact h.nodup k
    · exact h.apart k k' x (hsub k x hx) (hsub k' x hx')
    · refine List.eq_nil_iff_forall_not_mem.mpr fun x hx => ?_
      have hmem := hsub k x hx
      rw [h.beyond k hk] at hmem
      exact absurd hmem (by simp)

/-- One bit of a mask is written. -/
def Machine.writeMask (m : Machine) (irq : ℕ) (f : BitVec 8 → ℕ → BitVec 8) : Machine :=
  if irq < 8 then { m with master := m.master.mask (f m.master.imr irq) }
  else { m with slave := m.slave.mask (f m.slave.imr (irq - 8)) }

/-- A write that changes the bit of one line changes nothing for the others. -/
theorem Shows.writeMask (h : Shows m b) (hirq : irq < irqsCount) {f : BitVec 8 → ℕ → BitVec 8}
    (held : Bool) (hf : ∀ x i j,j < 8 → (f x i).getLsbD j = if j = i then held else x.getLsbD j) :
    Shows (m.writeMask irq f) { b with enabled := Function.update b.enabled irq !held } := by
  rw [Machine.writeMask]
  simp only [irqsCount] at hirq
  split_ifs with hlow
  · refine { h with master := h.master.mask _,enabled := fun k hk => ?_ }
    simp only [Function.update_apply]
    by_cases hk8 : k < 8
    · have hold := h.enabled k hk
      rw [isEnabled_master hk8] at hold ⊢
      simp only [Controller.mask,hf _ _ _ hk8]
      split_ifs
      · rfl
      · exact hold
    · have hold := h.enabled k hk
      rw [isEnabled_slave (by omega) hk] at hold ⊢
      rw [if_neg (by omega)]
      exact hold
  · refine { h with slave := h.slave.mask _,enabled := fun k hk => ?_ }
    simp only [Function.update_apply]
    by_cases hk8 : k < 8
    · have hold := h.enabled k hk
      rw [isEnabled_master hk8] at hold ⊢
      rw [if_neg (by omega)]
      exact hold
    · have hold := h.enabled k hk
      have hline : k - 8 < 8 ∧ (k - 8 = irq - 8 ↔ k = irq) := by
        simp only [irqsCount] at hk
        omega
      rw [isEnabled_slave (by omega) hk] at hold ⊢
      simp only [Controller.mask,hf _ _ _ hline.1,hline.2]
      split_ifs
      · rfl
      · exact hold

/-- Enable lets a line through. -/
theorem Shows.enable (h : Shows m b) (hirq : irq < irqsCount) :
    Shows (m.enable irq) (b.step (.enable irq)) := by
  have hwrite : m.enable irq = m.writeMask irq fun x i => x &&& ~~~(1#8 <<< i) := by
    rw [Machine.enable,Machine.writeMask,outb_masterData,outb_slaveData,
      h.master.data,h.slave.data]
    rfl
  rw [hwrite]
  refine h.writeMask hirq false fun x i j hj => ?_
  rw [getLsbD_open x hj]
  by_cases hji : j = i <;> simp [hji]

/-- Disable holds a line back. -/
theorem Shows.disable (h : Shows m b) (hirq : irq < irqsCount) :
    Shows (m.disable irq) (b.step (.disable irq)) := by
  have hwrite : m.disable irq = m.writeMask irq fun x i => x ||| 1#8 <<< i := by
    rw [Machine.disable,Machine.writeMask,outb_masterData,outb_slaveData,
      h.master.data,h.slave.data]
    rfl
  rw [hwrite]
  refine h.writeMask hirq true fun x i j hj => ?_
  rw [getLsbD_close x hj]
  by_cases hji : j = i <;> simp [hji]

/-- TryDisable holds a line back when it has no handler left. -/
theorem Shows.tryDisable (h : Shows m b) (hirq : irq < irqsCount) :
    ∃ m',Returns (fun fuel => m.step fuel (.tryDisable irq))
        (b.chain (irqsBase + irq)).length m' ∧ Shows m' (b.step (.tryDisable irq)) := by
  have hcount := countFrom_linked (h.linked (irqsBase + irq)) 0
  have hvector : ¬vectorCount ≤ irqsBase + irq := by
    simp only [irqsCount] at hirq
    simp only [vectorCount,irqsBase]
    omega
  refine ⟨if b.chain (irqsBase + irq) = [] then m.disable irq else m,?_,?_⟩
  · intro fuel hf
    have hr := hcount fuel hf
    simp only [Machine.step,Machine.tryDisable,Machine.handlerCount,Nat.add_comm irq,
      if_neg hvector,hr,Option.map_some,Nat.zero_add,List.length_eq_zero_iff]
  · rw [Board.step]
    split_ifs
    · exact h.disable hirq
    · exact h

/-- One call or interrupt does to the machine what it does to the board. -/
theorem Shows.step (h : Shows m b) {op : Op} (hp : b.Proper op) {n : ℕ}
    (hlen : ∀ intNo,(b.chain intNo).length ≤ n) :
    ∃ m',Returns (fun fuel => m.step fuel op) n m' ∧ Shows m' (b.step op) := by
  cases op with
  | register intNo handler => exact ⟨_,returns_some n _,h.register hp⟩
  | unRegister intNo handler =>
    obtain ⟨m',hr,hs⟩ := h.unRegister intNo handler
    exact ⟨m',hr.mono (hlen _),hs⟩
  | enable irq => exact ⟨_,returns_some n _,h.enable hp⟩
  | disable irq => exact ⟨_,returns_some n _,h.disable hp⟩
  | tryDisable irq =>
    obtain ⟨m',hr,hs⟩ := h.tryDisable hp
    exact ⟨m',hr.mono (hlen _),hs⟩
  | line irq answer =>
    obtain ⟨m',hr,hs⟩ := h.line hp.1 hp.2 answer
    exact ⟨m',hr.mono (hlen _),hs⟩
  | noLine ofSlave answer =>
    obtain ⟨m',hr,hs⟩ := h.noLine ofSlave answer
    exact ⟨m',hr.mono (Nat.zero_le n),hs⟩

/-- A chain grows by one handler at most. -/
theorem Board.step_length {n : ℕ} (h : ∀ intNo,(b.chain intNo).length ≤ n) (op : Op)
    (intNo : ℕ) : ((b.step op).chain intNo).length ≤ n + 1 := by
  have hold := Nat.le_succ_of_le (h intNo)
  cases op with
  | register v handler =>
    rw [Board.step]
    split_ifs
    · exact hold
    · simp only [Function.update_apply]
      split_ifs
      · exact Nat.succ_le_succ (h v)
      · exact hold
  | unRegister v handler =>
    simp only [Board.step,Function.update_apply]
    split_ifs
    · exact (List.length_erase_le.trans (h v)).trans (Nat.le_succ n)
    · exact hold
  | tryDisable irq =>
    rw [Board.step]
    split_ifs <;> exact hold
  | enable irq => exact hold
  | disable irq => exact hold
  | line irq answer => exact hold
  | noLine ofSlave answer => exact hold

/-- A run does to the machine what it does to the board. -/
theorem Shows.run {ops : List Op} (h : Shows m b) (hp : RunMeets Board.step Board.Proper b ops)
    {n : ℕ} (hlen : ∀ intNo,(b.chain intNo).length ≤ n) :
    ∃ m',Returns (fun fuel => m.run fuel ops) (n + ops.length) m' ∧
      Shows m' (ops.foldl Board.step b) := by
  induction ops generalizing m b n with
  | nil => exact ⟨m,returns_some _ m,h⟩
  | cons op ops ih =>
    obtain ⟨m₁,hr₁,h₁⟩ := h.step hp.1 hlen
    obtain ⟨m',hr,hs⟩ := ih h₁ hp.2 (b.step_length hlen op)
    have hbound : n + 1 + ops.length = n + (op::ops).length := by
      rw [List.length_cons]
      omega
    refine ⟨m',?_,hs⟩
    have hfirst : Returns (fun fuel => m.step fuel op) (n + (op::ops).length) m₁ :=
      hr₁.mono (Nat.le_add_right ..)
    have hrest : Returns (fun fuel => m₁.run fuel ops) (n + (op::ops).length) m' :=
      hbound ▸ hr
    intro fuel hf
    have hf₁ : m.step fuel op = some m₁ := hfirst fuel hf
    have hf₂ : ops.foldlM (Machine.step fuel) m₁ = some m' := hrest fuel hf
    simp only [Machine.run,List.foldlM_cons,hf₁,Option.bind_eq_bind,Option.bind_some,hf₂]

end Steps

section Results

/-- The machine before Initialize: no handler, and controllers in any state. -/
def boot (next : Next ℕ) (master slave : Controller) : Machine :=
  ⟨next,fun _ => none,master,slave,0,[]⟩

/-- Initialize sets both controllers up and holds back all lines but that of
the slave. -/
theorem initialize_shows (next : Next ℕ) (master slave : Controller) :
    Shows (boot next master slave).initializeIrqs Board.start where
  linked _ := rfl
  nodup _ := List.nodup_nil
  apart _ _ _ hx _ := absurd hx (by simp [Board.start])
  beyond _ _ := rfl
  enabled irq hirq := by
    have hmaster : (boot next master slave).initializeIrqs.master.imr = 0xFB := rfl
    have hslave : (boot next master slave).initializeIrqs.slave.imr = 0xFF := rfl
    by_cases hlow : irq < 8
    · rw [isEnabled_master hlow,hmaster]
      interval_cases irq <;> rfl
    · rw [isEnabled_slave (Nat.le_of_not_lt hlow) hirq,hslave]
      simp only [irqsCount] at hirq
      interval_cases irq <;> rfl
  master := ⟨rfl,rfl,rfl⟩
  slave := ⟨rfl,rfl,rfl⟩
  spurious := rfl
  calls := rfl

/-- A keyboard driver registers its handler and gets one interrupt. -/
def keyboardRun : List Op := [.register 33 5,.enable 1,.line 1 fun _ => some true]

/-- What a driver of a device does, and the interrupts between. -/
inductive DriverOp
  /-- The driver registers its handler and lets the line through. -/
  | attach (irq handler : ℕ)
  /-- The driver takes its handler away and holds the line back unless another
  driver shares it. -/
  | detach (irq handler : ℕ)
  /-- The interrupt of a line, and how each handler would answer it. -/
  | line (irq : ℕ) (answer : ℕ → Option Bool)
  /-- An interrupt of a request that went away. -/
  | noLine (ofSlave : Bool) (answer : ℕ → Option Bool)

/-- The calls of a driver. -/
def DriverOp.ops : DriverOp → List Op
  | .attach irq handler => [.register (irqsBase + irq) handler,.enable irq]
  | .detach irq handler => [.unRegister (irqsBase + irq) handler,.tryDisable irq]
  | .line irq answer => [.line irq answer]
  | .noLine ofSlave answer => [.noLine ofSlave answer]

/-- What the calls of a driver are for. -/
def Board.drive (b : Board) (d : DriverOp) : Board := d.ops.foldl Board.step b

/-- Devices have the lines other than that of the slave. A driver attaches a
handler that is not attached, and a controller passes on the lines that are
let through. -/
def Board.Driven (b : Board) : DriverOp → Prop
  | .attach irq handler =>
    irq < irqsCount ∧ irq ≠ 2 ∧ ∀ intNo,handler ∉ b.chain intNo
  | .detach irq _ => irq < irqsCount ∧ irq ≠ 2
  | .line irq _ => irq < irqsCount ∧ irq ≠ 2 ∧ b.enabled irq = true
  | .noLine _ _ => True

/-- The lines that are let through are those with a handler, and that of the
slave. -/
def Board.Served (b : Board) : Prop :=
  ∀ irq < irqsCount,b.enabled irq = true ↔ irq = 2 ∨ b.chain (irqsBase + irq) ≠ []

variable {b : Board} {d : DriverOp}

/-- The calls of a driver are proper ones. -/
theorem Board.Driven.meets (h : b.Driven d) : RunMeets Board.step Board.Proper b d.ops := by
  cases d with
  | attach irq handler => exact ⟨h.2.2,h.1,trivial⟩
  | detach irq handler => exact ⟨trivial,h.1,trivial⟩
  | line irq answer => exact ⟨⟨h.1,h.2.1⟩,trivial⟩
  | noLine ofSlave answer => exact ⟨trivial,trivial⟩

/-- Drivers keep the lines with a handler let through, and hold back the rest. -/
theorem Board.Served.drive (hb : b.Served) (h : b.Driven d) : (b.drive d).Served := by
  intro k hk
  have hold := hb k hk
  cases d with
  | attach irq handler =>
    have hvector : ¬vectorCount ≤ irqsBase + irq := by
      have hlt := h.1
      simp only [irqsCount] at hlt
      simp only [vectorCount,irqsBase]
      omega
    simp only [Board.drive,DriverOp.ops,List.foldl_cons,List.foldl_nil,Board.step,
      if_neg hvector,Function.update_apply,Nat.add_left_cancel_iff]
    split_ifs
    · simp
    · exact hold
  | detach irq handler =>
    simp only [Board.drive,DriverOp.ops,List.foldl_cons,List.foldl_nil,Board.step,
      Function.update_self]
    by_cases hki : k = irq
    · subst hki
      split_ifs with hempty
      · simp [hempty,h.2]
      · have hmem : b.chain (irqsBase + k) ≠ [] := by
          intro hnil
          exact hempty (by rw [hnil,List.erase_nil])
        simpa [hempty,hmem] using hold
    · have hother : irqsBase + k ≠ irqsBase + irq := fun he => hki (Nat.add_left_cancel he)
      split_ifs
      · simpa only [Function.update_of_ne hki,Function.update_of_ne hother] using hold
      · simpa only [Function.update_of_ne hother] using hold
  | line irq answer => exact hold
  | noLine ofSlave answer => exact hold

/-- In every run of drivers that attach and detach their handlers, and of
interrupts, the lines that are let through are at all times those of the
attached handlers, beside the line of the slave. -/
theorem drivers_lines (next : Next ℕ) (master slave : Controller) (ds : List DriverOp)
    (hp : RunMeets Board.drive Board.Driven Board.start ds) :
    ∃ m,Returns
        (fun fuel => (boot next master slave).initializeIrqs.run fuel (ds.flatMap DriverOp.ops))
        (ds.flatMap DriverOp.ops).length m ∧
      ∀ irq < irqsCount,m.isEnabled irq = true ↔
        irq = 2 ∨ m.handlers (irqsBase + irq) ≠ none := by
  have hops : RunMeets Board.step Board.Proper Board.start (ds.flatMap DriverOp.ops) :=
    RunMeets.flatMap (fun _ _ => Board.Driven.meets) hp
  have hserved : (ds.foldl Board.drive Board.start).Served :=
    hp.invariant (fun _ _ => Board.Served.drive) fun irq _ => by simp [Board.start]
  obtain ⟨m,hr,hs⟩ :=
    (initialize_shows next master slave).run hops (n := 0) fun _ => Nat.le_refl 0
  rw [List.foldl_flatMap] at hs
  refine ⟨m,Nat.zero_add (ds.flatMap DriverOp.ops).length ▸ hr,fun irq hirq => ?_⟩
  rw [hs.enabled irq hirq,Ne,(hs.linked (irqsBase + irq)).eq_nil_iff]
  exact hserved irq hirq

/-- Two drivers share a line, and one of them leaves. -/
def sharedRun : List DriverOp :=
  [.attach 11 5,.attach 11 6,.line 11 fun h => some (h == 5),.detach 11 6]

theorem drivers_lines_shared :
    ∃ m,Returns (fun fuel => (boot (fun _ => none) ⟨0,0,0,0,0,false⟩
        ⟨0,0,0,0,0,false⟩).initializeIrqs.run fuel (sharedRun.flatMap DriverOp.ops))
        (sharedRun.flatMap DriverOp.ops).length m ∧
      ∀ irq < irqsCount,m.isEnabled irq = true ↔
        irq = 2 ∨ m.handlers (irqsBase + irq) ≠ none := by
  have hline : 11 < irqsCount := by decide
  have hfresh (intNo : ℕ) : 6 ∉ (Board.start.drive (.attach 11 5)).chain intNo := by
    change 6 ∉ Function.update (fun _ => []) 43 [5] intNo
    rw [Function.update_apply]
    split_ifs <;> decide
  exact drivers_lines _ _ _ _
    ⟨⟨hline,by decide,fun _ => List.not_mem_nil⟩,⟨hline,by decide,hfresh⟩,
      ⟨hline,by decide,rfl⟩,⟨hline,by decide⟩,trivial⟩

end Results

end WootOs.InterruptHandlers
