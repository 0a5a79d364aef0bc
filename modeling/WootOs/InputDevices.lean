import Mathlib.Data.BitVec
import WootOs.RingQueue
import WootOs.Runs
import WootOs.RpcCalls
import WootOs.VolumeCache
import WootOs.WindowManager

/-!
# Input devices

A keyboard and a mouse send bytes, one for each interrupt. A handler makes events
of them, puts these into the queue of its device and signals the semaphore that
counts them. GetEvent takes a unit of the semaphore and then reads the queue.
The semaphore is one that counts right, and the mutex of a device admits one call.

The handler signals an event that found no room, and GetEvent takes a time left
of 2^31 milliseconds and more for a failure after the unit is gone. Without these
two there is a queued event for every unit, and no call comes back with EIO.
-/

namespace WootOs.InputDevices

open RingQueue Runs
open NamedObjects (ebusy)
open RpcCalls (etimeout)
open VolumeCache (eio)
open WindowManager (int)

section Handlers

/-- The keys that the keyboard can tell. -/
inductive VirtualKey where
  | none | escape | key1 | key2 | key3 | key4 | key5 | key6 | key7 | key8 | key9 | key0
  | oemMinus | oemPlus | back | tab | keyQ | keyW | keyE | keyR | keyT | keyY | keyU | keyI
  | keyO | keyP | oem4 | oem6 | returnKey | lControl | keyA | keyS | keyD | keyF | keyG | keyH
  | keyJ | keyK | keyL | oem1 | oem7 | oem3 | lShift | oem5 | keyZ | keyX | keyC | keyV | keyB
  | keyN | keyM | oemComma | oemPeriod | oem2 | rShift | multiply | lMenu | space | capital | f1
  | f2 | f3 | f4 | f5 | f6 | f7 | f8 | f9 | f10 | numLock | scroll | numPad7 | numPad8 | numPad9
  | subtract | numPad4 | numPad5 | numPad6 | add | numPad1 | numPad2 | numPad3 | numPad0
  | decimal | f11 | f12 | home | rControl | divide | rMenu | up | prior | left | right | endKey
  | down | next | insert | delete | lWin | rWin | apps
  deriving DecidableEq

/-- The keys by scan code. -/
def scancodeTable : List VirtualKey :=
  ([.none,.escape,.key1,.key2,.key3,.key4,.key5,.key6,.key7,.key8,.key9,.key0,.oemMinus,.oemPlus,
    .back,.tab,.keyQ,.keyW,.keyE,.keyR,.keyT,.keyY,.keyU,.keyI,.keyO,.keyP,.oem4,.oem6,.returnKey,
    .lControl,.keyA,.keyS,.keyD,.keyF,.keyG,.keyH,.keyJ,.keyK,.keyL,.oem1,.oem7,.oem3,.lShift,
    .oem5,.keyZ,.keyX,.keyC,.keyV,.keyB,.keyN,.keyM,.oemComma,.oemPeriod,.oem2,.rShift,.multiply,
    .lMenu,.space,.capital,.f1,.f2,.f3,.f4,.f5,.f6,.f7,.f8,.f9,.f10,.numLock,.scroll,.numPad7,
    .numPad8,.numPad9,.subtract,.numPad4,.numPad5,.numPad6,.add,.numPad1,.numPad2,.numPad3,
    .numPad0,.decimal,.none,.none,.none,.f11,.f12] : List VirtualKey) ++
    List.replicate 110 .none ++ [.home] ++ List.replicate 56 .none

/-- The keys by the scan code that follows 0xE0. -/
def scancodeTableEx : ℕ → VirtualKey
  | 0x1C => .returnKey
  | 0x1D => .rControl
  | 0x35 => .divide
  | 0x38 => .rMenu
  | 0x47 => .home
  | 0x48 => .up
  | 0x49 => .prior
  | 0x4B => .left
  | 0x4D => .right
  | 0x4F => .endKey
  | 0x50 => .down
  | 0x51 => .next
  | 0x52 => .insert
  | 0x53 => .delete
  | 0x5B => .lWin
  | 0x5C => .rWin
  | 0x5D => .apps
  | 0xC7 => .home
  | _ => .none

/-- Event::Keyboard. -/
structure KeyboardEvent where
  /-- Key. -/
  key : VirtualKey
  /-- Release. -/
  release : Bool
  deriving DecidableEq

/-- PS2Keyboard::interrupt: whether the next code is an extended one, and the event. -/
def keyboardInterrupt (ex : Bool) (data : BitVec 8) : Bool × Option KeyboardEvent :=
  if data = 0xE0#8 then (true,none)
  else
    let release := data &&& 0x80#8 ≠ 0
    let data := (data &&& 0x7F#8).toNat
    (false,some ⟨if ex then scancodeTableEx data else scancodeTable.getD data .none,release⟩)

/-- Event::Mouse. -/
structure MouseEvent where
  /-- ButtonsPressed. -/
  buttonsPressed : BitVec 32
  /-- ButtonsHeld. -/
  buttonsHeld : BitVec 32
  /-- ButtonsReleased. -/
  buttonsReleased : BitVec 32
  /-- Delta. -/
  delta : List ℤ
  deriving DecidableEq

/-- What PS2Mouse keeps from one byte to the next. -/
structure MouseState where
  /-- dataPhase. -/
  dataPhase : Fin 3
  /-- data. -/
  data : Fin 3 → BitVec 8
  /-- buttons. -/
  buttons : BitVec 32

/-- INP_MAX_MOUSE_AXES. -/
def inpMaxMouseAxes : ℕ := 13

/-- PS2Mouse::interrupt, and the event. -/
def mouseInterrupt (mouse : MouseState) (b : BitVec 8) : MouseState × Option MouseEvent :=
  if mouse.dataPhase = 0 ∧ ((b = 0xFA#8 ∨ b = 0xFE#8) ∨ b &&& 0x08#8 = 0) then (mouse,none)
  else
    let data := Function.update mouse.data mouse.dataPhase b
    if mouse.dataPhase.val + 1 < 3 then
      ({ mouse with dataPhase := mouse.dataPhase + 1,data := data },none)
    else
      let newButtons := (data 0 &&& 0x03#8).setWidth 32
      let dx : ℤ := (data 1).toNat - ((data 0).toNat <<< 4 &&& 0x100 : ℕ)
      let dy : ℤ := -((data 2).toNat - ((data 0).toNat <<< 3 &&& 0x100 : ℕ))
      let pressed := (mouse.buttons ^^^ newButtons) &&& newButtons
      let released := (mouse.buttons ^^^ newButtons) &&& mouse.buttons
      ({ dataPhase := 0,data := data,buttons := newButtons },
        some
          { buttonsPressed := pressed
            buttonsHeld := newButtons
            buttonsReleased := released
            delta := [dx,dy] ++ List.replicate (inpMaxMouseAxes - 2) 0 })

end Handlers

section Devices

/-- How far GetEvent is in its call. -/
inductive Stage where
  /-- It waits for an event, with a timeout. -/
  | waiting (timeout : ℕ)
  /-- It has taken a unit of the semaphore, and so much time was left. -/
  | claimed (timeleft : ℤ)
  /-- It only has to release the mutex. -/
  | done
  deriving DecidableEq

/-- A device, whose handler keeps a state of some type and makes events of some type. -/
structure Device (T σ E : Type*) where
  /-- What the handler keeps. -/
  state : σ
  /-- events. -/
  events : BoundedQueue E
  /-- The count of eventSem. -/
  eventSem : ℤ
  /-- The call that has the mutex. -/
  call : Option (T × Stage)
  /-- The events that were queued, in order. -/
  queued : List E
  /-- What the calls of GetEvent returned, and the events that came with it. -/
  results : List (ℤ × Option E)

/-- What happens at a device. -/
inductive Op (T : Type*) where
  /-- An interrupt brings a byte. -/
  | interrupt (data : BitVec 8)
  /-- GetEvent acquires the mutex. -/
  | acquire (c : T) (timeout : ℕ)
  /-- GetEvent does not acquire the mutex in time. -/
  | busy (c : T)
  /-- Wait takes a unit, with so much time left. -/
  | wait (c : T) (timeleft : ℕ)
  /-- Wait fails. -/
  | timeOut (c : T)
  /-- GetEvent reads the queue. -/
  | read (c : T)
  /-- GetEvent releases the mutex. -/
  | release (c : T)
  deriving DecidableEq

variable {T σ E : Type*} (handler : σ → BitVec 8 → σ × Option E)

namespace Device

variable (d : Device T σ E)

/-- A device without events. -/
def start (state : σ) (capacity : ℕ) (h : 0 < capacity) (data : ℕ → E) : Device T σ E where
  state := state
  events := .new capacity h data
  eventSem := 0
  call := none
  queued := []
  results := []

/-- The end of a handler, which writes the event and signals. -/
def put (e : E) : Device T σ E :=
  { d with
    events := (d.events.write e).2
    eventSem := d.eventSem + 1
    queued := if (d.events.write e).1 then d.queued ++ [e] else d.queued }

/-- An interrupt. -/
def interrupt (data : BitVec 8) : Device T σ E :=
  let r := handler d.state data
  match r.2 with
  | none => { d with state := r.1 }
  | some e => { d with state := r.1 }.put e

/-- A call is over but for its mutex. -/
def ends (c : T) (ret : ℤ) (event : Option E) : Device T σ E :=
  { d with call := some (c,.done),results := d.results ++ [(ret,event)] }

/-- One operation. GetEvent goes from Wait to its read with interrupts disabled,
but takes no harm from what comes in between. -/
def apply : Op T → Device T σ E
  | .interrupt data => d.interrupt handler data
  | .acquire c timeout => { d with call := some (c,.waiting timeout) }
  | .busy _ => { d with results := d.results ++ [(-ebusy,none)] }
  | .wait c timeleft =>
    let d := { d with eventSem := d.eventSem - 1 }
    if int timeleft < 0 then d.ends c (-etimeout) none
    else { d with call := some (c,.claimed (int timeleft)) }
  | .timeOut c => d.ends c (-etimeout) none
  | .read c =>
    match d.call,d.events.read with
    | some (_,.claimed timeleft),(some e,events) =>
      { d with events := events }.ends c timeleft (some e)
    | _,_ => d.ends c (-eio) none
  | .release _ => { d with call := none }

/-- The timeout of a call that waits. -/
def waitsFor [DecidableEq T] (c : T) : Option ℕ :=
  match d.call with
  | some (c',.waiting timeout) => if c' = c then some timeout else none
  | _ => none

/-- The time left of a call that has claimed an event. -/
def timeleftOf [DecidableEq T] (c : T) : Option ℤ :=
  match d.call with
  | some (c',.claimed timeleft) => if c' = c then some timeleft else none
  | _ => none

/-- The operations that can come next. Wait takes a unit that is there at once with all
the time left, and one that comes later with some of it. -/
def Enabled [DecidableEq T] : Op T → Prop
  | .interrupt _ => True
  | .acquire _ timeout => d.call = none ∧ timeout < 2 ^ 32
  | .busy _ => d.call ≠ none
  | .wait c timeleft => 0 < d.eventSem ∧ ∃ timeout ∈ d.waitsFor c,timeleft < 2 ^ 32 ∧
      (timeleft = timeout ∨ 0 < timeleft ∧ timeleft ≤ max timeout 1)
  | .timeOut c => (d.waitsFor c).isSome
  | .read c => (d.timeleftOf c).isSome
  | .release c => d.call = some (c,.done)

instance [DecidableEq T] : DecidablePred d.Enabled
  | .interrupt _ => inferInstanceAs (Decidable True)
  | .acquire _ _ => inferInstanceAs (Decidable (_ ∧ _))
  | .busy _ => inferInstanceAs (Decidable (d.call ≠ none))
  | .wait _ _ => inferInstanceAs (Decidable (_ ∧ ∃ timeout ∈ _,_))
  | .timeOut c => inferInstanceAs (Decidable ((d.waitsFor c).isSome = true))
  | .read c => inferInstanceAs (Decidable ((d.timeleftOf c).isSome = true))
  | .release c => inferInstanceAs (Decidable (d.call = some (c,.done)))

/-- A call has taken a unit and not yet read. -/
def claims : ℕ :=
  match d.call with
  | some (_,.claimed _) => 1
  | _ => 0

/-- Units and events are in step. -/
structure InStep : Prop where
  /-- The units are those events that no call has claimed. -/
  count : d.eventSem + d.claims = d.events.toList.length
  /-- No call has failed to find its event. -/
  noError : ∀ r ∈ d.results,r.1 ≠ -eio
  /-- Events are returned in the order in which they were queued. -/
  order : d.results.filterMap (·.2) ++ d.events.toList = d.queued

/-- An interrupt that makes an event finds room for it, and the time that Wait leaves
is one that an int can hold. -/
def Fits : Op T → Prop
  | .interrupt data => (handler d.state data).2.isSome → d.events.full = false
  | .wait _ timeleft => timeleft < 2 ^ 31
  | _ => True

instance : DecidablePred (d.Fits handler)
  | .interrupt _ => inferInstanceAs (Decidable (_ → _))
  | .wait _ timeleft => inferInstanceAs (Decidable (timeleft < 2 ^ 31))
  | .acquire _ _ => inferInstanceAs (Decidable True)
  | .busy _ => inferInstanceAs (Decidable True)
  | .timeOut _ => inferInstanceAs (Decidable True)
  | .read _ => inferInstanceAs (Decidable True)
  | .release _ => inferInstanceAs (Decidable True)

end Device

end Devices

section Invariants

variable {T σ E : Type*} {handler : σ → BitVec 8 → σ × Option E} {d : Device T σ E} {c : T}

namespace Device

/-- What every operation keeps that fits. -/
structure Steady (d : Device T σ E) : Prop extends InStep d where
  /-- No unit is missing. -/
  nonneg : 0 ≤ d.eventSem
  /-- A call that has a unit returns the time left. -/
  left : ∀ c timeleft,d.call = some (c,.claimed timeleft) → 0 ≤ timeleft

theorem steady_start (state : σ) (capacity : ℕ) (h : 0 < capacity) (data : ℕ → E) :
    Steady (start state capacity h data : Device T σ E) where
  count := by simp [start,claims,BoundedQueue.toList_new]
  noError := fun _ hr => absurd hr List.not_mem_nil
  order := by simp [start,BoundedQueue.toList_new]
  nonneg := le_rfl
  left := fun _ _ hc => by cases hc

/-- A call that ends without having claimed anything. -/
theorem Steady.ends (h : Steady d) {c : T} {ret : ℤ} (hcall : d.claims = 0) (hret : ret ≠ -eio) :
    Steady (d.ends c ret none) where
  count := by
    have := h.count
    rw [hcall] at this
    exact this
  noError := by
    intro r hr
    obtain hr | hr := List.mem_append.mp hr
    · exact h.noError r hr
    · rw [List.mem_singleton.mp hr]
      exact hret
  order := by
    have := h.order
    simpa [Device.ends] using this
  nonneg := h.nonneg
  left := fun _ _ hc => by cases hc

/-- An event that finds room. -/
theorem Steady.put (h : Steady d) (e : E) (hroom : d.events.full = false) : Steady (d.put e) where
  count := by
    have := h.count
    simp only [Device.put,BoundedQueue.toList_write _ _ hroom,List.length_append,
      List.length_singleton]
    simp only [claims] at this ⊢
    push_cast
    linarith
  noError := h.noError
  order := by
    have := h.order
    simp only [Device.put,BoundedQueue.toList_write _ _ hroom,BoundedQueue.write_fst,hroom]
    rw [← this,List.append_assoc]
    rfl
  nonneg := by
    have := h.nonneg
    simp only [Device.put]
    omega
  left := h.left

/-- Time left that an int can hold is what GetEvent sees. -/
theorem int_of_lt {n : ℕ} (h : n < 2 ^ 31) : int n = n :=
  MachineInt.signed_of_range (w := 31) (by omega) (by exact_mod_cast h)

/-- More of it looks like a failure. -/
theorem int_neg {n : ℕ} (h : 2 ^ 31 ≤ n) (hlt : n < 2 ^ 32) : int n < 0 := by
  have := MachineInt.signed_of_high (w := 31) (x := n) (by exact_mod_cast h) (by omega)
  rw [int,this]
  omega

/-- A byte that does not end an event. -/
theorem interrupt_none {data : BitVec 8} (h : (handler d.state data).2 = none) :
    d.interrupt handler data = { d with state := (handler d.state data).1 } := by
  simp only [interrupt,h]

/-- A byte that ends an event. -/
theorem interrupt_some {data : BitVec 8} {e : E} (h : (handler d.state data).2 = some e) :
    d.interrupt handler data = { d with state := (handler d.state data).1 }.put e := by
  simp only [interrupt,h]

theorem waitsFor_eq [DecidableEq T] {timeout : ℕ} (h : d.waitsFor c = some timeout) :
    d.call = some (c,.waiting timeout) := by
  rw [waitsFor] at h
  split at h
  · next c' t hcall =>
    split_ifs at h with hc
    rw [hcall,hc,Option.some.inj h]
  · cases h

theorem timeleftOf_eq [DecidableEq T] {timeleft : ℤ} (h : d.timeleftOf c = some timeleft) :
    d.call = some (c,.claimed timeleft) := by
  rw [timeleftOf] at h
  split at h
  · next c' t hcall =>
    split_ifs at h with hc
    rw [hcall,hc,Option.some.inj h]
  · cases h

/-- An operation that fits keeps units and events in step. -/
theorem Steady.apply [DecidableEq T] (h : Steady d) {op : Op T} (he : d.Enabled op)
    (hf : d.Fits handler op) : Steady (d.apply handler op) := by
  cases op with
  | interrupt data =>
    have hstate : Steady { d with state := (handler d.state data).1 } :=
      ⟨⟨h.count,h.noError,h.order⟩,h.nonneg,h.left⟩
    cases hevent : (handler d.state data).2 with
    | none => rwa [Device.apply,interrupt_none hevent]
    | some e =>
      rw [Device.apply,interrupt_some hevent]
      exact hstate.put e (hf (by rw [hevent]; rfl))
  | acquire c timeout =>
    have hcount := h.count
    simp only [claims,he.1] at hcount
    exact ⟨⟨hcount,h.noError,h.order⟩,h.nonneg,fun _ _ hc => by cases hc⟩
  | busy c =>
    refine ⟨⟨h.count,?_,?_⟩,h.nonneg,h.left⟩
    · intro r hr
      obtain hr | hr := List.mem_append.mp hr
      · exact h.noError r hr
      · rw [List.mem_singleton.mp hr]
        exact (by decide : -ebusy ≠ -eio)
    · have := h.order
      simpa [Device.apply] using this
  | wait c timeleft =>
    obtain ⟨hpos,timeout,hwaits,-⟩ := he
    have hcall := waitsFor_eq hwaits
    have hint := int_of_lt hf
    have hcount := h.count
    simp only [claims,hcall] at hcount
    simp only [Device.apply]
    rw [if_neg (by rw [hint]; omega)]
    refine ⟨⟨?_,h.noError,h.order⟩,?_,?_⟩
    · simp only [claims]
      push_cast at hcount ⊢
      linarith
    · exact Int.le_sub_one_of_lt hpos
    · intro c' l hc
      have hl := Stage.claimed.inj (Prod.mk.inj (Option.some.inj hc)).2
      rw [← hl,hint]
      exact Int.natCast_nonneg timeleft
  | timeOut c =>
    obtain ⟨timeout,hwaits⟩ := Option.isSome_iff_exists.mp he
    exact h.ends (by simp [claims,waitsFor_eq hwaits]) (by decide)
  | read c =>
    obtain ⟨timeleft,htimeleft⟩ := Option.isSome_iff_exists.mp he
    have hcall := timeleftOf_eq htimeleft
    have hcount := h.count
    have hnonneg := h.nonneg
    simp only [claims,hcall] at hcount
    -- a claimed event is in the queue
    obtain ⟨e,es,hes⟩ : ∃ e es,d.events.toList = e :: es := by
      cases hlist : d.events.toList with
      | nil =>
        rw [hlist] at hcount
        simp only [List.length_nil] at hcount
        omega
      | cons e es => exact ⟨e,es,rfl⟩
    obtain ⟨hread,hrest⟩ := d.events.read_cons hes
    have horder := h.order
    rw [hes] at hcount horder
    simp only [Device.apply,hcall,hread,Device.ends]
    refine ⟨⟨?_,?_,?_⟩,hnonneg,fun _ _ hc => by cases hc⟩
    · simp only [claims,hrest]
      simp only [List.length_cons] at hcount
      push_cast at hcount ⊢
      linarith
    · intro r hr
      obtain hr | hr := List.mem_append.mp hr
      · exact h.noError r hr
      · rw [List.mem_singleton.mp hr]
        have := h.left c timeleft hcall
        intro heq
        simp only [eio] at heq
        omega
    · rw [hrest,← horder]
      simp
  | release c =>
    have hcount := h.count
    simp only [Enabled] at he
    simp only [claims,he] at hcount
    exact ⟨⟨hcount,h.noError,h.order⟩,h.nonneg,fun _ _ hc => by cases hc⟩

/-- An operation that does not fit brings them out of step. -/
theorem Steady.apply_of_not [DecidableEq T] (h : Steady d) {op : Op T} (he : d.Enabled op)
    (hf : ¬d.Fits handler op) : ¬InStep (d.apply handler op) := by
  intro hafter
  have hcount := h.count
  have hcount' := hafter.count
  cases op with
  | interrupt data =>
    simp only [Fits] at hf
    obtain ⟨hevent,hfull⟩ := Classical.not_imp.mp hf
    obtain ⟨e,he'⟩ := Option.isSome_iff_exists.mp hevent
    have hfull' : d.events.full = true := by simpa using hfull
    rw [Device.apply,interrupt_some he'] at hcount'
    simp only [Device.put,BoundedQueue.write_full _ _ hfull'] at hcount'
    simp only [claims] at hcount hcount'
    omega
  | wait c timeleft =>
    obtain ⟨hpos,timeout,hwaits,hlt,-⟩ := he
    have hcall := waitsFor_eq hwaits
    have hneg := int_neg (not_lt.mp hf) hlt
    simp only [Device.apply,if_pos hneg,Device.ends] at hcount'
    simp only [claims,hcall] at hcount
    simp only [claims] at hcount'
    omega
  | acquire c timeout => exact hf trivial
  | busy c => exact hf trivial
  | timeOut c => exact hf trivial
  | read c => exact hf trivial
  | release c => exact hf trivial

end Device

end Invariants

section Systems

variable {T : Type*} [DecidableEq T]

/-- The keyboard and the mouse. -/
structure System (T : Type*) where
  /-- The keyboard, which keeps whether it has seen 0xE0. -/
  keyboard : Device T Bool KeyboardEvent
  /-- The mouse. -/
  mouse : Device T MouseState MouseEvent

/-- What happens at one of the two. -/
inductive SystemOp (T : Type*) where
  /-- At the keyboard. -/
  | keyboard (op : Op T)
  /-- At the mouse. -/
  | mouse (op : Op T)
  deriving DecidableEq

namespace System

variable (s : System T)

/-- The queue of a device has places. -/
theorem capacity_pos : 0 < 64 := by decide

/-- Both devices with empty queues of 64 events. -/
def start (ex : Bool) (mouse : MouseState) (keys : ℕ → KeyboardEvent)
    (moves : ℕ → MouseEvent) : System T where
  keyboard := .start ex 64 capacity_pos keys
  mouse := .start mouse 64 capacity_pos moves

/-- One operation. -/
def apply : SystemOp T → System T
  | .keyboard op => { s with keyboard := s.keyboard.apply keyboardInterrupt op }
  | .mouse op => { s with mouse := s.mouse.apply mouseInterrupt op }

/-- The operations that can come next. -/
def Enabled : SystemOp T → Prop
  | .keyboard op => s.keyboard.Enabled op
  | .mouse op => s.mouse.Enabled op

/-- The operations that fit. -/
def Fits : SystemOp T → Prop
  | .keyboard op => s.keyboard.Fits keyboardInterrupt op
  | .mouse op => s.mouse.Fits mouseInterrupt op

instance : DecidablePred s.Enabled
  | .keyboard op => inferInstanceAs (Decidable (s.keyboard.Enabled op))
  | .mouse op => inferInstanceAs (Decidable (s.mouse.Enabled op))

instance : DecidablePred s.Fits
  | .keyboard op => inferInstanceAs (Decidable (s.keyboard.Fits keyboardInterrupt op))
  | .mouse op => inferInstanceAs (Decidable (s.mouse.Fits mouseInterrupt op))

/-- Units and events are in step at both devices. -/
def InStep : Prop := s.keyboard.InStep ∧ s.mouse.InStep

/-- Both devices keep what every operation keeps that fits. -/
def Steady : Prop := s.keyboard.Steady ∧ s.mouse.Steady

end System

/-- In every run of interrupts and calls, of any threads, units and events stay in step
exactly where every operation fits. -/
theorem inStep_iff (ex : Bool) (mouse : MouseState) (keys : ℕ → KeyboardEvent)
    (moves : ℕ → MouseEvent) (ops : List (SystemOp T))
    (he : RunMeets System.apply System.Enabled (System.start ex mouse keys moves) ops) :
    (∀ n,((ops.take n).foldl System.apply (System.start ex mouse keys moves)).InStep) ↔
      RunMeets System.apply System.Fits (System.start ex mouse keys moves) ops := by
  have hstart : (System.start ex mouse keys moves : System T).Steady :=
    ⟨Device.steady_start _ _ _ _,Device.steady_start _ _ _ _⟩
  refine RunMeets.always_iff (fun s h => ⟨h.1.toInStep,h.2.toInStep⟩) (fun s op h he hf => ?_)
    (fun s op h he hf hafter => ?_) hstart he
  · cases op with
    | keyboard op => exact ⟨h.1.apply he hf,h.2⟩
    | mouse op => exact ⟨h.1,h.2.apply he hf⟩
  · cases op with
    | keyboard op => exact h.1.apply_of_not he hf hafter.1
    | mouse op => exact h.2.apply_of_not he hf hafter.2

/-- Both devices before anything has happened. -/
def quiet : System ℕ :=
  .start false ⟨0,fun _ => 0,0⟩ (fun _ => ⟨.none,false⟩) fun _ => ⟨0,0,0,[]⟩

/-- A key, one call, and a movement of the mouse. -/
def pressed : List (SystemOp ℕ) :=
  [.keyboard (.acquire 1 1000),.keyboard (.interrupt 0x1E#8),.keyboard (.wait 1 900),
    .keyboard (.read 1),.keyboard (.release 1),.mouse (.interrupt 0x08#8),.mouse (.interrupt 1#8),
    .mouse (.interrupt 2#8)]

theorem inStep_pressed : (pressed.foldl System.apply quiet).InStep := by
  have hall : ∀ n,((pressed.take n).foldl System.apply quiet).InStep :=
    (inStep_iff _ _ _ _ pressed (by decide)).mpr (by decide)
  rw [← List.take_length (l := pressed)]
  exact hall pressed.length

/-- A key is pressed 65 times before 65 calls of GetEvent. -/
def burst : List (SystemOp ℕ) :=
  List.replicate 65 (.keyboard (.interrupt 0x1E#8)) ++ (List.replicate 65
    [.keyboard (.acquire 1 1000),.keyboard (.wait 1 1000),.keyboard (.read 1),
      .keyboard (.release 1)]).flatten

/-- The last of them finds no event. -/
theorem burst_not_inStep : RunMeets System.apply System.Enabled quiet burst ∧
    (burst.foldl System.apply quiet).keyboard.results.getLast? = some (-eio,none) ∧
    ¬(burst.foldl System.apply quiet).InStep := by
  have hlast : (burst.foldl System.apply quiet).keyboard.results.getLast? = some (-eio,none) := by
    decide +kernel
  refine ⟨by decide +kernel,hlast,fun h => ?_⟩
  exact h.1.noError _ (List.mem_of_getLast? hlast) rfl

end Systems

end WootOs.InputDevices
