import WootOs.InputDevices

/-!
# Packets of the mouse

The mouse sends packets of three bytes. The first one has a bit that is always
set, the two buttons and the signs of the movement, whose low bits follow. The
handler makes an event of each packet, except that a first byte of 0xFA or 0xFE
is taken for an answer of the mouse and dropped. From then on it reads the
packets out of place, and less than one event for each of them comes out.
-/

namespace WootOs.InputDevices

open RingQueue Runs

section Emitting

variable {T σ E : Type*} (handler : σ → BitVec 8 → σ × Option E)

/-- The events that a handler makes of bytes. -/
def emits : σ → List (BitVec 8) → List E
  | _,[] => []
  | s,b :: bs => (handler s b).2.toList ++ emits (handler s b).1 bs

/-- The bytes that interrupts bring. -/
def bytesOf : List (Op T) → List (BitVec 8)
  | [] => []
  | .interrupt data :: ops => data :: bytesOf ops
  | .acquire _ _ :: ops => bytesOf ops
  | .busy _ :: ops => bytesOf ops
  | .wait _ _ :: ops => bytesOf ops
  | .timeOut _ :: ops => bytesOf ops
  | .read _ :: ops => bytesOf ops
  | .release _ :: ops => bytesOf ops

/-- An event finds room in the queue. -/
def Device.Room (d : Device T σ E) : Op T → Prop
  | .interrupt data => (handler d.state data).2.isSome → d.events.full = false
  | _ => True

instance (d : Device T σ E) : DecidablePred (d.Room handler)
  | .interrupt _ => inferInstanceAs (Decidable (_ → _))
  | .wait _ _ => inferInstanceAs (Decidable True)
  | .acquire _ _ => inferInstanceAs (Decidable True)
  | .busy _ => inferInstanceAs (Decidable True)
  | .timeOut _ => inferInstanceAs (Decidable True)
  | .read _ => inferInstanceAs (Decidable True)
  | .release _ => inferInstanceAs (Decidable True)

/-- The events that an operation makes. -/
def Device.made (d : Device T σ E) : Op T → List E
  | .interrupt data => (handler d.state data).2.toList
  | _ => []

variable {handler}

/-- The events of a run, operation by operation. -/
theorem emits_cons (d : Device T σ E) (op : Op T) (ops : List (Op T)) :
    emits handler d.state (bytesOf (op :: ops)) =
      d.made handler op ++ emits handler (d.apply handler op).state (bytesOf ops) := by
  cases op with
  | interrupt data =>
    have hstate : (d.apply handler (.interrupt data)).state = (handler d.state data).1 := by
      cases hevent : (handler d.state data).2 with
      | none => rw [Device.apply,Device.interrupt_none hevent]
      | some e => rw [Device.apply,Device.interrupt_some hevent,Device.put]
    rw [hstate]
    rfl
  | acquire c timeout => rfl
  | busy c => rfl
  | wait c timeleft =>
    simp only [Device.apply]
    split_ifs <;> rfl
  | timeOut c => rfl
  | read c =>
    simp only [Device.apply]
    split <;> rfl
  | release c => rfl

/-- The queued events grow by some of those that are made, and by all of them exactly
where there is room. -/
def Queues (queued queued' made : List E) (room : Prop) : Prop :=
  ∃ es,queued' = queued ++ es ∧ es.length ≤ made.length ∧ (room → es = made) ∧
    (es.length = made.length → room)

/-- Nothing is made. -/
theorem queues_nil (queued : List E) {room : Prop} (h : room) : Queues queued queued [] room :=
  ⟨[],(List.append_nil _).symm,le_rfl,fun _ => rfl,fun _ => h⟩

/-- First some events are made and then others. -/
theorem Queues.append {queued queued' queued'' made made' : List E} {room room' : Prop}
    (h : Queues queued queued' made room) (h' : Queues queued' queued'' made' room') :
    Queues queued queued'' (made ++ made') (room ∧ room') := by
  obtain ⟨es,hqueued,hle,hall,hroom⟩ := h
  obtain ⟨es',hqueued',hle',hall',hroom'⟩ := h'
  refine ⟨es ++ es',?_,?_,fun hr => ?_,fun hlength => ?_⟩
  · rw [hqueued',hqueued,List.append_assoc]
  · rw [List.length_append,List.length_append]
    omega
  · rw [hall hr.1,hall' hr.2]
  · rw [List.length_append,List.length_append] at hlength
    exact ⟨hroom (by omega),hroom' (by omega)⟩

/-- An event is put where there is room. -/
theorem queues_put (d : Device T σ E) (e : E) :
    Queues d.queued (d.put e).queued [e] (d.events.full = false) := by
  rw [Device.put]
  simp only [BoundedQueue.write_fst]
  cases d.events.full with
  | false => exact ⟨[e],by simp,le_rfl,fun _ => rfl,fun _ => rfl⟩
  | true =>
    refine ⟨[],by simp,Nat.zero_le _,fun h => ?_,fun h => ?_⟩
    · cases h
    · cases h

/-- What an operation queues is what it makes, exactly where that finds room. -/
theorem queues_apply (handler : σ → BitVec 8 → σ × Option E) (d : Device T σ E) (op : Op T) :
    Queues d.queued (d.apply handler op).queued (d.made handler op) (d.Room handler op) := by
  cases op with
  | interrupt data =>
    rw [Device.apply,Device.made,Device.Room]
    cases hevent : (handler d.state data).2 with
    | none =>
      rw [Device.interrupt_none hevent]
      exact queues_nil _ fun h => by cases h
    | some e =>
      rw [Device.interrupt_some hevent]
      simp only [Option.isSome_some,forall_const]
      exact queues_put _ e
  | acquire c timeout => exact queues_nil _ trivial
  | busy c => exact queues_nil _ trivial
  | wait c timeleft =>
    simp only [Device.apply]
    split_ifs <;> exact queues_nil _ trivial
  | timeOut c => exact queues_nil _ trivial
  | read c =>
    simp only [Device.apply]
    split <;> exact queues_nil _ trivial
  | release c => exact queues_nil _ trivial

/-- What a run queues is what its bytes make, exactly where each event finds room. -/
theorem queues_run (handler : σ → BitVec 8 → σ × Option E) (d : Device T σ E)
    (ops : List (Op T)) : Queues d.queued (ops.foldl (Device.apply handler) d).queued
      (emits handler d.state (bytesOf ops))
      (RunMeets (Device.apply handler) (Device.Room handler) d ops) := by
  induction ops generalizing d with
  | nil => exact queues_nil _ trivial
  | cons op ops ih =>
    rw [emits_cons]
    exact (queues_apply handler d op).append (ih _)

end Emitting

section Packets

/-- A packet of the mouse. -/
structure Packet where
  /-- The first byte. -/
  flags : BitVec 8
  /-- The low bits of the movement to the right. -/
  dx : BitVec 8
  /-- The low bits of the movement up. -/
  dy : BitVec 8
  /-- A bit of the first byte is always set. -/
  sync : flags.getLsbD 3 = true

namespace Packet

variable (p : Packet)

/-- The bytes that are sent. -/
def bytes : List (BitVec 8) := [p.flags,p.dx,p.dy]

/-- The movement to the right. -/
def movementX : ℤ := (BitVec.cons (p.flags.getLsbD 4) p.dx).toInt

/-- The movement up. -/
def movementY : ℤ := (BitVec.cons (p.flags.getLsbD 5) p.dy).toInt

/-- The two low buttons. -/
def buttons : BitVec 32 := (p.flags.extractLsb' 0 2).setWidth 32

/-- The first byte is not taken for an answer. -/
def Clear : Prop := p.flags ≠ 0xFA#8 ∧ p.flags ≠ 0xFE#8

instance : Decidable p.Clear := inferInstanceAs (Decidable (_ ∧ _))

/-- An event tells what a packet says, after some buttons were held. -/
structure Told (before : BitVec 32) (e : MouseEvent) : Prop where
  /-- The movement, to the right and down, and no other axis. -/
  delta : e.delta = [p.movementX,-p.movementY] ++ List.replicate (inpMaxMouseAxes - 2) 0
  /-- The buttons held. -/
  held : e.buttonsHeld = p.buttons
  /-- They are the ones before with those pressed and without those released. -/
  change : e.buttonsHeld = (before ||| e.buttonsPressed) &&& ~~~e.buttonsReleased
  /-- No button is pressed and released. -/
  disjoint : e.buttonsPressed &&& e.buttonsReleased = 0
  /-- Pressed buttons are held. -/
  pressed : e.buttonsPressed &&& e.buttonsHeld = e.buttonsPressed
  /-- Released buttons were held. -/
  released : e.buttonsReleased &&& before = e.buttonsReleased

end Packet

/-- Events tell packets, one each. -/
def ToldAll : BitVec 32 → List Packet → List MouseEvent → Prop
  | _,[],[] => True
  | held,p :: ps,e :: es => p.Told held e ∧ ToldAll e.buttonsHeld ps es
  | _,_,_ => False

theorem ToldAll.length_eq {held : BitVec 32} {ps : List Packet} {es : List MouseEvent}
    (h : ToldAll held ps es) : es.length = ps.length := by
  induction ps generalizing held es with
  | nil =>
    cases es with
    | nil => rfl
    | cons e es => exact h.elim
  | cons p ps ih =>
    cases es with
    | nil => exact h.elim
    | cons e es => rw [List.length_cons,List.length_cons,ih h.2]

/-- No event without three bytes. -/
theorem emits_length (mouse : MouseState) (bs : List (BitVec 8)) :
    3 * (emits mouseInterrupt mouse bs).length ≤ bs.length + mouse.dataPhase := by
  induction bs generalizing mouse with
  | nil => exact Nat.zero_le _
  | cons b bs ih =>
    have hrest := ih (mouseInterrupt mouse b).1
    have hphase := mouse.dataPhase.isLt
    have hstep : 3 * (mouseInterrupt mouse b).2.toList.length +
        (mouseInterrupt mouse b).1.dataPhase ≤ mouse.dataPhase + 1 := by
      rw [mouseInterrupt]
      split_ifs with hskip hnext
      · simp
      · have : (mouse.dataPhase + 1).val = mouse.dataPhase.val + 1 := by
          rw [Fin.val_add]
          exact Nat.mod_eq_of_lt hnext
        simp [this]
      · simp
        omega
    rw [emits,List.length_append,List.length_cons]
    omega

/-- A sign bit in front of a byte. -/
theorem toInt_cons (sign : Bool) (b : BitVec 8) :
    (BitVec.cons sign b).toInt = b.toNat - (if sign then 256 else 0 : ℕ) := by
  have hlt := b.isLt
  rw [BitVec.toInt_eq_msb_cond,BitVec.msb_cons,BitVec.toNat_cons']
  cases sign with
  | false => simp
  | true =>
    simp
    omega

end Packets

section Decoding

variable {mouse : MouseState} {p : Packet}

/-- A bit of a byte, where the handler moves it. -/
theorem sign_bit (b : BitVec 8) :
    b.toNat <<< 4 &&& 0x100 = (if b.getLsbD 4 then 256 else 0) ∧
      b.toNat <<< 3 &&& 0x100 = if b.getLsbD 5 then 256 else 0 := by
  revert b
  decide

/-- The first bytes pass the test for the bit that is always set. -/
theorem sync_ne (p : Packet) : p.flags &&& 0x08#8 ≠ 0 := by
  have hall : ∀ b : BitVec 8,b.getLsbD 3 = true → b &&& 0x08#8 ≠ 0 := by decide
  exact hall p.flags p.sync

/-- The buttons of a first byte. -/
theorem buttons_eq (p : Packet) : (p.flags &&& 0x03#8).setWidth 32 = p.buttons := by
  have hall : ∀ b : BitVec 8,(b &&& 0x03#8).setWidth 32 = (b.extractLsb' 0 2).setWidth 32 := by
    decide
  exact hall p.flags

/-- The event that the third byte of a packet makes is what the packet tells. -/
theorem told_of_bytes (old : BitVec 32) : p.Told old
    { buttonsPressed := (old ^^^ p.buttons) &&& p.buttons
      buttonsHeld := p.buttons
      buttonsReleased := (old ^^^ p.buttons) &&& old
      delta := [(p.dx.toNat : ℤ) - (p.flags.toNat <<< 4 &&& 0x100 : ℕ),
        -((p.dy.toNat : ℤ) - (p.flags.toNat <<< 3 &&& 0x100 : ℕ))] ++
          List.replicate (inpMaxMouseAxes - 2) 0 } where
  delta := by
    rw [(sign_bit p.flags).1,(sign_bit p.flags).2,Packet.movementX,Packet.movementY,toInt_cons,
      toInt_cons]
  held := rfl
  change := by
    ext i hi
    simp only [BitVec.getElem_and,BitVec.getElem_or,BitVec.getElem_xor,BitVec.getElem_not]
    cases old[i] <;> cases p.buttons[i] <;> rfl
  disjoint := by
    ext i hi
    rw [show (0 : BitVec 32)[i] = false from BitVec.getElem_zero hi]
    simp only [BitVec.getElem_and,BitVec.getElem_xor]
    cases old[i] <;> cases p.buttons[i] <;> rfl
  pressed := by
    ext i hi
    simp only [BitVec.getElem_and,BitVec.getElem_xor]
    cases old[i] <;> cases p.buttons[i] <;> rfl
  released := by
    ext i hi
    simp only [BitVec.getElem_and,BitVec.getElem_xor]
    cases old[i] <;> cases p.buttons[i] <;> rfl

variable {data : Fin 3 → BitVec 8} {buttons : BitVec 32}

/-- The first byte of a packet. -/
theorem mouseInterrupt_first (hp : p.Clear) : mouseInterrupt ⟨0,data,buttons⟩ p.flags =
    (⟨1,Function.update data 0 p.flags,buttons⟩,none) := by
  rw [mouseInterrupt,if_neg]
  · rfl
  · rintro ⟨-,hanswer | hsync⟩
    · exact hanswer.elim hp.1 hp.2
    · exact sync_ne p hsync

/-- The second byte. -/
theorem mouseInterrupt_second (b : BitVec 8) : mouseInterrupt ⟨1,data,buttons⟩ b =
    (⟨2,Function.update data 1 b,buttons⟩,none) := by
  rw [mouseInterrupt,if_neg (fun h => absurd h.1 (by simp))]
  rfl

/-- The third byte. -/
theorem mouseInterrupt_third (hflags : data 0 = p.flags) (hdx : data 1 = p.dx) :
    ∃ e,mouseInterrupt ⟨2,data,buttons⟩ p.dy =
      (⟨0,Function.update data 2 p.dy,p.buttons⟩,some e) ∧ e.buttonsHeld = p.buttons ∧
        p.Told buttons e := by
  refine ⟨_,?_,rfl,told_of_bytes buttons⟩
  have h0 : Function.update data 2 p.dy 0 = p.flags := hflags
  have h1 : Function.update data 2 p.dy 1 = p.dx := hdx
  have h2 : Function.update data 2 p.dy 2 = p.dy := Function.update_self ..
  rw [mouseInterrupt,if_neg (fun h => absurd h.1 (by simp))]
  dsimp only
  rw [if_neg (by decide),h0,h1,h2,buttons_eq]

/-- A packet makes one event. -/
theorem emits_packet (data : Fin 3 → BitVec 8) (buttons : BitVec 32) (hp : p.Clear)
    (bs : List (BitVec 8)) :
    ∃ e data',emits mouseInterrupt ⟨0,data,buttons⟩ (p.bytes ++ bs) =
        e :: emits mouseInterrupt ⟨0,data',p.buttons⟩ bs ∧
      e.buttonsHeld = p.buttons ∧ p.Told buttons e := by
  obtain ⟨e,hthird,hheld,htold⟩ := @mouseInterrupt_third p
    (Function.update (Function.update data 0 p.flags) 1 p.dx) buttons rfl rfl
  refine ⟨e,Function.update (Function.update (Function.update data 0 p.flags) 1 p.dx) 2 p.dy,?_,
    hheld,htold⟩
  rw [Packet.bytes,List.cons_append,List.cons_append,List.cons_append,List.nil_append,emits,
    mouseInterrupt_first hp,emits,mouseInterrupt_second,emits,hthird]
  rfl

/-- A first byte that is taken for an answer is dropped. -/
theorem emits_answer (hp : ¬p.Clear) (bs : List (BitVec 8)) :
    emits mouseInterrupt ⟨0,data,buttons⟩ (p.bytes ++ bs) =
      emits mouseInterrupt ⟨0,data,buttons⟩ (p.dx :: p.dy :: bs) := by
  have hanswer : p.flags = 0xFA#8 ∨ p.flags = 0xFE#8 := by
    by_contra hno
    exact hp (not_or.mp hno)
  rw [Packet.bytes,List.cons_append,emits,mouseInterrupt,if_pos ⟨rfl,.inl hanswer⟩]
  rfl

/-- Packets make their events as long as none looks like an answer. -/
theorem toldAll_emits (data : Fin 3 → BitVec 8) (buttons : BitVec 32) {ps : List Packet}
    (h : ∀ p ∈ ps,p.Clear) :
    ToldAll buttons ps (emits mouseInterrupt ⟨0,data,buttons⟩ (ps.flatMap Packet.bytes)) := by
  induction ps generalizing data buttons with
  | nil => trivial
  | cons p ps ih =>
    obtain ⟨e,data',hemits,hheld,htold⟩ := emits_packet data buttons (h p List.mem_cons_self)
      (ps.flatMap Packet.bytes)
    rw [List.flatMap_cons,hemits]
    refine ⟨htold,?_⟩
    rw [hheld]
    exact ih _ _ fun q hq => h q (List.mem_cons_of_mem p hq)

/-- As soon as one looks like an answer there are less events than packets. -/
theorem emits_length_lt (data : Fin 3 → BitVec 8) (buttons : BitVec 32) {ps : List Packet}
    (h : ∃ p ∈ ps,¬p.Clear) :
    (emits mouseInterrupt ⟨0,data,buttons⟩ (ps.flatMap Packet.bytes)).length < ps.length := by
  induction ps generalizing data buttons with
  | nil => exact absurd h (by simp)
  | cons p ps ih =>
    by_cases hp : p.Clear
    · obtain ⟨e,data',hemits,-,-⟩ := emits_packet data buttons hp (ps.flatMap Packet.bytes)
      obtain ⟨q,hq,hnot⟩ := h
      have hmem : q ∈ ps := (List.mem_cons.mp hq).resolve_left fun he => hnot (he ▸ hp)
      rw [List.flatMap_cons,hemits,List.length_cons,List.length_cons]
      exact Nat.succ_lt_succ (ih _ _ ⟨q,hmem,hnot⟩)
    · have hcount := emits_length ⟨0,data,buttons⟩ (p.dx :: p.dy :: ps.flatMap Packet.bytes)
      have hbytes : (ps.flatMap Packet.bytes).length = 3 * ps.length := by
        simp [List.length_flatMap,Packet.bytes]
        ring
      rw [List.flatMap_cons,emits_answer hp]
      simp only [List.length_cons,hbytes,Fin.val_zero] at hcount ⊢
      omega

/-- In every run in which the bytes are packets, the events that are queued tell them,
one each, exactly where no packet looks like an answer and each event finds room. -/
theorem told_iff {T : Type*} (d : Device T MouseState MouseEvent) (ops : List (Op T))
    (ps : List Packet) (hphase : d.state.dataPhase = 0)
    (hbytes : bytesOf ops = ps.flatMap Packet.bytes) :
    (∃ es,(ops.foldl (Device.apply mouseInterrupt) d).queued = d.queued ++ es ∧
      ToldAll d.state.buttons ps es) ↔
      (∀ p ∈ ps,p.Clear) ∧
        RunMeets (Device.apply mouseInterrupt) (Device.Room mouseInterrupt) d ops := by
  obtain ⟨es,hqueued,hle,hall,hroom⟩ := queues_run mouseInterrupt d ops
  have hstate : d.state = ⟨0,d.state.data,d.state.buttons⟩ := by rw [← hphase]
  rw [hbytes] at hle hall hroom
  constructor
  · rintro ⟨es',hqueued',htold⟩
    obtain rfl : es = es' := List.append_cancel_left (hqueued.symm.trans hqueued')
    have hlength := htold.length_eq
    have hclear : ∀ p ∈ ps,p.Clear := by
      by_contra hno
      push Not at hno
      have hlt := emits_length_lt d.state.data d.state.buttons hno
      rw [← hstate] at hlt
      omega
    have hmade := toldAll_emits d.state.data d.state.buttons hclear
    rw [← hstate] at hmade
    exact ⟨hclear,hroom (hlength.trans hmade.length_eq.symm)⟩
  · rintro ⟨hclear,hmeets⟩
    have hmade := toldAll_emits d.state.data d.state.buttons hclear
    rw [← hstate,← hall hmeets] at hmade
    exact ⟨es,hqueued,hmade⟩

/-- Three bytes make a packet. -/
local instance three_bytes : NeZero 3 := ⟨by decide⟩

/-- A mouse whose queue has room for two events. -/
def smallMouse : Device ℕ MouseState MouseEvent :=
  .start ⟨0,fun _ => 0,0⟩ 2 (by decide) fun _ => ⟨0,0,0,[]⟩

/-- The left button is pressed and the mouse moves, and then the button is released. -/
def click : List Packet := [⟨0x29,3,0xFE,by decide⟩,⟨0x08,0,0,by decide⟩]

theorem told_click : ∃ es,((click.flatMap Packet.bytes).map Op.interrupt |>.foldl
    (Device.apply mouseInterrupt) smallMouse).queued = smallMouse.queued ++ es ∧
      ToldAll 0 click es :=
  (told_iff smallMouse _ click rfl rfl).mpr ⟨by decide,by decide⟩

/-- With the right button held the mouse moves so far left and down that both movements
overflow. -/
def fast : List Packet := [⟨0xFA,0x10,0x10,by decide⟩,⟨0x08,0x18,0,by decide⟩]

/-- The first byte is dropped, and the second packet is read out of place. -/
theorem fast_not_told : ¬∃ es,((fast.flatMap Packet.bytes).map Op.interrupt |>.foldl
    (Device.apply mouseInterrupt) smallMouse).queued = smallMouse.queued ++ es ∧
      ToldAll 0 fast es := by
  rintro ⟨es,hqueued,htold⟩
  have hlength := htold.length_eq
  have hcount := congrArg List.length hqueued
  rw [List.length_append,hlength] at hcount
  exact absurd hcount (by decide)

end Decoding

end WootOs.InputDevices
