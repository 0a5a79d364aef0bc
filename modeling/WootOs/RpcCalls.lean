import Mathlib.Data.List.Basic
import Mathlib.Tactic.SplitIfs
import WootOs.HandleTable
import WootOs.SchedulerWaits

/-!
# Remote procedure calls

A remote call sends a request and then takes messages out of the inbox of the
process until the response comes. The time that one wait leaves is the timeout
of the next one. Through the semaphore, the queue and the system call that
number has a different meaning each time: below zero there is no timeout, zero
does not wait at all, and a wait without a timeout leaves zero or one.

So a call without a timeout has one after its first message. Each message
that is not the response is answered where it asks for it, and is then gone.
-/

namespace WootOs.RpcCalls

open Scheduler NamedObjects HandleTable

section Messages

/-- ETIMEOUT. -/
def etimeout : ℤ := 256

/-- MSG_PAYLOAD_SIZE. -/
def msgPayloadSize : ℕ := 112

/-- MSG_RPC_RESP_PAYLOAD_SIZE. -/
def msgRpcRespPayloadSize : ℕ := msgPayloadSize - 4

/-- MSG_FLAG_ACK_REQ. -/
def msgFlagAckReq : BitVec 32 := 1

/-- MSG_ACK. -/
def msgAck : ℤ := 1

/-- MSG_PING. -/
def msgPing : ℤ := 3

/-- MSG_PONG. -/
def msgPong : ℤ := 4

/-- MSG_KEYBOARD_EVENT. -/
def msgKeyboardEvent : ℤ := 102

/-- MSG_RPC_RESPONSE. -/
def msgRpcResponse : ℤ := 201

/-- MSG_RPC_FIND_SERVER_RESP. -/
def msgRpcFindServerResp : ℤ := 203

/-- An ipcMessage, whose data is read as the response to a call. -/
structure Message where
  /-- ipcMessage::Number. -/
  number : ℤ
  /-- ipcMessage::Flags. -/
  flags : BitVec 32
  /-- ipcMessage::ID. -/
  id : ℤ
  /-- ipcMessage::Source. -/
  source : ℤ
  /-- ipcRPCResponse::RequestMessageID. -/
  requestMessageID : ℤ
  /-- ipcRPCResponse::Results. -/
  results : List (BitVec 8)
  deriving DecidableEq

/-- When a message comes, seen from the Wait that takes it. -/
inductive Arrival where
  /-- It is in the queue. -/
  | queued
  /-- It comes while the Wait lasts, after a number of ticks. -/
  | after (ticks : ℕ)
  deriving DecidableEq

/-- A message and when it comes. -/
structure Delivery where
  /-- When the message comes. -/
  arrival : Arrival
  /-- The message. -/
  message : Message
  deriving DecidableEq

/-- Semaphore::Wait of the semaphore that counts the messages. None is a Wait that does
not return, since no message comes. -/
def semaphoreWait (timeout : ℕ) (tryWait : Bool) : Option Arrival → Option ℤ
  | some .queued => some timeout
  | some (.after ticks) =>
    if tryWait then some (-ebusy)
    else if timeout = 0 then some 1
    else
      let timeleft := timeLeft (sleepTicksOf timeout - ticks)
      some (if timeleft = 0 then -ebusy else timeleft)
  | none =>
    if tryWait then some (-ebusy)
    else if timeout = 0 then none
    else some (-ebusy)

/-- MessageQueue::Read. -/
def messageQueueRead (timeout : ℤ) (arrival : Option Arrival) : Option ℤ :=
  (semaphoreWait (if timeout < 0 then 0 else timeout.toNat) (decide (timeout = 0)) arrival).map
    fun timeleft => if timeleft < 0 then -etimeout else timeleft

/-- The function syscall of the C library, on what the kernel returns. -/
def syscallRet (r : ℤ) : ℤ := if -4096 < r ∧ r < 0 then -1 else r

/-- The function ipcGetMessage. -/
def ipcGetMessage (timeout : ℤ) (arrival : Option Arrival) : Option ℤ :=
  (messageQueueRead timeout arrival).map syscallRet

/-- The messages ipcProcessMessage sends, each with its destination. -/
def ipcProcessMessage (msg : Message) : List (ℤ × ℤ) :=
  (if msg.flags &&& msgFlagAckReq ≠ 0 then [(msg.source,msgAck)] else []) ++
    if msg.number = msgPing then [(msg.source,msgPong)] else []

/-- What comes of a call. -/
structure Outcome where
  /-- The value returned, or none for a call that waits for ever. -/
  result : Option ℤ
  /-- The response that was taken, if any. -/
  response : Option Message
  /-- The messages taken out of the inbox. -/
  taken : List Message
  /-- The messages sent by ipcProcessMessage, with their destinations. -/
  sent : List (ℤ × ℤ)
  /-- What is left of the inbox. -/
  inbox : List Delivery
  deriving DecidableEq

/-- A call that ends without taking another message. -/
def Outcome.ends (result : Option ℤ) (inbox : List Delivery) : Outcome :=
  { result := result
    response := none
    taken := []
    sent := []
    inbox := inbox }

/-- A call that has taken a message that is not the response. -/
def Outcome.passes (msg : Message) (o : Outcome) : Outcome :=
  { o with taken := msg :: o.taken,sent := ipcProcessMessage msg ++ o.sent }

/-- The loop that rpcCall and rpcFindServer have in common, for the test each of them
makes and the error each of them returns. -/
def waitResponse (isResponse : Message → Bool) (error timeout : ℤ) (timeleft : ℤ) :
    List Delivery → Outcome
  | [] =>
    if timeout < 0 ∨ timeleft > 0 then .ends (ipcGetMessage timeleft none) []
    else .ends (some (-error)) []
  | d :: inbox =>
    if timeout < 0 ∨ timeleft > 0 then
      match ipcGetMessage timeleft (some d.arrival) with
      | none => .ends none (d :: inbox)
      | some res =>
        if res < 0 then .ends (some res) (d :: inbox)
        else if isResponse d.message then
          { result := some res
            response := some d.message
            taken := [d.message]
            sent := ipcProcessMessage d.message
            inbox := inbox }
        else (waitResponse isResponse error timeout res inbox).passes d.message
    else .ends (some (-error)) (d :: inbox)

end Messages

section Calls

/-- The function startsWith. -/
def startsWith (str pre : List Char) : ℕ := if pre.isPrefixOf str then pre.length else 0

/-- The function isspace. -/
def isspace (c : Char) : Bool := c = ' ' || decide (9 ≤ c.toNat ∧ c.toNat ≤ 13)

/-- The function atoi. -/
def atoi (str : List Char) : ℤ :=
  let digits : List Char → ℤ := fun s =>
    (s.takeWhile Char.isDigit).foldl (fun n c => 10 * n + (c.toNat - '0'.toNat : ℕ)) 0
  match str.dropWhile isspace with
  | '-' :: s => -digits s
  | '+' :: s => digits s
  | s => digits s

/-- The test of rpcCall. -/
def isCallResponse (pid reqMsgId : ℤ) (msg : Message) : Bool :=
  decide (msg.number = msgRpcResponse ∧ msg.source = pid ∧ msg.requestMessageID = reqMsgId)

/-- The test of rpcFindServer. -/
def isFindServerResponse (id : ℤ) (msg : Message) : Bool :=
  decide (msg.number = msgRpcFindServerResp ∧ msg.requestMessageID = id)

/-- The arguments of rpcCall, with the lengths of its texts. -/
structure CallArgs where
  /-- The address of the server. -/
  addr : List Char
  /-- The length of the name of the procedure. -/
  procLen : ℕ
  /-- The size of the arguments. -/
  argsSize : ℕ
  /-- The timeout. -/
  timeout : ℤ

namespace CallArgs

variable (a : CallArgs)

/-- The process the address names. -/
def pid : ℤ := atoi (a.addr.drop (startsWith a.addr "proc://".toList))

/-- The size of the request. -/
def payloadSize : ℕ := (a.procLen + 1 + a.argsSize) % 2 ^ 32

/-- The request goes out, and ipcSendMessage returns the number of its message. -/
def Sent (reqMsgId : ℤ) : Prop :=
  startsWith a.addr "proc://".toList ≠ 0 ∧ 0 < a.pid ∧ a.payloadSize ≤ msgPayloadSize ∧ 0 ≤ reqMsgId

end CallArgs

/-- The function rpcCall, for what ipcSendMessage returns and the messages that come. -/
def rpcCall (a : CallArgs) (reqMsgId : ℤ) (inbox : List Delivery) : Outcome :=
  if a.timeout = 0 then .ends (some (-einval)) inbox
  else if startsWith a.addr "proc://".toList ≠ 0 then
    if a.pid ≤ 0 then .ends (some (-einval)) inbox
    else if a.payloadSize > msgPayloadSize then .ends (some (-einval)) inbox
    else if reqMsgId < 0 then .ends (some reqMsgId) inbox
    else waitResponse (isCallResponse a.pid reqMsgId) ebusy a.timeout a.timeout inbox
  else .ends (some (-einval)) inbox

/-- What rpcCall leaves in the buffer for the response. -/
def respBuf (o : Outcome) (respBufSize : ℕ) : Option (List (BitVec 8)) :=
  o.response.map fun msg => msg.results.take (min msgRpcRespPayloadSize respBufSize)

/-- The function rpcFindServer, for the length of the type, what ipcSendMessage returns
and the messages that come. -/
def rpcFindServer (typeLen : ℕ) (timeout : ℤ) (id : ℤ) (inbox : List Delivery) : Outcome :=
  if timeout = 0 then .ends (some (-einval)) inbox
  else if typeLen + 1 > msgPayloadSize then .ends (some (-einval)) inbox
  else if id < 0 then .ends (some id) inbox
  else waitResponse (isFindServerResponse id) enoent timeout timeout inbox

/-- What rpcFindServer leaves in the buffer for the address. -/
def serverAddr (o : Outcome) (addrBufSize : ℕ) : Option String :=
  o.response.map fun msg => (("proc://" ++ toString msg.source).take (addrBufSize - 1)).toString

end Calls

section Waiting

variable {isResponse : Message → Bool} {error timeout : ℤ}

/-- A call ends with the response and a value that is no error, or does not end. -/
def Outcome.Waits (isResponse : Message → Bool) (o : Outcome) : Prop :=
  ∀ value,o.result = some value → 0 ≤ value ∧ ∃ msg,o.response = some msg ∧ isResponse msg = true

/-- A message comes before the wait that follows the first one gives up: it is in the
queue, or the first one was waited for and no tick passes. -/
def OnTime (first : Arrival) : Arrival → Prop
  | .queued => True
  | .after ticks => first ≠ .queued ∧ ticks = 0

instance (first arrival : Arrival) : Decidable (OnTime first arrival) :=
  match arrival with
  | .queued => inferInstanceAs (Decidable True)
  | .after ticks => inferInstanceAs (Decidable (first ≠ .queued ∧ ticks = 0))

/-- The response comes, and all messages up to it come on time. -/
def Prompt (isResponse : Message → Bool) (first : Arrival) : List Delivery → Prop
  | [] => False
  | d :: inbox => OnTime first d.arrival ∧ (isResponse d.message = true ∨ Prompt isResponse first inbox)

/-- The response comes first, or prompt after the first message, or no message comes. -/
def Patient (isResponse : Message → Bool) : List Delivery → Prop
  | [] => True
  | d :: inbox => isResponse d.message = true ∨ Prompt isResponse d.arrival inbox

/-- What a wait without a timeout leaves. -/
theorem ipcGetMessage_neg {timeleft : ℤ} (h : timeleft < 0) (arrival : Option Arrival) :
    ipcGetMessage timeleft arrival =
      match arrival with
      | some .queued => some 0
      | some (.after _) => some 1
      | none => none := by
  have hne : decide (timeleft = 0) = false := by
    rw [decide_eq_false_iff_not]
    omega
  unfold ipcGetMessage messageQueueRead
  rw [if_pos h,hne]
  rcases arrival with _ | (_ | ticks) <;> rfl

/-- What a call that does not wait leaves. -/
theorem ipcGetMessage_zero (arrival : Option Arrival) :
    ipcGetMessage 0 arrival = if arrival = some .queued then some 0 else some (-1) := by
  rcases arrival with _ | (_ | ticks) <;> rfl

/-- A wait of one tick is over when a tick passes. -/
theorem semaphoreWait_late {timeout : ℕ} (h0 : timeout ≠ 0) (hs : sleepTicksOf timeout = 1)
    (ticks : ℕ) : semaphoreWait timeout false (some (.after (ticks + 1))) = some (-ebusy) := by
  have hzero : timeLeft (1 - (ticks + 1)) = 0 := by
    rw [Nat.sub_eq_zero_of_le (Nat.le_add_left 1 ticks)]
    rfl
  simp only [semaphoreWait,Bool.false_eq_true,if_false,if_neg h0,hs,hzero,if_true]

/-- What a wait shorter than a tick leaves. -/
theorem ipcGetMessage_short {timeleft : ℤ} (h : timeleft = 1 ∨ timeleft = 7)
    (arrival : Option Arrival) :
    ipcGetMessage timeleft arrival =
      match arrival with
      | some .queued => some timeleft
      | some (.after 0) => some 7
      | some (.after (_ + 1)) => some (-1)
      | none => some (-1) := by
  have hlate : ∀ ticks,ipcGetMessage 1 (some (.after (ticks + 1))) = some (-1) ∧
      ipcGetMessage 7 (some (.after (ticks + 1))) = some (-1) := by
    intro ticks
    constructor
    · exact congrArg (Option.map syscallRet) (congrArg (Option.map _)
        (@semaphoreWait_late 1 (by decide) (by decide) ticks))
    · exact congrArg (Option.map syscallRet) (congrArg (Option.map _)
        (@semaphoreWait_late 7 (by decide) (by decide) ticks))
  rcases h with rfl | rfl
  · rcases arrival with _ | (_ | (_ | ticks))
    · rfl
    · rfl
    · rfl
    · exact (hlate ticks).1
  · rcases arrival with _ | (_ | (_ | ticks))
    · rfl
    · rfl
    · rfl
    · exact (hlate ticks).2

/-- The loop asks for a message while time is left, or when it has no timeout. -/
theorem waitResponse_nil {timeleft : ℤ} (h : timeout < 0 ∨ timeleft > 0) :
    waitResponse isResponse error timeout timeleft [] =
      .ends (ipcGetMessage timeleft none) [] := if_pos h

/-- It ends with what the wait returns, with the response, or goes on. -/
theorem waitResponse_asks {timeleft : ℤ} (h : timeout < 0 ∨ timeleft > 0) (d : Delivery)
    (inbox : List Delivery) :
    waitResponse isResponse error timeout timeleft (d :: inbox) =
      match ipcGetMessage timeleft (some d.arrival) with
      | none => .ends none (d :: inbox)
      | some res =>
        if res < 0 then .ends (some res) (d :: inbox)
        else if isResponse d.message then
          { result := some res
            response := some d.message
            taken := [d.message]
            sent := ipcProcessMessage d.message
            inbox := inbox }
        else (waitResponse isResponse error timeout res inbox).passes d.message := if_pos h

/-- Otherwise it returns its error. -/
theorem waitResponse_spent {timeleft : ℤ} (h : ¬(timeout < 0 ∨ timeleft > 0))
    (inbox : List Delivery) :
    waitResponse isResponse error timeout timeleft inbox = .ends (some (-error)) inbox := by
  cases inbox <;> exact if_neg h

theorem Outcome.waits_passes {msg : Message} {o : Outcome} :
    (o.passes msg).Waits isResponse ↔ o.Waits isResponse := Iff.rfl

/-- A call that ends with an error does not wait for the response. -/
theorem Outcome.not_waits_ends {value : ℤ} {inbox : List Delivery} :
    ¬(Outcome.ends (some value) inbox).Waits isResponse := by
  intro h
  obtain ⟨-,msg,hmsg,-⟩ := h value rfl
  cases hmsg

/-- A message that comes, in a call without a timeout. -/
theorem waitResponse_cons (ht : timeout < 0) {timeleft res : ℤ} {d : Delivery}
    {inbox : List Delivery} (hres : ipcGetMessage timeleft (some d.arrival) = some res)
    (hpos : 0 ≤ res) :
    (waitResponse isResponse error timeout timeleft (d :: inbox)).Waits isResponse ↔
      isResponse d.message = true ∨
        (waitResponse isResponse error timeout res inbox).Waits isResponse := by
  rw [waitResponse_asks (.inl ht),hres]
  simp only [if_neg (Int.not_lt.mpr hpos)]
  by_cases hr : isResponse d.message = true
  · rw [if_pos hr]
    simp only [hr,true_or,iff_true]
    rintro value ⟨⟩
    exact ⟨hpos,d.message,rfl,hr⟩
  · rw [if_neg hr,Outcome.waits_passes]
    exact ⟨.inr,fun h => h.resolve_left hr⟩

/-- A message that comes too late. -/
theorem waitResponse_late (ht : timeout < 0) {timeleft : ℤ} {d : Delivery}
    {inbox : List Delivery} (hres : ipcGetMessage timeleft (some d.arrival) = some (-1)) :
    ¬(waitResponse isResponse error timeout timeleft (d :: inbox)).Waits isResponse := by
  rw [waitResponse_asks (.inl ht),hres]
  exact Outcome.not_waits_ends

/-- After a message that was in the queue, the next call does not wait. -/
theorem waits_zero_iff (ht : timeout < 0) (inbox : List Delivery) :
    (waitResponse isResponse error timeout 0 inbox).Waits isResponse ↔
      Prompt isResponse .queued inbox := by
  induction inbox with
  | nil =>
    rw [waitResponse_nil (.inl ht),ipcGetMessage_zero]
    exact iff_of_false Outcome.not_waits_ends fun h => h
  | cons d inbox ih =>
    obtain ⟨arrival,msg⟩ := d
    cases arrival with
    | queued =>
      have hres : ipcGetMessage 0 (some .queued) = some 0 := ipcGetMessage_zero _
      rw [waitResponse_cons ht hres (Int.le_refl 0),ih]
      exact ⟨fun h => ⟨trivial,h⟩,fun h => h.2⟩
    | after ticks =>
      have hres : ipcGetMessage 0 (some (.after ticks)) = some (-1) := ipcGetMessage_zero _
      exact iff_of_false (waitResponse_late ht hres) fun h => h.1.1 rfl

/-- After a message that was waited for, the next call waits less than a tick. -/
theorem waits_short_iff (ht : timeout < 0) {timeleft : ℤ} (hl : timeleft = 1 ∨ timeleft = 7)
    (ticks : ℕ) (inbox : List Delivery) :
    (waitResponse isResponse error timeout timeleft inbox).Waits isResponse ↔
      Prompt isResponse (.after ticks) inbox := by
  induction inbox generalizing timeleft with
  | nil =>
    rw [waitResponse_nil (.inl ht),ipcGetMessage_short hl]
    exact iff_of_false Outcome.not_waits_ends fun h => h
  | cons d inbox ih =>
    obtain ⟨arrival,msg⟩ := d
    rcases arrival with _ | (_ | late)
    · have hres : ipcGetMessage timeleft (some .queued) = some timeleft := ipcGetMessage_short hl _
      rw [waitResponse_cons ht hres (by omega),ih hl]
      exact ⟨fun h => ⟨trivial,h⟩,fun h => h.2⟩
    · have hres : ipcGetMessage timeleft (some (.after 0)) = some 7 := ipcGetMessage_short hl _
      rw [waitResponse_cons ht hres (by decide),ih (.inr rfl)]
      exact ⟨fun h => ⟨⟨nofun,rfl⟩,h⟩,fun h => h.2⟩
    · have hres : ipcGetMessage timeleft (some (.after (late + 1))) = some (-1) :=
        ipcGetMessage_short hl _
      exact iff_of_false (waitResponse_late ht hres) fun h => Nat.succ_ne_zero late h.1.2

/-- The loop without a timeout waits for the response exactly when the messages come as
Patient says. -/
theorem waits_iff_patient (ht : timeout < 0) (inbox : List Delivery) :
    (waitResponse isResponse error timeout timeout inbox).Waits isResponse ↔
      Patient isResponse inbox := by
  cases inbox with
  | nil =>
    rw [waitResponse_nil (.inl ht),ipcGetMessage_neg ht]
    exact iff_of_true (fun value h => by cases h) trivial
  | cons d inbox =>
    obtain ⟨arrival,msg⟩ := d
    cases arrival with
    | queued =>
      have hres : ipcGetMessage timeout (some .queued) = some 0 := ipcGetMessage_neg ht _
      rw [waitResponse_cons ht hres (Int.le_refl 0),waits_zero_iff ht,Patient]
    | after ticks =>
      have hres : ipcGetMessage timeout (some (.after ticks)) = some 1 := ipcGetMessage_neg ht _
      rw [waitResponse_cons ht hres (by decide),waits_short_iff ht (.inl rfl) ticks,Patient]

end Waiting

/-- A call without a timeout whose request is sent returns only with its response, and a
value that is no error, if and only if the messages come as Patient says. -/
theorem rpc_waits_iff {timeout : ℤ} (ht : timeout < 0) (inbox : List Delivery) :
    (∀ (a : CallArgs) (reqMsgId : ℤ),a.timeout = timeout → a.Sent reqMsgId →
      ((rpcCall a reqMsgId inbox).Waits (isCallResponse a.pid reqMsgId) ↔
        Patient (isCallResponse a.pid reqMsgId) inbox)) ∧
    ∀ (typeLen : ℕ) (id : ℤ),typeLen + 1 ≤ msgPayloadSize → 0 ≤ id →
      ((rpcFindServer typeLen timeout id inbox).Waits (isFindServerResponse id) ↔
        Patient (isFindServerResponse id) inbox) := by
  have hne : timeout ≠ 0 := by omega
  constructor
  · rintro a reqMsgId rfl ⟨hstart,hpid,hsize,hid⟩
    rw [rpcCall,if_neg hne,if_pos hstart,if_neg (by omega),if_neg (by omega),if_neg (by omega)]
    exact waits_iff_patient ht inbox
  · intro typeLen id hsize hid
    rw [rpcFindServer,if_neg hne,if_neg (by omega),if_neg (by omega)]
    exact waits_iff_patient ht inbox

/-- A call without a timeout. -/
def endlessCall : CallArgs :=
  { addr := "proc://5".toList
    procLen := 14
    argsSize := 4
    timeout := -1 }

/-- A key that was pressed. -/
def keyPressed : Message :=
  { number := msgKeyboardEvent
    flags := 0
    id := 7
    source := 2
    requestMessageID := 0
    results := [] }

/-- The response to the message 8. -/
def callResponse : Message :=
  { number := msgRpcResponse
    flags := 0
    id := 9
    source := 5
    requestMessageID := 8
    results := [] }

theorem rpc_waits_iff_queued :
    (rpcCall endlessCall 8 [⟨.queued,keyPressed⟩,⟨.queued,callResponse⟩]).Waits
      (isCallResponse 5 8) :=
  ((rpc_waits_iff (by decide) _).1 endlessCall 8 rfl ⟨by decide,by decide,by decide,by decide⟩).mpr
    (.inr ⟨trivial,.inl (by decide)⟩)

/-- A key that is pressed before the response comes makes the call give up. -/
theorem endlessCall_gives_up :
    endlessCall.timeout < 0 ∧ endlessCall.Sent 8 ∧
      (rpcCall endlessCall 8 [⟨.queued,keyPressed⟩,⟨.after 3,callResponse⟩]).result = some (-1) ∧
      ¬(rpcCall endlessCall 8 [⟨.queued,keyPressed⟩,⟨.after 3,callResponse⟩]).Waits
        (isCallResponse 5 8) := by
  have hresult : (rpcCall endlessCall 8 [⟨.queued,keyPressed⟩,⟨.after 3,callResponse⟩]).result =
      some (-1) := by decide
  refine ⟨by decide,⟨by decide,by decide,by decide,by decide⟩,hresult,fun h => ?_⟩
  exact absurd (h (-1) hresult).1 (by decide)

section Inbox

variable {isResponse : Message → Bool} {error timeout : ℤ}

/-- Where the messages of the inbox are when a call has ended. -/
structure Accounted (isResponse : Message → Bool) (inbox : List Delivery) (o : Outcome) : Prop where
  /-- A message was taken, or it is left in its place. -/
  split : inbox.map Delivery.message = o.taken ++ o.inbox.map Delivery.message
  /-- What is left comes as it would have come. -/
  left : o.inbox <:+ inbox
  /-- Each message taken went through ipcProcessMessage. -/
  served : o.sent = o.taken.flatMap ipcProcessMessage
  /-- The last message taken is the response, if there is one, and the others are not. -/
  others : ∃ dropped,o.taken = dropped ++ o.response.toList ∧ ∀ msg ∈ dropped,isResponse msg = false
  /-- The response is the one that was awaited. -/
  response : ∀ msg,o.response = some msg → isResponse msg = true

/-- A call that ends without taking another message. -/
theorem accounted_ends (result : Option ℤ) (inbox : List Delivery) :
    Accounted isResponse inbox (.ends result inbox) :=
  ⟨rfl,List.suffix_refl _,rfl,⟨[],rfl,nofun⟩,nofun⟩

/-- A message that is not the response is taken. -/
theorem Accounted.passes {inbox : List Delivery} {o : Outcome} (h : Accounted isResponse inbox o)
    {d : Delivery} (hd : isResponse d.message = false) :
    Accounted isResponse (d :: inbox) (o.passes d.message) := by
  obtain ⟨dropped,htaken,hdropped⟩ := h.others
  refine ⟨?_,h.left.trans (List.suffix_cons d inbox),?_,⟨d.message :: dropped,?_,?_⟩,h.response⟩
  · rw [List.map_cons,h.split]
    rfl
  · simp only [Outcome.passes,List.flatMap_cons,h.served]
  · simp only [Outcome.passes,htaken,List.cons_append]
  · intro msg hmsg
    rcases List.mem_cons.mp hmsg with rfl | hm
    · exact hd
    · exact hdropped msg hm

/-- The loop leaves no message unaccounted. -/
theorem waitResponse_accounted (timeleft : ℤ) (inbox : List Delivery) :
    Accounted isResponse inbox (waitResponse isResponse error timeout timeleft inbox) := by
  induction inbox generalizing timeleft with
  | nil =>
    by_cases hloop : timeout < 0 ∨ timeleft > 0
    · rw [waitResponse_nil hloop]
      exact accounted_ends _ _
    · rw [waitResponse_spent hloop]
      exact accounted_ends _ _
  | cons d inbox ih =>
    by_cases hloop : timeout < 0 ∨ timeleft > 0
    · rw [waitResponse_asks hloop]
      cases ipcGetMessage timeleft (some d.arrival) with
      | none => exact accounted_ends _ _
      | some res =>
        by_cases hneg : res < 0
        · simp only [if_pos hneg]
          exact accounted_ends _ _
        · simp only [if_neg hneg]
          by_cases hr : isResponse d.message = true
          · rw [if_pos hr]
            refine ⟨rfl,List.suffix_cons d inbox,by simp,⟨[],rfl,nofun⟩,?_⟩
            rintro msg ⟨⟩
            exact hr
          · rw [if_neg hr]
            exact (ih res).passes (Bool.eq_false_iff.mpr hr)
    · rw [waitResponse_spent hloop]
      exact accounted_ends _ _

end Inbox

/-- Whatever its timeout and the messages that come, a call takes some messages from the
front of the inbox, answers each of them where it asks for it, and leaves the others in
their places. Only the last one it takes can be the response. -/
theorem rpc_accounted (inbox : List Delivery) :
    (∀ (a : CallArgs) (reqMsgId : ℤ),
      Accounted (isCallResponse a.pid reqMsgId) inbox (rpcCall a reqMsgId inbox)) ∧
    ∀ (typeLen : ℕ) (timeout id : ℤ),
      Accounted (isFindServerResponse id) inbox (rpcFindServer typeLen timeout id inbox) := by
  constructor
  · intro a reqMsgId
    unfold rpcCall
    split_ifs
    · exact accounted_ends _ _
    · exact accounted_ends _ _
    · exact accounted_ends _ _
    · exact accounted_ends _ _
    · exact waitResponse_accounted _ _
    · exact accounted_ends _ _
  · intro typeLen timeout id
    unfold rpcFindServer
    split_ifs
    · exact accounted_ends _ _
    · exact accounted_ends _ _
    · exact accounted_ends _ _
    · exact waitResponse_accounted _ _

/-- A key that is pressed before the response comes is taken by the call, gets no answer
and is not there for a later ipcGetMessage. -/
theorem key_swallowed :
    ¬∀ msg ∈ [keyPressed,callResponse],
      (rpcCall endlessCall 8 [⟨.queued,keyPressed⟩,⟨.queued,callResponse⟩]).response = some msg ∨
      ipcProcessMessage msg ≠ [] ∨
      msg ∈ (rpcCall endlessCall 8 [⟨.queued,keyPressed⟩,⟨.queued,callResponse⟩]).inbox.map
        Delivery.message := by
  decide

end WootOs.RpcCalls
