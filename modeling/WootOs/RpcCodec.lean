import WootOs.RpcCalls

/-!
# What a remote call carries

The name of a procedure and its arguments go through the data of a message, and
so does the response with the number of its request. Each side counts bytes for
itself: the client refuses what does not fit, the kernel copies as much as there
is room for into data of zeros, and the server and the client cut the response
to its place behind the number.
-/

namespace WootOs.RpcCodec

open NamedObjects HandleTable RpcCalls

/-- A byte. -/
abbrev Byte := BitVec 8

section Blocks

/-- The first bytes behind a pointer. -/
def bytesAt (src : ℕ → Byte) (n : ℕ) : List Byte := (List.range n).map src

/-- Copying bytes into a block, from an offset on. -/
def copyInto (block : List Byte) (offset : ℕ) (src : ℕ → Byte) (n : ℕ) : List Byte :=
  block.take offset ++ bytesAt src n ++ block.drop (offset + n)

/-- A pointer to a block. Behind a text there is a zero. -/
def pointer (block : List Byte) (i : ℕ) : Byte := block.getD i 0

/-- The bytes of an int. -/
def intBytes (x : BitVec 32) : List Byte :=
  [x.extractLsb' 0 8,x.extractLsb' 8 8,x.extractLsb' 16 8,x.extractLsb' 24 8]

/-- The int at the beginning of a block. -/
def intAt (block : List Byte) : BitVec 32 :=
  block.getD 3 0 ++ block.getD 2 0 ++ block.getD 1 0 ++ block.getD 0 0

variable {block : List Byte} {offset n i : ℕ} {src : ℕ → Byte}

/-- Copying inside of a block keeps its length. -/
theorem length_copyInto (h : offset + n ≤ block.length) :
    (copyInto block offset src n).length = block.length := by
  simp only [copyInto,bytesAt,List.length_append,List.length_take,List.length_map,
    List.length_range,List.length_drop]
  omega

/-- A byte of a block after copying. -/
theorem getD_copyInto (h : offset + n ≤ block.length) :
    (copyInto block offset src n).getD i 0 =
      if offset ≤ i ∧ i < offset + n then src (i - offset) else block.getD i 0 := by
  have hlength : (block.take offset ++ bytesAt src n).length = offset + n := by
    simp only [bytesAt,List.length_append,List.length_take,List.length_map,List.length_range]
    omega
  have htake : (block.take offset).length = offset := List.length_take_of_le (by omega)
  rw [copyInto]
  by_cases hlow : i < offset
  · rw [List.getD_append _ _ _ _ (by omega),List.getD_append _ _ _ _ (by omega),if_neg (by omega),
      List.getD_eq_getElem _ _ (by omega),List.getD_eq_getElem _ _ (by omega),List.getElem_take]
  · by_cases hhigh : i < offset + n
    · rw [List.getD_append _ _ _ _ (by omega),List.getD_append_right _ _ _ _ (by omega),
        if_pos ⟨by omega,hhigh⟩,htake,List.getD_eq_getElem _ _ (by simp [bytesAt]; omega)]
      simp [bytesAt]
    · rw [List.getD_append_right _ _ _ _ (by omega),if_neg (by omega),hlength]
      simp only [List.getD_eq_getElem?_getD,List.getElem?_drop]
      congr 2
      omega

/-- Zeros are zero, and so is what is behind them. -/
theorem getD_zeros (n i : ℕ) : (List.replicate n (0 : Byte)).getD i 0 = 0 := by
  rw [List.getD_eq_getElem?_getD,List.getElem?_replicate]
  split_ifs <;> rfl

/-- An int that was put at the beginning is found there. -/
theorem intAt_intBytes (x : BitVec 32) (l : List Byte) : intAt (intBytes x ++ l) = x := by
  ext i hi
  simp only [intAt,intBytes,List.cons_append,List.nil_append,List.getD_cons_succ,
    List.getD_cons_zero]
  grind

end Blocks

section Messages

/-- MSG_RPC_REQUEST. -/
def msgRpcRequest : ℤ := 200

/-- ESRCH. -/
def esrch : ℤ := 3

/-- An ipcMessage. -/
structure IpcMessage where
  /-- Number. -/
  number : ℤ
  /-- Flags. -/
  flags : BitVec 32
  /-- ID. -/
  id : BitVec 32
  /-- Source. -/
  source : ℤ
  /-- Data. -/
  data : List Byte
  /-- There is so much of it. -/
  size : data.length = msgPayloadSize

/-- The data as IPC::SendMessage fills it. -/
def messageData (payload : Option (ℕ → Byte)) (payloadSize : ℕ) : List Byte :=
  let data := List.replicate msgPayloadSize 0
  match payload with
  | none => data
  | some src => copyInto data 0 src (min msgPayloadSize payloadSize)

theorem length_messageData (payload : Option (ℕ → Byte)) (payloadSize : ℕ) :
    (messageData payload payloadSize).length = msgPayloadSize := by
  cases payload with
  | none => exact List.length_replicate
  | some src =>
    refine (length_copyInto ?_).trans List.length_replicate
    rw [List.length_replicate]
    omega

/-- IPC::SendMessage to one process, with the next number of a message, the process
that sends, and what Write returns if there is a destination. -/
def sendMessage (ids : BitVec 32) (current : ℤ) (write : Option ℤ) (number : ℤ)
    (flags : BitVec 32) (payload : Option (ℕ → Byte)) (payloadSize : ℕ) : ℤ × Option IpcMessage :=
  match write with
  | none => (-esrch,none)
  | some res =>
    let msg : IpcMessage :=
      { number := number
        flags := flags
        id := ids
        source := current
        data := messageData payload payloadSize
        size := length_messageData payload payloadSize }
    if res < 0 then (res,none) else (msg.id.toInt,some msg)

/-- The message, read as a response. -/
def IpcMessage.rpcResponse (msg : IpcMessage) : Message where
  number := msg.number
  flags := msg.flags
  id := msg.id.toInt
  source := msg.source
  requestMessageID := (intAt msg.data).toInt
  results := msg.data.drop 4

/-- What a client wants of a server. -/
structure Request where
  /-- The name of the procedure. -/
  proc : List Byte
  /-- It ends with the first zero. -/
  nonzero : ∀ b ∈ proc,b ≠ 0
  /-- The arguments, if there are any. -/
  args : Option (ℕ → Byte)
  /-- Their size. -/
  argsSize : ℕ

/-- A byte of the arguments. -/
def Request.arg (r : Request) (i : ℕ) : Byte :=
  match r.args with
  | none => 0
  | some args => args i

/-- The data that rpcCall prepares. -/
def Request.data (r : Request) : List Byte :=
  let procLen := r.proc.length
  let data := copyInto (List.replicate msgPayloadSize 0) 0 (pointer r.proc) (procLen + 1)
  match r.args with
  | none => data
  | some args => copyInto data (procLen + 1) args r.argsSize

/-- The part of rpcCall that sends the request. -/
def rpcRequest (r : Request) (ids : BitVec 32) (current : ℤ) (write : Option ℤ) :
    ℤ × Option IpcMessage :=
  let payloadSize := (r.proc.length + 1 + r.argsSize) % 2 ^ 32
  if payloadSize > msgPayloadSize then (-einval,none)
  else sendMessage ids current write msgRpcRequest 0 (some (pointer r.data)) payloadSize

/-- The name that the server finds in a request. -/
def requestName (msg : IpcMessage) : List Byte := msg.data.takeWhile (· ≠ 0)

/-- Where it finds the arguments. -/
def requestArgs (msg : IpcMessage) : ℕ → Byte :=
  pointer (msg.data.drop ((requestName msg).length + 1))

/-- rpcIPCReturn. -/
def rpcIPCReturn (reqMsgId : BitVec 32) (resp : ℕ → Byte) (respSize : ℕ) (ids : BitVec 32)
    (current : ℤ) (write : Option ℤ) : ℤ × Option IpcMessage :=
  let respSize := min respSize msgRpcRespPayloadSize
  let results := copyInto (List.replicate msgRpcRespPayloadSize 0) 0 resp respSize
  sendMessage ids current write msgRpcResponse 0 (some (pointer (intBytes reqMsgId ++ results)))
    (respSize + 4)

end Messages

section Codec

variable {ids : BitVec 32} {current number : ℤ} {write : Option ℤ} {flags : BitVec 32}
  {payload : Option (ℕ → Byte)} {payloadSize : ℕ} {msg : IpcMessage}

/-- A message that was sent carries what SendMessage was given and has the number that
it returns. -/
theorem sendMessage_some
    (h : (sendMessage ids current write number flags payload payloadSize).2 = some msg) :
    (sendMessage ids current write number flags payload payloadSize).1 = msg.id.toInt ∧
      msg.number = number ∧ msg.source = current ∧
      msg.data = messageData payload payloadSize := by
  cases write with
  | none => cases h
  | some res =>
    simp only [sendMessage] at h ⊢
    split_ifs at h ⊢
    cases h
    exact ⟨rfl,rfl,rfl,rfl⟩

/-- A byte of the data of a message. -/
theorem getD_messageData {src : ℕ → Byte} {i : ℕ} (hi : i < msgPayloadSize) :
    (messageData (some src) payloadSize).getD i 0 = if i < payloadSize then src i else 0 := by
  simp only [messageData]
  rw [getD_copyInto (by rw [List.length_replicate]; omega),getD_zeros]
  by_cases hlt : i < payloadSize
  · rw [if_pos (by omega),if_pos hlt,Nat.sub_zero]
  · rw [if_neg (by omega),if_neg hlt]

/-- The text at the beginning of a block ends at the first zero. -/
theorem takeWhile_eq {block name : List Byte} (hname : ∀ b ∈ name,b ≠ 0)
    (hlt : name.length < block.length) (hbytes : ∀ i < name.length,block.getD i 0 = name.getD i 0)
    (hend : block.getD name.length 0 = 0) : block.takeWhile (· ≠ 0) = name := by
  have htake : block.take name.length = name := by
    refine List.ext_getElem (List.length_take_of_le hlt.le) fun i hi hi' => ?_
    rw [List.getElem_take,← List.getD_eq_getElem block 0,hbytes i hi',List.getD_eq_getElem _ _ hi']
  have hzero : block[name.length] = 0 := by rw [← List.getD_eq_getElem block 0,hend]
  rw [← List.take_append_drop name.length block,htake,List.drop_eq_getElem_cons hlt,hzero,
    List.takeWhile_append_of_pos (by simpa using hname)]
  simp

/-- The data that rpcCall prepares: the name, a zero and the arguments. -/
theorem getD_data (r : Request) (hfits : r.proc.length + 1 + r.argsSize ≤ msgPayloadSize) (i : ℕ) :
    r.data.getD i 0 =
      if i < r.proc.length then r.proc.getD i 0
      else if r.proc.length + 1 ≤ i ∧ i < r.proc.length + 1 + r.argsSize then
        r.arg (i - (r.proc.length + 1))
      else 0 := by
  have hname : ∀ i,(copyInto (List.replicate msgPayloadSize 0) 0 (pointer r.proc)
      (r.proc.length + 1)).getD i 0 = if i < r.proc.length then r.proc.getD i 0 else 0 := by
    intro i
    rw [getD_copyInto (by rw [List.length_replicate]; omega),getD_zeros,Nat.sub_zero,pointer]
    by_cases hlt : i < r.proc.length
    · rw [if_pos (by omega),if_pos hlt]
    · rw [if_neg hlt,List.getD_eq_default _ _ (by omega)]
      split_ifs <;> rfl
  simp only [Request.data,Request.arg]
  cases r.args with
  | none =>
    dsimp only
    rw [hname]
    split_ifs <;> rfl
  | some args =>
    dsimp only
    rw [getD_copyInto (by
      rw [length_copyInto (by rw [List.length_replicate]; omega),List.length_replicate]
      omega),hname]
    by_cases hlt : i < r.proc.length
    · rw [if_neg (by omega),if_pos hlt,if_pos hlt]
    · rw [if_neg hlt]
      split_ifs <;> rfl

/-- The server finds the name and the arguments in a request that is delivered. -/
theorem request_decoded {r : Request}
    (hfits : r.proc.length + 1 + r.argsSize ≤ msgPayloadSize)
    (h : (rpcRequest r ids current write).2 = some msg) :
    (rpcRequest r ids current write).1 = msg.id.toInt ∧ msg.number = msgRpcRequest ∧
      msg.source = current ∧ requestName msg = r.proc ∧
      ∀ i < r.argsSize,requestArgs msg i = r.arg i := by
  have hsize : (r.proc.length + 1 + r.argsSize) % 2 ^ 32 = r.proc.length + 1 + r.argsSize :=
    Nat.mod_eq_of_lt (lt_of_le_of_lt hfits (by decide))
  rw [rpcRequest,hsize] at h ⊢
  simp only [if_neg (not_lt.mpr hfits)] at h ⊢
  obtain ⟨hret,hnumber,hsource,hdata⟩ := sendMessage_some h
  have hbyte : ∀ i < r.proc.length + 1 + r.argsSize,msg.data.getD i 0 =
      if i < r.proc.length then r.proc.getD i 0
      else if r.proc.length + 1 ≤ i ∧ i < r.proc.length + 1 + r.argsSize then
        r.arg (i - (r.proc.length + 1))
      else 0 := by
    intro i hi
    rw [hdata,getD_messageData (by omega),if_pos hi,pointer]
    exact getD_data r hfits i
  have hname : requestName msg = r.proc := by
    refine takeWhile_eq r.nonzero (by rw [msg.size]; omega) (fun i hi => ?_) ?_
    · rw [hbyte i (by omega),if_pos hi]
    · rw [hbyte _ (by omega),if_neg (lt_irrefl _),if_neg (by omega)]
  refine ⟨hret,hnumber,hsource,hname,fun i hi => ?_⟩
  have hat := hbyte (r.proc.length + 1 + i) (by omega)
  rw [if_neg (by omega),if_pos ⟨by omega,by omega⟩,Nat.add_sub_cancel_left] at hat
  rw [requestArgs,pointer,hname,← hat]
  simp only [List.getD_eq_getElem?_getD,List.getElem?_drop]

/-- What the client finds in a response that is delivered. -/
theorem response_decoded {reqMsgId : BitVec 32} {resp : ℕ → Byte} {respSize : ℕ}
    (h : (rpcIPCReturn reqMsgId resp respSize ids current write).2 = some msg) :
    msg.number = msgRpcResponse ∧ msg.source = current ∧ intAt msg.data = reqMsgId ∧
      msg.data.drop 4 =
        bytesAt (fun i => if i < respSize then resp i else 0) msgRpcRespPayloadSize := by
  obtain ⟨-,hnumber,hsource,hdata⟩ := sendMessage_some h
  have hresults : ∀ i < msgRpcRespPayloadSize,(copyInto (List.replicate msgRpcRespPayloadSize 0) 0
      resp (min respSize msgRpcRespPayloadSize)).getD i 0 = if i < respSize then resp i else 0 := by
    intro i hi
    rw [getD_copyInto (by rw [List.length_replicate]; omega),getD_zeros,Nat.sub_zero]
    by_cases hlt : i < respSize
    · rw [if_pos (by omega),if_pos hlt]
    · rw [if_neg (by omega),if_neg hlt]
  have hbyte : ∀ i < msgPayloadSize,i < min respSize msgRpcRespPayloadSize + 4 →
      msg.data.getD i 0 = (intBytes reqMsgId ++ copyInto (List.replicate msgRpcRespPayloadSize 0) 0
        resp (min respSize msgRpcRespPayloadSize)).getD i 0 := by
    intro i hi hlt
    rw [hdata,getD_messageData hi,if_pos hlt,pointer]
  refine ⟨hnumber,hsource,?_,?_⟩
  · have hint := intAt_intBytes reqMsgId (copyInto (List.replicate msgRpcRespPayloadSize 0) 0 resp
      (min respSize msgRpcRespPayloadSize))
    rw [intAt] at hint ⊢
    rw [hbyte 3 (by decide) (by omega),hbyte 2 (by decide) (by omega),
      hbyte 1 (by decide) (by omega),hbyte 0 (by decide) (by omega),hint]
  · refine List.ext_getElem ?_ fun i hi hi' => ?_
    · rw [List.length_drop,msg.size,bytesAt,List.length_map,List.length_range]
      rfl
    · have hlt : i < msgRpcRespPayloadSize := by simpa [bytesAt] using hi'
      have hplace : 4 + i < msgPayloadSize := by
        simp only [msgRpcRespPayloadSize] at hlt
        omega
      have hget : (msg.data.drop 4)[i] = msg.data.getD (4 + i) 0 := by
        rw [List.getElem_drop,List.getD_eq_getElem _ _ (by rw [msg.size]; exact hplace)]
      rw [hget]
      simp only [bytesAt,List.getElem_map,List.getElem_range]
      by_cases hin : i < respSize
      · have happend := List.getD_append_right (intBytes reqMsgId)
          (copyInto (List.replicate msgRpcRespPayloadSize 0) 0 resp
            (min respSize msgRpcRespPayloadSize)) 0 (4 + i) (Nat.le_add_right 4 i)
        rw [hbyte _ hplace (by omega),happend,show 4 + i - (intBytes reqMsgId).length = i from
          Nat.add_sub_cancel_left 4 i,hresults i hlt]
      · rw [hdata,getD_messageData hplace,if_neg (by omega),if_neg hin]


/-- Whatever is called and whatever is answered: the server finds the name and the
arguments, the answer is taken for that of the request, and the buffer of the client gets
as much of it as it and the message have room for, with zeros behind a short one. -/
theorem rpc_carries {r : Request} (hfits : r.proc.length + 1 + r.argsSize ≤ msgPayloadSize)
    {ids ids' : BitVec 32} {client server : ℤ} {write write' : Option ℤ}
    {request response : IpcMessage} {resp : ℕ → Byte} {respSize : ℕ}
    (hrequest : (rpcRequest r ids client write).2 = some request)
    (hresponse : (rpcIPCReturn request.id resp respSize ids' server write').2 = some response) :
    (request.number = msgRpcRequest ∧ request.source = client ∧ requestName request = r.proc ∧
      ∀ i < r.argsSize,requestArgs request i = r.arg i) ∧
    isCallResponse server (rpcRequest r ids client write).1 response.rpcResponse = true ∧
    ∀ (a : CallArgs) (reqMsgId : ℤ) (inbox : List Delivery) (respBufSize : ℕ),
      (rpcCall a reqMsgId inbox).response = some response.rpcResponse →
      respBuf (rpcCall a reqMsgId inbox) respBufSize =
        some (bytesAt (fun i => if i < respSize then resp i else 0)
          (min respBufSize msgRpcRespPayloadSize)) := by
  obtain ⟨hret,hnumber,hsource,hname,hargs⟩ := request_decoded hfits hrequest
  obtain ⟨hnumber',hsource',hid,hresults⟩ := response_decoded hresponse
  refine ⟨⟨hnumber,hsource,hname,hargs⟩,?_,fun a reqMsgId inbox respBufSize htaken => ?_⟩
  · rw [isCallResponse,decide_eq_true_eq,IpcMessage.rpcResponse,hret,hid]
    exact ⟨hnumber',hsource',rfl⟩
  · rw [respBuf,htaken,Option.map_some,IpcMessage.rpcResponse,hresults,bytesAt,bytesAt,
      ← List.map_take,List.take_range,min_comm respBufSize]
    congr 3
    omega

/-- A call of a procedure p with two bytes. -/
def small : Request := ⟨[0x70],by decide,some fun i => if i = 0 then 7 else 8,2⟩

/-- What the server 5 answers to the client 4. -/
theorem rpc_carries_small : ∃ request response,
    (rpcRequest small 11 4 (some 0)).2 = some request ∧
    (rpcIPCReturn request.id (fun _ => 9) 200 12 5 (some 0)).2 = some response ∧
    requestName request = [0x70] ∧ requestArgs request 1 = 8 ∧
    respBuf (rpcCall ⟨"proc://5".toList,1,2,-1⟩ 11 [⟨.queued,response.rpcResponse⟩]) 3 =
      some [9,9,9] := by
  refine ⟨_,_,rfl,rfl,?_⟩
  obtain ⟨⟨-,-,hname,hargs⟩,-,hbuf⟩ := @rpc_carries small (by decide) 11 12 4 5 (some 0) (some 0)
    _ _ (fun _ => 9) 200 rfl rfl
  refine ⟨hname,hargs 1 (by decide),hbuf _ _ _ 3 ?_⟩
  decide

end Codec

end WootOs.RpcCodec
