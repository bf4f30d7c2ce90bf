import CoapBroker.Broker.WellKnown
import CoapBroker.Libcoap.Dispatch

/-!
# Exchanging messages

What libcoap does with a datagram (`coap_handle_message`, `coap_dispatch`, `handle_request`): it
checks the message and its options, calls the handler of a resource, and sends a reply, or none.
The program whose handlers are called is a parameter (`Server`), and so are the confirmable
messages that wait for an acknowledgement.

A reply is one of three kinds (`IsReply`): a response with the token of the message, an empty
acknowledgement of a confirmable message, or a reset of a message that is neither request nor
response. A message with the header of a reply is not replied to (`coapDispatch_reply`).

Sending is taken to succeed, and datagrams to be sent to one receiver only.
-/

namespace CoapBroker

def coapOptionNoresponse : ℕ := 258
def coapRequestGet : ℕ := 1

/-! ## Programs -/

/-- A message as a handler gets it. -/
structure Incoming where
  peer : CoapAddress
  token : List Byte
  request : Request
  block2 : Option CoapBlock

/-- A program with states `σ` whose resources libcoap serves; a handler that is called may have
    other effects (`ω`). -/
structure Server (σ ω : Type) where
  resources : σ → ResourceTable
  setResources : σ → ResourceTable → σ
  lookup : Lookup
  /-- The critical options that have been registered. -/
  knownOptions : OptFilter := .clear
  /-- The resources that are listed for a query. -/
  passes : Option (List Byte) → CoapResource → Bool
  /-- Calling the handler for a method of the resource with a URI. -/
  call : σ → CStr → Method → Incoming → Except Fault (σ × Pdu × ω)
  /-- A handler gives a response the code of one, or none. -/
  call_code : ∀ {s uri method incoming s' response out},
    call s uri method incoming = .ok (s', response, out) →
      response.code = 0 ∨ 64 ≤ response.code ∧ response.code < 256

/-- A confirmable message that waits for an acknowledgement (`coap_queue_t`), without its time. -/
structure Sent where
  id : ℕ
  remote : CoapAddress
  token : List Byte
  deriving DecidableEq

/-- `coap_transaction_id`: the key of the peer and the identifier, folded to 16 bits. -/
def coapTransactionId (peer : CoapAddress) (id : Byte × Byte) : ℕ :=
  let h := coapHashImpl (peer ++ [id.1, id.2]) {}
  (h.h0.toNat <<< 8 ||| h.h1.toNat) ^^^ (h.h2.toNat <<< 8 ||| h.h3.toNat)

/-- A message is put into the queue behind some others; how many is up to the times
    (`CoapBroker.Libcoap.SendQueue`). -/
def putBehind (queue : List Sent) (place : ℕ) (sent : Sent) : List Sent :=
  queue.take place ++ sent :: queue.drop place

/-- `coap_remove_from_queue`: the first message of a transaction is taken out. -/
def coapRemoveFromQueue (queue : List Sent) (id : ℕ) : List Sent × Option Sent :=
  (queue.eraseP fun q => q.id = id, queue.find? fun q => q.id = id)

/-- `coap_cancel_all_messages`. -/
def coapCancelAllMessages (queue : List Sent) (dst : CoapAddress) (token : List Byte) : List Sent :=
  queue.filter fun q => ¬(q.remote = dst ∧ q.token = token)

/-! ## Options -/

/-- The value of the first option of a number. -/
def CoapPdu.optionValue (past : Byte) (pdu : CoapPdu) (type : ℕ) : Option (List Byte) :=
  (coapCheckOption past pdu type).map fun x =>
    ((coapOptValue past x.1).getD []).take (coapOptLength past x.1)

/-- The critical options that are known in any case. -/
def builtinCritical : List ℕ := [1, 3, 5, 7, 11, 15, 17, 35, 39, 23, 27]

/-- An option that makes a message unacceptable. -/
def unknownCritical (known : OptFilter) (type : ℕ) : Bool :=
  type &&& 0x01 = 1 ∧ type ∉ builtinCritical ∧ coapOptionFilterGet known type = false

/-- `coap_option_check_critical`: whether all critical options are known, and the unknown ones, as
    far as there is room for them. -/
def coapOptionCheckCritical (past : Byte) (known : OptFilter) (pdu : CoapPdu) : Bool × OptFilter :=
  (pdu.iterate past none).foldl (fun s o =>
    if unknownCritical known o.type then (false, (coapOptionFilterOp s.2 o.type .set).1) else s)
    (true, OptFilter.clear)

/-- `enum respond_t`. -/
inductive Respond
  | default
  | drop
  | send
  deriving DecidableEq

/-- `COAP_RESPONSE_CLASS`. -/
def coapResponseClass (code : ℕ) : ℕ := code >>> 5 &&& 0xFF

/-- `no_response`, for a response with a code. -/
def noResponse (past : Byte) (request : CoapPdu) (code : ℕ) : Respond :=
  if 0 < coapResponseClass code then
    match request.optionValue past coapOptionNoresponse with
    | some nores =>
      let val := coapDecodeVarBytes nores % 2 ^ 8
      if 0 < 1 <<< (coapResponseClass code - 1) &&& val then .drop else .send
    | none => .default
  else .default

/-! ## Replies -/

/-- The type of a response to a message of a type. -/
def responseType (type : ℕ) : ℕ := if type = coapMessageCon then coapMessageAck else coapMessageNon

/-- A response as it is put together: the options and the data are left out that do not fit. -/
def buildResponse (request : CoapPdu) (response : Pdu) : Except Fault (Option CoapPdu) :=
  match coapPduInit (responseType request.type) response.code request.id coapMaxPduSize with
  | .error f => .error f
  | .ok none => .ok none
  | .ok (some pdu) =>
    match coapAddToken pdu request.token with
    | none => .ok none
    | some pdu =>
      (coapAddData (addOptions pdu response.options).1 response.data).map fun x => some x.1

/-- The options that a filter lets pass, as they stand in the message, and their numbers. -/
def rawOptionsFrom (past : Byte) : ℕ → OptIterator → List (List Byte × ℕ)
  | 0, _ => []
  | n + 1, oi =>
    match coapOptionNext past oi with
    | none => []
    | some (opt, oi) => (opt, oi.type) :: rawOptionsFrom past n oi

def CoapPdu.rawOptions (past : Byte) (pdu : CoapPdu) (filter : OptFilter) : List (List Byte × ℕ) :=
  rawOptionsFrom past (pdu.body.length + 1) (coapOptionIteratorInit pdu (some filter))

/-- The space that is planned for some options, after one of number `optType`. -/
def optionsSize (past : Byte) (optType : ℕ) : List (List Byte × ℕ) → ℕ
  | [] => 0
  | (option, type) :: options =>
    let delta := (type + 2 ^ 16 - optType) % 2 ^ 16
    (if delta < 13 then 1 else if delta < 269 then 2 else 3) + coapOptLength past option +
      (if byteAt past option &&& 0x0f = 0x0e then 2
        else if byteAt past option &&& 0x0f = 0x0d then 1 else 0) +
      optionsSize past type options

/-- `coap_new_error_response`. -/
def coapNewErrorResponse (past : Byte) (request : CoapPdu) (code : ℕ) (opts : OptFilter) :
    Except Fault (Option CoapPdu) :=
  let phrase := coapResponsePhrase code
  let opts := (coapOptionFilterOp opts coapOptionContentType .clear).1
  let options := request.rawOptions past opts
  let size := coapHdrSize + request.token.length +
    (if phrase = [] then 0 else phrase.length + 1) + optionsSize past 0 options
  match coapPduInit (responseType request.type) code request.id size with
  | .error f => .error f
  | .ok none => .ok none
  | .ok (some response) =>
    match coapAddToken response request.token with
    | none => .ok none
    | some response =>
      let response := (addOptions response (options.map fun x =>
        ⟨x.2, ((coapOptValue past x.1).getD []).take (coapOptLength past x.1)⟩)).1
      (coapAddData response phrase).map fun x => some x.1

/-- `sizeof(coap_pdu_t)`, for 64 bits. -/
def sizeofCoapPdu : ℕ := 32

/-- `coap_send_ack`, `coap_send_message_type`: a message that is only a header. -/
def headerOnly (type : ℕ) (request : CoapPdu) : Except Fault (Option CoapPdu) :=
  coapPduInit type 0 request.id sizeofCoapPdu

/-! ## Receiving -/

/-- `is_wkc`. -/
def isWkc (key : CoapKey) : Bool := key = coapHashPath (CStr.lit ".well-known/core")

/-- The method of a request with a code. -/
def methodOf (code : ℕ) : Option Method :=
  match code with
  | 1 => some .get
  | 2 => some .post
  | 3 => some .put
  | 4 => some .delete
  | _ => none

section

variable {σ ω : Type} (srv : Server σ ω) (past : Byte)

/-- The answer to a request that no handler is called for. -/
def defaultResponse (s : σ) (pdu : CoapPdu) (code : ℕ) : Except Fault (Option CoapPdu) :=
  if isWkc (coapHashRequestUri (pdu.request past)) ∧ pdu.code = coapRequestGet then
    buildResponse pdu (coapWellknownResponse (srv.resources s)
      (srv.passes (pdu.optionValue past coapOptionUriQuery))
      (coapGetBlock (pdu.optionValue past coapOptionBlock2)) (discoveryRoom pdu.token))
  else
    coapNewErrorResponse past pdu (coapResponseCode code) OptFilter.clear

/-- A response is sent unless the request says that it is not wanted. -/
def unlessDropped (pdu : CoapPdu) (response : Option CoapPdu) : Option CoapPdu :=
  response.filter fun r => noResponse past pdu r.code ≠ .drop

/-- What a request with an option `Observe` changes before the handler is called. -/
def applyObserve (s : σ) (uri : CStr) (peer : CoapAddress) (token : List Byte)
    (observe : Option (List Byte)) : σ :=
  match observe with
  | none => s
  | some value =>
    srv.setResources s ((srv.resources s).changeObservers uri fun r =>
      if coapDecodeVarBytes value &&& 1 = 0 then r.addObserver peer token
      else r.deleteObserver peer token)

/-- What is sent of the response of a handler. -/
def replyOf (pdu : CoapPdu) (response : Pdu) : Except Fault (Option CoapPdu) :=
  let type := responseType pdu.type
  let respond := noResponse past pdu response.code
  if respond = .drop then .ok none
  else
    let built :=
      if type = coapMessageAck ∧ response.code = 0 then
        coapPduInit type 0 pdu.id coapMaxPduSize
      else buildResponse pdu response
    if respond = .send ∨ type ≠ coapMessageNon ∨ 64 ≤ response.code then built
    else built.map fun _ => none

/-- The part of `handle_request` that calls a handler. -/
def callHandlerOf (s : σ) (peer : CoapAddress) (pdu : CoapPdu) (r : CoapResource)
    (method : Method) : Except Fault (σ × Option CoapPdu × List ω) :=
  if 8 < pdu.token.length then .ok (s, none, [])
  else
    let observe := if r.observable then pdu.optionValue past coapOptionObserve else none
    let s := applyObserve srv s r.uri peer pdu.token observe
    let incoming : Incoming :=
      ⟨peer, pdu.token, pdu.request past, coapGetBlock (pdu.optionValue past coapOptionBlock2)⟩
    match srv.call s r.uri method incoming with
    | .error f => .error f
    | .ok (s, response, out) =>
      let s :=
        if noResponse past pdu response.code ≠ .drop ∧ observe.isSome ∧
            2 < coapResponseClass response.code then
          srv.setResources s ((srv.resources s).changeObservers r.uri fun r =>
            r.deleteObserver peer pdu.token)
        else s
      (replyOf past pdu response).map fun reply => (s, reply, [out])

/-- `handle_request`. -/
def handleRequest (s : σ) (peer : CoapAddress) (pdu : CoapPdu) :
    Except Fault (σ × Option CoapPdu × List ω) :=
  match srv.lookup.dispatch (srv.resources s) (pdu.request past) with
  | none =>
    (defaultResponse srv past s pdu
      (if isWkc (coapHashRequestUri (pdu.request past)) then 405 else 404)).map
        fun response => (s, unlessDropped past pdu response, [])
  | some r =>
    match (methodOf pdu.code).filter fun method => (r.handler.of method).isSome with
    | some method => callHandlerOf srv past s peer pdu r method
    | none =>
      (defaultResponse srv past s pdu 405).map
        fun response => (s, unlessDropped past pdu response, [])

/-- The part of `coap_dispatch` for a message that its type does not settle: a request, a
    response, or neither. -/
def passUp (s : σ × List Sent) (peer : CoapAddress) (pdu : CoapPdu) :
    Except Fault ((σ × List Sent) × Option CoapPdu × List ω) :=
  if pdu.code ≠ 0 ∧ pdu.code < 32 then
    (handleRequest srv past s.1 peer pdu).map fun x => ((x.1, s.2), x.2)
  else if 64 ≤ pdu.code then
    -- `handle_response`
    let queue := coapCancelAllMessages s.2 peer pdu.token
    if pdu.type = coapMessageCon then
      (headerOnly coapMessageAck pdu).map fun reply => ((s.1, queue), reply, [])
    else .ok ((s.1, queue), none, [])
  else (headerOnly coapMessageRst pdu).map fun reply => (s, reply, [])

/-- `coap_cancel`: the observations of a peer with a token end. -/
def coapCancel (s : σ × List Sent) (sent : Sent) : σ × List Sent :=
  let t := srv.resources s.1
  (srv.setResources s.1 (t.map fun r => r.deleteObserver sent.remote sent.token),
    if t = [] then s.2 else coapCancelAllMessages s.2 sent.remote sent.token)

/-- `coap_dispatch`. -/
def coapDispatch (s : σ × List Sent) (peer : CoapAddress) (pdu : CoapPdu) :
    Except Fault ((σ × List Sent) × Option CoapPdu × List ω) :=
  let removed := coapRemoveFromQueue s.2 (coapTransactionId peer pdu.id)
  let critical := coapOptionCheckCritical past srv.knownOptions pdu
  if pdu.type = coapMessageAck then
    if pdu.code = 0 then .ok ((s.1, removed.1), none, [])
    else passUp srv past (s.1, removed.1) peer pdu
  else if pdu.type = coapMessageRst then
    match removed.2 with
    | some sent => .ok (coapCancel srv (s.1, removed.1) sent, none, [])
    | none => .ok ((s.1, removed.1), none, [])
  else if pdu.type = coapMessageNon then
    if critical.1 = false then .ok (s, none, []) else passUp srv past s peer pdu
  else if critical.1 = false then
    (coapNewErrorResponse past pdu (coapResponseCode 402) critical.2).map
      fun response => (s, response, [])
  else passUp srv past s peer pdu

/-- `coap_handle_message`, with the reply to a datagram from a peer. -/
def coapHandleMessage (s : σ × List Sent) (peer : CoapAddress) (msg : List Byte) :
    Except Fault ((σ × List Sent) × Option CoapPdu × List ω) :=
  if msg.length < coapHdrSize then .ok (s, none, [])
  else if (msg.headD 0).toNat >>> 6 &&& 0x03 ≠ coapDefaultVersion then .ok (s, none, [])
  else
    match coapPduInit 0 0 (0, 0) msg.length with
    | .error f => .error f
    | .ok none => .ok (s, none, [])
    | .ok (some pdu) =>
      match coapPduParse past msg pdu with
      | none => .ok (s, none, [])
      | some pdu => coapDispatch srv past s peer pdu

end

/-! ## Replies -/

/-- The header of a message, with its token. -/
def CoapPdu.header (pdu : CoapPdu) : ℕ × ℕ × ℕ × (Byte × Byte) × List Byte :=
  (pdu.version, pdu.type, pdu.code, pdu.id, pdu.token)

theorem header_addOptions (pdu : CoapPdu) (os : List CoapOption) :
    (addOptions pdu os).1.header = pdu.header := by
  induction os generalizing pdu with
  | nil => rfl
  | cons o os ih =>
    have hone : (coapAddOption pdu o.type o.value).1.header = pdu.header := by
      rw [coapAddOption]
      dsimp only
      split_ifs
      · rfl
      · split
        · rfl
        · rfl
    exact (ih _).trans hone

theorem header_coapAddData {pdu pdu' : CoapPdu} {data : List Byte} {added : Bool}
    (h : coapAddData pdu data = .ok (pdu', added)) : pdu'.header = pdu.header := by
  rw [coapAddData] at h
  split_ifs at h
  · cases h
    rfl
  · cases h
    rfl
  · cases h
    rfl

/-- A message put together has the header and the token it was begun with. -/
theorem header_of_built {type code size : ℕ} {id : Byte × Byte} {token data : List Byte}
    {os : List CoapOption} {pdu reply : CoapPdu} {added : Bool}
    (hinit : coapPduInit type code id size = .ok (some pdu))
    (hdata : coapAddData (addOptions { pdu with token, body := [], maxDelta := 0, data := none } os).1
      data = .ok (reply, added)) :
    reply.header = (coapDefaultVersion, type % 4, code % 2 ^ 8, id, token) := by
  rw [header_coapAddData hdata, header_addOptions]
  rw [coapPduInit] at hinit
  split_ifs at hinit
  · cases hinit
  · obtain rfl := Option.some.inj (Except.ok.inj hinit)
    rfl

/-- A message that replies to another: a response with its token, an empty acknowledgement, or a
    reset. -/
structure IsReply (request reply : CoapPdu) : Prop where
  version : reply.version = coapDefaultVersion
  id : reply.id = request.id
  kind : (reply.type = responseType request.type ∧ reply.token = request.token ∧
        64 ≤ reply.code ∧ reply.code < 2 ^ 8) ∨
      (reply.type = coapMessageAck ∧ request.type = coapMessageCon ∧ reply.token = [] ∧
        reply.code = 0) ∨
      (reply.type = coapMessageRst ∧ (request.code = 0 ∨ 32 ≤ request.code ∧ request.code < 64) ∧
        reply.token = [] ∧ reply.code = 0)

theorem responseType_cases (type : ℕ) :
    (responseType type = coapMessageAck ∧ type = coapMessageCon) ∨
      (responseType type = coapMessageNon ∧ type ≠ coapMessageCon) := by
  rw [responseType]
  split_ifs with h
  · exact .inl ⟨rfl, h⟩
  · exact .inr ⟨rfl, h⟩

theorem isReply_of_header {request reply : CoapPdu} {code : ℕ} (hcode : 64 ≤ code)
    (hlt : code < 2 ^ 8)
    (h : reply.header = (coapDefaultVersion, responseType request.type % 4, code % 2 ^ 8, request.id,
      request.token)) : IsReply request reply := by
  simp only [CoapPdu.header, Prod.mk.injEq] at h
  obtain ⟨hversion, htype, hreply, hid, htoken⟩ := h
  have hmod : responseType request.type % 4 = responseType request.type := by
    rcases responseType_cases request.type with ⟨h, -⟩ | ⟨h, -⟩ <;> rw [h] <;> rfl
  rw [Nat.mod_eq_of_lt hlt] at hreply
  exact ⟨hversion, hid, .inl ⟨htype.trans hmod, htoken, by omega, by omega⟩⟩

theorem buildResponse_isReply {request reply : CoapPdu} {response : Pdu}
    (hcode : 64 ≤ response.code)
    (hlt : response.code < 2 ^ 8) (h : buildResponse request response = .ok (some reply)) :
    IsReply request reply := by
  rw [buildResponse] at h
  rcases hinit : coapPduInit (responseType request.type) response.code request.id coapMaxPduSize
    with f | _ | pdu <;> rw [hinit] at h
  · cases h
  · cases h
  dsimp only at h
  rw [coapAddToken] at h
  split_ifs at h
  · cases h
  dsimp only at h
  rcases hdata : coapAddData (addOptions { pdu with
    token := request.token, body := [], maxDelta := 0, data := none } response.options).1
      response.data with f | ⟨pdu', added⟩ <;> rw [hdata] at h
  · cases h
  · cases h
    exact isReply_of_header hcode hlt (header_of_built hinit hdata)

section

variable {past : Byte}

theorem coapNewErrorResponse_isReply {request reply : CoapPdu} {code : ℕ} {opts : OptFilter}
    (hcode : 64 ≤ code) (hlt : code < 2 ^ 8)
    (h : coapNewErrorResponse past request code opts = .ok (some reply)) :
    IsReply request reply := by
  rw [coapNewErrorResponse] at h
  dsimp only at h
  generalize hsize : coapHdrSize + request.token.length + _ + optionsSize past 0 _ = size at h
  rcases hinit : coapPduInit (responseType request.type) code request.id size
    with f | _ | pdu <;> rw [hinit] at h
  · cases h
  · cases h
  dsimp only at h
  rw [coapAddToken] at h
  split_ifs at h
  · cases h
  dsimp only at h
  generalize hdata : coapAddData _ _ = res at h
  rcases res with f | ⟨pdu', added⟩
  · cases h
  · cases h
    exact isReply_of_header hcode hlt (header_of_built hinit hdata)

theorem header_headerOnly {request reply : CoapPdu} {type : ℕ}
    (h : headerOnly type request = .ok (some reply)) :
    reply.header = (coapDefaultVersion, type % 4, 0, request.id, []) := by
  rw [headerOnly, coapPduInit] at h
  split_ifs at h
  · cases h
  · obtain rfl := Option.some.inj (Except.ok.inj h)
    rfl

end

/-- The code of a response. -/
def IsResponseCode (code : ℕ) : Prop := 64 ≤ code ∧ code < 2 ^ 8

instance (code : ℕ) : Decidable (IsResponseCode code) :=
  inferInstanceAs (Decidable (64 ≤ code ∧ code < 2 ^ 8))

theorem wellknownBlock_code {t : ResourceTable} {passes : CoapResource → Bool} {room : ℕ}
    {block : CoapBlock} {offset : ℕ} :
    IsResponseCode (wellknownBlock t passes room block offset).code := by
  rw [wellknownBlock]
  split
  · exact (by decide : IsResponseCode (coapResponseCode 503))
  · exact (by decide : IsResponseCode (coapResponseCode 205))

theorem coapWellknownResponse_code {t : ResourceTable} {passes : CoapResource → Bool}
    {block2 : Option CoapBlock} {room : ℕ} :
    IsResponseCode (coapWellknownResponse t passes block2 room).code := by
  have h400 : IsResponseCode (({} : Pdu).setCode 400).code := by decide
  have h503 : IsResponseCode (({} : Pdu).setCode 503).code := by decide
  rw [coapWellknownResponse.eq_def]
  by_cases h0 : getWkcLen t passes = 0
  · rw [if_pos h0]
    exact h400
  rw [if_neg h0]
  rcases block2 with _ | block
  · dsimp only
    by_cases h1 : room ≤ 1
    · rw [if_pos h1]
      exact h503
    rw [if_neg h1]
    by_cases hfits : room < getWkcLen t passes
    · rw [if_pos hfits]
      rcases fittingSzx room coapMaxBlockSzx with _ | szx
      · exact h503
      · exact wellknownBlock_code
    · rw [if_neg hfits]
      exact (by decide : IsResponseCode (coapResponseCode 205))
  · dsimp only
    split_ifs
    · exact h400
    · exact h503
    · exact wellknownBlock_code
    · exact wellknownBlock_code

theorem map_eq_ok {α β : Type} {x : Except Fault α} {f : α → β} {b : β}
    (h : x.map f = .ok b) : ∃ a, x = .ok a ∧ f a = b := by
  rcases x with e | a
  · cases h
  · exact ⟨a, rfl, Except.ok.inj h⟩

section

variable {σ ω : Type} {srv : Server σ ω} {past : Byte} {peer : CoapAddress} {pdu reply : CoapPdu}
  {outs : List ω}

theorem defaultResponse_isReply {s : σ} {n : ℕ} (hn : n = 404 ∨ n = 405)
    (h : defaultResponse srv past s pdu n = .ok (some reply)) : IsReply pdu reply := by
  rw [defaultResponse] at h
  split_ifs at h
  · exact buildResponse_isReply coapWellknownResponse_code.1 coapWellknownResponse_code.2 h
  · rcases hn with rfl | rfl
    · exact coapNewErrorResponse_isReply (by decide) (by decide) h
    · exact coapNewErrorResponse_isReply (by decide) (by decide) h

theorem replyOf_isReply {response : Pdu} (hcode : response.code = 0 ∨ IsResponseCode response.code)
    (h : replyOf past pdu response = .ok (some reply)) : IsReply pdu reply := by
  rw [replyOf] at h
  dsimp only at h
  rcases hcode with h0 | ⟨hcode, hlt⟩
  · -- an empty response is only sent as an acknowledgement
    have hdefault : noResponse past pdu response.code = .default := by
      rw [noResponse, h0]
      rfl
    have hkeep : Respond.default ≠ .drop := by decide
    rw [hdefault, if_neg hkeep] at h
    rcases responseType_cases pdu.type with ⟨htype, hcon⟩ | ⟨htype, -⟩
    · rw [htype, if_pos (.inr (.inl (by decide))), if_pos ⟨rfl, h0⟩, coapPduInit,
        if_neg (lt_irrefl _), if_neg (by decide)] at h
      obtain rfl := Option.some.inj (Except.ok.inj h)
      exact ⟨rfl, rfl, .inr (.inl ⟨rfl, hcon, rfl, rfl⟩)⟩
    · have hnot : ¬(Respond.default = .send ∨ coapMessageNon ≠ coapMessageNon ∨
          64 ≤ response.code) := by
        rintro (h | h | h)
        · cases h
        · exact h rfl
        · omega
      rw [htype, if_neg hnot] at h
      obtain ⟨built, -, hnone⟩ := map_eq_ok h
      cases hnone
  · have hne : ¬(responseType pdu.type = coapMessageAck ∧ response.code = 0) := fun h => by omega
    by_cases hdrop : noResponse past pdu response.code = .drop
    · rw [if_pos hdrop] at h
      cases h
    · rw [if_neg hdrop, if_pos (.inr (.inr hcode)), if_neg hne] at h
      exact buildResponse_isReply hcode hlt h

theorem callHandlerOf_isReply {s s' : σ} {r : CoapResource} {method : Method}
    (h : callHandlerOf srv past s peer pdu r method = .ok (s', some reply, outs)) :
    IsReply pdu reply := by
  rw [callHandlerOf] at h
  by_cases htoken : 8 < pdu.token.length
  · rw [if_pos htoken] at h
    cases h
  rw [if_neg htoken] at h
  dsimp only at h
  generalize hcall : srv.call _ _ _ _ = res at h
  rcases res with f | ⟨s₁, response, out⟩
  · cases h
  obtain ⟨built, hbuilt, heq⟩ := map_eq_ok h
  obtain rfl := (Prod.mk.inj (Prod.mk.inj heq).2).1
  exact replyOf_isReply (srv.call_code hcall) hbuilt

theorem defaultReply_isReply {s s' : σ} {n : ℕ} (hn : n = 404 ∨ n = 405)
    (h : (defaultResponse srv past s pdu n).map (fun response =>
      (s, unlessDropped past pdu response, ([] : List ω))) = .ok (s', some reply, outs)) :
    IsReply pdu reply := by
  obtain ⟨response, hresponse, heq⟩ := map_eq_ok h
  have hsome := (Prod.mk.inj (Prod.mk.inj heq).2).1
  rw [unlessDropped] at hsome
  rw [(Option.filter_eq_some_iff.1 hsome).1] at hresponse
  exact defaultResponse_isReply hn hresponse

theorem handleRequest_isReply {s s' : σ}
    (h : handleRequest srv past s peer pdu = .ok (s', some reply, outs)) : IsReply pdu reply := by
  rw [handleRequest.eq_def] at h
  split at h
  · exact defaultReply_isReply (by split_ifs <;> simp) h
  · split at h
    · exact callHandlerOf_isReply h
    · exact defaultReply_isReply (.inr rfl) h

theorem passUp_isReply {s s' : σ × List Sent}
    (h : passUp srv past s peer pdu = .ok (s', some reply, outs)) : IsReply pdu reply := by
  rw [passUp] at h
  split_ifs at h with hrequest hresponse hcon
  · obtain ⟨⟨s₁, reply', outs'⟩, hhandle, heq⟩ := map_eq_ok h
    cases heq
    exact handleRequest_isReply hhandle
  · -- a confirmable response is acknowledged
    obtain ⟨reply', hheader, heq⟩ := map_eq_ok h
    cases heq
    have hreply := header_headerOnly hheader
    simp only [CoapPdu.header, Prod.mk.injEq] at hreply
    exact ⟨hreply.1, hreply.2.2.2.1, .inr (.inl ⟨hreply.2.1, hcon, hreply.2.2.2.2, hreply.2.2.1⟩)⟩
  · cases h
  · obtain ⟨reply', hheader, heq⟩ := map_eq_ok h
    cases heq
    have hreply := header_headerOnly hheader
    simp only [CoapPdu.header, Prod.mk.injEq] at hreply
    exact ⟨hreply.1, hreply.2.2.2.1,
      .inr (.inr ⟨hreply.2.1, by omega, hreply.2.2.2.2, hreply.2.2.1⟩)⟩

/-- The messages that may be replied to: neither resets nor empty acknowledgements. -/
theorem coapDispatch_isReply {s s' : σ × List Sent}
    (h : coapDispatch srv past s peer pdu = .ok (s', some reply, outs)) :
    IsReply pdu reply ∧ pdu.type ≠ coapMessageRst ∧
      ¬(pdu.type = coapMessageAck ∧ pdu.code = 0) := by
  rw [coapDispatch] at h
  by_cases hack : pdu.type = coapMessageAck
  · rw [if_pos hack] at h
    by_cases h0 : pdu.code = 0
    · rw [if_pos h0] at h
      cases h
    · rw [if_neg h0] at h
      exact ⟨passUp_isReply h, by rw [hack]; decide, fun h => h0 h.2⟩
  rw [if_neg hack] at h
  by_cases hrst : pdu.type = coapMessageRst
  · rw [if_pos hrst] at h
    split at h <;> cases h
  rw [if_neg hrst] at h
  refine ⟨?_, hrst, fun h => hack h.1⟩
  split_ifs at h with hnon hbad hbad
  · cases h
  · exact passUp_isReply h
  · obtain ⟨response, hresponse, heq⟩ := map_eq_ok h
    cases heq
    exact coapNewErrorResponse_isReply (by decide) (by decide) hresponse
  · exact passUp_isReply h

/-- A datagram is discarded, or it is a message that is dispatched. -/
theorem coapHandleMessage_cases {s s' : σ × List Sent} {msg : List Byte} {reply : Option CoapPdu}
    (h : coapHandleMessage srv past s peer msg = .ok (s', reply, outs)) :
    (s' = s ∧ reply = none ∧ outs = []) ∨
      ∃ (m : WireMessage) (pdu : CoapPdu), m.bytes = msg ∧ m.version = coapDefaultVersion ∧
        msg.length ≤ coapMaxPduSize ∧
        coapDispatch srv past s peer (m.toPdu pdu) = .ok (s', reply, outs) := by
  rw [coapHandleMessage] at h
  by_cases hshort : msg.length < coapHdrSize
  · rw [if_pos hshort] at h
    cases h
    exact .inl ⟨rfl, rfl, rfl⟩
  rw [if_neg hshort] at h
  by_cases hversion : (msg.headD 0).toNat >>> 6 &&& 0x03 ≠ coapDefaultVersion
  · rw [if_pos hversion] at h
    cases h
    exact .inl ⟨rfl, rfl, rfl⟩
  rw [if_neg hversion] at h
  rcases hinit : coapPduInit 0 0 (0, 0) msg.length with f | _ | pdu <;> rw [hinit] at h
  · cases h
  · cases h
    exact .inl ⟨rfl, rfl, rfl⟩
  dsimp only at h
  rcases hparse : coapPduParse past msg pdu with _ | pdu' <;> rw [hparse] at h
  · cases h
    exact .inl ⟨rfl, rfl, rfl⟩
  -- what is parsed is a message of the format; its first byte gives the version
  obtain ⟨hsize, m, rfl, rfl⟩ := exists_message_of_coapPduParse hparse
  have hmax : pdu.maxSize ≤ coapMaxPduSize := by
    rw [coapPduInit] at hinit
    split_ifs at hinit with hle
    obtain rfl := Option.some.inj (Except.ok.inj hinit)
    exact not_lt.1 hle
  refine .inr ⟨m, pdu, rfl, ?_, hsize.trans hmax, h⟩
  obtain ⟨hv, -, -⟩ := parts_byte m.version_lt m.type_lt (m.token_le.trans_lt (by norm_num))
  have hhead : (m.bytes.headD 0).toNat >>> 6 = m.version := hv
  rw [not_not, hhead, show (0x03 : ℕ) = 2 ^ 2 - 1 from rfl, Nat.and_two_pow_sub_one_eq_mod,
    Nat.mod_eq_of_lt m.version_lt] at hversion
  exact hversion

/-- A message with the header of a reply is not replied to. -/
theorem coapDispatch_reply {s s' : σ × List Sent} {r : Option CoapPdu}
    (hpdu : (pdu.type = coapMessageRst) ∨ (pdu.type = coapMessageAck ∧ pdu.code = 0) ∨
      ((pdu.type = coapMessageAck ∨ pdu.type = coapMessageNon) ∧ 64 ≤ pdu.code))
    (h : coapDispatch srv past s peer pdu = .ok (s', r, outs)) : r = none := by
  -- a response that is not confirmable is not acknowledged
  have hpass : ∀ {s : σ × List Sent}, pdu.type ≠ coapMessageCon → 64 ≤ pdu.code →
      passUp srv past s peer pdu = .ok (s', r, outs) → r = none := by
    intro s htype hcode h
    rw [passUp, if_neg (by omega), if_pos hcode, if_neg htype] at h
    cases h
    rfl
  rw [coapDispatch] at h
  rcases hpdu with hrst | ⟨hack, h0⟩ | ⟨hack | hnon, hcode⟩
  · rw [if_neg (by rw [hrst]; decide), if_pos hrst] at h
    split at h <;> cases h <;> rfl
  · rw [if_pos hack, if_pos h0] at h
    cases h
    rfl
  · rw [if_pos hack, if_neg (by omega)] at h
    exact hpass (by rw [hack]; decide) hcode h
  · rw [if_neg (by rw [hnon]; decide), if_neg (by rw [hnon]; decide), if_pos hnon] at h
    split_ifs at h
    · cases h
      rfl
    · exact hpass (by rw [hnon]; decide) hcode h

/-- The bytes of a reply, if they are those of a message, are those of one with its type and its
    code. -/
theorem IsReply.header_of_bytes {request : CoapPdu} (h : IsReply request reply)
    (htoken : request.token.length ≤ 8) {m : WireMessage} (hm : m.bytes = reply.bytes) :
    m.type = reply.type ∧ m.code.toNat = reply.code := by
  have hshape : reply.type < 4 ∧ reply.token.length ≤ 8 ∧ reply.code < 2 ^ 8 := by
    rcases h.kind with ⟨ht, hk, -, hc⟩ | ⟨ht, -, hk, hc⟩ | ⟨ht, -, hk, hc⟩
    · refine ⟨?_, by rw [hk]; exact htoken, hc⟩
      rcases responseType_cases request.type with ⟨hr, -⟩ | ⟨hr, -⟩ <;> rw [ht, hr] <;> decide
    · exact ⟨by rw [ht]; decide, by rw [hk]; exact Nat.zero_le _, by rw [hc]; norm_num⟩
    · exact ⟨by rw [ht]; decide, by rw [hk]; exact Nat.zero_le _, by rw [hc]; norm_num⟩
  rw [CoapPdu.bytes_eq h.version hshape.1 hshape.2.1, WireMessage.bytes] at hm
  simp only [List.cons.injEq] at hm
  obtain ⟨hbyte, hcode, -⟩ := hm
  have hv := m.version_lt
  have ht := m.type_lt
  have hk := m.token_le
  have hnat := congrArg UInt8.toNat hbyte
  rw [UInt8.toNat_ofNat', UInt8.toNat_ofNat', Nat.mod_eq_of_lt (by omega),
    Nat.mod_eq_of_lt (by omega)] at hnat
  refine ⟨by omega, ?_⟩
  rw [hcode, UInt8.toNat_ofNat', Nat.mod_eq_of_lt hshape.2.2]


/-! ## What comes of a message -/

/-- The message that is read from a datagram, if it is one. -/
def messageOf (past : Byte) (msg : List Byte) : Option CoapPdu :=
  if msg.length < coapHdrSize ∨ (msg.headD 0).toNat >>> 6 &&& 0x03 ≠ coapDefaultVersion then none
  else
    match coapPduInit 0 0 (0, 0) msg.length with
    | .ok (some pdu) => coapPduParse past msg pdu
    | _ => none

/-- The resource a message is for and the method of its handler, if one is called. -/
def handlerFor (srv : Server σ ω) (past : Byte) (s : σ) (pdu : CoapPdu) :
    Option (CoapResource × Method) :=
  if pdu.type = coapMessageRst ∨
      (pdu.type ≠ coapMessageAck ∧ (coapOptionCheckCritical past srv.knownOptions pdu).1 = false) then
    none
  else
    (srv.lookup.dispatch (srv.resources s) (pdu.request past)).bind fun r =>
      ((methodOf pdu.code).filter fun method => (r.handler.of method).isSome).map fun method =>
        (r, method)

theorem coapHandleMessage_eq {s s' : σ × List Sent} {msg : List Byte} {reply : Option CoapPdu}
    (h : coapHandleMessage srv past s peer msg = .ok (s', reply, outs)) :
    (messageOf past msg = none ∧ s' = s) ∨ ∃ pdu, messageOf past msg = some pdu ∧
      pdu.token.length ≤ 8 ∧ coapDispatch srv past s peer pdu = .ok (s', reply, outs) := by
  rw [coapHandleMessage] at h
  rw [messageOf]
  by_cases hshort : msg.length < coapHdrSize
  · rw [if_pos hshort] at h
    rw [if_pos (.inl hshort)]
    cases h
    exact .inl ⟨rfl, rfl⟩
  rw [if_neg hshort] at h
  by_cases hversion : (msg.headD 0).toNat >>> 6 &&& 0x03 ≠ coapDefaultVersion
  · rw [if_pos hversion] at h
    rw [if_pos (.inr hversion)]
    cases h
    exact .inl ⟨rfl, rfl⟩
  rw [if_neg hversion] at h
  rw [if_neg (not_or.2 ⟨hshort, hversion⟩)]
  rcases hinit : coapPduInit 0 0 (0, 0) msg.length with f | _ | pdu <;> rw [hinit] at h
  · cases h
  · cases h
    exact .inl ⟨rfl, rfl⟩
  dsimp only at h ⊢
  rcases hparse : coapPduParse past msg pdu with _ | pdu' <;> rw [hparse] at h
  · cases h
    exact .inl ⟨rfl, rfl⟩
  obtain ⟨-, m, -, rfl⟩ := exists_message_of_coapPduParse hparse
  exact .inr ⟨_, rfl, m.token_le, h⟩

theorem handleRequest_handler {s s' : σ} {reply : Option CoapPdu}
    (htype : ¬(pdu.type = coapMessageRst ∨ (pdu.type ≠ coapMessageAck ∧
      (coapOptionCheckCritical past srv.knownOptions pdu).1 = false)))
    (h : handleRequest srv past s peer pdu = .ok (s', reply, outs)) :
    (∃ r method, handlerFor srv past s pdu = some (r, method) ∧
      callHandlerOf srv past s peer pdu r method = .ok (s', reply, outs)) ∨
    (handlerFor srv past s pdu = none ∧ s' = s) := by
  rw [handleRequest.eq_def] at h
  rw [handlerFor, if_neg htype]
  rcases hdispatch : srv.lookup.dispatch (srv.resources s) (pdu.request past) with _ | r <;>
    rw [hdispatch] at h
  · obtain ⟨response, -, heq⟩ := map_eq_ok h
    cases heq
    exact .inr ⟨rfl, rfl⟩
  dsimp only at h
  rw [Option.bind_some]
  rcases hmethod : (methodOf pdu.code).filter fun method => (r.handler.of method).isSome with
    _ | method <;> rw [hmethod] at h
  · obtain ⟨response, -, heq⟩ := map_eq_ok h
    cases heq
    exact .inr ⟨rfl, rfl⟩
  · exact .inl ⟨r, method, rfl, h⟩

/-- A message that is no request calls no handler. -/
theorem handlerFor_eq_none {s : σ} (h : methodOf pdu.code = none) :
    handlerFor srv past s pdu = none := by
  rw [handlerFor]
  split_ifs
  · rfl
  · rw [h]
    rcases srv.lookup.dispatch (srv.resources s) (pdu.request past) with _ | r <;> rfl

theorem methodOf_eq_none {code : ℕ} (h : code = 0 ∨ 32 ≤ code) : methodOf code = none := by
  rw [methodOf] <;> omega

theorem passUp_handler {s s' : σ × List Sent} {reply : Option CoapPdu}
    (htype : ¬(pdu.type = coapMessageRst ∨ (pdu.type ≠ coapMessageAck ∧
      (coapOptionCheckCritical past srv.knownOptions pdu).1 = false)))
    (h : passUp srv past s peer pdu = .ok (s', reply, outs)) :
    (∃ r method, handlerFor srv past s.1 pdu = some (r, method) ∧
      callHandlerOf srv past s.1 peer pdu r method = .ok (s'.1, reply, outs)) ∨
    (handlerFor srv past s.1 pdu = none ∧ s'.1 = s.1) := by
  rw [passUp] at h
  split_ifs at h with hrequest hresponse hcon
  · obtain ⟨⟨s₁, reply', outs'⟩, hhandle, heq⟩ := map_eq_ok h
    cases heq
    exact handleRequest_handler htype hhandle
  · obtain ⟨reply', -, heq⟩ := map_eq_ok h
    cases heq
    exact .inr ⟨handlerFor_eq_none (methodOf_eq_none (.inr (by omega))), rfl⟩
  · cases h
    exact .inr ⟨handlerFor_eq_none (methodOf_eq_none (.inr (by omega))), rfl⟩
  · obtain ⟨reply', -, heq⟩ := map_eq_ok h
    cases heq
    exact .inr ⟨handlerFor_eq_none (methodOf_eq_none (by omega)), rfl⟩

/-- The program calls a handler, forgets the observations of a waiting message, or stays as it
    is. -/
theorem coapDispatch_handler {s s' : σ × List Sent} {reply : Option CoapPdu}
    (h : coapDispatch srv past s peer pdu = .ok (s', reply, outs)) :
    (∃ r method, pdu.type ≠ coapMessageRst ∧ handlerFor srv past s.1 pdu = some (r, method) ∧
      callHandlerOf srv past s.1 peer pdu r method = .ok (s'.1, reply, outs)) ∨
    (∃ sent, pdu.type = coapMessageRst ∧
      (coapRemoveFromQueue s.2 (coapTransactionId peer pdu.id)).2 = some sent ∧
      s'.1 = (coapCancel srv s sent).1) ∨
    s'.1 = s.1 ∧ handlerFor srv past s.1 pdu = none ∧ (pdu.type = coapMessageRst →
      (coapRemoveFromQueue s.2 (coapTransactionId peer pdu.id)).2 = none) := by
  rw [coapDispatch] at h
  by_cases hack : pdu.type = coapMessageAck
  · have hrst : pdu.type ≠ coapMessageRst := by
      rw [hack]
      decide
    rw [if_pos hack] at h
    by_cases h0 : pdu.code = 0
    · rw [if_pos h0] at h
      cases h
      exact .inr (.inr ⟨rfl, handlerFor_eq_none (methodOf_eq_none (.inl h0)),
        fun h => absurd h hrst⟩)
    · rw [if_neg h0] at h
      rcases passUp_handler (by rintro (h | h); exacts [hrst h, h.1 hack]) h with
        ⟨r, method, hfor, hcall⟩ | ⟨hnone, hsame⟩
      · exact .inl ⟨r, method, hrst, hfor, hcall⟩
      · exact .inr (.inr ⟨hsame, hnone, fun h => absurd h hrst⟩)
  rw [if_neg hack] at h
  by_cases hrst : pdu.type = coapMessageRst
  · rw [if_pos hrst] at h
    rcases hremoved : (coapRemoveFromQueue s.2 (coapTransactionId peer pdu.id)).2 with
      _ | sent <;> rw [hremoved] at h
    · cases h
      refine .inr (.inr ⟨rfl, ?_, fun _ => rfl⟩)
      rw [handlerFor, if_pos (.inl hrst)]
    · cases h
      exact .inr (.inl ⟨sent, hrst, rfl, rfl⟩)
  rw [if_neg hrst] at h
  -- confirmable messages and others are rejected for the same options
  by_cases hbad : (coapOptionCheckCritical past srv.knownOptions pdu).1 = false
  · have hnone : handlerFor srv past s.1 pdu = none := by
      rw [handlerFor, if_pos (.inr ⟨hack, hbad⟩)]
    rw [if_pos hbad, if_pos hbad] at h
    split_ifs at h
    · cases h
      exact .inr (.inr ⟨rfl, hnone, fun h => absurd h hrst⟩)
    · obtain ⟨response, -, heq⟩ := map_eq_ok h
      cases heq
      exact .inr (.inr ⟨rfl, hnone, fun h => absurd h hrst⟩)
  · rw [if_neg hbad, if_neg hbad, ite_self] at h
    rcases passUp_handler (by rintro (h | h); exacts [hrst h, hbad h.2]) h with
      ⟨r, method, hfor, hcall⟩ | ⟨hnone, hsame⟩
    · exact .inl ⟨r, method, hrst, hfor, hcall⟩
    · exact .inr (.inr ⟨hsame, hnone, fun h => absurd h hrst⟩)

end

end CoapBroker
