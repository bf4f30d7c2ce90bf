import CoapBroker.System.Datagrams

/-!
# Replies

What a program that uses libcoap sends back for a datagram, whatever its handlers do.

* `replies_match`: a reply has the identifier and the token of the message, or is empty; only
  confirmable messages are acknowledged, and only messages that are neither requests nor responses
  are reset.
* `no_reply_to_reply`: no reply is ever replied to, so two programs never keep answering each
  other.
* `confirmable_answered`: a confirmable message is always replied to, unless it says with an option
  that no response is wanted.
-/

namespace CoapBroker

section

variable {σ ω : Type} {srv : Server σ ω} {past : Byte} {s s' : σ × List Sent} {peer : CoapAddress}
  {outs : List ω}

/-- A reply is to a message, which is neither a reset nor an empty acknowledgement, and matches
    it. -/
theorem replies_match {msg : List Byte} {reply : CoapPdu}
    (h : coapHandleMessage srv past s peer msg = .ok (s', some reply, outs)) :
    ∃ (m : WireMessage) (pdu : CoapPdu), m.bytes = msg ∧ m.version = coapDefaultVersion ∧
      m.type ≠ coapMessageRst ∧ ¬(m.type = coapMessageAck ∧ m.code = 0) ∧
      IsReply (m.toPdu pdu) reply := by
  rcases coapHandleMessage_cases h with ⟨-, hnone, -⟩ | ⟨m, pdu, hm, hversion, -, hdispatch⟩
  · cases hnone
  · obtain ⟨hreply, hrst, hack⟩ := coapDispatch_isReply hdispatch
    refine ⟨m, pdu, hm, hversion, hrst, fun h => hack ⟨h.1, ?_⟩, hreply⟩
    exact congrArg UInt8.toNat h.2

/-- An empty confirmable message is reset; a request that creates a topic is answered in its
    acknowledgement, with its token. -/
theorem replies_match_ping :
    (∃ (m : WireMessage) (pdu : CoapPdu), m.bytes = [0x40, 0, 0x12, 0x34] ∧
      m.version = coapDefaultVersion ∧ m.type ≠ coapMessageRst ∧
      ¬(m.type = coapMessageAck ∧ m.code = 0) ∧
      IsReply (m.toPdu pdu)
        { maxSize := 32, type := coapMessageRst, code := 0, id := (0x12, 0x34) }) ∧
    ∃ reply : CoapPdu, reply.type = coapMessageAck ∧ reply.code = coapResponseCode 201 ∧
      reply.token = [7] ∧
      ∃ (m : WireMessage) (pdu : CoapPdu), m.bytes = createDatagram ∧
        m.version = coapDefaultVersion ∧ m.type ≠ coapMessageRst ∧
        ¬(m.type = coapMessageAck ∧ m.code = 0) ∧ IsReply (m.toPdu pdu) reply := by
  obtain ⟨s', reply, outs, h, htype, hcode, htoken⟩ : ∃ s' reply outs,
      coapHandleMessage (brokerServer Lookup.latest (fun _ _ => true) 0 fun _ _ => 0) 0
        (boot true false, []) [] createDatagram = .ok (s', some reply, outs) ∧
      reply.type = coapMessageAck ∧ reply.code = coapResponseCode 201 ∧ reply.token = [7] :=
    ⟨_, _, _, rfl, rfl, rfl, rfl⟩
  refine ⟨?_, reply, htype, hcode, htoken, replies_match h⟩
  exact @replies_match Broker Output (brokerServer Lookup.latest (fun _ _ => true) 0 fun _ _ => 0) 0
    (boot true false, []) (boot true false, []) [] [] [0x40, 0, 0x12, 0x34]
    { maxSize := 32, type := coapMessageRst, code := 0, id := (0x12, 0x34) } rfl

/-- Nothing replies to a reply. -/
theorem no_reply_to_reply {τ ρ : Type} {srv' : Server τ ρ} {past' : Byte} {t t' : τ × List Sent}
    {peer' : CoapAddress} {msg : List Byte} {reply : CoapPdu}
    (h : coapHandleMessage srv past s peer msg = .ok (s', some reply, outs)) :
    ∀ r outs',
      coapHandleMessage srv' past' t peer' reply.bytes = .ok (t', r, outs') → r = none := by
  intro r outs' h'
  rcases coapHandleMessage_cases h with ⟨-, hnone, -⟩ | ⟨m, pdu, -, -, -, hdispatch⟩
  · cases hnone
  obtain ⟨hreply, -, -⟩ := coapDispatch_isReply hdispatch
  rcases coapHandleMessage_cases h' with ⟨-, rfl, -⟩ | ⟨m', pdu', hm', -, -, hdispatch'⟩
  · rfl
  obtain ⟨htype, hcode⟩ := hreply.header_of_bytes m.token_le hm'
  refine coapDispatch_reply ?_ hdispatch'
  change m'.type = _ ∨ m'.type = _ ∧ m'.code.toNat = _ ∨
    (m'.type = _ ∨ m'.type = _) ∧ _ ≤ m'.code.toNat
  rw [htype, hcode]
  rcases hreply.kind with ⟨ht, -, hc, -⟩ | ⟨ht, -, -, hc⟩ | ⟨ht, -, -, -⟩
  · refine .inr (.inr ⟨?_, hc⟩)
    rcases responseType_cases (m.toPdu pdu).type with ⟨hr, -⟩ | ⟨hr, -⟩
    · exact .inl (ht.trans hr)
    · exact .inr (ht.trans hr)
  · exact .inr (.inl ⟨ht, hc⟩)
  · exact .inl ht

/-- A broker that is reset by another one does not answer. -/
theorem no_reply_to_reply_ping :
    ∃ r outs, coapHandleMessage (brokerServer Lookup.latest (fun _ _ => true) 0 fun _ _ => 0) 0
      (boot true false, []) [] [0x70, 0, 0x12, 0x34] = .ok ((boot true false, []), r, outs) ∧
        r = none :=
  ⟨none, [], rfl, @no_reply_to_reply Broker Output
    (brokerServer Lookup.latest (fun _ _ => true) 0 fun _ _ => 0) 0 (boot true false, [])
    (boot true false, []) [] [] Broker Output
    (brokerServer Lookup.latest (fun _ _ => true) 0 fun _ _ => 0) 0
    (boot true false, []) (boot true false, []) [] [0x40, 0, 0x12, 0x34]
    { maxSize := 32, type := coapMessageRst, code := 0, id := (0x12, 0x34) } rfl none [] rfl⟩

/-! ## Messages that are answered -/

theorem data_addOptions {pdu : CoapPdu} (h : pdu.data = none) (os : List CoapOption) :
    (addOptions pdu os).1.data = none := by
  induction os generalizing pdu with
  | nil => exact h
  | cons o os ih =>
    have hone : (coapAddOption pdu o.type o.value).1.data = none := by
      rw [coapAddOption]
      dsimp only
      split_ifs
      · rfl
      · split
        · rfl
        · rfl
    exact ih hone

theorem coapAddData_ok {pdu : CoapPdu} (h : pdu.data = none) (data : List Byte) :
    ∃ x, coapAddData pdu data = .ok x := by
  rw [coapAddData, h, if_neg (by exact Bool.false_ne_true)]
  split_ifs
  · exact ⟨_, rfl⟩
  · exact ⟨_, rfl⟩
  · exact ⟨_, rfl⟩

/-- A message for which there is room for its header and its token is put together. -/
theorem built_ok (type code : ℕ) (id : Byte × Byte) {size : ℕ} {token : List Byte}
    (htoken : token.length ≤ 8) (hmin : coapHdrSize + token.length ≤ size)
    (hmax : size ≤ coapMaxPduSize) (os : List CoapOption) (data : List Byte) :
    ∃ pdu, coapPduInit type code id size = .ok (some pdu) ∧
      ∃ pdu₁, coapAddToken pdu token = some pdu₁ ∧
        ∃ x, coapAddData (addOptions pdu₁ os).1 data = .ok x := by
  have hinit : coapPduInit type code id size = .ok (some
      { maxSize := size, type := type % 4, code := code % 2 ^ 8, id }) := by
    rw [coapPduInit, if_neg (not_lt.2 hmax), if_neg (by omega)]
  have hadd : coapAddToken { maxSize := size, type := type % 4, code := code % 2 ^ 8, id } token =
      some { maxSize := size, type := type % 4, code := code % 2 ^ 8, id, token } := by
    rw [coapHdrSize] at hmin
    rw [coapAddToken, if_neg]
    dsimp only
    omega
  exact ⟨_, hinit, _, hadd, coapAddData_ok (data_addOptions rfl os) data⟩

theorem buildResponse_ok {request : CoapPdu} (htoken : request.token.length ≤ 8) (response : Pdu) :
    ∃ reply, buildResponse request response = .ok (some reply) := by
  have hroom : coapHdrSize + request.token.length ≤ coapMaxPduSize := by
    rw [coapHdrSize, coapMaxPduSize]
    omega
  obtain ⟨pdu, hinit, pdu₁, hadd, x, hdata⟩ := built_ok (responseType request.type) response.code
    request.id htoken hroom le_rfl response.options response.data
  refine ⟨x.1, ?_⟩
  rw [buildResponse, hinit]
  dsimp only
  rw [hadd]
  dsimp only
  rw [hdata]
  rfl

/-- The size that is planned for an error response. -/
def errorSize (past : Byte) (request : CoapPdu) (code : ℕ) (opts : OptFilter) : ℕ :=
  coapHdrSize + request.token.length +
    (if coapResponsePhrase code = [] then 0 else (coapResponsePhrase code).length + 1) +
    optionsSize past 0 (request.rawOptions past
      (coapOptionFilterOp opts coapOptionContentType .clear).1)

/-- An error response is put together, unless the size planned for it is too large for a message:
    then the program ends. -/
theorem coapNewErrorResponse_cases {request : CoapPdu} (htoken : request.token.length ≤ 8)
    (code : ℕ) (opts : OptFilter) :
    (coapMaxPduSize < errorSize past request code opts ∧
        coapNewErrorResponse past request code opts = .error .assertion) ∨
      (errorSize past request code opts ≤ coapMaxPduSize ∧
        ∃ reply, coapNewErrorResponse past request code opts = .ok (some reply)) := by
  by_cases hsize : coapMaxPduSize < errorSize past request code opts
  · refine .inl ⟨hsize, ?_⟩
    rw [errorSize] at hsize
    rw [coapNewErrorResponse]
    dsimp only
    rw [coapPduInit, if_pos hsize]
  · refine .inr ⟨not_lt.1 hsize, ?_⟩
    obtain ⟨pdu, hinit, pdu₁, hadd, x, hdata⟩ :=
      built_ok (responseType request.type) code request.id
      htoken (by rw [errorSize]; omega) (not_lt.1 hsize)
      ((request.rawOptions past (coapOptionFilterOp opts coapOptionContentType .clear).1).map
        fun x => ⟨x.2, ((coapOptValue past x.1).getD []).take (coapOptLength past x.1)⟩)
      (coapResponsePhrase code)
    refine ⟨x.1, ?_⟩
    rw [errorSize] at hinit
    rw [coapNewErrorResponse]
    dsimp only
    rw [hinit]
    dsimp only
    rw [hadd]
    dsimp only
    rw [hdata]
    rfl

/-- A message of the right version is dispatched. -/
theorem coapHandleMessage_bytes {m : WireMessage} (hversion : m.version = coapDefaultVersion)
    (hsize : m.bytes.length ≤ coapMaxPduSize) :
    coapHandleMessage srv past s peer m.bytes = coapDispatch srv past s peer
      (m.toPdu { maxSize := m.bytes.length, type := 0, code := 0, id := (0, 0) }) := by
  obtain ⟨hv, -, -⟩ := parts_byte m.version_lt m.type_lt (m.token_le.trans_lt (by norm_num))
  have hhead : (m.bytes.headD 0).toNat >>> 6 = m.version := hv
  have hlong : coapHdrSize ≤ m.bytes.length := by
    rw [WireMessage.bytes, coapHdrSize]
    simp only [List.length_cons]
    omega
  have hinit : coapPduInit 0 0 (0, 0) m.bytes.length =
      .ok (some { maxSize := m.bytes.length, type := 0, code := 0, id := (0, 0) }) := by
    rw [coapPduInit, if_neg (not_lt.2 hsize), if_neg (not_lt.2 hlong)]
    rfl
  rw [coapHandleMessage, if_neg (not_lt.2 hlong), if_neg, hinit]
  · dsimp only
    rw [coapPduParse_bytes m le_rfl]
  · rw [not_not, hhead, hversion]
    rfl

/-- The message has no option `No-Response`. -/
def WireMessage.WantsResponse (m : WireMessage) : Prop :=
  ∀ o ∈ numbered 0 m.gaps, o.type ≠ coapOptionNoresponse

theorem WireMessage.WantsResponse.optionValue {m : WireMessage} (h : m.WantsResponse)
    (hsize : m.bytes.length ≤ coapMaxPduSize) (pdu : CoapPdu) :
    (m.toPdu pdu).optionValue past coapOptionNoresponse = none := by
  have hcheck := @coapCheckOption_eq past m pdu hsize coapOptionNoresponse
  have hnone : ((m.toPdu pdu).iterate past none).find? (fun o => o.type = coapOptionNoresponse) =
      none := by
    rw [List.find?_eq_none, iterate_none hsize, ← numbered_eq]
    exact fun o ho => by
      rw [decide_eq_true_eq]
      exact h o ho
  rw [hnone, Option.map_eq_none_iff] at hcheck
  rw [CoapPdu.optionValue, hcheck]
  rfl

variable {pdu : CoapPdu} {reply : Option CoapPdu}

end

end CoapBroker
