import CoapBroker.Broker.Response
import CoapBroker.Cpp.Transparency
import CoapBroker.System.Failures

/-!
# What readers receive

A payload on its way from a publisher to a reader, both of them at the other end of a datagram. The
response of `hnd_get_topic` is written into a message of `COAP_MAX_PDU_SIZE` bytes. Its options
always fit; data that does not fit is left out by `coap_add_data`, and nobody looks at what that
returns. So the reader is told 2.05 in any case, but receives the payload exactly if it is free of
`NUL` and fits behind the options and the token of the reader (`payload_arrives_iff`).

A datagram that is handed to a handler is a record (`Served`) with what comes of it.
-/

namespace CoapBroker

/-! ## Handlers -/

section

variable {σ ω : Type} {srv : Server σ ω} {past : Byte} {peer : CoapAddress} {pdu : CoapPdu}
  {reply : Option CoapPdu} {outs : List ω}

/-- What comes of calling a handler: its response, and the observation taken back on an error. -/
theorem callHandlerOf_spec {s s' : σ} {r : CoapResource} {method : Method}
    (htoken : pdu.token.length ≤ 8)
    (h : callHandlerOf srv past s peer pdu r method = .ok (s', reply, outs)) :
    ∃ s₁ response out, srv.call (observedBefore srv past s peer pdu r) r.uri method
        (pdu.incoming past peer) = .ok (s₁, response, out) ∧
      outs = [out] ∧ replyOf past pdu response = .ok reply ∧
      (coapResponseClass response.code ≤ 2 → s' = s₁) := by
  rw [callHandlerOf, if_neg (not_lt.2 htoken)] at h
  dsimp only at h
  rw [CoapPdu.incoming, observedBefore]
  rcases hcall : srv.call _ r.uri method _ with f | ⟨s₁, response, out⟩ <;> rw [hcall] at h
  · cases h
  dsimp only at h
  obtain ⟨built, hbuilt, heq⟩ := map_eq_ok h
  cases heq
  refine ⟨s₁, response, out, rfl, rfl, hbuilt, fun hclass => if_neg ?_⟩
  rintro ⟨-, -, hlt⟩
  omega

/-- A message for a handler is handed to it. -/
theorem callHandlerOf_of_handlerFor {s s' : σ × List Sent} {msg : List Byte} {r : CoapResource}
    {method : Method} (hmessage : messageOf past msg = some pdu)
    (hfor : handlerFor srv past s.1 pdu = some (r, method))
    (h : coapHandleMessage srv past s peer msg = .ok (s', reply, outs)) :
    pdu.token.length ≤ 8 ∧
      callHandlerOf srv past s.1 peer pdu r method = .ok (s'.1, reply, outs) := by
  rcases coapHandleMessage_eq h with ⟨hnone, -⟩ | ⟨pdu', hpdu', htoken, hdispatch⟩
  · rw [hnone] at hmessage
    cases hmessage
  obtain rfl := Option.some.inj (hmessage.symm.trans hpdu')
  refine ⟨htoken, ?_⟩
  -- a message that is dispatched otherwise is for no handler
  rcases coapDispatch_handler hdispatch with ⟨r', method', -, hfor', hcall⟩ | ⟨-, hrst, -⟩ |
    ⟨-, hnone, -⟩
  · obtain ⟨rfl, rfl⟩ := Prod.mk.inj (Option.some.inj (hfor.symm.trans hfor'))
    exact hcall
  · rw [handlerFor, if_pos (.inl hrst)] at hfor
    cases hfor
  · rw [hnone] at hfor
    cases hfor

/-- A response that can be sent arrives, with its data if that fits. -/
theorem replyOf_received {response : Pdu} {reply : CoapPdu} (htoken : pdu.token.length ≤ 8)
    (hsend : response.Sendable) (hcode : 64 ≤ response.code)
    (hroom : coapHdrSize + pdu.token.length + (writtenOptions 0 response.options).length ≤
      coapMaxPduSize) (h : replyOf past pdu response = .ok (some reply)) (past' : Byte) :
    Received past' reply (responseType pdu.type) response.code pdu.id pdu.token response.options
      (response.arriving pdu.token.length) := by
  obtain ⟨pdu₀, pdu₁, pdu₂, added, hinit, htok, hdata, hreceived⟩ :=
    received_of_sendable past' (responseType pdu.type) pdu.id htoken hsend hroom
  have hbuilt : buildResponse pdu response = .ok (some pdu₂) := by
    rw [buildResponse, hinit]
    dsimp only
    rw [htok]
    dsimp only
    rw [hdata]
    rfl
  have htype : responseType pdu.type % 4 = responseType pdu.type := by
    rcases responseType_cases pdu.type with ⟨hr, -⟩ | ⟨hr, -⟩ <;> rw [hr] <;> rfl
  rw [replyOf] at h
  dsimp only at h
  by_cases hdrop : noResponse past pdu response.code = .drop
  · rw [if_pos hdrop] at h
    cases h
  rw [if_neg hdrop, if_pos (.inr (.inr hcode)), if_neg (by omega), hbuilt] at h
  obtain rfl := Option.some.inj (Except.ok.inj h)
  rwa [htype] at hreceived

end

/-! ## The response to a read -/

section

variable {observe : Option ℕ} {format : ℕ} {maxAge : Option ℕ}

/-- A read that is answered with data is received with all of it, or with none. -/
theorem read_received {past past' : Byte} {pdu reply : CoapPdu} {data : List Byte}
    (htoken : pdu.token.length ≤ 8) (h : replyOf past pdu
      { code := coapResponseCode 205, options := readHead observe format maxAge, data } =
        .ok (some reply)) :
    Received past' reply (responseType pdu.type) (coapResponseCode 205) pdu.id pdu.token
      (readHead observe format maxAge)
      (if coapHdrSize + pdu.token.length + headSize (readHead observe format maxAge) + 1 +
        data.length ≤ coapMaxPduSize then data else []) := by
  have hreceived := replyOf_received htoken
    (sendable_readHead (by decide) (by decide) data)
    (by exact (by decide : 64 ≤ coapResponseCode 205)) (room_readHead htoken) h past'
  rwa [arriving_readHead] at hreceived

end

/-! ## Publishing and reading -/

/-- A datagram that is handed to the handler of a resource, and what comes of it. -/
structure Served (l : Lookup) (passes : Option (List Byte) → CoapResource → Bool) where
  src : Endpoint
  peer : CoapAddress
  msg : List Byte
  past : Byte
  now : ℤ
  junk : CStr → ℕ → Byte
  dst : Endpoint
  reply : Option CoapPdu
  outs : List Output
  pdu : CoapPdu
  resource : CoapResource
  method : Method
  step : endpointStep l passes src (.datagram peer msg past now junk) = .ok (dst, reply, outs)
  message : messageOf past msg = some pdu
  handler : handlerFor (brokerServer l passes now junk) past src.1 pdu = some (resource, method)

namespace Served

variable {l : Lookup} {passes : Option (List Byte) → CoapResource → Bool} (x : Served l passes)

/-- What the handler reads. -/
def request : Request := x.pdu.request x.past

/-- The handler answers with a code. -/
def Answers (n : ℕ) : Prop := x.outs.map Output.code = [some (coapResponseCode n)]

/-- The broker when the handler is called. -/
def broker : Broker :=
  observedBefore (brokerServer l passes x.now x.junk) x.past x.src.1 x.peer x.pdu x.resource

theorem topicDB_broker : x.broker.topicDB = x.src.1.topicDB := by
  rw [broker, observedBefore, applyObserve.eq_def]
  split <;> rfl

/-- The call of the handler, and the reply. -/
theorem called : x.pdu.token.length ≤ 8 ∧ ∃ b out,
    brokerCall x.now x.junk x.broker x.resource.uri x.method (x.pdu.incoming x.past x.peer) =
      .ok (b, out.response.getD {}, out) ∧ x.outs = [out] ∧
    replyOf x.past x.pdu (out.response.getD {}) = .ok x.reply ∧
    (coapResponseClass (out.response.getD {}).code ≤ 2 → x.dst.1 = b) := by
  obtain ⟨htoken, hcall⟩ := callHandlerOf_of_handlerFor x.message x.handler x.step
  obtain ⟨b, response, out, hcall, hout, hreply, hdst⟩ := callHandlerOf_spec htoken hcall
  obtain ⟨⟨b₁, out₁⟩, -, heq⟩ := map_eq_ok hcall
  cases heq
  exact ⟨htoken, _, _, hcall, hout, hreply, hdst⟩

/-- For a topic, the call is a step of the broker. -/
theorem step_of_isTopic (hb : Agreement x.src.1) (htopic : IsTopic x.resource) {b : Broker}
    {response : Pdu} {out : Output}
    (h : brokerCall x.now x.junk x.broker x.resource.uri x.method (x.pdu.incoming x.past x.peer) =
      .ok (b, response, out)) :
    Agreement x.broker ∧ CoapBroker.step x.broker (.request x.resource.uri x.method x.request
      x.peer x.pdu.token x.now) = .ok (b, out) := by
  obtain ⟨hb₀, r₀, hr₀, huri, hhandler, -⟩ := @observedBefore_spec l passes x.past x.now x.junk
    x.peer x.pdu x.src.1 hb x.resource (handlerFor_spec x.handler).1
  refine ⟨hb₀, ?_⟩
  have hfind : x.broker.find x.resource.uri = some r₀ := by
    rw [← huri]
    exact Keyed.find_of_mem hb₀.uris hr₀
  have hne : ¬((x.broker.find x.resource.uri).bind fun r => r.handler.of x.method) =
      some .hndGetBroker := by
    rw [hfind, Option.bind_some, hhandler, htopic.handler]
    cases x.method <;> decide
  obtain ⟨⟨b₁, out₁⟩, hstep, heq⟩ := map_eq_ok h
  rw [if_neg hne] at hstep
  cases heq
  exact hstep

variable {x}

/-- A publish that is accepted changes the record of the topic. -/
theorem stored (hb : Agreement x.src.1) (hmethod : x.method = .put) (hanswers : x.Answers 204) :
    IsTopic x.resource ∧ ∃ temp, x.dst.1.topicDB.cloneTopic x.resource.uri = some temp ∧
      temp.data = publishedData x.request ∧ temp.dataMa = dataExpiry x.request x.now := by
  -- only topics have a handler for a publish
  have htopic : IsTopic x.resource := by
    obtain ⟨hmem, hput⟩ := handlerFor_spec x.handler
    rw [hmethod] at hput
    refine (hb.resource _ hmem).resolve_right fun hbuiltin => ?_
    rcases hbuiltin with heq | heq <;> rw [heq] at hput <;> cases hput
  obtain ⟨-, b, out, hcall, hout, -, hdst⟩ := x.called
  obtain ⟨hb₀, hstep⟩ := x.step_of_isTopic hb htopic hcall
  have hcode : out.code = some (coapResponseCode 204) := by
    rw [Answers, hout] at hanswers
    exact List.singleton_inj.1 hanswers
  rw [hmethod] at hstep
  rcases step_put_cases hb₀ hstep with ⟨-, hne⟩ |
    ⟨target, ct, t, observe, ns, -, -, -, -, ht, rfl, rfl⟩
  · exact absurd hcode hne
  refine ⟨htopic, { t with data := publishedData x.request, dataMa := dataExpiry x.request x.now },
    ?_, rfl, rfl⟩
  rw [hdst (by exact (by decide : coapResponseClass (coapResponseCode 204) ≤ 2))]
  exact TopicDB.cloneTopic_updateTopicData ht _ _ _

theorem findObserver_isSome_iff {r : CoapResource} {peer : CoapAddress} {token : List Byte} :
    (r.findObserver peer token).isSome ↔ ⟨peer, token⟩ ∈ r.subscribers := by
  rw [CoapResource.findObserver, List.find?_isSome]
  constructor
  · rintro ⟨s, hs, heq⟩
    obtain ⟨rfl, rfl⟩ := of_decide_eq_true heq
    exact hs
  · exact fun h => ⟨_, h, decide_eq_true ⟨rfl, rfl⟩⟩

theorem findObserver_isSome_iff_observes {b : Broker} (hb : Agreement b) {uri : CStr}
    {r : CoapResource} (hfind : b.find uri = some r) {peer : CoapAddress} {token : List Byte} :
    (r.findObserver peer token).isSome ↔ b.resources.Observes uri peer token := by
  obtain ⟨hmem, huri⟩ := Broker.find_spec hfind
  rw [findObserver_isSome_iff]
  constructor
  · exact fun h => ⟨r, hmem, huri, h⟩
  · rintro ⟨r', hr', huri', h⟩
    have hsame : r' = r := Option.some.inj ((Keyed.find_of_mem hb.uris hr').symm.trans
      (huri' ▸ hfind))
    exact hsame ▸ h

/-- A read that is answered with data: its response is made from the record of the topic. -/
theorem read (hb : Agreement x.src.1) (htopic : IsTopic x.resource) (hmethod : x.method = .get)
    (hanswers : x.Answers 205) {temp : TopicData}
    (htemp : x.src.1.topicDB.cloneTopic x.resource.uri = some temp) :
    x.pdu.token.length ≤ 8 ∧ ∃ data n, temp.data = some data ∧
      x.request.firstOption coapOptionContentType = some n ∧
      replyOf x.past x.pdu { code := coapResponseCode 205
                             options := readHead
                              (if x.dst.1.resources.Observes x.resource.uri x.peer x.pdu.token then
                                some x.dst.1.observe else none) n
                              (if temp.dataMa = 0 then none
                                else some (toUnsigned (temp.dataMa - x.now)))
                             data := data.bytes } = .ok x.reply := by
  obtain ⟨htoken, b, out, hcall, hout, hreply, hdst⟩ := x.called
  obtain ⟨hb₀, hstep⟩ := x.step_of_isTopic hb htopic hcall
  have hcode : out.code = some (coapResponseCode 205) := by
    rw [Answers, hout] at hanswers
    exact List.singleton_inj.1 hanswers
  rw [hmethod] at hstep
  -- the broker may know the resource with another observer by now, but it is a topic still
  obtain ⟨r₀, hr₀, hfind⟩ : ∃ r₀, IsTopic r₀ ∧ x.broker.find x.resource.uri = some r₀ := by
    rcases hfind : x.broker.find x.resource.uri with _ | r₀
    · rw [CoapBroker.step, hfind] at hstep
      cases hstep
      exact absurd hcode (by decide)
    · obtain ⟨hmem, huri⟩ := Broker.find_spec hfind
      refine ⟨r₀, (hb₀.resource _ hmem).resolve_right fun hbuiltin => ?_, rfl⟩
      refine hbuiltin.slash_notMem ?_
      rw [huri]
      exact htopic.below.subset (by decide)
  obtain ⟨attr, -, hct⟩ := hr₀.ctAttrValue
  have huri := (Broker.find_spec hfind).2
  rw [step_get hfind hr₀, hndGetTopic_request hct, huri, x.topicDB_broker, htemp] at hstep
  obtain ⟨response, hresponse, heq⟩ := map_eq_ok hstep
  cases heq
  have hcode : response.code = coapResponseCode 205 := Option.some.inj hcode
  have hne : coapResponseCode 205 ≠ coapResponseCode 400 ∧
      coapResponseCode 205 ≠ coapResponseCode 415 := by decide
  rcases hopt : x.request.firstOption coapOptionContentType with _ | n <;> rw [hopt] at hresponse
  · cases hresponse
    exact absurd hcode.symm hne.1
  dsimp only at hresponse
  by_cases hn : n ≠ toUnsigned (atoi attr.value)
  · rw [if_pos hn] at hresponse
    cases hresponse
    exact absurd hcode.symm hne.2
  rw [if_neg hn] at hresponse
  obtain rfl := Except.ok.inj hresponse
  obtain ⟨data, hdata, hlive⟩ := exists_data_of_readResponse hcode
  -- the observation that the request asks for has been made
  have hobserves : (r₀.findObserver x.peer x.pdu.token).isSome ↔
      x.broker.resources.Observes x.resource.uri x.peer x.pdu.token :=
    findObserver_isSome_iff_observes hb₀ hfind
  refine ⟨htoken, data, n, hdata, rfl, ?_⟩
  rw [not_not.1 hn]
  have hreply' : replyOf x.past x.pdu (readResponse temp
      (if (r₀.findObserver x.peer x.pdu.token).isSome then some x.broker.observe else none)
      (atoi attr.value) x.now) = .ok x.reply := hreply
  rw [readResponse_eq hdata hlive] at hreply'
  rw [hdst (by exact hcode.symm ▸ (by decide : coapResponseClass (coapResponseCode 205) ≤ 2)),
    ← if_congr hobserves rfl rfl]
  exact hreply'

end Served

section

variable {l : Lookup} {passes : Option (List Byte) → CoapResource → Bool}

/-- A payload that is published arrives at a reader of the topic, who is told 2.05, exactly if it is
    free of `NUL` and fits behind the header, the token of the reader and the options of the
    answer. Otherwise the same options arrive, with the bytes before the first `NUL` or nothing. -/
theorem payload_arrives_iff {mqttBridge : Bool} (put get : Served l passes)
    (hput : Reachable (endpointStep l passes) (boot mqttBridge false, []) put.src)
    (hget : Reachable (endpointStep l passes) (boot mqttBridge false, []) get.src)
    (hpublish : put.method = .put ∧ put.Answers 204) (hread : get.method = .get ∧ get.Answers 205)
    (huri : get.resource.uri = put.resource.uri)
    (hkept : get.src.1.topicDB.cloneTopic put.resource.uri =
      put.dst.1.topicDB.cloneTopic put.resource.uri)
    {reply : CoapPdu} (hreply : get.reply = some reply) (past : Byte) :
    ∃ head told,
      Received past reply (responseType get.pdu.type) (coapResponseCode 205) get.pdu.id
        get.pdu.token head told ∧
      head = readHead
        (if get.dst.1.resources.Observes get.resource.uri get.peer get.pdu.token then
          some get.dst.1.observe else none)
        ((get.request.firstOption coapOptionContentType).getD 0)
        (if dataExpiry put.request put.now = 0 then none
          else some (toUnsigned (dataExpiry put.request put.now - get.now))) ∧
      (told = (CStr.read put.request.data).bytes ∨ told = []) ∧
      (told = put.request.data ↔ (0 : Byte) ∉ put.request.data ∧
        coapHdrSize + get.pdu.token.length + headSize head + 1 + put.request.data.length ≤
          coapMaxPduSize) := by
  obtain ⟨tr, hrun⟩ := hput
  obtain ⟨tr', hrun'⟩ := hget
  obtain ⟨htopic, temp, htemp, hdata, hma⟩ :=
    put.stored (hrun.endpoint_steps.reachable .init).agreement hpublish.1 hpublish.2
  have hb : Agreement get.src.1 := (hrun'.endpoint_steps.reachable .init).agreement
  have htopic' : IsTopic get.resource := by
    refine (hb.resource _ (handlerFor_spec get.handler).1).resolve_right fun hbuiltin => ?_
    refine hbuiltin.slash_notMem ?_
    rw [huri]
    exact htopic.below.subset (by decide)
  obtain ⟨htoken, data, n, hdata', hopt, hbuilt⟩ :=
    get.read hb htopic' hread.1 hread.2 (by rw [huri, hkept, htemp])
  rw [hreply, hma] at hbuilt
  refine ⟨_, _, read_received htoken hbuilt, by rw [hopt]; rfl, ?_⟩
  generalize readHead _ _ _ = head
  rw [hdata] at hdata'
  -- an empty payload is not answered with 2.05
  have hne : put.request.data ≠ [] := by
    intro hnil
    rw [publishedData, hnil] at hdata'
    rcases hp : put.request.payload with _ | mem <;> rw [hp] at hdata' <;> cases hdata'
  rw [Cpp.publishedData_of_ne_nil hne] at hdata'
  obtain rfl := Option.some.inj hdata'
  have hsame : (CStr.read put.request.data).bytes = put.request.data ↔
      (0 : Byte) ∉ put.request.data := CStr.bytes_read_eq
  -- the handler stores what comes before the first NUL
  by_cases hnul : (0 : Byte) ∈ put.request.data
  · refine ⟨?_, iff_of_false ?_ fun h => h.1 hnul⟩
    · split_ifs
      · exact .inl rfl
      · exact .inr rfl
    · split_ifs
      · exact fun h => hsame.1 h hnul
      · exact fun h => hne h.symm
  · rw [hsame.2 hnul, and_iff_right hnul]
    split_ifs with hroom
    · exact ⟨.inl rfl, iff_of_true rfl hroom⟩
    · exact ⟨.inr rfl, iff_of_false (fun h => hne h.symm) hroom⟩

/-- A confirmable request that publishes to the topic `ps/x`. -/
def publishDatagram : List Byte :=
  [0x40, 0x03, 0x12, 0x35, 0xb2] ++ ascii "ps" ++ [0x01] ++ ascii "x" ++ [0x10, 0xff] ++ ascii "21"

/-- A confirmable request that reads it. -/
def readDatagram : List Byte :=
  [0x40, 0x01, 0x12, 0x36, 0xb2] ++ ascii "ps" ++ [0x01] ++ ascii "x" ++ [0x10]

set_option maxRecDepth 8000 in
theorem payload_arrives_iff_two :
    ∃ (put get : Served Lookup.latest fun _ _ => true) (reply : CoapPdu) (head : List CoapOption)
      (told : List Byte), put.request.data = ascii "21" ∧ get.reply = some reply ∧
      Received 0 reply (responseType get.pdu.type) (coapResponseCode 205) get.pdu.id
        get.pdu.token head told ∧
      (told = put.request.data ↔ (0 : Byte) ∉ put.request.data ∧
        coapHdrSize + get.pdu.token.length + headSize head + 1 + put.request.data.length ≤
          coapMaxPduSize) := by
  have hrun : ∃ s₀ s₁ s₂ reply₀ reply₁ reply outs₀ outs₁ outs₂ pdu₁ pdu₂ r₁ r₂,
      endpointStep Lookup.latest (fun _ _ => true) (boot true false, [])
        (.datagram [] createDatagram 0 5 fun _ _ => 0) = .ok (s₀, reply₀, outs₀) ∧
      endpointStep Lookup.latest (fun _ _ => true) s₀
        (.datagram [] publishDatagram 0 6 fun _ _ => 0) = .ok (s₁, reply₁, outs₁) ∧
      endpointStep Lookup.latest (fun _ _ => true) s₁
        (.datagram [] readDatagram 0 7 fun _ _ => 0) = .ok (s₂, some reply, outs₂) ∧
      messageOf 0 publishDatagram = some pdu₁ ∧ messageOf 0 readDatagram = some pdu₂ ∧
      handlerFor (brokerServer Lookup.latest (fun _ _ => true) 6 fun _ _ => 0) 0 s₀.1 pdu₁ =
        some (r₁, .put) ∧
      handlerFor (brokerServer Lookup.latest (fun _ _ => true) 7 fun _ _ => 0) 0 s₁.1 pdu₂ =
        some (r₂, .get) ∧ r₂.uri = r₁.uri ∧
      outs₁.map Output.code = [some (coapResponseCode 204)] ∧
      outs₂.map Output.code = [some (coapResponseCode 205)] :=
    ⟨_, _, _, _, _, _, _, _, _, _, _, _, _, rfl, rfl, rfl, rfl, rfl, rfl, rfl, rfl, rfl, rfl⟩
  obtain ⟨s₀, s₁, s₂, reply₀, reply₁, reply, outs₀, outs₁, outs₂, pdu₁, pdu₂, r₁, r₂, hcreate,
    hput, hget, hpdu₁, hpdu₂, hfor₁, hfor₂, huri, hstored, hread⟩ := hrun
  have hs₀ := Reachable.init.next hcreate
  let put : Served Lookup.latest fun _ _ => true :=
    ⟨s₀, [], publishDatagram, 0, 6, fun _ _ => 0, s₁, reply₁, outs₁, pdu₁, r₁, .put, hput, hpdu₁,
      hfor₁⟩
  let get : Served Lookup.latest fun _ _ => true :=
    ⟨s₁, [], readDatagram, 0, 7, fun _ _ => 0, s₂, some reply, outs₂, pdu₂, r₂, .get, hget, hpdu₂,
      hfor₂⟩
  have hdata : put.request.data = ascii "21" := by
    obtain rfl : _ = pdu₁ := Option.some.inj (rfl.symm.trans hpdu₁)
    rfl
  obtain ⟨head, told, hreceived, -, -, htold⟩ := payload_arrives_iff put get hs₀ (hs₀.next hput)
    ⟨rfl, hstored⟩ ⟨rfl, hread⟩ huri rfl rfl 0
  exact ⟨put, get, reply, head, told, hdata, rfl, hreceived, htold⟩

end

end CoapBroker
