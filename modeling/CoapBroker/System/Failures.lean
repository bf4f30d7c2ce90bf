import CoapBroker.System.BadOption
import CoapBroker.System.Observers
import CoapBroker.System.Ownership

/-!
# Datagrams that end the broker

A datagram makes the program fail (an assertion, `NULL`, a resource freed twice) in two ways only
(`datagram_fails_iff`): it is a confirmable message with critical options that are not known, and
the response that lists them is planned to be larger than any message; or it asks for a new topic,
in another format than link format, with a payload that is not accepted. All other datagrams are
handled, whatever they are.

The message layer itself only fails in the first way, whatever the program that uses it
(`coapHandleMessage_error`).
-/

namespace CoapBroker

/-! ## The message layer -/

theorem map_eq_error {α β : Type} {x : Except Fault α} {k : α → β} {f : Fault} :
    x.map k = .error f ↔ x = .error f := by
  rcases x with f' | a
  · exact ⟨fun h => congrArg _ (Except.error.inj h), fun h => congrArg _ (Except.error.inj h)⟩
  · exact iff_of_false (fun h => by cases h) fun h => by cases h

theorem coapOptionFilterGet_clear (type : ℕ) :
    coapOptionFilterGet OptFilter.clear type = false := by
  have hempty : OptFilter.clear.elems = ∅ := by
    rw [OptFilter.elems, OptFilter.elems_clear.1, OptFilter.elems_clear.2, Finset.union_empty]
  have hget := congrArg Prod.snd (OptFilter.good_clear.op type .get).2
  rw [hempty] at hget
  exact hget

theorem passes_of_optionNextLoop {past : Byte} {n : ℕ} {oi oi' : OptIterator} {opt : List Byte}
    (h : optionNextLoop past n oi = some (opt, oi')) : OptIterator.Passes oi.filter oi'.type := by
  induction n generalizing oi with
  | zero => cases h
  | succ n ih =>
    rw [optionNextLoop] at h
    rcases hparse : coapOptParse past oi.rest with _ | o <;> rw [hparse] at h
    · cases h
    dsimp only at h
    split_ifs at h with hpass
    · cases h
      exact hpass
    · have hpass := ih h
      exact hpass

/-- Nothing is copied by an empty filter. -/
theorem rawOptions_clear (past : Byte) (pdu : CoapPdu) :
    pdu.rawOptions past OptFilter.clear = [] := by
  rw [CoapPdu.rawOptions, rawOptionsFrom]
  rcases hnext : coapOptionNext past (coapOptionIteratorInit pdu (some OptFilter.clear)) with
    _ | ⟨opt, oi⟩
  · rfl
  rw [coapOptionNext] at hnext
  split_ifs at hnext with hbad
  have hfilter : (coapOptionIteratorInit pdu (some OptFilter.clear)).filter =
      some OptFilter.clear := by
    rw [coapOptionIteratorInit] at hbad ⊢
    split_ifs at hbad ⊢
    · exact absurd (.inl rfl) hbad
    · rfl
  have hpass := passes_of_optionNextLoop hnext
  rw [hfilter, OptIterator.Passes, coapOptionFilterGet_clear] at hpass
  cases hpass

section

variable {σ ω : Type} {srv : Server σ ω} {past : Byte} {peer : CoapAddress} {pdu : CoapPdu}
  {f : Fault}

/-- The default responses are always put together. -/
theorem defaultResponse_ok (s : σ) (htoken : pdu.token.length ≤ 8) {n : ℕ}
    (hn : n = 404 ∨ n = 405) :
    ∃ response, defaultResponse srv past s pdu n = .ok response := by
  rw [defaultResponse]
  split_ifs
  · obtain ⟨reply, hreply⟩ := buildResponse_ok htoken _
    exact ⟨_, hreply⟩
  · have hsize : errorSize past pdu (coapResponseCode n) OptFilter.clear ≤ coapMaxPduSize := by
      have hclear : (coapOptionFilterOp OptFilter.clear coapOptionContentType .clear).1 =
          OptFilter.clear := rfl
      have hphrase : (coapResponsePhrase (coapResponseCode n)).length ≤ 18 := by
        rcases hn with rfl | rfl <;> decide
      rw [errorSize, hclear, rawOptions_clear, coapHdrSize, coapMaxPduSize, optionsSize]
      split_ifs <;> omega
    rcases @coapNewErrorResponse_cases past pdu htoken (coapResponseCode n) OptFilter.clear with
      ⟨hlt, -⟩ | ⟨-, reply, hreply⟩
    · exact absurd hsize (not_le.2 hlt)
    · exact ⟨_, hreply⟩

theorem headerOnly_ok (type : ℕ) (pdu : CoapPdu) : ∃ reply, headerOnly type pdu = .ok reply := by
  rw [headerOnly, coapPduInit, if_neg (by decide), if_neg (by decide)]
  exact ⟨_, rfl⟩

theorem replyOf_ok (htoken : pdu.token.length ≤ 8) (response : Pdu) :
    ∃ reply, replyOf past pdu response = .ok reply := by
  obtain ⟨built, hbuilt⟩ := buildResponse_ok htoken response
  rw [replyOf]
  dsimp only
  split_ifs
  · exact ⟨_, rfl⟩
  · rw [coapPduInit, if_neg (lt_irrefl _), if_neg (by decide)]
    exact ⟨_, rfl⟩
  · exact ⟨_, hbuilt⟩
  · rw [coapPduInit, if_neg (lt_irrefl _), if_neg (by decide)]
    exact ⟨_, rfl⟩
  · rw [hbuilt]
    exact ⟨_, rfl⟩

/-- What a handler is called with. -/
def CoapPdu.incoming (past : Byte) (pdu : CoapPdu) (peer : CoapAddress) : Incoming :=
  ⟨peer, pdu.token, pdu.request past, coapGetBlock (pdu.optionValue past coapOptionBlock2)⟩

/-- What the observers are when a handler is called. -/
def observedBefore (srv : Server σ ω) (past : Byte) (s : σ) (peer : CoapAddress) (pdu : CoapPdu)
    (r : CoapResource) : σ :=
  applyObserve srv s r.uri peer pdu.token
    (if r.observable then pdu.optionValue past coapOptionObserve else none)

theorem callHandlerOf_error {s : σ} {r : CoapResource} {method : Method}
    (htoken : pdu.token.length ≤ 8) : callHandlerOf srv past s peer pdu r method = .error f ↔
      srv.call (observedBefore srv past s peer pdu r) r.uri method (pdu.incoming past peer) =
        .error f := by
  rw [callHandlerOf, if_neg (not_lt.2 htoken)]
  dsimp only
  rw [observedBefore, CoapPdu.incoming]
  rcases srv.call _ r.uri method _ with f' | ⟨s₁, response, out⟩
  · exact ⟨fun h => congrArg _ (Except.error.inj h), fun h => congrArg _ (Except.error.inj h)⟩
  · obtain ⟨reply, hreply⟩ := @replyOf_ok past pdu htoken response
    refine iff_of_false (fun h => ?_) fun h => by cases h
    rw [map_eq_error, hreply] at h
    cases h

/-- The handler that is called for a message fails. -/
def HandlerFails (srv : Server σ ω) (past : Byte) (s : σ) (peer : CoapAddress) (pdu : CoapPdu)
    (f : Fault) : Prop :=
  ∃ r method, handlerFor srv past s pdu = some (r, method) ∧
    srv.call (observedBefore srv past s peer pdu r) r.uri method (pdu.incoming past peer) = .error f

theorem handleRequest_error {s : σ} (htoken : pdu.token.length ≤ 8)
    (htype : ¬(pdu.type = coapMessageRst ∨ (pdu.type ≠ coapMessageAck ∧
      (coapOptionCheckCritical past srv.knownOptions pdu).1 = false))) :
    handleRequest srv past s peer pdu = .error f ↔ HandlerFails srv past s peer pdu f := by
  rw [handleRequest.eq_def, HandlerFails, handlerFor, if_neg htype]
  -- libcoap itself answers 404 and 405
  have hdefault : ∀ {n : ℕ}, n = 404 ∨ n = 405 →
      ((defaultResponse srv past s pdu n).map fun response =>
        (s, unlessDropped past pdu response, ([] : List ω))) ≠ .error f := by
    intro n hn h
    obtain ⟨response, hresponse⟩ := @defaultResponse_ok σ ω srv past pdu s htoken n hn
    rw [map_eq_error, hresponse] at h
    cases h
  rcases srv.lookup.dispatch (srv.resources s) (pdu.request past) with _ | r
  · refine iff_of_false (hdefault (by split_ifs <;> simp)) ?_
    rintro ⟨r, method, h, -⟩
    cases h
  dsimp only
  rw [Option.bind_some]
  rcases (methodOf pdu.code).filter fun method => (r.handler.of method).isSome with _ | method
  · refine iff_of_false (hdefault (.inr rfl)) ?_
    rintro ⟨r, method, h, -⟩
    cases h
  · dsimp only
    rw [callHandlerOf_error htoken]
    constructor
    · exact fun h => ⟨r, method, rfl, h⟩
    · rintro ⟨r', method', h, hcall⟩
      cases h
      exact hcall

theorem passUp_error {s : σ × List Sent} (htoken : pdu.token.length ≤ 8)
    (htype : ¬(pdu.type = coapMessageRst ∨ (pdu.type ≠ coapMessageAck ∧
      (coapOptionCheckCritical past srv.knownOptions pdu).1 = false))) :
    passUp srv past s peer pdu = .error f ↔ HandlerFails srv past s.1 peer pdu f := by
  rw [passUp]
  have hno : pdu.code = 0 ∨ 32 ≤ pdu.code → ¬HandlerFails srv past s.1 peer pdu f := by
    rintro hcode ⟨r, method, hfor, -⟩
    rw [handlerFor_eq_none (methodOf_eq_none hcode)] at hfor
    cases hfor
  obtain ⟨reply, hack⟩ := headerOnly_ok coapMessageAck pdu
  obtain ⟨reply', hrst⟩ := headerOnly_ok coapMessageRst pdu
  split_ifs with hrequest hresponse hcon
  · rw [map_eq_error]
    exact handleRequest_error htoken htype
  · rw [map_eq_error, hack]
    exact iff_of_false (fun h => by cases h) (hno (by omega))
  · exact iff_of_false (fun h => by cases h) (hno (by omega))
  · rw [map_eq_error, hrst]
    exact iff_of_false (fun h => by cases h) (hno (by omega))

/-- A confirmable message has critical options that are not known, and the response that lists them
    is planned to be larger than any message. -/
def ListsTooMuch (past : Byte) (known : OptFilter) (pdu : CoapPdu) : Prop :=
  pdu.type = coapMessageCon ∧ (coapOptionCheckCritical past known pdu).1 = false ∧
    coapMaxPduSize < errorSize past pdu (coapResponseCode 402)
      (coapOptionCheckCritical past known pdu).2

instance (past : Byte) (known : OptFilter) (pdu : CoapPdu) :
    Decidable (ListsTooMuch past known pdu) :=
  inferInstanceAs (Decidable (_ ∧ _ ∧ _))

theorem coapDispatch_error {s : σ × List Sent} (htoken : pdu.token.length ≤ 8)
    (htype : pdu.type < 4) : coapDispatch srv past s peer pdu = .error f ↔
      (ListsTooMuch past srv.knownOptions pdu ∧ f = .assertion) ∨
        HandlerFails srv past s.1 peer pdu f := by
  have hno : handlerFor srv past s.1 pdu = none → ¬HandlerFails srv past s.1 peer pdu f := by
    rintro hnone ⟨r, method, hfor, -⟩
    rw [hnone] at hfor
    cases hfor
  rw [coapDispatch, ListsTooMuch]
  -- an acknowledgement is passed up unless it is empty
  by_cases hack : pdu.type = coapMessageAck
  · have htype : ¬(pdu.type = coapMessageRst ∨ (pdu.type ≠ coapMessageAck ∧
        (coapOptionCheckCritical past srv.knownOptions pdu).1 = false)) := by
      rintro (h | h)
      · rw [hack] at h
        exact absurd h (by decide)
      · exact h.1 hack
    have hcon : pdu.type ≠ coapMessageCon := by
      rw [hack]
      decide
    rw [if_pos hack, or_iff_right fun h => hcon h.1.1]
    split_ifs with h0
    · exact iff_of_false (fun h => by cases h)
        (hno (handlerFor_eq_none (methodOf_eq_none (.inl h0))))
    · exact passUp_error htoken htype
  rw [if_neg hack]
  -- a reset only concerns the messages that were sent
  by_cases hrst : pdu.type = coapMessageRst
  · have hcon : pdu.type ≠ coapMessageCon := by
      rw [hrst]
      decide
    rw [if_pos hrst, or_iff_right fun h => hcon h.1.1]
    refine iff_of_false (fun h => ?_) (hno (by rw [handlerFor, if_pos (.inl hrst)]))
    split at h <;> cases h
  rw [if_neg hrst]
  -- an unknown critical option is answered with an error only if the message is confirmable
  by_cases hbad : (coapOptionCheckCritical past srv.knownOptions pdu).1 = false
  · have hnone : handlerFor srv past s.1 pdu = none := by
      rw [handlerFor, if_pos (.inr ⟨hack, hbad⟩)]
    rw [if_pos hbad, if_pos hbad, or_iff_left (hno hnone)]
    by_cases hnon : pdu.type = coapMessageNon
    · rw [if_pos hnon]
      refine iff_of_false (fun h => by cases h) fun h => ?_
      rw [hnon] at h
      exact absurd h.1.1 (by decide)
    rw [if_neg hnon, map_eq_error]
    rcases @coapNewErrorResponse_cases past pdu htoken (coapResponseCode 402)
      (coapOptionCheckCritical past srv.knownOptions pdu).2 with ⟨hlt, herror⟩ | ⟨hle, reply, hok⟩
    · rw [herror, Except.error.injEq, eq_comm]
      refine ⟨fun h => ⟨⟨?_, hbad, hlt⟩, h⟩, And.right⟩
      rw [coapMessageAck] at hack
      rw [coapMessageRst] at hrst
      rw [coapMessageNon] at hnon
      rw [coapMessageCon]
      omega
    · rw [hok]
      exact iff_of_false (fun h => by cases h) fun h => absurd h.1.2.2 (not_lt.2 hle)
  · rw [if_neg hbad, if_neg hbad, ite_self, or_iff_right fun h => hbad h.1.2.1]
    exact passUp_error htoken (by rintro (h | h); exacts [hrst h, hbad h.2])

/-- What is read from a datagram has a token of at most eight bytes and one of four types. -/
theorem messageOf_spec {msg : List Byte} (h : messageOf past msg = some pdu) :
    pdu.token.length ≤ 8 ∧ pdu.type < 4 := by
  rw [messageOf] at h
  split_ifs at h
  rcases hinit : coapPduInit 0 0 (0, 0) msg.length with f | _ | pdu₀ <;> rw [hinit] at h
  · cases h
  · cases h
  obtain ⟨-, m, -, rfl⟩ := exists_message_of_coapPduParse h
  exact ⟨m.token_le, m.type_lt⟩

/-- What a program that uses libcoap fails on: a message for which too much would have to be listed,
    or one whose handler fails. A datagram is never larger than a message can be. -/
theorem coapHandleMessage_error {s : σ × List Sent} {msg : List Byte}
    (hsize : msg.length ≤ coapMaxPduSize) :
    coapHandleMessage srv past s peer msg = .error f ↔ ∃ pdu, messageOf past msg = some pdu ∧
      ((ListsTooMuch past srv.knownOptions pdu ∧ f = .assertion) ∨
        HandlerFails srv past s.1 peer pdu f) := by
  -- a message that is too short or of another version is dropped
  by_cases hdrop : msg.length < coapHdrSize ∨
      (msg.headD 0).toNat >>> 6 &&& 0x03 ≠ coapDefaultVersion
  · have hnone : messageOf past msg = none := by rw [messageOf, if_pos hdrop]
    have hok : coapHandleMessage srv past s peer msg = .ok (s, none, []) := by
      rw [coapHandleMessage]
      split_ifs with h1 h2
      · rfl
      · rfl
      · exact absurd hdrop (not_or.2 ⟨h1, h2⟩)
    rw [hok, hnone]
    refine iff_of_false (fun h => by cases h) ?_
    rintro ⟨_, h, -⟩
    cases h
  obtain ⟨hshort, hversion⟩ := not_or.1 hdrop
  have hinit : coapPduInit 0 0 (0, 0) msg.length =
      .ok (some { maxSize := msg.length, type := 0, code := 0, id := (0, 0) }) := by
    rw [coapPduInit, if_neg (not_lt.2 hsize), if_neg hshort]
    rfl
  have hmessage : messageOf past msg =
      coapPduParse past msg { maxSize := msg.length, type := 0, code := 0, id := (0, 0) } := by
    rw [messageOf, if_neg hdrop, hinit]
  rw [coapHandleMessage, if_neg hshort, if_neg hversion, hinit]
  dsimp only
  rcases hparse : coapPduParse past msg
    { maxSize := msg.length, type := 0, code := 0, id := (0, 0) } with _ | pdu
  · rw [hmessage, hparse]
    refine iff_of_false (fun h => by cases h) ?_
    rintro ⟨_, h, -⟩
    cases h
  · rw [hparse] at hmessage
    obtain ⟨htoken, htype⟩ := messageOf_spec hmessage
    dsimp only
    rw [coapDispatch_error htoken htype, hmessage]
    constructor
    · exact fun h => ⟨pdu, rfl, h⟩
    · rintro ⟨pdu', h, hfails⟩
      cases h
      exact hfails

end

/-! ## The handlers of the broker -/

theorem isSome_of_discoverLoop {junk : CStr → ℕ → Byte} {queries : List CoapOption}
    {rs : List CoapResource} {c c' : ℕ} {data data' : Option CStr}
    (h : discoverLoop junk queries rs (c, data) = some (c', data')) (hdata : c > 0 → data.isSome) :
    c' > 0 → data'.isSome := by
  induction rs generalizing c data with
  | nil =>
    cases h
    exact hdata
  | cons r rs ih =>
    have hsome : ∀ (d : Option CStr) (s : CStr), (dynamicConcatenate d s).isSome := fun d s => by
      cases d <;> rfl
    rw [discoverLoop] at h
    by_cases hshown : isShown r = true
    · rw [if_pos hshown] at h
      rcases hcount : countFound r queries 0 with _ | foundQuery <;> rw [hcount] at h
      · cases h
      dsimp only at h
      by_cases hall : queries.length = foundQuery
      · rw [if_pos hall] at h
        refine ih h fun _ => ?_
        split_ifs
        · exact hsome _ _
        · exact hsome _ _
      · rw [if_neg hall] at h
        exact ih h hdata
    · rw [if_neg hshown] at h
      exact ih h hdata

/-- Discovery does not fail. -/
theorem hndGetBroker_ok (b : Broker) (req : Request) (block2 : Option CoapBlock) (room : ℕ)
    (junk : CStr → ℕ → Byte) : ∃ pdu, hndGetBroker b req block2 room junk = .ok pdu := by
  rw [hndGetBroker.eq_def]
  rcases hloop : discoverLoop junk (uriQueries req) b.resources (0, none) with _ | ⟨c, data⟩
  · exact ⟨_, rfl⟩
  dsimp only
  by_cases hpos : c > 0
  · obtain ⟨data, rfl⟩ := Option.isSome_iff_exists.1
      (isSome_of_discoverLoop hloop (fun h => absurd h (lt_irrefl 0)) hpos)
    rw [if_pos hpos]
    obtain ⟨pdu, hpdu, -⟩ := bodyResponse_ok block2 room data
    exact ⟨pdu, hpdu⟩
  · rw [if_neg hpos]
    exact ⟨_, rfl⟩

/-- Creating a topic fails when the handler frees what the parser has left of a payload that is not
    accepted. -/
theorem hndPost_error_iff {b : Broker} {resource : CoapResource} {request : Request} {now : ℤ} :
    (∃ f, hndPost b resource request now = .error f) ↔
      ¬IsLinkFormat request ∧ ¬Accepted request := by
  constructor
  · rintro ⟨f, hf⟩
    rw [← not_or]
    intro h
    obtain ⟨b', out, slot, hok, -⟩ := (@hndPost_freesOnce_iff b resource request now).2 h
    rw [hf] at hok
    cases hok
  · rintro ⟨hcf, hno⟩
    rcases parseLinkFormat_cases (CStr.read request.data) resource with
      ⟨p, attrs, htext, -⟩ | ⟨-, heq | ⟨p, attrs, heq⟩⟩
    · exact absurd ⟨p, attrs, htext⟩ hno
    · exact ⟨.assertion, by rw [hndPost_of_not_isLinkFormat hcf heq]; rfl⟩
    · exact ⟨.doubleFree, by rw [hndPost_of_not_isLinkFormat hcf heq]; rfl⟩

/-- Nothing can be registered with a resource directory. -/
def NoDirectory (b : Broker) : Prop := ∀ r ∈ b.resources, r.handler.post ≠ some .hndPostRd

/-- Without the resource directory, there is none in any run. -/
theorem Reachable.noDirectory {mqttBridge : Bool} {b : Broker}
    (h : Reachable step (boot mqttBridge false) b) : NoDirectory b := by
  refine (h.invariant (P := fun b => Agreement b ∧ NoDirectory b)
    ⟨agreement_boot mqttBridge false, fun r hr => ?_⟩ fun b e out b' hb hstep =>
      ⟨(step_effect hb.1 hstep).agreement hb.1, fun r hr => ?_⟩).2
  · rw [List.mem_singleton.1 hr]
    decide
  · rcases (step_effect hb.1 hstep).mem_resources hb.1 hr with
      ⟨x, hx, subscribers, rfl⟩ | ⟨target, request, x, -, rfl⟩
    · exact hb.2 x hx
    · exact (by decide : topicHandlers.post ≠ some .hndPostRd)

/-- A handler only fails when it is asked for a new topic. -/
theorem brokerCall_error_iff {b : Broker} (hb : Agreement b) {r : CoapResource}
    (hr : r ∈ b.resources) (hrd : r.handler.post ≠ some .hndPostRd) {method : Method}
    (hmethod : (r.handler.of method).isSome) (now : ℤ) (junk : CStr → ℕ → Byte)
    (incoming : Incoming) :
    (∃ f, brokerCall now junk b r.uri method incoming = .error f) ↔
      method = .post ∧ IsParent r ∧ ¬IsLinkFormat incoming.request ∧
        ¬Accepted incoming.request := by
  have hfind : b.find r.uri = some r := Keyed.find_of_mem hb.uris hr
  simp only [brokerCall, map_eq_error]
  have hok : ∀ {e : Event}, (∃ x, step b e = .ok x) → ¬∃ f, step b e = .error f := by
    rintro e ⟨x, hx⟩ ⟨f, hf⟩
    rw [hx] at hf
    cases hf
  -- no other request fails
  have hother : method ≠ .post → ¬(method = .post ∧ IsParent r ∧
      ¬IsLinkFormat incoming.request ∧ ¬Accepted incoming.request) := fun hne h => hne h.1
  have hparent : IsParent r → method = .post → ∀ hne : ¬((b.find r.uri).bind fun r =>
      r.handler.of method) = some .hndGetBroker, ((∃ f, step b (.request r.uri method
        incoming.request incoming.peer incoming.token now) = .error f) ↔
      method = .post ∧ IsParent r ∧ ¬IsLinkFormat incoming.request ∧
        ¬Accepted incoming.request) := by
    rintro hparent rfl -
    simp only [step_post hfind hparent, map_eq_error, hndPost_error_iff, true_and, hparent]
  rw [hfind, Option.bind_some] at hparent ⊢
  rcases hb.resource r hr with htopic | rfl | rfl
  · have hne : r.handler.of method ≠ some .hndGetBroker := by
      rw [htopic.handler]
      cases method <;> decide
    rw [if_neg hne]
    obtain ⟨attr, -, hct⟩ := htopic.ctAttrValue
    have hclone : (b.topicDB.cloneTopic r.uri).isSome :=
      TopicDB.getTopic_isSome.2 (hb.mem_paths_of_isTopic hr htopic)
    cases method with
    | post => exact hparent (.inr htopic) rfl hne
    | get =>
      refine iff_of_false (hok ?_) (hother (by decide))
      rw [step_get hfind htopic]
      obtain ⟨response, hresponse, -⟩ := @hndGetTopic_ne_notFound b r incoming.peer incoming.token
        (atoi attr.value) now hct hclone (some incoming.request)
      exact ⟨(b, { response := some response }), by rw [hresponse]; rfl⟩
    | put =>
      refine iff_of_false (hok ?_) (hother (by decide))
      obtain ⟨b', pdu, out, hput, -⟩ :=
        hndPutTopic_ne_notFound hct hclone hb.notifiable incoming.request now
      exact ⟨(b', out), by rw [step_put hfind htopic, hput]⟩
    | delete =>
      refine iff_of_false (hok ?_) (hother (by decide))
      rw [step, hfind]
      dsimp only
      rw [htopic.handler]
      exact ⟨_, rfl⟩
  · -- the resource directory
    have hnot : ¬IsParent rdResource := by
      rintro (h | h)
      · exact absurd h (by decide)
      · exact IsBuiltin.not_isTopic (.inl rfl) h
    rw [if_neg (by cases method <;> decide)]
    refine iff_of_false (hok ?_) fun h => hnot h.2.1
    rw [step, hfind]
    cases method with
    | get => exact ⟨_, rfl⟩
    | post => exact absurd rfl hrd
    | put => cases hmethod
    | delete => cases hmethod
  · cases method with
    | get =>
      rw [if_pos (by decide)]
      refine iff_of_false (hok ?_) (hother (by decide))
      obtain ⟨pdu, hpdu⟩ := hndGetBroker_ok b incoming.request incoming.block2
        (discoveryRoom incoming.token) junk
      exact ⟨(b, { response := some pdu }), by rw [step, hpdu]; rfl⟩
    | post =>
      have hne : brokerResource.handler.of .post ≠ some .hndGetBroker := by decide
      rw [if_neg hne]
      exact hparent (.inl rfl) rfl hne
    | put => cases hmethod
    | delete =>
      rw [if_neg (by decide)]
      refine iff_of_false (hok ?_) (hother (by decide))
      rw [step, hfind]
      exact ⟨_, rfl⟩

section

variable {l : Lookup} {passes : Option (List Byte) → CoapResource → Bool} {past : Byte} {now : ℤ}
  {junk : CStr → ℕ → Byte} {sender : CoapAddress} {pdu : CoapPdu}

/-- When the handler is called, the resource is there as before, but for its observers. -/
theorem observedBefore_spec {b : Broker} (hb : Agreement b) {r : CoapResource}
    (hr : r ∈ b.resources) :
    let b₀ := observedBefore (brokerServer l passes now junk) past b sender pdu r
    Agreement b₀ ∧ ∃ r₀ ∈ b₀.resources, r₀.uri = r.uri ∧ r₀.handler = r.handler ∧
      (IsParent r₀ ↔ IsParent r) := by
  intro b₀
  -- no observation is asked for, or it cannot be
  rcases hobserve : (if r.observable then pdu.optionValue past coapOptionObserve else none)
    with _ | value
  · have hb₀ : b₀ = b := by
      dsimp only [b₀, observedBefore]
      rw [hobserve]
      rfl
    rw [hb₀]
    exact ⟨hb, r, hr, rfl, rfl, Iff.rfl⟩
  have hobs : r.observable = true := by
    by_contra hnot
    rw [if_neg hnot] at hobserve
    cases hobserve
  have htopic : IsTopic r := (hb.resource r hr).resolve_right fun hbuiltin => by
    rw [hbuiltin.not_observable] at hobs
    cases hobs
  -- only the subscribers of the resource change
  obtain ⟨f, hf, hb₀⟩ : ∃ f : CoapResource → CoapResource,
      (∀ r, ∃ subscribers, f r = { r with subscribers }) ∧
        b₀ = { b with resources := b.resources.changeObservers r.uri f } := by
    refine ⟨fun r => if coapDecodeVarBytes value &&& 1 = 0 then r.addObserver sender pdu.token
      else r.deleteObserver sender pdu.token, fun r => ?_, ?_⟩
    · split_ifs
      · exact r.addObserver_eq _ _
      · exact r.deleteObserver_eq _ _
    · dsimp only [b₀, observedBefore]
      rw [hobserve]
      rfl
  rw [hb₀]
  refine ⟨hb.withObservers _ hf, f r, ?_, ?_⟩
  · have hmem : f r ∈ b.resources.changeObservers r.uri f := by
      rw [changeObservers_eq hb.uris]
      exact List.mem_map.2 ⟨r, hr, if_pos ⟨rfl, hobs⟩⟩
    exact hmem
  · obtain ⟨subscribers, heq⟩ := hf r
    rw [heq]
    exact ⟨rfl, rfl, iff_of_true (.inr (htopic.withSubscribers subscribers)) (.inr htopic)⟩

theorem handlerFails_iff {b : Broker} (hb : Agreement b) (hrd : NoDirectory b) :
    (∃ f, HandlerFails (brokerServer l passes now junk) past b sender pdu f) ↔
      ∃ r, handlerFor (brokerServer l passes now junk) past b pdu = some (r, .post) ∧ IsParent r ∧
        ¬IsLinkFormat (pdu.request past) ∧ ¬Accepted (pdu.request past) := by
  have hone : ∀ {r : CoapResource} {method : Method},
      handlerFor (brokerServer l passes now junk) past b pdu = some (r, method) →
      ((∃ f, (brokerServer l passes now junk).call
        (observedBefore (brokerServer l passes now junk) past b sender pdu r) r.uri method
          (pdu.incoming past sender) = .error f) ↔ method = .post ∧ IsParent r ∧
            ¬IsLinkFormat (pdu.request past) ∧ ¬Accepted (pdu.request past)) := by
    intro r method hfor
    obtain ⟨hr, hmethod⟩ := handlerFor_spec hfor
    obtain ⟨hb₀, r₀, hr₀, huri, hhandler, hparent⟩ :=
      @observedBefore_spec l passes past now junk sender pdu b hb r hr
    have hrd₀ : r₀.handler.post ≠ some .hndPostRd := hhandler ▸ hrd r hr
    rw [← hhandler] at hmethod
    rw [← huri, ← hparent]
    exact brokerCall_error_iff hb₀ hr₀ hrd₀ hmethod now junk (pdu.incoming past sender)
  constructor
  · rintro ⟨f, r, method, hfor, hcall⟩
    obtain ⟨rfl, hrest⟩ := (hone hfor).1 ⟨f, hcall⟩
    exact ⟨r, hfor, hrest⟩
  · rintro ⟨r, hfor, hrest⟩
    obtain ⟨f, hcall⟩ := (hone hfor).2 ⟨rfl, hrest⟩
    exact ⟨f, r, .post, hfor, hcall⟩

/-- A message as it is received, into a buffer of its size. -/
def WireMessage.received (m : WireMessage) : CoapPdu :=
  m.toPdu { maxSize := m.bytes.length, type := 0, code := 0, id := (0, 0) }

theorem messageOf_iff {msg : List Byte} (hsize : msg.length ≤ coapMaxPduSize) :
    messageOf past msg = some pdu ↔
      ∃ m : WireMessage, m.bytes = msg ∧ m.version = coapDefaultVersion ∧ pdu = m.received := by
  have hversion : ∀ m : WireMessage, (m.bytes.headD 0).toNat >>> 6 &&& 0x03 = m.version := by
    intro m
    obtain ⟨hv, -, -⟩ := parts_byte m.version_lt m.type_lt (m.token_le.trans_lt (by norm_num))
    have hhead : (m.bytes.headD 0).toNat >>> 6 = m.version := hv
    rw [hhead, show (0x03 : ℕ) = 2 ^ 2 - 1 from rfl, Nat.and_two_pow_sub_one_eq_mod,
      Nat.mod_eq_of_lt m.version_lt]
  have hinit : ∀ {n : ℕ}, n ≤ coapMaxPduSize → ¬n < coapHdrSize → coapPduInit 0 0 (0, 0) n =
      .ok (some { maxSize := n, type := 0, code := 0, id := (0, 0) }) := by
    intro n hmax hmin
    rw [coapPduInit, if_neg (not_lt.2 hmax), if_neg hmin]
    rfl
  rw [messageOf]
  constructor
  · intro h
    split_ifs at h with hdrop
    rw [not_or, not_not] at hdrop
    rw [hinit hsize hdrop.1] at h
    obtain ⟨-, m, rfl, rfl⟩ := exists_message_of_coapPduParse h
    exact ⟨m, rfl, by rw [← hversion, hdrop.2], rfl⟩
  · rintro ⟨m, rfl, hm, rfl⟩
    have hlong : ¬m.bytes.length < coapHdrSize := by
      rw [WireMessage.bytes, coapHdrSize]
      simp only [List.length_cons]
      omega
    rw [if_neg (not_or.2 ⟨hlong, by rw [hversion, hm, not_not]⟩), hinit hsize hlong]
    exact coapPduParse_bytes m le_rfl

/-- In every state the broker gets to, a datagram makes it fail exactly if it is a confirmable
    message for which too many options would have to be listed, or a request for a new topic that is
    not in link format and whose payload is not accepted. -/
theorem datagram_fails_iff {mqttBridge : Bool} {s : Endpoint}
    (hs : Reachable (endpointStep l passes) (boot mqttBridge false, []) s) {msg : List Byte}
    (hsize : msg.length ≤ coapMaxPduSize) :
    (∃ f, endpointStep l passes s (.datagram sender msg past now junk) = .error f) ↔
      ∃ m : WireMessage, m.bytes = msg ∧ m.version = coapDefaultVersion ∧
        ((m.type = coapMessageCon ∧
            (∃ o ∈ m.options, unknownCritical OptFilter.clear o.type = true) ∧
            coapMaxPduSize < (m.badOption OptFilter.clear).bytes.length) ∨
          ∃ r, handlerFor (brokerServer l passes now junk) past s.1 m.received = some (r, .post) ∧
            IsParent r ∧ ¬IsLinkFormat (m.received.request past) ∧
            ¬Accepted (m.received.request past)) := by
  obtain ⟨tr, hrun⟩ := hs
  have hreach := hrun.endpoint_steps.reachable .init
  have hb : Agreement s.1 := hreach.agreement
  have hrd : NoDirectory s.1 := hreach.noDirectory
  have hfail : ∀ f, endpointStep l passes s (.datagram sender msg past now junk) = .error f ↔ _ :=
    fun f => coapHandleMessage_error hsize
  have hmessage : ∀ pdu, messageOf past msg = some pdu ↔ _ := fun pdu => messageOf_iff hsize
  simp only [hfail, hmessage]
  -- the assertion about the size of the error response, or a handler that fails
  constructor
  · rintro ⟨f, pdu, ⟨m, rfl, hversion, rfl⟩, ⟨⟨hcon, hbad, hlarge⟩, -⟩ | hfails⟩
    · refine ⟨m, rfl, hversion, .inl ⟨hcon, (coapOptionCheckCritical_eq hsize).1.1 hbad, ?_⟩⟩
      rw [← errorSize_badOption hsize]
      exact hlarge
    · exact ⟨m, rfl, hversion, .inr ((handlerFails_iff hb hrd).1 ⟨f, hfails⟩)⟩
  · rintro ⟨m, rfl, hversion, ⟨hcon, hunknown, hlarge⟩ | hfails⟩
    · refine ⟨.assertion, _, ⟨m, rfl, hversion, rfl⟩, .inl ⟨⟨hcon, ?_, ?_⟩, rfl⟩⟩
      · exact (coapOptionCheckCritical_eq hsize).1.2 hunknown
      · rw [← errorSize_badOption hsize] at hlarge
        exact hlarge
    · obtain ⟨f, hf⟩ := (handlerFails_iff hb hrd).2 hfails
      exact ⟨f, _, ⟨m, rfl, hversion, rfl⟩, .inr hf⟩

/-- A confirmable request for a new topic, with nothing in it. -/
def emptyPost : List Byte := [0x40, 0x02, 0x12, 0x34, 0xb2] ++ ascii "ps"

set_option maxRecDepth 4000 in
/-- The handler frees `NULL`. -/
theorem datagram_fails_iff_empty :
    ∃ m : WireMessage, m.bytes = emptyPost ∧ m.version = coapDefaultVersion ∧
      ((m.type = coapMessageCon ∧
          (∃ o ∈ m.options, unknownCritical OptFilter.clear o.type = true) ∧
          coapMaxPduSize < (m.badOption OptFilter.clear).bytes.length) ∨
        ∃ r, handlerFor (brokerServer Lookup.latest (fun _ _ => true) 0 fun _ _ => 0) 0
            (boot true false) m.received = some (r, .post) ∧
          IsParent r ∧ ¬IsLinkFormat (m.received.request 0) ∧
          ¬Accepted (m.received.request 0)) := by
  have hfails : endpointStep Lookup.latest (fun _ _ => true) (boot true false, [])
      (.datagram [] emptyPost 0 0 fun _ _ => 0) = .error .assertion := rfl
  exact (datagram_fails_iff .init (by decide)).1 ⟨_, hfails⟩

end

end CoapBroker
