import CoapBroker.Lib.WeakSimulation
import CoapBroker.Libcoap.SendQueue
import CoapBroker.System.Agreement

/-!
# The C broker on datagrams

The broker as its peers see it: libcoap (`coap_handle_message`) calls its handlers on the datagrams
that arrive, and keeps the confirmable notifications that are not acknowledged yet. In between come
messages from the MQTT bridge, and the sweeps of the main loop. The resource directory is left out.

Whatever datagrams arrive, the broker only does what the transition system of
`CoapBroker.System.Step` does (`datagrams_are_steps`), so all that holds of its runs holds here.

Of the confirmable notifications, their order is kept, not the times at which they are due. With
these (`CoapBroker.Libcoap.SendQueue`), the broker takes the same steps (`TimedReachable.next`) and
reaches no other states (`TimedReachable.forget`).
-/

namespace CoapBroker

/-! ## The handlers -/

/-- Calling a handler of the broker, at the time `now`. -/
def brokerCall (now : ℤ) (junk : CStr → ℕ → Byte) (b : Broker) (uri : CStr) (method : Method)
    (incoming : Incoming) : Except Fault (Broker × Pdu × Output) :=
  let event : Event :=
    if ((b.find uri).bind fun r => r.handler.of method) = some .hndGetBroker then
      .discover incoming.request incoming.block2 (discoveryRoom incoming.token) junk
    else .request uri method incoming.request incoming.peer incoming.token now
  (step b event).map fun x => (x.1, x.2.response.getD {}, x.2)

/-- The code of a response, if there is one. -/
def Output.GoodCode (out : Output) : Prop :=
  ∀ response, out.response = some response → response.code = 0 ∨ IsResponseCode response.code

theorem goodCode_respond (n : ℕ) (h : IsResponseCode (coapResponseCode n)) (pdu : Pdu)
    (notifications : List Notification) (mqtt : List MqttCall) :
    Output.GoodCode { response := some (pdu.respond n), notifications, mqtt } := by
  intro response heq
  obtain rfl := Option.some.inj heq
  exact .inr h

theorem hndGetTopic_code {b : Broker} {r : CoapResource} {peer : CoapAddress} {token : List Byte}
    {req : Option Request} {now : ℤ} {response : Pdu}
    (h : hndGetTopic b r peer token req now = .ok response) : IsResponseCode response.code := by
  rw [hndGetTopic] at h
  rcases hct : ctAttrValue r with f | ct <;> rw [hct] at h
  · cases h
  dsimp only at h
  split_ifs at h
  · cases h
    exact (by decide : IsResponseCode (coapResponseCode 415))
  · cases h
    exact (by decide : IsResponseCode (coapResponseCode 400))
  all_goals
    rcases hclone : b.topicDB.cloneTopic r.uri with _ | temp <;> rw [hclone] at h
    · cases h
      exact (by decide : IsResponseCode (coapResponseCode 404))
    · cases h
      rcases readResponse_code temp _ ct now with h | h <;> rw [h] <;> decide

theorem bodyResponse_code {block2 : Option CoapBlock} {room : ℕ} {data : CStr} {response : Pdu}
    (h : bodyResponse block2 room data = .ok response) : IsResponseCode response.code := by
  have h205 : IsResponseCode (coapResponseCode 205) := by decide
  rw [bodyResponse.eq_def] at h
  rcases block2 with _ | block
  · dsimp only at h
    split_ifs at h
    · cases h
      exact h205
    · split at h
      · cases h
        exact h205
      · cases h
        exact h205
  · dsimp only at h
    split at h
    · cases h
      exact h205
    · split_ifs at h
      · cases h
        exact (by decide : IsResponseCode (coapResponseCode 400))
      · cases h
        exact (by decide : IsResponseCode (coapResponseCode 500))

theorem hndGetBroker_code {b : Broker} {req : Request} {block2 : Option CoapBlock} {room : ℕ}
    {junk : CStr → ℕ → Byte} {response : Pdu}
    (h : hndGetBroker b req block2 room junk = .ok response) : IsResponseCode response.code := by
  rw [hndGetBroker.eq_def] at h
  split at h
  · cases h
    exact (by decide : IsResponseCode (coapResponseCode 400))
  · split_ifs at h
    · split at h
      · exact bodyResponse_code h
      · cases h
    · cases h
      exact (by decide : IsResponseCode (coapResponseCode 404))

theorem hndPost_code {b b' : Broker} {r : CoapResource} {req : Request} {now : ℤ} {out : Output}
    {slot : NewResource} (h : hndPost b r req now = .ok ((b', out), slot)) : out.GoodCode := by
  rcases hndPost_cases h with ⟨-, pdu, rfl, hcode⟩ | ⟨r, -, ⟨-, heq⟩ | ⟨-, heq⟩⟩
  · intro response heq
    obtain rfl := Option.some.inj heq
    rcases hcode with hcode | hcode <;> rw [hcode] <;> exact .inr (by decide)
  · obtain rfl := (Prod.mk.inj heq).2
    exact goodCode_respond 403 (by decide) _ _ _
  · obtain rfl := (Prod.mk.inj heq).2
    exact goodCode_respond 201 (by decide) _ _ _

theorem hndPutTopic_code {b b' : Broker} {r : CoapResource} {req : Request} {now : ℤ}
    {out : Output} (h : hndPutTopic b r req now = .ok (b', out)) : out.GoodCode := by
  rw [hndPutTopic.eq_def] at h
  split at h
  · cases h
    exact goodCode_respond 400 (by decide) _ _ _
  split at h
  · cases h
  split_ifs at h
  · cases h
    exact goodCode_respond 415 (by decide) _ _ _
  split at h
  · cases h
    exact goodCode_respond 404 (by decide) _ _ _
  dsimp only at h
  split at h
  · rcases hmark : markAndNotify _ _ _ _ with f | ⟨resources, observe, ns⟩ <;> rw [hmark] at h
    · cases h
    · cases h
      exact goodCode_respond 204 (by decide) _ _ _
  · cases h
    intro response heq
    obtain rfl := Option.some.inj heq
    exact .inl rfl

theorem goodCode_of_isResponseCode {response : Pdu} (h : IsResponseCode response.code)
    (mqtt : List MqttCall) : Output.GoodCode { response := some response, mqtt } := by
  intro response' heq
  obtain rfl := Option.some.inj heq
  exact .inr h

theorem goodCode_empty {out : Output} (h : out.response = none) : out.GoodCode :=
  fun response heq => by
  rw [h] at heq
  cases heq

theorem callHandler_goodCode {b b' : Broker} {r : CoapResource} {req : Request}
    {peer : CoapAddress} {token : List Byte} {now : ℤ} {handler : Handler} {out : Output}
    (h : callHandler b r req peer token now handler = .ok (b', out)) : out.GoodCode := by
  have hpost : (hndPost b r req now).map Prod.fst = .ok (b', out) → out.GoodCode := fun h => by
    obtain ⟨⟨⟨b₁, out₁⟩, slot⟩, hok, heq⟩ := map_eq_ok h
    cases heq
    exact hndPost_code hok
  cases handler with
  | hndPostBroker => exact hpost h
  | hndPostTopic => exact hpost h
  | hndGetTopic =>
    rw [callHandler] at h
    rcases hget : hndGetTopic b r peer token (some req) now with f | response <;> rw [hget] at h
    · cases h
    · cases h
      exact goodCode_of_isResponseCode (hndGetTopic_code hget) []
  | hndPutTopic => exact hndPutTopic_code h
  | hndDeleteTopic =>
    obtain rfl := (Prod.mk.inj (Except.ok.inj h)).2
    refine goodCode_of_isResponseCode ?_ _
    rw [Pdu.code_addData, Pdu.code_addOption, Pdu.code_setCode]
    split_ifs
    · decide
    · decide
  | hndGetBroker | hndDeleteBroker =>
    cases h
    exact goodCode_empty rfl
  | hndGetRd =>
    cases h
    exact goodCode_of_isResponseCode (by decide) []
  | hndPostRd => cases h

theorem request_goodCode {b b' : Broker} {uri : CStr} {method : Method} {req : Request}
    {peer : CoapAddress} {token : List Byte} {now : ℤ} {out : Output}
    (h : step b (.request uri method req peer token now) = .ok (b', out)) : out.GoodCode := by
  rw [step.eq_def] at h
  dsimp only at h
  split at h
  · cases h
    exact goodCode_respond 404 (by decide) _ _ _
  split at h
  · cases h
    exact goodCode_respond 405 (by decide) _ _ _
  · exact callHandler_goodCode h

/-- The broker as a program that libcoap serves. -/
def brokerServer (l : Lookup) (passes : Option (List Byte) → CoapResource → Bool) (now : ℤ)
    (junk : CStr → ℕ → Byte) : Server Broker Output where
  resources b := b.resources
  setResources b resources := { b with resources }
  lookup := l
  passes := passes
  call := brokerCall now junk
  call_code {s uri method incoming s' response out} h := by
    rw [brokerCall] at h
    obtain ⟨⟨b, out'⟩, hstep, heq⟩ := map_eq_ok h
    cases heq
    have hgood : out'.GoodCode := by
      split_ifs at hstep
      · rw [step] at hstep
        rcases hget : hndGetBroker s incoming.request incoming.block2 (discoveryRoom incoming.token)
          junk with f | pdu <;> rw [hget] at hstep
        · cases hstep
        · cases hstep
          exact goodCode_of_isResponseCode (hndGetBroker_code hget) []
      · exact request_goodCode hstep
    rcases hresponse : out'.response with _ | response
    · exact .inl rfl
    · exact hgood response hresponse

/-! ## The broker -/

/-- What happens at the socket, and in the main loop. -/
inductive EndpointEvent
  /-- A datagram arrives from a peer. What is read behind its end is `past`. -/
  | datagram (peer : CoapAddress) (msg : List Byte) (past : Byte) (now : ℤ)
    (junk : CStr → ℕ → Byte)
  /-- A confirmable notification waits for its acknowledgement, behind some of the messages that
      wait already. -/
  | waiting (place : ℕ) (sent : Sent)
  /-- A message from the bridge. -/
  | arrival (topicName : CStr) (payload : List Byte) (now : ℤ)
  /-- `topicDataMAMonitor`. -/
  | dataSweep (time : ℕ → ℤ)
  /-- `topicMAMonitor`. -/
  | topicSweep (time : ℕ → ℤ)

/-- The broker, and the messages that wait for their acknowledgements. -/
abbrev Endpoint := Broker × List Sent

/-- A step: the reply, if there is one, and what the handlers send. The handlers are those on
    values; what they do to memory is treated on its own (`CoapBroker.Parser.Bounds`,
    `CoapBroker.Broker.Allocation`, `CoapBroker.Cpp.Lifetime`). -/
def endpointStep (l : Lookup) (passes : Option (List Byte) → CoapResource → Bool) (s : Endpoint) :
    EndpointEvent → Except Fault (Endpoint × Option CoapPdu × List Output)
  | .datagram peer msg past now junk =>
    coapHandleMessage (brokerServer l passes now junk) past s peer msg
  | .waiting place sent => .ok ((s.1, putBehind s.2 place sent), none, [])
  | .arrival topicName payload now =>
    (step s.1 (.arrival topicName payload now)).map fun x => ((x.1, s.2), none, [x.2])
  | .dataSweep time => (step s.1 (.dataSweep time)).map fun x => ((x.1, s.2), none, [x.2])
  | .topicSweep time => (step s.1 (.topicSweep time)).map fun x => ((x.1, s.2), none, [x.2])

/-! ## The times of the messages -/

/-- The states the broker reaches when its messages wait with the times at which they are due. What
    a step does to them, events of the queue do. -/
inductive TimedReachable (l : Lookup) (passes : Option (List Byte) → CoapResource → Bool)
    (b₀ : Broker) : Broker → SendQueue → Prop
  | init : TimedReachable l passes b₀ b₀ {}
  | send {b : Broker} {q : SendQueue} (now : ℕ) (r : Byte) (sent : Sent) :
    TimedReachable l passes b₀ b q → TimedReachable l passes b₀ b (q.coapSendConfirmed now r sent)
  | step {b b' : Broker} {q : SendQueue} {e : EndpointEvent} {messages : List Sent}
    {o : Option CoapPdu × List Output} (now : ℕ) (es : List SendQueue.QueueEvent) :
    TimedReachable l passes b₀ b q → (∀ place sent, e ≠ .waiting place sent) →
    endpointStep l passes (b, q.messages) e = .ok ((b', messages), o) →
    (q.after now es).messages = messages → TimedReachable l passes b₀ b' (q.after now es)

section

variable {l : Lookup} {passes : Option (List Byte) → CoapResource → Bool} {b b₀ : Broker}
  {q : SendQueue}

/-- No step but that of a new message needs more than events of the queue. -/
theorem endpointStep_queue {s' : Endpoint} {e : EndpointEvent} {o : Option CoapPdu × List Output}
    (he : ∀ place sent, e ≠ .waiting place sent)
    (h : endpointStep l passes (b, q.messages) e = .ok (s', o)) (now : ℕ) :
    ∃ es, (q.after now es).messages = s'.2 := by
  cases e with
  | datagram peer msg past now' junk => exact SendQueue.coapHandleMessage_queue now h
  | waiting place sent => exact absurd rfl (he place sent)
  | arrival topicName payload now' =>
    obtain ⟨x, -, heq⟩ := map_eq_ok h
    cases heq
    exact ⟨[], rfl⟩
  | dataSweep time =>
    cases h
    exact ⟨[], rfl⟩
  | topicSweep time =>
    cases h
    exact ⟨[], rfl⟩

/-- So a step is always possible with the times, and leads to the same state. -/
theorem TimedReachable.next {b' : Broker} {messages : List Sent} {e : EndpointEvent}
    {o : Option CoapPdu × List Output} (h : TimedReachable l passes b₀ b q)
    (he : ∀ place sent, e ≠ .waiting place sent)
    (hstep : endpointStep l passes (b, q.messages) e = .ok ((b', messages), o)) :
    ∃ q', TimedReachable l passes b₀ b' q' ∧ q'.messages = messages := by
  obtain ⟨es, hes⟩ := endpointStep_queue he hstep 0
  exact ⟨_, h.step 0 es he hstep hes, hes⟩

/-- Without the times, the states are those of the endpoint. -/
theorem TimedReachable.forget (h : TimedReachable l passes b₀ b q) :
    Reachable (endpointStep l passes) (b₀, []) (b, q.messages) := by
  induction h with
  | init => exact .init
  | @send b q now r sent _ ih =>
    -- where the message waits is up to the times
    obtain ⟨place, hplace⟩ := SendQueue.messages_send q now r sent
    rw [hplace]
    exact ih.next (e := .waiting place sent) rfl
  | step now es _ _ hstep hmessages ih =>
    rw [hmessages]
    exact ih.next hstep

end

/-! ## Datagrams as steps -/

/-- What the handlers send, unless it is nothing. -/
def Output.isVisible (out : Output) : Bool := out ≠ {}

/-- Some steps of the broker. -/
abbrev Steps : Broker → List Output → Broker → Prop := Emits step Output.isVisible

section

variable {l : Lookup} {passes : Option (List Byte) → CoapResource → Bool} {past : Byte} {now : ℤ}
  {junk : CStr → ℕ → Byte} {b b' : Broker} {peer : CoapAddress} {pdu : CoapPdu}
  {reply : Option CoapPdu} {outs : List Output}

theorem steps_observe (uri : CStr) (peer : CoapAddress) (token : List Byte) :
    Steps b [] { b with resources := b.resources.changeObservers uri (·.addObserver peer token) } :=
  Emits.silent (e := .observe uri peer token) rfl rfl

theorem steps_unobserve (uri : CStr) (peer : CoapAddress) (token : List Byte) :
    Steps b []
      { b with resources := b.resources.changeObservers uri (·.deleteObserver peer token) } :=
  Emits.silent (e := .unobserve uri peer token) rfl rfl

theorem steps_applyObserve (l : Lookup) (passes : Option (List Byte) → CoapResource → Bool)
    (now : ℤ)
    (junk : CStr → ℕ → Byte) (uri : CStr) (peer : CoapAddress) (token : List Byte)
    (observe : Option (List Byte)) :
    Steps b [] (applyObserve (brokerServer l passes now junk) b uri peer token observe) := by
  rcases observe with _ | value
  · exact .refl
  · rw [applyObserve]
    by_cases h : coapDecodeVarBytes value &&& 1 = 0
    · simp only [if_pos h]
      exact steps_observe uri peer token
    · simp only [if_neg h]
      exact steps_unobserve uri peer token

theorem steps_brokerCall {uri : CStr} {method : Method} {incoming : Incoming} {response : Pdu}
    {out : Output} (h : brokerCall now junk b uri method incoming = .ok (b', response, out)) :
    Steps b ([out].filter Output.isVisible) b' := by
  obtain ⟨⟨b₁, out₁⟩, hstep, heq⟩ := map_eq_ok h
  cases heq
  exact Emits.single hstep

theorem steps_callHandlerOf {r : CoapResource} {method : Method}
    (h : callHandlerOf (brokerServer l passes now junk) past b peer pdu r method =
      .ok (b', reply, outs)) : Steps b (outs.filter Output.isVisible) b' := by
  rw [callHandlerOf] at h
  by_cases htoken : 8 < pdu.token.length
  · rw [if_pos htoken] at h
    cases h
    exact .refl
  rw [if_neg htoken] at h
  dsimp only at h
  generalize (if r.observable then pdu.optionValue past coapOptionObserve else none) = observe at h
  rcases hcall : (brokerServer l passes now junk).call (applyObserve (brokerServer l passes now junk)
    b r.uri peer pdu.token observe) r.uri method ⟨peer, pdu.token, pdu.request past,
      coapGetBlock (pdu.optionValue past coapOptionBlock2)⟩ with f | ⟨b₁, response, out⟩ <;>
    rw [hcall] at h
  · cases h
  dsimp only at h
  obtain ⟨built, -, heq⟩ := map_eq_ok h
  cases heq
  have hsteps := (steps_applyObserve l passes now junk r.uri peer pdu.token _).trans
    (steps_brokerCall hcall)
  rw [List.nil_append] at hsteps
  split_ifs
  · have hend := hsteps.trans (steps_unobserve r.uri peer pdu.token)
    rwa [List.append_nil] at hend
  · exact hsteps

theorem steps_handleRequest
    (h : handleRequest (brokerServer l passes now junk) past b peer pdu = .ok (b', reply, outs)) :
    Steps b (outs.filter Output.isVisible) b' := by
  rw [handleRequest.eq_def] at h
  split at h
  · obtain ⟨response, -, heq⟩ := map_eq_ok h
    cases heq
    exact .refl
  · split at h
    · exact steps_callHandlerOf h
    · obtain ⟨response, -, heq⟩ := map_eq_ok h
      cases heq
      exact .refl

theorem steps_passUp {s s' : Endpoint}
    (h : passUp (brokerServer l passes now junk) past s peer pdu = .ok (s', reply, outs)) :
    Steps s.1 (outs.filter Output.isVisible) s'.1 := by
  rw [passUp] at h
  split_ifs at h
  · obtain ⟨⟨b₁, reply', outs'⟩, hhandle, heq⟩ := map_eq_ok h
    cases heq
    exact steps_handleRequest hhandle
  · obtain ⟨response, -, heq⟩ := map_eq_ok h
    cases heq
    exact .refl
  · cases h
    exact .refl
  · obtain ⟨response, -, heq⟩ := map_eq_ok h
    cases heq
    exact .refl

/-- Taking an observer out of every resource, one resource after the other. -/
theorem steps_cancel (peer : CoapAddress) (token : List Byte) (done : List CoapResource)
    {rest : List CoapResource} (huris : Keyed.Distinct CoapResource.uri (done ++ rest))
    (hrest : ∀ r ∈ rest, r.observable = false → r.subscribers = []) :
    Steps { b with resources := done ++ rest } []
      { b with resources := done ++ rest.map fun r => r.deleteObserver peer token } := by
  induction rest generalizing done with
  | nil => exact .refl
  | cons r rest ih =>
    obtain ⟨hr, hrest⟩ := List.forall_mem_cons.1 hrest
    obtain ⟨subscribers, hdelete⟩ := r.deleteObserver_eq peer token
    have huri : (r.deleteObserver peer token).uri = r.uri := by rw [hdelete]
    have hnot : r.uri ∉ done.map CoapResource.uri := by
      rw [Keyed.Distinct, List.map_append, List.map_cons, List.nodup_append] at huris
      exact fun hmem => huris.2.2 _ hmem _ List.mem_cons_self rfl
    -- a resource that is not observable has no observers
    have hone : ResourceTable.changeObservers (done ++ r :: rest) r.uri
        (·.deleteObserver peer token) = done ++ r.deleteObserver peer token :: rest := by
      rw [ResourceTable.changeObservers, Keyed.modify_append_cons hnot rfl]
      by_cases hobs : r.observable = true
      · rw [if_pos hobs]
      · have hsame : r.deleteObserver peer token = r := by
          rw [CoapResource.deleteObserver, CoapResource.findObserver,
            hr (Bool.eq_false_iff.2 hobs)]
          rfl
        rw [if_neg hobs, hsame]
    have hstep := steps_unobserve (b := { b with resources := done ++ r :: rest }) r.uri peer token
    dsimp only at hstep
    rw [hone] at hstep
    have happend : ∀ x : CoapResource, done ++ x :: rest = (done ++ [x]) ++ rest := fun x => by
      rw [List.append_assoc, List.singleton_append]
    have hrun := ih (done ++ [r.deleteObserver peer token]) (by
      rw [← happend]
      rw [Keyed.Distinct, List.map_append, List.map_cons] at huris ⊢
      rwa [huri]) hrest
    rw [← happend, List.append_assoc, List.singleton_append] at hrun
    exact hstep.trans hrun

theorem Agreement.subscribers_eq_nil (hb : Agreement b) {r : CoapResource} (hr : r ∈ b.resources)
    (hobs : r.observable = false) : r.subscribers = [] := by
  rcases hb.resource r hr with htopic | rfl | rfl
  · rw [htopic.observable] at hobs
    cases hobs
  · rfl
  · rfl

theorem steps_coapDispatch (s s' : Endpoint) (hs : Agreement s.1)
    (h : coapDispatch (brokerServer l passes now junk) past s peer pdu = .ok (s', reply, outs)) :
    Steps s.1 (outs.filter Output.isVisible) s'.1 := by
  rw [coapDispatch] at h
  by_cases hack : pdu.type = coapMessageAck
  · rw [if_pos hack] at h
    by_cases h0 : pdu.code = 0
    · rw [if_pos h0] at h
      cases h
      exact .refl
    · rw [if_neg h0] at h
      exact steps_passUp h (s := (s.1, (coapRemoveFromQueue s.2 (coapTransactionId peer pdu.id)).1))
  rw [if_neg hack] at h
  by_cases hrst : pdu.type = coapMessageRst
  · rw [if_pos hrst] at h
    split at h
    · cases h
      -- a reset takes back the observation that the message was sent for
      exact @steps_cancel s.1 _ _ [] _ hs.uris fun r hr => hs.subscribers_eq_nil hr
    · cases h
      exact .refl
  rw [if_neg hrst] at h
  split_ifs at h
  · cases h
    exact .refl
  · exact steps_passUp h
  · obtain ⟨response, -, heq⟩ := map_eq_ok h
    cases heq
    exact .refl
  · exact steps_passUp h

theorem steps_endpointStep {s s' : Endpoint} {e : EndpointEvent} (hs : Agreement s.1)
    (h : endpointStep l passes s e = .ok (s', reply, outs)) :
    Steps s.1 (outs.filter Output.isVisible) s'.1 := by
  cases e with
  | datagram peer msg past now junk =>
    rcases coapHandleMessage_cases h with ⟨rfl, rfl, rfl⟩ | ⟨m, pdu, -, -, -, hdispatch⟩
    · exact .refl
    · exact steps_coapDispatch s s' hs hdispatch
  | waiting place sent =>
    cases h
    exact .refl
  | arrival topicName payload now =>
    obtain ⟨⟨b₁, out⟩, hstep, heq⟩ := map_eq_ok h
    cases heq
    exact Emits.single hstep
  | dataSweep time =>
    cases h
    exact Emits.single (e := .dataSweep time) rfl
  | topicSweep time =>
    cases h
    exact Emits.single (e := .topicSweep time) rfl

theorem Run.endpoint_steps {mqttBridge : Bool} {s : Endpoint}
    {tr : List (Transition Endpoint EndpointEvent (Option CoapPdu × List Output))}
    (h : Run (endpointStep l passes) (boot mqttBridge false, []) tr s) :
    Steps (boot mqttBridge false) ((tr.flatMap fun x => x.out.2).filter Output.isVisible) s.1 :=
  @Run.emits _ _ _ _ step Output.isVisible _ _ _ _ _ Prod.fst Prod.snd _ _ _ h
    fun _ _ _ _ hreach hstep => steps_endpointStep hreach.agreement hstep

/-- Whatever happens at the socket, the broker takes steps of the transition system, with the same
    responses, notifications and calls to the MQTT client; so its store and its table agree. -/
theorem datagrams_are_steps {mqttBridge : Bool} {s : Endpoint}
    {tr : List (Transition Endpoint EndpointEvent (Option CoapPdu × List Output))}
    (h : Run (endpointStep l passes) (boot mqttBridge false, []) tr s) :
    (∃ tr', Run step (boot mqttBridge false) tr' s.1 ∧
      (tr'.map Transition.out).filter Output.isVisible =
        (tr.flatMap fun x => x.out.2).filter Output.isVisible) ∧ Agreement s.1 := by
  have hsteps := h.endpoint_steps
  exact ⟨hsteps.run, (hsteps.reachable .init).agreement⟩

/-- A confirmable request that creates the topic `ps/x`. -/
def createDatagram : List Byte :=
  [0x41, 0x02, 0x12, 0x34, 0x07, 0xb2] ++ ascii "ps" ++ [0x11, 0x28, 0xff] ++ ascii "<x>;ct=0"

/-- The request arrives. -/
def createRun : Except Fault (List (Transition Endpoint EndpointEvent
    (Option CoapPdu × List Output)) × Endpoint) :=
  execTrace (endpointStep Lookup.latest fun _ _ => true) (boot true false, [])
    [.datagram [] createDatagram 0 5 fun _ _ => 0]

set_option maxRecDepth 4000 in
/-- The topic is created by steps of the transition system. -/
theorem datagrams_are_steps_create :
    ∃ x, createRun = .ok x ∧ (x.2.1.find (CStr.lit "ps/x")).isSome ∧
      (∃ tr', Run step (boot true false) tr' x.2.1 ∧
        (tr'.map Transition.out).filter Output.isVisible =
          (x.1.flatMap fun y => y.out.2).filter Output.isVisible) ∧ Agreement x.2.1 := by
  have hany : (createRun.toOption.any fun x =>
      decide ((x.2.1.find (CStr.lit "ps/x")).isSome = true)) = true := by
    decide
  obtain ⟨x, hx, hfind⟩ := exists_ok_of_any hany
  obtain ⟨hrun, -⟩ := Run.nil.of_execTrace hx
  exact ⟨x, hx, hfind, datagrams_are_steps hrun⟩

end

end CoapBroker
