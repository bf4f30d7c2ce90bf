import CoapBroker.Lib.Latch
import CoapBroker.System.Datagrams

/-!
# Who observes a topic

The history of the datagrams tells who observes a topic (`observers_of_history`): the peers whose
last request for it with an option `Observe` asked for that and was not answered with an error, and
that have not reset a notification since. Nothing else ends an observation while the topic is there:
neither silence, nor publishing, nor what other peers ask for.
-/

namespace CoapBroker

/-! ## Observers of a resource -/

section

variable (r : CoapResource) (peer : CoapAddress) (token : List Byte)

theorem CoapResource.findObserver_eq : r.findObserver peer token =
    if (⟨peer, token⟩ : CoapSubscription) ∈ r.subscribers then some ⟨peer, token⟩ else none := by
  have hpred : (fun s : CoapSubscription => decide (s.subscriber = peer ∧ s.token = token)) =
      fun s => decide (s = ⟨peer, token⟩) := by
    funext s
    obtain ⟨subscriber, token'⟩ := s
    rw [decide_eq_decide, CoapSubscription.mk.injEq]
  rw [findObserver, hpred]
  split_ifs with hmem
  · rw [List.find?_eq_some_iff_append]
    obtain ⟨l, l', hl, hnot⟩ := List.eq_append_cons_of_mem hmem
    exact ⟨decide_eq_true rfl, l, l', hl, fun s hs => by
      rw [Bool.not_eq_true', decide_eq_false_iff_not]
      exact ne_of_mem_of_not_mem hs hnot⟩
  · rw [List.find?_eq_none]
    exact fun s hs heq => hmem (of_decide_eq_true heq ▸ hs)

theorem CoapResource.subscribers_addObserver :
    (r.addObserver peer token).subscribers = r.subscribers.insert ⟨peer, token⟩ := by
  rw [addObserver, findObserver_eq]
  by_cases hmem : (⟨peer, token⟩ : CoapSubscription) ∈ r.subscribers
  · rw [if_pos hmem, List.insert_of_mem hmem]
    rfl
  · rw [if_neg hmem, if_neg (by exact Bool.false_ne_true), List.insert_of_not_mem hmem]

theorem CoapResource.subscribers_deleteObserver :
    (r.deleteObserver peer token).subscribers = r.subscribers.erase ⟨peer, token⟩ := by
  rw [deleteObserver, findObserver_eq]
  by_cases hmem : (⟨peer, token⟩ : CoapSubscription) ∈ r.subscribers
  · rw [if_pos hmem]
  · rw [if_neg hmem, List.erase_of_not_mem hmem]

end

/-- No observer is subscribed twice. -/
def ObservedOnce (t : ResourceTable) : Prop := ∀ r ∈ t, r.subscribers.Nodup

/-- A peer observes a resource of a table with a token. -/
def ResourceTable.Observes (t : ResourceTable) (uri : CStr) (peer : CoapAddress)
    (token : List Byte) : Prop :=
  ∃ r ∈ t, r.uri = uri ∧ (⟨peer, token⟩ : CoapSubscription) ∈ r.subscribers

instance (t : ResourceTable) (uri : CStr) (peer : CoapAddress) (token : List Byte) :
    Decidable (t.Observes uri peer token) :=
  inferInstanceAs (Decidable (∃ r ∈ t, r.uri = uri ∧ _))

section

variable {t : ResourceTable} {uri u : CStr} {peer p : CoapAddress} {token k : List Byte}

theorem ResourceTable.Observes.uri_mem (h : t.Observes uri peer token) : uri ∈ t.uris := by
  obtain ⟨r, hr, rfl, -⟩ := h
  exact List.mem_map_of_mem hr

theorem observes_map {g : CoapResource → CoapResource} (hg : ∀ r, (g r).uri = r.uri) :
    ResourceTable.Observes (t.map g) uri peer token ↔
      ∃ r ∈ t, r.uri = uri ∧ (⟨peer, token⟩ : CoapSubscription) ∈ (g r).subscribers := by
  simp only [ResourceTable.Observes, List.mem_map, exists_exists_and_eq_and, hg]

theorem uri_addObserver (r : CoapResource) : (r.addObserver p k).uri = r.uri := by
  obtain ⟨s, hs⟩ := r.addObserver_eq p k
  rw [hs]

theorem uri_deleteObserver (r : CoapResource) : (r.deleteObserver p k).uri = r.uri := by
  obtain ⟨s, hs⟩ := r.deleteObserver_eq p k
  rw [hs]

/-- Changing the observers of a resource, all resources at once. -/
theorem changeObservers_eq (ht : Keyed.Distinct CoapResource.uri t)
    (f : CoapResource → CoapResource) : t.changeObservers u f =
      t.map fun r => if r.uri = u ∧ r.observable = true then f r else r := by
  rw [ResourceTable.changeObservers, Keyed.modify_eq_map ht]
  refine List.map_congr_left fun r _ => ?_
  rw [ite_and]

theorem uris_changeObservers (ht : Keyed.Distinct CoapResource.uri t)
    {f : CoapResource → CoapResource} (hf : ∀ r, (f r).uri = r.uri) :
    (t.changeObservers u f).uris = t.uris := by
  rw [changeObservers_eq ht, ResourceTable.uris, ResourceTable.uris, List.map_map]
  refine List.map_congr_left fun r _ => ?_
  rw [Function.comp_apply]
  split_ifs
  · exact hf r
  · rfl

/-- An observer is added, the others stay. -/
theorem observes_addObserver (ht : Keyed.Distinct CoapResource.uri t) :
    (t.changeObservers u (·.addObserver p k)).Observes uri peer token ↔
      t.Observes uri peer token ∨
        (p = peer ∧ k = token ∧ u = uri) ∧ ∃ r ∈ t, r.uri = u ∧ r.observable = true := by
  rw [changeObservers_eq ht, observes_map]
  · constructor
    · rintro ⟨r, hr, rfl, hmem⟩
      split_ifs at hmem with hu
      · rw [r.subscribers_addObserver, List.mem_insert_iff] at hmem
        rcases hmem with heq | hmem
        · cases heq
          exact .inr ⟨⟨rfl, rfl, hu.1.symm⟩, r, hr, hu⟩
        · exact .inl ⟨r, hr, rfl, hmem⟩
      · exact .inl ⟨r, hr, rfl, hmem⟩
    · rintro (⟨r, hr, huri, hmem⟩ | ⟨⟨rfl, rfl, rfl⟩, r, hr, hu⟩)
      · refine ⟨r, hr, huri, ?_⟩
        split_ifs
        · rw [r.subscribers_addObserver]
          exact List.mem_insert_of_mem hmem
        · exact hmem
      · refine ⟨r, hr, hu.1, ?_⟩
        rw [if_pos hu, r.subscribers_addObserver]
        exact List.mem_insert_self
  · intro r
    split_ifs
    · exact uri_addObserver r
    · rfl

/-- An observer is taken out, the others stay. -/
theorem observes_deleteObserver (ht : Keyed.Distinct CoapResource.uri t) (honce : ObservedOnce t)
    (hobs : ∀ r ∈ t, r.observable = false → r.subscribers = []) :
    (t.changeObservers u (·.deleteObserver p k)).Observes uri peer token ↔
      t.Observes uri peer token ∧ ¬(p = peer ∧ k = token ∧ u = uri) := by
  rw [changeObservers_eq ht, observes_map]
  · constructor
    · rintro ⟨r, hr, rfl, hmem⟩
      split_ifs at hmem with hu
      · rw [r.subscribers_deleteObserver, (honce r hr).mem_erase_iff] at hmem
        refine ⟨⟨r, hr, rfl, hmem.2⟩, fun heq => hmem.1 ?_⟩
        rw [heq.1, heq.2.1]
      · refine ⟨⟨r, hr, rfl, hmem⟩, fun heq => ?_⟩
        -- a resource that is not observable has no observers
        have hnil := hobs r hr (Bool.eq_false_iff.2 fun h => hu ⟨heq.2.2.symm, h⟩)
        rw [hnil] at hmem
        exact absurd hmem List.not_mem_nil
    · rintro ⟨⟨r, hr, rfl, hmem⟩, hne⟩
      refine ⟨r, hr, rfl, ?_⟩
      split_ifs with hu
      · rw [r.subscribers_deleteObserver, (honce r hr).mem_erase_iff]
        refine ⟨fun heq => hne ?_, hmem⟩
        cases heq
        exact ⟨rfl, rfl, hu.1.symm⟩
      · exact hmem
  · intro r
    split_ifs
    · exact uri_deleteObserver r
    · rfl

/-- An observer is taken out everywhere. -/
theorem observes_deleteObserver_all (honce : ObservedOnce t) :
    ResourceTable.Observes (t.map fun r => r.deleteObserver p k) uri peer token ↔
      t.Observes uri peer token ∧ ¬(p = peer ∧ k = token) := by
  rw [observes_map uri_deleteObserver]
  constructor
  · rintro ⟨r, hr, rfl, hmem⟩
    rw [r.subscribers_deleteObserver, (honce r hr).mem_erase_iff] at hmem
    refine ⟨⟨r, hr, rfl, hmem.2⟩, fun heq => hmem.1 ?_⟩
    rw [heq.1, heq.2]
  · rintro ⟨⟨r, hr, rfl, hmem⟩, hne⟩
    refine ⟨r, hr, rfl, ?_⟩
    rw [r.subscribers_deleteObserver, (honce r hr).mem_erase_iff]
    refine ⟨fun heq => hne ?_, hmem⟩
    cases heq
    exact ⟨rfl, rfl⟩

end

/-! ## What the broker does to observers -/

/-- The resources that are there before and after are the same, and new ones have no observers. -/
structure KeepsObservers (b b' : Broker) : Prop where
  old : ∀ r ∈ b'.resources, r ∈ b.resources ∨ r.subscribers = []
  kept : ∀ r ∈ b.resources, r.uri ∈ b'.uris → r ∈ b'.resources

namespace KeepsObservers

variable {b b' : Broker}

theorem of_eq (h : b'.resources = b.resources) : KeepsObservers b b' :=
  ⟨fun _ hr => .inl (h ▸ hr), fun _ hr _ => h ▸ hr⟩

theorem of_filter (p : CStr → Bool) (h : b'.resources = b.resources.filter fun r => p r.uri) :
    KeepsObservers b b' := by
  constructor
  · exact fun r hr => .inl (List.mem_of_mem_filter (h ▸ hr))
  · intro r hr huri
    rw [Broker.uris, h] at huri
    obtain ⟨x, hx, heq⟩ := List.mem_map.1 huri
    rw [h, List.mem_filter]
    exact ⟨hr, heq ▸ (List.mem_filter.1 hx).2⟩

theorem of_add {r : CoapResource} (hr : r.subscribers = [])
    (h : b'.resources = b.resources.add r) : KeepsObservers b b' := by
  constructor
  · intro x hx
    rw [h, ResourceTable.add, List.mem_append, List.mem_singleton] at hx
    rcases hx with hx | rfl
    · exact .inl hx
    · exact .inr hr
  · intro x hx _
    rw [h]
    exact List.mem_append_left _ hx

/-- So a resource that is still there is observed as before. -/
theorem observes_iff (h : KeepsObservers b b') {uri : CStr} {peer : CoapAddress}
    {token : List Byte} : b'.resources.Observes uri peer token ↔
      uri ∈ b'.uris ∧ b.resources.Observes uri peer token := by
  constructor
  · intro hobs
    refine ⟨hobs.uri_mem, ?_⟩
    obtain ⟨r, hr, huri, hmem⟩ := hobs
    rcases h.old r hr with hr | hnil
    · exact ⟨r, hr, huri, hmem⟩
    · rw [hnil] at hmem
      exact absurd hmem List.not_mem_nil
  · rintro ⟨huri, r, hr, rfl, hmem⟩
    exact ⟨r, h.kept r hr huri, rfl, hmem⟩

theorem observedOnce (h : KeepsObservers b b') (hb : ObservedOnce b.resources) :
    ObservedOnce b'.resources := by
  intro r hr
  rcases h.old r hr with hr | hnil
  · exact hb r hr
  · rw [hnil]
    exact List.nodup_nil

end KeepsObservers

theorem Creates.subscribers_eq {resource r : CoapResource} {request : Request}
    (h : Creates resource request r) : r.subscribers = [] := by
  obtain ⟨-, ⟨p, attrs, -, rfl⟩, -⟩ := h
  rw [CoapResource.withAttrs_eq]
  rfl

/-- An event that is about observers. -/
def Event.isObserve : Event → Bool
  | .observe .. | .unobserve .. => true
  | _ => false

/-- All other events leave the observers alone. -/
theorem step_keepsObservers {b b' : Broker} {e : Event} {out : Output} (hb : Agreement b)
    (he : e.isObserve = false) (h : step b e = .ok (b', out)) : KeepsObservers b b' := by
  cases e with
  | request uri method req peer token now =>
    cases method with
    | get => exact .of_eq (by rw [step_get_eq hb h])
    | post =>
      rcases step_post_cases hb h with
        ⟨rfl, -⟩ | ⟨target, r, -, -, hr, ⟨-, heq⟩ | ⟨-, heq⟩⟩
      · exact .of_eq rfl
      · cases heq
        exact .of_eq rfl
      · cases heq
        -- a topic starts without subscribers
        exact .of_add (r := asTopic r) hr.subscribers_eq rfl
    | put =>
      rcases step_put_cases hb h with ⟨rfl, -⟩ | ⟨target, ct, t, observe, ns, -, -, -, -, -, rfl, -⟩
      · exact .of_eq rfl
      · exact .of_eq rfl
    | delete =>
      rcases step_delete_cases hb h with rfl | ⟨target, -, -, rfl⟩
      · exact .of_eq rfl
      · exact .of_filter (fun u => ¬Deleted uri u) rfl
  | discover req block2 room junk =>
    rw [step] at h
    rcases hget : hndGetBroker b req block2 room junk with f | pdu <;> rw [hget] at h
    · cases h
    · cases h
      exact .of_eq rfl
  | observe uri peer token => cases he
  | unobserve uri peer token => cases he
  | arrival topicName payload now =>
    rw [step] at h
    rcases harr : msgarrvd b topicName payload now with f | ⟨b₁, out₁, found⟩ <;> rw [harr] at h
    · cases h
    · cases h
      rcases msgarrvd_cases hb.clean harr with ⟨rfl, -⟩ | ⟨r, t, observe, ns, -, -, -, rfl, -⟩
      · exact .of_eq rfl
      · exact .of_eq rfl
  | dataSweep time =>
    cases h
    rw [topicDataMAMonitor_eq hb.paths]
    split_ifs
    · exact .of_eq rfl
    · exact .of_eq rfl
  | topicSweep time =>
    rw [step, Except.ok.injEq, topicMAMonitor_eq hb.paths hb.uris fun u hu => hb.uri_mem hu] at h
    split_ifs at h
    · cases h
      exact .of_eq rfl
    · cases h
      exact .of_filter (fun u => u ∉ expiredPaths TopicData.topicMa time 0 b.topicDB) rfl

/-- Changing the observers of a resource keeps each of them once. -/
theorem ObservedOnce.changeObservers {t : ResourceTable} (h : ObservedOnce t)
    (ht : Keyed.Distinct CoapResource.uri t) (uri : CStr) {f : CoapResource → CoapResource}
    (hf : ∀ r, r.subscribers.Nodup → (f r).subscribers.Nodup) :
    ObservedOnce (t.changeObservers uri f) := by
  intro x hx
  rw [changeObservers_eq ht] at hx
  obtain ⟨r, hr, rfl⟩ := List.mem_map.1 hx
  split_ifs
  · exact hf r (h r hr)
  · exact h r hr

theorem nodup_addObserver {r : CoapResource} (h : r.subscribers.Nodup) (peer : CoapAddress)
    (token : List Byte) : (r.addObserver peer token).subscribers.Nodup := by
  rw [r.subscribers_addObserver]
  exact h.insert

theorem nodup_deleteObserver {r : CoapResource} (h : r.subscribers.Nodup) (peer : CoapAddress)
    (token : List Byte) : (r.deleteObserver peer token).subscribers.Nodup := by
  rw [r.subscribers_deleteObserver]
  exact h.erase _

/-- In every reachable state, no observer is subscribed twice. -/
theorem Reachable.observedOnce {mqttBridge rdServer : Bool} {b : Broker}
    (h : Reachable step (boot mqttBridge rdServer) b) : ObservedOnce b.resources := by
  suffices hall : Agreement b ∧ ObservedOnce b.resources from hall.2
  refine h.invariant (P := fun b => Agreement b ∧ ObservedOnce b.resources) ?_ ?_
  · refine ⟨agreement_boot mqttBridge rdServer, fun r hr => ?_⟩
    rcases isBuiltin_of_mem_boot hr with rfl | rfl
    · exact List.nodup_nil
    · exact List.nodup_nil
  · rintro b e out b' ⟨hb, honce⟩ hs
    refine ⟨(step_effect hb hs).agreement hb, ?_⟩
    cases e with
    | observe uri peer token =>
      cases hs
      exact honce.changeObservers hb.uris uri fun r hr => nodup_addObserver hr peer token
    | unobserve uri peer token =>
      cases hs
      exact honce.changeObservers hb.uris uri fun r hr => nodup_deleteObserver hr peer token
    | _ => exact (step_keepsObservers hb rfl hs).observedOnce honce

/-! ## Who observes -/

/-- A response that leaves the observation in place that the request asks for. -/
def keepsObserver (past : Byte) (pdu : CoapPdu) (out : Output) : Bool :=
  noResponse past pdu (out.response.getD {}).code = .drop ∨
    coapResponseClass (out.response.getD {}).code ≤ 2

/-- What a request, handed to a handler of a resource, does to the observation of another by a peer
    with a token: it begins (`true`) or ends (`false`), or it is left as it is. -/
def requestObservation (past : Byte) (sender : CoapAddress) (pdu : CoapPdu) (r : CoapResource)
    (outs : List Output) (uri : CStr) (peer : CoapAddress) (token : List Byte) : Option Bool :=
  if sender = peer ∧ pdu.token = token ∧ r.uri = uri then
    (if r.observable then pdu.optionValue past coapOptionObserve else none).map fun value =>
      coapDecodeVarBytes value &&& 1 = 0 ∧ outs.all (keepsObserver past pdu)
  else none

/-- What a step does to the observation of a resource by a peer with a token. -/
def observation (l : Lookup) (passes : Option (List Byte) → CoapResource → Bool) (uri : CStr)
    (peer : CoapAddress) (token : List Byte)
    (x : Transition Endpoint EndpointEvent (Option CoapPdu × List Output)) : Option Bool :=
  match x.ev with
  | .datagram sender msg past now junk =>
    (messageOf past msg).bind fun pdu =>
      if pdu.type = coapMessageRst then
        -- it is for the first waiting message of the transaction
        (coapRemoveFromQueue x.src.2 (coapTransactionId sender pdu.id)).2.bind fun sent =>
          if sent.remote = peer ∧ sent.token = token then some false else none
      else
        (handlerFor (brokerServer l passes now junk) past x.src.1 pdu).bind fun called =>
          requestObservation past sender pdu called.1 x.out.2 uri peer token
  | _ => none

section

variable {l : Lookup} {passes : Option (List Byte) → CoapResource → Bool} {past : Byte} {now : ℤ}
  {junk : CStr → ℕ → Byte} {b b' : Broker} {sender peer : CoapAddress} {pdu : CoapPdu}
  {uri : CStr} {token : List Byte} {reply : Option CoapPdu} {outs : List Output}

/-- Calling a handler is a step that is not about observers. -/
theorem brokerCall_step {u : CStr} {method : Method} {incoming : Incoming} {response : Pdu}
    {out : Output} (h : brokerCall now junk b u method incoming = .ok (b', response, out)) :
    ∃ e, e.isObserve = false ∧ step b e = .ok (b', out) ∧ response = out.response.getD {} := by
  obtain ⟨⟨b₁, out₁⟩, hstep, heq⟩ := map_eq_ok h
  cases heq
  refine ⟨_, ?_, hstep, rfl⟩
  split_ifs <;> rfl

theorem Agreement.withObservers (hb : Agreement b) (u : CStr) {f : CoapResource → CoapResource}
    (hf : ∀ r, ∃ subscribers, f r = { r with subscribers }) :
    Agreement { b with resources := b.resources.changeObservers u f } :=
  hb.changeObservers u hf (fun _ s hr => hr.withSubscribers s) fun _ hr => hr.not_observable

/-- What is asked for by a request, before the handler is called. -/
theorem observes_applyObserve (hb : Agreement b) (honce : ObservedOnce b.resources)
    {r : CoapResource} (hr : r ∈ b.resources) (hobs : r.observable = true) (k value : List Byte) :
    let b₀ := applyObserve (brokerServer l passes now junk) b r.uri sender k (some value)
    (Agreement b₀ ∧ ObservedOnce b₀.resources) ∧ (b₀.resources.Observes uri peer token ↔
      if sender = peer ∧ k = token ∧ r.uri = uri then coapDecodeVarBytes value &&& 1 = 0
      else b.resources.Observes uri peer token) := by
  intro b₀
  by_cases heven : coapDecodeVarBytes value &&& 1 = 0
  · have hb₀ : b₀ = { b with
        resources := b.resources.changeObservers r.uri (·.addObserver sender k) } := by
      dsimp only [b₀, applyObserve]
      simp only [if_pos heven]
      rfl
    rw [hb₀]
    refine ⟨⟨hb.withObservers _ fun r => r.addObserver_eq _ _,
      honce.changeObservers hb.uris _ fun r hr => nodup_addObserver hr _ _⟩, ?_⟩
    rw [observes_addObserver hb.uris]
    split_ifs with hmine
    · exact iff_of_true (.inr ⟨hmine, r, hr, rfl, hobs⟩) heven
    · simp [hmine]
  · have hb₀ : b₀ = { b with
        resources := b.resources.changeObservers r.uri (·.deleteObserver sender k) } := by
      dsimp only [b₀, applyObserve]
      simp only [if_neg heven]
      rfl
    rw [hb₀]
    refine ⟨⟨hb.withObservers _ fun r => r.deleteObserver_eq _ _,
      honce.changeObservers hb.uris _ fun r hr => nodup_deleteObserver hr _ _⟩, ?_⟩
    rw [observes_deleteObserver hb.uris honce fun r hr => hb.subscribers_eq_nil hr]
    split_ifs with hmine
    · exact iff_of_false (fun h => h.2 hmine) heven
    · simp [hmine]

/-- The handler is called for a resource after the observation has been asked for, and an error
    takes it back. -/
theorem observes_callHandlerOf (hb : Agreement b) (honce : ObservedOnce b.resources)
    {r : CoapResource} {method : Method} (hr : r ∈ b.resources) (htoken : pdu.token.length ≤ 8)
    (h : callHandlerOf (brokerServer l passes now junk) past b sender pdu r method =
      .ok (b', reply, outs)) :
    b'.resources.Observes uri peer token ↔ uri ∈ b'.uris ∧
      (requestObservation past sender pdu r outs uri peer token = some true ∨
        requestObservation past sender pdu r outs uri peer token = none ∧
          b.resources.Observes uri peer token) := by
  rw [callHandlerOf, if_neg (not_lt.2 htoken)] at h
  dsimp only at h
  rw [requestObservation]
  rcases hobserve : (if r.observable then pdu.optionValue past coapOptionObserve else none)
    with _ | value <;> rw [hobserve] at h
  · -- the request is not about observing
    rcases hcall : (brokerServer l passes now junk).call _ r.uri method _ with f | ⟨b₁, response, out⟩ <;>
      rw [hcall] at h
    · cases h
    dsimp only at h
    obtain ⟨built, -, heq⟩ := map_eq_ok h
    cases heq
    obtain ⟨e, he, hstep, -⟩ := brokerCall_step hcall
    rw [if_neg (by rintro ⟨-, h, -⟩; cases h), (step_keepsObservers hb he hstep).observes_iff]
    simp
  have hobs : r.observable = true := by
    by_contra hnot
    rw [if_neg hnot] at hobserve
    cases hobserve
  obtain ⟨⟨hb₀, honce₀⟩, hobs₀⟩ := @observes_applyObserve l passes now junk b sender peer uri token
    hb honce r hr hobs pdu.token value
  rcases hcall : (brokerServer l passes now junk).call _ r.uri method _ with f | ⟨b₁, response, out⟩ <;>
    rw [hcall] at h
  · cases h
  dsimp only at h
  obtain ⟨built, -, heq⟩ := map_eq_ok h
  cases heq
  obtain ⟨e, he, hstep, rfl⟩ := brokerCall_step hcall
  have hb₁ := (step_effect hb₀ hstep).agreement hb₀
  have hkeeps := step_keepsObservers hb₀ he hstep
  have hobs₁ := @KeepsObservers.observes_iff _ _ hkeeps uri peer token
  rw [hobs₀] at hobs₁
  have hall : ([out].all (keepsObserver past pdu) = true) ↔
      ¬(noResponse past pdu (out.response.getD {}).code ≠ .drop ∧ (some value).isSome = true ∧
        2 < coapResponseClass (out.response.getD {}).code) := by
    rw [List.all_cons, List.all_nil, Bool.and_true, keepsObserver, decide_eq_true_eq,
      Option.isSome_some]
    simp only [ne_eq, true_and, not_and, not_lt]
    tauto
  rw [Option.map_some]
  by_cases herror : noResponse past pdu (out.response.getD {}).code ≠ .drop ∧
      (some value).isSome = true ∧ 2 < coapResponseClass (out.response.getD {}).code
  · -- an error takes back what has been asked for
    rw [if_pos herror]
    have huris : (b₁.resources.changeObservers r.uri (·.deleteObserver sender pdu.token)).uris =
        b₁.uris := uris_changeObservers hb₁.uris fun r => uri_deleteObserver r
    have hall : [out].all (keepsObserver past pdu) = false :=
      Bool.eq_false_iff.2 fun h => hall.1 h herror
    change (b₁.resources.changeObservers r.uri (·.deleteObserver sender pdu.token)).Observes
      uri peer token ↔ uri ∈ (b₁.resources.changeObservers r.uri _).uris ∧ _
    rw [huris, observes_deleteObserver hb₁.uris (hkeeps.observedOnce honce₀)
      fun r hr => hb₁.subscribers_eq_nil hr, hobs₁, hall]
    by_cases hmine : sender = peer ∧ pdu.token = token ∧ r.uri = uri
    · simp [hmine]
    · simp [hmine]
  · rw [if_neg herror, hobs₁, hall.2 herror]
    by_cases hmine : sender = peer ∧ pdu.token = token ∧ r.uri = uri
    · simp [hmine]
    · simp [hmine]

theorem handlerFor_spec {b : Broker} {r : CoapResource} {method : Method}
    (h : handlerFor (brokerServer l passes now junk) past b pdu = some (r, method)) :
    r ∈ b.resources ∧ (r.handler.of method).isSome := by
  rw [handlerFor] at h
  split_ifs at h
  obtain ⟨x, hx, h⟩ := Option.bind_eq_some_iff.1 h
  obtain ⟨method', hmethod, heq⟩ := Option.map_eq_some_iff.1 h
  cases heq
  exact ⟨(l.sound hx).1, (Option.filter_eq_some_iff.1 hmethod).2⟩

/-- What a step does to an observation. -/
theorem observes_endpointStep {s s' : Endpoint} {e : EndpointEvent}
    {out : Option CoapPdu × List Output} (hs : Agreement s.1) (honce : ObservedOnce s.1.resources)
    (h : endpointStep l passes s e = .ok (s', out)) :
    s'.1.resources.Observes uri peer token ↔ uri ∈ s'.1.uris ∧
      (observation l passes uri peer token ⟨s, e, out, s'⟩ = some true ∨
        observation l passes uri peer token ⟨s, e, out, s'⟩ = none ∧
          s.1.resources.Observes uri peer token) := by
  -- an event that is not about observers
  have hkept : ∀ b : Broker, KeepsObservers s.1 b →
      (b.resources.Observes uri peer token ↔ uri ∈ b.uris ∧
        ((none : Option Bool) = some true ∨ (none : Option Bool) = none ∧
          s.1.resources.Observes uri peer token)) := by
    intro b hb
    rw [hb.observes_iff]
    simp
  have hstep : ∀ {e : Event} {b : Broker} {out : Output}, e.isObserve = false →
      step s.1 e = .ok (b, out) → KeepsObservers s.1 b :=
    fun he h => step_keepsObservers hs he h
  cases e with
  | datagram sender msg past now junk =>
    dsimp only [observation]
    rcases coapHandleMessage_eq h with ⟨hnone, rfl⟩ | ⟨pdu, hpdu, htoken, hdispatch⟩
    · rw [hnone]
      exact hkept _ (.of_eq rfl)
    rw [hpdu, Option.bind_some]
    rcases coapDispatch_handler hdispatch with ⟨r, method, hrst, hfor, hcall⟩ |
      ⟨sent, hrst, hsent, heq⟩ | ⟨heq, hfor, hrst⟩
    · rw [if_neg hrst, hfor, Option.bind_some]
      exact observes_callHandlerOf hs honce (handlerFor_spec hfor).1 htoken hcall
    · have huris : s'.1.uris = s.1.uris := by
        rw [heq]
        change (s.1.resources.map _).map _ = _
        rw [List.map_map]
        exact List.map_congr_left fun r _ => uri_deleteObserver r
      rw [if_pos hrst, hsent, Option.bind_some, huris, heq]
      change ResourceTable.Observes (s.1.resources.map fun r => r.deleteObserver sent.remote
        sent.token) uri peer token ↔ _
      rw [observes_deleteObserver_all honce]
      split_ifs with hmine
      · simp [hmine]
      · simp only [hmine, not_false_eq_true, and_true, true_and]
        exact ⟨fun h => ⟨h.uri_mem, .inr h⟩, fun h => h.2.resolve_left id⟩
    · by_cases hreset : pdu.type = coapMessageRst
      · rw [if_pos hreset, hrst hreset]
        exact hkept _ (.of_eq (congrArg Broker.resources heq))
      · rw [if_neg hreset, hfor]
        exact hkept _ (.of_eq (congrArg Broker.resources heq))
  | waiting place sent =>
    cases h
    exact hkept _ (.of_eq rfl)
  | arrival topicName payload now =>
    obtain ⟨⟨b₁, out₁⟩, hstep', heq⟩ := map_eq_ok h
    cases heq
    exact hkept _ (hstep rfl hstep')
  | dataSweep time =>
    cases h
    exact hkept _ (hstep (e := .dataSweep time) rfl rfl)
  | topicSweep time =>
    cases h
    exact hkept _ (hstep (e := .topicSweep time) rfl rfl)

/-- A peer observes a topic exactly if some datagram has made it an observer, and none has ended
    that since, while the topic has been there; and nobody observes a topic twice. -/
theorem observers_of_history {mqttBridge : Bool} {s : Endpoint}
    {tr : List (Transition Endpoint EndpointEvent (Option CoapPdu × List Output))}
    (h : Run (endpointStep l passes) (boot mqttBridge false, []) tr s) :
    (∀ uri peer token, s.1.resources.Observes uri peer token ↔
      HappenedSince
        (fun x => observation l passes uri peer token x = some true ∧ uri ∈ x.dst.1.uris)
        (fun x => observation l passes uri peer token x = some false ∨ uri ∉ x.dst.1.uris) tr) ∧
    ObservedOnce s.1.resources := by
  refine ⟨fun uri peer token => ?_, (h.endpoint_steps.reachable .init).observedOnce⟩
  refine h.latch_iff (I := fun s => Reachable step (boot mqttBridge false) s.1)
    (P := fun s => s.1.resources.Observes uri peer token) .init ?_ ?_
  · rintro ⟨r, hr, -, hmem⟩
    rw [List.mem_singleton.1 hr] at hmem
    exact absurd hmem List.not_mem_nil
  · intro s e out s' hreach hstep
    refine ⟨(steps_endpointStep hreach.agreement hstep).reachable hreach, ?_⟩
    rw [observes_endpointStep hreach.agreement hreach.observedOnce hstep]
    rcases observation l passes uri peer token ⟨s, e, out, s'⟩ with _ | _ | _
    · simp
    · simp
    · simp only [true_or, and_true, true_and]
      exact ⟨.inl, fun h => h.elim id fun h => not_not.1 (not_or.1 h.1).2⟩

/-- A request to observe the topic `ps/x`. -/
def observeDatagram : List Byte :=
  [0x41, 0x01, 0x12, 0x35, 0x09, 0x60, 0x52] ++ ascii "ps" ++ [0x01] ++ ascii "x" ++ [0x10]

/-- The topic is created by one peer, and observed by another. -/
def observeRun : Except Fault (List (Transition Endpoint EndpointEvent
    (Option CoapPdu × List Output)) × Endpoint) :=
  execTrace (endpointStep Lookup.latest fun _ _ => true) (boot true false, [])
    [.datagram [1] createDatagram 0 5 fun _ _ => 0, .datagram [2] observeDatagram 0 6 fun _ _ => 0]

set_option maxRecDepth 8000 in
theorem observers_of_history_two :
    ∃ x, observeRun = .ok x ∧ x.2.1.resources.Observes (CStr.lit "ps/x") [2] [9] ∧
      HappenedSince
        (fun y => observation Lookup.latest (fun _ _ => true) (CStr.lit "ps/x") [2] [9] y =
          some true ∧ CStr.lit "ps/x" ∈ y.dst.1.uris)
        (fun y => observation Lookup.latest (fun _ _ => true) (CStr.lit "ps/x") [2] [9] y =
          some false ∨ CStr.lit "ps/x" ∉ y.dst.1.uris) x.1 := by
  have hany : (observeRun.toOption.any fun x =>
      decide (x.2.1.resources.Observes (CStr.lit "ps/x") [2] [9])) = true := by decide
  obtain ⟨x, hx, hobs⟩ := exists_ok_of_any hany
  obtain ⟨hrun, -⟩ := Run.nil.of_execTrace hx
  exact ⟨x, hx, hobs, ((observers_of_history hrun).1 _ _ _).1 hobs⟩

end

end CoapBroker
