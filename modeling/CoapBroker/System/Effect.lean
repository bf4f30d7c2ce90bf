import CoapBroker.System.Step
import CoapBroker.Store.Agreement

/-!
# What a step does

The broker keeps its topics twice: as records in the store and as resources in the table
of libcoap. They agree (`Agreement`) when paths and URIs are distinct, the paths are the
URIs of the resources that are topics, and every topic has a valid content format.

What a step can do to a state that agrees is said once (`Effect`, `step_effect`); all
properties of runs are derived from it.
-/

namespace CoapBroker

/-! ## Agreement -/

/-- A topic, as `hndPost` registers it. -/
structure IsTopic (r : CoapResource) : Prop where
  handler : r.handler = topicHandlers
  observable : r.observable = true
  ct : ∃ attr, r.findAttr ctName = some attr ∧ ctValueValid attr.value
  key : r.key = coapHashPath r.uri
  below : ascii "ps/" <+: r.uri.bytes
  chars : ∀ c ∈ r.uri.bytes, pathChar c

/-- A built-in resource. -/
def IsBuiltin (r : CoapResource) : Prop := r = rdResource ∨ r = brokerResource

/-- The store and the table agree. -/
def Agreement (b : Broker) : Prop :=
  TableAgreement IsTopic IsBuiltin b.topicDB.paths b.resources

theorem IsTopic.ctAttrValue {r : CoapResource} (h : IsTopic r) :
    ∃ attr, r.findAttr ctName = some attr ∧ ctAttrValue r = .ok (atoi attr.value) := by
  obtain ⟨attr, hattr, -⟩ := h.ct
  exact ⟨attr, hattr, by rw [CoapBroker.ctAttrValue, hattr]⟩

theorem IsBuiltin.not_isTopic {r : CoapResource} (h : IsBuiltin r) : ¬IsTopic r := by
  rintro ⟨hh, -⟩
  rcases h with rfl | rfl
  · exact absurd hh (by decide)
  · exact absurd hh (by decide)

theorem IsBuiltin.not_observable {r : CoapResource} (h : IsBuiltin r) : r.observable = false := by
  rcases h with rfl | rfl <;> rfl

/-- No built-in resource has a URI with a `/`. -/
theorem IsBuiltin.slash_notMem {r : CoapResource} (h : IsBuiltin r) :
    ('/' : Byte) ∉ r.uri.bytes := by
  rcases h with rfl | rfl <;> decide

/-- Observing changes nothing that makes a topic. -/
theorem IsTopic.withSubscribers {r : CoapResource} (h : IsTopic r)
    (subscribers : List CoapSubscription) : IsTopic { r with subscribers } :=
  ⟨h.handler, h.observable, h.ct, h.key, h.below, h.chars⟩

theorem Agreement.notifiable {b : Broker} (hb : Agreement b) :
    ∀ r ∈ b.resources, r.observable → r.handler.get.isSome ∧ (r.findAttr ctName).isSome := by
  intro r hr hobs
  rcases hb.resource r hr with htopic | hbuiltin
  · obtain ⟨attr, hattr, -⟩ := htopic.ct
    exact ⟨by rw [htopic.handler]; rfl, by rw [hattr]; rfl⟩
  · rw [hbuiltin.not_observable] at hobs
    exact absurd hobs Bool.false_ne_true

/-- A topic can be deleted. -/
theorem Agreement.deletable {b : Broker} (hb : Agreement b) {r : CoapResource}
    (hr : r ∈ b.resources) (htopic : IsTopic r) : Deletable b r where
  paths := hb.paths
  uris := hb.uris
  mem := hr
  path_mem := hb.mem_paths_of_isTopic hr htopic
  record := by
    intro x hx hinf
    rcases hb.resource x hx with hx' | hx'
    · exact hb.mem_paths_of_isTopic hx hx'
    · refine absurd (hinf.subset ?_) hx'.slash_notMem
      exact List.mem_append_right _ (List.mem_singleton_self _)
  registered := fun _ hu => hb.uri_mem hu

/-- What has a `/` in its URI has a record. -/
theorem Agreement.mem_uris_iff {b : Broker} (hb : Agreement b) {u : CStr}
    (hu : ('/' : Byte) ∈ u.bytes) : u ∈ b.uris ↔ u ∈ b.topicDB.paths := by
  refine ⟨fun h => ?_, fun h => hb.uri_mem h⟩
  obtain ⟨r, hr, rfl⟩ := List.mem_map.1 h
  rcases hb.resource r hr with htopic | hbuiltin
  · exact hb.mem_paths_of_isTopic hr htopic
  · exact absurd hu hbuiltin.slash_notMem

/-! ## New topics -/

/-- The resources topics are created below. -/
def IsParent (r : CoapResource) : Prop := r = brokerResource ∨ IsTopic r

theorem IsParent.below {r : CoapResource} (h : IsParent r) :
    ascii "ps/" <+: r.uri.bytes ++ [('/' : Byte)] := by
  rcases h with rfl | h
  · exact List.prefix_refl _
  · exact h.below.trans (List.prefix_append _ _)

theorem IsParent.chars {r : CoapResource} (h : IsParent r) : ∀ c ∈ r.uri.bytes, pathChar c := by
  rcases h with rfl | h
  · exact forall_mem_of_all (by decide)
  · exact h.chars

/-- The URI of a new topic. -/
theorem Creates.uri_eq {resource r : CoapResource} {request : Request}
    (h : Creates resource request r) :
    ∃ p, p ≠ [] ∧ (∀ c ∈ p, pathChar c) ∧
      r.uri.bytes = resource.uri.bytes ++ ('/' : Byte) :: p := by
  obtain ⟨-, ⟨p, attrs, ⟨s, ss, -, hp, -⟩, rfl⟩, -⟩ := h
  refine ⟨p, hp.ne_nil, hp.chars, ?_⟩
  rw [CoapResource.withAttrs_eq]
  exact hp.uri_resourceAt resource

/-- What is registered is a topic. -/
theorem Creates.isTopic {resource r : CoapResource} {request : Request}
    (h : Creates resource request r) (hparent : IsParent resource) : IsTopic (asTopic r) where
  handler := rfl
  observable := rfl
  ct := h.2.2
  key := by
    obtain ⟨-, ⟨p, attrs, -, rfl⟩, -⟩ := h
    rw [CoapResource.withAttrs_eq]
    rfl
  below := by
    obtain ⟨p, -, -, huri⟩ := h.uri_eq
    change ascii "ps/" <+: r.uri.bytes
    rw [huri, ← List.singleton_append, ← List.append_assoc]
    exact hparent.below.trans (List.prefix_append _ _)
  chars := by
    obtain ⟨p, -, hp, huri⟩ := h.uri_eq
    change ∀ c ∈ r.uri.bytes, pathChar c
    rw [huri]
    intro c hc
    rcases List.mem_append.1 hc with hc | hc
    · exact hparent.chars c hc
    · rcases List.mem_cons.1 hc with rfl | hc
      · decide
      · exact hp c hc

theorem Creates.dirty_eq {resource r : CoapResource} {request : Request}
    (h : Creates resource request r) : r.dirty = false := by
  obtain ⟨-, ⟨p, attrs, -, rfl⟩, -⟩ := h
  rw [CoapResource.withAttrs_eq]
  rfl

theorem Creates.length_pos {resource r : CoapResource} {request : Request}
    (h : Creates resource request r) : 0 < r.uri.length := by
  obtain ⟨p, -, -, huri⟩ := h.uri_eq
  rw [CStr.length, huri, List.length_append, List.length_cons]
  omega

/-! ## What a step does -/

/-- The event is neither a request that has created a topic nor one that has published. -/
def NoChange : Event → Output → Prop
  | .request _ .post _ _ _ _, out =>
    ∀ pdu, out.response = some pdu → pdu.code ≠ coapResponseCode 201
  | .request _ .put _ _ _ _, out => ∀ pdu, out.response = some pdu → pdu.code ≠ coapResponseCode 204
  | _, _ => True

/-- The effects of the steps. -/
inductive Effect (b : Broker) : Event → Broker → Output → Prop
  /-- Nothing but, perhaps, the number of the next notification has changed. -/
  | idle {e : Event} {out : Output} (observe : ℕ) (h : NoChange e out) :
    Effect b e { b with observe } out
  /-- The observers of a resource have changed. -/
  | observers {e : Event} {out : Output} (uri : CStr) (f : CoapResource → CoapResource)
    (hf : ∀ r, ∃ subscribers, f r = { r with subscribers }) (h : NoChange e out) :
    Effect b e { b with resources := b.resources.changeObservers uri f } out
  /-- The expiry of a topic has been renewed. -/
  | refreshed {uri : CStr} {req : Request} {peer : CoapAddress} {token : List Byte} {now : ℤ}
    {target r : CoapResource} (htarget : b.find uri = some target) (hparent : IsParent target)
    (hr : Creates target req r) (hmem : r.uri ∈ b.uris) :
    Effect b (.request uri .post req peer token now) (topicExists b r (topicExpiry req now)).1
      (topicExists b r (topicExpiry req now)).2
  /-- A topic has been created. -/
  | created {uri : CStr} {req : Request} {peer : CoapAddress} {token : List Byte} {now : ℤ}
    {target r : CoapResource} (htarget : b.find uri = some target) (hparent : IsParent target)
    (hr : Creates target req r) (hnot : r.uri ∉ b.uris) :
    Effect b (.request uri .post req peer token now) (topicCreated b r (topicExpiry req now)).1
      (topicCreated b r (topicExpiry req now)).2
  /-- Data has been published to a topic. -/
  | published {uri : CStr} {req : Request} {peer : CoapAddress} {token : List Byte} {now : ℤ}
    {target : CoapResource} {ct : ℤ} (observe : ℕ) (notifications : List Notification)
    (htarget : b.find uri = some target) (htopic : IsTopic target)
    (hct : ctAttrValue target = .ok ct)
    (hopt : req.firstOption coapOptionContentType = some (toUnsigned ct)) :
    Effect b (.request uri .put req peer token now)
      { b with
        topicDB := (b.topicDB.updateTopicData uri (dataExpiry req now) req.payload
          req.data.length).1
        earliestDataMaxAge := lowerEarliest b.earliestDataMaxAge (dataExpiry req now)
        observe }
      { response := some (({} : Pdu).respond 204)
        notifications
        mqtt := whenBridged b.mqttBridge (.publish uri req.data) }
  /-- A topic has been deleted, with those whose URI contains its own followed by `/`. -/
  | deleted {uri : CStr} {req : Request} {peer : CoapAddress} {token : List Byte} {now : ℤ}
    {target : CoapResource} {out : Output} (htarget : b.find uri = some target)
    (htopic : IsTopic target) :
    Effect b (.request uri .delete req peer token now)
      { b with
        topicDB := b.topicDB.filter fun t => ¬Deleted uri t.path
        resources := b.resources.filter fun r => ¬Deleted uri r.uri } out
  /-- The expired data has been cleared. -/
  | dataSwept (time : ℕ → ℤ) : Effect b (.dataSweep time) (topicDataMAMonitor b time) {}
  /-- The expired topics have been deleted. -/
  | topicSwept (time : ℕ → ℤ) :
    Effect b (.topicSweep time) (topicMAMonitor b time).1 (topicMAMonitor b time).2
  /-- A message from the bridge has changed the data of a topic. -/
  | arrived {topicName : CStr} {payload : List Byte} {now : ℤ} {r : CoapResource} {t : TopicData}
    (observe : ℕ) (notifications : List Notification) (hfind : b.find topicName = some r)
    (hclone : b.topicDB.cloneTopic topicName = some t) (hdata : t.data ≠ some (CStr.read payload)) :
    Effect b (.arrival topicName payload now)
      { b with
        topicDB := (b.topicDB.updateTopicData topicName 0 (some payload) payload.length).1
        observe }
      { notifications }

theorem Effect.refl {b : Broker} {e : Event} {out : Output} (h : NoChange e out) :
    Effect b e b out :=
  Effect.idle b.observe h

/-- A resource after a step is one from before, with other observers perhaps, or has just been
    created. -/
theorem Effect.mem_resources {b b' : Broker} {e : Event} {out : Output} (h : Effect b e b' out)
    (hb : Agreement b) {r : CoapResource} (hr : r ∈ b'.resources) :
    (∃ x ∈ b.resources, ∃ subscribers, r = { x with subscribers }) ∨
      ∃ target request x, Creates target request x ∧ r = asTopic x := by
  have hsame : r ∈ b.resources → ∃ x ∈ b.resources, ∃ subscribers, r = { x with subscribers } :=
    fun h => ⟨r, h, r.subscribers, rfl⟩
  cases h with
  | idle => exact .inl (hsame hr)
  | observers uri f hf =>
    obtain ⟨g, hg, heq⟩ := TableAgreement.changeObservers_eq_map hb.uris uri hf
    obtain ⟨x, hx, rfl⟩ := List.mem_map.1 (heq ▸ hr)
    obtain ⟨subscribers, hx', -⟩ := hg x
    exact .inl ⟨x, hx, subscribers, hx'⟩
  | refreshed => exact .inl (hsame hr)
  | created _ _ hnew =>
    rcases List.mem_append.1 hr with hr | hr
    · exact .inl (hsame hr)
    · exact .inr ⟨_, _, _, hnew, List.mem_singleton.1 hr⟩
  | published => exact .inl (hsame hr)
  | deleted => exact .inl (hsame (List.mem_filter.1 hr).1)
  | dataSwept time =>
    rw [topicDataMAMonitor_eq hb.paths] at hr
    split_ifs at hr
    · exact .inl (hsame hr)
    · exact .inl (hsame hr)
  | topicSwept time =>
    rw [topicMAMonitor_eq hb.paths hb.uris fun u hu => hb.uri_mem hu] at hr
    split_ifs at hr
    · exact .inl (hsame hr)
    · exact .inl (hsame (List.mem_filter.1 hr).1)
  | arrived => exact .inl (hsame hr)

/-- The registered resource a request is dispatched to. -/
theorem Broker.find_spec {b : Broker} {uri : CStr} {r : CoapResource} (h : b.find uri = some r) :
    r ∈ b.resources ∧ r.uri = uri :=
  ⟨Keyed.mem_of_find h, Keyed.key_of_find h⟩

/-- A request to publish to a topic goes to `hnd_put_topic`. -/
theorem step_put {b : Broker} {uri : CStr} {r : CoapResource} (hfind : b.find uri = some r)
    (htopic : IsTopic r) (req : Request) (peer : CoapAddress) (token : List Byte) (now : ℤ) :
    step b (.request uri .put req peer token now) = hndPutTopic b r req now := by
  rw [step, hfind]
  dsimp only
  rw [htopic.handler]
  rfl

/-- A request to read a topic goes to `hnd_get_topic`. -/
theorem step_get {b : Broker} {uri : CStr} {r : CoapResource} (hfind : b.find uri = some r)
    (htopic : IsTopic r) (req : Request) (peer : CoapAddress) (token : List Byte) (now : ℤ) :
    step b (.request uri .get req peer token now) =
      (hndGetTopic b r peer token (some req) now).map fun response => (b, { response }) := by
  rw [step, hfind]
  dsimp only
  rw [htopic.handler]
  change callHandler b r req peer token now .hndGetTopic = _
  rw [callHandler]
  rcases hndGetTopic b r peer token (some req) now with f | response <;> rfl

/-- A request to create a topic below a resource goes to one of the handlers with the body of
    `hndPost`. -/
theorem step_post {b : Broker} {uri : CStr} {target : CoapResource}
    (hfind : b.find uri = some target) (hparent : IsParent target) (req : Request)
    (peer : CoapAddress) (token : List Byte) (now : ℤ) :
    step b (.request uri .post req peer token now) = (hndPost b target req now).map Prod.fst := by
  rw [step, hfind]
  rcases hparent with rfl | htopic
  · rfl
  · dsimp only
    rw [htopic.handler]
    rfl

/-- A request to create a topic is refused, renews the expiry of a topic, or creates one. -/
theorem step_post_cases {b b' : Broker} (hb : Agreement b) {uri : CStr} {req : Request}
    {peer : CoapAddress} {token : List Byte} {now : ℤ} {out : Output}
    (h : step b (.request uri .post req peer token now) = .ok (b', out)) :
    (b' = b ∧ out.code ≠ some (coapResponseCode 201) ∧ out.code ≠ some (coapResponseCode 403)) ∨
    ∃ target r, b.find uri = some target ∧ IsParent target ∧ Creates target req r ∧
      (r.uri ∈ b.uris ∧ (b', out) = topicExists b r (topicExpiry req now) ∨
        r.uri ∉ b.uris ∧ (b', out) = topicCreated b r (topicExpiry req now)) := by
  rcases hfind : b.find uri with _ | target
  · rw [step, hfind] at h
    cases h
    exact .inl ⟨rfl, by decide, by decide⟩
  by_cases hparent : IsParent target
  · rw [step_post hfind hparent] at h
    rcases hp : hndPost b target req now with f | ⟨⟨b₁, out₁⟩, slot⟩ <;> rw [hp] at h <;> cases h
    rcases hndPost_cases hp with ⟨rfl, pdu, rfl, hcode⟩ | ⟨r, hr, hout⟩
    · refine .inl ⟨rfl, ?_⟩
      rcases hcode with hcode | hcode <;> rw [Output.code, Option.map_some, hcode] <;> decide
    · exact .inr ⟨target, r, rfl, hparent, hr, hout⟩
  · -- the resource directory
    rcases hb.resource target (Broker.find_spec hfind).1 with htopic | rfl | rfl
    · exact absurd (.inr htopic) hparent
    · rw [step, hfind] at h
      cases h
    · exact absurd (.inl rfl) hparent

/-- A request to read changes nothing. -/
theorem step_get_eq {b b' : Broker} (hb : Agreement b) {uri : CStr} {req : Request}
    {peer : CoapAddress} {token : List Byte} {now : ℤ} {out : Output}
    (h : step b (.request uri .get req peer token now) = .ok (b', out)) : b' = b := by
  rcases hfind : b.find uri with _ | r
  · rw [step, hfind] at h
    cases h
    rfl
  rcases hb.resource r (Broker.find_spec hfind).1 with htopic | rfl | rfl
  · rw [step_get hfind htopic] at h
    rcases hget : hndGetTopic b r peer token (some req) now with f | pdu <;> rw [hget] at h
    · cases h
    · cases h
      rfl
  · rw [step, hfind] at h
    cases h
    rfl
  · rw [step, hfind] at h
    cases h
    rfl

/-- A request to publish is refused, or stores its data in the record of a topic. -/
theorem step_put_cases {b b' : Broker} (hb : Agreement b) {uri : CStr} {req : Request}
    {peer : CoapAddress} {token : List Byte} {now : ℤ} {out : Output}
    (h : step b (.request uri .put req peer token now) = .ok (b', out)) :
    (b' = b ∧ out.code ≠ some (coapResponseCode 204)) ∨
    ∃ target ct t observe notifications, b.find uri = some target ∧ IsTopic target ∧
      ctAttrValue target = .ok ct ∧
      req.firstOption coapOptionContentType = some (toUnsigned ct) ∧
      b.topicDB.getTopic uri = some t ∧
      b' = { b with
        topicDB := (b.topicDB.updateTopicData uri (dataExpiry req now) req.payload
          req.data.length).1
        earliestDataMaxAge := lowerEarliest b.earliestDataMaxAge (dataExpiry req now)
        observe } ∧
      out = {
        response := some (({} : Pdu).respond 204)
        notifications
        mqtt := whenBridged b.mqttBridge (.publish uri req.data) } := by
  rcases hfind : b.find uri with _ | target
  · rw [step, hfind] at h
    cases h
    exact .inl ⟨rfl, by decide⟩
  obtain ⟨hr, rfl⟩ := Broker.find_spec hfind
  -- only topics have a handler for it
  rcases hb.resource target hr with htopic | rfl | rfl
  · rw [step_put hfind htopic] at h
    rcases hndPutTopic_cases hb.clean h with
      ⟨rfl, pdu, rfl, hcode⟩ | ⟨ct, observe, ns, hct, hopt, hclone, rfl, rfl⟩
    · exact .inl ⟨rfl, fun heq => hcode (Option.some.inj heq)⟩
    · obtain ⟨t, ht⟩ := Option.isSome_iff_exists.1 hclone
      exact .inr ⟨target, ct, t, observe, ns, rfl, htopic, hct, hopt, ht, rfl, rfl⟩
  · rw [step, hfind] at h
    cases h
    exact .inl ⟨rfl, by decide⟩
  · rw [step, hfind] at h
    cases h
    exact .inl ⟨rfl, by decide⟩

/-- A request to delete changes nothing, or is for a topic. -/
theorem step_delete_cases {b b' : Broker} (hb : Agreement b) {uri : CStr} {req : Request}
    {peer : CoapAddress} {token : List Byte} {now : ℤ} {out : Output}
    (h : step b (.request uri .delete req peer token now) = .ok (b', out)) :
    b' = b ∨ ∃ target, b.find uri = some target ∧ IsTopic target ∧
      b' = { b with
        topicDB := b.topicDB.filter fun t => ¬Deleted uri t.path
        resources := b.resources.filter fun r => ¬Deleted uri r.uri } := by
  rcases hfind : b.find uri with _ | target
  · rw [step, hfind] at h
    cases h
    exact .inl rfl
  obtain ⟨hr, rfl⟩ := Broker.find_spec hfind
  rcases hb.resource target hr with htopic | rfl | rfl
  · rw [step, hfind] at h
    dsimp only at h
    rw [htopic.handler] at h
    change callHandler b target req peer token now .hndDeleteTopic = _ at h
    rw [callHandler, (hb.deletable hr htopic).hndDeleteTopic_eq] at h
    cases h
    exact .inr ⟨target, rfl, htopic, rfl⟩
  · rw [step, hfind] at h
    cases h
    exact .inl rfl
  · rw [step, hfind] at h
    cases h
    exact .inl rfl

theorem Output.code_ne {out : Output} {code : ℕ} (h : out.code ≠ some code) :
    ∀ pdu, out.response = some pdu → pdu.code ≠ code := by
  intro pdu hpdu heq
  rw [Output.code, hpdu, Option.map_some, heq] at h
  exact h rfl

/-- Every step from a state that agrees has one of the effects. -/
theorem step_effect {b b' : Broker} {e : Event} {out : Output} (hb : Agreement b)
    (h : step b e = .ok (b', out)) : Effect b e b' out := by
  cases e with
  | request uri method req peer token now =>
    cases method with
    | get =>
      cases step_get_eq hb h
      exact .refl trivial
    | post =>
      rcases step_post_cases hb h with
        ⟨rfl, hcode, -⟩ | ⟨target, r, hfind, hparent, hr, ⟨hmem, heq⟩ | ⟨hnot, heq⟩⟩
      · exact .refl (Output.code_ne hcode)
      · cases heq
        exact .refreshed hfind hparent hr hmem
      · cases heq
        exact .created hfind hparent hr hnot
    | put =>
      rcases step_put_cases hb h with
        ⟨rfl, hcode⟩ | ⟨target, ct, t, observe, ns, hfind, htopic, hct, hopt, -, rfl, rfl⟩
      · exact .refl (Output.code_ne hcode)
      · exact .published observe ns hfind htopic hct hopt
    | delete =>
      rcases step_delete_cases hb h with rfl | ⟨target, hfind, htopic, rfl⟩
      · exact .refl trivial
      · exact .deleted hfind htopic
  | discover req block2 room junk =>
    rw [step] at h
    rcases hget : hndGetBroker b req block2 room junk with f | pdu <;> rw [hget] at h
    · cases h
    · cases h
      exact .refl trivial
  | observe uri peer token =>
    cases h
    exact .observers uri _ (fun r => r.addObserver_eq peer token) trivial
  | unobserve uri peer token =>
    cases h
    exact .observers uri _ (fun r => r.deleteObserver_eq peer token) trivial
  | arrival topicName payload now =>
    rw [step] at h
    rcases harr : msgarrvd b topicName payload now with f | ⟨b₁, out₁, found⟩ <;> rw [harr] at h
    · cases h
    · cases h
      rcases msgarrvd_cases hb.clean harr with
        ⟨rfl, -, -⟩ | ⟨r, t, observe, ns, hfind, hclone, hdata, rfl, rfl⟩
      · exact .refl trivial
      · exact .arrived observe ns hfind ((Broker.find_spec hfind).2 ▸ hclone) hdata
  | dataSweep time =>
    cases h
    exact .dataSwept time
  | topicSweep time =>
    rw [step, Except.ok.injEq] at h
    obtain rfl : b' = (topicMAMonitor b time).1 := by rw [h]
    obtain rfl : out = (topicMAMonitor b time).2 := by rw [h]
    exact .topicSwept time

end CoapBroker
