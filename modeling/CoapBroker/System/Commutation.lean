import CoapBroker.System.Publishing

/-!
# Requests for different topics

A request to create a topic or to publish to one does something to the record and the resource
of that topic and lowers one of the two earliest expiries; what it does depends on the state
only through the resource it is addressed to and through the presence of its topic
(`Change`, `TopicRequest.change`). Such changes commute when their topics differ, up to the
order of the entries (`Change.apply_comm`), and so do the requests (`requests_commute`).
-/

namespace CoapBroker

/-! ## What should hold -/

/-- A request to create a topic below the broker or a topic, with a payload that is accepted, or
    to publish. The resource it is addressed to exists. -/
inductive TopicRequest (b : Broker) : Event → CStr → Prop
  | post {uri : CStr} {req : Request} {peer : CoapAddress} {token : List Byte} {now : ℤ}
    {target r : CoapResource} (htarget : b.find uri = some target)
    (hpost : target.handler.post = some .hndPostBroker ∨
      target.handler.post = some .hndPostTopic)
    (hparse : parseLinkFormat (CStr.read req.data) target = .ok (.live r, true)) :
    TopicRequest b (.request uri .post req peer token now) r.uri
  | put {uri : CStr} {req : Request} {peer : CoapAddress} {token : List Byte} {now : ℤ}
    {target : CoapResource} (htarget : b.find uri = some target) :
    TopicRequest b (.request uri .put req peer token now) uri

/-- The same state, up to the order of the records and the resources. -/
structure SameUpToOrder (b b' : Broker) : Prop where
  topicDB : b.topicDB.Perm b'.topicDB
  resources : b.resources.Perm b'.resources
  earliestTopicMaxAge : b.earliestTopicMaxAge = b'.earliestTopicMaxAge
  earliestDataMaxAge : b.earliestDataMaxAge = b'.earliestDataMaxAge
  mqttBridge : b.mqttBridge = b'.mqttBridge
  observe : b.observe = b'.observe

theorem SameUpToOrder.refl (b : Broker) : SameUpToOrder b b :=
  ⟨.refl _, .refl _, rfl, rfl, rfl, rfl⟩

theorem SameUpToOrder.symm {b b' : Broker} (h : SameUpToOrder b b') : SameUpToOrder b' b :=
  ⟨h.topicDB.symm, h.resources.symm, h.earliestTopicMaxAge.symm, h.earliestDataMaxAge.symm,
    h.mqttBridge.symm, h.observe.symm⟩

theorem lowerEarliest_comm (earliest abs abs' : ℤ) :
    lowerEarliest (lowerEarliest earliest abs) abs' =
      lowerEarliest (lowerEarliest earliest abs') abs := by
  simp only [lowerEarliest]
  split_ifs <;> omega

/-! ## Changes -/

/-- What a request does to a state. -/
inductive Change
  /-- Nothing: the request is answered with the code. -/
  | nothing (code : ℕ)
  /-- A topic is created, or its expiry is renewed. -/
  | topic (r : CoapResource) (hr : ('/' : Byte) ∈ r.uri.bytes) (topicMa : ℤ)
  /-- Data is published to a topic. -/
  | data (uri : CStr) (req : Request) (now : ℤ)

namespace Change

/-- The topic a change is about. -/
def On (u : CStr) : Change → Prop
  | nothing _ => True
  | topic r _ _ => r.uri = u
  | data uri _ _ => uri = u

/-- The state after a change. -/
def apply (b : Broker) : Change → Broker
  | nothing _ => b
  | topic r _ topicMa =>
    if r.uri ∈ b.uris then (topicExists b r topicMa).1 else (topicCreated b r topicMa).1
  | data uri req now => { b with
      topicDB := (b.topicDB.updateTopicData uri (dataExpiry req now) req.payload
        req.data.length).1
      earliestDataMaxAge := lowerEarliest b.earliestDataMaxAge (dataExpiry req now)
      observe := b.observe + 1 }

/-- The code of the response. -/
def code (b : Broker) : Change → ℕ
  | nothing code => coapResponseCode code
  | topic r _ _ => coapResponseCode (if r.uri ∈ b.uris then 403 else 201)
  | data _ _ _ => coapResponseCode 204

/-- The records after a topic has been created or renewed. -/
theorem topicDB_topic {b : Broker} (hb : Agreement b) (r : CoapResource)
    (hr : ('/' : Byte) ∈ r.uri.bytes) (topicMa : ℤ) :
    ((topic r hr topicMa).apply b).topicDB = Keyed.upsert TopicData.path r.uri
      (fun t => { t with data := TopicDB.normData t.data, topicMa })
      { path := r.uri, data := none, topicMa, dataMa := 0 } b.topicDB := by
  rw [apply, Keyed.upsert]
  by_cases hmem : r.uri ∈ b.uris
  · rw [if_pos hmem, if_pos (by exact (hb.mem_uris_iff hr).1 hmem)]
    exact TopicDB.updateTopicInfo_fst topicMa
  · have hnot : r.uri ∉ b.topicDB.paths := fun h => hmem ((hb.mem_uris_iff hr).2 h)
    rw [if_neg hmem, if_neg (by exact hnot), topicCreated,
      TopicDB.addTopicWEC_of_notMem hnot (List.length_pos_of_mem hr)]

/-- The resources after it. -/
theorem resources_topic (b : Broker) (r : CoapResource) (hr : ('/' : Byte) ∈ r.uri.bytes)
    (topicMa : ℤ) :
    ((topic r hr topicMa).apply b).resources =
      Keyed.upsert CoapResource.uri r.uri id (asTopic r) b.resources := by
  rw [apply, Keyed.upsert, Keyed.modify_id]
  by_cases hmem : r.uri ∈ b.uris
  · rw [if_pos hmem, if_pos (by exact hmem)]
    rfl
  · rw [if_neg hmem, if_neg (by exact hmem)]
    rfl

/-- What else changes with it. -/
theorem rest_topic (b : Broker) (r : CoapResource) (hr : ('/' : Byte) ∈ r.uri.bytes) (topicMa : ℤ) :
    ((topic r hr topicMa).apply b).earliestTopicMaxAge =
        lowerEarliest b.earliestTopicMaxAge topicMa ∧
      ((topic r hr topicMa).apply b).earliestDataMaxAge = b.earliestDataMaxAge ∧
      ((topic r hr topicMa).apply b).mqttBridge = b.mqttBridge ∧
      ((topic r hr topicMa).apply b).observe = b.observe := by
  rw [apply]
  split_ifs <;> exact ⟨rfl, rfl, rfl, rfl⟩

/-- The records after data has been published. -/
theorem topicDB_data (b : Broker) (uri : CStr) (req : Request) (now : ℤ) :
    ((data uri req now).apply b).topicDB = Keyed.modify TopicData.path uri
      (fun t => { t with data := publishedData req, dataMa := dataExpiry req now }) b.topicDB :=
  TopicDB.updateTopicData_fst (dataExpiry req now) req.payload req.data.length

/-- A change at one topic leaves alone which other resources there are. -/
theorem mem_uris_apply (b : Broker) {c : Change} {u v : CStr} (hc : c.On u) (hne : v ≠ u) :
    v ∈ (c.apply b).uris ↔ v ∈ b.uris := by
  cases c with
  | nothing code => rfl
  | topic r hr topicMa =>
    have huri : r.uri = u := hc
    rw [Broker.uris, resources_topic, Keyed.mem_keys_upsert (f := id) (by rfl) fun _ => rfl,
      huri]
    exact or_iff_left hne
  | data uri req now => rfl

/-- What a change answers does not depend on changes at other topics. -/
theorem code_apply (b : Broker) {c c' : Change} {u v : CStr} (hc : c.On u) (hc' : c'.On v)
    (hne : v ≠ u) : c'.code (c.apply b) = c'.code b := by
  cases c' with
  | nothing code => rfl
  | topic r hr topicMa =>
    have huri : r.uri = v := hc'
    have hmem := mem_uris_apply b hc (huri ▸ hne)
    by_cases h : r.uri ∈ b.uris
    · rw [code, code, if_pos h, if_pos (hmem.2 h)]
    · rw [code, code, if_neg h, if_neg fun h' => h (hmem.1 h')]
  | data uri req now => rfl

/-- No change takes a resource away. -/
theorem find_apply {b : Broker} {c : Change} {uri : CStr} {r : CoapResource}
    (h : b.find uri = some r) : (c.apply b).find uri = some r := by
  cases c with
  | nothing code => exact h
  | topic x hx topicMa =>
    rw [apply]
    split_ifs with hmem
    · exact h
    · have hkey : uri ∈ b.resources.map CoapResource.uri := Keyed.find_isSome.1 (by
        rw [← Broker.find, h]
        rfl)
      exact (Keyed.find_append_of_mem hkey).trans h
  | data u req now => exact h

/-- Creating or renewing a topic, and publishing to another one. -/
theorem apply_comm_topic_data {b : Broker} (hb : Agreement b) {r : CoapResource}
    {hr : ('/' : Byte) ∈ r.uri.bytes} {topicMa : ℤ} {uri : CStr} {req : Request} {now : ℤ}
    (hne : uri ≠ r.uri) (hcb : Agreement ((data uri req now).apply b)) :
    SameUpToOrder ((data uri req now).apply ((topic r hr topicMa).apply b))
      ((topic r hr topicMa).apply ((data uri req now).apply b)) := by
  obtain ⟨hearliest, hdata, hmqtt, hobserve⟩ := rest_topic b r hr topicMa
  obtain ⟨hearliest', hdata', hmqtt', hobserve'⟩ :=
    rest_topic ((data uri req now).apply b) r hr topicMa
  constructor
  · rw [topicDB_data, topicDB_topic hb, topicDB_topic hcb, topicDB_data]
    exact .of_eq (Keyed.modify_upsert_comm hne (by rfl) (by exact fun _ => rfl)
      (by exact fun _ => rfl))
  · change ((topic r hr topicMa).apply b).resources.Perm _
    rw [resources_topic, resources_topic]
    rfl
  · exact hearliest.trans hearliest'.symm
  · rw [hdata']
    exact congrArg (fun earliest => lowerEarliest earliest (dataExpiry req now)) hdata
  · exact hmqtt.trans hmqtt'.symm
  · rw [hobserve']
    exact congrArg (· + 1) hobserve

/-- Creating or renewing two topics. -/
theorem apply_comm_topic_topic {b : Broker} (hb : Agreement b) {r r' : CoapResource}
    {hr : ('/' : Byte) ∈ r.uri.bytes} {hr' : ('/' : Byte) ∈ r'.uri.bytes} {topicMa topicMa' : ℤ}
    (hne : r'.uri ≠ r.uri) (hcb : Agreement ((topic r hr topicMa).apply b))
    (hcb' : Agreement ((topic r' hr' topicMa').apply b)) :
    SameUpToOrder ((topic r' hr' topicMa').apply ((topic r hr topicMa).apply b))
      ((topic r hr topicMa).apply ((topic r' hr' topicMa').apply b)) := by
  obtain ⟨hearliest, hdata, hmqtt, hobserve⟩ := rest_topic b r hr topicMa
  obtain ⟨hearliest', hdata', hmqtt', hobserve'⟩ := rest_topic b r' hr' topicMa'
  obtain ⟨h1, h2, h3, h4⟩ := rest_topic ((topic r hr topicMa).apply b) r' hr' topicMa'
  obtain ⟨h1', h2', h3', h4'⟩ := rest_topic ((topic r' hr' topicMa').apply b) r hr topicMa
  constructor
  · rw [topicDB_topic hcb, topicDB_topic hb, topicDB_topic hcb', topicDB_topic hb]
    exact Keyed.upsert_comm hne (by rfl) (by rfl) (by exact fun _ => rfl) (by exact fun _ => rfl)
  · rw [resources_topic, resources_topic, resources_topic, resources_topic]
    exact Keyed.upsert_comm hne (by rfl) (by rfl) (by exact fun _ => rfl) (by exact fun _ => rfl)
  · rw [h1, h1', hearliest, hearliest']
    exact lowerEarliest_comm _ _ _
  · rw [h2, h2', hdata, hdata']
  · rw [h3, h3', hmqtt, hmqtt']
  · rw [h4, h4', hobserve, hobserve']

/-- Publishing to two topics. -/
theorem apply_comm_data_data (b : Broker) {uri uri' : CStr} (req req' : Request) (now now' : ℤ)
    (hne : uri' ≠ uri) :
    SameUpToOrder ((data uri' req' now').apply ((data uri req now).apply b))
      ((data uri req now).apply ((data uri' req' now').apply b)) := by
  constructor
  · rw [topicDB_data, topicDB_data, topicDB_data, topicDB_data]
    exact .of_eq (Keyed.modify_comm hne (by exact fun _ => rfl) (by exact fun _ => rfl))
  · rfl
  · rfl
  · exact lowerEarliest_comm _ _ _
  · rfl
  · rfl

/-- Changes at different topics commute. -/
theorem apply_comm {b : Broker} (hb : Agreement b) {c c' : Change} {u v : CStr} (hc : c.On u)
    (hc' : c'.On v) (hne : u ≠ v) (hcb : Agreement (c.apply b)) (hcb' : Agreement (c'.apply b)) :
    SameUpToOrder (c'.apply (c.apply b)) (c.apply (c'.apply b)) := by
  cases c with
  | nothing code => exact .refl _
  | topic r hr topicMa =>
    have huri : r.uri = u := hc
    cases c' with
    | nothing code => exact .refl _
    | topic r' hr' topicMa' =>
      have huri' : r'.uri = v := hc'
      exact apply_comm_topic_topic hb (fun h => hne (huri.symm.trans (h.symm.trans huri'))) hcb hcb'
    | data uri req now =>
      have huri' : uri = v := hc'
      exact apply_comm_topic_data hb (fun h => hne (huri.symm.trans (h.symm.trans huri'))) hcb'
  | data uri req now =>
    have huri : uri = u := hc
    cases c' with
    | nothing code => exact .refl _
    | topic r' hr' topicMa' =>
      have huri' : r'.uri = v := hc'
      exact (apply_comm_topic_data hb (fun h => hne (huri.symm.trans (h.trans huri'))) hcb).symm
    | data uri' req' now' =>
      have huri' : uri' = v := hc'
      exact apply_comm_data_data b req req' now now'
        fun h => hne (huri.symm.trans (h.symm.trans huri'))

end Change

/-! ## The requests -/

/-- A request to create a topic is a change of that topic. -/
theorem hndPost_change {target r : CoapResource} {req : Request}
    (hparse : parseLinkFormat (CStr.read req.data) target = .ok (.live r, true)) (now : ℤ) :
    ∃ c : Change, c.On r.uri ∧ ∀ b : Broker, ∃ out,
      (hndPost b target req now).map Prod.fst = .ok (c.apply b, out) ∧
        out.code = some (c.code b) := by
  by_cases hcf : IsLinkFormat req
  swap
  · refine ⟨.nothing 400, trivial, fun b => ⟨(malformed b).2, ?_, rfl⟩⟩
    rw [hndPost_of_not_isLinkFormat hcf hparse]
    rfl
  have hpost : ∀ b, hndPost b target req now = _ := fun b => hndPost_of_accepted hcf hparse
  rcases hattr : r.findAttr ctName with _ | attr
  · refine ⟨.nothing 400, trivial, fun b => ⟨(malformed b).2, ?_, rfl⟩⟩
    rw [hpost, hattr]
    rfl
  by_cases hct : ctValueValid attr.value
  swap
  · refine ⟨.nothing 406, trivial,
      fun b => ⟨{ response := some (({} : Pdu).respond 406) }, ?_, rfl⟩⟩
    rw [hpost, hattr]
    dsimp only
    rw [if_pos hct]
    rfl
  -- the request goes through, and what it does depends on whether the topic exists
  have hcreates : Creates target req r := by
    refine ⟨hcf, ?_, attr, hattr, hct⟩
    rcases parseLinkFormat_cases (CStr.read req.data) target with
      ⟨p, attrs, htext, heq⟩ | ⟨-, heq | ⟨p, attrs, heq⟩⟩
    · rw [hparse] at heq
      cases heq
      exact ⟨p, attrs, htext, rfl⟩
    · rw [hparse] at heq
      cases heq
    · rw [hparse] at heq
      cases heq
  obtain ⟨p, -, -, huri⟩ := hcreates.uri_eq
  have hslash : ('/' : Byte) ∈ r.uri.bytes := by
    rw [huri]
    exact List.mem_append_right _ List.mem_cons_self
  refine ⟨.topic r hslash (topicExpiry req now), rfl, fun b => ?_⟩
  rw [hpost, hattr]
  dsimp only
  rw [if_neg (not_not.2 hct), Change.apply, Change.code]
  by_cases hmem : r.uri ∈ b.uris
  · simp only [if_pos hmem]
    exact ⟨_, rfl, rfl⟩
  · simp only [if_neg hmem]
    exact ⟨_, rfl, rfl⟩

/-- A request to publish is a change of the topic it is addressed to. -/
theorem hndPutTopic_change {target : CoapResource} (htopic : IsTopic target) (req : Request)
    (now : ℤ) :
    ∃ c : Change, c.On target.uri ∧ ∀ b : Broker, Agreement b → target ∈ b.resources → ∃ out,
      hndPutTopic b target req now = .ok (c.apply b, out) ∧ out.code = some (c.code b) := by
  obtain ⟨attr, hattr, hct⟩ := htopic.ctAttrValue
  rcases hopt : req.firstOption coapOptionContentType with _ | n
  · refine ⟨.nothing 400, trivial, fun b hb hr =>
      ⟨{ response := some (({} : Pdu).respond 400) }, ?_, rfl⟩⟩
    rw [hndPutTopic, hopt]
    rfl
  by_cases hn : toUnsigned (atoi attr.value) = n
  · refine ⟨.data target.uri req now, rfl, fun b hb hr => ?_⟩
    obtain ⟨t, ht⟩ := Option.isSome_iff_exists.1
      (TopicDB.getTopic_isSome.2 (hb.mem_paths_of_isTopic hr htopic))
    exact ⟨_, hndPutTopic_notifies hb hr htopic hct (hn ▸ hopt) ht now, rfl⟩
  · refine ⟨.nothing 415, trivial, fun b hb hr =>
      ⟨{ response := some (({} : Pdu).respond 415) }, ?_, rfl⟩⟩
    rw [hndPutTopic, hopt]
    dsimp only
    rw [hct]
    dsimp only
    rw [if_pos hn]
    rfl

/-- A request of the two kinds is a change of its topic, in every state with the resource it is
    addressed to. -/
theorem TopicRequest.change {b : Broker} {e : Event} {u : CStr} (hb : Agreement b)
    (h : TopicRequest b e u) :
    ∃ c : Change, c.On u ∧ ∀ b', Agreement b' →
      (∀ uri r, b.find uri = some r → b'.find uri = some r) →
      ∃ out, step b' e = .ok (c.apply b', out) ∧ out.code = some (c.code b') := by
  -- what a request does depends on its target, which the other broker has as well
  cases h with
  | @post uri req peer token now target r htarget hhandler hparse =>
    obtain ⟨hr, rfl⟩ := Broker.find_spec htarget
    rcases hb.resource target hr with htopic | hrd | hps
    · obtain ⟨c, hc, hpost⟩ := hndPost_change hparse now
      refine ⟨c, hc, fun b' hb' hfind => ?_⟩
      rw [step, hfind _ _ htarget]
      dsimp only
      rw [htopic.handler]
      exact hpost b'
    · rw [hrd] at hhandler
      exact absurd hhandler (by decide)
    · obtain ⟨c, hc, hpost⟩ := hndPost_change hparse now
      refine ⟨c, hc, fun b' hb' hfind => ?_⟩
      rw [step, hfind _ _ htarget]
      dsimp only
      rw [hps] at hpost ⊢
      exact hpost b'
  | @put _ req peer token now target htarget =>
    obtain ⟨hr, rfl⟩ := Broker.find_spec htarget
    rcases hb.resource target hr with htopic | hbuiltin
    · obtain ⟨c, hc, hput⟩ := hndPutTopic_change htopic req now
      refine ⟨c, hc, fun b' hb' hfind => ?_⟩
      rw [step_put (hfind _ _ htarget) htopic]
      exact hput b' hb' (Broker.find_spec (hfind _ _ htarget)).1
    · refine ⟨.nothing 405, trivial, fun b' hb' hfind =>
        ⟨{ response := some (({} : Pdu).respond 405) }, ?_, rfl⟩⟩
      rw [step, hfind _ _ htarget]
      rcases hbuiltin with rfl | rfl <;> rfl

/-- In every reachable state without the bridge, two requests for different topics whose
    resources exist can be handled in either order: both get the same codes, and the states
    are the same up to the order of the entries, with the same record for every path. -/
theorem requests_commute {rdServer : Bool} {b : Broker} (h : Reachable step (boot false rdServer) b)
    {e e' : Event} {u u' : CStr} (he : TopicRequest b e u) (he' : TopicRequest b e' u')
    (hne : u ≠ u') :
    ∃ b₁ b₂ b₁' b₂' out₁ out₂ out₁' out₂',
      step b e = .ok (b₁, out₁) ∧ step b₁ e' = .ok (b₂, out₂) ∧
      step b e' = .ok (b₁', out₁') ∧ step b₁' e = .ok (b₂', out₂') ∧
      out₁.code = out₂'.code ∧ out₂.code = out₁'.code ∧ SameUpToOrder b₂ b₂' ∧
      ∀ path, b₂.topicDB.getTopic path = b₂'.topicDB.getTopic path := by
  have hb : Agreement b := Reachable.agreement h
  obtain ⟨c, hc, hstep⟩ := he.change hb
  obtain ⟨c', hc', hstep'⟩ := he'.change hb
  obtain ⟨out₁, h₁, hcode₁⟩ := hstep b hb fun _ _ h => h
  obtain ⟨out₁', h₁', hcode₁'⟩ := hstep' b hb fun _ _ h => h
  have hcb : Agreement (c.apply b) := (step_effect hb h₁).agreement hb
  have hcb' : Agreement (c'.apply b) := (step_effect hb h₁').agreement hb
  obtain ⟨out₂, h₂, hcode₂⟩ := hstep' (c.apply b) hcb fun _ _ h => Change.find_apply h
  obtain ⟨out₂', h₂', hcode₂'⟩ := hstep (c'.apply b) hcb' fun _ _ h => Change.find_apply h
  have hsame := Change.apply_comm hb hc hc' hne hcb hcb'
  refine ⟨_, _, _, _, out₁, out₂, out₁', out₂', h₁, h₂, h₁', h₂', ?_, ?_, hsame, fun path => ?_⟩
  · rw [hcode₁, hcode₂', Change.code_apply b hc' hc hne]
  · rw [hcode₂, hcode₁', Change.code_apply b hc hc' hne.symm]
  · exact Keyed.find_perm hsame.topicDB ((step_effect hcb h₂).agreement hcb).paths

/-- Creating one topic below another, and publishing to that one. -/
theorem requests_commute_two :
    ∃ b b₁ b₂ b₁' b₂' out₁ out₂ out₁' out₂',
      execRun step (boot false true) [.create "ps" "<a>;ct=0" none 1] = .ok b ∧
      step b (.create "ps/a" "<b>;ct=40" (some 9) 2) = .ok (b₁, out₁) ∧
      step b₁ (.publish "ps/a" 0 "x" (some 5) 2) = .ok (b₂, out₂) ∧
      step b (.publish "ps/a" 0 "x" (some 5) 2) = .ok (b₁', out₁') ∧
      step b₁' (.create "ps/a" "<b>;ct=40" (some 9) 2) = .ok (b₂', out₂') ∧
      out₁.code = out₂'.code ∧ out₂.code = out₁'.code ∧ SameUpToOrder b₂ b₂' := by
  obtain ⟨b, target, r, hb, htarget, hpost, hparse, huri⟩ : ∃ b target r,
      execRun step (boot false true) [.create "ps" "<a>;ct=0" none 1] = .ok b ∧
      b.find (CStr.lit "ps/a") = some target ∧ target.handler.post = some .hndPostTopic ∧
      parseLinkFormat (CStr.read (ascii "<b>;ct=40")) target = .ok (.live r, true) ∧
      r.uri = CStr.lit "ps/a/b" := ⟨_, _, _, rfl, rfl, rfl, rfl, by decide⟩
  obtain ⟨b₁, b₂, b₁', b₂', out₁, out₂, out₁', out₂', h₁, h₂, h₁', h₂', hcode, hcode', hsame, -⟩ :=
    requests_commute (Reachable.init.of_execRun hb)
      (e := .create "ps/a" "<b>;ct=40" (some 9) 2) (.post htarget (.inr hpost) hparse)
      (.put htarget) (by rw [huri]; decide)
  exact ⟨b, b₁, b₂, b₁', b₂', out₁, out₂, out₁', out₂', hb, h₁, h₂, h₁', h₂', hcode, hcode', hsame⟩

end CoapBroker
