import CoapBroker.Cpp.Effect

/-!
# What the agreement means for the handlers of the C++ broker

In a state whose store and table agree, the handlers find the record of every topic: the only
thing that makes them fail is a number that cannot be read (`hndPostBroker_onlyFails` and the
others), and they never answer 4.04. With the agreement itself, this is
`nodes_resources_agreement`, over all runs.
-/

namespace CoapBroker.Cpp

/-! ## Failing -/

theorem stoi_onlyFails (s : CStr) : OnlyFails .uncaughtException (stoi s) :=
  .ite onlyFails_error (.ite onlyFails_error (onlyFails_ok _))

theorem hndGetTopic_onlyFails {b : Broker} (hb : b.topicDB.Exact) (resource : CoapResource)
    (peer : CoapAddress) (token : List Byte) (request : Option Request) (now : ℤ) :
    OnlyFails .uncaughtException (hndGetTopic b resource peer token request now) := by
  refine (stoi_onlyFails _).bind fun ct => .ite (onlyFails_ok _) (.ite (onlyFails_ok _) ?_)
  rw [TopicDB.copyTopic, TopicDB.getTopic_eq hb]
  refine (onlyFails_ok _).bind fun temp => ?_
  rcases temp with _ | temp
  · exact onlyFails_ok _
  · exact .ite (.ite (onlyFails_ok _) (onlyFails_ok _)) (onlyFails_ok _)

/-- Every observable resource has a handler for its notifications. -/
theorem Agreement.getHandler {b : Broker} (hb : Agreement b) :
    ∀ r ∈ b.resources, r.observable → r.handler.get.isSome := by
  intro r hr hobs
  rcases hb.table.resource r hr with htopic | hbuiltin
  · rw [htopic.handler]
    rfl
  · rw [hbuiltin.not_observable] at hobs
    exact absurd hobs Bool.false_ne_true

theorem hndPutTopic_onlyFails {b : Broker} (hb : Agreement b) {resource : CoapResource}
    (hmem : resource.uri ∈ b.topicDB.paths) (request : Request) (now : ℤ) :
    OnlyFails .uncaughtException (hndPutTopic b resource request now) := by
  rw [hndPutTopic]
  rcases request.firstOption coapOptionContentType with _ | n
  · exact onlyFails_ok _
  refine (stoi_onlyFails _).bind fun ct => .ite (onlyFails_ok _) ?_
  rw [TopicDB.copyTopic, TopicDB.getTopic_eq hb.exact]
  refine (onlyFails_ok _).bind fun temp => ?_
  rcases temp with _ | temp
  · exact onlyFails_ok _
  dsimp only
  rw [TopicDB.updateTopic_eq hb.exact hmem]
  change OnlyFails _ (markAndNotify _ _ _ _ >>= _)
  have hexact : TopicDB.Exact (b.topicDB.modify resource.uri fun t =>
      { t with data := CStr.read request.data, dataMa := absMaValue request now }) :=
    hb.exact.modify fun _ => rfl
  refine (markAndNotify_onlyFails (fun observe r s => ?_) _ _ hb.getHandler).bind
    fun _ => onlyFails_ok _
  exact hndGetTopic_onlyFails (by exact hexact) r s.subscriber s.token none now

theorem isUscf_onlyFails (lfData : LinkFormat) : OnlyFails .uncaughtException (isUscf lfData) :=
  .ite ((stoi_onlyFails _).bind fun _ => onlyFails_ok _) (onlyFails_ok _)

/-- When the path of a new topic is that of a resource, there is a record for it. -/
theorem Agreement.getTopic_of_creates {b : Broker} (hb : Agreement b) {resource : CoapResource}
    {request : Request} {lfData : LinkFormat} (hlf : Creates resource request lfData)
    (hmem : lfData.path ∈ b.resources.uris) :
    ∃ t, b.topicDB.getTopic lfData.path = .ok (some t) := by
  obtain ⟨t, ht⟩ := Option.isSome_iff_exists.1
    (Keyed.find_isSome.2 (hb.mem_paths_of_slash hmem hlf.slash_mem))
  exact ⟨t, by rw [TopicDB.getTopic_eq hb.exact, ht]⟩

theorem hndPostBroker_onlyFails {b : Broker} (hb : Agreement b) (resource : CoapResource)
    (request : Request) (now : ℤ) :
    OnlyFails .uncaughtException (hndPostBroker b resource request now) := by
  rcases hndPostBroker_eq b resource request now with ⟨p, attrs, htext, heq⟩ | heq
  · rw [heq, postLinkFormat]
    generalize hlf : linkFormatBelow resource (CStr.read request.data) p attrs = lfData
    by_cases hmr : isMr request lfData
    · rw [if_pos hmr]
      exact onlyFails_ok _
    rw [if_neg hmr]
    rcases huscf : isUscf lfData with f | _ | _
    · intro f' h
      cases h
      exact isUscf_onlyFails lfData f huscf
    · have hcreates : Creates resource request lfData :=
        ⟨p, attrs, htext, hlf.symm, eq_false_of_ne_true hmr, huscf⟩
      by_cases hex : lfData.path ∈ b.resources.uris
      · -- "Topic already exists"
        rw [isResourceExist, decide_eq_true hex,
          TopicDB.updateTopic_eq hb.exact (hb.mem_paths_of_slash hex hcreates.slash_mem)]
        exact onlyFails_ok _
      · rw [isResourceExist, decide_eq_false hex]
        exact onlyFails_ok _
    · exact onlyFails_ok _
  · rw [heq]
    exact onlyFails_ok _

/-! ## Every run -/

/-- A topic has a record. -/
theorem Agreement.getTopic_of_isTopic {b : Broker} (hb : Agreement b) {r : CoapResource}
    (hr : r ∈ b.resources) (htopic : IsTopic r) : ∃ t, b.topicDB.getTopic r.uri = .ok (some t) := by
  obtain ⟨t, ht⟩ := Option.isSome_iff_exists.1
    (Keyed.find_isSome.2 (hb.table.mem_paths_of_isTopic hr htopic))
  exact ⟨t, by rw [TopicDB.getTopic_eq hb.exact, ht]⟩

/-- With a record for the topic, the handler does not answer 4.04. -/
theorem hndGetTopic_ne_notFound {b : Broker} {resource : CoapResource} {peer : CoapAddress}
    {token : List Byte} {request : Option Request} {now : ℤ} {t : TopicData}
    (ht : b.topicDB.getTopic resource.uri = .ok (some t)) {pdu : Pdu}
    (h : hndGetTopic b resource peer token request now = .ok pdu) :
    pdu.code ≠ coapResponseCode 404 := by
  rw [hndGetTopic] at h
  rcases hct : stoi (findAttributeValue resource ctName) with f | ct <;> rw [hct] at h
  · cases h
  rw [TopicDB.copyTopic, ht] at h
  simp only [bind, Except.bind] at h
  split_ifs at h <;> cases h
  · rw [Pdu.code_respond]
    decide
  · rw [Pdu.code_respond]
    decide
  all_goals first
    | (rw [Pdu.code_addData, Pdu.code_setCode]; decide)
    | decide

theorem hndPutTopic_ne_notFound {b b' : Broker} {resource : CoapResource} {request : Request}
    {now : ℤ} {t : TopicData} (ht : b.topicDB.getTopic resource.uri = .ok (some t)) {out : Output}
    (h : hndPutTopic b resource request now = .ok (b', out)) :
    ∀ pdu, out.response = some pdu → pdu.code ≠ coapResponseCode 404 := by
  rw [hndPutTopic] at h
  rcases hopt : request.firstOption coapOptionContentType with _ | n <;> rw [hopt] at h
  · cases h
    rintro _ ⟨⟩
    decide
  dsimp only at h
  rcases hct : stoi (findAttributeValue resource ctName) with f | ct <;> rw [hct] at h
  · cases h
  rw [TopicDB.copyTopic, ht, TopicDB.updateTopic, ht] at h
  simp only [bind, Except.bind] at h
  split_ifs at h
  · cases h
    rintro _ ⟨⟩
    decide
  rcases hmark : markAndNotify (notifyTopic { b with
      topicDB := b.topicDB.modify resource.uri fun t =>
        { t with data := CStr.read request.data, dataMa := absMaValue request now }
      earliestDataMaxAge := lowerEarliest b.earliestDataMaxAge (absMaValue request now) } now)
    b.observe b.resources resource with f | ⟨resources, observe, ns⟩ <;> rw [hmark] at h
  · cases h
  · cases h
    rintro _ ⟨⟩
    decide

/-- In every reachable state, paths and URIs are distinct, the paths are the URIs of all
    resources but `ps`, and the counter is the number of nodes. So every lookup whose result
    is dereferenced finds a node, nothing but an exception makes a handler fail, and no handler
    answers 4.04. -/
theorem nodes_resources_agreement {b : Broker} (h : Reachable step boot b) :
    b.topicDB.paths.Nodup ∧ b.resources.uris.Nodup ∧
    (∀ u, u ∈ b.topicDB.paths ↔ u ∈ b.resources.uris ∧ u ≠ brokerPath) ∧
    b.topicDB.length = b.topicDB.nodes.length ∧
    (∀ r ∈ b.resources, ∀ request now,
      (∀ lfData, Creates r request lfData → lfData.path ∈ b.resources.uris →
        ∃ t, b.topicDB.getTopic lfData.path = .ok (some t)) ∧
      OnlyFails .uncaughtException (hndPostBroker b r request now)) ∧
    ∀ r ∈ b.resources, r.handler = topicHandlers →
      (∃ t, b.topicDB.getTopic r.uri = .ok (some t)) ∧
      (∀ peer token request now,
        OnlyFails .uncaughtException (hndGetTopic b r peer token request now) ∧
        ∀ pdu, hndGetTopic b r peer token request now = .ok pdu → pdu.code ≠ coapResponseCode 404) ∧
      (∀ request now, OnlyFails .uncaughtException (hndPutTopic b r request now) ∧
        ∀ b' out, hndPutTopic b r request now = .ok (b', out) →
          ∀ pdu, out.response = some pdu → pdu.code ≠ coapResponseCode 404) ∧
      ∀ pdu, (hndDeleteTopic b r).2.response = some pdu → pdu.code ≠ coapResponseCode 404 := by
  have hb : Agreement b := Cpp.Reachable.agreement h
  refine ⟨hb.table.paths, hb.table.uris, fun u => ?_, hb.exact.length, fun r hr request now => ?_,
    fun r hr hhandler => ?_⟩
  · constructor
    · intro hu
      obtain ⟨r, hr, htopic, rfl⟩ := (hb.table.mem_paths u).1 hu
      refine ⟨List.mem_map_of_mem hr, fun heq => ?_⟩
      -- the URI of a topic is longer than `ps`
      have hlen := htopic.below.length_le
      rw [heq] at hlen
      exact absurd hlen (by decide)
    · rintro ⟨hu, hne⟩
      obtain ⟨r, hr, rfl⟩ := List.mem_map.1 hu
      rcases hb.table.resource r hr with htopic | rfl
      · exact hb.table.mem_paths_of_isTopic hr htopic
      · exact absurd rfl hne
  · exact ⟨fun lfData hlf hmem => hb.getTopic_of_creates hlf hmem,
      hndPostBroker_onlyFails hb r request now⟩
  · have htopic : IsTopic r := by
      rcases hb.table.resource r hr with htopic | rfl
      · exact htopic
      · exact absurd hhandler (by decide)
    have hmem := hb.table.mem_paths_of_isTopic hr htopic
    obtain ⟨t, ht⟩ := hb.getTopic_of_isTopic hr htopic
    refine ⟨⟨t, ht⟩, fun peer token request now => ⟨hndGetTopic_onlyFails hb.exact r peer token
      request now, fun pdu hpdu => hndGetTopic_ne_notFound ht hpdu⟩, fun request now =>
      ⟨hndPutTopic_onlyFails hb hmem request now, fun b' out hput =>
        hndPutTopic_ne_notFound ht hput⟩, ?_⟩
    obtain ⟨topicDB, -, -, hdel⟩ := hndDeleteTopic_eq hb hr htopic
    rw [hdel]
    rintro _ ⟨⟩
    decide

/-- Two topics, one below the other. -/
theorem nodes_resources_agreement_two :
    ∃ b, execRun step boot [.create "ps" "<a>;ct=0" 1, .create "ps/a" "<b>;ct=40" 2] = .ok b ∧
      b.topicDB.paths = [CStr.lit "ps/a", CStr.lit "ps/a/b"] ∧
      b.topicDB.length = b.topicDB.nodes.length := by
  obtain ⟨b, hb, hpaths⟩ : ∃ b, execRun step boot
      [.create "ps" "<a>;ct=0" 1, .create "ps/a" "<b>;ct=40" 2] = .ok b ∧
      b.topicDB.paths = [CStr.lit "ps/a", CStr.lit "ps/a/b"] := ⟨_, rfl, by decide⟩
  exact ⟨b, hb, hpaths, (nodes_resources_agreement (.of_execRun .init hb)).2.2.2.1⟩

end CoapBroker.Cpp
