import CoapBroker.System.Datagrams

/-!
# The subscriptions of the MQTT client

With the bridge on, the broker subscribes to a topic when it creates it, publishes what is
published to it, and unsubscribes when it deletes it. A session is what the client makes of
these calls; a call may be out of place in it (`sessionStep`): a second subscription to a topic,
or a call for a topic that the client is not subscribed to.

None ever is, and the client is subscribed to the topics of the store, whatever arrives at the
socket (`subscriptions_are_topics`).
-/

namespace CoapBroker

/-! ## Sessions -/

/-- The topics the client is subscribed to after a call, unless this is out of place. -/
def sessionStep (subscriptions : List CStr) : MqttCall → Option (List CStr)
  | .subscribe topic =>
    if topic ∈ subscriptions then none else some (subscriptions ++ [topic])
  | .publish topic _ => if topic ∈ subscriptions then some subscriptions else none
  | .unsubscribe topic =>
    if topic ∈ subscriptions then some (subscriptions.filter fun u => u ≠ topic) else none

/-- The topics the client is subscribed to after some calls. -/
def session (subscriptions : List CStr) (calls : List MqttCall) : Option (List CStr) :=
  calls.foldlM sessionStep subscriptions

@[simp] theorem session_nil (subscriptions : List CStr) :
    session subscriptions [] = some subscriptions := rfl

@[simp] theorem session_singleton (subscriptions : List CStr) (call : MqttCall) :
    session subscriptions [call] = sessionStep subscriptions call := by
  rw [session, List.foldlM_cons]
  exact bind_pure _

theorem session_append (subscriptions : List CStr) (calls calls' : List MqttCall) :
    session subscriptions (calls ++ calls') =
      (session subscriptions calls).bind fun subscriptions => session subscriptions calls' :=
  List.foldlM_append

/-- Unsubscribing from some of the topics, one after the other. -/
theorem session_unsubscribeAll {subscriptions us : List CStr} (hus : us.Nodup)
    (hsub : ∀ u ∈ us, u ∈ subscriptions) :
    session subscriptions (unsubscribeAll true us) =
      some (subscriptions.filter fun u => u ∉ us) := by
  induction us generalizing subscriptions with
  | nil => simp [unsubscribeAll]
  | cons u us ih =>
    rw [List.nodup_cons] at hus
    rw [List.forall_mem_cons] at hsub
    have hcalls : unsubscribeAll true (u :: us) = [.unsubscribe u] ++ unsubscribeAll true us := rfl
    have hrest : ∀ v ∈ us, v ∈ subscriptions.filter fun v => v ≠ u := fun v hv =>
      List.mem_filter.2 ⟨hsub.2 v hv, decide_eq_true (ne_of_mem_of_not_mem hv hus.1)⟩
    rw [hcalls, session_append, session_singleton, sessionStep, if_pos hsub.1, Option.bind_some,
      ih hus.2 hrest, List.filter_filter]
    refine congrArg some (List.filter_congr fun v _ => ?_)
    rw [← Bool.decide_and, decide_eq_decide, List.mem_cons, not_or, and_comm]

/-- Without the bridge there are no calls. -/
theorem unsubscribeAll_false (us : List CStr) : unsubscribeAll false us = [] :=
  List.flatMap_eq_nil_iff.2 fun _ _ => rfl

/-! ## The calls of a step -/

/-- The calls of a step are in place, and lead from the topics before it to those after it. -/
structure SessionKept (b b' : Broker) (out : Output) : Prop where
  bridge : b'.mqttBridge = b.mqttBridge
  off : b.mqttBridge = false → out.mqtt = []
  on : b.mqttBridge = true → session b.topicDB.paths out.mqtt = some b'.topicDB.paths

/-- A step that changes no topic and calls nothing. -/
theorem SessionKept.of_quiet {b b' : Broker} {out : Output} (hbridge : b'.mqttBridge = b.mqttBridge)
    (hpaths : b'.topicDB.paths = b.topicDB.paths) (hmqtt : out.mqtt = []) : SessionKept b b' out where
  bridge := hbridge
  off _ := hmqtt
  on _ := by rw [hmqtt, session_nil, hpaths]

/-- Creating topics. -/
theorem hndPost_sessionKept {b b' : Broker} (hb : Agreement b) {target : CoapResource}
    {req : Request} {now : ℤ} {out : Output} {slot : NewResource}
    (h : hndPost b target req now = .ok ((b', out), slot)) : SessionKept b b' out := by
  rcases hndPost_cases h with ⟨rfl, pdu, rfl, -⟩ | ⟨r, hr, ⟨-, heq⟩ | ⟨hnot, heq⟩⟩
  · exact .of_quiet rfl rfl rfl
  · cases heq
    exact .of_quiet rfl (TopicDB.paths_updateTopicInfo _) rfl
  · cases heq
    refine ⟨rfl, fun hoff => ?_, fun hon => ?_⟩
    · change whenBridged b.mqttBridge _ = []
      rw [hoff]
      rfl
    · have hpath : r.uri ∉ b.topicDB.paths := fun hmem => hnot (hb.uri_mem hmem)
      have hadded : TopicDB.paths (b.topicDB.addTopicWEC r.uri r.uri.length
          (topicExpiry req now)).1 = b.topicDB.paths ++ [r.uri] := by
        rw [TopicDB.addTopicWEC_of_notMem hpath hr.length_pos]
        exact List.map_append
      change session _ (whenBridged b.mqttBridge _) =
        some (TopicDB.paths (b.topicDB.addTopicWEC r.uri r.uri.length (topicExpiry req now)).1)
      rw [hon, hadded]
      exact (session_singleton _ _).trans (if_neg hpath)

/-- Deleting topics. -/
theorem sessionKept_unsubscribeAll {b b' : Broker} {out : Output} {us : List CStr}
    (hbridge : b'.mqttBridge = b.mqttBridge) (hus : us.Nodup) (hsub : ∀ u ∈ us, u ∈ b.topicDB.paths)
    (hpaths : b'.topicDB.paths = b.topicDB.paths.filter fun u => u ∉ us)
    (hmqtt : out.mqtt = unsubscribeAll b.mqttBridge us) : SessionKept b b' out where
  bridge := hbridge
  off hoff := by rw [hmqtt, hoff, unsubscribeAll_false]
  on hon := by rw [hmqtt, hon, session_unsubscribeAll hus hsub, hpaths]

theorem hndDeleteTopic_sessionKept {b : Broker} {r : CoapResource} (h : Deletable b r) :
    SessionKept b (hndDeleteTopic b r).1 (hndDeleteTopic b r).2 := by
  have hmem : ∀ u, u ∈ r.uri :: subtopicUris b r.uri ↔ u ∈ b.topicDB.paths ∧ Deleted r.uri u := by
    intro u
    rw [h.mem_deleted_iff]
    constructor
    · rintro ⟨t, ht, hdel, rfl⟩
      exact ⟨List.mem_map_of_mem ht, hdel⟩
    · rintro ⟨hu, hdel⟩
      obtain ⟨t, ht, rfl⟩ := List.mem_map.1 hu
      exact ⟨t, ht, hdel, rfl⟩
  rw [h.hndDeleteTopic_eq]
  refine sessionKept_unsubscribeAll rfl h.nodup_subtopicUris (fun u hu => ((hmem u).1 hu).1) ?_ rfl
  change TopicDB.paths (b.topicDB.filter fun t => ¬Deleted r.uri t.path) = _
  rw [TopicDB.paths_filter b.topicDB fun u => ¬Deleted r.uri u]
  refine List.filter_congr fun u hu => ?_
  rw [decide_eq_decide, hmem, and_iff_right hu]

/-- The sweeps. -/
theorem topicSweep_sessionKept {b : Broker} (hb : Agreement b) (time : ℕ → ℤ) :
    SessionKept b (topicMAMonitor b time).1 (topicMAMonitor b time).2 := by
  have hsub := expiredPaths_sublist TopicData.topicMa time 0 b.topicDB
  rw [topicMAMonitor_eq hb.paths hb.uris fun u hu => hb.uri_mem hu]
  split_ifs with hgate
  · exact .of_quiet rfl rfl rfl
  · refine sessionKept_unsubscribeAll rfl (hb.paths.sublist hsub) (fun u hu => hsub.subset hu) ?_ rfl
    exact TopicDB.paths_filter b.topicDB fun u =>
      u ∉ expiredPaths TopicData.topicMa time 0 b.topicDB

theorem dataSweep_sessionKept {b : Broker} (hb : Agreement b) (time : ℕ → ℤ) :
    SessionKept b (topicDataMAMonitor b time) {} := by
  rw [topicDataMAMonitor_eq hb.paths]
  split_ifs with hgate
  · exact .of_quiet rfl rfl rfl
  · refine .of_quiet rfl ?_ rfl
    change TopicDB.paths (b.topicDB.map _) = _
    rw [TopicDB.paths, List.map_map]
    refine List.map_congr_left fun t _ => ?_
    rw [Function.comp_apply]
    split_ifs <;> rfl

/-- Every call of a step is in place. -/
theorem step_sessionKept {b b' : Broker} (hb : Agreement b) {e : Event} {out : Output}
    (h : step b e = .ok (b', out)) : SessionKept b b' out := by
  cases e with
  | request uri method req peer token now =>
    rcases hfind : b.find uri with _ | r
    · rw [step, hfind] at h
      cases h
      exact .of_quiet rfl rfl rfl
    obtain ⟨hr, rfl⟩ := Broker.find_spec hfind
    -- posting is the same at the broker itself and at a topic
    have hpost : IsParent r → method = .post → SessionKept b b' out := by
      rintro hparent rfl
      rw [step_post hfind hparent] at h
      obtain ⟨⟨x, slot⟩, hp, rfl⟩ := map_eq_ok h
      exact hndPost_sessionKept hb hp
    -- a topic, the resource directory, or the broker itself
    rcases hb.resource r hr with htopic | rfl | rfl
    · cases method with
      | get =>
        rw [step_get hfind htopic] at h
        obtain ⟨pdu, -, heq⟩ := map_eq_ok h
        cases heq
        exact .of_quiet rfl rfl rfl
      | post => exact hpost (.inr htopic) rfl
      | put =>
        rw [step_put hfind htopic] at h
        rcases hndPutTopic_cases hb.clean h with
          ⟨rfl, pdu, rfl, -⟩ | ⟨ct, observe, ns, -, -, hclone, rfl, rfl⟩
        · exact .of_quiet rfl rfl rfl
        -- the only call is a publish, to a topic that is subscribed to
        · refine ⟨rfl, fun hoff => ?_, fun hon => ?_⟩
          · change whenBridged b.mqttBridge _ = []
            rw [hoff]
            rfl
          · change session _ (whenBridged b.mqttBridge _) =
              some (TopicDB.paths (b.topicDB.updateTopicData _ _ _ _).1)
            rw [hon, TopicDB.paths_updateTopicData]
            exact (session_singleton _ _).trans (if_pos (hb.mem_paths_of_isTopic hr htopic))
      | delete =>
        rw [step, hfind] at h
        dsimp only at h
        rw [htopic.handler] at h
        cases h
        exact hndDeleteTopic_sessionKept (hb.deletable hr htopic)
    · rw [step, hfind] at h
      cases method <;> cases h <;> exact .of_quiet rfl rfl rfl
    · cases method with
      | post => exact hpost (.inl rfl) rfl
      | get =>
        rw [step, hfind] at h
        cases h
        exact .of_quiet rfl rfl rfl
      | put =>
        rw [step, hfind] at h
        cases h
        exact .of_quiet rfl rfl rfl
      | delete =>
        rw [step, hfind] at h
        cases h
        exact .of_quiet rfl rfl rfl
  | discover req block2 room junk =>
    obtain ⟨pdu, -, heq⟩ := map_eq_ok h
    cases heq
    exact .of_quiet rfl rfl rfl
  | observe uri peer token =>
    cases h
    exact .of_quiet rfl rfl rfl
  | unobserve uri peer token =>
    cases h
    exact .of_quiet rfl rfl rfl
  | arrival topicName payload now =>
    obtain ⟨⟨b₁, out₁, found⟩, harr, heq⟩ := map_eq_ok h
    cases heq
    rcases msgarrvd_cases hb.clean harr with
      ⟨rfl, rfl, -⟩ | ⟨r, t, observe, ns, -, -, -, rfl, rfl⟩
    · exact .of_quiet rfl rfl rfl
    -- what comes from the bridge is not published to it again
    · exact .of_quiet rfl (TopicDB.paths_updateTopicData _ _ _) rfl
  | dataSweep time =>
    cases h
    exact dataSweep_sessionKept hb time
  | topicSweep time =>
    rw [step, Except.ok.injEq] at h
    have hkept := topicSweep_sessionKept hb time
    rwa [h] at hkept

/-! ## The calls of a run -/

/-- The session of a run. -/
theorem Run.session {mqttBridge rdServer : Bool} {b : Broker}
    {tr : List (Transition Broker Event Output)} (h : Run step (boot mqttBridge rdServer) tr b) :
    b.mqttBridge = mqttBridge ∧
      CoapBroker.session [] (tr.flatMap fun x => x.out.mqtt) =
        some (if mqttBridge then b.topicDB.paths else []) := by
  refine h.invariant_trace (P := fun tr b => b.mqttBridge = mqttBridge ∧
    CoapBroker.session [] (tr.flatMap fun x => x.out.mqtt) =
      some (if mqttBridge then b.topicDB.paths else [])) ?_ ?_
  · refine ⟨rfl, ?_⟩
    cases mqttBridge <;> rfl
  · rintro tr b e out b' hrun ⟨hbridge, hsession⟩ hstep
    have hkept := step_sessionKept (Reachable.agreement ⟨tr, hrun⟩) hstep
    refine ⟨hkept.bridge.trans hbridge, ?_⟩
    rw [List.flatMap_append, session_append, hsession, Option.bind_some, List.flatMap_singleton]
    cases mqttBridge with
    | false =>
      rw [hkept.off hbridge]
      rfl
    | true => exact hkept.on hbridge

theorem flatMap_filter_isVisible (outs : List Output) :
    (outs.filter Output.isVisible).flatMap Output.mqtt = outs.flatMap Output.mqtt := by
  induction outs with
  | nil => rfl
  | cons out outs ih =>
    by_cases hout : out = {}
    · rw [List.filter_cons_of_neg (by simp [Output.isVisible, hout]), ih, List.flatMap_cons, hout]
      rfl
    · rw [List.filter_cons_of_pos (by simp [Output.isVisible, hout]), List.flatMap_cons, ih,
        List.flatMap_cons]

/-- Whatever happens at the socket, no call to the client is out of place, and with the bridge on
    the client is subscribed to the topics of the store; with the bridge off there are none. -/
theorem subscriptions_are_topics {l : Lookup} {passes : Option (List Byte) → CoapResource → Bool}
    {mqttBridge : Bool} {s : Endpoint}
    {tr : List (Transition Endpoint EndpointEvent (Option CoapPdu × List Output))}
    (h : Run (endpointStep l passes) (boot mqttBridge false, []) tr s) :
    session [] (tr.flatMap fun x => x.out.2.flatMap Output.mqtt) =
      some (if mqttBridge then s.1.topicDB.paths else []) := by
  obtain ⟨tr', hrun, hout⟩ := h.endpoint_steps.run
  rw [← hrun.session.2, ← List.flatMap_map Transition.out Output.mqtt, ← flatMap_filter_isVisible,
    hout, flatMap_filter_isVisible, List.flatMap_assoc]

set_option maxRecDepth 4000 in
/-- The client is subscribed to the topic a datagram has created. -/
theorem subscriptions_are_topics_create :
    ∃ x, createRun = .ok x ∧ x.2.1.topicDB.paths = [CStr.lit "ps/x"] ∧
      session [] (x.1.flatMap fun y => y.out.2.flatMap Output.mqtt) =
        some (if true then x.2.1.topicDB.paths else []) := by
  have hany : (createRun.toOption.any fun x =>
      decide (x.2.1.topicDB.paths = [CStr.lit "ps/x"])) = true := by
    decide
  obtain ⟨x, hx, hpaths⟩ := exists_ok_of_any hany
  obtain ⟨hrun, -⟩ := Run.nil.of_execTrace hx
  exact ⟨x, hx, hpaths, subscriptions_are_topics hrun⟩

end CoapBroker
