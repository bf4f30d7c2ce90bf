import CoapBroker.System.Effect

/-!
# Agreement of the store and the table

Every step keeps the agreement of the store and the table (`Effect.agreement`), so that
they agree in every reachable state (`Reachable.agreement`). What this means for the
handlers is `store_table_agreement`: the answers that are there for a missing record or a
missing content format are never given.
-/

namespace CoapBroker

/-! ## Every step keeps the agreement -/

theorem Agreement.of_eq {b : Broker} {ps : List CStr} {t : ResourceTable}
    (h : TableAgreement IsTopic IsBuiltin ps t) (hdb : b.topicDB.paths = ps)
    (hres : b.resources = t) : Agreement b := by
  subst hdb hres
  exact h

/-- What a step does keeps the agreement. -/
theorem Effect.agreement {b b' : Broker} {e : Event} {out : Output} (h : Effect b e b' out)
    (hb : Agreement b) : Agreement b' := by
  cases h with
  | idle observe h => exact hb
  | observers uri f hf h =>
    exact hb.changeObservers uri hf (fun _ s hr => hr.withSubscribers s)
      fun _ hr => hr.not_observable
  | refreshed htarget hparent hr hmem =>
    exact Agreement.of_eq hb (TopicDB.paths_updateTopicInfo _) rfl
  | created htarget hparent hr hnot =>
    refine Agreement.of_eq (hb.add (hr.isTopic hparent) hr.dirty_eq hnot) ?_ rfl
    -- the store gets the topic that the table gets, since neither has it
    rw [topicCreated, TopicDB.addTopicWEC_of_notMem (fun h => hnot (hb.uri_mem h)) hr.length_pos]
    exact List.map_append
  | published observe ns htarget htopic hct hopt =>
    exact Agreement.of_eq hb (TopicDB.paths_updateTopicData _ _ _) rfl
  | deleted htarget htopic =>
    exact Agreement.of_eq (hb.filter fun u => ¬Deleted _ u)
      (TopicDB.paths_filter _ fun u => ¬Deleted _ u) rfl
  | dataSwept time =>
    rw [topicDataMAMonitor_eq hb.paths]
    split_ifs
    · exact hb
    · refine Agreement.of_eq hb ?_ rfl
      rw [TopicDB.paths, List.map_map]
      refine List.map_congr_left fun t _ => ?_
      rw [Function.comp_apply]
      split_ifs <;> rfl
  | topicSwept time =>
    rw [topicMAMonitor_eq hb.paths hb.uris fun u hu => hb.uri_mem hu]
    split_ifs
    · exact hb
    · exact Agreement.of_eq
        (hb.filter fun u => u ∉ expiredPaths TopicData.topicMa time 0 b.topicDB)
        (TopicDB.paths_filter _ fun u => u ∉ expiredPaths TopicData.topicMa time 0 b.topicDB) rfl
  | arrived observe ns hfind hclone hdata =>
    exact Agreement.of_eq hb (TopicDB.paths_updateTopicData _ _ _) rfl

theorem isBuiltin_of_mem_boot {mqttBridge rdServer : Bool} {r : CoapResource}
    (hr : r ∈ (boot mqttBridge rdServer).resources) : IsBuiltin r := by
  rcases List.mem_append.1 hr with hr | hr
  · cases rdServer
    · exact absurd hr List.not_mem_nil
    · exact .inl (List.mem_singleton.1 hr)
  · exact .inr (List.mem_singleton.1 hr)

theorem agreement_boot (mqttBridge rdServer : Bool) : Agreement (boot mqttBridge rdServer) where
  paths := List.nodup_nil
  uris := by
    cases rdServer
    · exact List.nodup_singleton _
    · exact (by decide : [rdResource.uri, brokerResource.uri].Nodup)
  resource r hr := .inr (isBuiltin_of_mem_boot hr)
  mem_paths u := by
    refine iff_of_false List.not_mem_nil ?_
    rintro ⟨r, hr, htopic, -⟩
    exact (isBuiltin_of_mem_boot hr).not_isTopic htopic
  clean r hr := by
    rcases isBuiltin_of_mem_boot hr with rfl | rfl <;> rfl

/-- Every reachable state agrees. -/
theorem Reachable.agreement {mqttBridge rdServer : Bool} {b : Broker}
    (h : Reachable step (boot mqttBridge rdServer) b) : Agreement b :=
  h.invariant (agreement_boot mqttBridge rdServer) fun _ _ _ _ hb hs =>
    (step_effect hb hs).agreement hb

/-- The resources the `POST` handlers have created are the topics. -/
theorem Agreement.isTopic_iff {b : Broker} (hb : Agreement b) {r : CoapResource}
    (hr : r ∈ b.resources) : r.handler = topicHandlers ↔ IsTopic r := by
  refine ⟨fun h => ?_, fun h => h.handler⟩
  rcases hb.resource r hr with htopic | rfl | rfl
  · exact htopic
  · exact absurd h (by decide)
  · exact absurd h (by decide)

/-- In every reachable state, paths and URIs are distinct, the paths are the URIs of the
    resources the `POST` handlers have created, and these have a content format. The
    handlers of topics therefore neither fail nor answer 4.04. -/
theorem store_table_agreement (mqttBridge rdServer : Bool) {b : Broker}
    (h : Reachable step (boot mqttBridge rdServer) b) :
    b.topicDB.paths.Nodup ∧ b.uris.Nodup ∧
    (∀ u, u ∈ b.topicDB.paths ↔ ∃ r ∈ b.resources, r.handler = topicHandlers ∧ r.uri = u) ∧
    ∀ r ∈ b.resources, r.handler = topicHandlers →
      (∃ attr, r.findAttr ctName = some attr) ∧
      (∀ peer token request now, ∃ pdu, hndGetTopic b r peer token request now = .ok pdu ∧
        pdu.code ≠ coapResponseCode 404) ∧
      (∀ request now, ∃ b' pdu out, hndPutTopic b r request now = .ok (b', out) ∧
        out.response = some pdu ∧ pdu.code ≠ coapResponseCode 404) ∧
      ∃ pdu, (hndDeleteTopic b r).2.response = some pdu ∧ pdu.code ≠ coapResponseCode 404 := by
  have hb := h.agreement
  refine ⟨hb.paths, hb.uris, fun u => ?_, fun r hr hhandler => ?_⟩
  · rw [hb.mem_paths]
    constructor
    · rintro ⟨r, hr, htopic, rfl⟩
      exact ⟨r, hr, htopic.handler, rfl⟩
    · rintro ⟨r, hr, hhandler, rfl⟩
      exact ⟨r, hr, (hb.isTopic_iff hr).1 hhandler, rfl⟩
  · have htopic := (hb.isTopic_iff hr).1 hhandler
    obtain ⟨attr, hattr, hct⟩ := htopic.ctAttrValue
    have hclone : (b.topicDB.cloneTopic r.uri).isSome :=
      TopicDB.getTopic_isSome.2 (hb.mem_paths_of_isTopic hr htopic)
    refine ⟨⟨attr, hattr⟩, fun peer token request now => hndGetTopic_ne_notFound hct hclone request,
      fun request now => hndPutTopic_ne_notFound hct hclone hb.notifiable request now, ?_⟩
    rw [(hb.deletable hr htopic).hndDeleteTopic_eq]
    refine ⟨_, rfl, ?_⟩
    rw [Pdu.code_addData, Pdu.code_addOption, Pdu.code_setCode]
    decide

/-- Two topics, one below the other. -/
theorem store_table_agreement_two :
    ∃ b, execRun step (boot true true)
        [.create "ps" "<a>;ct=0" none 1, .create "ps/a" "<b>;ct=40" (some 10) 2] = .ok b ∧
      b.topicDB.paths = [CStr.lit "ps/a", CStr.lit "ps/a/b"] ∧
      b.topicDB.paths.Nodup ∧ b.uris.Nodup := by
  obtain ⟨b, hb, hpaths⟩ : ∃ b, execRun step (boot true true)
      [.create "ps" "<a>;ct=0" none 1, .create "ps/a" "<b>;ct=40" (some 10) 2] = .ok b ∧
      b.topicDB.paths = [CStr.lit "ps/a", CStr.lit "ps/a/b"] := ⟨_, rfl, by decide⟩
  have h := store_table_agreement true true (.of_execRun .init hb)
  exact ⟨b, hb, hpaths, h.1, h.2.1⟩

end CoapBroker
