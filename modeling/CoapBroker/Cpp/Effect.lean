import CoapBroker.Cpp.System

/-!
# What a step of the C++ broker does

What a step can do to a state that agrees is said once (`Effect`, `step_effect`), from what
the handlers come to. Every step keeps the agreement (`Effect.agreement`), so that every
reachable state agrees (`Reachable.agreement`).
-/

namespace CoapBroker.Cpp

/-! ## Deleting -/

/-- The loop deletes the nodes and the resources of the names with `subtopic` in them. -/
theorem deleteSubtopics_eq (subtopic : List Byte) (rs : List CoapResource) (db : TopicDB)
    (t : ResourceTable) (hexact : db.Exact) (hdb : db.paths.Nodup)
    (ht : Keyed.Distinct CoapResource.uri t) (hrs : rs.Sublist t)
    (hpath : ∀ r ∈ rs, subtopic <:+: r.uri.bytes → r.uri ∈ db.paths) :
    let us := (rs.map CoapResource.uri).filter fun u => subtopic <:+: u.bytes
    (deleteSubtopics subtopic rs (db, t)).1.nodes = db.nodes.filter (fun t => t.path ∉ us) ∧
      (deleteSubtopics subtopic rs (db, t)).1.Exact ∧
      (deleteSubtopics subtopic rs (db, t)).2 = t.filter fun r => r.uri ∉ us := by
  induction rs generalizing db t with
  | nil => simp [deleteSubtopics, hexact]
  | cons r rs ih =>
    have hrs' : rs.Sublist t := (List.sublist_cons_self r rs).trans hrs
    have hpath' : ∀ x ∈ rs, subtopic <:+: x.uri.bytes → x.uri ∈ db.paths :=
      fun x hx => hpath x (List.mem_cons_of_mem r hx)
    rw [deleteSubtopics]
    by_cases hsub : subtopic <:+: r.uri.bytes
    · -- after `r`, none of the resources ahead has its URI
      have hne : ∀ x ∈ rs, x.uri ≠ r.uri := by
        have hdist : Keyed.Distinct CoapResource.uri (r :: rs) := ht.sublist hrs
        rw [Keyed.Distinct, List.map_cons, List.nodup_cons] at hdist
        exact fun x hx => Keyed.ne_of_notMem_keys hdist.1 hx
      have hr : r ∈ t := hrs.subset List.mem_cons_self
      have hmem : r.uri ∈ db.paths := hpath r List.mem_cons_self hsub
      have hdel := TopicDB.deleteTopic_of_mem hmem (hexact.path_ne_empty hmem)
      have hexact' : TopicDB.Exact (db.deleteTopic r.uri).1 := hexact.deleteTopic
      have herase : Keyed.erase TopicData.path r.uri db.nodes =
          db.nodes.filter fun x => x.path ≠ r.uri := Keyed.erase_eq_filter hdb
      have hdelete : t.delete r = t.filter fun x => x.uri ≠ r.uri :=
        Keyed.list_erase_eq_filter ht hr
      have hrs'' : rs.Sublist (t.filter fun x => x.uri ≠ r.uri) := by
        refine List.Sublist.trans ?_ (hrs'.filter fun x => x.uri ≠ r.uri)
        rw [List.filter_eq_self.2 fun x hx => decide_eq_true (hne x hx)]
      rw [hdel, herase] at hexact'
      rw [if_pos hsub, hdel, herase, hdelete]
      have hdb' : TopicDB.paths ⟨db.nodes.filter fun x => x.path ≠ r.uri, db.length - 1⟩ =
          db.paths.filter fun u => u ≠ r.uri := TopicDB.paths_filter db _ (· ≠ r.uri)
      obtain ⟨hnodes, hex, htable⟩ := ih _ _ hexact' (hdb' ▸ hdb.filter _) (ht.filter _) hrs''
        fun x hx hxsub => by
          rw [hdb']
          exact List.mem_filter.2 ⟨hpath' x hx hxsub, decide_eq_true (hne x hx)⟩
      refine ⟨hnodes.trans ?_, hex, htable.trans ?_⟩
      · simp only [List.map_cons, List.filter_cons, hsub, decide_true, if_true, List.filter_filter,
          List.mem_cons, not_or, ne_eq, Bool.decide_and, Bool.and_comm]
      · simp only [List.map_cons, List.filter_cons, hsub, decide_true, if_true, List.filter_filter,
          List.mem_cons, not_or, ne_eq, Bool.decide_and, Bool.and_comm]
    · rw [if_neg hsub]
      obtain ⟨hnodes, hex, htable⟩ := ih db t hexact hdb ht hrs' hpath'
      simp only [List.map_cons, List.filter_cons, hsub, decide_false, Bool.false_eq_true, if_false]
      exact ⟨hnodes, hex, htable⟩

/-- The handler deletes the nodes and the resources `Deleted` tells. -/
theorem hndDeleteTopic_eq {b : Broker} (hb : Agreement b) {resource : CoapResource}
    (hr : resource ∈ b.resources) (htopic : IsTopic resource) :
    ∃ topicDB : TopicDB,
      topicDB.nodes = b.topicDB.nodes.filter (fun t => ¬Deleted resource.uri t.path) ∧
      topicDB.Exact ∧
      hndDeleteTopic b resource =
        ({ b with topicDB, resources := b.resources.filter fun r => ¬Deleted resource.uri r.uri },
          { response := some (({} : Pdu).respond 202) }) := by
  have hmem := hb.table.mem_paths_of_isTopic hr htopic
  have hdel := TopicDB.deleteTopic_of_mem hmem (hb.exact.path_ne_empty hmem)
  have hexact : TopicDB.Exact (b.topicDB.deleteTopic resource.uri).1 := hb.exact.deleteTopic
  have herase : Keyed.erase TopicData.path resource.uri b.topicDB.nodes =
      b.topicDB.nodes.filter fun t => t.path ≠ resource.uri := Keyed.erase_eq_filter hb.table.paths
  rw [hdel, herase] at hexact
  have hpaths : TopicDB.paths ⟨b.topicDB.nodes.filter fun t => t.path ≠ resource.uri,
      b.topicDB.length - 1⟩ = b.topicDB.paths.filter fun u => u ≠ resource.uri :=
    TopicDB.paths_filter b.topicDB _ (· ≠ resource.uri)
  obtain ⟨hnodes, hex, htable⟩ := deleteSubtopics_eq (resource.uri.bytes ++ [('/' : Byte)])
    b.resources _ b.resources hexact (hpaths ▸ hb.table.paths.filter _) hb.table.uris
    (List.Sublist.refl _) fun r hr' hsub => by
      have hslash : ('/' : Byte) ∈ r.uri.bytes := hsub.subset (by simp)
      rw [hpaths]
      refine List.mem_filter.2 ⟨hb.mem_paths_of_slash (List.mem_map_of_mem hr') hslash,
        decide_eq_true fun h => ?_⟩
      exact not_infix_self _ (h ▸ hsub)
  -- the URIs that are kept, one test after the other
  have hkept : ∀ u ∈ b.resources.uris, (u ∉ (b.resources.map CoapResource.uri).filter
      (fun u => resource.uri.bytes ++ [('/' : Byte)] <:+: u.bytes) ∧ u ≠ resource.uri) ↔
      ¬Deleted resource.uri u := by
    intro u hu
    have hfound : u ∈ (b.resources.map CoapResource.uri).filter
        (fun u => resource.uri.bytes ++ [('/' : Byte)] <:+: u.bytes) ↔
        resource.uri.bytes ++ [('/' : Byte)] <:+: u.bytes := by
      rw [List.mem_filter, decide_eq_true_eq]
      exact and_iff_right hu
    rw [hfound, Deleted, not_or, and_comm]
  refine ⟨_, ?_, hex, ?_⟩
  · rw [hnodes, List.filter_filter]
    refine List.filter_congr fun t ht => ?_
    rw [← Bool.decide_and, decide_eq_decide]
    exact hkept _ (hb.table.uri_mem (List.mem_map_of_mem ht))
  · have hfind : resource ∈ b.resources.filter fun r => r.uri ∉
        (b.resources.map CoapResource.uri).filter
          fun u => resource.uri.bytes ++ [('/' : Byte)] <:+: u.bytes := by
      refine List.mem_filter.2 ⟨hr, decide_eq_true fun h => ?_⟩
      exact not_infix_self _ (of_decide_eq_true (List.mem_filter.1 h).2)
    have hres : (b.resources.filter fun r => r.uri ∉ (b.resources.map CoapResource.uri).filter
        fun u => resource.uri.bytes ++ [('/' : Byte)] <:+: u.bytes).erase resource =
        b.resources.filter fun r => ¬Deleted resource.uri r.uri := by
      rw [Keyed.list_erase_eq_filter (hb.table.uris.filter _) hfind, List.filter_filter]
      refine List.filter_congr fun r hr' => ?_
      rw [← Bool.decide_and, decide_eq_decide, and_comm]
      exact hkept _ (List.mem_map_of_mem hr')
    rw [hndDeleteTopic, hdel, herase]
    dsimp only
    rw [htable, ResourceTable.delete, hres]

/-! ## What a step does -/

/-- The effects of the steps. -/
inductive Effect (b : Broker) : Event → Broker → Output → Prop
  /-- Nothing but, perhaps, the number of the next notification has changed. -/
  | idle {e : Event} {out : Output} : Effect b e b out
  /-- The observers of a resource have changed. -/
  | observers {e : Event} {out : Output} (uri : CStr) (f : CoapResource → CoapResource)
    (hf : ∀ r, ∃ subscribers, f r = { r with subscribers }) :
    Effect b e { b with resources := b.resources.changeObservers uri f } out
  /-- The expiry of a topic has been renewed. -/
  | refreshed {uri : CStr} {req : Request} {peer : CoapAddress} {token : List Byte} {now : ℤ}
    {target : CoapResource} {lfData : LinkFormat} (htarget : b.find uri = some target)
    (hparent : IsParent target) (hlf : Creates target req lfData)
    (hmem : lfData.path ∈ b.resources.uris) :
    Effect b (.request uri .post req peer token now)
      { b with
        topicDB := b.topicDB.modify lfData.path fun t => { t with topicMa := absMa req now }
        earliestTopicMaxAge := lowerEarliest b.earliestTopicMaxAge (absMa req now) }
      { response := some (({} : Pdu).respond 403) }
  /-- A topic has been created. -/
  | created {uri : CStr} {req : Request} {peer : CoapAddress} {token : List Byte} {now : ℤ}
    {target : CoapResource} {lfData : LinkFormat} (htarget : b.find uri = some target)
    (hparent : IsParent target) (hlf : Creates target req lfData)
    (hnot : lfData.path ∉ b.resources.uris) :
    Effect b (.request uri .post req peer token now)
      (sHandler
        { b with earliestTopicMaxAge := lowerEarliest b.earliestTopicMaxAge (absMa req now) }
        lfData (absMa req now)).1
      (sHandler
        { b with earliestTopicMaxAge := lowerEarliest b.earliestTopicMaxAge (absMa req now) }
        lfData (absMa req now)).2
  /-- Data has been published to a topic. -/
  | published {uri : CStr} {req : Request} {peer : CoapAddress} {token : List Byte} {now : ℤ}
    {target : CoapResource} (observe : ℕ) (notifications : List Notification)
    (htarget : b.find uri = some target) (htopic : IsTopic target) :
    Effect b (.request uri .put req peer token now)
      { b with
        topicDB := b.topicDB.modify uri fun t =>
          { t with data := CStr.read req.data, dataMa := absMaValue req now }
        earliestDataMaxAge := lowerEarliest b.earliestDataMaxAge (absMaValue req now)
        observe }
      { response := some (({} : Pdu).respond 204), notifications }
  /-- A topic has been deleted. -/
  | deleted {uri : CStr} {req : Request} {peer : CoapAddress} {token : List Byte} {now : ℤ}
    {target : CoapResource} {topicDB : TopicDB} (htarget : b.find uri = some target)
    (htopic : IsTopic target)
    (hnodes : topicDB.nodes = b.topicDB.nodes.filter fun t => ¬Deleted uri t.path)
    (hexact : topicDB.Exact) :
    Effect b (.request uri .delete req peer token now)
      { b with topicDB, resources := b.resources.filter fun r => ¬Deleted uri r.uri }
      { response := some (({} : Pdu).respond 202) }

/-- An accepted payload goes on with its link format. -/
theorem hndPostBroker_of_linkText {b : Broker} {resource : CoapResource} {request : Request}
    {now : ℤ} {p : List Byte} {attrs : List (List Byte × List Byte)}
    (htext : LinkText (CStr.read request.data).bytes p attrs) :
    hndPostBroker b resource request now = postLinkFormat b request
      (linkFormatBelow resource (CStr.read request.data) p attrs) now := by
  have hp : IsPath p := htext.choose_spec.2.1
  have hpath : (CStr.read p).bytes = p := CStr.read_of_notMem (hp.notMem (by decide))
  rw [hndPostBroker, LinkFormat.parse_of_linkText htext]
  simp only [bind, Except.bind, LinkFormat.setPath, hpath]
  rfl

/-- An accepted payload goes on with its link format; any other makes a malformed request. -/
theorem hndPostBroker_eq (b : Broker) (resource : CoapResource) (request : Request) (now : ℤ) :
    (∃ p attrs, LinkText (CStr.read request.data).bytes p attrs ∧
      hndPostBroker b resource request now = postLinkFormat b request
        (linkFormatBelow resource (CStr.read request.data) p attrs) now) ∨
    hndPostBroker b resource request now =
      .ok (b, { response := some (({} : Pdu).respond 400) }) := by
  by_cases hcheck : checkLinkFormat (CStr.read request.data)
  · obtain ⟨p, attrs, htext⟩ := checkLinkFormat_iff.1 hcheck
    exact .inl ⟨p, attrs, htext, hndPostBroker_of_linkText htext⟩
  · right
    rw [hndPostBroker, LinkFormat.parse_of_not hcheck]
    simp only [bind, Except.bind]
    rw [postLinkFormat, if_pos (by simp [isMr, LinkFormat.isAttributeExist, LinkFormat.setPath])]

/-- A request for a new topic creates it. -/
theorem hndPostBroker_of_creates {b : Broker} {resource : CoapResource} {request : Request}
    {lfData : LinkFormat} (now : ℤ) (h : Creates resource request lfData)
    (hnot : lfData.path ∉ b.resources.uris) :
    hndPostBroker b resource request now = .ok (sHandler
      { b with earliestTopicMaxAge := lowerEarliest b.earliestTopicMaxAge (absMa request now) }
      lfData (absMa request now)) := by
  obtain ⟨p, attrs, htext, rfl, hmr, huscf⟩ := h
  rw [hndPostBroker_of_linkText htext, postLinkFormat, hmr, huscf]
  simp only [bind, Except.bind, Bool.false_eq_true, if_false]
  rw [isResourceExist, if_neg (by simpa using hnot)]

/-- A request to create a topic is refused, renews the expiry of a topic, or creates one. -/
theorem hndPostBroker_cases {b b' : Broker} {resource : CoapResource} {request : Request}
    {now : ℤ} {out : Output} (hb : Agreement b)
    (h : hndPostBroker b resource request now = .ok (b', out)) :
    (b' = b ∧ ∃ pdu, out = { response := some pdu } ∧
      (pdu.code = coapResponseCode 400 ∨ pdu.code = coapResponseCode 406)) ∨
    ∃ lfData, Creates resource request lfData ∧
      (lfData.path ∈ b.resources.uris ∧
        b' = { b with
          topicDB := b.topicDB.modify lfData.path fun t => { t with topicMa := absMa request now }
          earliestTopicMaxAge := lowerEarliest b.earliestTopicMaxAge (absMa request now) } ∧
        out = { response := some (({} : Pdu).respond 403) } ∨
      lfData.path ∉ b.resources.uris ∧ (b', out) = sHandler
        { b with earliestTopicMaxAge := lowerEarliest b.earliestTopicMaxAge (absMa request now) }
        lfData (absMa request now)) := by
  rcases hndPostBroker_eq b resource request now with ⟨p, attrs, htext, heq⟩ | heq
  · rw [heq, postLinkFormat] at h
    generalize hlf : linkFormatBelow resource (CStr.read request.data) p attrs = lfData at h
    by_cases hmr : isMr request lfData
    · rw [if_pos hmr] at h
      cases h
      exact .inl ⟨rfl, _, rfl, .inl rfl⟩
    rw [if_neg hmr] at h
    rcases huscf : isUscf lfData with f | _ | _ <;> rw [huscf] at h
    · cases h
    · have hcreates : Creates resource request lfData :=
        ⟨p, attrs, htext, hlf.symm, eq_false_of_ne_true hmr, huscf⟩
      refine .inr ⟨lfData, hcreates, ?_⟩
      by_cases hex : lfData.path ∈ b.resources.uris
      · rw [isResourceExist, if_pos (decide_eq_true hex),
          TopicDB.updateTopic_eq hb.exact (hb.mem_paths_of_slash hex hcreates.slash_mem)] at h
        cases h
        exact .inl ⟨hex, rfl, rfl⟩
      · rw [isResourceExist, if_neg (by simpa using hex)] at h
        cases h
        exact .inr ⟨hex, rfl⟩
    · cases h
      exact .inl ⟨rfl, _, rfl, .inr rfl⟩
  · rw [heq] at h
    cases h
    exact .inl ⟨rfl, _, rfl, .inl rfl⟩

/-- A request to publish is refused without any change, or the data and its expiry are written
    to the store. -/
theorem hndPutTopic_cases {b b' : Broker} {resource : CoapResource} {request : Request} {now : ℤ}
    {out : Output} (hb : Agreement b) (hmem : resource.uri ∈ b.topicDB.paths)
    (h : hndPutTopic b resource request now = .ok (b', out)) :
    (b' = b ∧ ∃ pdu, out = { response := some pdu } ∧ pdu.code ≠ coapResponseCode 204) ∨
    ∃ n t observe notifications, request.firstOption coapOptionContentType = some n ∧
      stoi (findAttributeValue resource ctName) = .ok (toInt n) ∧
      Keyed.find TopicData.path b.topicDB.nodes resource.uri = some t ∧
      b' = { b with
        topicDB := b.topicDB.modify resource.uri fun t =>
          { t with data := CStr.read request.data, dataMa := absMaValue request now }
        earliestDataMaxAge := lowerEarliest b.earliestDataMaxAge (absMaValue request now)
        observe } ∧
      out = { response := some (({} : Pdu).respond 204), notifications } := by
  obtain ⟨t, ht⟩ := Option.isSome_iff_exists.1 (Keyed.find_isSome.2 hmem)
  rw [hndPutTopic] at h
  rcases hopt : request.firstOption coapOptionContentType with _ | n <;> rw [hopt] at h
  · cases h
    exact .inl ⟨rfl, _, rfl, by decide⟩
  dsimp only at h
  rcases hct : stoi (findAttributeValue resource ctName) with f | ct <;> rw [hct] at h
  · cases h
  rw [TopicDB.copyTopic, TopicDB.getTopic_eq hb.exact, ht,
    TopicDB.updateTopic_eq hb.exact hmem] at h
  simp only [bind, Except.bind] at h
  split_ifs at h with hn
  · cases h
    exact .inl ⟨rfl, _, rfl, by decide⟩
  rcases hmark : markAndNotify (notifyTopic { b with
      topicDB := b.topicDB.modify resource.uri fun t =>
        { t with data := CStr.read request.data, dataMa := absMaValue request now }
      earliestDataMaxAge := lowerEarliest b.earliestDataMaxAge (absMaValue request now) } now)
    b.observe b.resources resource with f | ⟨resources, observe, ns⟩ <;> rw [hmark] at h
  · cases h
  · cases h
    rw [markAndNotify_eq hb.table.clean hmark, not_ne_iff.1 hn]
    exact .inr ⟨n, t, observe, ns, rfl, rfl, ht, rfl, rfl⟩

theorem Broker.find_spec {b : Broker} {uri : CStr} {r : CoapResource} (h : b.find uri = some r) :
    r ∈ b.resources ∧ r.uri = uri :=
  ⟨Keyed.mem_of_find h, Keyed.key_of_find h⟩

/-- A request to read a topic goes to `hnd_get_topic`. -/
theorem step_get {b : Broker} {uri : CStr} {r : CoapResource} (hfind : b.find uri = some r)
    (htopic : IsTopic r) (req : Request) (peer : CoapAddress) (token : List Byte) (now : ℤ) :
    step b (.request uri .get req peer token now) =
      (hndGetTopic b r peer token (some req) now).map fun response => (b, { response }) := by
  rw [step, hfind]
  dsimp only
  rw [htopic.handler]
  change callHandler b r req peer token now .hndGetTopic = _
  rw [callHandler]
  rcases hndGetTopic b r peer token (some req) now with f | response <;> rfl

/-- A request to publish to a topic goes to `hnd_put_topic`. -/
theorem step_put {b : Broker} {uri : CStr} {r : CoapResource} (hfind : b.find uri = some r)
    (htopic : IsTopic r) (req : Request) (peer : CoapAddress) (token : List Byte) (now : ℤ) :
    step b (.request uri .put req peer token now) = hndPutTopic b r req now := by
  rw [step, hfind]
  dsimp only
  rw [htopic.handler]
  rfl

/-- A request to publish is refused, or stores its data in the record of a topic. -/
theorem step_put_cases {b b' : Broker} (hb : Agreement b) {uri : CStr} {req : Request}
    {peer : CoapAddress} {token : List Byte} {now : ℤ} {out : Output}
    (h : step b (.request uri .put req peer token now) = .ok (b', out)) :
    (b' = b ∧ out.code ≠ some (coapResponseCode 204)) ∨
    ∃ target n t observe notifications, b.find uri = some target ∧ IsTopic target ∧
      req.firstOption coapOptionContentType = some n ∧
      stoi (findAttributeValue target ctName) = .ok (toInt n) ∧
      Keyed.find TopicData.path b.topicDB.nodes uri = some t ∧
      b' = { b with
        topicDB := b.topicDB.modify uri fun t =>
          { t with data := CStr.read req.data, dataMa := absMaValue req now }
        earliestDataMaxAge := lowerEarliest b.earliestDataMaxAge (absMaValue req now)
        observe } ∧
      out = { response := some (({} : Pdu).respond 204), notifications } := by
  rcases hfind : b.find uri with _ | target
  · rw [step, hfind] at h
    cases h
    exact .inl ⟨rfl, by decide⟩
  obtain ⟨hr, rfl⟩ := Broker.find_spec hfind
  rcases hb.table.resource target hr with htopic | rfl
  · rw [step_put hfind htopic] at h
    rcases hndPutTopic_cases hb (hb.table.mem_paths_of_isTopic hr htopic) h with
      ⟨rfl, pdu, rfl, hne⟩ | ⟨n, t, observe, ns, hopt, hct, ht, rfl, rfl⟩
    · exact .inl ⟨rfl, fun heq => hne (Option.some.inj heq)⟩
    · exact .inr ⟨target, n, t, observe, ns, rfl, htopic, hopt, hct, ht, rfl, rfl⟩
  · -- the built-in resource has no handler for it
    rw [step, hfind] at h
    cases h
    exact .inl ⟨rfl, by decide⟩

/-- A request to create a topic goes to `hnd_post_broker` or `hnd_post_topic`, which are the
    same. -/
theorem step_post {b : Broker} (hb : Agreement b) {uri : CStr} {target : CoapResource}
    (hfind : b.find uri = some target) (req : Request) (peer : CoapAddress) (token : List Byte)
    (now : ℤ) :
    step b (.request uri .post req peer token now) = hndPostBroker b target req now := by
  rw [step, hfind]
  rcases hb.table.resource target (Broker.find_spec hfind).1 with htopic | hbuiltin
  · dsimp only
    rw [htopic.handler]
    rfl
  · dsimp only
    rw [hbuiltin]
    rfl

/-- Calling the handler for a method of a registered resource has one of the effects. -/
theorem callHandler_effect {b b' : Broker} {out : Output} {uri : CStr} {method : Method}
    {r : CoapResource} {h : Handler} {req : Request} {peer : CoapAddress} {token : List Byte}
    {now : ℤ} (hb : Agreement b) (hfind : b.find uri = some r)
    (hmethod : r.handler.of method = some h)
    (hcall : callHandler b r req peer token now h = .ok (b', out)) :
    Effect b (.request uri method req peer token now) b' out := by
  obtain ⟨hr, rfl⟩ := Broker.find_spec hfind
  have hpost : IsParent r → hndPostBroker b r req now = .ok (b', out) →
      Effect b (.request r.uri .post req peer token now) b' out := by
    intro hparent hp
    rcases hndPostBroker_cases hb hp with
      ⟨rfl, -⟩ | ⟨lfData, hlf, ⟨hmem, rfl, rfl⟩ | ⟨hnot, heq⟩⟩
    · exact .idle
    · exact .refreshed hfind hparent hlf hmem
    · cases heq
      exact .created hfind hparent hlf hnot
  rcases hb.table.resource r hr with htopic | hbuiltin
  · rw [htopic.handler] at hmethod
    cases method <;> cases hmethod
    · rw [callHandler] at hcall
      rcases hget : hndGetTopic b r peer token (some req) now with f | pdu <;> rw [hget] at hcall
      · cases hcall
      · cases hcall
        exact .idle
    · exact hpost (.inr htopic) hcall
    · rcases hndPutTopic_cases hb (hb.table.mem_paths_of_isTopic hr htopic) hcall with
        ⟨rfl, -⟩ | ⟨n, t, observe, ns, -, -, -, rfl, rfl⟩
      · exact .idle
      · exact .published observe ns hfind htopic
    · obtain ⟨topicDB, hnodes, hexact, hdel⟩ := hndDeleteTopic_eq hb hr htopic
      rw [callHandler, hdel] at hcall
      cases hcall
      exact .deleted hfind htopic hnodes hexact
  · cases hbuiltin
    cases method <;> cases hmethod
    · cases hcall
      exact .idle
    · exact hpost (.inl rfl) hcall

/-- Every step from a state that agrees has one of the effects. -/
theorem step_effect {b b' : Broker} {e : Event} {out : Output} (hb : Agreement b)
    (h : step b e = .ok (b', out)) : Effect b e b' out := by
  cases e with
  | request uri method req peer token now =>
    rw [step] at h
    rcases hfind : b.find uri with _ | r <;> rw [hfind] at h
    · cases h
      exact .idle
    dsimp only at h
    rcases hmethod : r.handler.of method with _ | hd <;> rw [hmethod] at h
    · cases h
      exact .idle
    · exact callHandler_effect hb hfind hmethod h
  | observe uri peer token =>
    cases h
    exact .observers uri _ fun r => r.addObserver_eq peer token
  | unobserve uri peer token =>
    cases h
    exact .observers uri _ fun r => r.deleteObserver_eq peer token

/-! ## Every step keeps the agreement -/

/-- The resources the `POST` handlers have created are the topics. -/
theorem Agreement.isTopic {b : Broker} (hb : Agreement b) {r : CoapResource}
    (hr : r ∈ b.resources) (h : r.handler = topicHandlers) : IsTopic r := by
  rcases hb.table.resource r hr with htopic | rfl
  · exact htopic
  · exact absurd h (by decide)

theorem Agreement.of_eq {b : Broker} {ps : List CStr} {t : ResourceTable}
    (h : TableAgreement IsTopic IsBuiltin ps t) (hdb : b.topicDB.paths = ps)
    (hres : b.resources = t) (hexact : b.topicDB.Exact) : Agreement b := by
  subst hdb hres
  exact ⟨h, hexact⟩

theorem Effect.agreement {b b' : Broker} {e : Event} {out : Output} (h : Effect b e b' out)
    (hb : Agreement b) : Agreement b' := by
  cases h with
  | idle => exact hb
  | observers uri f hf =>
    exact ⟨hb.table.changeObservers uri hf (fun _ s hr => hr.withSubscribers s)
      fun _ hr => hr.not_observable, hb.exact⟩
  | refreshed htarget hparent hlf hmem =>
    exact Agreement.of_eq hb.table (TopicDB.paths_modify fun _ => rfl) rfl
      (hb.exact.modify fun _ => rfl)
  | @created uri req peer token now target lfData htarget hparent hlf hnot =>
    have huri := uri_ofLinkFormat lfData coapResourceFlagsReleaseUri
    have hpath : lfData.path ∉ b.topicDB.paths := fun h => hnot (hb.table.uri_mem h)
    refine Agreement.of_eq (hb.table.add (hlf.isTopic hparent) (dirty_ofLinkFormat _ _)
      (by exact huri ▸ hnot)) ?_ rfl (hb.exact.addTopic hlf.path_ne_empty _)
    rw [sHandler, TopicDB.addTopic_of_notMem hpath hlf.path_ne_empty]
    change TopicDB.paths ⟨_, _⟩ = b.topicDB.paths ++ [_]
    rw [TopicDB.paths, List.map_append]
    exact congrArg _ (congrArg (fun u => [u]) huri.symm)
  | published observe ns htarget htopic =>
    exact Agreement.of_eq hb.table (TopicDB.paths_modify fun _ => rfl) rfl
      (hb.exact.modify fun _ => rfl)
  | @deleted uri req peer token now target topicDB htarget htopic hnodes hexact =>
    refine Agreement.of_eq (hb.table.filter fun u => ¬Deleted uri u) ?_ rfl hexact
    rw [TopicDB.paths, hnodes]
    exact Keyed.keys_filter fun u => ¬Deleted uri u

theorem agreement_boot : Agreement boot where
  table := {
    paths := List.nodup_nil
    uris := List.nodup_singleton _
    resource := fun _ hr => .inr (List.mem_singleton.1 hr)
    mem_paths := fun u => by
      refine iff_of_false List.not_mem_nil ?_
      rintro ⟨r, hr, htopic, -⟩
      have := htopic.handler
      rw [List.mem_singleton.1 hr] at this
      exact absurd this (by decide)
    clean := fun r hr => by
      rw [List.mem_singleton.1 hr]
      rfl }
  exact := ⟨rfl, fun t ht => absurd ht List.not_mem_nil⟩

/-- Every reachable state agrees. -/
theorem Reachable.agreement {b : Broker} (h : Reachable step boot b) : Agreement b :=
  h.invariant agreement_boot fun _ _ _ _ hb hs => (step_effect hb hs).agreement hb

end CoapBroker.Cpp
