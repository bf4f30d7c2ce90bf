import CoapBroker.System.Agreement

/-!
# Topics below topics

A topic is created below another one by a request to this one. The request gives a path that is
relative to the topic, and comes to the same as one to the broker that gives the joined path
(`post_below_eq_post_joined`): the grammar is closed under joining paths with `/`
(`LinkText.join`), the URI of the new resource is the same one (`resourceAt_join`), and
nothing else of the handlers depends on the resource the request goes to.

That the path of a topic is one of the grammar holds in every reachable state
(`Reachable.topicPaths`).
-/

namespace CoapBroker

/-! ## Joining paths -/

/-- The element `<p>`. -/
def pathElement (p : List Byte) : List Byte := ('<' : Byte) :: (p ++ [('>' : Byte)])

/-- The path `q/p`. -/
def joinPath (q p : List Byte) : List Byte := q ++ ('/' : Byte) :: p

theorem IsPathElement.join {s t q p : List Byte} (hq : IsPathElement s q) (hp : IsPathElement t p) :
    IsPathElement (pathElement (joinPath q p)) (joinPath q p) where
  eq := rfl
  ne_nil := List.append_ne_nil_of_left_ne_nil hq.ne_nil _
  chars := by
    intro c hc
    rcases List.mem_append.1 hc with hc | hc
    · exact hq.chars c hc
    · rcases List.mem_cons.1 hc with rfl | hc
      · decide
      · exact hp.chars c hc
  head := by
    rw [joinPath, List.head?_append_of_ne_nil _ hq.ne_nil]
    exact hq.head
  last := by
    rw [joinPath, List.getLast?_append_of_ne_nil _ (List.cons_ne_nil _ _),
      List.getLast?_cons_of_ne_nil hp.ne_nil]
    exact hp.last

/-- A text with a path of the grammar is one with the joined path as well. -/
theorem LinkText.join {s q p rest p' : List Byte} {attrs : List (List Byte × List Byte)}
    (hq : IsPathElement s q) (h : LinkText (pathElement p ++ (';' : Byte) :: rest) p' attrs) :
    p' = p ∧
      LinkText (pathElement (joinPath q p) ++ (';' : Byte) :: rest) (joinPath q p) attrs := by
  obtain ⟨t, ss, heq, hp, hne, hattrs⟩ := h
  obtain ⟨u, ss, rfl⟩ := List.exists_cons_of_ne_nil hne
  rw [intercalate_cons_cons, hp.eq] at heq
  -- there is no other `>` in the text than the one after the path
  have hpath : ('>' : Byte) ∉ p' := notMem_of_chars (by decide) hp.chars
  have hrest : ('>' : Byte) ∉ (';' : Byte) :: [(';' : Byte)].intercalate (u :: ss) := by
    rw [List.mem_cons, not_or]
    exact ⟨by decide, notMem_intercalate (by decide)
      (forall₂_notMem hattrs (by decide) (by decide) (by decide))⟩
  have hsplit : p' ++ ('>' : Byte) :: (';' : Byte) :: [(';' : Byte)].intercalate (u :: ss) =
      p ++ ('>' : Byte) :: (';' : Byte) :: rest := by
    simpa [pathElement] using heq.symm
  obtain ⟨rfl, -, hsemi⟩ := (List.append_cons_inj_of_notMem hpath hrest).1 hsplit
  refine ⟨rfl, pathElement (joinPath q p'), u :: ss, ?_, hq.join hp, hne, hattrs⟩
  rw [intercalate_cons_cons, (List.cons.inj hsemi).2]

/-- The new resource is the same one. -/
theorem resourceAt_join {topic root : CoapResource} {q : List Byte}
    (huri : topic.uri.bytes = root.uri.bytes ++ ('/' : Byte) :: q) (p : List Byte) :
    resourceAt topic p = resourceAt root (joinPath q p) := by
  rw [resourceAt, resourceAt, huri, joinPath, List.append_assoc, List.cons_append]

/-! ## The paths of topics -/

/-- The topics have paths of the grammar, below that of the broker. -/
def TopicPaths (b : Broker) : Prop :=
  ∀ u ∈ b.uris, ('/' : Byte) ∈ u.bytes →
    ∃ q, IsPathElement (pathElement q) q ∧ u.bytes = joinPath brokerPath.bytes q

/-- A URI that is new after a step is that of a topic a request has created. -/
theorem Effect.uri_mem {b b' : Broker} {e : Event} {out : Output} (h : Effect b e b' out)
    (hb : Agreement b) {u : CStr} (hu : u ∈ b'.uris) :
    u ∈ b.uris ∨ ∃ target req r, target ∈ b.resources ∧ IsParent target ∧ Creates target req r ∧
      r.uri = u := by
  cases h with
  | idle observe h => exact .inl hu
  | observers uri f hf h =>
    have hkeys : (b.resources.changeObservers uri f).uris = b.uris := by
      refine Keyed.keys_modify fun r => ?_
      obtain ⟨s, hs⟩ := hf r
      split_ifs
      · rw [hs]
      · rfl
    exact .inl (hkeys ▸ hu)
  | refreshed htarget hparent hr hmem => exact .inl hu
  | created htarget hparent hr hnot =>
    rw [topicCreated, Broker.uris, ResourceTable.add, List.map_append] at hu
    rcases List.mem_append.1 hu with hu | hu
    · exact .inl hu
    · exact .inr ⟨_, _, _, (Broker.find_spec htarget).1, hparent, hr, (List.mem_singleton.1 hu).symm⟩
  | published observe ns htarget htopic hct hopt => exact .inl hu
  | deleted htarget htopic => exact .inl (List.map_subset _ (List.filter_subset_self _) hu)
  | dataSwept time =>
    rw [topicDataMAMonitor_eq hb.paths] at hu
    split_ifs at hu
    · exact .inl hu
    · exact .inl hu
  | topicSwept time =>
    rw [topicMAMonitor_eq hb.paths hb.uris fun u hu => hb.uri_mem hu] at hu
    split_ifs at hu
    · exact .inl hu
    · exact .inl (List.map_subset _ (List.filter_subset_self _) hu)
  | arrived observe ns hfind hclone hdata => exact .inl hu

theorem Effect.topicPaths {b b' : Broker} {e : Event} {out : Output} (h : Effect b e b' out)
    (hb : Agreement b) (hpaths : TopicPaths b) : TopicPaths b' := by
  intro u hu hslash
  rcases h.uri_mem hb hu with hu | ⟨target, req, r, htarget, hparent, ⟨-, ⟨p, attrs, htext, rfl⟩, -⟩, rfl⟩
  · exact hpaths u hu hslash
  · obtain ⟨s, ss, -, hp, -⟩ := htext
    have huri : ((resourceAt target p).withAttrs attrs).uri.bytes =
        joinPath target.uri.bytes p := by
      rw [CoapResource.withAttrs_eq]
      exact hp.uri_resourceAt target
    rw [huri]
    rcases hparent with rfl | htopic
    · exact ⟨p, ⟨rfl, hp.ne_nil, hp.chars, hp.head, hp.last⟩, rfl⟩
    · have hmem : ('/' : Byte) ∈ target.uri.bytes := htopic.below.subset (by decide)
      obtain ⟨q, hq, hqt⟩ := hpaths target.uri (List.mem_map_of_mem htarget) hmem
      refine ⟨joinPath q p, hq.join hp, ?_⟩
      rw [hqt, joinPath, joinPath, joinPath, joinPath, List.append_assoc, List.cons_append]

/-- In every reachable state, the topics have paths of the grammar. -/
theorem Reachable.topicPaths {mqttBridge rdServer : Bool} {b : Broker}
    (h : Reachable step (boot mqttBridge rdServer) b) : TopicPaths b := by
  have hinv : Agreement b ∧ TopicPaths b := by
    refine h.invariant (P := fun b => Agreement b ∧ TopicPaths b)
      ⟨agreement_boot mqttBridge rdServer, fun u hu hslash => ?_⟩ fun b e out b' hb hs => ?_
    · obtain ⟨r, hr, rfl⟩ := List.mem_map.1 hu
      exact absurd hslash (isBuiltin_of_mem_boot hr).slash_notMem
    · have heffect := step_effect hb.1 hs
      exact ⟨heffect.agreement hb.1, heffect.topicPaths hb.1 hb.2⟩
  exact hinv.2

/-! ## Creating below a topic -/

/-- Requests that give the same new resource have the same outcome. -/
theorem hndPost_congr {b : Broker} {resource resource' r : CoapResource}
    {request request' : Request}
    {now : ℤ} (h : parseLinkFormat (CStr.read request.data) resource = .ok (.live r, true))
    (h' : parseLinkFormat (CStr.read request'.data) resource' = .ok (.live r, true))
    (hcf : request'.firstOption coapOptionContentType = request.firstOption coapOptionContentType)
    (hma : request'.firstOption coapOptionMaxage = request.firstOption coapOptionMaxage) :
    ∃ res, hndPost b resource request now = .ok res ∧
      hndPost b resource' request' now = .ok res := by
  have hexpiry : topicExpiry request' now = topicExpiry request now := by
    rw [topicExpiry, topicExpiry, hma]
  have hiff : IsLinkFormat request' ↔ IsLinkFormat request := by
    rw [IsLinkFormat, IsLinkFormat, hcf]
  by_cases hlf : IsLinkFormat request
  · rw [hndPost_of_accepted hlf h, hndPost_of_accepted (hiff.2 hlf) h', hexpiry]
    exact ⟨_, rfl, rfl⟩
  · rw [hndPost_of_not_isLinkFormat hlf h, hndPost_of_not_isLinkFormat (mt hiff.1 hlf) h']
    exact ⟨_, rfl, rfl⟩

/-- In every reachable state, a request to create a topic below the topic `ps/q`, with a payload
    `<p>;...` that is accepted, does the same as one to the broker with the payload `<q/p>;...`
    and the same content format and `Max-Age`: the two give the same response and the same
    state. -/
theorem post_below_eq_post_joined {mqttBridge rdServer : Bool} {b : Broker}
    (hb : Reachable step (boot mqttBridge rdServer) b) {topic root : CoapResource}
    (hlive : topic ∈ b.resources) {q : List Byte} (htopic : topic.uri.bytes = ascii "ps/" ++ q)
    (hroot : root.uri = brokerPath) {p rest : List Byte} {request request' : Request} {now : ℤ}
    (hpayload : (CStr.read request.data).bytes = ascii "<" ++ p ++ ascii ">;" ++ rest)
    (haccepted : ∃ resource, parseLinkFormat (CStr.read request.data) topic = .ok (resource, true))
    (hpayload' : (CStr.read request'.data).bytes =
      ascii "<" ++ q ++ ascii "/" ++ p ++ ascii ">;" ++ rest)
    (hcf : request'.firstOption coapOptionContentType = request.firstOption coapOptionContentType)
    (hma : request'.firstOption coapOptionMaxage = request.firstOption coapOptionMaxage) :
    ∃ b' out slot, hndPostTopic b topic request now = .ok ((b', out), slot) ∧
      hndPostBroker b root request' now = .ok ((b', out), slot) := by
  have hslash : ('/' : Byte) ∈ topic.uri.bytes := by
    rw [htopic]
    exact List.mem_append_left _ (by decide)
  obtain ⟨q', hq, hq'⟩ := hb.topicPaths topic.uri (List.mem_map_of_mem hlive) hslash
  have hjoin : ascii "ps/" ++ q = joinPath brokerPath.bytes q := rfl
  -- the path of the topic is what follows ps/ in its URI
  obtain rfl : q = q' := by
    rw [htopic, hjoin, joinPath, joinPath, List.append_cancel_left_eq] at hq'
    exact (List.cons.inj hq').2
  obtain ⟨p', attrs, htext⟩ : ∃ p' attrs, LinkText (CStr.read request.data).bytes p' attrs := by
    obtain ⟨resource, hres⟩ := haccepted
    obtain ⟨resource', status, hparse, hstatus, -⟩ :=
      parseLinkFormat_iff_linkText (CStr.read request.data) topic
    rw [hparse] at hres
    cases hres
    exact hstatus.1 rfl
  have htext' : LinkText (pathElement p ++ (';' : Byte) :: rest) p' attrs := by
    rw [hpayload] at htext
    simpa [pathElement, ascii] using htext
  obtain ⟨rfl, hjoined⟩ := htext'.join hq
  have hjoined' : LinkText (CStr.read request'.data).bytes (joinPath q p') attrs := by
    rw [hpayload']
    simpa [pathElement, joinPath, ascii] using hjoined
  have hnew := hjoined'.parseLinkFormat_eq root
  rw [← resourceAt_join (by rw [htopic, hroot, hjoin, joinPath]) p'] at hnew
  obtain ⟨⟨⟨b', out⟩, slot⟩, hpost, hpost'⟩ :=
    hndPost_congr (htext.parseLinkFormat_eq topic) hnew hcf hma
  exact ⟨b', out, slot, hpost, hpost'⟩

/-- The topic `ps/a/b`, created below `ps/a` and at the root. -/
theorem post_below_eq_post_joined_two :
    ∃ b topic b' out slot, execRun step (boot false false) [.create "ps" "<a>;ct=0" none 1] = .ok b ∧
      b.find (CStr.lit "ps/a") = some topic ∧
      hndPostTopic b topic (linkFormatRequest "<b>;ct=0") 2 = .ok ((b', out), slot) ∧
      hndPostBroker b brokerResource (linkFormatRequest "<a/b>;ct=0") 2 = .ok ((b', out), slot) := by
  obtain ⟨b, topic, hb, hfind, huri⟩ : ∃ b topic,
      execRun step (boot false false) [.create "ps" "<a>;ct=0" none 1] = .ok b ∧
      b.find (CStr.lit "ps/a") = some topic ∧ topic.uri.bytes = ascii "ps/" ++ ascii "a" :=
    ⟨_, _, rfl, rfl, by decide⟩
  have hpayload : (CStr.read (linkFormatRequest "<b>;ct=0").data).bytes =
      ascii "<" ++ ascii "b" ++ ascii ">;" ++ ascii "ct=0" := by decide
  have hpayload' : (CStr.read (linkFormatRequest "<a/b>;ct=0").data).bytes =
      ascii "<" ++ ascii "a" ++ ascii "/" ++ ascii "b" ++ ascii ">;" ++ ascii "ct=0" := by decide
  obtain ⟨b', out, slot, hpost, hpost'⟩ := post_below_eq_post_joined (.of_execRun .init hb)
    (Broker.find_spec hfind).1 huri (show brokerResource.uri = brokerPath from rfl) hpayload
    ⟨_, rfl⟩ hpayload' rfl rfl
  exact ⟨b, topic, b', out, slot, hb, hfind, hpost, hpost'⟩

end CoapBroker
