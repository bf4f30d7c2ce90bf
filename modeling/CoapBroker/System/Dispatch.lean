import CoapBroker.Cpp.Effect
import CoapBroker.Libcoap.Dispatch
import CoapBroker.System.Agreement

/-!
# Addressing the topics

A topic is refused when there is a resource with its URI, but requests are handed to
resources by key, and the separators of a URI are not in its key. So a new topic may have the
key of another one, and a request for one of the two is handed to the other
(`same_key_two_topics`). The topics of a run are addressable if and only if no topic is
created with a key that is taken (`topics_addressable_iff`). The locations of a resource directory
have keys as well, so that this is about a broker without one.
-/

namespace CoapBroker

/-! ## Keys of the table -/

/-- Every topic is the only one with its key, among the resources with some handlers. -/
def OwnKeys (among : Handlers → Prop) (t : ResourceTable) : Prop :=
  ∀ r ∈ t, r.handler = topicHandlers → ∀ x ∈ t, among x.handler → x.key = r.key → x = r

instance (among : Handlers → Prop) [DecidablePred among] (t : ResourceTable) :
    Decidable (OwnKeys among t) :=
  inferInstanceAs (Decidable (∀ r ∈ t, _ → ∀ x ∈ t, _ → _ → _))

/-- The key of a URI is that of no resource with some handlers. -/
def KeyFree (among : Handlers → Prop) (t : ResourceTable) (uri : CStr) : Prop :=
  ∀ x ∈ t, among x.handler → x.key ≠ coapHashPath uri

/-- The requests for the URIs of topics are handed to them. -/
def Addressable (l : Lookup) (t : ResourceTable) : Prop :=
  ∀ r ∈ t, r.handler = topicHandlers → l.Addresses t r

section

variable {among : Handlers → Prop} {t : ResourceTable}

theorem OwnKeys.filter (h : OwnKeys among t) (p : CoapResource → Bool) :
    OwnKeys among (t.filter p) :=
  fun r hr hhandler x hx =>
    h r (List.mem_filter.1 hr).1 hhandler x (List.mem_filter.1 hx).1

/-- Observers have no influence on keys. -/
theorem OwnKeys.changeObservers (h : OwnKeys among t) (huris : Keyed.Distinct CoapResource.uri t)
    (uri : CStr) {f : CoapResource → CoapResource}
    (hf : ∀ r, ∃ subscribers, f r = { r with subscribers }) :
    OwnKeys among (t.changeObservers uri f) := by
  obtain ⟨g, hg, heq⟩ := TableAgreement.changeObservers_eq_map huris uri hf
  have hsame : ∀ r, (g r).handler = r.handler ∧ (g r).key = r.key := fun r => by
    obtain ⟨s, h, -⟩ := hg r
    rw [h]
    exact ⟨rfl, rfl⟩
  rw [heq]
  intro r' hr' hhandler x' hx' hamong hkey
  obtain ⟨r, hr, rfl⟩ := List.mem_map.1 hr'
  obtain ⟨x, hx, rfl⟩ := List.mem_map.1 hx'
  rw [(hsame r).1] at hhandler
  rw [(hsame x).1] at hamong
  rw [(hsame x).2, (hsame r).2] at hkey
  rw [h r hr hhandler x hx hamong hkey]

/-- With a new topic, the keys of the topics are still their own if and only if the key of the
    new one has been free. -/
theorem ownKeys_add_iff (h : OwnKeys among t) (hamong : among topicHandlers) {r : CoapResource}
    (hr : r.handler = topicHandlers) (hkey : r.key = coapHashPath r.uri) (hnot : r.uri ∉ t.uris) :
    OwnKeys among (t.add r) ↔ KeyFree among t r.uri := by
  have hmem : r ∈ t.add r := List.mem_append_right t (List.mem_singleton_self r)
  constructor
  · intro hadd x hx hx' hxkey
    refine hnot ?_
    rw [← hadd r hmem hr x (List.mem_append_left [r] hx) hx' (hxkey.trans hkey.symm)]
    exact List.mem_map_of_mem hx
  · intro hfree y hy hy' x hx hx' hxy
    rcases List.mem_append.1 hy with hyt | hyr <;> rcases List.mem_append.1 hx with hxt | hxr
    · exact h y hyt hy' x hxt hx' hxy
    · -- the topic `y` would have the key of the new one
      rw [List.mem_singleton.1 hxr] at hxy
      exact absurd (hxy.symm.trans hkey) (hfree y hyt (hy' ▸ hamong))
    · rw [List.mem_singleton.1 hyr] at hxy
      exact absurd (hxy.trans hkey) (hfree x hxt hx')
    · rw [List.mem_singleton.1 hxr, List.mem_singleton.1 hyr]

/-- Of two topics with one key, a lookup finds one at most. -/
theorem Addressable.ownKeys {l : Lookup} (h : Addressable l t)
    (hkey : ∀ r ∈ t, r.handler = topicHandlers → r.key = coapHashPath r.uri ∧
      PlainPath r.uri.bytes) : OwnKeys (· = topicHandlers) t := by
  have hfound : ∀ r ∈ t, r.handler = topicHandlers → l.find t r.key = some r := by
    intro r hr hhandler
    have hreq := Request.uriPath_ofPath r.uri.segments
    obtain ⟨hrkey, hplain⟩ := hkey r hr hhandler
    have := h r hr hhandler _ hreq
    rwa [Lookup.dispatch, Request.hash_eq hplain hreq, ← hrkey] at this
  intro r hr hhandler x hx hxhandler hxr
  have hboth := hfound x hx hxhandler
  rw [hxr, hfound r hr hhandler] at hboth
  exact (Option.some.inj hboth).symm

/-- The topics are addressable, however resources are looked up, if and only if no resource
    has the key of a topic. -/
theorem addressable_iff (hkey : ∀ r ∈ t, r.handler = topicHandlers →
      r.key = coapHashPath r.uri ∧ PlainPath r.uri.bytes) :
    (∀ l, Addressable l t) ↔ OwnKeys (fun _ => True) t := by
  constructor
  · intro h r hr hhandler x hx _ hxr
    exact (Lookup.addresses_iff hr (hkey r hr hhandler).1 (hkey r hr hhandler).2).1
      (fun l => h l r hr hhandler) x hx hxr
  · intro h l r hr hhandler
    exact (Lookup.addresses_iff hr (hkey r hr hhandler).1 (hkey r hr hhandler).2).2
      (fun x hx hxr => h r hr hhandler x hx trivial hxr) l

end

/-! ## The C broker -/

/-- In a state, the event creates a topic with the URI. -/
def Event.NewTopic (b : Broker) (uri : CStr) : Event → Prop
  | .request parent .post req _ _ _ => ∃ target r, b.find parent = some target ∧
      IsParent target ∧ Creates target req r ∧ r.uri = uri ∧ uri ∉ b.uris
  | _ => False

theorem pathChar_plain {s : List Byte} (h : ∀ c ∈ s, pathChar c) : PlainPath s := by
  intro c hc
  refine ⟨?_, ?_, ?_⟩
  all_goals
    rintro rfl
    exact absurd (h _ hc) (by decide)

/-- Such an event registers a topic. -/
theorem step_newTopic {b b' : Broker} {e : Event} {out : Output} {uri : CStr}
    (h : e.NewTopic b uri) (hstep : step b e = .ok (b', out)) :
    ∃ r, b'.resources = b.resources.add r ∧ r.handler = topicHandlers ∧ r.uri = uri ∧
      r.key = coapHashPath uri ∧ uri ∉ b.uris := by
  obtain ⟨parent, req, peer, token, now, rfl⟩ :
      ∃ parent req peer token now, e = .request parent .post req peer token now := by
    cases e with
    | request parent method req peer token now =>
      cases method with
      | post => exact ⟨_, _, _, _, _, rfl⟩
      | _ => exact h.elim
    | _ => exact h.elim
  obtain ⟨target, r, hfind, hparent, hr, rfl, hnot⟩ := h
  have hpost : hndPost b target req now =
      .ok (topicCreated b r (topicExpiry req now), .registered (asTopic r)) :=
    hndPost_of_creates hr hnot
  have hcall : step b (.request parent .post req peer token now) =
      .ok (topicCreated b r (topicExpiry req now)) := by
    rw [step, hfind]
    rcases hparent with rfl | htopic
    · exact congrArg (Except.map Prod.fst) hpost
    · dsimp only
      rw [htopic.handler]
      exact congrArg (Except.map Prod.fst) hpost
  rw [hcall] at hstep
  cases hstep
  exact ⟨asTopic r, rfl, rfl, rfl, (hr.isTopic hparent).key, hnot⟩

/-- Unless a topic is created, the keys stay with the topics; and if one is, this depends on
    its key. -/
theorem step_ownKeys {among : Handlers → Prop} (hamong : among topicHandlers) {b b' : Broker}
    {e : Event} {out : Output} (hb : Agreement b) (hstep : step b e = .ok (b', out))
    (hown : OwnKeys among b.resources) :
    OwnKeys among b'.resources ↔ ∀ uri, e.NewTopic b uri → KeyFree among b.resources uri := by
  by_cases hnew : ∃ uri, e.NewTopic b uri
  · obtain ⟨uri, hnew⟩ := hnew
    obtain ⟨r, hres, hhandler, rfl, hkey, hnot⟩ := step_newTopic hnew hstep
    rw [hres, ownKeys_add_iff hown hamong hhandler hkey hnot]
    refine ⟨fun hfree uri huri => ?_, fun hfree => hfree r.uri hnew⟩
    -- only one topic is created
    obtain ⟨r', hres', -, rfl, -, -⟩ := step_newTopic huri hstep
    obtain rfl := List.singleton_inj.1 (List.append_cancel_left (hres'.symm.trans hres))
    exact hfree
  · refine iff_of_true ?_ fun uri huri => absurd ⟨uri, huri⟩ hnew
    cases step_effect hb hstep with
    | idle observe h => exact hown
    | observers uri f hf h => exact hown.changeObservers hb.uris uri hf
    | refreshed htarget hparent hr hmem => exact hown
    | created htarget hparent hr hnot =>
      exact absurd ⟨_, _, _, htarget, hparent, hr, rfl, hnot⟩ hnew
    | published observe ns htarget htopic hct hopt => exact hown
    | deleted htarget htopic => exact hown.filter _
    | dataSwept time =>
      rw [topicDataMAMonitor_eq hb.paths]
      split_ifs <;> exact hown
    | topicSwept time =>
      rw [topicMAMonitor_eq hb.paths hb.uris fun u hu => hb.uri_mem hu]
      split_ifs
      · exact hown
      · exact hown.filter _
    | arrived observe ns hfind hclone hdata => exact hown

/-- The keys stay with the topics in every state of a run if and only if the keys of new
    topics have been free. -/
theorem ownKeys_iff_of_run {among : Handlers → Prop} (hamong : among topicHandlers)
    {mqttBridge rdServer : Bool} {tr : List (Transition Broker Event Output)} {b : Broker}
    (h : Run step (boot mqttBridge rdServer) tr b) :
    (∀ x ∈ tr, OwnKeys among x.dst.resources) ↔
      ∀ x ∈ tr, ∀ uri, x.ev.NewTopic x.src uri → KeyFree among x.src.resources uri := by
  have hboot := agreement_boot mqttBridge rdServer
  refine h.forall_dst_iff (C := fun b e => ∀ uri, e.NewTopic b uri → KeyFree among b.resources uri)
    hboot (fun r hr hhandler => ?_) fun b e out b' hb hstep =>
      ⟨(step_effect hb hstep).agreement hb, step_ownKeys hamong hb hstep⟩
  exact absurd ((hboot.isTopic_iff hr).1 hhandler) (isBuiltin_of_mem_boot hr).not_isTopic

/-- In a state that agrees, the keys of the topics are those of their URIs. -/
theorem Agreement.key {b : Broker} (hb : Agreement b) : ∀ r ∈ b.resources,
    r.handler = topicHandlers → r.key = coapHashPath r.uri ∧ PlainPath r.uri.bytes := by
  intro r hr hhandler
  have htopic := (hb.isTopic_iff hr).1 hhandler
  exact ⟨htopic.key, pathChar_plain htopic.chars⟩

/-! ## The C++ broker -/

namespace Cpp

/-- In a state, the event creates a topic with the URI. -/
def Event.NewTopic (b : Broker) (uri : CStr) : Event → Prop
  | .request parent .post req _ _ _ => ∃ target lfData, b.find parent = some target ∧
      IsParent target ∧ Creates target req lfData ∧ lfData.path = uri ∧ uri ∉ b.resources.uris
  | _ => False

theorem lfPathChars_plain {s : List Byte} (h : ∀ c ∈ s, c ∈ lfPathChars) : PlainPath s := by
  intro c hc
  have hall : ∀ c ∈ lfPathChars, c ≠ ('?' : Byte) ∧ c ≠ ('#' : Byte) ∧ c ≠ ('.' : Byte) :=
    forall_mem_of_all (by decide)
  exact hall c (h c hc)

/-- Such an event registers a topic. -/
theorem step_newTopic {b b' : Broker} {e : Event} {out : Output} {uri : CStr}
    (h : e.NewTopic b uri) (hstep : step b e = .ok (b', out)) :
    ∃ r, b'.resources = b.resources.add r ∧ r.handler = topicHandlers ∧ r.uri = uri ∧
      r.key = coapHashPath uri ∧ uri ∉ b.resources.uris := by
  obtain ⟨parent, req, peer, token, now, rfl⟩ :
      ∃ parent req peer token now, e = .request parent .post req peer token now := by
    cases e with
    | request parent method req peer token now =>
      cases method with
      | post => exact ⟨_, _, _, _, _, rfl⟩
      | _ => exact h.elim
    | _ => exact h.elim
  obtain ⟨target, lfData, hfind, hparent, hlf, rfl, hnot⟩ := h
  have hpost := hndPostBroker_of_creates now hlf hnot
  have hcall : step b (.request parent .post req peer token now) = .ok (sHandler
      { b with earliestTopicMaxAge := lowerEarliest b.earliestTopicMaxAge (absMa req now) }
      lfData (absMa req now)) := by
    rw [step, hfind]
    rcases hparent with rfl | htopic
    · exact hpost
    · dsimp only
      rw [htopic.handler]
      exact hpost
  rw [hcall] at hstep
  cases hstep
  have huri := uri_ofLinkFormat lfData coapResourceFlagsReleaseUri
  exact ⟨asTopic (ofLinkFormat lfData coapResourceFlagsReleaseUri), rfl, rfl, huri,
    (hlf.isTopic hparent).key.trans (congrArg coapHashPath huri), hnot⟩

/-- Unless a topic is created, the keys stay with the topics; and if one is, this depends on
    its key. -/
theorem step_ownKeys {among : Handlers → Prop} (hamong : among topicHandlers) {b b' : Broker}
    {e : Event} {out : Output} (hb : Agreement b) (hstep : step b e = .ok (b', out))
    (hown : OwnKeys among b.resources) :
    OwnKeys among b'.resources ↔ ∀ uri, e.NewTopic b uri → KeyFree among b.resources uri := by
  by_cases hnew : ∃ uri, e.NewTopic b uri
  · obtain ⟨uri, hnew⟩ := hnew
    obtain ⟨r, hres, hhandler, rfl, hkey, hnot⟩ := step_newTopic hnew hstep
    rw [hres, ownKeys_add_iff hown hamong hhandler hkey hnot]
    refine ⟨fun hfree uri huri => ?_, fun hfree => hfree r.uri hnew⟩
    obtain ⟨r', hres', -, rfl, -, -⟩ := step_newTopic huri hstep
    obtain rfl := List.singleton_inj.1 (List.append_cancel_left (hres'.symm.trans hres))
    exact hfree
  · refine iff_of_true ?_ fun uri huri => absurd ⟨uri, huri⟩ hnew
    cases step_effect hb hstep with
    | idle => exact hown
    | observers uri f hf => exact hown.changeObservers hb.table.uris uri hf
    | refreshed htarget hparent hlf hmem => exact hown
    | created htarget hparent hlf hnot =>
      exact absurd ⟨_, _, _, htarget, hparent, hlf, rfl, hnot⟩ hnew
    | published observe ns htarget htopic => exact hown
    | deleted htarget htopic hnodes hexact => exact hown.filter _

/-- The keys stay with the topics in every state of a run if and only if the keys of new
    topics have been free. -/
theorem ownKeys_iff_of_run {among : Handlers → Prop} (hamong : among topicHandlers)
    {tr : List (Transition Broker Event Output)} {b : Broker} (h : Run step boot tr b) :
    (∀ x ∈ tr, OwnKeys among x.dst.resources) ↔
      ∀ x ∈ tr, ∀ uri, x.ev.NewTopic x.src uri → KeyFree among x.src.resources uri := by
  refine h.forall_dst_iff (C := fun b e => ∀ uri, e.NewTopic b uri → KeyFree among b.resources uri)
    agreement_boot (fun r hr hhandler => ?_) fun b e out b' hb hstep =>
      ⟨(step_effect hb hstep).agreement hb, step_ownKeys hamong hb hstep⟩
  rw [List.mem_singleton.1 hr] at hhandler
  exact absurd hhandler (by decide)

/-- In a state that agrees, the keys of the topics are those of their URIs. -/
theorem Agreement.key {b : Broker} (hb : Agreement b) : ∀ r ∈ b.resources,
    r.handler = topicHandlers → r.key = coapHashPath r.uri ∧ PlainPath r.uri.bytes := by
  intro r hr hhandler
  have htopic := hb.isTopic hr hhandler
  exact ⟨htopic.key, lfPathChars_plain htopic.chars⟩

end Cpp

/-! ## Both brokers -/

/-- In all states of a run, without the resource directory, the topics are addressable, however
    resources are looked up, if and only if every topic has been created with a key that no
    resource had; and their keys are distinct if and only if it has been created with a key that
    no topic had. -/
theorem topics_addressable_iff {mqttBridge : Bool}
    {tr : List (Transition Broker Event Output)} {b : Broker}
    (h : Run step (boot mqttBridge false) tr b)
    {tr' : List (Transition Cpp.Broker Cpp.Event Output)} {b' : Cpp.Broker}
    (h' : Run Cpp.step Cpp.boot tr' b') :
    (((∀ x ∈ tr, ∀ l, Addressable l x.dst.resources) ↔ ∀ x ∈ tr, ∀ uri,
        x.ev.NewTopic x.src uri → KeyFree (fun _ => True) x.src.resources uri) ∧
      ((∀ x ∈ tr, OwnKeys (· = topicHandlers) x.dst.resources) ↔ ∀ x ∈ tr, ∀ uri,
        x.ev.NewTopic x.src uri → KeyFree (· = topicHandlers) x.src.resources uri)) ∧
    ((∀ x ∈ tr', ∀ l, Addressable l x.dst.resources) ↔ ∀ x ∈ tr', ∀ uri,
        x.ev.NewTopic x.src uri → KeyFree (fun _ => True) x.src.resources uri) ∧
      ((∀ x ∈ tr', OwnKeys (· = topicHandlers) x.dst.resources) ↔ ∀ x ∈ tr', ∀ uri,
        x.ev.NewTopic x.src uri → KeyFree (· = topicHandlers) x.src.resources uri) := by
  refine ⟨⟨?_, @ownKeys_iff_of_run (· = topicHandlers) rfl _ _ _ _ h⟩,
    ?_, @Cpp.ownKeys_iff_of_run (· = topicHandlers) rfl _ _ h'⟩
  · rw [← ownKeys_iff_of_run trivial h]
    refine forall₂_congr fun x hx => ?_
    have hb : Agreement x.src := (h.reachable_of_mem hx).agreement
    exact addressable_iff ((step_effect hb (h.step_of_mem hx)).agreement hb).key
  · rw [← Cpp.ownKeys_iff_of_run trivial h']
    refine forall₂_congr fun x hx => ?_
    have hb : Cpp.Agreement x.src := Cpp.Reachable.agreement (h'.reachable_of_mem hx)
    exact addressable_iff ((Cpp.step_effect hb (h'.step_of_mem hx)).agreement hb).key

/-- Two topics with different keys. -/
theorem topics_addressable_two :
    (∃ tr b, execTrace step (boot false false) [.create "ps" "<a>;ct=0" none 1,
        .create "ps/a" "<b>;ct=0" none 2] = .ok (tr, b) ∧
      b.topicDB.paths = [CStr.lit "ps/a", CStr.lit "ps/a/b"] ∧
      ∀ x ∈ tr, ∀ l, Addressable l x.dst.resources) ∧
    ∃ tr b, execTrace Cpp.step Cpp.boot [.create "ps" "<a>;ct=0" 1,
        .create "ps/a" "<b>;ct=0" 2] = .ok (tr, b) ∧
      b.topicDB.paths = [CStr.lit "ps/a", CStr.lit "ps/a/b"] ∧
      ∀ x ∈ tr, ∀ l, Addressable l x.dst.resources := by
  obtain ⟨tr, b, hb, hpaths, hown⟩ : ∃ tr b, execTrace step (boot false false)
        [.create "ps" "<a>;ct=0" none 1, .create "ps/a" "<b>;ct=0" none 2] = .ok (tr, b) ∧
      b.topicDB.paths = [CStr.lit "ps/a", CStr.lit "ps/a/b"] ∧
      ∀ x ∈ tr, OwnKeys (fun _ => True) x.dst.resources := ⟨_, _, rfl, by decide, by decide⟩
  obtain ⟨tr', b', hb', hpaths', hown'⟩ : ∃ tr b, execTrace Cpp.step Cpp.boot
        [.create "ps" "<a>;ct=0" 1, .create "ps/a" "<b>;ct=0" 2] = .ok (tr, b) ∧
      b.topicDB.paths = [CStr.lit "ps/a", CStr.lit "ps/a/b"] ∧
      ∀ x ∈ tr, OwnKeys (fun _ => True) x.dst.resources := ⟨_, _, rfl, by decide, by decide⟩
  have hrun := (Run.nil.of_execTrace hb).1
  have hrun' := (Run.nil.of_execTrace hb').1
  obtain ⟨⟨hiff, -⟩, hiff', -⟩ := topics_addressable_iff hrun hrun'
  exact ⟨⟨tr, b, hb, hpaths, hiff.2 ((ownKeys_iff_of_run trivial hrun).1 hown)⟩,
    tr', b', hb', hpaths', hiff'.2 ((Cpp.ownKeys_iff_of_run trivial hrun').1 hown')⟩

/-- The topics `ps/ab` and `ps/a/b` have the same key. -/
theorem same_key_two_topics :
    (∃ b, execRun step (boot false false) [.create "ps" "<ab>;ct=0" none 1,
        .create "ps" "<a/b>;ct=0" none 2] = .ok b ∧
      b.topicDB.paths = [CStr.lit "ps/ab", CStr.lit "ps/a/b"] ∧
      ¬OwnKeys (· = topicHandlers) b.resources ∧ ∀ l, ¬Addressable l b.resources) ∧
    ∃ b, execRun Cpp.step Cpp.boot [.create "ps" "<ab>;ct=0" 1,
        .create "ps" "<a/b>;ct=0" 2] = .ok b ∧
      b.topicDB.paths = [CStr.lit "ps/ab", CStr.lit "ps/a/b"] ∧
      ¬OwnKeys (· = topicHandlers) b.resources ∧ ∀ l, ¬Addressable l b.resources := by
  obtain ⟨b, hb, hpaths, hown⟩ : ∃ b, execRun step (boot false false)
        [.create "ps" "<ab>;ct=0" none 1, .create "ps" "<a/b>;ct=0" none 2] = .ok b ∧
      b.topicDB.paths = [CStr.lit "ps/ab", CStr.lit "ps/a/b"] ∧
      ¬OwnKeys (· = topicHandlers) b.resources := ⟨_, rfl, by decide, by decide⟩
  obtain ⟨b', hb', hpaths', hown'⟩ : ∃ b, execRun Cpp.step Cpp.boot
        [.create "ps" "<ab>;ct=0" 1, .create "ps" "<a/b>;ct=0" 2] = .ok b ∧
      b.topicDB.paths = [CStr.lit "ps/ab", CStr.lit "ps/a/b"] ∧
      ¬OwnKeys (· = topicHandlers) b.resources := ⟨_, rfl, by decide, by decide⟩
  have hkey := Agreement.key (Reachable.agreement (.of_execRun .init hb))
  have hkey' := Cpp.Agreement.key (Cpp.Reachable.agreement (.of_execRun .init hb'))
  exact ⟨⟨b, hb, hpaths, hown, fun l hl => hown (hl.ownKeys hkey)⟩,
    b', hb', hpaths', hown', fun l hl => hown' (hl.ownKeys hkey')⟩

end CoapBroker
