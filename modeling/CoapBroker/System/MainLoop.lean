import CoapBroker.System.Expiry
import CoapBroker.System.Publishing

/-!
# The main loop

An iteration of the main loop waits for a message without a limit, handles it, and then sweeps
the data and the topics that have expired. So a topic that expires while the loop waits is
still there when the message is handled.

The handlers look at the expiry of the data, but not at that of the topic: they serve such a
topic, and an iteration does what it should exactly if the topic it addresses has not expired
since the last sweep and, when it publishes, does not expire before the sweep that follows
(`expired_topics_served_iff`).
-/

namespace CoapBroker

/-! ## The loop -/

/-- A message for the main loop: a request. -/
def Event.IsMessage : Event → Prop
  | .request _ _ _ _ _ _ | .discover _ _ _ _ => True
  | _ => False

/-- What happens besides the handling of messages and the sweeps: libcoap adds or removes an
    observer, or a message comes from the bridge. -/
def Event.IsBeside : Event → Prop
  | .observe _ _ _ | .unobserve _ _ _ | .arrival _ _ _ => True
  | _ => False

/-- An event of the main loop. -/
inductive LoopEvent
  /-- An iteration: a message is handled, and the sweeps are called, with the readings of the
      clock. -/
  | iteration (message : Event) (h : message.IsMessage) (dataTime topicTime : ℕ → ℤ)
  /-- Something else. -/
  | beside (e : Event) (h : e.IsBeside)

/-- The broker, with the first reading of the clock in the last topic sweep. -/
structure LoopState where
  broker : Broker
  swept : ℤ

/-- The body of the main loop. -/
def loopStep (s : LoopState) : LoopEvent → Except Fault (LoopState × Output)
  | .iteration message _ dataTime topicTime => do
    let (b, out) ← step s.broker message
    let b := topicDataMAMonitor b dataTime
    let (b, out') := topicMAMonitor b topicTime
    .ok (⟨b, topicTime 0⟩, { out with mqtt := out.mqtt ++ out'.mqtt })
  | .beside e _ => do
    let (b, out) ← step s.broker e
    .ok (⟨b, s.swept⟩, out)

/-- The state when the main loop begins, at the time `t`. -/
def loopBoot (mqttBridge rdServer : Bool) (t : ℤ) : LoopState := ⟨boot mqttBridge rdServer, t⟩

/-- Within a sweep, the clock does not go back behind its first reading. -/
def LoopEvent.ReadsForward : LoopEvent → Prop
  | .iteration _ _ dataTime topicTime =>
    (∀ i, dataTime 0 ≤ dataTime (i + 1)) ∧ ∀ i, topicTime 0 ≤ topicTime (i + 1)
  | .beside _ _ => True

/-! ## What should hold -/

/-- An iteration does not serve a topic that has expired: a request to read it or to publish to
    it is answered as if the topic did not exist, and a publish that is accepted is not
    discarded by the sweep. -/
structure ServesUnexpired (s : LoopState) (e : LoopEvent) : Prop where
  not_found : ∀ uri method req peer token now h dataTime topicTime,
    e = .iteration (.request uri method req peer token now) h dataTime topicTime →
    method = .get ∨ method = .put → ∀ x ∈ s.broker.topicDB, x.path = uri →
    Expired x.topicMa now → ∃ pdu, step s.broker (.request uri method req peer token now) =
      .ok (s.broker, { response := some pdu }) ∧ pdu.code = coapResponseCode 404
  kept : ∀ uri req peer token now h dataTime topicTime s' out,
    e = .iteration (.request uri .put req peer token now) h dataTime topicTime →
    loopStep s e = .ok (s', out) → out.code = some (coapResponseCode 204) →
    uri ∈ s'.broker.topicDB.paths

/-- A request is for the content format of the resource it is addressed to. -/
def AsksForFormat (b : Broker) (uri : CStr) (req : Request) : Prop :=
  ∃ target ct, b.find uri = some target ∧ ctAttrValue target = .ok ct ∧
    req.firstOption coapOptionContentType = some (toUnsigned ct)

/-- A topic sweep takes place, and reads for the record of the topic a time it has expired at. -/
def FoundExpired (b : Broker) (uri : CStr) (time : ℕ → ℤ) : Prop :=
  b.earliestTopicMaxAge < time 0 ∧
    ∃ i x, b.topicDB[i]? = some x ∧ x.path = uri ∧ Expired x.topicMa (time (i + 1))

/-- The topic that is read or published to has not expired since the last sweep, and a topic of
    the content format that is published does not expire before the next one. -/
structure NoExpiryBetween (s : LoopState) (e : LoopEvent) : Prop where
  since : ∀ uri method req peer token now h dataTime topicTime,
    e = .iteration (.request uri method req peer token now) h dataTime topicTime →
    method = .get ∨ method = .put → ∀ x ∈ s.broker.topicDB, x.path = uri →
    ¬(s.swept ≤ x.topicMa ∧ Expired x.topicMa now)
  before : ∀ uri req peer token now h dataTime topicTime,
    e = .iteration (.request uri .put req peer token now) h dataTime topicTime →
    AsksForFormat s.broker uri req → ¬FoundExpired s.broker uri topicTime

/-! ## The sweeps of an iteration -/

theorem foundExpired_iff {b : Broker} {uri : CStr} {time : ℕ → ℤ} :
    FoundExpired b uri time ↔
      b.earliestTopicMaxAge < time 0 ∧ uri ∈ expiredPaths TopicData.topicMa time 0 b.topicDB := by
  rw [FoundExpired, mem_expiredPaths_iff]
  simp only [Nat.zero_add]

/-- Whether a sweep finds a topic expired does not depend on the data. -/
theorem foundExpired_map {b b' : Broker} {f : TopicData → TopicData}
    (hpath : ∀ t, (f t).path = t.path) (hma : ∀ t, (f t).topicMa = t.topicMa)
    (hdb : b'.topicDB = b.topicDB.map f)
    (hearliest : b'.earliestTopicMaxAge = b.earliestTopicMaxAge) (uri : CStr) (time : ℕ → ℤ) :
    FoundExpired b' uri time ↔ FoundExpired b uri time := by
  rw [foundExpired_iff, foundExpired_iff, hdb, hearliest, expiredPaths_map hpath hma]

/-- A topic sweep keeps the topics it does not find expired. -/
theorem mem_paths_topicMAMonitor {b : Broker} (hb : Agreement b) {uri : CStr}
    (huri : uri ∈ b.topicDB.paths) (time : ℕ → ℤ) :
    uri ∈ (topicMAMonitor b time).1.topicDB.paths ↔ ¬FoundExpired b uri time := by
  rw [foundExpired_iff, topicMAMonitor_eq hb.paths hb.uris fun u hu => hb.uri_mem hu]
  have hne : b.topicDB ≠ [] := by
    rintro hnil
    rw [hnil] at huri
    exact absurd huri List.not_mem_nil
  by_cases hgate : b.earliestTopicMaxAge < time 0
  · rw [if_neg (not_or.2 ⟨hne, not_le.2 hgate⟩), and_iff_right hgate]
    dsimp only
    rw [TopicDB.paths_filter b.topicDB fun u =>
      u ∉ expiredPaths TopicData.topicMa time 0 b.topicDB, List.mem_filter, decide_eq_true_eq]
    exact and_iff_right huri
  · rw [if_pos (.inr (not_lt.1 hgate))]
    exact iff_of_true huri fun h => hgate h.1

/-- A data sweep only changes the data of the records. -/
theorem topicDataMAMonitor_topicDB {b : Broker} (hb : Agreement b) (time : ℕ → ℤ) :
    ∃ f : TopicData → TopicData, (∀ t, (f t).path = t.path) ∧ (∀ t, (f t).topicMa = t.topicMa) ∧
      (topicDataMAMonitor b time).topicDB = b.topicDB.map f ∧
      (topicDataMAMonitor b time).earliestTopicMaxAge = b.earliestTopicMaxAge := by
  rw [topicDataMAMonitor_eq hb.paths]
  split_ifs
  · exact ⟨id, fun _ => rfl, fun _ => rfl, (List.map_id _).symm, rfl⟩
  · refine ⟨_, fun t => ?_, fun t => ?_, rfl, rfl⟩
    · split_ifs <;> rfl
    · split_ifs <;> rfl

/-! ## The states between iterations -/

/-- Store and table agree, the earliest expiries are below all expiries, and no topic expires
    before the last sweep. -/
structure Swept (s : LoopState) : Prop where
  agreement : Agreement s.broker
  gate : GateBelow s.broker
  unexpired : ∀ x ∈ s.broker.topicDB, x.topicMa ≠ 0 → s.swept ≤ x.topicMa

/-- After a topic sweep, no topic expires before its first reading. -/
theorem unexpired_topicMAMonitor {b : Broker} (hb : Agreement b) (hgate : GateBelow b)
    {time : ℕ → ℤ} (hread : ∀ i, time 0 ≤ time (i + 1)) :
    ∀ x ∈ (topicMAMonitor b time).1.topicDB, x.topicMa ≠ 0 → time 0 ≤ x.topicMa := by
  rw [topicMAMonitor_eq hb.paths hb.uris fun u hu => hb.uri_mem hu]
  intro x hx h0
  split_ifs at hx with hskip
  · rcases hskip with hnil | hle
    · rw [hnil] at hx
      exact absurd hx List.not_mem_nil
    · exact hle.trans (hgate.topic x hx h0)
  · obtain ⟨hx, hkept⟩ := List.mem_filter.1 hx
    obtain ⟨i, hi⟩ := exists_not_expired hx (of_decide_eq_true hkept)
    exact (hread i).trans (not_lt.1 fun hlt => hi ⟨hlt, h0⟩)

theorem Event.IsMessage.readsForward {e : Event} (h : e.IsMessage) : e.ReadsForward := by
  cases e with
  | dataSweep time => exact absurd h not_false
  | topicSweep time => exact absurd h not_false
  | _ => trivial

theorem Event.IsBeside.readsForward {e : Event} (h : e.IsBeside) : e.ReadsForward := by
  cases e with
  | dataSweep time => exact absurd h not_false
  | topicSweep time => exact absurd h not_false
  | _ => trivial

/-- What happens besides changes no expiry of a topic. -/
theorem Event.IsBeside.topicMa {b b' : Broker} {e : Event} {out : Output} (h : e.IsBeside)
    (hb : Agreement b) (hs : step b e = .ok (b', out)) :
    ∀ x ∈ b'.topicDB, ∃ y ∈ b.topicDB, y.topicMa = x.topicMa := by
  intro x hx
  cases step_effect hb hs with
  | idle observe _ => exact ⟨x, hx, rfl⟩
  | observers uri f hf _ => exact ⟨x, hx, rfl⟩
  | arrived observe ns hfind hclone hdata =>
    dsimp only at hx
    rw [TopicDB.updateTopicData_fst] at hx
    rcases Keyed.mem_modify hx with hx | ⟨y, hy, -, rfl⟩
    · exact ⟨x, hx, rfl⟩
    · exact ⟨y, hy, rfl⟩
  | _ => exact absurd h not_false

/-- An iteration, step by step. -/
theorem loopStep_iteration {s s' : LoopState} {message : Event} {h : message.IsMessage}
    {dataTime topicTime : ℕ → ℤ} {out : Output}
    (hs : loopStep s (.iteration message h dataTime topicTime) = .ok (s', out)) :
    ∃ b out', step s.broker message = .ok (b, out') ∧ out'.response = out.response ∧
      s' = ⟨(topicMAMonitor (topicDataMAMonitor b dataTime) topicTime).1, topicTime 0⟩ := by
  rw [loopStep] at hs
  rcases hm : step s.broker message with f | ⟨b, out'⟩ <;> rw [hm] at hs
  · cases hs
  · cases hs
    exact ⟨b, out', rfl, rfl, rfl⟩

theorem Swept.loopStep {s s' : LoopState} {e : LoopEvent} {out : Output} (h : Swept s)
    (hread : e.ReadsForward) (hs : loopStep s e = .ok (s', out)) : Swept s' := by
  cases e with
  | iteration message hm dataTime topicTime =>
    obtain ⟨b, out', hstep, -, rfl⟩ := loopStep_iteration hs
    have heffect : Effect s.broker message b out' := step_effect h.agreement hstep
    have hb := heffect.agreement h.agreement
    have hgate := heffect.gateBelow h.agreement h.gate hm.readsForward
    have hdata : Effect b (.dataSweep dataTime) (topicDataMAMonitor b dataTime) {} :=
      step_effect hb rfl
    have hb' := hdata.agreement hb
    have hgate' := hdata.gateBelow hb hgate hread.1
    have htopic : Effect (topicDataMAMonitor b dataTime) (.topicSweep topicTime)
        (topicMAMonitor (topicDataMAMonitor b dataTime) topicTime).1
        (topicMAMonitor (topicDataMAMonitor b dataTime) topicTime).2 := step_effect hb' rfl
    exact ⟨htopic.agreement hb', htopic.gateBelow hb' hgate' hread.2,
      unexpired_topicMAMonitor hb' hgate' hread.2⟩
  | beside e he =>
    rw [CoapBroker.loopStep] at hs
    rcases hstep : step s.broker e with f | ⟨b, out'⟩ <;> rw [hstep] at hs
    · cases hs
    · cases hs
      have heffect := step_effect h.agreement hstep
      refine ⟨heffect.agreement h.agreement,
        heffect.gateBelow h.agreement h.gate he.readsForward, fun x hx h0 => ?_⟩
      obtain ⟨y, hy, heq⟩ := he.topicMa h.agreement hstep x hx
      rw [← heq] at h0 ⊢
      exact h.unexpired y hy h0

/-! ## One event -/

/-- A record has its topic. -/
theorem Agreement.find_of_mem {b : Broker} (hb : Agreement b) {x : TopicData} (hx : x ∈ b.topicDB) :
    ∃ r, b.find x.path = some r ∧ IsTopic r := by
  obtain ⟨r, hr, htopic, huri⟩ := (hb.mem_paths x.path).1 (List.mem_map_of_mem hx)
  exact ⟨r, huri ▸ Keyed.find_of_mem hb.uris hr, htopic⟩

/-- A topic that has a record is served. -/
theorem step_served {b : Broker} (hb : Agreement b) {x : TopicData} (hx : x ∈ b.topicDB)
    {method : Method} (hmethod : method = .get ∨ method = .put) (req : Request)
    (peer : CoapAddress) (token : List Byte) (now : ℤ) :
    ∃ b' out pdu, step b (.request x.path method req peer token now) = .ok (b', out) ∧
      out.response = some pdu ∧ pdu.code ≠ coapResponseCode 404 := by
  obtain ⟨r, hfind, htopic⟩ := hb.find_of_mem hx
  obtain ⟨hr, huri⟩ := Broker.find_spec hfind
  obtain ⟨attr, hattr, hct⟩ := htopic.ctAttrValue
  have hclone : (b.topicDB.cloneTopic r.uri).isSome :=
    TopicDB.getTopic_isSome.2 (hb.mem_paths_of_isTopic hr htopic)
  rcases hmethod with rfl | rfl
  · obtain ⟨pdu, hget, hne⟩ : ∃ pdu, hndGetTopic b r peer token (some req) now = .ok pdu ∧
        pdu.code ≠ coapResponseCode 404 := hndGetTopic_ne_notFound hct hclone (some req)
    refine ⟨b, { response := pdu }, pdu, ?_, rfl, hne⟩
    rw [step_get hfind htopic, hget]
    rfl
  · obtain ⟨b', pdu, out, hput, hpdu, hne⟩ :=
      hndPutTopic_ne_notFound hct hclone hb.notifiable req now
    exact ⟨b', out, pdu, (step_put hfind htopic req peer token now).trans hput, hpdu, hne⟩

/-- A publish that is accepted stays in the store exactly if the topic is not found expired. -/
theorem publish_kept_iff {b b' : Broker} (hb : Agreement b) {uri : CStr} {req : Request}
    {peer : CoapAddress} {token : List Byte} {now : ℤ} {out : Output}
    (hs : step b (.request uri .put req peer token now) = .ok (b', out))
    (hcode : out.code = some (coapResponseCode 204)) (dataTime topicTime : ℕ → ℤ) :
    AsksForFormat b uri req ∧
      (uri ∈ (topicMAMonitor (topicDataMAMonitor b' dataTime) topicTime).1.topicDB.paths ↔
        ¬FoundExpired b uri topicTime) := by
  have hb' : Agreement b' := (step_effect hb hs).agreement hb
  -- the publish changes the data of the records only
  obtain ⟨hasks, huri, f, hpath, hma, hdb, hearliest⟩ : AsksForFormat b uri req ∧
      uri ∈ b.topicDB.paths ∧ ∃ f : TopicData → TopicData, (∀ t, (f t).path = t.path) ∧
        (∀ t, (f t).topicMa = t.topicMa) ∧ b'.topicDB = b.topicDB.map f ∧
        b'.earliestTopicMaxAge = b.earliestTopicMaxAge := by
    rcases step_put_cases hb hs with
      ⟨-, hne⟩ | ⟨target, ct, t, observe, ns, htarget, -, hct, hopt, ht, rfl, -⟩
    · exact absurd hcode hne
    · refine ⟨⟨target, ct, htarget, hct, hopt⟩, TopicDB.mem_paths_of_getTopic ht, _, fun t => ?_,
        fun t => ?_, (TopicDB.updateTopicData_fst (dataExpiry req now) req.payload
          req.data.length).trans (Keyed.modify_eq_map hb.paths), rfl⟩
      · split_ifs <;> rfl
      · split_ifs <;> rfl
  obtain ⟨g, hgpath, hgma, hgdb, hgearliest⟩ := topicDataMAMonitor_topicDB hb' dataTime
  have hb'' : Agreement (topicDataMAMonitor b' dataTime) :=
    (step_effect hb' (e := .dataSweep dataTime) rfl).agreement hb'
  have huri' : uri ∈ (topicDataMAMonitor b' dataTime).topicDB.paths := by
    obtain ⟨x, hx, rfl⟩ := List.mem_map.1 huri
    rw [hgdb, hdb]
    refine List.mem_map.2 ⟨g (f x), List.mem_map_of_mem (List.mem_map_of_mem hx), ?_⟩
    rw [hgpath, hpath]
  refine ⟨hasks, ?_⟩
  rw [mem_paths_topicMAMonitor hb'' huri', foundExpired_map hgpath hgma hgdb hgearliest,
    foundExpired_map hpath hma hdb hearliest]

/-- A publish to a topic, for its content format, is accepted. -/
theorem step_put_of_asksForFormat {b : Broker} (hb : Agreement b) {x : TopicData}
    (hx : x ∈ b.topicDB) {req : Request} (hasks : AsksForFormat b x.path req)
    (peer : CoapAddress) (token : List Byte) (now : ℤ) :
    ∃ b' out, step b (.request x.path .put req peer token now) = .ok (b', out) ∧
      out.code = some (coapResponseCode 204) := by
  obtain ⟨r, hfind, htopic⟩ := hb.find_of_mem hx
  obtain ⟨target, ct, htarget, hct, hopt⟩ := hasks
  rw [hfind, Option.some.injEq] at htarget
  subst htarget
  obtain ⟨hr, -⟩ := Broker.find_spec hfind
  obtain ⟨t, ht⟩ := Option.isSome_iff_exists.1
    (TopicDB.getTopic_isSome.2 (hb.mem_paths_of_isTopic hr htopic))
  rw [step_put hfind htopic, hndPutTopic_notifies hb hr htopic hct hopt ht]
  exact ⟨_, _, rfl, rfl⟩

/-- An event does what it should exactly if no expiry comes in between. -/
theorem servesUnexpired_iff {s : LoopState} (h : Swept s) (e : LoopEvent) :
    ServesUnexpired s e ↔ NoExpiryBetween s e := by
  constructor
  · rintro ⟨hnot, hkept⟩
    constructor
    · rintro uri method req peer token now hm dataTime topicTime rfl hmethod x hx rfl ⟨-, hexp⟩
      obtain ⟨pdu, hs, hcode⟩ := hnot _ _ _ _ _ _ _ _ _ rfl hmethod x hx rfl hexp
      obtain ⟨b', out, pdu', hs', hpdu', hne⟩ :=
        step_served h.agreement hx hmethod req peer token now
      rw [hs] at hs'
      cases hs'
      cases hpdu'
      exact hne hcode
    · rintro uri req peer token now hm dataTime topicTime rfl hasks hfound
      obtain ⟨-, i, x, hx, rfl, -⟩ := id hfound
      -- the publish is accepted, so that the topic is there after the sweep
      obtain ⟨b', out, hs, hcode⟩ := step_put_of_asksForFormat h.agreement
        (List.mem_of_getElem? hx) hasks peer token now
      obtain ⟨-, hiff⟩ := publish_kept_iff h.agreement hs hcode dataTime topicTime
      have hloop : ∃ out', loopStep s (.iteration (.request x.path .put req peer token now) hm
          dataTime topicTime) = .ok
            (⟨(topicMAMonitor (topicDataMAMonitor b' dataTime) topicTime).1, topicTime 0⟩, out') ∧
          out'.code = out.code := by
        rw [loopStep, hs]
        exact ⟨_, rfl, rfl⟩
      obtain ⟨out', hs', hcode'⟩ := hloop
      exact hiff.1 (hkept _ _ _ _ _ _ _ _ _ _ rfl hs' (hcode'.trans hcode)) hfound
  · rintro ⟨hsince, hbefore⟩
    constructor
    · rintro uri method req peer token now hm dataTime topicTime rfl hmethod x hx hpath hexp
      exact absurd ⟨h.unexpired x hx hexp.2, hexp⟩
        (hsince _ _ _ _ _ _ _ _ _ rfl hmethod x hx hpath)
    · rintro uri req peer token now hm dataTime topicTime s' out rfl hs hcode
      obtain ⟨b', out', hstep, hresponse, rfl⟩ := loopStep_iteration hs
      have hcode' : out'.code = some (coapResponseCode 204) := by
        rw [Output.code, hresponse]
        exact hcode
      obtain ⟨hasks, hiff⟩ := publish_kept_iff h.agreement hstep hcode' dataTime topicTime
      exact hiff.2 (hbefore _ _ _ _ _ _ _ _ rfl hasks)

/-! ## Every run -/

theorem swept_of_run {mqttBridge rdServer : Bool} {t : ℤ} {s : LoopState}
    {tr : List (Transition LoopState LoopEvent Output)}
    (h : Run loopStep (loopBoot mqttBridge rdServer t) tr s)
    (hread : ∀ x ∈ tr, x.ev.ReadsForward) : Swept s := by
  refine h.invariant_trace (P := fun tr s => (∀ x ∈ tr, x.ev.ReadsForward) → Swept s) (fun _ => ?_)
    (fun tr s e out s' _ ih hs hread => ?_) hread
  · exact ⟨agreement_boot mqttBridge rdServer, ⟨fun x hx => absurd hx List.not_mem_nil,
      fun x hx => absurd hx List.not_mem_nil⟩, fun x hx => absurd hx List.not_mem_nil⟩
  · exact (ih fun x hx => hread x (List.mem_append_left _ hx)).loopStep
      (hread _ (List.mem_append_right _ (List.mem_singleton_self _))) hs

/-- In every run of the main loop, no topic that has expired is served exactly if no topic
    that is read or published to has expired since the last sweep, and none that is published
    to expires before the next one. -/
theorem expired_topics_served_iff {mqttBridge rdServer : Bool} {t : ℤ} {s : LoopState}
    {tr : List (Transition LoopState LoopEvent Output)}
    (h : Run loopStep (loopBoot mqttBridge rdServer t) tr s)
    (hread : ∀ x ∈ tr, x.ev.ReadsForward) :
    (∀ x ∈ tr, ServesUnexpired x.src x.ev) ↔ ∀ x ∈ tr, NoExpiryBetween x.src x.ev := by
  refine forall₂_congr fun x hx => servesUnexpired_iff ?_ x.ev
  obtain ⟨⟨tr', hsuf, hrun⟩, -⟩ := h.src_of_mem hx
  exact swept_of_run hrun fun y hy => hread y (hsuf.subset (List.mem_append_left _ hy))

/-- An iteration whose sweeps read the same time as its message. -/
def LoopEvent.instant (message : Event) (h : message.IsMessage) (t : ℤ) : LoopEvent :=
  .iteration message h (fun _ => t) fun _ => t

/-- A publish that comes before the topic expires. -/
theorem expired_topics_served_early :
    ∃ tr s, execTrace loopStep (loopBoot false false 0) [
        .instant (.create "ps" "<a>;ct=0" (some 10) 1) trivial 1,
        .instant (.publish "ps/a" 0 "x" none 11) trivial 11] = .ok (tr, s) ∧
      ∀ x ∈ tr, ServesUnexpired x.src x.ev := by
  obtain ⟨tr, s, hs, hma⟩ : ∃ tr s, execTrace loopStep (loopBoot false false 0) [
        .instant (.create "ps" "<a>;ct=0" (some 10) 1) trivial 1,
        .instant (.publish "ps/a" 0 "x" none 11) trivial 11] = .ok (tr, s) ∧
      ∀ x ∈ tr, ∀ y ∈ x.src.broker.topicDB, ¬Expired y.topicMa 11 := ⟨_, _, rfl, by decide⟩
  obtain ⟨hrun, hev⟩ := Run.of_execTrace .nil hs
  have hcase : ∀ x ∈ tr, x.ev = .instant (.create "ps" "<a>;ct=0" (some 10) 1) trivial 1 ∨
      x.ev = .instant (.publish "ps/a" 0 "x" none 11) trivial 11 := by
    intro x hx
    have hmem : x.ev ∈ tr.map Transition.ev := List.mem_map_of_mem hx
    rw [hev] at hmem
    simpa only [List.mem_cons, List.not_mem_nil, or_false] using hmem
  refine ⟨tr, s, hs, (expired_topics_served_iff hrun fun x hx => ?_).2 fun x hx => ?_⟩
  · rcases hcase x hx with h | h <;> rw [h] <;> exact ⟨fun _ => le_rfl, fun _ => le_rfl⟩
  · constructor
    · intro uri method req peer token now hm dataTime topicTime he hmethod y hy hpath hexp
      rcases hcase x hx with h | h <;> rw [h] at he <;> cases he
      · exact hmethod.elim (fun h => by cases h) fun h => by cases h
      · exact hma x hx y hy hexp.2
    · intro uri req peer token now hm dataTime topicTime he hasks hfound
      rcases hcase x hx with h | h <;> rw [h] at he <;> cases he
      obtain ⟨-, i, y, hy, -, hexp⟩ := hfound
      exact hma x hx y (List.mem_of_getElem? hy) hexp

/-- A publish that comes after the topic has expired is accepted, and discarded by the sweep of
    the same iteration; a read is answered; and a publish that comes in time is discarded too
    when the topic expires before the sweep. -/
theorem expired_topic_served :
    ∃ s, execRun loopStep (loopBoot false false 0)
        [.instant (.create "ps" "<a>;ct=0" (some 10) 1) trivial 1] = .ok s ∧
      (∃ s' out, loopStep s (.instant (.publish "ps/a" 0 "x" none 20) trivial 20) = .ok (s', out) ∧
        out.code = some (coapResponseCode 204) ∧ s'.broker.topicDB = []) ∧
      (∃ s' out, loopStep s (.instant (.request (CStr.lit "ps/a") .get
          { options := [⟨coapOptionContentType, []⟩], payload := none } [] [] 20) trivial 20) =
          .ok (s', out) ∧
        out.code = some (coapResponseCode 204)) ∧
      (∃ s' out, loopStep s (.iteration (.publish "ps/a" 0 "x" none 11) trivial
          (fun _ => 11) fun _ => 12) = .ok (s', out) ∧
        out.code = some (coapResponseCode 204) ∧ s'.broker.topicDB = []) ∧
      ¬ServesUnexpired s (.instant (.publish "ps/a" 0 "x" none 20) trivial 20) := by
  obtain ⟨s, hs, hx, hput, hget, hlate⟩ : ∃ s, execRun loopStep (loopBoot false false 0)
        [.instant (.create "ps" "<a>;ct=0" (some 10) 1) trivial 1] = .ok s ∧
      (∃ x ∈ s.broker.topicDB, x.path = CStr.lit "ps/a" ∧ Expired x.topicMa 20) ∧
      (∃ s' out, loopStep s (.instant (.publish "ps/a" 0 "x" none 20) trivial 20) = .ok (s', out) ∧
        out.code = some (coapResponseCode 204) ∧ s'.broker.topicDB = []) ∧
      (∃ s' out, loopStep s (.instant (.request (CStr.lit "ps/a") .get
          { options := [⟨coapOptionContentType, []⟩], payload := none } [] [] 20) trivial 20) =
          .ok (s', out) ∧
        out.code = some (coapResponseCode 204)) ∧
      ∃ s' out, loopStep s (.iteration (.publish "ps/a" 0 "x" none 11) trivial
          (fun _ => 11) fun _ => 12) = .ok (s', out) ∧
        out.code = some (coapResponseCode 204) ∧ s'.broker.topicDB = [] :=
    ⟨_, rfl, ⟨_, List.mem_cons_self, by decide⟩, ⟨_, _, rfl, by decide⟩, ⟨_, _, rfl, by decide⟩,
      ⟨_, _, rfl, by decide⟩⟩
  refine ⟨s, hs, hput, hget, hlate, fun h => ?_⟩
  obtain ⟨s', out, hput, hcode, hnil⟩ := hput
  have hkept := h.kept _ _ _ _ _ _ _ _ _ _ rfl hput hcode
  rw [hnil] at hkept
  exact absurd hkept List.not_mem_nil

end CoapBroker
