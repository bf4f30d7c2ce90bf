import CoapBroker.Broker.Response
import CoapBroker.System.LastPublish

/-!
# Publishing reaches the subscribers

A publish that is accepted is written to the store first; then the resource is marked and
`coap_check_notify` calls the handler for its observers. No resource is dirty before, so that
these are the only ones that are notified, each of them once (`publish_notifies`), and the
handler finds what has just been written (`readResponse_published`).

What an observer is told is what a read at the same instant gives, up to the number of the
notification, which has gone up in between. The payload is only sent if the message has room for
it with the token of the observer (`transmit_notice`).
-/

namespace CoapBroker

/-! ## What observers are told -/

/-- The notification of a publish at the time `now`: the payload with the content format of the
    topic and the `Max-Age` that is left, or "No Content" when the payload is empty. -/
def notice (put : Request) (now : ℤ) (observe : ℕ) (ct : ℤ) : Pdu where
  code := if put.data = [] then coapResponseCode 204 else coapResponseCode 205
  options := readHead (some observe) (toUnsigned ct)
    (if put.data = [] then none else (deadline put now).map fun d => (d - now).toNat)
  data := if put.data = [] then ascii "No Content" else put.data

/-- What is left at the time of a publish is the `Max-Age` itself. -/
theorem left_of_deadline {put : Request} {now d : ℤ} (h : deadline put now = some d) :
    ∃ v, put.firstOption coapOptionMaxage = some v ∧ d - now = v ∧ v < 2 ^ 32 := by
  obtain ⟨h, -⟩ := Option.filter_eq_some_iff.1 h
  obtain ⟨v, hv, rfl⟩ := Option.map_eq_some_iff.1 h
  exact ⟨v, hv, by omega, Request.firstOption_lt hv⟩

/-- What is read from the record right after a publish. -/
theorem readResponse_published {temp : TopicData} {put : Request} {now : ℤ}
    (hnul : (0 : Byte) ∉ put.data) (hdata : temp.data = publishedData put)
    (hma : temp.dataMa = dataExpiry put now) (observe : ℕ) (ct : ℤ) :
    readResponse temp (some observe) ct now = notice put now observe ct := by
  have heq := publishedData_eq hnul
  rw [← hdata] at heq
  by_cases hnil : put.data = []
  · rw [if_pos hnil, Option.map_eq_none_iff] at heq
    rw [readResponse_noContent (.inl heq)]
    simp only [notice, hnil, if_true]
    rfl
  rw [if_neg hnil, Option.map_eq_some_iff] at heq
  obtain ⟨d, hd, hbytes⟩ := heq
  have hdeadline := deadline_eq put now
  have hlive : ¬(temp.dataMa < now ∧ temp.dataMa ≠ 0) := by
    rintro ⟨hlt, h0⟩
    rw [hma] at hlt h0
    rw [if_neg h0] at hdeadline
    obtain ⟨v, -, hleft, -⟩ := left_of_deadline hdeadline
    omega
  rw [readResponse_eq hd hlive, hbytes, hma]
  simp only [notice, hnil, if_false, hdeadline]
  by_cases h0 : dataExpiry put now = 0
  · rw [if_pos h0, if_pos h0]
    rfl
  · rw [if_neg h0] at hdeadline
    obtain ⟨v, -, hleft, hlt⟩ := left_of_deadline hdeadline
    have hsame : toUnsigned (dataExpiry put now - now) = (dataExpiry put now - now).toNat :=
      toUnsigned_of_lt (by omega) (by omega)
    rw [if_neg h0, if_neg h0, Option.map_some, hsame]

/-- A notification that is sent: the payload is left out if there is no room for it. -/
theorem transmit_notice {past : Byte} {type : ℕ} {id : Byte × Byte} {token : List Byte}
    (htoken : token.length ≤ 8) (put : Request) (now : ℤ) (observe : ℕ) (ct : ℤ) :
    transmit past type id token (notice put now observe ct) = some { notice put now observe ct with
      data := if coapHdrSize + token.length + headSize (notice put now observe ct).options + 1 +
          (notice put now observe ct).data.length ≤ coapMaxPduSize then
        (notice put now observe ct).data else [] } := by
  have hcode : 0 < (notice put now observe ct).code ∧ (notice put now observe ct).code < 2 ^ 8 := by
    rw [notice]
    dsimp only
    split_ifs <;> decide
  exact transmit_readHead htoken hcode.1 hcode.2 _

/-! ## The publish -/

theorem findObserver_isSome {r : CoapResource} {s : CoapSubscription} (hs : s ∈ r.subscribers) :
    (r.findObserver s.subscriber s.token).isSome :=
  List.find?_isSome.2 ⟨s, hs, decide_eq_true ⟨rfl, rfl⟩⟩

/-- When a topic of a table without dirty resources is marked, each of its observers gets what is
    read from its record, with the number of the notification. -/
theorem markAndNotify_topic {b b₁ : Broker} (hb : Agreement b) {r : CoapResource}
    (hr : r ∈ b.resources) (htopic : IsTopic r) {ct : ℤ} (hct : ctAttrValue r = .ok ct)
    {t : TopicData} (ht : b₁.topicDB.cloneTopic r.uri = some t) (now : ℤ) :
    markAndNotify (notifyTopic b₁ now) b.observe b.resources r =
      .ok (b.resources, b.observe + 1,
        notificationsOf r fun _ => readResponse t (some b.observe) ct now) := by
  refine markAndNotify_spec b.observe hb.clean (List.Nodup.of_map _ hb.uris) hr
    htopic.observable (by rw [htopic.handler]; rfl) fun s hs => ?_
  exact hndGetTopic_notification (by exact hct) (by exact findObserver_isSome hs) ht

/-- A publish to a topic, for its content format, notifies every observer of the topic once. -/
theorem hndPutTopic_notifies {b : Broker} (hb : Agreement b) {r : CoapResource}
    (hr : r ∈ b.resources) (htopic : IsTopic r) {put : Request} {ct : ℤ}
    (hct : ctAttrValue r = .ok ct)
    (hopt : put.firstOption coapOptionContentType = some (toUnsigned ct)) {t : TopicData}
    (ht : b.topicDB.getTopic r.uri = some t) (now : ℤ) :
    hndPutTopic b r put now = .ok ({ b with
      topicDB := (b.topicDB.updateTopicData r.uri (dataExpiry put now) put.payload
        put.data.length).1
      earliestDataMaxAge := lowerEarliest b.earliestDataMaxAge (dataExpiry put now)
      observe := b.observe + 1 }, {
        response := some (({} : Pdu).respond 204)
        notifications := notificationsOf r fun _ => readResponse
          { t with data := publishedData put, dataMa := dataExpiry put now } (some b.observe) ct now
        mqtt := whenBridged b.mqttBridge (.publish r.uri put.data) }) := by
  have hclone : b.topicDB.cloneTopic r.uri = some t := ht
  have hsnd := @TopicDB.updateTopicData_snd b.topicDB r.uri (dataExpiry put now) put.payload
    put.data.length
  rw [ht, Option.isSome_some] at hsnd
  -- the store first, then the notifications
  have hmark : markAndNotify (notifyTopic { b with
      topicDB := (b.topicDB.updateTopicData r.uri (dataExpiry put now) put.payload
        put.data.length).1
      earliestDataMaxAge := lowerEarliest b.earliestDataMaxAge (dataExpiry put now) } now)
      b.observe b.resources r = .ok (b.resources, b.observe + 1, notificationsOf r fun _ =>
        readResponse { t with data := publishedData put, dataMa := dataExpiry put now }
          (some b.observe) ct now) :=
    markAndNotify_topic hb hr htopic hct (TopicDB.cloneTopic_updateTopicData ht
      (dataExpiry put now) put.payload put.data.length) now
  rw [hndPutTopic, hopt]
  dsimp only
  rw [hct]
  dsimp only
  rw [if_neg (not_not.2 rfl), hclone]
  dsimp only
  rcases hupd : b.topicDB.updateTopicData r.uri (dataExpiry put now) put.payload
    put.data.length with ⟨db, _ | _⟩
  · rw [hupd] at hsnd
    exact absurd hsnd Bool.false_ne_true
  · rw [hupd] at hmark
    dsimp only at hmark ⊢
    rw [hmark]
    rfl

/-- A publish that is accepted calls the handler once for every observer of the topic and for no
    other, and a read by an observer at the same instant gets the same but for the number. -/
theorem step_put_notifies {b b' : Broker} (hb : Agreement b) {uri : CStr} {put : Request}
    {peer : CoapAddress} {token : List Byte} {now : ℤ} {out : Output} (hnul : (0 : Byte) ∉ put.data)
    (hput : step b (.request uri .put put peer token now) = .ok (b', out))
    (hcode : out.code = some (coapResponseCode 204)) :
    ∃ target attr, b.find uri = some target ∧ target.findAttr ctName = some attr ∧
      out.notifications = notificationsOf target
        (fun _ => notice put now b.observe (atoi attr.value)) ∧
      ∀ s ∈ target.subscribers, ∀ get : Request,
        get.firstOption coapOptionContentType = some (toUnsigned (atoi attr.value)) →
        step b' (.request uri .get get s.subscriber s.token now) =
          .ok (b', { response := some (notice put now (b.observe + 1) (atoi attr.value)) }) := by
  -- the publish was for a topic, and for its content format
  rcases step_put_cases hb hput with
    ⟨-, hne⟩ | ⟨target, ct, t, observe, ns, hfind, htopic, hct, hopt, ht, -, -⟩
  · exact absurd hcode hne
  obtain ⟨attr, hattr, hctAttr⟩ := htopic.ctAttrValue
  obtain rfl : ct = atoi attr.value := Except.ok.inj (hct.symm.trans hctAttr)
  obtain ⟨hr, rfl⟩ := Broker.find_spec hfind
  rw [step_put hfind htopic, hndPutTopic_notifies hb hr htopic hct hopt ht now] at hput
  cases hput
  have hread : ∀ observe, readResponse
      { t with data := publishedData put, dataMa := dataExpiry put now } (some observe)
      (atoi attr.value) now = notice put now observe (atoi attr.value) :=
    fun observe => readResponse_published hnul rfl rfl observe _
  refine ⟨target, attr, hfind, hattr, ?_, fun s hs get hget => ?_⟩
  · dsimp only
    rw [hread]
  · rw [step_get (by exact hfind) htopic, hndGetTopic_request hct, hget]
    dsimp only
    rw [if_neg (not_not.2 rfl), TopicDB.cloneTopic_updateTopicData ht (dataExpiry put now)
      put.payload put.data.length, findObserver_isSome hs, if_pos rfl]
    exact congrArg (fun pdu => Except.ok (_, ({ response := some pdu } : Output)))
      (hread (b.observe + 1))

/-- In every reachable state, no resource is dirty; and a publish that is accepted calls the
    handler once for every observer of the topic and for no other, to build the notification of
    the publish. A read by an observer at the same instant gets the same response, but for the
    number of the notification, which is the next one. Of either response, an observer with a
    token receives the options, and the data if that fits behind them. -/
theorem publish_notifies {mqttBridge rdServer : Bool} {b : Broker}
    (h : Reachable step (boot mqttBridge rdServer) b) :
    (∀ r ∈ b.resources, r.dirty = false) ∧
    ∀ uri put peer token now b' out, (0 : Byte) ∉ put.data →
      step b (.request uri .put put peer token now) = .ok (b', out) →
      out.code = some (coapResponseCode 204) →
      ∃ target attr, b.find uri = some target ∧ target.findAttr ctName = some attr ∧
        out.notifications = notificationsOf target
          (fun _ => notice put now b.observe (atoi attr.value)) ∧
        (∀ s ∈ target.subscribers, ∀ get : Request,
          get.firstOption coapOptionContentType = some (toUnsigned (atoi attr.value)) →
          step b' (.request uri .get get s.subscriber s.token now) =
            .ok (b', { response := some (notice put now (b.observe + 1) (atoi attr.value)) })) ∧
        ∀ past type id token n, token.length ≤ 8 →
          transmit past type id token (notice put now n (atoi attr.value)) =
            some { notice put now n (atoi attr.value) with
              data :=
                if coapHdrSize + token.length +
                    headSize (notice put now n (atoi attr.value)).options + 1 +
                    (notice put now n (atoi attr.value)).data.length ≤ coapMaxPduSize then
                  (notice put now n (atoi attr.value)).data
                else [] } := by
  have hb : Agreement b := Reachable.agreement h
  refine ⟨hb.clean, fun uri put peer token now b' out hnul hput hcode => ?_⟩
  obtain ⟨target, attr, hfind, hattr, hns, hread⟩ := step_put_notifies hb hnul hput hcode
  exact ⟨target, attr, hfind, hattr, hns, hread,
    fun past type id token n htoken => transmit_notice htoken put now n _⟩

/-- One observer, who is told of the data with its `Max-Age`. -/
theorem publish_notifies_observer :
    ∃ b b' out, execRun step (boot false false) [.create "ps" "<a>;ct=0" none 1,
        .observe (CStr.lit "ps/a") [1] [7]] = .ok b ∧
      step b (.publish "ps/a" 0 "x" (some 5) 2) = .ok (b', out) ∧
      out.notifications = [⟨[1], [7], {
        code := coapResponseCode 205
        options := [⟨coapOptionObserve, []⟩, ⟨coapOptionContentType, []⟩, ⟨coapOptionMaxage, [5]⟩]
        data := ascii "x" }⟩] := by
  obtain ⟨b, b', out, hb, hput, hcode, hsubs⟩ : ∃ b b' out,
      execRun step (boot false false) [.create "ps" "<a>;ct=0" none 1,
        .observe (CStr.lit "ps/a") [1] [7]] = .ok b ∧
      step b (.publish "ps/a" 0 "x" (some 5) 2) = .ok (b', out) ∧
      out.code = some (coapResponseCode 204) ∧
      ∀ target, b.find (CStr.lit "ps/a") = some target → ∀ attr,
        target.findAttr ctName = some attr →
        target.subscribers = [⟨[1], [7]⟩] ∧ attr.value = CStr.lit "0" ∧ b.observe = 0 := by
    refine ⟨_, _, _, rfl, rfl, rfl, ?_⟩
    rintro _ ⟨⟩ _ ⟨⟩
    decide
  obtain ⟨-, hnotify⟩ := publish_notifies (Reachable.init.of_execRun hb)
  obtain ⟨target, attr, hfind, hattr, hns, -⟩ := hnotify _ _ _ _ 2 b' out (by decide) hput hcode
  obtain ⟨hsub, hvalue, hobserve⟩ := hsubs target hfind attr hattr
  refine ⟨b, b', out, hb, hput, ?_⟩
  rw [hns, notificationsOf, hsub, hvalue, hobserve]
  decide

/-- A publish of 1389 bytes. -/
def largePublish : Request where
  options := [⟨coapOptionContentType, coapEncodeVarBytes 0⟩]
  payload := some (List.replicate 1389 'x')

/-- An observer reads the topic at the instant of a publish: what it gets is not the notification
    it has been sent. A publish at 0 with a `Max-Age` of 0 is notified without `Max-Age`. And
    of a large payload, an observer with a token of 8 bytes receives nothing. -/
theorem publish_read_differs :
    (∃ b b' out n pdu, execRun step (boot false false) [.create "ps" "<a>;ct=0" none 1,
        .observe (CStr.lit "ps/a") [1] [7]] = .ok b ∧
      step b (.publish "ps/a" 0 "x" none 2) = .ok (b', out) ∧
      out.code = some (coapResponseCode 204) ∧ out.notifications = [⟨[1], [7], n⟩] ∧
      step b' (.request (CStr.lit "ps/a") .get
        { options := [⟨coapOptionContentType, []⟩], payload := none } [1] [7] 2) =
        .ok (b', { response := some pdu }) ∧
      n ≠ pdu ∧ n.number coapOptionObserve = some 0 ∧ pdu.number coapOptionObserve = some 1) ∧
    (∃ b b' out n, execRun step (boot false false) [.create "ps" "<a>;ct=0" none 0,
        .observe (CStr.lit "ps/a") [1] [7]] = .ok b ∧
      step b (.publish "ps/a" 0 "x" (some 0) 0) = .ok (b', out) ∧
      out.code = some (coapResponseCode 204) ∧ out.notifications = [⟨[1], [7], n⟩] ∧
      n.number coapOptionMaxage = none) ∧
    ∃ b b' out n, execRun step (boot false false) [.create "ps" "<a>;ct=0" none 1,
        .observe (CStr.lit "ps/a") [1] (List.replicate 8 0)] = .ok b ∧
      step b (.request (CStr.lit "ps/a") .put largePublish [] [] 2) = .ok (b', out) ∧
      out.code = some (coapResponseCode 204) ∧
      out.notifications = [⟨[1], List.replicate 8 0, n⟩] ∧ n.code = coapResponseCode 205 ∧
      transmit 0 coapMessageCon (0, 0) (List.replicate 8 0) n = some { n with data := [] } := by
  refine ⟨⟨_, _, _, _, _, rfl, rfl, rfl, rfl, rfl, by decide⟩,
    ⟨_, _, _, _, rfl, rfl, rfl, rfl, by decide⟩, ?_⟩
  obtain ⟨b, b', out, hb, hput, hcode, hsubs⟩ : ∃ b b' out,
      execRun step (boot false false) [.create "ps" "<a>;ct=0" none 1,
        .observe (CStr.lit "ps/a") [1] (List.replicate 8 0)] = .ok b ∧
      step b (.request (CStr.lit "ps/a") .put largePublish [] [] 2) = .ok (b', out) ∧
      out.code = some (coapResponseCode 204) ∧
      ∀ target, b.find (CStr.lit "ps/a") = some target →
        target.subscribers = [⟨[1], List.replicate 8 0⟩] := by
    refine ⟨_, _, _, rfl, rfl, rfl, ?_⟩
    rintro _ ⟨⟩
    decide
  have hnul : (0 : Byte) ∉ largePublish.data := fun h =>
    absurd (List.eq_of_mem_replicate h) (by decide)
  obtain ⟨target, attr, hfind, -, hns, -⟩ :=
    step_put_notifies (Reachable.agreement (.of_execRun .init hb)) hnul hput hcode
  rw [notificationsOf, hsubs target hfind] at hns
  refine ⟨b, b', out, _, hb, hput, hcode, hns, rfl, ?_⟩
  have hlen : (notice largePublish 2 b.observe (atoi attr.value)).data.length = 1389 := by
    change (List.replicate 1389 _).length = 1389
    exact List.length_replicate
  rw [transmit_notice (by decide), hlen, List.length_replicate, coapHdrSize, coapMaxPduSize,
    if_neg (by omega)]

end CoapBroker
