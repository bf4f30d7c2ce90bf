import CoapBroker.Broker.Get

/-!
# Publishing to a topic

`hnd_put_topic`, which writes the payload and its expiry to the store, publishes it
to the MQTT bridge and notifies the observers; and the arrival of a message from the
bridge (`msgarrvd`), which writes it to the store when it differs from the data that is
there.

Both mark the resource as dirty and notify at once, so that a table without dirty
resources stays as it is (`hndPutTopic_cases`, `msgarrvd_cases`).
-/

namespace CoapBroker

/-- The expiry of published data: `Max-Age` from now on, or `0`. -/
def dataExpiry (request : Request) (now : ℤ) : ℤ :=
  match request.firstOption coapOptionMaxage with
  | some maOptValInteger => maOptValInteger + now
  | none => 0

/-- `hnd_put_topic`. The test `ma_opt_val_integer >= 0` on an `unsigned int` always
    holds. -/
def hndPutTopic (b : Broker) (resource : CoapResource) (request : Request) (now : ℤ) :
    Except Fault (Broker × Output) :=
  match request.firstOption coapOptionContentType with
  | none => .ok (b, { response := some (({} : Pdu).respond 400) })
  | some ctOptValInteger =>
    match ctAttrValue resource with
    | .error f => .error f
    | .ok ct =>
      if toUnsigned ct ≠ ctOptValInteger then
        .ok (b, { response := some (({} : Pdu).respond 415) })
      else
        match b.topicDB.cloneTopic resource.uri with
        | none => .ok (b, { response := some (({} : Pdu).respond 404) })
        | some _ =>
          let maOptValTimeT := dataExpiry request now
          match b.topicDB.updateTopicData resource.uri maOptValTimeT request.payload
              request.data.length with
          | (topicDB, true) => do
            let mqtt := whenBridged b.mqttBridge (.publish resource.uri request.data)
            let b := { b with
              topicDB, earliestDataMaxAge := lowerEarliest b.earliestDataMaxAge maOptValTimeT }
            let (resources, observe, notifications) ←
              markAndNotify (notifyTopic b now) b.observe b.resources resource
            .ok ({ b with resources, observe },
              { response := some (({} : Pdu).respond 204), notifications, mqtt })
          | (_, false) => .ok (b, { response := some {} })

/-- `msgarrvd`: the first resource whose URI is the name of the topic; the result is
    whether there is one. -/
def msgarrvd (b : Broker) (topicName : CStr) (payload : List Byte) (now : ℤ) :
    Except Fault (Broker × Output × Bool) :=
  match b.find topicName with
  | none => .ok (b, {}, false)
  | some r =>
    match b.topicDB.cloneTopic r.uri with
    | none => .error .nullDeref
    | some tempData =>
      let tempPayload := CStr.read payload
      if compareString tempData.data (some tempPayload) then .ok (b, {}, true)
      else do
        let b := { b with
          topicDB := (b.topicDB.updateTopicData topicName 0 (some payload) payload.length).1 }
        let (resources, observe, notifications) ←
          markAndNotify (notifyTopic b now) b.observe b.resources r
        .ok ({ b with resources, observe }, { notifications }, true)

/-! ## What they come to -/

/-- The data a request publishes, as the store keeps it. -/
def publishedData (req : Request) : Option CStr := copyData req.payload req.data.length

/-- No resource is dirty. -/
def Broker.Clean (b : Broker) : Prop := ∀ r ∈ b.resources, r.dirty = false

/-- A request to publish is refused without any change, or the data and its expiry are
    written to the store. -/
theorem hndPutTopic_cases {b b' : Broker} {resource : CoapResource} {request : Request}
    {now : ℤ} {out : Output} (hb : b.Clean)
    (h : hndPutTopic b resource request now = .ok (b', out)) :
    (b' = b ∧ (∃ pdu, out = { response := some pdu } ∧ pdu.code ≠ coapResponseCode 204)) ∨
    ∃ ct observe notifications,
      ctAttrValue resource = .ok ct ∧
      request.firstOption coapOptionContentType = some (toUnsigned ct) ∧
      (b.topicDB.cloneTopic resource.uri).isSome ∧
      b' = { b with
        topicDB := (b.topicDB.updateTopicData resource.uri (dataExpiry request now) request.payload
          request.data.length).1
        earliestDataMaxAge := lowerEarliest b.earliestDataMaxAge (dataExpiry request now)
        observe } ∧
      out = {
        response := some (({} : Pdu).respond 204)
        notifications
        mqtt := whenBridged b.mqttBridge (.publish resource.uri request.data) } := by
  rw [hndPutTopic] at h
  rcases hopt : request.firstOption coapOptionContentType with _ | n <;> rw [hopt] at h
  · cases h
    exact .inl ⟨rfl, _, rfl, by decide⟩
  rcases hct : ctAttrValue resource with f | ct <;> rw [hct] at h
  · cases h
  dsimp only at h
  split_ifs at h with hn
  · cases h
    exact .inl ⟨rfl, _, rfl, by decide⟩
  rcases hclone : b.topicDB.cloneTopic resource.uri with _ | temp <;> rw [hclone] at h
  · cases h
    exact .inl ⟨rfl, _, rfl, by decide⟩
  dsimp only at h
  rcases hupd : b.topicDB.updateTopicData resource.uri (dataExpiry request now) request.payload
    request.data.length with ⟨db, _ | _⟩ <;> rw [hupd] at h
  · cases h
    exact .inl ⟨rfl, _, rfl, by decide⟩
  · dsimp only at h
    rcases hmark : markAndNotify (notifyTopic { b with
        topicDB := db
        earliestDataMaxAge := lowerEarliest b.earliestDataMaxAge (dataExpiry request now) } now)
      b.observe b.resources resource with f | ⟨resources, observe, ns⟩ <;> rw [hmark] at h
    · cases h
    · cases h
      rw [markAndNotify_eq hb hmark]
      exact .inr ⟨ct, observe, ns, rfl, by rw [not_not.1 hn], rfl, rfl, rfl⟩

/-- The handler does not fail when the content format of the topic is there and all
    resources can be notified, and with a record for the topic it does not answer 4.04. -/
theorem hndPutTopic_ne_notFound {b : Broker} {resource : CoapResource} {ct : ℤ}
    (hct : ctAttrValue resource = .ok ct) (hclone : (b.topicDB.cloneTopic resource.uri).isSome)
    (hb : ∀ r ∈ b.resources, r.observable →
      r.handler.get.isSome ∧ (r.findAttr ctName).isSome) (request : Request) (now : ℤ) :
    ∃ b' pdu out, hndPutTopic b resource request now = .ok (b', out) ∧ out.response = some pdu ∧
      pdu.code ≠ coapResponseCode 404 := by
  obtain ⟨temp, htemp⟩ := Option.isSome_iff_exists.1 hclone
  rw [hndPutTopic]
  rcases request.firstOption coapOptionContentType with _ | n
  · exact ⟨_, _, _, rfl, rfl, by rw [Pdu.code_respond]; decide⟩
  simp only [hct, htemp]
  split_ifs
  · exact ⟨b, ({} : Pdu).respond 415, _, rfl, rfl, by decide⟩
  · rcases b.topicDB.updateTopicData resource.uri (dataExpiry request now) request.payload
      request.data.length with ⟨db, _ | _⟩
    · exact ⟨_, _, _, rfl, rfl, by decide⟩
    · obtain ⟨⟨resources, observe, ns⟩, hmark⟩ := markAndNotify_ok (h := notifyTopic { b with
        topicDB := db
        earliestDataMaxAge := lowerEarliest b.earliestDataMaxAge (dataExpiry request now) } now)
        b.observe resource fun r hr =>
          ⟨notifiable_of_isSome _ now (hb r hr), notifiable_of_isSome _ now (hb r hr)⟩
      dsimp only
      rw [hmark]
      exact ⟨_, _, _, rfl, rfl, by rw [Pdu.code_respond]; decide⟩

/-- A message from the bridge is ignored, or its payload is written to the store. -/
theorem msgarrvd_cases {b b' : Broker} {topicName : CStr} {payload : List Byte} {now : ℤ}
    {out : Output} {found : Bool} (hb : b.Clean)
    (h : msgarrvd b topicName payload now = .ok (b', out, found)) :
    (b' = b ∧ out = {} ∧ (∀ r t, b.find topicName = some r → b.topicDB.cloneTopic r.uri = some t →
      t.data = some (CStr.read payload))) ∨
    ∃ r t observe notifications, b.find topicName = some r ∧
      b.topicDB.cloneTopic r.uri = some t ∧ t.data ≠ some (CStr.read payload) ∧
      b' = { b with
        topicDB := (b.topicDB.updateTopicData topicName 0 (some payload) payload.length).1
        observe } ∧
      out = { notifications } := by
  rw [msgarrvd] at h
  rcases hfind : b.find topicName with _ | r <;> rw [hfind] at h
  · cases h
    exact .inl ⟨rfl, rfl, fun _ _ h => by cases h⟩
  dsimp only at h
  rcases hclone : b.topicDB.cloneTopic r.uri with _ | t <;> rw [hclone] at h
  · cases h
  dsimp only at h
  -- data that is the same already is not stored again
  have hcmp : compareString t.data (some (CStr.read payload)) = true ↔
      t.data = some (CStr.read payload) := by
    cases t.data <;> simp [compareString]
  split_ifs at h with heq
  · cases h
    refine .inl ⟨rfl, rfl, fun r' t' hr' ht' => ?_⟩
    cases hr'
    cases hclone.symm.trans ht'
    exact hcmp.1 heq
  · rcases hmark : markAndNotify (notifyTopic { b with
        topicDB := (b.topicDB.updateTopicData topicName 0 (some payload) payload.length).1 } now)
      b.observe b.resources r with f | ⟨resources, observe, ns⟩ <;> rw [hmark] at h
    · cases h
    · cases h
      rw [markAndNotify_eq hb hmark]
      exact .inr ⟨r, t, observe, ns, rfl, hclone, fun h => heq (hcmp.2 h), rfl, rfl⟩

end CoapBroker
