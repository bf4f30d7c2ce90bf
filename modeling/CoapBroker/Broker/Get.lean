import CoapBroker.Broker.State

/-!
# Reading a topic

`hnd_get_topic`, which answers both the read requests of clients and, without a
request, the notifications of observers.

`readResponse` is the answer to an admissible read, as a function of the record of
the topic; `hndGetTopic_request` says when it is the one that is given.
-/

namespace CoapBroker

/-! ## The handler -/

/-- The options both kinds of answer begin with: the number of the notification for an
    observer, and the content format. -/
def readOptions (observe : Option ℕ) (ct : ℤ) : Pdu :=
  let response : Pdu := match observe with
    | some n => ({} : Pdu).addOption coapOptionObserve (coapEncodeVarBytes n)
    | none => {}
  response.addOption coapOptionContentType (coapEncodeVarBytes (toUnsigned ct))

/-- The answer when there is no data, or no longer. -/
def noContent (observe : Option ℕ) (ct : ℤ) : Pdu :=
  ((readOptions observe ct).setCode 204).addData (ascii "No Content")

/-- The answer `hnd_get_topic` gives from a record at the time `now`. -/
def readResponse (temp : TopicData) (observe : Option ℕ) (ct now : ℤ) : Pdu :=
  match temp.data with
  | none => noContent observe ct
  | some data =>
    let remainingMaxageTime := temp.dataMa - now
    if remainingMaxageTime < 0 ∧ temp.dataMa ≠ 0 then noContent observe ct
    else
      let response := (readOptions observe ct).setCode 205
      let response :=
        if temp.dataMa ≠ 0 then
          response.addOption coapOptionMaxage (coapEncodeVarBytes (toUnsigned remainingMaxageTime))
        else response
      response.addData data.bytes

/-- `hnd_get_topic`. The request is `NULL` for a notification; the test for a
    registration request has no effect on the answer. -/
def hndGetTopic (b : Broker) (resource : CoapResource) (peer : CoapAddress) (token : List Byte)
    (request : Option Request) (now : ℤ) : Except Fault Pdu :=
  match ctAttrValue resource with
  | .error f => .error f
  | .ok ct =>
    let ctOpt := request.bind fun req => req.firstOption coapOptionContentType
    let observer := (resource.findObserver peer token).isSome
    let isObserveNotificationResponse := observer && request.isNone
    if ctOpt.isSome ∧ ¬isObserveNotificationResponse ∧ ctOpt ≠ some (toUnsigned ct) then
      .ok (({} : Pdu).respond 415)
    else if ctOpt.isNone ∧ ¬isObserveNotificationResponse then .ok (({} : Pdu).respond 400)
    else
      match b.topicDB.cloneTopic resource.uri with
      | none => .ok (({} : Pdu).respond 404)
      | some temp => .ok (readResponse temp (if observer then some b.observe else none) ct now)

variable {b : Broker} {resource : CoapResource} {peer : CoapAddress} {token : List Byte}
  {ct now : ℤ}

/-- The answer to a request, the content format and the topic being there. -/
theorem hndGetTopic_request (hct : ctAttrValue resource = .ok ct) (req : Request) :
    hndGetTopic b resource peer token (some req) now =
      .ok (match req.firstOption coapOptionContentType with
        | none => ({} : Pdu).respond 400
        | some n => if n ≠ toUnsigned ct then ({} : Pdu).respond 415 else
          match b.topicDB.cloneTopic resource.uri with
          | none => ({} : Pdu).respond 404
          | some temp => readResponse temp
              (if (resource.findObserver peer token).isSome then some b.observe else none)
              ct now) := by
  simp only [hndGetTopic, hct, Option.bind_some, Option.isNone_some, Bool.and_false]
  rcases req.firstOption coapOptionContentType with _ | n
  · simp
  · by_cases hn : n = toUnsigned ct
    · simp only [hn]
      rcases b.topicDB.cloneTopic resource.uri with _ | temp <;> simp
    · simp [hn]

/-- The answer to a notification of an observer, the content format and the topic being there. -/
theorem hndGetTopic_notification (hct : ctAttrValue resource = .ok ct)
    (hobs : (resource.findObserver peer token).isSome) {temp : TopicData}
    (htemp : b.topicDB.cloneTopic resource.uri = some temp) :
    hndGetTopic b resource peer token none now =
      .ok (readResponse temp (some b.observe) ct now) := by
  simp only [hndGetTopic, hct, hobs, htemp, Option.bind_none, Option.isSome_none,
    Option.isNone_none, Bool.and_self, Bool.false_eq_true, false_and, not_true_eq_false, and_false,
    if_false, if_true]

/-- The handler only fails when the content format of the topic is missing. -/
theorem hndGetTopic_ok (b : Broker) (peer : CoapAddress) (token : List Byte) (now : ℤ)
    (hct : ctAttrValue resource = .ok ct) (request : Option Request) :
    ∃ response, hndGetTopic b resource peer token request now = .ok response := by
  simp only [hndGetTopic, hct]
  rcases b.topicDB.cloneTopic resource.uri with _ | temp <;> split_ifs <;> exact ⟨_, rfl⟩

theorem options_readOptions (observe : Option ℕ) (ct : ℤ) :
    (readOptions observe ct).options =
      (observe.map fun n => (⟨coapOptionObserve, coapEncodeVarBytes n⟩ : CoapOption)).toList ++
        [⟨coapOptionContentType, coapEncodeVarBytes (toUnsigned ct)⟩] := by
  cases observe <;> rfl

/-- Without data, or with data that has expired, the answer is "No Content". -/
theorem readResponse_noContent {temp : TopicData} {observe : Option ℕ} {ct now : ℤ}
    (h : temp.data = none ∨ temp.dataMa < now ∧ temp.dataMa ≠ 0) :
    readResponse temp observe ct now = noContent observe ct := by
  rw [readResponse]
  rcases hdata : temp.data with _ | data
  · rfl
  · obtain ⟨hlt, h0⟩ := h.resolve_left (by rw [hdata]; simp)
    exact if_pos ⟨by omega, h0⟩

/-- Otherwise it has the data, the content format, and the time left if there is a limit. -/
theorem readResponse_content {temp : TopicData} {data : CStr} (observe : Option ℕ) {ct now : ℤ}
    (hdata : temp.data = some data) (h : ¬(temp.dataMa < now ∧ temp.dataMa ≠ 0))
    (hmax : temp.dataMa ≠ 0 → temp.dataMa - now < 2 ^ 32) :
    (readResponse temp observe ct now).code = coapResponseCode 205 ∧
    (readResponse temp observe ct now).data = data.bytes ∧
    (readResponse temp observe ct now).number coapOptionContentType = some (toUnsigned ct) ∧
    (readResponse temp observe ct now).number coapOptionMaxage =
      if temp.dataMa ≠ 0 then some (temp.dataMa - now).toNat else none := by
  have hct : coapDecodeVarBytes (coapEncodeVarBytes (toUnsigned ct)) = toUnsigned ct := by
    refine coapDecodeVarBytes_encode ?_
    have := Int.emod_lt_of_pos ct (by norm_num : (0 : ℤ) < 2 ^ 32)
    rw [toUnsigned]
    omega
  have heq : readResponse temp observe ct now =
      ((if temp.dataMa ≠ 0 then ((readOptions observe ct).setCode 205).addOption coapOptionMaxage
          (coapEncodeVarBytes (toUnsigned (temp.dataMa - now)))
        else (readOptions observe ct).setCode 205).addData data.bytes) := by
    rw [readResponse, hdata]
    exact if_neg fun hexp => h ⟨by omega, hexp.2⟩
  rw [heq]
  -- without an expiry there is no Max-Age option
  by_cases h0 : temp.dataMa = 0
  · rw [if_neg (not_not.2 h0), if_neg (not_not.2 h0)]
    refine ⟨rfl, rfl, ?_, ?_⟩
    · change ((readOptions observe ct).options.find? _).map _ = _
      rw [options_readOptions]
      cases observe <;> exact congrArg some hct
    · change ((readOptions observe ct).options.find? _).map _ = _
      rw [options_readOptions]
      cases observe <;> rfl
  · have hleft : 0 ≤ temp.dataMa - now := by
      by_contra hlt
      exact h ⟨by omega, h0⟩
    have hmaxage : coapDecodeVarBytes (coapEncodeVarBytes (toUnsigned (temp.dataMa - now))) =
        (temp.dataMa - now).toNat := by
      have hlt := hmax h0
      rw [toUnsigned_of_lt hleft hlt]
      exact coapDecodeVarBytes_encode (by omega)
    have hopts : (((readOptions observe ct).setCode 205).addOption coapOptionMaxage
        (coapEncodeVarBytes (toUnsigned (temp.dataMa - now)))).options =
        (readOptions observe ct).options ++
          [⟨coapOptionMaxage, coapEncodeVarBytes (toUnsigned (temp.dataMa - now))⟩] := by
      cases observe <;> rfl
    rw [if_pos h0, if_pos h0]
    refine ⟨by rw [Pdu.code_addData, Pdu.code_addOption, Pdu.code_setCode], rfl, ?_, ?_⟩
    · change ((Pdu.options (Pdu.addOption _ _ _)).find? _).map _ = _
      rw [hopts, options_readOptions]
      cases observe <;> exact congrArg some hct
    · change ((Pdu.options (Pdu.addOption _ _ _)).find? _).map _ = _
      rw [hopts, options_readOptions]
      cases observe <;> exact congrArg some hmaxage

/-- A record is answered with its data or with "No Content". -/
theorem readResponse_code (temp : TopicData) (observe : Option ℕ) (ct now : ℤ) :
    (readResponse temp observe ct now).code = coapResponseCode 204 ∨
      (readResponse temp observe ct now).code = coapResponseCode 205 := by
  rw [readResponse]
  split
  · exact .inl rfl
  · dsimp only
    split_ifs
    · exact .inl rfl
    · exact .inr (by rw [Pdu.code_addData, Pdu.code_addOption, Pdu.code_setCode])
    · exact .inr rfl

/-- With a record for the topic, the handler does not answer 4.04. -/
theorem hndGetTopic_ne_notFound (hct : ctAttrValue resource = .ok ct)
    (hclone : (b.topicDB.cloneTopic resource.uri).isSome) (request : Option Request) :
    ∃ response, hndGetTopic b resource peer token request now = .ok response ∧
      response.code ≠ coapResponseCode 404 := by
  obtain ⟨temp, htemp⟩ := Option.isSome_iff_exists.1 hclone
  simp only [hndGetTopic, hct, htemp]
  split_ifs
  · exact ⟨_, rfl, by rw [Pdu.code_respond]; decide⟩
  · exact ⟨_, rfl, by rw [Pdu.code_respond]; decide⟩
  all_goals
    refine ⟨_, rfl, ?_⟩
    rcases readResponse_code temp _ ct now with h | h <;> rw [h] <;> decide

/-! ## Notifications -/

/-- The handler as it is called for a notification. -/
def notifyTopic (b : Broker) (now : ℤ) : NotifyHandler := fun observe r s =>
  hndGetTopic { b with observe } r s.subscriber s.token none now

theorem ctAttrValue_of_isSome (h : (resource.findAttr ctName).isSome) :
    ∃ ct, ctAttrValue resource = .ok ct := by
  obtain ⟨a, ha⟩ := Option.isSome_iff_exists.1 h
  exact ⟨_, by rw [ctAttrValue, ha]⟩

/-- A resource can be notified when, if it is observable, its handler and its content format
    are there. -/
theorem notifiable_of_isSome (b : Broker) (now : ℤ)
    (h : resource.observable → resource.handler.get.isSome ∧ (resource.findAttr ctName).isSome) :
    Notifiable (notifyTopic b now) resource := by
  intro hobs
  obtain ⟨hget, hattr⟩ := h hobs
  refine ⟨hget, fun observe s => ?_⟩
  obtain ⟨ct, hct⟩ := ctAttrValue_of_isSome hattr
  exact hndGetTopic_ok { b with observe } s.subscriber s.token now hct none

end CoapBroker
