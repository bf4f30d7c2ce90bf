import CoapBroker.Broker.Get
import CoapBroker.Broker.Monitor
import CoapBroker.Cpp.Handlers

/-!
# Reading a topic in the two brokers

`hnd_get_topic` of the C broker and of the C++ broker, on the same record, resource and
request. Both refuse the same requests (`Admitted`), with the same answers. To the others, they
answer with `CoapBroker.readResponse` and with `readResponse`, which differ in two ways:

* without data, the C broker answers 2.04, while the C++ broker answers 2.05 with an empty
  payload: it tests the copy of the node where the C broker tests the data;
* with data that has an expiry to come, the C++ broker adds `Max-Age` before the content
  format, which is then rejected by `coap_add_option`.

So the answers are the same exactly when the data has expired, or is there without an expiry
(`reads_agree_iff`).
-/

namespace CoapBroker.Cpp

/-! ## Numbers -/

/-- What `std::stoi` reads, `atoi` reads too. -/
theorem atoi_of_stoi {s : CStr} {n : ℤ} (h : stoi s = .ok n) :
    atoi s = n ∧ -2 ^ 31 ≤ n ∧ n < 2 ^ 31 := by
  rw [stoi] at h
  by_cases hnum : hasNumber s.bytes = true
  · rw [if_neg (not_not.2 hnum)] at h
    by_cases hrange : strtol s.bytes < -2 ^ 31 ∨ 2 ^ 31 ≤ strtol s.bytes
    · rw [if_pos hrange] at h
      cases h
    · rw [if_neg hrange] at h
      cases h
      obtain ⟨hlow, hhigh⟩ := not_or.1 hrange
      exact ⟨Int.bmod_eq_of_le (by omega) (by omega), by omega, by omega⟩
  · rw [if_pos hnum] at h
    cases h

/-- Comparing 32-bit numbers as `int` or as `unsigned int`. -/
theorem toInt_eq_iff {n : ℕ} {ct : ℤ} (hn : n < 2 ^ 32) (hlow : -2 ^ 31 ≤ ct)
    (hhigh : ct < 2 ^ 31) :
    toInt n = ct ↔ n = toUnsigned ct := by
  have hpow : ((2 ^ 32 : ℕ) : ℤ) = 4294967296 := by norm_num
  have hmod : toInt n = ct ↔ -(((2 ^ 32 : ℕ) : ℤ) / 2) ≤ ct ∧ ct < (((2 ^ 32 : ℕ) : ℤ) + 1) / 2 ∧
      ((2 ^ 32 : ℕ) : ℤ) ∣ ct - n := Int.bmod_eq_iff (Nat.two_pow_pos 32)
  have hunsigned : toUnsigned ct = (ct % 4294967296).toNat := by norm_num [toUnsigned]
  rw [hmod, hpow, hunsigned]
  norm_num at hn hlow hhigh
  omega

/-! ## The answers -/

/-- The answer `hnd_get_topic` gives from a record at the time `now`. -/
def readResponse (temp : TopicData) (observe : Option ℕ) (ct now : ℤ) : Pdu :=
  let response : Pdu := match observe with
    | some n => ({} : Pdu).addOption coapOptionObserve (coapEncodeVarBytes n)
    | none => {}
  let ct := coapEncodeVarBytes (toUnsigned ct)
  let remainingMaxageTime := temp.dataMa - now
  if remainingMaxageTime < 0 ∧ temp.dataMa ≠ 0 then
    ((response.addOption coapOptionContentType ct).setCode 204).addData (ascii "No Content")
  else
    let response :=
      if temp.dataMa ≠ 0 then
        response.addOption coapOptionMaxage (coapEncodeVarBytes (toUnsigned remainingMaxageTime))
      else response
    ((response.addOption coapOptionContentType ct).setCode 205).addData temp.data.bytes

/-- A notification of an observer, or a request for the content format of the topic. -/
def Admitted (resource : CoapResource) (peer : CoapAddress) (token : List Byte)
    (request : Option Request) (ct : ℤ) : Prop :=
  match request with
  | none => (resource.findObserver peer token).isSome
  | some req => req.firstOption coapOptionContentType = some (toUnsigned ct)

/-- The answer to any other request. -/
def refusal (request : Option Request) : Pdu :=
  if (request.bind fun req => req.firstOption coapOptionContentType).isSome then
    ({} : Pdu).respond 415
  else ({} : Pdu).respond 400

instance (resource : CoapResource) (peer : CoapAddress) (token : List Byte)
    (request : Option Request) (ct : ℤ) : Decidable (Admitted resource peer token request ct) :=
  match request with
  | none => inferInstanceAs (Decidable (_ = true))
  | some _ => inferInstanceAs (Decidable (_ = _))

/-- The test of the content format, on `unsigned int`. -/
theorem any_toInt_eq {req : Request} {type : ℕ} {ct : ℤ} (hlow : -2 ^ 31 ≤ ct)
    (hhigh : ct < 2 ^ 31) :
    ((req.firstOption type).any fun n => toInt n = ct) =
      decide (req.firstOption type = some (toUnsigned ct)) := by
  rcases hopt : req.firstOption type with _ | n
  · rfl
  · rw [Option.any_some, decide_eq_decide, Option.some.injEq]
    exact toInt_eq_iff (Request.firstOption_lt hopt) hlow hhigh

/-- The answers of the C++ broker, the content format and the record being there. -/
theorem hndGetTopic_eq {b : Broker} {resource : CoapResource} {ct : ℤ} {temp : TopicData}
    (hct : stoi (findAttributeValue resource ctName) = .ok ct)
    (htemp : b.topicDB.copyTopic resource.uri = .ok (some temp)) (peer : CoapAddress)
    (token : List Byte) (request : Option Request) (now : ℤ) :
    hndGetTopic b resource peer token request now =
      .ok (if Admitted resource peer token request ct then
        readResponse temp (if (resource.findObserver peer token).isSome then some b.observe else none)
          ct now
      else refusal request) := by
  obtain ⟨-, hlow, hhigh⟩ := atoi_of_stoi hct
  rw [hndGetTopic, hct, htemp]
  simp only [bind, Except.bind]
  rcases request with _ | req
  · by_cases hobs : (resource.findObserver peer token).isSome
    · simp only [hobs, Option.bind_none, Option.isSome_none, Option.isNone_none, Bool.and_self,
        Admitted, Option.any_none, Bool.false_eq_true, false_and, if_false, not_true_eq_false,
        and_false, or_true, if_true, readResponse]
      split_ifs <;> rfl
    · simp only [hobs, Option.bind_none, Option.isSome_none, Option.isNone_none, Bool.false_and,
        Admitted, Option.any_none, Bool.false_eq_true, false_and, if_false, not_false_eq_true,
        and_self, if_true, refusal]
  · simp only [Option.bind_some, any_toInt_eq hlow hhigh, Option.isNone_some, Bool.and_false,
      Admitted, Bool.false_eq_true, not_false_eq_true, and_true, true_and, or_false, refusal,
      decide_eq_true_eq]
    by_cases hopt : req.firstOption coapOptionContentType = some (toUnsigned ct)
    · simp only [hopt, Option.isSome_some, Option.isNone_some, not_true_eq_false, and_false,
        Bool.false_eq_true, if_false, if_true, readResponse]
      split_ifs <;> rfl
    · by_cases hsome : (req.firstOption coapOptionContentType).isSome
      · simp only [hsome, hopt, not_false_eq_true, and_self, if_true, if_false]
      · have hnone : (req.firstOption coapOptionContentType).isNone = true := by simpa using hsome
        simp only [hsome, hnone, hopt, Bool.false_eq_true, false_and, if_false, if_true]

/-- The answers of the C broker. -/
theorem hndGetTopic_eq_c {b : CoapBroker.Broker} {resource : CoapResource} {ct : ℤ}
    {temp : CoapBroker.TopicData} (hct : ctAttrValue resource = .ok ct)
    (htemp : b.topicDB.cloneTopic resource.uri = some temp) (peer : CoapAddress)
    (token : List Byte) (request : Option Request) (now : ℤ) :
    CoapBroker.hndGetTopic b resource peer token request now =
      .ok (if Admitted resource peer token request ct then
        CoapBroker.readResponse temp
          (if (resource.findObserver peer token).isSome then some b.observe else none) ct now
      else refusal request) := by
  rcases request with _ | req
  · rw [CoapBroker.hndGetTopic, hct]
    by_cases hobs : (resource.findObserver peer token).isSome
    · simp only [hobs, Option.bind_none, Option.isSome_none, Option.isNone_none, Bool.and_self,
        Admitted, Bool.false_eq_true, false_and, if_false, not_true_eq_false, and_false, htemp,
        if_true]
    · simp only [hobs, Option.bind_none, Option.isSome_none, Option.isNone_none, Bool.false_and,
        Admitted, Bool.false_eq_true, false_and, if_false, not_false_eq_true, and_self, if_true,
        refusal]
  · rw [hndGetTopic_request hct, htemp]
    by_cases hadm : Admitted resource peer token (some req) ct
    · have hopt : req.firstOption coapOptionContentType = some (toUnsigned ct) := hadm
      rw [if_pos hadm, hopt]
      simp only [ne_eq, not_true_eq_false, if_false]
    · rw [if_neg hadm, refusal, Option.bind_some]
      rcases hopt : req.firstOption coapOptionContentType with _ | n
      · rfl
      · have hn : n ≠ toUnsigned ct := fun hn => hadm (hopt.trans (congrArg some hn))
        simp only [if_pos hn, Option.isSome_some, if_true]

/-! ## Comparing them -/

/-- The same response: the code, the payload, and the options a read can have. -/
structure SameResponse (pdu pdu' : Pdu) : Prop where
  code : pdu.code = pdu'.code
  options : ∀ o : CoapOption,
    o.type = coapOptionObserve ∨ o.type = coapOptionContentType ∨ o.type = coapOptionMaxage →
      (o ∈ pdu.options ↔ o ∈ pdu'.options)
  data : pdu.data = pdu'.data

theorem SameResponse.refl (pdu : Pdu) : SameResponse pdu pdu := ⟨rfl, fun _ _ => Iff.rfl, rfl⟩

/-- Both handlers build a response, and it is the same. -/
def SameRead (x y : Except Fault Pdu) : Prop :=
  ∃ pdu pdu', x = .ok pdu ∧ y = .ok pdu' ∧ SameResponse pdu pdu'

theorem sameRead_ok {pdu pdu' : Pdu} : SameRead (.ok pdu) (.ok pdu') ↔ SameResponse pdu pdu' := by
  constructor
  · rintro ⟨pdu, pdu', hpdu, hpdu', h⟩
    cases hpdu
    cases hpdu'
    exact h
  · exact fun h => ⟨pdu, pdu', rfl, rfl, h⟩

/-- The data has expired, or is there without an expiry. -/
def ReadAlike (temp : CoapBroker.TopicData) (now : ℤ) : Prop :=
  Expired temp.dataMa now ∨ temp.data.isSome ∧ temp.dataMa = 0

/-- With data that has expired, the answer is "No Content". -/
theorem readResponse_of_expired {temp : TopicData} {now : ℤ} (h : Expired temp.dataMa now)
    (observe : Option ℕ) (ct : ℤ) : readResponse temp observe ct now = noContent observe ct := by
  have hleft : temp.dataMa - now < 0 ∧ temp.dataMa ≠ 0 := ⟨sub_neg.2 h.1, h.2⟩
  cases observe <;> exact if_pos hleft

/-- Otherwise it has the data, which may be empty. -/
theorem readResponse_of_not_expired {temp : TopicData} {now : ℤ} (h : ¬Expired temp.dataMa now)
    (observe : Option ℕ) (ct : ℤ) :
    (readResponse temp observe ct now).code = coapResponseCode 205 ∧
    (readResponse temp observe ct now).data = temp.data.bytes ∧
    (readResponse temp observe ct now).options =
      (observe.map fun n => (⟨coapOptionObserve, coapEncodeVarBytes n⟩ : CoapOption)).toList ++
        [if temp.dataMa = 0 then ⟨coapOptionContentType, coapEncodeVarBytes (toUnsigned ct)⟩
          else ⟨coapOptionMaxage, coapEncodeVarBytes (toUnsigned (temp.dataMa - now))⟩] := by
  have hleft : ¬(temp.dataMa - now < 0 ∧ temp.dataMa ≠ 0) := fun hexp =>
    h ⟨sub_neg.1 hexp.1, hexp.2⟩
  unfold readResponse
  dsimp only
  rw [if_neg hleft, ite_not]
  -- after `Max-Age`, the content format is rejected
  by_cases h0 : temp.dataMa = 0
  · rw [if_pos h0, if_pos h0]
    cases observe <;> exact ⟨rfl, rfl, rfl⟩
  · rw [if_neg h0, if_neg h0]
    cases observe <;> exact ⟨rfl, rfl, rfl⟩

/-- The C broker adds both options, the content format first. -/
theorem readResponse_c_of_not_expired {temp : CoapBroker.TopicData} {data : CStr} {now : ℤ}
    (hdata : temp.data = some data) (h : ¬Expired temp.dataMa now) (observe : Option ℕ) (ct : ℤ) :
    (CoapBroker.readResponse temp observe ct now).code = coapResponseCode 205 ∧
    (CoapBroker.readResponse temp observe ct now).data = data.bytes ∧
    (CoapBroker.readResponse temp observe ct now).options =
      (observe.map fun n => (⟨coapOptionObserve, coapEncodeVarBytes n⟩ : CoapOption)).toList ++
        ⟨coapOptionContentType, coapEncodeVarBytes (toUnsigned ct)⟩ ::
        if temp.dataMa = 0 then []
        else [⟨coapOptionMaxage, coapEncodeVarBytes (toUnsigned (temp.dataMa - now))⟩] := by
  have hleft : ¬(temp.dataMa - now < 0 ∧ temp.dataMa ≠ 0) := fun hexp =>
    h ⟨sub_neg.1 hexp.1, hexp.2⟩
  rw [CoapBroker.readResponse, hdata]
  dsimp only
  rw [if_neg hleft, ite_not]
  by_cases h0 : temp.dataMa = 0
  · rw [if_pos h0, if_pos h0]
    cases observe <;> exact ⟨rfl, rfl, rfl⟩
  · rw [if_neg h0, if_neg h0]
    cases observe <;> exact ⟨rfl, rfl, rfl⟩

/-- The answers to an admitted read. -/
theorem sameResponse_iff (temp : CoapBroker.TopicData) (observe : Option ℕ) (ct now : ℤ) :
    SameResponse (CoapBroker.readResponse temp observe ct now)
      (readResponse (TopicData.ofC temp) observe ct now) ↔ ReadAlike temp now := by
  by_cases hexp : Expired temp.dataMa now
  · refine iff_of_true ?_ (.inl hexp)
    rw [readResponse_noContent (.inr hexp), readResponse_of_expired hexp]
    exact .refl _
  · obtain ⟨hcode, hpayload, hoptions⟩ :=
      @readResponse_of_not_expired (TopicData.ofC temp) now hexp observe ct
    rcases hdata : temp.data with _ | data
    · -- the codes differ
      refine iff_of_false (fun h => ?_) ?_
      · have hcodes := h.code
        rw [hcode, readResponse_noContent (.inl hdata)] at hcodes
        exact absurd hcodes (by decide : coapResponseCode 204 ≠ coapResponseCode 205)
      · rintro (h | ⟨h, -⟩)
        · exact hexp h
        · rw [hdata] at h
          exact Bool.false_ne_true h
    · obtain ⟨hcode', hpayload', hoptions'⟩ :=
        readResponse_c_of_not_expired hdata hexp observe ct
      have hofC : (TopicData.ofC temp).data = data := by rw [TopicData.ofC, hdata]; rfl
      by_cases h0 : temp.dataMa = 0
      · refine iff_of_true ⟨hcode'.trans hcode.symm, fun o _ => ?_, ?_⟩
          (.inr ⟨by rw [hdata]; rfl, h0⟩)
        · rw [hoptions, hoptions', if_pos h0, if_pos (by exact h0)]
        · rw [hpayload, hpayload', hofC]
      · -- the content format is missing
        refine iff_of_false (fun h => ?_) ?_
        · have hct := (h.options ⟨coapOptionContentType, coapEncodeVarBytes (toUnsigned ct)⟩
            (.inr (.inl rfl))).1 (by
              rw [hoptions']
              exact List.mem_append_right _ List.mem_cons_self)
          rw [hoptions, if_neg (by exact h0), List.mem_append, List.mem_singleton] at hct
          rcases hct with hct | hct
          · cases observe with
            | none => exact absurd hct List.not_mem_nil
            | some n =>
              have htype := congrArg CoapOption.type (List.mem_singleton.1 hct)
              exact absurd htype (by decide : coapOptionContentType ≠ coapOptionObserve)
          · have htype := congrArg CoapOption.type hct
            exact absurd htype (by decide : coapOptionContentType ≠ coapOptionMaxage)
        · rintro (h | ⟨-, h⟩)
          · exact hexp h
          · exact h0 h

/-- On the same record and the same resource, both handlers build the same response exactly if
    the content format of the resource is a number and the read is refused, or the data has
    expired or is there without an expiry. -/
theorem reads_agree_iff {b : CoapBroker.Broker} {b' : Broker} {resource : CoapResource}
    {attr : CoapAttr} {temp : CoapBroker.TopicData} (hattr : resource.findAttr ctName = some attr)
    (htemp : b.topicDB.cloneTopic resource.uri = some temp)
    (htemp' : b'.topicDB.copyTopic resource.uri = .ok (some (TopicData.ofC temp)))
    (hobserve : b.observe = b'.observe) (peer : CoapAddress) (token : List Byte)
    (request : Option Request) (now : ℤ) :
    SameRead (CoapBroker.hndGetTopic b resource peer token request now)
        (hndGetTopic b' resource peer token request now) ↔
      ∃ ct, stoi attr.value = .ok ct ∧
        (Admitted resource peer token request ct → ReadAlike temp now) := by
  have hvalue : findAttributeValue resource ctName = attr.value := by
    rw [findAttributeValue, hattr]
  rcases hstoi : stoi attr.value with f | ct
  · -- the C++ handler does not build a response
    refine iff_of_false ?_ ?_
    · rintro ⟨-, pdu', -, h', -⟩
      rw [hndGetTopic, hvalue, hstoi] at h'
      cases h'
    · rintro ⟨ct, h, -⟩
      cases h
  · have hct : ctAttrValue resource = .ok ct := by
      rw [ctAttrValue, hattr]
      exact congrArg Except.ok (atoi_of_stoi hstoi).1
    rw [hndGetTopic_eq_c hct htemp, hndGetTopic_eq (hvalue ▸ hstoi) htemp', hobserve]
    simp only [Except.ok.injEq, exists_eq_left']
    rw [sameRead_ok]
    by_cases hadm : Admitted resource peer token request ct
    · rw [if_pos hadm, if_pos hadm, sameResponse_iff, forall_prop_of_true hadm]
    · rw [if_neg hadm, if_neg hadm]
      exact iff_of_true (.refl _) fun h => absurd h hadm

/-- A topic of content format `0`. -/
def plainTopic : CoapResource :=
  asTopic ((coapResourceInit (CStr.lit "ps/a") coapResourceFlagsReleaseUri).addAttr ctName
    (CStr.lit "0") (coapAttrFlagsReleaseName ||| coapAttrFlagsReleaseValue))

/-- A request to read it. -/
def readRequest : Request := { options := [⟨coapOptionContentType, []⟩], payload := none }

/-- Data without an expiry. -/
theorem reads_agree_without_expiry :
    SameRead
      (CoapBroker.hndGetTopic
        { topicDB := [⟨CStr.lit "ps/a", some (CStr.lit "x"), 0, 0⟩], resources := [plainTopic],
          mqttBridge := false } plainTopic [] [] (some readRequest) 3)
      (hndGetTopic
        { topicDB := { nodes := [⟨CStr.lit "ps/a", CStr.lit "x", 0, 0⟩], length := 1 },
          resources := [plainTopic] } plainTopic [] [] (some readRequest) 3) := by
  have hattr : plainTopic.findAttr ctName = some ⟨ctName, CStr.lit "0", 3⟩ := by decide
  refine (@reads_agree_iff _ _ _ _ ⟨CStr.lit "ps/a", some (CStr.lit "x"), 0, 0⟩ hattr ?_ ?_ rfl
    _ _ _ _).2 ⟨0, by decide, fun _ => .inr ⟨rfl, rfl⟩⟩
  · decide
  · decide

/-- Data with an expiry to come: the C++ broker leaves the content format out. -/
theorem reads_differ_with_expiry :
    ¬SameRead
      (CoapBroker.hndGetTopic
        { topicDB := [⟨CStr.lit "ps/a", some (CStr.lit "x"), 0, 7⟩], resources := [plainTopic],
          mqttBridge := false } plainTopic [] [] (some readRequest) 3)
      (hndGetTopic
        { topicDB := { nodes := [⟨CStr.lit "ps/a", CStr.lit "x", 0, 7⟩], length := 1 },
          resources := [plainTopic] } plainTopic [] [] (some readRequest) 3) := by
  have hc : CoapBroker.hndGetTopic
      { topicDB := [⟨CStr.lit "ps/a", some (CStr.lit "x"), 0, 7⟩], resources := [plainTopic],
        mqttBridge := false } plainTopic [] [] (some readRequest) 3 =
      .ok ⟨coapResponseCode 205, [⟨coapOptionContentType, []⟩, ⟨coapOptionMaxage, [4]⟩],
        ascii "x"⟩ := by decide
  have hcpp : hndGetTopic
      { topicDB := { nodes := [⟨CStr.lit "ps/a", CStr.lit "x", 0, 7⟩], length := 1 },
        resources := [plainTopic] } plainTopic [] [] (some readRequest) 3 =
      .ok ⟨coapResponseCode 205, [⟨coapOptionMaxage, [4]⟩], ascii "x"⟩ := by decide
  rw [hc, hcpp, sameRead_ok]
  intro h
  have hct := (h.options ⟨coapOptionContentType, []⟩ (.inr (.inl rfl))).1 List.mem_cons_self
  exact absurd hct (by decide)

end CoapBroker.Cpp
