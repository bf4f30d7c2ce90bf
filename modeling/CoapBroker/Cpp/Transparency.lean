import CoapBroker.Cpp.Conversions
import CoapBroker.Cpp.Reading
import CoapBroker.System.LastPublish

/-!
# What is published is read back

A payload on its way through the brokers: the bytes of the request become a C string in the
store, and the string becomes the payload of the answer to a read at the same instant. What
comes back are the bytes before the first `NUL` (`put_get`, `put_get_c`).

So the payload comes back exactly if it is free of `NUL` (`payload_read_back_iff`). In the C++
broker, `Max-Age` is decoded as an `int`, and from 2^31 on the data has expired at once.
-/

namespace CoapBroker.Cpp

/-! ## What should hold -/

/-- The read goes through and answers 2.05 with the payload `p`. -/
def ReadsBack {σ : Type*} (res : Except Fault (σ × Output)) (p : List Byte) : Prop :=
  ∃ s out pdu, res = .ok (s, out) ∧ out.response = some pdu ∧
    pdu.code = coapResponseCode 205 ∧ pdu.data = p

/-- As an `int`, `Max-Age` is not negative, or it leads to the time 0, which means that there
    is no limit. -/
def MaxAgeAhead (request : Request) (now : ℤ) : Prop :=
  ∀ n, request.firstOption coapOptionMaxage = some n → 0 ≤ toInt n ∨ toInt n + now = 0

theorem not_expired_iff {request : Request} {now : ℤ} :
    ¬Expired (absMaValue request now) now ↔ MaxAgeAhead request now := by
  rw [absMaValue, MaxAgeAhead]
  rcases request.firstOption coapOptionMaxage with _ | n
  · exact iff_of_true (fun h => h.2 rfl) fun n h => by cases h
  · simp only [Option.some.injEq, forall_eq', Expired, not_and_or, not_lt, ne_eq, not_not]
    constructor
    · rintro (h | h)
      · exact .inl (by omega)
      · exact .inr h
    · rintro (h | h)
      · exact .inl (by omega)
      · exact .inr h

/-- The response of a read. -/
theorem readsBack_iff {σ : Type*} {s : σ} {pdu : Pdu} {p : List Byte} :
    ReadsBack (.ok (s, { response := some pdu })) p ↔
      pdu.code = coapResponseCode 205 ∧ pdu.data = p := by
  constructor
  · rintro ⟨s', out, pdu', h, hpdu, hcode, hdata⟩
    cases h
    cases hpdu
    exact ⟨hcode, hdata⟩
  · exact fun ⟨hcode, hdata⟩ => ⟨s, _, pdu, rfl, rfl, hcode, hdata⟩

/-! ## The C broker -/

/-- After a publish, a read for the same content format answers with what the store has kept. -/
theorem put_get_c {b b' : CoapBroker.Broker} (hb : CoapBroker.Agreement b) {uri : CStr}
    {put get : Request} {peer peer' : CoapAddress} {token token' : List Byte} {now : ℤ}
    {out : Output} (hput : CoapBroker.step b (.request uri .put put peer token now) = .ok (b', out))
    (hcode : out.code = some (coapResponseCode 204))
    (hget : get.firstOption coapOptionContentType = put.firstOption coapOptionContentType) :
    ∃ temp observe ct, temp.data = publishedData put ∧ temp.dataMa = dataExpiry put now ∧
      CoapBroker.step b' (.request uri .get get peer' token' now) =
        .ok (b', { response := some (CoapBroker.readResponse temp observe ct now) }) := by
  rcases CoapBroker.step_put_cases hb hput with
    ⟨-, hne⟩ | ⟨target, ct, t, observe, ns, htarget, htopic, hct, hopt, ht, rfl, -⟩
  · exact absurd hcode hne
  have huri := (CoapBroker.Broker.find_spec htarget).2
  -- the record after the publish
  have hclone := CoapBroker.TopicDB.cloneTopic_updateTopicData ht (dataExpiry put now)
    put.payload put.data.length
  refine ⟨{ t with data := publishedData put, dataMa := dataExpiry put now },
    if (target.findObserver peer' token').isSome then some observe else none, ct, rfl, rfl, ?_⟩
  rw [CoapBroker.step_get (by exact htarget) htopic, hndGetTopic_request hct, hget, hopt, huri]
  dsimp only
  rw [if_neg (not_not.2 rfl), hclone]
  rfl

/-- What is kept of a payload that is not empty. -/
theorem publishedData_of_ne_nil {put : Request} (hne : put.data ≠ []) :
    publishedData put = some (CStr.read put.data) := by
  rcases hp : put.payload with _ | mem
  · exact absurd (by rw [Request.data, hp]; rfl) hne
  · have hdata : put.data = mem := by rw [Request.data, hp]; rfl
    rw [hdata] at hne ⊢
    rw [publishedData, hp, hdata, copyData, if_pos (by exact List.length_pos_iff.2 hne),
      List.take_length]

/-- The expiry of data just published is still to come. -/
theorem not_expired_dataExpiry (put : Request) (now : ℤ) : ¬Expired (dataExpiry put now) now := by
  rintro ⟨hlt, h0⟩
  rcases hv : put.firstOption coapOptionMaxage with _ | v
  · exact h0 (dataExpiry_of_none hv now)
  · rw [dataExpiry_of_some hv] at hlt
    omega

/-! ## The C++ broker -/

/-- After a publish, a read for the same content format answers with what the store has kept. -/
theorem put_get {b b' : Broker} (hb : Agreement b) {uri : CStr} {put get : Request}
    {peer peer' : CoapAddress} {token token' : List Byte} {now : ℤ} {out : Output}
    (hput : step b (.request uri .put put peer token now) = .ok (b', out))
    (hcode : out.code = some (coapResponseCode 204))
    (hget : get.firstOption coapOptionContentType = put.firstOption coapOptionContentType) :
    ∃ (temp : TopicData) (observe : Option ℕ) (ct : ℤ), temp.data = CStr.read put.data ∧
      temp.dataMa = absMaValue put now ∧
      step b' (.request uri .get get peer' token' now) =
        .ok (b', { response := some (readResponse temp observe ct now) }) := by
  rcases step_put_cases hb hput with
    ⟨-, hne⟩ | ⟨target, n, t, observe, ns, hfind, htopic, hopt, hct, ht, rfl, -⟩
  · exact absurd hcode hne
  have huri := (Broker.find_spec hfind).2
  -- the content format is the one of the request, as a number of the same 32 bits
  obtain ⟨-, hlow, hhigh⟩ := atoi_of_stoi hct
  have hsame : n = toUnsigned (toInt n) :=
    (toInt_eq_iff (Request.firstOption_lt hopt) hlow hhigh).1 rfl
  -- the record after the publish
  have hcopy : TopicDB.copyTopic (b.topicDB.modify uri fun t =>
      { t with data := CStr.read put.data, dataMa := absMaValue put now }) uri =
      .ok (some { t with data := CStr.read put.data, dataMa := absMaValue put now }) :=
    TopicDB.copyTopic_modify hb.exact (by exact fun _ => rfl) ht
  rw [← huri] at hcopy
  refine ⟨{ t with data := CStr.read put.data, dataMa := absMaValue put now },
    if (target.findObserver peer' token').isSome then some observe else none, toInt n, rfl, rfl, ?_⟩
  rw [step_get (by exact hfind) htopic, hndGetTopic_eq hct (by rw [← huri]; exact hcopy),
    if_pos (by exact hget.trans (hopt.trans (congrArg some hsame)))]
  rfl

/-! ## Both brokers -/

/-- A payload that is published comes back from a read at the same instant exactly if it is free
    of `NUL` and, in the C++ broker, does not expire at once. -/
theorem payload_read_back_iff {mqttBridge rdServer : Bool} {b : CoapBroker.Broker} {c : Broker}
    (hb : Reachable CoapBroker.step (CoapBroker.boot mqttBridge rdServer) b)
    (hc : Reachable step boot c) (uri : CStr) (put get : Request) (hne : put.data ≠ [])
    (hget : get.firstOption coapOptionContentType = put.firstOption coapOptionContentType)
    (peer peer' : CoapAddress) (token token' : List Byte) (now : ℤ) :
    (∀ b' out, CoapBroker.step b (.request uri .put put peer token now) = .ok (b', out) →
      out.code = some (coapResponseCode 204) →
      (ReadsBack (CoapBroker.step b' (.request uri .get get peer' token' now)) put.data ↔
        (0 : Byte) ∉ put.data)) ∧
    ∀ c' out, step c (.request uri .put put peer token now) = .ok (c', out) →
      out.code = some (coapResponseCode 204) →
      (ReadsBack (step c' (.request uri .get get peer' token' now)) put.data ↔
        (0 : Byte) ∉ put.data ∧ MaxAgeAhead put now) := by
  constructor
  · intro b' out hput hcode
    obtain ⟨temp, observe, ct, hdata, hma, hstep⟩ :=
      put_get_c (CoapBroker.Reachable.agreement hb) hput hcode hget
    -- the expiry is not before the time of the publish
    have hexp : ¬Expired temp.dataMa now := by
      rw [hma]
      exact not_expired_dataExpiry put now
    obtain ⟨hok, hbytes, -⟩ := readResponse_c_of_not_expired
      (hdata.trans (publishedData_of_ne_nil hne)) hexp observe ct
    rw [hstep, readsBack_iff, hok, hbytes, and_iff_right rfl]
    exact CStr.bytes_read_eq
  · intro c' out hput hcode
    obtain ⟨temp, observe, ct, hdata, hma, hstep⟩ :=
      put_get (Cpp.Reachable.agreement hc) hput hcode hget
    rw [hstep, readsBack_iff, ← not_expired_iff, ← hma]
    -- here it may be, since the Max-Age is converted to int
    by_cases hexp : Expired temp.dataMa now
    · rw [readResponse_of_expired hexp]
      refine iff_of_false (fun h => ?_) fun h => h.2 hexp
      have hcode : (noContent observe ct).code = coapResponseCode 204 := by
        cases observe <;> rfl
      rw [hcode] at h
      exact absurd h.1 (by decide)
    · obtain ⟨hok, hbytes, -⟩ := readResponse_of_not_expired hexp observe ct
      rw [hok, hbytes, hdata, and_iff_right rfl, and_iff_left hexp]
      exact CStr.bytes_read_eq

/-- A request to publish the payload with content format 0, and perhaps a `Max-Age`. -/
def putRequest (payload : List Byte) (maxAge : Option ℕ) : Request where
  options := ⟨coapOptionContentType, []⟩ ::
    (maxAge.map fun v => ⟨coapOptionMaxage, coapEncodeVarBytes v⟩).toList
  payload := some payload

/-- A request to read content format 0. -/
def getRequest : Request := { options := [⟨coapOptionContentType, []⟩], payload := none }

/-- Text comes back from both brokers. -/
theorem payload_read_back_text :
    ∃ b b' c c' out out', execRun CoapBroker.step (CoapBroker.boot false false)
        [.create "ps" "<a>;ct=0" none 1] = .ok b ∧
      execRun step boot [.create "ps" "<a>;ct=0" 1] = .ok c ∧
      CoapBroker.step b (.request (CStr.lit "ps/a") .put (putRequest (ascii "x") (some 5)) [] [] 2) =
        .ok (b', out) ∧
      step c (.request (CStr.lit "ps/a") .put (putRequest (ascii "x") (some 5)) [] [] 2) =
        .ok (c', out') ∧
      ReadsBack (CoapBroker.step b' (.request (CStr.lit "ps/a") .get getRequest [] [] 2))
        (ascii "x") ∧
      ReadsBack (step c' (.request (CStr.lit "ps/a") .get getRequest [] [] 2)) (ascii "x") := by
  obtain ⟨b, b', out, hb, hput, hcode⟩ : ∃ b b' out,
      execRun CoapBroker.step (CoapBroker.boot false false)
        [.create "ps" "<a>;ct=0" none 1] = .ok b ∧
      CoapBroker.step b (.request (CStr.lit "ps/a") .put (putRequest (ascii "x") (some 5)) [] [] 2) =
        .ok (b', out) ∧ out.code = some (coapResponseCode 204) := ⟨_, _, _, rfl, rfl, rfl⟩
  obtain ⟨c, c', out', hc, hput', hcode'⟩ : ∃ c c' out',
      execRun step boot [.create "ps" "<a>;ct=0" 1] = .ok c ∧
      step c (.request (CStr.lit "ps/a") .put (putRequest (ascii "x") (some 5)) [] [] 2) =
        .ok (c', out') ∧ out'.code = some (coapResponseCode 204) := ⟨_, _, _, rfl, rfl, rfl⟩
  obtain ⟨hread, hread'⟩ := payload_read_back_iff (Reachable.init.of_execRun hb)
    (Reachable.init.of_execRun hc) (CStr.lit "ps/a") (putRequest (ascii "x") (some 5)) getRequest
    (by decide) (by decide) [] [] [] [] 2
  refine ⟨b, b', c, c', out, out', hb, hc, hput, hput', ?_, ?_⟩
  · exact (hread b' out hput hcode).2 (by decide)
  · refine (hread' c' out' hput' hcode').2 ⟨by decide, fun n hn => .inl ?_⟩
    cases hn
    decide

/-- Of the bytes 1, 0, 2, both brokers give back the first one; and in the C++ broker, a payload
    with a `Max-Age` of 2^31 has expired at once. -/
theorem payload_cut_off :
    (∃ b b' s out pdu, execRun CoapBroker.step (CoapBroker.boot false false)
        [.create "ps" "<a>;ct=0" none 1] = .ok b ∧
      CoapBroker.step b (.request (CStr.lit "ps/a") .put (putRequest [1, 0, 2] none) [] [] 2) =
        .ok (b', out) ∧ out.code = some (coapResponseCode 204) ∧
      CoapBroker.step b' (.request (CStr.lit "ps/a") .get getRequest [] [] 2) =
        .ok (s, { response := some pdu }) ∧
      pdu.code = coapResponseCode 205 ∧ pdu.data = [1]) ∧
    (∃ c c' s out pdu, execRun step boot [.create "ps" "<a>;ct=0" 1] = .ok c ∧
      step c (.request (CStr.lit "ps/a") .put (putRequest [1, 0, 2] none) [] [] 2) =
        .ok (c', out) ∧ out.code = some (coapResponseCode 204) ∧
      step c' (.request (CStr.lit "ps/a") .get getRequest [] [] 2) =
        .ok (s, { response := some pdu }) ∧
      pdu.code = coapResponseCode 205 ∧ pdu.data = [1]) ∧
    ∃ c c' s out pdu, execRun step boot [.create "ps" "<a>;ct=0" 1] = .ok c ∧
      step c (.request (CStr.lit "ps/a") .put (putRequest (ascii "x") (some (2 ^ 31))) [] [] 2) =
        .ok (c', out) ∧ out.code = some (coapResponseCode 204) ∧
      step c' (.request (CStr.lit "ps/a") .get getRequest [] [] 2) =
        .ok (s, { response := some pdu }) ∧
      pdu.code = coapResponseCode 204 ∧ pdu.data = ascii "No Content" := by
  refine ⟨⟨_, _, _, _, _, rfl, rfl, rfl, rfl, ?_, ?_⟩, ⟨_, _, _, _, _, rfl, rfl, rfl, rfl, ?_, ?_⟩,
    ⟨_, _, _, _, _, rfl, rfl, rfl, rfl, ?_, ?_⟩⟩
  all_goals decide

end CoapBroker.Cpp
