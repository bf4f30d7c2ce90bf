import CoapBroker.Cpp.Agreement
import CoapBroker.Cpp.Reading
import CoapBroker.System.Publishing

/-!
# The numbers of a response

A response with data carries the time that is left, and for an observer the number of the
notification, both in the bytes `coap_encode_var_bytes` writes: up to four of them, into a buffer
of three (`buf` in `hnd_get_topic` and in `Option::encode_data`). They fit, and are decoded to
what has been encoded, exactly for the numbers below 2^24 (`read_numbers_fit_iff`).
-/

namespace CoapBroker

/-! ## Numbers in options -/

/-- The size of the buffer the handlers encode numbers into. -/
def bufSize : ℕ := 3

/-- A response carries a number in its only option of a type, in bytes that fit the buffer. -/
def Carries (pdu : Pdu) (type : ℕ) (n : ℤ) : Prop :=
  ∃ value, (pdu.options.filter fun o => o.type = type) = [⟨type, value⟩] ∧
    value.length ≤ bufSize ∧ (coapDecodeVarBytes value : ℤ) = n

/-- A response built at the time `now` from a record whose data expires at `dataMa`, perhaps for
    an observer, carries the time left and the number of the notification. -/
structure NumbersFit (pdu : Pdu) (dataMa now : ℤ) (observe : Option ℕ) : Prop where
  maxAge : dataMa ≠ 0 → Carries pdu coapOptionMaxage (dataMa - now)
  observe : ∀ n, observe = some n → Carries pdu coapOptionObserve (n % 2 ^ 32 : ℕ)

/-- The time left and the number of the notification have at most 24 bits. -/
def NumbersSmall (dataMa now : ℤ) (observe : Option ℕ) : Prop :=
  (dataMa ≠ 0 → dataMa - now < 2 ^ 24) ∧ ∀ n, observe = some n → n % 2 ^ 32 < 2 ^ 24

theorem carries_iff {pdu : Pdu} {type n : ℕ} {m : ℤ}
    (hfilter : (pdu.options.filter fun o => o.type = type) = [⟨type, coapEncodeVarBytes n⟩]) :
    Carries pdu type m ↔ n % 2 ^ 32 < 2 ^ 24 ∧ ((n % 2 ^ 32 : ℕ) : ℤ) = m := by
  have hmod : coapEncodeVarBytes n = coapEncodeVarBytes (n % 2 ^ 32) := by
    rw [coapEncodeVarBytes, coapEncodeVarBytes, Nat.mod_mod]
  have hdecode : coapDecodeVarBytes (coapEncodeVarBytes n) = n % 2 ^ 32 := by
    rw [hmod, coapDecodeVarBytes_encode (Nat.mod_lt _ (by norm_num))]
  have hlength : (coapEncodeVarBytes n).length ≤ bufSize ↔ n % 2 ^ 32 < 2 ^ 24 :=
    length_coapEncodeVarBytes_le_iff
  constructor
  · rintro ⟨value, hvalue, hfit, hm⟩
    rw [hfilter, List.singleton_inj, CoapOption.mk.injEq] at hvalue
    obtain ⟨-, rfl⟩ := hvalue
    exact ⟨hlength.1 hfit, hdecode ▸ hm⟩
  · rintro ⟨hlt, hm⟩
    exact ⟨_, hfilter, hlength.2 hlt, hdecode.symm ▸ hm⟩

/-- The time left, as it is encoded. -/
theorem carries_toUnsigned_iff {pdu : Pdu} {left : ℤ} (hleft : 0 ≤ left)
    (hfilter : (pdu.options.filter fun o => o.type = coapOptionMaxage) =
      [⟨coapOptionMaxage, coapEncodeVarBytes (toUnsigned left)⟩]) :
    Carries pdu coapOptionMaxage left ↔ left < 2 ^ 24 := by
  rw [carries_iff hfilter, toUnsigned]
  omega

/-- The numbers of a response with the options both brokers can add. -/
theorem numbersFit_iff {pdu : Pdu} {dataMa now : ℤ} {observe : Option ℕ}
    (hexp : ¬Expired dataMa now)
    (hmaxAge : (pdu.options.filter fun o => o.type = coapOptionMaxage) =
      if dataMa = 0 then []
      else [⟨coapOptionMaxage, coapEncodeVarBytes (toUnsigned (dataMa - now))⟩])
    (hobserve : (pdu.options.filter fun o => o.type = coapOptionObserve) =
      (observe.map fun n => (⟨coapOptionObserve, coapEncodeVarBytes n⟩ : CoapOption)).toList) :
    NumbersFit pdu dataMa now observe ↔ NumbersSmall dataMa now observe := by
  have hleft : dataMa ≠ 0 → (Carries pdu coapOptionMaxage (dataMa - now) ↔
      dataMa - now < 2 ^ 24) := by
    intro h0
    rw [if_neg h0] at hmaxAge
    refine carries_toUnsigned_iff ?_ hmaxAge
    by_contra hlt
    exact hexp ⟨by omega, h0⟩
  have hnumber : ∀ n, observe = some n → (Carries pdu coapOptionObserve (n % 2 ^ 32 : ℕ) ↔
      n % 2 ^ 32 < 2 ^ 24) := by
    rintro n rfl
    rw [carries_iff hobserve]
    exact and_iff_left rfl
  constructor
  · intro h
    exact ⟨fun h0 => (hleft h0).1 (h.maxAge h0), fun n hn => (hnumber n hn).1 (h.observe n hn)⟩
  · rintro ⟨hma, hobs⟩
    exact ⟨fun h0 => (hleft h0).2 (hma h0), fun n hn => (hnumber n hn).2 (hobs n hn)⟩

/-! ## The reads of a step -/

/-- A step has built a response from the record of a topic at a time, perhaps for an observer:
    the answer to a request to read, or a notification that something has been published. -/
inductive ReadIn (b : Broker) (out : Output) : Event → CStr → Option ℕ → ℤ → Pdu → Prop
  | answer {uri : CStr} {req : Request} {peer : CoapAddress} {token : List Byte} {now : ℤ}
    {r : CoapResource} {pdu : Pdu} (hfind : b.find uri = some r)
    (hget : r.handler.get = some .hndGetTopic) (hpdu : out.response = some pdu) :
    ReadIn b out (.request uri .get req peer token now) uri
      (if (r.findObserver peer token).isSome then some b.observe else none) now pdu
  | published {uri : CStr} {req : Request} {peer : CoapAddress} {token : List Byte} {now : ℤ}
    {n : Notification} (hn : n ∈ out.notifications) :
    ReadIn b out (.request uri .put req peer token now) uri (some b.observe) now n.response
  | arrived {topicName : CStr} {payload : List Byte} {now : ℤ} {n : Notification}
    (hn : n ∈ out.notifications) :
    ReadIn b out (.arrival topicName payload now) topicName (some b.observe) now n.response

theorem mem_notificationsOf {r : CoapResource} {pdu : Pdu} {n : Notification}
    (h : n ∈ notificationsOf r fun _ => pdu) : n.response = pdu := by
  obtain ⟨s, -, rfl⟩ := List.mem_map.1 h
  rfl

end CoapBroker

namespace CoapBroker.Cpp

/-! ## What is read in a step of the C broker -/

theorem code_refusal_ne (request : Option Request) :
    (refusal request).code ≠ coapResponseCode 205 := by
  rw [refusal]
  split_ifs <;> decide

/-- What is read in a step comes from the record of the topic after the step. -/
theorem readIn_c_record {b b' : CoapBroker.Broker} (hb : CoapBroker.Agreement b)
    {e : CoapBroker.Event} {out : Output} (hstep : CoapBroker.step b e = .ok (b', out)) {uri : CStr}
    {observe : Option ℕ} {now : ℤ} {pdu : Pdu} (h : CoapBroker.ReadIn b out e uri observe now pdu)
    (hcode : pdu.code = coapResponseCode 205) :
    ∃ t ct, b'.topicDB.getTopic uri = some t ∧
      pdu = CoapBroker.readResponse t observe ct now := by
  -- a topic has a content format and a record
  have htopics : ∀ r ∈ b.resources, CoapBroker.IsTopic r → ∃ ct t, ctAttrValue r = .ok ct ∧
      b.topicDB.getTopic r.uri = some t := by
    intro r hr htopic
    obtain ⟨attr, -, hct⟩ := htopic.ctAttrValue
    obtain ⟨t, ht⟩ := Option.isSome_iff_exists.1
      (TopicDB.getTopic_isSome.2 (hb.mem_paths_of_isTopic hr htopic))
    exact ⟨_, t, hct, ht⟩
  cases h with
  | @answer uri req peer token now r pdu hfind hget hpdu =>
    obtain ⟨hr, rfl⟩ := CoapBroker.Broker.find_spec hfind
    rcases hb.resource r hr with htopic | rfl | rfl
    · obtain ⟨ct, t, hct, ht⟩ := htopics r hr htopic
      rw [CoapBroker.step_get hfind htopic, hndGetTopic_eq_c hct ht] at hstep
      by_cases hadm : Admitted r peer token (some req) ct
      · rw [if_pos hadm] at hstep
        cases hstep
        exact ⟨t, ct, ht, (Option.some.inj hpdu).symm⟩
      · rw [if_neg hadm] at hstep
        cases hstep
        exact absurd hcode (Option.some.inj hpdu ▸ code_refusal_ne _)
    · exact absurd hget (by decide)
    · exact absurd hget (by decide)
  | @published uri req peer token now n hn =>
    rcases hfind : b.find uri with _ | r
    · rw [CoapBroker.step, hfind] at hstep
      cases hstep
      exact absurd hn List.not_mem_nil
    obtain ⟨hr, rfl⟩ := CoapBroker.Broker.find_spec hfind
    rcases hb.resource r hr with htopic | rfl | rfl
    · obtain ⟨ct, t, hct, ht⟩ := htopics r hr htopic
      rw [CoapBroker.step_put hfind htopic] at hstep
      rcases CoapBroker.hndPutTopic_cases hb.clean hstep with
        ⟨-, pdu, rfl, -⟩ | ⟨ct', -, -, hct', hopt, -, -, -⟩
      · exact absurd hn List.not_mem_nil
      · rw [hndPutTopic_notifies hb hr htopic hct' hopt ht] at hstep
        cases hstep
        exact ⟨_, ct', TopicDB.cloneTopic_updateTopicData ht _ _ _, mem_notificationsOf hn⟩
    · rw [CoapBroker.step, hfind] at hstep
      cases hstep
      exact absurd hn List.not_mem_nil
    · rw [CoapBroker.step, hfind] at hstep
      cases hstep
      exact absurd hn List.not_mem_nil
  | @arrived uri payload now n hn =>
    rw [CoapBroker.step] at hstep
    rcases harr : msgarrvd b uri payload now with f | ⟨b₁, out₁, found⟩ <;>
      rw [harr] at hstep <;> cases hstep
    rcases msgarrvd_cases hb.clean harr with
      ⟨-, rfl, -⟩ | ⟨r, t, -, -, hfind, ht, hdata, -, -⟩
    · exact absurd hn List.not_mem_nil
    obtain ⟨hr, rfl⟩ := CoapBroker.Broker.find_spec hfind
    have htopic : CoapBroker.IsTopic r := hb.isTopic_of_uri_eq hr (TopicDB.mem_paths_of_getTopic ht)
    obtain ⟨ct, -, hct, -⟩ := htopics r hr htopic
    have hclone : (TopicDB.updateTopicData b.topicDB r.uri 0 (some payload) payload.length).1.cloneTopic
        r.uri = some { t with data := copyData (some payload) payload.length, dataMa := 0 } :=
      TopicDB.cloneTopic_updateTopicData ht _ _ _
    have hmark := @markAndNotify_topic b { b with
      topicDB := (b.topicDB.updateTopicData r.uri 0 (some payload) payload.length).1 } hb r hr htopic
      ct hct _ hclone now
    have hcmp : compareString t.data (some (CStr.read payload)) = false := by
      rcases hd : t.data with _ | d
      · rfl
      · exact decide_eq_false fun h => hdata (hd.trans (congrArg some h))
    rw [msgarrvd, hfind] at harr
    dsimp only at harr
    rw [ht] at harr
    dsimp only at harr
    rw [hcmp, if_neg Bool.false_ne_true, hmark] at harr
    cases harr
    exact ⟨_, ct, hclone, mem_notificationsOf hn⟩

/-! ## What is read in a step of the C++ broker -/

/-- A step of the C++ broker has built a response from the record of a topic. -/
inductive ReadIn (b : Broker) (out : Output) : Event → CStr → Option ℕ → ℤ → Pdu → Prop
  | answer {uri : CStr} {req : Request} {peer : CoapAddress} {token : List Byte} {now : ℤ}
    {r : CoapResource} {pdu : Pdu} (hfind : b.find uri = some r) (hpdu : out.response = some pdu) :
    ReadIn b out (.request uri .get req peer token now) uri
      (if (r.findObserver peer token).isSome then some b.observe else none) now pdu
  | published {uri : CStr} {req : Request} {peer : CoapAddress} {token : List Byte} {now : ℤ}
    {n : Notification} (hn : n ∈ out.notifications) :
    ReadIn b out (.request uri .put req peer token now) uri (some b.observe) now n.response

/-- A publish that is accepted notifies the observers of the topic of what has been written. -/
theorem hndPutTopic_notifications {b b' : Broker} (hb : Agreement b) {r : CoapResource}
    (hr : r ∈ b.resources) (htopic : IsTopic r) {req : Request} {now : ℤ} {out : Output}
    (h : hndPutTopic b r req now = .ok (b', out)) {n : Notification} (hn : n ∈ out.notifications) :
    ∃ t ct, b'.topicDB.getTopic r.uri = .ok (some t) ∧
      n.response = readResponse t (some b.observe) ct now := by
  have hmem := hb.table.mem_paths_of_isTopic hr htopic
  obtain ⟨t, ht⟩ := Option.isSome_iff_exists.1 (Keyed.find_isSome.2 hmem)
  rw [hndPutTopic] at h
  rcases hopt : req.firstOption coapOptionContentType with _ | m <;> rw [hopt] at h
  · cases h
    exact absurd hn List.not_mem_nil
  dsimp only at h
  rcases hct : stoi (findAttributeValue r ctName) with f | ct <;> rw [hct] at h
  · cases h
  rw [TopicDB.copyTopic, TopicDB.getTopic_eq hb.exact, ht,
    TopicDB.updateTopic_eq hb.exact hmem] at h
  simp only [bind, Except.bind] at h
  split_ifs at h with hne
  · cases h
    exact absurd hn List.not_mem_nil
  generalize hb₁ : { b with
    topicDB := b.topicDB.modify r.uri fun t =>
      { t with data := CStr.read req.data, dataMa := absMaValue req now }
    earliestDataMaxAge := lowerEarliest b.earliestDataMaxAge (absMaValue req now) } = b₁ at h
  have hget : b₁.topicDB.copyTopic r.uri =
      .ok (some { t with data := CStr.read req.data, dataMa := absMaValue req now }) := by
    rw [← hb₁]
    exact TopicDB.copyTopic_modify hb.exact (by exact fun _ => rfl) ht
  have hmark := @markAndNotify_spec (notifyTopic b₁ now) b.observe b.resources r (fun _ =>
    readResponse { t with data := CStr.read req.data, dataMa := absMaValue req now }
      (some b.observe) ct now) hb.table.clean (List.Nodup.of_map _ hb.table.uris) hr
    htopic.observable (by rw [htopic.handler]; rfl) fun s hs => by
      have hobs : (CoapResource.findObserver { r with dirty := true } s.subscriber s.token).isSome :=
        findObserver_isSome hs
      rw [notifyTopic, hndGetTopic_eq (by exact hct) (by exact hget), if_pos hobs]
      exact congrArg Except.ok (if_pos hobs)
  rw [hmark] at h
  subst hb₁
  cases h
  exact ⟨_, ct, hget, mem_notificationsOf hn⟩

/-- What is read in a step comes from the record of the topic after the step. -/
theorem ReadIn.exists_record {b b' : Broker} (hb : Agreement b) {e : Event} {out : Output}
    (hstep : step b e = .ok (b', out)) {uri : CStr} {observe : Option ℕ} {now : ℤ} {pdu : Pdu}
    (h : ReadIn b out e uri observe now pdu) (hcode : pdu.code = coapResponseCode 205) :
    ∃ t ct, b'.topicDB.getTopic uri = .ok (some t) ∧ pdu = readResponse t observe ct now := by
  -- a read is an answer, or a notification after a publish
  cases h with
  | @answer uri req peer token now r pdu hfind hpdu =>
    obtain ⟨hr, rfl⟩ := Broker.find_spec hfind
    rcases hb.table.resource r hr with htopic | rfl
    · obtain ⟨t, ht⟩ := hb.getTopic_of_isTopic hr htopic
      rw [step_get hfind htopic] at hstep
      rcases hct : stoi (findAttributeValue r ctName) with f | ct
      · rw [hndGetTopic, hct] at hstep
        cases hstep
      rw [hndGetTopic_eq hct ht] at hstep
      by_cases hadm : Admitted r peer token (some req) ct
      · rw [if_pos hadm] at hstep
        cases hstep
        exact ⟨t, ct, ht, (Option.some.inj hpdu).symm⟩
      · rw [if_neg hadm] at hstep
        cases hstep
        exact absurd hcode (Option.some.inj hpdu ▸ code_refusal_ne _)
    · rw [step, hfind] at hstep
      cases hstep
      cases hpdu
  | @published uri req peer token now n hn =>
    rcases hfind : b.find uri with _ | r
    · rw [step, hfind] at hstep
      cases hstep
      exact absurd hn List.not_mem_nil
    obtain ⟨hr, rfl⟩ := Broker.find_spec hfind
    rcases hb.table.resource r hr with htopic | rfl
    · rw [step_put hfind htopic] at hstep
      exact hndPutTopic_notifications hb hr htopic hstep hn
    · rw [step, hfind] at hstep
      cases hstep
      exact absurd hn List.not_mem_nil

/-! ## The numbers in a response -/

/-- The answer of the C broker from a record. -/
theorem numbersFit_readResponse_c_iff {temp : CoapBroker.TopicData} {observe : Option ℕ}
    {ct now : ℤ}
    (hcode : (CoapBroker.readResponse temp observe ct now).code = coapResponseCode 205) :
    NumbersFit (CoapBroker.readResponse temp observe ct now) temp.dataMa now observe ↔
      NumbersSmall temp.dataMa now observe := by
  by_cases hexp : Expired temp.dataMa now
  · rw [readResponse_noContent (.inr hexp)] at hcode
    exact absurd hcode (by decide : coapResponseCode 204 ≠ coapResponseCode 205)
  rcases hdata : temp.data with _ | data
  · rw [readResponse_noContent (.inl hdata)] at hcode
    exact absurd hcode (by decide : coapResponseCode 204 ≠ coapResponseCode 205)
  obtain ⟨-, -, hoptions⟩ := readResponse_c_of_not_expired hdata hexp observe ct
  refine numbersFit_iff hexp ?_ ?_
  · rw [hoptions]
    cases observe <;> split_ifs <;> rfl
  · rw [hoptions]
    cases observe <;> split_ifs <;> rfl

/-- The answer of the C++ broker from a record. -/
theorem numbersFit_readResponse_iff {temp : TopicData} {observe : Option ℕ} {ct now : ℤ}
    (hcode : (readResponse temp observe ct now).code = coapResponseCode 205) :
    NumbersFit (readResponse temp observe ct now) temp.dataMa now observe ↔
      NumbersSmall temp.dataMa now observe := by
  by_cases hexp : Expired temp.dataMa now
  · rw [readResponse_of_expired hexp] at hcode
    exact absurd hcode (by decide : coapResponseCode 204 ≠ coapResponseCode 205)
  obtain ⟨-, -, hoptions⟩ := readResponse_of_not_expired hexp observe ct
  refine numbersFit_iff hexp ?_ ?_
  · rw [hoptions]
    cases observe <;> split_ifs <;> rfl
  · rw [hoptions]
    cases observe <;> split_ifs <;> rfl

/-- In all reachable states of the two brokers, whatever is read with the code 2.05 carries the
    time left and, for an observer, the number of the notification, in at most three bytes each,
    exactly if both are below 2^24. -/
theorem read_numbers_fit_iff {mqttBridge rdServer : Bool} {b : CoapBroker.Broker} {c : Broker}
    (hb : Reachable CoapBroker.step (CoapBroker.boot mqttBridge rdServer) b)
    (hc : Reachable step boot c) :
    (∀ e b' out uri observe now pdu, CoapBroker.step b e = .ok (b', out) →
      CoapBroker.ReadIn b out e uri observe now pdu → pdu.code = coapResponseCode 205 →
      ∃ t, b'.topicDB.getTopic uri = some t ∧
        (NumbersFit pdu t.dataMa now observe ↔ NumbersSmall t.dataMa now observe)) ∧
    ∀ e c' out uri observe now pdu, step c e = .ok (c', out) →
      ReadIn c out e uri observe now pdu → pdu.code = coapResponseCode 205 →
      ∃ t, c'.topicDB.getTopic uri = .ok (some t) ∧
        (NumbersFit pdu t.dataMa now observe ↔ NumbersSmall t.dataMa now observe) := by
  constructor
  · intro e b' out uri observe now pdu hstep hread hcode
    obtain ⟨t, ct, ht, rfl⟩ := readIn_c_record hb.agreement hstep hread hcode
    exact ⟨t, ht, numbersFit_readResponse_c_iff hcode⟩
  · intro e c' out uri observe now pdu hstep hread hcode
    obtain ⟨t, ct, ht, rfl⟩ := hread.exists_record (Reachable.agreement hc) hstep hcode
    exact ⟨t, ht, numbersFit_readResponse_iff hcode⟩

/-- Data published with `Max-Age` 60 and read one second later. -/
theorem read_numbers_fit_minute :
    ∃ b c out out' pdu pdu',
      execRun CoapBroker.step (CoapBroker.boot false false) [.create "ps" "<a>;ct=0" none 1,
        .publish "ps/a" 0 "x" (some 60) 2] = .ok b ∧
      CoapBroker.step b (.read "ps/a" 3) = .ok (b, out) ∧ out.response = some pdu ∧
      execRun step boot [.create "ps" "<a>;ct=0" 1, .publish "ps/a" 0 "x" (some 60) 2] = .ok c ∧
      step c (.request (CStr.lit "ps/a") .get ⟨[⟨coapOptionContentType, []⟩], none⟩ [] [] 3) =
        .ok (c, out') ∧ out'.response = some pdu' ∧
      NumbersFit pdu 62 3 none ∧ NumbersFit pdu' 62 3 none := by
  obtain ⟨b, out, pdu, r, t, hb, hstep, hpdu, hcode, ht, hma, hfind, hget, hobs⟩ : ∃ b out pdu r t,
      execRun CoapBroker.step (CoapBroker.boot false false) [.create "ps" "<a>;ct=0" none 1,
        .publish "ps/a" 0 "x" (some 60) 2] = .ok b ∧
      CoapBroker.step b (.read "ps/a" 3) = .ok (b, out) ∧ out.response = some pdu ∧
      pdu.code = coapResponseCode 205 ∧ b.topicDB.getTopic (CStr.lit "ps/a") = some t ∧
      t.dataMa = 62 ∧ b.find (CStr.lit "ps/a") = some r ∧
      r.handler.get = some .hndGetTopic ∧
      (r.findObserver [] []).isSome = false :=
    ⟨_, _, _, _, _, rfl, rfl, rfl, by decide, rfl, by decide, rfl, by decide, by decide⟩
  obtain ⟨c, out', pdu', r', t', hc, hstep', hpdu', hcode', ht', hma', hfind', hobs'⟩ :
      ∃ c out' pdu' r' t',
      execRun step boot [.create "ps" "<a>;ct=0" 1, .publish "ps/a" 0 "x" (some 60) 2] = .ok c ∧
      step c (.request (CStr.lit "ps/a") .get ⟨[⟨coapOptionContentType, []⟩], none⟩ [] [] 3) =
        .ok (c, out') ∧ out'.response = some pdu' ∧ pdu'.code = coapResponseCode 205 ∧
      c.topicDB.getTopic (CStr.lit "ps/a") = .ok (some t') ∧ t'.dataMa = 62 ∧
      c.find (CStr.lit "ps/a") = some r' ∧ (r'.findObserver [] []).isSome = false :=
    ⟨_, _, _, _, _, rfl, rfl, rfl, by decide, rfl, by decide, rfl, by decide⟩
  have hsmall : NumbersSmall 62 3 none := ⟨by decide, nofun⟩
  obtain ⟨hfit, hfit'⟩ := read_numbers_fit_iff (Reachable.init.of_execRun hb)
    (Reachable.init.of_execRun hc)
  refine ⟨b, c, out, out', pdu, pdu', hb, hstep, hpdu, hc, hstep', hpdu', ?_, ?_⟩
  · obtain ⟨x, hx, hiff⟩ := hfit _ b out _ _ _ pdu hstep
      (@CoapBroker.ReadIn.answer b out (CStr.lit "ps/a") _ [] [] 3 r pdu hfind hget hpdu) hcode
    obtain rfl : t = x := Option.some.inj (ht.symm.trans hx)
    rw [hobs, hma] at hiff
    exact hiff.2 hsmall
  · obtain ⟨x, hx, hiff⟩ := hfit' _ c out' _ _ _ pdu' hstep'
      (@ReadIn.answer c out' (CStr.lit "ps/a") _ [] [] 3 r' pdu' hfind' hpdu') hcode'
    obtain rfl : t' = x := Option.some.inj (Except.ok.inj (ht'.symm.trans hx))
    rw [hobs', hma'] at hiff
    exact hiff.2 hsmall

/-- With 2^24 seconds left, four bytes are written into the buffer. -/
theorem max_age_overruns :
    (∃ b out pdu, execRun CoapBroker.step (CoapBroker.boot false false)
        [.create "ps" "<a>;ct=0" none 1, .publish "ps/a" 0 "x" (some (2 ^ 24)) 2] = .ok b ∧
      CoapBroker.step b (.read "ps/a" 2) = .ok (b, out) ∧ out.response = some pdu ∧
      pdu.code = coapResponseCode 205 ∧
      (pdu.options.filter fun o => o.type = coapOptionMaxage) =
        [⟨coapOptionMaxage, [1, 0, 0, 0]⟩] ∧ ¬NumbersFit pdu (2 + 2 ^ 24) 2 none) ∧
    ∃ c out pdu, execRun step boot
        [.create "ps" "<a>;ct=0" 1, .publish "ps/a" 0 "x" (some (2 ^ 24)) 2] = .ok c ∧
      step c (.request (CStr.lit "ps/a") .get ⟨[⟨coapOptionContentType, []⟩], none⟩ [] [] 2) =
        .ok (c, out) ∧ out.response = some pdu ∧ pdu.code = coapResponseCode 205 ∧
      (pdu.options.filter fun o => o.type = coapOptionMaxage) =
        [⟨coapOptionMaxage, [1, 0, 0, 0]⟩] ∧ ¬NumbersFit pdu (2 + 2 ^ 24) 2 none := by
  have hnot : ∀ {pdu : Pdu}, (pdu.options.filter fun o => o.type = coapOptionMaxage) =
      [⟨coapOptionMaxage, [1, 0, 0, 0]⟩] → ¬NumbersFit pdu (2 + 2 ^ 24) 2 none := by
    intro pdu hfilter h
    obtain ⟨value, hvalue, hfit, -⟩ := h.maxAge (by decide)
    rw [hfilter, List.singleton_inj, CoapOption.mk.injEq] at hvalue
    obtain ⟨-, rfl⟩ := hvalue
    exact absurd hfit (by decide)
  exact ⟨⟨_, _, _, rfl, rfl, rfl, by decide, by decide, hnot (by decide)⟩,
    ⟨_, _, _, rfl, rfl, rfl, by decide, by decide, hnot (by decide)⟩⟩

end CoapBroker.Cpp
