import CoapBroker.Cpp.Agreement

/-!
# The conversions of numbers in the C++ broker

`std::stoi` throws on a text that is no number or that is out of the range of `int`. The
handlers call it on the content format of a topic, which they check when the topic is created:
they check the first attribute with its name (`LinkFormat::get_attribute`), but read the last
one (`Resource::find_attribute`), and the check itself calls `std::stoi` on a text of digits of
any length.

So the conversions are safe in a run exactly if this goes well for every request to create a
topic (`conversions_safe_iff`): the first content format is no text of digits for a number from
2^31 on, and when it is valid, so is the last one (`CtReadable`). The run consists of attempts
here, some of which may throw.
-/

namespace CoapBroker.Cpp

/-! ## Numerals -/

/-- A decimal numeral of a 16-bit number. -/
def IsNumeral (s : CStr) : Prop :=
  s ≠ CStr.empty ∧ s.bytes.all isdigit = true ∧ digitsValue s.bytes ≤ 65535

instance (s : CStr) : Decidable (IsNumeral s) := inferInstanceAs (Decidable (_ ∧ _))

/-- `std::stoi` on a text of digits. -/
theorem stoi_of_digits {s : CStr} (hne : s ≠ CStr.empty) (hs : s.bytes.all isdigit = true) :
    stoi s = if digitsValue s.bytes < 2 ^ 31 then .ok (digitsValue s.bytes : ℤ)
      else .error .uncaughtException := by
  have hnum : hasNumber s.bytes = true := by
    obtain ⟨hdrop, hminus, hplus⟩ := digits_head hs
    rw [hasNumber, hdrop]
    simp only [hminus, hplus, or_self, if_false]
    rcases hbytes : s.bytes with _ | ⟨c, cs⟩
    · exact absurd (CStr.ext hbytes) hne
    · rw [hbytes, List.all_cons, Bool.and_eq_true] at hs
      exact hs.1
  rw [stoi, hnum, if_neg (not_not.2 rfl), strtol_of_digits hs]
  dsimp only
  have hmax : longMax = 9223372036854775807 := by norm_num [longMax]
  by_cases hlt : digitsValue s.bytes < 2 ^ 31
  · have hmin : min (digitsValue s.bytes : ℤ) longMax = digitsValue s.bytes := by omega
    rw [if_pos hlt, hmin, if_neg (by omega)]
  · rw [if_neg hlt, if_pos (by omega)]

/-- The number of a numeral. -/
theorem stoi_of_isNumeral {s : CStr} (h : IsNumeral s) :
    stoi s = .ok (digitsValue s.bytes : ℤ) := by
  rw [stoi_of_digits h.1 h.2.1, if_pos]
  exact h.2.2.trans_lt (by norm_num)

/-! ## What should hold -/

/-- The content format of every topic is a numeral. -/
def CtNumerals (b : Broker) : Prop :=
  ∀ r ∈ b.resources, IsTopic r → IsNumeral (findAttributeValue r ctName)

/-- A request to create a topic that is well formed: its content format, if it is one at all,
    is still to be checked. -/
def CreateRequest (resource : CoapResource) (request : Request) (lfData : LinkFormat) : Prop :=
  ∃ p attrs, LinkText (CStr.read request.data).bytes p attrs ∧
    lfData = linkFormatBelow resource (CStr.read request.data) p attrs ∧
    isMr request lfData = false

/-- The content format that is checked. -/
def checkedCt (lfData : LinkFormat) : CStr := (lfData.getAttribute ctName).value

/-- The content format the new topic has. -/
def topicCt (lfData : LinkFormat) : CStr :=
  findAttributeValue (ofLinkFormat lfData coapResourceFlagsReleaseUri) ctName

/-- An event converts no text that is no number: no exception is thrown, the content formats of
    the topics are numerals afterwards, and a topic whose content format would be none is
    refused. -/
structure ConversionsSafe (b : Broker) (e : Event) : Prop where
  no_throw : step b e ≠ .error .uncaughtException
  ct : ∀ b' out, step b e = .ok (b', out) → CtNumerals b'
  refused : ∀ uri req peer token now target lfData, e = .request uri .post req peer token now →
    b.find uri = some target → CreateRequest target req lfData → ¬IsNumeral (topicCt lfData) →
    ∃ b' pdu, step b e = .ok (b', { response := some pdu }) ∧ pdu.code = coapResponseCode 406

/-- The check of the content format goes through, and says something about the one of the
    topic. -/
def CtReadable (lfData : LinkFormat) : Prop :=
  ((checkedCt lfData).bytes.all isdigit = true → digitsValue (checkedCt lfData).bytes < 2 ^ 31) ∧
    (IsNumeral (checkedCt lfData) → IsNumeral (topicCt lfData))

/-- The event does not ask for a topic whose content format is not readable. -/
def CreatesReadably (b : Broker) (e : Event) : Prop :=
  ∀ uri req peer token now target lfData, e = .request uri .post req peer token now →
    b.find uri = some target → CreateRequest target req lfData → CtReadable lfData

/-- An attempt at a step. When it fails, the attempts that come after it are those of a run
    without it. -/
def attempt (b : Broker) (e : Event) : Except Fault (Broker × Except Fault Output) :=
  .ok (match step b e with
    | .ok (b', out) => (b', .ok out)
    | .error f => (b, .error f))

/-! ## Creating topics -/

/-- The content formats are those of the attributes of the payload. -/
theorem CreateRequest.ct_eq {resource : CoapResource} {request : Request}
    {lfData parsed : LinkFormat}
    (h : CreateRequest resource request lfData)
    (hparse : LinkFormat.parse (CStr.read request.data)
      (coapAttrFlagsReleaseName ||| coapAttrFlagsReleaseValue) = .ok parsed) :
    checkedCt lfData = checkedCt parsed ∧ topicCt lfData = topicCt parsed := by
  obtain ⟨p, attrs, htext, rfl, -⟩ := h
  rw [LinkFormat.parse_of_linkText htext] at hparse
  cases hparse
  refine ⟨rfl, ?_⟩
  simp only [topicCt, findAttributeValue, CoapResource.findAttr,
    (linkAttr_ofLinkFormat _ coapResourceFlagsReleaseUri).1]
  rfl

/-- The content format that is checked is not empty. -/
theorem CreateRequest.checkedCt_ne {resource : CoapResource} {request : Request}
    {lfData : LinkFormat} (h : CreateRequest resource request lfData) :
    checkedCt lfData ≠ CStr.empty := by
  obtain ⟨p, attrs, ⟨ss, -, -, hss, -⟩, rfl, hmr⟩ := h
  have hexist : (linkFormatBelow resource (CStr.read request.data) p attrs).isAttributeExist
      ctName = true := by
    rw [isMr] at hmr
    simp only [decide_eq_false_iff_not, not_not] at hmr
    exact hmr.2
  rw [LinkFormat.isAttributeExist, List.any_eq_true] at hexist
  obtain ⟨attr, hattr⟩ := Option.isSome_iff_exists.1 (List.find?_isSome.2 hexist)
  obtain ⟨a, ha, rfl⟩ := List.mem_map.1 (List.mem_of_find?_eq_some hattr)
  -- no attribute of an accepted payload has an empty value
  obtain ⟨t, -, -, ⟨hne, hchars⟩, -⟩ := exists_of_mem_forall₂ (List.Forall₂.flip hss) ha
  rw [checkedCt, LinkFormat.getAttribute, hattr, Option.getD_some]
  intro hempty
  have hbytes := congrArg CStr.bytes hempty
  rw [CStr.read_of_notMem (notMem_lfChars hchars (by decide))] at hbytes
  exact hne hbytes

/-- A request that is not well formed is malformed. -/
theorem hndPostBroker_of_not_createRequest {b : Broker} {resource : CoapResource}
    {request : Request} {now : ℤ} (h : ∀ lfData, ¬CreateRequest resource request lfData) :
    hndPostBroker b resource request now =
      .ok (b, { response := some (({} : Pdu).respond 400) }) := by
  rcases hndPostBroker_eq b resource request now with ⟨p, attrs, htext, heq⟩ | heq
  · have hmr : isMr request (linkFormatBelow resource (CStr.read request.data) p attrs) = true := by
      by_contra hmr
      exact h _ ⟨p, attrs, htext, rfl, eq_false_of_ne_true hmr⟩
    rw [heq, postLinkFormat, if_pos hmr]
  · exact heq

/-- A well-formed request goes on with the check of its content format. -/
theorem CreateRequest.hndPostBroker_eq {b : Broker} {resource : CoapResource} {request : Request}
    {lfData : LinkFormat} (h : CreateRequest resource request lfData) (now : ℤ) :
    hndPostBroker b resource request now = (do
      if ← isUscf lfData then .ok (b, { response := some (({} : Pdu).respond 406) })
      else
        let earliestTopicMaxAge := lowerEarliest b.earliestTopicMaxAge (absMa request now)
        if isResourceExist b.resources lfData.path then do
          let topicDB ← b.topicDB.updateTopic lfData.path fun t =>
            { t with topicMa := absMa request now }
          .ok ({ b with topicDB, earliestTopicMaxAge },
            { response := some (({} : Pdu).respond 403) })
        else .ok (sHandler { b with earliestTopicMaxAge } lfData (absMa request now))) := by
  obtain ⟨p, attrs, htext, rfl, hmr⟩ := h
  rw [hndPostBroker_of_linkText htext, postLinkFormat, hmr]
  rfl

/-- The check of the content format. -/
theorem CreateRequest.isUscf_eq {resource : CoapResource} {request : Request}
    {lfData : LinkFormat} (h : CreateRequest resource request lfData) :
    isUscf lfData =
      if (checkedCt lfData).bytes.all isdigit = true ∧ 2 ^ 31 ≤ digitsValue (checkedCt lfData).bytes
      then .error .uncaughtException else .ok (decide ¬IsNumeral (checkedCt lfData)) := by
  have hne := h.checkedCt_ne
  rw [isUscf]
  change (if (checkedCt lfData).bytes.all isdigit = true then do
      let ctValue ← stoi (checkedCt lfData)
      .ok (decide ¬(ctValue ≥ 0 ∧ ctValue ≤ 65535))
    else .ok true) = _
  by_cases hdigits : (checkedCt lfData).bytes.all isdigit = true
  · rw [if_pos hdigits, stoi_of_digits hne hdigits]
    by_cases hlt : digitsValue (checkedCt lfData).bytes < 2 ^ 31
    · rw [if_pos hlt, if_neg fun h => not_le.2 hlt h.2]
      refine congrArg Except.ok (decide_eq_decide.2 (not_congr ?_))
      constructor
      · exact fun h => ⟨hne, hdigits, by omega⟩
      · exact fun h => ⟨by omega, by exact_mod_cast h.2.2⟩
    · rw [if_neg hlt, if_pos ⟨hdigits, not_lt.1 hlt⟩]
      rfl
  · rw [if_neg hdigits, if_neg fun h => hdigits h.1]
    have hnot : ¬IsNumeral (checkedCt lfData) := fun h => hdigits h.2.1
    rw [decide_eq_true hnot]

/-! ## The other requests -/

theorem hndGetTopic_ok {b : Broker} (hb : b.topicDB.Exact) {resource : CoapResource}
    (hct : IsNumeral (findAttributeValue resource ctName)) (peer : CoapAddress)
    (token : List Byte) (request : Option Request) (now : ℤ) :
    ∃ pdu, hndGetTopic b resource peer token request now = .ok pdu := by
  rw [hndGetTopic, stoi_of_isNumeral hct, TopicDB.copyTopic, TopicDB.getTopic_eq hb]
  simp only [bind, Except.bind]
  rcases Keyed.find TopicData.path b.topicDB.nodes resource.uri with _ | temp
  · split_ifs <;> exact ⟨_, rfl⟩
  · dsimp only
    split_ifs <;> exact ⟨_, rfl⟩

/-- All topics can be notified. -/
theorem notifiable_of_ctNumerals {b b' : Broker} (hb : Agreement b) (hct : CtNumerals b)
    (hb' : b'.topicDB.Exact) (now : ℤ) :
    ∀ r ∈ b.resources, Notifiable (notifyTopic b' now) r ∧
      Notifiable (notifyTopic b' now) { r with dirty := true } := by
  intro r hr
  have hok : r.observable → r.handler.get.isSome ∧ IsNumeral (findAttributeValue r ctName) := by
    intro hobs
    rcases hb.table.resource r hr with htopic | hbuiltin
    · exact ⟨by rw [htopic.handler]; rfl, hct r hr htopic⟩
    · rw [hbuiltin.not_observable] at hobs
      exact absurd hobs Bool.false_ne_true
  constructor
  · exact fun hobs => ⟨(hok hobs).1, fun observe s =>
      hndGetTopic_ok (by exact hb') (hok hobs).2 s.subscriber s.token none now⟩
  · exact fun hobs => ⟨(hok hobs).1, fun observe s =>
      hndGetTopic_ok (by exact hb') (by exact (hok hobs).2) s.subscriber s.token none now⟩

theorem hndPutTopic_ok {b : Broker} (hb : Agreement b) (hct : CtNumerals b)
    {resource : CoapResource} (hr : resource ∈ b.resources) (htopic : IsTopic resource)
    (request : Request) (now : ℤ) : ∃ res, hndPutTopic b resource request now = .ok res := by
  have hexact : TopicDB.Exact (b.topicDB.modify resource.uri fun t =>
      { t with data := CStr.read request.data, dataMa := absMaValue request now }) :=
    hb.exact.modify fun _ => rfl
  obtain ⟨res, hmark⟩ : ∃ res, markAndNotify (notifyTopic { b with
      topicDB := b.topicDB.modify resource.uri fun t =>
        { t with data := CStr.read request.data, dataMa := absMaValue request now }
      earliestDataMaxAge := lowerEarliest b.earliestDataMaxAge (absMaValue request now) } now)
      b.observe b.resources resource = .ok res :=
    markAndNotify_ok _ _ (notifiable_of_ctNumerals hb hct (by exact hexact) now)
  obtain ⟨t, ht⟩ := hb.getTopic_of_isTopic hr htopic
  have hupdate := TopicDB.updateTopic_eq hb.exact (hb.table.mem_paths_of_isTopic hr htopic)
  rw [hndPutTopic]
  rcases request.firstOption coapOptionContentType with _ | n
  · exact ⟨_, rfl⟩
  obtain ⟨ct, hstoi⟩ : ∃ ct, stoi (findAttributeValue resource ctName) = .ok ct :=
    ⟨_, stoi_of_isNumeral (hct resource hr htopic)⟩
  dsimp only
  rw [hstoi, TopicDB.copyTopic, ht]
  dsimp only [bind, Except.bind]
  by_cases hn : ct = toInt n
  · rw [if_neg (not_not.2 hn), hupdate]
    dsimp only
    rw [hmark]
    exact ⟨_, rfl⟩
  · rw [if_pos hn]
    exact ⟨_, rfl⟩

/-! ## A step -/

/-- A step keeps the content formats numerals, unless it creates a topic with another one. -/
theorem Effect.ctNumerals {b b' : Broker} {e : Event} {out : Output} (h : Effect b e b' out)
    (hb : Agreement b) (hct : CtNumerals b)
    (hcreate : ∀ uri req peer token now target lfData, e = .request uri .post req peer token now →
      b.find uri = some target → Creates target req lfData → IsNumeral (topicCt lfData)) :
    CtNumerals b' := by
  cases h with
  | idle => exact hct
  | observers uri f hf =>
    obtain ⟨g, hg, heq⟩ := TableAgreement.changeObservers_eq_map hb.table.uris uri hf
    intro x hx htopic
    dsimp only at hx
    rw [heq] at hx
    obtain ⟨r, hr, rfl⟩ := List.mem_map.1 hx
    obtain ⟨s, hs, -⟩ := hg r
    rw [hs] at htopic ⊢
    exact hct r hr (htopic.withSubscribers r.subscribers)
  | refreshed htarget hparent hlf hmem => exact hct
  | @created uri req peer token now target lfData htarget hparent hlf hnot =>
    intro r hr htopic
    rcases List.mem_append.1 hr with hr | hr
    · exact hct r hr htopic
    · rw [List.mem_singleton.1 hr]
      exact hcreate _ _ _ _ _ _ _ rfl htarget hlf
  | published observe ns htarget htopic => exact hct
  | deleted htarget htopic hnodes hexact =>
    exact fun r hr => hct r (List.mem_filter.1 hr).1

/-- Only a well-formed request to create a topic can throw. -/
theorem step_ok_of_not_create {b : Broker} (hb : Agreement b) (hct : CtNumerals b) {e : Event}
    (hnot : ∀ uri req peer token now target lfData, e = .request uri .post req peer token now →
      b.find uri = some target → ¬CreateRequest target req lfData) :
    ∃ res, step b e = .ok res := by
  cases e with
  | observe uri peer token => exact ⟨_, rfl⟩
  | unobserve uri peer token => exact ⟨_, rfl⟩
  | request uri method req peer token now =>
    rcases hfind : b.find uri with _ | r
    · exact ⟨_, by rw [step, hfind]⟩
    obtain ⟨hr, huri⟩ := Broker.find_spec hfind
    have hpost : ∃ res, hndPostBroker b r req now = .ok res ∨ method ≠ .post := by
      by_cases hmethod : method = .post
      · refine ⟨_, .inl (hndPostBroker_of_not_createRequest fun lfData => ?_)⟩
        exact hnot _ _ _ _ _ _ lfData (by rw [hmethod]) hfind
      · exact ⟨(b, {}), .inr hmethod⟩
    rw [step, hfind]
    rcases hb.table.resource r hr with htopic | hbuiltin
    · dsimp only
      rw [htopic.handler]
      cases method with
      | get =>
        obtain ⟨pdu, hpdu⟩ := hndGetTopic_ok hb.exact (hct r hr htopic) peer token (some req) now
        refine ⟨(b, { response := pdu }), ?_⟩
        change callHandler b r req peer token now .hndGetTopic = _
        rw [callHandler, hpdu]
        rfl
      | post =>
        obtain ⟨res, hres | hne⟩ := hpost
        · exact ⟨res, hres⟩
        · exact absurd rfl hne
      | put => exact hndPutTopic_ok hb hct hr htopic req now
      | delete => exact ⟨_, rfl⟩
    · dsimp only
      cases hbuiltin
      cases method with
      | get => exact ⟨_, rfl⟩
      | post =>
        obtain ⟨res, hres | hne⟩ := hpost
        · exact ⟨res, hres⟩
        · exact absurd rfl hne
      | put => exact ⟨_, rfl⟩
      | delete => exact ⟨_, rfl⟩

/-- What a well-formed request comes to: the check of its content format throws, refuses it, or
    lets it through. -/
theorem CreateRequest.answer {b : Broker} (hb : Agreement b) {target : CoapResource}
    {req : Request} {lfData : LinkFormat} (h : CreateRequest target req lfData) (now : ℤ) :
    ((checkedCt lfData).bytes.all isdigit = true ∧ 2 ^ 31 ≤ digitsValue (checkedCt lfData).bytes ∧
      hndPostBroker b target req now = .error .uncaughtException) ∨
    (¬IsNumeral (checkedCt lfData) ∧
      hndPostBroker b target req now =
        .ok (b, { response := some (({} : Pdu).respond 406) })) ∨
    (IsNumeral (checkedCt lfData) ∧ ∃ b' pdu,
      hndPostBroker b target req now = .ok (b', { response := some pdu }) ∧
        pdu.code ≠ coapResponseCode 406) := by
  have huscf := h.isUscf_eq
  rw [h.hndPostBroker_eq now]
  by_cases hthrow : (checkedCt lfData).bytes.all isdigit = true ∧
      2 ^ 31 ≤ digitsValue (checkedCt lfData).bytes
  · rw [if_pos hthrow] at huscf
    refine .inl ⟨hthrow.1, hthrow.2, ?_⟩
    rw [huscf]
    rfl
  rw [if_neg hthrow] at huscf
  by_cases hnum : IsNumeral (checkedCt lfData)
  · rw [decide_eq_false (not_not.2 hnum)] at huscf
    refine .inr (.inr ⟨hnum, ?_⟩)
    have hcreates : Creates target req lfData := by
      obtain ⟨p, attrs, htext, hlf, hmr⟩ := h
      exact ⟨p, attrs, htext, hlf, hmr, huscf⟩
    rw [huscf]
    dsimp only [bind, Except.bind]
    rw [if_neg Bool.false_ne_true]
    by_cases hex : lfData.path ∈ b.resources.uris
    · rw [isResourceExist, if_pos (decide_eq_true hex),
        TopicDB.updateTopic_eq hb.exact (hb.mem_paths_of_slash hex hcreates.slash_mem)]
      exact ⟨_, _, rfl, by decide⟩
    · rw [isResourceExist, if_neg (by simpa using hex)]
      refine ⟨_, _, rfl, ?_⟩
      rw [Pdu.code_respond]
      decide
  · rw [decide_eq_true hnum] at huscf
    refine .inr (.inl ⟨hnum, ?_⟩)
    rw [huscf]
    rfl

theorem ConversionsSafe.createsReadably {b : Broker} (hb : Agreement b) {e : Event}
    (h : ConversionsSafe b e) : CreatesReadably b e := by
  rintro uri req peer token now target lfData rfl hfind hcreate
  have hthrow := h.no_throw
  rw [step_post hb hfind] at hthrow
  rcases hcreate.answer hb now with ⟨-, -, heq⟩ | ⟨hnum, heq⟩ | ⟨hnum, b', pdu, heq, hne⟩
  · exact absurd heq hthrow
  · refine ⟨fun hdigits => not_le.1 fun hle => ?_, fun h => absurd h hnum⟩
    have huscf := hcreate.isUscf_eq
    rw [if_pos ⟨hdigits, hle⟩] at huscf
    rw [hcreate.hndPostBroker_eq now, huscf] at hthrow
    exact hthrow rfl
  · -- Were the content format of the topic none, the request would have been refused.
    refine ⟨fun _ => hnum.2.2.trans_lt (by norm_num), fun _ => ?_⟩
    by_contra htopic
    obtain ⟨b'', pdu', heq', hcode⟩ := h.refused _ _ _ _ _ _ _ rfl hfind hcreate htopic
    rw [step_post hb hfind, heq] at heq'
    cases heq'
    exact hne hcode

theorem CreatesReadably.no_throw {b : Broker} (hb : Agreement b) (hct : CtNumerals b) {e : Event}
    (h : CreatesReadably b e) : step b e ≠ .error .uncaughtException := by
  intro hthrow
  by_cases hcreate : ∃ uri req peer token now target lfData,
      e = .request uri .post req peer token now ∧ b.find uri = some target ∧
      CreateRequest target req lfData
  · obtain ⟨uri, req, peer, token, now, target, lfData, rfl, hfind, hcreate⟩ := hcreate
    rw [step_post hb hfind] at hthrow
    rcases hcreate.answer hb now with ⟨hdigits, hle, -⟩ | ⟨-, heq⟩ | ⟨-, b', pdu, heq, -⟩
    · have hlt := (h _ _ _ _ _ _ _ rfl hfind hcreate).1 hdigits
      exact absurd hlt (not_lt.2 hle)
    · rw [heq] at hthrow
      cases hthrow
    · rw [heq] at hthrow
      cases hthrow
  · obtain ⟨res, hres⟩ := step_ok_of_not_create hb hct
      fun uri req peer token now target lfData he hfind h =>
        hcreate ⟨uri, req, peer, token, now, target, lfData, he, hfind, h⟩
    rw [hres] at hthrow
    cases hthrow

theorem CreatesReadably.ctNumerals {b b' : Broker} (hb : Agreement b) (hct : CtNumerals b)
    {e : Event} (h : CreatesReadably b e) {out : Output} (hs : step b e = .ok (b', out)) :
    CtNumerals b' := by
  refine (step_effect hb hs).ctNumerals hb hct ?_
  rintro uri req peer token now target lfData rfl hfind ⟨p, attrs, htext, hlf, hmr, huscf⟩
  have hcreate : CreateRequest target req lfData := ⟨p, attrs, htext, hlf, hmr⟩
  rw [hcreate.isUscf_eq] at huscf
  split_ifs at huscf
  rw [Except.ok.injEq, decide_eq_false_iff_not, not_not] at huscf
  exact (h _ _ _ _ _ _ _ rfl hfind hcreate).2 huscf

/-- A step converts no text that is no number exactly if it does not ask for a topic whose
    content format is not readable. -/
theorem conversionsSafe_iff {b : Broker} (hb : Agreement b) (hct : CtNumerals b) (e : Event) :
    ConversionsSafe b e ↔ CreatesReadably b e := by
  refine ⟨fun h => h.createsReadably hb, fun hread =>
    ⟨hread.no_throw hb hct, fun b' out hs => hread.ctNumerals hb hct hs, ?_⟩⟩
  rintro uri req peer token now target lfData rfl hfind hcreate htopic
  rw [step_post hb hfind]
  obtain ⟨hdigits, hnum⟩ := hread _ _ _ _ _ _ _ rfl hfind hcreate
  rcases hcreate.answer hb now with ⟨hall, hle, -⟩ | ⟨-, heq⟩ | ⟨hchecked, -⟩
  · exact absurd (hdigits hall) (not_lt.2 hle)
  · exact ⟨_, _, heq, rfl⟩
  · exact absurd (hnum hchecked) htopic

/-! ## Every run -/

/-- In every run, every event is safe exactly if none asks for a topic whose content format is
    not readable. -/
theorem conversions_safe_iff {b : Broker}
    {tr : List (Transition Broker Event (Except Fault Output))}
    (h : Run attempt boot tr b) :
    (∀ x ∈ tr, ConversionsSafe x.src x.ev) ↔ ∀ x ∈ tr, CreatesReadably x.src x.ev := by
  refine h.forall_step_iff (I := fun b => Agreement b ∧ CtNumerals b) (P := ConversionsSafe)
    (C := CreatesReadably) ⟨agreement_boot, ?_⟩ ?_
  · intro r hr htopic
    have hhandler := htopic.handler
    rw [List.mem_singleton.1 hr] at hhandler
    exact absurd hhandler (by decide)
  · rintro b e out b' ⟨hb, hct⟩ hs
    refine ⟨conversionsSafe_iff hb hct e, fun hread => ?_⟩
    rw [attempt, Except.ok.injEq] at hs
    rcases hstep : step b e with f | ⟨b₁, out₁⟩ <;> rw [hstep] at hs
    · cases hs
      exact ⟨hb, hct⟩
    · cases hs
      exact ⟨(step_effect hb hstep).agreement hb,
        ((conversionsSafe_iff hb hct e).2 hread).ct _ _ hstep⟩

/-- A topic of content format 0, published to and refreshed. -/
theorem conversions_safe_zero :
    ∃ tr b, execTrace attempt boot [.create "ps" "<a>;ct=0" 1, .publish "ps/a" 0 "x" none 2,
        .create "ps" "<a>;ct=0" 3] = .ok (tr, b) ∧
      ∀ x ∈ tr, ConversionsSafe x.src x.ev := by
  obtain ⟨tr, b, hb⟩ : ∃ tr b, execTrace attempt boot [.create "ps" "<a>;ct=0" 1,
      .publish "ps/a" 0 "x" none 2, .create "ps" "<a>;ct=0" 3] = .ok (tr, b) := ⟨_, _, rfl⟩
  obtain ⟨hrun, hev⟩ := Run.of_execTrace .nil hb
  refine ⟨tr, b, hb, (conversions_safe_iff hrun).2 fun x hx => ?_⟩
  have hmem : x.ev ∈ tr.map Transition.ev := List.mem_map_of_mem hx
  rw [hev] at hmem
  obtain ⟨parsed, hparse, hread⟩ : ∃ parsed, LinkFormat.parse (CStr.read (ascii "<a>;ct=0"))
      (coapAttrFlagsReleaseName ||| coapAttrFlagsReleaseValue) = .ok parsed ∧
      IsNumeral (checkedCt parsed) ∧ IsNumeral (topicCt parsed) := ⟨_, rfl, by decide⟩
  intro uri req peer token now target lfData he hfind hcreate
  have hdata : req.data = ascii "<a>;ct=0" := by
    simp only [he, Event.create, Event.publish, List.mem_cons, List.not_mem_nil, or_false,
      Event.request.injEq, reduceCtorEq, false_and, and_false, false_or] at hmem
    rcases hmem with h | h
    · rw [h.2.2.1]
      rfl
    · rw [h.2.2.1]
      rfl
  obtain ⟨hchecked, htopic⟩ := hcreate.ct_eq (by rw [hdata]; exact hparse)
  rw [CtReadable, hchecked, htopic]
  exact ⟨fun _ => hread.1.2.2.trans_lt (by norm_num), fun _ => hread.2⟩

/-- A number that is too large ends the broker when the topic is created; in a second attribute
    of the same name, when something is published to the topic. -/
theorem conversions_throw :
    step boot (.create "ps" "<a>;ct=99999999999" 1) = .error .uncaughtException ∧
    ¬ConversionsSafe boot (.create "ps" "<a>;ct=99999999999" 1) ∧
    ∃ b, execRun step boot [.create "ps" "<a>;ct=0;ct=99999999999" 1] = .ok b ∧
      ¬CtNumerals b ∧
      step b (.publish "ps/a" 0 "x" none 2) = .error .uncaughtException ∧
      ¬ConversionsSafe b (.publish "ps/a" 0 "x" none 2) := by
  have hthrow : step boot (.create "ps" "<a>;ct=99999999999" 1) =
      .error .uncaughtException := by decide +kernel
  refine ⟨hthrow, fun h => h.no_throw hthrow, ?_⟩
  obtain ⟨b, hb, r, hr, hhandler, hct, hput⟩ : ∃ b,
      execRun step boot [.create "ps" "<a>;ct=0;ct=99999999999" 1] = .ok b ∧
      ∃ r ∈ b.resources, r.handler = topicHandlers ∧
        ¬IsNumeral (findAttributeValue r ctName) ∧
        step b (.publish "ps/a" 0 "x" none 2) = .error .uncaughtException :=
    ⟨_, rfl, _, List.mem_cons_of_mem _ List.mem_cons_self, by decide, by decide +kernel,
      by decide +kernel⟩
  refine ⟨b, hb, fun hnum => hct (hnum r hr ?_), hput, fun h => h.no_throw hput⟩
  rcases (Cpp.Reachable.agreement (.of_execRun .init hb)).table.resource r hr with htopic | hbuiltin
  · exact htopic
  · rw [hbuiltin] at hhandler
    exact absurd hhandler (by decide)

end CoapBroker.Cpp
