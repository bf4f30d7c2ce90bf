import CoapBroker.Cpp.Bisimulation
import CoapBroker.Cpp.Conversions
import CoapBroker.Cpp.Grammars
import CoapBroker.Cpp.MaxAge
import CoapBroker.Cpp.Reading
import CoapBroker.Lib.WeakSimulation
import CoapBroker.System.Formats
import CoapBroker.System.Ownership
import CoapBroker.System.Publishing

/-!
# The two brokers beside each other

The C broker and the C++ broker serve the same clients: given the same events, from the
beginning on, they hold the same topics with the same data, and answer alike
(`brokers_alike`). What differs is the answer to a read of a topic without data, or with data
that has an expiry to come, and the payload of the answer to a deletion (`Alike`).

The events are those on which the handlers do not differ for another reason (`Portable`): the
numbers of `Max-Age` are not negative as an `int`; a topic is created from a payload that both
grammars accept or reject, with one content format at most, whose number is an `int`; and the
resource of the broker is not to be deleted, which ends the C broker. The bridge of the C
broker may be on: messages from it are no events here, and the calls to its client are not
compared.
-/

namespace CoapBroker.Cpp

/-! ## Events -/

/-- The event of the C broker. -/
def Event.toC : Event → CoapBroker.Event
  | .request uri method req peer token now => .request uri method req peer token now
  | .observe uri peer token => .observe uri peer token
  | .unobserve uri peer token => .unobserve uri peer token

/-- `Max-Age` is no negative `int`. -/
def MaxAgeSmall (req : Request) : Prop :=
  ∀ n ∈ req.firstOption coapOptionMaxage, n < 2 ^ 31

instance (req : Request) : Decidable (MaxAgeSmall req) :=
  inferInstanceAs (Decidable (∀ n ∈ req.firstOption coapOptionMaxage, n < 2 ^ 31))

/-- A payload both brokers make the same of. -/
structure PlainPayload (text : CStr) : Prop where
  grammar : ∀ p items, WideText text.bytes p items →
    (('_' : Byte) ∈ text.bytes ↔ ∃ a ∈ items, OddlyQuoted a.2)
  /-- There is one content format at most. -/
  ct_once : ∀ lf, LinkFormat.parse text
      (coapAttrFlagsReleaseName ||| coapAttrFlagsReleaseValue) = .ok lf →
    (lf.attributeList.filter fun a => a.name = ctName).length ≤ 1
  /-- Its number, if it is one, is an `int`. -/
  ct_small : ∀ lf, LinkFormat.parse text
      (coapAttrFlagsReleaseName ||| coapAttrFlagsReleaseValue) = .ok lf →
    (checkedCt lf).bytes.all isdigit = true → digitsValue (checkedCt lf).bytes < 2 ^ 31

/-- The events the two brokers treat alike. -/
def Portable : Event → Prop
  | .request uri .get _ _ _ _ => uri ≠ brokerPath
  | .request _ .post req _ _ _ => MaxAgeSmall req ∧
    (IsLinkFormat req ∧ PlainPayload (CStr.read req.data) ∨ ¬IsLinkFormat req ∧ Accepted req)
  | .request _ .put req _ _ _ => MaxAgeSmall req
  | .request uri .delete _ _ _ _ => uri ≠ brokerPath
  | .observe _ _ _ | .unobserve _ _ _ => True

/-! ## Answers -/

/-- The answers of the C broker and of the C++ broker. -/
inductive Alike : Pdu → Pdu → Prop
  /-- They are the same. -/
  | same (pdu : Pdu) : Alike pdu pdu
  /-- A topic without data is read. -/
  | empty {pdu pdu' : Pdu} (hcode : pdu.code = coapResponseCode 204)
    (hcode' : pdu'.code = coapResponseCode 205) (hdata : pdu'.data = []) : Alike pdu pdu'
  /-- Data with an expiry to come is read: the content format is missing. -/
  | timed {pdu pdu' : Pdu} (hcode : pdu.code = coapResponseCode 205)
    (hcode' : pdu'.code = coapResponseCode 205) (hdata : pdu.data = pdu'.data)
    (hmaxage : (pdu.number coapOptionMaxage).isSome)
    (hoptions : pdu'.options = pdu.options.filter fun o => o.type ≠ coapOptionContentType) :
    Alike pdu pdu'
  /-- A topic is deleted: the C broker sends the number of topics it has deleted. -/
  | deleted {pdu pdu' : Pdu} (hcode : pdu.code = coapResponseCode 202)
    (hcode' : pdu'.code = coapResponseCode 202) : Alike pdu pdu'

/-- Notifications to the same observer, alike. -/
def NotifiedAlike (n n' : Notification) : Prop :=
  n.subscriber = n'.subscriber ∧ n.token = n'.token ∧ Alike n.response n'.response

/-- Answers and notifications that are alike. -/
structure OutputAlike (out out' : Output) : Prop where
  response : Option.Rel Alike out.response out'.response
  notifications : List.Forall₂ NotifiedAlike out.notifications out'.notifications

theorem OutputAlike.of_response {pdu pdu' : Pdu} {mqtt : List MqttCall} (h : Alike pdu pdu') :
    OutputAlike { response := some pdu, mqtt } { response := some pdu' } :=
  ⟨.some h, .nil⟩

/-! ## States -/

/-- The brokers hold the same topics with the same data. -/
structure Corresponds (b : CoapBroker.Broker) (b' : Broker) : Prop where
  topics : ∃ topics, b.resources = CoapBroker.brokerResource :: topics ∧
    b'.resources = brokerResource :: topics
  topicDB : b'.topicDB = TopicDB.ofC b.topicDB
  earliestTopicMaxAge : b'.earliestTopicMaxAge = b.earliestTopicMaxAge
  earliestDataMaxAge : b'.earliestDataMaxAge = b.earliestDataMaxAge
  observe : b'.observe = b.observe

/-- Corresponding states, in each of which the store and the table agree. -/
structure Related (b : CoapBroker.Broker) (b' : Broker) : Prop extends Corresponds b b' where
  agreement : CoapBroker.Agreement b
  agreement' : Agreement b'
  numerals : CtNumerals b'

/-! ## Numbers -/

theorem toInt_of_lt {n : ℕ} (h : n < 2 ^ 31) : toInt n = n := by
  rw [toInt_eq (h.trans (by norm_num)), if_pos h]

theorem absMaValue_eq {req : Request} (h : MaxAgeSmall req) (now : ℤ) :
    absMaValue req now = dataExpiry req now := by
  rw [absMaValue, dataExpiry]
  rcases hopt : req.firstOption coapOptionMaxage with _ | n
  · rfl
  · dsimp only
    rw [toInt_of_lt (h n hopt)]

theorem absMa_eq {req : Request} (h : MaxAgeSmall req) (now : ℤ) :
    absMa req now = topicExpiry req now := by
  rw [absMa, topicExpiry]
  rcases hopt : req.firstOption coapOptionMaxage with _ | n
  · rfl
  · dsimp only
    rw [toInt_of_lt (h n hopt)]
    exact if_congr (by omega) rfl rfl

/-- `is_ct_valid` is the test of the C broker. -/
theorem isCtValid_iff {req : Request} :
    isCtValid req coapMediatypeApplicationLinkFormat = true ↔ IsLinkFormat req := by
  rw [isCtValid, IsLinkFormat]
  rcases hopt : req.firstOption coapOptionContentType with _ | n
  · exact iff_of_false Bool.false_ne_true (Option.some_ne_none _).symm
  · have hct : (coapMediatypeApplicationLinkFormat : ℤ) < 2 ^ 31 := by decide
    rw [decide_eq_true_eq, Option.some.injEq,
      toInt_eq_iff (Request.firstOption_lt hopt) (by omega) hct]
    rfl

/-! ## Reading -/

/-- The answers to a read from the same record. -/
theorem alike_readResponse (temp : CoapBroker.TopicData) (observe : Option ℕ) (ct now : ℤ) :
    Alike (CoapBroker.readResponse temp observe ct now)
      (readResponse (TopicData.ofC temp) observe ct now) := by
  -- data that has expired, no data, and data without or with an expiry to come
  by_cases hexp : Expired temp.dataMa now
  · rw [readResponse_noContent (.inr hexp), readResponse_of_expired hexp]
    exact .same _
  obtain ⟨hcode, hpayload, hoptions⟩ :=
    @readResponse_of_not_expired (TopicData.ofC temp) now hexp observe ct
  rcases hdata : temp.data with _ | data
  · refine .empty ?_ hcode (hpayload.trans ?_)
    · rw [readResponse_noContent (.inl hdata)]
      rfl
    · rw [TopicData.ofC, hdata]
      rfl
  obtain ⟨hcode', hpayload', hoptions'⟩ := readResponse_c_of_not_expired hdata hexp observe ct
  have hofC : (TopicData.ofC temp).data = data := by rw [TopicData.ofC, hdata]; rfl
  by_cases h0 : temp.dataMa = 0
  · have heq : CoapBroker.readResponse temp observe ct now =
        readResponse (TopicData.ofC temp) observe ct now := by
      rcases hpdu : CoapBroker.readResponse temp observe ct now with ⟨code, options, payload⟩
      rcases hpdu' : readResponse (TopicData.ofC temp) observe ct now with ⟨code', options', payload'⟩
      rw [hpdu] at hcode' hpayload' hoptions'
      rw [hpdu'] at hcode hpayload hoptions
      rw [if_pos h0] at hoptions'
      rw [if_pos (by exact h0)] at hoptions
      dsimp only at hcode hcode' hpayload hpayload' hoptions hoptions'
      rw [hcode, hcode', hpayload, hpayload', hoptions, hoptions', hofC]
    rw [heq]
    exact .same _
  · rw [if_neg h0] at hoptions'
    rw [if_neg (by exact h0)] at hoptions
    refine .timed hcode' hcode (by rw [hpayload, hpayload', hofC]) ?_ ?_
    · rw [Pdu.number, hoptions']
      cases observe <;> rfl
    · rw [hoptions, hoptions']
      cases observe <;> rfl

section

variable {b : CoapBroker.Broker} {b' : Broker} {r : CoapResource} {uri : CStr}

/-! ## The tables -/

/-- Both tables begin with the resource of the broker. -/
theorem Corresponds.find_broker (h : Corresponds b b') :
    b.find brokerPath = some CoapBroker.brokerResource ∧
      b'.find brokerPath = some brokerResource := by
  obtain ⟨topics, ht, ht'⟩ := h.topics
  rw [CoapBroker.Broker.find, Broker.find, ht, ht']
  exact ⟨rfl, rfl⟩

/-- Everywhere else they have the same resources. -/
theorem Corresponds.find_eq (h : Corresponds b b') (huri : uri ≠ brokerPath) :
    b'.find uri = b.find uri := by
  obtain ⟨topics, ht, ht'⟩ := h.topics
  rw [CoapBroker.Broker.find, Broker.find, ht, ht', Keyed.find_cons, Keyed.find_cons,
    if_neg (show brokerResource.uri ≠ uri from huri.symm),
    if_neg (show CoapBroker.brokerResource.uri ≠ uri from huri.symm)]

theorem Corresponds.uris_eq (h : Corresponds b b') : b'.resources.uris = b.uris := by
  obtain ⟨topics, ht, ht'⟩ := h.topics
  rw [CoapBroker.Broker.uris, ht, ht']
  rfl

/-- What is found there is a topic, for both brokers, whose content format they read alike. -/
theorem Related.topic (h : Related b b') (huri : uri ≠ brokerPath) (hfind : b.find uri = some r) :
    r ∈ b.resources ∧ r ∈ b'.resources ∧ r.uri = uri ∧ CoapBroker.IsTopic r ∧ IsTopic r ∧
      ∃ ct, ctAttrValue r = .ok ct ∧ stoi (findAttributeValue r ctName) = .ok ct := by
  obtain ⟨hr, rfl⟩ := CoapBroker.Broker.find_spec hfind
  obtain ⟨hr', -⟩ := Broker.find_spec ((h.find_eq huri).trans hfind)
  have htopic' : IsTopic r := by
    rcases h.agreement'.table.resource r hr' with htopic | rfl
    · exact htopic
    · exact absurd rfl huri
  have htopic : CoapBroker.IsTopic r := (h.agreement.isTopic_iff hr).1 htopic'.handler
  have hstoi := stoi_of_isNumeral (h.numerals r hr' htopic')
  refine ⟨hr, hr', rfl, htopic, htopic', _, ?_, hstoi⟩
  obtain ⟨attr, hattr⟩ := Option.isSome_iff_exists.1 htopic'.ct
  rw [findAttributeValue, hattr] at hstoi ⊢
  rw [ctAttrValue, hattr]
  exact congrArg Except.ok (atoi_of_stoi hstoi).1

/-- The record of a path, in both stores. -/
theorem record_ofC {db : CoapBroker.TopicDB} {db' : TopicDB} (hexact : db'.Exact)
    (heq : db' = TopicDB.ofC db) (hmem : uri ∈ db.paths) :
    ∃ temp, db.cloneTopic uri = some temp ∧
      db'.copyTopic uri = .ok (some (TopicData.ofC temp)) := by
  obtain ⟨temp, htemp⟩ := Option.isSome_iff_exists.1 (CoapBroker.TopicDB.getTopic_isSome.2 hmem)
  refine ⟨temp, htemp, ?_⟩
  rw [TopicDB.copyTopic, TopicDB.getTopic_eq hexact, heq, TopicDB.find_ofC, htemp]
  rfl

theorem Related.record (h : Related b b') (hr : r ∈ b.resources) (htopic : CoapBroker.IsTopic r) :
    ∃ temp, b.topicDB.cloneTopic r.uri = some temp ∧
      b'.topicDB.copyTopic r.uri = .ok (some (TopicData.ofC temp)) :=
  record_ofC h.agreement'.exact h.topicDB (h.agreement.mem_paths_of_isTopic hr htopic)

/-! ## The handlers -/

/-- Reads are answered alike. -/
theorem Related.get (h : Related b b') (huri : uri ≠ brokerPath)
    (hfind : b.find uri = some r) (peer : CoapAddress) (token : List Byte)
    (request : Option Request) (now : ℤ) :
    ∃ pdu pdu', CoapBroker.hndGetTopic b r peer token request now = .ok pdu ∧
      hndGetTopic b' r peer token request now = .ok pdu' ∧ Alike pdu pdu' := by
  obtain ⟨hr, -, -, htopic, -, ct, hct, hstoi⟩ := h.topic huri hfind
  obtain ⟨temp, htemp, htemp'⟩ := h.record hr htopic
  refine ⟨_, _, hndGetTopic_eq_c hct htemp peer token request now,
    hndGetTopic_eq hstoi htemp' peer token request now, ?_⟩
  rw [h.observe]
  split_ifs
  · exact alike_readResponse temp _ ct now
  · exact alike_readResponse temp _ ct now
  · exact .same _

/-- What a request publishes is stored alike. -/
theorem published_ofC (db : CoapBroker.TopicDB) (req : Request) (dataMa : ℤ) :
    ((TopicDB.ofC db).modify uri fun t => { t with data := CStr.read req.data, dataMa }) =
      TopicDB.ofC (db.updateTopicData uri dataMa req.payload req.data.length).1 := by
  rw [CoapBroker.TopicDB.updateTopicData_fst]
  refine TopicDB.modify_ofC fun t => ?_
  have hdata : (copyData req.payload req.data.length).getD CStr.empty = CStr.read req.data := by
    rw [CoapBroker.TopicDB.copyData_getD, dataString.eq_def, Request.data]
    rcases req.payload with _ | mem
    · exact CStr.read_nil.symm
    · exact congrArg CStr.read List.take_length
  rw [TopicData.ofC, TopicData.ofC, hdata]

/-- The observers of a topic are told what its record says. -/
theorem markAndNotify_served {s : Broker} {t : ResourceTable} {ct : ℤ} {temp : TopicData}
    (hclean : ∀ x ∈ t, x.dirty = false) (ht : t.Nodup) (hr : r ∈ t) (htopic : IsTopic r)
    (hct : stoi (findAttributeValue r ctName) = .ok ct)
    (htemp : s.topicDB.copyTopic r.uri = .ok (some temp)) (observe : ℕ) (now : ℤ) :
    markAndNotify (notifyTopic s now) observe t r =
      .ok (t, observe + 1, notificationsOf r fun _ => readResponse temp (some observe) ct now) := by
  refine markAndNotify_spec observe hclean ht hr htopic.observable (by rw [htopic.handler]; rfl)
    fun x hx => ?_
  have hobserver : (r.findObserver x.subscriber x.token).isSome := findObserver_isSome hx
  refine (hndGetTopic_eq (by exact hct) (by exact htemp) x.subscriber x.token none now).trans ?_
  rw [if_pos (by exact hobserver), if_pos (by exact hobserver)]

/-- Data is published alike. -/
theorem Related.put (h : Related b b') (huri : uri ≠ brokerPath)
    (hfind : b.find uri = some r) {req : Request} (hsmall : MaxAgeSmall req) (now : ℤ) :
    ∃ s out s' out', CoapBroker.hndPutTopic b r req now = .ok (s, out) ∧
      hndPutTopic b' r req now = .ok (s', out') ∧ Corresponds s s' ∧ OutputAlike out out' := by
  obtain ⟨hr, hr', rfl, htopic, htopic', ct, hct, hstoi⟩ := h.topic huri hfind
  obtain ⟨temp, htemp, htemp'⟩ := h.record hr htopic
  rw [CoapBroker.hndPutTopic, hndPutTopic]
  rcases hopt : req.firstOption coapOptionContentType with _ | n
  · exact ⟨_, _, _, _, rfl, rfl, h.toCorresponds, .of_response (.same _)⟩
  -- one side compares as unsigned, the other as int
  have hiff : toInt n = ct ↔ n = toUnsigned ct :=
    toInt_eq_iff (Request.firstOption_lt hopt) (atoi_of_stoi hstoi).2.1 (atoi_of_stoi hstoi).2.2
  dsimp only
  rw [hct, hstoi, htemp, htemp']
  simp only [bind, Except.bind]
  by_cases hn : n = toUnsigned ct
  swap
  · rw [if_pos (Ne.symm hn), if_pos fun heq => hn (hiff.1 heq.symm)]
    exact ⟨_, _, _, _, rfl, rfl, h.toCorresponds, .of_response (.same _)⟩
  rw [if_neg (not_not.2 hn.symm), if_neg (not_not.2 (hiff.2 hn).symm), absMaValue_eq hsmall]
  have hmem : r.uri ∈ b.topicDB.paths := h.agreement.mem_paths_of_isTopic hr htopic
  have hflag : ∀ dataMa, b.topicDB.updateTopicData r.uri dataMa req.payload req.data.length =
      ((b.topicDB.updateTopicData r.uri dataMa req.payload req.data.length).1, true) := fun _ =>
    Prod.ext rfl (by
      rw [CoapBroker.TopicDB.updateTopicData_snd, CoapBroker.TopicDB.getTopic_isSome.2 hmem])
  have hmem' : r.uri ∈ b'.topicDB.paths := h.agreement'.table.mem_paths_of_isTopic hr' htopic'
  -- the two stores stay alike
  have hstore : (b'.topicDB.modify r.uri fun t =>
        { t with data := CStr.read req.data, dataMa := dataExpiry req now }) =
      TopicDB.ofC (b.topicDB.updateTopicData r.uri (dataExpiry req now) req.payload
        req.data.length).1 := by
    rw [h.topicDB, published_ofC]
  have hexact : (TopicDB.ofC (b.topicDB.updateTopicData r.uri (dataExpiry req now) req.payload
      req.data.length).1).Exact := by
    rw [← hstore]
    exact h.agreement'.exact.modify fun _ => rfl
  rw [hflag, TopicDB.updateTopic_eq h.agreement'.exact hmem', hstore]
  obtain ⟨temp₁, htemp₁, htemp₁'⟩ := @record_ofC r.uri _ _ hexact rfl
    (by rw [CoapBroker.TopicDB.paths_updateTopicData]; exact hmem)
  dsimp only
  -- the same observers are told, each by a read of the new record
  rw [CoapBroker.markAndNotify_topic h.agreement hr htopic hct (by exact htemp₁),
    markAndNotify_served h.agreement'.table.clean
      h.agreement'.table.uris.of_map hr' htopic' hstoi (by exact htemp₁'), h.observe]
  refine ⟨_, _, _, _, rfl, rfl, ⟨h.topics, rfl, h.earliestTopicMaxAge, ?_, rfl⟩, .some (.same _), ?_⟩
  · dsimp only
    rw [h.earliestDataMaxAge]
  · rw [notificationsOf, notificationsOf, List.forall₂_map_left_iff, List.forall₂_map_right_iff,
      List.forall₂_same]
    exact fun x _ => ⟨rfl, rfl, alike_readResponse temp₁ _ ct now⟩

theorem not_deleted_brokerPath (huri : uri ≠ brokerPath) : ¬Deleted uri brokerPath := by
  rintro (heq | hinfix)
  · exact huri heq.symm
  · have hslash : ('/' : Byte) ∈ brokerPath.bytes :=
      hinfix.subset (List.mem_append_right _ (List.mem_singleton_self _))
    exact absurd hslash (by decide)

theorem TopicDB.eq_of_nodes {db db' : TopicDB} (hdb : db.Exact) (hdb' : db'.Exact)
    (h : db.nodes = db'.nodes) : db = db' := by
  rcases db with ⟨nodes, length⟩
  rcases db' with ⟨nodes', length'⟩
  obtain rfl : nodes = nodes' := h
  rw [show length = nodes.length from hdb.length, show length' = nodes.length from hdb'.length]

/-- Topics are deleted alike. -/
theorem Related.delete (h : Related b b') (huri : uri ≠ brokerPath)
    (hfind : b.find uri = some r) :
    Corresponds (CoapBroker.hndDeleteTopic b r).1 (hndDeleteTopic b' r).1 ∧
      OutputAlike (CoapBroker.hndDeleteTopic b r).2 (hndDeleteTopic b' r).2 := by
  obtain ⟨hr, hr', rfl, htopic, htopic', -⟩ := h.topic huri hfind
  obtain ⟨topicDB, hnodes, hexact, heq⟩ := hndDeleteTopic_eq h.agreement' hr' htopic'
  rw [(h.agreement.deletable hr htopic).hndDeleteTopic_eq, heq]
  have hexact' : (TopicDB.ofC (b.topicDB.filter fun t => ¬Deleted r.uri t.path)).Exact := by
    refine TopicDB.exact_ofC fun t ht => ?_
    have hmem : TopicData.ofC t ∈ b'.topicDB.nodes := by
      rw [h.topicDB]
      exact List.mem_map_of_mem (List.mem_filter.1 ht).1
    exact h.agreement'.exact.path_ne _ hmem
  refine ⟨⟨?_, TopicDB.eq_of_nodes hexact hexact' ?_, h.earliestTopicMaxAge, h.earliestDataMaxAge,
    h.observe⟩, .of_response (.deleted rfl rfl)⟩
  · obtain ⟨topics, ht, ht'⟩ := h.topics
    have hkept : ¬Deleted r.uri brokerPath := not_deleted_brokerPath huri
    refine ⟨topics.filter fun x => ¬Deleted r.uri x.uri, ?_, ?_⟩
    · dsimp only
      rw [ht, List.filter_cons_of_pos (by exact decide_eq_true hkept)]
    · dsimp only
      rw [ht', List.filter_cons_of_pos (by exact decide_eq_true hkept)]
  · rw [hnodes, h.topicDB]
    exact List.filter_map

/-! ## Creating topics -/

theorem find?_reverse {α : Type} {p : α → Bool} {l : List α} (h : (l.filter p).length ≤ 1) :
    l.reverse.find? p = l.find? p := by
  rw [← List.head?_filter, ← List.head?_filter, List.filter_reverse]
  match l.filter p, h with
  | [], _ => rfl
  | [a], _ => rfl

/-- With one content format at most, the last one is the first one. -/
theorem findAttr_ofLinkFormat {lf : LinkFormat}
    (h : (lf.attributeList.filter fun a => a.name = ctName).length ≤ 1) (flags : ℕ) :
    (ofLinkFormat lf flags).findAttr ctName =
      lf.attributeList.find? fun a => a.name = ctName := by
  rw [CoapResource.findAttr, (linkAttr_ofLinkFormat lf flags).1]
  exact find?_reverse h

/-- Both grammars accept a plain payload, or none does. -/
theorem PlainPayload.linkText_iff {text : CStr} (h : PlainPayload text) {p : List Byte}
    {attrs : List (List Byte × List Byte)} :
    CoapBroker.LinkText text.bytes p attrs ↔ LinkText text.bytes p attrs := by
  rw [linkText_iff_c, Cpp.linkText_iff]
  refine exists_congr fun items => and_congr_right fun hwide => and_congr_left fun _ => ?_
  rw [h.grammar p items hwide]
  simp only [not_exists, not_and]

/-- Both brokers make the same resource of an accepted payload. -/
theorem ofLinkFormat_linkFormatBelow {target target' : CoapResource}
    (huri : target.uri = target'.uri)
    (text : CStr) (p : List Byte) (attrs : List (List Byte × List Byte)) :
    ofLinkFormat (linkFormatBelow target' text p attrs) coapResourceFlagsReleaseUri =
      (resourceAt target p).withAttrs attrs := by
  rw [ofLinkFormat, linkFormatBelow, List.foldl_map, CoapResource.withAttrs, resourceAt, huri]

/-- The content format is checked alike. -/
theorem ctValueValid_iff_isNumeral {v : CStr} (hne : v ≠ CStr.empty)
    (hsmall : v.bytes.all isdigit = true → digitsValue v.bytes < 2 ^ 31) :
    ctValueValid v = true ↔ IsNumeral v := by
  rw [ctValueValid_iff]
  constructor
  · rintro ⟨hdigits, -, hle⟩
    have hlt := hsmall hdigits
    exact ⟨hne, hdigits, by omega⟩
  · rintro ⟨-, hdigits, hle⟩
    exact ⟨hdigits, by omega, by omega⟩

variable {target target' : CoapResource} {req : Request} {now : ℤ}

/-- An accepted payload in link format has the same effect on both brokers. -/
theorem Related.post_of_linkText (h : Related b b') (huri : target.uri = target'.uri)
    (hsmall : MaxAgeSmall req) (hcf : IsLinkFormat req) (hplain : PlainPayload (CStr.read req.data))
    {p : List Byte} {attrs : List (List Byte × List Byte)}
    (htext : LinkText (CStr.read req.data).bytes p attrs) :
    ∃ s out slot s' out', hndPost b target req now = .ok ((s, out), slot) ∧
      hndPostBroker b' target' req now = .ok (s', out') ∧ Corresponds s s' ∧
        OutputAlike out out' := by
  have hparse := LinkFormat.parse_of_linkText htext
    (coapAttrFlagsReleaseName ||| coapAttrFlagsReleaseValue)
  have honce := hplain.ct_once _ hparse
  have hint := hplain.ct_small _ hparse
  have hlf := ofLinkFormat_linkFormatBelow huri (CStr.read req.data) p attrs
  have hpost := @hndPost_of_accepted b target _ req now hcf
    ((hplain.linkText_iff.2 htext).parseLinkFormat_eq target)
  have hpost' := @hndPostBroker_of_linkText b' target' req now p attrs htext
  have hmr_iff : ∀ lf : LinkFormat, isMr req lf = !lf.isAttributeExist ctName := fun lf => by
    rw [isMr, isCtValid_iff.2 hcf]
    simp
  obtain ⟨lf, hlf_def⟩ : ∃ lf, lf = linkFormatBelow target' (CStr.read req.data) p attrs := ⟨_, rfl⟩
  rw [← hlf_def] at hlf hpost'
  replace honce : (lf.attributeList.filter fun a => a.name = ctName).length ≤ 1 := by
    rw [hlf_def]
    exact honce
  replace hint : (checkedCt lf).bytes.all isdigit = true →
      digitsValue (checkedCt lf).bytes < 2 ^ 31 := by
    rw [hlf_def]
    exact hint
  rw [← hlf, findAttr_ofLinkFormat honce] at hpost
  rcases hct : lf.attributeList.find? fun a => a.name = ctName with _ | attr
  · -- without a content format, the request is malformed
    have hmr : isMr req lf = true := by
      rw [hmr_iff, LinkFormat.isAttributeExist, List.any_eq_false.2 (List.find?_eq_none.1 hct)]
      rfl
    rw [hct] at hpost
    rw [postLinkFormat, if_pos hmr] at hpost'
    exact ⟨_, _, _, _, _, hpost, hpost', h.toCorresponds, .of_response (.same _)⟩
  have hmr : isMr req lf = false := by
    rw [hmr_iff, LinkFormat.isAttributeExist,
      List.any_eq_true.2 ⟨attr, List.mem_of_find?_eq_some hct, List.find?_some hct⟩]
    rfl
  have hcreate : CreateRequest target' req lf := ⟨p, attrs, htext, hlf_def, hmr⟩
  have hchecked : checkedCt lf = attr.value := by
    rw [checkedCt, LinkFormat.getAttribute, hct, Option.getD_some]
  have huscf : isUscf lf = .ok (decide ¬IsNumeral attr.value) := by
    rw [hcreate.isUscf_eq, if_neg fun hlarge => not_lt.2 hlarge.2 (hint hlarge.1), hchecked]
  have hvalid : ctValueValid attr.value = true ↔ IsNumeral attr.value :=
    ctValueValid_iff_isNumeral (hchecked ▸ hcreate.checkedCt_ne) (hchecked ▸ hint)
  have hpath : (ofLinkFormat lf coapResourceFlagsReleaseUri).uri = lf.path := uri_ofLinkFormat lf _
  rw [hct] at hpost
  rw [postLinkFormat, hmr, huscf] at hpost'
  simp only [bind, Except.bind, Bool.false_eq_true, if_false, decide_eq_true_eq] at hpost hpost'
  by_cases hnum : IsNumeral attr.value
  swap
  · -- the content format is refused
    rw [if_pos (mt hvalid.1 hnum)] at hpost
    rw [if_pos hnum] at hpost'
    exact ⟨_, _, _, _, _, hpost, hpost', h.toCorresponds, .of_response (.same _)⟩
  rw [if_neg (not_not.2 (hvalid.2 hnum)), hpath] at hpost
  rw [if_neg (not_not.2 hnum), isResourceExist, h.uris_eq] at hpost'
  have hcreates : Creates target' req lf := by
    refine ⟨p, attrs, htext, hlf_def, hmr, ?_⟩
    rw [huscf, decide_eq_false (not_not.2 hnum)]
  by_cases hu : lf.path ∈ b.uris
  · -- the topic exists: its expiry is renewed
    have hmem := h.agreement'.mem_paths_of_slash (h.uris_eq ▸ hu) hcreates.slash_mem
    rw [if_pos hu] at hpost
    rw [if_pos (decide_eq_true hu), TopicDB.updateTopic_eq h.agreement'.exact hmem] at hpost'
    refine ⟨_, _, _, _, _, hpost, hpost', ⟨h.topics, ?_, ?_, h.earliestDataMaxAge, h.observe⟩,
      .of_response (.same _)⟩
    · dsimp only
      rw [hpath, h.topicDB, absMa_eq hsmall, TopicDB.updateTopicInfo_ofC]
    · dsimp only
      rw [h.earliestTopicMaxAge, absMa_eq hsmall]
  · -- the topic is new
    have hpos : 0 < lf.path.length :=
      List.length_pos_iff.2 (List.ne_nil_of_mem hcreates.slash_mem)
    rw [if_neg hu] at hpost
    rw [if_neg (by simpa using hu)] at hpost'
    refine ⟨_, _, _, _, _, hpost, hpost', ⟨?_, ?_, ?_, h.earliestDataMaxAge, h.observe⟩,
      .some ?_, .nil⟩
    · obtain ⟨topics, ht, ht'⟩ := h.topics
      refine ⟨topics ++ [asTopic (ofLinkFormat lf coapResourceFlagsReleaseUri)], ?_, ?_⟩
      · dsimp only
        rw [ResourceTable.add, ht]
        rfl
      · dsimp only
        rw [ResourceTable.add, ht']
        rfl
    · dsimp only
      rw [hpath, absMa_eq hsmall, h.topicDB, TopicDB.addTopic_ofC hpos]
    · dsimp only
      rw [absMa_eq hsmall, h.earliestTopicMaxAge]
    · rw [hpath]
      exact .same _

/-- Topics are created alike. -/
theorem Related.post (h : Related b b') (huri : target.uri = target'.uri)
    (hsmall : MaxAgeSmall req)
    (hreq : IsLinkFormat req ∧ PlainPayload (CStr.read req.data) ∨
      ¬IsLinkFormat req ∧ Accepted req) :
    ∃ s out slot s' out', hndPost b target req now = .ok ((s, out), slot) ∧
      hndPostBroker b' target' req now = .ok (s', out') ∧ Corresponds s s' ∧
        OutputAlike out out' := by
  have hmalformed : ∀ slot, hndPost b target req now = .ok (malformed b, slot) →
      hndPostBroker b' target' req now =
        .ok (b', { response := some (({} : Pdu).respond 400) }) →
      ∃ s out slot s' out', hndPost b target req now = .ok ((s, out), slot) ∧
        hndPostBroker b' target' req now = .ok (s', out') ∧ Corresponds s s' ∧
          OutputAlike out out' := fun slot hpost hpost' =>
    ⟨_, _, _, _, _, hpost, hpost', h.toCorresponds, .of_response (.same _)⟩
  rcases hreq with ⟨hcf, hplain⟩ | ⟨hcf, p, attrs, htext⟩
  · rcases hndPostBroker_eq b' target' req now with ⟨p, attrs, htext, -⟩ | hpost'
    · exact h.post_of_linkText huri hsmall hcf hplain htext
    by_cases hno : ∃ p attrs, LinkText (CStr.read req.data).bytes p attrs
    · obtain ⟨p, attrs, htext⟩ := hno
      exact h.post_of_linkText huri hsmall hcf hplain htext
    rcases parseLinkFormat_cases (CStr.read req.data) target with ⟨p, attrs, htext, -⟩ | ⟨-, hrej⟩
    · exact absurd ⟨p, attrs, hplain.linkText_iff.1 htext⟩ hno
    · rcases hrej with heq | ⟨p, attrs, heq⟩
      · exact hmalformed _ (hndPost_of_rejected hcf heq) hpost'
      · exact hmalformed _ (hndPost_of_rejected hcf heq) hpost'
  · -- both answer 4.00 to another content format
    refine hmalformed _ ((hndPost_of_not_isLinkFormat hcf (htext.parseLinkFormat_eq target)).trans rfl) ?_
    rcases hndPostBroker_eq b' target' req now with ⟨p, attrs, -, heq⟩ | heq
    · rw [heq, postLinkFormat, if_pos]
      rw [isMr]
      exact decide_eq_true fun hmr => hcf (isCtValid_iff.1 hmr.1)
    · exact heq

/-- The content format of a topic made of a plain payload is a numeral. -/
theorem PlainPayload.isNumeral_topicCt {lf : LinkFormat}
    (hplain : PlainPayload (CStr.read req.data))
    (h : Creates target req lf) : IsNumeral (topicCt lf) := by
  obtain ⟨p, attrs, htext, hlf, hmr, huscf⟩ := h
  have hcreate : CreateRequest target req lf := ⟨p, attrs, htext, hlf, hmr⟩
  have honce : (lf.attributeList.filter fun a => a.name = ctName).length ≤ 1 := by
    have honce := hplain.ct_once _ (LinkFormat.parse_of_linkText htext
      (coapAttrFlagsReleaseName ||| coapAttrFlagsReleaseValue))
    rw [hlf]
    exact honce
  have hnum : IsNumeral (checkedCt lf) := by
    rw [hcreate.isUscf_eq] at huscf
    split_ifs at huscf
    exact not_not.1 (of_decide_eq_false (Except.ok.inj huscf))
  have hexist : lf.isAttributeExist ctName = true := by
    rw [isMr, decide_eq_false_iff_not, not_not] at hmr
    exact hmr.2
  obtain ⟨attr, hattr⟩ := Option.isSome_iff_exists.1
    (List.find?_isSome.2 (List.any_eq_true.1 hexist))
  rw [checkedCt, LinkFormat.getAttribute, hattr] at hnum
  rw [topicCt, findAttributeValue, findAttr_ofLinkFormat honce, hattr]
  exact hnum

/-! ## Steps -/

/-- Observers come and go alike. -/
theorem Corresponds.changeObservers (h : Corresponds b b') (uri : CStr)
    (f : CoapResource → CoapResource) :
    Corresponds { b with resources := b.resources.changeObservers uri f }
      { b' with resources := b'.resources.changeObservers uri f } := by
  obtain ⟨topics, ht, ht'⟩ := h.topics
  refine ⟨?_, h.topicDB, h.earliestTopicMaxAge, h.earliestDataMaxAge, h.observe⟩
  dsimp only
  rw [ht, ht', ResourceTable.changeObservers, ResourceTable.changeObservers]
  by_cases huri : brokerPath = uri
  · -- the resource of the broker is not observable
    refine ⟨topics, ?_, ?_⟩
    · rw [Keyed.modify, if_pos (by exact huri)]
      rfl
    · rw [Keyed.modify, if_pos (by exact huri)]
      rfl
  · refine ⟨ResourceTable.changeObservers topics uri f, ?_, ?_⟩
    · rw [Keyed.modify, if_neg (by exact huri)]
      rfl
    · rw [Keyed.modify, if_neg (by exact huri)]
      rfl

/-- A portable event leads corresponding states to corresponding ones, with answers that are
    alike. -/
theorem Related.step_corresponds (h : Related b b') {e : Event} (he : Portable e) :
    ∃ s out s' out', CoapBroker.step b e.toC = .ok (s, out) ∧ step b' e = .ok (s', out') ∧
      Corresponds s s' ∧ OutputAlike out out' := by
  cases e with
  | observe uri peer token => exact ⟨_, _, _, _, rfl, rfl, h.changeObservers uri _, .none, .nil⟩
  | unobserve uri peer token => exact ⟨_, _, _, _, rfl, rfl, h.changeObservers uri _, .none, .nil⟩
  | request uri method req peer token now =>
    rw [Event.toC]
    -- the handlers of the broker itself, and those of a topic
    by_cases huri : uri = brokerPath
    · subst huri
      obtain ⟨hfind, hfind'⟩ := h.find_broker
      cases method with
      | get => exact absurd rfl he
      | delete => exact absurd rfl he
      | put =>
        refine ⟨b, { response := some (({} : Pdu).respond 405) }, b',
          { response := some (({} : Pdu).respond 405) }, ?_, ?_, h.toCorresponds,
          .of_response (.same _)⟩
        · rw [CoapBroker.step, hfind]
          rfl
        · rw [step, hfind']
          rfl
      | post =>
        obtain ⟨s, out, slot, s', out', hpost, hpost', hcorr, hout⟩ :=
          @Related.post b b' CoapBroker.brokerResource brokerResource req now h rfl he.1 he.2
        refine ⟨s, out, s', out', ?_, ?_, hcorr, hout⟩
        · rw [CoapBroker.step_post hfind (.inl rfl), hpost]
          rfl
        · rw [step_post h.agreement' hfind', hpost']
    · rcases hfind : b.find uri with _ | r
      · refine ⟨b, { response := some (({} : Pdu).respond 404) }, b',
          { response := some (({} : Pdu).respond 404) }, ?_, ?_, h.toCorresponds,
          .of_response (.same _)⟩
        · rw [CoapBroker.step, hfind]
        · rw [step, h.find_eq huri, hfind]
      have hfind' : b'.find uri = some r := (h.find_eq huri).trans hfind
      obtain ⟨-, -, -, htopic, htopic', -⟩ := h.topic huri hfind
      cases method with
      | get =>
        obtain ⟨pdu, pdu', hget, hget', halike⟩ := h.get huri hfind peer token (some req) now
        refine ⟨b, { response := some pdu }, b', { response := some pdu' }, ?_, ?_,
          h.toCorresponds, .of_response halike⟩
        · rw [CoapBroker.step_get hfind htopic, hget]
          rfl
        · rw [step_get hfind' htopic', hget']
          rfl
      | put =>
        rw [CoapBroker.step_put hfind htopic, step_put hfind' htopic']
        exact h.put huri hfind he now
      | post =>
        obtain ⟨s, out, slot, s', out', hpost, hpost', hcorr, hout⟩ :=
          @Related.post b b' r r req now h rfl he.1 he.2
        refine ⟨s, out, s', out', ?_, ?_, hcorr, hout⟩
        · rw [CoapBroker.step_post hfind (.inr htopic), hpost]
          rfl
        · rw [step_post h.agreement' hfind', hpost']
      | delete =>
        obtain ⟨hcorr, hout⟩ := h.delete huri hfind
        refine ⟨_, _, _, _, ?_, ?_, hcorr, hout⟩
        · rw [CoapBroker.step, hfind]
          dsimp only
          rw [htopic.handler]
          rfl
        · rw [step, hfind']
          dsimp only
          rw [htopic'.handler]
          rfl

/-- The states it leads to are related. -/
theorem Related.step (h : Related b b') {e : Event} (he : Portable e) :
    ∃ s out s' out', CoapBroker.step b e.toC = .ok (s, out) ∧ Cpp.step b' e = .ok (s', out') ∧
      Related s s' ∧ OutputAlike out out' := by
  obtain ⟨s, out, s', out', hs, hs', hcorr, hout⟩ := h.step_corresponds he
  have heffect := CoapBroker.step_effect h.agreement hs
  have heffect' := step_effect h.agreement' hs'
  refine ⟨s, out, s', out', hs, hs', ⟨hcorr, heffect.agreement h.agreement,
    heffect'.agreement h.agreement', heffect'.ctNumerals h.agreement' h.numerals ?_⟩, hout⟩
  rintro uri req peer token now target lf rfl - hcreates
  obtain ⟨-, ⟨-, hplain⟩ | ⟨hcf, -⟩⟩ := he
  · exact hplain.isNumeral_topicCt hcreates
  · obtain ⟨-, -, -, -, hmr, -⟩ := hcreates
    rw [isMr, decide_eq_false_iff_not, not_not] at hmr
    exact absurd (isCtValid_iff.1 hmr.1) hcf

end

end CoapBroker.Cpp
