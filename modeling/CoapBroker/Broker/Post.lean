import CoapBroker.Broker.State
import CoapBroker.Parser.Acceptance

/-!
# Creating topics

`hnd_post_broker` and `hnd_post_topic`, which have the same body: the payload is parsed
into a new resource below the target, and this is registered unless the request is
malformed (4.00), its content format attribute is not acceptable (4.06), or a resource
with its URI exists (4.03, which renews the expiry of the topic).

The handlers give back what became of the new resource. A malformed request may have left
no live resource for them to free: `hndPost` then fails on it.
-/

namespace CoapBroker

/-- The resource a pointer points to. -/
def NewResource.deref : NewResource → Except Fault CoapResource
  | .null => .error .nullDeref
  | .live r => .ok r
  | .registered r => .ok r
  | .freed _ => .error .useAfterFree

/-- The validity of a `ct` attribute: digits that denote a 16-bit number. -/
def ctValueValid (value : CStr) : Bool :=
  value.bytes.all isdigit && decide (¬(atoi value < 0 ∨ atoi value > 65535))

/-- The expiry of a topic: `Max-Age` from now on, or `0` when it is `0` or not given. -/
def topicExpiry (request : Request) (now : ℤ) : ℤ :=
  match request.firstOption coapOptionMaxage with
  | some optTopicMa => if optTopicMa < 1 then 0 else now + optTopicMa
  | none => 0

/-- "Topic already exists": its expiry is renewed. -/
def topicExists (b : Broker) (r : CoapResource) (absTopicMa : ℤ) : Broker × Output :=
  ({ b with
      earliestTopicMaxAge := lowerEarliest b.earliestTopicMaxAge absTopicMa
      topicDB := (b.topicDB.updateTopicInfo r.uri absTopicMa).1 },
    { response := some (({} : Pdu).respond 403) })

/-- "Successful Creation of the topic": the resource and the record are added. -/
def topicCreated (b : Broker) (r : CoapResource) (absTopicMa : ℤ) : Broker × Output :=
  ({ b with
      earliestTopicMaxAge := lowerEarliest b.earliestTopicMaxAge absTopicMa
      resources := b.resources.add (asTopic r)
      topicDB := (b.topicDB.addTopicWEC r.uri r.uri.length absTopicMa).1 },
    { response := some ((({} : Pdu).addOption coapOptionLocationPath r.uri.bytes).respond 201)
      mqtt := whenBridged b.mqttBridge (.subscribe r.uri) })

@[simp] theorem code_topicExists (b : Broker) (r : CoapResource) (absTopicMa : ℤ) :
    (topicExists b r absTopicMa).2.code = some (coapResponseCode 403) := rfl

@[simp] theorem code_topicCreated (b : Broker) (r : CoapResource) (absTopicMa : ℤ) :
    (topicCreated b r absTopicMa).2.code = some (coapResponseCode 201) := rfl

/-- "Malformed request". -/
def malformed (b : Broker) : Broker × Output :=
  (b, { response := some (({} : Pdu).respond 400) })

/-- The common body of the two handlers. Each step of the source that frees the new
    resource goes on with the pointer it freed. -/
def hndPost (b : Broker) (resource : CoapResource) (request : Request) (now : ℤ) :
    Except Fault ((Broker × Output) × NewResource) := do
  let dataSafe := CStr.read request.data
  let (newResource, status) ← parseLinkFormat dataSafe resource
  let absTopicMa := topicExpiry request now
  let (newResource, status) ←
    if request.firstOption coapOptionContentType ≠ some coapMediatypeApplicationLinkFormat then do
      let newResource ← coapFreeResource newResource
      .ok (newResource, false)
    else .ok (newResource, status)
  if ¬status then .ok (malformed b, newResource)
  else
    let r ← newResource.deref
    match r.findAttr ctName with
    | none => do
      let newResource ← coapFreeResource newResource
      .ok (malformed b, newResource)
    | some newResourceAttr =>
      if ¬ctValueValid newResourceAttr.value then do
        let newResource ← coapFreeResource newResource
        .ok ((b, { response := some (({} : Pdu).respond 406) }), newResource)
      else if r.uri ∈ b.uris then do
        let newResource ← coapFreeResource newResource
        .ok (topicExists b r absTopicMa, newResource)
      else .ok (topicCreated b r absTopicMa, .registered (asTopic r))

/-- `hnd_post_broker`. -/
def hndPostBroker := hndPost

/-- `hnd_post_topic`. -/
def hndPostTopic := hndPost

/-! ## What it comes to -/

/-- A request asks for link format. -/
def IsLinkFormat (request : Request) : Prop :=
  request.firstOption coapOptionContentType = some coapMediatypeApplicationLinkFormat

instance (request : Request) : Decidable (IsLinkFormat request) :=
  inferInstanceAs (Decidable (_ = _))

section

variable {b : Broker} {resource r : CoapResource} {request : Request} {now : ℤ}

/-- Without link format, the handler frees what the parser has left and fails if this
    is not live. -/
theorem hndPost_of_not_isLinkFormat (hcf : ¬IsLinkFormat request) {slot : NewResource}
    {status : Bool} (h : parseLinkFormat (CStr.read request.data) resource = .ok (slot, status)) :
    hndPost b resource request now = (coapFreeResource slot).map (malformed b, ·) := by
  rw [IsLinkFormat] at hcf
  rw [hndPost, h]
  simp only [bind, Except.bind, if_pos hcf]
  rcases coapFreeResource slot with f | slot <;> rfl

/-- With link format, a payload that is rejected makes a malformed request. -/
theorem hndPost_of_rejected (hcf : IsLinkFormat request) {slot : NewResource}
    (h : parseLinkFormat (CStr.read request.data) resource = .ok (slot, false)) :
    hndPost b resource request now = .ok (malformed b, slot) := by
  rw [IsLinkFormat] at hcf
  rw [hndPost, h]
  simp only [bind, Except.bind, if_neg (not_not.2 hcf)]
  rfl

/-- With link format, the outcome for an accepted payload. -/
theorem hndPost_of_accepted (hcf : IsLinkFormat request)
    (h : parseLinkFormat (CStr.read request.data) resource = .ok (.live r, true)) :
    hndPost b resource request now = .ok (
      match r.findAttr ctName with
      | none => (malformed b, .freed r)
      | some attr =>
        if ¬ctValueValid attr.value then
          ((b, { response := some (({} : Pdu).respond 406) }), .freed r)
        else if r.uri ∈ b.uris then (topicExists b r (topicExpiry request now), .freed r)
        else (topicCreated b r (topicExpiry request now), .registered (asTopic r))) := by
  rw [IsLinkFormat] at hcf
  rw [hndPost, h]
  simp only [bind, Except.bind, if_neg (not_not.2 hcf), NewResource.deref, coapFreeResource]
  rcases r.findAttr ctName with _ | attr
  · rfl
  · by_cases hct : ctValueValid attr.value = true
    · by_cases hu : r.uri ∈ b.uris <;> simp [hct, hu]
    · simp [hct]

/-- The resource a request creates: the payload is link format for a path and for attributes
    among which there is a valid content format. -/
def Creates (resource : CoapResource) (request : Request) (r : CoapResource) : Prop :=
  IsLinkFormat request ∧
    (∃ p attrs, LinkText (CStr.read request.data).bytes p attrs ∧
      r = (resourceAt resource p).withAttrs attrs) ∧
    ∃ attr, r.findAttr ctName = some attr ∧ ctValueValid attr.value

/-- A request for a new topic creates it. -/
theorem hndPost_of_creates (h : Creates resource request r) (hnot : r.uri ∉ b.uris) :
    hndPost b resource request now =
      .ok (topicCreated b r (topicExpiry request now), .registered (asTopic r)) := by
  obtain ⟨hcf, ⟨p, attrs, htext, rfl⟩, attr, hattr, hct⟩ := h
  rw [hndPost_of_accepted hcf (htext.parseLinkFormat_eq resource), hattr]
  dsimp only
  rw [if_neg (not_not.2 hct), if_neg hnot]

/-- A request to create a topic is refused, renews the expiry of a topic, or creates one. -/
theorem hndPost_cases {b' : Broker} {out : Output} {slot : NewResource}
    (h : hndPost b resource request now = .ok ((b', out), slot)) :
    (b' = b ∧ ∃ pdu, out = { response := some pdu } ∧
      (pdu.code = coapResponseCode 400 ∨ pdu.code = coapResponseCode 406)) ∨
    ∃ r, Creates resource request r ∧
      (r.uri ∈ b.uris ∧ (b', out) = topicExists b r (topicExpiry request now) ∨
        r.uri ∉ b.uris ∧ (b', out) = topicCreated b r (topicExpiry request now)) := by
  rcases parseLinkFormat_cases (CStr.read request.data) resource with
    ⟨p, attrs, htext, heq⟩ | ⟨-, hrej⟩
  · by_cases hcf : IsLinkFormat request
    · rw [hndPost_of_accepted hcf heq, Except.ok.injEq] at h
      rcases hattr : ((resourceAt resource p).withAttrs attrs).findAttr ctName with _ | attr <;>
        rw [hattr] at h
      · cases h
        exact .inl ⟨rfl, _, rfl, .inl rfl⟩
      dsimp only at h
      split_ifs at h with hct hu
      · exact .inr ⟨_, ⟨hcf, ⟨p, attrs, htext, rfl⟩, attr, hattr, hct⟩,
          .inl ⟨hu, (Prod.mk.inj h).1.symm⟩⟩
      · exact .inr ⟨_, ⟨hcf, ⟨p, attrs, htext, rfl⟩, attr, hattr, hct⟩,
          .inr ⟨hu, (Prod.mk.inj h).1.symm⟩⟩
      · cases h
        exact .inl ⟨rfl, _, rfl, .inr rfl⟩
    · rw [hndPost_of_not_isLinkFormat hcf heq] at h
      cases h
      exact .inl ⟨rfl, _, rfl, .inl rfl⟩
  · obtain ⟨slot', heq⟩ : ∃ slot', parseLinkFormat (CStr.read request.data) resource =
        .ok (slot', false) := by
      rcases hrej with heq | ⟨p, attrs, heq⟩
      · exact ⟨_, heq⟩
      · exact ⟨_, heq⟩
    by_cases hcf : IsLinkFormat request
    · rw [hndPost_of_rejected hcf heq] at h
      cases h
      exact .inl ⟨rfl, _, rfl, .inl rfl⟩
    · rw [hndPost_of_not_isLinkFormat hcf heq] at h
      rcases hfree : coapFreeResource slot' with f | slot'' <;> rw [hfree] at h
      · cases h
      · cases h
        exact .inl ⟨rfl, _, rfl, .inl rfl⟩

end

end CoapBroker
