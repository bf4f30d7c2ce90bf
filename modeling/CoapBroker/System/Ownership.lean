import CoapBroker.System.Step

/-!
# Who frees the new resource

The new resource of a `POST` is freed by the parser when a payload is rejected on the way,
and by the handler when the request is refused; the parser leaves the pointer of the
handler as it is. When the content format of the request is not link format, the handler
frees whatever the pointer is, so that a payload the parser rejects makes it free `NULL`, or
the resource the parser has freed. This is the only way (`post_frees_once_iff`).
-/

namespace CoapBroker

/-- The codes of the responses that refuse to create a topic. -/
def IsRefusal (code : ℕ) : Prop :=
  code = coapResponseCode 400 ∨ code = coapResponseCode 403 ∨ code = coapResponseCode 406

/-- The handler has freed live resources only. If it has refused the request, it has freed
    the new resource, if there was one, and has not registered it; and if the request was
    malformed or its content format was not acceptable, the broker is as before. -/
def FreesOnce (b : Broker) (result : Except Fault ((Broker × Output) × NewResource)) : Prop :=
  ∃ b' out slot, result = .ok ((b', out), slot) ∧
    ∀ pdu, out.response = some pdu → IsRefusal pdu.code →
      (slot = .null ∨ ∃ r, slot = .freed r) ∧ b'.resources = b.resources ∧
        (pdu.code ≠ coapResponseCode 403 → b' = b)

/-- The parser accepts the payload of a request. -/
def Accepted (request : Request) : Prop :=
  ∃ p attrs, LinkText (CStr.read request.data).bytes p attrs

variable {b : Broker} {resource : CoapResource} {request : Request} {now : ℤ}

theorem freesOnce_malformed {slot : NewResource} (hslot : slot = .null ∨ ∃ r, slot = .freed r) :
    FreesOnce b (.ok (malformed b, slot)) :=
  ⟨b, _, slot, rfl, fun _ _ _ => ⟨hslot, rfl, fun _ => rfl⟩⟩

/-- With link format, the handler frees the new resource of an accepted payload unless it
    registers it. -/
theorem freesOnce_of_accepted (hcf : IsLinkFormat request) {r : CoapResource}
    (h : parseLinkFormat (CStr.read request.data) resource = .ok (.live r, true)) :
    FreesOnce b (hndPost b resource request now) := by
  rw [hndPost_of_accepted hcf h]
  rcases r.findAttr ctName with _ | attr
  · exact freesOnce_malformed (.inr ⟨r, rfl⟩)
  · dsimp only
    split_ifs
    · refine ⟨_, _, _, rfl, fun pdu hpdu _ => ⟨.inr ⟨r, rfl⟩, rfl, fun hne => ?_⟩⟩
      cases hpdu
      exact absurd rfl hne
    · refine ⟨_, _, _, rfl, fun pdu hpdu href => ?_⟩
      cases hpdu
      rcases href with h | h | h <;> exact absurd h (by rw [Pdu.code_respond]; decide)
    · exact ⟨_, _, _, rfl, fun pdu _ _ => ⟨.inr ⟨r, rfl⟩, rfl, fun _ => rfl⟩⟩

theorem hndPost_freesOnce_iff :
    FreesOnce b (hndPost b resource request now) ↔ IsLinkFormat request ∨ Accepted request := by
  rcases parseLinkFormat_cases (CStr.read request.data) resource with
    ⟨p, attrs, htext, heq⟩ | ⟨hno, hrej⟩
  · refine iff_of_true ?_ (.inr ⟨p, attrs, htext⟩)
    by_cases hcf : IsLinkFormat request
    · exact freesOnce_of_accepted hcf heq
    · rw [hndPost_of_not_isLinkFormat hcf heq]
      exact freesOnce_malformed (.inr ⟨_, rfl⟩)
  · -- the parser has left no live resource
    obtain ⟨slot, hslot, heq⟩ : ∃ slot, (slot = .null ∨ ∃ r, slot = .freed r) ∧
        parseLinkFormat (CStr.read request.data) resource = .ok (slot, false) := by
      rcases hrej with heq | ⟨p, attrs, heq⟩
      · exact ⟨_, .inl rfl, heq⟩
      · exact ⟨_, .inr ⟨_, rfl⟩, heq⟩
    by_cases hcf : IsLinkFormat request
    · refine iff_of_true ?_ (.inl hcf)
      rw [hndPost_of_rejected hcf heq]
      exact freesOnce_malformed hslot
    · refine iff_of_false ?_ (not_or.2 ⟨hcf, hno⟩)
      rw [hndPost_of_not_isLinkFormat hcf heq]
      rintro ⟨b', out, slot', hres, -⟩
      rcases hslot with rfl | ⟨r, rfl⟩ <;> cases hres

/-- The handlers free exactly once if and only if the content format of the request is link
    format or its payload is accepted. -/
theorem post_frees_once_iff (b : Broker) (resource : CoapResource) (request : Request) (now : ℤ) :
    (FreesOnce b (hndPostBroker b resource request now) ↔
      IsLinkFormat request ∨ Accepted request) ∧
    (FreesOnce b (hndPostTopic b resource request now) ↔
      IsLinkFormat request ∨ Accepted request) :=
  ⟨hndPost_freesOnce_iff, hndPost_freesOnce_iff⟩

/-- Requests without a content format: an empty payload makes the handler free `NULL`, and
    an attribute without a value makes it free what the parser has freed. -/
theorem post_without_content_format :
    let b := boot false false
    let post (payload : List Byte) :=
      hndPostBroker b brokerResource { options := [], payload := some payload } 1
    post [] = .error .assertion ∧ post (ascii "<a>;ct") = .error .doubleFree ∧
      ¬FreesOnce b (post []) ∧ ¬FreesOnce b (post (ascii "<a>;ct")) := by
  intro b post
  have h₁ : post [] = .error .assertion := rfl
  have h₂ : post (ascii "<a>;ct") = .error .doubleFree := rfl
  refine ⟨h₁, h₂, ?_, ?_⟩
  · rw [h₁]
    rintro ⟨b', out, slot, h, -⟩
    cases h
  · rw [h₂]
    rintro ⟨b', out, slot, h, -⟩
    cases h

end CoapBroker
