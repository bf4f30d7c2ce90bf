import CoapBroker.System.Agreement

/-!
# The content formats of new topics

The handlers that create topics look at each character of the content format, and then at the
range of the number `atoi` makes of it. An empty text has no character that is not a digit, and
`atoi` keeps 32 bits of a number, so that some greater ones are taken for 16-bit numbers.

* `ctValueValid_iff`: what the handlers let through;
* `only_content_formats_create_iff`: for the requests that offer nothing else that is let
  through, the topics created have content formats, and all others are answered 4.06.
-/

namespace CoapBroker

/-! ## Numerals -/

/-- A content format: a decimal numeral of a 16-bit number. -/
def IsContentFormat (v : CStr) : Prop :=
  v ≠ CStr.empty ∧ v.bytes.all isdigit = true ∧ digitsValue v.bytes ≤ 65535

/-- `atoi` on a text of digits. -/
theorem atoi_of_digits {v : CStr} (hv : v.bytes.all isdigit = true) :
    atoi v = (min (digitsValue v.bytes : ℤ) longMax).bmod (2 ^ 32) := by
  rw [atoi, strtol_of_digits hv]

theorem atoi_of_isContentFormat {v : CStr} (hv : IsContentFormat v) :
    atoi v = digitsValue v.bytes := by
  obtain ⟨-, hdigits, hle⟩ := hv
  have hmin : min (digitsValue v.bytes : ℤ) longMax = digitsValue v.bytes := by
    rw [longMax]
    omega
  rw [atoi_of_digits hdigits, hmin, Int.bmod_def]
  omega

/-- The texts the handlers take for content formats. A number that is no `long` becomes the
    greatest one, which `atoi` makes `-1` of. -/
theorem ctValueValid_iff {v : CStr} : ctValueValid v = true ↔
    v.bytes.all isdigit = true ∧ digitsValue v.bytes < 2 ^ 63 ∧
      digitsValue v.bytes % 2 ^ 32 ≤ 65535 := by
  rw [ctValueValid, Bool.and_eq_true, decide_eq_true_eq]
  refine and_congr_right fun hdigits => ?_
  rw [atoi_of_digits hdigits, Int.bmod_def]
  rcases lt_or_ge (digitsValue v.bytes) (2 ^ 63) with hlt | hge
  · have hmin : min (digitsValue v.bytes : ℤ) longMax = digitsValue v.bytes := by
      rw [longMax]
      omega
    rw [hmin]
    omega
  · have hmin : min (digitsValue v.bytes : ℤ) longMax = 2 ^ 63 - 1 := by
      rw [longMax]
      omega
    rw [hmin]
    omega

/-! ## Requests -/

/-- A request to create a topic offers a content format: it is link format, and the new resource
    has this as its attribute `ct`. -/
def Offers (b : Broker) (uri : CStr) (req : Request) (v : CStr) : Prop :=
  ∃ target, b.find uri = some target ∧ IsParent target ∧ IsLinkFormat req ∧
    ∃ p attrs attr, LinkText (CStr.read req.data).bytes p attrs ∧
      ((resourceAt target p).withAttrs attrs).findAttr ctName = some attr ∧ attr.value = v

/-- The topic a request creates has a content format, which its handlers read as the number it
    denotes, and a request that offers anything else is answered 4.06 and creates nothing. -/
structure OnlyContentFormatsCreate (b : Broker) (uri : CStr) (req : Request) (peer : CoapAddress)
    (token : List Byte) (now : ℤ) : Prop where
  created : ∀ b' out, step b (.request uri .post req peer token now) = .ok (b', out) →
    out.code = some (coapResponseCode 201) → ∃ r attr, b'.resources = b.resources.add r ∧
      r.findAttr ctName = some attr ∧ IsContentFormat attr.value ∧
      ctAttrValue r = .ok (digitsValue attr.value.bytes : ℤ)
  refused : ∀ v, Offers b uri req v → ¬IsContentFormat v →
    ∃ out, step b (.request uri .post req peer token now) = .ok (b, out) ∧
      out.code = some (coapResponseCode 406)

/-- The answer to a request that offers a content format. -/
theorem Offers.step_eq {b : Broker} {uri : CStr} {req : Request} {v : CStr}
    (h : Offers b uri req v) (peer : CoapAddress) (token : List Byte) (now : ℤ) :
    ∃ b' out, step b (.request uri .post req peer token now) = .ok (b', out) ∧
      (ctValueValid v = true → out.code ≠ some (coapResponseCode 406)) ∧
      (ctValueValid v = false → b' = b ∧ out.code = some (coapResponseCode 406)) := by
  obtain ⟨target, hfind, hparent, hlf, p, attrs, attr, htext, hattr, rfl⟩ := h
  have hparse := htext.parseLinkFormat_eq target
  generalize (resourceAt target p).withAttrs attrs = r at hattr hparse
  rw [step_post hfind hparent, hndPost_of_accepted hlf hparse, hattr]
  dsimp only
  rcases hct : ctValueValid attr.value with _ | _
  · exact ⟨b, _, rfl, nofun, fun _ => ⟨rfl, rfl⟩⟩
  · rw [if_neg (by decide)]
    split_ifs
    · exact ⟨_, _, rfl, fun _ => (code_topicExists b r (topicExpiry req now)).trans_ne (by decide),
        nofun⟩
    · exact ⟨_, _, rfl, fun _ => (code_topicCreated b r (topicExpiry req now)).trans_ne (by decide),
        nofun⟩

/-- In every reachable state, a request to create a topic does so only with a content format
    exactly if what it offers is a content format, or is not a text of digits, or is a text of
    digits for a number that is not a 16-bit number modulo 2^32 or that is no `long`. -/
theorem only_content_formats_create_iff {mqttBridge rdServer : Bool} {b : Broker}
    (hb : Reachable step (boot mqttBridge rdServer) b) (uri : CStr) (req : Request)
    (peer : CoapAddress) (token : List Byte) (now : ℤ) :
    OnlyContentFormatsCreate b uri req peer token now ↔
      ∀ v, Offers b uri req v → v.bytes.all isdigit = true → v ≠ CStr.empty ∧
        (digitsValue v.bytes ≤ 65535 ∨ 65535 < digitsValue v.bytes % 2 ^ 32 ∨
          2 ^ 63 ≤ digitsValue v.bytes) := by
  constructor
  · intro h v hv hdigits
    by_cases hformat : IsContentFormat v
    · exact ⟨hformat.1, .inl hformat.2.2⟩
    -- what is no content format is refused, so the handler has not let it through
    obtain ⟨out, hstep, hcode⟩ := h.refused v hv hformat
    obtain ⟨b', out', hstep', hvalid, -⟩ := hv.step_eq peer token now
    rw [hstep, Except.ok.injEq] at hstep'
    obtain rfl : out = out' := congrArg Prod.snd hstep'
    have hnot : ¬(v.bytes.all isdigit = true ∧ digitsValue v.bytes < 2 ^ 63 ∧
        digitsValue v.bytes % 2 ^ 32 ≤ 65535) :=
      fun hct => hvalid (ctValueValid_iff.2 hct) hcode
    refine ⟨fun hempty => hnot ⟨hdigits, ?_⟩, ?_⟩
    · rw [hempty]
      decide
    · have hor := not_and.1 hnot hdigits
      omega
  · intro h
    have hformat : ∀ v, Offers b uri req v → ctValueValid v = true → IsContentFormat v := by
      intro v hv hct
      obtain ⟨hdigits, hlt, hmod⟩ := ctValueValid_iff.1 hct
      obtain ⟨hne, hor⟩ := h v hv hdigits
      exact ⟨hne, hdigits, by omega⟩
    constructor
    · intro b' out hstep hcode
      rcases step_post_cases hb.agreement hstep with
        ⟨-, hne, -⟩ | ⟨target, r, hfind, hparent, hr, ⟨-, heq⟩ | ⟨-, heq⟩⟩
      · exact absurd hcode hne
      · obtain rfl : out = (topicExists b r (topicExpiry req now)).2 := congrArg Prod.snd heq
        rw [code_topicExists] at hcode
        exact absurd hcode (by decide)
      · cases heq
        obtain ⟨hlf, ⟨p, attrs, htext, rfl⟩, attr, hattr, hct⟩ := hr
        have hv := hformat attr.value
          ⟨target, hfind, hparent, hlf, p, attrs, attr, htext, hattr, rfl⟩ hct
        refine ⟨_, attr, rfl, hattr, hv, ?_⟩
        rw [ctAttrValue, ← atoi_of_isContentFormat hv]
        exact hattr ▸ rfl
    · intro v hv hnot
      obtain ⟨b', out, hstep, -, hrefused⟩ := hv.step_eq peer token now
      obtain ⟨rfl, hcode⟩ := hrefused
        (Bool.eq_false_iff.2 fun hct => hnot (hformat v hv hct))
      exact ⟨out, hstep, hcode⟩

/-- A request with the payload `<a>;ct=40`. -/
theorem only_content_formats_create_text :
    OnlyContentFormatsCreate (boot false false) brokerPath (linkFormatRequest "<a>;ct=40") [] [] 1 := by
  refine (only_content_formats_create_iff .init brokerPath _ [] [] 1).2 ?_
  rintro v ⟨target, hfind, -, -, p, attrs, attr, htext, hattr, rfl⟩ -
  obtain rfl : brokerResource = target := Option.some.inj hfind
  obtain ⟨r, hr, hct⟩ : ∃ r, parseLinkFormat (CStr.read (linkFormatRequest "<a>;ct=40").data)
      brokerResource = .ok (.live r, true) ∧
      (r.findAttr ctName).map CoapAttr.value = some (CStr.lit "40") := ⟨_, rfl, by decide⟩
  rw [htext.parseLinkFormat_eq brokerResource, Except.ok.injEq, Prod.mk.injEq,
    NewResource.live.injEq] at hr
  rw [← hr.1, hattr, Option.map_some, Option.some.injEq] at hct
  rw [hct]
  decide

/-- The number 2^32, and no number at all: both are let through, and `atoi` makes `0` of them. -/
theorem no_content_format_creates :
    (∃ b out r, step (boot false false) (.create "ps" "<a>;ct=4294967296" none 1) = .ok (b, out) ∧
      out.code = some (coapResponseCode 201) ∧ b.find (CStr.lit "ps/a") = some r ∧
      (r.findAttr ctName).map CoapAttr.value = some (CStr.lit "4294967296") ∧
      ctAttrValue r = .ok 0) ∧
    (∃ b out r, step (boot false false) (.create "ps" "<a>;ct=\"\"" none 1) = .ok (b, out) ∧
      out.code = some (coapResponseCode 201) ∧ b.find (CStr.lit "ps/a") = some r ∧
      (r.findAttr ctName).map CoapAttr.value = some CStr.empty ∧ ctAttrValue r = .ok 0) ∧
    ¬IsContentFormat (CStr.lit "4294967296") ∧ ¬IsContentFormat CStr.empty :=
  ⟨⟨_, _, _, rfl, by decide, rfl, by decide, by rfl⟩,
    ⟨_, _, _, rfl, by decide, rfl, by decide, by rfl⟩,
    fun h => absurd h.2.2 (by decide), fun h => h.1 rfl⟩

end CoapBroker
